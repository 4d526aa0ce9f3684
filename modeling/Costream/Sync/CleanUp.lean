import Costream.Sync.ConditionVariable

/-!
# Who is evicted from the queue

`WaitQueue::push` evicts an entry that `isValid` finds invalid, and that should be one
whose wait has ended.  `isValid` is wrong in two ways.

* A native thread is valid while `notified` is locked, and nobody locks it.  So it is
  invalid from the moment it has a `nativeThreadEntry`.
* The waiter announces its suspension before it has a `nativeThreadEntry` or a
  `coroEntry`, and an empty `coroEntry` is expired.  The timer can also end a suspension
  before the waiter has published it.

`Fit` rules out that the clean-up looks at such an entry at such a time.
-/

namespace Costream.Sync.CondVar

open Trace

/-- The waiter has published its suspension, and is not suspended any more. -/
def Ended (e : Entry.State) : Prop :=
  match e.waiter with
  | .sleep => e.kind = .coroutine ∧ e.suspension = .ended
  | .settle | .done _ => True
  | _ => False

/-- Every entry is in the queue, has been popped, or its wait has ended. -/
def Kept (s : State) : Prop :=
  ∀ i < s.pushed, i ∈ s.linked ∨ s.popped i = true ∨ ∃ e, s.entry i = some e ∧ Ended e

/-- A native thread has set its `nativeThreadEntry`, and waits. -/
def ThreadWaits (e : Entry.State) : Bool :=
  match e.waiter with
  | .publish _ | .block | .sleep => e.kind = .thread
  | _ => false

/-- The waiter is between `suspend_begin` and `suspend_end`, and its `coroEntry` is not
assigned yet or has expired. -/
def Halfway (e : Entry.State) : Bool :=
  match e.waiter with
  | .suspend _ | .assign _ => true
  | .publish _ => e.suspension ≠ .pending
  | _ => false

/-- The clean-up does not look at the `nativeThreadEntry` of a thread that waits, nor at
the `coroEntry` of one that has not set it. -/
def Fit (s : State) : Action → Prop
  | .check =>
    match s.lock with
    | .native i _ => (s.entry i).all fun e => !ThreadWaits e
    | .expire i _ => (s.entry i).all fun e => !ThreadWaits e && !Halfway e
    | _ => True
  | _ => True

instance (s : State) (a : Action) : Decidable (Fit s a) := by
  unfold Fit
  split
  · split <;> infer_instance
  · infer_instance

/-! ## The verdict -/

/-- The waiter has announced its suspension. -/
def Begun (e : Entry.State) : Prop :=
  match e.waiter with
  | .load | .announce _ | .spin => False
  | _ => True

variable {s : State} {e : Entry.State}

/-- Only the waiter itself moves on, and nobody takes back that a suspension is over. -/
theorem waiter_frame {b : Entry.Action} (hb : b ≠ .waiter) (hen : Entry.Enabled e b = true) :
    ((Entry.step e b).waiter = e.waiter ∨ b = .waiterAgain ∧ ∃ flag, e.waiter = .announce flag) ∧
      (Entry.step e b).kind = e.kind ∧
      (e.suspension = .ended → (Entry.step e b).suspension = .ended) := by
  cases b with
  | waiter => exact absurd rfl hb
  | waiterAgain =>
    cases hw : e.waiter <;> simp [Entry.Enabled, hw] at hen
    exact ⟨.inr ⟨rfl, _, rfl⟩, rfl, id⟩
  | fire => exact ⟨.inl rfl, rfl, fun _ => rfl⟩
  | notifier =>
    simp only [Entry.step]
    split
    · unfold Entry.notifierStep
      split <;> (try split) <;> first | exact ⟨.inl rfl, rfl, id⟩ | exact ⟨.inl rfl, rfl, fun _ => rfl⟩
    · exact ⟨.inl rfl, rfl, id⟩
  | notifierAgain | leave =>
    simp only [Entry.step]
    split <;> exact ⟨.inl rfl, rfl, id⟩
  | pass | pop | evict => exact ⟨.inl rfl, rfl, id⟩

theorem Ended.step (h : Ended e) {b : Entry.Action} (hen : Entry.Enabled e b = true) :
    Ended (Entry.step e b) := by
  by_cases hb : b = .waiter
  · subst hb
    unfold Ended at h
    simp only [Entry.step]
    unfold Entry.waiterStep
    cases hw : e.waiter <;> simp only [hw] at h
    · simp [h.1, Ended]
    · simp [Ended]
    · simp [Ended, hw]
  · obtain ⟨hw, hk, hover⟩ := waiter_frame hb hen
    unfold Ended at h ⊢
    rcases hw with hw | ⟨-, flag, hw⟩
    · rw [hw]
      cases hpc : e.waiter with
      | sleep =>
        simp only [hpc] at h ⊢
        exact ⟨hk.trans h.1, hover h.2⟩
      | _ => simp_all
    · simp [hw] at h

theorem Begun.step (h : Begun e) {b : Entry.Action} (hen : Entry.Enabled e b = true) :
    Begun (Entry.step e b) := by
  by_cases hb : b = .waiter
  · subst hb
    unfold Begun at h
    simp only [Entry.step]
    unfold Entry.waiterStep
    cases hw : e.waiter <;> simp only [hw] at h ⊢ <;> cases hk : e.kind <;> simp [Begun, hw]
  · obtain ⟨hw, -, -⟩ := waiter_frame hb hen
    unfold Begun at h ⊢
    rcases hw with hw | ⟨-, flag, hw⟩
    · rw [hw]
      exact h
    · simp [hw] at h

/-- `isValid` asks for more when the waiter has announced its suspension. -/
theorem begun_of_suspendBegin (h : Entry.Inv e) (hf : e.flags.suspendBegin = true) : Begun e := by
  have hw := h.waiter
  unfold Entry.WaiterOk at hw
  unfold Begun
  have hawake : ¬ Entry.Awake e := by
    rintro ⟨hz | hz | hz, -⟩ <;>
      simp [hz, Entry.Flags.zero, Entry.Flags.waking, Entry.Flags.woken] at hf
  cases hpc : e.waiter <;> simp only [hpc] at hw ⊢
  · exact hawake hw
  · exact hawake hw.2
  · exact hawake hw

/-- A native thread is invalid, and does not wait. -/
theorem ended_of_native (h : Entry.Inv e) (hn : e.nativeThreadEntry = true)
    (hfit : ThreadWaits e = false) : Ended e := by
  have hw := h.waiter
  unfold Entry.WaiterOk at hw
  unfold ThreadWaits at hfit
  unfold Ended
  have hawake : ¬ Entry.Awake e := fun ha => by simp [ha.2.2.2.1] at hn
  have hknown : Entry.Known e → e.kind = .thread := fun hk => by
    cases hkind : e.kind with
    | thread => rfl
    | coroutine => simp [(hk.1 hkind).2.2.1] at hn
  cases hpc : e.waiter <;> simp only [hpc] at hw hfit ⊢
  · exact hawake hw
  · exact hawake hw.2
  · exact hawake hw
  · simp [hw.2.2.2.2.1] at hn
  · simp [hw.2.2.2.2.1] at hn
  · simp [hknown hw.2.2.1] at hfit
  · simp [hw.1] at hfit
  · simp [hknown hw.2.1] at hfit

/-- The `coroEntry` of a suspended coroutine has expired. -/
theorem ended_of_expire (h : Entry.Inv e) (hb : Begun e)
    (hx : (e.coroEntry && e.suspension = .pending) = false) (hfit : ThreadWaits e = false)
    (hhalf : Halfway e = false) : Ended e := by
  have hw := h.waiter
  unfold Entry.WaiterOk at hw
  unfold ThreadWaits at hfit
  unfold Halfway at hhalf
  unfold Begun at hb
  unfold Ended
  have hkind : e.kind ≠ .thread → e.kind = .coroutine := fun hk => by
    cases hkind : e.kind with
    | coroutine => rfl
    | thread => exact absurd hkind hk
  cases hpc : e.waiter <;> simp only [hpc] at hw hfit hhalf hb ⊢
  · cases hhalf
  · cases hhalf
  · have hk := hkind (by simpa using hfit)
    have hp : e.suspension = .pending := by simpa using hhalf
    simp [(hw.2.2.1.1 hk).2.1, hp] at hx
  · simp [hw.1] at hfit
  · have hk := hkind (by simpa using hfit)
    obtain ⟨hs, hc, -⟩ := hw.2.1.1 hk
    refine ⟨hk, ?_⟩
    cases hsusp : e.suspension with
    | none => exact absurd hsusp hs
    | pending => simp [hc, hsusp] at hx
    | ended => rfl

/-! ## The steps -/

theorem isSome_update {p i : Nat} {e' : Option Entry.State} (hi : (s.entry i).isSome = true)
    (hp : i = p → e'.isSome = true) : (Function.update s.entry p e' i).isSome = true := by
  by_cases hip : i = p
  · subst hip
    rw [Function.update_self]
    exact hp rfl
  · rwa [Function.update_of_ne hip]

theorem Sound.isSome_step (h : Sound s) {a : Action} {i : Nat}
    (hi : (s.entry i).isSome = true) : ((CondVar.step s a).entry i).isSome = true := by
  have hevict : ∀ p rounds, ((CondVar.evict s p rounds).entry i).isSome = true := fun p rounds =>
    isSome_update hi fun hip => by simpa [← hip] using hi
  cases a with
  | push kind deadline needWait =>
    refine isSome_update hi fun his => ?_
    simp [his, h.unborn s.pushed (Nat.le_refl _)] at hi
  | check =>
    simp only [CondVar.step]
    unfold CondVar.check
    split
    · exact hi
    · split
      · exact hi
      · split <;> exact hi
    · split
      · exact hevict _ _
      · exact hi
    · split
      · exact hevict _ _
      · exact hi
    · exact hi
  | pop =>
    simp only [CondVar.step, pop]
    split <;> exact hi
  | pass =>
    simp only [CondVar.step]
    unfold pass
    split
    · split
      · exact hi
      · split
        · exact hi
        · exact isSome_update hi fun _ => rfl
    · split
      · exact isSome_update hi fun _ => rfl
      · exact hi
    · refine isSome_update hi fun hip => ?_
      rw [Option.isSome_map, ← hip]
      exact hi
    · exact hi
  | entry j b =>
    simp only [CondVar.step]
    split
    · exact isSome_update hi fun _ => rfl
    · exact hi

/-- An entry stays what it is, or takes a step of its own. -/
theorem Sound.forward (h : Sound s) {a : Action} (he : Enabled s a = true) {i : Nat}
    (hi : s.entry i = some e) : ∃ e', (CondVar.step s a).entry i = some e' ∧
      (e' = e ∨ ∃ b, Entry.Enabled e b = true ∧ e' = Entry.step e b) := by
  obtain ⟨e', he'⟩ := Option.isSome_iff_exists.1 (h.isSome_step (a := a) (i := i) (by simp [hi]))
  refine ⟨e', he', ?_⟩
  cases h.becomes he he' with
  | same hsame =>
    rw [hi] at hsame
    exact .inl (Option.some.inj hsame).symm
  | born hnone => simp [hi] at hnone
  | step f b hf hen hstep _ =>
    rw [hi] at hf
    cases hf
    exact .inr ⟨b, hen, hstep⟩

/-- The clean-up looks at an entry whose waiter has announced its suspension. -/
def Looking (s : State) : Prop :=
  ∀ i rounds, s.lock = .native i rounds ∨ s.lock = .expire i rounds →
    ∃ e, s.entry i = some e ∧ Begun e

/-- The clean-up goes on with an entry when its flags tell it to. -/
theorem looking_at {a : Action} {i rounds : Nat}
    (hlock : (CondVar.step s a).lock = .native i rounds ∨
      (CondVar.step s a).lock = .expire i rounds) :
    (∃ rounds', s.lock = .native i rounds' ∨ s.lock = .expire i rounds') ∨
      ∃ e, s.entry i = some e ∧ e.flags.suspendBegin = true := by
  cases a with
  | push kind deadline needWait =>
    simp only [CondVar.step, push] at hlock
    split at hlock <;> rcases hlock with hlock | hlock <;> cases hlock
  | check =>
    simp only [CondVar.step] at hlock
    unfold CondVar.check at hlock
    split at hlock
    · rcases hlock with hlock | hlock <;> cases hlock
    · split at hlock
      · rcases hlock with hlock | hlock <;> cases hlock
      · split at hlock
        · rcases hlock with hlock | hlock <;> cases hlock
        · rename_i p hp hvalid
          rcases hlock with hlock | hlock <;> cases hlock
          unfold validAtOnce at hvalid
          split at hvalid
          · rename_i e hi
            exact .inr ⟨e, hi, by simp_all⟩
          · exact absurd rfl hvalid
    · split at hlock
      · rcases hlock with hlock | hlock <;> cases hlock
      · rename_i p rounds' hl _
        rcases hlock with hlock | hlock <;> cases hlock
        exact .inl ⟨_, .inl hl⟩
    · split at hlock <;> rcases hlock with hlock | hlock <;> cases hlock
    · exact .inl ⟨_, hlock⟩
  | pop =>
    simp only [CondVar.step, pop] at hlock
    split at hlock
    · rcases hlock with hlock | hlock <;> cases hlock
    · exact .inl ⟨_, hlock⟩
  | pass =>
    simp only [CondVar.step] at hlock
    unfold pass at hlock
    split at hlock
    · split at hlock
      · rcases hlock with hlock | hlock <;> cases hlock
      · split at hlock <;> rcases hlock with hlock | hlock <;> cases hlock
    · split at hlock
      · simp only [passed] at hlock
        split at hlock <;> rcases hlock with hlock | hlock <;> cases hlock
      · exact .inl ⟨_, hlock⟩
    · rcases hlock with hlock | hlock <;> cases hlock
    · exact .inl ⟨_, hlock⟩
  | entry j b =>
    simp only [CondVar.step] at hlock
    split at hlock <;> exact .inl ⟨_, hlock⟩

theorem Looking.step (hl : Looking s) (h : Sound s)
    (hinv : ∀ i e, s.entry i = some e → Entry.Inv e) {a : Action} (he : Enabled s a = true) :
    Looking (CondVar.step s a) := by
  intro i rounds hlock
  obtain ⟨e, hi, hb⟩ : ∃ e, s.entry i = some e ∧ Begun e := by
    rcases looking_at hlock with ⟨rounds', hl'⟩ | ⟨e, hi, hf⟩
    · exact hl i rounds' hl'
    · exact ⟨e, hi, begun_of_suspendBegin (hinv i e hi) hf⟩
  obtain ⟨e', he', rfl | ⟨b, hen, rfl⟩⟩ := h.forward he hi
  · exact ⟨e', he', hb⟩
  · exact ⟨_, he', hb.step hen⟩

/-- `push` evicts only entries whose wait has ended. -/
theorem linked_check (hinv : ∀ i e, s.entry i = some e → Entry.Inv e)
    (hl : Looking s) (he : s.lock.cleaning = true) (hfit : Fit s .check) {i : Nat}
    (hi : i ∈ s.linked) : i ∈ (CondVar.check s).linked ∨ ∃ e, s.entry i = some e ∧ Ended e := by
  have hpushing : s.lock.pushing = true := by simp [Section.pushing, he]
  have hi' : i ∈ s.queue.nodes := linked_of_pushing hpushing ▸ hi
  have hevict : ∀ p rounds, (i = p → ∃ e, s.entry i = some e ∧ Ended e) →
      i ∈ (CondVar.evict s p rounds).linked ∨ ∃ e, s.entry i = some e ∧ Ended e := by
    intro p rounds hp
    by_cases hip : i = p
    · exact .inr (hp hip)
    · have hmem : i ∈ s.queue.nodes.erase p := (List.mem_erase_of_ne hip).2 hi'
      exact .inl hmem
  unfold Fit at hfit
  unfold CondVar.check
  split
  · exact .inl hi'
  · split
    · exact .inl hi'
    · split <;> exact .inl hi'
  · rename_i p rounds hlock
    simp only [hlock] at hfit
    split
    · rename_i hnative
      refine hevict p rounds fun hip => ?_
      subst hip
      obtain ⟨e, hie, -⟩ := hl i rounds (.inl hlock)
      simp only [nativeThreadEntry, hie, Option.any_some] at hnative
      simp only [hie, Option.all_some, Bool.not_eq_true'] at hfit
      exact ⟨e, hie, ended_of_native (hinv i e hie) hnative hfit⟩
    · exact .inl hi'
  · rename_i p rounds hlock
    simp only [hlock] at hfit
    split
    · rename_i hexpire
      refine hevict p rounds fun hip => ?_
      subst hip
      obtain ⟨e, hie, hb⟩ := hl i rounds (.inr hlock)
      simp only [isExpire, hie, Option.any_some, Bool.not_eq_true'] at hexpire
      simp only [hie, Option.all_some, Bool.and_eq_true, Bool.not_eq_true'] at hfit
      exact ⟨e, hie, ended_of_expire (hinv i e hie) hb hexpire hfit.1 hfit.2⟩
    · exact .inl hi'
  · exact .inl hi

theorem linked_step (hinv : ∀ i e, s.entry i = some e → Entry.Inv e)
    (hl : Looking s) {a : Action} (he : Enabled s a = true) (hfit : Fit s a) {i : Nat}
    (hi : i ∈ s.linked) : i ∈ (CondVar.step s a).linked ∨
      (CondVar.step s a).popped i = true ∨ ∃ e, s.entry i = some e ∧ Ended e := by
  cases a with
  | push kind deadline needWait =>
    have hlock : s.lock = .free := by simpa [Enabled] using he
    have hlinked : s.linked = s.queue.nodes :=
      linked_of_pushing (by simp [hlock, Section.pushing])
    have hi' : i ∈ s.queue.nodes := hlinked ▸ hi
    refine .inl ?_
    simp only [CondVar.step, push]
    split <;> simp [State.linked, hi']
  | check => exact (linked_check hinv hl he hfit hi).imp id .inr
  | pop =>
    simp only [Enabled, Bool.and_eq_true, decide_eq_true_eq] at he
    have hlinked : s.linked = s.queue.nodes :=
      linked_of_pushing (by simp [he.1, Section.pushing])
    have hi' : i ∈ s.queue.nodes := hlinked ▸ hi
    refine .inl ?_
    simp only [CondVar.step, pop]
    split
    · rename_i ptr rest hnodes
      rw [hnodes] at hi'
      simpa [State.linked, hnodes] using hi'
    · exact hi
  | pass =>
    simp only [CondVar.step]
    unfold pass
    split
    · rename_i ptr hlock
      have hi' : i ∈ ptr :: s.queue.nodes := by simpa [State.linked, hlock] using hi
      refine .inl ?_
      split
      · exact hi'
      · split <;> exact hi'
    · rename_i ptr p hlock
      have hi' : i ∈ ptr :: s.queue.nodes := by simpa [State.linked, hlock] using hi
      refine .inl ?_
      split
      · simp only [passed]
        split <;> exact hi'
      · exact hi
    · rename_i ptr hlock
      have hi' : i ∈ ptr :: s.queue.nodes := by simpa [State.linked, hlock] using hi
      rcases List.mem_cons.1 hi' with rfl | hi'
      · exact .inr (.inl (by simp [CondVar.leave]))
      · exact .inl hi'
    · exact .inl hi
  | entry j b =>
    refine .inl ?_
    simp only [CondVar.step]
    split <;> exact hi

theorem pushed_step (s : State) (a : Action) : (CondVar.step s a).pushed = s.pushed ∨
    (CondVar.step s a).pushed = s.pushed + 1 ∧ s.pushed ∈ (CondVar.step s a).linked := by
  cases a with
  | push kind deadline needWait =>
    refine .inr ⟨rfl, ?_⟩
    simp only [CondVar.step, push]
    split <;> simp [State.linked]
  | check =>
    refine .inl ?_
    simp only [CondVar.step]
    unfold CondVar.check
    split
    · rfl
    · split
      · rfl
      · split <;> rfl
    · split <;> rfl
    · split <;> rfl
    · rfl
  | pop =>
    refine .inl ?_
    simp only [CondVar.step, pop]
    split <;> rfl
  | pass =>
    refine .inl ?_
    simp only [CondVar.step]
    unfold pass
    split
    · split
      · rfl
      · split <;> rfl
    · split <;> rfl
    · rfl
    · rfl
  | entry j b =>
    refine .inl ?_
    simp only [CondVar.step]
    split <;> rfl

/-- What has been popped stays popped. -/
theorem popped_step (s : State) (a : Action) {i : Nat} (hi : s.popped i = true) :
    (CondVar.step s a).popped i = true := by
  cases a with
  | check =>
    simp only [CondVar.step]
    unfold CondVar.check
    split
    · exact hi
    · split
      · exact hi
      · split <;> exact hi
    · split <;> exact hi
    · split <;> exact hi
    · exact hi
  | pop =>
    simp only [CondVar.step, pop]
    split <;> exact hi
  | pass =>
    simp only [CondVar.step]
    unfold pass
    split
    · split
      · exact hi
      · split <;> exact hi
    · split <;> exact hi
    · rename_i ptr _
      simp only [CondVar.leave]
      by_cases hip : i = ptr
      · simp [hip]
      · simpa [hip] using hi
    · exact hi
  | push kind deadline needWait => exact hi
  | entry j b =>
    simp only [CondVar.step]
    split <;> exact hi

theorem Kept.step (hk : Kept s) (h : Sound s) (hinv : ∀ i e, s.entry i = some e → Entry.Inv e)
    (hl : Looking s) {a : Action} (he : Enabled s a = true) (hfit : Fit s a) :
    Kept (CondVar.step s a) := by
  have hended : ∀ i, (∃ e, s.entry i = some e ∧ Ended e) →
      ∃ e, (CondVar.step s a).entry i = some e ∧ Ended e := by
    rintro i ⟨e, hi, hb⟩
    obtain ⟨e', he', rfl | ⟨b, hen, rfl⟩⟩ := h.forward he hi
    · exact ⟨e', he', hb⟩
    · exact ⟨_, he', hb.step hen⟩
  have hold : ∀ i < s.pushed, i ∈ (CondVar.step s a).linked ∨
      (CondVar.step s a).popped i = true ∨
        ∃ e, (CondVar.step s a).entry i = some e ∧ Ended e := by
    intro i hi
    rcases hk i hi with hlinked | hpopped | hend
    · exact (linked_step hinv hl he hfit hlinked).imp id (.imp id (hended i))
    · exact .inr (.inl (popped_step s a hpopped))
    · exact .inr (.inr (hended i hend))
  intro i hi
  rcases pushed_step s a with hp | ⟨hp, hmem⟩
  · exact hold i (hp ▸ hi)
  · rcases Nat.lt_succ_iff_lt_or_eq.1 (hp ▸ hi) with hlt | rfl
    · exact hold i hlt
    · exact .inl hmem

/-! ## The theorem -/

/-- In every run in which the clean-up does not look at a native thread that waits, nor at a
`coroEntry` that is not there yet, an entry stays in the queue until it is popped or
its wait has ended. -/
theorem no_waiter_dropped {posDistance : Nat} (hr : Run machine Fit (initial posDistance) s) :
    Kept s := by
  have hall : ∀ t, Run machine Fit (initial posDistance) t → Kept t ∧ Looking t := by
    intro t ht
    induction ht with
    | refl =>
      refine ⟨fun i hi => ?_, fun i r hl => ?_⟩
      · cases hi
      · rcases hl with hl | hl <;> cases hl
    | @tail t u a ht he hok hs ih =>
      cases hs
      have hinv : ∀ i e, t.entry i = some e → Entry.Inv e := by
        intro i e hi
        obtain ⟨kind, deadline, hre⟩ := entry_run anyAction (fun _ _ _ _ _ _ => trivial)
          (fun _ _ _ => trivial) ht hi
        exact .of_run hre
      have hsound := Sound.of_run ht
      exact ⟨ih.1.step hsound hinv ih.2 he hok, ih.2.step hsound hinv he⟩
  exact (hall s hr).1

/-- A coroutine that has timed out is evicted when the queue has become long enough. -/
theorem no_waiter_dropped_evicted : ∃ s, Run machine Fit (initial 0) s ∧
    (s.pushed = 16 ∧ 0 ∉ s.linked) ∧ Kept s := by
  have hexec : (machine.exec Fit (initial 0)
      ([.push .coroutine true true, .entry 0 .waiter, .entry 0 .waiter, .entry 0 .waiter,
        .entry 0 .waiter, .entry 0 .waiter, .entry 0 .fire, .entry 0 .waiter,
        .entry 0 .waiter] ++ List.replicate 15 (.push .coroutine false true) ++
        List.replicate 4 .check)).any (fun s => s.pushed = 16 && !decide (0 ∈ s.linked)) =
      true := by decide +kernel
  obtain ⟨s, hr, hs⟩ := Run.exists_of_exec hexec
  exact ⟨s, hr, by simpa using hs, no_waiter_dropped hr⟩

/-- A native thread waits, and is evicted by the sixteenth push. -/
theorem waiter_dropped : ¬ ∀ s, Run machine anyAction (initial 0) s → Kept s := by
  intro hall
  have hexec : (machine.exec anyAction (initial 0)
      ([.push .thread false true, .entry 0 .waiter, .entry 0 .waiter, .entry 0 .waiter,
        .entry 0 .waiter, .entry 0 .waiter] ++ List.replicate 15 (.push .coroutine false true) ++
        [.check, .check])).any (fun s => s.pushed = 16 && !decide (0 ∈ s.linked) &&
          !s.popped 0 && (s.entry 0).any fun e => e.waiter = .sleep && e.kind = .thread) =
      true := by decide +kernel
  obtain ⟨s, hr, hs⟩ := Run.exists_of_exec hexec
  simp only [Bool.and_eq_true, decide_eq_true_eq, Bool.not_eq_true', decide_eq_false_iff_not,
    Option.any_eq_true] at hs
  obtain ⟨⟨⟨hpushed, hlinked⟩, hpopped⟩, e, hi, hw, hk⟩ := hs
  rcases hall s hr 0 (by omega) with hmem | hpop | ⟨f, hf, hend⟩
  · exact hlinked hmem
  · rw [hpopped] at hpop
    cases hpop
  · rw [hi] at hf
    cases hf
    simp [Ended, hw, hk] at hend

end Costream.Sync.CondVar
