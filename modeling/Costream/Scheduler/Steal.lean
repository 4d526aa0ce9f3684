import Costream.Scheduler.Sections

/-!
# `Steal`

`Steal(n)` takes tasks from the end of `newQueue_`, and, when these are too few, from the end of
`runnableQueue_`.  It erases the running and the next task from there before and pushes them again
after, and it knows by their tags whether they are linked there.
-/

namespace Costream.Scheduler

open Trace Costream.Lists

variable {s s' : State} {p p' t u k n : Nat} {q : Queue}

/-! ### `Steal` -/

theorem exists_decRef_eq (s : State) (t : Nat) : ∃ D C, s.decRef t = { s with
      reference := Function.update s.reference t (s.reference t - 1)
      deletions := D
      taskCount := C } ∧ (s.reference t ≠ 1 → D = s.deletions ∧ C = s.taskCount) := by
  unfold State.decRef
  dsimp only
  split
  · rename_i hzero
    rw [Function.update_self] at hzero
    exact ⟨_, _, rfl, fun hne => absurd (by omega) hne⟩
  · exact ⟨_, _, rfl, fun _ => ⟨rfl, rfl⟩⟩

/-- A state in the middle of the section of `Steal`: the tasks `out` have been erased from
`runnableQueue_`, and `kept` are left there. -/
def State.midway (s : State) (k p : Nat) (kept slist out : List Nat) (D : Nat → Nat) (C : Nat) :
    State :=
  { s with
    queues := Function.update (Function.update s.queues (.runnable p) kept) (.stolen k) slist
    check := fun t => if t ∈ out then none else s.check t
    reference := fun t => if t ∈ out then s.reference t - 1 else s.reference t
    deletions := D
    taskCount := C }

section midway

variable {kept slist out : List Nat} {D : Nat → Nat} {C : Nat}

theorem midway_start (s : State) (k p : Nat) :
    s.midway k p (s.queues (.runnable p)) (s.queues (.stolen k)) [] s.deletions s.taskCount = s := by
  ext1
  case queues =>
    show Function.update (Function.update s.queues (.runnable p) (s.queues (.runnable p)))
      (.stolen k) (s.queues (.stolen k)) = s.queues
    rw [Function.update_eq_self, Function.update_eq_self]
  all_goals rfl

@[simp] theorem midway_runnable :
    (s.midway k p kept slist out D C).queues (.runnable p) = kept := by
  show Function.update (Function.update s.queues (.runnable p) kept) (.stolen k) slist
    (.runnable p) = kept
  rw [Function.update_of_ne (by simp), Function.update_self]

@[simp] theorem midway_stolen :
    (s.midway k p kept slist out D C).queues (.stolen k) = slist := Function.update_self ..

theorem midway_setRunnable (kept' : List Nat) :
    (s.midway k p kept slist out D C).setQueue (.runnable p) kept' =
      s.midway k p kept' slist out D C := by
  ext1
  case queues =>
    show Function.update (Function.update (Function.update s.queues (.runnable p) kept)
      (.stolen k) slist) (.runnable p) kept' = _
    rw [Function.update_comm (by simp), Function.update_idem]
    rfl
  all_goals rfl

theorem midway_setStolen (slist' : List Nat) :
    (s.midway k p kept slist out D C).setQueue (.stolen k) slist' =
      s.midway k p kept slist' out D C := by
  ext1
  case queues =>
    show Function.update (Function.update (Function.update s.queues (.runnable p) kept)
      (.stolen k) slist) (.stolen k) slist' = _
    rw [Function.update_idem]
    rfl
  all_goals rfl

theorem update_if_append {α : Type*} (f g : Nat → α) (out : List Nat) (t : Nat) :
    Function.update (fun u => if u ∈ out then g u else f u) t (g t) =
      fun u => if u ∈ out ++ [t] then g u else f u := by
  funext u
  by_cases hut : u = t
  · subst hut
    simp
  · simp [hut]

theorem update_if_cons {α : Type*} (f g : Nat → α) (out : List Nat) (t : Nat) (ht : t ∉ out) :
    Function.update (fun u => if u ∈ t :: out then g u else f u) t (f t) =
      fun u => if u ∈ out then g u else f u := by
  funext u
  by_cases hut : u = t
  · subst hut
    simp [ht]
  · simp [hut]

/-- One task is erased. -/
theorem midway_erase (slist out : List Nat) (D : Nat → Nat) (C : Nat) (ht : t ∈ kept)
    (hout : t ∉ out) (hcheck : s.check t = some (.runnable p)) :
    ∃ D' C', (s.midway k p kept slist out D C).eraseSelf k p (some t) =
      some (true, s.midway k p (kept.erase t) slist (out ++ [t]) D' C') ∧
        (s.reference t ≠ 1 → D' = D ∧ C' = C) := by
  obtain ⟨s₁, hs₁⟩ : ∃ s₁, s₁ = s.midway k p kept slist out D C := ⟨_, rfl⟩
  have hrunnable : s₁.queues (.runnable p) = kept := by rw [hs₁, midway_runnable]
  have hcheck₁ : s₁.check t = some (.runnable p) := by
    rw [hs₁]
    exact (if_neg hout).trans hcheck
  have href : s₁.reference t = s.reference t := by
    rw [hs₁]
    exact if_neg hout
  obtain ⟨D', C', hdec, hD⟩ := exists_decRef_eq
    ((s₁.setQueue (.runnable p) (kept.erase t)).setCheck t none) t
  refine ⟨D', C', ?_, fun hne => ?_⟩
  · rw [← hs₁]
    unfold State.eraseSelf State.erase
    dsimp only
    rw [if_pos hcheck₁, unlink_eq (by rw [hrunnable]; exact ht), Option.map_some, Option.map_some,
      hrunnable, hdec, hs₁, midway_setRunnable]
    congr 2
    ext1
    case check => exact update_if_append s.check (fun _ => none) out t
    case reference =>
      show Function.update (fun u => if u ∈ out then s.reference u - 1 else s.reference u) t
        ((if t ∈ out then s.reference t - 1 else s.reference t) - 1) = _
      rw [if_neg hout]
      exact update_if_append s.reference (fun u => s.reference u - 1) out t
    all_goals rfl
  · obtain ⟨hD, hC⟩ := hD (by rw [← href] at hne; exact hne)
    rw [hD, hC, hs₁]
    exact ⟨rfl, rfl⟩

/-- One task is pushed again. -/
theorem midway_push (hout : t ∉ out) (hcheck : s.check t = some (.runnable p)) :
    (s.midway k p kept slist (t :: out) D C).push (.runnable p) t =
      s.midway k p (kept ++ [t]) slist out D C := by
  unfold State.push State.link
  rw [midway_runnable, midway_setRunnable]
  ext1
  case check =>
    show Function.update (fun u => if u ∈ t :: out then none else s.check u) t
      (some (.runnable p)) = _
    rw [← hcheck]
    exact update_if_cons s.check (fun _ => none) out t hout
  case reference =>
    show Function.update (fun u => if u ∈ t :: out then s.reference u - 1 else s.reference u) t
      ((if t ∈ t :: out then s.reference t - 1 else s.reference t) + 1) = _
    rw [if_pos (by simp), Int.sub_add_cancel]
    exact update_if_cons s.reference (fun u => s.reference u - 1) out t hout
  all_goals rfl

end midway

theorem eraseSelf_other {o : Option Nat} (hcheck : ∀ t, o = some t →
    s.check t ≠ some (.runnable p) ∧ s.check t ≠ some (.new p)) :
    s.eraseSelf k p o = some (false, s) := by
  cases o with
  | none => rfl
  | some t =>
    obtain ⟨h₁, h₂⟩ := hcheck t rfl
    unfold State.eraseSelf
    dsimp only
    rw [if_neg h₁, if_neg h₂]

/-- The running and the next task, where they are in `runnableQueue_`. -/
def State.self (s : State) (p : Nat) : List Nat :=
  (s.runningTask p).toList.filter (· ∈ s.queues (.runnable p)) ++ (s.nextTask p).toList

/-- What `Steal` can take from `runnableQueue_`. -/
def State.rest (s : State) (p : Nat) : List Nat := (s.queues (.runnable p)).diff (s.self p)

/-- The running task is linked elsewhere, and its tag says so. -/
theorem Links.check_ne (h : Links s) (hr : s.runningTask p = some t)
    (ht : t ∉ s.queues (.runnable p)) :
    s.check t ≠ some (.runnable p) ∧ s.check t ≠ some (.new p) := by
  rcases h.running_cases hr with ⟨q, hq, htag, hmem⟩ | ⟨-, hnone, -⟩
  · rw [h.tag q t htag hmem]
    constructor
    · intro he
      cases he
      exact ht hmem
    · intro he
      cases he
      cases htag
  · rw [hnone]
    exact ⟨by simp, by simp⟩

/-- The state after the section of `Steal` under the lock of `runnableQueue_`. -/
def State.stealt (s : State) (k p n : Nat) : State :=
  let slist := s.queues (.stolen k)
  let slist2 := State.popSome (n - slist.length) (s.rest p)
  { s.exchange (.runnable p) (.stolen k) (slist2.1 ++ s.self p) (slist2.2 ++ slist) s.check with
    stealing := Function.update s.stealing k none }

theorem pushSelf_some (s : State) (p t : Nat) :
    s.pushSelf p true (some t) = s.push (.runnable p) t := rfl

/-- The erase of the running task, which can be linked elsewhere. -/
theorem Links.erase_running (h : Links s) :
    ∃ own D C, own = (s.runningTask p).toList.filter (· ∈ s.queues (.runnable p)) ∧
      s.eraseSelf k p (s.runningTask p) = some (!own.isEmpty,
        s.midway k p ((s.queues (.runnable p)).diff own) (s.queues (.stolen k)) own D C) ∧
      ((∀ t ∈ own, s.reference t ≠ 1) → D = s.deletions ∧ C = s.taskCount) := by
  cases hr : s.runningTask p with
  | none => exact ⟨[], _, _, rfl, by rw [List.diff_nil, midway_start]; rfl, fun _ => ⟨rfl, rfl⟩⟩
  | some t =>
    by_cases ht : t ∈ s.queues (.runnable p)
    · have hcheck := h.tag _ t rfl ht
      obtain ⟨D, C, herase, hD⟩ := midway_erase (s := s) (k := k) (s.queues (.stolen k)) []
        s.deletions s.taskCount ht (by simp) hcheck
      rw [midway_start] at herase
      refine ⟨[t], D, C, by simp [ht], ?_, fun href => hD (href t (by simp))⟩
      rw [herase, List.diff_cons, List.diff_nil]
      rfl
    · refine ⟨[], s.deletions, s.taskCount, by simp [ht], ?_, fun _ => ⟨rfl, rfl⟩⟩
      rw [List.diff_nil, midway_start]
      refine eraseSelf_other fun u hu => ?_
      cases hu
      exact h.check_ne hr ht

/-- The section of `Steal` has a result, and this is it. -/
theorem Links.stealRest_eq (h : Links s) : ∃ D C, s.stealRest k p n =
      some { s.stealt k p n with deletions := D, taskCount := C } ∧
    ((∀ t ∈ s.self p, s.reference t ≠ 1) → D = s.deletions ∧ C = s.taskCount) := by
  obtain ⟨own, D, C, hown, herase, hD⟩ := h.erase_running (p := p) (k := k)
  have hlinked : ∀ t ∈ own, t ∈ s.queues (.runnable p) ∧ s.runningTask p = some t := by
    intro t ht
    rw [hown, List.mem_filter, Option.mem_toList] at ht
    exact ⟨of_decide_eq_true ht.2, ht.1⟩
  have hcheck : ∀ t ∈ own, s.check t = some (.runnable p) := fun t ht =>
    h.tag _ t rfl (hlinked t ht).1
  have hpush : ∀ kept slist out D C, (∀ t ∈ own, t ∉ out) →
      (s.midway k p kept slist (own ++ out) D C).pushSelf p (!own.isEmpty) (s.runningTask p) =
        s.midway k p (kept ++ own) slist out D C := by
    intro kept slist out D C hout
    cases hr : s.runningTask p with
    | none =>
      have hnil : own = [] := by rw [hown, hr]; rfl
      rw [hnil, List.append_nil]
      rfl
    | some t =>
      by_cases ht : t ∈ s.queues (.runnable p)
      · have hsingle : own = [t] := by rw [hown, hr]; simp [ht]
        rw [hsingle]
        exact midway_push (hout t (by simp [hsingle])) (hcheck t (by simp [hsingle]))
      · have hnil : own = [] := by rw [hown, hr]; simp [ht]
        rw [hnil, List.append_nil]
        rfl
  unfold State.stealRest
  rw [herase, Option.bind_some]
  cases hn : s.nextTask p with
  | none =>
    have hself : s.self p = own := by
      rw [State.self, hn, ← hown]
      exact List.append_nil _
    have hrest : s.rest p = (s.queues (.runnable p)).diff own := by rw [State.rest, hself]
    refine ⟨D, C, ?_, fun href => hD fun t ht => href t (by rw [hself]; exact ht)⟩
    have hpush' := hpush (State.popSome (n - (s.queues (.stolen k)).length) (s.rest p)).1
      ((State.popSome (n - (s.queues (.stolen k)).length) (s.rest p)).2 ++ s.queues (.stolen k)) []
      D C (by simp)
    rw [List.append_nil] at hpush'
    unfold State.eraseSelf
    rw [Option.map_some]
    dsimp only
    rw [midway_stolen, midway_runnable, midway_setRunnable, midway_setStolen, ← hrest, hpush',
      ← hself]
    rfl
  | some u =>
    obtain ⟨hmem, hne⟩ := (h.seated p).next u hn
    have hu : u ∉ own := fun ht => hne (hlinked u ht).2
    have hcheckU := h.tag _ u rfl hmem
    obtain ⟨D', C', herase', hD'⟩ := midway_erase (s := s) (k := k) (s.queues (.stolen k)) own D C
      (List.mem_diff_of_mem hmem hu) hu hcheckU
    have hself : s.self p = own ++ [u] := by
      rw [State.self, hn, ← hown]
      rfl
    have hrest : s.rest p = ((s.queues (.runnable p)).diff own).erase u := by
      rw [State.rest, hself, List.diff_append, List.diff_cons, List.diff_nil]
    refine ⟨D', C', ?_, fun href => ?_⟩
    · have hpush' := hpush (State.popSome (n - (s.queues (.stolen k)).length) (s.rest p)).1
        ((State.popSome (n - (s.queues (.stolen k)).length) (s.rest p)).2 ++ s.queues (.stolen k))
        [u] D' C' (fun t ht => by
          rw [List.mem_singleton]
          exact fun he => hu (he ▸ ht))
      rw [herase', Option.map_some]
      dsimp only
      rw [midway_stolen, midway_runnable, midway_setRunnable, midway_setStolen, ← hrest, hpush']
      rw [pushSelf_some, midway_push (by simp) hcheckU, List.append_assoc, ← hself]
      rfl
    · obtain ⟨h₁, h₂⟩ := hD' (href u (by simp [hself]))
      obtain ⟨h₃, h₄⟩ := hD fun t ht => href t (by simp [hself, ht])
      exact ⟨h₁.trans h₃, h₂.trans h₄⟩

theorem popSome_perm (n : Nat) (tasks : List Nat) :
    ((State.popSome n tasks).1 ++ (State.popSome n tasks).2).Perm tasks := by
  unfold State.popSome
  split
  · exact List.Perm.refl _
  · rw [State.popBack, List.take_append_drop]

theorem Links.self_nodup (h : Links s) : (s.self p).Nodup := by
  unfold State.self
  cases hn : s.nextTask p with
  | none => cases s.runningTask p <;> simp [List.Nodup.filter]
  | some u =>
    obtain ⟨-, hne⟩ := (h.seated p).next u hn
    cases hr : s.runningTask p with
    | none => simp
    | some t =>
      have htu : t ≠ u := fun he => hne (by rw [hr, he])
      by_cases ht : t ∈ s.queues (.runnable p) <;> simp [ht, htu]

theorem Links.self_subset (h : Links s) : ∀ t ∈ s.self p, t ∈ s.queues (.runnable p) := by
  intro t ht
  rcases List.mem_append.1 ht with ht | ht
  · exact of_decide_eq_true (List.mem_filter.1 ht).2
  · exact ((h.seated p).next t (Option.mem_toList.1 ht)).1

theorem Links.self_perm (h : Links s) : (s.rest p ++ s.self p).Perm (s.queues (.runnable p)) :=
  have hsub := List.subperm_of_subset h.self_nodup h.self_subset
  List.perm_append_comm.trans
    (List.subperm_append_diff_self_of_count_le (List.subperm_ext_iff.1 hsub))

theorem Links.stealt_perm (h : Links s) (slist : List Nat) :
    (((State.popSome n (s.rest p)).1 ++ s.self p) ++
      ((State.popSome n (s.rest p)).2 ++ slist)).Perm (s.queues (.runnable p) ++ slist) := by
  have hpop := popSome_perm n (s.rest p)
  rw [← List.append_assoc]
  refine List.Perm.append_right _ ?_
  rw [List.append_assoc]
  refine (List.Perm.append_left _ List.perm_append_comm).trans ?_
  rw [← List.append_assoc]
  exact (List.Perm.append_right _ hpop).trans h.self_perm

theorem Links.stealt (h : Links s) : Links (s.stealt k p n) := by
  have hne : Queue.runnable p ≠ .stolen k := by simp
  obtain ⟨kept, hkept⟩ : ∃ kept, kept =
      (State.popSome (n - (s.queues (.stolen k)).length) (s.rest p)).1 ++ s.self p := ⟨_, rfl⟩
  obtain ⟨taken, htaken⟩ : ∃ taken, taken =
      (State.popSome (n - (s.queues (.stolen k)).length) (s.rest p)).2 ++ s.queues (.stolen k) :=
    ⟨_, rfl⟩
  have hperm : (kept ++ taken).Perm (s.queues (.runnable p) ++ s.queues (.stolen k)) := by
    rw [hkept, htaken]
    exact h.stealt_perm _
  have hsub : ∀ t ∈ kept, t ∈ s.queues (.runnable p) := by
    intro t ht
    rw [hkept, List.mem_append] at ht
    rcases ht with ht | ht
    · have hrest := (popSome_perm _ (s.rest p)).mem_iff.1 (List.mem_append_left _ ht)
      exact h.self_perm.mem_iff.1 (List.mem_append_left _ hrest)
    · exact h.self_subset t ht
  have hlinks : Links (s.exchange (.runnable p) (.stolen k) kept taken s.check) := by
    refine h.exchange hne hperm (fun r t hr ht => ?_) (fun p' t ht => ?_) fun p' => ?_
    · have hrs : r ≠ .stolen k := by
        intro he
        rw [he] at hr
        cases hr
      by_cases hrr : r = .runnable p
      · subst hrr
        rw [exchange_other hne] at ht
        exact h.tag _ t hr (hsub t ht)
      · rw [exchange_of_ne hrr hrs] at ht
        exact h.tag r t hr ht
    · rw [exchange_of_ne (by simp) (by simp), exchange_of_ne (by simp) (by simp)] at ht
      exact h.gone p' t ht
    · refine ⟨fun t hself ht => ?_, fun t _ ht => .inl ?_, fun t _ ht => ?_,
        fun t _ hcheck habs => ?_, fun _ hg => ?_⟩
      · by_cases hp : p' = p
        · subst hp
          rw [exchange_other hne, hkept]
          refine List.mem_append_right _ ?_
          unfold State.self
          rcases hself with hr | hn
          · exact List.mem_append_left _ (by simp [hr, ht])
          · exact List.mem_append_right _ (by simp [hn])
        · rwa [exchange_of_ne (by simpa using hp) (by simp)]
      · rwa [exchange_of_ne (by simp) (by simp)]
      · rwa [exchange_of_ne (by simp) (by simp)]
      · exact ⟨hcheck, (absent_exchange hne hperm).2 habs⟩
      · rwa [exchange_of_ne (by simp) (by simp)]
  refine hlinks.of_core ?_
  rw [State.stealt, hkept, htaken]
  rfl

theorem Links.steal (h : Links s) (hk : s.queues (.stolen k) = []) : Links (s.steal k p n) := by
  have hperm : ((State.popSome n (s.queues (.new p))).1 ++
      (State.popSome n (s.queues (.new p))).2).Perm
        (s.queues (.new p) ++ s.queues (.stolen k)) := by
    rw [hk, List.append_nil]
    exact popSome_perm n _
  have hne : Queue.new p ≠ .stolen k := by simp
  have hlinks := h.exchange_untagged hne hperm (fun _ => rfl) (fun _ => rfl)
  unfold State.steal
  dsimp only
  split <;> exact hlinks.of_core rfl

/-! ### The lists of the dispatcher -/

theorem Links.append (h : Links s) {k' : Nat} (hne : k ≠ k') : Links (s.append k k') := by
  have hperm : ((s.queues (.stolen k) ++ s.queues (.stolen k')) ++ []).Perm
      (s.queues (.stolen k) ++ s.queues (.stolen k')) := by
    rw [List.append_nil]
  exact (h.exchange_untagged (by simpa using hne) hperm (fun _ => rfl) (fun _ => rfl)).of_core rfl

theorem Links.cut (h : Links s) {k' : Nat} (hne : k ≠ k') (hk : s.queues (.stolen k') = []) :
    Links (s.cut k k' n) := by
  have hperm : ((s.queues (.stolen k)).take n ++ (s.queues (.stolen k)).drop n).Perm
      (s.queues (.stolen k') ++ s.queues (.stolen k)) := by
    rw [hk, List.take_append_drop, List.nil_append]
  exact (h.exchange_untagged (by simpa using Ne.symm hne) hperm (fun _ => rfl)
    (fun _ => rfl)).of_core rfl

theorem Links.addTask (h : Links s) : Links (s.addTask k p) := by
  have hperm : ((s.queues (.new p) ++ s.queues (.stolen k)) ++ []).Perm
      (s.queues (.new p) ++ s.queues (.stolen k)) := by
    rw [List.append_nil]
  have hne : Queue.new p ≠ .stolen k := by simp
  have hlinks := h.exchange_untagged hne hperm (fun _ => rfl) (fun _ => rfl)
  unfold State.addTask
  refine Links.notifyCondition (hlinks.of_core ?_)
  rfl

/-! ### Every step -/

theorem Links.step (h : Links s) {a : Action} (he : Enabled s a = true)
    (hs : Scheduler.step s a = some s') : Links s' := by
  cases a with
  | create p =>
    cases hs
    exact h.create p
  | adder k =>
    obtain ⟨a, -, rfl⟩ := Option.map_eq_some_iff.1 hs
    exact h.adder k a
  | thread p => exact h.thread he hs
  | yield p =>
    cases hs
    simp only [Enabled, Bool.and_eq_true, decide_eq_true_eq] at he
    refine h.goto_like ?_ ?_ ?_ ?_
    all_goals rw [he.1]
    all_goals simp [Place.seat, Place.fresh, Place.taskState, Place.collecting]
  | suspend p =>
    simp only [Enabled, Bool.and_eq_true, decide_eq_true_eq] at he
    exact h.suspend he.1.1 he.2 hs
  | finish p =>
    simp only [Enabled, Bool.and_eq_true, decide_eq_true_eq] at he
    exact h.finish he.1.1 he.2 hs
  | spurious p =>
    cases hs
    simp only [Enabled, decide_eq_true_eq] at he
    refine h.goto_like ?_ ?_ ?_ ?_
    all_goals rw [he]
    all_goals simp [Place.seat, Place.fresh, Place.taskState, Place.collecting]
  | wake caller t id =>
    cases hs
    exact h.of_core rfl
  | wakeup k =>
    obtain ⟨w, -, hw⟩ := Option.bind_eq_some_iff.1 hs
    exact h.wakeup hw
  | steal k p n =>
    cases hs
    simp only [Enabled, Bool.and_eq_true, decide_eq_true_eq] at he
    exact h.steal he.1
  | stealRest k =>
    obtain ⟨r, -, hr⟩ := Option.bind_eq_some_iff.1 hs
    obtain ⟨D, C, heq, -⟩ := h.stealRest_eq (k := k) (p := r.1) (n := r.2)
    rw [heq, Option.some.injEq] at hr
    exact hr ▸ h.stealt.of_core rfl
  | append k k' =>
    cases hs
    simp only [Enabled, Bool.and_eq_true, decide_eq_true_eq] at he
    exact h.append he.1.1
  | cut k k' n =>
    cases hs
    simp only [Enabled, Bool.and_eq_true, decide_eq_true_eq] at he
    exact h.cut he.1.1.1 he.2
  | addTask k p =>
    cases hs
    exact h.addTask
  | notify p =>
    cases hs
    exact h.notifyCondition
  | stop =>
    cases hs
    exact h.of_core rfl

theorem links_of_run (hr : Run machine anyAction State.initial s) : Links s := by
  refine hr.invariant links_initial ?_
  rintro s a s' h he - hs
  exact h.step he hs

end Costream.Scheduler
