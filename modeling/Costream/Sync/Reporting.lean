import Costream.Sync.LockedChannel
import Mathlib.Tactic.Common

/-!
# What the parties of a hand-over are told

A value is handed over by the party that notifies.  The party that has waited
learns of it later, when it resumes, and then it looks at `closed_` first.
`reported` says that both sides are told of every hand-over in every run in
which `Close` never comes in between, and `closed_too_early` is a run in which
it does.

* `Settled` is a value whose `Push` succeeds, and `Honest` is the invariant: what
  a pop has been given and what is stored is settled, and a call that has taken
  part in a hand-over has returned true or will.
* The sections under the lock are short sequences of primitive changes.
  `HonestBut` allows for the two calls that have the lock, which have not
  returned yet.
-/

namespace Costream.Sync

open Trace

variable {T : Type*}

/-! ## Notification -/

/-- What `notify_one` does to the stages: entries whose wait has ended are lost,
and at most one entry is woken. -/
theorem notifyOne_spec {E : Type*} (call : E → Nat) (stage : Nat → Stage) (queue : List E) :
    (∀ i, (notifyOne call stage queue).2.2 i = stage i ∨
      stage i = .fired ∧ (notifyOne call stage queue).2.2 i = .lost ∨
      stage i = .waiting ∧ (notifyOne call stage queue).2.2 i = .woken) ∧
    (∀ e, (notifyOne call stage queue).1 = some e → e ∈ queue ∧
      (notifyOne call stage queue).2.2 (call e) = .woken ∧ stage (call e) = .waiting) ∧
    (∀ e ∈ (notifyOne call stage queue).2.1, e ∈ queue) := by
  induction queue generalizing stage with
  | nil => exact ⟨fun i => .inl rfl, by simp [notifyOne], by simp [notifyOne]⟩
  | cons e rest ih =>
    unfold notifyOne
    split
    · rename_i hst
      refine ⟨fun i => ?_, fun e' he' => ?_, fun e' he' => List.mem_cons_of_mem _ he'⟩
      · by_cases hi : i = call e
        · subst hi
          exact .inr (.inr ⟨hst, Function.update_self ..⟩)
        · exact .inl (Function.update_of_ne hi ..)
      · obtain rfl := Option.some.inj he'
        exact ⟨List.mem_cons_self, Function.update_self .., hst⟩
    · rename_i hst
      obtain ⟨hmoved, hwoken, hrest⟩ := ih (Function.update stage (call e) .lost)
      refine ⟨fun i => ?_, fun e' he' => ?_, fun e' he' => List.mem_cons_of_mem _ (hrest e' he')⟩
      · have hi := hmoved i
        by_cases heq : i = call e
        · subst heq
          simp only [Function.update_self] at hi
          exact .inr (.inl ⟨hst, by simpa using hi⟩)
        · rwa [Function.update_of_ne heq] at hi
      · obtain ⟨hmem, hw, hold⟩ := hwoken e' he'
        refine ⟨List.mem_cons_of_mem _ hmem, hw, ?_⟩
        by_cases heq : call e' = call e
        · rw [heq, Function.update_self] at hold
          cases hold
        · rwa [Function.update_of_ne heq] at hold
    · obtain ⟨hmoved, hwoken, hrest⟩ := ih stage
      exact ⟨hmoved, fun e' he' => ⟨List.mem_cons_of_mem _ (hwoken e' he').1, (hwoken e' he').2⟩,
        fun e' he' => List.mem_cons_of_mem _ (hrest e' he')⟩

theorem notifyAll_spec (stage : Nat → Stage) (queue : List Nat) (i : Nat) :
    notifyAll stage queue i = stage i ∨
      stage i = .fired ∧ notifyAll stage queue i = .lost ∨
      stage i = .waiting ∧ notifyAll stage queue i = .woken := by
  induction queue generalizing stage with
  | nil => exact .inl rfl
  | cons e rest ih =>
    cases hst : stage e with
    | waiting =>
      have hi := ih (Function.update stage e .woken)
      simp only [notifyAll, hst]
      by_cases heq : i = e
      · subst heq
        simp only [Function.update_self] at hi
        exact .inr (.inr ⟨hst, by simpa using hi⟩)
      · rwa [Function.update_of_ne heq] at hi
    | fired =>
      have hi := ih (Function.update stage e .lost)
      simp only [notifyAll, hst]
      by_cases heq : i = e
      · subst heq
        simp only [Function.update_self] at hi
        exact .inr (.inl ⟨hst, by simpa using hi⟩)
      · rwa [Function.update_of_ne heq] at hi
    | woken | lost | returned =>
      simp only [notifyAll, hst]
      exact ih stage

/-! ## The invariant -/

/-- The call has returned true, or will when it resumes. -/
def Succeeds (closed : Bool) (stage : Stage) : Prop :=
  stage = .returned true ∨ stage = .woken ∧ closed = false

/-- The `Push` of the value succeeds, or it is one that `p` allows for. -/
def Settled (p : Nat → Prop) (s : State T) (x : Item T) : Prop :=
  p x.call ∨ x.call < s.pushes.length ∧
    (s.pushStage x.call = .returned true ∨ s.taken x.call = true)

/-- All elements of the storage have the property. -/
structure Store.All {E : Type*} (P : E → Prop) (s : Store E) : Prop where
  ring : ∀ k x, s.q.buf k = some x → P x
  list : ∀ x ∈ s.lq, P x

/-- The invariant, but for the pushes of `p` and the pops of `r`. -/
structure HonestBut (p r : Nat → Prop) (s : State T) : Prop where
  given : ∀ j x, s.got j = some x → r j ∨ j < s.pops ∧ Succeeds s.closed (s.popStage j)
  source : ∀ j x, s.got j = some x → Settled p s x
  taken : ∀ i, s.taken i = true → i < s.pushes.length ∧ Succeeds s.closed (s.pushStage i)
  stored : s.store.All (Settled p s)
  wq : ∀ e ∈ s.wq, e.call < s.pushes.length
  rq : ∀ j ∈ s.rq, j < s.pops
  fresh : ∀ i, s.pushes.length ≤ i → s.pushStage i ≠ .returned true

def nobody (_ : Nat) : Prop := False

/-- The invariant while nobody has the lock. -/
def Honest (s : State T) : Prop := HonestBut nobody nobody s

namespace Store.All

variable {E : Type*} {P Q : E → Prop} {s s' : Store E} {t : Option E} {a : E} {ok : Bool}

theorem imp (h : s.All P) (hPQ : ∀ x, P x → Q x) : s.All Q :=
  ⟨fun k x hx => hPQ x (h.ring k x hx), fun x hx => hPQ x (h.list x hx)⟩

/-- `push` adds at most its argument. -/
theorem push (h : s.All P) (ha : P a) (hs : s.push a = some (ok, s')) : s'.All P := by
  unfold Store.push at hs
  split at hs
  · obtain ⟨⟨ok', q⟩, hq, heq⟩ := Option.map_eq_some_iff.1 hs
    cases heq
    refine ⟨fun k x hx => ?_, h.list⟩
    have hbuf : q.buf = s.q.buf ∨ q.buf = Function.update s.q.buf s.q.pwrite (some a) := by
      unfold RingBuffer.push at hq
      split at hq
      · cases hq
        exact .inl rfl
      · split at hq
        · cases hq
        · simp only at hq
          split at hq <;> cases hq <;> exact .inr rfl
    rcases hbuf with hbuf | hbuf
    · exact h.ring k x (hbuf ▸ hx)
    · simp only [hbuf, Function.update_apply] at hx
      split at hx
      · exact Option.some.inj hx ▸ ha
      · exact h.ring k x hx
  · split at hs
    · cases hs
      exact h
    · cases hs
      refine ⟨h.ring, fun x hx => ?_⟩
      rcases List.mem_append.1 hx with hx | hx
      · exact h.list x hx
      · exact List.mem_singleton.1 hx ▸ ha

/-- `push` that refuses changes nothing. -/
theorem push_refused (hs : s.push a = some (false, s')) : s' = s := by
  unfold Store.push at hs
  split at hs
  · obtain ⟨⟨ok', q⟩, hq, heq⟩ := Option.map_eq_some_iff.1 hs
    cases heq
    unfold RingBuffer.push at hq
    split at hq
    · cases hq
      rfl
    · split at hq
      · cases hq
      · simp only at hq
        split at hq <;> cases hq
  · split at hs <;> cases hs
    rfl

/-- `pop` takes one of the elements. -/
theorem pop (h : s.All P) (hs : s.pop = some (t, s')) :
    s'.All P ∧ ∀ x, t = some x → P x := by
  unfold Store.pop at hs
  split at hs
  · obtain ⟨⟨t', q⟩, hq, heq⟩ := Option.map_eq_some_iff.1 hs
    cases heq
    unfold RingBuffer.pop at hq
    split at hq
    · cases hq
      exact ⟨h, by simp⟩
    · split at hq
      · cases hq
      · obtain ⟨a, ha, heq⟩ := Option.map_eq_some_iff.1 hq
        cases heq
        refine ⟨⟨fun k x hx => ?_, h.list⟩, fun x hx => ?_⟩
        · simp only [Function.update_apply] at hx
          split at hx
          · cases hx
          · exact h.ring k x hx
        · exact Option.some.inj hx ▸ h.ring _ a ha
  · split at hs
    · cases hs
      exact ⟨h, by simp⟩
    · rename_i a rest hlq
      cases hs
      refine ⟨⟨h.ring, fun x hx => h.list x (hlq ▸ List.mem_cons_of_mem _ hx)⟩, fun x hx => ?_⟩
      exact Option.some.inj hx ▸ h.list a (hlq ▸ List.mem_cons_self)

end Store.All

/-! ## The primitive changes -/

section Primitive

variable {p r : Nat → Prop} {s s' : State T} {i j : Nat} {x : Item T} {b : Bool}

theorem Settled.of_eq (h : Settled p s x) (hpushes : s'.pushes = s.pushes)
    (hstage : s.pushStage x.call = .returned true → s'.pushStage x.call = .returned true)
    (htaken : s.taken x.call = true → s'.taken x.call = true) : Settled p s' x := by
  rcases h with h | ⟨hlt, h | h⟩
  · exact .inl h
  · exact .inr ⟨hpushes ▸ hlt, .inl (hstage h)⟩
  · exact .inr ⟨hpushes ▸ hlt, .inr (htaken h)⟩

/-- A change of stages that leaves alone what has succeeded. -/
def Keeps (stage stage' : Nat → Stage) : Prop :=
  ∀ i, stage i = .returned true ∨ stage i = .woken → stage' i = stage i

theorem Keeps.succeeds {stage stage' : Nat → Stage} {closed : Bool} (h : Keeps stage stage')
    (hs : Succeeds closed (stage i)) : Succeeds closed (stage' i) := by
  have heq := h i (hs.imp id And.left)
  rwa [heq]

theorem Keeps.notifyOne {E : Type*} (call : E → Nat) (stage : Nat → Stage) (queue : List E) :
    Keeps stage (Sync.notifyOne call stage queue).2.2 := by
  intro i hi
  rcases (notifyOne_spec call stage queue).1 i with h | ⟨h, -⟩ | ⟨h, -⟩
  · exact h
  · simp [h] at hi
  · simp [h] at hi

/-- `rq_.notify_one` keeps the invariant, and the reader it finds is woken. -/
theorem HonestBut.notifyReader (h : HonestBut p r s) :
    ∃ reader rq stage, s.notifyReader = (reader, { s with rq := rq, popStage := stage }) ∧
      HonestBut p r ({ s with rq := rq, popStage := stage } : State T) ∧
      ∀ j, reader = some j → j < s.pops ∧ stage j = .woken := by
  obtain ⟨-, hwoken, hrest⟩ := notifyOne_spec id s.popStage s.rq
  refine ⟨_, _, _, rfl, ⟨fun j x hx => (h.given j x hx).imp id fun hj => ?_, h.source, h.taken,
    h.stored, h.wq, fun j hj => h.rq j (hrest j hj), h.fresh⟩, fun j hj => ?_⟩
  · exact ⟨hj.1, (Keeps.notifyOne id s.popStage s.rq).succeeds hj.2⟩
  · obtain ⟨hmem, hw, -⟩ := hwoken j hj
    exact ⟨h.rq j hmem, hw⟩

/-- `wq_.notify_one` keeps the invariant, and the writer it finds is woken. -/
theorem HonestBut.notifyWriter (h : HonestBut p r s) :
    ∃ writer wq stage, s.notifyWriter = (writer, { s with wq := wq, pushStage := stage }) ∧
      HonestBut p r ({ s with wq := wq, pushStage := stage } : State T) ∧
      ∀ e, writer = some e → e.call < s.pushes.length ∧ stage e.call = .woken := by
  obtain ⟨hmoved, hwoken, hrest⟩ := notifyOne_spec Item.call s.pushStage s.wq
  have hkeeps := Keeps.notifyOne Item.call s.pushStage s.wq
  have hsettled : ∀ x, Settled p s x → Settled p ({ s with
      wq := (notifyOne Item.call s.pushStage s.wq).2.1
      pushStage := (notifyOne Item.call s.pushStage s.wq).2.2 } : State T) x := fun x hx =>
    hx.of_eq rfl (fun hst => (hkeeps x.call (.inl hst)).trans hst) id
  refine ⟨_, _, _, rfl, ⟨h.given, fun j x hx => hsettled x (h.source j x hx), fun i hi => ?_,
    h.stored.imp hsettled, fun e he => h.wq e (hrest e he), h.rq, fun i hi => ?_⟩, fun e he => ?_⟩
  · exact ⟨(h.taken i hi).1, hkeeps.succeeds (h.taken i hi).2⟩
  · rcases hmoved i with heq | ⟨-, heq⟩ | ⟨-, heq⟩
    · simpa only [heq] using h.fresh i hi
    · simp [heq]
    · simp [heq]
  · obtain ⟨hmem, hw, -⟩ := hwoken e he
    exact ⟨h.wq e hmem, hw⟩

theorem HonestBut.give {t : Option (Item T)} (h : HonestBut p r s)
    (hj : r j ∨ j < s.pops ∧ Succeeds s.closed (s.popStage j))
    (ht : ∀ x, t = some x → Settled p s x) : HonestBut p r (s.give j t) := by
  have hgot : ∀ k x, (s.give j t).got k = some x → k = j ∧ t = some x ∨ s.got k = some x := by
    intro k x hx
    simp only [State.give, Function.update_apply] at hx
    split at hx
    · rename_i hk
      cases t with
      | none => exact .inr (hk ▸ hx)
      | some y => exact .inl ⟨hk, hx⟩
    · exact .inr hx
  refine ⟨fun k x hx => ?_, fun k x hx => ?_, h.taken, h.stored, h.wq, h.rq,
    h.fresh⟩
  · rcases hgot k x hx with ⟨rfl, -⟩ | hx
    · exact hj
    · exact h.given k x hx
  · rcases hgot k x hx with ⟨-, hx⟩ | hx
    · exact ht x hx
    · exact h.source k x hx

theorem HonestBut.take (h : HonestBut p r s) (hi : i < s.pushes.length)
    (hs : Succeeds s.closed (s.pushStage i)) : HonestBut p r (s.take i) := by
  have hmono : ∀ k, s.taken k = true → (s.take i).taken k = true := by
    intro k hk
    simp only [State.take, Function.update_apply]
    split
    · rfl
    · exact hk
  have hsettled : ∀ x, Settled p s x → Settled p (s.take i) x := fun x hx =>
    hx.of_eq rfl id (hmono x.call)
  refine ⟨h.given, fun j x hx => hsettled x (h.source j x hx), fun k hk => ?_,
    h.stored.imp hsettled, h.wq, h.rq, h.fresh⟩
  by_cases hki : k = i
  · subst hki
    exact ⟨hi, hs⟩
  · simp only [State.take, Function.update_of_ne hki] at hk
    exact h.taken k hk

theorem settled_take (hi : x.call < s.pushes.length) : Settled p (s.take x.call) x :=
  .inr ⟨hi, .inr (Function.update_self ..)⟩

/-- The storage has been changed. -/
theorem HonestBut.withStore {store : Store (Item T)} (h : HonestBut p r s)
    (hstore : store.All (Settled p s)) : HonestBut p r ({ s with store := store } : State T) :=
  ⟨h.given, h.source, h.taken, hstore, h.wq, h.rq, h.fresh⟩

/-- The stage of a push is set that has not been taken part in a hand-over. -/
theorem HonestBut.setPush {st : Stage} {wq : List (Item T)} (h : HonestBut nobody r s)
    (hst : s.pushStage i ≠ .returned true) (htaken : s.taken i = false)
    (hi : i < s.pushes.length) (hwq : ∀ e ∈ wq, e.call < s.pushes.length) :
    HonestBut nobody r ({ s with
      wq := wq, pushStage := Function.update s.pushStage i st } : State T) := by
  have hsettled : ∀ x, Settled nobody s x → Settled nobody ({ s with
      wq := wq, pushStage := Function.update s.pushStage i st } : State T) x := by
    intro x hx
    refine hx.of_eq rfl (fun hret => ?_) id
    have hxi : x.call ≠ i := fun heq => hst (heq ▸ hret)
    exact (Function.update_of_ne hxi ..).trans hret
  refine ⟨h.given, fun j x hx => hsettled x (h.source j x hx), fun k hk => ?_,
    h.stored.imp hsettled, hwq, h.rq,
    fun k hk => by
      have hne : k ≠ i := Nat.ne_of_gt (Nat.lt_of_lt_of_le hi hk)
      simpa only [State.returnPush, Function.update_of_ne hne] using h.fresh k hk⟩
  have hki : k ≠ i := fun heq => by
    subst heq
    simp [htaken] at hk
  simp only [Function.update_of_ne hki]
  exact h.taken k hk

/-- A push returns true. -/
theorem HonestBut.returnPush (h : HonestBut (· = i) r s) (hi : i < s.pushes.length) :
    HonestBut nobody r (s.returnPush i true) := by
  have hsettled : ∀ x, Settled (· = i) s x → Settled nobody (s.returnPush i true) x := by
    intro x hx
    by_cases hxi : x.call = i
    · exact .inr ⟨hxi ▸ hi, .inl (by rw [hxi]; exact Function.update_self ..)⟩
    · rcases hx with hx | ⟨hlt, hx | hx⟩
      · exact absurd hx hxi
      · exact .inr ⟨hlt, .inl ((Function.update_of_ne hxi ..).trans hx)⟩
      · exact .inr ⟨hlt, .inr hx⟩
  refine ⟨h.given, fun j x hx => hsettled x (h.source j x hx), fun k hk => ?_,
    h.stored.imp hsettled, h.wq, h.rq,
    fun k hk => by
      have hne : k ≠ i := Nat.ne_of_gt (Nat.lt_of_lt_of_le hi hk)
      simpa only [State.returnPush, Function.update_of_ne hne] using h.fresh k hk⟩
  refine ⟨(h.taken k hk).1, ?_⟩
  by_cases hki : k = i
  · exact .inl (by rw [hki]; exact Function.update_self ..)
  · have hstage : (s.returnPush i true).pushStage k = s.pushStage k := Function.update_of_ne hki ..
    rw [hstage]
    exact (h.taken k hk).2

/-- The stage of a pop is set that has got nothing. -/
theorem HonestBut.setPop {st : Stage} {rq : List Nat} (h : HonestBut p nobody s)
    (hgot : s.got j = none) (hrq : ∀ k ∈ rq, k < s.pops) :
    HonestBut p nobody ({ s with
      rq := rq, popStage := Function.update s.popStage j st } : State T) := by
  refine ⟨fun k x hx => ?_, h.source, h.taken, h.stored, h.wq, hrq, h.fresh⟩
  have hkj : k ≠ j := fun heq => by
    subst heq
    exact absurd (hgot.symm.trans hx) (by simp)
  simp only [Function.update_of_ne hkj]
  exact h.given k x hx

/-- A pop returns true. -/
theorem HonestBut.returnPop (h : HonestBut p (· = j) s) (hj : j < s.pops) :
    HonestBut p nobody (s.returnPop j true) := by
  refine ⟨fun k x hx => .inr ?_, h.source, h.taken, h.stored, h.wq, h.rq, h.fresh⟩
  by_cases hkj : k = j
  · exact ⟨hkj ▸ hj, .inl (by rw [hkj]; exact Function.update_self ..)⟩
  · obtain ⟨hlt, hs⟩ := (h.given k x hx).resolve_left hkj
    have hstage : (s.returnPop j true).popStage k = s.popStage k := Function.update_of_ne hkj ..
    exact ⟨hlt, by rwa [hstage]⟩

theorem HonestBut.mono {p' r' : Nat → Prop} (h : HonestBut p r s) (hp : ∀ i, p i → p' i)
    (hr : ∀ j, r j → r' j) : HonestBut p' r' s where
  given j x hx := (h.given j x hx).imp (hr j) id
  source j x hx := (h.source j x hx).imp (hp _) id
  taken := h.taken
  stored := h.stored.imp fun _ hx => hx.imp (hp _) id
  wq := h.wq
  rq := h.rq
  fresh := h.fresh

end Primitive

/-! ## The sections under the lock -/

section Sections

variable {s s' : State T} {i j : Nat} {t : T} {bWait : Bool} {p r : Nat → Prop}

/-- A pop that has got nothing parks or returns false. -/
theorem HonestBut.parkPop (h : HonestBut p nobody s) (hj : j < s.pops) (hgot : s.got j = none) :
    HonestBut p nobody (s.parkPop j bWait) := by
  unfold State.parkPop
  split
  · refine h.setPop hgot fun k hk => ?_
    rcases List.mem_append.1 hk with hk | hk
    · exact h.rq k hk
    · exact List.mem_singleton.1 hk ▸ hj
  · exact h.setPop hgot h.rq

/-- A push whose value is still its own parks or returns false. -/
theorem HonestBut.parkPush (h : HonestBut nobody r s) (hi : i < s.pushes.length)
    (hst : s.pushStage i ≠ .returned true) (htaken : s.taken i = false) :
    HonestBut nobody r (s.parkPush i t bWait) := by
  unfold State.parkPush
  split
  · refine h.setPush hst htaken hi fun e he => ?_
    rcases List.mem_append.1 he with he | he
    · exact h.wq e he
    · exact List.mem_singleton.1 he ▸ hi
  · exact h.setPush hst htaken hi h.wq

/-- The oldest reader gets the oldest value. -/
theorem HonestBut.handOut (h : HonestBut p r s) (hopen : s.closed = false)
    (hs : s.handOut = some s') : HonestBut p r s' ∧ s'.pushes = s.pushes := by
  obtain ⟨reader, rq, stage, hnotify, h', hwoken⟩ := h.notifyReader
  rw [State.handOut, hnotify] at hs
  cases reader with
  | none =>
    cases hs
    exact ⟨h', rfl⟩
  | some j =>
    obtain ⟨⟨x, store⟩, hpop, rfl⟩ := Option.map_eq_some_iff.1 hs
    obtain ⟨hall, hx⟩ := h'.stored.pop hpop
    obtain ⟨hj, hst⟩ := hwoken j rfl
    exact ⟨(h'.withStore hall).give (.inr ⟨hj, .inr ⟨hst, hopen⟩⟩) hx, rfl⟩

/-- The oldest writer's value goes to the storage. -/
theorem HonestBut.refill (h : HonestBut p r s) (hopen : s.closed = false)
    (hs : s.refill = some s') : HonestBut p r s' ∧ s'.pops = s.pops := by
  obtain ⟨writer, wq, stage, hnotify, h', hwoken⟩ := h.notifyWriter
  rw [State.refill, hnotify] at hs
  cases writer with
  | none =>
    cases hs
    exact ⟨h', rfl⟩
  | some e =>
    obtain ⟨⟨ok, store⟩, hpush, rfl⟩ := Option.map_eq_some_iff.1 hs
    obtain ⟨he, hst⟩ := hwoken e rfl
    have htake := h'.take he (.inr ⟨hst, hopen⟩)
    exact ⟨htake.withStore (htake.stored.push (settled_take he) hpush), rfl⟩

theorem Honest.push (h : Honest s)
    (hs : ({ s with pushes := s.pushes ++ [t] } : State T).push s.pushes.length t bWait =
      some s') : Honest s' := by
  let s₀ : State T := { s with pushes := s.pushes ++ [t] }
  have hlen : s.pushes.length < s₀.pushes.length := by simp [s₀]
  have hst : s₀.pushStage s.pushes.length ≠ .returned true := h.fresh _ (Nat.le_refl _)
  have htaken : s₀.taken s.pushes.length = false := by
    by_contra hne
    exact Nat.lt_irrefl _ (h.taken _ (by simpa using hne)).1
  have hsettled : ∀ x, Settled nobody s x → Settled nobody s₀ x := fun x hx =>
    hx.imp id fun hx => ⟨hx.1.trans hlen, hx.2⟩
  have h₀ : HonestBut nobody nobody s₀ :=
    ⟨h.given, fun j x hx => hsettled x (h.source j x hx),
      fun i hi => ⟨(h.taken i hi).1.trans hlen, (h.taken i hi).2⟩, h.stored.imp hsettled,
      fun e he => (h.wq e he).trans hlen, h.rq, fun i hi => h.fresh i (hlen.le.trans hi)⟩
  have hown : HonestBut (· = s.pushes.length) nobody s₀ := h₀.mono (fun _ => False.elim) fun _ => id
  change s₀.push s.pushes.length t bWait = some s' at hs
  unfold State.push at hs
  split at hs
  · cases hs
    exact h₀.setPush hst htaken hlen h₀.wq
  · rename_i hclosed
    have hopen : s₀.closed = false := by simpa using hclosed
    have hmono : ∀ {s₁ : State T}, HonestBut nobody nobody s₁ →
        HonestBut (· = s.pushes.length) nobody s₁ := fun h₁ =>
      h₁.mono (fun _ => False.elim) fun _ => id
    split at hs
    · obtain ⟨reader, rq, stage, hnotify, h₁, hwoken⟩ := h₀.notifyReader
      rw [hnotify] at hs
      cases reader with
      | none =>
        cases hs
        exact h₁.parkPush hlen hst htaken
      | some j =>
        cases hs
        obtain ⟨hj, hw⟩ := hwoken j rfl
        refine ((hmono h₁).give (.inr ⟨hj, .inr ⟨hw, hopen⟩⟩) fun x hx => ?_).returnPush hlen
        exact Option.some.inj hx ▸ .inl rfl
    · obtain ⟨⟨ok, store⟩, hpush, hs⟩ := Option.bind_eq_some_iff.1 hs
      cases ok with
      | false =>
        cases hs
        rw [Store.All.push_refused hpush]
        exact h₀.parkPush hlen hst htaken
      | true =>
        have h₁ := (hmono h₀).withStore ((hmono h₀).stored.push (.inl rfl) hpush)
        obtain ⟨s₂, hs₂, rfl⟩ := Option.map_eq_some_iff.1 hs
        split at hs₂
        · obtain ⟨h₂, hpushes⟩ := h₁.handOut hopen hs₂
          exact h₂.returnPush (hpushes ▸ hlen)
        · cases hs₂
          exact h₁.returnPush hlen

theorem Honest.pop (h : Honest s)
    (hs : ({ s with pops := s.pops + 1 } : State T).pop s.pops bWait = some s') : Honest s' := by
  let s₀ : State T := { s with pops := s.pops + 1 }
  have hlen : s.pops < s₀.pops := Nat.lt_succ_self _
  have hgot : s₀.got s.pops = none := by
    by_contra hne
    obtain ⟨x, hx⟩ := Option.ne_none_iff_exists'.1 hne
    exact Nat.lt_irrefl _ ((h.given _ x hx).resolve_left id).1
  have h₀ : HonestBut nobody nobody s₀ :=
    ⟨fun j x hx => (h.given j x hx).imp id fun hj => ⟨hj.1.trans hlen, hj.2⟩, h.source, h.taken,
      h.stored, h.wq, fun j hj => (h.rq j hj).trans hlen, h.fresh⟩
  change s₀.pop s.pops bWait = some s' at hs
  unfold State.pop at hs
  split at hs
  · cases hs
    exact h₀.setPop hgot h₀.rq
  · rename_i hclosed
    have hopen : s₀.closed = false := by simpa using hclosed
    have hmono : ∀ {s₁ : State T}, HonestBut nobody nobody s₁ →
        HonestBut nobody (· = s.pops) s₁ := fun h₁ =>
      h₁.mono (fun _ => id) fun _ => False.elim
    split at hs
    · obtain ⟨writer, wq, stage, hnotify, h₁, hwoken⟩ := h₀.notifyWriter
      rw [hnotify] at hs
      cases writer with
      | none =>
        cases hs
        exact h₁.parkPop hlen hgot
      | some e =>
        cases hs
        obtain ⟨he, hw⟩ := hwoken e rfl
        have h₂ := (hmono h₁).take he (.inr ⟨hw, hopen⟩)
        refine HonestBut.returnPop (h₂.give (t := some e) (.inl rfl) fun x hx => ?_) hlen
        exact Option.some.inj hx ▸ settled_take he
    · obtain ⟨⟨x, store⟩, hpop, hs⟩ := Option.bind_eq_some_iff.1 hs
      obtain ⟨hall, hx⟩ := h₀.stored.pop hpop
      have h₁ := h₀.withStore hall
      cases x with
      | none =>
        cases hs
        exact h₁.parkPop hlen hgot
      | some x =>
        have h₂ := (hmono h₁).give (t := some x) (.inl rfl) hx
        obtain ⟨s₂, hs₂, rfl⟩ := Option.map_eq_some_iff.1 hs
        split at hs₂
        · obtain ⟨h₃, hpops⟩ := h₂.refill hopen hs₂
          exact h₃.returnPop (hpops ▸ hlen)
        · cases hs₂
          exact h₂.returnPop hlen

/-- `Close` is honest if no party has still to learn of a hand-over. -/
theorem Honest.close (h : Honest s) (hpush : ∀ i, s.taken i = true → s.pushStage i ≠ .woken)
    (hpop : ∀ j, (s.got j).isSome → s.popStage j ≠ .woken) : Honest s.close := by
  unfold State.close
  split
  · exact h
  · have hstable : ∀ {stage queue i}, Succeeds s.closed (stage i) → stage i ≠ .woken →
        notifyAll stage queue i = .returned true := by
      intro stage queue i hs hne
      have hret : stage i = .returned true := hs.resolve_right fun hw => hne hw.1
      rcases notifyAll_spec stage queue i with heq | ⟨hf, -⟩ | ⟨hw, -⟩
      · exact heq.trans hret
      · exact absurd (hret.symm.trans hf) (by decide)
      · exact absurd (hret.symm.trans hw) (by decide)
    refine ⟨fun j x hx => .inr ?_, fun j x hx => ?_, fun i hi => ?_, h.stored.imp fun x hx => ?_,
      by simp, by simp, fun i hi => ?_⟩
    · obtain ⟨hj, hs⟩ := (h.given j x hx).resolve_left id
      exact ⟨hj, .inl (hstable hs (hpop j (by rw [hx]; rfl)))⟩
    · exact (h.source j x hx).of_eq rfl
        (fun hret => hstable (.inl hret) (by simp [hret])) id
    · obtain ⟨hlt, hs⟩ := h.taken i hi
      exact ⟨hlt, .inl (hstable hs (hpush i hi))⟩
    · exact hx.of_eq rfl (fun hret => hstable (.inl hret) (by simp [hret])) id
    · rcases notifyAll_spec s.pushStage (s.wq.map Item.call) i with heq | ⟨-, heq⟩ | ⟨-, heq⟩
      · simpa only [heq] using h.fresh i hi
      · simp [heq]
      · simp [heq]

end Sections

/-! ## Runs -/

variable {s s' : State T}

/-- `Close` runs when every party that has taken part in a hand-over has
returned. -/
def CloseOk (s : State T) : Action T → Prop
  | .close => (∀ i < s.pushes.length, s.taken i = true → s.pushStage i ≠ .woken) ∧
      ∀ j < s.pops, (s.got j).isSome → s.popStage j ≠ .woken
  | _ => True

instance (s : State T) : (a : Action T) → Decidable (CloseOk s a)
  | .close => inferInstanceAs (Decidable (_ ∧ _))
  | .push _ _ | .pop _ | .expirePush _ | .expirePop _ | .resumePush _ | .resumePop _ =>
    .isTrue trivial

/-- Both sides of every hand-over have returned true, or will when they resume:
the pop that has been given a value and the push whose value it is, and a push
whose value has been taken while it waited. -/
structure Reported (s : State T) : Prop where
  pop : ∀ j x, s.got j = some x → Succeeds s.closed (s.popStage j)
  push : ∀ j x, s.got j = some x → Succeeds s.closed (s.pushStage x.call)
  taken : ∀ i, s.taken i = true → Succeeds s.closed (s.pushStage i)

theorem Honest.reported (h : Honest s) : Reported s where
  pop j x hx := ((h.given j x hx).resolve_left id).2
  push j x hx := by
    obtain ⟨-, hret | htaken⟩ := (h.source j x hx).resolve_left id
    · exact .inl hret
    · exact (h.taken _ htaken).2
  taken i hi := (h.taken i hi).2

theorem Honest.initial (capacity : Nat) (useRingBuffer : Bool) :
    Honest (State.initial capacity useRingBuffer : State T) :=
  ⟨by simp [State.initial], by simp [State.initial], by simp [State.initial],
    ⟨by simp [State.initial, Store.create, RingBuffer.create],
      by simp [State.initial, Store.create]⟩,
    by simp [State.initial], by simp [State.initial], by simp [State.initial]⟩

/-- What a party returns that resumes agrees with its hand-over. -/
theorem Succeeds.result {closed : Bool} {stage : Stage} {b : Bool}
    (hs : Succeeds closed stage) (hb : State.result closed stage = some b) : b = true := by
  rcases hs with rfl | ⟨rfl, rfl⟩
  · cases hb
  · cases hb
    rfl

theorem Honest.step (h : Honest s) {a : Action T} (he : (machine T).enabled s a)
    (hok : CloseOk s a) (hs : (machine T).step s a = some s') : Honest s' := by
  cases a with
  | push t bWait => exact h.push hs
  | pop bWait => exact h.pop hs
  | close =>
    cases hs
    refine h.close (fun i hi => hok.1 i (h.taken i hi).1 hi) fun j hj => ?_
    obtain ⟨x, hx⟩ := Option.isSome_iff_exists.1 hj
    exact hok.2 j ((h.given j x hx).resolve_left id).1 hj
  | expirePush i =>
    cases hs
    have hen : i < s.pushes.length ∧ s.pushStage i = .waiting := by
      simpa [machine, Enabled] using he
    have htaken : s.taken i = false := by
      by_contra hne
      have := (h.taken i (by simpa using hne)).2
      rw [hen.2] at this
      rcases this with h | ⟨h, -⟩ <;> cases h
    exact h.setPush (by simp [hen.2]) htaken hen.1 h.wq
  | expirePop j =>
    cases hs
    have hen : j < s.pops ∧ s.popStage j = .waiting := by simpa [machine, Enabled] using he
    have hgot : s.got j = none := by
      by_contra hne
      obtain ⟨x, hx⟩ := Option.ne_none_iff_exists'.1 hne
      have := ((h.given j x hx).resolve_left id).2
      rw [hen.2] at this
      rcases this with h | ⟨h, -⟩ <;> cases h
    exact h.setPop hgot h.rq
  | resumePush i =>
    obtain ⟨b, hb, rfl⟩ := Option.map_eq_some_iff.1 hs
    have hen : i < s.pushes.length := by
      have : Enabled s (.resumePush i) = true := he
      simp only [Enabled, Bool.and_eq_true, decide_eq_true_eq] at this
      exact this.1
    cases b with
    | true => exact (HonestBut.mono h (fun _ => False.elim) fun _ => id).returnPush hen
    | false =>
      have htaken : s.taken i = false := by
        by_contra hne
        exact Bool.noConfusion ((h.taken i (by simpa using hne)).2.result hb)
      have hst : s.pushStage i ≠ .returned true := fun hst => by
        rw [hst] at hb
        cases hb
      exact h.setPush hst htaken hen h.wq
  | resumePop j =>
    obtain ⟨b, hb, rfl⟩ := Option.map_eq_some_iff.1 hs
    have hen : j < s.pops := by
      have : Enabled s (.resumePop j) = true := he
      simp only [Enabled, Bool.and_eq_true, decide_eq_true_eq] at this
      exact this.1
    cases b with
    | true => exact (HonestBut.mono h (fun _ => id) fun _ => False.elim).returnPop hen
    | false =>
      have hgot : s.got j = none := by
        by_contra hne
        obtain ⟨x, hx⟩ := Option.ne_none_iff_exists'.1 hne
        exact Bool.noConfusion (((h.given j x hx).resolve_left id).2.result hb)
      exact h.setPop hgot h.rq

/-- In every run in which `Close` never comes between a hand-over and the party
that has still to learn of it, both sides of every hand-over succeed. -/
theorem handOver_reported {capacity : Nat} {useRingBuffer : Bool}
    (hr : Run (machine T) CloseOk (State.initial capacity useRingBuffer) s) : Reported s := by
  refine Honest.reported ?_
  exact hr.invariant (Honest.initial capacity useRingBuffer) fun t a u h he hok hs =>
    h.step he hok hs

/-- A reader is given a value and returns, and then the channel is closed. -/
theorem handOver_reported_once :
    ∃ s, Run (machine Nat) CloseOk (State.initial 0 true) s ∧
      (s.closed = true ∧ s.got 0 = some ⟨0, 5⟩) ∧ Reported s := by
  have hexec : ((machine Nat).exec CloseOk (State.initial 0 true)
      [.pop true, .push 5 false, .resumePop 0, .close]).any
      (fun s => s.closed && s.got 0 = some ⟨0, 5⟩) = true := by decide +kernel
  obtain ⟨s, hr, hs⟩ := Run.exists_of_exec hexec
  exact ⟨s, hr, by simpa using hs, handOver_reported hr⟩

/-- A pop takes the value of a writer that waits.  The channel is closed before
the writer resumes, and its `Push` returns false. -/
theorem closed_too_early :
    ¬ ∀ s, Run (machine Nat) anyAction (State.initial 0 true) s → Reported s := by
  intro hall
  have hexec : ((machine Nat).exec anyAction (State.initial 0 true)
      [.push 5 true, .pop false, .close, .resumePush 0]).any
      (fun s => s.taken 0 && s.pushStage 0 = .returned false) = true := by decide +kernel
  obtain ⟨s, hr, hs⟩ := Run.exists_of_exec hexec
  have hs : s.taken 0 = true ∧ s.pushStage 0 = .returned false := by simpa using hs
  rcases (hall s hr).taken 0 hs.1 with h | ⟨h, -⟩ <;> rw [hs.2] at h <;> cases h

end Costream.Sync
