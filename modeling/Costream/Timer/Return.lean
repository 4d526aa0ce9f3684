import Costream.Timer.Refine

/-!
# `RunOnce` returns

`RunOnce` returns from every state it can be in, if the clients are quiet in
the callbacks that it still invokes.  What decreases is, in this order: the
phase, the distance of the sweep to its destination, the slots of the iteration
that are left, and the elements in hand (`Loop.left`).
-/

namespace Costream.Timer

open Trace

variable {F : Type*}

/-! ## What is in hand -/

section Hand

variable {s s' : State F} {p : Ptr} {q : QueueRef}

/-- The operation leaves the place where `RunOnce` stands, and all queues but
the pool and `q`. -/
structure Spares (q : QueueRef) (s s' : State F) : Prop where
  loop : s'.loop = s.loop
  queue : ∀ q', q' ≠ .pool → q' ≠ q → s'.queue q' = s.queue q'

theorem Spares.trans {u : State F} (h : Spares q s s') (h' : Spares q s' u) :
    Spares q s u where
  loop := h'.loop.trans h.loop
  queue q' hp hq := (h'.queue q' hp hq).trans (h.queue q' hp hq)

theorem spares_incrementRef (h : s.incrementRef p = some s') : Spares q s s' := by
  obtain ⟨e, -, hs⟩ := Option.bind_eq_some_iff.1 h
  cases hs
  exact ⟨rfl, fun _ _ _ => rfl⟩

theorem spares_push (h : s.push q p = some s') : Spares q s s' := by
  have hset : Spares q s (s.setQueue q (s.queue q ++ [p])) :=
    ⟨rfl, fun q' _ hq => by simp [State.setQueue, hq]⟩
  rw [State.push] at h
  exact hset.trans (spares_incrementRef h)

variable [Inhabited F]

theorem spares_deleteElement (h : s.deleteElement p = some s') : Spares .pool s s' := by
  rw [State.deleteElement] at h
  split at h
  · obtain ⟨s₁, h₁, h⟩ := Option.bind_eq_some_iff.1 h
    obtain ⟨e, -, h⟩ := Option.bind_eq_some_iff.1 h
    refine (spares_incrementRef h₁).trans (Spares.trans ?_ (spares_push h))
    exact ⟨rfl, fun _ _ _ => rfl⟩
  · cases h
    exact ⟨rfl, fun _ _ _ => rfl⟩

theorem spares_decrementRef (h : s.decrementRef p = some s') : Spares .pool s s' := by
  obtain ⟨e, -, h⟩ := Option.bind_eq_some_iff.1 h
  have hset : Spares .pool s (s.set p { e with reference := e.reference - 1 }) :=
    ⟨rfl, fun _ _ _ => rfl⟩
  dsimp only at h
  split at h
  · exact hset.trans (spares_deleteElement h)
  · cases h
    exact hset

/-- An element taken out of the list in hand. -/
theorem erase_slist (h : s.erase .slist p = some s') :
    s'.loop = s.loop ∧ s'.queue .slist = (s.queue .slist).erase p := by
  rw [State.erase] at h
  split at h
  · have hsp := spares_decrementRef h
    refine ⟨hsp.loop, (hsp.queue .slist (by simp) (by simp)).trans ?_⟩
    simp [State.setQueue]
  · cases h

omit [Inhabited F] in
theorem call_slist {φ : Phase} (h : s.call φ p = some s') :
    s'.queue .slist = s.queue .slist ∧ ∃ c, s'.loop = some ⟨φ, some c⟩ := by
  obtain ⟨e, -, h⟩ := Option.bind_eq_some_iff.1 h
  split at h <;> cases h
  · exact ⟨rfl, _, rfl⟩
  · exact ⟨rfl, _, rfl⟩

omit [Inhabited F] in
theorem dispatch_slist {cfg : Config} (h : s.dispatch cfg p true = some s') :
    s'.queue .slist = s.queue .slist ∧ s'.loop = s.loop := by
  obtain ⟨e, -, h⟩ := Option.bind_eq_some_iff.1 h
  obtain ⟨s₁, h₁, h⟩ := Option.bind_eq_some_iff.1 h
  obtain ⟨e', -, h⟩ := Option.bind_eq_some_iff.1 h
  cases h
  have hsp := spares_push h₁
  exact ⟨hsp.queue .slist (by simp) (by simp), hsp.loop⟩

/-- The body of the loops of `Trigger` and `Dispatch` takes one element. -/
theorem handle_slist {cfg : Config} {φ : Phase} {rest : List Ptr}
    (hl : s.loop = some ⟨φ, none⟩) (hq : s.queue .slist = p :: rest)
    (h : s.handle cfg φ p = some s') :
    s'.queue .slist = rest ∧ ∃ c, s'.loop = some ⟨φ, c⟩ := by
  obtain ⟨s₁, h₁, h⟩ := Option.bind_eq_some_iff.1 h
  obtain ⟨hl₁, hq₁⟩ := erase_slist h₁
  rw [hq, List.erase_cons_head] at hq₁
  have hcall : s₁.call φ p = some s' → s'.queue .slist = rest ∧ ∃ c, s'.loop = some ⟨φ, c⟩ := by
    intro h
    obtain ⟨h2, c, h3⟩ := call_slist h
    exact ⟨h2.trans hq₁, _, h3⟩
  cases φ with
  | complete => exact hcall h
  | sweep => exact hcall h
  | final f =>
    obtain ⟨e, -, h⟩ := Option.bind_eq_some_iff.1 h
    split at h
    · exact hcall h
    · obtain ⟨h2, h3⟩ := dispatch_slist h
      exact ⟨h2.trans hq₁, _, h3.trans (hl₁.trans hl)⟩

end Hand

/-! ## What is left to do -/

/-- What `RunOnce` has left of its phases. -/
def Phase.left : Phase → Nat × Nat × Nat
  | .complete => (2, 0, 0)
  | .sweep f _ turned σ => (1, f.delta - σ.i, turned.length)
  | .final _ => (0, 0, 0)

/-- The steps that the element in hand has before it. -/
def callLeft : Option Call → Nat
  | none => 0
  | some (.called _) => 1
  | some (.running _) => 2

/-- What `RunOnce` has left to do. -/
def State.left (s : State F) : (Nat × Nat × Nat) × Nat :=
  match s.loop with
  | none => ((0, 0, 0), 0)
  | some l => (l.phase.left, 3 * (s.queue .slist).length + callLeft l.call)

/-- Less is left: the phases come first, then the elements in hand. -/
def LeftLt : (Nat × Nat × Nat) × Nat → (Nat × Nat × Nat) × Nat → Prop :=
  Prod.Lex (Prod.Lex (· < ·) (Prod.Lex (· < ·) (· < ·))) (· < ·)

theorem leftLt_wf : WellFounded LeftLt :=
  WellFounded.prod_lex
    (WellFounded.prod_lex Nat.lt_wfRel.wf
      (WellFounded.prod_lex Nat.lt_wfRel.wf Nat.lt_wfRel.wf)) Nat.lt_wfRel.wf

section Left

variable {cfg : Config} {s s' : State F}

theorem left_eq {l : Loop} (h : s.loop = some l) :
    s.left = (l.phase.left, 3 * (s.queue .slist).length + callLeft l.call) := by
  rw [State.left, h]

/-- `RunOnce` goes on to the next list. -/
theorem advance_left (hs : s.abs.Sound cfg) {φ : Phase} {c : Option Call}
    (hl : s.loop = some ⟨φ, c⟩) (hne : (s.advance cfg φ).loop ≠ none) :
    LeftLt (s.advance cfg φ).left s.left := by
  have hphase : s.abs.phase = some φ := by simp [State.abs, hl]
  rw [left_eq hl]
  cases φ with
  | complete =>
    rw [State.advance] at hne ⊢
    by_cases hle : cfg.destVal s.clock ≤ s.point
    · simp [hle] at hne
    · simp only [hle, if_false]
      rw [left_eq (l := ⟨_, none⟩) rfl]
      exact .left _ _ (.left _ _ Nat.one_lt_two)
  | final f => exact absurd rfl hne
  | sweep f swept turned σ =>
    cases turned with
    | cons r rest =>
      rw [left_eq (s := s.advance cfg _) (l := ⟨.sweep f swept rest σ, none⟩) rfl]
      exact .left _ _ (.right _ (.right _ (Nat.lt_succ_self _)))
    | nil =>
      by_cases hi : σ.i < f.delta
      · have hdest := hs.dest_lt (hs.frame f (Or.inl ⟨_, _, _, hphase⟩))
        rw [Frame.dest] at hdest
        obtain ⟨-, hgt⟩ : _ ∧ f.last + σ.i < _ :=
          (hs.sweep f swept [] σ hphase).1.next (by omega)
        have hfl := floor_le σ.nextLevel (f.last + (σ.next f.last).i)
        have hadv : (s.advance cfg (.sweep f swept [] σ)).loop =
            some ⟨.sweep f (σ.pos f.last + 1) (σ.turned f.last) (σ.next f.last), none⟩ := by
          simp [State.advance, hi, State.withLoop]
        rw [left_eq hadv]
        exact .left _ _ (.right _ (.left _ _ (by omega)))
      · have hadv : (s.advance cfg (.sweep f swept [] σ)).loop = some ⟨.final f, none⟩ := by
          simp [State.advance, hi, State.withLoop]
        rw [left_eq hadv]
        exact .left _ _ (.left _ _ Nat.one_pos)

variable [Inhabited F]

/-- Every step of `RunOnce` leaves less to do. -/
theorem loopStep_left (hs : s.abs.Sound cfg) {l : Loop} (hl : s.loop = some l)
    (h : s.loopStep cfg l = some s') (hne : s'.loop ≠ none) :
    LeftLt s'.left s.left := by
  obtain ⟨φ, c⟩ := l
  rw [State.loopStep] at h
  cases c with
  | some c =>
    rw [left_eq hl]
    cases c with
    | running p =>
      obtain ⟨e, -, h⟩ := Option.bind_eq_some_iff.1 h
      cases h
      rw [left_eq (l := ⟨φ, some (.called p)⟩) rfl]
      exact .right _ (Nat.lt_succ_self _)
    | called p =>
      obtain ⟨s₁, h₁, h⟩ := Option.bind_eq_some_iff.1 h
      cases h
      have hq := (spares_decrementRef h₁).queue .slist (by simp) (by simp)
      rw [left_eq (l := ⟨φ, none⟩) rfl]
      refine .right _ ?_
      change 3 * (s₁.queue .slist).length + 0 < 3 * (s.queue .slist).length + 1
      rw [hq]
      exact Nat.lt_succ_self _
  | none =>
    cases hq : s.queue .slist with
    | nil =>
      simp only [hq, Option.some.injEq] at h
      subst h
      exact advance_left hs hl hne
    | cons p rest =>
      simp only [hq] at h
      obtain ⟨hq', c, hl'⟩ := handle_slist hl hq h
      rw [left_eq hl, left_eq hl', hq, hq']
      refine .right _ ?_
      have hc : callLeft c ≤ 2 := by
        rcases c with _ | _ | _ <;> simp [callLeft]
      change 3 * rest.length + callLeft c < 3 * (rest.length + 1) + 0
      omega

/-- `RunOnce` takes a step and leaves less to do, or returns. -/
theorem loop_progress (h : Alive s) (hs : s.abs.Sound cfg) (hl : s.loop ≠ none) :
    ∃ u, Enabled s .loop ∧ (machine cfg).step s .loop = some u ∧
      (Alive u ∧ u.abs.Sound cfg) ∧ (u.loop = none ∨ LeftLt u.left s.left) := by
  obtain ⟨st, ν, hlife⟩ := h
  obtain ⟨l, hloop⟩ := Option.ne_none_iff_exists'.1 hl
  have he : Enabled s .loop := by simp [Enabled, hloop]
  obtain ⟨u, hu, halive, habs⟩ : Refines cfg s .loop := refines hlife he trivial
  have hsound : u.abs.Sound cfg := by
    rcases habs with habs | ⟨_, -, hst⟩
    · rwa [habs]
    · exact hs.step hst
  refine ⟨u, he, hu, ⟨halive, hsound⟩, ?_⟩
  by_cases hdone : u.loop = none
  · exact Or.inl hdone
  · have hstep : s.loopStep cfg l = some u := by
      change s.loop.bind (s.loopStep cfg) = some u at hu
      rwa [hloop] at hu
    exact Or.inr (loopStep_left hs hloop hstep hdone)

/-- `RunOnce` returns, from wherever it stands. -/
theorem runOnce_returns (h : Alive s) (hs : s.abs.Sound cfg) :
    ∃ t, Run (machine cfg) (fun _ a => a = .loop) s t ∧ t.loop = none := by
  have hprogress : ∀ t : State F, Alive t ∧ t.abs.Sound cfg → ¬ t.loop = none →
      ∃ a u, (machine cfg).enabled t a ∧ a = .loop ∧ (machine cfg).step t a = some u ∧
        (Alive u ∧ u.abs.Sound cfg) ∧ (u.loop = none ∨ LeftLt u.left t.left) := by
    rintro t ⟨ht, hst⟩ hne
    obtain ⟨u, he, hu, hP, hlt⟩ := loop_progress ht hst hne
    exact ⟨.loop, u, he, rfl, hu, hP, hlt⟩
  obtain ⟨t, hrun, -, ht⟩ := Run.exists_of_wf leftLt_wf State.left ⟨h, hs⟩ hprogress
  exact ⟨t, hrun, ht⟩

end Left

end Costream.Timer
