import Mathlib.Logic.Function.Basic

/-!
# Machines and their runs

A machine says which actions are enabled in a state and what an enabled action
does.  An action that is enabled and has no result is a fault: the program
has touched memory that is not there, or an assertion has failed.

* `Run M ok s t` is a run from `s` to `t` all of whose actions meet `ok`.  With
  `ok` always true these are all runs of the machine; a stronger `ok` cuts out
  the runs in which something is done at the wrong moment.
* `Run.invariant` is the induction rule: what holds at the start and is kept
  by every step of such a run holds throughout.
* `Run.exists_of_wf` is the rule for progress: a machine that can always take a
  step that decreases a measure, until it is done, has a run to where it is done.
* `Run.unique`: a machine that has no choice ends in one state.
* `Machine.exec` runs a machine on a list of actions, and `Run.of_exec` turns
  the result into a run.
-/

namespace Costream.Trace

/-- A transition system with faults. -/
structure Machine (σ α : Type*) where
  enabled : σ → α → Prop
  step : σ → α → Option σ

variable {σ α : Type*} {M : Machine σ α} {ok ok' : σ → α → Prop} {s t u : σ}

/-- A run whose actions all meet `ok`. -/
inductive Run (M : Machine σ α) (ok : σ → α → Prop) (s : σ) : σ → Prop where
  | refl : Run M ok s s
  | tail {t u : σ} {a : α} : Run M ok s t → M.enabled t a → ok t a →
      M.step t a = some u → Run M ok s u

/-- Every action is allowed. -/
def anyAction (_ : σ) (_ : α) : Prop := True

instance (s : σ) (a : α) : Decidable (anyAction s a) := inferInstanceAs (Decidable True)

theorem Run.trans (h : Run M ok s t) (h' : Run M ok t u) : Run M ok s u := by
  induction h' with
  | refl => exact h
  | tail _ he hok hs ih => exact ih.tail he hok hs

theorem Run.mono (h : Run M ok s t) (hok : ∀ t a, ok t a → ok' t a) :
    Run M ok' s t := by
  induction h with
  | refl => exact .refl
  | tail _ he hk hs ih => exact ih.tail he (hok _ _ hk) hs

/-- The invariant rule. -/
theorem Run.invariant {P : σ → Prop} (h : Run M ok s t) (h0 : P s)
    (hstep : ∀ t a u, P t → M.enabled t a → ok t a → M.step t a = some u → P u) :
    P t := by
  induction h with
  | refl => exact h0
  | tail _ he hk hs ih => exact hstep _ _ _ ih he hk hs

/-- The progress rule. -/
theorem Run.exists_of_wf {β : Type*} {r : β → β → Prop} (hr : WellFounded r) (μ : σ → β)
    {P Done : σ → Prop} (h0 : P s) (hstep : ∀ t, P t → ¬ Done t → ∃ a u,
      M.enabled t a ∧ ok t a ∧ M.step t a = some u ∧ P u ∧ (Done u ∨ r (μ u) (μ t))) :
    ∃ t, Run M ok s t ∧ P t ∧ Done t := by
  induction hx : μ s using hr.induction generalizing s with
  | _ x ih =>
    subst hx
    by_cases hd : Done s
    · exact ⟨s, .refl, h0, hd⟩
    · obtain ⟨a, u, he, hk, hs, hu, hlt⟩ := hstep s h0 hd
      have hone : Run M ok s u := .tail .refl he hk hs
      rcases hlt with hdone | hlt
      · exact ⟨u, hone, hu, hdone⟩
      · obtain ⟨t, ht, hPt, hDt⟩ := ih (μ u) hlt hu rfl
        exact ⟨t, hone.trans ht, hPt, hDt⟩

/-! ## Machines that have no choice -/

/-- The first step of a run. -/
theorem Run.head (h : Run M ok s u) :
    s = u ∨ ∃ a t, M.enabled s a ∧ ok s a ∧ M.step s a = some t ∧ Run M ok t u := by
  induction h with
  | refl => exact .inl rfl
  | tail hrun he hk hs ih =>
    rcases ih with heq | ⟨a, t, he', hk', hs', hrun'⟩
    · rw [← heq] at he hk hs
      exact .inr ⟨_, _, he, hk, hs, .refl⟩
    · exact .inr ⟨a, t, he', hk', hs', hrun'.tail he hk hs⟩

/-- Where all that can be done leads to the same state, two runs to states in which nothing can be
done end in the same one. -/
theorem Run.unique (hM : ∀ s a b, M.enabled s a → M.enabled s b → M.step s a = M.step s b)
    (h : Run M ok s t) (h' : Run M ok s u) (ht : ∀ a, ¬ M.enabled t a)
    (hu : ∀ a, ¬ M.enabled u a) : t = u := by
  have hrest : Run M ok t u := by
    clear ht
    induction h with
    | refl => exact h'
    | tail _ he _ hs ih =>
      rcases ih.head with heq | ⟨b, v, he', _, hs', hrun⟩
      · rw [heq] at he
        exact absurd he (hu _)
      · rw [hM _ _ _ he' he, hs] at hs'
        cases hs'
        exact hrun
  rcases hrest.head with heq | ⟨a, _, he, _⟩
  · exact heq
  · exact absurd he (ht a)

/-! ## Running a list of actions -/

/-- Runs the actions in turn, as long as each of them is enabled and meets
`ok`. -/
def Machine.exec (M : Machine σ α) (ok : σ → α → Prop)
    [∀ s a, Decidable (M.enabled s a)] [∀ s a, Decidable (ok s a)] (s : σ) :
    List α → Option σ
  | [] => some s
  | a :: rest =>
    if M.enabled s a ∧ ok s a then (M.step s a).bind (M.exec ok · rest) else none

theorem Run.of_exec [∀ s a, Decidable (M.enabled s a)] [∀ s a, Decidable (ok s a)]
    {as : List α} (h : M.exec ok s as = some t) : Run M ok s t := by
  induction as generalizing s with
  | nil => cases h; exact .refl
  | cons a rest ih =>
    rw [Machine.exec] at h
    split at h
    · rename_i he
      obtain ⟨v, hv, hrest⟩ := Option.bind_eq_some_iff.1 h
      exact Run.trans (.tail .refl he.1 he.2 hv) (ih hrest)
    · cases h

/-- A run found by evaluation. -/
theorem Run.exists_of_exec [∀ s a, Decidable (M.enabled s a)]
    [∀ s a, Decidable (ok s a)] {as : List α} {P : σ → Bool}
    (h : (M.exec ok s as).any P = true) : ∃ t, Run M ok s t ∧ P t = true := by
  cases he : M.exec ok s as with
  | none =>
    rw [he] at h
    cases h
  | some t =>
    rw [he] at h
    exact ⟨t, .of_exec he, h⟩

end Costream.Trace
