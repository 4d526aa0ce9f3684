import Costream.Trace
import Mathlib.Data.Prod.Lex
import Mathlib.Order.WellFounded

/-!
# Runs that do not end

An `Endless` run of a machine is a sequence of states with the action that leads from each to the
next one.

* `Endless.stays`: what every step keeps holds from then on.
* `Endless.eventually` is the rule for progress under fairness.  The actions of one's own make a
  measure smaller, and the others leave it as it is; when there is always one of one's own to come,
  the goal is reached.  `Endless.eventually_from` is for steps that are so only from some point on.
* `Endless.served` is the rule for a line: what waits in it has its turn after what is ahead of it,
  when the first one always has its turn.
* `Endless.exists_of_exec` makes such a run of a list of actions and one that changes nothing.
-/

namespace Costream.Trace

structure Endless {σ α : Type*} (M : Machine σ α) where
  state : Nat → σ
  action : Nat → α
  enabled : ∀ i, M.enabled (state i) (action i)
  step : ∀ i, M.step (state i) (action i) = some (state (i + 1))

namespace Endless

variable {σ α β : Type*} {M : Machine σ α} {i j : Nat}

/-- Every state is reachable from the first one. -/
theorem run (x : Endless M) (i : Nat) : Run M anyAction (x.state 0) (x.state i) := by
  induction i with
  | zero => exact .refl
  | succ i ih => exact ih.tail (x.enabled i) trivial (x.step i)

theorem stays (x : Endless M) {P : σ → Prop} (h : P (x.state i))
    (hstep : ∀ k, i ≤ k → P (x.state k) → P (x.state (k + 1))) (hij : i ≤ j) : P (x.state j) := by
  induction j, hij using Nat.le_induction with
  | base => exact h
  | succ k hik ih => exact hstep k hik ih

/-- The next action of one's own, with the measure as it was. -/
theorem next_own (x : Endless M) {P Done : σ → Prop} {own : α → Prop} (μ : σ → β) (n : Nat) :
    ∀ i, (∀ k, i ≤ k → P (x.state k) → ¬ Done (x.state k) → ¬ own (x.action k) →
      P (x.state (k + 1)) ∧ μ (x.state (k + 1)) = μ (x.state k)) → P (x.state i) →
      Done (x.state (i + n)) ∨ own (x.action (i + n)) →
      ∃ j, i ≤ j ∧ (Done (x.state j) ∨
        P (x.state j) ∧ own (x.action j) ∧ μ (x.state j) = μ (x.state i)) := by
  induction n with
  | zero =>
    intro i _ h hi
    exact ⟨i, Nat.le_refl i, hi.imp_right fun hown => ⟨h, hown, rfl⟩⟩
  | succ n ih =>
    intro i hstep h hi
    by_cases hd : Done (x.state i)
    · exact ⟨i, Nat.le_refl i, .inl hd⟩
    · by_cases hown : own (x.action i)
      · exact ⟨i, Nat.le_refl i, .inr ⟨h, hown, rfl⟩⟩
      · obtain ⟨h', hμ⟩ := hstep i (Nat.le_refl i) h hd hown
        rw [Nat.add_comm n, ← Nat.add_assoc] at hi
        obtain ⟨j, hij, hj⟩ := ih (i + 1) (fun k hk => hstep k (by omega)) h' hi
        refine ⟨j, by omega, hj.imp_right fun hr => ⟨hr.1, hr.2.1, hr.2.2.trans hμ⟩⟩

/-- Progress under fairness, from some point on. -/
theorem eventually_from (x : Endless M) (P Done : σ → Prop) (own : α → Prop) {r : β → β → Prop}
    (hr : WellFounded r) (μ : σ → β)
    (hown : ∀ k, i ≤ k → P (x.state k) → ¬ Done (x.state k) → own (x.action k) →
      P (x.state (k + 1)) ∧ r (μ (x.state (k + 1))) (μ (x.state k)))
    (hother : ∀ k, i ≤ k → P (x.state k) → ¬ Done (x.state k) → ¬ own (x.action k) →
      P (x.state (k + 1)) ∧ μ (x.state (k + 1)) = μ (x.state k))
    (h : P (x.state i)) (hfair : ∀ k, i ≤ k → ∃ j, k ≤ j ∧ (Done (x.state j) ∨ own (x.action j))) :
    ∃ j, i ≤ j ∧ Done (x.state j) := by
  induction hb : μ (x.state i) using hr.induction generalizing i with
  | _ b ih =>
    subst hb
    obtain ⟨j, hij, hj⟩ := hfair i (Nat.le_refl i)
    obtain ⟨n, rfl⟩ := Nat.exists_eq_add_of_le hij
    obtain ⟨k, hik, hk⟩ := x.next_own μ n i hother h hj
    rcases hk with hd | ⟨hP, hk, hμ⟩
    · exact ⟨k, hik, hd⟩
    · by_cases hd : Done (x.state k)
      · exact ⟨k, hik, hd⟩
      · obtain ⟨hP', hlt⟩ := hown k hik hP hd hk
        rw [hμ] at hlt
        obtain ⟨l, hl, hdone⟩ := ih _ hlt (fun m hm => hown m (by omega))
          (fun m hm => hother m (by omega)) hP' (fun m hm => hfair m (by omega)) rfl
        exact ⟨l, by omega, hdone⟩

/-- Progress under fairness. -/
theorem eventually (x : Endless M) (P Done : σ → Prop) (own : α → Prop) {r : β → β → Prop}
    (hr : WellFounded r) (μ : σ → β)
    (hown : ∀ s a s', P s → ¬ Done s → own a → M.enabled s a → M.step s a = some s' →
      P s' ∧ r (μ s') (μ s))
    (hother : ∀ s a s', P s → ¬ Done s → ¬ own a → M.enabled s a → M.step s a = some s' →
      P s' ∧ μ s' = μ s)
    (h : P (x.state i)) (hfair : ∀ k, i ≤ k → ∃ j, k ≤ j ∧ (Done (x.state j) ∨ own (x.action j))) :
    ∃ j, i ≤ j ∧ Done (x.state j) :=
  x.eventually_from P Done own hr μ
    (fun k _ hP hd hk => hown _ _ _ hP hd hk (x.enabled k) (x.step k))
    (fun k _ hP hd hk => hother _ _ _ hP hd hk (x.enabled k) (x.step k)) h hfair

/-! ## Waiting in a line -/

/-- What the `n` steps from `i` on put out. -/
def outputs (x : Endless M) (out : σ → α → List β) (i : Nat) : Nat → List β
  | 0 => []
  | n + 1 => x.outputs out i n ++ out (x.state (i + n)) (x.action (i + n))

variable {out : σ → α → List β}

theorem outputs_add (x : Endless M) (i m n : Nat) :
    x.outputs out i (m + n) = x.outputs out i m ++ x.outputs out (i + m) n := by
  induction n with
  | zero => rw [Nat.add_zero, outputs, List.append_nil]
  | succ n ih => rw [← Nat.add_assoc, outputs, outputs, ih, List.append_assoc, Nat.add_assoc]

theorem outputs_eq_nil (x : Endless M) {n : Nat}
    (h : ∀ k, i ≤ k → k < i + n → out (x.state k) (x.action k) = []) : x.outputs out i n = [] := by
  induction n with
  | zero => rfl
  | succ n ih =>
    rw [outputs, ih fun k hk hlt => h k hk (by omega), h (i + n) (by omega) (by omega),
      List.append_nil]

/-- A line is served from its head, and grows at its end. -/
theorem outputs_line (x : Endless M) (line : σ → List β) {n : Nat}
    (hstep : ∀ k, i ≤ k → ∃ added, line (x.state k) ++ added =
      out (x.state k) (x.action k) ++ line (x.state (k + 1))) :
    ∃ added, line (x.state i) ++ added = x.outputs out i n ++ line (x.state (i + n)) := by
  induction n with
  | zero => exact ⟨[], List.append_nil _⟩
  | succ n ih =>
    obtain ⟨added, hadded⟩ := ih
    obtain ⟨more, hmore⟩ := hstep (i + n) (Nat.le_add_right i n)
    refine ⟨added ++ more, ?_⟩
    rw [← List.append_assoc, hadded, List.append_assoc, hmore, ← List.append_assoc]
    rfl

/-- The first one in the line has its turn next. -/
def First (x : Endless M) (out : σ → α → List β) (i : Nat) (b : β) : Prop :=
  ∃ n, x.outputs out i n = [] ∧ out (x.state (i + n)) (x.action (i + n)) = [b]

theorem served (x : Endless M) (line : σ → List β)
    (hstep : ∀ k, i ≤ k → ∃ added, line (x.state k) ++ added =
      out (x.state k) (x.action k) ++ line (x.state (k + 1)))
    (hfirst : ∀ k, i ≤ k → ∀ b rest, line (x.state k) = b :: rest → x.First out k b)
    {ahead behind : List β} {b : β} (hline : line (x.state i) = ahead ++ b :: behind) :
    ∃ n, x.outputs out i n = ahead ∧ out (x.state (i + n)) (x.action (i + n)) = [b] := by
  induction ahead generalizing i behind with
  | nil => exact hfirst i (Nat.le_refl i) b behind hline
  | cons a ahead ih =>
    obtain ⟨n, hnil, hone⟩ := hfirst i (Nat.le_refl i) a (ahead ++ b :: behind) hline
    have houtputs : x.outputs out i (n + 1) = [a] := by rw [outputs, hnil, hone, List.nil_append]
    obtain ⟨added, hadded⟩ := x.outputs_line line (n := n + 1) hstep
    rw [hline, houtputs] at hadded
    have hrest : line (x.state (i + (n + 1))) = ahead ++ b :: (behind ++ added) := by
      simpa using hadded.symm
    obtain ⟨m, hm, hb⟩ :=
      ih (fun k hk => hstep k (by omega)) (fun k hk => hfirst k (by omega)) hrest
    refine ⟨n + 1 + m, ?_, ?_⟩
    · rw [outputs_add, houtputs, hm]
      rfl
    · rw [← Nat.add_assoc]
      exact hb

/-! ## A run that comes to rest -/

/-- The run begins with one more action. -/
def cons (x : Endless M) (s : σ) (a : α) (he : M.enabled s a) (hs : M.step s a = some (x.state 0)) :
    Endless M where
  state
    | 0 => s
    | i + 1 => x.state i
  action
    | 0 => a
    | i + 1 => x.action i
  enabled
    | 0 => he
    | i + 1 => x.enabled i
  step
    | 0 => hs
    | i + 1 => x.step i

/-- A run found by evaluation, which stays where it ends. -/
theorem exists_of_exec [∀ s a, Decidable (M.enabled s a)] {as : List α} {s : σ} {P : σ → Bool}
    {a : α} (h : (M.exec anyAction s as).any P = true)
    (hrest : ∀ t, P t = true → M.enabled t a ∧ M.step t a = some t) :
    ∃ x : Endless M, (∀ i ≤ as.length, M.exec anyAction s (as.take i) = some (x.state i)) ∧
      (∀ i, as.length ≤ i → P (x.state i) = true) ∧ ∀ i, x.action i = as.getD i a := by
  induction as generalizing s with
  | nil =>
    have hP : P s = true := h
    obtain ⟨he, hs⟩ := hrest s hP
    exact ⟨⟨fun _ => s, fun _ => a, fun _ => he, fun _ => hs⟩, fun _ _ => by simp [Machine.exec],
      fun _ _ => hP, fun _ => rfl⟩
  | cons b rest ih =>
    rw [Machine.exec] at h
    split at h
    · rename_i he
      cases hb : M.step s b with
      | none =>
        rw [hb] at h
        cases h
      | some t =>
        rw [hb] at h
        obtain ⟨x, hexec, hx, haction⟩ := ih h
        have h0 : t = x.state 0 := Option.some.inj (hexec 0 (Nat.zero_le _))
        refine ⟨x.cons s b he.1 (h0 ▸ hb), fun i hi => ?_, fun i hi => ?_, fun i => ?_⟩
        · cases i with
          | zero => rfl
          | succ i =>
            have hrun := hexec i (Nat.le_of_succ_le_succ hi)
            rw [List.take_succ_cons, Machine.exec, if_pos he]
            exact (congrArg (Option.bind · (M.exec anyAction · (rest.take i))) hb).trans hrun
        · cases i with
          | zero => cases hi
          | succ i => exact hx i (Nat.le_of_succ_le_succ hi)
        · cases i with
          | zero => rfl
          | succ i => exact haction i
    · cases h

end Endless

end Costream.Trace
