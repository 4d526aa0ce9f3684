import Mathlib.Order.Basic

/-!
# Maximal runs

`IsRun P start size`: the `size` numbers from `start` on have the property `P`, and neither of the
numbers next to them has it.

* `IsRun.unique`: runs that meet are the same.
* `isRun_cut_iff` is the rule for a part of a run that loses the property: the other runs
  stay, and what is left of this one on both sides are runs.
-/

namespace Costream

structure IsRun (P : Nat → Prop) (start size : Nat) : Prop where
  pos : 0 < size
  inside : ∀ x, start ≤ x → x < start + size → P x
  before : ∀ x, x + 1 = start → ¬ P x
  behind : ¬ P (start + size)

namespace IsRun

variable {P Q : Nat → Prop} {a b c m n x lo count : Nat}

/-- A run does not begin before one that it meets. -/
theorem le_start (h : IsRun P a n) (h' : IsRun P b m) (hle : a ≤ b + m) :
    a ≤ b := by
  by_contra hba
  have hin : P (a - 1) := h'.inside (a - 1) (by omega) (by omega)
  exact h.before (a - 1) (by omega) hin

theorem stop_le (h : IsRun P a n) (h' : IsRun P a m) : n ≤ m := by
  by_contra hmn
  have hin : P (a + m) := h.inside (a + m) (by omega) (by omega)
  exact h'.behind hin

theorem unique (h : IsRun P a n) (h' : IsRun P b m) (ha : a ≤ x) (hx : x < a + n) (hb : b ≤ x)
    (hx' : x < b + m) : a = b ∧ n = m := by
  have hab : a ≤ b := h.le_start h' (by omega)
  have hba : b ≤ a := h'.le_start h (by omega)
  have heq : a = b := by omega
  subst heq
  have hnm := h.stop_le h'
  have hmn := h'.stop_le h
  omega

/-- What is left below the part that goes. -/
theorem cut_low (h : IsRun P c m) (hQ : ∀ x, Q x ↔ P x ∧ ¬ (lo ≤ x ∧ x < lo + count))
    (hcount : 0 < count) (hstop : lo + count ≤ c + m) (hlo : c < lo) : IsRun Q c (lo - c) where
  pos := by omega
  inside x hx hlt := (hQ x).2 ⟨h.inside x hx (by omega), by omega⟩
  before x hx hq := h.before x hx ((hQ x).1 hq).1
  behind hq := ((hQ _).1 hq).2 (by omega)

/-- What is left above it. -/
theorem cut_high (h : IsRun P c m) (hQ : ∀ x, Q x ↔ P x ∧ ¬ (lo ≤ x ∧ x < lo + count))
    (hcount : 0 < count) (hstart : c ≤ lo) (hlt : lo + count < c + m) :
    IsRun Q (lo + count) (c + m - (lo + count)) where
  pos := by omega
  inside x hx hlt := (hQ x).2 ⟨h.inside x (by omega) (by omega), by omega⟩
  before x hx hq := ((hQ x).1 hq).2 (by omega)
  behind hq := by
    have heq : lo + count + (c + m - (lo + count)) = c + m := by omega
    rw [heq] at hq
    exact h.behind ((hQ _).1 hq).1

/-- Another run stays. -/
theorem cut_other (h : IsRun P c m) (hQ : ∀ x, Q x ↔ P x ∧ ¬ (lo ≤ x ∧ x < lo + count))
    (hstart : c ≤ lo) (hstop : lo + count ≤ c + m) (h' : IsRun P a n) (hne : a ≠ c) :
    IsRun Q a n where
  pos := h'.pos
  inside x hx hlt := by
    refine (hQ x).2 ⟨h'.inside x hx hlt, fun hcut => hne ?_⟩
    exact (h'.unique h hx hlt (by omega) (by omega)).1
  before x hx hq := h'.before x hx ((hQ x).1 hq).1
  behind hq := h'.behind ((hQ _).1 hq).1

theorem isRun_cut_iff (h : IsRun P c m) (hQ : ∀ x, Q x ↔ P x ∧ ¬ (lo ≤ x ∧ x < lo + count))
    (hcount : 0 < count) (hstart : c ≤ lo) (hstop : lo + count ≤ c + m) :
    IsRun Q a n ↔ (IsRun P a n ∧ a ≠ c) ∨ (0 < n ∧ a = c ∧ a + n = lo) ∨
      (0 < n ∧ a = lo + count ∧ a + n = c + m) := by
  constructor
  · intro hr
    have hpos := hr.pos
    by_cases hmeet : c ≤ a ∧ a < c + m
    · -- the run begins within the one that is cut
      have hout := ((hQ a).1 (hr.inside a (by omega) (by omega))).2
      by_cases hlow : a < lo
      · have hcut := h.cut_low hQ hcount hstop (by omega)
        have heq := hr.unique hcut (x := a) (by omega) (by omega) (by omega) (by omega)
        exact .inr (.inl ⟨hpos, by omega, by omega⟩)
      · have hcut := h.cut_high hQ hcount hstart (by omega)
        have heq := hr.unique hcut (x := a) (by omega) (by omega) (by omega) (by omega)
        exact .inr (.inr ⟨hpos, by omega, by omega⟩)
    · refine .inl ⟨⟨hpos, fun x hx hlt => ((hQ x).1 (hr.inside x hx hlt)).1, ?_, ?_⟩, by
        have := h.pos
        omega⟩
      · intro x hx hP
        have hcut : lo ≤ x ∧ x < lo + count := by
          by_contra hcut
          exact hr.before x hx ((hQ x).2 ⟨hP, hcut⟩)
        have heq : c + m = a := by omega
        exact h.behind (heq ▸ ((hQ a).1 (hr.inside a (by omega) (by omega))).1)
      · intro hP
        have hcut : lo ≤ a + n ∧ a + n < lo + count := by
          by_contra hcut
          exact hr.behind ((hQ _).2 ⟨hP, hcut⟩)
        have hin : P (c - 1) := ((hQ (c - 1)).1 (hr.inside (c - 1) (by omega) (by omega))).1
        exact h.before (c - 1) (by omega) hin
  · intro hr
    rcases hr with ⟨hr, hne⟩ | ⟨hpos, heq, hend⟩ | ⟨hpos, heq, hend⟩
    · exact h.cut_other hQ hstart hstop hr hne
    · have hn : n = lo - c := by omega
      rw [heq, hn]
      exact h.cut_low hQ hcount hstop (by omega)
    · have hn : n = c + m - (lo + count) := by omega
      rw [heq, hn]
      exact h.cut_high hQ hcount hstart (by omega)

end IsRun

end Costream
