import Mathlib.Algebra.BigOperators.Group.List.Basic
import Mathlib.Algebra.GroupWithZero.Nat

/-!
# Tallies

The parties of a protocol are a list, and a shared counter holds the sum of what
each of them adds to it.  `tally f l` is that sum: `tally_set` says how it
changes when one party changes, `le_tally` that a party's share is in it, and
`tally_eq_zero` that an empty sum has no share in it.  A counter of 32 bits holds the
sum while it has room for it (`increment_eq`, `decrement_eq`).
-/

namespace Costream.Tally

variable {α : Type*} {f g : α → Nat} {l : List α} {i : Nat} {a : α}

/-- The sum of the shares `f a` of the members of `l`. -/
def tally (f : α → Nat) (l : List α) : Nat := (l.map f).sum

@[simp] theorem tally_nil : tally f [] = 0 := rfl

@[simp] theorem tally_cons (a : α) : tally f (a :: l) = f a + tally f l := by
  unfold tally
  rw [List.map_cons, List.sum_cons]

@[simp] theorem tally_append (l' : List α) : tally f (l ++ l') = tally f l + tally f l' := by
  unfold tally
  rw [List.map_append, List.sum_append]

/-- One member is replaced: its old share goes, and its new one comes. -/
theorem tally_set (f : α → Nat) (h : l[i]? = some a) (b : α) :
    tally f (l.set i b) + f a = tally f l + f b := by
  induction l generalizing i with
  | nil => simp at h
  | cons c l ih =>
    cases i with
    | zero =>
      rw [List.getElem?_cons_zero, Option.some.injEq] at h
      rw [List.set_cons_zero, tally_cons, tally_cons, h]
      omega
    | succ i =>
      rw [List.getElem?_cons_succ] at h
      have hrest := ih h
      rw [List.set_cons_succ, tally_cons, tally_cons]
      omega

theorem le_tally (f : α → Nat) (h : a ∈ l) : f a ≤ tally f l := by
  induction l with
  | nil => simp at h
  | cons c l ih =>
    rw [tally_cons]
    rcases List.mem_cons.1 h with h | h
    · rw [h]
      omega
    · have hrest := ih h
      omega

/-- Two parties have two shares. -/
theorem add_le_tally (f : α → Nat) {j : Nat} {b : α} (hi : l[i]? = some a) (hj : l[j]? = some b)
    (hne : i ≠ j) : f a + f b ≤ tally f l := by
  induction l generalizing i j with
  | nil => simp at hi
  | cons c l ih =>
    rw [tally_cons]
    cases i with
    | zero =>
      cases j with
      | zero => exact absurd rfl hne
      | succ j =>
        rw [List.getElem?_cons_zero, Option.some.injEq] at hi
        rw [List.getElem?_cons_succ] at hj
        have hle := le_tally f (List.mem_of_getElem? hj)
        rw [hi]
        omega
    | succ i =>
      rw [List.getElem?_cons_succ] at hi
      cases j with
      | zero =>
        rw [List.getElem?_cons_zero, Option.some.injEq] at hj
        have hle := le_tally f (List.mem_of_getElem? hi)
        rw [hj]
        omega
      | succ j =>
        rw [List.getElem?_cons_succ] at hj
        have hrest := ih hi hj fun h => hne (congrArg Nat.succ h)
        omega

theorem tally_eq_zero : tally f l = 0 ↔ ∀ a ∈ l, f a = 0 := by
  constructor
  · intro h a ha
    have hle := le_tally f ha
    omega
  · intro h
    induction l with
    | nil => rfl
    | cons c l ih =>
      rw [tally_cons, h c (by simp), ih fun a ha => h a (List.mem_cons_of_mem c ha)]

/-- Smaller shares have a smaller sum. -/
theorem tally_le (h : ∀ a ∈ l, f a ≤ g a) : tally f l ≤ tally g l := by
  induction l with
  | nil => exact Nat.le_refl 0
  | cons c l ih =>
    rw [tally_cons, tally_cons]
    have hc := h c (by simp)
    have hrest := ih fun a ha => h a (List.mem_cons_of_mem c ha)
    omega

/-! ## Counters of 32 bits -/

/-- `++` of an unsigned counter of 32 bits. -/
def increment (n : Nat) : Nat := (n + 1) % 2 ^ 32

/-- `--` of an unsigned counter of 32 bits. -/
def decrement (n : Nat) : Nat := if n = 0 then 2 ^ 32 - 1 else n - 1

theorem increment_eq {n : Nat} (h : n + 1 < 2 ^ 32) : increment n = n + 1 := by
  unfold increment
  omega

theorem decrement_eq {n : Nat} (h : 0 < n) : decrement n = n - 1 := by
  unfold decrement
  rw [if_neg (by omega)]

end Costream.Tally
