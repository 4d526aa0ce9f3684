import Mathlib.Data.Nat.ModEq
import Mathlib.Tactic.Ring

/-!
# Positions on a wheel of wheels

Numbers are written in base `b`.  A wheel of level `k` has `b` slots, and it
moves only at a position that ends in `k` zeros: at such a position `v` it
stands at the slot `digit b k v`.

* `Visits b k d v` says that the wheel of level `k` enters slot `d` at `v`.
* `nextVisit b k d p` is the first such position that is not before `p`.
* `multiplesBefore m l x` counts the positive multiples of `m` from `l` up to
  `x`, which is how often a wheel has moved.

Nothing here mentions a timer.  `Costream.Timer.Wheel` files timers by
`nextVisit`, and `Costream.Timer.Sweep` counts wheel moves by
`multiplesBefore`.
-/

namespace Costream.Radix

variable {b k d p q v : Nat}

/-- The digit of `n` of weight `b ^ k`. -/
def digit (b k n : Nat) : Nat := n / b ^ k % b

/-- `v` ends in `k` zeros, and its digit of weight `b ^ k` is `d`. -/
def Visits (b k d v : Nat) : Prop := b ^ k ∣ v ∧ digit b k v = d

instance (b k d v : Nat) : Decidable (Visits b k d v) :=
  inferInstanceAs (Decidable (_ ∧ _))

/-- The first position from `p` on at which the wheel of level `k` enters
slot `d`. -/
def nextVisit (b k d p : Nat) : Nat :=
  let c := (p + (b ^ k - 1)) / b ^ k
  (c + (d + (b - c % b)) % b) * b ^ k

/-! ## Digits -/

theorem digit_lt (hb : 0 < b) (k n : Nat) : digit b k n < b :=
  Nat.mod_lt _ hb

theorem digit_mul_pow (hb : 0 < b) (k n : Nat) :
    digit b k (n * b ^ k) = n % b := by
  rw [digit, Nat.mul_div_cancel _ (Nat.pow_pos hb)]

/-- One more zero is a zero digit in the next place. -/
theorem pow_succ_dvd_iff (hb : 0 < b) (k v : Nat) :
    b ^ (k + 1) ∣ v ↔ b ^ k ∣ v ∧ digit b k v = 0 := by
  constructor
  · rintro ⟨c, rfl⟩
    refine ⟨⟨b * c, by ring⟩, ?_⟩
    rw [show b ^ (k + 1) * c = b * c * b ^ k by ring, digit_mul_pow hb]
    exact Nat.mul_mod_right b c
  · rintro ⟨⟨c, rfl⟩, hd⟩
    rw [Nat.mul_comm, digit_mul_pow hb] at hd
    obtain ⟨e, rfl⟩ := Nat.dvd_of_mod_eq_zero hd
    exact ⟨e, by ring⟩

theorem visits_iff (hb : 0 < b) :
    Visits b k d v ↔ ∃ n, v = n * b ^ k ∧ n % b = d := by
  constructor
  · rintro ⟨⟨n, rfl⟩, hd⟩
    refine ⟨n, Nat.mul_comm _ _, ?_⟩
    rwa [Nat.mul_comm, digit_mul_pow hb] at hd
  · rintro ⟨n, rfl, hn⟩
    exact ⟨⟨n, Nat.mul_comm _ _⟩, by rw [digit_mul_pow hb, hn]⟩

/-! ## The next visit -/

theorem le_nextVisit (hb : 0 < b) (k d p : Nat) : p ≤ nextVisit b k d p := by
  have hm : 0 < b ^ k := Nat.pow_pos hb
  have hdiv := Nat.div_add_mod (p + (b ^ k - 1)) (b ^ k)
  have hmod := Nat.mod_lt (p + (b ^ k - 1)) hm
  have hc : p ≤ (p + (b ^ k - 1)) / b ^ k * b ^ k := by
    rw [Nat.mul_comm]
    omega
  exact hc.trans (Nat.mul_le_mul_right _ (Nat.le_add_right _ _))

theorem visits_nextVisit (hd : d < b) (k p : Nat) :
    Visits b k d (nextVisit b k d p) := by
  have hb : 0 < b := by omega
  refine (visits_iff hb).2 ⟨_, rfl, ?_⟩
  generalize (p + (b ^ k - 1)) / b ^ k = c
  have hc : c % b < b := Nat.mod_lt _ hb
  have hsum : c % b + (d + (b - c % b)) = d + b := by omega
  rw [Nat.add_mod_mod, ← Nat.mod_add_mod, hsum, Nat.add_mod_right,
    Nat.mod_eq_of_lt hd]

/-- No visit from `p` on comes before `nextVisit`. -/
theorem nextVisit_le (hb : 0 < b) (h : Visits b k d v) (hp : p ≤ v) :
    nextVisit b k d p ≤ v := by
  obtain ⟨n, rfl, hn⟩ := (visits_iff hb).1 h
  have hm : 0 < b ^ k := Nat.pow_pos hb
  refine Nat.mul_le_mul_right _ ?_
  have hcn : (p + (b ^ k - 1)) / b ^ k ≤ n := by
    rw [← Nat.lt_succ_iff, Nat.div_lt_iff_lt_mul hm, Nat.succ_mul]
    omega
  generalize (p + (b ^ k - 1)) / b ^ k = c at hcn ⊢
  -- `n - c` and the step of `nextVisit` agree modulo `b`
  have hc : c % b < b := Nat.mod_lt _ hb
  have hmod : (d + (b - c % b)) % b = (n - c) % b := by
    have hadd : d + (b - c % b) + c % b ≡ n - c + c % b [MOD b] := by
      have h1 : d + (b - c % b) + c % b = d + b := by omega
      have h2 : n - c + c % b ≡ n - c + c [MOD b] :=
        Nat.ModEq.add_left _ (Nat.mod_modEq c b)
      have h3 : n - c + c = n := by omega
      rw [h3] at h2
      refine Nat.ModEq.trans ?_ h2.symm
      rw [h1, ← hn]
      exact (Nat.add_modEq_right).trans (Nat.mod_modEq n b)
    exact Nat.ModEq.add_right_cancel' _ hadd
  have hle := Nat.mod_le (n - c) b
  omega

/-- Until the wheel enters the slot, its next visit stays the same. -/
theorem nextVisit_of_le (hd : d < b) (hpq : p ≤ q)
    (hq : q ≤ nextVisit b k d p) : nextVisit b k d q = nextVisit b k d p := by
  have hb : 0 < b := by omega
  refine Nat.le_antisymm ?_ ?_
  · exact nextVisit_le hb (visits_nextVisit hd k p) hq
  · exact nextVisit_le hb (visits_nextVisit hd k q)
      (hpq.trans (le_nextVisit hb k d q))

/-- After `b` moves the wheel has entered every slot. -/
theorem nextVisit_le_window (hb : 0 < b) (k d p : Nat) :
    nextVisit b k d p ≤ ((p - 1) / b ^ k + b) * b ^ k := by
  have hm : 0 < b ^ k := Nat.pow_pos hb
  refine Nat.mul_le_mul_right _ ?_
  have hc : (p + (b ^ k - 1)) / b ^ k ≤ (p - 1) / b ^ k + 1 := by
    rw [← Nat.add_div_right _ hm]
    exact Nat.div_le_div_right (by omega)
  have hmod := Nat.mod_lt (d + (b - (p + (b ^ k - 1)) / b ^ k % b)) hb
  omega

/-! ## Filing by the leading digit

A number `t` of leading digit place `k` is added to `p`.  The slot is the
sum of the two digits of that place, without the carry from below. -/

theorem visits_add_digits (hb : 0 < b) (k p t : Nat) :
    Visits b k ((digit b k t + digit b k p) % b)
      ((p / b ^ k + t / b ^ k) * b ^ k) := by
  refine (visits_iff hb).2 ⟨_, rfl, ?_⟩
  rw [digit, digit, ← Nat.add_mod, Nat.add_comm]

/-- The slot of the leading digit is entered after `p`, and not after
`p + t`. -/
theorem nextVisit_add_digits (hb : 0 < b) {k p t : Nat} (ht : b ^ k ≤ t) :
    nextVisit b k ((digit b k t + digit b k p) % b) p ≤ p + t := by
  have hm : 0 < b ^ k := Nat.pow_pos hb
  have ht1 : 1 ≤ t / b ^ k := (Nat.one_le_div_iff hm).2 ht
  have hp := Nat.div_add_mod p (b ^ k)
  have hpm := Nat.mod_lt p hm
  have htm := Nat.div_mul_le_self t (b ^ k)
  have hpl := Nat.div_mul_le_self p (b ^ k)
  have hpv : p ≤ (p / b ^ k + t / b ^ k) * b ^ k := by
    have := Nat.mul_le_mul_right (b ^ k) ht1
    rw [Nat.add_mul, Nat.mul_comm (p / b ^ k)]
    omega
  refine (nextVisit_le hb (visits_add_digits hb k p t) hpv).trans ?_
  rw [Nat.add_mul]
  omega

/-- The wheel of the leading digit has to move to reach the slot. -/
theorem lt_nextVisit_add_digits (hb : 0 < b) {k p t : Nat} (ht : b ^ k ≤ t)
    (htb : t < b ^ (k + 1)) :
    0 < nextVisit b k ((digit b k t + digit b k p) % b) p := by
  have hm : 0 < b ^ k := Nat.pow_pos hb
  rcases Nat.eq_zero_or_pos p with rfl | hp
  · have hdig : 0 < t / b ^ k := Nat.div_pos ht hm
    have hlt : t / b ^ k < b := by
      rw [Nat.div_lt_iff_lt_mul hm, ← Nat.pow_succ']
      exact htb
    have hd : (digit b k t + digit b k 0) % b = t / b ^ k := by
      simp [digit, Nat.mod_eq_of_lt hlt]
    have hv := visits_nextVisit (d := t / b ^ k) hlt k 0
    rw [hd]
    rcases Nat.eq_zero_or_pos (nextVisit b k (t / b ^ k) 0) with h0 | h0
    · have := hv.2
      rw [h0] at this
      simp only [digit, Nat.zero_div, Nat.zero_mod] at this
      omega
    · exact h0
  · exact hp.trans_le (le_nextVisit hb _ _ _)

/-! ## Counting the moves of a wheel -/

/-- The number of positive multiples of `m` from `l` up to, and without,
`x`. -/
def multiplesBefore (m l x : Nat) : Nat := (x - 1) / m - (l - 1) / m

/-- Position `x` adds one move exactly when `m` divides it. -/
theorem multiplesBefore_succ {m l x : Nat} (hx : 0 < x) (hl : l ≤ x) :
    multiplesBefore m l (x + 1) =
      multiplesBefore m l x + if m ∣ x then 1 else 0 := by
  obtain ⟨y, rfl⟩ : ∃ y, x = y + 1 := ⟨x - 1, by omega⟩
  have hmono : (l - 1) / m ≤ y / m := Nat.div_le_div_right (by omega)
  simp only [multiplesBefore, Nat.add_sub_cancel, Nat.succ_div]
  split <;> omega

/-- A step over no multiple of `m` adds no move. -/
theorem multiplesBefore_eq {m l x y : Nat} (hxy : x ≤ y)
    (hy : y - 1 < ((x - 1) / m + 1) * m) :
    multiplesBefore m l y = multiplesBefore m l x := by
  have hm : 0 < m := by
    rcases Nat.eq_zero_or_pos m with rfl | h
    · omega
    · exact h
  have h1 : (y - 1) / m < (x - 1) / m + 1 := (Nat.div_lt_iff_lt_mul hm).2 hy
  have h2 : (x - 1) / m ≤ (y - 1) / m := Nat.div_le_div_right (by omega)
  have h3 : (y - 1) / m = (x - 1) / m := by omega
  rw [multiplesBefore, multiplesBefore, h3]

theorem multiplesBefore_mono {m l x y : Nat} (hxy : x ≤ y) :
    multiplesBefore m l x ≤ multiplesBefore m l y :=
  Nat.sub_le_sub_right (Nat.div_le_div_right (by omega)) _

end Costream.Radix
