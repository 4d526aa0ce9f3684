import Mathlib.Algebra.GroupWithZero.Nat
import Mathlib.Logic.Function.Basic

/-!
# Memory with 64-bit addresses

A memory has a byte at each 64-bit address, and addresses wrap around.  `read` and `write` move `n`
bytes, little-endian.

* `read_write_self` and `read_write_of_apart` say what a load sees after a store.
* `Apart` says that two ranges of addresses have none in common.  It is decided by the two
  distances between their starts, so that ranges at constant offsets from one address are compared
  by evaluation (`apart_add_iff`).
* `Region` is a range that does not wrap around, such as a stack.  `Region.apart` takes ranges in
  disjoint regions apart.
-/

namespace Costream.Bytes

abbrev Addr := BitVec 64

/-- A byte at each address. -/
abbrev Mem := Addr → BitVec 8

/-- The `n` bytes from `a` on. -/
def Mem.read (m : Mem) (a : Addr) : (n : Nat) → BitVec (8 * n)
  | 0 => 0#0
  | n + 1 => m.read (a + 1#64) n ++ m a

/-- Stores the `n` bytes of `v` from `a` on. -/
def Mem.write (m : Mem) (a : Addr) (n : Nat) (v : BitVec (8 * n)) : Mem := fun x =>
  if (x - a).toNat < n then v.extractLsb' (8 * (x - a).toNat) 8 else m x

/-- No address is in both the `n` bytes from `a` and the `k` bytes from `b` on. -/
def Apart (a : Addr) (n : Nat) (b : Addr) (k : Nat) : Prop :=
  n ≤ (b - a).toNat ∧ k ≤ (a - b).toNat

instance (a : Addr) (n : Nat) (b : Addr) (k : Nat) : Decidable (Apart a n b k) :=
  inferInstanceAs (Decidable (_ ∧ _))

variable {m m' : Mem} {a b c : Addr} {n k i j : Nat}

/-! ## Loads and stores -/

theorem getLsbD_read (h : i < 8 * n) :
    (m.read a n).getLsbD i = (m (a + BitVec.ofNat 64 (i / 8))).getLsbD (i % 8) := by
  induction n generalizing a i with
  | zero => omega
  | succ n ih =>
    rw [Mem.read, BitVec.getLsbD_append]
    by_cases hi : i < 8
    · simp [hi, Nat.div_eq_of_lt hi, Nat.mod_eq_of_lt hi]
    · have haddr : a + 1#64 + BitVec.ofNat 64 ((i - 8) / 8) = a + BitVec.ofNat 64 (i / 8) := by
        rw [BitVec.add_assoc]
        congr 1
        apply BitVec.eq_of_toNat_eq
        simp only [BitVec.toNat_add, BitVec.toNat_ofNat]
        omega
      rw [if_neg hi, ih (by omega), haddr, show (i - 8) % 8 = i % 8 by omega]

/-- A load sees only the bytes it loads. -/
theorem read_congr (h : ∀ i < n, m' (a + BitVec.ofNat 64 i) = m (a + BitVec.ofNat 64 i)) :
    m'.read a n = m.read a n := by
  apply BitVec.eq_of_getLsbD_eq
  intro i hi
  rw [getLsbD_read hi, getLsbD_read hi, h _ (by omega)]

theorem write_of_le (h : n ≤ (b - a).toNat) (v : BitVec (8 * n)) : m.write a n v b = m b :=
  if_neg (by omega)

theorem write_add_of_le (h : i + n ≤ (b - a).toNat) (v : BitVec (8 * n)) :
    m.write (a + BitVec.ofNat 64 i) n v b = m b := by
  refine write_of_le ?_ v
  simp only [BitVec.toNat_sub, BitVec.toNat_add, BitVec.toNat_ofNat] at *
  omega

theorem toNat_add_ofNat_sub (h : i < 2 ^ 64) : (a + BitVec.ofNat 64 i - a).toNat = i := by
  simp only [BitVec.toNat_sub, BitVec.toNat_add, BitVec.toNat_ofNat]
  omega

/-- A load sees what has been stored in its place. -/
theorem read_write_self (h : n < 2 ^ 64) (v : BitVec (8 * n)) : (m.write a n v).read a n = v := by
  apply BitVec.eq_of_getLsbD_eq
  intro i hi
  have hdist : (a + BitVec.ofNat 64 (i / 8) - a).toNat = i / 8 := toNat_add_ofNat_sub (by omega)
  rw [getLsbD_read hi, Mem.write, if_pos (by omega), BitVec.getLsbD_extractLsb', hdist,
    decide_eq_true (by omega), Bool.true_and]
  congr 1
  omega

/-! ## Ranges of addresses -/

theorem Apart.symm (h : Apart a n b k) : Apart b k a n := ⟨h.2, h.1⟩

/-- The distance to a byte of the other range. -/
theorem Apart.le (h : Apart a n b k) (hi : i < n) (hn : n < 2 ^ 64) :
    k ≤ (a + BitVec.ofNat 64 i - b).toNat := by
  obtain ⟨hab, hba⟩ := h
  simp only [BitVec.toNat_sub, BitVec.toNat_add, BitVec.toNat_ofNat] at *
  have := a.isLt
  have := b.isLt
  omega

/-- A load does not see a store somewhere else. -/
theorem read_write_of_apart (h : Apart a n b k) (hn : n < 2 ^ 64) (v : BitVec (8 * k)) :
    (m.write b k v).read a n = m.read a n :=
  read_congr fun _ hi => write_of_le (h.le hi hn) v

theorem add_sub_add_left (a b c : Addr) : c + a - (c + b) = a - b := by
  apply BitVec.eq_of_toNat_eq
  simp only [BitVec.toNat_sub, BitVec.toNat_add]
  omega

/-- Ranges at offsets from the same address. -/
theorem apart_add_iff : Apart (c + a) n (c + b) k ↔ Apart a n b k := by
  rw [Apart, Apart, add_sub_add_left, add_sub_add_left]

theorem apart_zero_add_iff : Apart c n (c + b) k ↔ Apart 0#64 n b k := by
  rw [← apart_add_iff (c := c) (a := 0#64), BitVec.add_zero]

theorem apart_add_zero_iff : Apart (c + a) n c k ↔ Apart a n 0#64 k := by
  rw [← apart_add_iff (c := c) (b := 0#64), BitVec.add_zero]

/-! ## Regions -/

/-- A range of addresses that does not wrap around. -/
structure Region where
  base : Addr
  size : Nat
  fits : base.toNat + size ≤ 2 ^ 64

namespace Region

variable {R S : Region}

/-- The `n` bytes from `a` on lie in the region. -/
def Has (R : Region) (a : Addr) (n : Nat) : Prop :=
  R.base.toNat ≤ a.toNat ∧ a.toNat + n ≤ R.base.toNat + R.size

instance (R : Region) (a : Addr) (n : Nat) : Decidable (R.Has a n) :=
  inferInstanceAs (Decidable (_ ∧ _))

/-- Two regions with no address in common. -/
def Disjoint (R S : Region) : Prop :=
  R.base.toNat + R.size ≤ S.base.toNat ∨ S.base.toNat + S.size ≤ R.base.toNat

instance (R S : Region) : Decidable (R.Disjoint S) := inferInstanceAs (Decidable (_ ∨ _))

theorem Disjoint.symm (h : R.Disjoint S) : S.Disjoint R := Or.symm h

/-- Ranges in disjoint regions. -/
theorem Disjoint.apart (h : R.Disjoint S) (ha : R.Has a n) (hb : S.Has b k) (hn : 0 < n)
    (hk : 0 < k) : Apart a n b k := by
  have := R.fits
  have := S.fits
  unfold Disjoint Has at *
  constructor <;> rw [BitVec.toNat_sub] <;> omega

/-- A part of a range. -/
theorem Has.part {x n' : Nat} (h : R.Has a n) (hx : x + n' ≤ n) (hn' : 0 < n') :
    R.Has (a + BitVec.ofNat 64 x) n' := by
  have := R.fits
  unfold Has at *
  rw [BitVec.toNat_add, BitVec.toNat_ofNat]
  omega

theorem Has.take {n' : Nat} (h : R.Has a n) (hn : n' ≤ n) : R.Has a n' :=
  ⟨h.1, Nat.le_trans (Nat.add_le_add_left hn _) h.2⟩

/-- The byte `i` of a range. -/
theorem Has.byte (h : R.Has a n) (hi : i < n) : R.Has (a + BitVec.ofNat 64 i) 1 :=
  h.part (by omega) (by decide)

/-- A memory that is the same in a region reads the same there. -/
theorem Has.read_congr (h : R.Has a n) (hm : ∀ x, R.Has x 1 → m' x = m x) :
    m'.read a n = m.read a n :=
  Bytes.read_congr fun _ hi => hm _ (h.byte hi)

end Region

end Costream.Bytes
