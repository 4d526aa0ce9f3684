import Mathlib.Data.Nat.Notation
import Mathlib.Algebra.Order.Ring.Nat

/-!
# Blocks of memory

A block is what an allocator returns: so many bytes, with arbitrary contents at
first.  A load or store outside of the block is a fault.  Numbers are stored
little-endian, that is, byte `i` of a number is its digit `i` to base 256.

* `Block.load_digit` says what a load sees that lies within an earlier store, at
  another width, and `Block.load_store_of_disjoint` what one sees that lies
  outside of it.
* `Layout` computes the offsets and the size of a structure from its fields, as
  a C compiler does.
-/

namespace Costream.Memory

/-! ## Structures -/

/-- A field: its size, and what its offset is a multiple of. -/
structure Field where
  size : Nat
  align : Nat

/-- A number or a pointer of `n` bytes. -/
def Field.scalar (n : Nat) : Field := ⟨n, n⟩

/-- An array of `k` elements. -/
def Field.array (k : Nat) (f : Field) : Field := ⟨k * f.size, f.align⟩

/-- The next multiple of `a`. -/
def roundUp (n a : Nat) : Nat := (n + a - 1) / a * a

/-- The offset of field `i`, of those from offset `off` on. -/
def offsetFrom (off : Nat) : List Field → Nat → Nat
  | [], _ => off
  | f :: _, 0 => roundUp off f.align
  | f :: fs, i + 1 => offsetFrom (roundUp off f.align + f.size) fs i

/-- `offsetof`. -/
def offset (fs : List Field) (i : Nat) : Nat := offsetFrom 0 fs i

/-- The offsets of all fields. -/
def offsets (fs : List Field) : List Nat := (List.range fs.length).map (offset fs)

/-- The bytes of a list of numbers at given offsets, as one number. -/
def imageAt : List Nat → List Nat → Nat
  | val :: vals, off :: offs => val * 256 ^ off + imageAt vals offs
  | _, _ => 0

/-- The bytes of a structure as a number. -/
def image (fs : List Field) (vals : List Nat) : Nat := imageAt vals (offsets fs)

/-- The alignment of a structure or union is the greatest of its fields. -/
def alignment (fs : List Field) : Nat := (fs.map Field.align).foldr max 1

/-- `sizeof` a structure. -/
def structSize (fs : List Field) : Nat := roundUp (offset fs fs.length) (alignment fs)

/-- A structure as a field. -/
def Field.struct (fs : List Field) : Field := ⟨structSize fs, alignment fs⟩

/-- `sizeof` a union. -/
def unionSize (fs : List Field) : Nat :=
  roundUp ((fs.map Field.size).foldr max 0) (alignment fs)

/-! ## Blocks -/

/-- An allocated block. -/
structure Block where
  size : Nat
  byte : Nat → UInt8

namespace Block

/-- The number in `n` bytes from `off` on. -/
def value (b : Block) (off : Nat) : Nat → Nat
  | 0 => 0
  | n + 1 => (b.byte off).toNat + 256 * b.value (off + 1) n

/-- A load of `n` bytes. -/
def load (b : Block) (off n : Nat) : Option Nat :=
  if off + n ≤ b.size then some (b.value off n) else none

/-- A store of `n` bytes. -/
def store (b : Block) (off n v : Nat) : Option Block :=
  if off + n ≤ b.size then
    some { b with
      byte := fun i =>
        if off ≤ i ∧ i < off + n then UInt8.ofNat (v / 256 ^ (i - off)) else b.byte i }
  else none

variable {b b' : Block} {off off' n n' v : Nat}

theorem load_eq (h : off + n ≤ b.size) : b.load off n = some (b.value off n) := if_pos h

theorem load_eq_none_iff : b.load off n = none ↔ b.size < off + n := by
  rw [load]
  split <;> simp <;> omega

theorem exists_store (h : off + n ≤ b.size) (v : Nat) : ∃ b', b.store off n v = some b' :=
  ⟨_, if_pos h⟩

theorem store_eq_none_iff : b.store off n v = none ↔ b.size < off + n := by
  rw [store]
  split <;> simp <;> omega

theorem le_of_store (h : b.store off n v = some b') : off + n ≤ b.size := by
  by_contra hlt
  rw [store_eq_none_iff.2 (Nat.not_le.1 hlt)] at h
  cases h

theorem size_of_store (h : b.store off n v = some b') : b'.size = b.size := by
  rw [store, if_pos (le_of_store h)] at h
  cases h
  rfl

/-- The bytes that a store writes. -/
theorem byte_of_store (h : b.store off n v = some b') {i : Nat} (hi : i < n) :
    b'.byte (off + i) = UInt8.ofNat (v / 256 ^ i) := by
  rw [store, if_pos (le_of_store h)] at h
  cases h
  simp [hi]

/-- The bytes that a store leaves alone. -/
theorem byte_of_store_of_ne (h : b.store off n v = some b') {i : Nat}
    (hi : i < off ∨ off + n ≤ i) : b'.byte i = b.byte i := by
  rw [store, if_pos (le_of_store h)] at h
  cases h
  simp only [ite_eq_right_iff, and_imp]
  omega

theorem value_congr (h : ∀ i < n, b'.byte (off + i) = b.byte (off + i)) :
    b'.value off n = b.value off n := by
  induction n generalizing off with
  | zero => rfl
  | succ n ih =>
    rw [value, value, ← Nat.add_zero off, h 0 (Nat.succ_pos n), Nat.add_zero,
      ih fun i hi => by rw [Nat.add_assoc, Nat.add_comm 1]; exact h (i + 1) (Nat.succ_lt_succ hi)]

/-- Bytes that are the digits of a number have it as their value. -/
theorem value_of_digits (h : ∀ i < n, b.byte (off + i) = UInt8.ofNat (v / 256 ^ i)) :
    b.value off n = v % 256 ^ n := by
  induction n generalizing off v with
  | zero => rw [value, Nat.pow_zero, Nat.mod_one]
  | succ n ih =>
    have h0 := h 0 (Nat.succ_pos n)
    rw [Nat.add_zero, Nat.pow_zero, Nat.div_one] at h0
    have hrest := @ih (off + 1) (v / 256) fun i hi => by
      rw [Nat.add_assoc, Nat.add_comm 1, h (i + 1) (Nat.succ_lt_succ hi), Nat.pow_succ',
        Nat.div_div_eq_div_mul]
    have hpow : 256 ^ (n + 1) = 256 * 256 ^ n := Nat.pow_succ'
    rw [value, h0, hrest, UInt8.toNat_ofNat', hpow]
    exact Nat.mod_mul.symm

/-- A load within an earlier store sees the digits from there on. -/
theorem load_digit (h : b.store off n v = some b') {k m : Nat} (hk : k + m ≤ n) :
    b'.load (off + k) m = some (v / 256 ^ k % 256 ^ m) := by
  have hle := le_of_store h
  rw [load_eq (by rw [size_of_store h]; omega)]
  congr 1
  refine value_of_digits fun i hi => ?_
  rw [Nat.add_assoc, byte_of_store h (by omega), Nat.div_div_eq_div_mul, Nat.pow_add]

/-- A load does not see a store to other bytes. -/
theorem load_store_of_disjoint (h : b.store off n v = some b')
    (hd : off' + n' ≤ off ∨ off + n ≤ off') : b'.load off' n' = b.load off' n' := by
  rw [load, load, size_of_store h]
  split
  · congr 1
    exact value_congr fun i hi => byte_of_store_of_ne h (by omega)
  · rfl

end Block

end Costream.Memory
