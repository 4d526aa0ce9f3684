import Mathlib.Data.Nat.ModEq
import Mathlib.Data.List.Basic
import Mathlib.Logic.Function.Basic

/-!
# The ring buffer

`RingBuffer` counts pushes and pops in two `size_t`s and takes them modulo
`capacity_ + 1` to find a slot.  When `write_` overflows, both counters start
again at small values that have the same difference.

* `RingBuffer.push` and `RingBuffer.pop` are the operations.  They have no
  result where the code divides by zero or moves out of a slot that holds no
  object.
* `RingBuffer.Holds` relates a buffer to the elements it stores, oldest first.
* `push_spec` and `pop_spec` say that the operations are those of a bounded
  queue.  For `push` the counter must not overflow, unless the number of slots
  divides the number of values of a `size_t`: only then do the new counters
  lead to the slots in which the elements are.
-/

namespace Costream.Sync

/-- `RingBuffer`.  `w` is the width of a `size_t`.  A slot without an object is
`none`. -/
structure RingBuffer (w : Nat) (α : Type*) where
  capacity : Nat
  buf : Nat → Option α
  write : Nat
  read : Nat

namespace RingBuffer

variable {w : Nat} {α : Type*} {q q' : RingBuffer w α} {xs : List α} {a : α}

/-! ## The operations -/

/-- The constructor. -/
def create (cap : Nat) : RingBuffer w α := ⟨cap, fun _ => none, 0, 0⟩

/-- `capacity_ + 1`. -/
def slots (q : RingBuffer w α) : Nat := (q.capacity + 1) % 2 ^ w

def size (q : RingBuffer w α) : Nat := (q.write + 2 ^ w - q.read) % 2 ^ w

def empty (q : RingBuffer w α) : Bool := q.size = 0

def full (q : RingBuffer w α) : Bool := q.size = q.capacity

def pwrite (q : RingBuffer w α) : Nat := q.write % q.slots

def pread (q : RingBuffer w α) : Nat := q.read % q.slots

/-- `push(arg)`. -/
def push (q : RingBuffer w α) (arg : α) : Option (Bool × RingBuffer w α) :=
  if q.full then some (false, q)
  else if q.slots = 0 then none
  else
    let buf := Function.update q.buf q.pwrite (some arg)
    let write := (q.write + 1) % 2 ^ w
    if write = 0 then
      some (true, { q with
        buf := buf, write := q.slots, read := (q.read + q.slots) % 2 ^ w })
    else some (true, { q with buf := buf, write := write })

/-- `pop(arg)`, with the element moved to `arg`. -/
def pop (q : RingBuffer w α) : Option (Option α × RingBuffer w α) :=
  if q.empty then some (none, q)
  else if q.slots = 0 then none
  else (q.buf q.pread).map fun a =>
    (some a, { q with
      buf := Function.update q.buf q.pread none, read := (q.read + 1) % 2 ^ w })

/-! ## The elements -/

/-- The slot of the `i`-th element counted from `read`. -/
def slot (q : RingBuffer w α) (i : Nat) : Nat := (q.read + i) % (q.capacity + 1)

/-- The buffer stores the elements `xs`, oldest first. -/
structure Holds (q : RingBuffer w α) (xs : List α) : Prop where
  fits : q.capacity + 1 < 2 ^ w
  length_le : xs.length ≤ q.capacity
  write_eq : q.write = q.read + xs.length
  write_lt : q.write < 2 ^ w
  stored : ∀ i < xs.length, q.buf (q.slot i) = xs[i]?

/-- The counters survive the next push: `write_` does not overflow, or the slots
divide its range. -/
def Wraps (q : RingBuffer w α) : Prop :=
  q.write + 1 < 2 ^ w ∨ q.capacity + 1 ∣ 2 ^ w

instance : Decidable q.Wraps := inferInstanceAs (Decidable (_ ∨ _))

theorem slot_ne (q : RingBuffer w α) {i j : Nat} (hij : i < j) (hj : j ≤ q.capacity) :
    q.slot j ≠ q.slot i := by
  intro h
  have hmod : j ≡ i [MOD q.capacity + 1] := Nat.ModEq.add_left_cancel' q.read h
  have := Nat.ModEq.eq_of_lt_of_lt hmod (by omega) (by omega)
  omega

theorem holds_create {cap : Nat} (h : cap + 1 < 2 ^ w) :
    (create cap : RingBuffer w α).Holds [] where
  fits := h
  length_le := Nat.zero_le _
  write_eq := rfl
  write_lt := Nat.two_pow_pos w
  stored i hi := absurd hi (Nat.not_lt_zero i)

theorem Holds.slots_eq (h : q.Holds xs) : q.slots = q.capacity + 1 :=
  Nat.mod_eq_of_lt h.fits

theorem Holds.size_eq (h : q.Holds xs) : q.size = xs.length := by
  have hle := h.length_le
  have hfits := h.fits
  rw [size, h.write_eq, show q.read + xs.length + 2 ^ w - q.read = xs.length + 2 ^ w by omega,
    Nat.add_mod_right]
  exact Nat.mod_eq_of_lt (by omega)

theorem Holds.full_iff (h : q.Holds xs) : q.full = true ↔ xs.length = q.capacity := by
  rw [full, h.size_eq, decide_eq_true_iff]

theorem Holds.empty_iff (h : q.Holds xs) : q.empty = true ↔ xs = [] := by
  rw [empty, h.size_eq, decide_eq_true_iff, List.length_eq_zero_iff]

/-- A full buffer refuses. -/
theorem push_full (h : q.Holds xs) (hlen : xs.length = q.capacity) :
    q.push a = some (false, q) := by
  rw [push, if_pos (h.full_iff.2 hlen)]

theorem Holds.not_full (h : q.Holds xs) (hlen : xs.length < q.capacity) : ¬ q.full = true := by
  intro hf
  have := h.full_iff.1 hf
  omega

theorem Holds.slots_ne_zero (h : q.Holds xs) : q.slots ≠ 0 := by
  rw [h.slots_eq]
  exact Nat.succ_ne_zero _

theorem Holds.pwrite_eq (h : q.Holds xs) : q.pwrite = q.slot xs.length := by
  rw [pwrite, slot, h.slots_eq, h.write_eq]

/-- A push before the overflow. -/
theorem push_below (h : q.Holds xs) (hlen : xs.length < q.capacity)
    (hlt : q.write + 1 < 2 ^ w) :
    q.push a = some (true, { q with
      buf := Function.update q.buf (q.slot xs.length) (some a), write := q.write + 1 }) := by
  rw [push, if_neg (h.not_full hlen), if_neg h.slots_ne_zero, Nat.mod_eq_of_lt hlt, h.pwrite_eq]
  exact if_neg (Nat.succ_ne_zero _)

/-- The push at which `write_` overflows. -/
theorem push_overflow (h : q.Holds xs) (hlen : xs.length < q.capacity)
    (hover : q.write + 1 = 2 ^ w) :
    q.push a = some (true, { q with
      buf := Function.update q.buf (q.slot xs.length) (some a)
      write := q.capacity + 1, read := q.capacity - xs.length }) := by
  have hfits := h.fits
  have hweq := h.write_eq
  have hread : (q.read + q.slots) % 2 ^ w = q.capacity - xs.length := by
    have : q.read + q.slots = q.capacity - xs.length + 2 ^ w := by
      rw [h.slots_eq]
      omega
    rw [this, Nat.add_mod_right]
    exact Nat.mod_eq_of_lt (by omega)
  rw [push, if_neg (h.not_full hlen), if_neg h.slots_ne_zero, hover, Nat.mod_self, hread,
    h.slots_eq, h.pwrite_eq]
  exact if_pos rfl

/-- The old and the new counter lead to the same slots: they differ by a multiple of their
number. -/
theorem Holds.slot_rebased (h : q.Holds xs) (hover : q.write + 1 = 2 ^ w)
    (hdvd : q.capacity + 1 ∣ 2 ^ w) (i : Nat) :
    (q.capacity - xs.length + i) % (q.capacity + 1) = q.slot i := by
  obtain ⟨k, hk⟩ := hdvd
  have hweq := h.write_eq
  have hle := h.length_le
  have hr : q.read + i + (q.capacity + 1) =
      q.capacity - xs.length + i + (q.capacity + 1) * k := by omega
  rw [slot, ← Nat.add_mod_right (q.read + i), hr, Nat.add_mul_mod_self_left]

/-- A buffer that is not full takes the element as its youngest. -/
theorem push_spec (h : q.Holds xs) (hlen : xs.length < q.capacity) (hw : q.Wraps) :
    ∃ q', q.push a = some (true, q') ∧ q'.Holds (xs ++ [a]) ∧ q'.capacity = q.capacity ∧
      (q.write + 1 < 2 ^ w → q'.write = q.write + 1) := by
  have hfits := h.fits
  have hweq := h.write_eq
  have hwlt := h.write_lt
  have hlen' : (xs ++ [a]).length = xs.length + 1 := by
    rw [List.length_append, List.length_singleton]
  have hstored : ∀ i < (xs ++ [a]).length,
      Function.update q.buf (q.slot xs.length) (some a) (q.slot i) = (xs ++ [a])[i]? := by
    intro i hi
    rw [hlen'] at hi
    by_cases hix : i = xs.length
    · subst hix
      rw [Function.update_self, List.getElem?_concat_length]
    · have hlt : i < xs.length := by omega
      rw [Function.update_of_ne (q.slot_ne hlt hlen.le).symm, h.stored i hlt,
        List.getElem?_append_left hlt]
  by_cases hover : q.write + 1 < 2 ^ w
  · refine ⟨_, push_below h hlen hover, ⟨hfits, hlen'.trans_le hlen, ?_, hover, hstored⟩, rfl,
      fun _ => rfl⟩
    rw [hlen', hweq, Nat.add_assoc]
  · refine ⟨_, push_overflow h hlen (by omega), ⟨hfits, hlen'.trans_le hlen, ?_, hfits, ?_⟩, rfl,
      fun hlt => absurd hlt hover⟩
    · rw [hlen']
      simp only
      omega
    · intro i hi
      simp only [slot]
      rw [h.slot_rebased (by omega) (hw.resolve_left hover)]
      exact hstored i hi

/-- A pop from a slot that holds an object. -/
theorem pop_eq (hsize : q.size ≠ 0) (hslots : q.slots ≠ 0) (ha : q.buf q.pread = some a) :
    q.pop = some (some a, { q with
      buf := Function.update q.buf q.pread none, read := (q.read + 1) % 2 ^ w }) := by
  rw [pop, if_neg (by simpa [empty] using hsize), if_neg hslots, ha, Option.map_some]

/-- An empty buffer has nothing to pop. -/
theorem pop_nil (h : q.Holds []) : q.pop = some (none, q) := by
  rw [pop, if_pos (h.empty_iff.2 rfl)]

/-- `pop` returns the oldest element. -/
theorem pop_spec (h : q.Holds (a :: xs)) :
    ∃ q', q.pop = some (some a, q') ∧ q'.Holds xs ∧ q'.capacity = q.capacity ∧
      q'.write = q.write := by
  have hfits := h.fits
  have hweq := h.write_eq
  have hwlt := h.write_lt
  have hlen := h.length_le
  rw [List.length_cons] at hweq hlen
  have hsize : q.size ≠ 0 := by
    rw [h.size_eq, List.length_cons]
    exact Nat.succ_ne_zero _
  have hpread : q.pread = q.slot 0 := by
    rw [pread, slot, h.slots_eq]
    rfl
  have hread : (q.read + 1) % 2 ^ w = q.read + 1 := Nat.mod_eq_of_lt (by omega)
  have hpop : q.pop = some (some a, { q with
      buf := Function.update q.buf (q.slot 0) none, read := q.read + 1 }) := by
    have hhead := h.stored 0 (Nat.succ_pos _)
    rw [← hpread, List.getElem?_cons_zero] at hhead
    rw [pop_eq hsize h.slots_ne_zero hhead, hpread, hread]
  refine ⟨_, hpop, ?_, rfl, rfl⟩
  refine ⟨hfits, by simp only; omega, by simp only; omega, hwlt, ?_⟩
  intro i hi
  have hslot : (q.read + 1 + i) % (q.capacity + 1) = q.slot (i + 1) := by
    rw [slot, Nat.add_assoc, Nat.add_comm 1]
  simp only [slot]
  rw [hslot, ← List.getElem?_cons_succ (a := a), ← h.stored (i + 1) (by simpa using hi)]
  exact Function.update_of_ne (q.slot_ne (Nat.succ_pos i) (by omega)) _ _

end RingBuffer

end Costream.Sync
