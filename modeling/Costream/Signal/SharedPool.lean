import Mathlib.Algebra.GroupWithZero.Nat
import Mathlib.Data.List.Nodup
import Mathlib.Data.List.Perm.Lattice
import Costream.Trace

/-!
# The pools of shared objects

`SharedSignalPool` and `SharedQueuePool` are the same class for objects of a different size.  A pool
gets its memory from `allocate_` in blocks, keeps the slots that are free in `free_list_`, and asks
for a block twice as large each time that it runs out of them.

* `Layout` is the size of an object.
* `Honest` is what is known about `allocate_`: a block that it returns is memory that is not in use.
* `machine` is a pool with the objects that it has given out and the blocks that `allocate_` has.
* `Partition` says that each slot is free or in use, and not both.

The vectors of the pool grow without failing, so that `throwGuard` is always dismissed.
-/

namespace Costream.SharedPool

open Trace

/-! ## The state -/

/-- The object that a pool is for. -/
structure Layout where
  size : Nat
  pos : 0 < size
  fits : size ≤ 4096

/-- `SharedSignal`, an aligned `co_signal_t` and a pointer. -/
def sharedSignal : Layout := ⟨128, by decide, by decide⟩

variable (L : Layout)

/-- `minblock_`. -/
def Layout.minblock : Nat := 4096 / L.size

structure Pool where
  freeList : List Nat
  blockList : List (Nat × Nat)
  blockSize : Nat

/-- The pool, the objects in use, and what `allocate_` has given out: addresses and bytes. -/
structure State where
  pool : Pool
  live : List Nat
  allocated : List (Nat × Nat)

/-- The constructor. -/
def initial : State where
  pool := ⟨[], [], L.minblock⟩
  live := []
  allocated := []

/-- The slots of a block of `n` objects. -/
def Layout.slots (block n : Nat) : List Nat := (List.range n).map fun i => block + i * L.size

/-- The slots of all blocks. -/
def State.slots (s : State) : List Nat := s.pool.blockList.flatMap fun b => L.slots b.1 b.2

/-! ## The operations -/

/-- What is asked of `allocate_`. -/
def Layout.bytes (blockSize : Nat) : Nat := blockSize * L.size % 2 ^ 64

/-- A new block is entered. -/
def State.enter (s : State) (block : Nat) : State :=
  { s with
    pool :=
      { freeList := s.pool.freeList ++ L.slots block s.pool.blockSize
        blockList := s.pool.blockList ++ [(block, s.pool.blockSize)]
        blockSize := s.pool.blockSize * 2 % 2 ^ 64 }
    allocated := s.allocated ++ [(block, L.bytes s.pool.blockSize)] }

/-- `block_size_ = minblock_`. -/
def State.shrink (s : State) : State :=
  { s with pool := { s.pool with blockSize := L.minblock } }

/-- The first part of `alloc`, with what the two calls of `allocate_` return.  False is
`std::bad_alloc`. -/
def State.refill (s : State) (first second : Option Nat) : Bool × State :=
  if s.pool.freeList = [] then
    match first, second with
    | some block, _ => (true, s.enter L block)
    | none, some block => (true, (s.shrink L).enter L block)
    | none, none => (false, s.shrink L)
  else (true, s)

/-- `alloc`: the object, or none if it throws.  There has to be a slot in the end. -/
def State.alloc (s : State) (first second : Option Nat) : Option (Option Nat × State) :=
  match s.refill L first second with
  | (false, s) => some (none, s)
  | (true, s) => s.pool.freeList.getLast?.map fun ret =>
      (some ret,
        { s with
          pool := { s.pool with freeList := s.pool.freeList.dropLast }
          live := s.live ++ [ret] })

/-- `free`, with its assertion. -/
def State.free (s : State) (ptr : Nat) : Option State :=
  if ptr = 0 then some s
  else if s.pool.blockList.any fun b => b.1 ≤ ptr ∧ ptr < (b.1 + L.bytes b.2) % 2 ^ 64 then
    some { s with
      pool := { s.pool with freeList := s.pool.freeList ++ [ptr] }
      live := s.live.erase ptr }
  else none

/-- `clear`. -/
def State.clear (s : State) : State :=
  { s with
    pool := { s.pool with freeList := [], blockList := [] }
    allocated := s.allocated.filter fun r => ∀ b ∈ s.pool.blockList, b.1 ≠ r.1 }

/-! ## The machine -/

/-- What `allocate_` may answer: null, or memory that is in no other block.  No object is larger
than the largest difference of two pointers. -/
def Honest (allocated : List (Nat × Nat)) (bytes : Nat) : Option Nat → Prop
  | none => True
  | some block => 0 < block ∧ block + bytes < 2 ^ 64 ∧ bytes < 2 ^ 63 ∧
      ∀ r ∈ allocated, block + bytes ≤ r.1 ∨ r.1 + r.2 ≤ block

instance (allocated : List (Nat × Nat)) (bytes : Nat) :
    (answer : Option Nat) → Decidable (Honest allocated bytes answer)
  | none => inferInstanceAs (Decidable True)
  | some block => inferInstanceAs (Decidable (0 < block ∧ block + bytes < 2 ^ 64 ∧ bytes < 2 ^ 63 ∧
      ∀ r ∈ allocated, block + bytes ≤ r.1 ∨ r.1 + r.2 ≤ block))

inductive Action where
  | alloc (first second : Option Nat)
  | free (ptr : Nat)
  | clear
  deriving DecidableEq

/-- The answers of `allocate_` to the calls that `alloc` may make. -/
def State.Answers (s : State) (first second : Option Nat) : Prop :=
  Honest s.allocated (L.bytes s.pool.blockSize) first ∧
    Honest s.allocated (L.bytes L.minblock) second

instance (s : State) (first second : Option Nat) : Decidable (s.Answers L first second) :=
  inferInstanceAs (Decidable (_ ∧ _))

/-- Only objects in use are freed, and a pool that is cleared has none. -/
def State.enabled (s : State) : Action → Prop
  | .alloc first second => s.Answers L first second
  | .free ptr => ptr = 0 ∨ ptr ∈ s.live
  | .clear => s.live = []

instance (s : State) : (a : Action) → Decidable (s.enabled L a)
  | .alloc first second => inferInstanceAs (Decidable (s.Answers L first second))
  | .free ptr => inferInstanceAs (Decidable (ptr = 0 ∨ ptr ∈ s.live))
  | .clear => inferInstanceAs (Decidable (s.live = []))

def State.step (s : State) : Action → Option State
  | .alloc first second => (s.alloc L first second).map Prod.snd
  | .free ptr => s.free L ptr
  | .clear => some s.clear

def machine : Machine State Action where
  enabled := State.enabled L
  step := State.step L

instance (s : State) (a : Action) : Decidable ((machine L).enabled s a) :=
  inferInstanceAs (Decidable (s.enabled L a))

/-! ## The partition -/

/-- Each slot is free or in use, and the sizes of the blocks are those of what `allocate_` has given
out. -/
structure State.Partition (s : State) : Prop where
  slots : (s.live ++ s.pool.freeList).Perm (s.slots L)
  once : (s.live ++ s.pool.freeList).Nodup
  sizes : s.allocated = s.pool.blockList.map fun b => (b.1, b.2 * L.size)

/-- The regions do not overlap. -/
def Separate (r r' : Nat × Nat) : Prop := r.1 + r.2 ≤ r'.1 ∨ r'.1 + r'.2 ≤ r.1

structure Inv (s : State) : Prop where
  slots : (s.live ++ s.pool.freeList).Perm (s.slots L)
  sizes : s.allocated = s.pool.blockList.map fun b => (b.1, b.2 * L.size)
  apart : s.allocated.Pairwise Separate
  within : ∀ r ∈ s.allocated, 0 < r.1 ∧ r.1 + r.2 < 2 ^ 64
  room : 0 < s.pool.blockSize ∧ s.pool.blockSize * L.size < 2 ^ 64

variable {L : Layout} {s s' : State} {first second : Option Nat} {block ptr n : Nat}

theorem bytes_eq (h : n * L.size < 2 ^ 64) : L.bytes n = n * L.size := Nat.mod_eq_of_lt h

theorem minblock_room : 0 < L.minblock ∧ L.minblock * L.size < 2 ^ 64 := by
  have hle : L.minblock * L.size ≤ 4096 := Nat.div_mul_le_self 4096 L.size
  exact ⟨Nat.div_pos L.fits L.pos, by omega⟩

/-! ## Slots -/

theorem mem_slots (h : ptr ∈ L.slots block n) : block ≤ ptr ∧ ptr < block + n * L.size := by
  unfold Layout.slots at h
  obtain ⟨i, hi, rfl⟩ := List.mem_map.1 h
  have hmul : (i + 1) * L.size ≤ n * L.size := Nat.mul_le_mul_right _ (List.mem_range.1 hi)
  have hpos := L.pos
  rw [Nat.succ_mul] at hmul
  omega

theorem slots_block (block n : Nat) : (L.slots block n).Nodup := by
  unfold Layout.slots
  refine List.nodup_range.map fun i j hij => ?_
  have hmul : i * L.size = j * L.size := Nat.add_left_cancel hij
  exact Nat.eq_of_mul_eq_mul_right L.pos hmul

/-- Blocks that do not overlap have no slot in common. -/
theorem Inv.nodup (h : Inv L s) : (s.slots L).Nodup := by
  unfold State.slots
  rw [List.nodup_flatMap]
  refine ⟨fun b _ => slots_block b.1 b.2, ?_⟩
  have hapart := h.apart
  rw [h.sizes, List.pairwise_map] at hapart
  refine hapart.imp fun hdisj => ?_
  intro p hp hp'
  have hlt := mem_slots hp
  have hlt' := mem_slots hp'
  rcases hdisj with hdisj | hdisj
  · exact absurd hlt'.1 (by simp only at hdisj; omega)
  · exact absurd hlt.1 (by simp only at hdisj; omega)

theorem Inv.partition (h : Inv L s) : s.Partition L :=
  ⟨h.slots, h.slots.nodup_iff.2 h.nodup, h.sizes⟩

theorem inv_initial (L : Layout) : Inv L (initial L) where
  slots := .refl []
  sizes := rfl
  apart := .nil
  within := by
    intro r hr
    cases hr
  room := minblock_room

/-! ## `alloc` -/

theorem Inv.shrink (h : Inv L s) : Inv L (s.shrink L) :=
  ⟨h.slots, h.sizes, h.apart, h.within, minblock_room⟩

theorem Inv.enter (h : Inv L s)
    (hhonest : Honest s.allocated (L.bytes s.pool.blockSize) (some block)) :
    Inv L (s.enter L block) := by
  obtain ⟨hpos, hroom⟩ := h.room
  rw [bytes_eq hroom] at hhonest
  obtain ⟨hblock, hend, hhalf, hdisj⟩ := hhonest
  have hsize := L.pos
  have hle : s.pool.blockSize * 1 ≤ s.pool.blockSize * L.size := Nat.mul_le_mul_left _ hsize
  have hdouble : s.pool.blockSize * 2 * L.size = s.pool.blockSize * L.size * 2 := by
    rw [Nat.mul_assoc, Nat.mul_comm 2, Nat.mul_assoc]
  have hmod : s.pool.blockSize * 2 % 2 ^ 64 = s.pool.blockSize * 2 := Nat.mod_eq_of_lt (by omega)
  refine ⟨?_, ?_, ?_, ?_, ?_⟩
  · show (s.live ++ (s.pool.freeList ++ L.slots block s.pool.blockSize)).Perm _
    unfold State.slots State.enter
    rw [List.flatMap_append, ← List.append_assoc, List.flatMap_singleton]
    exact h.slots.append_right _
  · show s.allocated ++ [(block, L.bytes s.pool.blockSize)] = _
    unfold State.enter
    rw [List.map_append, ← h.sizes, bytes_eq hroom]
    rfl
  · refine List.pairwise_append.2 ⟨h.apart, List.pairwise_singleton _ _, fun r hr r' hr' => ?_⟩
    rw [List.mem_singleton] at hr'
    rw [hr', bytes_eq hroom]
    exact (hdisj r hr).symm
  · intro r hr
    rcases List.mem_append.1 hr with hr | hr
    · exact h.within r hr
    · rw [List.mem_singleton.1 hr, bytes_eq hroom]
      exact ⟨hblock, hend⟩
  · show 0 < s.pool.blockSize * 2 % 2 ^ 64 ∧ s.pool.blockSize * 2 % 2 ^ 64 * L.size < 2 ^ 64
    rw [hmod, hdouble]
    omega

theorem enter_freeList (hpos : 0 < s.pool.blockSize) : (s.enter L block).pool.freeList ≠ [] := by
  show s.pool.freeList ++ L.slots block s.pool.blockSize ≠ []
  unfold Layout.slots
  simp [Nat.ne_of_gt hpos]

/-- After the first part there is a free slot, or nothing but `block_size_` has changed. -/
theorem Inv.refill (h : Inv L s) (hanswers : s.Answers L first second) :
    Inv L (s.refill L first second).2 ∧ (s.refill L first second).2.live = s.live ∧
      if (s.refill L first second).1 then (s.refill L first second).2.pool.freeList ≠ []
      else (s.refill L first second).2.pool.freeList = s.pool.freeList ∧
        (s.refill L first second).2.pool.blockList = s.pool.blockList := by
  unfold State.refill
  by_cases hempty : s.pool.freeList = []
  · rw [if_pos hempty]
    cases first with
    | some block => exact ⟨h.enter hanswers.1, rfl, enter_freeList h.room.1⟩
    | none =>
      cases second with
      | some block => exact ⟨h.shrink.enter hanswers.2, rfl, enter_freeList minblock_room.1⟩
      | none => exact ⟨h.shrink, rfl, rfl, rfl⟩
  · rw [if_neg hempty]
    exact ⟨h, rfl, hempty⟩

/-- The last free slot is given out. -/
theorem Inv.give (h : Inv L s) {l : List Nat} (hlast : s.pool.freeList = l ++ [ptr]) :
    ptr ∉ s.live ∧
      Inv L { s with pool := { s.pool with freeList := l }, live := s.live ++ [ptr] } := by
  have hnodup := h.partition.once
  have hslots := h.slots
  rw [hlast] at hnodup hslots
  refine ⟨fun hlive => ?_, ?_, h.sizes, h.apart, h.within, h.room⟩
  · exact (List.nodup_append.1 hnodup).2.2 ptr hlive ptr (by simp) rfl
  · refine List.Perm.trans ?_ hslots
    rw [List.append_assoc]
    exact List.perm_append_comm.append_left _

/-- What `alloc` comes to. -/
structure Allocated (s : State) (ret : Option Nat) (s' : State) : Prop where
  given : ∀ ptr, ret = some ptr → ptr ∉ s.live ∧ s'.live = s.live ++ [ptr]
  thrown : ret = none → s'.live = s.live ∧ s'.pool.freeList = s.pool.freeList ∧
    s'.pool.blockList = s.pool.blockList

theorem Inv.alloc (h : Inv L s) (hanswers : s.Answers L first second) :
    ∃ ret s', s.alloc L first second = some (ret, s') ∧ Inv L s' ∧ Allocated s ret s' := by
  obtain ⟨hinv, hlive, hlists⟩ := h.refill hanswers
  unfold State.alloc
  generalize s.refill L first second = r at hinv hlive hlists
  obtain ⟨b, t⟩ := r
  have hinv' : Inv L t := hinv
  have hlive' : t.live = s.live := hlive
  cases b with
  | false =>
    have hsame : t.pool.freeList = s.pool.freeList ∧ t.pool.blockList = s.pool.blockList := hlists
    exact ⟨none, t, rfl, hinv', ⟨nofun, fun _ => ⟨hlive', hsame⟩⟩⟩
  | true =>
    have hne : t.pool.freeList ≠ [] := hlists
    obtain ⟨hout, hgiven⟩ := hinv'.give (List.dropLast_append_getLast hne).symm
    refine ⟨some (t.pool.freeList.getLast hne), _, ?_, hgiven, ⟨fun ptr hptr => ?_, nofun⟩⟩
    · show t.pool.freeList.getLast?.map _ = _
      rw [List.getLast?_eq_some_getLast hne]
      rfl
    · rw [Option.some.injEq] at hptr
      rw [← hptr, ← hlive']
      exact ⟨hout, rfl⟩

/-! ## `free` and `clear` -/

/-- An object in use is in one of the blocks, which end below the end of the address space. -/
theorem Inv.owner (h : Inv L s) (hptr : ptr ∈ s.live) : 0 < ptr ∧
    (s.pool.blockList.any fun b => b.1 ≤ ptr ∧ ptr < (b.1 + L.bytes b.2) % 2 ^ 64) = true := by
  have hmem : ptr ∈ s.slots L := h.slots.mem_iff.1 (List.mem_append_left _ hptr)
  unfold State.slots at hmem
  obtain ⟨b, hb, hslot⟩ := List.mem_flatMap.1 hmem
  have hrange := mem_slots hslot
  have hwithin := h.within (b.1, b.2 * L.size) (by rw [h.sizes]; exact List.mem_map.2 ⟨b, hb, rfl⟩)
  simp only at hwithin
  refine ⟨by omega, List.any_eq_true.2 ⟨b, hb, ?_⟩⟩
  rw [bytes_eq (by omega), Nat.mod_eq_of_lt hwithin.2, decide_eq_true_eq]
  exact hrange

theorem Inv.free (h : Inv L s) (hptr : ptr = 0 ∨ ptr ∈ s.live) :
    ∃ s', s.free L ptr = some s' ∧ Inv L s' := by
  unfold State.free
  by_cases hzero : ptr = 0
  · exact ⟨s, if_pos hzero, h⟩
  · have hlive := hptr.resolve_left hzero
    rw [if_neg hzero, if_pos (h.owner hlive).2]
    refine ⟨_, rfl, ?_, h.sizes, h.apart, h.within, h.room⟩
    refine List.Perm.trans ?_ h.slots
    show (s.live.erase ptr ++ (s.pool.freeList ++ [ptr])).Perm _
    have hfront : (s.live.erase ptr ++ (s.pool.freeList ++ [ptr])).Perm
        (s.live.erase ptr ++ ptr :: s.pool.freeList) := List.perm_append_comm.append_left _
    have hback : (ptr :: s.live.erase ptr ++ s.pool.freeList).Perm (s.live ++ s.pool.freeList) :=
      (List.perm_cons_erase hlive).symm.append_right _
    exact hfront.trans (List.perm_middle.trans hback)

theorem Inv.clear (h : Inv L s) (hlive : s.live = []) : Inv L s.clear := by
  have hnone : s.clear.allocated = [] := by
    unfold State.clear
    rw [List.filter_eq_nil_iff, h.sizes]
    intro r hr
    obtain ⟨b, hb, rfl⟩ := List.mem_map.1 hr
    simp only [decide_eq_true_eq]
    exact fun hall => hall b hb rfl
  refine ⟨?_, hnone, ?_, ?_, h.room⟩
  · show (s.live ++ []).Perm []
    rw [hlive]
    exact .refl []
  · rw [hnone]
    exact .nil
  · rw [hnone]
    intro r hr
    cases hr

/-! ## The result -/

theorem inv_of_run {ok : State → Action → Prop} (h : Run (machine L) ok (initial L) s) :
    Inv L s := by
  refine h.invariant (inv_initial L) fun t a u ht he _ hs => ?_
  cases a with
  | alloc first second =>
    obtain ⟨ret, s', halloc, hinv, -⟩ := ht.alloc he
    have hstep : (t.alloc L first second).map Prod.snd = some u := hs
    rw [halloc, Option.map_some, Option.some.injEq] at hstep
    exact hstep ▸ hinv
  | free ptr =>
    obtain ⟨s', hfree, hinv⟩ := ht.free he
    have hstep : t.free L ptr = some u := hs
    rw [hfree, Option.some.injEq] at hstep
    exact hstep ▸ hinv
  | clear =>
    have hstep : some t.clear = some u := hs
    rw [Option.some.injEq] at hstep
    exact hstep ▸ ht.clear he

end Costream.SharedPool
