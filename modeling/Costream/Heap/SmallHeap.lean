import Mathlib.Algebra.GroupWithZero.Nat
import Mathlib.Data.Finset.Image
import Mathlib.Data.List.Sort
import Costream.Trace

/-!
# A small heap

`SmallHeap` is a first fit allocator for one range of memory.  `memory` has an entry for each
block and one for each of two guards.  The free entries and the guards are a list linked both ways,
in the order of their addresses.

* `Memory` is the `std::map` with its iterators.  An iterator is singular as long as nothing has
  been assigned to it.
* A failed assertion and the use of an iterator that is not at an entry are faults: `none`.
* `machine` is the heap with the blocks that it has given out.
-/

namespace Costream.SmallHeap

open Trace

/-! ## The map -/

inductive Iterator where
  | singular
  | entry (ptr : Nat)
  | past
  deriving DecidableEq

structure Node where
  len : Nat
  next : Iterator
  prior : Iterator

/-- `memory_t`.  Only the nodes of the keys are there. -/
structure Memory where
  keys : List Nat
  node : Nat → Node
  sorted : keys.Pairwise (· < ·)

namespace Memory

variable (m : Memory)

def len (ptr : Nat) : Nat := (m.node ptr).len

def next (ptr : Nat) : Iterator := (m.node ptr).next

def prior (ptr : Nat) : Iterator := (m.node ptr).prior

def begin : Iterator :=
  match m.keys.head? with
  | some ptr => .entry ptr
  | none => .past

def find (ptr : Nat) : Iterator := if ptr ∈ m.keys then .entry ptr else .past

/-- The key at an iterator. -/
def deref : Iterator → Option Nat
  | .entry ptr => if ptr ∈ m.keys then some ptr else none
  | _ => none

/-- What `--` comes to from `ptr`, one after the other. -/
def below (ptr : Nat) : List Nat := (m.keys.filter (· < ptr)).reverse

theorem sorted_insert (ptr : Nat) :
    (m.keys.filter (· < ptr) ++ ptr :: m.keys.filter (ptr < ·)).Pairwise (· < ·) := by
  refine List.pairwise_append.2 ⟨m.sorted.filter _, List.pairwise_cons.2 ⟨?_, m.sorted.filter _⟩, ?_⟩
  · intro k hk
    simpa using (List.mem_filter.1 hk).2
  · intro k hk k' hk'
    have hlt : k < ptr := by simpa using (List.mem_filter.1 hk).2
    rcases List.mem_cons.1 hk' with rfl | hk'
    · exact hlt
    · have hgt : ptr < k' := by simpa using (List.mem_filter.1 hk').2
      exact hlt.trans hgt

/-- `memory[ptr]`, before the reference to it is used. -/
def index (ptr : Nat) : Memory :=
  if ptr ∈ m.keys then m
  else
    { keys := m.keys.filter (· < ptr) ++ ptr :: m.keys.filter (ptr < ·)
      node := Function.update m.node ptr ⟨0, .singular, .singular⟩
      sorted := m.sorted_insert ptr }

def erase (ptr : Nat) : Memory :=
  { m with
    keys := m.keys.filter (· ≠ ptr)
    sorted := m.sorted.filter _ }

def set (ptr : Nat) (node : Node) : Memory := { m with node := Function.update m.node ptr node }

def setLen (ptr len : Nat) : Memory := m.set ptr { m.node ptr with len := len }

def setNext (ptr : Nat) (next : Iterator) : Memory := m.set ptr { m.node ptr with next := next }

def setPrior (ptr : Nat) (prior : Iterator) : Memory := m.set ptr { m.node ptr with prior := prior }

end Memory

/-! ## The list of the free entries -/

namespace Memory

variable (m : Memory)

def isfree (ptr : Nat) : Bool := m.next ptr ≠ m.begin

def islastfree (ptr : Nat) : Bool := m.next ptr = .past

def isfirstfree (ptr : Nat) : Bool := m.prior ptr = .past

def setused (ptr : Nat) : Memory := m.setNext ptr m.begin

def firstfree : Option Iterator := (m.deref m.begin).map m.next

def lastfree : Option Iterator := m.keys.getLast?.map m.prior

/-- Inserts `node` after `place`. -/
def insertafter (place node : Nat) : Option Memory := do
  guard (place < node)
  guard (m.isfree place)
  let next := m.next place
  let m := (m.setNext node next).setPrior node (.entry place)
  let m := m.setNext place (.entry node)
  let next ← m.deref next
  return m.setPrior next (.entry node)

def remove (node : Nat) : Option Memory := do
  guard (m.isfree node)
  let prior ← m.deref (m.prior node)
  let m := m.setNext prior (m.next node)
  let next ← m.deref (m.next node)
  let m := m.setPrior next (m.prior node)
  return m.setused node

/-- Returns `high` if it does not follow on `low`, and `low` with both otherwise. -/
def merge (low high : Nat) : Option (Nat × Memory) := do
  guard (m.isfree low)
  guard (m.isfree high)
  if (low + m.len low) % 2 ^ 64 ≠ high then
    return (high, m)
  guard (!m.islastfree high)
  let m := m.setLen low ((m.len low + m.len high) % 2 ^ 64)
  let m := m.setNext low (m.next high)
  let next ← m.deref (m.next high)
  let m := m.setPrior next (.entry low)
  return (low, m.erase high)

/-- The loop of `alloc`: the entry at which it ends.  Each round goes on to a later entry. -/
def firstFit (bytes : Nat) : Nat → Iterator → Option Nat
  | 0, _ => none
  | fuel + 1, it => do
    let current ← m.deref it
    if m.islastfree current ∨ bytes ≤ m.len current then
      return current
    else firstFit bytes fuel (m.next current)

/-- The loop of `alloc_high`. -/
def lastFit (bytes : Nat) : Nat → Iterator → Option Nat
  | 0, _ => none
  | fuel + 1, it => do
    let current ← m.deref it
    if m.isfirstfree current ∨ bytes ≤ m.len current then
      return current
    else lastFit bytes fuel (m.prior current)

end Memory

/-! ## The heap -/

/-- `0xFFFFFFFFFFFFFFFF`, the address of the guard at the end. -/
def top : Nat := 2 ^ 64 - 1

structure Heap where
  pool : Nat
  length : Nat
  totalFree : Nat
  memory : Memory
  high : Finset Nat

/-- The constructor. -/
def create (base length : Nat) : Option Heap := do
  guard (base ≠ 0)
  guard (base ≠ top)
  guard ((base + length) % 2 ^ 64 ≠ top)
  let m : Memory := ⟨[], fun _ => ⟨0, .singular, .singular⟩, List.Pairwise.nil⟩
  let m := ((m.index 0).index base).index top
  let m := ((m.setLen 0 0).setNext 0 (m.find base)).setPrior 0 .past
  let m := ((m.setLen base length).setPrior base m.begin).setNext base (.entry top)
  let m := ((m.setLen top 0).setPrior top (m.next 0)).setNext top .past
  return { pool := base, length := length, totalFree := length, memory := m, high := {top} }

theorem create_4096_isSome : (create 4096 64).isSome = true := by
  decide +kernel

/-- The constructor without arguments. -/
def createEmpty : Heap where
  pool := 0
  length := 0
  totalFree := 0
  memory := ⟨[], fun _ => ⟨0, .singular, .singular⟩, List.Pairwise.nil⟩
  high := ∅

/-- A heap for no range, or for one that does not wrap around. -/
inductive Constructed : Heap → Prop where
  | empty : Constructed createEmpty
  | range {base length : Nat} {h : Heap} (hcreate : create base length = some h)
    (hwrap : base + length < 2 ^ 64) : Constructed h

namespace Heap

variable (h : Heap)

def free (ptr : Nat) : Option Heap := do
  if ptr = 0 then
    return h
  let iterator ← h.memory.deref (h.memory.find ptr)
  let totalFree := (h.totalFree + h.memory.len iterator) % 2 ^ 64
  let before ← (h.memory.below iterator).find? h.memory.isfree
  let next ← h.memory.deref (h.memory.next before)
  guard (iterator < next)
  let m ← h.memory.insertafter before iterator
  let (iterator, m) ← m.merge before iterator
  let next ← m.deref (m.next iterator)
  let (_, m) ← m.merge iterator next
  return { h with totalFree := totalFree, memory := m, high := h.high.erase ptr }

/-- Splits the entry if it is longer than `bytes`, and takes its lower part. -/
def take (m : Memory) (current bytes : Nat) : Option Memory := do
  let m ←
    if bytes ≠ m.len current then
      let remaining := (current + bytes) % 2 ^ 64
      let len := m.len current - bytes
      (((m.index remaining).setLen remaining len).setLen current bytes).insertafter current remaining
    else some m
  m.remove current

/-- Splits the entry if it is longer than `bytes`, and takes its upper part. -/
def takeHigh (m : Memory) (current bytes : Nat) : Option (Nat × Memory) :=
  if bytes ≠ m.len current then
    let alloc := (current + m.len current - bytes) % 2 ^ 64
    let m := m.setLen current (m.len current - bytes)
    some (alloc, ((m.index alloc).setLen alloc bytes).setused alloc)
  else (m.remove current).map fun m => (current, m)

def alloc (bytes : Nat) : Option (Nat × Heap) := do
  if bytes > h.totalFree ∨ bytes = 0 then
    return (0, h)
  let first ← h.memory.firstfree
  let current ← h.memory.firstFit bytes h.memory.keys.length first
  if h.memory.islastfree current then
    guard (h.memory.len current = 0)
    return (0, h)
  let m ← take h.memory current bytes
  return (current, { h with totalFree := h.totalFree - bytes, memory := m })

def allocHigh (bytes : Nat) : Option (Nat × Heap) := do
  if bytes > h.totalFree ∨ bytes = 0 then
    return (0, h)
  let last ← h.memory.lastfree
  let current ← h.memory.lastFit bytes h.memory.keys.length last
  if h.memory.isfirstfree current then
    guard (h.memory.len current = 0)
    return (0, h)
  let (alloc, m) ← takeHigh h.memory current bytes
  return (alloc, { h with
    totalFree := h.totalFree - bytes, memory := m, high := insert alloc h.high })

end Heap

/-! ## The heap and its blocks -/

/-- A block that has been given out, with what it was asked for. -/
structure Block where
  ptr : Nat
  bytes : Nat
  high : Bool
  deriving DecidableEq

structure State where
  heap : Heap
  live : Finset Block

inductive Action where
  | alloc (bytes : Nat)
  | allocHigh (bytes : Nat)
  | free (ptr : Nat)

/-- The user has got a block, unless the address is null. -/
def State.got (s : State) (bytes : Nat) (high : Bool) (ptr : Nat) (heap : Heap) : State where
  heap := heap
  live := if ptr = 0 then s.live else insert ⟨ptr, bytes, high⟩ s.live

/-- Only blocks that are live are freed. -/
def Enabled (s : State) : Action → Prop
  | .free ptr => ∃ b ∈ s.live, b.ptr = ptr
  | _ => True

instance (s : State) : (a : Action) → Decidable (Enabled s a)
  | .alloc _ => inferInstanceAs (Decidable True)
  | .allocHigh _ => inferInstanceAs (Decidable True)
  | .free _ => inferInstanceAs (Decidable (∃ b ∈ s.live, _))

def step (s : State) : Action → Option State
  | .alloc bytes => (s.heap.alloc bytes).map fun (ptr, heap) => s.got bytes false ptr heap
  | .allocHigh bytes => (s.heap.allocHigh bytes).map fun (ptr, heap) => s.got bytes true ptr heap
  | .free ptr => (s.heap.free ptr).map fun heap => ⟨heap, s.live.filter (·.ptr ≠ ptr)⟩

def machine : Machine State Action where
  enabled := Enabled
  step := step

end Costream.SmallHeap
