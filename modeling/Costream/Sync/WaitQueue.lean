import Mathlib.Algebra.GroupWithZero.Nat
import Mathlib.Data.List.Basic
import Mathlib.Data.List.Nodup
import Mathlib.Data.List.TakeWhile

/-!
# The queue of those who wait

`WaitQueue` is a singly linked list with two pointers into it.  `check_` goes round
the list and evicts what `checkFunctor_` finds invalid, two nodes at each push from
some length on.  `pos_` is set on the node whose push makes the count equal to
`posDistance_`, and moves on at each pop until `posFunctor_` accepts a node.

A node is the number of its entry, and `nodes` are those linked from `head_`.  `tail_` is
the last of them.  The count is a `size_t`, and an eviction does not change it.
-/

namespace Costream.Sync

/-- `check_`, which can be at the dummy node before the first one. -/
inductive Cursor where
  | null
  | dummy
  | node (i : Nat)
  deriving DecidableEq

def Cursor.of : Option Nat → Cursor
  | none => .null
  | some i => .node i

structure WaitQueue where
  nodes : List Nat
  check : Cursor
  pos : Option Nat
  count : Nat
  posDistance : Nat
  deriving DecidableEq

namespace WaitQueue

def create (posDistance : Nat) : WaitQueue where
  nodes := []
  check := .dummy
  pos := none
  count := 0
  posDistance := posDistance

/-- `next` of a node. -/
def next (nodes : List Nat) (i : Nat) : Option Nat :=
  (nodes.dropWhile (· ≠ i)).tail.head?

/-- `check_->next`, if there is one. -/
def checkNext (q : WaitQueue) : Option Nat :=
  match q.check with
  | .null => none
  | .dummy => q.nodes.head?
  | .node i => next q.nodes i

/-! ## What `push` does -/

def link (q : WaitQueue) (ptr : Nat) : WaitQueue :=
  { q with
    nodes := q.nodes ++ [ptr]
    count := (q.count + 1) % 2 ^ 64
    pos := if (q.count + 1) % 2 ^ 64 = q.posDistance then some ptr else q.pos }

/-- The count from which on `push` cleans up. -/
def threshold (q : WaitQueue) : Nat :=
  max q.posDistance ((q.posDistance + 16) % 2 ^ 64)

/-- `check_` starts again at `pos_` when it has come to the end. -/
def startCheck (q : WaitQueue) : WaitQueue :=
  match q.checkNext with
  | some _ => q
  | none => { q with check := .of q.pos }

/-- `check_->next` is the node `i`, and is evicted. -/
def unlink (q : WaitQueue) (i : Nat) : WaitQueue :=
  { q with
    pos := if q.pos = some i then next q.nodes i else q.pos
    nodes := q.nodes.erase i }

/-- `check_->next` is the node `i`, and stays. -/
def advance (q : WaitQueue) (i : Nat) : WaitQueue :=
  { q with check := .node i }

/-! ## What `pop` does -/

/-- Takes out `ptr`, the first node. -/
def popHead (q : WaitQueue) (ptr : Nat) : WaitQueue :=
  { q with
    nodes := q.nodes.tail
    check := if q.check = .node ptr then .of q.nodes.tail.head? else q.check }

/-- `pos_ = pos_->next`. -/
def passed (q : WaitQueue) : WaitQueue :=
  { q with pos := q.pos.bind (next q.nodes) }

/-- `--count_`. -/
def uncount (q : WaitQueue) : WaitQueue :=
  { q with count := if q.count = 0 then 2 ^ 64 - 1 else q.count - 1 }

/-! ## Facts -/

variable {q : WaitQueue} {nodes front back : List Nat} {i j : Nat}

theorem dropWhile_append (h : i ∉ front) : (front ++ i :: back).dropWhile (· ≠ i) = i :: back := by
  induction front with
  | nil => simp
  | cons x front ih =>
    have hne : x ≠ i := fun hx => h (by simp [hx])
    have hi : i ∉ front := fun hi => h (by simp [hi])
    simpa [List.dropWhile_cons, hne] using ih hi

theorem dropWhile_eq_nil (h : i ∉ nodes) : nodes.dropWhile (· ≠ i) = [] := by
  rw [List.dropWhile_eq_nil_iff]
  intro x hx
  have hne : x ≠ i := fun he => h (he ▸ hx)
  simpa using hne

theorem next_append (h : i ∉ front) : next (front ++ i :: back) i = back.head? := by
  unfold next
  rw [dropWhile_append h]
  rfl

theorem next_eq_none (h : i ∉ nodes) : next nodes i = none := by
  unfold next
  rw [dropWhile_eq_nil h]
  rfl

theorem mem_of_next (h : next nodes i = some j) : j ∈ nodes := by
  unfold next at h
  have hmem : j ∈ (nodes.dropWhile (· ≠ i)).tail := List.mem_of_head? h
  exact (List.dropWhile_suffix _).subset (List.mem_of_mem_tail hmem)

theorem mem_of_checkNext (h : q.checkNext = some i) : i ∈ q.nodes := by
  unfold checkNext at h
  split at h
  · cases h
  · exact List.mem_of_head? h
  · exact mem_of_next h

@[simp] theorem create_nodes (posDistance : Nat) : (create posDistance).nodes = [] := rfl

@[simp] theorem create_pos (posDistance : Nat) : (create posDistance).pos = none := rfl

@[simp] theorem link_nodes (ptr : Nat) : (q.link ptr).nodes = q.nodes ++ [ptr] := rfl

@[simp] theorem startCheck_nodes : q.startCheck.nodes = q.nodes := by
  unfold startCheck
  split <;> rfl

@[simp] theorem startCheck_pos : q.startCheck.pos = q.pos := by
  unfold startCheck
  split <;> rfl

@[simp] theorem unlink_nodes : (q.unlink i).nodes = q.nodes.erase i := rfl

@[simp] theorem advance_nodes : (q.advance i).nodes = q.nodes := rfl

@[simp] theorem advance_pos : (q.advance i).pos = q.pos := rfl

@[simp] theorem popHead_nodes (ptr : Nat) : (q.popHead ptr).nodes = q.nodes.tail := rfl

@[simp] theorem popHead_pos (ptr : Nat) : (q.popHead ptr).pos = q.pos := rfl

@[simp] theorem passed_nodes : q.passed.nodes = q.nodes := rfl

@[simp] theorem uncount_nodes : q.uncount.nodes = q.nodes := rfl

@[simp] theorem uncount_pos : q.uncount.pos = q.pos := rfl

end WaitQueue

end Costream.Sync
