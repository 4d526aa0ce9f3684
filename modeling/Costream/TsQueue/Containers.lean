import Mathlib.Data.Option.Basic
import Costream.Linked

/-!
# `TSQueue` and `SList`

The two intrusive containers of `TsQueue.h` as the code has them: a hook has a
link forward, a link back and a tag; a `TSQueue` has a sentinel in front of its elements, and an
`SList` has none.

There are any number of containers of both kinds.  A function that goes through a null pointer,
or fails an assertion, has no result.  What a function returns by value is assigned to a list
of the caller.

`LIBGO_DEBUG` is not defined, the locks have no part in a sequential run, and the reference
counts are the elements' own: a container touches them once an element has left it.
-/

namespace Costream.TsQueue

variable {T : Type}

/-- A `TSQueueHook`: the one that a `TSQueue` has allocated, or that of an element. -/
inductive Hook (T : Type) where
  | sentinel (q : Nat)
  | element (x : T)
deriving DecidableEq, Repr

structure TSQueue (T : Type) where
  head : Hook T
  tail : Hook T
  count : Nat

structure SList (T : Type) where
  head : Option (Hook T)
  tail : Option (Hook T)
  count : Nat

/-- `SList::iterator`. -/
structure Iterator (T : Type) where
  ptr : Option (Hook T)
  prev : Option (Hook T)
  next : Option (Hook T)

/-- `check_` is the tag, the address of a `TSQueue` or null. -/
structure State (T : Type) where
  next : Hook T → Option (Hook T)
  prev : Hook T → Option (Hook T)
  check : Hook T → Option Nat
  queues : Nat → TSQueue T
  lists : Nat → SList T

/-- `SList()`. -/
def SList.empty : SList T := ⟨none, none, 0⟩

/-- The constructors have run. -/
def State.initial : State T where
  next _ := none
  prev _ := none
  check _ := none
  queues q := ⟨.sentinel q, .sentinel q, 0⟩
  lists _ := .empty

namespace State

variable (s : State T)

/-! ## Hooks -/

def setQueue (q : Nat) (queue : TSQueue T) : State T :=
  { s with queues := Function.update s.queues q queue }

def setList (i : Nat) (list : SList T) : State T :=
  { s with lists := Function.update s.lists i list }

section Fields

variable (q i : Nat) (queue : TSQueue T) (list : SList T)

@[simp] theorem setQueue_next : (s.setQueue q queue).next = s.next := rfl
@[simp] theorem setQueue_prev : (s.setQueue q queue).prev = s.prev := rfl
@[simp] theorem setList_next : (s.setList i list).next = s.next := rfl
@[simp] theorem setList_prev : (s.setList i list).prev = s.prev := rfl
@[simp] theorem setList_self : s.setList i (s.lists i) = s := by
  unfold setList
  rw [Function.update_eq_self]
@[simp] theorem setList_lists : (s.setList i list).lists = Function.update s.lists i list := rfl

end Fields

variable [DecidableEq T]

def setNext (h : Hook T) (n : Option (Hook T)) : State T :=
  { s with next := Function.update s.next h n }

def setPrev (h : Hook T) (p : Option (Hook T)) : State T :=
  { s with prev := Function.update s.prev h p }

/-- `if (h) h->prev = p`. -/
def setPrevIf (h p : Option (Hook T)) : State T :=
  { s with prev := write s.prev h p }

def setCheck (h : Hook T) (c : Option Nat) : State T :=
  { s with check := Function.update s.check h c }

section Fields

variable (h : Hook T) (v : Option (Hook T)) (o : Option (Hook T))

@[simp] theorem setNext_next : (s.setNext h v).next = Function.update s.next h v := rfl
@[simp] theorem setNext_prev : (s.setNext h v).prev = s.prev := rfl
@[simp] theorem setNext_lists : (s.setNext h v).lists = s.lists := rfl
@[simp] theorem setPrev_next : (s.setPrev h v).next = s.next := rfl
@[simp] theorem setPrev_prev : (s.setPrev h v).prev = Function.update s.prev h v := rfl
@[simp] theorem setPrev_lists : (s.setPrev h v).lists = s.lists := rfl
@[simp] theorem setPrevIf_next : (s.setPrevIf o v).next = s.next := rfl
@[simp] theorem setPrevIf_prev : (s.setPrevIf o v).prev = write s.prev o v := rfl

end Fields

/-- `link`. -/
def link (h theNext : Hook T) : Option (State T) := do
  guard (s.next h = none)
  guard (s.prev theNext = none)
  return (s.setNext h (some theNext)).setPrev theNext (some h)

/-- `unlink`; the link forward is known to be `theNext`. -/
def unlink (h : Hook T) : Option (State T) := do
  let theNext ← s.next h
  guard (s.prev theNext = some h)
  return (s.setNext h none).setPrev theNext none

/-- The loop that goes `n` links forward. -/
def walk (h : Hook T) : Nat → Option (Hook T)
  | 0 => some h
  | n + 1 => do
    let next ← s.next h
    walk next n

/-! ## `SList` -/

/-- `iterator(p)`. -/
def iterator (p : Option (Hook T)) : Iterator T := ⟨p, p.bind s.prev, p.bind s.next⟩

/-- `SList::erase(T*)`. -/
def eraseElement (i : Nat) (ptr : Hook T) : Option (State T) := do
  let s ← match s.prev ptr with
    | some p => some (s.setNext p (s.next ptr))
    | none => do
      let head ← (s.lists i).head
      some (s.setList i { s.lists i with head := s.next head })
  let s ← match s.next ptr with
    | some n => some (s.setPrev n (s.prev ptr))
    | none => do
      let tail ← (s.lists i).tail
      some (s.setList i { s.lists i with tail := s.prev tail })
  let s := (s.setNext ptr none).setPrev ptr none
  return s.setList i { s.lists i with count := (s.lists i).count - 1 }

/-- `SList::erase(iterator)`. -/
def eraseIterator (i : Nat) (it : Iterator T) : Option (State T × Iterator T) := do
  let ptr ← it.ptr
  let it := s.iterator it.next
  let s ← s.eraseElement i ptr
  return (s, it)

/-- The loop that goes through a list and erases the elements that are not kept: the hooks that
it has visited, and the state at its end.  `fuel` bounds the number of iterations. -/
def traverse (i : Nat) (keep : Hook T → Bool) (fuel : Nat) (s : State T) (it : Iterator T) :
    Option (State T × List (Hook T)) :=
  match it.ptr, fuel with
  | none, _ => some (s, [])
  | some _, 0 => none
  | some ptr, fuel + 1 => do
    let (s, it) ← if keep ptr then some (s, s.iterator it.next) else s.eraseIterator i it
    let (s, visited) ← traverse i keep fuel s it
    return (s, ptr :: visited)

/-- `SList::clear`. -/
def clear (i : Nat) : Option (State T) := do
  let (s, _) ← traverse i (fun _ => false) (s.lists i).count s (s.iterator (s.lists i).head)
  return s.setList i .empty

/-- `operator=(SList&&)` from a value that a function has returned. -/
def assign (i : Nat) (list : SList T) : Option (State T) := do
  let s ← s.clear i
  return s.setList i list

/-- `operator=(SList&&)` from the list `j`. -/
def move (j i : Nat) : Option (State T) := do
  let s ← s.clear i
  return (s.setList i (s.lists j)).setList j .empty

/-- `SList::append`. -/
def append (i j : Nat) : Option (State T) := do
  if (s.lists j).head = none then
    return s
  if (s.lists i).head = none then
    s.move j i
  else
    let tail ← (s.lists i).tail
    let head ← (s.lists j).head
    let s ← s.link tail head
    let s := s.setList i
      { s.lists i with tail := (s.lists j).tail, count := (s.lists i).count + (s.lists j).count }
    return s.setList j .empty

/-- `SList::cut`. -/
def cut (i n : Nat) : Option (State T × SList T) := do
  let list := s.lists i
  if list.head = none then
    return (s, .empty)
  if list.count ≤ n then
    return (s.setList i .empty, list)
  if n = 0 then
    return (s, .empty)
  let head ← list.head
  let pos ← s.walk head (n - 1)
  let s := s.setList i { list with head := s.next pos, count := list.count - n }
  let s ← s.unlink pos
  return (s, ⟨some head, some pos, n⟩)

/-! ## `TSQueue` -/

/-- `front`: the first element, which gets the tag of the queue. -/
def front (q : Nat) : State T × Option (Hook T) :=
  match s.next (s.queues q).head with
  | some out => (s.setCheck out (some q), some out)
  | none => (s, none)

/-- `next`: the element behind `ptr`, which gets the tag of the queue. -/
def nextOf (q : Nat) (ptr : Hook T) : State T × Option (Hook T) :=
  match s.next ptr with
  | some out => (s.setCheck out (some q), some out)
  | none => (s, none)

/-- `pop`. -/
def pop (q : Nat) : Option (State T × Option (Hook T)) := do
  let queue := s.queues q
  if queue.head = queue.tail then
    return (s, none)
  let ptr ← s.next queue.head
  let s := s.setQueue q
    { queue with tail := if ptr = queue.tail then queue.head else queue.tail, count := queue.count - 1 }
  let next := s.next ptr
  let s := (s.setNext queue.head next).setPrevIf next (some queue.head)
  let s := (s.setNext ptr none).setPrev ptr none
  return (s.setCheck ptr none, some ptr)

/-- `push(T*)`, which returns the number of elements. -/
def push (q : Nat) (hook : Hook T) : Option (State T × Nat) := do
  guard (s.next hook = none)
  guard (s.prev hook = none)
  let queue := s.queues q
  let s ← s.link queue.tail hook
  let s := (s.setNext hook none).setCheck hook (some q)
  return (s.setQueue q { queue with tail := hook, count := queue.count + 1 }, queue.count + 1)

/-- `push(SList&&)`. -/
def pushList (q i : Nat) : Option (State T) := do
  let elements := s.lists i
  if elements.head = none then
    return s
  let head ← elements.head
  let tail ← elements.tail
  guard (s.prev head = none)
  guard (s.next tail = none)
  let queue := s.queues q
  let s ← s.link queue.tail head
  let s := s.setQueue q { queue with tail := tail, count := queue.count + elements.count }
  return s.setList i .empty

/-- The loop of `pop_front`, which makes `n` steps at most: the last hook, and `c`. -/
def walkFront (last : Hook T) (c : Nat) : Nat → Hook T × Nat
  | 0 => (last, c)
  | n + 1 =>
    match s.next last with
    | none => (last, c)
    | some next => walkFront next (c + 1) n

/-- `pop_front`. -/
def popFront (q n : Nat) : Option (State T × SList T) := do
  let queue := s.queues q
  if queue.head = queue.tail then
    return (s, .empty)
  let first ← s.next queue.head
  let (last, c) := s.walkFront first 1 (n - 1)
  let s := s.setQueue q
    { queue with tail := if last = queue.tail then queue.head else queue.tail, count := queue.count - c }
  let next := s.next last
  let s := (s.setNext queue.head next).setPrevIf next (some queue.head)
  let s := (s.setNext last none).setPrev first none
  return (s, ⟨some first, some last, c⟩)

/-- The loop of `pop_back`, which makes `n` steps at most: the first hook, and `c`. -/
def walkBack (head first : Hook T) (c : Nat) : Nat → Option (Hook T × Nat)
  | 0 => some (first, c)
  | n + 1 =>
    if s.prev first = some head then
      some (first, c)
    else do
      let prev ← s.prev first
      walkBack head prev (c + 1) n

/-- `pop_back`. -/
def popBack (q n : Nat) : Option (State T × SList T) := do
  let queue := s.queues q
  if queue.head = queue.tail then
    return (s, .empty)
  let last := queue.tail
  let (first, c) ← s.walkBack queue.head last 1 (n - 1)
  let tail ← s.prev first
  let s := s.setQueue q { queue with tail := tail, count := queue.count - c }
  let s := (s.setNext tail none).setPrev first none
  return (s, ⟨some first, some last, c⟩)

/-- `pop_all`. -/
def popAll (q : Nat) : Option (State T × SList T) := do
  let queue := s.queues q
  if queue.head = queue.tail then
    return (s, .empty)
  let first ← s.next queue.head
  let last := queue.tail
  let s := s.setQueue q { queue with tail := queue.head, count := 0 }
  let s := ((s.setNext queue.head none).setNext last none).setPrev first none
  return (s, ⟨some first, some last, queue.count⟩)

/-- `erase`. -/
def erase (q : Nat) (hook : Hook T) (check : Bool) : Option (State T × Bool) := do
  let queue := s.queues q
  if check = true ∧ s.check hook ≠ some q then
    return (s, false)
  let prev ← s.prev hook
  guard (hook = queue.tail ∨ s.next hook ≠ none)
  let s := (s.setNext prev (s.next hook)).setPrevIf (s.next hook) (some prev)
  let tail ← if s.next hook = none ∧ hook = queue.tail then s.prev queue.tail else some queue.tail
  let s := ((s.setNext hook none).setPrev hook none).setCheck hook none
  guard (0 < queue.count)
  return (s.setQueue q { queue with tail := tail, count := queue.count - 1 }, true)

end State

/-! ## Calls -/

variable [DecidableEq T]

/-- A call, with the list of the caller that what it returns is assigned to. -/
inductive Op (T : Type) where
  | push (q : Nat) (x : T)
  | pushList (q i : Nat)
  | pop (q : Nat)
  | popFront (q n i : Nat)
  | popBack (q n i : Nat)
  | popAll (q i : Nat)
  | erase (q : Nat) (x : T) (check : Bool)
  | front (q : Nat)
  | next (q : Nat) (x : T)
  | append (i j : Nat)
  | cut (i n j : Nat)
  | move (j i : Nat)
  | clear (i : Nat)
  | eraseIterator (i : Nat) (x : T)
  | traverse (i : Nat) (keep : Hook T → Bool)

inductive Result (T : Type) where
  | done
  | size (n : Nat)
  | pointer (h : Option (Hook T))
  | flag (b : Bool)
  | visited (hooks : List (Hook T))

def State.apply (s : State T) : Op T → Option (State T × Result T)
  | .push q x => do
    let (s, n) ← s.push q (.element x)
    return (s, .size n)
  | .pushList q i => do
    let s ← s.pushList q i
    return (s, .done)
  | .pop q => do
    let (s, h) ← s.pop q
    return (s, .pointer h)
  | .popFront q n i => do
    let (s, list) ← s.popFront q n
    let s ← s.assign i list
    return (s, .done)
  | .popBack q n i => do
    let (s, list) ← s.popBack q n
    let s ← s.assign i list
    return (s, .done)
  | .popAll q i => do
    let (s, list) ← s.popAll q
    let s ← s.assign i list
    return (s, .done)
  | .erase q x check => do
    let (s, b) ← s.erase q (.element x) check
    return (s, .flag b)
  | .front q => some ((s.front q).1, .pointer (s.front q).2)
  | .next q x => some ((s.nextOf q (.element x)).1, .pointer (s.nextOf q (.element x)).2)
  | .append i j => do
    let s ← s.append i j
    return (s, .done)
  | .cut i n j => do
    let (s, list) ← s.cut i n
    let s ← s.assign j list
    return (s, .done)
  | .move j i => do
    let s ← s.move j i
    return (s, .done)
  | .clear i => do
    let s ← s.clear i
    return (s, .done)
  | .eraseIterator i x => do
    let (s, it) ← s.eraseIterator i (s.iterator (some (.element x)))
    return (s, .pointer it.ptr)
  | .traverse i keep => do
    let list := s.lists i
    let (s, visited) ← State.traverse i keep list.count s (s.iterator list.head)
    return (s, .visited visited)

/-- The calls one after another, with what they return. -/
def State.exec (s : State T) : List (Op T) → Option (State T × List (Result T))
  | [] => some (s, [])
  | op :: ops => do
    let (s, result) ← s.apply op
    let (s, results) ← s.exec ops
    return (s, result :: results)

end Costream.TsQueue
