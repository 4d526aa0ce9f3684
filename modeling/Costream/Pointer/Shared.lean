import Costream.Trace
import Mathlib.Data.Finset.Image
import Mathlib.Logic.Equiv.Basic

/-!
# Shared objects, their pointers and weak pointers

`SharedRefObject` keeps its two counts in a `RefObjectImpl` that outlives it.  The count
`reference_` is that of the `IncursivePtr`s; the call of `DecrementRef` that brings it to zero
runs the deleter, and then gives back the one unit of `weak_` that the object has.  The
other units of `weak_` are those of the `WeakPtr`s, and the call that brings it to zero frees the
`RefObjectImpl`.

Any number of parties create, copy, assign, swap and drop pointers of both kinds to one object,
and call `WeakPtr::lock`.  Each access to a count is a step of its own; so are the
deleter and what is read in the object.  Two calls of different parties at one time do not use
one pointer, unless both of them only read it.  A step that touches the object
after its deleter has run, or the `RefObjectImpl` after it was freed, has no result.

The counts have 64 bits, more than there is room for pointers, so they are integers here.
-/

namespace Costream.Pointer

open Trace

/-! ## The code -/

/-- A pointer of either kind. -/
inductive Var where
  | pointer (v : Nat)
  | weakPtr (w : Nat)
deriving DecidableEq, Repr

/-- The calls.  A constructor is an assignment to a null pointer, and the destructor is
`reset`. -/
inductive Call where
  /-- `IncursivePtr(other)`, `IncursivePtr(other.get())` and `operator=(other)`. -/
  | copy (v src : Nat)
  /-- `operator=(IncursivePtr&&)`. -/
  | move (v src : Nat)
  | swap (v src : Nat)
  | reset (v : Nat)
  /-- `WeakPtr(iptr)`, `WeakPtr(iptr.get())` and `reset(iptr.get())`. -/
  | watch (w src : Nat)
  /-- `WeakPtr(other)` and `operator=(other)`. -/
  | copyWeak (w src : Nat)
  /-- `WeakPtr(WeakPtr&&)`, `operator=(WeakPtr&&)` and `swap`. -/
  | swapWeak (w src : Nat)
  | resetWeak (w : Nat)
  /-- `lock`, which returns `dst`. -/
  | lock (w dst : Nat)
deriving DecidableEq, Repr

/-- Where a call stands. -/
inductive Place where
  /-- Before `if (ptr_)` or `if (impl_)`. -/
  | first
  /-- `SharedRefObject::DecrementRef`: before `impl = impl_`. -/
  | decrementRef
  /-- Before `--*reference_`. -/
  | decrement
  /-- Before `deleter_(this)`. -/
  | deleter
  /-- Before `--weak_`. -/
  | decrementWeak
  /-- Before `delete this` of the `RefObjectImpl`. -/
  | delete
  /-- What was there is dropped: before the other pointer is looked at. -/
  | assign
  /-- `WeakPtr::reset(T*)`: before `ptr->IsShared()`. -/
  | isShared
  /-- Before `++*reference_`. -/
  | increment
  /-- Before `++weak_`. -/
  | incrementWeak
  /-- `RefObjectImpl::Lock`: before `reference_.load`. -/
  | load
  /-- Before `compare_exchange_weak`. -/
  | compareExchange (count : Int)
deriving DecidableEq, Repr

inductive Party where
  | idle
  | inCall (c : Call) (place : Place)
deriving DecidableEq, Repr

structure State where
  /-- `reference_`. -/
  reference : Int
  /-- `weak_`. -/
  weak : Int
  /-- How often the deleter has run. -/
  deleted : Nat
  /-- How often the `RefObjectImpl` has been freed. -/
  freed : Nat
  /-- The `IncursivePtr`s that are not null. -/
  pointers : Finset Nat
  /-- The `WeakPtr`s that are not null. -/
  weakPtrs : Finset Nat
  parties : List Party

/-- The object has been made.  The count that it has then is given back by the `DecrementRef` of the
one that made it: the pointer `0`. -/
def State.initial (n : Nat) : State where
  reference := 1
  weak := 1
  deleted := 0
  freed := 0
  pointers := {0}
  weakPtrs := ∅
  parties := List.replicate n .idle

namespace Call

/-- The pointers that the call changes. -/
def writes : Call → List Var
  | copy v _ => [.pointer v]
  | move v src => [.pointer v, .pointer src]
  | swap v src => [.pointer v, .pointer src]
  | reset v => [.pointer v]
  | watch w _ => [.weakPtr w]
  | copyWeak w _ => [.weakPtr w]
  | swapWeak w src => [.weakPtr w, .weakPtr src]
  | resetWeak w => [.weakPtr w]
  | lock _ dst => [.pointer dst]

/-- The pointers that the call looks at. -/
def uses (c : Call) : List Var :=
  match c with
  | copy _ src => .pointer src :: c.writes
  | watch _ src => .pointer src :: c.writes
  | copyWeak _ src => .weakPtr src :: c.writes
  | lock w _ => .weakPtr w :: c.writes
  | _ => c.writes

/-- The two calls may run at the same time. -/
def apart (c c' : Call) : Bool :=
  c.writes.all (· ∉ c'.uses) && c'.writes.all (· ∉ c.uses)

/-- `if (this == &other) return *this`. -/
def toItself : Call → Bool
  | copy v src => v = src
  | move v src => v = src
  | copyWeak w src => w = src
  | _ => false

/-- The pointer that is dropped first. -/
def dropped : Call → Option Var
  | copy v _ => some (.pointer v)
  | move v _ => some (.pointer v)
  | reset v => some (.pointer v)
  | watch w _ => some (.weakPtr w)
  | copyWeak w _ => some (.weakPtr w)
  | resetWeak w => some (.weakPtr w)
  | _ => none

/-- Where the call goes on then. -/
def goOn (c : Call) : Party :=
  match c with
  | copy _ _ => .inCall c .assign
  | move _ _ => .inCall c .assign
  | watch _ _ => .inCall c .assign
  | copyWeak _ _ => .inCall c .assign
  | _ => .idle

end Call

namespace Place

/-- The step from here reads or changes the object. -/
def usesObject : Place → Bool
  | decrementRef => true
  | decrement => true
  | deleter => true
  | isShared => true
  | increment => true
  | _ => false

/-- The step from here reads or changes the `RefObjectImpl`. -/
def usesImpl : Place → Bool
  | decrement => true
  | decrementWeak => true
  | delete => true
  | increment => true
  | incrementWeak => true
  | load => true
  | compareExchange _ => true
  | _ => false

end Place

namespace State

variable (s : State)

def put (i : Nat) (p : Party) : State := { s with parties := s.parties.set i p }

def swapPointers (v src : Nat) : State :=
  { s with pointers := s.pointers.map (Equiv.swap v src).toEmbedding }

def swapWeakPtrs (w src : Nat) : State :=
  { s with weakPtrs := s.weakPtrs.map (Equiv.swap w src).toEmbedding }

/-- The `IncursivePtr` that is dropped becomes null. -/
def dropPointer (c : Call) : State :=
  match c.dropped with
  | some (.pointer v) => { s with pointers := s.pointers.erase v }
  | _ => s

/-- The `WeakPtr` that is dropped becomes null. -/
def dropWeakPtr (c : Call) : State :=
  match c.dropped with
  | some (.weakPtr w) => { s with weakPtrs := s.weakPtrs.erase w }
  | _ => s

/-- The first step of a call. -/
def start (i : Nat) (c : Call) : State :=
  match c.dropped with
  | some (.pointer v) => s.put i (if v ∈ s.pointers then .inCall c .decrementRef else c.goOn)
  | some (.weakPtr w) => s.put i (if w ∈ s.weakPtrs then .inCall c .decrementWeak else c.goOn)
  | none =>
    match c with
    | .swap v src => (s.swapPointers v src).put i .idle
    | .swapWeak w src => (s.swapWeakPtrs w src).put i .idle
    | .lock w _ => s.put i (if w ∈ s.weakPtrs then .inCall c .load else .idle)
    | _ => s.put i .idle

/-- The test of `count` in the loop of `RefObjectImpl::Lock`. -/
def loop (i : Nat) (c : Call) (count : Int) : State :=
  s.put i (if count = 0 then .idle else .inCall c (.compareExchange count))

/-- A step of the party `i`, in memory that is there; `fails` is a spurious failure of
`compare_exchange_weak`. -/
def advance (i : Nat) (c : Call) (fails : Bool) : Place → Option State
  | .first => some (s.start i c)
  | .decrementRef => some (s.put i (.inCall c .decrement))
  | .decrement =>
    let n := s.reference - 1
    some ({ s.dropPointer c with reference := n }.put i (if n = 0 then .inCall c .deleter else c.goOn))
  | .deleter => some ({ s with deleted := s.deleted + 1 }.put i (.inCall c .decrementWeak))
  | .decrementWeak =>
    let n := s.weak - 1
    some ({ s.dropWeakPtr c with weak := n }.put i (if n = 0 then .inCall c .delete else c.goOn))
  | .delete => some ({ s with freed := s.freed + 1 }.put i c.goOn)
  | .assign =>
    match c with
    | .copy _ src => some (s.put i (if src ∈ s.pointers then .inCall c .increment else .idle))
    | .move v src => some ((s.swapPointers v src).put i .idle)
    | .watch _ src => some (s.put i (if src ∈ s.pointers then .inCall c .isShared else .idle))
    | .copyWeak _ src =>
      some (s.put i (if src ∈ s.weakPtrs then .inCall c .incrementWeak else .idle))
    | _ => none
  | .isShared => some (s.put i (.inCall c .incrementWeak))
  | .increment =>
    match c with
    | .copy v _ =>
      some ({ s with reference := s.reference + 1, pointers := insert v s.pointers }.put i .idle)
    | .lock _ dst =>
      some ({ s with reference := s.reference + 1, pointers := insert dst s.pointers }.put i
        (.inCall c .decrementRef))
    | _ => none
  | .incrementWeak =>
    match c with
    | .watch w _ => some ({ s with weak := s.weak + 1, weakPtrs := insert w s.weakPtrs }.put i .idle)
    | .copyWeak w _ =>
      some ({ s with weak := s.weak + 1, weakPtrs := insert w s.weakPtrs }.put i .idle)
    | _ => none
  | .load => some (s.loop i c s.reference)
  | .compareExchange count =>
    if s.reference = count ∧ fails = false then
      some ({ s with reference := count + 1 }.put i (.inCall c .increment))
    else
      some (s.loop i c s.reference)

/-- The call may begin: no other call is in the way, and `lock` returns to a place where there is no
pointer. -/
def mayBegin (c : Call) : Bool :=
  (s.parties.all fun p => match p with
    | .idle => true
    | .inCall c' _ => c.apart c') &&
  match c with
  | .lock _ dst => dst ∉ s.pointers
  | _ => true

end State

inductive Action where
  | call (i : Nat) (c : Call)
  | step (i : Nat) (fails : Bool)
deriving DecidableEq, Repr

namespace State

variable (s : State)

def next : Action → Option State
  | .call i c => some (s.put i (if c.toItself then .idle else .inCall c .first))
  | .step i fails =>
    match s.parties[i]? with
    | some (.inCall c place) =>
      if (place.usesObject ∧ s.deleted ≠ 0) ∨ (place.usesImpl ∧ s.freed ≠ 0) then none
      else s.advance i c fails place
    | _ => none

def enabled : Action → Bool
  | .call i c => s.parties[i]? = some .idle && s.mayBegin c
  | .step i _ => s.parties[i]?.any (· ≠ .idle)

end State

def machine : Machine State Action where
  enabled s a := s.enabled a = true
  step := State.next

instance (s : State) (a : Action) : Decidable (machine.enabled s a) :=
  inferInstanceAs (Decidable (s.enabled a = true))

end Costream.Pointer
