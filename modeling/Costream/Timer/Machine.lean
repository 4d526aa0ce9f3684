import Costream.Timer.Sweep
import Costream.Trace

/-!
# `Timer<F>` as a machine

The state holds the elements with their reference counts, the queues they are
linked in, the `TimerId`s of the clients and the place where `RunOnce` stands.
A client may call `StartTimer`, `StopTimer`, `SetPoolSize` and copy or drop a
`TimerId` whenever `RunOnce` is not running, and from within a callback.

* `State.decrementRef`, `State.deleteElement`, `State.newElement` are the life
  of an element.
* `State.dispatch`, `State.call`, `State.cancel` are what happens to a timer.
* `State.loopStep` is one step of `RunOnce`.
* `machine` puts them together.

An access to an element that has been deleted, or the removal of an element
from a queue it is not linked in, is a fault.
-/

namespace Costream.Timer

open Trace

/-- The address of an element.  A deleted element's address is not used
again. -/
abbrev Ptr := Nat

/-- The lists an element can be linked in: `slots_[level][offset]`,
`completeSlot_`, `pool_`, and in `RunOnce` the list that `Trigger` or
`Dispatch` goes through and `dispatchers`. -/
inductive QueueRef where
  | slot (r : SlotRef)
  | complete
  | pool
  | slist
  | dispatchers
  deriving DecidableEq, Repr

/-- `Timer::Element`.  `active` says that the lock `active_` is held.
`serial` is not in the source: it names the `StartTimer` that the element
serves. -/
structure Element (F : Type*) where
  cb : F
  active : Bool
  tp : Int
  slot : Option SlotRef
  reference : Int
  serial : Nat

/-- `Timer::TimerId` with an element in it, and the serial of its timer. -/
structure TimerId where
  elem : Ptr
  serial : Nat
  deriving DecidableEq, Repr

/-- What an observer sees: a callback is invoked, or `StopTimer` returns. -/
inductive Event (F : Type*) where
  | fired (serial : Nat) (cb : F) (tp clock : Int)
  | stopped (serial : Nat) (ret : Bool)
  deriving DecidableEq

/-- The local variables `now`, `last` and `delta` of `RunOnce`. -/
structure Frame where
  now : Int
  last : Nat
  delta : Nat

/-- `destPoint` of `RunOnce`. -/
def Frame.dest (f : Frame) : Nat := f.last + f.delta

/-- Where `RunOnce` stands: in `Trigger(completeSlot_)`, in the loop, or in
`Dispatch(dispatchers, now)`.  In the loop, the slots `turned` are left of the
iteration, and the positions before `swept` have been visited. -/
inductive Phase where
  | complete
  | sweep (f : Frame) (swept : Nat) (turned : List SlotRef) (s : Sweep)
  | final (f : Frame)

/-- What `RunOnce` does with the element it has in hand: it runs the callback,
or `call()` has returned. -/
inductive Call where
  | running (p : Ptr)
  | called (p : Ptr)
  deriving DecidableEq

/-- The control of `RunOnce`. -/
structure Loop where
  phase : Phase
  call : Option Call

/-- The state of a timer with its clients. -/
structure State (F : Type*) where
  point : Nat
  queue : QueueRef → List Ptr
  maxPoolSize : Int
  heap : Ptr → Option (Element F)
  brk : Ptr
  ids : List TimerId
  started : Nat
  clock : Int
  log : List (Event F)
  loop : Option Loop

namespace State

variable {F : Type*}

/-! ## Elements and queues -/

/-- `*p = e`. -/
def set (s : State F) (p : Ptr) (e : Element F) : State F :=
  { s with heap := Function.update s.heap p (some e) }

/-- `delete p`. -/
def free (s : State F) (p : Ptr) : State F :=
  { s with heap := Function.update s.heap p none }

def setQueue (s : State F) (q : QueueRef) (l : List Ptr) : State F :=
  { s with queue := Function.update s.queue q l }

/-- `RefObject::IncrementRef`. -/
def incrementRef (s : State F) (p : Ptr) : Option (State F) := do
  let e ← s.heap p
  return s.set p { e with reference := e.reference + 1 }

/-- `TSQueue::push(T*)`. -/
def push (s : State F) (q : QueueRef) (p : Ptr) : Option (State F) :=
  (s.setQueue q (s.queue q ++ [p])).incrementRef p

variable [Inhabited F]

/-- `Timer::DeleteElement`. -/
def deleteElement (s : State F) (p : Ptr) : Option (State F) :=
  if ((s.queue .pool).length : Int) < s.maxPoolSize then do
    let s ← s.incrementRef p
    let e ← s.heap p
    (s.set p { e with cb := default }).push .pool p
  else
    some (s.free p)

/-- `RefObject::DecrementRef`, with `StaticDeleteElement` as the deleter. -/
def decrementRef (s : State F) (p : Ptr) : Option (State F) := do
  let e ← s.heap p
  let s := s.set p { e with reference := e.reference - 1 }
  if e.reference - 1 = 0 then s.deleteElement p else some s

/-- `TSQueue::erase(T*)` and `SList::erase(T*)`. -/
def erase (s : State F) (q : QueueRef) (p : Ptr) : Option (State F) :=
  if p ∈ s.queue q then
    (s.setQueue q ((s.queue q).erase p)).decrementRef p
  else none

/-- `new Element` with its deleter. -/
def allocate (s : State F) : State F :=
  { s with
    heap := Function.update s.heap s.brk (some ⟨default, false, 0, none, 1, 0⟩)
    brk := s.brk + 1 }

/-- `Timer::NewElement`: the first element of the pool, or a new one. -/
def newElement (s : State F) : Option (State F × Ptr) :=
  match s.queue .pool with
  | p :: _ => do
    let s ← s.erase .pool p
    return (s, p)
  | [] => some (s.allocate, s.brk)

/-- The loop of `SetPoolSize` that fills `reservePool`. -/
def fillPool (s : State F) : Nat → Option (State F)
  | 0 => some s
  | n + 1 => do
    let s' ← s.allocate.push .pool s.brk
    s'.fillPool n

/-- `Timer::SetPoolSize`. -/
def setPoolSize (s : State F) (max reserve : Int) : Option (State F) :=
  { s with maxPoolSize := max }.fillPool
    (reserve - (s.queue .pool).length).toNat

/-! ## Timers -/

/-- `Element::init`. -/
def init (s : State F) (p : Ptr) (cb : F) (tp : Int) : Option (State F) := do
  let e ← s.heap p
  return s.set p
    { e with cb := cb, tp := tp, active := false, slot := none, serial := s.started }

/-- `Timer::Dispatch(Element*, bool)`.  Without other threads the tick is the
same when it is loaded again under the lock of the slot. -/
def dispatch (cfg : Config) (s : State F) (p : Ptr) (mainloop : Bool) :
    Option (State F) := do
  let e ← s.heap p
  if !mainloop && e.tp ≤ cfg.lastTime s.point then
    s.push .complete p
  else
    let r := place cfg s.point e.tp
    let s ← s.push (.slot r) p
    let e ← s.heap p
    return s.set p { e with slot := some r }

/-- `Timer::StartTimer`. -/
def startTimer (cfg : Config) (s : State F) (tp : Int) (cb : F) :
    Option (State F) := do
  let (s, p) ← s.newElement
  let s ← s.init p cb tp
  let s ← s.incrementRef p
  let s := { s with ids := ⟨p, s.started⟩ :: s.ids, started := s.started + 1 }
  s.dispatch cfg p false

/-- `Element::cancel`. -/
def cancel (s : State F) (p : Ptr) : Option (State F × Bool) := do
  let e ← s.heap p
  if e.active then return (s, false)
  let s := s.set p { e with active := true }
  let s ← match e.slot with
    | some r => s.erase (.slot r) p
    | none => some s
  let s ← s.decrementRef p
  return (s, true)

/-- `TimerId::StopTimer`. -/
def stopTimer (s : State F) (id : TimerId) : Option (State F) := do
  let (s, ret) ← s.cancel id.elem
  let s ← s.decrementRef id.elem
  return { s with ids := s.ids.erase id, log := .stopped id.serial ret :: s.log }

/-- The copy constructor of `TimerId`. -/
def copyId (s : State F) (id : TimerId) : Option (State F) := do
  let s ← s.incrementRef id.elem
  return { s with ids := id :: s.ids }

/-- The destructor of `TimerId`. -/
def dropId (s : State F) (id : TimerId) : Option (State F) := do
  let s ← s.decrementRef id.elem
  return { s with ids := s.ids.erase id }

/-! ## `RunOnce` -/

def withLoop (s : State F) (phase : Phase) (call : Option Call) : State F :=
  { s with loop := some ⟨phase, call⟩ }

/-- `SList<Element> slist = slot.pop_all()` in `Trigger` and `Dispatch`. -/
def popAll (s : State F) (q : QueueRef) : State F :=
  (s.setQueue q []).setQueue .slist (s.queue q)

/-- `dispatchers.push(slots_[lv][slotIdx].pop_all())`. -/
def collect (s : State F) (r : SlotRef) : State F :=
  (s.setQueue (.slot r) []).setQueue .dispatchers
    (s.queue .dispatchers ++ s.queue (.slot r))

/-- `Element::call` up to the callback.  Where the lock is held, it returns at
once. -/
def call (s : State F) (phase : Phase) (p : Ptr) : Option (State F) := do
  let e ← s.heap p
  if e.active then
    return s.withLoop phase (some (.called p))
  else
    let s := s.set p { e with active := true, slot := none }
    return { s with log := .fired e.serial e.cb e.tp s.clock :: s.log }.withLoop phase
      (some (.running p))

/-- The end of `Element::call`: the guard of `active_` unlocks it. -/
def returnCall (s : State F) (phase : Phase) (p : Ptr) : Option (State F) := do
  let e ← s.heap p
  return (s.set p { e with active := false }).withLoop phase (some (.called p))

/-- The body of the loops of `Trigger` and `Dispatch`. -/
def handle (cfg : Config) (s : State F) (phase : Phase) (p : Ptr) :
    Option (State F) := do
  let s ← s.erase .slist p
  match phase with
  | .final f => do
    let e ← s.heap p
    if e.tp ≤ f.now then s.call phase p else s.dispatch cfg p true
  | _ => s.call phase p

/-- `RunOnce` between two lists. -/
def advance (cfg : Config) (s : State F) : Phase → State F
  | .complete =>
    let now := s.clock
    let destVal := cfg.destVal now
    if destVal ≤ s.point then { s with loop := none }
    else
      let f : Frame := ⟨now, s.point, destVal - s.point⟩
      { s with point := destVal }.withLoop (.sweep f f.last [] .init) none
  | .sweep f swept (r :: rest) σ =>
    (s.collect r).withLoop (.sweep f swept rest σ) none
  | .sweep f _ [] σ =>
    if σ.i < f.delta then
      (s.popAll (.slot (σ.triggered f.last))).withLoop
        (.sweep f (σ.pos f.last + 1) (σ.turned f.last) (σ.next f.last)) none
    else
      (s.popAll .dispatchers).withLoop (.final f) none
  | .final _ => { s with loop := none }

/-- One step of `RunOnce`. -/
def loopStep (cfg : Config) (s : State F) (l : Loop) : Option (State F) :=
  match l.call with
  | some (.running p) => s.returnCall l.phase p
  | some (.called p) => do
    let s ← s.decrementRef p
    return s.withLoop l.phase none
  | none =>
    match s.queue .slist with
    | p :: _ => s.handle cfg l.phase p
    | [] => some (s.advance cfg l.phase)

/-- The call of `RunOnce`. -/
def runOnce (s : State F) : State F :=
  (s.popAll .complete).withLoop .complete none

/-- The clients have the turn: `RunOnce` is not running, or a callback runs. -/
def clientTurn (s : State F) : Bool :=
  match s.loop with
  | none => true
  | some ⟨_, some (.running _)⟩ => true
  | some _ => false

/-- A timer just constructed. -/
def initial (cfg : Config) : State F where
  point := 0
  queue _ := []
  maxPoolSize := 0
  heap _ := none
  brk := 0
  ids := []
  started := 0
  clock := cfg.begin_
  log := []
  loop := none

end State

/-! ## The machine -/

/-- What can happen next. -/
inductive Act (F : Type*) where
  | startTimer (tp : Int) (cb : F)
  | stopTimer (id : TimerId)
  | copyId (id : TimerId)
  | dropId (id : TimerId)
  | setPoolSize (max reserve : Int)
  | runOnce
  | loop
  | tick (d : Nat)

section Machine

variable {F : Type*} [Inhabited F]

/-- Time points and the clock are 64-bit counts of nanoseconds. -/
def Enabled (s : State F) : Act F → Prop
  | .startTimer tp _ => s.clientTurn ∧ tp < 2 ^ 63
  | .stopTimer id | .copyId id | .dropId id => s.clientTurn ∧ id ∈ s.ids
  | .setPoolSize _ _ => s.clientTurn
  | .runOnce => s.loop.isNone
  | .loop => s.loop.isSome
  | .tick d => s.clock + d < 2 ^ 63

/-- The timer of clock `cfg`. -/
def machine (cfg : Config) : Machine (State F) (Act F) where
  enabled := Enabled
  step s
    | .startTimer tp cb => s.startTimer cfg tp cb
    | .stopTimer id => s.stopTimer id
    | .copyId id => s.copyId id
    | .dropId id => s.dropId id
    | .setPoolSize max reserve => s.setPoolSize max reserve
    | .runOnce => some s.runOnce
    | .loop => s.loop.bind (s.loopStep cfg)
    | .tick d => some { s with clock := s.clock + d }

instance (cfg : Config) (s : State F) (a : Act F) :
    Decidable ((machine cfg).enabled s a) :=
  match a with
  | .startTimer _ _ => inferInstanceAs (Decidable (_ ∧ _))
  | .stopTimer _ => inferInstanceAs (Decidable (_ ∧ _))
  | .copyId _ => inferInstanceAs (Decidable (_ ∧ _))
  | .dropId _ => inferInstanceAs (Decidable (_ ∧ _))
  | .setPoolSize _ _ => inferInstanceAs (Decidable (_ = true))
  | .runOnce => inferInstanceAs (Decidable (_ = true))
  | .loop => inferInstanceAs (Decidable (_ = true))
  | .tick _ => inferInstanceAs (Decidable (_ < _))

end Machine

/-! ## What the log says -/

/-- The callback of timer `n` has been invoked. -/
def Fired {F : Type*} (log : List (Event F)) (n : Nat) : Prop :=
  ∃ cb tp clock, .fired n cb tp clock ∈ log

/-- `StopTimer` has returned true for timer `n`. -/
def Stopped {F : Type*} (log : List (Event F)) (n : Nat) : Prop := .stopped n true ∈ log

/-- Every event agrees with the ones before it: a callback is invoked once, and
not after `StopTimer` has returned true; `StopTimer` returns true when none of
the two has happened.  The last event comes first. -/
def Consistent {F : Type*} : List (Event F) → Prop
  | [] => True
  | .fired n _ _ _ :: log => ¬ Fired log n ∧ ¬ Stopped log n ∧ Consistent log
  | .stopped n ret :: log =>
    (ret = true ↔ ¬ Fired log n ∧ ¬ Stopped log n) ∧ Consistent log

/-- The timer that an event is about. -/
def Event.serial {F : Type*} : Event F → Nat
  | .fired n _ _ _ => n
  | .stopped n _ => n

section Log

variable {F : Type*} {log : List (Event F)} {n : Nat}

theorem fired_cons_of_ne {ev : Event F} (h : ev.serial ≠ n) :
    Fired (ev :: log) n ↔ Fired log n := by
  constructor
  · rintro ⟨cb, tp, clock, hmem⟩
    rcases List.mem_cons.1 hmem with rfl | hmem
    · exact absurd rfl h
    · exact ⟨cb, tp, clock, hmem⟩
  · rintro ⟨cb, tp, clock, hmem⟩
    exact ⟨cb, tp, clock, List.mem_cons_of_mem _ hmem⟩

theorem stopped_cons_of_ne {ev : Event F} (h : ev.serial ≠ n) :
    Stopped (ev :: log) n ↔ Stopped log n := by
  constructor
  · intro hmem
    rcases List.mem_cons.1 hmem with rfl | hmem
    · exact absurd rfl h
    · exact hmem
  · exact List.mem_cons_of_mem _

@[simp] theorem fired_cons_stopped {m : Nat} {ret : Bool} :
    Fired (.stopped m ret :: log) n ↔ Fired log n := by
  simp [Fired]

@[simp] theorem fired_cons_self {cb : F} {tp clock : Int} :
    Fired (.fired n cb tp clock :: log) n :=
  ⟨cb, tp, clock, List.mem_cons_self⟩

@[simp] theorem stopped_cons_fired {m : Nat} {cb : F} {tp clock : Int} :
    Stopped (.fired m cb tp clock :: log) n ↔ Stopped log n := by
  simp [Stopped]

@[simp] theorem stopped_cons_self : Stopped (.stopped n true :: log) n :=
  List.mem_cons_self

@[simp] theorem stopped_cons_false {m : Nat} :
    Stopped (.stopped m false :: log) n ↔ Stopped log n := by
  simp [Stopped]

end Log

end Costream.Timer
