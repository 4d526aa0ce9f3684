import Costream.Timer.Service

/-!
# `StartTimer` and `RunOnce` in different threads

The machine of this file takes the two apart into their loads, stores and lock
operations.  Any number of threads `T` are in `StartTimer`, and one more thread
calls `RunOnce`.

* `Insert` says where a call of `Dispatch(Element*, bool)` stands.  It loads
  `point_`, takes the lock of the queue it has chosen, loads `point_` again, and
  pushes the element if `point_` is the same.
* `Pop` says where `pop_all` stands.  It looks at `head_` and `tail_` without the
  lock, and takes the lock only if the queue is not empty then.
* `Stage` says where `RunOnce` stands.

Loads and stores that no other thread can see are one step with the next one
that can be seen.  So are the stores of `pushWithoutLock`, of which only
`tail_ = hook` is visible without the lock.  The elements are timers here:
reference counts and cancellation do not matter.
-/

namespace Costream.Timer.Shared

open Trace

/-- Where `Dispatch(Element*, bool)` stands.  `last` is the tick that it has
loaded. -/
inductive Insert where
  | load
  | enter (last : Nat)
  | recheck (last : Nat)
  | push (last : Nat)
  | leave (last : Nat) (again : Bool)
  deriving DecidableEq

/-- Where `pop_all` stands after it has found the queue not empty. -/
inductive Pop where
  | lock
  | take
  | unlock (q : QueueRef)

/-- Where `RunOnce` stands: before `Trigger(completeSlot_)`, before the clock
reading, before the store to `point_`, in the loop, and in
`Dispatch(dispatchers, now)`. -/
inductive Stage where
  | complete
  | read
  | store (f : Frame)
  | sweep (f : Frame) (turned : List SlotRef) (s : Sweep)
  | final (f : Frame)

/-- The control of `RunOnce`. -/
structure Control where
  stage : Stage
  pop : Option Pop

/-- The state.  A thread is `some t` for a thread in `StartTimer` and `none`
for the one of `RunOnce`.  `timers` are all timers that have been started. -/
structure State (T : Type*) where
  point : Nat
  queue : QueueRef → List Entry
  owner : QueueRef → Option (Option T)
  inserting : Option T → Option (Entry × Insert)
  control : Option Control
  clock : Int
  timers : List Entry
  fired : List Entry

/-- The queue that is popped next, the list it is popped into, and where
`RunOnce` stands then. -/
def Stage.source : Stage → Option (QueueRef × QueueRef × Stage)
  | .complete => some (.complete, .slist, .read)
  | .sweep f (r :: rest) σ => some (.slot r, .dispatchers, .sweep f rest σ)
  | .sweep f [] σ =>
    if σ.i < f.delta then
      some (.slot (σ.triggered f.last), .slist,
        .sweep f (σ.turned f.last) (σ.next f.last))
    else none
  | .read | .store _ | .final _ => none

/-- The queue that `Dispatch(Element*, bool)` chooses.  `RunOnce` does not look
whether the deadline has passed. -/
def target {T : Type*} (cfg : Config) (w : Option T) (x : Entry) (last : Nat) : QueueRef :=
  if w.isSome ∧ x.tp ≤ cfg.lastTime last then .complete
  else .slot (place cfg last x.tp)

namespace State

variable {T : Type*} [DecidableEq T]

def setQueue (s : State T) (q : QueueRef) (l : List Entry) : State T :=
  { s with queue := Function.update s.queue q l }

def setOwner (s : State T) (q : QueueRef) (w : Option (Option T)) : State T :=
  { s with owner := Function.update s.owner q w }

def setInserting (s : State T) (w : Option T) (i : Option (Entry × Insert)) : State T :=
  { s with inserting := Function.update s.inserting w i }

def setControl (s : State T) (stage : Stage) (pop : Option Pop) : State T :=
  { s with control := some ⟨stage, pop⟩ }

/-- One step of `Dispatch(Element*, bool)` in thread `w`. -/
def insertStep (cfg : Config) (s : State T) (w : Option T) (x : Entry) : Insert → State T
  | .load => s.setInserting w (some (x, .enter s.point))
  | .enter last =>
    let q := target cfg w x last
    (s.setOwner q (some w)).setInserting w
      (some (x, if q = .complete then .push last else .recheck last))
  | .recheck last =>
    s.setInserting w
      (some (x, if last ≠ s.point then .leave last true else .push last))
  | .push last =>
    let q := target cfg w x last
    (s.setQueue q (s.queue q ++ [x])).setInserting w (some (x, .leave last false))
  | .leave last again =>
    (s.setOwner (target cfg w x last) none).setInserting w
      (if again then some (x, .load) else none)

/-- `RunOnce` between two lists. -/
def advance (cfg : Config) (s : State T) (stage : Stage) : State T :=
  match stage.source with
  | some (q, _, next) =>
    if s.queue q = [] then s.setControl next none else s.setControl stage (some .lock)
  | none =>
    match stage with
    | .read =>
      let now := s.clock
      let destVal := cfg.destVal now
      if destVal ≤ s.point then { s with control := none }
      else s.setControl (.store ⟨now, s.point, destVal - s.point⟩) none
    | .store f => { s with point := f.dest }.setControl (.sweep f [] .init) none
    | .sweep f _ _ =>
      ((s.setQueue .dispatchers []).setQueue .slist (s.queue .dispatchers)).setControl
        (.final f) none
    | .complete | .final _ => { s with control := none }

/-- The body of the loops of `Trigger` and `Dispatch`. -/
def handle (s : State T) (stage : Stage) (x : Entry) (rest : List Entry) : State T :=
  let s := s.setQueue .slist rest
  match stage with
  | .final f =>
    if x.tp ≤ f.now then { s with fired := x :: s.fired }
    else s.setInserting none (some (x, .load))
  | _ => { s with fired := x :: s.fired }

/-- One step of the `pop_all` that the stage is about. -/
def popStep (s : State T) (stage : Stage) : Pop → State T
  | .lock =>
    match stage.source with
    | some (q, _, _) => (s.setOwner q (some none)).setControl stage (some .take)
    | none => s
  | .take =>
    match stage.source with
    | some (q, dst, next) =>
      ((s.setQueue q []).setQueue dst (s.queue dst ++ s.queue q)).setControl next
        (some (.unlock q))
    | none => s
  | .unlock q => (s.setOwner q none).setControl stage none

/-- One step of `RunOnce`. -/
def loopStep (cfg : Config) (s : State T) (c : Control) : State T :=
  match s.inserting none, c.pop with
  | some (x, i), _ => s.insertStep cfg none x i
  | none, some pop => s.popStep c.stage pop
  | none, none =>
    match s.queue .slist with
    | x :: rest => s.handle c.stage x rest
    | [] => s.advance cfg c.stage

def initial (cfg : Config) : State T where
  point := 0
  queue _ := []
  owner _ := none
  inserting _ := none
  control := none
  clock := cfg.begin_
  timers := []
  fired := []

end State

/-! ## The machine -/

/-- What can happen next. -/
inductive Act (T : Type*) where
  | startTimer (t : T) (tp : Int)
  | insert (t : T)
  | runOnce
  | loop
  | tick (d : Nat)

section Machine

variable {T : Type*} [DecidableEq T]

/-- Thread `w` is not waiting for a lock in `Dispatch(Element*, bool)`. -/
def canInsert (cfg : Config) (s : State T) (w : Option T) : Bool :=
  match s.inserting w with
  | some (x, .enter last) => (s.owner (target cfg w x last)).isNone
  | _ => true

/-- `RunOnce` is not waiting for a lock in `pop_all`. -/
def canPop (s : State T) (c : Control) : Bool :=
  match c.pop, c.stage.source with
  | some .lock, some (q, _, _) => (s.owner q).isNone
  | _, _ => true

def Enabled (cfg : Config) (s : State T) : Act T → Prop
  | .startTimer t tp => s.inserting (some t) = none ∧ tp < 2 ^ 63
  | .insert t => s.inserting (some t) ≠ none ∧ canInsert cfg s (some t)
  | .runOnce => s.control.isNone
  | .loop => s.control.any fun c => canInsert cfg s none && canPop s c
  | .tick d => s.clock + d < 2 ^ 63

/-- The timer of clock `cfg`. -/
def machine (T : Type*) [DecidableEq T] (cfg : Config) : Machine (State T) (Act T) where
  enabled := Enabled cfg
  step s
    | .startTimer t tp =>
      let x : Entry := ⟨s.timers.length, tp⟩
      some ({ s with timers := x :: s.timers }.setInserting (some t) (some (x, .load)))
    | .insert t => (s.inserting (some t)).map fun i => s.insertStep cfg (some t) i.1 i.2
    | .runOnce => some (s.setControl .complete none)
    | .loop => s.control.map (s.loopStep cfg)
    | .tick d => some { s with clock := s.clock + d }

instance (cfg : Config) (s : State T) (a : Act T) :
    Decidable ((machine T cfg).enabled s a) :=
  match a with
  | .startTimer _ _ => inferInstanceAs (Decidable (_ = none ∧ _))
  | .insert _ => inferInstanceAs (Decidable (_ ≠ none ∧ _ = true))
  | .runOnce => inferInstanceAs (Decidable (_ = true))
  | .loop => inferInstanceAs (Decidable (_ = true))
  | .tick _ => inferInstanceAs (Decidable (_ < _))

end Machine

end Costream.Timer.Shared
