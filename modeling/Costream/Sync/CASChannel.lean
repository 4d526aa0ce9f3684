import Costream.Sync.LockedChannel
import Costream.Sync.WaitQueue

/-!
# The channel without a lock

`CASChannelImpl` keeps its values in the condition variable of the writers.  `wait_`
counts the calls that are about to put something into a condition variable or have done
so, writers in its lower half and readers in its upper half.  A call looks at the half
of the other side: if it is not zero, it notifies one of them, and otherwise it adds
itself with a compare-and-swap and queues an entry.

* `Cond` is a condition variable of the channel.  The entry of a writer is buffered
  when its `isWaiting` is false: it was let in without waiting, or `pos_` has come to
  it in a `pop`.
* `machine` has one action for each step of a call on `wait_`, `closed_` or a queue.

The two sections under the lock of a queue are steps of their own, and so is `notify`:
what it returns is decided at one point, where it takes `noTimeoutLock` or ends the
suspension.  `Stage` is as in the locked channel.
-/

namespace Costream.Sync.CAS

open Trace

/-! ## The condition variables -/

structure Entry (T : Type*) where
  call : Nat
  value : Option T
  isWaiting : Bool
  stage : Stage
  deriving DecidableEq

/-- `ConditionVariableAnyT<Entry>`.  A node of the queue is the index of its entry. -/
structure Cond (T : Type*) where
  queue : WaitQueue
  entries : List (Entry T)

namespace Cond

variable {T : Type*}

def create (posDistance : Nat) : Cond T := ⟨.create posDistance, []⟩

def setStage (c : Cond T) (i : Nat) (stage : Stage) : Cond T :=
  { c with entries := c.entries.modify i fun e => { e with stage := stage } }

/-- `Entry::notify`. -/
def notify (c : Cond T) (i : Nat) : Bool × Cond T :=
  match c.entries[i]?.map Entry.stage with
  | some .waiting => (true, c.setStage i .woken)
  | some .fired => (false, c.setStage i .lost)
  | _ => (false, c)

/-- `posFunctor_` at `pos_`, and `pos_ = pos_->next`. -/
def convert (c : Cond T) (i : Nat) : Bool × Cond T :=
  let (ok, c) := c.notify i
  (ok, { queue := c.queue.passed
         entries := if ok then c.entries.modify i fun e => { e with isWaiting := false }
           else c.entries })

/-- The loop of `WaitQueue::pop`. -/
def passAll : Nat → Cond T → Cond T
  | 0, c => c
  | fuel + 1, c =>
    match c.queue.pos with
    | none => c
    | some i =>
      match c.convert i with
      | (true, c) => c
      | (false, c) => passAll fuel c

/-- `WaitQueue::pop`.  Each round of the loop moves `pos_` to a later node. -/
def pop (c : Cond T) : Option (Nat × Cond T) :=
  match c.queue.nodes with
  | [] => none
  | ptr :: rest =>
    let c := passAll (rest.length + 1) { c with queue := c.queue.popHead ptr }
    some (ptr, { c with queue := c.queue.uncount })

/-- `isValid`.  What it finds for an entry that waits is given by `verdict`. -/
def isValid (c : Cond T) (verdict : Bool) (i : Nat) : Bool :=
  verdict || c.entries[i]?.any (!·.isWaiting)

/-- The loop of the clean-up in `WaitQueue::push`. -/
def cleanUp (c : Cond T) : List Bool → WaitQueue → WaitQueue
  | [], queue => queue
  | verdict :: rest, queue =>
    match queue.checkNext with
    | none => queue
    | some i =>
      cleanUp c rest (if c.isValid verdict i then queue.advance i else queue.unlink i)

/-- `WaitQueue::push` of an entry that `cond` lets in. -/
def push (c : Cond T) (e : Entry T) (verdict : Bool × Bool) : Cond T :=
  let queue := c.queue.link c.entries.length
  let c := { queue := queue, entries := c.entries ++ [e] }
  if queue.count < queue.threshold then c
  else { c with queue := c.cleanUp [verdict.1, verdict.2] queue.startCheck }

/-- The entries in the queue. -/
def linked (c : Cond T) : List (Entry T) := c.queue.nodes.filterMap (c.entries[·]?)

end Cond

/-! ## The calls -/

/-- One of the two condition variables. -/
inductive Side where
  | reader
  | writer
  deriving DecidableEq

inductive Op (T : Type*) where
  | push (t : T)
  | pop
  | close
  deriving DecidableEq

/-- Where a call is. -/
inductive Place where
  | start
  | load
  | pop (side : Side)
  | notify (side : Side) (ptr : Nat)
  | again
  | subtract (side : Side) (result : Bool)
  | cas (wait : Nat)
  | enqueue
  | parked (i : Nat)
  | resume
  | done (result : Bool)
  deriving DecidableEq

/-- `got` is what a functor has assigned to the variable of a reader. -/
structure Call (T : Type*) where
  op : Op T
  bWait : Bool
  place : Place
  got : Option T
  deriving DecidableEq

structure State (T : Type*) where
  capacity : Nat
  closed : Bool
  wait : Nat
  wq : Cond T
  rq : Cond T
  calls : List (Call T)

namespace State

variable {T : Type*} (s : State T)

/-- The constructor. -/
def initial (capacity : Nat) : State T where
  capacity := capacity
  closed := false
  wait := 0
  wq := .create (if capacity = 0 then 2 ^ 64 - 1 else (capacity + 1) % 2 ^ 64)
  rq := .create 0
  calls := []

/-- `wait & readMask`, as a count. -/
def readers : Nat := s.wait / 2 ^ 32

/-- `wait & writeMask`. -/
def writers : Nat := s.wait % 2 ^ 32

/-- `read1` and `write1`. -/
def one : Side → Nat
  | .reader => 2 ^ 32
  | .writer => 1

/-- `wait_ -= read1` or `wait_ -= write1`. -/
def subtract (side : Side) : State T :=
  { s with wait := if one side ≤ s.wait then s.wait - one side
                   else s.wait + 2 ^ 64 - one side }

def cond : Side → Cond T
  | .reader => s.rq
  | .writer => s.wq

def setCond (side : Side) (c : Cond T) : State T :=
  match side with
  | .reader => { s with rq := c }
  | .writer => { s with wq := c }

def goto (c : Nat) (place : Place) : State T :=
  { s with calls := s.calls.modify c fun call => { call with place := place } }

def give (c : Nat) (t : Option T) : State T :=
  { s with calls := s.calls.modify c fun call => { call with got := t <|> call.got } }

/-- What the functor of the call `c` does to an entry: a writer gives the reader its
value, a reader takes that of the writer. -/
def functor (c : Nat) (op : Op T) (e : Entry T) : State T :=
  match op with
  | .push t => s.give e.call (some t)
  | .pop => s.give c e.value
  | .close => s

/-- Where a call goes on when `notify_one` has returned. -/
def notified (side : Side) (op : Op T) (result : Bool) : Place :=
  match op, side, result with
  | .close, side, true => .pop side
  | .close, .reader, false => .pop .writer
  | .close, .writer, false => .done true
  | _, side, true => .subtract side true
  | _, _, false => .again

/-- `queue_.pop` in `notify_one`. -/
def popStep (c : Nat) (op : Op T) (side : Side) : State T :=
  match (s.cond side).pop with
  | none => s.goto c (notified side op false)
  | some (ptr, cond) => (s.setCond side cond).goto c (.notify side ptr)

/-- The rest of `notify_one`. -/
def notifyStep (c : Nat) (op : Op T) (side : Side) (ptr : Nat) : State T :=
  match (s.cond side).entries[ptr]? with
  | none => s
  | some e =>
    if e.isWaiting then
      match (s.cond side).notify ptr with
      | (true, cond) => ((s.setCond side cond).functor c op e).goto c (notified side op true)
      | (false, cond) => (s.setCond side cond).goto c (.pop side)
    else (s.functor c op e).goto c (notified side op true)

/-- A new entry in the queue of the writers or of the readers. -/
def queued (c : Nat) (side : Side) (value : Option T) (needWait : Bool)
    (verdict : Bool × Bool) : State T :=
  let i := (s.cond side).entries.length
  (s.setCond side ((s.cond side).push ⟨c, value, needWait, .waiting⟩ verdict)).goto c
    (if needWait then .parked i else .resume)

/-- The section under the lock of the queue in `Push`, with `cond`. -/
def enqueuePush (c : Nat) (t : T) (bWait : Bool) (verdict : Bool × Bool) : State T :=
  if s.closed then s.goto c (.subtract .writer false)
  else if s.wq.queue.count < s.capacity then s.queued c .writer (some t) false verdict
  else if bWait then s.queued c .writer (some t) true verdict
  else s.goto c (.subtract .writer false)

/-- The same in `Pop`. -/
def enqueuePop (c : Nat) (verdict : Bool × Bool) : State T :=
  if s.closed then s.goto c (.subtract .reader false)
  else s.queued c .reader none true verdict

/-- What `do_wait` returns to a call that waits. -/
def unpark (c : Nat) (side : Side) (i : Nat) : State T :=
  match (s.cond side).entries[i]?.map Entry.stage with
  | some .fired => s.goto c (.subtract side false)
  | _ => s.goto c .resume

/-- A step of `Push(t, bWait)`. -/
def push (c : Nat) (t : T) (bWait : Bool) (verdict : Bool × Bool) : Place → State T
  | .start => s.goto c (if s.closed then .done false else .load)
  | .load =>
    if s.readers ≠ 0 then s.goto c (.pop .reader)
    else if s.capacity = 0 ∧ (s.closed ∨ ¬ bWait) then s.goto c (.done false)
    else s.goto c (.cas s.wait)
  | .pop side => s.popStep c (.push t) side
  | .notify side ptr => s.notifyStep c (.push t) side ptr
  | .again =>
    s.goto c (if s.capacity = 0 ∧ (s.closed ∨ ¬ bWait) then .done false else .load)
  | .subtract side result => (s.subtract side).goto c (.done result)
  | .cas wait =>
    if s.wait = wait then
      { s with wait := (s.wait + one .writer) % 2 ^ 64 }.goto c .enqueue
    else s.goto c .load
  | .enqueue => s.enqueuePush c t bWait verdict
  | .parked i => s.unpark c .writer i
  | .resume => s.goto c (.done !s.closed)
  | .done _ => s

/-- A step of `Pop(t, bWait)`. -/
def pop (c : Nat) (bWait : Bool) (verdict : Bool × Bool) : Place → State T
  | .start => s.goto c .load
  | .load =>
    if s.writers ≠ 0 then s.goto c (.pop .writer)
    else if s.closed ∨ ¬ bWait then s.goto c (.done false)
    else s.goto c (.cas s.wait)
  | .pop side => s.popStep c .pop side
  | .notify side ptr => s.notifyStep c .pop side ptr
  | .again => s.goto c (if s.closed ∨ ¬ bWait then .done false else .load)
  | .subtract side result => (s.subtract side).goto c (.done result)
  | .cas wait =>
    if s.wait = wait then
      { s with wait := (s.wait + one .reader) % 2 ^ 64 }.goto c .enqueue
    else s.goto c .load
  | .enqueue => s.enqueuePop c verdict
  | .parked i => s.unpark c .reader i
  | .resume => s.goto c (.done !s.closed)
  | .done _ => s

/-- A step of `Close()`. -/
def close (c : Nat) : Place → State T
  | .start =>
    if s.closed then s.goto c (.done true) else { s with closed := true }.goto c (.pop .reader)
  | .pop side => s.popStep c .close side
  | .notify side ptr => s.notifyStep c .close side ptr
  | _ => s

/-- A step of the call `c`. -/
def step (c : Nat) (verdict : Bool × Bool) : State T :=
  match s.calls[c]? with
  | none => s
  | some call =>
    match call.op with
    | .push t => s.push c t call.bWait verdict call.place
    | .pop => s.pop c call.bWait verdict call.place
    | .close => s.close c call.place

/-- The condition variable in which a call waits. -/
def side (s : State T) (c : Nat) : Side :=
  match s.calls[c]?.map Call.op with
  | some (.push _) => .writer
  | _ => .reader

/-- The stage of the entry with which a call is parked. -/
def stage (c : Nat) : Option Stage :=
  match s.calls[c]?.map Call.place with
  | some (.parked i) => (s.cond (s.side c)).entries[i]?.map Entry.stage
  | _ => none

/-- How many values have been accepted and not popped. -/
def buffered : Nat := (s.wq.linked.filter (!·.isWaiting)).length

end State

/-! ## The machine -/

/-- What happens next: a new call, a step of a call, a compare-and-swap that fails for
no reason, or the end of a wait by its deadline or a spurious wake-up. -/
inductive Action (T : Type*) where
  | call (op : Op T) (bWait : Bool)
  | step (c : Nat) (verdict : Bool × Bool)
  | spurious (c : Nat)
  | expire (c : Nat)

variable {T : Type*}

/-- A call that waits goes on when it has been woken.  The entries of a queue are
allocated, so there is an end to them. -/
def Enabled (s : State T) : Action T → Bool
  | .call _ _ => true
  | .step c _ =>
    match s.calls[c]?.map Call.place with
    | some (.parked _) => s.stage c ≠ some .waiting
    | some .enqueue => (s.cond (s.side c)).queue.nodes.length + 1 < 2 ^ 64
    | some (.done _) => false
    | some _ => true
    | none => false
  | .spurious c =>
    match s.calls[c]?.map Call.place with
    | some (.cas _) => true
    | _ => false
  | .expire c => s.stage c = some .waiting

def step (s : State T) : Action T → State T
  | .call op bWait => { s with calls := s.calls ++ [⟨op, bWait, .start, none⟩] }
  | .step c verdict => s.step c verdict
  | .spurious c => s.goto c .load
  | .expire c =>
    match s.calls[c]?.map Call.place with
    | some (.parked i) => s.setCond (s.side c) ((s.cond (s.side c)).setStage i .fired)
    | _ => s

/-- The channel with any number of calls. -/
def machine (T : Type*) : Machine (State T) (Action T) where
  enabled s a := Enabled s a = true
  step s a := some (step s a)

instance (s : State T) (a : Action T) : Decidable ((machine T).enabled s a) :=
  inferInstanceAs (Decidable (Enabled s a = true))

/-! ## The calls after a step -/

/-- Where the call `c` is. -/
def State.placeOf (s : State T) (c : Nat) : Option Place := s.calls[c]?.map Call.place

/-- What the call `c` does. -/
def State.opOf (s : State T) (c : Nat) : Option (Op T) := s.calls[c]?.map Call.op

variable {s : State T}

theorem placeOf_goto (s : State T) (c c' : Nat) (place : Place) :
    (s.goto c place).placeOf c' =
      if c = c' then (s.placeOf c').map fun _ => place else s.placeOf c' := by
  unfold State.placeOf State.goto
  rw [List.getElem?_modify]
  split <;> simp [Function.comp_def]

theorem placeOf_give (s : State T) (c c' : Nat) (t : Option T) :
    (s.give c t).placeOf c' = s.placeOf c' := by
  unfold State.placeOf State.give
  rw [List.getElem?_modify]
  split <;> simp [Function.comp_def]

theorem placeOf_functor (s : State T) (c c' : Nat) (op : Op T) (e : Entry T) :
    (s.functor c op e).placeOf c' = s.placeOf c' := by
  unfold State.functor
  split
  · exact placeOf_give s _ c' _
  · exact placeOf_give s _ c' _
  · rfl

@[simp] theorem placeOf_setCond (s : State T) (side : Side) (cond : Cond T) (c : Nat) :
    (s.setCond side cond).placeOf c = s.placeOf c := by
  cases side <;> rfl

theorem placeOf_setWait (s : State T) (wait c : Nat) :
    ({ s with wait := wait } : State T).placeOf c = s.placeOf c := by
  rw [State.placeOf, State.placeOf]

/-- Where a call is after it has gone on. -/
theorem placeOf_goto_self {c : Nat} {q : Place} (hq : s.placeOf c = some q) (place : Place) :
    (s.goto c place).placeOf c = some place := by
  rw [placeOf_goto, if_pos rfl, hq]
  rfl

@[simp] theorem opOf_goto (s : State T) (c c' : Nat) (place : Place) :
    (s.goto c place).opOf c' = s.opOf c' := by
  unfold State.opOf State.goto
  rw [List.getElem?_modify]
  split <;> simp [Function.comp_def]

@[simp] theorem opOf_give (s : State T) (c c' : Nat) (t : Option T) :
    (s.give c t).opOf c' = s.opOf c' := by
  unfold State.opOf State.give
  rw [List.getElem?_modify]
  split <;> simp [Function.comp_def]

@[simp] theorem opOf_setCond (s : State T) (side : Side) (cond : Cond T) (c' : Nat) :
    (s.setCond side cond).opOf c' = s.opOf c' := by
  cases side <;> rfl

-- These are not proved by `rfl`, which `simp` would have the kernel repeat on `2 ^ 64`.
@[simp] theorem opOf_setWait (s : State T) (wait c' : Nat) :
    ({ s with wait := wait } : State T).opOf c' = s.opOf c' := by
  rw [State.opOf, State.opOf]

@[simp] theorem opOf_setClosed (s : State T) (closed : Bool) (c' : Nat) :
    ({ s with closed := closed } : State T).opOf c' = s.opOf c' := by
  rw [State.opOf, State.opOf]

@[simp] theorem opOf_subtract (s : State T) (side : Side) (c' : Nat) :
    (s.subtract side).opOf c' = s.opOf c' := by
  rw [State.subtract, opOf_setWait]

@[simp] theorem opOf_functor (s : State T) (c c' : Nat) (op : Op T) (e : Entry T) :
    (s.functor c op e).opOf c' = s.opOf c' := by
  unfold State.functor
  split <;> simp

@[simp] theorem opOf_popStep (s : State T) (c c' : Nat) (op : Op T) (side : Side) :
    (s.popStep c op side).opOf c' = s.opOf c' := by
  unfold State.popStep
  split <;> simp

@[simp] theorem opOf_notifyStep (s : State T) (c c' : Nat) (op : Op T) (side : Side) (ptr : Nat) :
    (s.notifyStep c op side ptr).opOf c' = s.opOf c' := by
  unfold State.notifyStep
  split
  · rfl
  · split
    · split <;> simp
    · simp

@[simp] theorem opOf_queued (s : State T) (c c' : Nat) (side : Side) (value : Option T)
    (needWait : Bool) (verdict : Bool × Bool) :
    (s.queued c side value needWait verdict).opOf c' = s.opOf c' := by
  simp [State.queued]

@[simp] theorem opOf_unpark (s : State T) (c c' : Nat) (side : Side) (i : Nat) :
    (s.unpark c side i).opOf c' = s.opOf c' := by
  unfold State.unpark
  split <;> simp

theorem opOf_push (s : State T) (c c' : Nat) (t : T) (bWait : Bool) (verdict : Bool × Bool)
    (place : Place) : (s.push c t bWait verdict place).opOf c' = s.opOf c' := by
  cases place with
  | load =>
    simp only [State.push]
    repeat' split
    all_goals simp
  | cas wait =>
    simp only [State.push]
    split <;> simp
  | enqueue =>
    simp only [State.push, State.enqueuePush]
    repeat' split
    all_goals simp
  | _ => simp [State.push]

theorem opOf_pop (s : State T) (c c' : Nat) (bWait : Bool) (verdict : Bool × Bool)
    (place : Place) : (s.pop c bWait verdict place).opOf c' = s.opOf c' := by
  cases place with
  | load =>
    simp only [State.pop]
    repeat' split
    all_goals simp
  | cas wait =>
    simp only [State.pop]
    split <;> simp
  | enqueue =>
    simp only [State.pop, State.enqueuePop]
    split <;> simp
  | _ => simp [State.pop]

theorem opOf_close (s : State T) (c c' : Nat) (place : Place) :
    (s.close c place).opOf c' = s.opOf c' := by
  cases place with
  | start =>
    simp only [State.close]
    split <;> simp
  | _ => simp [State.close]

theorem opOf_step (s : State T) (c c' : Nat) (verdict : Bool × Bool) :
    (s.step c verdict).opOf c' = s.opOf c' := by
  unfold State.step
  split
  · rfl
  · split
    · exact opOf_push s c c' _ _ verdict _
    · exact opOf_pop s c c' _ verdict _
    · exact opOf_close s c c' _

end Costream.Sync.CAS
