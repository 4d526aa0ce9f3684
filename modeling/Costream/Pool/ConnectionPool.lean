import Costream.Trace
import Mathlib.Data.List.Basic

/-!
# `ConnectionPool`

The pool counts its connections in `count_`, keeps the idle ones in a channel, and hands out the
others; a connection comes back when the pointer that was handed out is destroyed.

Any number of parties call `Get` (with and without a timeout) and `Reserve` and bring
connections back.  An access to `count_`, a call of a functor and a call of the channel are one step
each.  What the functors answer, and which of the waiting parties gets a value, comes with
the step.

The channel is the locked one: a value goes to a party that waits for it, or else into the queue,
if there is room.  A connection takes memory, so `count_` has room for all of them and is a
number here.
-/

namespace Costream.Pool

open Trace

/-- The arguments of the constructor. -/
structure Limits where
  maxConnection : Nat
  maxIdle : Nat
deriving DecidableEq, Repr

/-- `maxIdleConnection_`, which is the capacity of the channel as well. -/
def Limits.maxIdleConnection (l : Limits) : Nat :=
  if l.maxIdle = 0 then l.maxConnection else l.maxIdle

inductive Call where
  | get (timed : Bool)
  /-- `Reserve`, with the variable of its loop. -/
  | reserve (n : Nat)
  /-- The deleter of a pointer that was handed out. -/
  | put
deriving DecidableEq, Repr

/-- Where a call stands. -/
inductive Place where
  /-- `Reserve`: before `Count()`. -/
  | count
  | tryPop
  /-- Before `checkAliveOnGet` or `checkAliveOnPut`. -/
  | check (connection : Nat)
  /-- `CreateOne`: before `++count_`. -/
  | create
  /-- `CreateOne`: before `--count_`. -/
  | refused
  | factory
  /-- Before `TryPush`. -/
  | tryPush (connection : Nat)
  /-- Before `channel_ >> connection` or `TimedPop`. -/
  | pop
  /-- In the wait of the channel. -/
  | waiting
  /-- `Delete`: before `--count_`. -/
  | delete (connection : Nat)
  | deleter (connection : Nat)
deriving DecidableEq, Repr

inductive Party where
  | idle
  | inCall (c : Call) (place : Place)
deriving DecidableEq, Repr

structure State where
  /-- `count_`. -/
  count : Nat
  /-- The queue of `channel_`. -/
  channel : List Nat
  /-- The connections that are handed out. -/
  out : List Nat
  parties : List Party
deriving DecidableEq, Repr

def State.initial (n : Nat) : State := ⟨0, [], [], List.replicate n .idle⟩

/-- What the factory does. -/
inductive Made where
  | connection (x : Nat)
  | null
  | throws
deriving DecidableEq, Repr

/-- What happens outside in a step: the answer of `checkAliveOnGet` or `checkAliveOnPut` (true when
there is none), what the factory does, and the party that gets what is pushed. -/
structure Outside where
  alive : Bool
  made : Made
  reader : Nat
deriving DecidableEq, Repr

inductive Action where
  | get (i : Nat) (timed : Bool)
  | reserve (i : Nat)
  /-- The pointer at this index is destroyed. -/
  | put (i k : Nat)
  | step (i : Nat) (o : Outside)
  /-- The deadline of `TimedPop`. -/
  | timeout (i : Nat)
deriving DecidableEq, Repr

/-- The party waits in the channel. -/
def Party.waits : Party → Bool
  | .inCall _ .waiting => true
  | _ => false

namespace Call

/-- `CreateOne` has returned null. -/
def noConnection (c : Call) : Party :=
  match c with
  | get _ => .inCall c .pop
  | _ => .idle

/-- `Delete` has returned. -/
def deleted (c : Call) : Party :=
  match c with
  | get _ => .inCall c .tryPop
  | _ => .idle

end Call

namespace Limits

variable (l : Limits)

/-- The test of the loop of `Reserve`. -/
def loop (n : Nat) : Party := if n < l.maxIdleConnection then .inCall (.reserve n) .create else .idle

/-- `TryPush` has returned true. -/
def pushed : Call → Party
  | .reserve n => l.loop (n + 1)
  | _ => .idle

end Limits

namespace State

variable (l : Limits) (s : State)

def put (i : Nat) (p : Party) : State := { s with parties := s.parties.set i p }

/-- The value goes to the party `r`, which waits for it. -/
def give (r : Nat) (x : Nat) : Option State :=
  match s.parties[r]? with
  | some (.inCall c .waiting) => some (s.put r (.inCall c (.check x)))
  | _ => none

/-- A step of the party `i`. -/
def advance (i : Nat) (c : Call) (o : Outside) : Place → Option State
  | .count =>
    match c with
    | .reserve _ => some (s.put i (l.loop s.count))
    | _ => none
  | .tryPop =>
    match s.channel with
    | [] => some (s.put i (.inCall c .create))
    | x :: channel => some ({ s with channel := channel }.put i (.inCall c (.check x)))
  | .check x =>
    if o.alive then
      match c with
      | .get _ => some ({ s with out := x :: s.out }.put i .idle)
      | .put => some (s.put i (.inCall c (.tryPush x)))
      | .reserve _ => none
    else
      some (s.put i (.inCall c (.delete x)))
  | .create =>
    let n := s.count + 1
    let place := if l.maxConnection < n then .refused else .factory
    some ({ s with count := n }.put i (.inCall c place))
  | .refused => some ({ s with count := s.count - 1 }.put i c.noConnection)
  | .factory =>
    match o.made with
    | .connection x =>
      match c with
      | .get _ => some ({ s with out := x :: s.out }.put i .idle)
      | .reserve _ => some (s.put i (.inCall c (.tryPush x)))
      | .put => none
    | .null => some (s.put i c.noConnection)
    | .throws => some (s.put i .idle)
  | .tryPush x =>
    if s.parties.any Party.waits then
      (s.give o.reader x).map (·.put i (l.pushed c))
    else if s.channel.length < l.maxIdleConnection then
      some ({ s with channel := s.channel ++ [x] }.put i (l.pushed c))
    else
      some (s.put i (.inCall c (.delete x)))
  | .pop =>
    match s.channel with
    | [] => some (s.put i (.inCall c .waiting))
    | x :: channel => some ({ s with channel := channel }.put i (.inCall c (.check x)))
  | .waiting => none
  | .delete x => some ({ s with count := s.count - 1 }.put i (.inCall c (.deleter x)))
  | .deleter _ => some (s.put i c.deleted)

def next : Action → Option State
  | .get i timed => some (s.put i (.inCall (.get timed) .tryPop))
  | .reserve i => some (s.put i (.inCall (.reserve 0) .count))
  | .put i k =>
    match s.out[k]? with
    | some x => some ({ s with out := s.out.eraseIdx k }.put i (.inCall .put (.check x)))
    | none => none
  | .step i o =>
    match s.parties[i]? with
    | some (.inCall c place) => s.advance l i c o place
    | _ => none
  | .timeout i => some (s.put i .idle)

/-- A party begins a call when it is in none, and a step that hands a value over hands it to a party
that waits. -/
def enabled : Action → Bool
  | .get i _ => s.parties[i]? = some .idle
  | .reserve i => s.parties[i]? = some .idle
  | .put i k => s.parties[i]? = some .idle && k < s.out.length
  | .step i o =>
    match s.parties[i]? with
    | some (.inCall _ .waiting) => false
    | some (.inCall _ (.tryPush _)) =>
      !s.parties.any Party.waits || s.parties[o.reader]?.any Party.waits
    | some (.inCall _ _) => true
    | _ => false
  | .timeout i => s.parties[i]? = some (.inCall (.get true) .waiting)

end State

def machine (l : Limits) : Machine State Action where
  enabled s a := s.enabled a = true
  step := State.next l

instance (l : Limits) (s : State) (a : Action) : Decidable ((machine l).enabled s a) :=
  inferInstanceAs (Decidable (s.enabled a = true))

end Costream.Pool
