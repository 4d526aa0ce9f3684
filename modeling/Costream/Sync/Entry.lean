import Costream.Trace

/-!
# One entry of a condition variable

`ConditionVariableAnyT::do_wait` queues an entry and suspends, and
`Entry::notify` wakes its waiter.  `machine` is one entry with its waiter, its
timer and those who notify it, a step at a time.

* The waiter runs through `Waiter`: it loads `suspendFlags`, announces that it
  suspends, suspends, publishes that it has, sleeps, and takes `noTimeoutLock` to
  find out what has woken it.
* A notifier runs through `Notify`.  It is a thread whose `pop` has returned the
  entry, or it is `posFunctor_`, which a `pop` of another entry runs under the lock
  of the queue.  The queue lets at most one of them at the entry at a time: it is
  popped once, `pos_` passes it once, and `pop` has the lock meanwhile.
* `fire` is the timer's `Processor::Wakeup`.  A native thread has no timer, and can
  wake up from its condition variable at any time.

A suspension is over when the task's suspend id has changed.  The ghost fields are
`told` (a call of `notify` has returned true), `applied` (how often a functor has
been applied to the value of the entry while it waits) and `late` (a functor has been
applied after the waiter has returned).
-/

namespace Costream.Sync.Entry

open Trace

/-! ## The state -/

/-- Who waits. -/
inductive Kind where
  | coroutine
  | thread
  deriving DecidableEq

/-- `eSuspendFlag`. -/
structure Flags where
  suspendBegin : Bool
  suspendEnd : Bool
  wakeupBegin : Bool
  wakeupEnd : Bool
  deriving DecidableEq

/-- `cv_status`, for a wait that has been queued. -/
inductive Status where
  | noTimeout
  | timeout
  deriving DecidableEq

/-- Where the waiter is in `do_wait`.  `flag` is its local variable. -/
inductive Waiter where
  | load
  | announce (flag : Flags)
  | spin
  | suspend (flag : Flags)
  | assign (flag : Flags)
  | publish (flag : Flags)
  | block
  | sleep
  | settle
  | done (status : Status)
  deriving DecidableEq

/-- Where a notifier is in `notify`. -/
inductive Notify where
  | check
  | load
  | announce (flag : Flags)
  | lockDirect (flag : Flags)
  | applyDirect (flag : Flags)
  | storeDirect (flag : Flags)
  | spin
  | lock
  | wakeup
  | mutex
  | lockMutex
  | applyMutex
  | unlock (result : Bool)
  | done (result : Bool)
  deriving DecidableEq

/-- Who calls `notify`. -/
inductive Caller where
  | posFunctor
  | popper
  deriving DecidableEq

inductive Suspension where
  | none
  | pending
  | ended
  deriving DecidableEq

/-- Who holds the mutex of the native thread. -/
inductive Holder where
  | nobody
  | waiter
  | notifier
  deriving DecidableEq

structure State where
  kind : Kind
  deadline : Bool
  flags : Flags
  noTimeoutLock : Bool
  coroEntry : Bool
  nativeThreadEntry : Bool
  isWaiting : Bool
  mtx : Holder
  suspension : Suspension
  waiter : Waiter
  queued : Bool
  passed : Bool
  notifier : Option (Caller × Notify)
  told : Bool
  applied : Nat
  late : Bool
  deriving DecidableEq

/-- The entry has been queued, and the waiter has released its lock. -/
def initial (kind : Kind) (deadline : Bool) : State where
  kind := kind
  deadline := deadline
  flags := ⟨false, false, false, false⟩
  noTimeoutLock := false
  coroEntry := false
  nativeThreadEntry := false
  isWaiting := true
  mtx := .nobody
  suspension := .none
  waiter := .load
  queued := true
  passed := false
  notifier := none
  told := false
  applied := 0
  late := false

/-! ## The steps -/

inductive Action where
  | waiter
  | waiterAgain
  | fire
  | pass
  | pop
  | evict
  | notifier
  | notifierAgain
  | leave
  deriving DecidableEq

/-- The waiter can take its next step. -/
def WaiterEnabled (s : State) : Bool :=
  match s.waiter with
  | .spin => s.flags.wakeupEnd
  | .sleep =>
    match s.kind with
    | .coroutine => s.suspension = .ended
    | .thread => s.mtx = .nobody
  | .done _ => false
  | _ => true

/-- The mutex when the waiter has left it: only a native thread has locked it. -/
def unlocked (s : State) : Holder :=
  match s.kind with
  | .coroutine => s.mtx
  | .thread => .nobody

/-- `do_wait` after `lock.unlock()`. -/
def waiterStep (s : State) : State :=
  match s.waiter with
  | .load =>
    if s.flags.wakeupBegin then { s with waiter := .spin }
    else { s with waiter := .announce s.flags }
  | .announce flag =>
    if s.flags = flag then
      { s with flags := { s.flags with suspendBegin := true }, waiter := .suspend flag }
    else { s with waiter := .load }
  | .spin => { s with waiter := .done .noTimeout }
  | .suspend flag =>
    match s.kind with
    | .coroutine => { s with suspension := .pending, waiter := .assign flag }
    | .thread => { s with nativeThreadEntry := true, mtx := .waiter, waiter := .publish flag }
  | .assign flag => { s with coroEntry := true, waiter := .publish flag }
  | .publish flag =>
    { s with
      flags := { flag with suspendBegin := true, suspendEnd := true }
      waiter := match s.kind with
        | .coroutine => .sleep
        | .thread => .block }
  | .block => { s with mtx := .nobody, waiter := .sleep }
  | .sleep =>
    match s.kind with
    | .coroutine => { s with waiter := .settle }
    | .thread => { s with mtx := .waiter, waiter := .settle }
  | .settle =>
    { s with
      noTimeoutLock := true
      mtx := unlocked s
      waiter := .done (if s.noTimeoutLock then .noTimeout else .timeout) }
  | .done _ => s

/-- The notifier can take its next step. -/
def NotifierEnabled (s : State) : Notify → Bool
  | .spin => s.flags.suspendEnd
  | .mutex => s.mtx = .nobody
  | .done _ => false
  | _ => true

/-- The functor is applied to the value of an entry that waits. -/
def apply (s : State) : State :=
  { s with
    applied := s.applied + 1
    late := s.late || match s.waiter with
      | .done _ => true
      | _ => false }

/-- `Entry::notify`, and before it the test of `isWaiting` in `notify_one`. -/
def notifierStep (s : State) (caller : Caller) : Notify → State
  | .check =>
    { s with notifier := some (caller, if s.isWaiting then .load else .done true) }
  | .load =>
    { s with notifier := some (caller,
      if s.flags.suspendBegin then .spin else .announce s.flags) }
  | .announce flag =>
    if s.flags = flag then
      { s with
        flags := { s.flags with wakeupBegin := true }
        notifier := some (caller, .lockDirect flag) }
    else { s with notifier := some (caller, .load) }
  | .lockDirect flag =>
    if s.noTimeoutLock then
      { s with
        flags := { flag with wakeupBegin := true, wakeupEnd := true }
        notifier := some (caller, .done false) }
    else { s with noTimeoutLock := true, notifier := some (caller, .applyDirect flag) }
  | .applyDirect flag => { apply s with notifier := some (caller, .storeDirect flag) }
  | .storeDirect flag =>
    { s with
      flags := { flag with wakeupBegin := true, wakeupEnd := true }
      notifier := some (caller, .done true) }
  | .spin =>
    { s with notifier := some (caller, if s.nativeThreadEntry then .mutex else .lock) }
  | .lock =>
    if s.noTimeoutLock then { s with notifier := some (caller, .done false) }
    else { s with noTimeoutLock := true, notifier := some (caller, .wakeup) }
  | .wakeup =>
    if s.coroEntry && s.suspension = .pending then
      { apply s with suspension := .ended, notifier := some (caller, .done true) }
    else { s with notifier := some (caller, .done false) }
  | .mutex => { s with mtx := .notifier, notifier := some (caller, .lockMutex) }
  | .lockMutex =>
    if s.noTimeoutLock then { s with notifier := some (caller, .unlock false) }
    else { s with noTimeoutLock := true, notifier := some (caller, .applyMutex) }
  | .applyMutex => { apply s with notifier := some (caller, .unlock true) }
  | .unlock result => { s with mtx := .nobody, notifier := some (caller, .done result) }
  | .done _ => s

def Enabled (s : State) : Action → Bool
  | .waiter => WaiterEnabled s
  | .waiterAgain =>
    match s.waiter with
    | .announce _ => true
    | _ => false
  | .fire => s.deadline && s.kind = .coroutine && s.suspension = .pending
  | .pass => s.queued && !s.passed && s.notifier.isNone
  | .pop => s.queued && s.notifier.isNone
  | .evict => s.queued && s.notifier.isNone
  | .notifier =>
    match s.notifier with
    | some (_, pc) => NotifierEnabled s pc
    | none => false
  | .notifierAgain =>
    match s.notifier with
    | some (_, .announce _) => true
    | _ => false
  | .leave =>
    match s.notifier with
    | some (_, .done _) => true
    | _ => false

/-- `waiterAgain` and `notifierAgain` are a `compare_exchange_weak` that fails
although the flags are the expected ones. -/
def step (s : State) : Action → State
  | .waiter => waiterStep s
  | .waiterAgain => { s with waiter := .load }
  | .fire => { s with suspension := .ended }
  | .pass => { s with passed := true, notifier := some (.posFunctor, .load) }
  | .pop => { s with queued := false, notifier := some (.popper, .check) }
  | .evict => { s with queued := false }
  | .notifier =>
    match s.notifier with
    | some (caller, pc) => notifierStep s caller pc
    | none => s
  | .notifierAgain =>
    match s.notifier with
    | some (caller, _) => { s with notifier := some (caller, .load) }
    | none => s
  | .leave =>
    match s.notifier with
    | some (caller, .done result) =>
      { s with
        isWaiting := s.isWaiting && !(caller = .posFunctor && result)
        told := s.told || result
        notifier := none }
    | _ => s

def machine : Machine State Action where
  enabled s a := Enabled s a = true
  step s a := some (step s a)

instance (s : State) (a : Action) : Decidable (machine.enabled s a) :=
  inferInstanceAs (Decidable (Enabled s a = true))

end Costream.Sync.Entry
