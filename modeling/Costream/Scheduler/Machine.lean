import Mathlib.Algebra.GroupWithZero.Nat
import Costream.Lists
import Costream.Trace

/-!
# Processors and their tasks

A scheduler has processors, each with a thread of its own.  The thread runs the tasks of
`runnableQueue_` in turn, and waits for a condition variable when there are none.  Other
threads send new tasks, wake up suspended ones, and move tasks from one processor to another.

* `Queue` names the lists a task can be in.  In all but `up`, which stands for the packets
  that are still in the up-queue, the task is linked by its hook.
* `State` has one function for each field of `Task` and of `Processor`.
* `machine` has one action for each section under a lock and for each access to an atomic
  variable outside of one.  A processor's thread is at a `Place`.

Every packet reaches `AddNewTasks` once and in order: the up-queue itself is the subject of other
modules.  `waitQueue_` shares the lock of `runnableQueue_`, so that a task changes from one to the
other at one point.  An erase of a task that is linked in another list has no result.

`collected` and `deletions` are not in the code.  The first says that `GC` has dropped the
reference that a task has to itself, and the second counts the calls of `DeleteTask`.
-/

namespace Costream.Scheduler

open Trace Costream.Lists

/-! ## The state -/

inductive TaskState where
  | runnable
  | block
  | done
  deriving DecidableEq

/-- The lists a task can be in: the four of a processor `p` and its up-queue, the list that `GC`
works through, and a list `k` of the dispatcher. -/
inductive Queue where
  | up (p : Nat)
  | runnable (p : Nat)
  | wait (p : Nat)
  | new (p : Nat)
  | gc (p : Nat)
  | garbage (p : Nat)
  | stolen (k : Nat)
  deriving DecidableEq

/-- Where `AddNewTasks` has been called, and where its caller goes on. -/
inductive AfterAdd where
  | frontAgain
  | loop
  | nextRunnable
  | nextAgain
  deriving DecidableEq

/-- Where `GC` has been called. -/
inductive AfterGC where
  | condition
  | push
  deriving DecidableEq

/-- Where the thread of a processor is.  `addNew` and `adding` are in `AddNewTasks`; `pop`,
`release` and `clear` are in `GC`. -/
inductive Place where
  | loop
  | front
  | frontAgain
  | addNew (after : AfterAdd)
  | adding (after : AfterAdd) (n : Nat)
  | pop (after : AfterGC)
  | release (after : AfterGC) (rest : List Nat)
  | clear (after : AfterGC)
  | condition
  | blocked
  | woken
  | inner
  | swapIn
  | running
  | suspending
  | switch
  | nextRunnable
  | next
  | nextAgain
  | erase
  | push
  | finish
  | stopped
  deriving DecidableEq

def AfterAdd.place : AfterAdd → Place
  | .frontAgain => .frontAgain
  | .loop => .loop
  | .nextRunnable => .nextRunnable
  | .nextAgain => .nextAgain

def AfterGC.place : AfterGC → Place
  | .condition => .condition
  | .push => .push

/-- Where a call of `Wakeup` is. -/
inductive WakeupPlace where
  | lock
  | proc
  | check (p : Nat)
  | locked (p : Nat)
  | notify (p : Nat)
  | drop (result : Bool)
  | done (result : Bool)
  deriving DecidableEq

/-- A call of `Wakeup` with an entry.  `caller` is the processor on which it is made by a coroutine,
and `ran` counts the calls of the functor. -/
structure Wakeup where
  caller : Option Nat
  task : Nat
  id : Nat
  place : WakeupPlace
  ran : Nat
  deriving DecidableEq

/-- Where `AddTask(Task*)` is after it has stored its packet. -/
inductive AdderPlace where
  | waiting
  | notify
  | flag
  | done
  deriving DecidableEq

structure Adder where
  proc : Nat
  place : AdderPlace
  deriving DecidableEq

@[ext] structure State where
  created : Nat
  taskState : Nat → TaskState
  proc : Nat → Option Nat
  suspendId : Nat → Nat
  check : Nat → Option Queue
  reference : Nat → Int
  collected : Nat → Bool
  deletions : Nat → Nat
  queues : Queue → List Nat
  runningTask : Nat → Option Nat
  nextTask : Nat → Option Nat
  addNewQuota : Nat → Nat
  notified : Nat → Bool
  waiting : Nat → Bool
  place : Nat → Place
  wakeups : List Wakeup
  adders : List Adder
  entries : List (Nat × Nat)
  stealing : Nat → Option (Nat × Nat)
  taskCount : Nat
  stop : Bool

namespace State

variable (s : State)

def initial : State where
  created := 0
  taskState _ := .runnable
  proc _ := none
  suspendId _ := 0
  check _ := none
  reference _ := 0
  collected _ := false
  deletions _ := 0
  queues _ := []
  runningTask _ := none
  nextTask _ := none
  addNewQuota _ := 0
  notified _ := false
  waiting _ := false
  place _ := .loop
  wakeups := []
  adders := []
  entries := []
  stealing _ := none
  taskCount := 0
  stop := false

/-! ## References and lists -/

def incRef (t : Nat) : State :=
  { s with reference := Function.update s.reference t (s.reference t + 1) }

/-- `DecrementRef`, with `DeleteTask`. -/
def decRef (t : Nat) : State :=
  let s := { s with reference := Function.update s.reference t (s.reference t - 1) }
  if s.reference t = 0 then
    { s with
      deletions := Function.update s.deletions t (s.deletions t + 1)
      taskCount := (s.taskCount + 2 ^ 32 - 1) % 2 ^ 32 }
  else s

def setQueue (q : Queue) (tasks : List Nat) : State :=
  { s with queues := Function.update s.queues q tasks }

def setCheck (t : Nat) (check : Option Queue) : State :=
  { s with check := Function.update s.check t check }

def goto (p : Nat) (place : Place) : State :=
  { s with place := Function.update s.place p place }

/-- `pushWithoutLock(element, false)`. -/
def link (q : Queue) (t : Nat) : State :=
  (s.setQueue q (s.queues q ++ [t])).setCheck t (some q)

/-- `pushWithoutLock(element)`. -/
def push (q : Queue) (t : Nat) : State := (s.link q t).incRef t

/-- `eraseWithoutLock(hook, false, false)`. -/
def unlink (q : Queue) (t : Nat) : Option State :=
  if t ∈ s.queues q then some ((s.setQueue q ((s.queues q).erase t)).setCheck t none) else none

/-- `eraseWithoutLock(hook)`. -/
def erase (q : Queue) (t : Nat) : Option State := (s.unlink q t).map (·.decRef t)

/-- `if (out) out->check_ = check_`. -/
def mark (q : Queue) : Option Nat → State
  | none => s
  | some t => s.setCheck t (some q)

/-- `cv_.notify_all()`. -/
def notifyAll (p : Nat) : State :=
  if s.place p = .blocked then s.goto p .woken else s

/-- What `NotifyCondition` and `AddTask(SList<Task>&&)` do under the lock of `newQueue_`. -/
def notifyCondition (p : Nat) : State :=
  if s.waiting p then s.notifyAll p
  else { s with notified := Function.update s.notified p true }

/-! ## The thread of a processor -/

/-- `runnableQueue_.front(runningTask_)`, with the place where an empty queue leads to. -/
def front (p : Nat) (empty : Place) : State :=
  let out := (s.queues (.runnable p)).head?
  let s := { s.mark (.runnable p) out with runningTask := Function.update s.runningTask p out }
  match out with
  | none => s.goto p empty
  | some _ => { s with addNewQuota := Function.update s.addNewQuota p 1 }.goto p .inner

/-- `runningTask_ = task`, up to the head of a loop. -/
def proceed (p : Nat) (task : Option Nat) : State :=
  { s with runningTask := Function.update s.runningTask p task }.goto p
    (if task = none then .loop else .inner)

/-- The loop of `AddNewTasks`, with `n` packets to go. -/
def adding (p : Nat) (after : AfterAdd) (n : Nat) : State :=
  match n, s.queues (.up p) with
  | n + 1, t :: rest => ((s.setQueue (.up p) rest).push (.runnable p) t).goto p (.adding after n)
  | _, _ => s.goto p after.place

/-- `gcQueue_.pop_all()`. -/
def popAll (p : Nat) (after : AfterGC) : State :=
  ((s.setQueue (.garbage p) (s.queues (.gc p))).setQueue (.gc p) []).goto p
    (.release after (s.queues (.gc p)))

/-- The first loop of `GC`. -/
def release (p : Nat) (after : AfterGC) : List Nat → State
  | [] => s.goto p (.clear after)
  | t :: rest =>
    ({ s with collected := Function.update s.collected t true }.decRef t).goto p (.release after rest)

/-- `list.clear()`. -/
def clear (p : Nat) (after : AfterGC) : State :=
  match s.queues (.garbage p) with
  | [] => s.goto p after.place
  | t :: rest => ((s.setQueue (.garbage p) rest).decRef t).goto p (.clear after)

/-- `WaitCondition` after `GC`. -/
def condition (p : Nat) : State :=
  if s.notified p then
    { s with notified := Function.update s.notified p false }.goto p (.addNew .loop)
  else { s with waiting := Function.update s.waiting p true }.goto p .blocked

/-- The start of the inner loop, until the coroutine runs. -/
def swapIn (p : Nat) : Option State :=
  (s.runningTask p).map fun t =>
    { s with
      taskState := Function.update s.taskState t .runnable
      proc := Function.update s.proc t (some p) }.goto p .running

/-- The section of `SuspendBySelf`. -/
def suspendBySelf (p : Nat) : Option State :=
  (s.runningTask p).bind fun t =>
    let nextTask := next (s.queues (.runnable p)) t
    let s := { s.mark (.runnable p) nextTask with
      nextTask := Function.update s.nextTask p nextTask }
    (s.unlink (.runnable p) t).map fun s =>
      { s.link (.wait p) t with entries := s.entries ++ [(t, s.suspendId t)] }.goto p .running

/-- `case TaskState::runnable`. -/
def caseRunnable (p t : Nat) : State :=
  match next (s.queues (.runnable p)) t with
  | some u => (s.setCheck u (some (.runnable p))).proceed p (some u)
  | none =>
    if s.addNewQuota p < 1 ∨ s.queues (.new p) = [] then s.proceed p none
    else s.goto p (.addNew .nextRunnable)

/-- `runningTask_ = nextTask_` and `nextTask_ = nullptr`. -/
def takeNext (p : Nat) : State :=
  { s.proceed p (s.nextTask p) with nextTask := Function.update s.nextTask p none }

/-- The `switch`. -/
def switch (p : Nat) : Option State :=
  (s.runningTask p).map fun t =>
    match s.taskState t with
    | .runnable => s.caseRunnable p t
    | .block => s.takeNext p
    | .done => s.goto p .next

/-- `runnableQueue_.next(runningTask_, nextTask_)`. -/
def toNext (p : Nat) : Option State :=
  (s.runningTask p).map fun t =>
    let out := next (s.queues (.runnable p)) t
    { s.mark (.runnable p) out with nextTask := Function.update s.nextTask p out }

def useQuota (p : Nat) : State :=
  { s with addNewQuota := Function.update s.addNewQuota p (s.addNewQuota p - 1) }

/-- The next section of the thread of `p`. -/
def thread (p : Nat) : Option State :=
  match s.place p with
  | .loop => some (s.goto p (if s.stop then .stopped else .front))
  | .front => some (s.front p (.addNew .frontAgain))
  | .frontAgain => some (s.front p (.pop .condition))
  | .addNew after => some (s.goto p (.adding after (s.queues (.up p)).length))
  | .adding after n => some (s.adding p after n)
  | .pop after => some (s.popAll p after)
  | .release after rest => some (s.release p after rest)
  | .clear after => some (s.clear p after)
  | .condition => some (s.condition p)
  | .woken => some ({ s with waiting := Function.update s.waiting p false }.goto p (.addNew .loop))
  | .inner => some (s.goto p (if s.stop then .stopped else .swapIn))
  | .swapIn => s.swapIn p
  | .suspending => s.suspendBySelf p
  | .switch => s.switch p
  | .nextRunnable =>
    (s.runningTask p).map fun t =>
      let out := next (s.queues (.runnable p)) t
      ((s.mark (.runnable p) out).useQuota p).proceed p out
  | .next =>
    (s.toNext p).map fun s =>
      s.goto p (if s.nextTask p = none ∧ 0 < s.addNewQuota p then .addNew .nextAgain else .erase)
  | .nextAgain => (s.toNext p).map fun s => (s.useQuota p).goto p .erase
  | .erase =>
    (s.runningTask p).bind fun t => (s.erase (.runnable p) t).map fun s =>
      s.goto p (if 16 < (s.queues (.gc p)).length then .pop .push else .push)
  | .push => (s.runningTask p).map fun t => (s.push (.gc p) t).goto p .finish
  | .finish => some (s.takeNext p)
  | .blocked => some s
  | .running => some s
  | .stopped => some s

/-! ## The other calls -/

def setWakeup (k : Nat) (w : Wakeup) : State := { s with wakeups := s.wakeups.set k w }

/-- The section of `WakeupBySelf` under the lock of the two queues. -/
def wakeupBySelf (k : Nat) (w : Wakeup) (p : Nat) : Option State :=
  if w.id ≠ s.suspendId w.task then some (s.setWakeup k { w with place := .drop false })
  else
    let s := { s with
      suspendId := Function.update s.suspendId w.task ((s.suspendId w.task + 1) % 2 ^ 64) }
    (s.unlink (.wait p) w.task).map fun s =>
      let s := s.link (.runnable p) w.task
      s.setWakeup k { w with
        ran := w.ran + 1
        place := if (s.queues (.runnable p)).length = 1 ∧ w.caller ≠ some p then .notify p
          else .drop true }

/-- The next step of the `k`-th call of `Wakeup`. -/
def wakeup (k : Nat) (w : Wakeup) : Option State :=
  match w.place with
  | .lock =>
    some (if s.reference w.task = 0 then s.setWakeup k { w with place := .done false }
      else (s.incRef w.task).setWakeup k { w with place := .proc })
  | .proc =>
    some (s.setWakeup k { w with
      place := match s.proc w.task with
        | none => .drop false
        | some p => .check p })
  | .check p =>
    some (s.setWakeup k { w with
      place := if w.id ≠ s.suspendId w.task then .drop false else .locked p })
  | .locked p => s.wakeupBySelf k w p
  | .notify p => some ((s.notifyCondition p).setWakeup k { w with place := .drop true })
  | .drop result => some ((s.decRef w.task).setWakeup k { w with place := .done result })
  | .done _ => some s

def setAdder (k : Nat) (a : Adder) : State := { s with adders := s.adders.set k a }

/-- The next step of the `k`-th call of `AddTask(Task*)`, which holds no lock. -/
def adder (k : Nat) (a : Adder) : State :=
  match a.place with
  | .waiting => s.setAdder k { a with place := if s.waiting a.proc then .notify else .flag }
  | .notify => (s.notifyAll a.proc).setAdder k { a with place := .done }
  | .flag =>
    { s with notified := Function.update s.notified a.proc true }.setAdder k { a with place := .done }
  | .done => s

/-- `CreateTask`, up to where its packet is in the up-queue of `p`. -/
def create (p : Nat) : State :=
  let t := s.created
  { s with
    created := t + 1
    taskState := Function.update s.taskState t .runnable
    proc := Function.update s.proc t none
    suspendId := Function.update s.suspendId t 0
    check := Function.update s.check t none
    reference := Function.update s.reference t 1
    collected := Function.update s.collected t false
    deletions := Function.update s.deletions t 0
    queues := Function.update s.queues (.up p) (s.queues (.up p) ++ [t])
    adders := s.adders ++ [⟨p, .waiting⟩]
    taskCount := (s.taskCount + 1) % 2 ^ 32 }

/-! ### `Steal` -/

/-- `pop_back(n)`: what stays, and what is taken.  `n` becomes a `uint32_t`, and the loop starts
with one element. -/
def popBack (n : Nat) (tasks : List Nat) : List Nat × List Nat :=
  let c := max 1 (n % 2 ^ 32)
  (tasks.take (tasks.length - c), tasks.drop (tasks.length - c))

/-- `pop_back(n)`, or `pop_all()` when `n` is zero. -/
def popSome (n : Nat) (tasks : List Nat) : List Nat × List Nat :=
  if n = 0 then ([], tasks) else popBack n tasks

/-- The section of `Steal(n)` under the lock of `newQueue_`, into the list `k`. -/
def steal (k p n : Nat) : State :=
  let r := popSome n (s.queues (.new p))
  let s := (s.setQueue (.new p) r.1).setQueue (.stolen k) r.2
  if n ≠ 0 ∧ n ≤ r.2.length then s
  else { s with stealing := Function.update s.stealing k (some (p, n)) }

/-- `runnableQueue_.eraseWithoutLock(task, true) || slist.erase(task, newQueue_.check_)`. -/
def eraseSelf (k p : Nat) : Option Nat → Option (Bool × State)
  | none => some (false, s)
  | some t =>
    if s.check t = some (.runnable p) then (s.erase (.runnable p) t).map fun s => (true, s)
    else if s.check t = some (.new p) then
      if t ∈ s.queues (.stolen k) then
        some (true, (s.setQueue (.stolen k) ((s.queues (.stolen k)).erase t)).decRef t)
      else none
    else some (false, s)

/-- `if (erased) runnableQueue_.pushWithoutLock(task)`. -/
def pushSelf (p : Nat) (erased : Bool) : Option Nat → State
  | none => s
  | some t => if erased then s.push (.runnable p) t else s

/-- The section of `Steal(n)` under the lock of `runnableQueue_`. -/
def stealRest (k p n : Nat) : Option State :=
  (s.eraseSelf k p (s.runningTask p)).bind fun r =>
    (r.2.eraseSelf k p (s.nextTask p)).map fun r' =>
      let slist := r'.2.queues (.stolen k)
      let slist2 := popSome (n - slist.length) (r'.2.queues (.runnable p))
      let s' := ((r'.2.setQueue (.runnable p) slist2.1).setQueue (.stolen k) (slist2.2 ++ slist))
      let s' := (s'.pushSelf p r.1 (s.runningTask p)).pushSelf p r'.1 (s.nextTask p)
      { s' with stealing := Function.update s'.stealing k none }

/-! ### The lists of the dispatcher -/

def append (k k' : Nat) : State :=
  (s.setQueue (.stolen k) (s.queues (.stolen k) ++ s.queues (.stolen k'))).setQueue (.stolen k') []

def cut (k k' n : Nat) : State :=
  (s.setQueue (.stolen k') ((s.queues (.stolen k)).take n)).setQueue (.stolen k)
    ((s.queues (.stolen k)).drop n)

/-- `AddTask(SList<Task>&&)`. -/
def addTask (k p : Nat) : State :=
  ((s.setQueue (.new p) (s.queues (.new p) ++ s.queues (.stolen k))).setQueue (.stolen k)
    []).notifyCondition p

end State

/-! ## The machine -/

inductive Action where
  | create (p : Nat)
  | adder (k : Nat)
  | thread (p : Nat)
  | yield (p : Nat)
  | suspend (p : Nat)
  | finish (p : Nat)
  | spurious (p : Nat)
  | wake (caller : Option Nat) (t id : Nat)
  | wakeup (k : Nat)
  | steal (k p n : Nat)
  | stealRest (k : Nat)
  | append (k k' : Nat)
  | cut (k k' n : Nat)
  | addTask (k p : Nat)
  | notify (p : Nat)
  | stop

/-- The coroutine on `p` is not in a call of `Wakeup`. -/
def Free (s : State) (p : Nat) : Bool :=
  s.wakeups.all fun w => w.caller ≠ some p || w.place matches .done _

/-- The coroutine on `p` has not suspended itself. -/
def Runs (s : State) (p : Nat) : Bool :=
  (s.runningTask p).any fun t => s.taskState t = .runnable

/-- A coroutine that has suspended itself yields before it ends. -/
def Enabled (s : State) : Action → Bool
  | .create _ => true
  | .adder k => k < s.adders.length
  | .thread p => s.place p ≠ .blocked && s.place p ≠ .running && s.place p ≠ .stopped
  | .yield p => s.place p = .running && Free s p
  | .suspend p => s.place p = .running && Free s p && Runs s p
  | .finish p => s.place p = .running && Free s p && Runs s p
  | .spurious p => s.place p = .blocked
  | .wake caller t id =>
    s.entries.contains (t, id) && caller.all fun p => s.place p = .running && Free s p
  | .wakeup k => k < s.wakeups.length
  | .steal k _ _ => s.queues (.stolen k) = [] && s.stealing k = none
  | .stealRest k => s.stealing k ≠ none
  | .append k k' => k ≠ k' && s.stealing k = none && s.stealing k' = none
  | .cut k k' _ =>
    k ≠ k' && s.stealing k = none && s.stealing k' = none && s.queues (.stolen k') = []
  | .addTask k _ => s.stealing k = none
  | .notify _ => true
  | .stop => true

def step (s : State) : Action → Option State
  | .create p => some (s.create p)
  | .adder k => (s.adders[k]?).map (s.adder k)
  | .thread p => s.thread p
  | .yield p => some (s.goto p .switch)
  | .suspend p =>
    (s.runningTask p).map fun t =>
      { s with
        taskState := Function.update s.taskState t .block
        suspendId := Function.update s.suspendId t ((s.suspendId t + 1) % 2 ^ 64) }.goto p
          .suspending
  | .finish p =>
    (s.runningTask p).map fun t =>
      { s with taskState := Function.update s.taskState t .done }.goto p .switch
  | .spurious p => some (s.goto p .woken)
  | .wake caller t id => some { s with wakeups := s.wakeups ++ [⟨caller, t, id, .lock, 0⟩] }
  | .wakeup k => (s.wakeups[k]?).bind (s.wakeup k)
  | .steal k p n => some (s.steal k p n)
  | .stealRest k => (s.stealing k).bind fun r => s.stealRest k r.1 r.2
  | .append k k' => some (s.append k k')
  | .cut k k' n => some (s.cut k k' n)
  | .addTask k p => some (s.addTask k p)
  | .notify p => some (s.notifyCondition p)
  | .stop => some { s with stop := true }

def machine : Machine State Action where
  enabled s a := Enabled s a = true
  step := step

instance (s : State) (a : Action) : Decidable (machine.enabled s a) :=
  inferInstanceAs (Decidable (Enabled s a = true))

end Costream.Scheduler
