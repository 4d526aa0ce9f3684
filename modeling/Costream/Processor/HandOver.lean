import Costream.Processor.UpQueue
import Costream.Scheduler.Steal

/-!
# Tasks handed over to a processor

A processor gets tasks by two ways.  `AddTask(Task*)` sends them through the up-queue, and
`AddTask(SList<Task>&&)` puts them into `newQueue_`.  `AddNewTasks` looks at the up-queue only, so
what is in `newQueue_` stays there unless it is stolen.

The calls come one after the other.  `front`, `yield` and `finish` are what the thread of the
processor does to its running task in between; `nextTask_` is set within `finish` only.
-/

namespace Costream.Processor

open Scheduler

namespace HandOver

inductive Call where
  | addTask (tk : Task)
  | addTasks (slist : List Task)
  | steal (n : Nat)
  | addNewTasks
  | front
  | yield
  | finish
  deriving DecidableEq

/-- `handed`, `stolen` and `ran` are the tasks of `AddTask(SList<Task>&&)`, those that have been
stolen, and those that have run. -/
structure State where
  up : UpQueue
  runnable : List Task
  new : List Task
  running : Option Task
  handed : List Task
  stolen : List Task
  ran : List Task

def initial (queue : SoftQueue) : State := ⟨⟨queue, [], []⟩, [], [], none, [], [], []⟩

namespace State

variable (s : State)

/-- `AddTask(SList<Task>&&)`. -/
def addTasks (slist : List Task) : State :=
  { s with new := s.new ++ slist, handed := s.handed ++ slist }

/-- The running task as `Steal` takes it out of `runnableQueue_` and puts it back. -/
def own : List Task := s.running.toList.filter (· ∈ s.runnable)

/-- `Steal`. -/
def steal (n : Nat) : State :=
  let slist := Scheduler.State.popSome n s.new
  if n ≠ 0 ∧ n ≤ slist.2.length then { s with new := slist.1, stolen := s.stolen ++ slist.2 }
  else
    let slist2 := Scheduler.State.popSome (n - slist.2.length) (s.runnable.diff s.own)
    { s with
      new := slist.1
      runnable := slist2.1 ++ s.own
      stolen := s.stolen ++ (slist2.2 ++ slist.2) }

/-- `AddNewTasks`: what it has pushed is at the end of `runnableQueue_`. -/
def addNewTasks : Option State :=
  s.up.addNewTasks.map fun up =>
    { s with up := up, runnable := s.runnable ++ up.pushed.drop s.up.pushed.length }

/-- `runnableQueue_.front(runningTask_)`. -/
def front : State := { s with running := s.runnable.head? }

/-- The running task yields, and the next one runs. -/
def yield : State := { s with running := s.running.bind (Lists.next s.runnable) }

/-- The running task ends, and the next one runs. -/
def finish : State :=
  match s.running with
  | none => s
  | some tk =>
    { s with
      running := Lists.next s.runnable tk
      runnable := s.runnable.erase tk
      ran := s.ran ++ [tk] }

def step : Call → Option State
  | .addTask tk => (s.up.addTask tk).map fun up => { s with up := up }
  | .addTasks slist => some (s.addTasks slist)
  | .steal n => some (s.steal n)
  | .addNewTasks => s.addNewTasks
  | .front => some s.front
  | .yield => some s.yield
  | .finish => some s.finish

/-- Every task that was handed over is in `runnableQueue_` once, or has run or been stolen. -/
def Complete : Prop := (s.up.added ++ s.handed).Perm (s.stolen ++ s.ran ++ s.runnable)

/-- No call touches memory that is not there, and after each `AddNewTasks` all tasks are found. -/
def DeliversFrom (s : State) : List Call → Prop
  | [] => True
  | call :: rest => ∃ s', s.step call = some s' ∧ (call = .addNewTasks → s'.Complete) ∧
      s'.DeliversFrom rest

end State

/-- The calls on a new processor. -/
def Delivers (size : Nat) (contents : Nat → UInt8) (calls : List Call) : Prop :=
  ∃ q, SoftQueue.create size contents = some q ∧ (initial q).DeliversFrom calls

/-- The calls that the up-queue sees. -/
def Call.up : Call → Option Processor.Call
  | .addTask tk => some (.addTask tk)
  | .addNewTasks => some .addNewTasks
  | _ => none

/-- How many of `count` tasks in `newQueue_` are left by `Steal(n)`. -/
def left (n count : Nat) : Nat := if n = 0 then 0 else count - max 1 (n % 2 ^ 32)

/-- `newQueue_`, with `count` tasks at first, is empty at each `AddNewTasks`: what was handed over
by list has been stolen before. -/
def NewEmpty : Nat → List Call → Prop
  | _, [] => True
  | count, .addTasks slist :: rest => NewEmpty (count + slist.length) rest
  | count, .steal n :: rest => NewEmpty (left n count) rest
  | count, .addNewTasks :: rest => count = 0 ∧ NewEmpty count rest
  | count, _ :: rest => NewEmpty count rest

/-! ## What is where -/

variable {s s' : State} {size n : Nat} {tk : Task} {calls : List Call} {slist : List Task}

/-- `pushed` is what has come to `runnableQueue_` from the up-queue. -/
structure Inv (size : Nat) (s : State) : Prop where
  up : s.up.Inv size
  all : (s.up.pushed ++ s.handed).Perm (s.stolen ++ s.ran ++ s.runnable ++ s.new)
  seated : ∀ tk, s.running = some tk → tk ∈ s.runnable

theorem popSome_length (n : Nat) (tasks : List Task) :
    (Scheduler.State.popSome n tasks).1.length = left n tasks.length := by
  unfold Scheduler.State.popSome left
  split
  · rfl
  · unfold Scheduler.State.popBack
    rw [List.length_take]
    omega

theorem Inv.addTasks (h : Inv size s) (slist : List Task) : Inv size (s.addTasks slist) := by
  refine ⟨h.up, List.perm_iff_count.2 fun i => ?_, h.seated⟩
  have hall := h.all.count_eq i
  simp only [State.addTasks, List.count_append] at hall ⊢
  omega

/-- The running task stays in `runnableQueue_`. -/
theorem Inv.own_eq (h : Inv size s) : s.own = s.running.toList := by
  unfold State.own
  rw [List.filter_eq_self]
  intro tk htk
  exact decide_eq_true (h.seated tk (Option.mem_toList.1 htk))

theorem Inv.own_perm (h : Inv size s) : (s.runnable.diff s.own ++ s.own).Perm s.runnable := by
  rw [h.own_eq]
  cases hr : s.running with
  | none => simp
  | some tk =>
    rw [Option.toList_some, List.diff_cons, List.diff_nil]
    exact List.perm_append_comm.trans (List.perm_cons_erase (h.seated tk hr)).symm

theorem Inv.steal (h : Inv size s) (n : Nat) :
    Inv size (s.steal n) ∧ (s.steal n).new.length = left n s.new.length := by
  unfold State.steal
  simp only
  have hnew := Scheduler.popSome_perm n s.new
  have hlen := popSome_length n s.new
  split
  · refine ⟨⟨h.up, List.perm_iff_count.2 fun i => ?_, h.seated⟩, hlen⟩
    have hall := h.all.count_eq i
    have hcount := hnew.count_eq i
    simp only [List.count_append] at hall hcount ⊢
    omega
  · have hrunnable := Scheduler.popSome_perm (n - (Scheduler.State.popSome n s.new).2.length)
      (s.runnable.diff s.own)
    refine ⟨⟨h.up, List.perm_iff_count.2 fun i => ?_, fun tk hr => ?_⟩, hlen⟩
    · have hall := h.all.count_eq i
      have hcount := hnew.count_eq i
      have hcount' := hrunnable.count_eq i
      have hown := h.own_perm.count_eq i
      simp only [List.count_append] at hall hcount hcount' hown ⊢
      omega
    · refine List.mem_append_right _ ?_
      rw [h.own_eq]
      exact Option.mem_toList.2 hr

theorem Inv.front (h : Inv size s) : Inv size s.front :=
  ⟨h.up, h.all, fun _ hr => List.mem_of_head? hr⟩

theorem Inv.yield (h : Inv size s) : Inv size s.yield := by
  refine ⟨h.up, h.all, fun tk hr => ?_⟩
  obtain ⟨t, -, hnext⟩ := Option.bind_eq_some_iff.1 hr
  exact Lists.mem_of_next hnext

theorem Inv.finish (h : Inv size s) : Inv size s.finish := by
  unfold State.finish
  cases hr : s.running with
  | none => exact h
  | some tk =>
    refine ⟨h.up, List.perm_iff_count.2 fun i => ?_, fun u hu => Lists.mem_erase_of_next hu⟩
    have hall := h.all.count_eq i
    have herase := (List.perm_cons_erase (h.seated tk hr)).count_eq i
    simp only [List.count_append, List.count_cons, List.count_nil] at hall herase ⊢
    omega

theorem addNewTasks_pushed {up up' : UpQueue} (h : up.addNewTasks = some up') :
    up.pushed <+: up'.pushed := by
  unfold UpQueue.addNewTasks at h
  simp only [Option.bind_eq_bind, Option.bind_eq_some_iff, Option.pure_def, Option.some.injEq] at h
  obtain ⟨⟨q', index', tasks⟩, -, heq⟩ := h
  rw [← heq]
  exact List.prefix_append _ _

/-- What `AddNewTasks` has pushed is in `runnableQueue_`, and `newQueue_` is as before. -/
theorem all_addNewTasks (h : Inv size s) (hs : s.addNewTasks = some s') :
    (s'.up.pushed ++ s'.handed).Perm (s'.stolen ++ s'.ran ++ s'.runnable ++ s'.new) ∧
      (∀ tk, s'.running = some tk → tk ∈ s'.runnable) ∧ s'.new = s.new := by
  obtain ⟨up', hup, heq⟩ := Option.map_eq_some_iff.1 hs
  have hpre := addNewTasks_pushed hup
  rw [← heq]
  refine ⟨List.perm_iff_count.2 fun i => ?_,
    fun tk hr => List.mem_append_left _ (h.seated tk hr), rfl⟩
  have hall := h.all.count_eq i
  obtain ⟨tasks, htasks⟩ := hpre
  rw [← htasks, List.drop_left]
  simp only [List.count_append] at hall ⊢
  omega

/-- All tasks are found if and only if the up-queue has given all of them and `newQueue_` is
empty. -/
theorem complete_iff
    (hall : (s.up.pushed ++ s.handed).Perm (s.stolen ++ s.ran ++ s.runnable ++ s.new))
    (hle : s.up.pushed.length ≤ s.up.added.length) (hpushed : s.up.pushed.length = s.up.added.length →
      s.up.pushed = s.up.added) :
    s.Complete ↔ s.up.pushed = s.up.added ∧ s.new = [] := by
  have hlen := hall.length_eq
  simp only [List.length_append] at hlen
  constructor
  · intro hcomplete
    have hlen' := hcomplete.length_eq
    simp only [List.length_append] at hlen'
    exact ⟨hpushed (by omega), List.length_eq_zero_iff.1 (by omega)⟩
  · intro hboth
    unfold State.Complete
    rw [← hboth.1]
    rw [hboth.2, List.append_nil] at hall
    exact hall

/-! ## The result -/

/-- The condition of the up-queue and that of `newQueue_`. -/
def Condition (size added count : Nat) (calls : List Call) : Prop :=
  8 * (added + adds (calls.filterMap Call.up)) ≤ 9 * size ∧
    ReadsFirstOnly added (calls.filterMap Call.up) ∧ NewEmpty count calls

theorem deliversFrom_cons {call : Call} {u : State} (hu : s.step call = some u) :
    s.DeliversFrom (call :: calls) ↔
      (call = .addNewTasks → u.Complete) ∧ u.DeliversFrom calls := by
  constructor
  · intro hdeliver
    obtain ⟨v, hv, hfound, hdeliver⟩ := hdeliver
    have heq : some u = some v := hu.symm.trans hv
    rw [Option.some.inj heq]
    exact ⟨hfound, hdeliver⟩
  · intro hboth
    exact ⟨u, hu, hboth.1, hboth.2⟩

/-- After any other call nothing has to be found. -/
theorem deliversFrom_other {call : Call} {u : State} (hu : s.step call = some u)
    (hne : call ≠ .addNewTasks) : s.DeliversFrom (call :: calls) ↔ u.DeliversFrom calls :=
  (deliversFrom_cons hu).trans (and_iff_right fun heq => absurd heq hne)

section Step

variable (ih : ∀ {u : State}, Inv size u →
  (u.DeliversFrom calls ↔ Condition size u.up.added.length u.new.length calls))

include ih

/-- A call that leaves the up-queue alone. -/
theorem other_iff {call : Call} {u : State} (hu : s.step call = some u)
    (hne : call ≠ .addNewTasks) (hinv : Inv size u) (hup : u.up = s.up) :
    s.DeliversFrom (call :: calls) ↔ Condition size s.up.added.length u.new.length calls := by
  rw [deliversFrom_other hu hne, ih hinv, hup]

theorem Inv.addTask_iff (h : Inv size s) (hpow : size.isPowerOfTwo) (hsize : size ≤ 2 ^ 25)
    (htk : tk < 2 ^ 64) : s.DeliversFrom (.addTask tk :: calls) ↔
      Condition size s.up.added.length s.new.length (.addTask tk :: calls) := by
  have hup : (Call.addTask tk :: calls).filterMap Call.up =
      .addTask tk :: calls.filterMap Call.up := rfl
  unfold Condition
  rw [hup, adds_addTask, readsFirstOnly_addTask]
  by_cases hroom : 8 * (s.up.added.length + 1) ≤ 9 * size
  · obtain ⟨up', hstep, hinv, hadded, hpushed⟩ := h.up.addTask hpow hsize htk hroom
    have h' : Inv size { s with up := up' } := by
      refine ⟨hinv, ?_, h.seated⟩
      show (up'.pushed ++ s.handed).Perm _
      rw [hpushed]
      exact h.all
    have hu : s.step (.addTask tk) = some { s with up := up' } := by
      rw [State.step, hstep]
      rfl
    have hlen : up'.added.length = s.up.added.length + 1 := by
      rw [hadded, List.length_append, List.length_singleton]
    have hadd : s.up.added.length + (adds (calls.filterMap Call.up) + 1) =
        up'.added.length + adds (calls.filterMap Call.up) := by omega
    rw [hadd, ← hlen]
    exact (deliversFrom_other hu (by simp)).trans (ih h')
  · -- the call writes behind the buffer
    have hnone := h.up.addTask_fault tk hpow hsize (by omega)
    constructor
    · intro hdeliver
      obtain ⟨v, hv, -⟩ := hdeliver
      rw [State.step, hnone] at hv
      cases hv
    · intro hcond
      omega

/-- At most one task has come through the up-queue. -/
theorem Inv.addNewTasks_first (h : Inv size s) (hsize : size ≤ 2 ^ 25)
    (hone : s.up.added.length ≤ 1) : s.DeliversFrom (.addNewTasks :: calls) ↔
      s.new.length = 0 ∧ Condition size s.up.added.length s.new.length calls := by
  obtain ⟨up', hstep, hinv, hadded, hpushed⟩ := h.up.addNewTasks hsize hone
  obtain ⟨u, hu⟩ : ∃ u, s.addNewTasks = some u := by
    unfold State.addNewTasks
    rw [hstep]
    exact ⟨_, rfl⟩
  obtain ⟨hall, hseated, hnew⟩ := all_addNewTasks h hu
  have huup : u.up = up' := by
    unfold State.addNewTasks at hu
    rw [hstep, Option.map_some, Option.some.injEq] at hu
    rw [← hu]
  have hcomplete := complete_iff hall (by rw [huup, hadded, hpushed])
    fun _ => by rw [huup, hadded, hpushed]
  rw [huup, hadded, hpushed, hnew, ← List.length_eq_zero_iff] at hcomplete
  have hiff := ih ⟨huup ▸ hinv, hall, hseated⟩
  rw [huup, hadded, hnew] at hiff
  have hstep' : s.step .addNewTasks = some u := hu
  rw [deliversFrom_cons hstep', hiff, hcomplete]
  simp only [forall_const, true_and]

theorem Inv.addNewTasks_iff (h : Inv size s) (hpow : size.isPowerOfTwo) (hsize : size ≤ 2 ^ 25) :
    s.DeliversFrom (.addNewTasks :: calls) ↔
      Condition size s.up.added.length s.new.length (.addNewTasks :: calls) := by
  have hup : (Call.addNewTasks :: calls).filterMap Call.up =
      .addNewTasks :: calls.filterMap Call.up := rfl
  unfold Condition
  rw [NewEmpty, hup, adds_addNewTasks, readsFirstOnly_addNewTasks]
  by_cases hone : s.up.added.length ≤ 1
  · rw [h.addNewTasks_first ih hsize hone, Condition, and_iff_right hone]
    exact and_left_comm.trans (and_congr_right fun _ => and_left_comm)
  · -- the second packet is not read, so it is not found
    constructor
    · intro hdeliver
      obtain ⟨v, hv, hfound, -⟩ := hdeliver
      have hpos : 0 < size := by
        obtain ⟨k, rfl⟩ := hpow
        exact Nat.two_pow_pos k
      obtain ⟨up', hstep, heq⟩ := Option.map_eq_some_iff.1 hv
      have hloss := h.up.addNewTasks_loss hpos hsize (by omega) hstep
      obtain ⟨hall, -, -⟩ := all_addNewTasks h hv
      have hvup : v.up = up' := by rw [← heq]
      have hcomplete := complete_iff hall (by rw [hvup]; omega) fun heq => by
        rw [hvup] at heq
        omega
      have hpushed := (hcomplete.1 (hfound rfl)).1
      rw [hvup] at hpushed
      rw [hpushed] at hloss
      exact absurd hloss (Nat.lt_irrefl _)
    · intro hcond
      exact absurd hcond.2.1.1 hone

end Step

theorem Inv.deliversFrom_iff (h : Inv size s) (hpow : size.isPowerOfTwo) (hsize : size ≤ 2 ^ 25)
    (htasks : ∀ tk, .addTask tk ∈ calls → tk < 2 ^ 64) :
    s.DeliversFrom calls ↔ Condition size s.up.added.length s.new.length calls := by
  induction calls generalizing s with
  | nil => exact ⟨fun _ => ⟨h.up.room, readsFirstOnly_nil, trivial⟩, fun _ => trivial⟩
  | cons call rest ih =>
    have hrest : ∀ {u : State}, Inv size u →
        (u.DeliversFrom rest ↔ Condition size u.up.added.length u.new.length rest) :=
      fun hinv => ih hinv fun tk htk => htasks tk (List.mem_cons_of_mem call htk)
    cases call with
    | addTask tk => exact h.addTask_iff hrest hpow hsize (htasks tk List.mem_cons_self)
    | addTasks slist =>
      refine Iff.trans (other_iff hrest rfl (by simp) (h.addTasks slist) rfl) ?_
      unfold Condition State.addTasks
      rw [NewEmpty, List.length_append]
      rfl
    | steal n =>
      obtain ⟨hinv, hlen⟩ := h.steal n
      have hup : (s.steal n).up = s.up := by
        unfold State.steal
        simp only
        split
        · rfl
        · rfl
      refine Iff.trans (other_iff hrest rfl (by simp) hinv hup) ?_
      rw [hlen]
      rfl
    | front => exact Iff.trans (other_iff hrest rfl (by simp) h.front rfl) Iff.rfl
    | yield => exact Iff.trans (other_iff hrest rfl (by simp) h.yield rfl) Iff.rfl
    | finish =>
      have hup : s.finish.up = s.up ∧ s.finish.new = s.new := by
        unfold State.finish
        split
        · exact ⟨rfl, rfl⟩
        · exact ⟨rfl, rfl⟩
      refine Iff.trans (other_iff hrest rfl (by simp) h.finish hup.1) ?_
      rw [hup.2]
      rfl
    | addNewTasks => exact h.addNewTasks_iff hrest hpow hsize

theorem initial_inv {q : SoftQueue} (h : UpQueue.Inv size ⟨q, [], []⟩) : Inv size (initial q) := by
  refine ⟨h, List.Perm.refl _, fun tk hr => ?_⟩
  cases hr

/-- For every size that is accepted and every sequence of calls. -/
theorem hand_over_iff {contents : Nat → UInt8} (hsize : Accepted size)
    (htasks : ∀ tk, .addTask tk ∈ calls → tk < 2 ^ 64) :
    Delivers size contents calls ↔ size ≤ 2 ^ 25 ∧ Condition size 0 0 calls := by
  obtain ⟨hne, hpow, -⟩ := hsize
  unfold Delivers
  by_cases hsmall : size ≤ 2 ^ 25
  · obtain ⟨q, hcreate, hinv⟩ := create_small contents (Nat.pos_of_ne_zero hne) hsmall
    have hiff := (initial_inv hinv).deliversFrom_iff hpow hsmall htasks
    constructor
    · intro hdeliver
      obtain ⟨q', hcreate', hdeliver⟩ := hdeliver
      have heq : some q = some q' := hcreate.symm.trans hcreate'
      rw [← Option.some.inj heq] at hdeliver
      exact ⟨hsmall, hiff.1 hdeliver⟩
    · intro hdeliver
      exact ⟨q, hcreate, hiff.2 hdeliver.2⟩
  · have hnone := create_large contents hpow (by omega)
    constructor
    · intro hdeliver
      obtain ⟨q', hcreate', -⟩ := hdeliver
      have hfault : none = some q' := hnone.symm.trans hcreate'
      cases hfault
    · intro hcond
      exact absurd hcond.1 hsmall

/-- A task that was handed over by list is stolen before the first `AddNewTasks`. -/
theorem hand_over_stolen : Delivers 2 (fun _ => 0)
    [.addTasks [4096], .addTask 8192, .steal 0, .addNewTasks, .front, .finish, .addNewTasks] := by
  refine (hand_over_iff ⟨by decide, ⟨1, rfl⟩, by decide⟩ fun tk htk => ?_).2
    ⟨by decide, by decide, ?_, rfl, rfl, trivial⟩
  · simp only [List.mem_cons, Call.addTask.injEq, reduceCtorEq, List.not_mem_nil, or_false,
      false_or] at htk
    rw [htk]
    decide
  · exact readsFirstOnly_addTask.2 (readsFirstOnly_addNewTasks.2 ⟨Nat.le_refl 1,
      readsFirstOnly_addNewTasks.2 ⟨Nat.le_refl 1, readsFirstOnly_nil⟩⟩)

/-- A task that was handed over by list stays in `newQueue_`. -/
theorem list_forgotten : ¬ ∀ size contents calls, Accepted size →
    (∀ tk, .addTask tk ∈ calls → tk < 2 ^ 64) → Delivers size contents calls := by
  intro hall
  have htasks : ∀ tk, .addTask tk ∈ [Call.addTasks [4096], .addNewTasks] → tk < 2 ^ 64 := by
    intro tk htk
    simp at htk
  have hpow : (1024 : Nat).isPowerOfTwo := ⟨10, rfl⟩
  obtain ⟨q, hcreate, hdeliver⟩ :=
    hall 1024 (fun _ => 0) _ ⟨by decide, hpow, by decide⟩ htasks
  obtain ⟨q', hcreate', hinv⟩ := create_small (fun _ => 0) (by decide : 0 < 1024) (by decide)
  have heq : some q = some q' := hcreate.symm.trans hcreate'
  rw [Option.some.inj heq] at hdeliver
  have hempty : NewEmpty 0 _ :=
    (((initial_inv hinv).deliversFrom_iff hpow (by decide) htasks).1 hdeliver).2.2
  exact absurd hempty.1 (by decide)

end HandOver

end Costream.Processor
