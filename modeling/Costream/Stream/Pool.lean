import Costream.Processor.Ring
import Costream.Trace
import Mathlib.Tactic.Common

/-!
# The queue pool of a `StreamPool`

`AcquireQueue` makes a queue for an agent and records it in `queue_pool_`, with the
agent and a count of one.  `ReleaseQueue` brings the count back to zero, destroys the
queue and takes it out.

* `PoolM` is the monad of the two functions: a call that fails leaves a state behind
  as well.  What the surroundings answer to a call of `AcquireQueue` is in `Answers`.
* `Inv` is the invariant of the pool: the recorded queues are those that are held,
  each with a count of one and without an agent.
* `pool_iff` says which calls keep the promise of the pool.  The record never gets
  its agent, and a null agent is dereferenced: so these are the releases, and those
  calls of `AcquireQueue` that make no queue for an agent that is there.
-/

namespace Costream.Stream.Pool

open Trace Memory Processor

/-! ## The code -/

/-- An `IAgent*` that is not null. -/
abbrev Agent := Nat

/-- An `IQueue*` that is not null. -/
abbrev Queue := Nat

/-- `QueueInfo`. -/
structure QueueInfo where
  agent : Option Agent
  refCount : Int
  hostcallBuffer : Option Nat

/-- `QueuePool_t`, a `std::map`. -/
abbrev QueuePool := Std.TreeMap Queue QueueInfo

inductive Status where
  | error
  | errorInvalidArgument
deriving DecidableEq

/-- How a call ends that does not return `SUCCESS`. -/
inductive Failure where
  | status (status : Status)
  | exception
  | assertion
  /-- A member function of an agent is called through a null pointer. -/
  | nullAgent
deriving DecidableEq

def queueTypeMulti : UInt32 := 0
def queueTypeSingle : UInt32 := 1
def queueTypeCooperative : UInt32 := 2

/-- What is settled when the code is built: `IsPowerOfTwo`, which the sources use and do not
define, and `sizeof(AqlPacket)`. -/
structure Build where
  isPowerOfTwo : UInt32 → Bool
  sizeofAqlPacket : Nat

/-- How a constructor ends whose own checks of the size do not fail. -/
inductive Construction where
  | object (queue : Queue)
  | exception
  | assertion
deriving DecidableEq

/-- What the surroundings answer to a call of `AcquireQueue`. -/
structure Answers where
  /-- `HSA_AGENT_INFO_QUEUE_MAX_SIZE`, if `GetInfo` returns `SUCCESS`. -/
  queueMaxSize : Option UInt32
  /-- `HSA_AGENT_INFO_QUEUE_TYPE`. -/
  queueType : UInt32
  construction : Construction

structure State where
  queuePool : QueuePool
  /-- The queues that there are. -/
  live : List Queue
  /-- The queues that `Destroy` has been called for, the last one first. -/
  destroyed : List Queue
  /-- The queues that have been acquired and not released. -/
  held : List Queue

def State.initial : State := ⟨∅, [], [], []⟩

abbrev PoolM := ExceptT Failure (StateM State)

namespace Build

variable (b : Build)

def minBytes : Nat := 0x400
def maxBytes : Nat := 0x100000000

/-- `queue_size_bytes_`, as the constructor of `HardQueue` computes it. -/
def queueSizeBytes (ringSize : UInt32) : UInt32 :=
  let minPkts := UInt32.ofNat (minBytes / b.sizeofAqlPacket)
  let maxPkts := UInt32.ofNat (maxBytes / b.sizeofAqlPacket)
  let queueSizePkts := max (min ringSize maxPkts) minPkts
  UInt32.ofNat (queueSizePkts.toNat * b.sizeofAqlPacket)

/-- The constructor of `HardQueue` throws `ERROR_INVALID_QUEUE_CREATION`. -/
def refuses (ringSize : UInt32) : Bool :=
  b.queueSizeBytes ringSize &&& (b.queueSizeBytes ringSize - 1) ≠ 0

/-- A constructor has run. -/
def construct : Construction → PoolM Queue
  | .object queue => do
    modify fun s => { s with live := queue :: s.live }
    return queue
  | .exception => throw .exception
  | .assertion => throw .assertion

def newHardQueue (ringSize : UInt32) (construction : Construction) : PoolM Queue := do
  if b.refuses ringSize then throw .exception
  construct construction

/-- `new SoftQueue`, with the signal that `CreateSignal` makes for it. -/
def newSoftQueue (construction : Construction) : PoolM Queue := construct construction

def createQueue (agent : Option Agent) (size type : UInt32) (answers : Answers) :
    PoolM Queue := do
  if size = 0 ∨ ¬ b.isPowerOfTwo size ∨ queueTypeCooperative < type then
    throw (.status .errorInvalidArgument)
  match agent with
  | some _ =>
    unless answers.queueType = queueTypeSingle ∧ type ≠ queueTypeSingle do throw .assertion
    b.newHardQueue size answers.construction
  | none => newSoftQueue answers.construction

/-- `agent->GetInfo(HSA_AGENT_INFO_QUEUE_MAX_SIZE, ..)`. -/
def getQueueMaxSize (agent : Option Agent) (answers : Answers) : PoolM UInt32 :=
  match agent, answers.queueMaxSize with
  | none, _ => throw .nullAgent
  | some _, none => throw (.status .error)
  | some _, some size => return size

/-- `AcquireQueue`, after the loop over the pool. -/
def acquireNewQueue (agent : Option Agent) (queueSizeHint : UInt32) (answers : Answers) :
    PoolM Queue := do
  let queueMaxPackets ← getQueueMaxSize agent answers
  let queueSize := if queueMaxPackets < queueSizeHint then queueMaxPackets else queueSizeHint
  let queue ← b.createQueue agent queueSize queueTypeMulti answers
  modify fun s => { s with queuePool := s.queuePool.insertIfNew queue ⟨none, 0, none⟩ }
  modify fun s => { s with queuePool := s.queuePool.modify queue ({ · with refCount := 1 }) }
  return queue

def acquireQueue (agent : Option Agent) (queueSizeHint : UInt32) (answers : Answers) :
    PoolM Queue := do
  match (← get).queuePool.toList.find? fun itr => itr.2.agent = agent ∧ itr.2.refCount ≤ 0 with
  | some itr => return itr.1
  | none => b.acquireNewQueue agent queueSizeHint answers

end Build

def destroyQueue (queue : Queue) : PoolM Unit :=
  modify fun s =>
    { s with live := s.live.erase queue, destroyed := queue :: s.destroyed }

def releaseQueue (queue : Queue) : PoolM Unit := do
  match (← get).queuePool[queue]? with
  | none => throw .assertion
  | some info =>
    unless 0 < info.refCount do throw .assertion
    modify fun s =>
      { s with queuePool := s.queuePool.modify queue fun i => { i with refCount := i.refCount - 1 } }
    if info.refCount - 1 ≠ 0 then return
    destroyQueue queue
    modify fun s => { s with queuePool := s.queuePool.erase queue }

inductive Call where
  | acquire (agent : Option Agent) (queueSizeHint : UInt32) (answers : Answers)
  | release (queue : Queue)

/-- A queue is constructed where there is none, and a queue is released by who holds it. -/
def State.enabled (s : State) : Call → Bool
  | .acquire _ _ answers =>
    match answers.construction with
    | .object queue => queue ∉ s.live
    | _ => true
  | .release queue => queue ∈ s.held

/-- A call that returns, or throws, leaves the pool usable. -/
def State.next (b : Build) (s : State) : Call → Option State
  | .acquire agent queueSizeHint answers =>
    match (b.acquireQueue agent queueSizeHint answers).run s with
    | (.ok queue, t) => some { t with held := queue :: t.held }
    | (.error (.status _), t) => some t
    | (.error .exception, t) => some t
    | (.error .assertion, _) => none
    | (.error .nullAgent, _) => none
  | .release queue =>
    match (releaseQueue queue).run s with
    | (.ok _, t) => some { t with held := t.held.erase queue }
    | (.error _, _) => none

def machine (b : Build) : Machine State Call where
  enabled s call := s.enabled call = true
  step s call := s.next b call

instance (b : Build) (s : State) (call : Call) : Decidable ((machine b).enabled s call) :=
  inferInstanceAs (Decidable (s.enabled call = true))

/-! ## What is promised -/

/-- What `AcquireQueue` may leave behind.  The queue that it returns is recorded once, for its agent
and with a count of one, and nobody else holds it; if it fails the pool is as before. -/
def Acquired (s : State) (agent : Option Agent) : Except Failure Queue × State → Prop
  | (.ok queue, t) =>
    t.queuePool.keys.count queue = 1 ∧
      (∃ info, t.queuePool[queue]? = some info ∧ info.agent = agent ∧ info.refCount = 1) ∧
      queue ∉ s.held
  | (.error .nullAgent, _) => False
  | (.error _, t) => t.queuePool = s.queuePool

/-- What `ReleaseQueue` may leave behind: it has destroyed the queue once, and has taken out its
record and no other. -/
def Released (s : State) (queue : Queue) : Except Failure Unit × State → Prop
  | (.ok _, t) =>
    t.destroyed = queue :: s.destroyed ∧ queue ∉ t.queuePool ∧
      ∀ other, other ≠ queue → t.queuePool[other]? = s.queuePool[other]?
  | (.error _, _) => False

/-- The call keeps the promise of the pool. -/
def Keeps (b : Build) (s : State) : Call → Prop
  | .acquire agent queueSizeHint answers =>
    Acquired s agent ((b.acquireQueue agent queueSizeHint answers).run s)
  | .release queue => Released s queue ((releaseQueue queue).run s)

/-- A queue of this size can be made for an agent. -/
def Makes (b : Build) (size : UInt32) (answers : Answers) : Prop :=
  size ≠ 0 ∧ b.isPowerOfTwo size = true ∧ answers.queueType = queueTypeSingle ∧
    b.refuses size = false ∧ ∃ queue, answers.construction = .object queue

/-- The call is a release, or it makes no queue for an agent that is there. -/
def Fits (b : Build) : Call → Prop
  | .acquire none _ _ => False
  | .acquire (some _) queueSizeHint answers =>
    ∀ size, answers.queueMaxSize = some size →
      ¬ Makes b (if size < queueSizeHint then size else queueSizeHint) answers
  | .release _ => True

/-- The recorded queues are those that are held, each with a count of one and without an agent. -/
structure Inv (s : State) : Prop where
  recorded : ∀ queue ∈ s.held, s.queuePool[queue]? = some ⟨none, 1, none⟩
  unrecorded : ∀ queue, queue ∉ s.held → s.queuePool[queue]? = none
  nodup : s.held.Nodup
  live : ∀ queue ∈ s.held, queue ∈ s.live

theorem Inv.initial : Inv State.initial where
  recorded := by simp [State.initial]
  unrecorded := by simp [State.initial]
  nodup := List.nodup_nil
  live := by simp [State.initial]

variable {b : Build} {s t : State}

theorem run_bind_ok {α β : Type} {x : PoolM α} {f : α → PoolM β} {a : α}
    (h : x.run s = (.ok a, t)) : (x >>= f).run s = (f a).run t := by
  show ExceptT.bindCont f (x.run s).1 (x.run s).2 = _
  rw [h]
  rfl

theorem run_bind_error {α β : Type} {x : PoolM α} {f : α → PoolM β} {failure : Failure}
    (h : x.run s = (.error failure, t)) : (x >>= f).run s = (.error failure, t) := by
  show ExceptT.bindCont f (x.run s).1 (x.run s).2 = _
  rw [h]
  rfl

/-! ## `CreateQueue` -/

theorem newHardQueue_cases (size : UInt32) (construction : Construction) (s : State) :
    (∃ queue, construction = .object queue ∧ b.refuses size = false ∧
      (b.newHardQueue size construction).run s =
        (.ok queue, { s with live := queue :: s.live })) ∨
    (¬ (b.refuses size = false ∧ ∃ queue, construction = .object queue) ∧
      ∃ failure, failure ≠ .nullAgent ∧
        (b.newHardQueue size construction).run s = (.error failure, s)) := by
  unfold Build.newHardQueue
  cases b.refuses size with
  | true => exact .inr ⟨by simp, .exception, by simp, rfl⟩
  | false =>
    cases construction with
    | object queue => exact .inl ⟨queue, rfl, rfl, rfl⟩
    | exception => exact .inr ⟨by simp, .exception, by simp, rfl⟩
    | assertion => exact .inr ⟨by simp, .assertion, by simp, rfl⟩

/-- For an agent that is there, `CreateQueue` makes a queue, or fails and changes nothing. -/
theorem createQueue_cases (agent : Agent) (size : UInt32) (answers : Answers) (s : State) :
    (∃ queue, answers.construction = .object queue ∧ Makes b size answers ∧
      (b.createQueue (some agent) size queueTypeMulti answers).run s =
        (.ok queue, { s with live := queue :: s.live })) ∨
    (¬ Makes b size answers ∧ ∃ failure, failure ≠ .nullAgent ∧
      (b.createQueue (some agent) size queueTypeMulti answers).run s = (.error failure, s)) := by
  have htype : ¬ queueTypeCooperative < queueTypeMulti := by decide
  have hmulti : queueTypeMulti ≠ queueTypeSingle := by decide
  unfold Build.createQueue Makes
  by_cases hsize : size = 0 ∨ ¬ b.isPowerOfTwo size ∨ queueTypeCooperative < queueTypeMulti
  · rw [if_pos hsize]
    refine .inr ⟨fun h => ?_, .status .errorInvalidArgument, by simp, rfl⟩
    obtain hzero | hpower | htype' := hsize
    · exact h.1 hzero
    · exact hpower h.2.1
    · exact htype htype'
  · rw [if_neg hsize]
    rw [not_or, not_or, not_not] at hsize
    by_cases hagent : answers.queueType = queueTypeSingle
    · obtain ⟨queue, hq, hrefuses, hrun⟩ | ⟨hno, failure, hne, hrun⟩ :=
        newHardQueue_cases (b := b) size answers.construction s
      · refine .inl ⟨queue, hq, ⟨hsize.1, hsize.2.1, hagent, hrefuses, queue, hq⟩, ?_⟩
        rw [← hrun]
        simp [hagent, hmulti]
      · refine .inr ⟨fun h => hno h.2.2.2, failure, hne, ?_⟩
        rw [← hrun]
        simp [hagent, hmulti]
    · refine .inr ⟨fun h => hagent h.2.2.1, .assertion, by simp, ?_⟩
      simp [hagent]
      rfl

/-! ## `AcquireQueue` -/

theorem Inv.info (h : Inv s) {queue : Queue} {info : QueueInfo}
    (hinfo : s.queuePool[queue]? = some info) : queue ∈ s.held ∧ info = ⟨none, 1, none⟩ := by
  by_cases hheld : queue ∈ s.held
  · rw [h.recorded queue hheld, Option.some.injEq] at hinfo
    exact ⟨hheld, hinfo.symm⟩
  · rw [h.unrecorded queue hheld] at hinfo
    cases hinfo

/-- No queue of the pool is free to be used again. -/
theorem Inv.find (h : Inv s) (agent : Option Agent) :
    s.queuePool.toList.find? (fun itr => itr.2.agent = agent ∧ itr.2.refCount ≤ 0) = none := by
  rw [List.find?_eq_none]
  intro itr hitr hfree
  have hinfo := (Std.TreeMap.mem_toList_iff_getElem?_eq_some (k := itr.1) (v := itr.2)).1 hitr
  have hcount : itr.2.refCount = 1 := by rw [(h.info hinfo).2]
  have hle : itr.2.refCount ≤ 0 := (of_decide_eq_true hfree).2
  omega

/-- The record that `AcquireQueue` makes. -/
def record (pool : QueuePool) (queue : Queue) : QueuePool :=
  (pool.insertIfNew queue ⟨none, 0, none⟩).modify queue ({ · with refCount := 1 })

theorem compare_ne {queue other : Queue} (h : ¬ other = queue) : ¬ compare queue other = .eq := by
  rw [Std.LawfulEqCmp.compare_eq_iff_eq]
  exact fun heq => h heq.symm

theorem getElem?_record (pool : QueuePool) {queue : Queue} (hnew : pool[queue]? = none)
    (other : Queue) : (record pool queue)[other]? =
      if other = queue then some ⟨none, 1, none⟩ else pool[other]? := by
  have hmem : queue ∉ pool := by
    rw [← Std.TreeMap.isSome_getElem?_iff_mem, hnew]
    simp
  have heq : compare queue queue = .eq := Std.ReflCmp.compare_self
  unfold record
  rw [Std.TreeMap.getElem?_modify, Std.TreeMap.getElem?_insertIfNew,
    Std.TreeMap.getElem?_insertIfNew]
  by_cases hother : other = queue
  · subst hother
    rw [if_pos heq, if_pos ⟨heq, hmem⟩, if_pos rfl]
    rfl
  · have hne := compare_ne hother
    rw [if_neg hne, if_neg fun h => hne h.1, if_neg hother]

theorem acquireQueue_run (h : Inv s) (agent : Option Agent) (queueSizeHint : UInt32)
    (answers : Answers) :
    (b.acquireQueue agent queueSizeHint answers).run s =
      (b.acquireNewQueue agent queueSizeHint answers).run s := by
  show ExceptT.run (match s.queuePool.toList.find? fun itr =>
      itr.2.agent = agent ∧ itr.2.refCount ≤ 0 with
    | some itr => pure itr.1
    | none => b.acquireNewQueue agent queueSizeHint answers) s = _
  rw [h.find]

/-- A null agent is asked for its largest queue. -/
theorem acquireQueue_none (h : Inv s) (queueSizeHint : UInt32) (answers : Answers) :
    (b.acquireQueue none queueSizeHint answers).run s = (.error .nullAgent, s) := by
  rw [acquireQueue_run h]
  rfl

/-- For an agent that is there, `AcquireQueue` makes a queue and records it without its agent, or
fails and changes nothing. -/
theorem acquireQueue_some (h : Inv s) (agent : Agent) (queueSizeHint : UInt32)
    (answers : Answers) :
    (∃ queue, answers.construction = .object queue ∧
      ¬ Fits b (.acquire (some agent) queueSizeHint answers) ∧
      (b.acquireQueue (some agent) queueSizeHint answers).run s =
        (.ok queue, { s with live := queue :: s.live, queuePool := record s.queuePool queue })) ∨
    (Fits b (.acquire (some agent) queueSizeHint answers) ∧ ∃ failure, failure ≠ .nullAgent ∧
      (b.acquireQueue (some agent) queueSizeHint answers).run s = (.error failure, s)) := by
  rw [acquireQueue_run h]
  unfold Build.acquireNewQueue Fits
  cases hsize : answers.queueMaxSize with
  | none =>
    have hget : (Build.getQueueMaxSize (some agent) answers).run s = (.error (.status .error), s) := by
      simp only [Build.getQueueMaxSize, hsize]
      rfl
    exact .inr ⟨by simp [hsize], .status .error, by simp, run_bind_error hget⟩
  | some size =>
    have hget : (Build.getQueueMaxSize (some agent) answers).run s = (.ok size, s) := by
      simp only [Build.getQueueMaxSize, hsize]
      rfl
    rw [run_bind_ok hget]
    obtain ⟨queue, hq, hmakes, hrun⟩ | ⟨hno, failure, hne, hrun⟩ :=
      createQueue_cases (b := b) agent (if size < queueSizeHint then size else queueSizeHint)
        answers s
    · exact .inl ⟨queue, hq, fun hfits => hfits size hsize hmakes, run_bind_ok hrun⟩
    · refine .inr ⟨fun size' hsize' => ?_, failure, hne, run_bind_error hrun⟩
      rw [hsize, Option.some.injEq] at hsize'
      exact hsize' ▸ hno

/-! ## `ReleaseQueue` -/

theorem releaseQueue_run (h : Inv s) {queue : Queue} (hheld : queue ∈ s.held) :
    (releaseQueue queue).run s =
      (.ok (), { s with
        queuePool := (s.queuePool.modify queue fun i => { i with refCount := i.refCount - 1 }).erase
          queue
        live := s.live.erase queue
        destroyed := queue :: s.destroyed }) := by
  have hinfo := h.recorded queue hheld
  have hget : (get : PoolM State).run s = (.ok s, s) := rfl
  unfold releaseQueue
  rw [run_bind_ok hget, hinfo]
  rfl

theorem getElem?_unrecord (pool : QueuePool) (f : QueueInfo → QueueInfo) (queue other : Queue) :
    ((pool.modify queue f).erase queue)[other]? = if other = queue then none else pool[other]? := by
  rw [Std.TreeMap.getElem?_erase, Std.TreeMap.getElem?_modify]
  by_cases hother : other = queue
  · subst hother
    rw [if_pos Std.ReflCmp.compare_self, if_pos rfl]
  · have hne := compare_ne hother
    rw [if_neg hne, if_neg hne, if_neg hother]

/-! ## Runs -/

/-- A new queue is recorded and held. -/
theorem Inv.acquired (h : Inv s) {queue : Queue} (hnew : queue ∉ s.live) :
    Inv { s with
      live := queue :: s.live
      queuePool := record s.queuePool queue
      held := queue :: s.held } := by
  have hfree : queue ∉ s.held := fun hheld => hnew (h.live queue hheld)
  have hrecord := getElem?_record s.queuePool (h.unrecorded queue hfree)
  refine ⟨fun q hq => ?_, fun q hq => ?_, List.nodup_cons.2 ⟨hfree, h.nodup⟩, fun q hq => ?_⟩
  · rw [hrecord]
    split
    · rfl
    · rename_i hne
      exact h.recorded q ((List.mem_cons.1 hq).resolve_left hne)
  · rw [List.mem_cons, not_or] at hq
    rw [hrecord, if_neg hq.1]
    exact h.unrecorded q hq.2
  · obtain heq | hheld := List.mem_cons.1 hq
    · exact heq ▸ List.mem_cons_self
    · exact List.mem_cons_of_mem _ (h.live q hheld)

/-- A queue is no longer recorded or held. -/
theorem Inv.released (h : Inv s) (queue : Queue) (f : QueueInfo → QueueInfo) (log : List Queue) :
    Inv ⟨(s.queuePool.modify queue f).erase queue, s.live.erase queue, log,
      s.held.erase queue⟩ := by
  have hget := getElem?_unrecord s.queuePool f queue
  refine ⟨fun q hq => ?_, fun q hq => ?_, h.nodup.erase queue, fun q hq => ?_⟩
  · obtain ⟨hne, hheld⟩ := h.nodup.mem_erase_iff.1 hq
    rw [hget, if_neg hne]
    exact h.recorded q hheld
  · rw [hget]
    split
    · rfl
    · rename_i hne
      exact h.unrecorded q fun hheld => hq (h.nodup.mem_erase_iff.2 ⟨hne, hheld⟩)
  · obtain ⟨hne, hheld⟩ := h.nodup.mem_erase_iff.1 hq
    exact (List.mem_erase_of_ne hne).2 (h.live q hheld)

theorem State.enabled_acquire {agent : Option Agent} {queueSizeHint : UInt32} {answers : Answers}
    {queue : Queue} (henabled : s.enabled (.acquire agent queueSizeHint answers) = true)
    (hq : answers.construction = .object queue) : queue ∉ s.live := by
  rw [State.enabled, hq] at henabled
  exact of_decide_eq_true henabled

theorem Inv.next (h : Inv s) {call : Call} (henabled : s.enabled call = true)
    (hnext : s.next b call = some t) : Inv t := by
  cases call with
  | acquire agent queueSizeHint answers =>
    unfold State.next at hnext
    cases agent with
    | none =>
      simp only [acquireQueue_none h] at hnext
      cases hnext
    | some agent =>
      obtain ⟨queue, hq, _, hrun⟩ | ⟨_, failure, _, hrun⟩ :=
        acquireQueue_some (b := b) h agent queueSizeHint answers
      · simp only [hrun, Option.some.injEq] at hnext
        subst hnext
        exact h.acquired (State.enabled_acquire henabled hq)
      · simp only [hrun] at hnext
        cases failure with
        | status | exception =>
          cases hnext
          exact h
        | assertion | nullAgent => cases hnext
  | release queue =>
    have hheld : queue ∈ s.held := of_decide_eq_true henabled
    simp only [State.next, releaseQueue_run h hheld, Option.some.injEq] at hnext
    subst hnext
    exact h.released queue _ _

theorem Inv.of_run (hr : Run (machine b) anyAction State.initial s) : Inv s :=
  hr.invariant Inv.initial fun _ _ _ h henabled _ hnext => h.next henabled hnext

/-- Which calls keep the promise of the pool, whatever calls there have been before. -/
theorem pool_iff (hr : Run (machine b) anyAction State.initial s) {call : Call}
    (henabled : (machine b).enabled s call) : Keeps b s call ↔ Fits b call := by
  have h := Inv.of_run hr
  cases call with
  | acquire agent queueSizeHint answers =>
    rw [Keeps]
    cases agent with
    | none =>
      rw [acquireQueue_none h]
      exact Iff.rfl
    | some agent =>
      obtain ⟨queue, hq, hno, hrun⟩ | ⟨hfits, failure, hne, hrun⟩ :=
        acquireQueue_some (b := b) h agent queueSizeHint answers
      · -- The queue is made, and its record has no agent.
        have hfree : queue ∉ s.held := fun hheld =>
          State.enabled_acquire henabled hq (h.live queue hheld)
        have hrecord := getElem?_record s.queuePool (h.unrecorded queue hfree) queue
        rw [if_pos rfl] at hrecord
        refine iff_of_false ?_ hno
        rw [hrun]
        intro hacquired
        obtain ⟨info, hinfo, hagent, _⟩ := hacquired.2.1
        rw [hrecord, Option.some.injEq] at hinfo
        rw [← hinfo] at hagent
        cases hagent
      · refine iff_of_true ?_ hfits
        rw [hrun]
        cases failure with
        | nullAgent => exact absurd rfl hne
        | status | exception | assertion => rfl
  | release queue =>
    have hheld : queue ∈ s.held := of_decide_eq_true henabled
    have hget := getElem?_unrecord s.queuePool
      (fun i => { i with refCount := i.refCount - 1 }) queue
    have hself := hget queue
    rw [if_pos rfl] at hself
    refine iff_of_true ?_ trivial
    rw [Keeps, releaseQueue_run h hheld]
    refine ⟨rfl, fun hmem => ?_, fun other hother => ?_⟩
    · rw [← Std.TreeMap.isSome_getElem?_iff_mem, hself] at hmem
      cases hmem
    · rw [hget, if_neg hother]

/-- A power of two has one bit. -/
def oneBit (size : UInt32) : Bool := size &&& (size - 1) = 0

/-- If the packets had the size of a `task_packet_t`, a queue could be made for an agent.  It is
held, and its release keeps the promise. -/
theorem pool_iff_released : ∃ s, Run (machine ⟨oneBit, 64⟩) anyAction State.initial s ∧
    s.held = [7] ∧ (Keeps ⟨oneBit, 64⟩ s (.release 7) ↔ Fits ⟨oneBit, 64⟩ (.release 7)) := by
  have hexec : ((machine ⟨oneBit, 64⟩).exec anyAction State.initial
      [.acquire (some 0) 1024 ⟨some 4096, queueTypeSingle, .object 7⟩]).any
      (fun s => decide (s.held = [7])) = true := by decide +kernel
  obtain ⟨s, hr, hs⟩ := Run.exists_of_exec hexec
  have hheld := of_decide_eq_true hs
  have henabled : (machine ⟨oneBit, 64⟩).enabled s (.release 7) := by
    show decide (7 ∈ s.held) = true
    rw [hheld]
    rfl
  exact ⟨s, hr, hheld, pool_iff hr henabled⟩

/-- The build for x86-64. -/
def x86 : Build := ⟨oneBit, unionSize aqlPacket⟩

/-- `NewProcessThread` acquires a queue for a null agent. -/
theorem null_agent : ¬ ∀ (s : State) (call : Call), Run (machine x86) anyAction State.initial s →
    (machine x86).enabled s call → Keeps x86 s call := by
  intro hall
  have hkeeps := hall State.initial (.acquire none 1024 ⟨none, 0, .exception⟩) .refl rfl
  rw [Keeps, acquireQueue_none Inv.initial] at hkeeps
  exact hkeeps

/-! ## The size of a packet -/

/-- No power of two makes a size in bytes that the constructor of `HardQueue` accepts. -/
theorem refuses_aqlPacket (hsize : b.sizeofAqlPacket = unionSize aqlPacket) {k : Nat} (hk : k < 32) :
    b.refuses (UInt32.ofNat (2 ^ k)) = true := by
  have hall : ∀ k < 32, (⟨oneBit, 72⟩ : Build).refuses (UInt32.ofNat (2 ^ k)) = true := by
    decide +kernel
  have hk := hall k hk
  unfold Build.refuses Build.queueSizeBytes at hk ⊢
  rw [hsize]
  exact hk

/-- With packets of that size, the calls that do not fit are those for a null agent. -/
theorem fits_acquire_iff (hsize : b.sizeofAqlPacket = unionSize aqlPacket)
    (hpower : ∀ size, b.isPowerOfTwo size = true → size ≠ 0 →
      ∃ k < 32, size = UInt32.ofNat (2 ^ k))
    (agent : Option Agent) (queueSizeHint : UInt32) (answers : Answers) :
    Fits b (.acquire agent queueSizeHint answers) ↔ agent ≠ none := by
  cases agent with
  | none => simp [Fits]
  | some agent =>
    refine iff_of_true (fun size _ hmakes => ?_) (by simp)
    obtain ⟨hzero, hp, _, hrefuses, _⟩ := hmakes
    obtain ⟨k, hk, heq⟩ := hpower _ hp hzero
    rw [heq, refuses_aqlPacket hsize hk] at hrefuses
    cases hrefuses

end Costream.Stream.Pool
