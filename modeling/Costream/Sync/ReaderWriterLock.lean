import Costream.Tally
import Costream.Trace
import Mathlib.Tactic.Common

/-!
# `ReaderWriterLock`

Readers and writers wait on two conditions under one internal lock.  Any number of threads call the
four operations, a thread may take the lock for reading more than once, and calls are matched: a
thread unlocks what it has locked.

What a thread does between `internal_lock_.lock()` and `internal_lock_.unlock()` is done in steps,
and the point that it has come to is kept with the lock.  A condition wait can end for no reason,
and `notify_one` wakes any one of the threads that wait.  The counters go up once for each thread
(or lock) there is, and are natural numbers.

* `Totals.Inv` is what the counters know about the threads.
* `exclusive_and_live` is the result about every run: writers are alone, and a thread that waits is
  not forgotten.
-/

namespace Costream.Sync.ReaderWriterLock

open Trace Costream.Tally

inductive Call where
  | readerLock
  | readerUnlock
  | writerLock
  | writerUnlock
deriving DecidableEq, Repr

/-- `readers_condition_` and `writers_condition_`. -/
inductive Condition where
  | readers
  | writers
deriving DecidableEq, Repr

/-- Where a thread stands. -/
inductive Place where
  | idle
  /-- Before `internal_lock_.lock()`. -/
  | enter (call : Call)
  /-- It has the internal lock. -/
  | inside
  | blocked (c : Condition)
  /-- The wait is over, and the thread takes the internal lock again. -/
  | notified (c : Condition)
deriving DecidableEq, Repr

/-- Where the thread with the internal lock stands. -/
inductive Point where
  /-- `ReaderLock`: before `0 < writers_count_`. -/
  | whileWriter
  | addReader
  /-- `ReaderUnlock`: before `readers_count_ -= 1`. -/
  | removeReader
  | notifyWriter
  /-- `WriterLock`: before `writers_waiting_ += 1`. -/
  | announce
  | whileBusy
  | addWriter
  /-- Before `writers_waiting_ -= 1`. -/
  | withdraw
  /-- `WriterUnlock`: before `writers_count_ -= 1`. -/
  | removeWriter
  | notifyNext
  | notifyReaders
  | unlock
deriving DecidableEq, Repr

/-- `reads` and `writes` are the locks that the thread holds. -/
structure Thread where
  place : Place
  reads : Nat
  writes : Nat
deriving DecidableEq, Repr

structure State where
  readersCount : Nat
  writersCount : Nat
  writersWaiting : Nat
  internalLock : Option (Nat × Point)
  threads : List Thread

def State.initial (n : Nat) : State := ⟨0, 0, 0, none, List.replicate n ⟨.idle, 0, 0⟩⟩

inductive Action where
  | call (i : Nat) (call : Call)
  /-- `internal_lock_.lock()`, at the beginning of a call or at the end of a wait. -/
  | lock (i : Nat)
  /-- A step of the thread with the internal lock; `j` is the thread that a `notify_one` wakes. -/
  | step (j : Nat)
  /-- A wait ends for no reason. -/
  | wake (i : Nat)
deriving DecidableEq, Repr

def Call.start : Call → Point
  | .readerLock => .whileWriter
  | .readerUnlock => .removeReader
  | .writerLock => .announce
  | .writerUnlock => .removeWriter

def Condition.point : Condition → Point
  | .readers => .whileWriter
  | .writers => .whileBusy

/-- The point at which a thread is when it has got the internal lock. -/
def Place.point : Place → Option Point
  | enter call => some call.start
  | notified c => some c.point
  | _ => none

/-- What `notify_all` of `readers_condition_` does to a thread. -/
def Thread.notifyReader (t : Thread) : Thread :=
  if t.place = .blocked .readers then { t with place := .notified .readers } else t

/-- A thread can unlock what it has locked. -/
def Thread.canCall (t : Thread) : Call → Bool
  | .readerUnlock => t.place == .idle && 0 < t.reads
  | .writerUnlock => t.place == .idle && 0 < t.writes
  | _ => t.place == .idle

namespace State

variable (s : State)

def put (i : Nat) (t : Thread) : State := { s with threads := s.threads.set i t }

def goto (i : Nat) (point : Point) : State := { s with internalLock := some (i, point) }

/-- The wait on a condition gives up the internal lock. -/
def wait (i : Nat) (t : Thread) (c : Condition) : State :=
  { s with internalLock := none }.put i { t with place := .blocked c }

/-- `writers_condition_.notify_one()`. -/
def notifyOne (j : Nat) : State :=
  match s.threads[j]? with
  | some u => if u.place = .blocked .writers then s.put j { u with place := .notified .writers } else s
  | none => s

/-- A step of the thread `i`, which has the internal lock. -/
def run (i : Nat) (t : Thread) (j : Nat) : Point → State
  | .whileWriter => if 0 < s.writersCount then s.wait i t .readers else s.goto i .addReader
  | .addReader =>
    ({ s with readersCount := s.readersCount + 1 }.put i { t with reads := t.reads + 1 }).goto i .unlock
  | .removeReader =>
    ({ s with readersCount := s.readersCount - 1 }.put i { t with reads := t.reads - 1 }).goto i
      .notifyWriter
  | .notifyWriter =>
    (if 0 = s.readersCount ∧ 0 < s.writersWaiting then s.notifyOne j else s).goto i .unlock
  | .announce => { s with writersWaiting := s.writersWaiting + 1 }.goto i .whileBusy
  | .whileBusy =>
    if 0 < s.readersCount ∨ 0 < s.writersCount then s.wait i t .writers else s.goto i .addWriter
  | .addWriter =>
    ({ s with writersCount := s.writersCount + 1 }.put i { t with writes := t.writes + 1 }).goto i
      .withdraw
  | .withdraw => { s with writersWaiting := s.writersWaiting - 1 }.goto i .unlock
  | .removeWriter =>
    ({ s with writersCount := s.writersCount - 1 }.put i { t with writes := t.writes - 1 }).goto i
      .notifyNext
  | .notifyNext => (if 0 < s.writersWaiting then s.notifyOne j else s).goto i .notifyReaders
  | .notifyReaders => { s with threads := s.threads.map Thread.notifyReader }.goto i .unlock
  | .unlock => { s with internalLock := none }.put i { t with place := .idle }

def next : Action → Option State
  | .call i call => (s.threads[i]?).map fun t => s.put i { t with place := .enter call }
  | .lock i =>
    match s.threads[i]? with
    | some t => t.place.point.map fun point => (s.put i { t with place := .inside }).goto i point
    | none => none
  | .step j =>
    match s.internalLock with
    | some (i, point) => (s.threads[i]?).map fun t => s.run i t j point
    | none => none
  | .wake i =>
    match s.threads[i]? with
    | some t =>
      match t.place with
      | .blocked c => some (s.put i { t with place := .notified c })
      | _ => none
    | none => none

/-- The thread waits on `writers_condition_`, or none does. -/
def canNotify (j : Nat) : Bool :=
  (s.threads[j]?).any (fun u => u.place == .blocked .writers) ||
    s.threads.all fun u => u.place != .blocked .writers

def enabled : Action → Bool
  | .call i call => (s.threads[i]?).any fun t => t.canCall call
  | .lock i => s.internalLock.isNone && (s.threads[i]?).any fun t => t.place.point.isSome
  | .step j => s.internalLock.isSome && s.canNotify j
  | .wake i => (s.threads[i]?).any fun t => t.place == .blocked .readers || t.place == .blocked .writers

end State

def machine : Machine State Action where
  enabled s a := s.enabled a = true
  step := State.next

instance (s : State) (a : Action) : Decidable (machine.enabled s a) :=
  inferInstanceAs (Decidable (s.enabled a = true))

/-! ## What the counters count -/

namespace Thread

/-- The thread waits on the condition. -/
def asleep (c : Condition) (t : Thread) : Nat := if t.place = .blocked c then 1 else 0

/-- The thread will look at the counters again. -/
def awake (t : Thread) : Nat := if t.place = .notified .writers then 1 else 0

end Thread

namespace Point

/-- The thread counts in `writers_waiting_`. -/
def waits : Point → Nat
  | whileBusy => 1
  | addWriter => 1
  | withdraw => 1
  | _ => 0

/-- The thread will wake the readers. -/
def frees : Point → Nat
  | notifyNext => 1
  | notifyReaders => 1
  | _ => 0

/-- The thread will get the lock for writing, wait for a holder, or wake a writer. -/
def looks : Point → Nat
  | whileBusy => 1
  | addWriter => 1
  | notifyWriter => 1
  | notifyNext => 1
  | _ => 0

end Point

/-- The counters, the threads counted, and what the thread with the internal lock is about to do. -/
structure Totals where
  readersCount : Nat
  writersCount : Nat
  writersWaiting : Nat
  reads : Nat
  writes : Nat
  asleepReaders : Nat
  asleepWriters : Nat
  awake : Nat
  waits : Nat
  frees : Nat
  looks : Nat

structure Totals.Inv (c : Totals) : Prop where
  readers : c.readersCount = c.reads
  writers : c.writersCount = c.writes
  waiting : c.writersWaiting = c.asleepWriters + c.awake + c.waits
  one : c.writersCount ≤ 1
  alone : 1 ≤ c.writersCount → c.readersCount = 0
  /-- A reader waits for a writer. -/
  asleepReaders : 1 ≤ c.asleepReaders → 1 ≤ c.writersCount + c.frees
  /-- A writer waits for a holder, or another thread comes back to it. -/
  asleepWriters : 1 ≤ c.asleepWriters → 1 ≤ c.readersCount + c.writersCount + c.awake + c.looks

def State.totals (s : State) : Totals where
  readersCount := s.readersCount
  writersCount := s.writersCount
  writersWaiting := s.writersWaiting
  reads := tally Thread.reads s.threads
  writes := tally Thread.writes s.threads
  asleepReaders := tally (Thread.asleep .readers) s.threads
  asleepWriters := tally (Thread.asleep .writers) s.threads
  awake := tally Thread.awake s.threads
  waits := (s.internalLock.map fun o => o.2.waits).getD 0
  frees := (s.internalLock.map fun o => o.2.frees).getD 0
  looks := (s.internalLock.map fun o => o.2.looks).getD 0

variable {s t : State} {i j : Nat} {p q : Thread} {point : Point} {a : Action} {l : List Thread}

/-- One thread is replaced. -/
structure Moves (l l' : List Thread) (p q : Thread) : Prop where
  reads : tally Thread.reads l' + p.reads = tally Thread.reads l + q.reads
  writes : tally Thread.writes l' + p.writes = tally Thread.writes l + q.writes
  asleepReaders : tally (Thread.asleep .readers) l' + p.asleep .readers =
    tally (Thread.asleep .readers) l + q.asleep .readers
  asleepWriters : tally (Thread.asleep .writers) l' + p.asleep .writers =
    tally (Thread.asleep .writers) l + q.asleep .writers
  awake : tally Thread.awake l' + p.awake = tally Thread.awake l + q.awake

theorem moves_set (hp : l[i]? = some p) (q : Thread) : Moves l (l.set i q) p q :=
  ⟨tally_set _ hp q, tally_set _ hp q, tally_set _ hp q, tally_set _ hp q, tally_set _ hp q⟩

/-! ## The thread with the internal lock -/

/-- What the thread knows at the point. -/
def Point.Sound (t : Thread) (readersCount writersCount : Nat) : Point → Prop
  | addReader => writersCount = 0
  | addWriter => readersCount = 0 ∧ writersCount = 0
  | removeReader => 1 ≤ t.reads
  | removeWriter => 1 ≤ t.writes
  | _ => True

/-- A thread that is about to unlock has something to unlock. -/
def Thread.Ready (t : Thread) : Prop :=
  (t.place = .enter .readerUnlock → 1 ≤ t.reads) ∧ (t.place = .enter .writerUnlock → 1 ≤ t.writes)

structure State.Inv (s : State) : Prop where
  totals : s.totals.Inv
  ready : ∀ t ∈ s.threads, t.Ready
  owner : ∀ i point, s.internalLock = some (i, point) → ∃ t, s.threads[i]? = some t ∧
    t.place = .inside ∧ point.Sound t s.readersCount s.writersCount

theorem Thread.ready_of_place (h : ∀ call, p.place ≠ .enter call) : p.Ready :=
  ⟨fun hp => absurd hp (h _), fun hp => absurd hp (h _)⟩

theorem ready_set (h : ∀ t ∈ l, t.Ready) (hq : q.Ready) : ∀ t ∈ l.set i q, t.Ready := by
  intro t hmem
  rcases List.mem_or_eq_of_mem_set hmem with hold | hnew
  · exact h t hold
  · rw [hnew]
    exact hq

theorem set_self (hp : l[i]? = some p) : l.set i p = l := by
  obtain ⟨hlt, heq⟩ := List.getElem?_eq_some_iff.1 hp
  rw [← heq, List.set_getElem_self]

theorem getElem?_set_self (hp : l[i]? = some p) (q : Thread) : (l.set i q)[i]? = some q := by
  obtain ⟨hlt, _⟩ := List.getElem?_eq_some_iff.1 hp
  rw [List.getElem?_set_self hlt]

/-- A thread without the internal lock is replaced. -/
theorem State.Inv.owner_set (h : s.Inv) (hp : s.threads[i]? = some p) (hplace : p.place ≠ .inside) :
    ∀ k point, s.internalLock = some (k, point) → ∃ t, (s.threads.set i q)[k]? = some t ∧
      t.place = .inside ∧ point.Sound t s.readersCount s.writersCount := by
  intro k point hlock
  obtain ⟨t, ht, hinside, hsound⟩ := h.owner k point hlock
  have hne : i ≠ k := by
    intro heq
    rw [heq, ht, Option.some.injEq] at hp
    rw [← hp] at hplace
    exact hplace hinside
  exact ⟨t, by rw [List.getElem?_set_ne hne, ht], hinside, hsound⟩

theorem State.Inv.initial (n : Nat) : (State.initial n).Inv := by
  have hzero : ∀ f : Thread → Nat, f ⟨.idle, 0, 0⟩ = 0 → tally f (State.initial n).threads = 0 := by
    intro f hidle
    refine tally_eq_zero.2 fun p hmem => ?_
    rw [List.eq_of_mem_replicate hmem, hidle]
  have hreads := hzero Thread.reads rfl
  have hwrites := hzero Thread.writes rfl
  have hreaders := hzero (Thread.asleep .readers) rfl
  have hwriters := hzero (Thread.asleep .writers) rfl
  have hawake := hzero Thread.awake rfl
  refine ⟨?_, ?_, ?_⟩
  · constructor <;>
      simp only [State.totals, hreads, hwrites, hreaders, hwriters, hawake] <;>
      simp [State.initial]
  · intro t hmem
    rw [List.eq_of_mem_replicate hmem]
    exact Thread.ready_of_place fun call => by simp
  · intro i point hlock
    cases hlock

/-! ## One step -/

/-- A thread calls, or its wait ends for no reason. -/
theorem State.Inv.outside (h : s.Inv) (hp : s.threads[i]? = some p) (hplace : p.place ≠ .inside)
    (hready : q.Ready) (hreads : q.reads = p.reads) (hwrites : q.writes = p.writes)
    (hreaders : q.asleep .readers ≤ p.asleep .readers)
    (hwriters : q.asleep .writers + q.awake = p.asleep .writers + p.awake)
    (hawake : p.awake ≤ q.awake) : (s.put i q).Inv := by
  refine ⟨?_, ready_set h.ready hready, h.owner_set hp hplace⟩
  obtain ⟨h1, h2, h3, h4, h5, h6, h7⟩ := h.totals
  obtain ⟨m1, m2, m3, m4, m5⟩ := moves_set hp q
  simp only [State.totals] at h1 h2 h3 h4 h5 h6 h7
  constructor <;> simp only [State.totals, State.put] <;> omega

/-- A thread gets the internal lock. -/
theorem State.Inv.lock (h : s.Inv) (hp : s.threads[i]? = some p) (hfree : s.internalLock = none)
    (hpoint : p.place.point = some point) :
    ((s.put i { p with place := .inside }).goto i point).Inv := by
  have hready := h.ready p (List.mem_of_getElem? hp)
  obtain ⟨h1, h2, h3, h4, h5, h6, h7⟩ := h.totals
  obtain ⟨m1, m2, m3, m4, m5⟩ := moves_set hp { p with place := .inside }
  simp only [State.totals, hfree, Option.map_none, Option.getD_none] at h1 h2 h3 h4 h5 h6 h7
  simp only [Thread.asleep, Thread.awake] at m1 m2 m3 m4 m5
  have hshares : point.waits = p.awake ∧ point.frees = 0 ∧ p.awake ≤ point.looks ∧
      p.asleep .readers = 0 ∧ p.asleep .writers = 0 ∧
      point.Sound { p with place := .inside } s.readersCount s.writersCount := by
    unfold Thread.Ready at hready
    unfold Thread.awake Thread.asleep
    generalize p.place = place at hpoint hready
    unfold Place.point at hpoint
    split at hpoint
    · rename_i call
      cases hpoint
      cases call with
      | readerLock => exact ⟨rfl, rfl, Nat.le_refl 0, rfl, rfl, trivial⟩
      | readerUnlock => exact ⟨rfl, rfl, Nat.le_refl 0, rfl, rfl, hready.1 rfl⟩
      | writerLock => exact ⟨rfl, rfl, Nat.le_refl 0, rfl, rfl, trivial⟩
      | writerUnlock => exact ⟨rfl, rfl, Nat.le_refl 0, rfl, rfl, hready.2 rfl⟩
    · rename_i c
      cases hpoint
      cases c with
      | readers => exact ⟨rfl, rfl, Nat.le_refl 0, rfl, rfl, trivial⟩
      | writers => exact ⟨rfl, rfl, Nat.le_refl 1, rfl, rfl, trivial⟩
    · cases hpoint
  obtain ⟨hwaits, hfrees, hlooks, hreaders, hwriters, hsound⟩ := hshares
  refine ⟨?_, ready_set h.ready (Thread.ready_of_place fun call => by simp), ?_⟩
  · unfold Thread.asleep at hreaders hwriters
    unfold Thread.awake at hwaits hlooks
    constructor <;>
      simp only [State.totals, State.put, State.goto, Option.map_some, Option.getD_some] <;>
      simp only [reduceCtorEq, if_false] at m3 m4 m5 <;> omega
  · intro k point' hlock
    cases hlock
    exact ⟨_, getElem?_set_self hp _, rfl, hsound⟩

/-- The thread with the internal lock goes on to the next point. -/
theorem State.Inv.goesOn (h : s.Inv) (r w x : Nat) (next : Point) (q : Thread)
    (hlock : s.internalLock = some (i, point)) (hp : s.threads[i]? = some p)
    (hinside : p.place = .inside) (hq : q.place = .inside)
    (hreads : r + p.reads = s.readersCount + q.reads)
    (hwrites : w + p.writes = s.writersCount + q.writes)
    (hwaiting : x + point.waits = s.writersWaiting + next.waits)
    (hone : w ≤ 1) (halone : 1 ≤ w → r = 0)
    (hfrees : 1 ≤ s.totals.asleepReaders → 1 ≤ w + next.frees)
    (hlooks : 1 ≤ s.totals.asleepWriters → 1 ≤ r + w + s.totals.awake + next.looks)
    (hsound : next.Sound q r w) :
    State.Inv ⟨r, w, x, some (i, next), s.threads.set i q⟩ := by
  refine ⟨?_, ready_set h.ready (Thread.ready_of_place fun call => by simp [hq]), ?_⟩
  · obtain ⟨h1, h2, h3, h4, h5, h6, h7⟩ := h.totals
    obtain ⟨m1, m2, m3, m4, m5⟩ := moves_set hp q
    simp only [State.totals, hlock, Option.map_some, Option.getD_some] at h1 h2 h3 hfrees hlooks
    simp only [Thread.asleep, Thread.awake, hinside, hq, reduceCtorEq, if_false, Nat.add_zero]
      at m3 m4 m5
    constructor <;> simp only [State.totals, Option.map_some, Option.getD_some, m3, m4, m5] <;> omega
  · intro k point' heq
    cases heq
    exact ⟨q, getElem?_set_self hp q, hq, hsound⟩

/-- The thread goes on and changes nothing. -/
theorem State.Inv.goto (h : s.Inv) {next : Point} (hlock : s.internalLock = some (i, point))
    (hp : s.threads[i]? = some p) (hinside : p.place = .inside) (hwaits : next.waits = point.waits)
    (hfrees : 1 ≤ s.totals.asleepReaders → 1 ≤ s.writersCount + next.frees)
    (hlooks : 1 ≤ s.totals.asleepWriters →
      1 ≤ s.readersCount + s.writersCount + s.totals.awake + next.looks)
    (hsound : next.Sound p s.readersCount s.writersCount) : (s.goto i next).Inv := by
  have hinv := h.goesOn _ _ _ next p hlock hp hinside hinside rfl rfl (by rw [hwaits]) h.totals.one
    h.totals.alone hfrees hlooks hsound
  rw [set_self hp] at hinv
  exact hinv

/-- The thread waits. -/
theorem State.Inv.wait (h : s.Inv) (hlock : s.internalLock = some (i, point))
    (hp : s.threads[i]? = some p) (hinside : p.place = .inside) {c : Condition}
    (hwaits : point.waits = if c = .writers then 1 else 0) (hfrees : point.frees = 0)
    (hbusy : if c = .writers then 1 ≤ s.readersCount + s.writersCount else 1 ≤ s.writersCount)
    (hlooks : c = .readers → point.looks = 0) : (s.wait i p c).Inv := by
  refine ⟨?_, ready_set h.ready (Thread.ready_of_place fun call => by simp), ?_⟩
  · obtain ⟨h1, h2, h3, h4, h5, h6, h7⟩ := h.totals
    obtain ⟨m1, m2, m3, m4, m5⟩ := moves_set hp { p with place := .blocked c }
    simp only [State.totals, hlock, Option.map_some, Option.getD_some] at h1 h2 h3 h4 h5 h6 h7
    simp only [Thread.asleep, Thread.awake, hinside, reduceCtorEq, if_false, Nat.add_zero]
      at m1 m2 m3 m4 m5
    cases c with
    | readers =>
      simp only [Place.blocked.injEq, reduceCtorEq, if_false, if_true] at hwaits hbusy m3 m4
      have hzero := hlooks rfl
      constructor <;>
        simp only [State.totals, State.wait, State.put, Option.map_none, Option.getD_none] <;> omega
    | writers =>
      simp only [Place.blocked.injEq, reduceCtorEq, if_false, if_true] at hwaits hbusy m3 m4
      constructor <;>
        simp only [State.totals, State.wait, State.put, Option.map_none, Option.getD_none] <;> omega
  · intro k point' heq
    cases heq

/-- The thread gives the internal lock back. -/
theorem State.Inv.unlock (h : s.Inv) (hlock : s.internalLock = some (i, .unlock))
    (hp : s.threads[i]? = some p) (hinside : p.place = .inside) :
    ({ s with internalLock := none }.put i { p with place := .idle }).Inv := by
  refine ⟨?_, ready_set h.ready (Thread.ready_of_place fun call => by simp), ?_⟩
  · obtain ⟨h1, h2, h3, h4, h5, h6, h7⟩ := h.totals
    obtain ⟨m1, m2, m3, m4, m5⟩ := moves_set hp { p with place := .idle }
    simp only [State.totals, hlock, Option.map_some, Option.getD_some, Point.waits, Point.frees,
      Point.looks] at h1 h2 h3 h4 h5 h6 h7
    simp only [Thread.asleep, Thread.awake, hinside, reduceCtorEq, if_false, Nat.add_zero]
      at m1 m2 m3 m4 m5
    constructor <;> simp only [State.totals, State.put, Option.map_none, Option.getD_none] <;> omega
  · intro k point' heq
    cases heq

/-! ## The notifications -/

/-- `notify_one` leaves the thread with the internal lock alone, and if a writer waits, then one
that was notified is on its way. -/
theorem State.Inv.notifyOne (h : s.Inv) (hp : s.threads[i]? = some p) (hinside : p.place = .inside)
    (hcan : s.canNotify j = true) :
    (s.notifyOne j).Inv ∧ (s.notifyOne j).threads[i]? = some p ∧
      (s.notifyOne j).internalLock = s.internalLock ∧
      (1 ≤ (s.notifyOne j).totals.asleepWriters → 1 ≤ (s.notifyOne j).totals.awake) := by
  unfold State.canNotify at hcan
  rw [Bool.or_eq_true, List.all_eq_true] at hcan
  rcases hcan with hwriter | hnone
  · obtain ⟨u, hu, hblocked⟩ := (Option.any_eq_true _ _).1 hwriter
    rw [beq_iff_eq] at hblocked
    have heq : s.notifyOne j = s.put j { u with place := .notified .writers } := by
      unfold State.notifyOne
      rw [hu]
      exact if_pos hblocked
    have hne : j ≠ i := by
      intro hji
      rw [hji, hp, Option.some.injEq] at hu
      rw [← hu, hinside] at hblocked
      cases hblocked
    have hmoves := moves_set hu { u with place := .notified .writers }
    rw [heq]
    refine ⟨?_, ?_, rfl, ?_⟩
    · refine h.outside hu (by rw [hblocked]; simp) (Thread.ready_of_place fun call => by simp) rfl rfl
        ?_ ?_ ?_ <;> simp [Thread.asleep, Thread.awake, hblocked]
    · show (s.threads.set j _)[i]? = some p
      rw [List.getElem?_set_ne hne, hp]
    · intro _
      have hawake := hmoves.awake
      simp only [Thread.awake, hblocked, reduceCtorEq, if_false, if_true] at hawake
      show 1 ≤ tally Thread.awake (s.threads.set j _)
      omega
  · have heq : s.notifyOne j = s := by
      unfold State.notifyOne
      split
      · rename_i u hu
        have hu := hnone u (List.mem_of_getElem? hu)
        rw [bne_iff_ne] at hu
        exact if_neg hu
      · rfl
    have hzero : s.totals.asleepWriters = 0 := by
      refine tally_eq_zero.2 fun u hmem => ?_
      have hu := hnone u hmem
      rw [bne_iff_ne] at hu
      exact if_neg hu
    rw [heq]
    exact ⟨h, hp, rfl, fun hone => by omega⟩

theorem tally_map {f : Thread → Nat} {g : Thread → Thread} (h : ∀ t, f (g t) = f t) :
    tally f (l.map g) = tally f l := by
  unfold tally
  rw [List.map_map]
  exact congrArg List.sum (List.map_congr_left fun t _ => h t)

/-- `notify_all` leaves no reader asleep. -/
theorem State.Inv.notifyReaders (h : s.Inv) (hlock : s.internalLock = some (i, .notifyReaders))
    (hp : s.threads[i]? = some p) (hinside : p.place = .inside) :
    ({ s with threads := s.threads.map Thread.notifyReader }.goto i .unlock).Inv := by
  have hself : p.notifyReader = p := by
    unfold Thread.notifyReader
    rw [hinside]
    exact if_neg (by simp)
  have hplace : ∀ t : Thread, ∀ f : Thread → Nat,
      (∀ t' : Thread, t.place = .blocked .readers → f { t with place := .notified .readers } = f t) →
      f t.notifyReader = f t := by
    intro t f hf
    unfold Thread.notifyReader
    split
    · rename_i hblocked
      exact hf t hblocked
    · rfl
  have hreads : tally Thread.reads (s.threads.map Thread.notifyReader) = tally Thread.reads s.threads :=
    tally_map fun t => hplace t _ fun _ _ => rfl
  have hwrites : tally Thread.writes (s.threads.map Thread.notifyReader) =
      tally Thread.writes s.threads := tally_map fun t => hplace t _ fun _ _ => rfl
  have hwriters : tally (Thread.asleep .writers) (s.threads.map Thread.notifyReader) =
      tally (Thread.asleep .writers) s.threads :=
    tally_map fun t => hplace t _ fun _ hblocked => by simp [Thread.asleep, hblocked]
  have hawake : tally Thread.awake (s.threads.map Thread.notifyReader) = tally Thread.awake s.threads :=
    tally_map fun t => hplace t _ fun _ hblocked => by simp [Thread.awake, hblocked]
  have hreaders : tally (Thread.asleep .readers) (s.threads.map Thread.notifyReader) = 0 := by
    refine tally_eq_zero.2 fun u hmem => ?_
    obtain ⟨t, _, rfl⟩ := List.mem_map.1 hmem
    unfold Thread.notifyReader Thread.asleep
    split <;> simp_all
  refine ⟨?_, ?_, ?_⟩
  · obtain ⟨h1, h2, h3, h4, h5, h6, h7⟩ := h.totals
    simp only [State.totals, hlock, Option.map_some, Option.getD_some, Point.waits, Point.looks]
      at h1 h2 h3 h4 h5 h6 h7
    constructor <;>
      simp only [State.totals, State.goto, Option.map_some, Option.getD_some, Point.waits, Point.frees,
        Point.looks, hreads, hwrites, hwriters, hawake, hreaders] <;> omega
  · intro u hmem
    obtain ⟨t, ht, rfl⟩ := List.mem_map.1 hmem
    unfold Thread.notifyReader
    split
    · exact Thread.ready_of_place fun call => by simp
    · exact h.ready t ht
  · intro k point heq
    cases heq
    refine ⟨p, ?_, hinside, trivial⟩
    show (s.threads.map Thread.notifyReader)[i]? = some p
    rw [List.getElem?_map, hp, Option.map_some, hself]

/-! ## Every step, and every run -/

theorem State.Inv.run (h : s.Inv) (hlock : s.internalLock = some (i, point))
    (hp : s.threads[i]? = some p) (hinside : p.place = .inside)
    (hsound : point.Sound p s.readersCount s.writersCount) (hcan : s.canNotify j = true) :
    (s.run i p j point).Inv := by
  have htotals := h.totals
  obtain ⟨h1, h2, h3, h4, h5, h6, h7⟩ := h.totals
  have hone : point.frees = 0 → 1 ≤ s.totals.asleepReaders → 1 ≤ s.writersCount := by
    intro hzero
    simp only [State.totals, hlock, Option.map_some, Option.getD_some] at h6 ⊢
    omega
  have hlooks : 1 ≤ s.totals.asleepWriters →
      1 ≤ s.readersCount + s.writersCount + s.totals.awake + point.looks := by
    simp only [State.totals, hlock, Option.map_some, Option.getD_some] at h7 ⊢
    exact h7
  have hwaiting : s.writersWaiting = s.totals.asleepWriters + s.totals.awake + point.waits := by
    simp only [State.totals, hlock, Option.map_some, Option.getD_some] at h3 ⊢
    exact h3
  have hreads : p.reads ≤ s.readersCount := by
    have hle := le_tally Thread.reads (List.mem_of_getElem? hp)
    simp only [State.totals] at h1
    omega
  have hwrites : p.writes ≤ s.writersCount := by
    have hle := le_tally Thread.writes (List.mem_of_getElem? hp)
    simp only [State.totals] at h2
    omega
  simp only [State.totals] at h4 h5
  cases point with
  | whileWriter =>
    unfold State.run
    simp only
    split
    · rename_i hbusy
      exact h.wait hlock hp hinside rfl rfl hbusy fun _ => rfl
    · rename_i hfree
      have hzero : s.writersCount = 0 := by omega
      exact h.goto hlock hp hinside rfl (hone rfl) hlooks hzero
  | addReader =>
    have hzero : s.writersCount = 0 := hsound
    refine h.goesOn (s.readersCount + 1) s.writersCount s.writersWaiting .unlock
      { p with reads := p.reads + 1 } hlock hp hinside hinside ?_ rfl rfl h4 ?_ (hone rfl) ?_ trivial
    · simp only
      omega
    · omega
    · omega
  | removeReader =>
    have hheld : 1 ≤ p.reads := hsound
    refine h.goesOn (s.readersCount - 1) s.writersCount s.writersWaiting .notifyWriter
      { p with reads := p.reads - 1 } hlock hp hinside hinside ?_ rfl rfl h4 ?_ (hone rfl) ?_ trivial
    · simp only
      omega
    · omega
    · simp only [Point.looks]
      omega
  | notifyWriter =>
    unfold State.run
    simp only
    split
    · obtain ⟨hinv, hp', hlock', hawake⟩ := h.notifyOne hp hinside hcan
      rw [hlock] at hlock'
      refine hinv.goto hlock' hp' hinside rfl ?_ ?_ trivial
      · have hasleep := hinv.totals.asleepReaders
        simp only [State.totals, hlock', Option.map_some, Option.getD_some, Point.frees] at hasleep ⊢
        exact hasleep
      · simp only [Point.looks]
        omega
    · rename_i hskip
      refine h.goto hlock hp hinside rfl (hone rfl) ?_ trivial
      simp only [Point.looks, Point.waits] at hwaiting ⊢
      omega
  | announce =>
    have hlooks' : 1 ≤ s.totals.asleepWriters →
        1 ≤ s.readersCount + s.writersCount + s.totals.awake + Point.whileBusy.looks := by
      simp only [Point.looks]
      omega
    have hinv := h.goesOn _ _ (s.writersWaiting + 1) .whileBusy p hlock hp hinside hinside rfl rfl
      rfl h4 h5 (hone rfl) hlooks' trivial
    rw [set_self hp] at hinv
    exact hinv
  | whileBusy =>
    unfold State.run
    simp only
    split
    · rename_i hbusy
      refine h.wait hlock hp hinside rfl rfl ?_ fun heq => by cases heq
      simp only [if_true]
      omega
    · rename_i hfree
      have hzero : s.readersCount = 0 ∧ s.writersCount = 0 := by omega
      exact h.goto hlock hp hinside rfl (hone rfl) hlooks hzero
  | addWriter =>
    obtain ⟨hzero, hzero'⟩ := hsound
    refine h.goesOn s.readersCount (s.writersCount + 1) s.writersWaiting .withdraw
      { p with writes := p.writes + 1 } hlock hp hinside hinside rfl ?_ rfl ?_ ?_ ?_ ?_ trivial
    · simp only
      omega
    · omega
    · omega
    · omega
    · omega
  | withdraw =>
    have hwithdraw : s.writersWaiting - 1 + Point.withdraw.waits =
        s.writersWaiting + Point.unlock.waits := by
      simp only [Point.waits] at hwaiting ⊢
      omega
    have hinv := h.goesOn _ _ _ .unlock p hlock hp hinside hinside rfl rfl hwithdraw h4 h5 (hone rfl)
      hlooks trivial
    rw [set_self hp] at hinv
    exact hinv
  | removeWriter =>
    have hheld : 1 ≤ p.writes := hsound
    refine h.goesOn s.readersCount (s.writersCount - 1) s.writersWaiting .notifyNext
      { p with writes := p.writes - 1 } hlock hp hinside hinside rfl ?_ rfl ?_ ?_ ?_ ?_ trivial
    · simp only
      omega
    · omega
    · omega
    · simp only [Point.frees]
      omega
    · simp only [Point.looks]
      omega
  | notifyNext =>
    unfold State.run
    simp only
    split
    · obtain ⟨hinv, hp', hlock', hawake⟩ := h.notifyOne hp hinside hcan
      rw [hlock] at hlock'
      refine hinv.goto hlock' hp' hinside rfl ?_ ?_ trivial
      · simp only [Point.frees]
        omega
      · simp only [Point.looks]
        omega
    · rename_i hskip
      refine h.goto hlock hp hinside rfl ?_ ?_ trivial
      · simp only [Point.frees]
        omega
      · simp only [Point.looks, Point.waits] at hwaiting ⊢
        omega
  | notifyReaders => exact h.notifyReaders hlock hp hinside
  | unlock => exact h.unlock hlock hp hinside

theorem Thread.canCall_idle {call : Call} (h : p.canCall call = true) : p.place = .idle ∧
    (call = .readerUnlock → 1 ≤ p.reads) ∧ (call = .writerUnlock → 1 ≤ p.writes) := by
  unfold Thread.canCall at h
  cases call with
  | readerUnlock =>
    simp only [Bool.and_eq_true, beq_iff_eq, decide_eq_true_eq] at h
    exact ⟨h.1, fun _ => h.2, fun heq => by cases heq⟩
  | writerUnlock =>
    simp only [Bool.and_eq_true, beq_iff_eq, decide_eq_true_eq] at h
    exact ⟨h.1, (fun heq => by cases heq), fun _ => h.2⟩
  | _ => exact ⟨beq_iff_eq.1 h, (fun heq => by cases heq), fun heq => by cases heq⟩

theorem State.Inv.step (h : s.Inv) (henabled : s.enabled a = true) (hnext : s.next a = some t) :
    t.Inv := by
  cases a with
  | call i call =>
    obtain ⟨p, hp, hcan⟩ := (Option.any_eq_true _ _).1 henabled
    obtain ⟨hidle, hreads, hwrites⟩ := p.canCall_idle hcan
    unfold State.next at hnext
    simp only [hp, Option.map_some, Option.some.injEq] at hnext
    rw [← hnext]
    refine h.outside hp (by rw [hidle]; simp) ⟨?_, ?_⟩ rfl rfl ?_ ?_ ?_
    · intro heq
      cases heq
      exact hreads rfl
    · intro heq
      cases heq
      exact hwrites rfl
    · simp [Thread.asleep]
    · simp [Thread.asleep, Thread.awake, hidle]
    · simp [Thread.awake, hidle]
  | lock i =>
    unfold State.enabled at henabled
    rw [Bool.and_eq_true, Option.isNone_iff_eq_none] at henabled
    obtain ⟨p, hp, _⟩ := (Option.any_eq_true _ _).1 henabled.2
    unfold State.next at hnext
    simp only [hp] at hnext
    obtain ⟨point, hpoint, heq⟩ := Option.map_eq_some_iff.1 hnext
    rw [← heq]
    exact h.lock hp henabled.1 hpoint
  | step j =>
    unfold State.enabled at henabled
    rw [Bool.and_eq_true] at henabled
    obtain ⟨⟨i, point⟩, hlock⟩ := Option.isSome_iff_exists.1 henabled.1
    obtain ⟨p, hp, hinside, hsound⟩ := h.owner i point hlock
    unfold State.next at hnext
    simp only [hlock, hp, Option.map_some, Option.some.injEq] at hnext
    rw [← hnext]
    exact h.run hlock hp hinside hsound henabled.2
  | wake i =>
    obtain ⟨p, hp, _⟩ := (Option.any_eq_true _ _).1 henabled
    unfold State.next at hnext
    simp only [hp] at hnext
    split at hnext
    · rename_i c hblocked
      cases hnext
      refine h.outside hp (by rw [hblocked]; simp) (Thread.ready_of_place fun call => by simp) rfl rfl
        ?_ ?_ ?_
      · simp [Thread.asleep]
      · cases c <;> simp [Thread.asleep, Thread.awake, hblocked]
      · simp [Thread.awake, hblocked]
    · cases hnext

/-- At most one lock for writing is held, and none for reading with it. -/
def State.Exclusive (s : State) : Prop :=
  tally Thread.writes s.threads ≤ 1 ∧
    (1 ≤ tally Thread.writes s.threads → tally Thread.reads s.threads = 0)

/-- A thread waits, the lock is free, and nobody will do anything about it. -/
def State.Stuck (s : State) : Prop :=
  s.readersCount = 0 ∧ s.writersCount = 0 ∧ (∃ t ∈ s.threads, ∃ c, t.place = .blocked c) ∧
    s.internalLock = none ∧
    ∀ t ∈ s.threads, (t.place = .idle ∨ ∃ c, t.place = .blocked c) ∧ t.reads = 0 ∧ t.writes = 0

theorem State.Inv.exclusive (h : s.Inv) : s.Exclusive := by
  obtain ⟨h1, h2, h3, h4, h5, h6, h7⟩ := h.totals
  simp only [State.totals] at h1 h2 h4 h5
  exact ⟨by omega, by omega⟩

theorem State.Inv.not_stuck (h : s.Inv) : ¬ s.Stuck := by
  intro ⟨hreaders, hwriters, ⟨t, hmem, c, hblocked⟩, hfree, hall⟩
  obtain ⟨h1, h2, h3, h4, h5, h6, h7⟩ := h.totals
  have hawake : tally Thread.awake s.threads = 0 := by
    refine tally_eq_zero.2 fun u hu => ?_
    rcases (hall u hu).1 with hplace | ⟨d, hplace⟩ <;> simp [Thread.awake, hplace]
  have hone : 1 ≤ tally (Thread.asleep c) s.threads := by
    have hle := le_tally (Thread.asleep c) hmem
    unfold Thread.asleep at hle
    rw [if_pos hblocked] at hle
    exact hle
  simp only [State.totals, hfree, hawake, Option.map_none, Option.getD_none] at h6 h7
  cases c with
  | readers => omega
  | writers => omega

/-- Writers are alone, and no thread that waits is forgotten. -/
theorem exclusive_and_live (n : Nat) (h : Run machine anyAction (State.initial n) s) :
    s.Exclusive ∧ ¬ s.Stuck := by
  have hinv : s.Inv := by
    refine h.invariant (P := State.Inv) (.initial n) ?_
    intro s a t hs henabled _ hnext
    exact hs.step henabled hnext
  exact ⟨hinv.exclusive, hinv.not_stuck⟩

/-- A writer is notified by a reader, another writer gets the lock before it, and it waits again. -/
theorem exclusive_and_live_overtaken : ∃ s, Run machine anyAction (State.initial 3) s ∧
    (s.Exclusive ∧ ¬ s.Stuck) ∧
    s.threads = [⟨.idle, 0, 0⟩, ⟨.blocked .writers, 0, 0⟩, ⟨.idle, 0, 1⟩] := by
  have hexec : (machine.exec anyAction (State.initial 3)
      [.call 0 .readerLock, .lock 0, .step 0, .step 0, .step 0, .call 1 .writerLock, .lock 1, .step 0,
        .step 0, .call 0 .readerUnlock, .lock 0, .step 1, .step 1, .step 0, .call 2 .writerLock, .lock 2,
        .step 0, .step 0, .step 0, .step 0, .step 0, .lock 1, .step 0]).any
      (fun s => decide
        (s.threads = [⟨.idle, 0, 0⟩, ⟨.blocked .writers, 0, 0⟩, ⟨.idle, 0, 1⟩])) = true := by
    decide +kernel
  obtain ⟨s, hrun, hs⟩ := Run.exists_of_exec hexec
  exact ⟨s, hrun, exclusive_and_live 3 hrun, of_decide_eq_true hs⟩

end Costream.Sync.ReaderWriterLock
