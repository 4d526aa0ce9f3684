import Costream.Signal.EventLoop

/-!
# Setting a handler

`SetAsyncSignalHandler` retains its signal, makes the wake signal and starts the thread of the
asynchronous events if there is none, and puts a row into `new_async_events_`.

* `Pool.setAsyncSignalHandler` is a call, with every way in which it ends.  The line that starts the
  thread is disabled in the source: `none` for `Call.thread` is the code as it stands.
* `machine` makes one call after the other.  The state also says what the calls so far have done.
* `Atomic` is what a call is to keep to, and `Books` is what a sequence of calls comes to.

What has been done before the thread is missing is not undone (`handler_not_atomic`).
-/

namespace Costream.Signal.EventPool.SetHandler

open Trace
open AsyncEvents (clear ofRows)

/-! ## The code -/

/-- `status_t` -/
inductive Status where
  | success
  | outOfResources
  deriving DecidableEq

/-- An `ISignal`. -/
structure Object where
  retained : BitVec 32
  value : Storage
  deriving DecidableEq

structure AsyncEventsControl where
  wake : Option Nat
  asyncEventsThread : Option Nat
  exit : Bool
  deriving DecidableEq

structure Pool where
  /-- The signals that there are. -/
  signals : Nat → Option Object
  asyncEventsControl : AsyncEventsControl
  asyncEvents : AsyncEvents
  newAsyncEvents : AsyncEvents

/-- The arguments, and what the surroundings answer. -/
structure Call where
  signal : Option Nat
  cond : Condition
  value : Value
  handler : Option Nat
  arg : Nat
  /-- Where a new wake signal is, if there is memory for it. -/
  wake : Option Nat
  /-- What is in `async_events_thread_` after a thread should have been started. -/
  thread : Option Nat

def Call.row (c : Call) : Row := ⟨c.signal, c.cond, c.value, c.handler, c.arg⟩

/-- How a call ends: it returns, an exception leaves it, an assertion fails, or a null pointer is
used. -/
inductive Ending where
  | returned (status : Status) (p : Pool)
  | thrown (p : Pool)
  | aborted
  | fault

namespace Pool

variable (p : Pool)

/-- `signal->Retain()` -/
def retain (signal : Nat) : Option Pool :=
  (p.signals signal).map fun o =>
    { p with
      signals := Function.update p.signals signal (some { o with retained := o.retained + 1 }) }

/-- `signal->StoreRelease(value)` -/
def storeRelease (signal : Nat) (value : Value) : Option Pool :=
  (p.signals signal).map fun o =>
    { p with
      signals :=
        Function.update p.signals signal (some { o with value := storeRelaxed o.value value }) }

/-- `CreateSignal(0, 0, NULL, 0, &async_events_control_.wake)` -/
def createSignal (wake : Nat) : Pool :=
  { p with
    signals := Function.update p.signals wake (some ⟨1, extend 0⟩)
    asyncEventsControl := { p.asyncEventsControl with wake := some wake } }

/-- The lazy initializer, once the memory for the wake signal is there. -/
def lazyInit (wake : Nat) (thread : Option Nat) : Pool :=
  let p := p.createSignal wake
  { p with
    asyncEvents := p.asyncEvents.pushBack p.asyncEventsControl.wake .ne 0 none 0
    asyncEventsControl :=
      { p.asyncEventsControl with exit := false, asyncEventsThread := thread } }

/-- `new_async_events_.PushBack(signal, cond, value, handler, arg)` -/
def pushNew (c : Call) : Pool :=
  { p with newAsyncEvents := p.newAsyncEvents.pushBack c.signal c.cond c.value c.handler c.arg }

/-- The end of a call, when there is a thread. -/
def register (c : Call) : Ending :=
  let p := p.pushNew c
  match p.asyncEventsControl.wake.bind (p.storeRelease · 1) with
  | none => .fault
  | some p => .returned .success p

/-- `asserts` says whether the assertions are compiled. -/
def setAsyncSignalHandler (asserts : Bool) (c : Call) : Ending :=
  match (match c.signal with
    | none => some p
    | some signal => p.retain signal) with
  | none => .fault
  | some p =>
    if p.asyncEventsControl.asyncEventsThread = none then
      match c.wake with
      | none => .thrown p
      | some wake =>
        let p := p.lazyInit wake c.thread
        if p.asyncEventsControl.asyncEventsThread = none then
          if asserts then .aborted else .returned .outOfResources p
        else
          p.register c
    else
      p.register c

end Pool

/-! ## Sequences of calls -/

/-- The rows of the calls that have returned `SUCCESS`, the wake signals that have been made, and
the signals that the calls were for. -/
structure State where
  pool : Pool
  made : List Row
  wakes : List Nat
  retains : List Nat

/-- Nothing has been registered, and `wake` and `exit` have no value yet. -/
def State.initial (signals : Nat → Option Object) (wake : Option Nat) (exit : Bool) : State :=
  { pool :=
      { signals := signals
        asyncEventsControl := ⟨wake, none, exit⟩
        asyncEvents := clear
        newAsyncEvents := clear }
    made := []
    wakes := []
    retains := [] }

namespace State

variable (s : State)

/-- A call is for a signal that there is, and a new signal is where there is none. -/
def enabled (c : Call) : Bool :=
  c.signal.all (fun x => (s.pool.signals x).isSome) &&
    c.wake.all (fun x => (s.pool.signals x).isNone)

/-- The wake signal that a call makes. -/
def wakeOf (c : Call) : List Nat :=
  if s.pool.asyncEventsControl.asyncEventsThread = none then c.wake.toList else []

/-- After a call that has left the pool `p`. -/
def after (c : Call) (made : List Row) (p : Pool) : State :=
  { pool := p
    made := s.made ++ made
    wakes := s.wakes ++ s.wakeOf c
    retains := s.retains ++ c.signal.toList }

def next (asserts : Bool) (c : Call) : Option State :=
  match s.pool.setAsyncSignalHandler asserts c with
  | .returned .success p => some (s.after c [c.row] p)
  | .returned .outOfResources p => some (s.after c [] p)
  | .thrown p => some (s.after c [] p)
  | .aborted => none
  | .fault => none

end State

def machine (asserts : Bool) : Machine State Call where
  enabled s c := s.enabled c = true
  step s c := s.next asserts c

instance (asserts : Bool) (s : State) (c : Call) : Decidable ((machine asserts).enabled s c) :=
  inferInstanceAs (Decidable (s.enabled c = true))

/-! ## What is kept -/

/-- `q` has what `p` had, the counts of the signals of `p` included. -/
structure Unchanged (p q : Pool) : Prop where
  retained : ∀ x o, p.signals x = some o → (q.signals x).map Object.retained = some o.retained
  control : q.asyncEventsControl = p.asyncEventsControl
  active : q.asyncEvents = p.asyncEvents
  fresh : q.newAsyncEvents = p.newAsyncEvents

/-- `q` has one row more than `p`, and the signal of the call has been retained once. -/
structure Registered (p : Pool) (c : Call) (q : Pool) : Prop where
  retained : ∀ x o, p.signals x = some o → (q.signals x).map Object.retained =
    some (if c.signal = some x then o.retained + 1 else o.retained)
  fresh : q.newAsyncEvents = p.newAsyncEvents.pushBack c.signal c.cond c.value c.handler c.arg

/-- A call that returns an error leaves everything as it was, and one that returns `SUCCESS` has
registered the handler. -/
def Atomic (p : Pool) (c : Call) : Ending → Prop
  | .returned .success q => Registered p c q
  | .returned .outOfResources q => Unchanged p q
  | .thrown _ => True
  | .aborted => True
  | .fault => True

/-- What a sequence of calls has come to.  Every wake signal that has been made has its row, whether
there was a thread then or not. -/
structure Books (signals : Nat → Option Object) (s : State) : Prop where
  fresh : s.pool.newAsyncEvents = ofRows s.made
  active : s.pool.asyncEvents = ofRows (s.wakes.map wakeRow)
  retained : ∀ x o, signals x = some o → (s.pool.signals x).map Object.retained =
    some (o.retained + BitVec.ofNat 32 (s.retains.count x))
  /-- The thread has been started with the wake signal that was made last. -/
  wake : s.pool.asyncEventsControl.asyncEventsThread ≠ none → ∃ x,
    s.wakes.getLast? = some x ∧ s.pool.asyncEventsControl.wake = some x ∧
      (s.pool.signals x).isSome = true

/-! ## A call -/

variable {p q : Pool} {c : Call} {s t : State} {x : Nat} {o : Object} {asserts : Bool}
variable {signals : Nat → Option Object}

/-- The signals of `p` are in `q`, with one more retained if it is that of the call. -/
def Counted (p : Pool) (c : Call) (q : Pool) : Prop :=
  ∀ x o, p.signals x = some o → (q.signals x).map Object.retained =
    some (if c.signal = some x then o.retained + 1 else o.retained)

/-- A step that changes no count. -/
def SameCounts (p q : Pool) : Prop :=
  ∀ x, (p.signals x).isSome = true →
    (q.signals x).map Object.retained = (p.signals x).map Object.retained

theorem Counted.same {r : Pool} (h : Counted p c q) (hsame : SameCounts q r) : Counted p c r := by
  intro x o ho
  have hq := h x o ho
  have hsome : (q.signals x).isSome = true := by
    rw [← Option.isSome_map (f := Object.retained), hq]
    rfl
  rw [hsame x hsome, hq]

/-- What `Retain` leaves, if the signal is not null. -/
structure Retained (p : Pool) (c : Call) (q : Pool) : Prop where
  counted : Counted p c q
  signals : ∀ x, (q.signals x).isSome = (p.signals x).isSome
  control : q.asyncEventsControl = p.asyncEventsControl
  active : q.asyncEvents = p.asyncEvents
  fresh : q.newAsyncEvents = p.newAsyncEvents

theorem retained_null (h : c.signal = none) : Retained p c p := by
  refine ⟨fun x o ho => ?_, fun _ => rfl, rfl, rfl, rfl⟩
  rw [ho, h, if_neg nofun]
  rfl

theorem retain_retained (h : c.signal = some x) (ho : p.signals x = some o) :
    ∃ q, p.retain x = some q ∧ Retained p c q := by
  refine ⟨{ p with
    signals := Function.update p.signals x (some { o with retained := o.retained + 1 }) },
    by rw [Pool.retain, ho, Option.map_some], fun y o' ho' => ?_, fun y => ?_, rfl, rfl, rfl⟩
  · by_cases hy : y = x
    · subst hy
      rw [ho, Option.some.injEq] at ho'
      simp only [Function.update_self, h, if_true, Option.map_some, ho']
    · have hne : c.signal ≠ some y := by
        rw [h, Ne, Option.some.injEq]
        exact fun hxy => hy hxy.symm
      simp only [Function.update_of_ne hy, ho', if_neg hne, Option.map_some]
  · by_cases hy : y = x
    · subst hy
      simp only [Function.update_self, ho, Option.isSome_some]
    · simp only [Function.update_of_ne hy]

@[simp] theorem pushNew_control : (p.pushNew c).asyncEventsControl = p.asyncEventsControl := rfl

@[simp] theorem pushNew_active : (p.pushNew c).asyncEvents = p.asyncEvents := rfl

/-- What `StoreRelease` leaves. -/
structure Stored (p q : Pool) : Prop where
  counts : SameCounts p q
  signals : ∀ x, (p.signals x).isSome = true → (q.signals x).isSome = true
  control : q.asyncEventsControl = p.asyncEventsControl
  active : q.asyncEvents = p.asyncEvents
  fresh : q.newAsyncEvents = p.newAsyncEvents

theorem storeRelease_stored {value : Value} (h : p.storeRelease x value = some q) : Stored p q := by
  unfold Pool.storeRelease at h
  obtain ⟨o, ho, rfl⟩ := Option.map_eq_some_iff.1 h
  refine ⟨fun y _ => ?_, fun y hy => ?_, rfl, rfl, rfl⟩
  · by_cases hxy : y = x
    · subst hxy
      simp only [Function.update_self, ho, Option.map_some]
    · simp only [Function.update_of_ne hxy]
  · by_cases hxy : y = x
    · subst hxy
      simp only [Function.update_self, Option.isSome_some]
    · simpa only [Function.update_of_ne hxy] using hy

theorem lazyInit_counts {thread : Option Nat} (hnew : p.signals x = none) :
    SameCounts p (p.lazyInit x thread) := by
  intro y hy
  have hne : y ≠ x := by
    intro hxy
    rw [hxy, hnew] at hy
    cases hy
  simp only [Pool.lazyInit, Pool.createSignal, Function.update_of_ne hne]

/-- Where a call goes after `Retain`. -/
theorem ending_cases (asserts : Bool)
    (henabled : c.signal.all (fun x => (p.signals x).isSome) = true) :
    ∃ q, Retained p c q ∧ p.setAsyncSignalHandler asserts c =
      if p.asyncEventsControl.asyncEventsThread = none then
        match c.wake with
        | none => .thrown q
        | some wake =>
          if c.thread = none then
            if asserts then .aborted else .returned .outOfResources (q.lazyInit wake none)
          else
            (q.lazyInit wake c.thread).register c
      else
        q.register c := by
  obtain ⟨q, hq, hretained⟩ : ∃ q, (match c.signal with
      | none => some p
      | some signal => p.retain signal) = some q ∧ Retained p c q := by
    cases hsignal : c.signal with
    | none => exact ⟨p, rfl, retained_null hsignal⟩
    | some x =>
      rw [hsignal, Option.all_some] at henabled
      obtain ⟨o, ho⟩ := Option.isSome_iff_exists.1 henabled
      exact retain_retained hsignal ho
  refine ⟨q, hretained, ?_⟩
  unfold Pool.setAsyncSignalHandler
  rw [hq]
  simp only [hretained.control]
  split
  · cases c.wake with
    | none => rfl
    | some wake =>
      dsimp only
      cases c.thread with
      | none => rfl
      | some thread => rfl
  · rfl

theorem register_atomic (hcounted : Counted p c q) (hfresh : q.newAsyncEvents = p.newAsyncEvents) :
    Atomic p c (q.register c) := by
  unfold Pool.register
  dsimp only
  split
  · trivial
  · rename_i r hr
    obtain ⟨w, -, hstore⟩ := Option.bind_eq_some_iff.1 hr
    have hstored := storeRelease_stored hstore
    have hpushed : Counted p c (q.pushNew c) := hcounted
    refine ⟨hpushed.same hstored.counts, ?_⟩
    rw [hstored.fresh, ← hfresh]
    rfl

theorem pushBack_ne {events : AsyncEvents} {signal : Option Nat} {cond : Condition} {value : Value}
    {handler : Option Nat} {arg : Nat} : events.pushBack signal cond value handler arg ≠ events := by
  intro h
  have hsignal := congrArg (fun events => events.signal.length) h
  simp [AsyncEvents.pushBack] at hsignal

/-- A call is atomic, or it returns an error after the lazy initializer. -/
theorem ending_atomic (asserts : Bool)
    (henabled : c.signal.all (fun x => (p.signals x).isSome) = true)
    (hnew : c.wake.all (fun x => (p.signals x).isNone) = true) :
    ((asserts = true ∨ p.asyncEventsControl.asyncEventsThread ≠ none ∨ c.wake = none ∨
        c.thread ≠ none) ∧ Atomic p c (p.setAsyncSignalHandler asserts c)) ∨
      ((asserts = false ∧ p.asyncEventsControl.asyncEventsThread = none ∧ c.wake ≠ none ∧
        c.thread = none) ∧ ∃ (q : Pool) (x : Nat), q.asyncEvents = p.asyncEvents ∧
          p.setAsyncSignalHandler asserts c =
            .returned .outOfResources (q.lazyInit x none)) := by
  obtain ⟨q, hq, hending⟩ := ending_cases asserts henabled
  rw [hending]
  by_cases hthread : p.asyncEventsControl.asyncEventsThread = none
  · rw [if_pos hthread]
    cases hwake : c.wake with
    | none => exact .inl ⟨.inr (.inr (.inl rfl)), trivial⟩
    | some x =>
      rw [hwake, Option.all_some, Option.isNone_iff_eq_none] at hnew
      have hqnew : q.signals x = none := by
        rw [← Option.not_isSome_iff_eq_none, hq.signals, hnew]
        exact nofun
      dsimp only
      by_cases hcthread : c.thread = none
      · rw [if_pos hcthread]
        cases asserts with
        | true => exact .inl ⟨.inl rfl, trivial⟩
        | false => exact .inr ⟨⟨rfl, hthread, nofun, hcthread⟩, q, x, hq.active, rfl⟩
      · rw [if_neg hcthread]
        refine .inl ⟨.inr (.inr (.inr hcthread)), ?_⟩
        exact register_atomic (hq.counted.same (lazyInit_counts hqnew)) hq.fresh
  · rw [if_neg hthread]
    exact .inl ⟨.inr (.inl hthread), register_atomic hq.counted hq.fresh⟩

/-- When a call is atomic. -/
theorem atomic_iff (henabled : c.signal.all (fun x => (p.signals x).isSome) = true)
    (hnew : c.wake.all (fun x => (p.signals x).isNone) = true) :
    Atomic p c (p.setAsyncSignalHandler asserts c) ↔
      asserts = true ∨ p.asyncEventsControl.asyncEventsThread ≠ none ∨ c.wake = none ∨
        c.thread ≠ none := by
  rcases ending_atomic asserts henabled hnew with
    ⟨hcond, hatomic⟩ | ⟨⟨hasserts, hthread, hwake, hcthread⟩, q, x, hq, hending⟩
  · exact iff_of_true hatomic hcond
  · refine iff_of_false (fun h => ?_) ?_
    · rw [hending] at h
      have hactive : (q.lazyInit x none).asyncEvents = p.asyncEvents := Unchanged.active h
      rw [← hq] at hactive
      exact pushBack_ne hactive
    · simp [hasserts, hthread, hwake, hcthread]

theorem success_registered (henabled : c.signal.all (fun x => (p.signals x).isSome) = true)
    (hnew : c.wake.all (fun x => (p.signals x).isNone) = true)
    (h : p.setAsyncSignalHandler asserts c = .returned .success q) : Registered p c q := by
  rcases ending_atomic asserts henabled hnew with
    ⟨-, hatomic⟩ | ⟨-, r, x, -, hending⟩
  · rw [h] at hatomic
    exact hatomic
  · rw [h] at hending
    cases hending

theorem register_not_thrown : p.register c ≠ .thrown q := by
  unfold Pool.register
  dsimp only
  split
  · exact nofun
  · exact nofun

/-- An exception leaves the call only after `Retain`. -/
theorem thrown_retained (henabled : c.signal.all (fun x => (p.signals x).isSome) = true)
    (h : p.setAsyncSignalHandler asserts c = .thrown q) : Retained p c q := by
  obtain ⟨r, hr, hending⟩ := ending_cases asserts henabled
  rw [hending] at h
  split at h
  · split at h
    · cases h
      exact hr
    · split at h
      · split at h
        · cases h
        · cases h
      · exact absurd h register_not_thrown
  · exact absurd h register_not_thrown

/-- An exception leaves nothing behind only if the signal is null. -/
theorem thrown_iff (henabled : c.signal.all (fun x => (p.signals x).isSome) = true)
    (h : p.setAsyncSignalHandler asserts c = .thrown q) : Unchanged p q ↔ c.signal = none := by
  have hretained := thrown_retained henabled h
  constructor
  · intro hunchanged
    cases hsignal : c.signal with
    | none => rfl
    | some x =>
      rw [hsignal, Option.all_some] at henabled
      obtain ⟨o, ho⟩ := Option.isSome_iff_exists.1 henabled
      have hcount := hretained.counted x o ho
      rw [hunchanged.retained x o ho, if_pos hsignal, Option.some.injEq] at hcount
      bv_omega
  · intro hsignal
    refine ⟨fun x o ho => ?_, hretained.control, hretained.active, hretained.fresh⟩
    rw [hretained.counted x o ho, if_neg (by rw [hsignal]; exact nofun)]

/-! ## Sequences -/

/-- The end of a call uses the wake signal, if it is there, without a fault. -/
theorem register_success (hwake : p.asyncEventsControl.wake = some x)
    (ho : (p.signals x).isSome = true) :
    ∃ q, p.register c = .returned .success q ∧ Stored (p.pushNew c) q := by
  have hsome : ((p.pushNew c).storeRelease x 1).isSome = true := by
    unfold Pool.storeRelease
    rw [Option.isSome_map]
    exact ho
  obtain ⟨q, hstore⟩ := Option.isSome_iff_exists.1 hsome
  refine ⟨q, ?_, storeRelease_stored hstore⟩
  have hwake' : (p.pushNew c).asyncEventsControl.wake = some x := hwake
  unfold Pool.register
  simp only [hwake', Option.bind_some, hstore]

/-- What a call adds to the books. -/
theorem Books.after {made : List Row} (h : Books signals s) (hcounted : Counted s.pool c q)
    (hfresh : q.newAsyncEvents = ofRows (s.made ++ made))
    (hactive : q.asyncEvents = ofRows ((s.wakes ++ s.wakeOf c).map wakeRow))
    (hwake : q.asyncEventsControl.asyncEventsThread ≠ none → ∃ x,
      (s.wakes ++ s.wakeOf c).getLast? = some x ∧ q.asyncEventsControl.wake = some x ∧
        (q.signals x).isSome = true) : Books signals (s.after c made q) := by
  refine ⟨hfresh, hactive, fun x o ho => ?_, hwake⟩
  obtain ⟨o', ho', hretained⟩ := Option.map_eq_some_iff.1 (h.retained x o ho)
  show (q.signals x).map Object.retained =
    some (o.retained + BitVec.ofNat 32 ((s.retains ++ c.signal.toList).count x))
  rw [hcounted x o' ho', hretained, List.count_append, BitVec.ofNat_add, ← BitVec.add_assoc]
  cases hsignal : c.signal with
  | none => simp
  | some y =>
    by_cases hxy : y = x
    · simp [hxy]
    · simp [hxy]

/-- A call ends without a fault, and with right books. -/
theorem Books.next (h : Books signals s) (henabled : s.enabled c = true) :
    s.pool.setAsyncSignalHandler asserts c ≠ .fault ∧
      ∀ t, s.next asserts c = some t → Books signals t := by
  unfold State.enabled at henabled
  rw [Bool.and_eq_true] at henabled
  obtain ⟨hsignal, hnew⟩ := henabled
  obtain ⟨q, hq, hending⟩ := ending_cases asserts hsignal
  have hfreshq : q.newAsyncEvents = ofRows (s.made ++ []) := by
    rw [List.append_nil, hq.fresh, h.fresh]
  unfold State.next
  rw [hending]
  by_cases hthread : s.pool.asyncEventsControl.asyncEventsThread = none
  · rw [if_pos hthread]
    cases hwake : c.wake with
    | none =>
      refine ⟨nofun, fun t ht => ?_⟩
      cases ht
      have hnil : s.wakeOf c = [] := by
        rw [State.wakeOf, if_pos hthread, hwake, Option.toList_none]
      refine h.after hq.counted hfreshq ?_ fun hne => ?_
      · rw [hnil, List.append_nil, hq.active, h.active]
      · rw [hq.control] at hne
        exact absurd hthread hne
    | some x =>
      have hone : s.wakeOf c = [x] := by
        rw [State.wakeOf, if_pos hthread, hwake, Option.toList_some]
      rw [hwake, Option.all_some, Option.isNone_iff_eq_none] at hnew
      have hqnew : q.signals x = none := by
        rw [← Option.not_isSome_iff_eq_none, hq.signals, hnew]
        exact nofun
      have hcounted : ∀ thread, Counted s.pool c (q.lazyInit x thread) := fun thread =>
        hq.counted.same (lazyInit_counts hqnew)
      have hactive : ∀ thread, (q.lazyInit x thread).asyncEvents =
          ofRows ((s.wakes ++ s.wakeOf c).map wakeRow) := by
        intro thread
        rw [hone, List.map_append]
        exact (congrArg (·.pushBack (some x) .ne 0 none 0) (hq.active.trans h.active)).trans
          (pushBack_ofRows (wakeRow x))
      dsimp only
      by_cases hcthread : c.thread = none
      · rw [if_pos hcthread]
        cases asserts with
        | true => exact ⟨nofun, nofun⟩
        | false =>
          refine ⟨nofun, fun t ht => ?_⟩
          cases ht
          exact h.after (hcounted none) hfreshq (hactive none) fun hne => absurd rfl hne
      · rw [if_neg hcthread]
        have hlive : ((q.lazyInit x c.thread).signals x).isSome = true := by
          simp only [Pool.lazyInit, Pool.createSignal, Function.update_self, Option.isSome_some]
        obtain ⟨r, hr, hstored⟩ := register_success (c := c) (p := q.lazyInit x c.thread) rfl hlive
        rw [hr]
        refine ⟨nofun, fun t ht => ?_⟩
        cases ht
        refine h.after ((hcounted c.thread).same hstored.counts) ?_ ?_ fun _ => ⟨x, ?_, ?_, ?_⟩
        · rw [hstored.fresh, ← pushBack_ofRows, ← h.fresh, ← hq.fresh]
          rfl
        · rw [hstored.active, pushNew_active, hactive]
        · rw [hone, List.getLast?_append, List.getLast?_singleton, Option.some_or]
        · rw [hstored.control]
          rfl
        · exact hstored.signals x hlive
  · rw [if_neg hthread]
    obtain ⟨x, hlast, hwake, hlive⟩ := h.wake hthread
    obtain ⟨r, hr, hstored⟩ := register_success (c := c) (p := q) (hq.control ▸ hwake)
      (by rw [hq.signals, hlive])
    rw [hr]
    refine ⟨nofun, fun t ht => ?_⟩
    cases ht
    have hnil : s.wakeOf c = [] := if_neg hthread
    refine h.after (hq.counted.same hstored.counts) ?_ ?_ fun _ => ⟨x, ?_, ?_, ?_⟩
    · rw [hstored.fresh, ← pushBack_ofRows, ← h.fresh, ← hq.fresh]
      rfl
    · rw [hstored.active, pushNew_active, hnil, List.append_nil, hq.active, h.active]
    · rw [hnil, List.append_nil, hlast]
    · rw [hstored.control, pushNew_control, hq.control, hwake]
    · exact hstored.signals x ((hq.signals x).trans hlive)

theorem books_of_run {wake : Option Nat} {exit : Bool}
    (h : Run (machine asserts) anyAction (State.initial signals wake exit) s) :
    Books signals s := by
  refine h.invariant ⟨rfl, rfl, fun x o ho => ?_, fun hne => absurd rfl hne⟩
    fun t c u ht he _ hs => (Books.next ht he).2 u hs
  show (signals x).map Object.retained = some (o.retained + BitVec.ofNat 32 0)
  rw [ho, Option.map_some]
  exact congrArg some (BitVec.add_zero o.retained).symm

/-! ## The loop of the asynchronous events -/

/-- What `SUCCESS` puts into `new_async_events_` is what the loop will find there. -/
theorem success_registers {l : EventPool.State} {handler : Nat}
    (henabled : c.signal.all (fun x => (p.signals x).isSome) = true)
    (hnew : c.wake.all (fun x => (p.signals x).isNone) = true) (hhandler : c.handler = some handler)
    (hfresh : l.fresh = p.newAsyncEvents)
    (h : p.setAsyncSignalHandler asserts c = .returned .success q) :
    ∃ l', l.next (.register c.signal c.cond c.value handler c.arg) = some l' ∧
      l'.fresh = q.newAsyncEvents := by
  have hregistered := success_registered henabled hnew h
  refine ⟨_, rfl, ?_⟩
  rw [hregistered.fresh, hhandler, ← hfresh]

/-! ## Calls that are atomic -/

/-- For every sequence of calls, and for the call after it. -/
theorem set_handler_atomic_iff {wake : Option Nat} {exit : Bool}
    (h : Run (machine asserts) anyAction (State.initial signals wake exit) s)
    (henabled : s.enabled c = true) :
    (Atomic s.pool c (s.pool.setAsyncSignalHandler asserts c) ↔
      asserts = true ∨ s.pool.asyncEventsControl.asyncEventsThread ≠ none ∨ c.wake = none ∨
        c.thread ≠ none) ∧
    (∀ q, s.pool.setAsyncSignalHandler asserts c = .thrown q →
      (Unchanged s.pool q ↔ c.signal = none)) ∧
    s.pool.setAsyncSignalHandler asserts c ≠ .fault ∧ Books signals s := by
  have hbooks := books_of_run h
  have hlive := henabled
  unfold State.enabled at hlive
  rw [Bool.and_eq_true] at hlive
  exact ⟨atomic_iff hlive.1 hlive.2, fun q hq => thrown_iff hlive.1 hq,
    (hbooks.next henabled).1, hbooks⟩

/-- One signal, which has not been retained by anybody else. -/
def oneSignal (x : Nat) : Option Object := if x = 1 then some ⟨1, 0⟩ else none

/-- Two calls have failed, and the third one has a thread. -/
theorem set_handler_atomic_iff_third : ∃ s, Run (machine false) anyAction
    (State.initial oneSignal none false) s ∧
      Atomic s.pool ⟨some 1, .eq, 0, some 5, 0, some 4, some 8⟩
        (s.pool.setAsyncSignalHandler false ⟨some 1, .eq, 0, some 5, 0, some 4, some 8⟩) := by
  have hexec : (((machine false).exec anyAction (State.initial oneSignal none false)
      [⟨some 1, .eq, 0, some 5, 0, some 2, none⟩, ⟨some 1, .eq, 0, some 5, 0, some 3, none⟩]).any
        fun s => s.enabled ⟨some 1, .eq, 0, some 5, 0, some 4, some 8⟩) = true := by
    decide +kernel
  obtain ⟨s, hs, henabled⟩ := Run.exists_of_exec hexec
  exact ⟨s, hs, (set_handler_atomic_iff hs henabled).1.2 (.inr (.inr (.inr nofun)))⟩

/-- The first call, as the code stands. -/
theorem handler_not_atomic : ¬ ∀ (signals : Nat → Option Object) (wake : Option Nat) (exit : Bool)
    (s : State) (c : Call), c.thread = none →
      Run (machine false) anyAction (State.initial signals wake exit) s → s.enabled c = true →
        Atomic s.pool c (s.pool.setAsyncSignalHandler false c) := by
  intro hall
  have hatomic := hall oneSignal none false _ ⟨some 1, .eq, 0, some 5, 0, some 2, none⟩ rfl .refl
    (by decide)
  have hactive : (1 : Nat) = 0 :=
    congrArg (fun events : AsyncEvents => events.size) (Unchanged.active hatomic)
  cases hactive

end Costream.Signal.EventPool.SetHandler
