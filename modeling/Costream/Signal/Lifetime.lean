import Costream.Signal.Cell
import Costream.Tally
import Costream.Trace

/-!
# The lifetime of a signal

A signal that is not shared between processes is freed by the `Release` that brings
`retained_` to zero.  The handle is one user, and `DestroySignal` gives it up; a wait
uses each signal of its list, once for each place it has there, from its `Retain` to
the scope guard that releases it on every exit; a registration uses its signal until
the thread of the asynchronous events releases it.

The calls run at the same time.  What one of them does next is an `Access`: the
signal whose memory it uses, what it does to it, and where it goes.  A step that
uses a freed signal has no result.  A call retains a signal while the signal is live,
that is while somebody holds it.

`SetAsyncSignalHandler` retains the signal before it looks for the thread, and a
registration that fails does not release it (`lifetime_balanced`,
`failed_registration_leaks`).
-/

namespace Costream.Signal.Lifetime

open Trace Costream.Tally

/-! ## The code -/

/-- The members of `ISignal` that the calls use. -/
structure ISignal where
  refcount : Nat
  retained : Nat
  waiting : Nat
  value : Storage
  /-- How often the signal has been freed. -/
  freed : Nat
  /-- The handle has not been given to `DestroySignal`. -/
  owned : Bool

namespace ISignal

def retain (sig : ISignal) : ISignal := { sig with retained := increment sig.retained }

def enter (sig : ISignal) : ISignal := { sig with waiting := increment sig.waiting }

def leave (sig : ISignal) : ISignal := { sig with waiting := decrement sig.waiting }

def dropHandle (sig : ISignal) : ISignal := { sig with refcount := decrement sig.refcount }

def release (sig : ISignal) : ISignal := { sig with retained := decrement sig.retained }

/-- `CasRelaxed(0, 0)`. -/
def cas (sig : ISignal) : ISignal := { sig with value := (casRelaxed sig.value 0 0).2 }

/-- `delete this`; `~ISignal` does no more with a signal that is not shared. -/
def doDestroySignal (sig : ISignal) : ISignal := { sig with freed := sig.freed + 1 }

end ISignal

/-- A place of the lists that a wait has got.  A condition that is none of the four is `none`. -/
structure Entry where
  signal : Nat
  condition : Option Condition
  compareValue : Value
deriving DecidableEq

inductive Kind where
  /-- `BusyWaitSignal::WaitRelaxed`. -/
  | wait
  /-- `StreamPool::WaitAnySignal`. -/
  | waitAny
  /-- `EventPool::SetAsyncSignalHandler`, and what becomes of the registration. -/
  | register
  | destroy
deriving DecidableEq, Repr

/-- Where a call stands; the number is an index into its list. -/
inductive Place where
  /-- Before `Retain`. -/
  | retain (k : Nat)
  /-- Before `waiting_++`. -/
  | enter (k : Nat)
  /-- Before `signals[k]->EopEvent() == NULL`, which decides whether the wait may sleep. -/
  | sleepable (k : Nat)
  /-- Before `evts[k] = signals[k]->EopEvent()`. -/
  | events (k : Nat)
  /-- In the loop of a wait, before `IsValid`. -/
  | valid (k : Nat)
  /-- Before the look for a memory fault. -/
  | fault (k : Nat)
  /-- Before the value is loaded and compared. -/
  | load (k : Nat)
  /-- No condition is met: before the time is read. -/
  | time
  /-- The time is over: before `WaitRelaxed` loads the value that it returns. -/
  | last
  /-- Before `waiting_--`. -/
  | leave (k : Nat)
  /-- Before the critical section of `SetAsyncSignalHandler`. -/
  | lock
  /-- The signal is in `new_async_events_` or `async_events_`. -/
  | registered
  /-- `DestroySignal`: before `--refcount_`. -/
  | destroy
  /-- Before `CasRelaxed(0, 0)`. -/
  | cas
  /-- Before `--retained_`. -/
  | release (k : Nat)
  /-- `retained_` is zero: before `isIPC()`. -/
  | isIPC (k : Nat)
  | doDestroySignal (k : Nat)
  | returned
  /-- The registration has failed: an error has been returned, or an exception thrown. -/
  | failed
deriving DecidableEq, Repr

structure Call where
  kind : Kind
  entries : List Entry
  place : Place
deriving DecidableEq

/-- What a step does. -/
structure Access where
  /-- The signal whose memory is used. -/
  signal : Option Nat
  effect : ISignal → ISignal
  goto : Place

/-- A step that uses no signal. -/
def Access.skip (goto : Place) : Access := ⟨none, id, goto⟩

namespace Call

variable (call : Call)

/-- The loops over the list: the body for index `k`, or what comes after the loop. -/
def forEach (k : Nat) (body : Nat → Access) (after : Place) : Access :=
  match call.entries[k]? with
  | some e => body e.signal
  | none => .skip after

/-- The comparison of a wait with the value it has loaded. -/
def met (k : Nat) (value : Storage) : Option Bool :=
  match call.entries[k]? with
  | some e => e.condition.map fun condition => condition.met value (extend e.compareValue)
  | none => none

/-- The next step of a call.  `thread` says whether `async_events_thread_` is there, and `b` what
only the surroundings know: that the wait may sleep, that the time is over, that there has been a
memory fault, or that there is no memory left. -/
def next (signals : Nat → ISignal) (thread b : Bool) : Access :=
  match call.place with
  | .retain k =>
    call.forEach k (fun x => ⟨some x, ISignal.retain, .retain (k + 1)⟩)
      (if call.kind = .register then .lock else .enter 0)
  | .enter k =>
    call.forEach k (fun x => ⟨some x, ISignal.enter, .enter (k + 1)⟩)
      (if call.kind = .waitAny ∧ b = true then .sleepable 0 else .valid 0)
  | .sleepable k =>
    call.forEach k (fun x => ⟨some x, id, if b then .sleepable (k + 1) else .valid 0⟩)
      (if b then .leave 0 else .events 0)
  | .events k =>
    call.forEach k (fun x => ⟨some x, id, .events (k + 1)⟩) (.valid 0)
  | .valid k =>
    call.forEach k
      (fun x => ⟨some x, id,
        if (signals x).refcount = 0 then .leave 0
        else if call.kind = .waitAny then .fault k else .load k⟩)
      .time
  | .fault k =>
    call.forEach k (fun x => ⟨some x, id, if b then .leave 0 else .load k⟩) .time
  | .load k =>
    call.forEach k
      (fun x => ⟨some x, id,
        match call.met k (signals x).value with
        | some false => .valid (k + 1)
        | _ => .leave 0⟩)
      .time
  | .time =>
    .skip (if b then if call.kind = .waitAny then .leave 0 else .last else .valid 0)
  | .last => call.forEach 0 (fun x => ⟨some x, id, .leave 0⟩) (.leave 0)
  | .leave k =>
    call.forEach k (fun x => ⟨some x, ISignal.leave, .leave (k + 1)⟩) (.release 0)
  | .lock =>
    -- `async_events_thread_` is not assigned the new thread, so it stays NULL if it is
    .skip (if thread = true ∧ b = false then .registered else .failed)
  | .registered => .skip (.release 0)
  | .destroy =>
    call.forEach 0
      (fun x => ⟨some x, ISignal.dropHandle,
        if decrement (signals x).refcount = 0 then .cas else .release 0⟩)
      (.release 0)
  | .cas => call.forEach 0 (fun x => ⟨some x, ISignal.cas, .release 0⟩) (.release 0)
  | .release k =>
    call.forEach k
      (fun x => ⟨some x, ISignal.release,
        if decrement (signals x).retained = 0 then .isIPC k else .release (k + 1)⟩)
      .returned
  | .isIPC k => call.forEach k (fun x => ⟨some x, id, .doDestroySignal k⟩) .returned
  | .doDestroySignal k =>
    call.forEach k (fun x => ⟨some x, ISignal.doDestroySignal, .release (k + 1)⟩) .returned
  | .returned => .skip .returned
  | .failed => .skip .failed

def goto (place : Place) : Call := { call with place := place }

end Call

structure State where
  signals : Nat → ISignal
  /-- `async_events_thread_` is not NULL. -/
  thread : Bool
  calls : List Call

/-- The signals have been created with these values, and nobody uses them yet. -/
def State.initial (value : Nat → Storage) (thread : Bool) : State :=
  { signals := fun x => ⟨1, 1, 0, value x, 0, true⟩, thread := thread, calls := [] }

inductive Action where
  /-- A wait or a registration is called. -/
  | call (kind : Kind) (entries : List Entry)
  /-- `DestroySignal`, with the handle of the signal. -/
  | destroySignal (x : Nat)
  /-- The owner of the handle changes the value. -/
  | store (x : Nat) (value : Value)
  | step (c : Nat) (b : Bool)
  /-- `Shutdown` has closed the thread. -/
  | shutdown

namespace State

variable (s : State)

/-- One signal is changed. -/
def update (x : Nat) (f : ISignal → ISignal) : State :=
  { s with signals := Function.update s.signals x (f (s.signals x)) }

def put (c : Nat) (call : Call) : State := { s with calls := s.calls.set c call }

def advance (c : Nat) (call : Call) (b : Bool) : Option State :=
  let access := call.next s.signals s.thread b
  match access.signal with
  | none => some (s.put c (call.goto access.goto))
  | some x =>
    if (s.signals x).freed ≠ 0 then
      none
    else
      some ((s.update x access.effect).put c (call.goto access.goto))

def next : Action → Option State
  | .call kind entries => some { s with calls := s.calls ++ [⟨kind, entries, .retain 0⟩] }
  | .destroySignal x =>
    some { s.update x fun sig => { sig with owned := false } with
      calls := s.calls ++ [⟨.destroy, [⟨x, none, 0⟩], .destroy⟩] }
  | .store x value =>
    if (s.signals x).freed ≠ 0 then
      none
    else
      some (s.update x fun sig => { sig with value := storeRelaxed sig.value value })
  | .step c b =>
    match s.calls[c]? with
    | none => none
    | some call => s.advance c call b
  | .shutdown => some { s with thread := false }

end State

/-! ## Who holds a signal -/

namespace Call

variable (call : Call)

/-- The places of its list that a call has retained and not yet released. -/
def held : List Entry :=
  match call.place with
  | .retain k => call.entries.take k
  | .release k => call.entries.drop k
  | .isIPC k => call.entries.drop (k + 1)
  | .doDestroySignal k => call.entries.drop (k + 1)
  | .returned => []
  | .failed => []
  | _ => call.entries

/-- How often a call holds a signal. -/
def holds (x : Nat) : Nat := call.held.countP fun e => e.signal = x

/-- The call has brought `retained_` of the signal to zero, and has not freed it yet. -/
def frees (x : Nat) : Nat :=
  match call.place with
  | .isIPC k => if (call.entries[k]?.any fun e => e.signal = x) then 1 else 0
  | .doDestroySignal k => if (call.entries[k]?.any fun e => e.signal = x) then 1 else 0
  | _ => 0

/-- The call is over. -/
def isOver : Bool := call.place = .returned ∨ call.place = .failed

/-- The signal that the next step retains. -/
def retains : Option Nat :=
  match call.place with
  | .retain k => call.entries[k]?.map Entry.signal
  | _ => none

end Call

namespace State

variable (s : State)

/-- The number of users of a signal. -/
def users (x : Nat) : Nat := tally (fun call => call.holds x) s.calls

/-- The users and the handle. -/
def holders (x : Nat) : Nat := s.users x + (s.signals x).owned.toNat

/-- `WaitRelaxed` and a registration have one signal.  A signal is retained while it is live; the
events thread decides when a registered signal is released. -/
def enabled : Action → Bool
  | .call kind entries =>
    match kind with
    | .waitAny => true
    | .destroy => false
    | _ => entries.length = 1
  | .destroySignal x => (s.signals x).owned
  | .store x _ => (s.signals x).owned
  | .step c _ =>
    s.calls[c]?.any fun call =>
      !call.isOver && call.retains.all fun x => 0 < s.holders x
  | .shutdown => true

end State

def machine : Machine State Action where
  enabled s a := s.enabled a = true
  step := State.next

instance (s : State) (a : Action) : Decidable (machine.enabled s a) :=
  inferInstanceAs (Decidable (s.enabled a = true))

/-- No registration finds that there is no thread, or no memory; and `retained_` has room for one
more user whenever a signal is retained. -/
def Fits (s : State) : Action → Prop
  | .step c b => ∀ call ∈ s.calls[c]?,
      (call.place = .lock → s.thread = true ∧ b = false) ∧
      ∀ x ∈ call.retains, s.holders x + 1 < 2 ^ 32
  | _ => True

instance (s : State) (a : Action) : Decidable (Fits s a) :=
  match a with
  | .step c b =>
    inferInstanceAs (Decidable (∀ call ∈ s.calls[c]?,
      (call.place = .lock → s.thread = true ∧ b = false) ∧
      ∀ x ∈ call.retains, s.holders x + 1 < 2 ^ 32))
  | .call _ _ => inferInstanceAs (Decidable True)
  | .destroySignal _ => inferInstanceAs (Decidable True)
  | .store _ _ => inferInstanceAs (Decidable True)
  | .shutdown => inferInstanceAs (Decidable True)

/-- `retained_` is the number of users, and one more before `DestroySignal`.  A signal is freed at
most once, when nobody holds it; it has been freed when it has been destroyed and all calls are
over; and no step uses a freed signal. -/
structure Balanced (s : State) : Prop where
  counted : ∀ x, (s.signals x).retained = s.users x + (s.signals x).owned.toNat
  once : ∀ x, (s.signals x).freed ≤ 1
  unused : ∀ x, (s.signals x).freed = 1 → s.users x = 0 ∧ (s.signals x).owned = false
  freed : (∀ call ∈ s.calls, call.isOver = true) → ∀ x, (s.signals x).owned = false →
    (s.signals x).freed = 1
  works : ∀ a, s.enabled a = true → (s.next a).isSome = true

/-! ## What a step can do -/

variable {signals : Nat → ISignal} {thread b : Bool} {call call' : Call} {s : State} {x c k : Nat}
variable {e : Entry}

theorem forEach_some {body : Nat → Access} {after : Place} (h : call.entries[k]? = some e) :
    call.forEach k body after = body e.signal := by
  unfold Call.forEach
  rw [h]

theorem forEach_none {body : Nat → Access} {after : Place} (h : call.entries[k]? = none) :
    call.forEach k body after = .skip after := by
  unfold Call.forEach
  rw [h]

theorem drop_of_get (h : call.entries[k]? = some e) :
    call.entries.drop k = e :: call.entries.drop (k + 1) := by
  obtain ⟨hk, he⟩ := List.getElem?_eq_some_iff.1 h
  rw [List.drop_eq_getElem_cons hk, he]

theorem take_of_get (h : call.entries[k]? = some e) :
    call.entries.take (k + 1) = call.entries.take k ++ [e] := by
  rw [List.take_add_one, h]
  rfl

/-- A step that changes neither the users of a signal nor what counts them. -/
structure Quiet (call : Call) (a : Access) : Prop where
  keeps : ∀ sig, (a.effect sig).retained = sig.retained ∧ (a.effect sig).freed = sig.freed ∧
    (a.effect sig).owned = sig.owned
  held : (call.goto a.goto).held = call.held
  frees : ∀ y, (call.goto a.goto).frees y = call.frees y

/-- The call holds all the signals of its list. -/
def Place.uses : Place → Bool
  | .retain _ => false
  | .release _ => false
  | .isIPC _ => false
  | .doDestroySignal _ => false
  | .returned => false
  | .failed => false
  | _ => true

theorem held_of_uses (h : call.place.uses = true) : call.held = call.entries := by
  unfold Call.held
  cases hp : call.place <;> rw [hp] at h <;> first | rfl | cases h

theorem frees_of_uses (h : call.place.uses = true) (y : Nat) : call.frees y = 0 := by
  unfold Call.frees
  cases hp : call.place <;> rw [hp] at h <;> first | rfl | cases h

/-- A step of a call that holds its list, and does not begin to release it before the end. -/
structure Mild (a : Access) : Prop where
  keeps : ∀ sig, (a.effect sig).retained = sig.retained ∧ (a.effect sig).freed = sig.freed ∧
    (a.effect sig).owned = sig.owned
  goto : a.goto.uses = true ∨ a.goto = .release 0

theorem Mild.skip {place : Place} (h : place.uses = true ∨ place = .release 0) :
    Mild (.skip place) :=
  ⟨fun _ => ⟨rfl, rfl, rfl⟩, h⟩

theorem forEach_mild {body : Nat → Access} {after : Place} (hbody : ∀ x, Mild (body x))
    (hafter : after.uses = true ∨ after = .release 0) : Mild (call.forEach k body after) := by
  unfold Call.forEach
  split
  · exact hbody _
  · exact .skip hafter

theorem Mild.quiet {a : Access} (h : Mild a) (huses : call.place.uses = true) : Quiet call a := by
  refine ⟨h.keeps, ?_, fun y => ?_⟩
  · rw [held_of_uses huses]
    rcases h.goto with hgoto | hgoto
    · exact @held_of_uses (call.goto a.goto) hgoto
    · rw [hgoto]
      rfl
  · rw [frees_of_uses huses]
    rcases h.goto with hgoto | hgoto
    · exact @frees_of_uses (call.goto a.goto) hgoto y
    · rw [hgoto]
      rfl

theorem next_mild (huses : call.place.uses = true)
    (hlock : call.place = .lock → thread = true ∧ b = false) :
    Mild (call.next signals thread b) := by
  have hid : ∀ sig : ISignal, (id sig).retained = sig.retained ∧ (id sig).freed = sig.freed ∧
      (id sig).owned = sig.owned := fun _ => ⟨rfl, rfl, rfl⟩
  unfold Call.next
  split
  case h_1 hp => rw [hp] at huses; cases huses
  case h_2 =>
    refine forEach_mild (fun x => ⟨fun _ => ⟨rfl, rfl, rfl⟩, .inl rfl⟩) (.inl ?_)
    split <;> rfl
  case h_3 =>
    refine forEach_mild (fun x => ⟨hid, .inl ?_⟩) (.inl ?_)
    · show Place.uses (if b = true then _ else _) = true
      split <;> rfl
    · split <;> rfl
  case h_4 => exact forEach_mild (fun x => ⟨hid, .inl rfl⟩) (.inl rfl)
  case h_5 =>
    refine forEach_mild (fun x => ⟨hid, .inl ?_⟩) (.inl rfl)
    show Place.uses (if (signals x).refcount = 0 then _ else _) = true
    split
    · rfl
    · split <;> rfl
  case h_6 =>
    refine forEach_mild (fun x => ⟨hid, .inl ?_⟩) (.inl rfl)
    show Place.uses (if b = true then _ else _) = true
    split <;> rfl
  case h_7 k _ =>
    refine forEach_mild (fun x => ⟨hid, .inl ?_⟩) (.inl rfl)
    show Place.uses (match call.met k (signals x).value with | some false => _ | _ => _) = true
    split <;> rfl
  case h_8 =>
    refine .skip (.inl ?_)
    split
    · split <;> rfl
    · rfl
  case h_9 => exact forEach_mild (fun x => ⟨hid, .inl rfl⟩) (.inl rfl)
  case h_10 => exact forEach_mild (fun x => ⟨fun _ => ⟨rfl, rfl, rfl⟩, .inl rfl⟩) (.inr rfl)
  case h_11 hp =>
    refine .skip (.inl ?_)
    rw [if_pos (hlock hp)]
    rfl
  case h_12 => exact .skip (.inr rfl)
  case h_13 =>
    refine forEach_mild (fun x => ?_) (.inr rfl)
    by_cases hzero : decrement (signals x).refcount = 0
    · simp only [if_pos hzero]
      exact ⟨fun _ => ⟨rfl, rfl, rfl⟩, .inl rfl⟩
    · simp only [if_neg hzero]
      exact ⟨fun _ => ⟨rfl, rfl, rfl⟩, .inr rfl⟩
  case h_14 => exact forEach_mild (fun x => ⟨fun _ => ⟨rfl, rfl, rfl⟩, .inr rfl⟩) (.inr rfl)
  all_goals rename_i hp; rw [hp] at huses; cases huses

/-- A step changes the count of a signal only where the call retains it, releases it or
frees it. -/
theorem next_cases (hlock : call.place = .lock → thread = true ∧ b = false)
    (hover : call.isOver = false) :
    (∃ k e, call.place = .retain k ∧ call.entries[k]? = some e ∧
      call.next signals thread b = ⟨some e.signal, ISignal.retain, .retain (k + 1)⟩) ∨
    (∃ k e, call.place = .release k ∧ call.entries[k]? = some e ∧
      call.next signals thread b = ⟨some e.signal, ISignal.release,
        if decrement (signals e.signal).retained = 0 then .isIPC k else .release (k + 1)⟩) ∨
    (∃ k e, call.place = .doDestroySignal k ∧ call.entries[k]? = some e ∧
      call.next signals thread b =
        ⟨some e.signal, ISignal.doDestroySignal, .release (k + 1)⟩) ∨
    Quiet call (call.next signals thread b) := by
  by_cases huses : call.place.uses = true
  · exact .inr (.inr (.inr ((next_mild huses hlock).quiet huses)))
  have hskip : ∀ place, (call.goto place).held = call.held → (∀ y, call.frees y = 0) →
      (∀ y, (call.goto place).frees y = 0) → Quiet call (.skip place) := fun place hheld h h' =>
    ⟨fun _ => ⟨rfl, rfl, rfl⟩, hheld, fun y => (h' y).trans (h y).symm⟩
  have hlen : ∀ k, call.entries[k]? = none → call.entries.length ≤ k := fun k hk =>
    List.getElem?_eq_none_iff.1 hk
  cases hp : call.place with
  | retain k =>
    have hheld : call.held = call.entries.take k := by rw [Call.held, hp]
    have hfrees : ∀ y, call.frees y = 0 := fun y => by rw [Call.frees, hp]
    unfold Call.next
    rw [hp]
    cases he : call.entries[k]? with
    | some e => exact .inl ⟨k, e, rfl, he, forEach_some he⟩
    | none =>
      refine .inr (.inr (.inr ?_))
      show Quiet call (call.forEach k _ _)
      rw [forEach_none he]
      refine hskip _ ?_ hfrees fun y => ?_
      · rw [hheld, List.take_of_length_le (hlen k he)]
        split <;> rfl
      · split <;> rfl
  | release k =>
    have hheld : call.held = call.entries.drop k := by rw [Call.held, hp]
    have hfrees : ∀ y, call.frees y = 0 := fun y => by rw [Call.frees, hp]
    unfold Call.next
    rw [hp]
    cases he : call.entries[k]? with
    | some e => exact .inr (.inl ⟨k, e, rfl, he, forEach_some he⟩)
    | none =>
      refine .inr (.inr (.inr ?_))
      show Quiet call (call.forEach k _ _)
      rw [forEach_none he]
      refine hskip _ ?_ hfrees fun y => rfl
      rw [hheld, List.drop_of_length_le (hlen k he)]
      rfl
  | isIPC k =>
    have hheld : call.held = call.entries.drop (k + 1) := by rw [Call.held, hp]
    have hfrees : ∀ y, call.frees y =
        if (call.entries[k]?.any fun e => e.signal = y) then 1 else 0 := fun y => by
      rw [Call.frees, hp]
    refine .inr (.inr (.inr ?_))
    unfold Call.next
    rw [hp]
    show Quiet call (call.forEach k _ _)
    cases he : call.entries[k]? with
    | some e =>
      rw [forEach_some he]
      exact ⟨fun _ => ⟨rfl, rfl, rfl⟩, hheld.symm, fun y => (hfrees y).symm⟩
    | none =>
      rw [forEach_none he]
      refine hskip _ ?_ (fun y => ?_) fun y => rfl
      · rw [hheld, List.drop_of_length_le ((hlen k he).trans (Nat.le_succ k))]
        rfl
      · rw [hfrees, he]
        rfl
  | doDestroySignal k =>
    have hheld : call.held = call.entries.drop (k + 1) := by rw [Call.held, hp]
    have hfrees : ∀ y, call.frees y =
        if (call.entries[k]?.any fun e => e.signal = y) then 1 else 0 := fun y => by
      rw [Call.frees, hp]
    unfold Call.next
    rw [hp]
    cases he : call.entries[k]? with
    | some e => exact .inr (.inr (.inl ⟨k, e, rfl, he, forEach_some he⟩))
    | none =>
      refine .inr (.inr (.inr ?_))
      show Quiet call (call.forEach k _ _)
      rw [forEach_none he]
      refine hskip _ ?_ (fun y => ?_) fun y => rfl
      · rw [hheld, List.drop_of_length_le ((hlen k he).trans (Nat.le_succ k))]
        rfl
      · rw [hfrees, he]
        rfl
  | returned =>
    rw [Call.isOver, hp] at hover
    cases hover
  | failed =>
    rw [Call.isOver, hp] at hover
    cases hover
  | _ => exact absurd (by rw [hp]; rfl) huses

theorem holds_pos (h : e ∈ call.held) : 0 < call.holds e.signal := by
  unfold Call.holds
  rw [List.countP_pos_iff]
  exact ⟨e, h, by simp⟩

theorem forEach_signal {body : Nat → Access} {after : Place}
    (hbody : ∀ y, (body y).signal = some x → y = x)
    (h : (call.forEach k body after).signal = some x) :
    ∃ e, call.entries[k]? = some e ∧ e.signal = x := by
  cases he : call.entries[k]? with
  | some e =>
    rw [forEach_some he] at h
    exact ⟨e, rfl, hbody _ h⟩
  | none =>
    rw [forEach_none he] at h
    cases h

/-- A step uses a signal that the call retains with it, holds, or is about to free. -/
theorem next_uses (h : (call.next signals thread b).signal = some x) :
    call.retains = some x ∨ 0 < call.holds x + call.frees x := by
  have hsome : ∀ y : Nat, some y = some x → y = x := fun y => Option.some.inj
  have hplace : ∀ {k : Nat} {e : Entry}, call.entries[k]? = some e → e ∈ call.held →
      call.retains = some e.signal ∨ 0 < call.holds e.signal + call.frees e.signal :=
    fun _ hmem => .inr (Nat.add_pos_left (holds_pos hmem) _)
  by_cases huses : call.place.uses = true
  · have hmem : ∀ {k : Nat} {e : Entry}, call.entries[k]? = some e → e ∈ call.held := fun he => by
      rw [held_of_uses huses]
      exact List.mem_of_getElem? he
    unfold Call.next at h
    split at h
    case h_1 hp => rw [hp] at huses; cases huses
    case h_8 => cases h
    case h_11 => cases h
    case h_12 => cases h
    case h_18 => cases h
    case h_19 => cases h
    all_goals
      obtain ⟨e, he, hx⟩ := forEach_signal hsome h
      rw [← hx]
      exact hplace he (hmem he)
  · cases hp : call.place with
    | retain k =>
      unfold Call.next at h
      rw [hp] at h
      obtain ⟨e, he, hx⟩ := forEach_signal hsome h
      refine .inl ?_
      rw [Call.retains, hp]
      simp only [he, Option.map_some, hx]
    | release k =>
      unfold Call.next at h
      rw [hp] at h
      obtain ⟨e, he, hx⟩ := forEach_signal hsome h
      rw [← hx]
      refine hplace he ?_
      rw [Call.held, hp]
      simp only [drop_of_get he, List.mem_cons, true_or]
    | isIPC k =>
      unfold Call.next at h
      rw [hp] at h
      obtain ⟨e, he, hx⟩ := forEach_signal hsome h
      have hfrees : call.frees x = 1 := by
        rw [Call.frees, hp]
        simp only [he, Option.any_some, hx, decide_true, if_true]
      exact .inr (by omega)
    | doDestroySignal k =>
      unfold Call.next at h
      rw [hp] at h
      obtain ⟨e, he, hx⟩ := forEach_signal hsome h
      have hfrees : call.frees x = 1 := by
        rw [Call.frees, hp]
        simp only [he, Option.any_some, hx, decide_true, if_true]
      exact .inr (by omega)
    | returned =>
      unfold Call.next at h
      rw [hp] at h
      cases h
    | failed =>
      unfold Call.next at h
      rw [hp] at h
      cases h
    | _ => exact absurd (by rw [hp]; rfl) huses

/-! ## The invariant -/

/-- `retained_` counts the holders, and exactly one of three things is true of each signal:
somebody holds it, one call is about to free it, it has been freed. -/
structure Inv (s : State) : Prop where
  counted : ∀ x, (s.signals x).retained = s.holders x
  once : ∀ x, min (s.holders x) 1 + tally (fun call => call.frees x) s.calls +
    (s.signals x).freed = 1

theorem inv_initial (value : Nat → Storage) (thread : Bool) : Inv (State.initial value thread) :=
  ⟨fun _ => rfl, fun _ => rfl⟩

/-- A call changes, and the signals with it. -/
theorem Inv.change (h : Inv s) (hc : s.calls[c]? = some call) {signals' : Nat → ISignal}
    (howned : ∀ y, (signals' y).owned = (s.signals y).owned)
    (hcounted : ∀ y, (signals' y).retained + call.holds y =
      (s.signals y).retained + call'.holds y)
    (honce : ∀ y, min (signals' y).retained 1 + call'.frees y + (signals' y).freed =
      min (s.signals y).retained 1 + call.frees y + (s.signals y).freed) :
    Inv ⟨signals', s.thread, s.calls.set c call'⟩ := by
  have hnew : ∀ y, (signals' y).retained =
      State.holders ⟨signals', s.thread, s.calls.set c call'⟩ y := by
    intro y
    have hold : (s.signals y).retained = tally (fun call => call.holds y) s.calls +
      (s.signals y).owned.toNat := h.counted y
    have hset := tally_set (fun call => call.holds y) hc call'
    have hy := hcounted y
    show _ = tally (fun call => call.holds y) (s.calls.set c call') + (signals' y).owned.toNat
    rw [howned]
    omega
  refine ⟨hnew, fun y => ?_⟩
  have hset := tally_set (fun call => call.frees y) hc call'
  have hy := honce y
  have hold := h.once y
  have hcount := h.counted y
  rw [← hnew]
  show _ + tally (fun call => call.frees y) (s.calls.set c call') + (signals' y).freed = 1
  omega

/-- A signal that a call holds or frees has not been freed. -/
theorem Inv.not_freed (h : Inv s) (hc : s.calls[c]? = some call)
    (huses : 0 < s.holders x ∨ 0 < call.holds x + call.frees x) : (s.signals x).freed = 0 := by
  have honce := h.once x
  have hholds : call.holds x ≤ s.users x :=
    le_tally (fun call => call.holds x) (List.mem_of_getElem? hc)
  have hfrees : call.frees x ≤ tally (fun call => call.frees x) s.calls :=
    le_tally (fun call => call.frees x) (List.mem_of_getElem? hc)
  unfold State.holders at honce huses
  omega

/-- The signals after a step. -/
def Access.apply (a : Access) (signals : Nat → ISignal) : Nat → ISignal :=
  match a.signal with
  | none => signals
  | some x => Function.update signals x (a.effect (signals x))

theorem advance_eq (h : ∀ x, (call.next s.signals s.thread b).signal = some x →
    (s.signals x).freed = 0) :
    s.advance c call b = some ⟨(call.next s.signals s.thread b).apply s.signals, s.thread,
      s.calls.set c (call.goto (call.next s.signals s.thread b).goto)⟩ := by
  unfold State.advance Access.apply
  cases hx : (call.next s.signals s.thread b).signal with
  | none => simp only [hx, State.put]
  | some x =>
    simp only [hx, h x hx, ne_eq, not_true_eq_false, if_false, State.put, State.update]

theorem update_signals_self (f : ISignal → ISignal) :
    (s.update x f).signals x = f (s.signals x) := by
  show Function.update s.signals x _ x = _
  rw [Function.update_self]

theorem update_signals_of_ne (f : ISignal → ISignal) {y : Nat} (h : y ≠ x) :
    (s.update x f).signals y = s.signals y := by
  show Function.update s.signals x _ y = _
  rw [Function.update_of_ne h]

/-- What `f` leaves alone in the signal `x` is left alone in all. -/
theorem update_keeps {f : ISignal → ISignal} {α : Type} {field : ISignal → α}
    (h : field (f (s.signals x)) = field (s.signals x)) (y : Nat) :
    field ((s.update x f).signals y) = field (s.signals y) := by
  by_cases hy : y = x
  · rw [hy, update_signals_self, h]
  · rw [update_signals_of_ne f hy]

theorem apply_of_keeps {a : Access} {P : ISignal → ISignal → Prop} (hrefl : ∀ sig, P sig sig)
    (h : ∀ sig, P (a.effect sig) sig) (signals : Nat → ISignal) (y : Nat) :
    P (a.apply signals y) (signals y) := by
  unfold Access.apply
  cases a.signal with
  | none => exact hrefl _
  | some x =>
    show P (Function.update signals x (a.effect (signals x)) y) (signals y)
    by_cases hy : y = x
    · rw [hy, Function.update_self]
      exact h _
    · rw [Function.update_of_ne hy]
      exact hrefl _

theorem Inv.quiet (h : Inv s) (hc : s.calls[c]? = some call) {a : Access} (hquiet : Quiet call a) :
    Inv ⟨a.apply s.signals, s.thread, s.calls.set c (call.goto a.goto)⟩ := by
  have hkeeps := apply_of_keeps
    (P := fun sig sig' => sig.retained = sig'.retained ∧ sig.freed = sig'.freed ∧
      sig.owned = sig'.owned) (fun _ => ⟨rfl, rfl, rfl⟩) hquiet.keeps s.signals
  refine h.change hc (fun y => (hkeeps y).2.2) (fun y => ?_) fun y => ?_
  · rw [(hkeeps y).1, Call.holds, Call.holds, hquiet.held]
  · rw [(hkeeps y).1, (hkeeps y).2.1, hquiet.frees]

theorem holds_append (l : List Entry) (y : Nat) :
    (l ++ [e]).countP (fun e => e.signal = y) =
      l.countP (fun e => e.signal = y) + if e.signal = y then 1 else 0 := by
  rw [List.countP_append, List.countP_singleton]
  simp only [decide_eq_true_eq]

theorem holds_cons (l : List Entry) (y : Nat) :
    (e :: l).countP (fun e => e.signal = y) =
      l.countP (fun e => e.signal = y) + if e.signal = y then 1 else 0 := by
  rw [List.countP_cons]
  simp only [decide_eq_true_eq]

theorem Inv.retain (h : Inv s) (hc : s.calls[c]? = some call) (hp : call.place = .retain k)
    (he : call.entries[k]? = some e) (hlive : 0 < s.holders e.signal)
    (hfits : s.holders e.signal + 1 < 2 ^ 32) :
    Inv ⟨Function.update s.signals e.signal (s.signals e.signal).retain, s.thread,
      s.calls.set c (call.goto (.retain (k + 1)))⟩ := by
  have hheld : call.held = call.entries.take k := by rw [Call.held, hp]
  have hheld' : (call.goto (.retain (k + 1))).held = call.entries.take (k + 1) := rfl
  have hfrees : ∀ y, call.frees y = 0 := fun y => by rw [Call.frees, hp]
  have hholds : ∀ y, (call.goto (.retain (k + 1))).holds y =
      call.holds y + if e.signal = y then 1 else 0 := by
    intro y
    rw [Call.holds, Call.holds, hheld, hheld', take_of_get he, holds_append]
  have hincrement : (s.signals e.signal).retain.retained = (s.signals e.signal).retained + 1 := by
    refine increment_eq ?_
    rw [h.counted]
    exact hfits
  have hcount := h.counted e.signal
  refine h.change hc (fun y => ?_) (fun y => ?_) fun y => ?_
  · by_cases hy : y = e.signal
    · rw [hy, Function.update_self]
      rfl
    · rw [Function.update_of_ne hy]
  · rw [hholds]
    by_cases hy : y = e.signal
    · rw [hy, Function.update_self, hincrement, if_pos rfl]
      omega
    · rw [Function.update_of_ne hy, if_neg (Ne.symm hy)]
      rfl
  · rw [hfrees]
    show _ + 0 + _ = _
    by_cases hy : y = e.signal
    · rw [hy, Function.update_self, hincrement]
      show _ + 0 + (s.signals e.signal).freed = _
      omega
    · rw [Function.update_of_ne hy]

theorem Inv.release (h : Inv s) (hc : s.calls[c]? = some call) (hp : call.place = .release k)
    (he : call.entries[k]? = some e) :
    Inv ⟨Function.update s.signals e.signal (s.signals e.signal).release, s.thread,
      s.calls.set c (call.goto (if decrement (s.signals e.signal).retained = 0 then .isIPC k
        else .release (k + 1)))⟩ := by
  have hheld : call.held = e :: call.entries.drop (k + 1) := by
    rw [Call.held, hp]
    exact drop_of_get he
  have hfrees : ∀ y, call.frees y = 0 := fun y => by rw [Call.frees, hp]
  have hholds : ∀ y, call.holds y = (call.entries.drop (k + 1)).countP (fun e => e.signal = y) +
      if e.signal = y then 1 else 0 := by
    intro y
    rw [Call.holds, hheld, holds_cons]
  have hcount : (s.signals e.signal).retained = s.users e.signal + _ := h.counted e.signal
  have hle : call.holds e.signal ≤ s.users e.signal :=
    le_tally (fun call => call.holds e.signal) (List.mem_of_getElem? hc)
  have hpos := hholds e.signal
  rw [if_pos rfl] at hpos
  have hdecrement : (s.signals e.signal).release.retained = (s.signals e.signal).retained - 1 :=
    decrement_eq (by omega)
  have hzero : decrement (s.signals e.signal).retained = (s.signals e.signal).retained - 1 :=
    decrement_eq (by omega)
  rw [hzero]
  -- both places hold the same
  have hgoto : ∀ place, (call.goto place).held = call.entries.drop (k + 1) →
      (∀ y, min ((s.signals y).retained - if y = e.signal then 1 else 0) 1 +
        (call.goto place).frees y = min (s.signals y).retained 1) →
      Inv ⟨Function.update s.signals e.signal (s.signals e.signal).release, s.thread,
        s.calls.set c (call.goto place)⟩ := by
    intro place hplace hone
    refine h.change hc (fun y => ?_) (fun y => ?_) fun y => ?_
    · by_cases hy : y = e.signal
      · rw [hy, Function.update_self]
        rfl
      · rw [Function.update_of_ne hy]
    · rw [hholds, Call.holds, hplace]
      by_cases hy : y = e.signal
      · rw [hy, Function.update_self, hdecrement, if_pos rfl]
        omega
      · rw [Function.update_of_ne hy, if_neg (Ne.symm hy)]
        rfl
    · have hy := hone y
      rw [hfrees]
      by_cases hy' : y = e.signal
      · rw [if_pos hy'] at hy
        rw [hy', Function.update_self, hdecrement]
        rw [hy'] at hy
        show _ + _ + (s.signals e.signal).freed = _
        omega
      · rw [if_neg hy'] at hy
        rw [Function.update_of_ne hy']
        omega
  by_cases hlast : (s.signals e.signal).retained - 1 = 0
  · rw [if_pos hlast]
    refine hgoto _ rfl fun y => ?_
    have hfrees' : (call.goto (.isIPC k)).frees y = if y = e.signal then 1 else 0 := by
      show (if (call.entries[k]?.any fun e => e.signal = y) then 1 else 0) = _
      simp only [he, Option.any_some, decide_eq_true_eq, @eq_comm _ e.signal]
    rw [hfrees']
    by_cases hy : y = e.signal
    · rw [if_pos hy, hy]
      omega
    · rw [if_neg hy]
      rfl
  · rw [if_neg hlast]
    refine hgoto _ rfl fun y => ?_
    show _ + 0 = _
    by_cases hy : y = e.signal
    · rw [if_pos hy, hy]
      omega
    · rw [if_neg hy]
      rfl

theorem Inv.doDestroySignal (h : Inv s) (hc : s.calls[c]? = some call)
    (hp : call.place = .doDestroySignal k) (he : call.entries[k]? = some e) :
    Inv ⟨Function.update s.signals e.signal (s.signals e.signal).doDestroySignal, s.thread,
      s.calls.set c (call.goto (.release (k + 1)))⟩ := by
  have hheld : call.held = (call.goto (.release (k + 1))).held := by
    rw [Call.held, hp]
    rfl
  have hfrees : ∀ y, call.frees y = if y = e.signal then 1 else 0 := by
    intro y
    rw [Call.frees, hp]
    simp only [he, Option.any_some, decide_eq_true_eq, @eq_comm _ e.signal]
  refine h.change hc (fun y => ?_) (fun y => ?_) fun y => ?_
  · by_cases hy : y = e.signal
    · rw [hy, Function.update_self]
      rfl
    · rw [Function.update_of_ne hy]
  · rw [Call.holds, Call.holds, hheld]
    by_cases hy : y = e.signal
    · rw [hy, Function.update_self]
      rfl
    · rw [Function.update_of_ne hy]
  · rw [hfrees]
    by_cases hy : y = e.signal
    · rw [hy, Function.update_self, if_pos rfl]
      show _ + 0 + ((s.signals e.signal).freed + 1) = _
      have hretained : (s.signals e.signal).doDestroySignal.retained =
        (s.signals e.signal).retained := rfl
      omega
    · rw [Function.update_of_ne hy, if_neg hy]
      rfl

/-- An enabled step has a result. -/
theorem Inv.advance_isSome (h : Inv s) (hc : s.calls[c]? = some call)
    (hlive : ∀ x, call.retains = some x → 0 < s.holders x) :
    s.advance c call b = some ⟨(call.next s.signals s.thread b).apply s.signals, s.thread,
      s.calls.set c (call.goto (call.next s.signals s.thread b).goto)⟩ := by
  refine advance_eq fun x hx => ?_
  rcases next_uses hx with hretains | huses
  · exact h.not_freed hc (.inl (hlive x hretains))
  · exact h.not_freed hc (.inr huses)

/-- A step keeps the invariant, unless a registration fails. -/
theorem Inv.advance (h : Inv s) (hc : s.calls[c]? = some call) (hover : call.isOver = false)
    (hlive : ∀ x, call.retains = some x → 0 < s.holders x)
    (hlock : call.place = .lock → s.thread = true ∧ b = false)
    (hroom : ∀ x, call.retains = some x → s.holders x + 1 < 2 ^ 32) :
    Inv ⟨(call.next s.signals s.thread b).apply s.signals, s.thread,
      s.calls.set c (call.goto (call.next s.signals s.thread b).goto)⟩ := by
  rcases @next_cases s.signals s.thread b call hlock hover with ⟨k, e, hp, he, hnext⟩ |
    ⟨k, e, hp, he, hnext⟩ | ⟨k, e, hp, he, hnext⟩ | hquiet
  · have hretains : call.retains = some e.signal := by
      rw [Call.retains, hp]
      simp only [he, Option.map_some]
    rw [hnext]
    exact h.retain hc hp he (hlive _ hretains) (hroom _ hretains)
  · rw [hnext]
    exact h.release hc hp he
  · rw [hnext]
    exact h.doDestroySignal hc hp he
  · exact h.quiet hc hquiet

theorem holders_append {signals' : Nat → ISignal} {new : Call} (y : Nat) :
    State.holders ⟨signals', s.thread, s.calls ++ [new]⟩ y =
      s.users y + new.holds y + (signals' y).owned.toNat := by
  show tally (fun call => call.holds y) (s.calls ++ [new]) + _ = _
  rw [tally_append, tally_cons]
  rfl

/-- A new call holds what the handle has held. -/
theorem Inv.append (h : Inv s) {signals' : Nat → ISignal} {new : Call}
    (hfrees : ∀ y, new.frees y = 0)
    (hretained : ∀ y, (signals' y).retained = (s.signals y).retained)
    (hfreed : ∀ y, (signals' y).freed = (s.signals y).freed)
    (howned : ∀ y, new.holds y + (signals' y).owned.toNat = (s.signals y).owned.toNat) :
    Inv ⟨signals', s.thread, s.calls ++ [new]⟩ := by
  have hholders : ∀ y, State.holders ⟨signals', s.thread, s.calls ++ [new]⟩ y = s.holders y := by
    intro y
    have hy := howned y
    rw [holders_append]
    unfold State.holders
    omega
  refine ⟨fun y => ?_, fun y => ?_⟩
  · rw [hholders]
    exact (hretained y).trans (h.counted y)
  · rw [hholders, tally_append, tally_cons, hfrees]
    have honce := h.once y
    show _ + (_ + (0 + 0)) + (signals' y).freed = 1
    rw [hfreed]
    exact honce

theorem Inv.store (h : Inv s) (x : Nat) (value : Value) :
    Inv (s.update x fun sig => { sig with value := storeRelaxed sig.value value }) := by
  have hretained : ∀ y, ((s.update x fun sig =>
      { sig with value := storeRelaxed sig.value value }).signals y).retained =
      (s.signals y).retained := update_keeps rfl
  have hfreed : ∀ y, ((s.update x fun sig =>
      { sig with value := storeRelaxed sig.value value }).signals y).freed =
      (s.signals y).freed := update_keeps rfl
  have howned : ∀ y, ((s.update x fun sig =>
      { sig with value := storeRelaxed sig.value value }).signals y).owned =
      (s.signals y).owned := update_keeps rfl
  have hholders : ∀ y, (s.update x fun sig =>
      { sig with value := storeRelaxed sig.value value }).holders y = s.holders y := by
    intro y
    unfold State.holders
    rw [howned]
    rfl
  refine ⟨fun y => ?_, fun y => ?_⟩
  · rw [hholders, hretained]
    exact h.counted y
  · rw [hholders, hfreed]
    exact h.once y

theorem Inv.destroySignal (h : Inv s) (howned : (s.signals x).owned = true) :
    Inv { s.update x fun sig => { sig with owned := false } with
      calls := s.calls ++ [⟨.destroy, [⟨x, none, 0⟩], .destroy⟩] } := by
  refine h.append (fun y => rfl) (update_keeps rfl) (update_keeps rfl) fun y => ?_
  have hholds : Call.holds ⟨.destroy, [⟨x, none, 0⟩], .destroy⟩ y = if x = y then 1 else 0 := by
    show List.countP _ [_] = _
    rw [List.countP_singleton]
    simp only [decide_eq_true_eq]
  rw [hholds]
  by_cases hy : y = x
  · rw [hy, update_signals_self, if_pos rfl, howned]
    rfl
  · rw [update_signals_of_ne _ hy, if_neg (Ne.symm hy), Nat.zero_add]

/-- Every enabled action has a result, and one that fits keeps the invariant. -/
theorem Inv.next {a : Action} (h : Inv s) (henabled : s.enabled a = true) :
    ∃ t, s.next a = some t ∧ (Fits s a → Inv t) := by
  cases a with
  | call kind entries =>
    refine ⟨_, rfl, fun _ => h.append (fun _ => rfl) (fun _ => rfl) (fun _ => rfl) fun y => ?_⟩
    show 0 + _ = _
    rw [Nat.zero_add]
  | destroySignal x => exact ⟨_, rfl, fun _ => h.destroySignal henabled⟩
  | store x value =>
    have hfreed : (s.signals x).freed = 0 := by
      have honce := h.once x
      have howned : s.holders x = s.users x + 1 := by
        rw [State.holders, show (s.signals x).owned = true from henabled]
        rfl
      omega
    refine ⟨_, ?_, fun _ => h.store x value⟩
    simp only [State.next, hfreed, ne_eq, not_true_eq_false, if_false]
  | step c b =>
    cases hc : s.calls[c]? with
    | none =>
      simp only [State.enabled, hc, Option.any_none] at henabled
      cases henabled
    | some call =>
      simp only [State.enabled, hc, Option.any_some, Bool.and_eq_true, Bool.not_eq_true',
        Option.all_eq_true, decide_eq_true_eq] at henabled
      obtain ⟨hover, hlive⟩ := henabled
      have hsome := h.advance_isSome (b := b) hc hlive
      refine ⟨_, Eq.trans ?_ hsome, fun hfits => ?_⟩
      · simp only [State.next, hc]
      · obtain ⟨hlock, hroom⟩ := hfits call (by rw [hc]; rfl)
        exact h.advance hc hover hlive hlock hroom
  | shutdown => exact ⟨_, rfl, fun _ => ⟨h.counted, h.once⟩⟩

theorem Inv.freed (h : Inv s) (hover : ∀ call ∈ s.calls, call.isOver = true)
    (howned : (s.signals x).owned = false) : (s.signals x).freed = 1 := by
  have hnone : ∀ call ∈ s.calls, call.holds x = 0 ∧ call.frees x = 0 := by
    intro call hc
    have hplace : call.place = .returned ∨ call.place = .failed :=
      of_decide_eq_true (hover call hc)
    rcases hplace with hp | hp <;> rw [Call.holds, Call.held, Call.frees, hp] <;> exact ⟨rfl, rfl⟩
  have husers : s.users x = 0 := tally_eq_zero.2 fun call hc => (hnone call hc).1
  have hfrees : tally (fun call => call.frees x) s.calls = 0 :=
    tally_eq_zero.2 fun call hc => (hnone call hc).2
  have honce := h.once x
  rw [State.holders, howned, husers, hfrees] at honce
  simpa using honce

/-! ## The lifetime -/

/-- While no registration fails and `retained_` has room, the users of every signal are counted,
and it is freed once, after the last of them. -/
theorem lifetime_balanced {value : Nat → Storage} {thread : Bool}
    (hrun : Run machine Fits (State.initial value thread) s) : Balanced s := by
  have h : Inv s := by
    refine hrun.invariant (inv_initial value thread) fun t a u ht henabled hfits hstep => ?_
    obtain ⟨v, hv, hinv⟩ := ht.next henabled
    obtain rfl : v = u := Option.some.inj (hv.symm.trans hstep)
    exact hinv hfits
  refine ⟨h.counted, fun x => ?_, fun x hx => ?_, fun hover x => h.freed hover, fun a ha => ?_⟩
  · have honce := h.once x
    omega
  · have honce := h.once x
    unfold State.holders at honce
    have howned : (s.signals x).owned.toNat = 0 := by omega
    exact ⟨by omega, Bool.toNat_eq_zero.1 howned⟩
  · obtain ⟨t, ht, -⟩ := h.next ha
    rw [ht]
    rfl

/-- Steps of one call, with the same answer of the surroundings. -/
def steps (c n : Nat) (b : Bool) : List Action := List.replicate n (.step c b)

/-- A wait for the same signal twice and a registration outlive `DestroySignal`; the wait
frees the signal. -/
theorem lifetime_balanced_twice : ∃ s, Run machine Fits (State.initial (fun _ => 0) true) s ∧
    decide ((s.signals 0).freed = 1) = true ∧ Balanced s := by
  have hexec : ((machine.exec Fits (State.initial (fun _ => 0) true)
      (.call .waitAny [⟨0, some .eq, 0⟩, ⟨0, some .eq, 0⟩] :: steps 0 6 false ++
        .call .register [⟨0, some .eq, 0⟩] :: steps 1 3 false ++
        .destroySignal 0 :: steps 2 4 false ++ steps 1 3 false ++ steps 0 9 false)).any
      fun s => decide ((s.signals 0).freed = 1)) = true := by
    decide +kernel
  obtain ⟨s, hs, hfreed⟩ := Run.exists_of_exec hexec
  exact ⟨s, hs, hfreed, lifetime_balanced hs⟩

/-- There is no thread: the registration fails, and the signal is never freed. -/
theorem failed_registration_leaks : ¬ ∀ (value : Nat → Storage) (s : State),
    Run machine anyAction (State.initial value false) s → Balanced s := by
  intro hall
  have hexec : ((machine.exec anyAction (State.initial (fun _ => 0) false)
      (.call .register [⟨0, some .eq, 0⟩] :: steps 0 3 false ++
        .destroySignal 0 :: steps 1 4 false)).any fun s =>
      decide ((∀ call ∈ s.calls, call.isOver = true) ∧ (s.signals 0).owned = false ∧
        (s.signals 0).freed = 0)) = true := by
    decide +kernel
  obtain ⟨s, hs, hend⟩ := Run.exists_of_exec hexec
  obtain ⟨hover, howned, hfreed⟩ := of_decide_eq_true hend
  have hone := (hall (fun _ => 0) s hs).freed hover 0 howned
  omega

end Costream.Signal.Lifetime
