import Costream.Signal.EventLoop

/-!
# A wait for any of several signals

`StreamPool::WaitAnySignal` retains its signals, counts itself in the `waiting_` of each, and then
looks at one after the other, again and again, until one of them ends the wait or the time is over.
Its scope guards undo the counts on every path.  All the while others change the values, the counts
and the events.

* `machine` is one call, with what others do between its steps.  The state also says what the counts
  would be without the call (`others`), and what the signals have been since it began (`had`,
  `died`).
* `Outcome` is what the caller can rely on.
* `signal_value_t` has 32 bits, or 64 with `LARGE_MODEL`: it is a `BitVec w`.

The value that is returned is cut to `w` bits after the comparison, and a memory fault ends the wait
without a value (`wait_any_outcome`, `cut_value_fails`).
-/

namespace Costream.Signal.WaitAny

open Trace

/-! ## The state -/

structure ISignal where
  value : Storage
  refcount : BitVec 32
  retained : BitVec 32
  waiting : BitVec 32
  /-- `EopEvent()` -/
  event : Option Nat

/-- `IsValid()` -/
def ISignal.isValid (sig : ISignal) : Bool := sig.refcount ≠ 0

structure HsaEvent where
  /-- `EventType == EVENTTYPE_MEMORY` -/
  memory : Bool
  /-- `MemoryAccessFault.Flags == EVENTID_MEMORY_FATAL_PROCESS` -/
  fatal : Bool

/-- A place of the lists.  A condition that is none of the four is `none`. -/
structure Entry (w : Nat) where
  signal : Nat
  condition : Option Condition
  value : BitVec w

/-- The arguments. -/
structure Call (w : Nat) where
  entries : List (Entry w)
  /-- What `GetTimeout(timeout)` is, in ticks of the clock.  `none` is infinite, or no number, and
  never over: the frequency by which the source divides is 0. -/
  fastTimeout : Option Int
  /-- `wait_hint == ACTIVE` -/
  active : Bool
  /-- `satisfying_value != NULL` -/
  wantsValue : Bool

/-- `elapsed > fast_timeout` -/
def Call.expired {w : Nat} (call : Call w) (elapsed : Int) : Bool :=
  call.fastTimeout.any fun fastTimeout => fastTimeout < elapsed

/-- How a call ends. -/
inductive Result where
  | index (i : Nat)
  /-- `uint32_t(-1)` -/
  | minusOne
  /-- `new` has thrown. -/
  | thrown
  deriving DecidableEq

/-- What a call does next; `k` is an index into its lists. -/
inductive Place where
  | retain (k : Nat)
  | enter (k : Nat)
  | sleepable (k : Nat)
  /-- Before the memory for `evts`. -/
  | allocate
  | clock
  | valid (k : Nat)
  /-- Before the look for a memory fault. -/
  | special (k : Nat)
  | load (k : Nat)
  | time
  /-- In `WaitOnMultipleEvents`. -/
  | wait
  /-- Before the guard of `evts`. -/
  | delete (r : Result)
  /-- Before the guard of `waiting_`, at index `k`. -/
  | leave (k : Nat) (r : Result)
  /-- Before the guard of `retained_`, at index `k`. -/
  | release (k : Nat) (r : Result)
  | done (r : Result)
  deriving DecidableEq

/-- The counts of a signal. -/
structure Counts where
  retained : BitVec 32
  waiting : BitVec 32

structure State (w : Nat) where
  call : Call w
  signals : Nat → ISignal
  events : Nat → HsaEvent
  /-- `wait_hint == ACTIVE` by now. -/
  active : Bool
  prior : Nat
  /-- `evts` is memory from `new`. -/
  allocated : Bool
  startTime : Int
  /-- The last reading of the clock. -/
  now : Int
  /-- `*satisfying_value`, once it has been assigned. -/
  satisfyingValue : Option (BitVec w)
  place : Place
  /-- What the counts would be without this call. -/
  others : Nat → Counts
  /-- The values that a signal has had since the call began. -/
  had : Nat → List Storage
  /-- A signal has been invalid since the call began. -/
  died : Nat → Bool

/-- The call begins. -/
def State.start {w : Nat} (call : Call w) (signals : Nat → ISignal) (events : Nat → HsaEvent) :
    State w where
  call := call
  signals := signals
  events := events
  active := call.active
  prior := 0
  allocated := false
  startTime := 0
  now := 0
  satisfyingValue := none
  place := .retain 0
  others x := ⟨(signals x).retained, (signals x).waiting⟩
  had x := [(signals x).value]
  died x := !(signals x).isValid

/-! ## The code -/

/-- `value` as an `int64_t`. -/
def extend {w : Nat} (value : BitVec w) : Storage := value.signExtend 64

/-- `signal_value_t(value)` -/
def cut (w : Nat) (value : Storage) : BitVec w := value.setWidth w

/-- 200 microseconds, in ticks of the clock. -/
def kMaxElapsed : Int := 200000000

def smallSize : Nat := 10

namespace State

variable {w : Nat} (s : State w)

def goto (place : Place) : State w := { s with place := place }

/-- One signal is changed. -/
def update (x : Nat) (f : ISignal → ISignal) : State w :=
  { s with signals := Function.update s.signals x (f (s.signals x)) }

/-- The event of the signal reports a memory fault that is fatal for the process. -/
def faulted (x : Nat) : Bool :=
  match (s.signals x).event with
  | none => false
  | some e => (s.events e).memory && (s.events e).fatal

/-- The loops over the lists: the body for index `k`, or what comes after the loop. -/
def forEach (k : Nat) (body : Entry w → State w) (after : State w) : State w :=
  match s.call.entries[k]? with
  | some e => body e
  | none => after

/-- The value of the signal of an entry is loaded and compared. -/
def compare (k : Nat) (e : Entry w) : State w :=
  let value := (s.signals e.signal).value
  match e.condition with
  | none => s.goto (.delete .minusOne)
  | some condition =>
    if condition.met value (extend e.value) then
      { s with
        satisfyingValue := if s.call.wantsValue then some (cut w value) else s.satisfyingValue
        place := .delete (.index k) }
    else
      s.goto (.valid (k + 1))

/-- After no entry has ended the wait. -/
def look (time : Int) : State w :=
  let s := { s with now := time }
  if s.call.expired (time - s.startTime) then
    s.goto (.delete .minusOne)
  else if s.active then
    s.goto (.valid 0)
  else if time - s.startTime < kMaxElapsed then
    s.goto (.valid 0)
  else
    s.goto .wait

/-- The next step of the call; `time` is what the clock reads, and `memory` says whether `new`
succeeds. -/
def advance (time : Int) (memory : Bool) : Option (State w) :=
  match s.place with
  | .retain k =>
    some (s.forEach k
      (fun e => (s.update e.signal fun sig => { sig with retained := sig.retained + 1 }).goto
        (.retain (k + 1)))
      (s.goto (.enter 0)))
  | .enter k =>
    some (s.forEach k
      (fun e =>
        { s.update e.signal fun sig => { sig with waiting := sig.waiting + 1 } with
          prior := max s.prior (s.signals e.signal).waiting.toNat
          place := .enter (k + 1) })
      (if s.active = true ∨ s.prior ≠ 0 then { s with active := true, place := .clock }
        else s.goto (.sleepable 0)))
  | .sleepable k =>
    some (s.forEach k
      (fun e =>
        if (s.signals e.signal).event = none then { s with active := true, place := .clock }
        else s.goto (.sleepable (k + 1)))
      (s.goto .allocate))
  | .allocate =>
    some (if smallSize < s.call.entries.length then
        if memory then { s with allocated := true, place := .clock }
        else s.goto (.leave 0 .thrown)
      else s.goto .clock)
  | .clock => some { s with startTime := time, place := .valid 0 }
  | .valid k =>
    some (s.forEach k
      (fun e => s.goto (if (s.signals e.signal).isValid then .special k else .delete .minusOne))
      (s.goto .time))
  | .special k =>
    some (s.forEach k
      (fun e => s.goto (if s.faulted e.signal then .delete (.index k) else .load k))
      (s.goto .time))
  | .load k => some (s.forEach k (s.compare k) (s.goto .time))
  | .time => some (s.look time)
  | .wait => some (s.goto (.valid 0))
  | .delete r => some { s with allocated := false, place := .leave 0 r }
  | .leave k r =>
    some (s.forEach k
      (fun e => (s.update e.signal fun sig => { sig with waiting := sig.waiting - 1 }).goto
        (.leave (k + 1) r))
      (s.goto (.release 0 r)))
  | .release k r =>
    some (s.forEach k
      (fun e => (s.update e.signal fun sig => { sig with retained := sig.retained - 1 }).goto
        (.release (k + 1) r))
      (s.goto (.done r)))
  | .done _ => none

end State

inductive Action where
  /-- The next step of the call. -/
  | step (time : Int) (memory : Bool)
  /-- Others change the value of a signal, -/
  | store (x : Nat) (value : Storage)
  /-- the number of its handles, -/
  | handles (x : Nat) (refcount : BitVec 32)
  /-- and its counts, by as much as they like. -/
  | count (x : Nat) (retained waiting : BitVec 32)
  /-- The device changes an event. -/
  | event (e : Nat) (fatal : Bool)

namespace State

variable {w : Nat} (s : State w)

def next : Action → Option (State w)
  | .step time memory => s.advance time memory
  | .store x value =>
    some { s.update x fun sig => { sig with value := value } with
      had := Function.update s.had x (s.had x ++ [value]) }
  | .handles x refcount =>
    some { s.update x fun sig => { sig with refcount := refcount } with
      died := Function.update s.died x (s.died x || refcount = 0) }
  | .count x retained waiting =>
    some { s.update x fun sig =>
        { sig with retained := sig.retained + retained, waiting := sig.waiting + waiting } with
      others := Function.update s.others x
        ⟨(s.others x).retained + retained, (s.others x).waiting + waiting⟩ }
  | .event e fatal =>
    some { s with events := Function.update s.events e { s.events e with fatal := fatal } }

end State

def machine (w : Nat) : Machine (State w) Action where
  enabled s a := (s.next a).isSome = true
  step := State.next

instance (w : Nat) (s : State w) (a : Action) : Decidable ((machine w).enabled s a) :=
  instDecidableEqBool (s.next a).isSome true

/-! ## What is kept -/

section

variable {w : Nat}

/-- The value meets the condition of the entry, and the signal has had it since the call began. -/
def State.Satisfies (s : State w) (e : Entry w) (value : BitVec w) : Prop :=
  (∃ v ∈ s.had e.signal, value = cut w v) ∧
    ∃ condition ∈ e.condition, condition.met value e.value = true

/-- A call that has come to `r` leaves nothing behind, and `-1` has a reason. -/
structure Undone (s : State w) (r : Result) : Prop where
  minusOne : r = .minusOne → (∃ e ∈ s.call.entries, s.died e.signal = true) ∨
    (∃ e ∈ s.call.entries, e.condition = none) ∨
      s.call.expired (s.now - s.startTime) = true
  counts : ∀ x, (s.signals x).retained = (s.others x).retained ∧
    (s.signals x).waiting = (s.others x).waiting
  memory : s.allocated = false

/-- What the caller can rely on when the call has come to `r`. -/
structure Outcome (s : State w) (r : Result) : Prop extends Undone s r where
  index : ∀ i, r = .index i → ∃ e, s.call.entries[i]? = some e ∧
    (s.call.wantsValue = true → ∃ value, s.satisfyingValue = some value ∧ s.Satisfies e value)

/-- The step does not end the wait for a memory fault, nor for a value that meets the condition only
before it is cut, while the caller wants a value. -/
def State.fits (s : State w) : Action → Bool
  | .step _ _ =>
    match s.place with
    | .special k =>
      s.call.entries[k]?.all fun e => !(s.call.wantsValue && s.faulted e.signal)
    | .load k =>
      s.call.entries[k]?.all fun e => e.condition.all fun condition =>
        let value := (s.signals e.signal).value
        !(s.call.wantsValue && condition.met value (extend e.value)) ||
          condition.met (cut w value) e.value
    | _ => true
  | _ => true

def Fits (s : State w) (a : Action) : Prop := s.fits a = true

instance (s : State w) (a : Action) : Decidable (Fits s a) :=
  inferInstanceAs (Decidable (s.fits a = true))

end

/-! ## The invariant -/

section

variable {w k : Nat} {s t : State w} {a : Action} {r : Result} {e : Entry w} {x : Nat}
variable {good : Prop} {l : List (Entry w)}

/-- The entries whose signals the call has retained. -/
def Place.held (l : List (Entry w)) : Place → List (Entry w)
  | .retain k => l.take k
  | .release k _ => l.drop k
  | .done _ => []
  | _ => l

/-- The entries in whose signals the call has counted itself. -/
def Place.entered (l : List (Entry w)) : Place → List (Entry w)
  | .retain _ => []
  | .enter k => l.take k
  | .leave k _ => l.drop k
  | .release _ _ => []
  | .done _ => []
  | _ => l

/-- The guard of `evts` is there. -/
def Place.guarded : Place → Bool
  | .clock => true
  | .valid _ => true
  | .special _ => true
  | .load _ => true
  | .time => true
  | .wait => true
  | .delete _ => true
  | _ => false

/-- How often a signal is in a list. -/
def times (l : List (Entry w)) (x : Nat) : BitVec 32 :=
  BitVec.ofNat 32 (l.countP fun e => e.signal = x)

/-- Why the call ends with `r`; with `good` as it should. -/
def State.Ended (good : Prop) (s : State w) : Result → Prop
  | .index i => ∃ e, s.call.entries[i]? = some e ∧ (good → s.call.wantsValue = true →
      ∃ value, s.satisfyingValue = some value ∧ s.Satisfies e value)
  | .minusOne => (∃ e ∈ s.call.entries, s.died e.signal = true) ∨
      (∃ e ∈ s.call.entries, e.condition = none) ∨
        s.call.expired (s.now - s.startTime) = true
  | .thrown => True

/-- How the call will end, once that has been decided. -/
def Place.decided : Place → Option Result
  | .delete r => some r
  | .leave _ r => some r
  | .release _ r => some r
  | .done r => some r
  | _ => none

/-- What has been decided, where the call stands. -/
def State.At (good : Prop) (s : State w) (p : Place) : Prop :=
  match p.decided with
  | some r => s.Ended good r
  | none => s.satisfyingValue = none

structure Inv (good : Prop) (s : State w) : Prop where
  retained : ∀ x, (s.signals x).retained =
    (s.others x).retained + times (s.place.held s.call.entries) x
  waiting : ∀ x, (s.signals x).waiting =
    (s.others x).waiting + times (s.place.entered s.call.entries) x
  had : ∀ x, (s.signals x).value ∈ s.had x
  died : ∀ x, (s.signals x).isValid = false → s.died x = true
  allocated : s.place.guarded = false → s.allocated = false
  decided : s.At good s.place

theorem inv_start (call : Call w) (signals : Nat → ISignal) (events : Nat → HsaEvent) :
    Inv good (State.start call signals events) := by
  refine ⟨fun x => (BitVec.add_zero _).symm, fun x => (BitVec.add_zero _).symm,
    fun x => List.mem_singleton.2 rfl, fun x hx => ?_, fun _ => rfl, rfl⟩
  show (!(signals x).isValid) = true
  rw [Bool.not_eq_true', ← hx]
  rfl

theorem times_append_singleton :
    times (l ++ [e]) x = times l x + if e.signal = x then 1#32 else 0#32 := by
  unfold times
  rw [List.countP_append, BitVec.ofNat_add, List.countP_singleton]
  by_cases hx : e.signal = x
  · simp [hx]
  · simp [hx]

theorem times_cons : times (e :: l) x = times l x + if e.signal = x then 1#32 else 0#32 := by
  unfold times
  rw [List.countP_cons, BitVec.ofNat_add]
  by_cases hx : e.signal = x
  · simp [hx]
  · simp [hx]

theorem drop_of_get (h : l[k]? = some e) : l.drop k = e :: l.drop (k + 1) := by
  obtain ⟨hk, he⟩ := List.getElem?_eq_some_iff.1 h
  rw [List.drop_eq_getElem_cons hk, he]

theorem take_of_get (h : l[k]? = some e) : l.take (k + 1) = l.take k ++ [e] := by
  rw [List.take_add_one, h]
  rfl

theorem times_drop (h : l[k]? = some e) :
    times (l.drop (k + 1)) x = times (l.drop k) x + if e.signal = x then -1#32 else 0#32 := by
  rw [drop_of_get h, times_cons]
  split
  · bv_omega
  · bv_omega

theorem forEach_some {body : Entry w → State w} {after : State w}
    (h : s.call.entries[k]? = some e) : s.forEach k body after = body e := by
  unfold State.forEach
  rw [h]

theorem forEach_none {body : Entry w → State w} {after : State w}
    (h : s.call.entries[k]? = none) : s.forEach k body after = after := by
  unfold State.forEach
  rw [h]

/-- A step of the call. -/
structure Frame (s t : State w) : Prop where
  call : t.call = s.call
  others : t.others = s.others
  had : t.had = s.had
  died : t.died = s.died

/-- A step that leaves the signals alone. -/
theorem Inv.quiet (h : Inv good s) (hframe : Frame s t) (hsignals : t.signals = s.signals)
    (hheld : t.place.held s.call.entries = s.place.held s.call.entries)
    (hentered : t.place.entered s.call.entries = s.place.entered s.call.entries)
    (hallocated : t.place.guarded = false → t.allocated = false) (hdecided : t.At good t.place) :
    Inv good t := by
  refine ⟨fun x => ?_, fun x => ?_, fun x => ?_, fun x => ?_, hallocated, hdecided⟩
  · rw [hsignals, hframe.others, hframe.call, hheld]
    exact h.retained x
  · rw [hsignals, hframe.others, hframe.call, hentered]
    exact h.waiting x
  · rw [hsignals, hframe.had]
    exact h.had x
  · rw [hsignals, hframe.died]
    exact h.died x

/-- A step to a place with the guard, which the call comes to with the same counts. -/
theorem Inv.move (h : Inv good s) {p : Place} (hp : s.place = p) (hframe : Frame s t)
    (hsignals : t.signals = s.signals)
    (hheld : t.place.held s.call.entries = p.held s.call.entries)
    (hentered : t.place.entered s.call.entries = p.entered s.call.entries)
    (hguarded : t.place.guarded = true) (hdecided : t.At good t.place) : Inv good t := by
  rw [← hp] at hheld hentered
  refine h.quiet hframe hsignals hheld hentered ?_ hdecided
  intro hfree
  rw [hguarded] at hfree
  cases hfree

/-- A step that adds to the counts of a signal. -/
theorem Inv.add (h : Inv good s) (hframe : Frame s t) {f : ISignal → ISignal} {y : Nat}
    {m n : BitVec 32} (hsignals : t.signals = Function.update s.signals y (f (s.signals y)))
    (hvalue : ∀ sig, (f sig).value = sig.value ∧ (f sig).refcount = sig.refcount)
    (hretained : ∀ sig, (f sig).retained = sig.retained + m)
    (hwaiting : ∀ sig, (f sig).waiting = sig.waiting + n)
    (hheld : ∀ x, times (t.place.held s.call.entries) x =
      times (s.place.held s.call.entries) x + if y = x then m else 0#32)
    (hentered : ∀ x, times (t.place.entered s.call.entries) x =
      times (s.place.entered s.call.entries) x + if y = x then n else 0#32)
    (hallocated : t.place.guarded = false → t.allocated = false) (hdecided : t.At good t.place) :
    Inv good t := by
  have hcase : ∀ x, t.signals x = if x = y then f (s.signals x) else s.signals x := by
    intro x
    rw [hsignals, Function.update_apply]
    split
    · rename_i hx
      rw [hx]
    · rfl
  refine ⟨fun x => ?_, fun x => ?_, fun x => ?_, fun x => ?_, hallocated, hdecided⟩
  · rw [hcase, hframe.others, hframe.call, hheld, ← BitVec.add_assoc, ← h.retained]
    by_cases hx : x = y
    · rw [if_pos hx, if_pos hx.symm, hretained]
    · rw [if_neg hx, if_neg (Ne.symm hx), BitVec.add_zero]
  · rw [hcase, hframe.others, hframe.call, hentered, ← BitVec.add_assoc, ← h.waiting]
    by_cases hx : x = y
    · rw [if_pos hx, if_pos hx.symm, hwaiting]
    · rw [if_neg hx, if_neg (Ne.symm hx), BitVec.add_zero]
  · rw [hcase, hframe.had]
    split
    · rw [(hvalue _).1]
      exact h.had x
    · exact h.had x
  · rw [hcase, hframe.died]
    intro hx
    refine h.died x ?_
    split at hx
    · rw [ISignal.isValid, (hvalue _).2] at hx
      exact hx
    · exact hx

/-! ## The steps of the call -/

theorem advance_retain (h : Inv good s) (hp : s.place = .retain k) {time : Int} {memory : Bool}
    (hs : s.advance time memory = some t) : Inv good t := by
  unfold State.advance at hs
  rw [hp] at hs
  have hdecided := h.decided
  rw [hp] at hdecided
  have hallocated := h.allocated (by rw [hp]; rfl)
  cases he : s.call.entries[k]? with
  | none =>
    simp only [forEach_none he, Option.some.injEq] at hs
    subst hs
    have htake : s.call.entries.take k = s.call.entries :=
      List.take_of_length_le (List.getElem?_eq_none_iff.1 he)
    refine h.quiet ⟨rfl, rfl, rfl, rfl⟩ rfl ?_ ?_ (fun _ => hallocated) hdecided
    · rw [hp]
      exact htake.symm
    · rw [hp]
      rfl
  | some e =>
    simp only [forEach_some he, Option.some.injEq] at hs
    subst hs
    refine h.add (f := fun sig => { sig with retained := sig.retained + 1 }) (m := 1#32) (n := 0#32)
      ⟨rfl, rfl, rfl, rfl⟩ rfl (fun _ => ⟨rfl, rfl⟩) (fun _ => rfl)
      (fun _ => (BitVec.add_zero _).symm) (fun x => ?_) (fun x => ?_) (fun _ => hallocated) hdecided
    · rw [hp]
      show times (s.call.entries.take (k + 1)) x = _
      rw [take_of_get he, times_append_singleton]
      rfl
    · rw [hp, ite_self, BitVec.add_zero]
      rfl

theorem advance_enter (h : Inv good s) (hp : s.place = .enter k) {time : Int} {memory : Bool}
    (hs : s.advance time memory = some t) : Inv good t := by
  unfold State.advance at hs
  rw [hp] at hs
  have hdecided := h.decided
  rw [hp] at hdecided
  have hallocated := h.allocated (by rw [hp]; rfl)
  cases he : s.call.entries[k]? with
  | none =>
    simp only [forEach_none he, Option.some.injEq] at hs
    have htake : s.call.entries.take k = s.call.entries :=
      List.take_of_length_le (List.getElem?_eq_none_iff.1 he)
    split at hs
    · subst hs
      refine h.quiet ⟨rfl, rfl, rfl, rfl⟩ rfl (by rw [hp]; rfl) ?_ nofun hdecided
      rw [hp]
      exact htake.symm
    · subst hs
      refine h.quiet ⟨rfl, rfl, rfl, rfl⟩ rfl (by rw [hp]; rfl) ?_ (fun _ => hallocated) hdecided
      rw [hp]
      exact htake.symm
  | some e =>
    simp only [forEach_some he, Option.some.injEq] at hs
    subst hs
    refine h.add (f := fun sig => { sig with waiting := sig.waiting + 1 }) (m := 0#32) (n := 1#32)
      ⟨rfl, rfl, rfl, rfl⟩ rfl (fun _ => ⟨rfl, rfl⟩) (fun _ => (BitVec.add_zero _).symm)
      (fun _ => rfl) (fun x => ?_) (fun x => ?_) (fun _ => hallocated) hdecided
    · rw [hp, ite_self, BitVec.add_zero]
      rfl
    · rw [hp]
      show times (s.call.entries.take (k + 1)) x = _
      rw [take_of_get he, times_append_singleton]
      rfl

theorem advance_sleepable (h : Inv good s) (hp : s.place = .sleepable k) {time : Int}
    {memory : Bool} (hs : s.advance time memory = some t) : Inv good t := by
  unfold State.advance at hs
  rw [hp] at hs
  have hdecided := h.decided
  rw [hp] at hdecided
  have hallocated := h.allocated (by rw [hp]; rfl)
  cases he : s.call.entries[k]? with
  | none =>
    simp only [forEach_none he, Option.some.injEq] at hs
    subst hs
    exact h.quiet ⟨rfl, rfl, rfl, rfl⟩ rfl (by rw [hp]; rfl) (by rw [hp]; rfl)
      (fun _ => hallocated) hdecided
  | some e =>
    simp only [forEach_some he, Option.some.injEq] at hs
    split at hs
    · subst hs
      exact h.move hp ⟨rfl, rfl, rfl, rfl⟩ rfl rfl rfl rfl hdecided
    · subst hs
      exact h.quiet ⟨rfl, rfl, rfl, rfl⟩ rfl (by rw [hp]; rfl) (by rw [hp]; rfl)
        (fun _ => hallocated) hdecided

theorem advance_allocate (h : Inv good s) (hp : s.place = .allocate) {time : Int} {memory : Bool}
    (hs : s.advance time memory = some t) : Inv good t := by
  unfold State.advance at hs
  rw [hp] at hs
  have hdecided := h.decided
  rw [hp] at hdecided
  have hallocated := h.allocated (by rw [hp]; rfl)
  simp only [Option.some.injEq] at hs
  split at hs
  · split at hs
    · subst hs
      exact h.move hp ⟨rfl, rfl, rfl, rfl⟩ rfl rfl rfl rfl hdecided
    · subst hs
      exact h.quiet ⟨rfl, rfl, rfl, rfl⟩ rfl (by rw [hp]; rfl) (by rw [hp]; rfl)
        (fun _ => hallocated) trivial
  · subst hs
    exact h.move hp ⟨rfl, rfl, rfl, rfl⟩ rfl rfl rfl rfl hdecided

theorem advance_valid (h : Inv good s) (hp : s.place = .valid k) {time : Int} {memory : Bool}
    (hs : s.advance time memory = some t) : Inv good t := by
  unfold State.advance at hs
  rw [hp] at hs
  have hdecided := h.decided
  rw [hp] at hdecided
  cases he : s.call.entries[k]? with
  | none =>
    simp only [forEach_none he, Option.some.injEq] at hs
    subst hs
    exact h.move hp ⟨rfl, rfl, rfl, rfl⟩ rfl rfl rfl rfl hdecided
  | some e =>
    simp only [forEach_some he, Option.some.injEq] at hs
    subst hs
    by_cases hvalid : (s.signals e.signal).isValid = true
    · rw [if_pos hvalid]
      exact h.move hp ⟨rfl, rfl, rfl, rfl⟩ rfl rfl rfl rfl hdecided
    · rw [if_neg hvalid]
      refine h.move hp ⟨rfl, rfl, rfl, rfl⟩ rfl rfl rfl rfl ?_
      exact .inl ⟨e, List.mem_of_getElem? he, h.died _ (Bool.eq_false_of_not_eq_true hvalid)⟩

theorem advance_special (h : Inv good s) (hp : s.place = .special k) {time : Int} {memory : Bool}
    (hfits : good → Fits s (.step time memory)) (hs : s.advance time memory = some t) :
    Inv good t := by
  unfold State.advance at hs
  rw [hp] at hs
  have hdecided := h.decided
  rw [hp] at hdecided
  cases he : s.call.entries[k]? with
  | none =>
    simp only [forEach_none he, Option.some.injEq] at hs
    subst hs
    exact h.move hp ⟨rfl, rfl, rfl, rfl⟩ rfl rfl rfl rfl hdecided
  | some e =>
    simp only [forEach_some he, Option.some.injEq] at hs
    subst hs
    by_cases hfaulted : s.faulted e.signal = true
    · rw [if_pos hfaulted]
      refine h.move hp ⟨rfl, rfl, rfl, rfl⟩ rfl rfl rfl rfl
        ⟨e, he, fun hgood hwants => ?_⟩
      have hfit := hfits hgood
      unfold Fits State.fits at hfit
      simp only [hp, he, Option.all_some, hfaulted] at hfit
      rw [show s.call.wantsValue = true from hwants] at hfit
      cases hfit
    · rw [if_neg hfaulted]
      exact h.move hp ⟨rfl, rfl, rfl, rfl⟩ rfl rfl rfl rfl hdecided

theorem advance_load (h : Inv good s) (hp : s.place = .load k) {time : Int} {memory : Bool}
    (hfits : good → Fits s (.step time memory)) (hs : s.advance time memory = some t) :
    Inv good t := by
  unfold State.advance at hs
  rw [hp] at hs
  have hdecided := h.decided
  rw [hp] at hdecided
  cases he : s.call.entries[k]? with
  | none =>
    simp only [forEach_none he, Option.some.injEq] at hs
    subst hs
    exact h.move hp ⟨rfl, rfl, rfl, rfl⟩ rfl rfl rfl rfl hdecided
  | some e =>
    simp only [forEach_some he, Option.some.injEq] at hs
    subst hs
    unfold State.compare
    cases hcondition : e.condition with
    | none =>
      refine h.move hp ⟨rfl, rfl, rfl, rfl⟩ rfl rfl rfl rfl ?_
      exact .inr (.inl ⟨e, List.mem_of_getElem? he, hcondition⟩)
    | some condition =>
      dsimp only
      by_cases hmet : condition.met (s.signals e.signal).value (extend e.value) = true
      · rw [if_pos hmet]
        refine h.move hp ⟨rfl, rfl, rfl, rfl⟩ rfl rfl rfl rfl
          ⟨e, he, fun hgood hwants => ⟨cut w (s.signals e.signal).value, if_pos hwants,
            ⟨_, h.had e.signal, rfl⟩, condition, hcondition, ?_⟩⟩
        have hfit := hfits hgood
        unfold Fits State.fits at hfit
        simp only [hp, he, hcondition, Option.all_some, hmet] at hfit
        rw [show s.call.wantsValue = true from hwants] at hfit
        exact hfit
      · rw [if_neg hmet]
        exact h.move hp ⟨rfl, rfl, rfl, rfl⟩ rfl rfl rfl rfl hdecided

theorem advance_time (h : Inv good s) (hp : s.place = .time) {time : Int} {memory : Bool}
    (hs : s.advance time memory = some t) : Inv good t := by
  unfold State.advance at hs
  rw [hp] at hs
  have hdecided := h.decided
  rw [hp] at hdecided
  simp only [Option.some.injEq] at hs
  subst hs
  unfold State.look
  dsimp only
  split
  · rename_i hlate
    refine h.move hp ⟨rfl, rfl, rfl, rfl⟩ rfl rfl rfl rfl ?_
    exact .inr (.inr hlate)
  · split
    · exact h.move hp ⟨rfl, rfl, rfl, rfl⟩ rfl rfl rfl rfl hdecided
    · split
      · exact h.move hp ⟨rfl, rfl, rfl, rfl⟩ rfl rfl rfl rfl hdecided
      · exact h.move hp ⟨rfl, rfl, rfl, rfl⟩ rfl rfl rfl rfl hdecided

theorem advance_leave (h : Inv good s) (hp : s.place = .leave k r) {time : Int} {memory : Bool}
    (hs : s.advance time memory = some t) : Inv good t := by
  unfold State.advance at hs
  rw [hp] at hs
  have hdecided := h.decided
  rw [hp] at hdecided
  have hallocated := h.allocated (by rw [hp]; rfl)
  cases he : s.call.entries[k]? with
  | none =>
    simp only [forEach_none he, Option.some.injEq] at hs
    subst hs
    refine h.quiet ⟨rfl, rfl, rfl, rfl⟩ rfl (by rw [hp]; rfl) ?_ (fun _ => hallocated) hdecided
    rw [hp]
    exact (List.drop_of_length_le (List.getElem?_eq_none_iff.1 he)).symm
  | some e =>
    simp only [forEach_some he, Option.some.injEq] at hs
    subst hs
    refine h.add (f := fun sig => { sig with waiting := sig.waiting - 1 }) (m := 0#32)
      (n := -1#32) ⟨rfl, rfl, rfl, rfl⟩ rfl (fun _ => ⟨rfl, rfl⟩) (fun _ => (BitVec.add_zero _).symm)
      (fun _ => BitVec.sub_eq_add_neg _ _) (fun x => ?_) (fun x => ?_) (fun _ => hallocated) hdecided
    · rw [hp, ite_self, BitVec.add_zero]
      rfl
    · rw [hp]
      exact times_drop he

theorem advance_release (h : Inv good s) (hp : s.place = .release k r) {time : Int} {memory : Bool}
    (hs : s.advance time memory = some t) : Inv good t := by
  unfold State.advance at hs
  rw [hp] at hs
  have hdecided := h.decided
  rw [hp] at hdecided
  have hallocated := h.allocated (by rw [hp]; rfl)
  cases he : s.call.entries[k]? with
  | none =>
    simp only [forEach_none he, Option.some.injEq] at hs
    subst hs
    refine h.quiet ⟨rfl, rfl, rfl, rfl⟩ rfl ?_ (by rw [hp]; rfl) (fun _ => hallocated) hdecided
    rw [hp]
    exact (List.drop_of_length_le (List.getElem?_eq_none_iff.1 he)).symm
  | some e =>
    simp only [forEach_some he, Option.some.injEq] at hs
    subst hs
    refine h.add (f := fun sig => { sig with retained := sig.retained - 1 }) (m := -1#32)
      (n := 0#32) ⟨rfl, rfl, rfl, rfl⟩ rfl (fun _ => ⟨rfl, rfl⟩)
      (fun _ => BitVec.sub_eq_add_neg _ _) (fun _ => (BitVec.add_zero _).symm) (fun x => ?_)
      (fun x => ?_) (fun _ => hallocated) hdecided
    · rw [hp]
      exact times_drop he
    · rw [hp, ite_self, BitVec.add_zero]
      rfl

theorem advance_inv (h : Inv good s) {time : Int} {memory : Bool}
    (hfits : good → Fits s (.step time memory)) (hs : s.advance time memory = some t) :
    Inv good t := by
  cases hp : s.place with
  | retain k => exact advance_retain h hp hs
  | enter k => exact advance_enter h hp hs
  | sleepable k => exact advance_sleepable h hp hs
  | allocate => exact advance_allocate h hp hs
  | clock =>
    have hdecided := h.decided
    simp only [State.advance, hp, Option.some.injEq] at hs
    rw [hp] at hdecided
    subst hs
    exact h.move hp ⟨rfl, rfl, rfl, rfl⟩ rfl rfl rfl rfl hdecided
  | valid k => exact advance_valid h hp hs
  | special k => exact advance_special h hp hfits hs
  | load k => exact advance_load h hp hfits hs
  | time => exact advance_time h hp hs
  | wait =>
    have hdecided := h.decided
    simp only [State.advance, hp, Option.some.injEq] at hs
    rw [hp] at hdecided
    subst hs
    exact h.move hp ⟨rfl, rfl, rfl, rfl⟩ rfl rfl rfl rfl hdecided
  | delete r =>
    have hdecided := h.decided
    simp only [State.advance, hp, Option.some.injEq] at hs
    rw [hp] at hdecided
    subst hs
    exact h.quiet ⟨rfl, rfl, rfl, rfl⟩ rfl (by rw [hp]; rfl) (by rw [hp]; rfl) (fun _ => rfl)
      hdecided
  | leave k r => exact advance_leave h hp hs
  | release k r => exact advance_release h hp hs
  | done r =>
    simp only [State.advance, hp] at hs
    cases hs

/-! ## The steps of the others -/

/-- What has been decided stays so while signals take further values and become invalid. -/
theorem Ended.mono (h : s.Ended good r) (hcall : t.call = s.call)
    (hvalue : t.satisfyingValue = s.satisfyingValue)
    (htime : t.now = s.now ∧ t.startTime = s.startTime)
    (hhad : ∀ x, ∀ v ∈ s.had x, v ∈ t.had x) (hdied : ∀ x, s.died x = true → t.died x = true) :
    t.Ended good r := by
  cases r with
  | index i =>
    obtain ⟨e, he, hgood⟩ := h
    refine ⟨e, hcall ▸ he, fun hg hwants => ?_⟩
    obtain ⟨value, hset, ⟨v, hv, hcut⟩, hmet⟩ := hgood hg (hcall ▸ hwants)
    exact ⟨value, hvalue.trans hset, ⟨v, hhad _ v hv, hcut⟩, hmet⟩
  | minusOne =>
    rcases h with ⟨e, he, hdead⟩ | hcondition | hlate
    · exact .inl ⟨e, hcall ▸ he, hdied _ hdead⟩
    · exact .inr (.inl (hcall ▸ hcondition))
    · refine .inr (.inr ?_)
      rw [hcall, htime.1, htime.2]
      exact hlate
  | thrown => trivial

theorem At.mono (h : s.At good s.place) (hplace : t.place = s.place) (hcall : t.call = s.call)
    (hvalue : t.satisfyingValue = s.satisfyingValue)
    (htime : t.now = s.now ∧ t.startTime = s.startTime)
    (hhad : ∀ x, ∀ v ∈ s.had x, v ∈ t.had x) (hdied : ∀ x, s.died x = true → t.died x = true) :
    t.At good t.place := by
  rw [hplace]
  unfold State.At at h ⊢
  cases hdecided : s.place.decided with
  | some r =>
    rw [hdecided] at h
    exact Ended.mono h hcall hvalue htime hhad hdied
  | none =>
    rw [hdecided] at h
    exact hvalue.trans h

theorem update_self {f : ISignal → ISignal} :
    (s.update x f).signals x = f (s.signals x) :=
  Function.update_self ..

theorem update_of_ne {f : ISignal → ISignal} {y : Nat} (h : y ≠ x) :
    (s.update x f).signals y = s.signals y :=
  Function.update_of_ne h ..

/-- Others change something of a signal, and what is remembered of it. -/
theorem Inv.others (h : Inv good s) {f : ISignal → ISignal} {y : Nat}
    (hsignals : t.signals = (s.update y f).signals)
    (hcall : t.call = s.call) (hplace : t.place = s.place) (hallocated : t.allocated = s.allocated)
    (hvalue : t.satisfyingValue = s.satisfyingValue)
    (htime : t.now = s.now ∧ t.startTime = s.startTime)
    (hcounts : ∀ x, x ≠ y → t.others x = s.others x)
    (hretained : (f (s.signals y)).retained - (s.signals y).retained =
      (t.others y).retained - (s.others y).retained)
    (hwaiting : (f (s.signals y)).waiting - (s.signals y).waiting =
      (t.others y).waiting - (s.others y).waiting)
    (hhad : ∀ x, ∀ v ∈ s.had x, v ∈ t.had x) (hhas : (f (s.signals y)).value ∈ t.had y)
    (hdied : ∀ x, s.died x = true → t.died x = true)
    (hdead : (f (s.signals y)).isValid = false → t.died y = true) : Inv good t := by
  refine ⟨fun x => ?_, fun x => ?_, fun x => ?_, fun x => ?_, ?_,
    At.mono h.decided hplace hcall hvalue htime hhad hdied⟩
  · have hx := h.retained x
    rw [hsignals, hcall, hplace]
    by_cases hxy : x = y
    · subst hxy
      rw [update_self]
      generalize times _ _ = n at *
      bv_omega
    · rw [update_of_ne hxy, hcounts x hxy]
      exact hx
  · have hx := h.waiting x
    rw [hsignals, hcall, hplace]
    by_cases hxy : x = y
    · subst hxy
      rw [update_self]
      generalize times _ _ = n at *
      bv_omega
    · rw [update_of_ne hxy, hcounts x hxy]
      exact hx
  · rw [hsignals]
    by_cases hxy : x = y
    · subst hxy
      rw [update_self]
      exact hhas
    · rw [update_of_ne hxy]
      exact hhad x _ (h.had x)
  · rw [hsignals]
    by_cases hxy : x = y
    · subst hxy
      rw [update_self]
      exact hdead
    · rw [update_of_ne hxy]
      exact fun hx => hdied x (h.died x hx)
  · rw [hplace, hallocated]
    exact h.allocated

theorem Inv.next (h : Inv good s) (hfits : good → Fits s a) (hs : s.next a = some t) :
    Inv good t := by
  cases a with
  | step time memory => exact advance_inv h hfits hs
  | store y value =>
    cases hs
    refine h.others (f := fun sig => { sig with value := value }) (y := y) rfl rfl rfl rfl rfl
      ⟨rfl, rfl⟩ (fun _ _ => rfl) ((BitVec.sub_self _).trans (BitVec.sub_self _).symm)
      ((BitVec.sub_self _).trans (BitVec.sub_self _).symm) (fun x v hv => ?_) ?_ (fun _ hx => hx)
      (h.died y)
    · show v ∈ Function.update s.had y (s.had y ++ [value]) x
      by_cases hxy : x = y
      · subst hxy
        rw [Function.update_self]
        exact List.mem_append_left _ hv
      · rw [Function.update_of_ne hxy]
        exact hv
    · show value ∈ Function.update s.had y (s.had y ++ [value]) y
      rw [Function.update_self]
      exact List.mem_append_right _ (List.mem_singleton.2 rfl)
  | handles y refcount =>
    cases hs
    refine h.others (f := fun sig => { sig with refcount := refcount }) (y := y) rfl rfl rfl rfl rfl
      ⟨rfl, rfl⟩ (fun _ _ => rfl) ((BitVec.sub_self _).trans (BitVec.sub_self _).symm)
      ((BitVec.sub_self _).trans (BitVec.sub_self _).symm) (fun _ _ hv => hv) (h.had y)
      (fun x hx => ?_) fun hdead => ?_
    · show Function.update s.died y (s.died y || refcount = 0) x = true
      by_cases hxy : x = y
      · subst hxy
        rw [Function.update_self, hx, Bool.true_or]
      · rw [Function.update_of_ne hxy]
        exact hx
    · show Function.update s.died y (s.died y || refcount = 0) y = true
      have hzero : refcount = 0 := by simpa [ISignal.isValid] using hdead
      rw [Function.update_self, hzero]
      exact Bool.or_true _
  | count y retained waiting =>
    cases hs
    refine h.others
      (f := fun sig => { sig with
        retained := sig.retained + retained, waiting := sig.waiting + waiting })
      (y := y) rfl rfl rfl rfl rfl ⟨rfl, rfl⟩ (fun x hxy => Function.update_of_ne hxy ..) ?_ ?_
      (fun _ _ hv => hv) (h.had y) (fun _ hx => hx) (h.died y)
    · dsimp only
      rw [Function.update_self]
      bv_omega
    · dsimp only
      rw [Function.update_self]
      bv_omega
  | event e fatal =>
    cases hs
    exact ⟨h.retained, h.waiting, h.had, h.died, h.allocated,
      At.mono h.decided rfl rfl rfl ⟨rfl, rfl⟩ (fun _ _ hv => hv) (fun _ hx => hx)⟩

/-! ## The end of a call -/

theorem inv_of_run {ok : State w → Action → Prop} {u : State w} (h : Run (machine w) ok u s)
    (hu : Inv good u) (hfits : good → ∀ s a, ok s a → Fits s a) : Inv good s :=
  h.invariant hu fun t a _ ht _ hok hs => ht.next (fun hgood => hfits hgood t a hok) hs

theorem Inv.ended (h : Inv good s) (hp : s.place = .done r) : s.Ended good r := by
  have hdecided := h.decided
  rw [hp] at hdecided
  exact hdecided

/-- Whatever ends the wait, the guards undo what the call has done to the counts. -/
theorem Inv.undone (h : Inv good s) (hp : s.place = .done r) : Undone s r := by
  refine ⟨fun hr => ?_, fun x => ⟨?_, ?_⟩, h.allocated (by rw [hp]; rfl)⟩
  · have hended := h.ended hp
    rw [hr] at hended
    exact hended
  · have hx := h.retained x
    rw [hp] at hx
    exact hx.trans (BitVec.add_zero _)
  · have hx := h.waiting x
    rw [hp] at hx
    exact hx.trans (BitVec.add_zero _)

theorem Inv.outcome (h : Inv True s) (hp : s.place = .done r) : Outcome s r := by
  refine ⟨h.undone hp, fun i hi => ?_⟩
  have hended := h.ended hp
  rw [hi] at hended
  obtain ⟨e, he, hgood⟩ := hended
  exact ⟨e, he, hgood trivial⟩

theorem run_one (hs : s.next a = some t) : Run (machine w) anyAction s t := by
  have henabled : (machine w).enabled s a := by
    show (s.next a).isSome = true
    rw [hs]
    rfl
  exact .tail .refl henabled trivial hs

/-- The last of the guards. -/
theorem finish_release (hp : s.place = .release k r) : ∃ t, Run (machine w) anyAction s t ∧
    t.place = .done r ∧ t.call = s.call ∧ t.satisfyingValue = s.satisfyingValue := by
  induction hn : s.call.entries.length - k generalizing s k with
  | zero =>
    have hnone : s.call.entries[k]? = none := List.getElem?_eq_none (by omega)
    have hs : s.next (.step 0 true) = some (s.goto (.done r)) := by
      simp only [State.next, State.advance, hp, forEach_none hnone]
    exact ⟨_, run_one hs, rfl, rfl, rfl⟩
  | succ n ih =>
    obtain ⟨e, he⟩ : ∃ e, s.call.entries[k]? = some e :=
      ⟨_, List.getElem?_eq_getElem (show k < s.call.entries.length by omega)⟩
    have hs : s.next (.step 0 true) = some ((s.update e.signal fun sig =>
        { sig with retained := sig.retained - 1 }).goto (.release (k + 1) r)) := by
      simp only [State.next, State.advance, hp, forEach_some he]
    obtain ⟨t, hrun, ht⟩ := ih (s := (s.update e.signal fun sig =>
      { sig with retained := sig.retained - 1 }).goto (.release (k + 1) r)) rfl
      (show s.call.entries.length - (k + 1) = n by omega)
    exact ⟨t, (run_one hs).trans hrun, ht⟩

theorem finish_leave (hp : s.place = .leave k r) : ∃ t, Run (machine w) anyAction s t ∧
    t.place = .done r ∧ t.call = s.call ∧ t.satisfyingValue = s.satisfyingValue := by
  induction hn : s.call.entries.length - k generalizing s k with
  | zero =>
    have hnone : s.call.entries[k]? = none := List.getElem?_eq_none (by omega)
    have hs : s.next (.step 0 true) = some (s.goto (.release 0 r)) := by
      simp only [State.next, State.advance, hp, forEach_none hnone]
    obtain ⟨t, hrun, ht⟩ := finish_release (s := s.goto (.release 0 r)) rfl
    exact ⟨t, (run_one hs).trans hrun, ht⟩
  | succ n ih =>
    obtain ⟨e, he⟩ : ∃ e, s.call.entries[k]? = some e :=
      ⟨_, List.getElem?_eq_getElem (show k < s.call.entries.length by omega)⟩
    have hs : s.next (.step 0 true) = some ((s.update e.signal fun sig =>
        { sig with waiting := sig.waiting - 1 }).goto (.leave (k + 1) r)) := by
      simp only [State.next, State.advance, hp, forEach_some he]
    obtain ⟨t, hrun, ht⟩ := ih (s := (s.update e.signal fun sig =>
      { sig with waiting := sig.waiting - 1 }).goto (.leave (k + 1) r)) rfl
      (show s.call.entries.length - (k + 1) = n by omega)
    exact ⟨t, (run_one hs).trans hrun, ht⟩

/-- What has been decided is what the call comes to. -/
theorem finish (hp : s.place = .delete r) : ∃ t, Run (machine w) anyAction s t ∧
    t.place = .done r ∧ t.call = s.call ∧ t.satisfyingValue = s.satisfyingValue := by
  have hs : s.next (.step 0 true) = some { s with allocated := false, place := .leave 0 r } := by
    simp only [State.next, State.advance, hp]
  obtain ⟨t, hrun, ht⟩ :=
    finish_leave (s := { s with allocated := false, place := .leave 0 r }) rfl
  exact ⟨t, (run_one hs).trans hrun, ht⟩

/-- A step against the condition leads to an index without its value. -/
theorem unfit_fails (h : Inv False s) (hunfit : ¬ Fits s a) :
    ∃ t, Run (machine w) anyAction s t ∧ ∃ r, t.place = .done r ∧ ¬ Outcome t r := by
  have hdecided := h.decided
  cases a with
  | step time memory =>
    cases hp : s.place with
    | special k =>
      rw [hp] at hdecided
      cases he : s.call.entries[k]? with
      | none => simp [Fits, State.fits, hp, he] at hunfit
      | some e =>
        simp only [Fits, State.fits, hp, he, Option.all_some, Bool.not_eq_true', Bool.not_eq_false,
          Bool.and_eq_true] at hunfit
        obtain ⟨hwants, hfaulted⟩ := hunfit
        have hs : s.next (.step time memory) = some (s.goto (.delete (.index k))) := by
          simp only [State.next, State.advance, hp, forEach_some he, hfaulted, if_true]
        obtain ⟨t, hrun, hplace, hcall, hvalue⟩ := finish (s := s.goto (.delete (.index k))) rfl
        refine ⟨t, (run_one hs).trans hrun, _, hplace,
          fun houtcome => ?_⟩
        obtain ⟨e', -, hset⟩ := houtcome.index k rfl
        rw [hcall] at hset
        obtain ⟨value, hsome, -⟩ := hset hwants
        rw [hvalue] at hsome
        have hnone : s.satisfyingValue = none := hdecided
        have hsome' : s.satisfyingValue = some value := hsome
        rw [hnone] at hsome'
        cases hsome'
    | load k =>
      cases he : s.call.entries[k]? with
      | none => simp [Fits, State.fits, hp, he] at hunfit
      | some e =>
        cases hcondition : e.condition with
        | none => simp [Fits, State.fits, hp, he, hcondition] at hunfit
        | some condition =>
          simp only [Fits, State.fits, hp, he, hcondition, Option.all_some, Bool.or_eq_true,
            Bool.not_eq_true', not_or, Bool.not_eq_false, Bool.and_eq_true] at hunfit
          obtain ⟨⟨hwants, hmet⟩, hcut⟩ := hunfit
          have hs : s.next (.step time memory) = some
              { s with
                satisfyingValue := some (cut w (s.signals e.signal).value)
                place := .delete (.index k) } := by
            simp only [State.next, State.advance, hp, forEach_some he, State.compare, hcondition,
              hmet, hwants, if_true]
          obtain ⟨t, hrun, hplace, hcall, hvalue⟩ := finish (s :=
            { s with
              satisfyingValue := some (cut w (s.signals e.signal).value)
              place := .delete (.index k) }) rfl
          refine ⟨t, (run_one hs).trans hrun, _, hplace, fun houtcome => ?_⟩
          obtain ⟨e', he', hset⟩ := houtcome.index k rfl
          rw [hcall] at he' hset
          obtain ⟨value, hsome, -, condition', hcondition', hmet'⟩ := hset hwants
          rw [hvalue, Option.some.injEq] at hsome
          obtain rfl : e = e' := Option.some.inj (he.symm.trans he')
          obtain rfl : condition = condition' :=
            Option.some.inj (hcondition.symm.trans hcondition')
          rw [← hsome] at hmet'
          exact hcut hmet'
    | _ => exact absurd (by unfold Fits State.fits; simp only [hp]) hunfit
  | _ => exact absurd rfl hunfit

/-- The loop of the asynchronous events may go on with what a wait for its rows returns. -/
theorem loop_wait_enabled {call : Call w} {signals : Nat → ISignal} {events : Nat → HsaEvent}
    (h : Run (machine w) anyAction (State.start call signals events) s) (hp : s.place = .done r)
    {l : EventPool.State} (hl : l.place = .wait) (hsize : l.active.size = s.call.entries.length)
    (hlt : s.call.entries.length < 2 ^ 32) {i : Nat} {b : Bool}
    (hcode : r = .index i ∨ r = .minusOne ∧ i = 2 ^ 32 - 1) : l.enabled (.loop i b) = true := by
  have hinv : Inv False s := inv_of_run h (inv_start call signals events) fun hfalse => hfalse.elim
  have hindex : i < l.active.size % 2 ^ 32 ∨ i = 2 ^ 32 - 1 := by
    rw [hsize, Nat.mod_eq_of_lt hlt]
    rcases hcode with rfl | ⟨-, rfl⟩
    · obtain ⟨e, he, -⟩ := hinv.ended hp
      exact .inl (List.getElem?_eq_some_iff.1 he).1
    · exact .inr rfl
  simpa [EventPool.State.enabled, hl] using hindex

/-! ## What a wait comes to -/

/-- Every call leaves nothing behind.  The caller can rely on the outcome if no memory fault ends
the wait and no value loses in the cut what the condition has seen; and a first step that is not so
leads to an outcome that he cannot rely on. -/
theorem wait_any_outcome {call : Call w} {signals : Nat → ISignal} {events : Nat → HsaEvent}
    (h : Run (machine w) anyAction (State.start call signals events) s) :
    (∀ r, s.place = .done r → Undone s r) ∧
    (Run (machine w) Fits (State.start call signals events) s →
      ∀ r, s.place = .done r → Outcome s r) ∧
    ∀ a, ¬ Fits s a → ∃ t, Run (machine w) anyAction s t ∧ ∃ r, t.place = .done r ∧
      ¬ Outcome t r := by
  have hstart : ∀ good, Inv good (State.start call signals events) := fun _ =>
    inv_start call signals events
  have hany : Inv False s := inv_of_run h (hstart False) fun hfalse => hfalse.elim
  refine ⟨fun r hp => hany.undone hp, fun hfits r hp => ?_, fun a hunfit => unfit_fails hany hunfit⟩
  have hgood : Inv True s := inv_of_run hfits (hstart True) fun _ _ _ hok => hok
  exact hgood.outcome hp

end

/-- A signal that is in the list twice, changed by others during the wait. -/
theorem wait_any_outcome_twice : ∃ s, Run (machine 32) Fits
    (State.start ⟨[⟨0, some .gte, 5⟩, ⟨0, some .eq, 0⟩], none, false, true⟩
      (fun _ => ⟨3, 1, 1, 0, none⟩) fun _ => ⟨false, false⟩) s ∧
    s.place = .done (.index 0) ∧ Outcome s (.index 0) := by
  have hexec : ((machine 32).exec Fits
      (State.start ⟨[⟨0, some .gte, 5⟩, ⟨0, some .eq, 0⟩], none, false, true⟩
        (fun _ => ⟨3, 1, 1, 0, none⟩) fun _ => ⟨false, false⟩)
      (List.replicate 14 (.step 0 true) ++ [.store 0 7, .count 0 1 0] ++
        List.replicate 11 (.step 0 true))).any (fun s => s.place = .done (.index 0)) = true := by
    decide +kernel
  obtain ⟨s, hr, hs⟩ := Run.exists_of_exec hexec
  have hany := hr.mono fun _ _ _ => trivial
  exact ⟨s, hr, of_decide_eq_true hs, (wait_any_outcome hany).2.1 hr _ (of_decide_eq_true hs)⟩

/-- `2 ^ 31` is greater than 0, and is returned as `-2 ^ 31`. -/
theorem cut_value_fails : ¬ ∀ (call : Call 32) (signals : Nat → ISignal) (events : Nat → HsaEvent)
    (s : State 32), Run (machine 32) anyAction (State.start call signals events) s →
      ∀ r, s.place = .done r → Outcome s r := by
  intro hall
  have hexec : ((machine 32).exec anyAction
      (State.start ⟨[⟨0, some .gte, 0⟩], none, false, true⟩ (fun _ => ⟨2 ^ 31, 1, 1, 0, none⟩)
        fun _ => ⟨false, false⟩)
      (List.replicate 8 (.step 0 true))).any (fun s => !s.fits (.step 0 true)) = true := by
    decide +kernel
  obtain ⟨s, hr, hs⟩ := Run.exists_of_exec hexec
  have hinv : Inv False s := inv_of_run hr (inv_start _ _ _) fun hfalse => hfalse.elim
  have hunfit : ¬ Fits s (.step 0 true) := by
    unfold Fits
    rw [Bool.not_eq_true'] at hs
    rw [hs]
    exact Bool.false_ne_true
  obtain ⟨t, hrun, r, hp, hfails⟩ := unfit_fails hinv hunfit
  exact hfails (hall _ _ _ t (hr.trans hrun) r hp)

end Costream.Signal.WaitAny
