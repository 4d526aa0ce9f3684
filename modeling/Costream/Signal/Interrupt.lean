import Costream.Signal.Cell
import Costream.Tally
import Costream.Trace

/-!
# Waits for an interrupt signal

A change of the value of an `InterruptSignal` is followed by `SetEvent`, which sets the
event of the device only if `waiting_` is not zero.  A waiter counts itself in `waiting_`
before it reads the value, and sleeps in the device until the event is set.  Only a waiter
that has found `waiting_` zero may sleep, so there is one sleeper at a time, and nobody
else takes the event from it.

The event is set from `SetEvent` to the next wait that returns for it.  The retains of the
waiters are left out: `Costream.Signal.Lifetime` has them.

`waiting_` has 32 bits: with `2 ^ 32` waiters it is zero again, and a change of the value
does not set the event (`store_never_lost`, `lost_with_many`).
-/

namespace Costream.Signal.Interrupt

open Trace Costream.Tally

/-! ## The code -/

/-- Where a call of `WaitRelaxed` stands. -/
inductive Place where
  /-- Before `waiting_++`. -/
  | enter
  /-- In the loop, before `IsValid`. -/
  | valid
  /-- Before the value is loaded and compared. -/
  | load
  /-- The condition is not met: before the look whether the time is over. -/
  | time
  /-- Before the look whether to go on polling. -/
  | poll
  /-- In `WaitOnEvent`. -/
  | wait
  /-- The time is over: before the value is loaded that is returned. -/
  | last
  /-- Before `waiting_--`. -/
  | leave
  | returned
deriving DecidableEq, Repr

structure Waiter where
  /-- A condition that is none of the four is `none`. -/
  condition : Option Condition
  compareValue : Value
  /-- `wait_hint == ACTIVE` -/
  active : Bool
  place : Place
deriving DecidableEq

/-- Where a change of the value stands. -/
inductive Change where
  /-- Before the value is changed. -/
  | update
  /-- In `SetEvent`, before `InWaiting()`. -/
  | inWaiting
  /-- Before the event is set. -/
  | setEvent
  | returned
deriving DecidableEq, Repr

structure Producer where
  op : Op
  place : Change
deriving DecidableEq

structure State where
  value : Storage
  /-- `refcount_ != 0`; the handle is not given up here. -/
  valid : Bool
  waiting : Nat
  event : Bool
  waiters : List Waiter
  producers : List Producer
deriving DecidableEq

def State.initial (value : Value) (valid event : Bool) : State :=
  { value := extend value, valid := valid, waiting := 0, event := event, waiters := [],
    producers := [] }

inductive Action where
  | wait (condition : Option Condition) (compareValue : Value) (active : Bool)
  | update (op : Op)
  /-- A step of a waiter; `b` says that the time is over, or that the polling goes on, or that the
  wait for the event ends without it. -/
  | waiter (i : Nat) (b : Bool)
  | producer (i : Nat)

/-- The operation changes the value, and calls `SetEvent`. -/
def changes : Op → Bool
  | .load => false
  | .wait _ _ => false
  | _ => true

/-- The condition of the waiter. -/
def Waiter.met (w : Waiter) (value : Storage) : Option Bool :=
  w.condition.map fun condition => condition.met value (extend w.compareValue)

namespace State

variable (s : State)

def putWaiter (i : Nat) (w : Waiter) : State := { s with waiters := s.waiters.set i w }

def putProducer (i : Nat) (p : Producer) : State := { s with producers := s.producers.set i p }

def stepWaiter (i : Nat) (w : Waiter) (b : Bool) : State :=
  match w.place with
  | .enter =>
    { s with waiting := increment s.waiting }.putWaiter i
      { w with active := w.active || s.waiting ≠ 0, place := .valid }
  | .valid => s.putWaiter i { w with place := if s.valid then .load else .leave }
  | .load =>
    s.putWaiter i { w with
      place := match w.met s.value with
        | some false => .time
        | _ => .leave }
  | .time => s.putWaiter i { w with place := if b then .last else .poll }
  | .poll => s.putWaiter i { w with place := if w.active ∨ b = true then .valid else .wait }
  | .wait =>
    if s.event then
      { s with event := false }.putWaiter i { w with place := .valid }
    else
      s.putWaiter i { w with place := if b then .valid else .wait }
  | .last => s.putWaiter i { w with place := .leave }
  | .leave => { s with waiting := decrement s.waiting }.putWaiter i { w with place := .returned }
  | .returned => s

def stepProducer (i : Nat) (p : Producer) : State :=
  match p.place with
  | .update => { s with value := after s.value p.op }.putProducer i { p with place := .inWaiting }
  | .inWaiting =>
    s.putProducer i { p with place := if s.waiting ≠ 0 then .setEvent else .returned }
  | .setEvent => { s with event := true }.putProducer i { p with place := .returned }
  | .returned => s

def next : Action → Option State
  | .wait condition compareValue active =>
    some { s with waiters := s.waiters ++ [⟨condition, compareValue, active, .enter⟩] }
  | .update op => some { s with producers := s.producers ++ [⟨op, .update⟩] }
  | .waiter i b => s.waiters[i]?.map fun w => s.stepWaiter i w b
  | .producer i => s.producers[i]?.map fun p => s.stepProducer i p

def enabled : Action → Bool
  | .wait _ _ _ => true
  | .update op => changes op
  | .waiter i _ => i < s.waiters.length
  | .producer i => i < s.producers.length

end State

def machine : Machine State Action where
  enabled s a := s.enabled a = true
  step := State.next

instance (s : State) (a : Action) : Decidable (machine.enabled s a) :=
  inferInstanceAs (Decidable (s.enabled a = true))

/-! ## The property -/

/-- A waiter sleeps although its condition is met, and nobody is about to wake it. -/
def Lost (s : State) : Prop :=
  ∃ w ∈ s.waiters, w.place = .wait ∧ s.event = false ∧ w.met s.value = some true ∧
    ∀ p ∈ s.producers, p.place = .returned

/-- The waiter is counted in `waiting_`. -/
def Waiter.inside (w : Waiter) : Nat :=
  match w.place with
  | .enter => 0
  | .returned => 0
  | _ => 1

def State.inside (s : State) : Nat := tally Waiter.inside s.waiters

/-- The step is the `waiting_++` of a wait. -/
def State.enters (s : State) : Action → Bool
  | .waiter i _ => s.waiters[i]?.any fun w => w.place = .enter
  | _ => false

/-- Fewer than `2 ^ 32` waiters are counted at a time. -/
def Few (s : State) (a : Action) : Prop := s.enters a = true → s.inside + 1 < 2 ^ 32

instance (s : State) (a : Action) : Decidable (Few s a) :=
  inferInstanceAs (Decidable (s.enters a = true → s.inside + 1 < 2 ^ 32))

/-! ## The invariant -/

variable {s t : State} {i : Nat} {b : Bool} {w w' : Waiter} {p : Producer}

/-- The waiter may sleep. -/
def Waiter.sleeper (w : Waiter) : Nat := if w.active then 0 else w.inside

/-- The waiter has found its condition not met, and goes to sleep or sleeps. -/
def Waiter.armed (w : Waiter) : Prop :=
  w.active = false ∧ (w.place = .time ∨ w.place = .poll ∨ w.place = .wait)

/-- A change of the value is about to look at `waiting_`, or to set the event. -/
def State.waking (s : State) : Prop :=
  ∃ p ∈ s.producers, p.place = .inWaiting ∨ p.place = .setEvent

structure Inv (s : State) : Prop where
  waiting : s.waiting = s.inside
  single : tally Waiter.sleeper s.waiters ≤ 1
  asleep : ∀ w ∈ s.waiters, w.place = .wait → w.active = false
  woken : ∀ (i : Nat) (w : Waiter), s.waiters[i]? = some w → w.armed → w.met s.value = some true →
    s.event = true ∨ s.waking

theorem inv_initial (value : Value) (valid event : Bool) :
    Inv (State.initial value valid event) :=
  ⟨rfl, Nat.zero_le 1, by simp [State.initial], by simp [State.initial]⟩

theorem Inv.not_lost (h : Inv s) : ¬ Lost s := by
  intro hlost
  obtain ⟨w, hw, hplace, hevent, hmet, hdone⟩ := hlost
  obtain ⟨i, hi⟩ := List.getElem?_of_mem hw
  have harmed : w.armed := ⟨h.asleep w hw hplace, .inr (.inr hplace)⟩
  rcases h.woken i w hi harmed hmet with hset | ⟨p, hp, hplace'⟩
  · rw [hevent] at hset
    cases hset
  · rw [hdone p hp] at hplace'
    rcases hplace' with hplace' | hplace' <;> cases hplace'

theorem inside_of_armed (h : w.armed) : w.inside = 1 ∧ w.sleeper = 1 := by
  obtain ⟨hactive, hplace⟩ := h
  have hinside : w.inside = 1 := by
    unfold Waiter.inside
    rcases hplace with hplace | hplace | hplace <;> rw [hplace]
  refine ⟨hinside, ?_⟩
  unfold Waiter.sleeper
  rw [hactive, hinside]
  rfl

/-! ## Steps of a waiter -/

/-- The waiter at `i` changes.  The other ones are as they were; the waiter itself is not armed, or
was armed before, or its condition is not met. -/
theorem Inv.change (h : Inv s) (hw : s.waiters[i]? = some w) {waiting : Nat} {event : Bool}
    (hwaiting : waiting + w.inside = s.waiting + w'.inside)
    (hsingle : w'.sleeper ≤ w.sleeper ∨ tally Waiter.sleeper s.waiters + w'.sleeper ≤ 1)
    (hasleep : w'.place = .wait → w'.active = false)
    (hself : w'.armed → w'.met s.value = some true → event = true ∨ s.waking)
    (hothers : event = s.event ∨ w.sleeper = 1) :
    Inv { s with waiting := waiting, event := event, waiters := s.waiters.set i w' } := by
  have hinside := tally_set Waiter.inside hw w'
  have hsleeper := tally_set Waiter.sleeper hw w'
  have hcount := h.waiting
  have hone := h.single
  unfold State.inside at hcount
  refine ⟨?_, ?_, fun v hv hplace => ?_, fun j v hv harmed hmet => ?_⟩
  · show waiting = tally Waiter.inside (s.waiters.set i w')
    omega
  · show tally Waiter.sleeper (s.waiters.set i w') ≤ 1
    omega
  · rcases List.mem_or_eq_of_mem_set hv with hv | rfl
    · exact h.asleep v hv hplace
    · exact hasleep hplace
  · show event = true ∨ s.waking
    replace hv : (s.waiters.set i w')[j]? = some v := hv
    by_cases hij : i = j
    · rw [← hij, List.getElem?_set_self (List.getElem?_eq_some_iff.1 hw).1,
        Option.some.injEq] at hv
      rw [← hv] at harmed hmet
      exact hself harmed hmet
    · rw [List.getElem?_set_ne hij] at hv
      rcases hothers with hevent | hsleeps
      · rw [hevent]
        exact h.woken j v hv harmed hmet
      · -- there is no second sleeper
        have htwo := add_le_tally Waiter.sleeper hw hv hij
        have hv' := (inside_of_armed harmed).2
        omega

/-- A step that leaves the counts alone, to a place where the waiter does not sleep. -/
theorem Inv.goto (h : Inv s) (hw : s.waiters[i]? = some w) {place : Place}
    (hinside : Waiter.inside { w with place := place } = w.inside)
    (hasleep : place = .wait → w.active = false)
    (harmed : Waiter.armed { w with place := place } → w.met s.value = some true → w.armed) :
    Inv (s.putWaiter i { w with place := place }) := by
  refine h.change hw (by rw [hinside]) (.inl ?_) hasleep (fun ha hmet => ?_) (.inl rfl)
  · show (if w.active then 0 else Waiter.inside { w with place := place }) ≤ w.sleeper
    rw [hinside]
    exact le_refl _
  · exact h.woken i w hw (harmed ha hmet) hmet

theorem not_armed (h : w.place ≠ .time ∧ w.place ≠ .poll ∧ w.place ≠ .wait) : ¬ w.armed := by
  intro harmed
  rcases harmed.2 with hplace | hplace | hplace
  · exact h.1 hplace
  · exact h.2.1 hplace
  · exact h.2.2 hplace

theorem Inv.enter (h : Inv s) (hw : s.waiters[i]? = some w) (hp : w.place = .enter)
    (hfew : s.inside + 1 < 2 ^ 32) :
    Inv ({ s with waiting := increment s.waiting }.putWaiter i
      { w with active := w.active || s.waiting ≠ 0, place := .valid }) := by
  have hwaiting := h.waiting
  have hincrement : increment s.waiting = s.waiting + 1 := increment_eq (by omega)
  have hinside : w.inside = 0 := by rw [Waiter.inside, hp]
  rw [hincrement]
  refine h.change hw ?_ (.inr ?_) (fun hplace => by cases hplace)
    (fun harmed => absurd harmed (not_armed (by simp))) (.inl rfl)
  · rw [hinside]
    rfl
  · -- a waiter that may sleep has found nobody counted
    by_cases hzero : s.waiting = 0
    · have hnone : tally Waiter.sleeper s.waiters ≤ s.inside := by
        refine tally_le fun v _ => ?_
        unfold Waiter.sleeper
        split
        · exact Nat.zero_le _
        · exact le_refl _
      have hle : Waiter.sleeper { w with active := w.active || s.waiting ≠ 0, place := .valid } ≤
          1 := by
        unfold Waiter.sleeper
        split
        · exact Nat.zero_le _
        · exact le_refl 1
      omega
    · have hactive : (w.active || decide (s.waiting ≠ 0)) = true := by
        rw [Bool.or_eq_true, decide_eq_true_eq]
        exact .inr hzero
      have hsleeper :
          Waiter.sleeper { w with active := w.active || s.waiting ≠ 0, place := .valid } = 0 := by
        unfold Waiter.sleeper
        rw [if_pos hactive]
      have hone := h.single
      omega

theorem Inv.leave (h : Inv s) (hw : s.waiters[i]? = some w) (hp : w.place = .leave) :
    Inv ({ s with waiting := decrement s.waiting }.putWaiter i { w with place := .returned }) := by
  have hwaiting := h.waiting
  have hinside : w.inside = 1 := by rw [Waiter.inside, hp]
  have hle : w.inside ≤ s.inside := le_tally Waiter.inside (List.mem_of_getElem? hw)
  have hdecrement : decrement s.waiting = s.waiting - 1 := decrement_eq (by omega)
  rw [hdecrement]
  refine h.change hw ?_ (.inl ?_) (fun hplace => by cases hplace)
    (fun harmed => absurd harmed (not_armed (by simp))) (.inl rfl)
  · rw [hinside]
    show s.waiting - 1 + 1 = s.waiting + 0
    omega
  · show (if w.active then 0 else 0) ≤ w.sleeper
    rw [ite_self]
    exact Nat.zero_le _

/-- The sleeper takes the event. -/
theorem Inv.wake (h : Inv s) (hw : s.waiters[i]? = some w) (hp : w.place = .wait) :
    Inv ({ s with event := false }.putWaiter i { w with place := .valid }) := by
  have hactive := h.asleep w (List.mem_of_getElem? hw) hp
  obtain ⟨hinside, hsleeper⟩ := inside_of_armed (w := w) ⟨hactive, .inr (.inr hp)⟩
  refine h.change hw ?_ (.inl ?_) (fun hplace => by cases hplace)
    (fun harmed => absurd harmed (not_armed (by simp))) (.inr hsleeper)
  · rw [hinside]
    rfl
  · rw [hsleeper]
    show (if w.active then 0 else 1) ≤ 1
    split
    · exact Nat.zero_le _
    · exact le_refl 1

theorem Inv.stepWaiter (h : Inv s) (hw : s.waiters[i]? = some w)
    (hfew : w.place = .enter → s.inside + 1 < 2 ^ 32) : Inv (s.stepWaiter i w b) := by
  have hinside : ∀ place, w.place = place → w.inside = Waiter.inside { w with place := place } := by
    intro place hp
    rw [← hp]
  cases hp : w.place with
  | enter =>
    simp only [State.stepWaiter, hp]
    exact h.enter hw hp (hfew hp)
  | valid =>
    simp only [State.stepWaiter, hp]
    refine h.goto hw ?_ (fun hplace => ?_) fun harmed => absurd harmed (not_armed ?_)
    · rw [hinside _ hp]
      split <;> rfl
    · split at hplace <;> cases hplace
    · split <;> simp
  | load =>
    simp only [State.stepWaiter, hp]
    refine h.goto hw ?_ (fun hplace => ?_) fun harmed hmet => ?_
    · rw [hinside _ hp]
      split <;> rfl
    · split at hplace <;> cases hplace
    · rw [hmet] at harmed
      exact absurd harmed (not_armed (by simp))
  | time =>
    simp only [State.stepWaiter, hp]
    refine h.goto hw ?_ (fun hplace => ?_) fun harmed _ => ⟨harmed.1, .inl hp⟩
    · rw [hinside _ hp]
      split <;> rfl
    · split at hplace <;> cases hplace
  | poll =>
    simp only [State.stepWaiter, hp]
    refine h.goto hw ?_ (fun hplace => ?_) fun harmed _ => ⟨harmed.1, .inr (.inl hp)⟩
    · rw [hinside _ hp]
      split <;> rfl
    · split at hplace
      · cases hplace
      · rename_i hpolls
        cases ha : w.active
        · rfl
        · exact absurd (.inl ha) hpolls
  | wait =>
    have hasleep := h.asleep w (List.mem_of_getElem? hw) hp
    simp only [State.stepWaiter, hp]
    split
    · exact h.wake hw hp
    · refine h.goto hw ?_ (fun _ => hasleep) fun harmed _ => ⟨harmed.1, .inr (.inr hp)⟩
      rw [hinside _ hp]
      split <;> rfl
  | last =>
    simp only [State.stepWaiter, hp]
    exact h.goto hw (hinside _ hp).symm (fun hplace => by cases hplace)
      fun harmed => absurd harmed (not_armed (by simp))
  | leave =>
    simp only [State.stepWaiter, hp]
    exact h.leave hw hp
  | returned =>
    simp only [State.stepWaiter, hp]
    exact h

/-! ## Steps of a change of the value -/

/-- While a change is waking, or the event is set, or nobody sleeps with the condition met,
producers may change. -/
theorem Inv.putProducers (h : Inv s) {value : Storage} {event : Bool} {producers : List Producer}
    (hwoken : ∀ (i : Nat) (w : Waiter), s.waiters[i]? = some w → w.armed →
      w.met value = some true → event = true ∨
        ∃ p ∈ producers, p.place = .inWaiting ∨ p.place = .setEvent) :
    Inv { s with value := value, event := event, producers := producers } :=
  ⟨h.waiting, h.single, h.asleep, hwoken⟩

theorem Inv.stepProducer (h : Inv s) (hp : s.producers[i]? = some p) :
    Inv (s.stepProducer i p) := by
  obtain ⟨hi, -⟩ := List.getElem?_eq_some_iff.1 hp
  have hnew : ∀ p', p' ∈ s.producers.set i p' := fun p' => List.mem_set hi p'
  cases hplace : p.place with
  | update =>
    simp only [State.stepProducer, hplace]
    exact h.putProducers fun _ _ _ _ _ => .inr ⟨_, hnew _, .inl rfl⟩
  | inWaiting =>
    simp only [State.stepProducer, hplace]
    refine h.putProducers fun j w hw harmed _ => ?_
    -- an armed waiter is counted
    have hcount := (inside_of_armed harmed).1
    have hle : w.inside ≤ s.inside := le_tally Waiter.inside (List.mem_of_getElem? hw)
    have hwaiting := h.waiting
    refine .inr ⟨_, hnew _, .inr ?_⟩
    show (if s.waiting ≠ 0 then Change.setEvent else Change.returned) = .setEvent
    rw [if_pos (by omega)]
  | setEvent =>
    simp only [State.stepProducer, hplace]
    exact h.putProducers fun _ _ _ _ _ => .inl rfl
  | returned =>
    simp only [State.stepProducer, hplace]
    exact h

theorem Inv.next {a : Action} (h : Inv s) (hfew : Few s a) (hstep : s.next a = some t) : Inv t := by
  cases a with
  | wait condition compareValue active =>
    obtain rfl := Option.some.inj hstep
    have hnew : ∀ f : Waiter → Nat, f ⟨condition, compareValue, active, .enter⟩ = 0 →
        tally f (s.waiters ++ [⟨condition, compareValue, active, .enter⟩]) = tally f s.waiters := by
      intro f hf
      rw [tally_append, tally_cons, hf]
      rfl
    refine ⟨?_, ?_, fun w hw hplace => ?_, fun i w hw harmed hmet => ?_⟩
    · exact h.waiting.trans (hnew _ rfl).symm
    · rw [hnew _ (by cases active <;> rfl)]
      exact h.single
    · rcases List.mem_append.1 hw with hw | hw
      · exact h.asleep w hw hplace
      · rw [List.mem_singleton.1 hw] at hplace
        cases hplace
    · rcases Nat.lt_or_ge i s.waiters.length with hi | hi
      · rw [List.getElem?_append_left hi] at hw
        exact h.woken i w hw harmed hmet
      · rw [List.getElem?_append_right hi] at hw
        have hlast := List.mem_of_getElem? hw
        rw [List.mem_singleton] at hlast
        rw [hlast] at harmed
        exact absurd harmed (not_armed (by simp))
  | update op =>
    obtain rfl := Option.some.inj hstep
    refine h.putProducers fun i w hw harmed hmet => ?_
    rcases h.woken i w hw harmed hmet with hevent | ⟨p, hp, hplace⟩
    · exact .inl hevent
    · exact .inr ⟨p, List.mem_append_left _ hp, hplace⟩
  | waiter i b =>
    obtain ⟨w, hw, rfl⟩ := Option.map_eq_some_iff.1 hstep
    refine h.stepWaiter hw fun hp => hfew ?_
    simp only [State.enters, hw, Option.any_some, hp, decide_true]
  | producer i =>
    obtain ⟨p, hp, rfl⟩ := Option.map_eq_some_iff.1 hstep
    exact h.stepProducer hp

/-! ## No wake-up is lost -/

/-- While fewer than `2 ^ 32` waiters are counted at a time, no waiter sleeps with its condition
met unless it is about to be woken. -/
theorem store_never_lost {value : Value} {valid event : Bool}
    (hrun : Run machine Few (State.initial value valid event) s) : ¬ Lost s := by
  have h : Inv s := hrun.invariant (inv_initial value valid event)
    fun t a u ht _ hfew hstep => ht.next hfew hstep
  exact h.not_lost

/-- A waiter sleeps while another one leaves, and a store wakes it. -/
theorem store_never_lost_two : ∃ s, Run machine Few (State.initial 0 true false) s ∧
    decide (s.event = true ∧ s.waiters.map Waiter.place = [.wait, .returned]) = true ∧
      ¬ Lost s := by
  have hexec : ((machine.exec Few (State.initial 0 true false)
      [.wait (some .eq) 1 false, .wait (some .eq) 0 false, .waiter 0 false, .waiter 1 false,
        .waiter 0 false, .waiter 0 false, .waiter 0 false, .waiter 0 false, .waiter 1 false,
        .waiter 1 false, .update (.store 1), .producer 0, .waiter 1 false, .producer 0,
        .producer 0]).any fun s =>
      decide (s.event = true ∧ s.waiters.map Waiter.place = [.wait, .returned])) = true := by
    decide +kernel
  obtain ⟨s, hs, hend⟩ := Run.exists_of_exec hexec
  exact ⟨s, hs, hend, store_never_lost hs⟩

/-! ## The counter wraps -/

/-- A waiter for the value 1. -/
def sleeping : Waiter := ⟨some .eq, 1, false, .wait⟩

/-- A waiter that has been counted. -/
def polling : Waiter := ⟨some .eq, 1, true, .valid⟩

/-- A waiter that has not been counted yet. -/
def entering : Waiter := ⟨some .eq, 1, true, .enter⟩

/-- One waiter sleeps, and `n` poll. -/
def crowd (n : Nat) : State :=
  ⟨0, true, (n + 1) % 2 ^ 32, false, sleeping :: List.replicate n polling, []⟩

theorem run_crowd (n : Nat) : Run machine anyAction (State.initial 0 true false) (crowd n) := by
  induction n with
  | zero =>
    have hexec : machine.exec anyAction (State.initial 0 true false)
        [.wait (some .eq) 1 false, .waiter 0 false, .waiter 0 false, .waiter 0 false,
          .waiter 0 false, .waiter 0 false] = some (crowd 0) := by
      decide +kernel
    exact Run.of_exec hexec
  | succ n ih =>
    have hcall := ih.tail (a := Action.wait (some .eq) 1 true) rfl trivial rfl
    have hget : (sleeping :: List.replicate n polling ++ [entering])[n + 1]? = some entering := by
      rw [List.cons_append, List.getElem?_cons_succ, List.getElem?_append_right (by simp)]
      simp
    have hset : (sleeping :: List.replicate n polling ++ [entering]).set (n + 1) polling =
        sleeping :: List.replicate (n + 1) polling := by
      rw [List.cons_append, List.set_cons_succ, List.set_append_right _ _ (by simp),
        List.replicate_succ']
      simp
    have hcount : increment ((n + 1) % 2 ^ 32) = (n + 1 + 1) % 2 ^ 32 := by
      unfold increment
      omega
    refine hcall.tail (a := Action.waiter (n + 1) false) ?_ trivial ?_
    · show decide (n + 1 < (sleeping :: List.replicate n polling ++ [entering]).length) = true
      simp
    · show Option.map _ (sleeping :: List.replicate n polling ++ [entering])[n + 1]? = _
      rw [hget]
      show some (State.mk _ _ (increment ((n + 1) % 2 ^ 32)) _
        ((sleeping :: List.replicate n polling ++ [entering]).set (n + 1) polling) _) = _
      rw [hset, hcount]
      rfl

/-- With `waiting_` zero, whoever the waiters are, a store does not set the event. -/
theorem run_store (l : List Waiter) :
    Run machine anyAction ⟨0, true, 0, false, l, []⟩
      ⟨extend 1, true, 0, false, l, [⟨.store 1, .returned⟩]⟩ := by
  have hstart : Run machine anyAction ⟨0, true, 0, false, l, []⟩ ⟨0, true, 0, false, l, []⟩ := .refl
  have hcall := hstart.tail (a := Action.update (.store 1)) rfl trivial rfl
  have hupdate := hcall.tail (a := Action.producer 0) rfl trivial rfl
  exact hupdate.tail (a := Action.producer 0) rfl trivial rfl

/-- `2 ^ 32` waiters are counted as none: one of them sleeps, the value it waits for is stored, and
nobody wakes it. -/
theorem lost_with_many : ¬ ∀ (value : Value) (valid event : Bool) (s : State),
    Run machine anyAction (State.initial value valid event) s → ¬ Lost s := by
  intro hall
  have hzero : (2 ^ 32 - 1 + 1) % 2 ^ 32 = 0 := by decide
  have hcrowd := run_crowd (2 ^ 32 - 1)
  unfold crowd at hcrowd
  rw [hzero] at hcrowd
  have hrun := hcrowd.trans (run_store _)
  refine hall 0 true false _ hrun ⟨sleeping, List.mem_cons_self .., rfl, rfl, by decide, ?_⟩
  intro p hp
  rw [List.mem_singleton.1 hp]

end Costream.Signal.Interrupt
