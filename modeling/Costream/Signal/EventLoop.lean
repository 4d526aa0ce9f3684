import Costream.Signal.AsyncEvents
import Costream.Trace

/-!
# The loop of the asynchronous events

`AsyncEventsLoop` waits for the signals of its rows, runs the handler of one that has met
its condition, sweeps out the dead signals, and takes over the rows that
`SetAsyncSignalHandler` has put into `new_async_events_`; a row without a signal is a plain
function, which is called once.  Row 0 is the control signal.  When `exit` is set, the
loop ends and releases what it still has.

`made` are the registrations so far, and `released` the signals that the loop has released.
To release or to use a null pointer is a fault, and so is an index that is not in a vector.
Which signal a wait returns, what a handler returns and which signal is valid is up to
the surroundings.

The last of the loops does not look for plain functions (`loop_bookkept`,
`null_released`).
-/

namespace Costream.Signal.EventPool

open Trace Costream.Lists
open AsyncEvents (clear ofRows)

/-! ## The code -/

inductive Place where
  /-- `while (!exit)` -/
  | top
  | wait
  /-- The wait has returned this index: before the handler is called. -/
  | fired (index : Nat)
  /-- Before row `index` is looked at for a dead signal. -/
  | sweep (index : Nat)
  /-- Before the critical section that takes over the new rows. -/
  | collect
  | functions (functions : List (Option Nat × Nat))
  /-- After the loop: before row `i` is released. -/
  | releaseActive (i : Nat)
  /-- Before row `i` of `new_async_events_` is released. -/
  | releaseNew (i : Nat)
  | done
deriving DecidableEq

structure State where
  /-- The control signal. -/
  wake : Nat
  exit : Bool
  /-- `async_events_` -/
  active : AsyncEvents
  /-- `new_async_events_` -/
  fresh : AsyncEvents
  place : Place
  made : List Row
  released : List Nat

/-- The row that starts the thread. -/
def wakeRow (wake : Nat) : Row := ⟨some wake, .ne, 0, none, 0⟩

/-- The thread has just been started. -/
def State.initial (wake : Nat) : State :=
  { wake := wake
    exit := false
    active := clear.pushBack (some wake) .ne 0 none 0
    fresh := clear
    place := .top
    made := []
    released := [] }

inductive Action where
  /-- `SetAsyncSignalHandler` -/
  | register (signal : Option Nat) (cond : Condition) (value : Value) (handler arg : Nat)
  /-- `Shutdown` -/
  | exit
  /-- A step of the loop.  A wait returns `index`; `b` is what a handler returns, or whether a
  signal is valid. -/
  | loop (index : Nat) (b : Bool)

/-- A row of `new_async_events_` is taken over. -/
def collectRow (fresh : AsyncEvents) (acc : AsyncEvents × List (Option Nat × Nat)) (i : Nat) :
    Option (AsyncEvents × List (Option Nat × Nat)) := do
  let signal ← fresh.signal[i]?
  if signal.isNone then
    let handler ← fresh.handler[i]?
    let arg ← fresh.arg[i]?
    return (acc.1, acc.2 ++ [(handler, arg)])
  else
    let cond ← fresh.cond[i]?
    let value ← fresh.value[i]?
    let handler ← fresh.handler[i]?
    let arg ← fresh.arg[i]?
    return (acc.1.pushBack signal cond value handler arg, acc.2)

/-- The critical section of the loop: the rows, and the plain functions. -/
def collect (fresh active : AsyncEvents) : Option (AsyncEvents × List (Option Nat × Nat)) :=
  (List.range fresh.size).foldlM (collectRow fresh) (active, [])

namespace State

variable (s : State)

def goto (place : Place) : State := { s with place := place }

/-- `signal->Release()` -/
def release (signal : Option Nat) : Option State :=
  signal.map fun x => { s with released := s.released ++ [x] }

/-- The signal of row `index` is released, and the row removed. -/
def drop (index : Nat) : Option State := do
  let signal ← s.active.signal[index]?
  let s ← s.release signal
  let active ← s.active.remove index
  return { s with active := active }

def loop (index : Nat) (b : Bool) : Option State :=
  match s.place with
  | .top => some (s.goto (if s.exit then .releaseActive 1 else .wait))
  | .wait =>
    -- the wait retains, reads and releases every signal
    if s.active.signal.all Option.isSome then
      some (s.goto (if index = 0 ∨ index = 2 ^ 32 - 1 then .sweep 0 else .fired index))
    else
      none
  | .fired index =>
    match s.active.handler[index]? with
    | some (some _) => (if b then some s else s.drop index).map fun s => s.goto (.sweep 0)
    | _ => none
  | .sweep index =>
    if index = s.active.size then
      some (s.goto .collect)
    else
      match s.active.signal[index]? with
      | some (some _) =>
        if b then some (s.goto (.sweep ((index + 1) % 2 ^ 32))) else s.drop index
      | _ => none
  | .collect =>
    (collect s.fresh s.active).map fun (active, functions) =>
      { s with active := active, fresh := clear, place := .functions functions }
  | .functions [] => some (s.goto .top)
  | .functions ((handler, _) :: rest) => handler.map fun _ => s.goto (.functions rest)
  | .releaseActive i =>
    if i < s.active.size then
      s.active.signal[i]?.bind fun signal =>
        (s.release signal).map fun s => s.goto (.releaseActive (i + 1))
    else
      some { s with active := clear, place := .releaseNew 0 }
  | .releaseNew i =>
    if i < s.fresh.size then
      s.fresh.signal[i]?.bind fun signal =>
        (s.release signal).map fun s => s.goto (.releaseNew (i + 1))
    else
      some { s with fresh := clear, place := .done }
  | .done => none

def next : Action → Option State
  | .register signal cond value handler arg =>
    some { s with
      fresh := s.fresh.pushBack signal cond value (some handler) arg
      made := s.made ++ [⟨signal, cond, value, some handler, arg⟩] }
  | .exit => some { s with exit := true }
  | .loop index b => s.loop index b

/-- A handler is registered while the loop still reads `new_async_events_` in its critical
section or before it reads it for the last time, and not for the control signal, which stays
valid.  A wait for `n` rows returns an index below `n`, as 32 bits have it, or `-1`. -/
def enabled : Action → Bool
  | .register signal _ _ _ _ =>
    (signal ≠ some s.wake : Bool) &&
      match s.place with
      | .releaseNew _ => false
      | .done => false
      | _ => true
  | .exit => true
  | .loop index b =>
    match s.place with
    | .wait => index < s.active.size % 2 ^ 32 ∨ index = 2 ^ 32 - 1
    | .sweep index => b = true ∨ s.active.signal[index]? ≠ some (some s.wake)
    | .done => false
    | _ => true

end State

def machine : Machine State Action where
  enabled s a := s.enabled a = true
  step := State.next

instance (s : State) (a : Action) : Decidable (machine.enabled s a) :=
  inferInstanceAs (Decidable (s.enabled a = true))

/-! ## What is kept -/

/-- The row of registration `i`. -/
def rowOf (made : List Row) (wake i : Nat) : Row := made.getD i (wakeRow wake)

def State.row (s : State) (i : Nat) : Row := rowOf s.made s.wake i

/-- The step leaves the loop over `async_events_` at the exit. -/
def State.leaves (s : State) : Action → Bool
  | .loop _ _ =>
    match s.place with
    | .releaseActive i => s.active.size ≤ i
    | _ => false
  | _ => false

/-- No plain function is pending when the loop over `async_events_` at the exit ends. -/
def Fits (s : State) (a : Action) : Prop := s.leaves a = true → none ∉ s.fresh.signal

instance (s : State) (a : Action) : Decidable (Fits s a) :=
  inferInstanceAs (Decidable (s.leaves a = true → none ∉ s.fresh.signal))

/-- The vectors have one length, and each of their rows is the row of one registration, and not
of another one at the same time; no signal is released more often than it has been registered,
and at the end each has been released as often; and no step fails. -/
structure Bookkept (s : State) : Prop where
  aligned : s.active.Aligned ∧ s.fresh.Aligned
  rows : ∃ active fresh : List Nat, (active ++ fresh).Nodup ∧
    (∀ i ∈ active ++ fresh, i < s.made.length) ∧
    (s.active = ofRows (wakeRow s.wake :: active.map s.row) ∨
      s.active = clear ∧ active = []) ∧
    s.fresh = ofRows (fresh.map s.row)
  released : s.released.Subperm (s.made.filterMap Row.signal)
  done : s.place = .done → s.released.Perm (s.made.filterMap Row.signal)
  works : ∀ a, s.enabled a = true → (s.next a).isSome = true

/-! ## The invariant -/

variable {s t : State} {made : List Row} {wake i j index : Nat} {b : Bool} {released : List Nat}
variable {gone active pending plain : List Nat}

/-- Every registration is in one place: its signal has been released, it is active, it is
pending, or it was a plain function. -/
structure Books (made : List Row) (wake : Nat) (released gone active pending plain : List Nat) :
    Prop where
  all : (gone ++ active ++ pending ++ plain).Perm (List.range made.length)
  released : released.map some = gone.map fun i => (rowOf made wake i).signal
  live : ∀ i ∈ active, (rowOf made wake i).signal ≠ none
  null : ∀ i ∈ plain, (rowOf made wake i).signal = none
  others : ∀ r ∈ made, r.signal ≠ some wake ∧ r.handler ≠ none

/-- The vectors hold the rows that are active and pending. -/
structure Running (s : State) (active pending : List Nat) : Prop where
  active : s.active = ofRows (wakeRow s.wake :: active.map s.row)
  fresh : s.fresh = ofRows (pending.map s.row)

/-- What the vectors hold, where the loop stands. -/
def State.At (s : State) (gone active pending : List Nat) : Prop :=
  match s.place with
  | .fired index => index ≠ 0 ∧ index < active.length + 1 ∧ Running s active pending
  | .sweep index => index ≤ active.length + 1 ∧ Running s active pending
  | .functions functions => (∀ f ∈ functions, f.1 ≠ none) ∧ Running s active pending
  | .releaseActive i => ∃ old : List Nat, old.Sublist gone ∧ old.length + 1 = i ∧
      s.active = ofRows (wakeRow s.wake :: (old ++ active).map s.row) ∧
      s.fresh = ofRows (pending.map s.row)
  | .releaseNew i => ∃ old : List Nat, old.Sublist gone ∧ old.length = i ∧ active = [] ∧
      (∀ j ∈ pending, (s.row j).signal ≠ none) ∧ s.active = clear ∧
      s.fresh = ofRows ((old ++ pending).map s.row)
  | .done => active = [] ∧ pending = [] ∧ s.active = clear ∧ s.fresh = clear
  | _ => Running s active pending

def Inv (s : State) : Prop :=
  ∃ gone active pending plain : List Nat,
    Books s.made s.wake s.released gone active pending plain ∧ s.At gone active pending

theorem inv_initial (wake : Nat) : Inv (State.initial wake) :=
  ⟨[], [], [], [], ⟨.refl _, rfl, by simp, by simp, by simp [State.initial]⟩, rfl, rfl⟩

theorem Books.lt (h : Books made wake released gone active pending plain)
    (hi : i ∈ gone ++ active ++ pending ++ plain) : i < made.length :=
  List.mem_range.1 (h.all.mem_iff.1 hi)

theorem rowOf_append (h : i < made.length) (r : Row) :
    rowOf (made ++ [r]) wake i = rowOf made wake i := by
  unfold rowOf
  rw [List.getD_eq_getElem?_getD, List.getD_eq_getElem?_getD, List.getElem?_append_left h]

theorem rowOf_mem (h : i < made.length) : rowOf made wake i ∈ made := by
  unfold rowOf
  rw [List.getD_eq_getElem?_getD, List.getElem?_eq_getElem h]
  exact List.getElem_mem h

/-- The signal of a row is released. -/
theorem Books.release {x : Nat}
    (h : Books made wake released gone (i :: active) pending plain)
    (hx : (rowOf made wake i).signal = some x) :
    Books made wake (released ++ [x]) (gone ++ [i]) active pending plain := by
  refine ⟨?_, ?_, fun k hk => h.live k (List.mem_cons_of_mem i hk), h.null, h.others⟩
  · simpa using h.all
  · rw [List.map_append, List.map_append, h.released]
    simp only [List.map_cons, List.map_nil, hx]

theorem Books.perm {active' : List Nat}
    (h : Books made wake released gone active pending plain) (hperm : active'.Perm active) :
    Books made wake released gone active' pending plain := by
  refine ⟨?_, h.released, fun k hk => h.live k (hperm.mem_iff.1 hk), h.null, h.others⟩
  exact (((hperm.append_left gone).append_right pending).append_right plain).trans h.all

theorem Books.register (h : Books made wake released gone active pending plain) {r : Row}
    (hr : r.signal ≠ some wake ∧ r.handler ≠ none) :
    Books (made ++ [r]) wake released gone active (pending ++ [made.length]) plain := by
  have hrow : ∀ i ∈ gone ++ active ++ pending ++ plain,
      rowOf (made ++ [r]) wake i = rowOf made wake i := fun i hi => rowOf_append (h.lt hi) r
  refine ⟨?_, ?_, fun k hk => ?_, fun k hk => ?_, fun r' hr' => ?_⟩
  · rw [List.length_append, List.length_singleton, List.range_succ]
    have hmove : gone ++ active ++ (pending ++ [made.length]) ++ plain =
        gone ++ active ++ pending ++ made.length :: plain := by simp
    rw [hmove]
    exact List.perm_middle.trans
      ((List.perm_append_singleton _ _).symm.trans (h.all.append_right _))
  · rw [h.released]
    refine List.map_congr_left fun k hk => ?_
    rw [hrow k (by simp [hk])]
  · rw [hrow k (by simp [hk])]
    exact h.live k hk
  · rw [hrow k (by simp [hk])]
    exact h.null k hk
  · rcases List.mem_append.1 hr' with hr' | hr'
    · exact h.others r' hr'
    · rw [List.mem_singleton.1 hr']
      exact hr

/-- Rows that are in the vectors stay the same when another one is registered. -/
theorem rows_append {l : List Nat} (h : ∀ i ∈ l, i < made.length) (r : Row) :
    l.map (rowOf (made ++ [r]) wake) = l.map (rowOf made wake) :=
  List.map_congr_left fun i hi => rowOf_append (h i hi) r

theorem rowOf_length (r : Row) : rowOf (made ++ [r]) wake made.length = r := by
  unfold rowOf
  rw [List.getD_eq_getElem?_getD, List.getElem?_append_right (le_refl _)]
  simp

/-- The new row is behind the others in `new_async_events_`. -/
theorem fresh_append {l : List Nat} (h : ∀ i ∈ l, i < made.length) (r : Row) :
    (ofRows (l.map (rowOf made wake))).pushBack r.signal r.cond r.value r.handler r.arg =
      ofRows ((l ++ [made.length]).map (rowOf (made ++ [r]) wake)) := by
  rw [pushBack_ofRows, List.map_append, rows_append h]
  simp only [List.map_cons, List.map_nil, rowOf_length]

theorem Inv.register (h : Inv s) {r : Row} (hsignal : r.signal ≠ some s.wake)
    (hhandler : r.handler ≠ none) (hnew : ∀ i, s.place ≠ .releaseNew i) (hdone : s.place ≠ .done) :
    Inv { s with
      fresh := s.fresh.pushBack r.signal r.cond r.value r.handler r.arg
      made := s.made ++ [r] } := by
  obtain ⟨gone, active, pending, plain, hbooks, hat⟩ := h
  refine ⟨gone, active, pending ++ [s.made.length], plain, hbooks.register ⟨hsignal, hhandler⟩, ?_⟩
  have hactive : ∀ i ∈ active, i < s.made.length := fun i hi => hbooks.lt (by simp [hi])
  have hpending : ∀ i ∈ pending, i < s.made.length := fun i hi => hbooks.lt (by simp [hi])
  have hrunning : ∀ place, Running s active pending → Running
      { s with
        fresh := s.fresh.pushBack r.signal r.cond r.value r.handler r.arg
        made := s.made ++ [r]
        place := place } active (pending ++ [s.made.length]) := by
    intro place hr
    refine ⟨?_, ?_⟩
    · exact hr.active.trans (congrArg (fun l => ofRows (wakeRow s.wake :: l))
        (rows_append hactive r).symm)
    · show s.fresh.pushBack r.signal r.cond r.value r.handler r.arg = _
      rw [hr.fresh]
      exact fresh_append hpending r
  cases hp : s.place with
  | releaseNew i => exact absurd hp (hnew i)
  | done => exact absurd hp hdone
  | fired index =>
    simp only [State.At, hp] at hat ⊢
    exact ⟨hat.1, hat.2.1, hrunning _ hat.2.2⟩
  | sweep index =>
    simp only [State.At, hp] at hat ⊢
    exact ⟨hat.1, hrunning _ hat.2⟩
  | functions functions =>
    simp only [State.At, hp] at hat ⊢
    exact ⟨hat.1, hrunning _ hat.2⟩
  | releaseActive i =>
    simp only [State.At, hp] at hat ⊢
    obtain ⟨old, hsub, hlen, ha, hf⟩ := hat
    have hold : ∀ i ∈ old ++ active, i < s.made.length := by
      intro i hi
      rcases List.mem_append.1 hi with hi | hi
      · exact hbooks.lt (by simp [hsub.subset hi])
      · exact hactive i hi
    refine ⟨old, hsub, hlen, ?_, ?_⟩
    · exact ha.trans (congrArg (fun l => ofRows (wakeRow s.wake :: l)) (rows_append hold r).symm)
    · rw [hf]
      exact fresh_append hpending r
  | _ =>
    simp only [State.At, hp] at hat ⊢
    exact hrunning _ hat

/-! ## What a step of the loop does -/

theorem signal_ofRows (rows : List Row) (i : Nat) :
    (ofRows rows).signal[i]? = rows[i]?.map Row.signal := List.getElem?_map

theorem handler_ofRows (rows : List Row) (i : Nat) :
    (ofRows rows).handler[i]? = rows[i]?.map Row.handler := List.getElem?_map

/-- The signal of an active row is released and its row removed. -/
theorem Running.drop (h : Running s active pending) (hi : active[j]? = some i) {x : Nat}
    (hx : (s.row i).signal = some x) :
    s.drop (j + 1) = some { s with
      released := s.released ++ [x]
      active := ofRows (wakeRow s.wake :: (swapRemove active j).map s.row) } := by
  obtain ⟨hj, -⟩ := List.getElem?_eq_some_iff.1 hi
  have hsignal : s.active.signal[j + 1]? = some (some x) := by
    rw [h.active, signal_ofRows, List.getElem?_cons_succ, List.getElem?_map, hi]
    simp only [Option.map_some, hx]
  have hremove : s.active.remove (j + 1) =
      some (ofRows (wakeRow s.wake :: (swapRemove active j).map s.row)) := by
    rw [h.active, remove_ofRows (by simpa using hj), swapRemove_cons _ (by simpa using hj),
      swapRemove_map]
  unfold State.drop
  rw [hsignal]
  simp only [State.release, Option.bind_eq_bind, Option.bind_some, Option.map_some, hremove]
  rfl

/-- An active row has a signal, which is not the control signal. -/
theorem Books.active_signal (h : Books made wake released gone active pending plain)
    (hi : i ∈ active) : ∃ x, (rowOf made wake i).signal = some x ∧ x ≠ wake := by
  cases hx : (rowOf made wake i).signal with
  | none => exact absurd hx (h.live i hi)
  | some x =>
    refine ⟨x, rfl, fun hw => ?_⟩
    have hlt : i < made.length := h.lt (by simp [hi])
    exact (h.others _ (rowOf_mem hlt)).1 (by rw [hx, hw])

/-- After an active row has been removed, the loop stands at `place`. -/
theorem Books.removed (hbooks : Books made wake released gone active pending plain)
    (hi : active[j]? = some i) {x : Nat} (hx : (rowOf made wake i).signal = some x) :
    Books made wake (released ++ [x]) (gone ++ [i]) (swapRemove active j) pending plain :=
  (hbooks.perm (swapRemove_perm hi)).release hx

theorem loop_top (h : Running s active pending) (hp : s.place = .top)
    (hbooks : Books s.made s.wake s.released gone active pending plain) :
    ∃ t, s.loop index b = some t ∧ Inv t := by
  refine ⟨s.goto (if s.exit then .releaseActive 1 else .wait), by simp only [State.loop, hp],
    gone, active, pending, plain, hbooks, ?_⟩
  cases s.exit with
  | false => exact ⟨h.active, h.fresh⟩
  | true => exact ⟨[], List.nil_sublist _, rfl, h.active, h.fresh⟩

theorem loop_wait (h : Running s active pending) (hp : s.place = .wait)
    (hbooks : Books s.made s.wake s.released gone active pending plain)
    (henabled : s.enabled (.loop index b) = true) :
    ∃ t, s.loop index b = some t ∧ Inv t := by
  have hall : s.active.signal.all Option.isSome = true := by
    rw [h.active, List.all_eq_true]
    intro signal hsignal
    simp only [ofRows, List.map_cons, List.mem_cons, List.map_map, List.mem_map] at hsignal
    rcases hsignal with hsignal | ⟨i, hi, hsignal⟩
    · rw [hsignal]
      rfl
    · obtain ⟨x, hx, -⟩ := hbooks.active_signal hi
      rw [← hsignal]
      show ((rowOf s.made s.wake i).signal).isSome = true
      rw [hx]
      rfl
  refine ⟨s.goto (if index = 0 ∨ index = 2 ^ 32 - 1 then .sweep 0 else .fired index), ?_,
    gone, active, pending, plain, hbooks, ?_⟩
  · simp only [State.loop, hp]
    rw [if_pos hall]
  · simp only [State.enabled, hp, decide_eq_true_eq, h.active, size_ofRows, List.length_cons,
      List.length_map] at henabled
    by_cases hindex : index = 0 ∨ index = 2 ^ 32 - 1
    · rw [if_pos hindex]
      exact ⟨Nat.zero_le _, h.active, h.fresh⟩
    · rw [if_neg hindex]
      have hmod := Nat.mod_le (active.length + 1) (2 ^ 32)
      exact ⟨fun h0 => hindex (.inl h0), by omega, h.active, h.fresh⟩

theorem loop_fired (h : Running s active pending) (hp : s.place = .fired i) (hi : i ≠ 0)
    (hlt : i < active.length + 1)
    (hbooks : Books s.made s.wake s.released gone active pending plain) :
    ∃ t, s.loop index b = some t ∧ Inv t := by
  obtain ⟨j, rfl⟩ := Nat.exists_eq_succ_of_ne_zero hi
  have hj : j < active.length := by omega
  have hget : active[j]? = some active[j] := List.getElem?_eq_getElem hj
  have hmem : active[j] ∈ active := List.getElem_mem hj
  obtain ⟨x, hx, -⟩ := hbooks.active_signal hmem
  have hlt' : active[j] < s.made.length := hbooks.lt (by simp)
  obtain ⟨f, hf⟩ : ∃ f, (s.row active[j]).handler = some f :=
    Option.ne_none_iff_exists'.1 (hbooks.others _ (rowOf_mem hlt')).2
  have hhandler : s.active.handler[j.succ]? = some (some f) := by
    rw [h.active, handler_ofRows, List.getElem?_cons_succ, List.getElem?_map, hget]
    simp only [Option.map_some, hf]
  cases b with
  | true =>
    refine ⟨s.goto (.sweep 0), ?_, gone, active, pending, plain, hbooks,
      Nat.zero_le _, h.active, h.fresh⟩
    simp only [State.loop, hp, hhandler, if_true, Option.map_some]
  | false =>
    refine ⟨State.goto { s with
        released := s.released ++ [x]
        active := ofRows (wakeRow s.wake :: (swapRemove active j).map s.row) } (.sweep 0), ?_,
      gone ++ [active[j]], swapRemove active j, pending, plain, hbooks.removed hget hx,
      Nat.zero_le _, rfl, h.fresh⟩
    simp only [State.loop, hp, hhandler, Bool.false_eq_true, if_false, h.drop hget hx,
      Option.map_some]

theorem loop_sweep (h : Running s active pending) (hp : s.place = .sweep i)
    (hle : i ≤ active.length + 1)
    (hbooks : Books s.made s.wake s.released gone active pending plain)
    (henabled : s.enabled (.loop index b) = true) :
    ∃ t, s.loop index b = some t ∧ Inv t := by
  have hsize : s.active.size = active.length + 1 := by
    rw [h.active, size_ofRows, List.length_cons, List.length_map]
  have hstay : Inv (s.goto (.sweep ((i + 1) % 2 ^ 32))) ∨ i = active.length + 1 := by
    by_cases hend : i = active.length + 1
    · exact .inr hend
    · have hmod := Nat.mod_le (i + 1) (2 ^ 32)
      exact .inl ⟨gone, active, pending, plain, hbooks, by omega, h.active, h.fresh⟩
  rcases Nat.lt_or_eq_of_le hle with hlt | hend
  · have hne : i ≠ s.active.size := by omega
    have hinv := hstay.resolve_right (by omega)
    cases i with
    | zero =>
      have hsignal : s.active.signal[0]? = some (some s.wake) := by
        rw [h.active, signal_ofRows]
        rfl
      simp only [State.enabled, hp, hsignal, ne_eq, not_true_eq_false, or_false,
        decide_eq_true_eq] at henabled
      refine ⟨_, ?_, hinv⟩
      simp only [State.loop, hp, if_neg hne, hsignal, henabled, if_true]
    | succ j =>
      have hj : j < active.length := by omega
      have hget : active[j]? = some active[j] := List.getElem?_eq_getElem hj
      obtain ⟨x, hx, -⟩ := hbooks.active_signal (List.getElem_mem hj)
      have hsignal : s.active.signal[j + 1]? = some (some x) := by
        rw [h.active, signal_ofRows, List.getElem?_cons_succ, List.getElem?_map, hget]
        exact congrArg some hx
      cases b with
      | true =>
        refine ⟨_, ?_, hinv⟩
        simp only [State.loop, hp, if_neg hne, hsignal, if_true]
      | false =>
        have hlen := swapRemove_length hj
        refine ⟨{ s with
            released := s.released ++ [x]
            active := ofRows (wakeRow s.wake :: (swapRemove active j).map s.row) }, ?_,
          gone ++ [active[j]], swapRemove active j, pending, plain, hbooks.removed hget hx, ?_⟩
        · simp only [State.loop, hp, if_neg hne, hsignal, Bool.false_eq_true, if_false,
            h.drop hget hx]
        · simp only [State.At, hp]
          exact ⟨by omega, rfl, h.fresh⟩
  · refine ⟨s.goto .collect, ?_, gone, active, pending, plain, hbooks, h.active, h.fresh⟩
    simp only [State.loop, hp]
    rw [if_pos (by omega)]

/-- The critical section separates the rows that have a signal from the plain functions. -/
theorem collect_take (rows base : List Row) (n : Nat) (hn : n ≤ rows.length) :
    (List.range n).foldlM (collectRow (ofRows rows)) (ofRows base, []) =
      some (ofRows (base ++ (rows.take n).filter fun r => r.signal.isSome),
        ((rows.take n).filter fun r => !r.signal.isSome).map fun r => (r.handler, r.arg)) := by
  induction n with
  | zero =>
    rw [List.take_zero, List.filter_nil, List.append_nil]
    rfl
  | succ n ih =>
    have hlt : n < rows.length := by omega
    have hget : rows[n]? = some rows[n] := List.getElem?_eq_getElem hlt
    rw [List.range_succ, List.foldlM_append, ih (by omega), List.take_add_one, hget]
    simp only [Option.bind_eq_bind, Option.bind_some, List.foldlM_cons, List.foldlM_nil,
      Option.toList_some, List.filter_append, List.map_append]
    unfold collectRow
    simp only [ofRows, List.getElem?_map, hget, Option.map_some, Option.bind_eq_bind,
      Option.bind_some]
    cases hs : rows[n].signal with
    | none => simp [hs]
    | some x => simp [hs, AsyncEvents.pushBack]

/-- The registrations that have a signal. -/
def State.signalsOf (s : State) (l : List Nat) : List Nat :=
  l.filter fun i => (s.row i).signal.isSome

/-- The registrations that are plain functions. -/
def State.plainOf (s : State) (l : List Nat) : List Nat :=
  l.filter fun i => !(s.row i).signal.isSome

theorem Running.collect_eq (h : Running s active pending) :
    collect s.fresh s.active =
      some (ofRows (wakeRow s.wake :: (active ++ s.signalsOf pending).map s.row),
        ((s.plainOf pending).map s.row).map fun r => (r.handler, r.arg)) := by
  have htake := collect_take (pending.map s.row) (wakeRow s.wake :: active.map s.row) _ le_rfl
  rw [List.take_length, List.filter_map, List.filter_map] at htake
  unfold collect
  rw [h.fresh, h.active, size_ofRows, List.map_append]
  exact htake

theorem loop_collect (h : Running s active pending) (hp : s.place = .collect)
    (hbooks : Books s.made s.wake s.released gone active pending plain) :
    ∃ t, s.loop index b = some t ∧ Inv t := by
  have hperm : (s.signalsOf pending ++ s.plainOf pending).Perm pending := List.filter_append_perm _ _
  refine ⟨{ s with
      active := ofRows (wakeRow s.wake :: (active ++ s.signalsOf pending).map s.row)
      fresh := clear
      place := .functions (((s.plainOf pending).map s.row).map fun r => (r.handler, r.arg)) },
    by simp only [State.loop, hp, h.collect_eq, Option.map_some],
    gone, active ++ s.signalsOf pending, [], plain ++ s.plainOf pending,
    ⟨?_, hbooks.released, fun i hi => ?_, fun i hi => ?_, hbooks.others⟩, ?_, rfl, rfl⟩
  · have hmove : (gone ++ (active ++ s.signalsOf pending) ++ [] ++ (plain ++ s.plainOf pending)).Perm
        (gone ++ active ++ (s.signalsOf pending ++ s.plainOf pending) ++ plain) := by
      have hcomm : (plain ++ s.plainOf pending).Perm (s.plainOf pending ++ plain) :=
        List.perm_append_comm
      simpa using hcomm.append_left (gone ++ active ++ s.signalsOf pending)
    exact hmove.trans (((hperm.append_left (gone ++ active)).append_right plain).trans hbooks.all)
  · rcases List.mem_append.1 hi with hi | hi
    · exact hbooks.live i hi
    · exact fun hnone => by simp [State.signalsOf, State.row, hnone] at hi
  · rcases List.mem_append.1 hi with hi | hi
    · exact hbooks.null i hi
    · simpa [State.plainOf, State.row] using (List.mem_filter.1 hi).2
  · intro f hf
    simp only [List.map_map, List.mem_map] at hf
    obtain ⟨i, hi, hf⟩ := hf
    have hmem : i ∈ pending := List.mem_of_mem_filter hi
    have hlt : i < s.made.length := hbooks.lt (by simp [hmem])
    rw [← hf]
    exact (hbooks.others _ (rowOf_mem hlt)).2

theorem loop_functions (h : Running s active pending) {functions : List (Option Nat × Nat)}
    (hp : s.place = .functions functions) (hsome : ∀ f ∈ functions, f.1 ≠ none)
    (hbooks : Books s.made s.wake s.released gone active pending plain) :
    ∃ t, s.loop index b = some t ∧ Inv t := by
  cases functions with
  | nil =>
    exact ⟨s.goto .top, by simp only [State.loop, hp], gone, active, pending, plain, hbooks,
      h.active, h.fresh⟩
  | cons f rest =>
    obtain ⟨handler, arg⟩ := f
    obtain ⟨g, rfl⟩ : ∃ g, handler = some g :=
      Option.ne_none_iff_exists'.1 (hsome _ (List.mem_cons_self ..))
    exact ⟨s.goto (.functions rest), by simp only [State.loop, hp, Option.map_some], gone, active,
      pending, plain, hbooks, fun f hf => hsome f (List.mem_cons_of_mem _ hf), h.active, h.fresh⟩

theorem loop_releaseActive (h : Inv s) (hp : s.place = .releaseActive i) :
    ∃ t, s.loop index b = some t ∧ ((s.active.size ≤ i → none ∉ s.fresh.signal) → Inv t) := by
  obtain ⟨gone, active, pending, plain, hbooks, hat⟩ := h
  simp only [State.At, hp] at hat
  obtain ⟨old, hsub, hlen, ha, hf⟩ := hat
  have hsize : s.active.size = old.length + active.length + 1 := by
    rw [ha, size_ofRows, List.length_cons, List.length_map, List.length_append]
  cases active with
  | nil =>
    have hend : ¬ i < s.active.size := by
      rw [hsize, ← hlen, List.length_nil]
      omega
    refine ⟨{ s with active := clear, place := .releaseNew 0 }, ?_, fun hfits => ⟨gone, [], pending,
      plain, hbooks, [], List.nil_sublist _, rfl, rfl, fun j hj hnone => ?_, rfl, hf⟩⟩
    · simp only [State.loop, hp]
      rw [if_neg hend]
    · refine hfits (by omega) ?_
      rw [hf]
      exact List.mem_map.2 ⟨s.row j, List.mem_map_of_mem hj, hnone⟩
  | cons k active =>
    obtain ⟨x, hx, -⟩ := hbooks.active_signal (List.mem_cons_self ..)
    have hlt : i < s.active.size := by
      rw [hsize, List.length_cons]
      omega
    have hsignal : s.active.signal[i]? = some (some x) := by
      rw [ha, signal_ofRows, ← hlen, List.getElem?_cons_succ, List.getElem?_map,
        List.getElem?_append_right le_rfl, Nat.sub_self]
      exact congrArg some hx
    refine ⟨State.goto { s with released := s.released ++ [x] } (.releaseActive (i + 1)), ?_,
      fun _ => ⟨gone ++ [k], active, pending, plain, hbooks.release hx, old ++ [k],
      hsub.append (List.Sublist.refl _), ?_, ?_, hf⟩⟩
    · simp only [State.loop, hp]
      rw [if_pos hlt, hsignal]
      rfl
    · rw [List.length_append, List.length_singleton, hlen]
    · rw [List.append_assoc]
      exact ha

theorem loop_releaseNew (h : Inv s) (hp : s.place = .releaseNew i) :
    ∃ t, s.loop index b = some t ∧ Inv t := by
  obtain ⟨gone, active, pending, plain, hbooks, hat⟩ := h
  simp only [State.At, hp] at hat
  obtain ⟨old, hsub, hlen, hnil, hsome, ha, hf⟩ := hat
  have hsize : s.fresh.size = old.length + pending.length := by
    rw [hf, size_ofRows, List.length_map, List.length_append]
  cases pending with
  | nil =>
    have hend : ¬ i < s.fresh.size := by
      rw [hsize, ← hlen, List.length_nil]
      omega
    refine ⟨{ s with fresh := clear, place := .done }, ?_, gone, active, [], plain, hbooks, hnil,
      rfl, ha, rfl⟩
    simp only [State.loop, hp]
    rw [if_neg hend]
  | cons k pending =>
    obtain ⟨x, hx⟩ : ∃ x, (s.row k).signal = some x :=
      Option.ne_none_iff_exists'.1 (hsome k (List.mem_cons_self ..))
    have hlt : i < s.fresh.size := by
      rw [hsize, List.length_cons]
      omega
    have hsignal : s.fresh.signal[i]? = some (some x) := by
      rw [hf, signal_ofRows, ← hlen, List.getElem?_map, List.getElem?_append_right le_rfl,
        Nat.sub_self]
      exact congrArg some hx
    have hbooks' : Books s.made s.wake s.released gone (k :: active) pending plain := by
      refine ⟨?_, hbooks.released, fun j hj => ?_, hbooks.null, hbooks.others⟩
      · rw [hnil] at hbooks ⊢
        simpa using hbooks.all
      · rw [hnil, List.mem_singleton] at hj
        rw [hj]
        exact hsome k (List.mem_cons_self ..)
    refine ⟨State.goto { s with released := s.released ++ [x] } (.releaseNew (i + 1)), ?_,
      gone ++ [k], active, pending, plain, hbooks'.release hx, old ++ [k],
      hsub.append (List.Sublist.refl _), ?_, hnil,
      fun j hj => hsome j (List.mem_cons_of_mem k hj), ha, ?_⟩
    · simp only [State.loop, hp]
      rw [if_pos hlt, hsignal]
      rfl
    · rw [List.length_append, List.length_singleton, hlen]
    · rw [List.append_assoc]
      exact hf

/-- A step of the loop has a result, and keeps the invariant if no plain function is left over. -/
theorem Inv.loop (h : Inv s) (henabled : s.enabled (.loop index b) = true) :
    ∃ t, s.loop index b = some t ∧ (Fits s (.loop index b) → Inv t) := by
  have hkeep : (∃ t, s.loop index b = some t ∧ Inv t) →
      ∃ t, s.loop index b = some t ∧ (Fits s (.loop index b) → Inv t) :=
    fun ⟨t, ht, hinv⟩ => ⟨t, ht, fun _ => hinv⟩
  obtain ⟨gone, active, pending, plain, hbooks, hat⟩ := h
  have hinv : Inv s := ⟨gone, active, pending, plain, hbooks, hat⟩
  cases hp : s.place with
  | top =>
    simp only [State.At, hp] at hat
    exact hkeep (loop_top hat hp hbooks)
  | wait =>
    simp only [State.At, hp] at hat
    exact hkeep (loop_wait hat hp hbooks henabled)
  | fired i =>
    simp only [State.At, hp] at hat
    exact hkeep (loop_fired hat.2.2 hp hat.1 hat.2.1 hbooks)
  | sweep i =>
    simp only [State.At, hp] at hat
    exact hkeep (loop_sweep hat.2 hp hat.1 hbooks henabled)
  | collect =>
    simp only [State.At, hp] at hat
    exact hkeep (loop_collect hat hp hbooks)
  | functions functions =>
    simp only [State.At, hp] at hat
    exact hkeep (loop_functions hat.2 hp hat.1 hbooks)
  | releaseActive i =>
    obtain ⟨t, ht, hfits⟩ : ∃ t, s.loop index b = some t ∧
        ((s.active.size ≤ i → none ∉ s.fresh.signal) → Inv t) := loop_releaseActive hinv hp
    refine ⟨t, ht, fun hf => hfits fun hle => hf ?_⟩
    simp only [State.leaves, hp, hle, decide_true]
  | releaseNew i => exact hkeep (loop_releaseNew hinv hp)
  | done => simp [State.enabled, hp] at henabled

theorem Inv.next {a : Action} (h : Inv s) (henabled : s.enabled a = true) :
    ∃ t, s.next a = some t ∧ (Fits s a → Inv t) := by
  cases a with
  | register signal condition value handler arg =>
    simp only [State.enabled, Bool.and_eq_true, decide_eq_true_eq] at henabled
    obtain ⟨hsignal, hplace⟩ := henabled
    refine ⟨_, rfl, fun _ => @Inv.register s h ⟨signal, condition, value, some handler, arg⟩ hsignal
      (by simp) (fun i hp => ?_) fun hp => ?_⟩
    · rw [hp] at hplace
      cases hplace
    · rw [hp] at hplace
      cases hplace
  | exit =>
    obtain ⟨gone, active, pending, plain, hbooks, hat⟩ := h
    refine ⟨_, rfl, fun _ => ⟨gone, active, pending, plain, hbooks, ?_⟩⟩
    unfold State.At at hat ⊢
    cases hp : s.place <;> simp only [hp] at hat ⊢ <;>
      first
        | exact ⟨hat.active, hat.fresh⟩
        | exact ⟨hat.1, hat.2.active, hat.2.fresh⟩
        | exact ⟨hat.1, hat.2.1, hat.2.2.active, hat.2.2.fresh⟩
        | exact hat
  | loop index b => exact h.loop henabled

/-- The signals of the registrations are those of the rows. -/
theorem filterMap_range :
    (List.range made.length).filterMap (fun i => (rowOf made wake i).signal) =
      made.filterMap Row.signal := by
  have hmap : (List.range made.length).map (rowOf made wake) = made := by
    refine List.ext_getElem (by simp) fun i h₁ h₂ => ?_
    rw [List.getElem_map, List.getElem_range, rowOf, List.getD_eq_getElem?_getD,
      List.getElem?_eq_getElem h₂]
    rfl
  conv => rhs; rw [← hmap, List.filterMap_map]
  rfl

theorem Books.released_eq (h : Books made wake released gone active pending plain) :
    released = gone.filterMap fun i => (rowOf made wake i).signal := by
  have hsome := congrArg (List.filterMap id) h.released
  rw [List.filterMap_map, List.filterMap_map] at hsome
  simpa using hsome

theorem Books.released_perm (h : Books made wake released gone active pending plain) :
    (released ++ (active ++ pending).filterMap fun i => (rowOf made wake i).signal).Perm
      (made.filterMap Row.signal) := by
  have hplain : plain.filterMap (fun i => (rowOf made wake i).signal) = [] := by
    rw [List.filterMap_eq_nil_iff]
    exact h.null
  have hall := h.all.filterMap fun i => (rowOf made wake i).signal
  rw [filterMap_range, List.filterMap_append, List.append_assoc gone, List.filterMap_append,
    hplain, List.append_nil, ← h.released_eq] at hall
  exact hall

theorem Inv.rows (h : Inv s) : ∃ active fresh : List Nat, (active ++ fresh).Nodup ∧
    (∀ i ∈ active ++ fresh, i < s.made.length) ∧
    (s.active = ofRows (wakeRow s.wake :: active.map s.row) ∨
      s.active = clear ∧ active = []) ∧
    s.fresh = ofRows (fresh.map s.row) := by
  obtain ⟨gone, active, pending, plain, hbooks, hat⟩ := h
  -- what has been released already may stand before what is still held
  have hsub : ∀ old, old.Sublist gone → ((old ++ active) ++ pending).Nodup ∧
      ∀ i ∈ (old ++ active) ++ pending, i < s.made.length := by
    intro old hold
    have hlist : ((old ++ active) ++ pending).Sublist (gone ++ active ++ pending ++ plain) :=
      ((hold.append_right active).append_right pending).trans (List.sublist_append_left _ _)
    exact ⟨hlist.nodup (hbooks.all.nodup_iff.2 List.nodup_range),
      fun i hi => hbooks.lt (hlist.subset hi)⟩
  have hrunning : Running s active pending → ∃ active fresh : List Nat, (active ++ fresh).Nodup ∧
      (∀ i ∈ active ++ fresh, i < s.made.length) ∧
      (s.active = ofRows (wakeRow s.wake :: active.map s.row) ∨
        s.active = clear ∧ active = []) ∧
      s.fresh = ofRows (fresh.map s.row) := fun h =>
    ⟨active, pending, (hsub [] (List.nil_sublist _)).1, (hsub [] (List.nil_sublist _)).2,
      .inl h.active, h.fresh⟩
  cases hp : s.place with
  | releaseActive i =>
    simp only [State.At, hp] at hat
    obtain ⟨old, hold, -, ha, hf⟩ := hat
    exact ⟨old ++ active, pending, (hsub old hold).1, (hsub old hold).2, .inl ha, hf⟩
  | releaseNew i =>
    simp only [State.At, hp] at hat
    obtain ⟨old, hold, -, hnil, -, ha, hf⟩ := hat
    have hnd := hsub old hold
    rw [hnil, List.append_nil] at hnd
    exact ⟨[], old ++ pending, hnd.1, hnd.2, .inr ⟨ha, rfl⟩, hf⟩
  | done =>
    simp only [State.At, hp] at hat
    exact ⟨[], [], List.nodup_nil, by simp, .inr ⟨hat.2.2.1, rfl⟩, hat.2.2.2⟩
  | fired i =>
    simp only [State.At, hp] at hat
    exact hrunning hat.2.2
  | sweep i =>
    simp only [State.At, hp] at hat
    exact hrunning hat.2
  | functions functions =>
    simp only [State.At, hp] at hat
    exact hrunning hat.2
  | _ =>
    simp only [State.At, hp] at hat
    exact hrunning hat

/-! ## The books are kept -/

/-- While no plain function is pending at the end, the rows of the vectors belong together, every
registered signal is released once, and no null pointer is used. -/
theorem loop_bookkept (hrun : Run machine Fits (State.initial wake) s) : Bookkept s := by
  have h : Inv s := by
    refine hrun.invariant (inv_initial wake) fun t a u ht henabled hfits hstep => ?_
    obtain ⟨v, hv, hinv⟩ := ht.next henabled
    obtain rfl : v = u := Option.some.inj (hv.symm.trans hstep)
    exact hinv hfits
  have hrows := h.rows
  refine ⟨?_, hrows, ?_, fun hp => ?_, fun a ha => ?_⟩
  · obtain ⟨active, fresh, -, -, ha, hf⟩ := hrows
    refine ⟨?_, by rw [hf]; exact aligned_ofRows⟩
    rcases ha with ha | ⟨ha, -⟩ <;> rw [ha]
    · exact aligned_ofRows
    · exact @aligned_ofRows []
  · obtain ⟨gone, active, pending, plain, hbooks, -⟩ := h
    exact (List.sublist_append_left _ _).subperm.trans hbooks.released_perm.subperm
  · obtain ⟨gone, active, pending, plain, hbooks, hat⟩ := h
    simp only [State.At, hp] at hat
    obtain ⟨hactive, hpending, -⟩ := hat
    have hperm := hbooks.released_perm
    rw [hactive, hpending] at hperm
    simpa using hperm
  · obtain ⟨t, ht, -⟩ := h.next ha
    rw [ht]
    rfl

/-- A plain function is called, and two signals are released, one of them by the last loop. -/
theorem loop_bookkept_pending : ∃ s, Run machine Fits (State.initial 9) s ∧
    decide (s.place = .done ∧ s.released = [1, 2]) = true ∧ Bookkept s := by
  have hexec : ((machine.exec Fits (State.initial 9)
      [.register (some 1) .eq 0 5 0, .register none .eq 0 6 0, .loop 0 true, .loop 0 true,
        .loop 0 true, .loop 0 true, .loop 0 true, .loop 0 true, .loop 0 true,
        .register (some 2) .ne 3 5 1, .exit, .loop 0 true, .loop 0 true, .loop 0 true,
        .loop 0 true, .loop 0 true]).any fun s =>
      decide (s.place = .done ∧ s.released = [1, 2])) = true := by
    decide +kernel
  obtain ⟨s, hs, hend⟩ := Run.exists_of_exec hexec
  exact ⟨s, hs, hend, loop_bookkept hs⟩

/-- A plain function is still pending when the loop ends. -/
theorem null_released :
    ¬ ∀ (wake : Nat) (s : State), Run machine anyAction (State.initial wake) s → Bookkept s := by
  intro hall
  have hexec : ((machine.exec anyAction (State.initial 9)
      [.register none .eq 0 6 0, .exit, .loop 0 true, .loop 0 true]).any fun s =>
      decide (s.enabled (.loop 0 true) = true ∧ (s.next (.loop 0 true)).isSome = false)) =
      true := by
    decide +kernel
  obtain ⟨s, hs, hend⟩ := Run.exists_of_exec hexec
  obtain ⟨henabled, hfault⟩ := of_decide_eq_true hend
  rw [(hall 9 s hs).works _ henabled] at hfault
  cases hfault

end Costream.Signal.EventPool
