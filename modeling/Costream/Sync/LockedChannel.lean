import Costream.Sync.RingBuffer
import Costream.Trace

/-!
# The locked channel

`LockedChannelImpl` keeps its values in a ring buffer or in a list, and the
parties that wait in two condition variables, one for writers and one for
readers.  All of `Push`, `Pop` and `Close` runs under `lock_`, but for what a
party does after it has been woken.

* `Store` is the storage of the channel in both modes.
* `State` is the channel with its calls.  The calls of `Push` are numbered in
  the order in which they take the lock, and so are those of `Pop`.
* `machine` has one action for each section under the lock and one for each
  party that resumes.

A waiting party has an entry in a condition variable.  `notifyOne` gives the
functor the oldest entry that can still be woken.  A party can also end its wait
without having been notified, by its deadline or by a spurious wake-up: `fired`
is the time from there to its `try_lock` of `noTimeoutLock`.  A notifier that
takes that lock first cannot wake it any more, and the party is `lost`: its
`do_wait` returns `no_timeout` although no functor has run.
-/

namespace Costream.Sync

open Trace

/-! ## The storage -/

/-- `capacity_`, `useRingBuffer_`, `q_` and `lq_`. -/
structure Store (E : Type*) where
  capacity : Nat
  useRingBuffer : Bool
  q : RingBuffer 64 E
  lq : List E

namespace Store

variable {E : Type*} {s : Store E} {xs : List E} {a : E}

def create (capacity : Nat) (useRingBuffer : Bool) : Store E :=
  ⟨capacity, useRingBuffer, .create (if useRingBuffer then capacity else 1), []⟩

/-- `push(t)`. -/
def push (s : Store E) (t : E) : Option (Bool × Store E) :=
  if s.useRingBuffer then
    (s.q.push t).map fun (ok, q) => (ok, { s with q := q })
  else if s.capacity ≤ s.lq.length then some (false, s)
  else some (true, { s with lq := s.lq ++ [t] })

/-- `pop(t)`, with what it assigns to `t`. -/
def pop (s : Store E) : Option (Option E × Store E) :=
  if s.useRingBuffer then
    s.q.pop.map fun (t, q) => (t, { s with q := q })
  else
    match s.lq with
    | [] => some (none, s)
    | t :: rest => some (some t, { s with lq := rest })

/-- `Size()`. -/
def size (s : Store E) : Nat := if s.useRingBuffer then s.q.size else s.lq.length

/-- The channel stores the values `xs`, oldest first. -/
structure Holds (s : Store E) (xs : List E) : Prop where
  length_le : xs.length ≤ s.capacity
  ring : s.useRingBuffer = true → s.q.capacity = s.capacity ∧ s.q.Holds xs
  list : s.useRingBuffer = false → s.lq = xs

/-- The ring buffer takes another value at the right slot. -/
def Wraps (s : Store E) : Prop := s.useRingBuffer = true → s.q.Wraps

instance : Decidable s.Wraps := inferInstanceAs (Decidable (_ → _))

theorem holds_create {capacity : Nat} {useRingBuffer : Bool}
    (h : useRingBuffer = true → capacity + 1 < 2 ^ 64) :
    (create capacity useRingBuffer : Store E).Holds [] where
  length_le := Nat.zero_le _
  ring hr := by
    simp only [create] at hr
    subst hr
    exact ⟨rfl, RingBuffer.holds_create (h rfl)⟩
  list _ := rfl

theorem Holds.size_eq (h : s.Holds xs) : s.size = xs.length := by
  unfold size
  split
  · rename_i hr
    exact (h.ring hr).2.size_eq
  · rename_i hr
    rw [h.list (by simpa using hr)]

theorem push_full (h : s.Holds xs) (hlen : xs.length = s.capacity) :
    s.push a = some (false, s) := by
  unfold push
  split
  · rename_i hr
    obtain ⟨hcap, hq⟩ := h.ring hr
    rw [RingBuffer.push_full hq (by omega)]
    rfl
  · rename_i hr
    rw [if_pos (by rw [h.list (by simpa using hr)]; omega)]

theorem push_spec (h : s.Holds xs) (hlen : xs.length < s.capacity) (hw : s.Wraps) :
    ∃ s', s.push a = some (true, s') ∧ s'.Holds (xs ++ [a]) ∧ s'.capacity = s.capacity ∧
      (s.useRingBuffer = true → s.q.write + 1 < 2 ^ 64 →
        s'.useRingBuffer = true ∧ s'.q.write = s.q.write + 1) := by
  have hlen' : (xs ++ [a]).length ≤ s.capacity := by
    rw [List.length_append, List.length_singleton]
    exact hlen
  unfold push
  split
  · rename_i hr
    obtain ⟨hcap, hq⟩ := h.ring hr
    obtain ⟨q', hpush, hq', hcap', hwrite⟩ :=
      RingBuffer.push_spec hq (a := a) (by omega) (hw hr)
    refine ⟨{ s with q := q' }, by rw [hpush]; rfl, ⟨hlen', fun _ => ?_, fun hl => ?_⟩, rfl,
      fun _ hlt => ⟨hr, hwrite hlt⟩⟩
    · exact ⟨hcap'.trans hcap, hq'⟩
    · exact absurd (hr.symm.trans hl) (by decide)
  · rename_i hr
    have hlq := h.list (by simpa using hr)
    refine ⟨{ s with lq := s.lq ++ [a] }, if_neg (by rw [hlq]; omega),
      ⟨hlen', fun hr' => absurd hr' hr, fun _ => by rw [hlq]⟩, rfl, fun hr' => absurd hr' hr⟩

theorem pop_nil (h : s.Holds []) : s.pop = some (none, s) := by
  unfold pop
  split
  · rename_i hr
    rw [RingBuffer.pop_nil (h.ring hr).2]
    rfl
  · rename_i hr
    rw [h.list (by simpa using hr)]

theorem pop_spec (h : s.Holds (a :: xs)) :
    ∃ s', s.pop = some (some a, s') ∧ s'.Holds xs ∧ s'.capacity = s.capacity ∧
      (s.Wraps → s'.Wraps) ∧
      (s.useRingBuffer = true → s'.useRingBuffer = true ∧ s'.q.write = s.q.write) := by
  have hlen := h.length_le
  rw [List.length_cons] at hlen
  unfold pop
  split
  · rename_i hr
    obtain ⟨hcap, hq⟩ := h.ring hr
    obtain ⟨q', hpop, hq', hcap', hwrite⟩ := RingBuffer.pop_spec hq
    refine ⟨{ s with q := q' }, by rw [hpop]; rfl,
      ⟨by simp only; omega, fun _ => ?_, fun hl => ?_⟩, rfl, fun hw hr' => ?_,
      fun _ => ⟨hr, hwrite⟩⟩
    · exact ⟨hcap'.trans hcap, hq'⟩
    · exact absurd (hr.symm.trans hl) (by decide)
    · have := hw hr
      unfold RingBuffer.Wraps at this ⊢
      rwa [hwrite, hcap']
  · rename_i hr
    have hlq := h.list (by simpa using hr)
    refine ⟨{ s with lq := xs }, by rw [hlq], ⟨by simp only; omega,
      fun hr' => absurd hr' hr, fun _ => rfl⟩, rfl, fun _ hr' => absurd hr' hr,
      fun hr' => absurd hr' hr⟩

end Store

/-! ## The calls -/

/-- The value of a `Push`, with the number of the call. -/
structure Item (T : Type*) where
  call : Nat
  value : T
  deriving DecidableEq

/-- How far a call is that has waited, or that has returned. -/
inductive Stage where
  | waiting
  | fired
  | woken
  | lost
  | returned (result : Bool)
  deriving DecidableEq

/-- `notify_one` on the entries of a condition variable, oldest first: the entry
that has been woken, the entries that are left, and the stages. -/
def notifyOne {E : Type*} (call : E → Nat) (stage : Nat → Stage) :
    List E → Option E × List E × (Nat → Stage)
  | [] => (none, [], stage)
  | e :: rest =>
    match stage (call e) with
    | .waiting => (some e, rest, Function.update stage (call e) .woken)
    | .fired => notifyOne call (Function.update stage (call e) .lost) rest
    | _ => notifyOne call stage rest

/-- `notify_all` without a functor. -/
def notifyAll (stage : Nat → Stage) : List Nat → Nat → Stage
  | [] => stage
  | e :: rest =>
    match stage e with
    | .waiting => notifyAll (Function.update stage e .woken) rest
    | .fired => notifyAll (Function.update stage e .lost) rest
    | _ => notifyAll stage rest

/-- The channel and its calls.  `pushes` are the values of the `Push` calls and
`pops` counts the `Pop` calls, both in the order of the lock.  `got` is the
value that a `Pop` has been given, and `taken` marks the `Push` calls whose
value a functor has taken while they waited. -/
structure State (T : Type*) where
  store : Store (Item T)
  closed : Bool
  wq : List (Item T)
  rq : List Nat
  pushes : List T
  pops : Nat
  pushStage : Nat → Stage
  popStage : Nat → Stage
  got : Nat → Option (Item T)
  taken : Nat → Bool

namespace State

variable {T : Type*} (s : State T)

/-- The constructor. -/
def initial (capacity : Nat) (useRingBuffer : Bool) : State T where
  store := .create capacity useRingBuffer
  closed := false
  wq := []
  rq := []
  pushes := []
  pops := 0
  pushStage _ := .waiting
  popStage _ := .waiting
  got _ := none
  taken _ := false

/-- `rq_.notify_one`. -/
def notifyReader : Option Nat × State T :=
  let (reader, rq, stage) := notifyOne id s.popStage s.rq
  (reader, { s with rq := rq, popStage := stage })

/-- `wq_.notify_one`. -/
def notifyWriter : Option (Item T) × State T :=
  let (writer, wq, stage) := notifyOne Item.call s.pushStage s.wq
  (writer, { s with wq := wq, pushStage := stage })

/-- `*p = t` for the reader `j`. -/
def give (j : Nat) (t : Option (Item T)) : State T :=
  { s with got := Function.update s.got j (t <|> s.got j) }

/-- The functor has taken the value of the writer `i`. -/
def take (i : Nat) : State T := { s with taken := Function.update s.taken i true }

def returnPush (i : Nat) (result : Bool) : State T :=
  { s with pushStage := Function.update s.pushStage i (.returned result) }

def returnPop (j : Nat) (result : Bool) : State T :=
  { s with popStage := Function.update s.popStage j (.returned result) }

/-- The rest of `Push` when the value could not be handed over or stored. -/
def parkPush (i : Nat) (t : T) (bWait : Bool) : State T :=
  if bWait then
    { s with wq := s.wq ++ [⟨i, t⟩], pushStage := Function.update s.pushStage i .waiting }
  else s.returnPush i false

/-- The rest of `Pop` when there was no value. -/
def parkPop (j : Nat) (bWait : Bool) : State T :=
  if bWait then { s with rq := s.rq ++ [j], popStage := Function.update s.popStage j .waiting }
  else s.returnPop j false

/-- `rq_.notify_one([&](T* p){ pop(*p); })`. -/
def handOut : Option (State T) :=
  match s.notifyReader with
  | (some j, s) => s.store.pop.map fun (t, store) => ({ s with store := store }).give j t
  | (none, s) => some s

/-- `Push` after the value has been stored. -/
def pushed (i : Nat) : Option (State T) :=
  (if s.store.size = 1 then s.handOut else some s).map fun s => s.returnPush i true

/-- `Push(t, bWait)` as the `i`-th call, from `lock` to `unlock`. -/
def push (i : Nat) (t : T) (bWait : Bool) : Option (State T) :=
  if s.closed then some (s.returnPush i false)
  else if s.store.capacity = 0 then
    match s.notifyReader with
    | (some j, s) => some ((s.give j (some ⟨i, t⟩)).returnPush i true)
    | (none, s) => some (s.parkPush i t bWait)
  else do
    let (ok, store) ← s.store.push ⟨i, t⟩
    let s := { s with store := store }
    if ok then s.pushed i else return s.parkPush i t bWait

/-- `wq_.notify_one([&](T* p){ push(*p); })`. -/
def refill : Option (State T) :=
  match s.notifyWriter with
  | (some t, s) => (s.store.push t).map fun (_, store) => ({ s with store := store }).take t.call
  | (none, s) => some s

/-- `Pop` after a value has been taken from the storage. -/
def popped (j : Nat) : Option (State T) :=
  (if s.store.size = s.store.capacity - 1 then s.refill else some s).map fun s =>
    s.returnPop j true

/-- `Pop(t, bWait)` as the `j`-th call, from `lock` to `unlock`. -/
def pop (j : Nat) (bWait : Bool) : Option (State T) :=
  if s.closed then some (s.returnPop j false)
  else if s.store.capacity = 0 then
    match s.notifyWriter with
    | (some t, s) => some (((s.give j (some t)).take t.call).returnPop j true)
    | (none, s) => some (s.parkPop j bWait)
  else do
    let (t, store) ← s.store.pop
    let s := { s with store := store }
    match t with
    | some t => (s.give j (some t)).popped j
    | none => return s.parkPop j bWait

/-- `Close()`. -/
def close : State T :=
  if s.closed then s
  else { s with
    closed := true
    popStage := notifyAll s.popStage s.rq
    rq := []
    pushStage := notifyAll s.pushStage (s.wq.map Item.call)
    wq := [] }

/-- What a call returns when it resumes. -/
def result (closed : Bool) : Stage → Option Bool
  | .woken => some (!closed)
  | .lost => some (!closed)
  | .fired => some false
  | _ => none

end State

/-! ## The machine -/

/-- What the parties do next. -/
inductive Action (T : Type*) where
  | push (t : T) (bWait : Bool)
  | pop (bWait : Bool)
  | close
  | expirePush (i : Nat)
  | expirePop (j : Nat)
  | resumePush (i : Nat)
  | resumePop (j : Nat)

variable {T : Type*}

/-- Only a call that waits can expire, and only one whose wait has ended can
resume. -/
def Enabled (s : State T) : Action T → Bool
  | .push _ _ => true
  | .pop _ => true
  | .close => true
  | .expirePush i => i < s.pushes.length && s.pushStage i = .waiting
  | .expirePop j => j < s.pops && s.popStage j = .waiting
  | .resumePush i => i < s.pushes.length && (State.result s.closed (s.pushStage i)).isSome
  | .resumePop j => j < s.pops && (State.result s.closed (s.popStage j)).isSome

def step (s : State T) : Action T → Option (State T)
  | .push t bWait => ({ s with pushes := s.pushes ++ [t] }).push s.pushes.length t bWait
  | .pop bWait => ({ s with pops := s.pops + 1 }).pop s.pops bWait
  | .close => some s.close
  | .expirePush i => some { s with pushStage := Function.update s.pushStage i .fired }
  | .expirePop j => some { s with popStage := Function.update s.popStage j .fired }
  | .resumePush i => (State.result s.closed (s.pushStage i)).map (s.returnPush i)
  | .resumePop j => (State.result s.closed (s.popStage j)).map (s.returnPop j)

/-- The channel with any number of parties. -/
def machine (T : Type*) : Machine (State T) (Action T) where
  enabled s a := Enabled s a = true
  step := step

instance (s : State T) (a : Action T) : Decidable ((machine T).enabled s a) :=
  inferInstanceAs (Decidable (Enabled s a = true))

end Costream.Sync
