import Costream.Trace
import Mathlib.Data.List.Basic

/-!
# An OS event

`machine` is one event of `CreateOsEvent` with any number of threads, each of which makes one call
of `WaitForOsEvent`, `SetOsEvent` or `ResetOsEvent` after the other.  A thread stands at a place of
the call that it is in, and each access to the mutex, to `state` and to the condition variable is a
step of its own.

`pthread_cond_timedwait` may stop waiting with any code at any time: with 0 because of a signal, or
because of nothing.  So `pthread_cond_signal` has no effect on the state.

The mutex is one of the default kind: a thread that locks it again while it has it waits forever.

* `Exclusive` says that the thread that has the mutex is the one between its lock and its unlock.
-/

namespace Costream.Os

open Trace

/-! ## The state -/

/-- What a thread does next. -/
inductive Place where
  | idle
  /-- `WaitForOsEvent`: `pthread_mutex_trylock`. -/
  | waitTryLock
  /-- `pthread_mutex_lock`. -/
  | waitLock (milliSeconds : Nat)
  /-- The tests of `state` and of `milli_seconds`. -/
  | waitTest (milliSeconds : Nat)
  /-- `state = false` after `state` was found set. -/
  | waitTake
  /-- `pthread_cond_timedwait`. -/
  | waitTimed (milliSeconds : Nat)
  | waiting
  /-- `pthread_cond_timedwait` locks the mutex again. -/
  | waitRelock (retCode : Nat)
  /-- The tests after it has returned. -/
  | waitWoken (retCode : Nat)
  | waitUnlock (retCode : Nat)
  | waitReturn (retCode : Nat)
  /-- `SetOsEvent`. -/
  | setLock
  | setStore
  | setUnlock
  | setSignal
  | setReturn
  /-- `ResetOsEvent`. -/
  | resetLock
  | resetStore
  | resetUnlock
  | resetReturn
  deriving DecidableEq

/-- The places at which a thread has the mutex.  A wait with timeout 0 has it before its lock. -/
def Place.holds : Place → Bool
  | .waitLock milliSeconds => milliSeconds = 0
  | .waitTest _ | .waitTake | .waitTimed _ | .waitWoken _ | .waitUnlock _ => true
  | .setStore | .setUnlock | .resetStore | .resetUnlock => true
  | _ => false

/-- The places at which a thread is about to lock the mutex. -/
def Place.locks : Place → Bool
  | .waitLock _ | .waitRelock _ | .setLock | .resetLock => true
  | _ => false

/-- A wait that is about to return 0. -/
def Place.due : Place → Nat
  | .waitUnlock retCode | .waitReturn retCode => if retCode = 0 then 1 else 0
  | _ => 0

/-- What is kept of a run. -/
inductive Event where
  /-- A condition wait of an auto-reset event has ended with 0, and found `state` like this. -/
  | woken (found : Bool)
  /-- `WaitForOsEvent` has returned. -/
  | returned (retCode : Nat)
  /-- `state` was set, and was like this before. -/
  | set (found : Bool)
  /-- `state` was reset, and was like this before. -/
  | reset (found : Bool)
  deriving DecidableEq

structure State where
  autoReset : Bool
  state : Bool
  owner : Option Nat
  threads : List Place
  history : List Event

/-- `CreateOsEvent`, with `n` threads that may use the event. -/
def createOsEvent (autoReset initState : Bool) (n : Nat) : State where
  autoReset := autoReset
  state := initState
  owner := none
  threads := List.replicate n .idle
  history := []

def State.move (s : State) (i : Nat) (p : Place) : State :=
  { s with threads := s.threads.set i p }

def State.note (s : State) (e : Event) : State :=
  { s with history := s.history ++ [e] }

/-! ## The steps -/

inductive Call where
  | waitForOsEvent (milliSeconds : Nat)
  | setOsEvent
  | resetOsEvent
  deriving DecidableEq

def Call.start : Call → Place
  | .waitForOsEvent milliSeconds => if milliSeconds = 0 then .waitTryLock else .waitLock milliSeconds
  | .setOsEvent => .setLock
  | .resetOsEvent => .resetLock

inductive Action where
  | call (i : Nat) (c : Call)
  | thread (i : Nat)
  /-- `pthread_cond_timedwait` fails before it has released the mutex. -/
  | refuse (i code : Nat)
  /-- It stops waiting. -/
  | wake (i code : Nat)
  deriving DecidableEq

/-- `ETIMEDOUT` becomes the code of the library. -/
def timedOut (code : Nat) : Nat := if code = 110 then 0x14003 else code

/-- The next step of thread `i`, which is at the place `p`. -/
def State.next (s : State) (i : Nat) : Place → Option State
  | .idle | .waiting => none
  | .waitTryLock =>
    -- `EBUSY`
    if s.owner.isSome then some (s.move i (.waitReturn 1))
    else some ({ s with owner := some i }.move i (.waitLock 0))
  | .waitLock milliSeconds => some ({ s with owner := some i }.move i (.waitTest milliSeconds))
  | .waitTest milliSeconds =>
    if s.state then some (s.move i (if s.autoReset then .waitTake else .waitUnlock 0))
    else some (s.move i (if milliSeconds = 0 then .waitUnlock 1 else .waitTimed milliSeconds))
  | .waitTake => some ({ s with state := false }.move i (.waitUnlock 0))
  | .waitTimed _ => some ({ s with owner := none }.move i .waiting)
  | .waitRelock retCode => some ({ s with owner := some i }.move i (.waitWoken retCode))
  | .waitWoken retCode =>
    if retCode = 0 ∧ s.autoReset then
      some (({ s with state := false }.note (.woken s.state)).move i (.waitUnlock retCode))
    else some (s.move i (.waitUnlock (timedOut retCode)))
  | .waitUnlock retCode => some ({ s with owner := none }.move i (.waitReturn retCode))
  | .waitReturn retCode => some ((s.note (.returned retCode)).move i .idle)
  | .setLock => some ({ s with owner := some i }.move i .setStore)
  | .setStore => some (({ s with state := true }.note (.set s.state)).move i .setUnlock)
  | .setUnlock => some ({ s with owner := none }.move i .setSignal)
  | .setSignal => some (s.move i .setReturn)
  | .setReturn => some (s.move i .idle)
  | .resetLock => some ({ s with owner := some i }.move i .resetStore)
  | .resetStore => some (({ s with state := false }.note (.reset s.state)).move i .resetUnlock)
  | .resetUnlock => some ({ s with owner := none }.move i .resetReturn)
  | .resetReturn => some (s.move i .idle)

/-- A lock waits until nobody has the mutex. -/
def State.ready (s : State) (i : Nat) : Bool :=
  s.threads[i]?.any fun p => p ≠ .idle && p ≠ .waiting && (!p.locks || s.owner.isNone)

def State.enabled (s : State) : Action → Bool
  | .call i _ => s.threads[i]? = some .idle
  | .thread i => s.ready i
  | .refuse i code => s.threads[i]?.any fun p => p matches .waitTimed _ && code ≠ 0
  | .wake i _ => s.threads[i]? = some .waiting

def State.step (s : State) : Action → Option State
  | .call i c => some (s.move i c.start)
  | .thread i => s.threads[i]?.bind (s.next i)
  | .refuse i code => some (s.move i (.waitWoken code))
  | .wake i code => some (s.move i (.waitRelock code))

def machine : Machine State Action where
  enabled s a := s.enabled a = true
  step := State.step

instance (s : State) (a : Action) : Decidable (machine.enabled s a) :=
  inferInstanceAs (Decidable (s.enabled a = true))

/-! ## What a step does -/

variable {s t : State} {i : Nat} {p q : Place} {a : Action}

theorem getElem?_move (h : s.threads[i]? = some q) (j : Nat) :
    (s.threads.set i p)[j]? = if j = i then some p else s.threads[j]? := by
  split
  · rename_i hj
    rw [hj, List.getElem?_set_self (List.getElem?_eq_some_iff.1 h).1]
  · rename_i hj
    rw [List.getElem?_set_ne (Ne.symm hj)]

/-- The thread that has the mutex is the one at a place that holds it. -/
def State.Exclusive (s : State) : Prop :=
  ∀ i, s.owner = some i ↔ ∃ p, s.threads[i]? = some p ∧ p.holds = true

/-- What a step does to the mutex: nothing, or it takes it while nobody has it, or it gives it
back. -/
inductive Locking (s t : State) (i : Nat) (q p : Place) : Prop where
  | keep (howner : t.owner = s.owner) (hholds : p.holds = q.holds)
  | lock (hfree : s.owner = none) (howner : t.owner = some i) (hq : q.holds = false)
    (hp : p.holds = true)
  | unlock (howner : t.owner = none) (hq : q.holds = true) (hp : p.holds = false)

/-- What a step does to `state` and to the history. -/
inductive Effect (s t : State) (q p : Place) : Prop where
  | quiet (hstate : t.state = s.state) (hhistory : t.history = s.history)
    (hdue : s.autoReset = true → p.due = q.due) (htake : p = .waitTake → s.state = true)
  | take (hq : q = .waitTake) (hp : p = .waitUnlock 0) (hstate : t.state = false)
    (hhistory : t.history = s.history)
  | woken (hq : q = .waitWoken 0) (hp : p = .waitUnlock 0) (hstate : t.state = false)
    (hhistory : t.history = s.history ++ [.woken s.state])
  | returned (retCode : Nat) (hq : q = .waitReturn retCode) (hp : p = .idle)
    (hstate : t.state = s.state) (hhistory : t.history = s.history ++ [.returned retCode])
  | set (hq : q = .setStore) (hp : p = .setUnlock) (hstate : t.state = true)
    (hhistory : t.history = s.history ++ [.set s.state])
  | reset (hq : q = .resetStore) (hp : p = .resetUnlock) (hstate : t.state = false)
    (hhistory : t.history = s.history ++ [.reset s.state])

/-- Thread `i` goes from the place `q` to the place `p`. -/
structure Moves (s t : State) (i : Nat) (q p : Place) : Prop where
  place : s.threads[i]? = some q
  threads : t.threads = s.threads.set i p
  autoReset : t.autoReset = s.autoReset
  locking : Locking s t i q p
  effect : Effect s t q p

/-- A step that changes nothing but the place and the mutex. -/
theorem Effect.calm (hstate : t.state = s.state) (hhistory : t.history = s.history)
    (hdue : p.due = q.due) (htake : p ≠ .waitTake) : Effect s t q p :=
  .quiet hstate hhistory (fun _ => hdue) fun hp => absurd hp htake

theorem State.Exclusive.owner (h : s.Exclusive) (hi : s.threads[i]? = some p)
    (hp : p.holds = true) : s.owner = some i := (h i).2 ⟨p, hi, hp⟩

/-- A thread with timeout 0 that has the mutex never gets it a second time. -/
theorem State.Exclusive.free (h : s.Exclusive) (hi : s.threads[i]? = some p)
    (hfree : s.owner = none) : p.holds = false := by
  rw [← Bool.not_eq_true]
  intro hp
  rw [h.owner hi hp] at hfree
  cases hfree

/-- The next step of a call. -/
theorem State.Exclusive.thread_moves (h : s.Exclusive) (hq : s.threads[i]? = some q)
    (hfree : q.locks = true → s.owner = none) (hnext : s.next i q = some t) :
    ∃ p, Moves s t i q p := by
  cases q with
  | idle => cases hnext
  | waiting => cases hnext
  | waitTryLock =>
    rw [State.next] at hnext
    split at hnext <;> cases hnext
    · exact ⟨.waitReturn 1, hq, rfl, rfl, .keep rfl rfl, .calm rfl rfl rfl nofun⟩
    · rename_i hnone
      rw [Option.not_isSome_iff_eq_none] at hnone
      exact ⟨.waitLock 0, hq, rfl, rfl, .lock hnone rfl rfl rfl, .calm rfl rfl rfl nofun⟩
  | waitLock milliSeconds =>
    cases hnext
    exact ⟨.waitTest milliSeconds, hq, rfl, rfl,
      .lock (hfree rfl) rfl (h.free hq (hfree rfl)) rfl, .calm rfl rfl rfl nofun⟩
  | waitTest milliSeconds =>
    rw [State.next] at hnext
    split at hnext <;> rename_i hstate <;> cases hnext
    · cases hauto : s.autoReset with
      | false =>
        refine ⟨.waitUnlock 0, hq, rfl, rfl, .keep rfl rfl, .quiet rfl rfl ?_ nofun⟩
        intro h
        rw [hauto] at h
        cases h
      | true =>
        exact ⟨.waitTake, hq, rfl, rfl, .keep rfl rfl,
          .quiet rfl rfl (fun _ => rfl) fun _ => hstate⟩
    · by_cases hms : milliSeconds = 0
      · rw [if_pos hms]
        exact ⟨.waitUnlock 1, hq, rfl, rfl, .keep rfl rfl, .calm rfl rfl rfl nofun⟩
      · rw [if_neg hms]
        exact ⟨.waitTimed milliSeconds, hq, rfl, rfl, .keep rfl rfl, .calm rfl rfl rfl nofun⟩
  | waitTake =>
    cases hnext
    exact ⟨.waitUnlock 0, hq, rfl, rfl, .keep rfl rfl, .take rfl rfl rfl rfl⟩
  | waitTimed milliSeconds =>
    cases hnext
    exact ⟨.waiting, hq, rfl, rfl, .unlock rfl rfl rfl, .calm rfl rfl rfl nofun⟩
  | waitRelock retCode =>
    cases hnext
    exact ⟨.waitWoken retCode, hq, rfl, rfl, .lock (hfree rfl) rfl rfl rfl,
      .calm rfl rfl rfl nofun⟩
  | waitWoken retCode =>
    rw [State.next] at hnext
    split at hnext <;> rename_i hzero <;> cases hnext
    · rw [hzero.1] at hq ⊢
      exact ⟨.waitUnlock 0, hq, rfl, rfl, .keep rfl rfl, .woken rfl rfl rfl rfl⟩
    · refine ⟨.waitUnlock (timedOut retCode), hq, rfl, rfl, .keep rfl rfl,
        .quiet rfl rfl (fun hauto => ?_) nofun⟩
      have hne : timedOut retCode ≠ 0 := by
        unfold timedOut
        split
        · decide
        · exact fun h => hzero ⟨h, hauto⟩
      exact if_neg hne
  | waitUnlock retCode =>
    cases hnext
    exact ⟨.waitReturn retCode, hq, rfl, rfl, .unlock rfl rfl rfl, .calm rfl rfl rfl nofun⟩
  | waitReturn retCode =>
    cases hnext
    exact ⟨.idle, hq, rfl, rfl, .keep rfl rfl, .returned retCode rfl rfl rfl rfl⟩
  | setLock =>
    cases hnext
    exact ⟨.setStore, hq, rfl, rfl, .lock (hfree rfl) rfl rfl rfl, .calm rfl rfl rfl nofun⟩
  | setStore =>
    cases hnext
    exact ⟨.setUnlock, hq, rfl, rfl, .keep rfl rfl, .set rfl rfl rfl rfl⟩
  | setUnlock =>
    cases hnext
    exact ⟨.setSignal, hq, rfl, rfl, .unlock rfl rfl rfl, .calm rfl rfl rfl nofun⟩
  | setSignal =>
    cases hnext
    exact ⟨.setReturn, hq, rfl, rfl, .keep rfl rfl, .calm rfl rfl rfl nofun⟩
  | setReturn =>
    cases hnext
    exact ⟨.idle, hq, rfl, rfl, .keep rfl rfl, .calm rfl rfl rfl nofun⟩
  | resetLock =>
    cases hnext
    exact ⟨.resetStore, hq, rfl, rfl, .lock (hfree rfl) rfl rfl rfl, .calm rfl rfl rfl nofun⟩
  | resetStore =>
    cases hnext
    exact ⟨.resetUnlock, hq, rfl, rfl, .keep rfl rfl, .reset rfl rfl rfl rfl⟩
  | resetUnlock =>
    cases hnext
    exact ⟨.resetReturn, hq, rfl, rfl, .unlock rfl rfl rfl, .calm rfl rfl rfl nofun⟩
  | resetReturn =>
    cases hnext
    exact ⟨.idle, hq, rfl, rfl, .keep rfl rfl, .calm rfl rfl rfl nofun⟩

/-- Every step moves one thread, which goes on by itself unless it has no call or waits. -/
theorem State.Exclusive.moves (h : s.Exclusive) (he : machine.enabled s a)
    (hs : machine.step s a = some t) : ∃ i q p, Moves s t i q p ∧ (a = .thread i ∨ q = .idle ∨
      (∃ milliSeconds, q = .waitTimed milliSeconds) ∨ q = .waiting) := by
  cases a with
  | call i c =>
    have hi : s.threads[i]? = some .idle := by simpa [machine, State.enabled] using he
    cases hs
    cases c with
    | waitForOsEvent milliSeconds =>
      by_cases hms : milliSeconds = 0
      · refine ⟨i, .idle, .waitTryLock, ⟨hi, ?_, rfl, .keep rfl rfl, .calm rfl rfl rfl nofun⟩,
          .inr (.inl rfl)⟩
        rw [hms]
        rfl
      · refine ⟨i, .idle, .waitLock milliSeconds, ⟨hi, ?_, rfl, .keep rfl (decide_eq_false hms),
          .calm rfl rfl rfl nofun⟩, .inr (.inl rfl)⟩
        rw [Call.start, if_neg hms]
        rfl
    | setOsEvent =>
      exact ⟨i, _, .setLock, ⟨hi, rfl, rfl, .keep rfl rfl, .calm rfl rfl rfl nofun⟩,
        .inr (.inl rfl)⟩
    | resetOsEvent =>
      exact ⟨i, _, .resetLock, ⟨hi, rfl, rfl, .keep rfl rfl, .calm rfl rfl rfl nofun⟩,
        .inr (.inl rfl)⟩
  | refuse i code =>
    have hi : s.threads[i]?.any (fun p => p matches .waitTimed _ && code ≠ 0) = true := he
    cases hs
    cases hp : s.threads[i]? with
    | none =>
      rw [hp] at hi
      cases hi
    | some p =>
      rw [hp, Option.any_some] at hi
      cases p with
      | waitTimed milliSeconds =>
        exact ⟨i, _, .waitWoken code, ⟨hp, rfl, rfl, .keep rfl rfl, .calm rfl rfl rfl nofun⟩,
          .inr (.inr (.inl ⟨milliSeconds, rfl⟩))⟩
      | _ => cases hi
  | wake i code =>
    have hi : s.threads[i]? = some .waiting := by simpa [machine, State.enabled] using he
    cases hs
    exact ⟨i, _, .waitRelock code, ⟨hi, rfl, rfl, .keep rfl rfl, .calm rfl rfl rfl nofun⟩,
      .inr (.inr (.inr rfl))⟩
  | thread i =>
    have hready : s.ready i = true := he
    obtain ⟨q, hq, hnext⟩ := Option.bind_eq_some_iff.1 hs
    unfold State.ready at hready
    rw [hq, Option.any_some, Bool.and_eq_true, Bool.or_eq_true] at hready
    have hfree : q.locks = true → s.owner = none := fun hlocks =>
      Option.isNone_iff_eq_none.1 (hready.2.resolve_left (by simp [hlocks]))
    obtain ⟨p, hm⟩ := h.thread_moves hq hfree hnext
    exact ⟨i, q, p, hm, .inl rfl⟩

/-! ## Mutual exclusion -/

theorem Moves.exclusive (hm : Moves s t i q p) (h : s.Exclusive) : t.Exclusive := by
  intro j
  rw [hm.threads, getElem?_move hm.place]
  have hself : s.owner = some i ↔ q.holds = true := by
    rw [h i, hm.place]
    simp
  split
  · rename_i hj
    rw [hj]
    cases hm.locking with
    | keep howner hholds =>
      rw [howner, hself, ← hholds]
      simp
    | lock hfree howner hq hp => simp [howner, hp]
    | unlock howner hq hp => simp [howner, hp]
  · rename_i hj
    rw [← h j]
    cases hm.locking with
    | keep howner hholds => rw [howner]
    | lock hfree howner hq hp => simp [howner, hfree, Ne.symm hj]
    | unlock howner hq hp => simp [howner, hself.2 hq, Ne.symm hj]

theorem exclusive_createOsEvent (autoReset initState : Bool) (n : Nat) :
    (createOsEvent autoReset initState n).Exclusive := by
  intro i
  unfold createOsEvent
  constructor
  · intro h
    cases h
  · rintro ⟨p, hp, hholds⟩
    rw [List.getElem?_replicate] at hp
    split at hp <;> cases hp
    cases hholds

/-- In every run. -/
theorem exclusive_of_run {ok : State → Action → Prop} {autoReset initState : Bool} {n : Nat}
    (h : Run machine ok (createOsEvent autoReset initState n) s) :
    s.Exclusive ∧ s.autoReset = autoReset := by
  refine h.invariant (P := fun s => s.Exclusive ∧ s.autoReset = autoReset)
    ⟨exclusive_createOsEvent _ _ _, rfl⟩ ?_
  intro t a u ht he _ hs
  obtain ⟨i, q, p, hm, -⟩ := ht.1.moves he hs
  exact ⟨hm.exclusive ht.1, hm.autoReset.trans ht.2⟩

end Costream.Os
