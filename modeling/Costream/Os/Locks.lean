import Costream.Os.Event

/-!
# How the calls use the mutex of an OS event

`watched` is the machine of an event with a record beside it of what each thread's call has done to
the mutex so far.  A new call starts a new record.

* `Place.Fits` is the invariant: what the record says at each place of a call.  It holds in every
  run.
* `Disciplined` is what the calls are to keep.  It fails as soon as a wait with timeout 0 has taken
  the mutex in its try-lock: the wait goes on to lock it again, and stays there.
* `Polite` keeps a wait with timeout 0 from its try-lock while the mutex is free.  The disciplined
  states are the ones of the polite runs.
-/

namespace Costream.Os

open Trace

/-! ## The record -/

/-- What a step does to the mutex. -/
inductive MutexOp where
  | lock
  | unlock
  /-- `pthread_cond_timedwait` gives it up while it waits. -/
  | giveUp
  | takeBack
  deriving DecidableEq

/-- How often a call has done each. -/
structure Uses where
  locked : Nat
  unlocked : Nat
  givenUp : Nat
  takenBack : Nat
  deriving DecidableEq

def Uses.none : Uses := ⟨0, 0, 0, 0⟩

def Uses.add (u : Uses) : MutexOp → Uses
  | .lock => { u with locked := u.locked + 1 }
  | .unlock => { u with unlocked := u.unlocked + 1 }
  | .giveUp => { u with givenUp := u.givenUp + 1 }
  | .takeBack => { u with takenBack := u.takenBack + 1 }

/-- What the next step at a place does to the mutex, which is `free` or not. -/
def Place.mutexOp (free : Bool) : Place → Option MutexOp
  | .waitTryLock => if free then some .lock else none
  | .waitLock _ | .setLock | .resetLock => some .lock
  | .waitUnlock _ | .setUnlock | .resetUnlock => some .unlock
  | .waitTimed _ => some .giveUp
  | .waitRelock _ => some .takeBack
  | _ => none

def Uses.after (u : Uses) : Option MutexOp → Uses
  | some op => u.add op
  | .none => u

/-- An event and the record. -/
structure Watched where
  event : State
  uses : Nat → Uses

def watch (s : State) : Watched := ⟨s, fun _ => .none⟩

def Watched.record (w : Watched) : Action → Nat → Uses
  | .call i _ => Function.update w.uses i .none
  | .thread i =>
    Function.update w.uses i ((w.uses i).after
      (w.event.threads[i]?.bind (Place.mutexOp w.event.owner.isNone)))
  | .refuse _ _ | .wake _ _ => w.uses

def watched : Machine Watched Action where
  enabled w a := machine.enabled w.event a
  step w a := (machine.step w.event a).map fun t => ⟨t, w.record a⟩

instance (w : Watched) (a : Action) : Decidable (watched.enabled w a) :=
  inferInstanceAs (Decidable (machine.enabled w.event a))

/-! ## The lock discipline -/

/-- The places at which a call has done its last step on the mutex, and those between two calls. -/
def Place.over : Place → Bool
  | .idle | .waitReturn _ | .setSignal | .setReturn | .resetReturn => true
  | _ => false

/-- The call has not locked the mutex, or it has locked it once and unlocked it once.  What it gave
up to wait it has taken back. -/
def Uses.Released (u : Uses) : Prop :=
  (u.locked = 0 ∧ u.unlocked = 0 ∨ u.locked = 1 ∧ u.unlocked = 1) ∧ u.givenUp = u.takenBack

structure Disciplined (w : Watched) : Prop where
  /-- No thread locks the mutex while it has it. -/
  noRelock : ∀ (i : Nat) (p : Place), w.event.threads[i]? = some p → p.locks = true →
    w.event.owner ≠ some i
  /-- Every call that locked it has released it once when it returns. -/
  released : ∀ (i : Nat) (p : Place), w.event.threads[i]? = some p → p.over = true →
    (w.uses i).Released
  /-- It is free while no call is in progress. -/
  free : (∀ p ∈ w.event.threads, p = .idle) → w.event.owner = none

/-- A wait with timeout 0 comes to its try-lock while another thread has the mutex. -/
def Polite (w : Watched) : Action → Prop
  | .thread i => w.event.threads[i]? = some .waitTryLock → w.event.owner.isSome = true
  | _ => True

instance (w : Watched) (a : Action) : Decidable (Polite w a) := by
  unfold Polite
  split <;> infer_instance

/-! ## The invariant -/

/-- What the record of a call is at each of its places. -/
def Place.Fits : Place → Uses → Prop
  | .waitTryLock, u | .setLock, u | .resetLock, u => u = .none
  | .waitLock milliSeconds, u => u = if milliSeconds = 0 then ⟨1, 0, 0, 0⟩ else .none
  | .waitTest _, u | .waitTake, u | .waitTimed _, u => u = ⟨1, 0, 0, 0⟩
  | .setStore, u | .setUnlock, u | .resetStore, u | .resetUnlock, u => u = ⟨1, 0, 0, 0⟩
  | .waiting, u | .waitRelock _, u => u = ⟨1, 0, 1, 0⟩
  | .waitWoken _, u | .waitUnlock _, u =>
    u.locked = 1 ∧ u.unlocked = 0 ∧ u.givenUp = u.takenBack
  | .idle, u | .waitReturn _, u | .setSignal, u | .setReturn, u | .resetReturn, u => u.Released

structure Watch (w : Watched) : Prop where
  exclusive : w.event.Exclusive
  fits : ∀ (i : Nat) (p : Place), w.event.threads[i]? = some p → p.Fits (w.uses i)

variable {s t : State} {w v : Watched} {a : Action} {i : Nat} {p q : Place} {u : Uses}

theorem Place.Fits.released (h : p.Fits u) (hp : p.over = true) : u.Released := by
  cases p <;> first | exact h | cases hp

theorem Uses.released_unlock (h : u.locked = 1 ∧ u.unlocked = 0 ∧ u.givenUp = u.takenBack) :
    (u.add .unlock).Released := by
  unfold Uses.Released Uses.add
  dsimp only
  omega

/-- The next step of a call keeps its record, and leads to a second lock of the mutex only from a
try-lock that has taken it. -/
theorem next_fits (h : q.Fits u) (hlock : ∀ milliSeconds, q = .waitLock milliSeconds →
    milliSeconds ≠ 0) (hnext : s.next i q = some t) :
    ∃ p, t.threads = s.threads.set i p ∧ p.Fits (u.after (q.mutexOp s.owner.isNone)) ∧
      (p = .waitLock 0 → q = .waitTryLock ∧ s.owner = none) := by
  cases q with
  | idle => cases hnext
  | waiting => cases hnext
  | waitTryLock =>
    have hu : u = .none := h
    rw [State.next] at hnext
    split at hnext <;> rename_i howner <;> cases hnext
    · obtain ⟨j, hj⟩ := Option.isSome_iff_exists.1 howner
      refine ⟨.waitReturn 1, rfl, ?_, by simp⟩
      rw [hu, hj]
      exact ⟨.inl ⟨rfl, rfl⟩, rfl⟩
    · rw [Option.not_isSome_iff_eq_none] at howner
      refine ⟨.waitLock 0, rfl, ?_, fun _ => ⟨rfl, howner⟩⟩
      rw [hu, howner]
      rfl
  | waitLock milliSeconds =>
    have hu : u = .none := h.trans (if_neg (hlock _ rfl))
    cases hnext
    exact ⟨.waitTest milliSeconds, rfl, by rw [hu]; rfl, by simp⟩
  | waitTest milliSeconds =>
    have hu : u = ⟨1, 0, 0, 0⟩ := h
    rw [State.next] at hnext
    split at hnext <;> cases hnext
    · cases s.autoReset with
      | false => exact ⟨.waitUnlock 0, rfl, by rw [hu]; exact ⟨rfl, rfl, rfl⟩, by simp⟩
      | true => exact ⟨.waitTake, rfl, h, by simp⟩
    · by_cases hms : milliSeconds = 0
      · rw [if_pos hms]
        exact ⟨.waitUnlock 1, rfl, by rw [hu]; exact ⟨rfl, rfl, rfl⟩, by simp⟩
      · rw [if_neg hms]
        exact ⟨.waitTimed milliSeconds, rfl, h, by simp⟩
  | waitTake =>
    have hu : u = ⟨1, 0, 0, 0⟩ := h
    cases hnext
    exact ⟨.waitUnlock 0, rfl, by rw [hu]; exact ⟨rfl, rfl, rfl⟩, by simp⟩
  | waitTimed milliSeconds =>
    have hu : u = ⟨1, 0, 0, 0⟩ := h
    cases hnext
    exact ⟨.waiting, rfl, by rw [hu]; rfl, by simp⟩
  | waitRelock retCode =>
    have hu : u = ⟨1, 0, 1, 0⟩ := h
    cases hnext
    exact ⟨.waitWoken retCode, rfl, by rw [hu]; exact ⟨rfl, rfl, rfl⟩, by simp⟩
  | waitWoken retCode =>
    rw [State.next] at hnext
    split at hnext <;> cases hnext
    · exact ⟨.waitUnlock retCode, rfl, h, by simp⟩
    · exact ⟨.waitUnlock (timedOut retCode), rfl, h, by simp⟩
  | waitUnlock retCode =>
    cases hnext
    exact ⟨.waitReturn retCode, rfl, Uses.released_unlock h, by simp⟩
  | waitReturn retCode =>
    cases hnext
    exact ⟨.idle, rfl, h, by simp⟩
  | setLock =>
    have hu : u = .none := h
    cases hnext
    exact ⟨.setStore, rfl, by rw [hu]; rfl, by simp⟩
  | setStore =>
    cases hnext
    exact ⟨.setUnlock, rfl, h, by simp⟩
  | setUnlock =>
    have hu : u = ⟨1, 0, 0, 0⟩ := h
    cases hnext
    exact ⟨.setSignal, rfl, Uses.released_unlock (by rw [hu]; exact ⟨rfl, rfl, rfl⟩), by simp⟩
  | setSignal =>
    cases hnext
    exact ⟨.setReturn, rfl, h, by simp⟩
  | setReturn =>
    cases hnext
    exact ⟨.idle, rfl, h, by simp⟩
  | resetLock =>
    have hu : u = .none := h
    cases hnext
    exact ⟨.resetStore, rfl, by rw [hu]; rfl, by simp⟩
  | resetStore =>
    cases hnext
    exact ⟨.resetUnlock, rfl, h, by simp⟩
  | resetUnlock =>
    have hu : u = ⟨1, 0, 0, 0⟩ := h
    cases hnext
    exact ⟨.resetReturn, rfl, Uses.released_unlock (by rw [hu]; exact ⟨rfl, rfl, rfl⟩), by simp⟩
  | resetReturn =>
    cases hnext
    exact ⟨.idle, rfl, h, by simp⟩

/-- One thread goes on, and its record with it. -/
theorem Watch.fits_set (h : Watch w) (hi : w.event.threads[i]? = some q) (hp : p.Fits u) (j : Nat)
    (r : Place) (hj : (w.event.threads.set i p)[j]? = some r) :
    r.Fits (Function.update w.uses i u j) := by
  rw [getElem?_move hi] at hj
  split at hj
  · rename_i hji
    cases hj
    rw [hji, Function.update_self]
    exact hp
  · rename_i hji
    rw [Function.update_of_ne hji]
    exact h.fits j r hj

theorem watch_createOsEvent (autoReset initState : Bool) (n : Nat) :
    Watch (watch (createOsEvent autoReset initState n)) where
  exclusive := exclusive_createOsEvent autoReset initState n
  fits := by
    intro i p hp
    unfold watch createOsEvent at hp
    rw [List.getElem?_replicate] at hp
    split at hp <;> cases hp
    exact ⟨.inl ⟨rfl, rfl⟩, rfl⟩

/-! ## The second lock -/

/-- A wait with timeout 0 has the mutex and locks it. -/
def State.Stuck (s : State) : Prop := ∃ i : Nat, s.threads[i]? = some (.waitLock 0)

/-- The lock waits for its own thread. -/
theorem State.Exclusive.not_ready (h : s.Exclusive) (hi : s.threads[i]? = some (.waitLock 0)) :
    ¬ s.ready i = true := by
  intro hready
  unfold State.ready at hready
  rw [hi, h.owner hi rfl] at hready
  cases hready

/-- The step of a thread gives up only what it does itself. -/
theorem stuck_set (hi : s.threads[i]? = some q) (ht : t.threads = s.threads.set i p)
    (hq : q ≠ .waitLock 0) : t.Stuck ↔ s.Stuck ∨ p = .waitLock 0 := by
  unfold State.Stuck
  rw [ht]
  constructor
  · rintro ⟨j, hj⟩
    rw [getElem?_move hi] at hj
    split at hj
    · cases hj
      exact .inr rfl
    · exact .inl ⟨j, hj⟩
  · rintro (⟨j, hj⟩ | hp)
    · refine ⟨j, ?_⟩
      rw [getElem?_move hi, if_neg]
      · exact hj
      · intro hji
        rw [hji, hi] at hj
        cases hj
        exact hq rfl
    · refine ⟨i, ?_⟩
      rw [getElem?_move hi, if_pos rfl, hp]

theorem Call.start_fits (c : Call) : c.start.Fits .none ∧ c.start ≠ .waitLock 0 := by
  cases c with
  | waitForOsEvent milliSeconds =>
    by_cases hms : milliSeconds = 0
    · rw [Call.start, if_pos hms]
      exact ⟨rfl, by simp⟩
    · rw [Call.start, if_neg hms]
      refine ⟨(if_neg hms).symm, ?_⟩
      intro h
      cases h
      exact hms rfl
  | setOsEvent => exact ⟨rfl, by simp [Call.start]⟩
  | resetOsEvent => exact ⟨rfl, by simp [Call.start]⟩

/-- A step keeps the invariant, and a thread is stuck after it if one was before, or if the step is
a try-lock that takes the mutex. -/
theorem Watch.step (h : Watch w) (he : watched.enabled w a) (hs : watched.step w a = some v) :
    Watch v ∧ (v.event.Stuck ↔ w.event.Stuck ∨ ¬ Polite w a) := by
  obtain ⟨t, ht, hv⟩ := Option.map_eq_some_iff.1 hs
  obtain ⟨_, _, _, hm, -⟩ := h.exclusive.moves he ht
  have hexclusive := hm.exclusive h.exclusive
  rw [← hv]
  cases a with
  | call i c =>
    have hi : w.event.threads[i]? = some .idle := by
      simpa [watched, machine, State.enabled] using he
    cases ht
    refine ⟨⟨hexclusive, h.fits_set hi c.start_fits.1⟩, ?_⟩
    rw [stuck_set hi rfl (by simp)]
    simp [c.start_fits.2, Polite]
  | refuse i code =>
    have hi : w.event.enabled (.refuse i code) = true := he
    unfold State.enabled at hi
    dsimp only at hi
    cases ht
    cases hq : w.event.threads[i]? with
    | none =>
      rw [hq] at hi
      cases hi
    | some q =>
      rw [hq, Option.any_some] at hi
      cases q with
      | waitTimed milliSeconds =>
        have hu : w.uses i = ⟨1, 0, 0, 0⟩ := h.fits i _ hq
        have hp : (Place.waitWoken code).Fits (w.uses i) := by
          rw [hu]
          exact ⟨rfl, rfl, rfl⟩
        have hfits := h.fits_set hq hp
        rw [Function.update_eq_self] at hfits
        refine ⟨⟨hexclusive, hfits⟩, ?_⟩
        rw [stuck_set hq rfl (by simp)]
        simp [Polite]
      | _ => cases hi
  | wake i code =>
    have hi : w.event.threads[i]? = some .waiting := by
      simpa [watched, machine, State.enabled] using he
    cases ht
    have hu : w.uses i = ⟨1, 0, 1, 0⟩ := h.fits i _ hi
    have hfits := h.fits_set (p := .waitRelock code) hi hu
    rw [Function.update_eq_self] at hfits
    refine ⟨⟨hexclusive, hfits⟩, ?_⟩
    rw [stuck_set hi rfl (by simp)]
    simp [Polite]
  | thread i =>
    obtain ⟨q, hq, hnext⟩ := Option.bind_eq_some_iff.1 ht
    have hne : q ≠ .waitLock 0 := by
      intro hlock
      rw [hlock] at hq
      exact h.exclusive.not_ready hq he
    have hlock : ∀ milliSeconds, q = .waitLock milliSeconds → milliSeconds ≠ 0 := by
      intro milliSeconds hms hzero
      rw [hms, hzero] at hne
      exact hne rfl
    obtain ⟨p, hthreads, hp, hstuck⟩ := next_fits (h.fits i q hq) hlock hnext
    refine ⟨⟨hexclusive, ?_⟩, ?_⟩
    · intro j r hj
      rw [hthreads] at hj
      have hfits := h.fits_set hq hp j r hj
      rw [Watched.record, hq]
      exact hfits
    · rw [stuck_set hq hthreads hne]
      refine or_congr_right ⟨fun hp => ?_, fun himpolite => ?_⟩
      · obtain ⟨htry, howner⟩ := hstuck hp
        rw [htry] at hq
        intro hpolite
        have hsome : w.event.owner.isSome = true := hpolite hq
        rw [howner] at hsome
        cases hsome
      · unfold Polite at himpolite
        rw [Classical.not_imp, hq, Option.some.injEq, Option.not_isSome_iff_eq_none] at himpolite
        rw [himpolite.1, State.next, himpolite.2] at hnext
        cases hnext
        have hself := getElem?_move (p := p) hq i
        rw [← hthreads, if_pos rfl] at hself
        have hset := getElem?_move (p := .waitLock 0) hq i
        rw [if_pos rfl] at hset
        exact Option.some.inj (hself.symm.trans hset)

/-! ## The discipline -/

theorem Watch.disciplined_iff_not_stuck (h : Watch w) : Disciplined w ↔ ¬ w.event.Stuck := by
  constructor
  · rintro hd ⟨i, hi⟩
    exact hd.noRelock i _ hi rfl (h.exclusive.owner hi rfl)
  · intro hstuck
    refine ⟨?_, fun i p hi hp => (h.fits i p hi).released hp, ?_⟩
    · intro i p hi hlocks howner
      obtain ⟨r, hr, hholds⟩ := (h.exclusive i).1 howner
      rw [hi, Option.some.injEq] at hr
      rw [← hr] at hholds
      cases p with
      | waitLock milliSeconds =>
        rw [of_decide_eq_true hholds] at hi
        exact hstuck ⟨i, hi⟩
      | waitRelock retCode => cases hholds
      | setLock => cases hholds
      | resetLock => cases hholds
      | _ => cases hlocks
    · intro hidle
      by_contra howner
      obtain ⟨i, hi⟩ := Option.ne_none_iff_exists'.1 howner
      obtain ⟨p, hp, hholds⟩ := (h.exclusive i).1 hi
      rw [hidle p (List.mem_of_getElem? hp)] at hholds
      cases hholds

/-- The state that a run ends in is disciplined exactly if every wait with timeout 0 came to its
try-lock while another thread had the mutex. -/
theorem disciplined_iff_polite {autoReset initState : Bool} {n : Nat}
    (h : Run watched anyAction (watch (createOsEvent autoReset initState n)) w) :
    Disciplined w ↔ Run watched Polite (watch (createOsEvent autoReset initState n)) w := by
  have hfree : ¬ (watch (createOsEvent autoReset initState n)).event.Stuck := by
    rintro ⟨i, hi⟩
    unfold watch createOsEvent at hi
    rw [List.getElem?_replicate] at hi
    split at hi <;> cases hi
  have hwatch : Watch w :=
    h.invariant (watch_createOsEvent _ _ _) fun _ _ _ ht he _ hs => (ht.step he hs).1
  rw [hwatch.disciplined_iff_not_stuck]
  constructor
  · intro hstuck
    clear hwatch
    induction h with
    | refl => exact .refl
    | @tail u v a hrun he _ hs ih =>
      have hu : Watch u :=
        hrun.invariant (watch_createOsEvent _ _ _) fun _ _ _ ht he _ hs => (ht.step he hs).1
      rw [(hu.step he hs).2, not_or, not_not] at hstuck
      exact (ih hstuck.1).tail he hstuck.2 hs
  · intro hpolite
    refine (hpolite.invariant (P := fun w => Watch w ∧ ¬ w.event.Stuck)
      ⟨watch_createOsEvent _ _ _, hfree⟩ ?_).2
    intro t a u ht he hok hs
    refine ⟨(ht.1.step he hs).1, ?_⟩
    rw [(ht.1.step he hs).2, not_or, not_not]
    exact ⟨ht.2, hok⟩

/-- The second thread polls the event while the first one sets it. -/
theorem disciplined_two : ∃ w, w.event.threads = [.setStore, .idle] ∧ Disciplined w := by
  have hexec : (watched.exec Polite (watch (createOsEvent true true 2))
      [.call 0 .setOsEvent, .thread 0, .call 1 (.waitForOsEvent 0), .thread 1, .thread 1]).any
      (fun w => w.event.threads = [.setStore, .idle]) = true := by decide
  obtain ⟨w, hw, hthreads⟩ := Run.exists_of_exec hexec
  exact ⟨w, of_decide_eq_true hthreads,
    (disciplined_iff_polite (hw.mono fun _ _ _ => trivial)).2 hw⟩

/-- The only thread polls the event while the mutex is free. -/
theorem not_disciplined : ¬ ∀ (autoReset initState : Bool) (n : Nat) (w : Watched),
    Run watched anyAction (watch (createOsEvent autoReset initState n)) w → Disciplined w := by
  intro hclaim
  have hexec : (watched.exec anyAction (watch (createOsEvent true true 1))
      [.call 0 (.waitForOsEvent 0), .thread 0]).any
      (fun w => w.event.threads[0]? = some (.waitLock 0) ∧ w.event.owner = some 0) = true := by
    decide
  obtain ⟨w, hw, hlock⟩ := Run.exists_of_exec hexec
  obtain ⟨hplace, howner⟩ := of_decide_eq_true hlock
  exact (hclaim true true 1 w hw).noRelock 0 _ hplace rfl howner

end Costream.Os
