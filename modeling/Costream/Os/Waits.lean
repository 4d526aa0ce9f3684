import Costream.Os.Event
import Costream.Matching
import Costream.Tally

/-!
# What the waits of an auto-reset event consume

A wait that finds `state` set takes it, and returns 0.  A wait that has waited on the condition
variable returns 0 whenever `pthread_cond_timedwait` does, and takes what it finds: it does not
test `state` again, which another wait may have taken, or a reset, or which was never set.

* `Books` is the invariant.  Each set event, and the initial one, is the 0 of a wait, or it is in
  `state`, or it is unused: it found `state` set, or a reset took it.  The waits that ended too
  early are those that took one more.
* `Covered` lets a wait end too early only while that makes up for an unused set.
-/

namespace Costream.Os

open Trace Tally Matching

variable {s t : State} {a : Action} {i n : Nat} {p q : Place} {initState : Bool}

/-! ## What the history says -/

def Event.isSet : Event → Bool
  | .set _ => true
  | _ => false

/-- A wait has returned 0. -/
def Event.isZero : Event → Bool
  | .returned retCode => retCode = 0
  | _ => false

/-- Each return of 0 has a set of its own before it, where the initial state may count as one. -/
def State.Served (initState : Bool) (s : State) : Prop :=
  Matched initState.toNat Event.isSet Event.isZero s.history

def State.zeros (s : State) : Nat := s.history.countP Event.isZero

def State.sets (s : State) : Nat := s.history.countP Event.isSet

/-- The condition waits that have ended with 0 while `state` was not set. -/
def State.early (s : State) : Nat := s.history.count (.woken false)

/-- The sets that found `state` set, and the resets that did. -/
def State.unused (s : State) : Nat := s.history.count (.set true) + s.history.count (.reset true)

/-- When a condition wait ends with 0 while `state` is not set, fewer have done so before than there
are unused sets. -/
def Covered (s : State) : Action → Prop
  | .thread i => s.threads[i]? = some (.waitWoken 0) → s.state = false → s.early < s.unused
  | _ => True

/-! ## The invariant -/

structure Books (initState : Bool) (s : State) : Prop where
  exclusive : s.Exclusive
  autoReset : s.autoReset = true
  taking : ∀ i : Nat, s.threads[i]? = some .waitTake → s.state = true
  balance : s.zeros + tally Place.due s.threads + s.state.toNat + s.unused =
    initState.toNat + s.sets + s.early

theorem books_createOsEvent (initState : Bool) (n : Nat) :
    Books initState (createOsEvent true initState n) where
  exclusive := exclusive_createOsEvent true initState n
  autoReset := rfl
  taking := by
    intro i hi
    unfold createOsEvent at hi
    rw [List.getElem?_replicate] at hi
    split at hi <;> cases hi
  balance := by
    have hdue : tally Place.due (List.replicate n .idle) = 0 :=
      tally_eq_zero.2 fun p hp => by rw [List.eq_of_mem_replicate hp]; rfl
    unfold createOsEvent State.zeros State.sets State.early State.unused
    simp [hdue]

/-- Only the thread that has the mutex changes `state`. -/
theorem Effect.state (he : Effect s t q p) : t.state = s.state ∨ q.holds = true := by
  cases he with
  | quiet hstate _ _ _ => exact .inl hstate
  | returned _ _ _ hstate _ => exact .inl hstate
  | take hq _ _ _ => exact .inr (by rw [hq]; rfl)
  | woken hq _ _ _ => exact .inr (by rw [hq]; rfl)
  | set hq _ _ _ => exact .inr (by rw [hq]; rfl)
  | reset hq _ _ _ => exact .inr (by rw [hq]; rfl)

theorem Moves.taking (hm : Moves s t i q p) (h : Books initState s) (j : Nat)
    (hj : t.threads[j]? = some .waitTake) : t.state = true := by
  rw [hm.threads, getElem?_move hm.place] at hj
  split at hj
  · rw [Option.some.injEq] at hj
    cases hm.effect with
    | quiet hstate _ _ htake =>
      rw [hstate]
      exact htake hj
    | take _ hp _ _ => rw [hp] at hj; cases hj
    | woken _ hp _ _ => rw [hp] at hj; cases hj
    | returned _ _ hp _ _ => rw [hp] at hj; cases hj
    | set _ hp _ _ => rw [hp] at hj; cases hj
    | reset _ hp _ _ => rw [hp] at hj; cases hj
  · rename_i hne
    rcases hm.effect.state with hstate | hholds
    · rw [hstate]
      exact h.taking j hj
    · have hi := h.exclusive.owner hm.place hholds
      rw [h.exclusive.owner hj rfl, Option.some.injEq] at hi
      exact absurd hi hne

theorem Moves.balance (hm : Moves s t i q p) (h : Books initState s) :
    t.zeros + tally Place.due t.threads + t.state.toNat + t.unused =
      initState.toNat + t.sets + t.early := by
  have hbalance := h.balance
  have htally := tally_set Place.due hm.place p
  rw [← hm.threads] at htally
  unfold State.zeros State.sets State.early State.unused at *
  cases hm.effect with
  | quiet hstate hhistory hdue _ =>
    rw [hdue h.autoReset] at htally
    rw [hstate, hhistory]
    omega
  | take hq hp hstate hhistory =>
    have htake : s.state = true := h.taking i (by rw [hm.place, hq])
    rw [hq, hp] at htally
    rw [hstate, hhistory]
    rw [htake] at hbalance
    simp only [Place.due, Bool.toNat_true, Bool.toNat_false, if_pos] at *
    omega
  | woken hq hp hstate hhistory =>
    rw [hq, hp] at htally
    rw [hstate, hhistory]
    cases hs : s.state <;> rw [hs] at hbalance <;>
      simp [Place.due, List.count_append, List.countP_append, Event.isZero, Event.isSet] at * <;>
      omega
  | returned retCode hq hp hstate hhistory =>
    rw [hq, hp] at htally
    rw [hstate, hhistory]
    by_cases hzero : retCode = 0 <;>
      simp [Place.due, List.count_append, List.countP_append, Event.isZero, Event.isSet, hzero]
        at * <;>
      omega
  | set hq hp hstate hhistory =>
    rw [hq, hp] at htally
    rw [hstate, hhistory]
    cases hs : s.state <;> rw [hs] at hbalance <;>
      simp [Place.due, List.count_append, List.countP_append, Event.isZero, Event.isSet] at * <;>
      omega
  | reset hq hp hstate hhistory =>
    rw [hq, hp] at htally
    rw [hstate, hhistory]
    cases hs : s.state <;> rw [hs] at hbalance <;>
      simp [Place.due, List.count_append, List.countP_append, Event.isZero, Event.isSet] at * <;>
      omega

theorem Moves.books (hm : Moves s t i q p) (h : Books initState s) : Books initState t where
  exclusive := hm.exclusive h.exclusive
  autoReset := hm.autoReset.trans h.autoReset
  taking := hm.taking h
  balance := hm.balance h

/-! ## While the early wakes are covered -/

/-- The early wakes stay covered. -/
theorem early_le (hm : Moves s t i q p) (h : s.early ≤ s.unused)
    (hcover : q = .waitWoken 0 → s.state = false → s.early < s.unused) : t.early ≤ t.unused := by
  unfold State.early State.unused at *
  cases hm.effect with
  | quiet _ hhistory _ _ => rwa [hhistory]
  | take _ _ _ hhistory => rwa [hhistory]
  | woken hq _ _ hhistory =>
    rw [hhistory]
    cases hs : s.state with
    | false =>
      have hlt := hcover hq hs
      simp [List.count_append]
      omega
    | true =>
      simp [List.count_append]
      omega
  | returned _ _ _ _ hhistory =>
    rw [hhistory]
    simp [List.count_append]
    omega
  | set _ _ _ hhistory =>
    rw [hhistory]
    cases s.state <;> simp [List.count_append] <;> omega
  | reset _ _ _ hhistory =>
    rw [hhistory]
    cases s.state <;> simp [List.count_append] <;> omega

/-- A wait that returns 0 finds a set that no other one has had. -/
theorem Moves.served (hm : Moves s t i q p) (h : Books initState s) (hle : s.early ≤ s.unused)
    (hserved : s.Served initState) : t.Served initState := by
  unfold State.Served at *
  cases hm.effect with
  | quiet _ hhistory _ _ => rwa [hhistory]
  | take _ _ _ hhistory => rwa [hhistory]
  | woken _ _ _ hhistory => rw [hhistory]; exact hserved.snoc rfl
  | set _ _ _ hhistory => rw [hhistory]; exact hserved.snoc rfl
  | reset _ _ _ hhistory => rw [hhistory]; exact hserved.snoc rfl
  | returned retCode hq _ _ hhistory =>
    rw [hhistory]
    by_cases hzero : retCode = 0
    · apply hserved.snoc_take
      have hdue : q.due ≤ tally Place.due s.threads :=
        le_tally _ (List.mem_of_getElem? hm.place)
      rw [hq, hzero, show (Place.waitReturn 0).due = 1 from rfl] at hdue
      have hbalance := h.balance
      unfold State.zeros State.sets at hbalance
      omega
    · exact hserved.snoc (decide_eq_false hzero)

/-- What holds in the runs whose early wakes are covered. -/
structure Calm (initState : Bool) (s : State) : Prop where
  books : Books initState s
  early : s.early ≤ s.unused
  served : s.Served initState

theorem calm_of_run (h : Run machine Covered (createOsEvent true initState n) s) :
    Calm initState s := by
  refine h.invariant ⟨books_createOsEvent initState n, Nat.le_refl 0, .nil⟩ ?_
  intro t a u ht he hcover hs
  obtain ⟨i, q, p, hm, hacts⟩ := ht.books.exclusive.moves he hs
  refine ⟨hm.books ht.books, early_le hm ht.early ?_, hm.served ht.books ht.early ht.served⟩
  intro hq hstate
  obtain hact | hact | ⟨ms, hact⟩ | hact := hacts
  · rw [hact] at hcover
    exact hcover (hq ▸ hm.place) hstate
  all_goals
    rw [hq] at hact
    cases hact

/-! ## After one that is not -/

/-- How far a wait is from its return. -/
def Place.left : Place → Nat
  | .waitUnlock retCode => if retCode = 0 then 2 else 0
  | .waitReturn retCode => if retCode = 0 then 1 else 0
  | _ => 0

/-- A wait that is about to return 0 can go on. -/
theorem State.proceed (hi : s.threads[i]? = some p) (hdue : p.due ≠ 0) :
    ∃ t q, machine.enabled s (.thread i) ∧ machine.step s (.thread i) = some t ∧
      t.threads = s.threads.set i q ∧ q.left < p.left ∧ t.sets = s.sets ∧
      t.zeros + q.due = s.zeros + p.due := by
  cases p with
  | waitUnlock retCode =>
    have hzero : retCode = 0 := by
      by_contra hne
      exact hdue (if_neg hne)
    subst hzero
    refine ⟨{ s with owner := none }.move i (.waitReturn 0), .waitReturn 0, ?_, ?_, rfl, by decide,
      rfl, rfl⟩
    · show s.ready i = true
      unfold State.ready
      rw [hi]
      rfl
    · show s.threads[i]?.bind (s.next i) = _
      rw [hi]
      rfl
  | waitReturn retCode =>
    have hzero : retCode = 0 := by
      by_contra hne
      exact hdue (if_neg hne)
    subst hzero
    refine ⟨(s.note (.returned 0)).move i .idle, .idle, ?_, ?_, rfl, by decide, ?_, ?_⟩
    · show s.ready i = true
      unfold State.ready
      rw [hi]
      rfl
    · show s.threads[i]?.bind (s.next i) = _
      rw [hi]
      rfl
    · unfold State.sets State.note State.move
      simp [Event.isSet]
    · unfold State.zeros State.note State.move
      simp [Event.isZero, Place.due]
  | _ => exact absurd rfl hdue

/-- All waits that are about to return 0 do so. -/
theorem Books.finish (h : Books initState s) : ∃ u, Run machine anyAction s u ∧
    u.zeros = s.zeros + tally Place.due s.threads ∧ u.sets = s.sets := by
  have hrun : ∃ u, Run machine anyAction s u ∧
      (Books initState u ∧
        u.zeros + tally Place.due u.threads = s.zeros + tally Place.due s.threads ∧
        u.sets = s.sets) ∧ tally Place.due u.threads = 0 := by
    refine Run.exists_of_wf Nat.lt_wfRel.wf (fun u => tally Place.left u.threads)
      ⟨h, rfl, rfl⟩ ?_
    rintro u ⟨hbooks, hzeros, hsets⟩ hnot
    rw [tally_eq_zero] at hnot
    push Not at hnot
    obtain ⟨p, hp, hdue⟩ := hnot
    obtain ⟨i, hi⟩ := List.getElem?_of_mem hp
    obtain ⟨t, q, he, hs, hthreads, hlt, hsame, hcount⟩ := State.proceed hi hdue
    obtain ⟨j, p', q', hm, -⟩ := hbooks.exclusive.moves he hs
    have hleft := tally_set Place.left hi q
    have hdues := tally_set Place.due hi q
    rw [← hthreads] at hleft hdues
    refine ⟨.thread i, t, he, trivial, hs, ⟨hm.books hbooks, by omega, by omega⟩, .inr ?_⟩
    show tally Place.left t.threads < tally Place.left u.threads
    omega
  obtain ⟨u, hr, ⟨-, hzeros, hsets⟩, hdone⟩ := hrun
  rw [hdone] at hzeros
  exact ⟨u, hr, hzeros, hsets⟩

/-- What `Covered` forbids. -/
theorem not_covered (h : ¬ Covered s a) : ∃ i, a = .thread i ∧
    s.threads[i]? = some (.waitWoken 0) ∧ s.state = false ∧ s.unused ≤ s.early := by
  cases a with
  | thread i =>
    unfold Covered at h
    push Not at h
    exact ⟨i, rfl, h.1, h.2.1, h.2.2⟩
  | _ => exact absurd trivial h

/-- The wait, and all others that are about to return 0, are more than there are sets. -/
theorem Books.breaks (h : Books initState s) (he : machine.enabled s a)
    (hs : machine.step s a = some t) (hbad : ¬ Covered s a) :
    ∃ u, Run machine anyAction t u ∧ ¬ u.Served initState := by
  obtain ⟨i, rfl, hi, hstate, hle⟩ := not_covered hbad
  obtain ⟨j, q, p, hm, -⟩ := h.exclusive.moves he hs
  have hbooks := hm.books h
  obtain ⟨u, hr, hzeros, hsets⟩ := hbooks.finish
  refine ⟨u, hr, fun hserved => ?_⟩
  have hcount : u.zeros ≤ initState.toNat + u.sets := hserved.countP_le
  have ht : t = (({ s with state := false }.note (.woken s.state)).move i (.waitUnlock 0)) := by
    have hnext : s.threads[i]?.bind (s.next i) = some t := hs
    rw [hi, Option.bind_some, State.next, if_pos ⟨rfl, h.autoReset⟩, Option.some.injEq] at hnext
    exact hnext.symm
  have hearly : t.early = s.early + 1 := by
    rw [ht, hstate]
    unfold State.early State.note State.move
    simp
  have hunused : t.unused = s.unused := by
    rw [ht]
    unfold State.unused State.note State.move
    simp
  have hbalance := hbooks.balance
  have hstate' : t.state = false := by
    rw [ht]
    rfl
  rw [hstate', Bool.toNat_false] at hbalance
  omega

/-! ## The result -/

/-- For any number of threads. -/
theorem waits_served (h : Run machine Covered (createOsEvent true initState n) s) :
    s.Served initState ∧ (initState = false → s.sets = 0 → s.zeros = 0) ∧
      ∀ a t, machine.enabled s a → machine.step s a = some t → ¬ Covered s a →
        ∃ u, Run machine anyAction t u ∧ ¬ u.Served initState := by
  have hcalm := calm_of_run h
  refine ⟨hcalm.served, fun hinit hsets => ?_, fun a t => hcalm.books.breaks⟩
  have hcount : s.zeros ≤ initState.toNat + s.sets := hcalm.served.countP_le
  rw [hinit, Bool.toNat_false] at hcount
  omega

instance (s : State) : (a : Action) → Decidable (Covered s a)
  | .thread i => inferInstanceAs (Decidable
      (s.threads[i]? = some (.waitWoken 0) → s.state = false → s.early < s.unused))
  | .call _ _ | .refuse _ _ | .wake _ _ => inferInstanceAs (Decidable True)

/-- A thread begins a call and makes its first `k` steps. -/
def begin (i : Nat) (c : Call) (k : Nat) : List Action :=
  Action.call i c :: List.replicate k (Action.thread i)

/-- The condition wait of a thread ends with 0, and it makes `k` steps. -/
def resume (i k : Nat) : List Action := Action.wake i 0 :: List.replicate k (Action.thread i)

/-- A thread waits, another one sets the event, and the first one wakes. -/
theorem waits_served_one : ∃ s, Run machine Covered (createOsEvent true false 2) s ∧
    s.zeros = 1 ∧ s.sets = 1 ∧ s.Served false := by
  have hexec : (machine.exec Covered (createOsEvent true false 2)
      (begin 0 (.waitForOsEvent 5) 3 ++ begin 1 .setOsEvent 5 ++ resume 0 4)).any
      (fun s => s.zeros = 1 && s.sets = 1) = true := by
    decide +kernel
  obtain ⟨s, hr, hs⟩ := Run.exists_of_exec hexec
  simp only [Bool.and_eq_true, decide_eq_true_eq] at hs
  exact ⟨s, hr, hs.1, hs.2, (waits_served hr).1⟩

/-- A thread waits, another one sets the event and takes the set itself, and then the first one
wakes and returns 0 as well. -/
theorem set_consumed_twice : ¬ ∀ (initState : Bool) (n : Nat) (s : State),
    Run machine anyAction (createOsEvent true initState n) s → s.Served initState := by
  intro hall
  have hexec : (machine.exec anyAction (createOsEvent true false 2)
      (begin 0 (.waitForOsEvent 5) 3 ++ begin 1 .setOsEvent 5 ++
        begin 1 (.waitForOsEvent 5) 5 ++ resume 0 4)).any
      (fun s => s.zeros = 2 && s.sets = 1) = true := by
    decide +kernel
  obtain ⟨s, hr, hs⟩ := Run.exists_of_exec hexec
  simp only [Bool.and_eq_true, decide_eq_true_eq] at hs
  have hcount : s.zeros ≤ false.toNat + s.sets := (hall false 2 s hr).countP_le
  rw [hs.1, hs.2] at hcount
  exact absurd hcount (by decide)

end Costream.Os
