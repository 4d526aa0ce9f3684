import Costream.Timer.Refine

/-!
# Reference counts of the timer's elements

An element outside the pool is referred to by its `TimerId`s, by the queue it is
linked in, and once by the timer itself until it has fired or been cancelled.
An element in the pool has two references (`CountsOk`).

`cancel` breaks this in two ways.  On a timer that has fired it gives up the
timer's own reference a second time (`stopTimer_fault`).  On a timer in
`completeSlot_` it leaves the element linked, and the next `RunOnce` gives up
the timer's own reference a second time.  As long as every action comes in
time, `lifetime` holds.
-/

namespace Costream.Timer

open Trace

variable {F : Type*}

/-- The element is linked in a slot or in `completeSlot_`, or in a list that
`RunOnce` has taken from there. -/
def State.Linked (s : State F) (p : Ptr) : Prop := ∃ q, q ≠ .pool ∧ p ∈ s.queue q

/-- `RunOnce` is in `call()` with the element, or has not given up its reference
after that. -/
def State.InHand (s : State F) (p : Ptr) : Prop :=
  s.call? = some (.running p) ∨ s.call? = some (.called p)

/-- The timer has neither fired nor been cancelled, or `RunOnce` is about it. -/
def State.Outstanding (s : State F) (p : Ptr) (n : Nat) : Prop :=
  (¬ Fired s.log n ∧ ¬ Stopped s.log n) ∨ s.InHand p

open Classical in
/-- The reference count of every element is the number of references to it.
Outside `RunOnce` only the slots and `completeSlot_` link elements. -/
structure CountsOk (s : State F) : Prop where
  counted : ∀ p e, s.heap p = some e → p ∉ s.queue .pool →
    e.reference = (s.idsOf p).length + (if s.Linked p then 1 else 0) +
      (if s.Outstanding p e.serial then 1 else 0)
  pooled : ∀ p ∈ s.queue .pool,
    (s.queue .pool).count p = 1 ∧ ∃ e, s.heap p = some e ∧ e.reference = 2
  idle : s.loop = none → s.queue .slist = [] ∧ s.queue .dispatchers = [] ∧
    ∀ p, ¬ s.InHand p

section Counts

variable {st : Ptr → Stage} {ν : Nat → Ptr} {s : State F} {p : Ptr} {x : Stage}

theorem Here.linked_iff (h : Here ν s p x) :
    s.Linked p ↔ x = .struck ∨ ∃ q, q ≠ .pool ∧ x = .queued q := by
  simp only [State.Linked, h.mem_iff]
  cases x with
  | queued q => simp [Stage.links]
  | struck =>
    refine iff_of_true ⟨.complete, by simp, by simp [Stage.links]⟩ (Or.inl rfl)
  | gone | running | called | fired | cancelled => simp [Stage.links]

theorem Here.inHand_iff (h : Here ν s p x) : s.InHand p ↔ x = .running ∨ x = .called := by
  rw [State.InHand, h.running, h.called]

theorem Life.countsOk (h : Life st ν s) : CountsOk s where
  counted p e he hpool := by
    have hp := h.here p
    have hf := hp.fits e he
    have hlink := hp.linked_iff
    have hhand := hp.inHand_iff
    have hagr := hf.agrees
    rw [hf.reference]
    cases hx : st p with
    | gone =>
      rw [hx] at hagr
      exact hagr.elim
    | queued q =>
      have hq : q ≠ .pool := by
        rintro rfl
        exact hpool ((hp.mem_iff _).2 (by simp [hx, Stage.links]))
      rw [hx, Stage.agrees_queued hq] at hagr
      have hin : s.Linked p := hlink.2 (Or.inr ⟨q, hq, hx⟩)
      have hout : s.Outstanding p e.serial := Or.inl hagr.2.2.2
      rw [if_pos hin, if_pos hout]
      rfl
    | struck =>
      rw [hx] at hagr
      have hin : s.Linked p := hlink.2 (Or.inl hx)
      have hout : ¬ s.Outstanding p e.serial := by
        rintro (ho | ho)
        · exact ho.2 hagr.2.2
        · simp [hhand, hx] at ho
      rw [if_pos hin, if_neg hout]
      rfl
    | running | called =>
      have hin : ¬ s.Linked p := by simp [hlink, hx]
      have hout : s.Outstanding p e.serial := Or.inr (by simp [hhand, hx])
      rw [if_neg hin, if_pos hout]
      rfl
    | fired | cancelled =>
      rw [hx] at hagr
      have hin : ¬ s.Linked p := by simp [hlink, hx]
      have hout : ¬ s.Outstanding p e.serial := by
        rintro (ho | ho)
        · first | exact ho.1 hagr.2.1 | exact ho.2 hagr.2.2
        · simp [hhand, hx] at ho
      rw [if_neg hin, if_neg hout]
      rfl
  pooled p hmem := by
    have hp := h.here p
    have hst : st p = .queued .pool := by
      rw [hp.mem_iff] at hmem
      cases hx : st p <;> simp_all [Stage.links]
    rw [hst] at hp
    obtain ⟨e, he⟩ := hp.allocated (by simp)
    refine ⟨hp.count .pool, e, he, ?_⟩
    rw [(hp.fits e he).reference, hp.unnamed (Or.inr rfl)]
    rfl
  idle hidle := by
    have hl := h.lists
    rw [State.ListsOk, hidle] at hl
    refine ⟨hl.1, hl.2, fun p hp => ?_⟩
    have hnone : s.call? = none := by simp [State.call?, hidle]
    simp [State.InHand, hnone] at hp

end Counts

variable [Inhabited F] {cfg : Config} {s : State F}

/-- In every run whose actions come in time, the reference counts are right in
every state, and no operation touches an element that is gone. -/
theorem lifetime (h : Run (machine cfg) InTime (State.initial cfg) s) :
    CountsOk s ∧
      ∀ a : Act F, (machine cfg).enabled s a → InTime s a →
        (machine cfg).step s a ≠ none := by
  obtain ⟨st, ν, hlife⟩ := alive_of_run (fun _ _ hok => hok) h
  refine ⟨hlife.countsOk, fun a he ht hnone => ?_⟩
  obtain ⟨s', hs', -⟩ : Refines cfg s a := refines hlife he ht
  rw [hnone] at hs'
  cases hs'

/-- A timer has fired and is still known to one `TimerId`. -/
theorem lifetime_fired : ∃ s : State Unit,
    s.log = [.fired 0 () 0 0] ∧ s.ids = [⟨0, 0⟩] ∧ CountsOk s := by
  have hrun : ((machine Config.zero).exec InTime (State.initial Config.zero)
      [.startTimer 0 (), .runOnce, .loop, .loop, .loop, .loop]).any
      (fun s : State Unit =>
        decide (s.log = [.fired 0 () 0 0] ∧ s.ids = [⟨0, 0⟩])) := by
    decide +kernel
  obtain ⟨s, hs, hdec⟩ := Run.exists_of_exec hrun
  obtain ⟨hlog, hids⟩ := of_decide_eq_true hdec
  exact ⟨s, hlog, hids, (lifetime hs).1⟩

/-- `StopTimer` on a timer that has fired touches the element after it has been
deleted. -/
theorem stopTimer_fault : ∃ s : State Unit,
    Run (machine Config.zero) anyAction (State.initial Config.zero) s ∧
      (machine Config.zero).enabled s (.stopTimer ⟨0, 0⟩) ∧
      (machine Config.zero).step s (.stopTimer ⟨0, 0⟩) = none := by
  have hrun : ((machine Config.zero).exec anyAction (State.initial Config.zero)
      [.startTimer 0 (), .runOnce, .loop, .loop, .loop, .loop]).any
      (fun s : State Unit => decide ((machine Config.zero).enabled s (.stopTimer ⟨0, 0⟩)) &&
        ((machine Config.zero).step s (.stopTimer ⟨0, 0⟩)).isNone) := by
    decide +kernel
  obtain ⟨s, hs, hdec⟩ := Run.exists_of_exec hrun
  obtain ⟨he, hnone⟩ := (Bool.and_eq_true _ _).mp hdec
  exact ⟨s, hs, of_decide_eq_true he, Option.isNone_iff_eq_none.1 hnone⟩

/-- A timer in `completeSlot_` is cancelled and its last `TimerId` has gone: the
next `RunOnce` touches the element after it has been deleted. -/
theorem runOnce_fault : ∃ s : State Unit,
    Run (machine Config.zero) anyAction (State.initial Config.zero) s ∧
      (machine Config.zero).enabled s .loop ∧
      (machine Config.zero).step s .loop = none := by
  have hrun : ((machine Config.zero).exec anyAction (State.initial Config.zero)
      [.startTimer 0 (), .stopTimer ⟨0, 0⟩, .runOnce]).any
      (fun s : State Unit => decide ((machine Config.zero).enabled s .loop) &&
        ((machine Config.zero).step s .loop).isNone) := by
    decide +kernel
  obtain ⟨s, hs, hdec⟩ := Run.exists_of_exec hrun
  obtain ⟨he, hnone⟩ := (Bool.and_eq_true _ _).mp hdec
  exact ⟨s, hs, of_decide_eq_true he, Option.isNone_iff_eq_none.1 hnone⟩

end Costream.Timer
