import Costream.Timer.Life
import Costream.Timer.Service

/-!
# The service of a state

`State.abs` forgets the elements: it keeps the pending timers of each queue,
the clock and the log.  An operation on one element leaves the other addresses
alone (`Touches`), so that its effect on the service is the difference that
this element makes (`pending_touch`).

`Refines` is what has to be shown of each action: it has no fault, keeps `Life`,
and is a step of the service or changes nothing there.  An action has to come
in time for that (`InTime`).
-/

namespace Costream.Timer

open Trace

variable {F : Type*}

namespace State

/-- The pending timer that address `p` contributes to queue `q`. -/
def entryAt (s : State F) (q : QueueRef) (p : Ptr) : Set Entry :=
  {x | q ≠ .pool ∧ p ∈ s.queue q ∧
    ∃ e, s.heap p = some e ∧ e.active = false ∧ x = ⟨e.serial, e.tp⟩}

/-- The state without its elements. -/
def abs (s : State F) : Service F where
  point := s.point
  clock := s.clock
  started := s.started
  phase := s.loop.map Loop.phase
  pending q := {x | ∃ p, x ∈ s.entryAt q p}
  log := s.log

/-- `RunOnce` is about to read the clock. -/
def ReadsClock (s : State F) : Prop :=
  s.loop = some ⟨.complete, none⟩ ∧ s.queue .slist = []

/-- The queue that `cancel` finds a timer in. -/
def queueOf (e : Element F) : QueueRef :=
  match e.slot with
  | some r => .slot r
  | none => .complete

/-- `StopTimer` comes in time: the lock `active_` is held, or the timer is still
in its slot or in `completeSlot_`. -/
def StopInTime (s : State F) (p : Ptr) : Prop :=
  match s.heap p with
  | some e => e.active = true ∨ p ∈ s.queue (queueOf e)
  | none => False

end State

/-- An action comes in time: `StopTimer` before `RunOnce` has taken the timer
in hand, or after it has been cancelled, and `RunOnce` when no cancelled timer
is left in `completeSlot_`. -/
def InTime (s : State F) : Act F → Prop
  | .stopTimer id => s.StopInTime id.elem
  | .runOnce => ∀ p ∈ s.queue .complete, (s.heap p).any Element.active = false
  | _ => True

instance (s : State F) (a : Act F) : Decidable (InTime s a) :=
  match a with
  | .stopTimer id =>
    match h : s.heap id.elem with
    | some e => decidable_of_iff (e.active = true ∨ id.elem ∈ s.queue (State.queueOf e))
        (by simp [InTime, State.StopInTime, h])
    | none => .isFalse (by simp [InTime, State.StopInTime, h])
  | .runOnce => inferInstanceAs (Decidable (∀ p ∈ _, _ = false))
  | .startTimer _ _ | .copyId _ | .dropId _ | .setPoolSize _ _ | .loop | .tick _ =>
    inferInstanceAs (Decidable True)

/-- The label that an action has in the service. -/
def ActLabel (s : State F) (a : Act F) : Service.Label → Prop
  | .start tp => ∃ cb, a = .startTimer tp cb
  | .read => a = .loop ∧ s.ReadsClock
  | .client => a ≠ .loop
  | .loop => a = .loop

section Pending

variable {st : Ptr → Stage} {ν : Nat → Ptr} {s s' : State F} {p : Ptr}
  {e : Element F} {x : Stage} {q : QueueRef}

/-- A linked, pending element contributes its timer to its queue only. -/
theorem entryAt_queued (h : Here ν s p (.queued q)) (hq : q ≠ .pool)
    (he : s.heap p = some e) (q' : QueueRef) :
    s.entryAt q' p = if q' = q then {⟨e.serial, e.tp⟩} else ∅ := by
  have hmem := h.mem_iff q'
  have hact := ((Stage.agrees_queued hq).1 (h.fits e he).agrees).1
  ext y
  by_cases hqq : q' = q
  · subst hqq
    simp only [Stage.links, if_true, ne_eq, one_ne_zero, not_false_eq_true, iff_true] at hmem
    simp [State.entryAt, hq, hmem, he, hact]
  · have hnot : p ∉ s.queue q' := by
      rw [hmem]
      simp [Stage.links, hqq]
    simp [State.entryAt, hnot, hqq]

/-- Other elements contribute nothing. -/
theorem entryAt_other (h : Here ν s p x) (hx : ∀ q, x = .queued q → q = .pool)
    (q : QueueRef) : s.entryAt q p = ∅ := by
  refine Set.eq_empty_of_forall_notMem ?_
  rintro y ⟨hq, hmem, e, he, hact, -⟩
  rw [h.mem_iff q] at hmem
  have hf := (h.fits e he).agrees
  cases x with
  | queued q' =>
    have := hx q' rfl
    subst this
    simp only [Stage.links] at hmem
    split at hmem
    · rename_i heq
      exact hq heq
    · exact hmem rfl
  | struck => exact absurd hact (by simp [hf.1])
  | gone | running | called | fired | cancelled => exact hmem rfl

/-- What one address contributes serves a timer of that address. -/
theorem home_of_entryAt (h : Here ν s p x) {y : Entry} (hy : y ∈ s.entryAt q p) :
    ν y.serial = p := by
  obtain ⟨hq, hmem, e, he, -, rfl⟩ := hy
  refine (h.fits e he).home ?_
  rintro rfl
  rw [h.mem_iff q] at hmem
  simp only [Stage.links] at hmem
  split at hmem
  · rename_i heq
    exact hq heq
  · exact hmem rfl

theorem entryAt_congr (hc : ∀ q ≠ .pool, (s'.queue q).count p = (s.queue q).count p)
    (hh : s'.heap p = s.heap p) (q : QueueRef) : s'.entryAt q p = s.entryAt q p := by
  ext y
  simp only [State.entryAt, Set.mem_ofPred_eq, hh]
  constructor
  · rintro ⟨hq, hmem, hrest⟩
    rw [← List.count_pos_iff, hc q hq, List.count_pos_iff] at hmem
    exact ⟨hq, hmem, hrest⟩
  · rintro ⟨hq, hmem, hrest⟩
    rw [← List.count_pos_iff, ← hc q hq, List.count_pos_iff] at hmem
    exact ⟨hq, hmem, hrest⟩

/-- An operation on one address replaces what this address contributes. -/
theorem pending_touch (h : Life st ν s) (ht : Touches ν p s s') (q : QueueRef) :
    s'.abs.pending q = (s.abs.pending q \ s.entryAt q p) ∪ s'.entryAt q p := by
  have hother : ∀ p', p' ≠ p → s'.entryAt q p' = s.entryAt q p' := fun p' hne =>
    entryAt_congr (fun q _ => ht.count p' hne q) (ht.heap p' hne) q
  ext y
  constructor
  · rintro ⟨p', hy⟩
    by_cases hne : p' = p
    · subst hne
      exact Or.inr hy
    · rw [hother p' hne] at hy
      refine Or.inl ⟨⟨p', hy⟩, fun hy' => hne ?_⟩
      rw [← home_of_entryAt (h.here p') hy, home_of_entryAt (h.here p) hy']
  · rintro (⟨⟨p', hy⟩, hnot⟩ | hy)
    · by_cases hne : p' = p
      · subst hne
        exact absurd hy hnot
      · exact ⟨p', by rwa [hother p' hne]⟩
    · exact ⟨p, hy⟩

/-- An operation on an element that is not pending, and does not become so,
changes nothing for the service. -/
theorem pending_same (h : Life st ν s) (ht : Touches ν p s s')
    (he : ∀ q, s'.entryAt q p = s.entryAt q p) : s'.abs.pending = s.abs.pending := by
  funext q
  rw [pending_touch h ht, he]
  ext y
  constructor
  · rintro (⟨hy, -⟩ | hy)
    · exact hy
    · exact ⟨p, hy⟩
  · intro hy
    by_cases hmem : y ∈ s.entryAt q p
    · exact Or.inr hmem
    · exact Or.inl ⟨hy, hmem⟩

theorem pending_put (h : Life st ν s) (ht : Touches ν p s s')
    (hb : ∀ q, s.entryAt q p = ∅) {q : QueueRef} {y : Entry}
    (he : ∀ q', s'.entryAt q' p = if q' = q then {y} else ∅) :
    s'.abs.pending = (s.abs.put q y).pending := by
  funext q'
  rw [pending_touch h ht, hb, he, Set.sdiff_empty]
  by_cases hq : q' = q
  · subst hq
    simp [Service.put, Set.union_comm]
  · simp [Service.put, hq]

theorem pending_take (h : Life st ν s) (ht : Touches ν p s s') {q : QueueRef}
    {y : Entry} (hb : ∀ q', s.entryAt q' p = if q' = q then {y} else ∅)
    (he : ∀ q, s'.entryAt q p = ∅) :
    s'.abs.pending = (s.abs.take q y).pending := by
  funext q'
  rw [pending_touch h ht, hb, he, Set.union_empty]
  by_cases hq : q' = q
  · subst hq
    simp [Service.take]
  · simp [Service.take, hq]

/-- `DecrementRef` of an element that is not linked changes nothing for the
service. -/
theorem pending_leave [Inhabited F] (hcount : ∀ q, (s.queue q).count p = 0) :
    (s.leave p e).abs.pending = s.abs.pending := by
  funext q
  ext y
  have hsame : ∀ p', (s.leave p e).entryAt q p' = s.entryAt q p' := by
    intro p'
    by_cases hne : p' = p
    · subst hne
      ext z
      constructor
      · rintro ⟨hq, hmem, -⟩
        rw [s.leave_queue _ e hq, ← List.count_pos_iff, hcount] at hmem
        exact absurd hmem (Nat.lt_irrefl 0)
      · rintro ⟨hq, hmem, -⟩
        rw [← List.count_pos_iff, hcount] at hmem
        exact absurd hmem (Nat.lt_irrefl 0)
    · exact entryAt_congr (fun q hq => by rw [s.leave_queue p e hq])
        (s.leave_heap_of_ne p e hne) q
  constructor
  · rintro ⟨p', hy⟩
    exact ⟨p', by rwa [hsame] at hy⟩
  · rintro ⟨p', hy⟩
    exact ⟨p', by rwa [hsame]⟩

end Pending

/-- The invariant, with the stages and addresses left open. -/
def Alive (s : State F) : Prop := ∃ st ν, Life st ν s

/-- The action has no fault, keeps the invariant, and is a step of the service
or changes nothing there. -/
def Refines [Inhabited F] (cfg : Config) (s : State F) (a : Act F) : Prop :=
  ∃ s', (machine cfg).step s a = some s' ∧ Alive s' ∧
    (s'.abs = s.abs ∨ ∃ l, ActLabel s a l ∧ Service.Step cfg s.abs l s'.abs)

end Costream.Timer
