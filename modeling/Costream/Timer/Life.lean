import Costream.Timer.Machine

/-!
# The life of an element

`Stage` names the points in the life of an element: it is linked in a queue, it
is in the hands of `RunOnce`, or only `TimerId`s refer to it any more.  `Life`
says that the element at every address is at one stage and has what belongs to
it: its links, its reference count, the lock `active_`, and what the log says
of its timer.

* `Here` is the part of `Life` that is about one address, and `Here.frame` says
  on what it depends.
* `release` is the last step in the life of a timer: `DecrementRef` by someone
  who is not a `TimerId`.

The invariant is kept as long as `StopTimer` and `RunOnce` are called at the
right moments (`InTime`).
-/

namespace Costream.Timer

open Trace

variable {F : Type*}

/-! ## Stages -/

/-- A point in the life of the element at an address.  `struck` is an element
of `completeSlot_` that has been cancelled; `fired` and `cancelled` elements
are kept by `TimerId`s only. -/
inductive Stage where
  | gone
  | queued (q : QueueRef)
  | struck
  | running
  | called
  | fired
  | cancelled
  deriving DecidableEq

namespace Stage

/-- How often the element is linked in a queue. -/
def links : Stage → QueueRef → Nat
  | .queued q', q => if q = q' then 1 else 0
  | .struck, q => if q = .complete then 1 else 0
  | _, _ => 0

/-- The references that are not held by a `TimerId`. -/
def refs : Stage → Nat
  | .queued _ => 2
  | .struck | .running | .called => 1
  | .gone | .fired | .cancelled => 0

/-- What the element and the log of its timer look like. -/
def Agrees (log : List (Event F)) (e : Element F) : Stage → Prop
  | .gone => False
  | .queued .pool => True
  | .queued q => e.active = false ∧ (∀ r, q = .slot r → e.slot = some r) ∧
      (q = .complete → e.slot = none) ∧ ¬ Fired log e.serial ∧ ¬ Stopped log e.serial
  | .struck | .cancelled =>
    e.active = true ∧ ¬ Fired log e.serial ∧ Stopped log e.serial
  | .running => e.active = true ∧ Fired log e.serial ∧ ¬ Stopped log e.serial
  | .called | .fired =>
    e.active = false ∧ Fired log e.serial ∧ ¬ Stopped log e.serial

theorem agrees_queued {log : List (Event F)} {e : Element F} {q : QueueRef}
    (h : q ≠ .pool) : Agrees log e (.queued q) ↔
      e.active = false ∧ (∀ r, q = .slot r → e.slot = some r) ∧
        (q = .complete → e.slot = none) ∧ ¬ Fired log e.serial ∧
        ¬ Stopped log e.serial := by
  cases q <;> first | exact absurd rfl h | exact Iff.rfl

/-- What a stage says depends on the log of the timer only. -/
theorem Agrees.frame {log log' : List (Event F)} {e : Element F} {x : Stage}
    (h : x.Agrees log e)
    (hf : x ≠ .queued .pool → (Fired log' e.serial ↔ Fired log e.serial))
    (hs : x ≠ .queued .pool → (Stopped log' e.serial ↔ Stopped log e.serial)) :
    x.Agrees log' e := by
  by_cases hp : x = .queued .pool
  · subst hp
    trivial
  · replace hf := hf hp
    replace hs := hs hp
    cases x with
    | queued q =>
      have hq : q ≠ .pool := fun h => hp (by rw [h])
      rw [agrees_queued hq] at h ⊢
      rwa [hf, hs]
    | gone => exact h
    | struck | running | called | fired | cancelled =>
      simp only [Agrees, hf, hs] at h ⊢
      exact h

end Stage

/-! ## The invariant -/

/-- The `TimerId`s that refer to an element. -/
def State.idsOf (s : State F) (p : Ptr) : List TimerId :=
  s.ids.filter (·.elem = p)

/-- What `RunOnce` has in hand. -/
def State.call? (s : State F) : Option Call := s.loop.bind Loop.call

/-- The element `e` at address `p` has what belongs to its stage.  `ν` gives
the address of the element that serves a timer. -/
structure Fits (ν : Nat → Ptr) (s : State F) (p : Ptr) (e : Element F)
    (x : Stage) : Prop where
  reference : e.reference = (s.idsOf p).length + x.refs
  held : x = .fired ∨ x = .cancelled → s.idsOf p ≠ []
  started : x ≠ .queued .pool → e.serial < s.started
  home : x ≠ .queued .pool → ν e.serial = p
  named : ∀ id ∈ s.idsOf p, id.serial = e.serial
  agrees : x.Agrees s.log e

/-- The address `p` is at stage `x`. -/
structure Here (ν : Nat → Ptr) (s : State F) (p : Ptr) (x : Stage) : Prop where
  count : ∀ q, (s.queue q).count p = x.links q
  gone : s.heap p = none ↔ x = .gone
  fits : ∀ e, s.heap p = some e → Fits ν s p e x
  unnamed : x = .gone ∨ x = .queued .pool → s.idsOf p = []
  running : s.call? = some (.running p) ↔ x = .running
  called : s.call? = some (.called p) ↔ x = .called
  fresh : s.brk ≤ p → x = .gone

/-- The lists of `RunOnce` are empty where it does not use them. -/
def State.ListsOk (s : State F) : Prop :=
  match s.loop with
  | none => s.queue .slist = [] ∧ s.queue .dispatchers = []
  | some ⟨.complete, _⟩ => s.queue .dispatchers = []
  | some ⟨.sweep _ _ _ _, _⟩ => True
  | some ⟨.final _, _⟩ => s.queue .dispatchers = []

/-- The invariant of the timer, with the stage of every address. -/
structure Life (st : Ptr → Stage) (ν : Nat → Ptr) (s : State F) : Prop where
  here : ∀ p, Here ν s p (st p)
  told : ∀ ev ∈ s.log, ev.serial < s.started
  consistent : Consistent s.log
  lists : s.ListsOk

section Frame

variable {ν ν' : Nat → Ptr} {s s' : State F} {p : Ptr} {x : Stage}

theorem Here.mem_iff (h : Here ν s p x) (q : QueueRef) :
    p ∈ s.queue q ↔ x.links q ≠ 0 := by
  rw [← h.count q, ← List.count_pos_iff, Nat.pos_iff_ne_zero]

theorem Here.allocated (h : Here ν s p x) (hx : x ≠ .gone) : ∃ e, s.heap p = some e :=
  Option.ne_none_iff_exists'.1 (mt h.gone.1 hx)

theorem Here.lt_brk (h : Here ν s p x) (hx : x ≠ .gone) : p < s.brk :=
  Nat.not_le.1 (mt h.fresh hx)

/-- An address sees its links, its element, its names, the call in progress and
the log of its timer, and nothing else. -/
theorem Here.frame (h : Here ν s p x)
    (hq : ∀ q, (s'.queue q).count p = (s.queue q).count p)
    (hheap : s'.heap p = s.heap p) (hids : s'.idsOf p = s.idsOf p)
    (hrun : s'.call? = some (.running p) ↔ s.call? = some (.running p))
    (hcall : s'.call? = some (.called p) ↔ s.call? = some (.called p))
    (hbrk : s.brk ≤ s'.brk) (hst : s.started ≤ s'.started)
    (hν : ∀ n < s.started, ν' n = ν n)
    (hlog : s'.log = s.log ∨
      ∃ ev, s'.log = ev :: s.log ∧ ev.serial < s.started ∧ ν ev.serial ≠ p) :
    Here ν' s' p x where
  count q := by rw [hq, h.count]
  gone := by rw [hheap, h.gone]
  fits e he := by
    rw [hheap] at he
    have hf := h.fits e he
    have hne : ∀ ev : Event F, x ≠ .queued .pool → ν ev.serial ≠ p →
        ev.serial ≠ e.serial := fun ev hp hev heq => hev (heq ▸ hf.home hp)
    exact
      { reference := by rw [hids, hf.reference]
        held := by rw [hids]; exact hf.held
        started := fun hp => (hf.started hp).trans_le hst
        home := fun hp => by rw [hν _ (hf.started hp), hf.home hp]
        named := by rw [hids]; exact hf.named
        agrees := by
          rcases hlog with hlog | ⟨ev, hlog, -, hev⟩
          · rw [hlog]; exact hf.agrees
          · rw [hlog]
            exact hf.agrees.frame (fun hp => fired_cons_of_ne (hne ev hp hev))
              (fun hp => stopped_cons_of_ne (hne ev hp hev)) }
  unnamed hx := by rw [hids, h.unnamed hx]
  running := by rw [hrun, h.running]
  called := by rw [hcall, h.called]
  fresh hp := h.fresh (hbrk.trans hp)

end Frame

/-! ## What the operations on an element do -/

section Operations

variable {s : State F} {p : Ptr} {e : Element F}

namespace State

theorem set_set (s : State F) (p : Ptr) (e e' : Element F) :
    (s.set p e).set p e' = s.set p e' := by
  simp [set]

theorem incrementRef_eq (h : s.heap p = some e) :
    s.incrementRef p = some (s.set p { e with reference := e.reference + 1 }) := by
  simp [incrementRef, h]

theorem push_eq (h : s.heap p = some e) (q : QueueRef) :
    s.push q p = some ((s.setQueue q (s.queue q ++ [p])).set p
      { e with reference := e.reference + 1 }) :=
  incrementRef_eq h

variable [Inhabited F]

/-- The state after the last reference to `p` has gone. -/
def discard (s : State F) (p : Ptr) (e : Element F) : State F :=
  if ((s.queue .pool).length : Int) < s.maxPoolSize then
    (s.setQueue .pool (s.queue .pool ++ [p])).set p
      { e with cb := default, reference := 2 }
  else s.free p

theorem decrementRef_last (h : s.heap p = some e) (hr : e.reference = 1) :
    s.decrementRef p = some (s.discard p e) := by
  simp only [decrementRef, h, hr, Option.bind_eq_bind, Option.bind_some, sub_self,
    if_true, deleteElement, discard]
  have hq : (s.set p { e with reference := 0 }).queue = s.queue := rfl
  have hm : (s.set p { e with reference := 0 }).maxPoolSize = s.maxPoolSize := rfl
  rw [hq, hm]
  split
  · simp [incrementRef, push, set, setQueue]
  · simp [free, set]

theorem decrementRef_eq (h : s.heap p = some e) (hr : e.reference ≠ 1) :
    s.decrementRef p = some (s.set p { e with reference := e.reference - 1 }) := by
  have hne : e.reference - 1 ≠ 0 := by omega
  simp [decrementRef, h, hne]

theorem erase_eq {q : QueueRef} (hq : p ∈ s.queue q) (h : s.heap p = some e)
    (hr : e.reference ≠ 1) :
    s.erase q p = some ((s.setQueue q ((s.queue q).erase p)).set p
      { e with reference := e.reference - 1 }) := by
  rw [erase, if_pos hq]
  exact decrementRef_eq h hr

/-- The state after `DecrementRef` of the element `e` at `p`. -/
def leave (s : State F) (p : Ptr) (e : Element F) : State F :=
  if e.reference = 1 then s.discard p e
  else s.set p { e with reference := e.reference - 1 }

theorem decrementRef_leave (h : s.heap p = some e) :
    s.decrementRef p = some (s.leave p e) := by
  rw [leave]
  split
  · rename_i hr
    exact decrementRef_last h hr
  · rename_i hr
    exact decrementRef_eq h hr

theorem leave_with (s : State F) (p : Ptr) (e : Element F) (ids : List TimerId)
    (log : List (Event F)) (loop : Option Loop) :
    { s.leave p e with ids := ids, log := log, loop := loop } =
      { s with ids := ids, log := log, loop := loop }.leave p e := by
  simp only [leave, discard, free, set, setQueue]
  split
  · split <;> rfl
  · rfl

section Leave

variable (s : State F) (p : Ptr) (e : Element F)

@[simp] theorem leave_point : (s.leave p e).point = s.point := by
  simp only [leave, discard]; split_ifs <;> rfl

@[simp] theorem leave_clock : (s.leave p e).clock = s.clock := by
  simp only [leave, discard]; split_ifs <;> rfl

@[simp] theorem leave_started : (s.leave p e).started = s.started := by
  simp only [leave, discard]; split_ifs <;> rfl

@[simp] theorem leave_brk : (s.leave p e).brk = s.brk := by
  simp only [leave, discard]; split_ifs <;> rfl

@[simp] theorem leave_ids : (s.leave p e).ids = s.ids := by
  simp only [leave, discard]; split_ifs <;> rfl

@[simp] theorem leave_log : (s.leave p e).log = s.log := by
  simp only [leave, discard]; split_ifs <;> rfl

@[simp] theorem leave_loop : (s.leave p e).loop = s.loop := by
  simp only [leave, discard]; split_ifs <;> rfl

theorem leave_queue {q : QueueRef} (h : q ≠ .pool) :
    (s.leave p e).queue q = s.queue q := by
  simp only [leave, discard, set, free, setQueue]
  split_ifs <;> simp [h]

theorem leave_heap_of_ne {p' : Ptr} (h : p' ≠ p) :
    (s.leave p e).heap p' = s.heap p' := by
  simp only [leave, discard, set, free, setQueue]
  split_ifs <;> simp [h]

end Leave

end State

end Operations

/-! ## The invariant away from one address -/

section Off

variable {st : Ptr → Stage} {ν : Nat → Ptr} {s s' : State F} {p : Ptr}
  {e : Element F} {x : Stage}

/-- The invariant at the other addresses. -/
def Off (st : Ptr → Stage) (ν : Nat → Ptr) (s : State F) (p : Ptr) : Prop :=
  ∀ p', p' ≠ p → Here ν s p' (st p')

theorem Life.of_off (h : Off st ν s p) (hp : Here ν s p x)
    (ht : ∀ ev ∈ s.log, ev.serial < s.started) (hc : Consistent s.log)
    (hl : s.ListsOk) : Life (Function.update st p x) ν s where
  here p' := by
    by_cases hne : p' = p
    · subst hne
      rwa [Function.update_self]
    · rw [Function.update_of_ne hne]
      exact h p' hne
  told := ht
  consistent := hc
  lists := hl

/-- From `s` to `s'` nothing changes for the other addresses. -/
structure Touches (ν : Nat → Ptr) (p : Ptr) (s s' : State F) : Prop where
  count : ∀ p', p' ≠ p → ∀ q, (s'.queue q).count p' = (s.queue q).count p'
  heap : ∀ p', p' ≠ p → s'.heap p' = s.heap p'
  ids : ∀ p', p' ≠ p → s'.idsOf p' = s.idsOf p'
  running : ∀ p', p' ≠ p →
    (s'.call? = some (.running p') ↔ s.call? = some (.running p'))
  called : ∀ p', p' ≠ p →
    (s'.call? = some (.called p') ↔ s.call? = some (.called p'))
  brk : s.brk ≤ s'.brk
  started : s.started ≤ s'.started
  log : s'.log = s.log ∨
    ∃ ev, s'.log = ev :: s.log ∧ ev.serial < s.started ∧ ν ev.serial = p

theorem Life.off (h : Life st ν s) (ht : Touches ν p s s') {ν' : Nat → Ptr}
    (hν : ∀ n < s.started, ν' n = ν n) : Off st ν' s' p := by
  intro p' hne
  refine (h.here p').frame (ht.count p' hne) (ht.heap p' hne) (ht.ids p' hne)
    (ht.running p' hne) (ht.called p' hne) ht.brk ht.started hν ?_
  rcases ht.log with hlog | ⟨ev, hlog, hlt, hev⟩
  · exact Or.inl hlog
  · exact Or.inr ⟨ev, hlog, hlt, fun h' => hne (h'.symm.trans hev)⟩

/-- Someone who is not a `TimerId` gives up the last such reference: the
element is kept by its `TimerId`s, or goes to the pool, or is deleted. -/
theorem Life.leave [Inhabited F] (h : Off st ν s p)
    (hcount : ∀ q, (s.queue q).count p = 0)
    (href : e.reference = (s.idsOf p).length + 1)
    (hrun : s.call? ≠ some (.running p)) (hcall : s.call? ≠ some (.called p))
    (hbrk : p < s.brk) (hx : x = .fired ∨ x = .cancelled)
    (hst : e.serial < s.started) (hν : ν e.serial = p)
    (hids : ∀ id ∈ s.idsOf p, id.serial = e.serial) (ha : x.Agrees s.log e)
    (ht : ∀ ev ∈ s.log, ev.serial < s.started) (hc : Consistent s.log)
    (hl : s.ListsOk) :
    ∃ x', Life (Function.update st p x') ν (s.leave p e) := by
  have hcall' : (s.leave p e).call? = s.call? := by
    simp only [State.call?, State.leave_loop]
  have hids' : ∀ p', (s.leave p e).idsOf p' = s.idsOf p' := fun p' => by
    simp only [State.idsOf, State.leave_ids]
  have hoff : Off st ν (s.leave p e) p := by
    intro p' hne
    refine (h p' hne).frame (fun q => ?_) (s.leave_heap_of_ne p e hne) (hids' p')
      (by rw [hcall']) (by rw [hcall']) (by simp) (by simp) (fun n _ => rfl)
      (Or.inl (by simp))
    by_cases hq : q = .pool
    · subst hq
      simp only [State.leave, State.discard, State.set, State.free, State.setQueue]
      split_ifs <;> simp [List.count_append, hne.symm]
    · rw [s.leave_queue p e hq]
  have hlists : (s.leave p e).ListsOk := by
    simp only [State.ListsOk, State.leave_loop, s.leave_queue p e (q := .slist) (by decide),
      s.leave_queue p e (q := .dispatchers) (by decide)] at hl ⊢
    exact hl
  have hlife : ∀ x', Here ν (s.leave p e) p x' →
      Life (Function.update st p x') ν (s.leave p e) := fun x' hx' =>
    Life.of_off hoff hx' (by simpa using ht) (by simpa using hc) hlists
  have hfree : x.links = fun _ => 0 := by rcases hx with rfl | rfl <;> rfl
  have hrefs : x.refs = 0 := by rcases hx with rfl | rfl <;> rfl
  by_cases hn : s.idsOf p = []
  · have hr : e.reference = 1 := by rw [href, hn]; rfl
    have hleave : s.leave p e = s.discard p e := if_pos hr
    by_cases hpool : ((s.queue .pool).length : Int) < s.maxPoolSize
    · -- to the pool
      have hd : s.discard p e = (s.setQueue .pool (s.queue .pool ++ [p])).set p
        { e with cb := default, reference := 2 } := if_pos hpool
      refine ⟨.queued .pool, hlife _ ?_⟩
      rw [hleave, hd]
      refine ⟨fun q => ?_, by simp [State.set], ?_, fun _ => hn, ?_, ?_, ?_⟩
      · have := hcount q
        by_cases hq : q = .pool
        · subst hq
          simp [State.set, State.setQueue, Stage.links, List.count_append, this]
        · simp [State.set, State.setQueue, Stage.links, hq, this]
      · intro e' he'
        obtain rfl : { e with cb := default, reference := 2 } = e' := by
          simpa [State.set] using he'
        refine ⟨?_, by simp, by simp, by simp, ?_, trivial⟩
        · have : (s.idsOf p).length = 0 := by rw [hn]; rfl
          change (2 : Int) = ((s.idsOf p).length : Int) + (2 : Nat)
          rw [this]
          rfl
        · exact hids
      · exact ⟨fun h' => absurd h' hrun, fun h' => by simp at h'⟩
      · exact ⟨fun h' => absurd h' hcall, fun h' => by simp at h'⟩
      · exact fun h' => absurd h' (Nat.not_le.2 hbrk)
    · -- deleted
      have hd : s.discard p e = s.free p := if_neg hpool
      refine ⟨.gone, hlife _ ?_⟩
      rw [hleave, hd]
      refine ⟨fun q => hcount q, by simp [State.free], ?_, fun _ => hn, ?_, ?_, ?_⟩
      · intro e' he'
        simp [State.free] at he'
      · exact ⟨fun h' => absurd h' hrun, fun h' => by simp at h'⟩
      · exact ⟨fun h' => absurd h' hcall, fun h' => by simp at h'⟩
      · exact fun _ => rfl
  · have hlen : 0 < (s.idsOf p).length := List.length_pos_iff.2 hn
    have hr : e.reference ≠ 1 := by omega
    have hleave : s.leave p e = s.set p { e with reference := e.reference - 1 } :=
      if_neg hr
    have hxs : x ≠ .gone ∧ x ≠ .queued .pool ∧ x ≠ .running ∧ x ≠ .called := by
      rcases hx with rfl | rfl <;> simp
    obtain ⟨hx1, hx2, hx3, hx4⟩ := hxs
    refine ⟨x, hlife _ ?_⟩
    rw [hleave]
    refine ⟨fun q => ?_, by simp [State.set, hx1], ?_, ?_, ?_, ?_, ?_⟩
    · rw [hfree]
      exact hcount q
    · intro e' he'
      obtain rfl : { e with reference := e.reference - 1 } = e' := by
        simpa [State.set] using he'
      refine ⟨?_, fun _ => hn, fun _ => hst, fun _ => hν, hids, ?_⟩
      · change e.reference - 1 = ((s.idsOf p).length : Int) + (x.refs : Int)
        rw [href, hrefs]
        simp
      · rcases hx with rfl | rfl <;> exact ha
    · rintro (rfl | rfl)
      · exact absurd rfl hx1
      · exact absurd rfl hx2
    · exact ⟨fun h' => absurd h' hrun, fun h' => absurd h' hx3⟩
    · exact ⟨fun h' => absurd h' hcall, fun h' => absurd h' hx4⟩
    · exact fun h' => absurd h' (Nat.not_le.2 hbrk)

end Off

end Costream.Timer
