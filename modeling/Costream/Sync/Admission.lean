import Costream.Sync.CASChannel

/-!
# When a push is let in

A `Push` is let in without waiting when the count of the queue is below the capacity.
The count is that of all entries: those whose value is buffered, those whose writer
waits, and those whose writer has timed out and which nobody has popped.  It also
keeps the entries that the clean-up has evicted.

As long as no writer times out and nothing is evicted, the queue is full of buffered
values before anyone waits, `pos_` is at the first who does, and each `pop` that takes a
value from the front lets one more in.  `Shape` is this state of the queue.
-/

namespace Costream.Sync.CAS

open Trace

variable {T : Type*}

/-! ## The queue of the writers -/

/-- The values of the entries `buffered` are in the channel, and the writers of
`waiting` wait behind them. -/
structure Cond.Shape (c : Cond T) (capacity : Nat) (buffered waiting : List Nat) : Prop where
  nodes : c.queue.nodes = buffered ++ waiting
  nodup : c.queue.nodes.Nodup
  bound : ∀ i ∈ c.queue.nodes, i < c.entries.length
  accepted : ∀ i ∈ buffered, ∀ e, c.entries[i]? = some e → e.isWaiting = false
  parked : ∀ i ∈ waiting, ∀ e, c.entries[i]? = some e → e.isWaiting = true ∧ e.stage = .waiting
  count : c.queue.count = c.queue.nodes.length
  size : c.queue.nodes.length < 2 ^ 64
  room : buffered.length ≤ capacity
  full : waiting ≠ [] → buffered.length = capacity
  pos : c.queue.pos = waiting.head?
  posDistance : c.queue.posDistance = (capacity + 1) % 2 ^ 64

namespace Cond

variable {c : Cond T} {capacity : Nat} {buffered waiting : List Nat}

theorem shape_create (hcap : capacity ≠ 0) :
    Shape (create (if capacity = 0 then 2 ^ 64 - 1 else (capacity + 1) % 2 ^ 64) : Cond T) capacity
      [] [] := by
  rw [if_neg hcap]
  constructor <;> simp [create, WaitQueue.create]

/-- A clean-up that finds every entry valid only moves `check_`. -/
theorem cleanUp_valid (verdicts : List Bool) (hv : ∀ v ∈ verdicts, v = true) (queue : WaitQueue) :
    (c.cleanUp verdicts queue).nodes = queue.nodes ∧ (c.cleanUp verdicts queue).pos = queue.pos ∧
      (c.cleanUp verdicts queue).count = queue.count ∧
      (c.cleanUp verdicts queue).posDistance = queue.posDistance := by
  induction verdicts generalizing queue with
  | nil => exact ⟨rfl, rfl, rfl, rfl⟩
  | cons v rest ih =>
    unfold cleanUp
    split
    · exact ⟨rfl, rfl, rfl, rfl⟩
    · rename_i i _
      have hvalid : c.isValid v i = true := by simp [isValid, hv v]
      rw [if_pos hvalid]
      exact ih (fun w hw => hv w (by simp [hw])) (queue.advance i)

theorem startCheck_eq (queue : WaitQueue) :
    queue.startCheck.count = queue.count ∧ queue.startCheck.posDistance = queue.posDistance := by
  unfold WaitQueue.startCheck
  split <;> exact ⟨rfl, rfl⟩

/-- `push` without an eviction appends the entry. -/
theorem push_valid (e : Entry T) :
    (c.push e (true, true)).entries = c.entries ++ [e] ∧
      (c.push e (true, true)).queue.nodes = c.queue.nodes ++ [c.entries.length] ∧
      (c.push e (true, true)).queue.pos = (c.queue.link c.entries.length).pos ∧
      (c.push e (true, true)).queue.count = (c.queue.count + 1) % 2 ^ 64 ∧
      (c.push e (true, true)).queue.posDistance = c.queue.posDistance := by
  unfold push
  dsimp only
  split
  · exact ⟨rfl, rfl, rfl, rfl, rfl⟩
  · obtain ⟨hnodes, hpos, hcount, hdist⟩ := cleanUp_valid
      (c := { queue := c.queue.link c.entries.length, entries := c.entries ++ [e] })
      [true, true] (by simp) (c.queue.link c.entries.length).startCheck
    obtain ⟨hcount', hdist'⟩ := startCheck_eq (c.queue.link c.entries.length)
    refine ⟨rfl, ?_, ?_, hcount.trans hcount', hdist.trans hdist'⟩
    · rw [hnodes]
      simp
    · rw [hpos]
      simp

theorem getElem?_append_of_mem {e : Entry T} {i : Nat} (hi : i < c.entries.length) :
    (c.entries ++ [e])[i]? = c.entries[i]? := List.getElem?_append_left hi

/-- There is room, and the push is let in. -/
theorem Shape.accept (h : c.Shape capacity buffered waiting) (hlt : c.queue.count < capacity)
    (hcap : capacity < 2 ^ 64) (hsize : c.queue.nodes.length + 1 < 2 ^ 64) (e : Entry T)
    (he : e.isWaiting = false) :
    (c.push e (true, true)).Shape capacity (buffered ++ [c.entries.length]) [] := by
  obtain ⟨hentries, hnodes, hpos, hcount, hdist⟩ := push_valid (c := c) e
  have hlen : c.queue.nodes.length = buffered.length + waiting.length := by
    rw [h.nodes, List.length_append]
  have hwaiting : waiting = [] := by
    by_contra hne
    have := h.full hne
    have := h.count
    omega
  subst hwaiting
  have hnew : ∀ i ∈ c.queue.nodes, i ≠ c.entries.length := fun i hi => (h.bound i hi).ne
  refine ⟨?_, ?_, fun i hi => ?_, fun i hi f hf => ?_, (by simp), ?_, ?_, ?_, (by simp), ?_, ?_⟩
  · rw [hnodes, h.nodes]
    simp
  · rw [hnodes]
    refine List.nodup_append.2 ⟨h.nodup, by simp, fun i hi j hj => ?_⟩
    rw [List.mem_singleton] at hj
    exact hj ▸ hnew i hi
  · rw [hnodes, List.mem_append, List.mem_singleton] at hi
    rw [hentries, List.length_append, List.length_singleton]
    rcases hi with hi | rfl
    · have := h.bound i hi
      omega
    · omega
  · rw [hentries] at hf
    rcases List.mem_append.1 hi with hi | hi
    · have hib : i ∈ c.queue.nodes := by simp [h.nodes, hi]
      rw [getElem?_append_of_mem (h.bound i hib)] at hf
      exact h.accepted i hi f hf
    · rw [List.mem_singleton] at hi
      subst hi
      rw [List.getElem?_concat_length, Option.some.injEq] at hf
      exact hf ▸ he
  · rw [hcount, hnodes, List.length_append, List.length_singleton, h.count]
    exact Nat.mod_eq_of_lt hsize
  · rw [hnodes, List.length_append, List.length_singleton]
    exact hsize
  · rw [List.length_append, List.length_singleton]
    have := h.count
    simp only [List.length_nil] at hlen
    omega
  · rw [hpos]
    unfold WaitQueue.link
    dsimp only
    rw [if_neg, h.pos]
    rw [h.posDistance, h.count, Nat.mod_eq_of_lt hsize]
    have := h.count
    omega
  · rw [hdist]
    exact h.posDistance

/-- There is no room, and the push waits. -/
theorem Shape.park (h : c.Shape capacity buffered waiting) (hge : capacity ≤ c.queue.count)
    (hsize : c.queue.nodes.length + 1 < 2 ^ 64) (e : Entry T)
    (he : e.isWaiting = true ∧ e.stage = .waiting) :
    (c.push e (true, true)).Shape capacity buffered (waiting ++ [c.entries.length]) := by
  obtain ⟨hentries, hnodes, hpos, hcount, hdist⟩ := push_valid (c := c) e
  have hlen : c.queue.nodes.length = buffered.length + waiting.length := by
    rw [h.nodes, List.length_append]
  have hnew : ∀ i ∈ c.queue.nodes, i ≠ c.entries.length := fun i hi => (h.bound i hi).ne
  have hfull : buffered.length = capacity := by
    cases waiting with
    | nil =>
      have := h.room
      have := h.count
      simp only [List.length_nil] at hlen
      omega
    | cons p rest => exact h.full (by simp)
  refine ⟨?_, ?_, fun i hi => ?_, fun i hi f hf => ?_, fun i hi f hf => ?_, ?_, ?_, h.room,
    fun _ => hfull, ?_, ?_⟩
  · rw [hnodes, h.nodes, List.append_assoc]
  · rw [hnodes]
    refine List.nodup_append.2 ⟨h.nodup, by simp, fun i hi j hj => ?_⟩
    rw [List.mem_singleton] at hj
    exact hj ▸ hnew i hi
  · rw [hnodes, List.mem_append, List.mem_singleton] at hi
    rw [hentries, List.length_append, List.length_singleton]
    rcases hi with hi | rfl
    · have := h.bound i hi
      omega
    · omega
  · have hib : i ∈ c.queue.nodes := by simp [h.nodes, hi]
    rw [hentries, getElem?_append_of_mem (h.bound i hib)] at hf
    exact h.accepted i hi f hf
  · rw [hentries] at hf
    rcases List.mem_append.1 hi with hi | hi
    · have hib : i ∈ c.queue.nodes := by simp [h.nodes, hi]
      rw [getElem?_append_of_mem (h.bound i hib)] at hf
      exact h.parked i hi f hf
    · rw [List.mem_singleton] at hi
      subst hi
      rw [List.getElem?_concat_length, Option.some.injEq] at hf
      exact hf ▸ he
  · rw [hcount, hnodes, List.length_append, List.length_singleton, h.count]
    exact Nat.mod_eq_of_lt hsize
  · rw [hnodes, List.length_append, List.length_singleton]
    exact hsize
  · rw [hpos]
    unfold WaitQueue.link
    dsimp only
    rw [h.posDistance, h.count, Nat.mod_eq_of_lt hsize]
    have hcap : (capacity + 1) % 2 ^ 64 = capacity + 1 := by
      apply Nat.mod_eq_of_lt
      omega
    rw [hcap]
    cases waiting with
    | nil =>
      rw [if_pos]
      · rfl
      · simp only [List.length_nil] at hlen
        omega
    | cons p rest =>
      rw [if_neg, h.pos]
      · rfl
      · simp only [List.length_cons] at hlen
        omega
  · rw [hdist]
    exact h.posDistance

/-! ### `pop` -/

theorem modify_get {i j : Nat} (f g : Entry T → Entry T) (hne : j ≠ i) :
    ((c.entries.modify i f).modify i g)[j]? = c.entries[j]? := by
  simp [Ne.symm hne]

/-- `pos_` is at an entry that waits. -/
theorem convert_waiting {i : Nat} {e : Entry T} (he : c.entries[i]? = some e)
    (hstage : e.stage = .waiting) :
    c.convert i = (true, { queue := c.queue.passed
                           entries := (c.entries.modify i fun e => { e with stage := .woken }).modify
                             i fun e => { e with isWaiting := false } }) := by
  simp [convert, notify, he, hstage, setStage]

/-- The first value is popped, and nobody waits. -/
theorem Shape.pop_last {ptr : Nat} (h : c.Shape capacity (ptr :: buffered) []) :
    c.pop = some (ptr, { c with queue := (c.queue.popHead ptr).uncount }) ∧
      Shape { c with queue := (c.queue.popHead ptr).uncount } capacity buffered [] := by
  have hnodes : c.queue.nodes = ptr :: buffered := by simpa using h.nodes
  have hpos : c.queue.pos = none := h.pos
  have hnd := h.nodup
  rw [hnodes] at hnd
  have hcount := h.count
  rw [hnodes, List.length_cons] at hcount
  have hroom := h.room
  rw [List.length_cons] at hroom
  have hsize := h.size
  rw [hnodes, List.length_cons] at hsize
  constructor
  · unfold pop
    rw [hnodes]
    simp [passAll, hpos]
  · refine ⟨?_, ?_, fun i hi => ?_, fun i hi => h.accepted i (by simp [hi]), (by simp), ?_, ?_,
      by omega, (by simp), hpos, h.posDistance⟩
    · simp [hnodes]
    · simpa [hnodes] using (List.nodup_cons.1 hnd).2
    · refine h.bound i ?_
      simp only [WaitQueue.uncount_nodes, WaitQueue.popHead_nodes] at hi
      exact List.mem_of_mem_tail hi
    · show (if c.queue.count = 0 then 2 ^ 64 - 1 else c.queue.count - 1) = c.queue.nodes.tail.length
      rw [hnodes, List.tail_cons, if_neg (by omega)]
      omega
    · show c.queue.nodes.tail.length < 2 ^ 64
      rw [hnodes, List.tail_cons]
      omega

/-- The first value is popped, and that of the first writer who waits is let in. -/
theorem Shape.pop_convert {ptr p : Nat} (h : c.Shape capacity (ptr :: buffered) (p :: waiting)) :
    ∃ c', c.pop = some (ptr, c') ∧ c'.Shape capacity (buffered ++ [p]) waiting ∧
      c'.queue.nodes = c.queue.nodes.tail ∧ c'.entries.length = c.entries.length := by
  have hnodes : c.queue.nodes = ptr :: (buffered ++ p :: waiting) := by simpa using h.nodes
  have hpos : c.queue.pos = some p := h.pos
  have hnd := h.nodup
  rw [hnodes] at hnd
  have hnd' := (List.nodup_cons.1 hnd).2
  have hpb : p ∉ buffered := fun hpb => (List.nodup_append.1 hnd').2.2 p hpb p (by simp) rfl
  have hpw : p ∉ waiting := (List.nodup_cons.1 (List.nodup_append.1 hnd').2.1).1
  have hcount := h.count
  rw [hnodes, List.length_cons] at hcount
  have hfull := h.full (by simp)
  rw [List.length_cons] at hfull
  have hsize := h.size
  rw [hnodes, List.length_cons] at hsize
  obtain ⟨e, he⟩ : ∃ e, c.entries[p]? = some e := by
    have hlt := h.bound p (by simp [hnodes])
    exact ⟨_, List.getElem?_eq_getElem hlt⟩
  obtain ⟨-, hstage⟩ := h.parked p (by simp) e he
  let c₁ : Cond T := { c with queue := c.queue.popHead ptr }
  have hconvert := convert_waiting (c := c₁) he hstage
  have hnext : WaitQueue.next (buffered ++ p :: waiting) p = waiting.head? :=
    WaitQueue.next_append hpb
  refine ⟨{ queue := c₁.queue.passed.uncount
            entries := (c.entries.modify p fun e => { e with stage := .woken }).modify
              p fun e => { e with isWaiting := false } }, ?_, ?_, rfl, by simp⟩
  · unfold pop
    rw [hnodes]
    dsimp only
    unfold passAll
    have hpos₁ : c₁.queue.pos = some p := hpos
    rw [show ({ c with queue := c.queue.popHead ptr } : Cond T) = c₁ from rfl]
    simp only [hpos₁, hconvert]
    rfl
  · refine ⟨?_, ?_, fun i hi => ?_, fun i hi f hf => ?_, fun i hi f hf => ?_, ?_, ?_, ?_,
      fun _ => ?_, ?_, h.posDistance⟩
    · show c.queue.nodes.tail = _
      simp [hnodes]
    · show c.queue.nodes.tail.Nodup
      rw [hnodes]
      exact hnd'
    · have hi : i ∈ c.queue.nodes := List.mem_of_mem_tail hi
      simpa using h.bound i hi
    · rcases List.mem_append.1 hi with hi | hi
      · have hip : i ≠ p := fun hip => hpb (hip ▸ hi)
        rw [modify_get _ _ hip] at hf
        exact h.accepted i (by simp [hi]) f hf
      · rw [List.mem_singleton] at hi
        subst hi
        simp only [List.getElem?_modify_eq, he, Option.map_eq_map, Option.map_some,
          Option.some.injEq] at hf
        rw [← hf]
    · have hip : i ≠ p := fun hip => hpw (hip ▸ hi)
      rw [modify_get _ _ hip] at hf
      exact h.parked i (by simp [hi]) f hf
    · show (if c.queue.count = 0 then 2 ^ 64 - 1 else c.queue.count - 1) = c.queue.nodes.tail.length
      rw [hnodes, List.tail_cons, if_neg (by omega)]
      omega
    · show c.queue.nodes.tail.length < 2 ^ 64
      rw [hnodes, List.tail_cons]
      omega
    · rw [List.length_append, List.length_singleton]
      omega
    · rw [List.length_append, List.length_singleton]
      omega
    · show (c.queue.pos).bind (WaitQueue.next c.queue.nodes.tail) = _
      rw [hpos, hnodes, List.tail_cons, Option.bind_some, hnext]

/-- A `pop` keeps the shape. -/
theorem Shape.pop (h : c.Shape capacity buffered waiting) (hcap : capacity ≠ 0) {ptr : Nat}
    {c' : Cond T} (hpop : c.pop = some (ptr, c')) :
    (∃ buffered' waiting', c'.Shape capacity buffered' waiting') ∧ ptr ∉ c'.queue.nodes ∧
      (∀ i ∈ c'.queue.nodes, i ∈ c.queue.nodes) ∧ c'.entries.length = c.entries.length ∧
        ptr < c.entries.length := by
  cases buffered with
  | nil =>
    have hwaiting : waiting = [] := by
      by_contra hne
      exact hcap (h.full hne).symm
    subst hwaiting
    have hnodes : c.queue.nodes = [] := by simpa using h.nodes
    simp [Cond.pop, hnodes] at hpop
  | cons x buffered =>
    have hmem : x ∈ c.queue.nodes := by simp [h.nodes]
    have hnd := h.nodup
    cases waiting with
    | nil =>
      obtain ⟨hpop', hshape⟩ := h.pop_last
      rw [hpop'] at hpop
      cases hpop
      refine ⟨⟨_, _, hshape⟩, ?_, fun i hi => List.mem_of_mem_tail hi, rfl, h.bound ptr hmem⟩
      rw [h.nodes] at hnd
      rw [hshape.nodes]
      simpa using (List.nodup_cons.1 hnd).1
    | cons p waiting =>
      obtain ⟨c₂, hpop', hshape, hnodes, hlen⟩ := h.pop_convert
      rw [hpop'] at hpop
      cases hpop
      refine ⟨⟨_, _, hshape⟩, ?_, fun i hi => ?_, hlen, h.bound ptr hmem⟩
      · rw [h.nodes] at hnd
        rw [hnodes, h.nodes]
        exact (List.nodup_cons.1 hnd).1
      · rw [hnodes] at hi
        exact List.mem_of_mem_tail hi

/-- A change of an entry that is not in the queue. -/
theorem Shape.setStage (h : c.Shape capacity buffered waiting) {i : Nat} (hi : i ∉ c.queue.nodes)
    (stage : Stage) : (c.setStage i stage).Shape capacity buffered waiting := by
  have hget : ∀ j ∈ c.queue.nodes, (c.setStage i stage).entries[j]? = c.entries[j]? := by
    intro j hj
    have hji : i ≠ j := fun hij => hi (hij ▸ hj)
    simp [Cond.setStage, hji]
  have hbuffered : ∀ j ∈ buffered, j ∈ c.queue.nodes := fun j hj => by simp [h.nodes, hj]
  have hwaiting : ∀ j ∈ waiting, j ∈ c.queue.nodes := fun j hj => by simp [h.nodes, hj]
  refine ⟨h.nodes, h.nodup, fun j hj => ?_, fun j hj f hf => ?_, fun j hj f hf => ?_, h.count,
    h.size, h.room, h.full, h.pos, h.posDistance⟩
  · simpa [Cond.setStage] using h.bound j hj
  · exact h.accepted j hj f (by rwa [hget j (hbuffered j hj)] at hf)
  · exact h.parked j hj f (by rwa [hget j (hwaiting j hj)] at hf)

/-- The values that are buffered. -/
theorem Shape.buffered_eq (h : c.Shape capacity buffered waiting) :
    (c.linked.filter (!·.isWaiting)).length = buffered.length := by
  have hget : ∀ i ∈ c.queue.nodes, ∃ e, c.entries[i]? = some e := fun i hi =>
    ⟨_, List.getElem?_eq_getElem (h.bound i hi)⟩
  rw [← List.countP_eq_length_filter, linked, List.countP_filterMap, h.nodes, List.countP_append]
  have hbuffered : buffered.countP
      (fun i => (c.entries[i]?.map (!·.isWaiting)).getD false) = buffered.length := by
    rw [List.countP_eq_length]
    intro i hi
    obtain ⟨e, he⟩ := hget i (by simp [h.nodes, hi])
    simp [he, h.accepted i hi e he]
  have hwaiting : waiting.countP
      (fun i => (c.entries[i]?.map (!·.isWaiting)).getD false) = 0 := by
    rw [List.countP_eq_zero]
    intro i hi
    obtain ⟨e, he⟩ := hget i (by simp [h.nodes, hi])
    simp [he, (h.parked i hi e he).1]
  omega

end Cond

/-! ## The channel -/

/-- The channel is open, its queue is in shape, and an entry that has been popped is not in
it. -/
structure Inv (s : State T) : Prop where
  capacity : s.capacity ≠ 0 ∧ s.capacity < 2 ^ 64
  opened : s.closed = false
  shape : ∃ buffered waiting, s.wq.Shape s.capacity buffered waiting
  popped : ∀ c ptr, s.placeOf c = some (.notify .writer ptr) →
    ptr ∉ s.wq.queue.nodes ∧ ptr < s.wq.entries.length

/-- No `Close`, no writer whose wait ends by its deadline or a spurious wake-up, and no eviction
from the queue of the writers. -/
def Undisturbed (s : State T) : Action T → Prop
  | .call .close _ => False
  | .call _ _ => True
  | .step c verdict => s.side c = .writer → verdict = (true, true)
  | .spurious _ => True
  | .expire c => s.side c = .reader

instance (s : State T) (a : Action T) : Decidable (Undisturbed s a) := by
  unfold Undisturbed
  split <;> infer_instance

variable {s s' : State T}

theorem inv_initial {capacity : Nat} (hcap : capacity ≠ 0 ∧ capacity < 2 ^ 64) :
    Inv (State.initial capacity : State T) where
  capacity := hcap
  opened := rfl
  shape := ⟨[], [], Cond.shape_create hcap.1⟩
  popped c ptr h := by simp [State.placeOf, State.initial] at h

/-- What the places of the calls have to do with the queue of the writers: `c` alone moves, and
only to an entry that is no longer in the queue. -/
theorem Inv.of_places (h : Inv s) (hcap : s'.capacity = s.capacity) (hclosed : s'.closed = s.closed)
    (hshape : ∃ buffered waiting, s'.wq.Shape s.capacity buffered waiting)
    (hlen : s.wq.entries.length ≤ s'.wq.entries.length)
    (hnodes : ∀ i ∈ s'.wq.queue.nodes, i ∈ s.wq.queue.nodes ∨ s.wq.entries.length ≤ i)
    (hplaces : ∀ c ptr, s'.placeOf c = some (.notify .writer ptr) →
      s.placeOf c = some (.notify .writer ptr) ∨
        ptr ∉ s'.wq.queue.nodes ∧ ptr < s'.wq.entries.length) : Inv s' := by
  refine ⟨hcap ▸ h.capacity, hclosed.trans h.opened, hcap ▸ hshape, fun c ptr hp => ?_⟩
  rcases hplaces c ptr hp with hold | hnew
  · obtain ⟨hmem, hlt⟩ := h.popped c ptr hold
    refine ⟨fun hptr => ?_, Nat.lt_of_lt_of_le hlt hlen⟩
    rcases hnodes ptr hptr with hptr | hptr
    · exact hmem hptr
    · omega
  · exact hnew

/-- A step that does not touch the queue of the writers. -/
theorem Inv.of_wq (h : Inv s) (hcap : s'.capacity = s.capacity) (hclosed : s'.closed = s.closed)
    (hwq : s'.wq = s.wq) (hplaces : ∀ c ptr, s'.placeOf c = some (.notify .writer ptr) →
      s.placeOf c = some (.notify .writer ptr)) : Inv s' := by
  refine h.of_places hcap hclosed (hwq ▸ h.shape) (hwq ▸ Nat.le_refl _) (fun i hi => ?_)
    fun c ptr hp => .inl (hplaces c ptr hp)
  exact .inl (hwq ▸ hi)

/-- A call goes on, and has popped nothing from the queue of the writers. -/
theorem Inv.goto (h : Inv s) (c : Nat) {place : Place} (hp : ∀ ptr, place ≠ .notify .writer ptr) :
    Inv (s.goto c place) := by
  refine h.of_wq rfl rfl rfl fun c' ptr hplace => ?_
  rw [placeOf_goto] at hplace
  split at hplace
  · obtain ⟨q, -, hq⟩ := Option.map_eq_some_iff.1 hplace
    exact absurd hq (hp ptr)
  · exact hplace

theorem Inv.functor (h : Inv s) (c : Nat) (op : Op T) (e : Entry T) : Inv (s.functor c op e) := by
  refine h.of_wq ?_ ?_ ?_ fun c' ptr hplace => ?_
  · unfold State.functor; split <;> rfl
  · unfold State.functor; split <;> rfl
  · unfold State.functor; split <;> rfl
  · rwa [placeOf_functor] at hplace

theorem notified_ne (side : Side) (op : Op T) (result : Bool) (ptr : Nat) :
    State.notified side op result ≠ .notify .writer ptr := by
  unfold State.notified
  split <;> simp

theorem Inv.popStep (h : Inv s) (c : Nat) (op : Op T) (side : Side) :
    Inv (s.popStep c op side) := by
  unfold State.popStep
  split
  · exact h.goto c (notified_ne side op false)
  · rename_i ptr cond hpop
    cases side with
    | reader =>
      have hset : Inv (s.setCond .reader cond) := h.of_wq rfl rfl rfl fun _ _ => id
      exact hset.goto c (by simp)
    | writer =>
      obtain ⟨buffered, waiting, hshape⟩ := h.shape
      obtain ⟨hshape', hptr, hsub, hlen, hlt⟩ := hshape.pop h.capacity.1 hpop
      refine h.of_places rfl rfl hshape' hlen.ge (fun i hi => .inl (hsub i hi)) fun c' p hplace => ?_
      rw [placeOf_goto] at hplace
      split at hplace
      · obtain ⟨q, -, hq⟩ := Option.map_eq_some_iff.1 hplace
        cases hq
        exact .inr ⟨hptr, hlen ▸ hlt⟩
      · exact .inl hplace

/-- `notify` on an entry that has been popped. -/
theorem Inv.setStage (h : Inv s) (side : Side) {ptr : Nat}
    (hptr : side = .writer → ptr ∉ s.wq.queue.nodes) (stage : Stage) :
    Inv (s.setCond side ((s.cond side).setStage ptr stage)) := by
  cases side with
  | reader => exact h.of_wq rfl rfl rfl fun _ _ => id
  | writer =>
    obtain ⟨buffered, waiting, hshape⟩ := h.shape
    refine h.of_places rfl rfl ⟨_, _, hshape.setStage (hptr rfl) stage⟩ ?_ (fun i hi => .inl hi)
      fun c ptr hplace => .inl hplace
    simp [State.setCond, State.cond, Cond.setStage]

theorem notify_eq (c : Cond T) (i : Nat) :
    (c.notify i).2 = c ∨ ∃ stage, (c.notify i).2 = c.setStage i stage := by
  unfold Cond.notify
  split
  · exact .inr ⟨_, rfl⟩
  · exact .inr ⟨_, rfl⟩
  · exact .inl rfl

theorem Inv.notifyStep (h : Inv s) (c : Nat) (op : Op T) (side : Side) {ptr : Nat}
    (hptr : side = .writer → ptr ∉ s.wq.queue.nodes) : Inv (s.notifyStep c op side ptr) := by
  have hset : Inv (s.setCond side ((s.cond side).notify ptr).2) := by
    rcases notify_eq (s.cond side) ptr with heq | ⟨stage, heq⟩
    · rw [heq]
      cases side <;> exact h
    · rw [heq]
      exact h.setStage side hptr stage
  unfold State.notifyStep
  split
  · exact h
  · rename_i e _
    split
    · split
      · rename_i cond hnotify
        rw [hnotify] at hset
        exact (hset.functor c op e).goto c (notified_ne side op true)
      · rename_i cond hnotify
        rw [hnotify] at hset
        exact hset.goto c (by simp)
    · exact (h.functor c op e).goto c (notified_ne side op true)

/-! ### `Push` and `Pop` -/

/-- A new entry in the queue of the writers. -/
theorem Inv.queued (h : Inv s) (c : Nat) (t : T) {needWait : Bool} {buffered waiting : List Nat}
    (hshape : (s.wq.push ⟨c, some t, needWait, .waiting⟩ (true, true)).Shape s.capacity buffered
      waiting) : Inv (s.queued c .writer (some t) needWait (true, true)) := by
  obtain ⟨hentries, hnodes, -, -, -⟩ :=
    Cond.push_valid (c := s.wq) ⟨c, some t, needWait, .waiting⟩
  have hset : Inv (s.setCond .writer (s.wq.push ⟨c, some t, needWait, .waiting⟩ (true, true))) := by
    refine h.of_places rfl rfl ⟨_, _, hshape⟩ ?_ (fun i hi => ?_) fun c ptr hplace => .inl hplace
    · show s.wq.entries.length ≤ (s.wq.push _ _).entries.length
      simp [hentries]
    · have hi : i ∈ (s.wq.push ⟨c, some t, needWait, .waiting⟩ (true, true)).queue.nodes := hi
      rw [hnodes, List.mem_append, List.mem_singleton] at hi
      rcases hi with hi | hi
      · exact .inl hi
      · exact .inr hi.ge
  refine hset.goto c fun ptr => ?_
  split <;> simp

theorem Inv.enqueuePush (h : Inv s) (c : Nat) (t : T) (bWait : Bool)
    (hsize : s.wq.queue.nodes.length + 1 < 2 ^ 64) :
    Inv (s.enqueuePush c t bWait (true, true)) := by
  obtain ⟨buffered, waiting, hshape⟩ := h.shape
  unfold State.enqueuePush
  rw [if_neg (by simp [h.opened])]
  split
  · rename_i hlt
    exact h.queued c t (hshape.accept hlt h.capacity.2 hsize _ rfl)
  · rename_i hge
    split
    · exact h.queued c t (hshape.park (Nat.not_lt.1 hge) hsize _ ⟨rfl, rfl⟩)
    · exact h.goto c (by simp)

theorem Inv.enqueuePop (h : Inv s) (c : Nat) (verdict : Bool × Bool) :
    Inv (s.enqueuePop c verdict) := by
  unfold State.enqueuePop
  rw [if_neg (by simp [h.opened])]
  have hset : Inv (s.setCond .reader (s.rq.push ⟨c, none, true, .waiting⟩ verdict)) :=
    h.of_wq rfl rfl rfl fun _ _ => id
  exact hset.goto c (by simp)

theorem Inv.unpark (h : Inv s) (c : Nat) (side : Side) (i : Nat) : Inv (s.unpark c side i) := by
  unfold State.unpark
  split <;> exact h.goto c (by simp)

theorem Inv.setWait (h : Inv s) (wait : Nat) : Inv { s with wait := wait } :=
  h.of_wq rfl rfl rfl fun _ _ => id

theorem Inv.push (h : Inv s) (c : Nat) (t : T) (bWait : Bool) (place : Place)
    (hplace : s.placeOf c = some place)
    (hsize : place = .enqueue → s.wq.queue.nodes.length + 1 < 2 ^ 64) :
    Inv (s.push c t bWait (true, true) place) := by
  unfold State.push
  split
  · exact h.goto c (by split <;> simp)
  · split
    · exact h.goto c (by simp)
    · split <;> exact h.goto c (by simp)
  · exact h.popStep c _ _
  · rename_i side ptr
    exact h.notifyStep c _ side fun hs => (h.popped c ptr (hs ▸ hplace)).1
  · exact h.goto c (by split <;> simp)
  · exact (h.setWait _).goto c (by simp)
  · split
    · exact (h.setWait _).goto c (by simp)
    · exact h.goto c (by simp)
  · exact h.enqueuePush c t bWait (hsize rfl)
  · exact h.unpark c _ _
  · exact h.goto c (by simp)
  · exact h

theorem Inv.pop (h : Inv s) (c : Nat) (bWait : Bool) (verdict : Bool × Bool) (place : Place)
    (hplace : s.placeOf c = some place) : Inv (s.pop c bWait verdict place) := by
  unfold State.pop
  split
  · exact h.goto c (by simp)
  · split
    · exact h.goto c (by simp)
    · split <;> exact h.goto c (by simp)
  · exact h.popStep c _ _
  · rename_i side ptr
    exact h.notifyStep c _ side fun hs => (h.popped c ptr (hs ▸ hplace)).1
  · exact h.goto c (by split <;> simp)
  · exact (h.setWait _).goto c (by simp)
  · split
    · exact (h.setWait _).goto c (by simp)
    · exact h.goto c (by simp)
  · exact h.enqueuePop c verdict
  · exact h.unpark c _ _
  · exact h.goto c (by simp)
  · exact h

/-! ### Every step -/

/-- Nobody closes the channel. -/
def NoClose (s : State T) : Prop := ∀ c, s.opOf c ≠ some .close

theorem NoClose.step (h : NoClose s) {a : Action T} (hok : Undisturbed s a) :
    NoClose (CAS.step s a) := by
  intro c hc
  cases a with
  | call op bWait =>
    simp only [CAS.step, State.opOf, List.getElem?_append] at hc
    split at hc
    · exact h c hc
    · cases hk : c - s.calls.length with
      | zero =>
        rw [hk] at hc
        cases Option.some.inj hc
        exact hok
      | succ n => simp [hk] at hc
  | step c' verdict =>
    rw [CAS.step, opOf_step] at hc
    exact h c hc
  | spurious c' =>
    rw [CAS.step, opOf_goto] at hc
    exact h c hc
  | expire c' =>
    simp only [CAS.step] at hc
    split at hc
    · rw [opOf_setCond] at hc
      exact h c hc
    · exact h c hc

theorem Inv.step (h : Inv s) (hn : NoClose s) {a : Action T} (he : Enabled s a = true)
    (hok : Undisturbed s a) : Inv (CAS.step s a) := by
  cases a with
  | call op bWait =>
    refine h.of_wq rfl rfl rfl fun c ptr hplace => ?_
    simp only [CAS.step, State.placeOf, List.getElem?_append] at hplace
    split at hplace
    · exact hplace
    · cases hk : c - s.calls.length with
      | zero => simp [hk] at hplace
      | succ n => simp [hk] at hplace
  | step c verdict =>
    simp only [CAS.step]
    unfold State.step
    split
    · exact h
    · rename_i call hcall
      have hplace : s.placeOf c = some call.place := by simp [State.placeOf, hcall]
      split
      · rename_i t hop
        have hside : s.side c = .writer := by simp [State.side, hcall, hop]
        rw [show verdict = (true, true) from hok hside]
        refine h.push c t call.bWait call.place hplace fun hq => ?_
        simp only [Enabled, hcall, Option.map_some, hq, hside, State.cond] at he
        exact of_decide_eq_true he
      · exact h.pop c call.bWait verdict call.place hplace
      · rename_i hop
        exact absurd (by simp [State.opOf, hcall, hop]) (hn c)
  | spurious c => exact h.goto c (by simp)
  | expire c =>
    simp only [CAS.step]
    split
    · rw [show s.side c = .reader from hok]
      exact h.of_wq rfl rfl rfl fun _ _ => id
    · exact h

theorem inv_of_run {capacity : Nat} (hcap : capacity ≠ 0 ∧ capacity < 2 ^ 64)
    (hr : Run (machine T) Undisturbed (State.initial capacity) s) : Inv s := by
  have hall : Inv s ∧ NoClose s := by
    refine hr.invariant (P := fun s => Inv s ∧ NoClose s)
      ⟨inv_initial hcap, fun c hc => by simp [State.opOf, State.initial] at hc⟩ ?_
    rintro t a u ⟨h, hn⟩ he hok hs
    cases hs
    exact ⟨h.step hn he hok, hn.step hok⟩
  exact hall.1

/-! ## The theorem -/

/-- A call that has not been queued yet fails or waits. -/
def TurnedAway (before after : Option Place) : Prop :=
  (∀ i, before ≠ some (.parked i)) ∧ (∀ side r, before ≠ some (.subtract side r)) ∧
    (∀ r, before ≠ some (.done r)) ∧
      ((∃ i, after = some (.parked i)) ∨ after = some (.subtract .writer false) ∨
        after = some (.done false))

/-- At most `capacity_` values are buffered, and a `Push` is turned away only when so many
are. -/
structure Admission (s : State T) : Prop where
  bound : s.buffered ≤ s.capacity
  turnedAway : ∀ c t verdict, s.opOf c = some (.push t) →
    TurnedAway (s.placeOf c) ((s.step c verdict).placeOf c) → s.capacity ≤ s.buffered

/-- Only the section under the lock of the queue turns a `Push` away. -/
theorem Inv.turnedAway (h : Inv s) {c : Nat} {t : T} {verdict : Bool × Bool} {q : Place} {bWait : Bool}
    (hq : s.placeOf c = some q)
    (htav : TurnedAway (some q) ((s.push c t bWait verdict q).placeOf c)) :
    q = .enqueue ∧ s.capacity ≤ s.wq.queue.count := by
  obtain ⟨hparked, hsubtract, hdone, hafter⟩ := htav
  have hcap := h.capacity.1
  have hgo : ∀ (s' : State T) (place : Place), s'.placeOf c = some q →
      (s'.goto c place).placeOf c = some place := fun s' place hs => placeOf_goto_self hs place
  cases q with
  | start => simp [State.push, h.opened, hgo s _ hq] at hafter
  | load =>
    simp only [State.push] at hafter
    split at hafter
    · simp [hgo s _ hq] at hafter
    · rw [if_neg (by simp [hcap]), hgo s _ hq] at hafter
      simp at hafter
  | pop side =>
    simp only [State.push, State.popStep] at hafter
    split at hafter
    · rw [hgo s _ hq] at hafter
      cases side <;> simp [State.notified] at hafter
    · rw [hgo _ _ (by rw [placeOf_setCond]; exact hq)] at hafter
      simp at hafter
  | notify side ptr =>
    simp only [State.push, State.notifyStep] at hafter
    split at hafter
    · simp [hq] at hafter
    · split at hafter
      · split at hafter
        · rw [hgo _ _ (by rw [placeOf_functor, placeOf_setCond]; exact hq)] at hafter
          cases side <;> simp [State.notified] at hafter
        · rw [hgo _ _ (by rw [placeOf_setCond]; exact hq)] at hafter
          simp at hafter
      · rw [hgo _ _ (by rw [placeOf_functor]; exact hq)] at hafter
        cases side <;> simp [State.notified] at hafter
  | again =>
    simp only [State.push] at hafter
    rw [if_neg (by simp [hcap]), hgo s _ hq] at hafter
    simp at hafter
  | subtract side r => exact absurd rfl (hsubtract side r)
  | cas wait =>
    simp only [State.push] at hafter
    split at hafter
    · rw [hgo _ _ (by rw [placeOf_setWait]; exact hq)] at hafter
      simp at hafter
    · rw [hgo s _ hq] at hafter
      simp at hafter
  | enqueue =>
    refine ⟨rfl, ?_⟩
    simp only [State.push, State.enqueuePush] at hafter
    rw [if_neg (by simp [h.opened])] at hafter
    split at hafter
    · rw [State.queued, hgo _ _ (by rw [placeOf_setCond]; exact hq)] at hafter
      simp at hafter
    · rename_i hge
      exact Nat.not_lt.1 hge
  | parked i => exact absurd rfl (hparked i)
  | resume => simp [State.push, h.opened, hgo s _ hq] at hafter
  | done r => exact absurd rfl (hdone r)

theorem Inv.admits (h : Inv s) : Admission s := by
  obtain ⟨buffered, waiting, hshape⟩ := h.shape
  have hbuffered : s.buffered = buffered.length := hshape.buffered_eq
  refine ⟨by rw [hbuffered]; exact hshape.room, fun c t verdict hop htav => ?_⟩
  obtain ⟨call, hcall, hcop⟩ := Option.map_eq_some_iff.1 hop
  have hq : s.placeOf c = some call.place := by simp [State.placeOf, hcall]
  have hstep : s.step c verdict = s.push c t call.bWait verdict call.place := by
    simp [State.step, hcall, hcop]
  rw [hq, hstep] at htav
  obtain ⟨-, hge⟩ := h.turnedAway hq htav
  have hlen : s.wq.queue.count = buffered.length + waiting.length := by
    rw [hshape.count, hshape.nodes, List.length_append]
  rw [hbuffered]
  cases waiting with
  | nil =>
    simp only [List.length_nil] at hlen
    omega
  | cons p rest => exact (hshape.full (by simp)).ge

/-- In every run on an open channel in which no writer times out and nothing is evicted from the
queue of the writers, a `Push` is turned away only when `capacity_` values are buffered, and never
are there more. -/
theorem admission {capacity : Nat} (hcap : capacity ≠ 0 ∧ capacity < 2 ^ 64)
    (hr : Run (machine T) Undisturbed (State.initial capacity) s) : Admission s :=
  (inv_of_run hcap hr).admits

/-- Two values are pushed into a channel of capacity one, and the second one waits. -/
theorem admission_one : ∃ s, Run (machine Nat) Undisturbed (State.initial 1) s ∧
    (s.buffered = 1 ∧ s.placeOf 1 = some (.parked 1)) ∧ Admission s := by
  have hexec : ((machine Nat).exec Undisturbed (State.initial 1)
      (.call (.push 5) true :: List.replicate 5 (.step 0 (true, true)) ++
        .call (.push 6) true :: List.replicate 4 (.step 1 (true, true)))).any
      (fun s => s.buffered = 1 && s.placeOf 1 = some (.parked 1)) = true := by decide +kernel
  obtain ⟨s, hr, hs⟩ := Run.exists_of_exec hexec
  exact ⟨s, hr, by simpa using hs, admission (by decide) hr⟩

/-- A writer has timed out.  The value before it is popped, and a `TryPush` fails on the empty
channel. -/
theorem refused_when_empty : ¬ ∀ s, Run (machine Nat) anyAction (State.initial 1) s →
    (∀ c, s.opOf c ≠ some .close) → Admission s := by
  intro hall
  have hexec : ((machine Nat).exec anyAction (State.initial 1)
      (.call (.push 5) true :: List.replicate 5 (.step 0 (true, true)) ++
        .call (.push 6) true :: List.replicate 4 (.step 1 (true, true)) ++
        .expire 1 :: List.replicate 2 (.step 1 (true, true)) ++
        .call .pop true :: List.replicate 5 (.step 2 (true, true)) ++
        .call (.push 7) false :: List.replicate 3 (.step 3 (true, true)))).any
      (fun s => s.buffered = 0 && s.capacity = 1 && s.calls.length = 4 &&
        s.placeOf 3 = some .enqueue && s.calls.all (fun call => call.op ≠ .close) &&
        s.opOf 3 = some (.push 7) &&
        (s.step 3 (true, true)).placeOf 3 = some (.subtract .writer false)) = true := by
    decide +kernel
  obtain ⟨s, hr, hs⟩ := Run.exists_of_exec hexec
  simp only [Bool.and_eq_true, decide_eq_true_eq] at hs
  obtain ⟨⟨⟨⟨⟨⟨hbuffered, hcap⟩, -⟩, hplace⟩, hops⟩, hop⟩, hafter⟩ := hs
  have hopen : ∀ c, s.opOf c ≠ some .close := by
    intro c hc
    obtain ⟨call, hcall, hclose⟩ := Option.map_eq_some_iff.1 hc
    have := List.all_eq_true.1 hops call (List.mem_of_getElem? hcall)
    simp [hclose] at this
  have hle := (hall s hr hopen).turnedAway 3 7 (true, true) hop
    ⟨by simp [hplace], by simp [hplace], by simp [hplace], .inr (.inl hafter)⟩
  omega

end Costream.Sync.CAS
