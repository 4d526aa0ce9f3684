import Costream.Timer.Abs

/-!
# What the clients do

`refines_startTimer`, `refines_stopTimer`, `refines_copyId`, `refines_dropId`,
`refines_setPoolSize` and `refines_tick` treat the actions of the clients and
the progress of the clock.
-/

namespace Costream.Timer

open Trace

variable {F : Type*}

section Actions

variable [Inhabited F] {cfg : Config} {st : Ptr → Stage} {ν : Nat → Ptr}
  {s : State F} {p : Ptr} {e : Element F}

/-! ## `TimerId`s -/

section Ids

variable {id : TimerId}

omit [Inhabited F] in
/-- A `TimerId` refers to an element that is in use. -/
theorem Life.of_id (h : Life st ν s) (hid : id ∈ s.ids) :
    ∃ e, s.heap id.elem = some e ∧ id ∈ s.idsOf id.elem ∧
      st id.elem ≠ .queued .pool ∧ st id.elem ≠ .gone := by
  have hmem : id ∈ s.idsOf id.elem := List.mem_filter.2 ⟨hid, by simp⟩
  have hp := h.here id.elem
  have hne : ¬ (st id.elem = .gone ∨ st id.elem = .queued .pool) := fun hx => by
    rw [hp.unnamed hx] at hmem
    exact List.not_mem_nil hmem
  obtain ⟨h1, h2⟩ := not_or.1 hne
  cases he : s.heap id.elem with
  | none => exact absurd (hp.gone.1 he) h1
  | some e => exact ⟨e, rfl, hmem, h2, h1⟩

theorem filter_erase_of_ne (ids : List TimerId) {p' : Ptr} (hne : p' ≠ id.elem) :
    (ids.erase id).filter (·.elem = p') = ids.filter (·.elem = p') := by
  rw [← List.erase_filter]
  refine List.erase_of_not_mem fun hmem => hne ?_
  have := (List.mem_filter.1 hmem).2
  simp only [decide_eq_true_eq] at this
  exact this.symm

theorem refines_copyId (h : Life st ν s) (hid : id ∈ s.ids) :
    Refines cfg s (.copyId id) := by
  obtain ⟨e, he, hmem, hpool, hgone⟩ := h.of_id hid
  have hp := h.here id.elem
  have hf := hp.fits e he
  let e' := { e with reference := e.reference + 1 }
  let S : State F := { s.set id.elem e' with ids := id :: s.ids }
  have hids : S.idsOf id.elem = id :: s.idsOf id.elem := by
    simp [S, State.idsOf]
  have hheap : S.heap id.elem = some e' := by simp [S, State.set]
  have ht : Touches ν id.elem s S :=
    { count := fun _ _ _ => rfl
      heap := fun p' hne => by simp [S, State.set, hne]
      ids := fun p' hne => by simp [S, State.idsOf, hne.symm]
      running := fun _ _ => Iff.rfl
      called := fun _ _ => Iff.rfl
      brk := Nat.le_refl _
      started := Nat.le_refl _
      log := Or.inl rfl }
  have hhere : Here ν S id.elem (st id.elem) := by
    refine ⟨hp.count, by simp [hheap, hgone], ?_, ?_, hp.running, hp.called, hp.fresh⟩
    · intro _ he'
      cases hheap.symm.trans he'
      refine ⟨?_, ?_, hf.started, hf.home, ?_, hf.agrees⟩
      · rw [hids, List.length_cons]
        have := hf.reference
        simp only [e']
        omega
      · intro _
        simp [hids]
      · intro id' hid'
        rw [hids] at hid'
        rcases List.mem_cons.1 hid' with rfl | hid'
        · exact hf.named _ hmem
        · exact hf.named _ hid'
    · rintro (hx | hx)
      · exact absurd hx hgone
      · exact absurd hx hpool
  refine ⟨S, ?_, ⟨_, ν, Life.of_off (h.off ht fun _ _ => rfl) hhere h.told h.consistent
    h.lists⟩, Or.inl ?_⟩
  · simp only [machine, State.copyId, State.incrementRef_eq he]
    rfl
  · have hpend := pending_same h ht fun q => by
      ext y
      simp [State.entryAt, he, S, State.set, e']
    exact Service.ext rfl rfl rfl rfl hpend rfl

/-- A `TimerId` is given up: the element loses one reference, and with the last
one it goes. -/
theorem Life.unname (h : Life st ν s) (hid : id ∈ s.ids)
    (he : s.heap id.elem = some e) {log : List (Event F)}
    (hlog : log = s.log ∨ log = .stopped id.serial false :: s.log)
    (hc : Consistent log) :
    (∃ st', Life st' ν
      ({ s with ids := s.ids.erase id, log := log }.leave id.elem e)) ∧
    ({ s with ids := s.ids.erase id, log := log }.leave id.elem e).abs.pending =
      s.abs.pending := by
  obtain ⟨e₀, he₀, hmem, hpool, hgone⟩ := h.of_id hid
  obtain rfl : e₀ = e := Option.some.inj (he₀.symm.trans he)
  have hp := h.here id.elem
  have hf := hp.fits e₀ he
  let S : State F := { s with ids := s.ids.erase id, log := log }
  have hlt : id.serial < s.started := by
    rw [hf.named id hmem]
    exact hf.started hpool
  have hids : S.idsOf id.elem = (s.idsOf id.elem).erase id :=
    (List.erase_filter).symm
  have hlen : (S.idsOf id.elem).length + 1 = (s.idsOf id.elem).length := by
    have := List.length_pos_of_mem hmem
    rw [hids, List.length_erase_of_mem hmem]
    omega
  have hnamed : ∀ id' ∈ S.idsOf id.elem, id'.serial = e₀.serial := by
    intro id' hid'
    rw [hids] at hid'
    exact hf.named id' (List.mem_of_mem_erase hid')
  have ht : Touches ν id.elem s S :=
    { count := fun _ _ _ => rfl
      heap := fun _ _ => rfl
      ids := fun p' hne => filter_erase_of_ne s.ids hne
      running := fun _ _ => Iff.rfl
      called := fun _ _ => Iff.rfl
      brk := Nat.le_refl _
      started := Nat.le_refl _
      log := by
        rcases hlog with hlog | hlog
        · exact Or.inl hlog
        · refine Or.inr ⟨_, hlog, hlt, ?_⟩
          rw [Event.serial, hf.named id hmem]
          exact hf.home hpool }
  have hagrees : (st id.elem).Agrees log e₀ := by
    refine hf.agrees.frame (fun _ => ?_) (fun _ => ?_) <;>
    · rcases hlog with rfl | rfl <;> simp
  have htold : ∀ ev ∈ log, ev.serial < s.started := by
    intro ev hev
    rcases hlog with rfl | rfl
    · exact h.told ev hev
    · rcases List.mem_cons.1 hev with rfl | hev
      · exact hlt
      · exact h.told ev hev
  have hsame : S.abs.pending = s.abs.pending := pending_same h ht fun _ => rfl
  have href := hf.reference
  have hbrk : id.elem < s.brk := by
    by_contra hge
    exact hgone (hp.fresh (Nat.not_lt.1 hge))
  by_cases hx : st id.elem = .fired ∨ st id.elem = .cancelled
  · -- only `TimerId`s are left
    have hrefs : (st id.elem).refs = 0 := by rcases hx with hx | hx <;> rw [hx] <;> rfl
    have hlinks : ∀ q, (st id.elem).links q = 0 := by
      rcases hx with hx | hx <;> rw [hx] <;> exact fun _ => rfl
    have hcount : ∀ q, (S.queue q).count id.elem = 0 := fun q => by
      rw [← hlinks q]
      exact hp.count q
    refine ⟨?_, (pending_leave hcount).trans hsame⟩
    obtain ⟨x', hlife⟩ := Life.leave (h.off ht fun _ _ => rfl) hcount
      (by rw [hf.reference, hrefs, ← hlen]; push_cast; ring)
      (fun hr => by rcases hx with hx | hx <;> rw [hp.running.1 hr] at hx <;> cases hx)
      (fun hr => by rcases hx with hx | hx <;> rw [hp.called.1 hr] at hx <;> cases hx)
      hbrk hx (hf.started hpool) (hf.home hpool) hnamed hagrees htold hc h.lists
    exact ⟨_, hlife⟩
  · have hrefs : 0 < (st id.elem).refs := by
      rw [not_or] at hx
      revert hgone hx
      cases st id.elem <;> simp [Stage.refs]
    have hne : e₀.reference ≠ 1 := by omega
    have hleave : S.leave id.elem e₀ =
        S.set id.elem { e₀ with reference := e₀.reference - 1 } := if_neg hne
    have ht' : Touches ν id.elem s (S.leave id.elem e₀) := by
      rw [hleave]
      exact { ht with heap := fun p' hne => by simp [S, State.set, hne] }
    refine ⟨⟨_, Life.of_off (x := st id.elem) (h.off ht' fun _ _ => rfl) ?_ ?_ ?_ ?_⟩, ?_⟩
    · rw [hleave]
      refine ⟨hp.count, by simp [State.set, hgone], ?_, ?_, hp.running, hp.called, hp.fresh⟩
      · intro e' he'
        obtain rfl : { e₀ with reference := e₀.reference - 1 } = e' := by
          simpa [State.set] using he'
        refine ⟨?_, fun h' => absurd h' hx, hf.started, hf.home, hnamed, hagrees⟩
        change e₀.reference - 1 = ((S.idsOf id.elem).length : Int) + _
        omega
      · rintro (h' | h')
        · exact absurd h' hgone
        · exact absurd h' hpool
    · simpa using htold
    · simpa using hc
    · rw [hleave]
      exact h.lists
    · refine pending_same h ht' fun q => ?_
      rw [hleave]
      ext y
      simp [State.entryAt, State.set, S, he]

theorem refines_dropId (h : Life st ν s) (hid : id ∈ s.ids) :
    Refines cfg s (.dropId id) := by
  obtain ⟨e, he, -⟩ := h.of_id hid
  obtain ⟨⟨st', hlife⟩, hpend⟩ := h.unname hid he (Or.inl rfl) h.consistent
  refine ⟨_, ?_, ⟨st', ν, hlife⟩, Or.inl (Service.ext ?_ ?_ ?_ ?_ hpend ?_)⟩
  · simp only [machine, State.dropId, State.decrementRef_leave he]
    simpa using State.leave_with s id.elem e (s.ids.erase id) s.log s.loop
  all_goals simp [State.abs]

theorem cancel_held (he : s.heap p = some e) (ha : e.active = true) :
    s.cancel p = some (s, false) := by
  simp [State.cancel, he, ha]

theorem cancel_slot (he : s.heap p = some e) (ha : e.active = false) {r : SlotRef}
    (hs : e.slot = some r) (hq : p ∈ s.queue (.slot r)) (h1 : e.reference ≠ 1)
    (h2 : e.reference ≠ 2) :
    s.cancel p = some ((s.setQueue (.slot r) ((s.queue (.slot r)).erase p)).set p
      { e with active := true, reference := e.reference - 2 }, true) := by
  obtain ⟨cb, active, tp, slot, reference, serial⟩ := e
  obtain rfl : active = false := ha
  obtain rfl : slot = some r := hs
  have h1 : reference ≠ 1 := h1
  have h2 : reference ≠ 2 := h2
  let S : State F := s.setQueue (.slot r) ((s.queue (.slot r)).erase p)
  have herase : (s.set p ⟨cb, true, tp, some r, reference, serial⟩).erase (.slot r) p =
      some (S.set p ⟨cb, true, tp, some r, reference - 1, serial⟩) := by
    rw [State.erase_eq (e := ⟨cb, true, tp, some r, reference, serial⟩)
      (s := s.set p ⟨cb, true, tp, some r, reference, serial⟩) hq (by simp [State.set]) h1]
    simp [S, State.set, State.setQueue]
  have hdec : (S.set p ⟨cb, true, tp, some r, reference - 1, serial⟩).decrementRef p =
      some (S.set p ⟨cb, true, tp, some r, reference - 2, serial⟩) := by
    have hne : reference - 1 ≠ 1 := fun h => h2 (by omega)
    have hsub : reference - 1 - 1 = reference - 2 := by omega
    rw [State.decrementRef_eq (e := ⟨cb, true, tp, some r, reference - 1, serial⟩)
      (by simp [State.set]) hne, State.set_set, hsub]
  simp only [State.cancel, he, Bool.false_eq_true, if_false, Option.bind_eq_bind,
    Option.bind_some]
  rw [herase, Option.bind_some, hdec]
  rfl

theorem cancel_complete (he : s.heap p = some e) (ha : e.active = false)
    (hs : e.slot = none) (h1 : e.reference ≠ 1) :
    s.cancel p = some (s.set p { e with active := true, reference := e.reference - 1 },
      true) := by
  obtain ⟨cb, active, tp, slot, reference, serial⟩ := e
  obtain rfl : active = false := ha
  obtain rfl : slot = none := hs
  have hdec := State.decrementRef_eq (e := ⟨cb, true, tp, none, reference, serial⟩) (p := p)
    (s := s.set p ⟨cb, true, tp, none, reference, serial⟩) (by simp [State.set]) h1
  rw [State.set_set] at hdec
  simp only [State.cancel, he, Bool.false_eq_true, if_false, Option.bind_eq_bind,
    Option.bind_some]
  rw [hdec]
  rfl

/-- After `cancel`, `StopTimer` gives up the `TimerId`. -/
theorem stopTimer_eq {s₁ : State F} {ret : Bool}
    (hc : s.cancel id.elem = some (s₁, ret)) (he : s₁.heap id.elem = some e) :
    s.stopTimer id = some ({ s₁ with
      ids := s₁.ids.erase id
      log := .stopped id.serial ret :: s₁.log }.leave id.elem e) := by
  simp only [State.stopTimer, hc, Option.bind_eq_bind, Option.bind_some,
    State.decrementRef_leave he]
  simpa using State.leave_with s₁ id.elem e (s₁.ids.erase id)
    (.stopped id.serial ret :: s₁.log) s₁.loop

/-- `StopTimer` on a timer that is running, or has been cancelled. -/
theorem refines_stop_held (h : Life st ν s) (hid : id ∈ s.ids)
    (he : s.heap id.elem = some e) (ha : e.active = true) :
    Refines cfg s (.stopTimer id) := by
  obtain ⟨e₀, he₀, hmem, hpool, hgone⟩ := h.of_id hid
  obtain rfl : e₀ = e := Option.some.inj (he₀.symm.trans he)
  have hf := (h.here id.elem).fits e₀ he
  have hdone : Fired s.log id.serial ∨ Stopped s.log id.serial := by
    rw [hf.named id hmem]
    have := hf.agrees
    cases hx : st id.elem <;> rw [hx] at this hpool hgone
    case gone => exact absurd rfl hgone
    case queued q =>
      have hact := ((Stage.agrees_queued fun hq => hpool (by rw [hq])).1 this).1
      rw [ha] at hact
      cases hact
    case running => exact Or.inl this.2.1
    case struck | cancelled => exact Or.inr this.2.2
    case called | fired => exact Or.inl this.2.1
  have hc : Consistent (.stopped id.serial false :: s.log) := by
    refine ⟨⟨fun hfalse => (Bool.false_ne_true hfalse).elim, ?_⟩, h.consistent⟩
    rintro ⟨hnf, hns⟩
    exact (hdone.elim hnf hns).elim
  obtain ⟨⟨st', hlife⟩, hpend⟩ := h.unname hid he (Or.inr rfl) hc
  refine ⟨_, ?_, ⟨st', ν, hlife⟩, Or.inr ⟨.client, by simp [ActLabel], ?_⟩⟩
  · exact stopTimer_eq (cancel_held he ha) he
  · have habs : ({ s with ids := s.ids.erase id, log := .stopped id.serial false :: s.log
        }.leave id.elem e₀).abs = s.abs.record (.stopped id.serial false) :=
      Service.ext (by simp [State.abs, Service.record]) (by simp [State.abs, Service.record])
        (by simp [State.abs, Service.record]) (by simp [State.abs, Service.record]) hpend
        (by simp [State.abs, Service.record])
    rw [habs]
    exact .refuse

/-- `StopTimer` on a timer in its slot. -/
theorem refines_stop_slot (h : Life st ν s) (hid : id ∈ s.ids)
    (he : s.heap id.elem = some e) (ha : e.active = false) {r : SlotRef}
    (hs : e.slot = some r) (hq : id.elem ∈ s.queue (.slot r)) :
    Refines cfg s (.stopTimer id) := by
  obtain ⟨e₀, he₀, hmem, hpool, hgone⟩ := h.of_id hid
  obtain rfl : e₀ = e := Option.some.inj (he₀.symm.trans he)
  have hp := h.here id.elem
  have hf := hp.fits e₀ he
  have hst : st id.elem = .queued (.slot r) := by
    rw [hp.mem_iff] at hq
    cases hx : st id.elem <;> simp_all [Stage.links]
  rw [hst] at hp hf
  have hserial := hf.named id hmem
  obtain ⟨-, -, -, hnf, hns⟩ := (Stage.agrees_queued (by simp)).1 hf.agrees
  let e' := { e₀ with active := true, reference := e₀.reference - 2 }
  let S₀ : State F :=
    (s.setQueue (.slot r) ((s.queue (.slot r)).erase id.elem)).set id.elem e'
  let S : State F :=
    { S₀ with ids := S₀.ids.erase id, log := .stopped id.serial true :: S₀.log }
  have hids : S.idsOf id.elem = (s.idsOf id.elem).erase id := (List.erase_filter).symm
  have hpos := List.length_pos_of_mem hmem
  have hlen : (S.idsOf id.elem).length + 1 = (s.idsOf id.elem).length := by
    rw [hids, List.length_erase_of_mem hmem]
    omega
  have href : e₀.reference = (s.idsOf id.elem).length + 2 := hf.reference
  have hheap : S₀.heap id.elem = some e' := by simp [S₀, State.set]
  have hcount : ∀ q, (S.queue q).count id.elem = 0 := by
    intro q
    by_cases hqr : q = .slot r
    · subst hqr
      have := hp.count (.slot r)
      simp only [Stage.links, if_true] at this
      simp [S, S₀, State.set, State.setQueue, this]
    · have := hp.count q
      simp only [Stage.links, hqr, if_false] at this
      simpa [S, S₀, State.set, State.setQueue, hqr] using this
  have ht : Touches ν id.elem s S :=
    { count := fun p' hne q => by
        by_cases hqr : q = .slot r
        · subst hqr
          simp [S, S₀, State.set, State.setQueue, List.count_erase_of_ne hne]
        · simp [S, S₀, State.set, State.setQueue, hqr]
      heap := fun p' hne => by simp [S, S₀, State.set, State.setQueue, hne]
      ids := fun p' hne => filter_erase_of_ne s.ids hne
      running := fun _ _ => Iff.rfl
      called := fun _ _ => Iff.rfl
      brk := Nat.le_refl _
      started := Nat.le_refl _
      log := Or.inr ⟨_, rfl, by rw [Event.serial, hserial]; exact hf.started (by simp),
        by rw [Event.serial, hserial]; exact hf.home (by simp)⟩ }
  have hlists : S.ListsOk := by
    have := h.lists
    simpa [State.ListsOk, S, S₀, State.set, State.setQueue] using this
  have hstopped : Stopped (.stopped id.serial true :: s.log) e₀.serial := by
    rw [← hserial]
    exact stopped_cons_self
  obtain ⟨x', hlife⟩ := Life.leave (e := e') (x := .cancelled) (h.off ht fun _ _ => rfl)
    hcount (by simp only [e']; omega)
    (fun hr => by have := hp.running.1 hr; cases this)
    (fun hr => by have := hp.called.1 hr; cases this)
    (by by_contra hge; exact hgone (by rw [hst, hp.fresh (Nat.not_lt.1 hge)]))
    (Or.inr rfl) (hf.started (by simp)) (hf.home (by simp))
    (fun id' hid' => by
      rw [hids] at hid'
      exact hf.named id' (List.mem_of_mem_erase hid'))
    ⟨rfl, fired_cons_stopped.not.2 hnf, hstopped⟩
    (fun ev hev => by
      rcases List.mem_cons.1 hev with rfl | hev
      · rw [Event.serial, hserial]
        exact hf.started (by simp)
      · exact h.told ev hev)
    ⟨⟨fun _ => by rw [hserial]; exact ⟨hnf, hns⟩, fun _ => rfl⟩, h.consistent⟩ hlists
  refine ⟨S.leave id.elem e', ?_, ⟨_, ν, hlife⟩, Or.inr ⟨.client, by simp [ActLabel], ?_⟩⟩
  · exact stopTimer_eq (cancel_slot he ha hs hq (by omega) (by omega)) hheap
  · have hpend : (S.leave id.elem e').abs.pending =
        (s.abs.take (.slot r) ⟨e₀.serial, e₀.tp⟩).pending := by
      rw [pending_leave hcount]
      refine pending_take h ht (entryAt_queued hp (by simp) he) ?_
      intro q
      refine Set.eq_empty_of_forall_notMem ?_
      rintro y ⟨-, hmem', -⟩
      rw [← List.count_pos_iff, hcount] at hmem'
      exact absurd hmem' (Nat.lt_irrefl 0)
    have habs : (S.leave id.elem e').abs =
        (s.abs.record (.stopped e₀.serial true)).take (.slot r) ⟨e₀.serial, e₀.tp⟩ :=
      Service.ext (by simp [State.abs, Service.record, Service.take, S, S₀, State.set, State.setQueue])
        (by simp [State.abs, Service.record, Service.take, S, S₀, State.set, State.setQueue])
        (by simp [State.abs, Service.record, Service.take, S, S₀, State.set, State.setQueue])
        (by simp [State.abs, Service.record, Service.take, S, S₀, State.set, State.setQueue])
        hpend
        (by simp [State.abs, Service.record, Service.take, S, S₀, State.set, State.setQueue,
          hserial])
    rw [habs]
    refine .cancel (Or.inr ⟨r, rfl⟩) ⟨id.elem, ?_⟩
    rw [entryAt_queued hp (by simp) he]
    simp

/-- `StopTimer` on a timer in `completeSlot_`: the element stays there. -/
theorem refines_stop_complete (h : Life st ν s) (hid : id ∈ s.ids)
    (he : s.heap id.elem = some e) (ha : e.active = false) (hs : e.slot = none)
    (hq : id.elem ∈ s.queue .complete) : Refines cfg s (.stopTimer id) := by
  obtain ⟨e₀, he₀, hmem, hpool, hgone⟩ := h.of_id hid
  obtain rfl : e₀ = e := Option.some.inj (he₀.symm.trans he)
  have hp := h.here id.elem
  have hf := hp.fits e₀ he
  have hst : st id.elem = .queued .complete := by
    rw [hp.mem_iff] at hq
    have hagr := hf.agrees
    cases hx : st id.elem <;> simp_all [Stage.links, Stage.Agrees]
  rw [hst] at hp hf
  have hserial := hf.named id hmem
  obtain ⟨-, -, -, hnf, hns⟩ := (Stage.agrees_queued (by simp)).1 hf.agrees
  let e₁ := { e₀ with active := true, reference := e₀.reference - 1 }
  let e' := { e₀ with active := true, reference := e₀.reference - 2 }
  let S₁ : State F := { s.set id.elem e₁ with
    ids := s.ids.erase id
    log := .stopped id.serial true :: s.log }
  let S : State F := { s.set id.elem e' with
    ids := s.ids.erase id
    log := .stopped id.serial true :: s.log }
  have hids : S.idsOf id.elem = (s.idsOf id.elem).erase id := (List.erase_filter).symm
  have hpos := List.length_pos_of_mem hmem
  have hlen : (S.idsOf id.elem).length + 1 = (s.idsOf id.elem).length := by
    rw [hids, List.length_erase_of_mem hmem]
    omega
  have href : e₀.reference = (s.idsOf id.elem).length + 2 := hf.reference
  have hleave : S₁.leave id.elem e₁ = S := by
    have hne : e₁.reference ≠ 1 := by simp only [e₁]; omega
    rw [State.leave, if_neg hne]
    simp only [S₁, S, State.set, Function.update_idem, e₁, e']
    have hsub : e₀.reference - 1 - 1 = e₀.reference - 2 := by omega
    rw [hsub]
  have hheap : S.heap id.elem = some e' := by simp [S, State.set]
  have hstopped : Stopped (.stopped id.serial true :: s.log) e₀.serial := by
    rw [← hserial]
    exact stopped_cons_self
  have ht : Touches ν id.elem s S :=
    { count := fun _ _ _ => rfl
      heap := fun p' hne => by simp [S, State.set, hne]
      ids := fun p' hne => filter_erase_of_ne s.ids hne
      running := fun _ _ => Iff.rfl
      called := fun _ _ => Iff.rfl
      brk := Nat.le_refl _
      started := Nat.le_refl _
      log := Or.inr ⟨_, rfl, by rw [Event.serial, hserial]; exact hf.started (by simp),
        by rw [Event.serial, hserial]; exact hf.home (by simp)⟩ }
  have hhere : Here ν S id.elem .struck := by
    refine ⟨fun q => ?_, by simp [hheap], ?_, by simp, ?_, ?_, ?_⟩
    · change (s.queue q).count id.elem = _
      rw [hp.count q]
      simp [Stage.links]
    · intro _ he'
      cases hheap.symm.trans he'
      refine ⟨?_, by simp, fun _ => hf.started (by simp), fun _ => hf.home (by simp), ?_,
        rfl, fired_cons_stopped.not.2 hnf, hstopped⟩
      · simp only [e', Stage.refs]
        omega
      · intro id' hid'
        rw [hids] at hid'
        exact hf.named id' (List.mem_of_mem_erase hid')
    · exact iff_of_false (mt hp.running.1 (by simp)) (by simp)
    · exact iff_of_false (mt hp.called.1 (by simp)) (by simp)
    · exact fun hb => absurd (hp.fresh hb) (by simp)
  refine ⟨S, ?_, ⟨_, ν, Life.of_off (h.off ht fun _ _ => rfl) hhere ?_ ?_ h.lists⟩,
    Or.inr ⟨.client, by simp [ActLabel], ?_⟩⟩
  · rw [← hleave]
    exact stopTimer_eq (cancel_complete he ha hs (by omega)) (by simp [State.set, e₁])
  · intro ev hev
    rcases List.mem_cons.1 hev with rfl | hev
    · rw [Event.serial, hserial]
      exact hf.started (by simp)
    · exact h.told ev hev
  · exact ⟨⟨fun _ => by rw [hserial]; exact ⟨hnf, hns⟩, fun _ => rfl⟩, h.consistent⟩
  · have hpend := pending_take h ht (entryAt_queued hp (by simp) he)
      (entryAt_other hhere (by simp))
    have habs : S.abs = (s.abs.record (.stopped e₀.serial true)).take .complete
        ⟨e₀.serial, e₀.tp⟩ :=
      Service.ext rfl rfl rfl rfl hpend (by simp [State.abs, Service.record, Service.take, S, hserial])
    rw [habs]
    refine .cancel (Or.inl rfl) ⟨id.elem, ?_⟩
    rw [entryAt_queued hp (by simp) he]
    simp

theorem refines_stopTimer (h : Life st ν s) (hid : id ∈ s.ids)
    (ht : s.StopInTime id.elem) : Refines cfg s (.stopTimer id) := by
  obtain ⟨e, he, -⟩ := h.of_id hid
  rw [State.StopInTime, he] at ht
  cases ha : e.active with
  | true => exact refines_stop_held h hid he ha
  | false =>
    have hlink := ht.resolve_left (by simp [ha])
    cases hs : e.slot with
    | some r =>
      rw [State.queueOf, hs] at hlink
      exact refines_stop_slot h hid he ha hs hlink
    | none =>
      rw [State.queueOf, hs] at hlink
      exact refines_stop_complete h hid he ha hs hlink

end Ids

/-! ## `StartTimer` -/

section Start

omit [Inhabited F] in
theorem dispatch_complete (he : s.heap p = some e) (hle : e.tp ≤ cfg.lastTime s.point) :
    s.dispatch cfg p false = some ((s.setQueue .complete (s.queue .complete ++ [p])).set p
      { e with reference := e.reference + 1 }) := by
  simp only [State.dispatch, he, Option.bind_eq_bind, Option.bind_some, hle, Bool.not_false,
    decide_true, Bool.and_self, if_true]
  exact State.push_eq he _

omit [Inhabited F] in
theorem dispatch_slot (he : s.heap p = some e) {mainloop : Bool}
    (hlt : mainloop = true ∨ cfg.lastTime s.point < e.tp) :
    s.dispatch cfg p mainloop =
      some ((s.setQueue (.slot (place cfg s.point e.tp))
        (s.queue (.slot (place cfg s.point e.tp)) ++ [p])).set p
          { e with
            reference := e.reference + 1
            slot := some (place cfg s.point e.tp) }) := by
  have hcond : (!mainloop && decide (e.tp ≤ cfg.lastTime s.point)) = false := by
    rcases hlt with rfl | hlt
    · rfl
    · simp [hlt]
  simp only [State.dispatch, he, Option.bind_eq_bind, Option.bind_some, hcond,
    Bool.false_eq_true, if_false, State.push_eq he]
  simp [State.set]

/-- In `S`, address `p` holds an element that nothing refers to but the one who
has it in hand; otherwise `S` is `s`. -/
structure Taken (st : Ptr → Stage) (ν : Nat → Ptr) (s S : State F) (p : Ptr)
    (e : Element F) : Prop where
  heap : S.heap p = some e
  reference : e.reference = 1
  count : ∀ q, (S.queue q).count p = 0
  touches : Touches ν p s S
  ids : s.idsOf p = []
  stage : st p = .gone ∨ st p = .queued .pool
  lt_brk : p < S.brk
  queue : ∀ q, q ≠ .pool → S.queue q = s.queue q
  same : S.point = s.point ∧ S.clock = s.clock ∧ S.started = s.started ∧
    S.ids = s.ids ∧ S.log = s.log ∧ S.loop = s.loop

theorem newElement_pool (h : Life st ν s) {rest : List Ptr}
    (hpool : s.queue .pool = p :: rest) :
    ∃ S e, s.newElement = some (S, p) ∧ Taken st ν s S p e := by
  have hp := h.here p
  have hmem : p ∈ s.queue .pool := by rw [hpool]; exact List.mem_cons_self
  have hst : st p = .queued .pool := by
    rw [hp.mem_iff] at hmem
    cases hx : st p <;> simp_all [Stage.links]
  rw [hst] at hp
  obtain ⟨e, he⟩ := hp.allocated (by simp)
  have hids := hp.unnamed (Or.inr rfl)
  have href : e.reference = 2 := by
    have := (hp.fits e he).reference
    rwa [hids] at this
  let e' := { e with reference := e.reference - 1 }
  let S : State F := (s.setQueue .pool ((s.queue .pool).erase p)).set p e'
  refine ⟨S, e', ?_, ?_⟩
  · simp only [State.newElement, hpool]
    rw [State.erase_eq hmem he (by omega)]
    rfl
  · exact
      { heap := by simp [S, State.set]
        reference := by simp [e', href]
        count := fun q => by
          have := hp.count q
          by_cases hq : q = .pool
          · subst hq
            simp only [Stage.links, if_true] at this
            simp [S, State.set, State.setQueue, this]
          · simp only [Stage.links, hq, if_false] at this
            simpa [S, State.set, State.setQueue, hq] using this
        touches :=
          { count := fun p' hne q => by
              by_cases hq : q = .pool
              · subst hq
                simp [S, State.set, State.setQueue, List.count_erase_of_ne hne]
              · simp [S, State.set, State.setQueue, hq]
            heap := fun p' hne => by simp [S, State.set, State.setQueue, hne]
            ids := fun _ _ => rfl
            running := fun _ _ => Iff.rfl
            called := fun _ _ => Iff.rfl
            brk := Nat.le_refl _
            started := Nat.le_refl _
            log := Or.inl rfl }
        ids := hids
        stage := Or.inr hst
        lt_brk := hp.lt_brk (by simp)
        queue := fun q hq => by simp [S, State.set, State.setQueue, hq]
        same := ⟨rfl, rfl, rfl, rfl, rfl, rfl⟩ }

theorem newElement_nil (h : Life st ν s) (hpool : s.queue .pool = []) :
    ∃ e, s.newElement = some (s.allocate, s.brk) ∧ Taken st ν s s.allocate s.brk e := by
  have hp := h.here s.brk
  have hst := hp.fresh (Nat.le_refl _)
  refine ⟨⟨default, false, 0, none, 1, 0⟩, by simp only [State.newElement, hpool], ?_⟩
  exact
    { heap := by simp [State.allocate]
      reference := rfl
      count := fun q => by
        have := hp.count q
        rwa [hst] at this
      touches :=
        { count := fun _ _ _ => rfl
          heap := fun p' hne => by simp [State.allocate, hne]
          ids := fun _ _ => rfl
          running := fun _ _ => Iff.rfl
          called := fun _ _ => Iff.rfl
          brk := Nat.le_succ _
          started := Nat.le_refl _
          log := Or.inl rfl }
      ids := hp.unnamed (Or.inl hst)
      stage := Or.inl hst
      lt_brk := Nat.lt_succ_self _
      queue := fun _ _ => rfl
      same := ⟨rfl, rfl, rfl, rfl, rfl, rfl⟩ }

/-- `NewElement` gives an element that nothing else refers to. -/
theorem newElement_spec (h : Life st ν s) :
    ∃ S p e, s.newElement = some (S, p) ∧ Taken st ν s S p e := by
  cases hpool : s.queue .pool with
  | cons p rest =>
    obtain ⟨S, e, hS⟩ := newElement_pool h hpool
    exact ⟨S, p, e, hS⟩
  | nil =>
    obtain ⟨e, hS⟩ := newElement_nil h hpool
    exact ⟨_, _, e, hS⟩

/-- The element that `StartTimer` links in queue `q`. -/
def startedElement (s : State F) (tp : Int) (cb : F) (q : QueueRef) : Element F :=
  ⟨cb, false, tp, match q with | .slot r => some r | _ => none, 3, s.started⟩

/-- The state after `StartTimer` has linked the element at `p` in queue `q`. -/
def startedState (s S : State F) (p : Ptr) (tp : Int) (cb : F) (q : QueueRef) :
    State F :=
  { (S.setQueue q (s.queue q ++ [p])).set p (startedElement s tp cb q) with
    ids := ⟨p, s.started⟩ :: s.ids
    started := s.started + 1 }

theorem startTimer_eq {S : State F} {tp : Int} {cb : F}
    (hnew : s.newElement = some (S, p)) (hS : Taken st ν s S p e) :
    s.startTimer cfg tp cb =
      some (startedState s S p tp cb (s.abs.home cfg tp)) := by
  obtain ⟨hpoint, -, hstarted, hids, -, -⟩ := hS.same
  have hinit : S.init p cb tp = some (S.set p ⟨cb, false, tp, none, 1, s.started⟩) := by
    simp [State.init, hS.heap, hS.reference, hstarted]
  have hinc : (S.set p ⟨cb, false, tp, none, 1, s.started⟩).incrementRef p =
      some (S.set p ⟨cb, false, tp, none, 2, s.started⟩) := by
    rw [State.incrementRef_eq (e := ⟨cb, false, tp, none, 1, s.started⟩)
      (by simp [State.set]), State.set_set]
    rfl
  simp only [State.startTimer, hnew, Option.bind_eq_bind, Option.bind_some]
  rw [hinit, Option.bind_some, hinc, Option.bind_some]
  let D : State F := { S.set p ⟨cb, false, tp, none, 2, s.started⟩ with
    ids := ⟨p, S.started⟩ :: S.ids
    started := S.started + 1 }
  have hD : D.heap p = some ⟨cb, false, tp, none, 2, s.started⟩ := by
    simp [D, State.set]
  change D.dispatch cfg p false = _
  have hpoint' : D.point = s.point := hpoint
  by_cases hle : tp ≤ cfg.lastTime s.point
  · have hhome : s.abs.home cfg tp = .complete := if_pos hle
    rw [dispatch_complete hD (by rw [hpoint']; exact hle), hhome]
    simp [startedState, startedElement, D, State.set, State.setQueue, hstarted, hids,
      hS.queue .complete (by simp)]
  · have hhome : s.abs.home cfg tp = .slot (place cfg s.point tp) := if_neg hle
    rw [dispatch_slot hD (Or.inr (by rw [hpoint']; exact Int.not_le.1 hle)), hhome]
    simp [startedState, startedElement, D, State.set, State.setQueue, hstarted, hids,
      hpoint, hS.queue (.slot _) (by simp)]

theorem refines_startTimer (h : Life st ν s) {tp : Int} {cb : F} (htp : tp < 2 ^ 63) :
    Refines cfg s (.startTimer tp cb) := by
  obtain ⟨S₀, p, e, hnew, hS⟩ := newElement_spec h
  obtain ⟨hpoint, hclock, hstarted, hids, hlog, hloop⟩ := hS.same
  have hq : s.abs.home cfg tp = .complete ∨ ∃ r, s.abs.home cfg tp = .slot r := by
    rw [Service.home]
    split
    · exact Or.inl rfl
    · exact Or.inr ⟨_, rfl⟩
  generalize hhome : s.abs.home cfg tp = q at hq
  have hpool : q ≠ .pool := by rcases hq with rfl | ⟨r, rfl⟩ <;> simp
  let S := startedState s S₀ p tp cb q
  let e' := startedElement s tp cb q
  let ν' := Function.update ν s.started p
  have hν : ∀ n < s.started, ν' n = ν n := fun n hn =>
    Function.update_of_ne (Nat.ne_of_lt hn) _ _
  have hheap : S.heap p = some e' := by simp [S, startedState, State.set, e']
  have hidsOf : S.idsOf p = [⟨p, s.started⟩] := by
    have := hS.ids
    simp only [State.idsOf] at this
    simp [S, startedState, State.idsOf, this]
  have hunlogged : ¬ Fired s.log s.started ∧ ¬ Stopped s.log s.started := by
    refine ⟨?_, fun hev => Nat.lt_irrefl _ (h.told _ hev)⟩
    rintro ⟨_, _, _, hev⟩
    exact Nat.lt_irrefl _ (h.told _ hev)
  have hqueue : ∀ q', q' ≠ q → S.queue q' = S₀.queue q' := fun q' hne => by
    simp [S, startedState, State.set, State.setQueue, hne]
  have hqueue' : S.queue q = S₀.queue q ++ [p] := by
    simp [S, startedState, State.set, State.setQueue, hS.queue q hpool]
  have hcall : S.call? = s.call? := by
    simp [State.call?, S, startedState, State.set, State.setQueue, hloop]
  have ht : Touches ν p s S :=
    { count := fun p' hne q' => by
        rw [← hS.touches.count p' hne]
        by_cases hqq : q' = q
        · subst hqq
          simp [hqueue', hne.symm]
        · rw [hqueue q' hqq]
      heap := fun p' hne => by
        rw [← hS.touches.heap p' hne]
        simp [S, startedState, State.set, State.setQueue, hne]
      ids := fun p' hne => by simp [S, startedState, State.idsOf, hne.symm]
      running := fun _ _ => by rw [hcall]
      called := fun _ _ => by rw [hcall]
      brk := hS.touches.brk
      started := Nat.le_succ _
      log := Or.inl hlog }
  have hx : st p ≠ .running ∧ st p ≠ .called := by
    rcases hS.stage with hx | hx <;> rw [hx] <;> simp
  have hhere : Here ν' S p (.queued q) := by
    refine ⟨fun q' => ?_, by simp [hheap], ?_, by simp [hpool], ?_, ?_, ?_⟩
    · by_cases hqq : q' = q
      · subst hqq
        simp [hqueue', Stage.links, hS.count]
      · rw [hqueue q' hqq, hS.count]
        simp [Stage.links, hqq]
    · intro _ he'
      cases hheap.symm.trans he'
      refine ⟨?_, by simp, fun _ => Nat.lt_succ_self _, fun _ => Function.update_self _ _ _,
        ?_, ?_⟩
      · rw [hidsOf]
        rfl
      · intro id hid
        rw [hidsOf] at hid
        rw [List.mem_singleton.1 hid]
        rfl
      · rw [Stage.agrees_queued hpool]
        have hlogS : S.log = s.log := hlog
        rw [hlogS]
        refine ⟨rfl, ?_, ?_, hunlogged⟩
        · rintro r rfl
          rfl
        · rintro rfl
          rfl
    · rw [hcall, (h.here p).running]
      exact iff_of_false hx.1 (by simp)
    · rw [hcall, (h.here p).called]
      exact iff_of_false hx.2 (by simp)
    · exact fun hb => absurd hb (Nat.not_le.2 hS.lt_brk)
  have hlists : S.ListsOk := by
    have hsl : S.queue .slist = s.queue .slist := by
      rw [hqueue _ (by rcases hq with rfl | ⟨r, rfl⟩ <;> simp), hS.queue _ (by simp)]
    have hdl : S.queue .dispatchers = s.queue .dispatchers := by
      rw [hqueue _ (by rcases hq with rfl | ⟨r, rfl⟩ <;> simp), hS.queue _ (by simp)]
    have hl : S.loop = s.loop := hloop
    have := h.lists
    rwa [State.ListsOk, ← hsl, ← hdl, ← hl] at this
  refine ⟨S, ?_, ⟨_, ν', Life.of_off (h.off ht hν) hhere ?_ ?_ hlists⟩,
    Or.inr ⟨.start tp, ⟨cb, rfl⟩, ?_⟩⟩
  · have heq : s.startTimer cfg tp cb = some _ := startTimer_eq hnew hS
    rwa [hhome] at heq
  · intro ev hev
    have hev' : ev ∈ s.log := hlog ▸ hev
    exact Nat.lt_succ_of_lt (h.told ev hev')
  · have hlogS : S.log = s.log := hlog
    rw [hlogS]
    exact h.consistent
  · have hpend := pending_put h ht
      (entryAt_other (h.here p) (by rcases hS.stage with hx | hx <;> rw [hx] <;> simp))
      (entryAt_queued hhere hpool hheap)
    have habs : S.abs = { s.abs.put (s.abs.home cfg tp) ⟨s.started, tp⟩ with
        started := s.started + 1 } := by
      rw [hhome]
      exact Service.ext hpoint hclock rfl (by simp [State.abs, Service.put, S, startedState,
        State.set, State.setQueue, hloop]) hpend hlog
    rw [habs]
    exact .start htp

end Start

/-! ## `SetPoolSize` and the clock -/

section Pool

/-- A new element is pooled. -/
theorem fillPool_one (h : Life st ν s) :
    ∃ S, s.allocate.push .pool s.brk = some S ∧ (∃ st', Life st' ν S) ∧
      S.abs = s.abs := by
  have hp := h.here s.brk
  have hst := hp.fresh (Nat.le_refl _)
  rw [hst] at hp
  let e' : Element F := ⟨default, false, 0, none, 2, 0⟩
  let S : State F := (s.allocate.setQueue .pool (s.queue .pool ++ [s.brk])).set s.brk e'
  have hheap : S.heap s.brk = some e' := by simp [S, State.set]
  have ht : Touches ν s.brk s S :=
    { count := fun p' hne q => by
        by_cases hq : q = .pool
        · subst hq
          simp [S, State.set, State.setQueue, State.allocate, hne.symm]
        · simp [S, State.set, State.setQueue, State.allocate, hq]
      heap := fun p' hne => by simp [S, State.set, State.setQueue, State.allocate, hne]
      ids := fun _ _ => rfl
      running := fun _ _ => Iff.rfl
      called := fun _ _ => Iff.rfl
      brk := Nat.le_succ _
      started := Nat.le_refl _
      log := Or.inl rfl }
  have hhere : Here ν S s.brk (.queued .pool) := by
    refine ⟨fun q => ?_, by simp [hheap], ?_, fun _ => hp.unnamed (Or.inl rfl), ?_, ?_, ?_⟩
    · have := hp.count q
      by_cases hq : q = .pool
      · subst hq
        simp only [Stage.links] at this
        simp [S, State.set, State.setQueue, Stage.links, this]
      · simp only [Stage.links] at this
        simp [S, State.set, State.setQueue, State.allocate, Stage.links, hq, this]
    · intro _ he'
      cases hheap.symm.trans he'
      have hids : S.idsOf s.brk = [] := hp.unnamed (Or.inl rfl)
      exact ⟨by rw [hids]; rfl, by simp, by simp, by simp, by simp [hids], trivial⟩
    · exact iff_of_false (mt hp.running.1 (by simp)) (by simp)
    · exact iff_of_false (mt hp.called.1 (by simp)) (by simp)
    · exact fun hb => absurd hb (Nat.not_le.2 (Nat.lt_succ_self s.brk))
  refine ⟨S, ?_, ⟨_, Life.of_off (h.off ht fun _ _ => rfl) hhere h.told h.consistent ?_⟩, ?_⟩
  · rw [State.push_eq (e := ⟨default, false, 0, none, 1, 0⟩) (by simp [State.allocate])]
    rfl
  · have := h.lists
    simpa [State.ListsOk, S, State.set, State.setQueue, State.allocate] using this
  · have hpend := pending_same h ht fun q => by
      rw [entryAt_other hp (by simp), entryAt_other hhere (by simp)]
    exact Service.ext rfl rfl rfl rfl hpend rfl

theorem fillPool_spec (h : Life st ν s) (n : Nat) :
    ∃ S, s.fillPool n = some S ∧ (∃ st', Life st' ν S) ∧ S.abs = s.abs := by
  induction n generalizing s st with
  | zero => exact ⟨s, rfl, ⟨st, h⟩, rfl⟩
  | succ n ih =>
    obtain ⟨S₁, hS₁, ⟨st₁, hlife₁⟩, habs₁⟩ := fillPool_one h
    obtain ⟨S, hS, hlife, habs⟩ := ih hlife₁
    refine ⟨S, ?_, hlife, habs.trans habs₁⟩
    rw [State.fillPool, hS₁]
    exact hS

omit [Inhabited F] in
/-- Some fields of the state are not part of the invariant. -/
theorem Life.with_clock (h : Life st ν s) (max : Int) (clock : Int) :
    Life st ν { s with maxPoolSize := max, clock := clock } where
  here p := (h.here p).frame (fun _ => rfl) rfl rfl Iff.rfl Iff.rfl (Nat.le_refl _)
    (Nat.le_refl _) (fun _ _ => rfl) (Or.inl rfl)
  told := h.told
  consistent := h.consistent
  lists := h.lists

theorem refines_setPoolSize (h : Life st ν s) (max reserve : Int) :
    Refines cfg s (.setPoolSize max reserve) := by
  obtain ⟨S, hS, ⟨st', hlife⟩, habs⟩ := fillPool_spec (h.with_clock max s.clock)
    (reserve - (s.queue .pool).length).toNat
  exact ⟨S, hS, ⟨st', ν, hlife⟩, Or.inl habs⟩

theorem refines_tick (h : Life st ν s) {d : Nat} (hd : s.clock + d < 2 ^ 63) :
    Refines cfg s (.tick d) :=
  ⟨_, rfl, ⟨st, ν, h.with_clock s.maxPoolSize _⟩, Or.inr ⟨.client, by simp [ActLabel], .tick hd⟩⟩

end Pool

end Actions

end Costream.Timer
