import Costream.Timer.Client

/-!
# The machine refines the service

`refines` is the refinement: an enabled action that comes in time has no fault,
keeps `Life`, and is a step of the service or changes nothing there.  So what
the steps of the service keep holds throughout the runs of the machine
(`abs_invariant`).
-/

namespace Costream.Timer

open Trace

variable {F : Type*}

section Actions

variable [Inhabited F] {cfg : Config} {st : Ptr → Stage} {ν : Nat → Ptr}
  {s : State F} {p : Ptr} {e : Element F}

/-! ## Moving whole queues -/

section Pour

/-- The stage after queue `q` has been emptied into `q'`. -/
def Stage.pour (q q' : QueueRef) (x : Stage) : Stage :=
  if x = .queued q then .queued q' else x

omit [Inhabited F] in
/-- One queue is emptied into another: a step that only concerns `RunOnce`. -/
theorem Life.pour (h : Life st ν s) {S : State F} {q q' : QueueRef} (hne : q ≠ q')
    (hq : q ≠ .pool) (hq' : q' = .slist ∨ q' = .dispatchers)
    (hfrom : S.queue q = []) (hto : S.queue q' = s.queue q' ++ s.queue q)
    (hother : ∀ q'', q'' ≠ q → q'' ≠ q' → S.queue q'' = s.queue q'')
    (hstruck : q = .complete → ∀ p, st p ≠ .struck)
    (hheap : S.heap = s.heap) (hids : S.ids = s.ids) (hbrk : S.brk = s.brk)
    (hstarted : S.started = s.started) (hlog : S.log = s.log)
    (hcall : S.call? = s.call?) (hlists : S.ListsOk) :
    Life (fun p => (st p).pour q q') ν S where
  here p := by
    have hp := h.here p
    have hidsOf : S.idsOf p = s.idsOf p := by simp [State.idsOf, hids]
    by_cases hst : st p = .queued q
    · rw [Stage.pour, if_pos hst]
      rw [hst] at hp
      have hpool' : q' ≠ .pool := by rcases hq' with rfl | rfl <;> simp
      refine ⟨fun q'' => ?_, by rw [hheap, hp.gone]; simp, ?_, by simp [hpool'], ?_, ?_, ?_⟩
      · have h1 := hp.count q''
        have h2 := hp.count q
        simp only [Stage.links, if_true] at h1 h2 ⊢
        by_cases hqq' : q'' = q'
        · subst hqq'
          rw [if_neg hne.symm] at h1
          rw [hto, List.count_append, h1, h2, if_pos rfl]
        · rw [if_neg hqq']
          by_cases hqq : q'' = q
          · subst hqq
            rw [hfrom, List.count_nil]
          · rw [if_neg hqq] at h1
            rw [hother q'' hqq hqq', h1]
      · intro e he
        rw [hheap] at he
        have hf := hp.fits e he
        obtain ⟨h1, -, -, h4, h5⟩ := (Stage.agrees_queued hq).1 hf.agrees
        refine ⟨by rw [hidsOf, hf.reference]; rfl, by simp, ?_, fun _ => hf.home (by simp [hq]),
          by rw [hidsOf]; exact hf.named, ?_⟩
        · intro _
          rw [hstarted]
          exact hf.started (by simp [hq])
        · rw [Stage.agrees_queued hpool', hlog]
          refine ⟨h1, ?_, ?_, h4, h5⟩
          · rintro r rfl
            simp at hq'
          · rintro rfl
            simp at hq'
      · rw [hcall]
        exact iff_of_false (mt hp.running.1 (by simp)) (by simp)
      · rw [hcall]
        exact iff_of_false (mt hp.called.1 (by simp)) (by simp)
      · rw [hbrk]
        exact fun hb => absurd (hp.fresh hb) (by simp)
    · rw [Stage.pour, if_neg hst]
      refine hp.frame (fun q'' => ?_) (by rw [hheap]) hidsOf (by rw [hcall]) (by rw [hcall])
        hbrk.ge hstarted.ge (fun _ _ => rfl) (Or.inl hlog)
      have hzero : (s.queue q).count p = 0 := by
        rw [hp.count q]
        cases hx : st p with
        | queued q₁ =>
          rw [hx] at hst
          simp only [Stage.links]
          rw [if_neg fun h' => hst (by rw [h'])]
        | struck =>
          simp only [Stage.links]
          rw [if_neg fun h' => hstruck h' p hx]
        | gone | running | called | fired | cancelled => rfl
      by_cases hqq' : q'' = q'
      · subst hqq'
        rw [hto, List.count_append, hzero, Nat.add_zero]
      · by_cases hqq : q'' = q
        · subst hqq
          rw [hfrom, hzero, List.count_nil]
        · rw [hother q'' hqq hqq']
  told := by rw [hlog, hstarted]; exact h.told
  consistent := by rw [hlog]; exact h.consistent
  lists := hlists

omit [Inhabited F] in
/-- The pending timers move with the queue. -/
theorem pending_pour {S : State F} {q q' : QueueRef} (hne : q ≠ q')
    (hq : q ≠ .pool) (hq' : q' ≠ .pool)
    (hfrom : S.queue q = []) (hto : S.queue q' = s.queue q' ++ s.queue q)
    (hother : ∀ q'', q'' ≠ q → q'' ≠ q' → S.queue q'' = s.queue q'')
    (hheap : S.heap = s.heap) : S.abs.pending = (s.abs.pour q q').pending := by
  funext q''
  ext y
  by_cases hqq' : q'' = q'
  · subst hqq'
    simp only [Service.pour, Function.update_self, State.abs, State.entryAt,
      Set.mem_union, Set.mem_ofPred_eq, hto, hheap, List.mem_append]
    constructor
    · rintro ⟨p, h1, h2 | h2, h3⟩
      · exact Or.inl ⟨p, h1, h2, h3⟩
      · exact Or.inr ⟨p, hq, h2, h3⟩
    · rintro (⟨p, h1, h2, h3⟩ | ⟨p, -, h2, h3⟩)
      · exact ⟨p, h1, Or.inl h2, h3⟩
      · exact ⟨p, hq', Or.inr h2, h3⟩
  · by_cases hqq : q'' = q
    · subst hqq
      simp [Service.pour, State.abs, State.entryAt, hfrom, hqq']
    · simp [Service.pour, State.abs, State.entryAt, hheap, hqq, hqq', hother q'' hqq hqq']

end Pour

/-! ## `RunOnce` -/

section RunOnce

omit [Inhabited F] in
/-- `RunOnce` goes on with nothing in hand. -/
theorem Life.with_loop (h : Life st ν s) (point : Nat) (loop : Option Loop)
    (hcall : loop.bind Loop.call = s.call?)
    (hlists : State.ListsOk { s with point := point, loop := loop }) :
    Life st ν { s with point := point, loop := loop } where
  here p := (h.here p).frame (fun _ => rfl) rfl rfl
    (by rw [State.call?, hcall]) (by rw [State.call?, hcall]) (Nat.le_refl _)
    (Nat.le_refl _) (fun _ _ => rfl) (Or.inl rfl)
  told := h.told
  consistent := h.consistent
  lists := hlists

omit [Inhabited F] in
/-- An empty list has no pending timers. -/
theorem pending_eq_empty {q : QueueRef} (hq : s.queue q = []) :
    s.abs.pending q = ∅ := by
  refine Set.eq_empty_of_forall_notMem ?_
  rintro y ⟨p, -, hmem, -⟩
  rw [hq] at hmem
  exact List.not_mem_nil hmem

theorem refines_runOnce (h : Life st ν s) (hloop : s.loop = none)
    (ht : InTime s .runOnce) : Refines cfg s .runOnce := by
  have hl := h.lists
  rw [State.ListsOk, hloop] at hl
  obtain ⟨hslist, hdisp⟩ := hl
  have hstruck : ∀ p, st p ≠ .struck := by
    intro p hx
    have hp := h.here p
    rw [hx] at hp
    obtain ⟨e, he⟩ := hp.allocated (by simp)
    have hact := ht p ((hp.mem_iff _).2 (by simp [Stage.links]))
    rw [he, Option.any_some, (hp.fits e he).agrees.1] at hact
    cases hact
  have hto : s.runOnce.queue .slist = s.queue .slist ++ s.queue .complete := by
    simp [State.runOnce, State.popAll, State.setQueue, State.withLoop, hslist]
  have hfrom : s.runOnce.queue .complete = [] := by
    simp [State.runOnce, State.popAll, State.setQueue, State.withLoop]
  have hother : ∀ q, q ≠ .complete → q ≠ .slist → s.runOnce.queue q = s.queue q := by
    intro q h1 h2
    simp [State.runOnce, State.popAll, State.setQueue, State.withLoop, h1, h2]
  refine ⟨s.runOnce, rfl, ⟨_, ν, h.pour (show QueueRef.complete ≠ .slist by simp) (by simp)
    (Or.inl rfl) hfrom hto hother (fun _ => hstruck) rfl rfl rfl rfl rfl ?_ ?_⟩,
    Or.inr ⟨.client, by simp [ActLabel], ?_⟩⟩
  · simp [State.call?, hloop, State.runOnce, State.withLoop]
  · change s.runOnce.queue .dispatchers = []
    rw [hother _ (by simp) (by simp), hdisp]
  · have hpend := pending_pour (by simp) (by simp) (by simp) hfrom hto hother rfl
    have habs : s.runOnce.abs = (s.abs.withPhase (some .complete)).pour .complete .slist :=
      Service.ext rfl rfl rfl rfl hpend rfl
    rw [habs]
    exact .call (by simp [State.abs, hloop])

section Loop

variable {l : Loop}

omit [Inhabited F] in
/-- Within a phase the lists stay as they are. -/
theorem State.ListsOk.of_phase {S : State F} {c : Option Call} (h : s.ListsOk)
    (hloop : s.loop = some l) (hl : S.loop = some ⟨l.phase, c⟩)
    (hd : S.queue .dispatchers = s.queue .dispatchers) : S.ListsOk := by
  obtain ⟨phase, call⟩ := l
  rw [State.ListsOk, hloop] at h
  rw [State.ListsOk, hl]
  cases phase with
  | complete | final => exact hd.trans h
  | sweep => trivial

omit [Inhabited F] in
theorem call_eq (he : s.heap p = some e) (ha : e.active = false) (phase : Phase) :
    s.call phase p = some (State.withLoop
      { s.set p { e with active := true, slot := none } with
        log := .fired e.serial e.cb e.tp s.clock :: s.log } phase (some (.running p))) := by
  simp [State.call, he, ha, State.set]

/-- The callback returns. -/
theorem refines_return (h : Life st ν s) (hloop : s.loop = some l)
    (hcall : l.call = some (.running p)) : Refines cfg s .loop := by
  have hcall' : s.call? = some (.running p) := by simp [State.call?, hloop, hcall]
  have hp := h.here p
  have hst := hp.running.1 hcall'
  rw [hst] at hp
  obtain ⟨e, he⟩ := hp.allocated (by simp)
  have hf := hp.fits e he
  let S : State F := (s.set p { e with active := false }).withLoop l.phase (some (.called p))
  have hheap : S.heap p = some { e with active := false } := by
    simp [S, State.set, State.withLoop]
  have hcallS : S.call? = some (.called p) := rfl
  have ht : Touches ν p s S :=
    { count := fun _ _ _ => rfl
      heap := fun p' hne => by simp [S, State.set, State.withLoop, hne]
      ids := fun _ _ => rfl
      running := fun p' hne => by
        rw [hcallS, hcall']
        simp [hne.symm]
      called := fun p' hne => by
        rw [hcallS, hcall']
        simp [hne.symm]
      brk := Nat.le_refl _
      started := Nat.le_refl _
      log := Or.inl rfl }
  have hhere : Here ν S p .called := by
    refine ⟨hp.count, by simp [hheap], ?_, by simp, by simp [hcallS], by simp [hcallS],
      fun hb => absurd (hp.fresh hb) (by simp)⟩
    intro _ he'
    cases hheap.symm.trans he'
    exact ⟨hf.reference, by simp, fun _ => hf.started (by simp),
      fun _ => hf.home (by simp), hf.named, rfl, hf.agrees.2⟩
  have hlists : S.ListsOk := h.lists.of_phase hloop rfl rfl
  refine ⟨S, ?_, ⟨_, ν, Life.of_off (h.off ht fun _ _ => rfl) hhere h.told h.consistent
    hlists⟩, Or.inl ?_⟩
  · simp [machine, hloop, State.loopStep, hcall, State.returnCall, he, S]
  · have hpend := pending_same h ht fun q => by
      rw [entryAt_other hp (by simp), entryAt_other hhere (by simp)]
    exact Service.ext rfl rfl rfl (by simp [State.abs, S, State.withLoop, hloop]) hpend rfl

/-- `DecrementRef` after `call()`. -/
theorem refines_called (h : Life st ν s) (hloop : s.loop = some l)
    (hcall : l.call = some (.called p)) : Refines cfg s .loop := by
  have hcall' : s.call? = some (.called p) := by simp [State.call?, hloop, hcall]
  have hp := h.here p
  have hst := hp.called.1 hcall'
  rw [hst] at hp
  obtain ⟨e, he⟩ := hp.allocated (by simp)
  have hf := hp.fits e he
  let S : State F := s.withLoop l.phase none
  have hcallS : S.call? = none := rfl
  have ht : Touches ν p s S :=
    { count := fun _ _ _ => rfl
      heap := fun _ _ => rfl
      ids := fun _ _ => rfl
      running := fun p' hne => by
        rw [hcallS, hcall']
        simp
      called := fun p' hne => by
        rw [hcallS, hcall']
        simp [hne.symm]
      brk := Nat.le_refl _
      started := Nat.le_refl _
      log := Or.inl rfl }
  have hcount : ∀ q, (S.queue q).count p = 0 := hp.count
  have hlists : S.ListsOk := h.lists.of_phase hloop rfl rfl
  obtain ⟨x', hlife⟩ := Life.leave (e := e) (x := .fired) (h.off ht fun _ _ => rfl) hcount
    hf.reference (by simp [hcallS]) (by simp [hcallS])
    (hp.lt_brk (by simp)) (Or.inl rfl)
    (hf.started (by simp)) (hf.home (by simp)) hf.named hf.agrees h.told h.consistent hlists
  refine ⟨S.leave p e, ?_, ⟨_, ν, hlife⟩, Or.inl ?_⟩
  · simp only [machine, hloop, Option.bind_some, State.loopStep, hcall, Option.bind_eq_bind,
      State.decrementRef_leave he]
    simpa [S, State.withLoop] using
      State.leave_with s p e s.ids s.log (some ⟨l.phase, none⟩)
  · have hpend : (S.leave p e).abs.pending = s.abs.pending :=
      (pending_leave hcount).trans (pending_same h ht fun _ => rfl)
    exact Service.ext (by simp [State.abs, S, State.withLoop])
      (by simp [State.abs, S, State.withLoop]) (by simp [State.abs, S, State.withLoop])
      (by simp [State.abs, S, State.withLoop, hloop]) hpend
      (by simp [State.abs, S, State.withLoop])

omit [Inhabited F] in
/-- The element at the head of the list in hand. -/
theorem Life.of_slist (h : Life st ν s) {rest : List Ptr}
    (hq : s.queue .slist = p :: rest) :
    st p = .queued .slist ∧ ∃ e, s.heap p = some e ∧
      e.reference = (s.idsOf p).length + 2 := by
  have hp := h.here p
  have hmem : p ∈ s.queue .slist := by rw [hq]; exact List.mem_cons_self
  have hst : st p = .queued .slist := by
    rw [hp.mem_iff] at hmem
    cases hx : st p <;> simp_all [Stage.links]
  rw [hst] at hp
  obtain ⟨e, he⟩ := hp.allocated (by simp)
  exact ⟨hst, e, he, (hp.fits e he).reference⟩

/-- `call()` invokes the callback. -/
theorem refines_fire (h : Life st ν s) (hloop : s.loop = some l) (hcall : l.call = none)
    {rest : List Ptr} (hq : s.queue .slist = p :: rest) (he : s.heap p = some e)
    (hfin : ∀ f, l.phase = .final f → e.tp ≤ f.now) : Refines cfg s .loop := by
  obtain ⟨hst, e₀, he₀, href⟩ := h.of_slist hq
  obtain rfl : e₀ = e := Option.some.inj (he₀.symm.trans he)
  have hp := h.here p
  rw [hst] at hp
  have hf := hp.fits e₀ he
  obtain ⟨hact, -, -, hnf, hns⟩ := (Stage.agrees_queued (by simp)).1 hf.agrees
  have hcall' : s.call? = none := by simp [State.call?, hloop, hcall]
  let ev : Event F := .fired e₀.serial e₀.cb e₀.tp s.clock
  let e' := { e₀ with active := true, slot := none, reference := e₀.reference - 1 }
  let S : State F := State.withLoop
    { (s.setQueue .slist ((s.queue .slist).erase p)).set p e' with log := ev :: s.log }
    l.phase (some (.running p))
  have hheap : S.heap p = some e' := by simp [S, State.set, State.withLoop]
  have hcallS : S.call? = some (.running p) := rfl
  have ht : Touches ν p s S :=
    { count := fun p' hne q => by
        by_cases hqs : q = .slist
        · subst hqs
          simp [S, State.set, State.setQueue, State.withLoop, List.count_erase_of_ne hne]
        · simp [S, State.set, State.setQueue, State.withLoop, hqs]
      heap := fun p' hne => by simp [S, State.set, State.setQueue, State.withLoop, hne]
      ids := fun _ _ => rfl
      running := fun p' hne => by
        rw [hcallS, hcall']
        simp [hne.symm]
      called := fun p' hne => by
        rw [hcallS, hcall']
        simp
      brk := Nat.le_refl _
      started := Nat.le_refl _
      log := Or.inr ⟨ev, rfl, hf.started (by simp), hf.home (by simp)⟩ }
  have hhere : Here ν S p .running := by
    refine ⟨fun q => ?_, by simp [hheap], ?_, by simp, by simp [hcallS], by simp [hcallS],
      fun hb => absurd (hp.fresh hb) (by simp)⟩
    · have := hp.count q
      by_cases hqs : q = .slist
      · subst hqs
        simp only [Stage.links, if_true] at this
        simp [S, State.set, State.setQueue, State.withLoop, this, Stage.links]
      · simp only [Stage.links, hqs, if_false] at this
        simp [S, State.set, State.setQueue, State.withLoop, hqs, this, Stage.links]
    · intro _ he'
      cases hheap.symm.trans he'
      refine ⟨?_, by simp, fun _ => hf.started (by simp), fun _ => hf.home (by simp),
        hf.named, rfl, fired_cons_self, stopped_cons_fired.not.2 hns⟩
      change e₀.reference - 1 = ((s.idsOf p).length : Int) + (1 : Nat)
      omega
  have hlists : S.ListsOk := h.lists.of_phase hloop rfl
    (by simp [S, State.set, State.setQueue, State.withLoop])
  have hmem : p ∈ s.queue .slist := by rw [hq]; exact List.mem_cons_self
  refine ⟨S, ?_, ⟨_, ν, Life.of_off (h.off ht fun _ _ => rfl) hhere ?_ ⟨hnf, hns, h.consistent⟩
    hlists⟩, Or.inr ⟨.loop, rfl, ?_⟩⟩
  · have herase := State.erase_eq hmem he (by omega : e₀.reference ≠ 1)
    have hheap' : ((s.setQueue .slist ((s.queue .slist).erase p)).set p
        { e₀ with reference := e₀.reference - 1 }).heap p =
          some { e₀ with reference := e₀.reference - 1 } := by simp [State.set]
    have hcalls : ((s.setQueue .slist ((s.queue .slist).erase p)).set p
        { e₀ with reference := e₀.reference - 1 }).call l.phase p = some S := by
      rw [call_eq hheap' hact, State.set_set]
      rfl
    have hhandle : s.handle cfg l.phase p = some S := by
      simp only [State.handle, herase, Option.bind_eq_bind, Option.bind_some, hheap']
      cases hφ : l.phase with
      | final f =>
        rw [hφ] at hcalls
        simp only [hfin f hφ, if_true]
        exact hcalls
      | complete | sweep =>
        rw [hφ] at hcalls
        exact hcalls
    simpa only [machine, hloop, Option.bind_some, State.loopStep, hcall, hq] using hhandle
  · intro ev' hev
    rcases List.mem_cons.1 hev with rfl | hev
    · exact hf.started (by simp)
    · exact h.told ev' hev
  · have hentry := entryAt_queued hp (by simp) he
    have hpend := pending_take h ht hentry (entryAt_other hhere (by simp))
    have habs : S.abs = (s.abs.record ev).take .slist ⟨e₀.serial, e₀.tp⟩ :=
      Service.ext rfl rfl rfl (by simp [State.abs, S, State.withLoop, Service.record,
        Service.take, hloop]) hpend rfl
    rw [habs]
    have hphase : s.abs.phase = some l.phase := by simp [State.abs, hloop]
    refine Service.Step.fire hphase ⟨p, ?_⟩ hfin
    rw [hentry]
    simp

/-- `Dispatch(dispatchers, now)` files a timer again. -/
theorem refines_refile (h : Life st ν s) (hloop : s.loop = some l) (hcall : l.call = none)
    {rest : List Ptr} (hq : s.queue .slist = p :: rest) (he : s.heap p = some e)
    {f : Frame} (hφ : l.phase = .final f) (hlt : f.now < e.tp) :
    Refines cfg s .loop := by
  obtain ⟨hst, e₀, he₀, href⟩ := h.of_slist hq
  obtain rfl : e₀ = e := Option.some.inj (he₀.symm.trans he)
  have hp := h.here p
  rw [hst] at hp
  have hf := hp.fits e₀ he
  obtain ⟨hact, -, -, hnf, hns⟩ := (Stage.agrees_queued (by simp)).1 hf.agrees
  have hcall' : s.call? = none := by simp [State.call?, hloop, hcall]
  let r := place cfg s.point e₀.tp
  let e' := { e₀ with slot := some r }
  let S : State F := ((s.setQueue .slist ((s.queue .slist).erase p)).setQueue (.slot r)
    (s.queue (.slot r) ++ [p])).set p e'
  have hheap : S.heap p = some e' := by simp [S, State.set]
  have hqueue : ∀ q, S.queue q = if q = .slot r then s.queue (.slot r) ++ [p] else
      if q = .slist then (s.queue .slist).erase p else s.queue q := by
    intro q
    by_cases h1 : q = .slot r
    · subst h1
      simp [S, State.set, State.setQueue]
    · by_cases h2 : q = .slist <;> simp [S, State.set, State.setQueue, h1, h2]
  have ht : Touches ν p s S :=
    { count := fun p' hne q => by
        rw [hqueue]
        split_ifs with h1 h2
        · subst h1
          simp [hne.symm]
        · subst h2
          exact List.count_erase_of_ne hne
        · rfl
      heap := fun p' hne => by simp [S, State.set, State.setQueue, hne]
      ids := fun _ _ => rfl
      running := fun _ _ => Iff.rfl
      called := fun _ _ => Iff.rfl
      brk := Nat.le_refl _
      started := Nat.le_refl _
      log := Or.inl rfl }
  have hhere : Here ν S p (.queued (.slot r)) := by
    refine ⟨fun q => ?_, by simp [hheap], ?_, by simp, ?_, ?_,
      fun hb => absurd (hp.fresh hb) (by simp)⟩
    · rw [hqueue]
      have h1 := hp.count (.slot r)
      have h2 := hp.count .slist
      have h3 := hp.count q
      simp only [Stage.links, reduceCtorEq, if_false, if_true] at h1 h2 h3 ⊢
      split_ifs with hr hs
      · simp [h1]
      · simp [h2]
      · rw [h3, if_neg hs]
    · intro _ he'
      cases hheap.symm.trans he'
      refine ⟨hf.reference, by simp, fun _ => hf.started (by simp),
        fun _ => hf.home (by simp), hf.named, hact, ?_, by simp, hnf, hns⟩
      intro r' hr'
      cases hr'
      rfl
    · exact iff_of_false (mt hp.running.1 (by simp)) (by simp)
    · exact iff_of_false (mt hp.called.1 (by simp)) (by simp)
  have hlists : S.ListsOk := h.lists.of_phase hloop (c := l.call) hloop
    (by rw [hqueue]; simp)
  have hmem : p ∈ s.queue .slist := by rw [hq]; exact List.mem_cons_self
  refine ⟨S, ?_, ⟨_, ν, Life.of_off (h.off ht fun _ _ => rfl) hhere h.told h.consistent
    hlists⟩, Or.inr ⟨.loop, rfl, ?_⟩⟩
  · have herase := State.erase_eq hmem he (by omega : e₀.reference ≠ 1)
    let e₁ := { e₀ with reference := e₀.reference - 1 }
    let S₁ : State F := (s.setQueue .slist ((s.queue .slist).erase p)).set p e₁
    have hheap' : S₁.heap p = some e₁ := by simp [S₁, State.set]
    have hdisp : S₁.dispatch cfg p true = some _ := dispatch_slot hheap' (Or.inl rfl)
    have hhandle : s.handle cfg l.phase p = some S := by
      simp only [State.handle, hφ, herase, Option.bind_eq_bind, Option.bind_some]
      change ((S₁.heap p).bind fun e =>
        if e.tp ≤ f.now then S₁.call (.final f) p else S₁.dispatch cfg p true) = some S
      simp only [hheap', Option.bind_some]
      rw [if_neg (by simp only [e₁]; omega), hdisp]
      simp [S₁, S, State.set, State.setQueue, e₁, e', r]
    simpa only [machine, hloop, Option.bind_some, State.loopStep, hcall, hq] using hhandle
  · have hentry := entryAt_queued hp (by simp) he
    have hentry' := entryAt_queued hhere (by simp) hheap
    have hpend : S.abs.pending = ((s.abs.take .slist ⟨e₀.serial, e₀.tp⟩).put (.slot r)
        ⟨e₀.serial, e₀.tp⟩).pending := by
      funext q
      rw [pending_touch h ht, hentry, hentry']
      by_cases h1 : q = .slot r
      · subst h1
        simp [Service.put, Service.take, Set.union_comm, e']
      · by_cases h2 : q = .slist
        · subst h2
          simp [Service.put, Service.take]
        · simp [Service.put, Service.take, h1, h2]
    have habs : S.abs = (s.abs.take .slist ⟨e₀.serial, e₀.tp⟩).put (.slot r)
        ⟨e₀.serial, e₀.tp⟩ :=
      Service.ext rfl rfl rfl rfl hpend rfl
    rw [habs]
    refine Service.Step.refile (x := ⟨e₀.serial, e₀.tp⟩) (f := f)
      (by simp [State.abs, hloop, hφ]) ⟨p, ?_⟩ hlt
    rw [hentry]
    simp

/-- `RunOnce` goes on to the next list. -/
theorem refines_advance (h : Life st ν s) (hloop : s.loop = some l) (hcall : l.call = none)
    (hq : s.queue .slist = []) : Refines cfg s .loop := by
  have hcall' : s.call? = none := by simp [State.call?, hloop, hcall]
  have hlists := h.lists
  have hslist := pending_eq_empty hq
  have hstep : (machine cfg).step s .loop = some (s.advance cfg l.phase) := by
    simp only [machine, hloop, Option.bind_some, State.loopStep, hcall, hq]
  obtain ⟨phase, call⟩ := l
  obtain rfl : call = none := hcall
  have hphase : s.abs.phase = some phase := by simp [State.abs, hloop]
  cases phase with
  | complete =>
    have hreads : s.ReadsClock := ⟨hloop, hq⟩
    have hdisp : s.queue .dispatchers = [] := by
      rw [State.ListsOk, hloop] at hlists
      exact hlists
    by_cases hle : cfg.destVal s.clock ≤ s.point
    · have hadv : s.advance cfg .complete = { s with loop := none } := if_pos hle
      rw [hadv] at hstep
      refine ⟨_, hstep, ⟨st, ν, h.with_loop s.point none hcall'.symm ⟨hq, hdisp⟩⟩,
        Or.inr ⟨.read, ⟨rfl, hreads⟩, ?_⟩⟩
      have habs : State.abs { s with loop := none } = s.abs.withPhase none := rfl
      rw [habs]
      exact .early hphase hslist hle
    · have hadv : s.advance cfg .complete = { s with
          point := cfg.destVal s.clock
          loop := some ⟨.sweep ⟨s.clock, s.point, cfg.destVal s.clock - s.point⟩ s.point []
            .init, none⟩ } := if_neg hle
      rw [hadv] at hstep
      refine ⟨_, hstep, ⟨st, ν, h.with_loop _ _ hcall'.symm trivial⟩,
        Or.inr ⟨.read, ⟨rfl, hreads⟩, ?_⟩⟩
      exact .read hphase hslist (Nat.not_le.1 hle)
  | sweep f swept turned σ =>
    cases turned with
    | cons r rest =>
      let S := s.advance cfg (.sweep f swept (r :: rest) σ)
      have hfrom : S.queue (.slot r) = [] := by
        simp [S, State.advance, State.collect, State.setQueue, State.withLoop]
      have hto : S.queue .dispatchers = s.queue .dispatchers ++ s.queue (.slot r) := by
        simp [S, State.advance, State.collect, State.setQueue, State.withLoop]
      have hother : ∀ q, q ≠ .slot r → q ≠ .dispatchers → S.queue q = s.queue q := by
        intro q h1 h2
        simp [S, State.advance, State.collect, State.setQueue, State.withLoop, h1, h2]
      refine ⟨S, hstep, ⟨_, ν, h.pour (show QueueRef.slot r ≠ .dispatchers by simp) (by simp)
        (Or.inr rfl) hfrom hto hother (by simp) rfl rfl rfl rfl rfl hcall'.symm trivial⟩,
        Or.inr ⟨.loop, rfl, ?_⟩⟩
      have hpend := pending_pour (by simp) (by simp) (by simp) hfrom hto hother rfl
      have habs : S.abs =
          (s.abs.withPhase (some (.sweep f swept rest σ))).pour (.slot r) .dispatchers :=
        Service.ext rfl rfl rfl rfl hpend rfl
      rw [habs]
      exact .collect hphase
    | nil =>
      by_cases hi : σ.i < f.delta
      · let S := (s.popAll (.slot (σ.triggered f.last))).withLoop
          (.sweep f (σ.pos f.last + 1) (σ.turned f.last) (σ.next f.last)) none
        have hadv : s.advance cfg (.sweep f swept [] σ) = S := if_pos hi
        rw [hadv] at hstep
        have hfrom : S.queue (.slot (σ.triggered f.last)) = [] := by
          simp [S, State.popAll, State.setQueue, State.withLoop]
        have hto : S.queue .slist =
            s.queue .slist ++ s.queue (.slot (σ.triggered f.last)) := by
          simp [S, State.popAll, State.setQueue, State.withLoop, hq]
        have hother : ∀ q, q ≠ .slot (σ.triggered f.last) → q ≠ .slist →
            S.queue q = s.queue q := by
          intro q h1 h2
          simp [S, State.popAll, State.setQueue, State.withLoop, h1, h2]
        refine ⟨S, hstep, ⟨_, ν, h.pour
          (show QueueRef.slot (σ.triggered f.last) ≠ .slist by simp) (by simp) (Or.inl rfl) hfrom
          hto hother (by simp) rfl rfl rfl rfl rfl hcall'.symm trivial⟩, Or.inr ⟨.loop, rfl, ?_⟩⟩
        have hpend := pending_pour (by simp) (by simp) (by simp) hfrom hto hother rfl
        have habs : S.abs = (s.abs.withPhase (some (.sweep f (σ.pos f.last + 1)
            (σ.turned f.last) (σ.next f.last)))).pour (.slot (σ.triggered f.last)) .slist :=
          Service.ext rfl rfl rfl rfl hpend rfl
        rw [habs]
        exact .trigger hphase hslist hi
      · let S := (s.popAll .dispatchers).withLoop (.final f) none
        have hadv : s.advance cfg (.sweep f swept [] σ) = S := if_neg hi
        rw [hadv] at hstep
        have hfrom : S.queue .dispatchers = [] := by
          simp [S, State.popAll, State.setQueue, State.withLoop]
        have hto : S.queue .slist = s.queue .slist ++ s.queue .dispatchers := by
          simp [S, State.popAll, State.setQueue, State.withLoop, hq]
        have hother : ∀ q, q ≠ .dispatchers → q ≠ .slist → S.queue q = s.queue q := by
          intro q h1 h2
          simp [S, State.popAll, State.setQueue, State.withLoop, h1, h2]
        refine ⟨S, hstep, ⟨_, ν, h.pour (show QueueRef.dispatchers ≠ .slist by simp) (by simp)
          (Or.inl rfl) hfrom hto hother (by simp) rfl rfl rfl rfl rfl hcall'.symm hfrom⟩,
          Or.inr ⟨.loop, rfl, ?_⟩⟩
        have hpend := pending_pour (by simp) (by simp) (by simp) hfrom hto hother rfl
        have habs : S.abs = (s.abs.withPhase (some (.final f))).pour .dispatchers .slist :=
          Service.ext rfl rfl rfl rfl hpend rfl
        rw [habs]
        exact .swept hphase hslist (Nat.not_lt.1 hi)
  | final f =>
    have hdisp : s.queue .dispatchers = [] := by
      rw [State.ListsOk, hloop] at hlists
      exact hlists
    refine ⟨{ s with loop := none }, hstep,
      ⟨st, ν, h.with_loop s.point none hcall'.symm ⟨hq, hdisp⟩⟩,
      Or.inr ⟨.loop, rfl, ?_⟩⟩
    have habs : State.abs { s with loop := none } = s.abs.withPhase none := rfl
    rw [habs]
    exact .done hphase hslist

theorem refines_loop (h : Life st ν s) (hl : s.loop.isSome) : Refines cfg s .loop := by
  obtain ⟨l, hloop⟩ := Option.isSome_iff_exists.1 hl
  cases hcall : l.call with
  | some c =>
    cases c with
    | running p => exact refines_return h hloop hcall
    | called p => exact refines_called h hloop hcall
  | none =>
    cases hq : s.queue .slist with
    | nil => exact refines_advance h hloop hcall hq
    | cons p rest =>
      obtain ⟨-, e, he, -⟩ := h.of_slist hq
      by_cases hfin : ∀ f, l.phase = .final f → e.tp ≤ f.now
      · exact refines_fire h hloop hcall hq he hfin
      · push Not at hfin
        obtain ⟨f, hφ, hlt⟩ := hfin
        exact refines_refile h hloop hcall hq he hφ hlt

end Loop

end RunOnce

end Actions

/-! ## Every action -/

section Refinement

variable [Inhabited F] {cfg : Config} {st : Ptr → Stage} {ν : Nat → Ptr} {s : State F}

/-- The machine, as long as the actions come in time, has no fault and takes
only steps of the service. -/
theorem refines (h : Life st ν s) {a : Act F} (he : Enabled s a) (ht : InTime s a) :
    Refines cfg s a := by
  cases a with
  | startTimer tp cb => exact refines_startTimer h he.2
  | stopTimer id => exact refines_stopTimer h he.2 ht
  | copyId id => exact refines_copyId h he.2
  | dropId id => exact refines_dropId h he.2
  | setPoolSize max reserve => exact refines_setPoolSize h max reserve
  | runOnce => exact refines_runOnce h (Option.isNone_iff_eq_none.1 he) ht
  | loop => exact refines_loop h he
  | tick d => exact refines_tick h he

omit [Inhabited F] in
theorem Life.initial : Life (fun _ => .gone) ν (State.initial cfg : State F) where
  here p :=
    { count := fun _ => rfl
      gone := by simp [State.initial]
      fits := fun e he => by simp [State.initial] at he
      unnamed := fun _ => rfl
      running := by simp [State.call?, State.initial]
      called := by simp [State.call?, State.initial]
      fresh := fun _ => rfl }
  told ev hev := by simp [State.initial] at hev
  consistent := trivial
  lists := ⟨rfl, rfl⟩

omit [Inhabited F] in
theorem Alive.initial : Alive (State.initial cfg : State F) :=
  ⟨_, fun _ => 0, Life.initial⟩

/-- A property of the service that its steps keep holds throughout a run of the
machine. -/
theorem abs_invariant {ok : State F → Act F → Prop} {s₀ : State F}
    {P : Service F → Prop} (h : Run (machine cfg) ok s₀ s) (h₀ : Alive s₀)
    (hok : ∀ s a, ok s a → InTime s a) (hP : P s₀.abs)
    (hstep : ∀ t a l a', ok t a → ActLabel t a l → P t.abs →
      Service.Step cfg t.abs l a' → P a') : Alive s ∧ P s.abs := by
  refine h.invariant (P := fun s => Alive s ∧ P s.abs) ⟨h₀, hP⟩ ?_
  rintro t a u ⟨⟨st, ν, hlife⟩, hPt⟩ he ht hs
  obtain ⟨u', hu, halive, habs⟩ : Refines cfg t a := refines hlife he (hok t a ht)
  rw [hs] at hu
  cases hu
  refine ⟨halive, ?_⟩
  rcases habs with habs | ⟨l, hl, hst⟩
  · rwa [habs]
  · exact hstep t a l _ ht hl hPt hst

/-- The invariant holds throughout a run whose actions come in time. -/
theorem alive_of_run {ok : State F → Act F → Prop} (hok : ∀ s a, ok s a → InTime s a)
    (h : Run (machine cfg) ok (State.initial cfg) s) : Alive s :=
  (abs_invariant (P := fun _ => True) h .initial hok trivial
    fun _ _ _ _ _ _ _ _ => trivial).1

end Refinement

end Costream.Timer
