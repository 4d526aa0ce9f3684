import Costream.Scheduler.Frame

/-!
# What the sections keep

`Links` is kept by every section of a processor's thread, of a call of `Wakeup` and of
`CreateTask`.
-/

namespace Costream.Scheduler

open Trace Costream.Lists

variable {s s' : State} {p p' t u : Nat} {q : Queue}

/-! ## `front` -/

/-- The thread finds nothing to run. -/
theorem Links.setThread_idle (h : Links s) {place : Place} (hseat : place.seat = .idle)
    (hstate : place.taskState = none) (hgarbage : s.queues (.garbage p) = []) :
    Links (s.setThread p none none place) := by
  refine h.setThread (fun t ht => by cases ht) ⟨fun t ht => ?_, fun u hu => ?_, fun _ => ?_,
    fun hc => ?_, fun st hst => ?_, fun _ => hgarbage⟩
  · rw [setThread_running] at ht
    cases ht
  · rw [setThread_next] at hu
    cases hu
  · rw [setThread_next]
  · rw [setThread_place, hseat] at hc
    cases hc
  · rw [setThread_place, hstate] at hst
    cases hst

theorem Links.front (h : Links s) {empty : Place} (hseat : empty.seat = .idle)
    (hstate : empty.taskState = none) (hnext : s.nextTask p = none)
    (hgarbage : s.queues (.garbage p) = []) : Links (s.front p empty) := by
  have hout : ∀ t, (s.queues (.runnable p)).head? = some t → t ∈ s.queues (.runnable p) :=
    fun t ht => List.mem_of_head? ht
  have hset : Function.update s.nextTask p none = s.nextTask := by
    have := Function.update_eq_self p s.nextTask
    rwa [hnext] at this
  unfold State.front
  dsimp only
  rw [h.mark_eq hout]
  cases hhead : (s.queues (.runnable p)).head? with
  | none =>
    refine (h.setThread_idle (p := p) hseat hstate hgarbage).of_core ?_
    unfold State.setThread
    rw [hset]
    rfl
  | some t =>
    have hinner : Links (s.setThread p (some t) none .inner) :=
      h.setThread_inner (fun u hu => hout u (hhead.trans hu)) hgarbage
    refine hinner.of_core ?_
    unfold State.setThread
    rw [hset]
    rfl

/-! ### The `switch` -/

/-- What runs on `p` stays when its place changes. -/
theorem Links.goto_linked (h : Links s) {place : Place} (hseat : place.seat = .linked)
    (hlinked : ∀ t, s.runningTask p = some t → t ∈ s.queues (.runnable p))
    (hfresh : place.fresh = true → s.nextTask p = none)
    (hstate : ∀ st, place.taskState = some st → ∀ t, s.runningTask p = some t →
      s.taskState t = st) (hgarbage : s.queues (.garbage p) = []) : Links (s.goto p place) := by
  refine h.goto (fun t ht => ?_) hfresh (fun hc => ?_) hstate fun _ => hgarbage
  · rw [hseat]
    exact hlinked t ht
  · rw [hseat] at hc
    cases hc

theorem Links.caseRunnable (h : Links s) (hr : s.runningTask p = some t)
    (ht : t ∈ s.queues (.runnable p)) (hnext : s.nextTask p = none)
    (hgarbage : s.queues (.garbage p) = []) : Links (s.caseRunnable p t) := by
  unfold State.caseRunnable
  split
  · rename_i u hu
    have hmem := mem_of_next hu
    rw [h.setCheck_eq hmem, proceed_eq, hnext]
    refine h.setThread_inner (fun v hv => ?_) hgarbage
    cases hv
    exact hmem
  · split
    · rw [proceed_eq, hnext]
      exact h.setThread_inner (fun v hv => by cases hv) hgarbage
    · refine h.goto_linked rfl (fun v hv => ?_) (fun _ => hnext) (fun st hst => ?_) hgarbage
      · rw [hr] at hv
        cases hv
        exact ht
      · cases hst

theorem Links.takeNext (h : Links s) (hgarbage : s.queues (.garbage p) = []) :
    Links (s.takeNext p) := by
  rw [takeNext_eq]
  exact h.setThread_inner (fun u hu => ((h.seated p).next u hu).1) hgarbage

theorem Links.switch (h : Links s) (hplace : s.place p = .switch) (hs : s.switch p = some s') :
    Links s' := by
  obtain ⟨t, hr, heq⟩ := Option.map_eq_some_iff.1 hs
  have hp := h.seated p
  have hseat : (s.place p).seat = .coroutine := by rw [hplace]; rfl
  have hgarbage := hp.garbage (by rw [hplace]; rfl)
  subst heq
  cases hst : s.taskState t with
  | runnable =>
    have hne : s.taskState t ≠ .block := by simp [hst]
    exact h.caseRunnable hr (hp.coroutine hr hseat hne) (hp.awake hseat t hr hne) hgarbage
  | block => exact h.takeNext hgarbage
  | done =>
    have hne : s.taskState t ≠ .block := by simp [hst]
    refine h.goto_linked rfl (fun u hu => ?_) (fun hf => by cases hf) (fun st hst' u hu => ?_)
      hgarbage
    · rw [hr] at hu
      cases hu
      exact hp.coroutine hr hseat hne
    · rw [hr] at hu
      cases hu
      cases hst'
      exact hst

/-! ### `next` -/

/-- `nextTask_` becomes the task behind the running one. -/
theorem Links.toNext (h : Links s) (hseat : (s.place p).seat = .linked)
    (hfresh : (s.place p).fresh = false) (hs : s.toNext p = some s') : Links s' := by
  obtain ⟨t, hr, heq⟩ := Option.map_eq_some_iff.1 hs
  have hp := h.seated p
  have hmark : s.mark (.runnable p) (next (s.queues (.runnable p)) t) = s :=
    h.mark_eq fun u hu => mem_of_next hu
  dsimp only at heq
  rw [hmark] at heq
  have hset : s' = s.setThread p (s.runningTask p) (next (s.queues (.runnable p)) t) (s.place p) := by
    unfold State.setThread
    rw [Function.update_eq_self, Function.update_eq_self]
    exact heq.symm
  rw [hset]
  refine h.setThread (fun u hu => h.mine hu) ⟨fun u hu => ?_, fun u hu => ?_, fun hf => ?_,
    fun hc => ?_, fun st hst u hu => ?_, fun hg => ?_⟩
  · rw [setThread_running] at hu
    rw [setThread_place]
    have := hp.sits u hu
    rw [hseat] at this ⊢
    exact this
  · rw [setThread_next] at hu
    rw [setThread_running, setThread_queues]
    refine ⟨mem_of_next hu, ?_⟩
    rw [hr, ne_eq, Option.some.injEq]
    exact (next_ne (h.apart.nodup _) hu).symm
  · rw [setThread_place, hfresh] at hf
    cases hf
  · rw [setThread_place, hseat] at hc
    cases hc
  · rw [setThread_running] at hu
    rw [setThread_place] at hst
    exact hp.state st hst u hu
  · rw [setThread_place] at hg
    exact hp.garbage hg

/-! ### The state of the running task -/

/-- The running task gets another state. -/
theorem Links.setState (h : Links s) (hr : s.runningTask p = some t)
    (hmem : t ∈ s.queues (.runnable p)) {st : TaskState} {place : Place} {proc : Nat → Option Nat}
    {suspendId : Nat → Nat} (hseat : place.seat = .linked ∨ place.seat = .coroutine)
    (hnext : s.nextTask p = none)
    (hstate : place.taskState = none ∨ place.taskState = some st)
    (hgarbage : s.queues (.garbage p) = []) :
    Links (({ s with
      taskState := Function.update s.taskState t st
      proc := proc
      suspendId := suspendId } : State).goto p place) := by
  have hother : ∀ q, q ≠ .runnable p → t ∉ s.queues q := by
    intro q hq hmem'
    exact hq (h.apart.apart q _ t hmem' hmem)
  refine h.of_local (p := p) ⟨fun p' hne => Function.update_of_ne hne .., fun _ _ => rfl,
    fun _ _ => rfl, fun _ _ _ _ => rfl, fun p' hne u hu => ⟨?_, rfl, id⟩⟩ h.apart h.known
    (Nat.le_refl _) h.tag (fun p' u hu => ?_) (fun u hu => h.mine hu)
    ⟨fun u hu => ?_, (h.seated p).next, fun _ => hnext, fun _ _ _ _ => hnext,
      fun st' hst' u hu => ?_, fun _ => hgarbage⟩
  · have hne' : u ≠ t := fun hut => hne (h.running_unique hu (hut ▸ hr))
    exact Function.update_of_ne hne' ..
  · have hne' : u ≠ t := by
      intro hut
      subst hut
      rcases hu with hu | hu
      · exact hother (.gc p') (by simp) hu
      · exact hother (.garbage p') (by simp) hu
    exact (Function.update_of_ne hne' ..).trans (h.gone p' u hu)
  · have hut : u = t := Option.some.inj (hu.symm.trans hr)
    rw [goto_place, hut]
    rcases hseat with hseat | hseat
    · rw [hseat]
      exact hmem
    · rw [hseat]
      exact .inl hmem
  · have hut : u = t := Option.some.inj (hu.symm.trans hr)
    rw [goto_place] at hst'
    rw [hut]
    rcases hstate with hnone | hsome
    · rw [hnone] at hst'
      cases hst'
    · rw [hsome] at hst'
      cases hst'
      exact Function.update_self ..

theorem Links.swapIn (h : Links s) (hplace : s.place p = .swapIn) (hs : s.swapIn p = some s') :
    Links s' := by
  obtain ⟨t, hr, heq⟩ := Option.map_eq_some_iff.1 hs
  have hp := h.seated p
  subst heq
  exact h.setState hr (hp.linked hr (by rw [hplace]; rfl)) (.inr rfl) (hp.fresh (by rw [hplace]; rfl))
    (.inl rfl) (hp.garbage (by rw [hplace]; rfl))

/-- The coroutine that runs has not suspended itself. -/
theorem runs_iff : Runs s p = true ↔ ∃ t, s.runningTask p = some t ∧ s.taskState t = .runnable := by
  unfold Runs
  cases s.runningTask p <;> simp

theorem Links.suspend (h : Links s) (hplace : s.place p = .running) (hruns : Runs s p = true)
    (hs : step s (.suspend p) = some s') : Links s' := by
  obtain ⟨t, hr, heq⟩ := Option.map_eq_some_iff.1 hs
  obtain ⟨u, hu, hst⟩ := runs_iff.1 hruns
  have hut : u = t := Option.some.inj (hu.symm.trans hr)
  subst hut
  have hp := h.seated p
  have hseat : (s.place p).seat = .coroutine := by rw [hplace]; rfl
  have hne : s.taskState u ≠ .block := by simp [hst]
  subst heq
  exact h.setState hr (hp.coroutine hr hseat hne) (.inl rfl) (hp.awake hseat u hr hne) (.inr rfl)
    (hp.garbage (by rw [hplace]; rfl))

theorem Links.finish (h : Links s) (hplace : s.place p = .running) (hruns : Runs s p = true)
    (hs : step s (.finish p) = some s') : Links s' := by
  obtain ⟨t, hr, heq⟩ := Option.map_eq_some_iff.1 hs
  obtain ⟨u, hu, hst⟩ := runs_iff.1 hruns
  have hut : u = t := Option.some.inj (hu.symm.trans hr)
  subst hut
  have hp := h.seated p
  have hseat : (s.place p).seat = .coroutine := by rw [hplace]; rfl
  have hne : s.taskState u ≠ .block := by simp [hst]
  subst heq
  exact h.setState hr (hp.coroutine hr hseat hne) (.inr rfl) (hp.awake hseat u hr hne) (.inl rfl)
    (hp.garbage (by rw [hplace]; rfl))

/-! ### `AddNewTasks` -/

/-- A packet reaches `runnableQueue_`. -/
theorem Links.deliver (h : Links s) {rest : List Nat} (hup : s.queues (.up p) = t :: rest) :
    Links ((s.setQueue (.up p) rest).push (.runnable p) t) := by
  have hne : Queue.up p ≠ .runnable p := by simp
  have hmem : t ∈ s.queues (.up p) := by simp [hup]
  have hother : ∀ r, r ≠ .up p → t ∉ s.queues r := fun r hr ht =>
    hr (h.apart.apart r _ t ht hmem)
  have hperm : (rest ++ (s.queues (.runnable p) ++ [t])).Perm
      (s.queues (.up p) ++ s.queues (.runnable p)) := by
    rw [hup, ← List.append_assoc]
    exact List.perm_append_comm
  have hlinks : Links (s.exchange (.up p) (.runnable p) rest (s.queues (.runnable p) ++ [t])
      (Function.update s.check t (some (.runnable p)))) := by
    refine h.exchange hne hperm (fun r u hr hu => ?_) (fun p' u hu => ?_) fun p' => ?_
    · by_cases hrp : r = .runnable p
      · subst hrp
        rw [exchange_self, List.mem_append, List.mem_singleton] at hu
        by_cases hut : u = t
        · subst hut
          exact Function.update_self ..
        · rw [Function.update_of_ne hut]
          exact h.tag _ u hr (hu.resolve_right hut)
      · have hru : r ≠ .up p := by
          intro he
          rw [he] at hr
          cases hr
        rw [exchange_of_ne hru hrp] at hu
        have hut : u ≠ t := fun he => hother r hru (he ▸ hu)
        rw [Function.update_of_ne hut]
        exact h.tag r u hr hu
    · rw [exchange_of_ne (by simp) (by simp), exchange_of_ne (by simp) (by simp)] at hu
      exact h.gone p' u hu
    · refine ⟨fun u _ hu => ?_, fun u _ hu => .inl ?_, fun u _ hu => ?_, fun u _ hcheck habs => ?_,
        fun _ hg => ?_⟩
      · by_cases hp : p' = p
        · subst hp
          rw [exchange_self]
          exact List.mem_append_left _ hu
        · rwa [exchange_of_ne (by simp) (by simpa using hp)]
      · rwa [exchange_of_ne (by simp) (by simp)]
      · rwa [exchange_of_ne (by simp) (by simp)]
      · have hut : u ≠ t := fun he => habs (.up p) (he ▸ hmem)
        exact ⟨(Function.update_of_ne hut ..).trans hcheck, (absent_exchange hne hperm).2 habs⟩
      · rwa [exchange_of_ne (by simp) (by simp)]
  refine hlinks.of_core ?_
  have hget : Function.update s.queues (.up p) rest (.runnable p) = s.queues (.runnable p) :=
    Function.update_of_ne (by simp) ..
  unfold State.push State.link State.setQueue
  dsimp only
  rw [hget]
  rfl

theorem Links.adding (h : Links s) {after : AfterAdd} {n : Nat} (hplace : s.place p = .adding after n) :
    Links (s.adding p after n) := by
  unfold State.adding
  split
  · rename_i n t rest hup
    have hd := h.deliver hup
    refine hd.goto_like ?_ ?_ ?_ ?_
    · show _ = (s.place p).seat
      rw [hplace]
      rfl
    · show _ → (s.place p).fresh = true
      rw [hplace]
      cases after <;> simp [Place.fresh]
    · show _ ∨ _ = (s.place p).taskState
      rw [hplace]
      cases after <;> simp [Place.taskState]
    · show _ → (s.place p).collecting = false
      rw [hplace]
      exact fun _ => rfl
  · refine h.goto_like ?_ ?_ ?_ ?_
    · rw [hplace, Place.seat_afterAdd]
      rfl
    · rw [hplace]
      cases after <;> simp [Place.fresh, AfterAdd.place]
    · rw [hplace]
      cases after <;> simp [Place.taskState, AfterAdd.place]
    · rw [hplace]
      exact fun _ => rfl

/-! ### `GC` -/

theorem Links.release (h : Links s) {after : AfterGC} {rest : List Nat}
    (hplace : s.place p = .release after rest) : Links (s.release p after rest) := by
  cases rest with
  | nil =>
    refine h.goto_like ?_ ?_ ?_ ?_
    all_goals rw [hplace]
    all_goals cases after <;> simp [Place.seat, Place.fresh, Place.taskState, Place.collecting]
  | cons t rest =>
    have hgoto : Links (s.goto p (.release after rest)) := by
      refine h.goto_like ?_ ?_ ?_ ?_
      all_goals rw [hplace]
      all_goals cases after <;> simp [Place.seat, Place.fresh, Place.taskState, Place.collecting]
    refine hgoto.of_core ?_
    rw [State.release, core_goto, core_decRef]
    rfl

/-- A list of garbage changes, while `GC` has it. -/
theorem Links.setGarbage (h : Links s) {xs : List Nat} (hsub : xs.Sublist (s.queues (.garbage p)))
    (hplace : (s.place p).collecting = true) : Links (s.setQueue (.garbage p) xs) := by
  have hget : ∀ q, q ≠ .garbage p → (s.setQueue (.garbage p) xs).queues q = s.queues q :=
    fun q hq => Function.update_of_ne hq ..
  have hself : (s.setQueue (.garbage p) xs).queues (.garbage p) = xs := Function.update_self ..
  have hmem : ∀ q u, u ∈ (s.setQueue (.garbage p) xs).queues q → u ∈ s.queues q := by
    intro q u hu
    by_cases hq : q = .garbage p
    · subst hq
      rw [hself] at hu
      exact hsub.subset hu
    · rwa [hget q hq] at hu
  refine h.of_keeps rfl rfl rfl (fun _ _ => rfl) (Nat.le_refl _) (h.apart.shrink hsub)
    (fun q u hu => h.known q u (hmem q u hu)) (fun q u hq hu => h.tag q u hq (hmem q u hu))
    (fun p' u hu => h.gone p' u (hu.imp (hmem _ u) (hmem _ u))) fun p' => ?_
  refine ⟨fun u _ hu => ?_, fun u _ hu => .inl ?_, fun u _ hu => ?_, fun u _ hcheck habs => ?_,
    fun hc hg => ?_⟩
  · rwa [hget _ (by simp)]
  · rwa [hget _ (by simp)]
  · rwa [hget _ (by simp)]
  · exact ⟨hcheck, fun q hu => habs q (hmem q u hu)⟩
  · have hpp : p' ≠ p := by
      intro he
      rw [he, hplace] at hc
      cases hc
    rwa [hget _ (by simpa using hpp)]

theorem Links.clear (h : Links s) {after : AfterGC} (hplace : s.place p = .clear after) :
    Links (s.clear p after) := by
  unfold State.clear
  split
  · rename_i hnil
    have hp := h.seated p
    refine h.goto (fun t ht => ?_) (fun hf => hp.fresh ?_) (fun hc => ?_) (fun st hst => hp.state st ?_)
      fun _ => hnil
    · have := hp.sits t ht
      rw [hplace] at this
      rw [Place.seat_afterGC]
      exact this
    · rw [hplace]
      cases after
      · rfl
      · cases hf
    · rw [Place.seat_afterGC] at hc
      cases after <;> cases hc
    · rw [hplace]
      cases after
      · cases hst
      · exact hst
  · rename_i t rest hcons
    have hset : Links (s.setQueue (.garbage p) rest) := by
      refine h.setGarbage ?_ (by rw [hplace]; rfl)
      rw [hcons]
      exact List.sublist_cons_self t rest
    have hgoto : Links ((s.setQueue (.garbage p) rest).goto p (.clear after)) := by
      have hplace' : (s.setQueue (.garbage p) rest).place p = .clear after := hplace
      refine hset.goto_like ?_ ?_ ?_ ?_
      all_goals rw [hplace']
      · exact id
      · exact .inr rfl
      · exact id
    refine hgoto.of_core ?_
    rw [core_goto, core_decRef]
    rfl

theorem Links.popAll (h : Links s) {after : AfterGC} (hplace : s.place p = .pop after) :
    Links (s.popAll p after) := by
  have hp := h.seated p
  have hgarbage : s.queues (.garbage p) = [] := hp.garbage (by rw [hplace]; rfl)
  obtain ⟨place, hpl⟩ : ∃ place, place = Place.release after (s.queues (.gc p)) := ⟨_, rfl⟩
  have hgoto : Links (s.goto p place) := by
    refine h.goto_like ?_ ?_ ?_ ?_
    all_goals rw [hplace, hpl]
    all_goals cases after <;> simp [Place.seat, Place.fresh, Place.taskState, Place.collecting]
  have hne : Queue.garbage p ≠ .gc p := by simp
  have hperm : (s.queues (.gc p) ++ []).Perm (s.queues (.garbage p) ++ s.queues (.gc p)) := by
    rw [hgarbage, List.append_nil, List.nil_append]
  have hself : ∀ u, ¬ ((s.goto p place).runningTask p = some u ∧ u ∈ s.queues (.gc p)) := by
    rintro u ⟨hr, hu⟩
    have hsits := hp.sits u hr
    rw [hplace] at hsits
    cases after with
    | condition => exact hsits
    | push => exact hsits.2 _ hu
  have hlinks : Links ((s.goto p place).exchange (.garbage p) (.gc p) (s.queues (.gc p)) []
      s.check) := by
    refine hgoto.exchange hne hperm (fun r u hr hu => ?_) (fun p' u hu => ?_) fun p' => ?_
    · by_cases hrg : r = .gc p
      · subst hrg
        rw [exchange_self] at hu
        cases hu
      · have hrn : r ≠ .garbage p := by
          intro he
          rw [he] at hr
          cases hr
        rw [exchange_of_ne hrn hrg] at hu
        exact h.tag r u hr hu
    · by_cases hpp : p' = p
      · subst hpp
        rw [exchange_self, exchange_other hne] at hu
        exact h.gone p' u (hu.elim (fun hu => by cases hu) .inl)
      · rw [exchange_of_ne (by simp) (by simpa using hpp), exchange_of_ne (by simpa using hpp)
          (by simp)] at hu
        exact h.gone p' u hu
    · refine ⟨fun u _ hu => ?_, fun u _ hu => .inl ?_, fun u hr hu => ?_, fun u _ hcheck habs => ?_,
        fun hc hg => ?_⟩
      · rwa [exchange_of_ne (by simp) (by simp)]
      · rwa [exchange_of_ne (by simp) (by simp)]
      · by_cases hpp : p' = p
        · subst hpp
          exact absurd ⟨hr, hu⟩ (hself u)
        · rwa [exchange_of_ne (by simp) (by simpa using hpp)]
      · exact ⟨hcheck, (absent_exchange hne hperm).2 habs⟩
      · have hpp : p' ≠ p := by
          intro he
          rw [he, goto_place, hpl] at hc
          cases hc
        rwa [exchange_of_ne (by simpa using hpp) (by simp)]
  refine hlinks.of_core ?_
  rw [State.popAll, hpl]
  rfl

/-! ### What leaves `runnableQueue_` -/

/-- A task is linked in a queue of its processor. -/
theorem unlink_eq (ht : t ∈ s.queues q) : s.unlink q t =
    some ((s.setQueue q ((s.queues q).erase t)).setCheck t none) := if_pos ht

/-- The state after `t` has gone from `runnableQueue_` to `waitQueue_`, with its entry published. -/
def State.asleep (s : State) (p t : Nat) : State :=
  { s.exchange (.runnable p) (.wait p) ((s.queues (.runnable p)).erase t)
      (s.queues (.wait p) ++ [t]) (Function.update s.check t (some (.wait p))) with
    nextTask := Function.update s.nextTask p (next (s.queues (.runnable p)) t)
    entries := s.entries ++ [(t, s.suspendId t)]
    place := Function.update s.place p .running }

theorem Links.suspendBySelf_eq (h : Links s) (hr : s.runningTask p = some t)
    (ht : t ∈ s.queues (.runnable p)) : s.suspendBySelf p = some (s.asleep p t) := by
  have hwait : Function.update s.queues (.runnable p) ((s.queues (.runnable p)).erase t) (.wait p) =
      s.queues (.wait p) := Function.update_of_ne (by simp) ..
  unfold State.suspendBySelf
  rw [hr, Option.bind_some]
  dsimp only
  rw [h.mark_eq fun u hu => mem_of_next hu, unlink_eq (by exact ht), Option.map_some]
  unfold State.asleep State.exchange State.link State.setQueue State.setCheck State.goto
  dsimp only
  rw [hwait, Function.update_idem]

theorem Links.suspendBySelf_cases (h : Links s) (hplace : s.place p = .suspending)
    (hs : s.suspendBySelf p = some s') :
    ∃ t, s.runningTask p = some t ∧ t ∈ s.queues (.runnable p) ∧ s' = s.asleep p t := by
  obtain ⟨t, hr, -⟩ := Option.bind_eq_some_iff.1 hs
  have hmem := (h.seated p).linked hr (by rw [hplace]; rfl)
  rw [h.suspendBySelf_eq hr hmem, Option.some.injEq] at hs
  exact ⟨t, hr, hmem, hs.symm⟩

theorem Links.suspendBySelf (h : Links s) (hplace : s.place p = .suspending)
    (hs : s.suspendBySelf p = some s') : Links s' := by
  obtain ⟨t, hr, hmem, rfl⟩ := h.suspendBySelf_cases hplace hs
  have hp := h.seated p
  have hblock : s.taskState t = .block := hp.state _ (by rw [hplace]; rfl) t hr
  have hgarbage := hp.garbage (by rw [hplace]; rfl)
  obtain ⟨out, hout⟩ : ∃ out, out = next (s.queues (.runnable p)) t := ⟨_, rfl⟩
  have houtmem : ∀ u, out = some u → u ∈ s.queues (.runnable p) ∧ u ≠ t := by
    intro u hu
    rw [hout] at hu
    exact ⟨mem_of_next hu, next_ne (h.apart.nodup _) hu⟩
  have hne : Queue.runnable p ≠ .wait p := by simp
  have hperm : ((s.queues (.runnable p)).erase t ++ (s.queues (.wait p) ++ [t])).Perm
      (s.queues (.runnable p) ++ s.queues (.wait p)) := erase_append_perm hmem
  have hother : ∀ r, r ≠ .runnable p → t ∉ s.queues r := fun r hr' ht =>
    hr' (h.apart.apart r _ t ht hmem)
  obtain ⟨s₁, hs₁⟩ : ∃ s₁, s₁ = s.exchange (.runnable p) (.wait p)
      ((s.queues (.runnable p)).erase t) (s.queues (.wait p) ++ [t])
      (Function.update s.check t (some (.wait p))) := ⟨_, rfl⟩
  have hrunnable : s₁.queues (.runnable p) = (s.queues (.runnable p)).erase t := by
    rw [hs₁]
    exact exchange_other hne
  have hwait : s₁.queues (.wait p) = s.queues (.wait p) ++ [t] := by
    rw [hs₁]
    exact exchange_self
  have hget : ∀ r, r ≠ .runnable p → r ≠ .wait p → s₁.queues r = s.queues r := by
    intro r hr₁ hr₂
    rw [hs₁]
    exact exchange_of_ne hr₁ hr₂
  have hcheck : ∀ u, u ≠ t → s₁.check u = s.check u := by
    intro u hu
    rw [hs₁]
    exact Function.update_of_ne hu ..
  have hstate : s₁.taskState = s.taskState := by rw [hs₁]; rfl
  have hlinks : Links (s₁.setThread p (some t) out .running) := by
    refine h.of_local (p := p) ⟨fun p' hne => ?_, fun p' hne => ?_, fun p' hne => ?_,
      fun p' hne r hr' => ?_, fun p' hne u hu => ⟨?_, ?_, ?_⟩⟩ ?_ (fun r u hu => ?_) ?_
      (fun r u hr' hu => ?_) (fun p' u hu => ?_) (fun u hu => ?_) ?_
    · rw [hs₁]
      exact Function.update_of_ne hne ..
    · rw [hs₁]
      exact Function.update_of_ne hne ..
    · rw [hs₁]
      exact Function.update_of_ne hne ..
    · refine hget r (fun he => ?_) (fun he => ?_)
      · rw [he] at hr'
        exact hne (isOf_unique hr' (by simp [Queue.isOf]))
      · rw [he] at hr'
        exact hne (isOf_unique hr' (by simp [Queue.isOf]))
    · exact congrFun hstate u
    · exact hcheck u (h.running_ne hu hmem (by simpa [Queue.isOf] using hne))
    · intro habs
      rw [setThread_queues, hs₁]
      exact (absent_exchange (by simp) hperm).2 habs
    · rw [setThread_queues, hs₁]
      exact h.apart.exchange (by simp) hperm
    · rw [setThread_queues, hs₁] at hu
      have := exchange_known h hperm hu
      rwa [hs₁]
    · rw [hs₁]
      exact Nat.le_refl _
    · rw [setThread_queues] at hu
      show s₁.check u = some r
      by_cases hrw : r = .wait p
      · subst hrw
        rw [hwait, List.mem_append, List.mem_singleton] at hu
        by_cases hut : u = t
        · rw [hut, hs₁]
          exact Function.update_self ..
        · rw [hcheck u hut]
          exact h.tag _ u hr' (hu.resolve_right hut)
      · have hu' : u ∈ s.queues r ∧ u ≠ t := by
          by_cases hrr : r = .runnable p
          · subst hrr
            rw [hrunnable, (h.apart.nodup _).mem_erase_iff] at hu
            exact ⟨hu.2, hu.1⟩
          · rw [hget r hrr hrw] at hu
            exact ⟨hu, fun he => hother r hrr (he ▸ hu)⟩
        rw [hcheck u hu'.2]
        exact h.tag r u hr' hu'.1
    · rw [setThread_queues, hget _ (by simp) (by simp), hget _ (by simp) (by simp)] at hu
      rw [setThread_taskState, hstate]
      exact h.gone p' u hu
    · rw [setThread_running, Option.some.injEq] at hu
      exact hu ▸ h.mine hr
    · refine ⟨fun u hu => ?_, fun u hu => ?_, fun hf => ?_, fun _ u hu hst => ?_, fun st hst => ?_,
        fun _ => ?_⟩
      · rw [setThread_running, Option.some.injEq] at hu
        subst hu
        rw [setThread_place]
        refine .inr ⟨?_, ?_⟩
        · rw [setThread_taskState, hstate]
          exact hblock
        · rw [setThread_queues, hwait]
          exact List.mem_append_right _ (by simp)
      · rw [setThread_next] at hu
        rw [setThread_queues, setThread_running, hrunnable, (h.apart.nodup _).mem_erase_iff]
        obtain ⟨hu₁, hu₂⟩ := houtmem u hu
        exact ⟨⟨hu₂, hu₁⟩, fun he => hu₂ (Option.some.inj he).symm⟩
      · rw [setThread_place] at hf
        cases hf
      · rw [setThread_running, Option.some.injEq] at hu
        rw [setThread_taskState, hstate, ← hu, hblock] at hst
        exact absurd rfl hst
      · rw [setThread_place] at hst
        cases hst
      · rw [setThread_queues, hget _ (by simp) (by simp)]
        exact hgarbage
  refine hlinks.of_core ?_
  have hrun : Function.update s.runningTask p (some t) = s.runningTask := by
    rw [← hr, Function.update_eq_self]
  rw [hs₁, hout]
  unfold State.setThread State.asleep State.exchange
  dsimp only
  rw [hrun]
  rfl

/-- A task that is done leaves `runnableQueue_`, and is in no list then. -/
theorem Links.unlinkDone (h : Links s) (hr : s.runningTask p = some t)
    (hmem : t ∈ s.queues (.runnable p)) (hdone : s.taskState t = .done)
    (hnext : ∀ u, s.nextTask p = some u → u ∈ s.queues (.runnable p) ∧ u ≠ t)
    (hgarbage : s.queues (.garbage p) = []) {place : Place}
    (hplace : place = .pop .push ∨ place = .push) :
    Links (((s.setQueue (.runnable p) ((s.queues (.runnable p)).erase t)).setCheck t none).goto p
      place) := by
  have hseat : place.seat = .loose := by rcases hplace with rfl | rfl <;> rfl
  have hfresh : place.fresh = false := by rcases hplace with rfl | rfl <;> rfl
  have hstate : place.taskState = some .done := by rcases hplace with rfl | rfl <;> rfl
  have hother : ∀ r, r ≠ .runnable p → t ∉ s.queues r := fun r hr' ht =>
    hr' (h.apart.apart r _ t ht hmem)
  obtain ⟨s₁, hs₁⟩ : ∃ s₁, s₁ = (s.setQueue (.runnable p)
      ((s.queues (.runnable p)).erase t)).setCheck t none := ⟨_, rfl⟩
  have hrunnable : s₁.queues (.runnable p) = (s.queues (.runnable p)).erase t := by
    rw [hs₁]
    exact Function.update_self ..
  have hget : ∀ r, r ≠ .runnable p → s₁.queues r = s.queues r := by
    intro r hr'
    rw [hs₁]
    exact Function.update_of_ne hr' ..
  have hmem₁ : ∀ r u, u ∈ s₁.queues r → u ∈ s.queues r ∧ u ≠ t := by
    intro r u hu
    by_cases hrr : r = .runnable p
    · subst hrr
      rw [hrunnable, (h.apart.nodup _).mem_erase_iff] at hu
      exact ⟨hu.2, hu.1⟩
    · rw [hget r hrr] at hu
      exact ⟨hu, fun he => hother r hrr (he ▸ hu)⟩
  have hcheck : ∀ u, u ≠ t → s₁.check u = s.check u := by
    intro u hu
    rw [hs₁]
    exact Function.update_of_ne hu ..
  rw [← hs₁]
  refine h.of_local (p := p) ⟨fun p' hne => ?_, fun p' hne => ?_, fun p' hne => ?_,
    fun p' hne r hr' => hget r fun he => ?_, fun p' hne u hu => ⟨?_, ?_, ?_⟩⟩ ?_ (fun r u hu => ?_) ?_
    (fun r u hr' hu => ?_) (fun p' u hu => ?_) (fun u hu => ?_) ?_
  · rw [hs₁]
    exact Function.update_of_ne hne ..
  · rw [hs₁]
    rfl
  · rw [hs₁]
    rfl
  · rw [he] at hr'
    exact hne (isOf_unique hr' (by simp [Queue.isOf]))
  · rw [hs₁]
    rfl
  · exact hcheck u (h.running_ne hu hmem (by simpa [Queue.isOf] using hne))
  · exact fun habs r hu' => habs r (hmem₁ r u hu').1
  · have hsub : (s.queues (.runnable p)).erase t |>.Sublist (s.queues (.runnable p)) :=
      List.erase_sublist
    have hset := h.apart.shrink hsub
    rw [hs₁]
    exact hset
  · have := h.known r u (hmem₁ r u hu).1
    rwa [hs₁]
  · rw [hs₁]
    exact Nat.le_refl _
  · exact (hcheck u (hmem₁ r u hu).2).trans (h.tag r u hr' (hmem₁ r u hu).1)
  · have := h.gone p' u (hu.imp (fun hu => (hmem₁ _ u hu).1) (fun hu => (hmem₁ _ u hu).1))
    rwa [hs₁]
  · rw [hs₁] at hu
    exact h.mine hu
  · have hrun : (s₁.goto p place).runningTask p = some t := by
      rw [hs₁]
      exact hr
    refine ⟨fun u hu => ?_, fun u hu => ?_, fun hf => ?_, fun hc => ?_, fun st hst u hu => ?_,
      fun _ => ?_⟩
    · have hut : u = t := Option.some.inj (hu.symm.trans hrun)
      rw [goto_place, hseat, hut]
      refine ⟨?_, fun r hu' => (hmem₁ r t hu').2 rfl⟩
      show s₁.check t = none
      rw [hs₁]
      exact Function.update_self ..
    · have hu' : s.nextTask p = some u := by
        rw [hs₁] at hu
        exact hu
      obtain ⟨hmem', hne⟩ := hnext u hu'
      refine ⟨?_, ?_⟩
      · show u ∈ s₁.queues (.runnable p)
        rw [hrunnable, (h.apart.nodup _).mem_erase_iff]
        exact ⟨hne, hmem'⟩
      · rw [hrun, ne_eq, Option.some.injEq]
        exact hne.symm
    · rw [goto_place, hfresh] at hf
      cases hf
    · rw [goto_place, hseat] at hc
      cases hc
    · have hut : u = t := Option.some.inj (hu.symm.trans hrun)
      rw [goto_place, hstate] at hst
      cases hst
      rw [hut, hs₁]
      exact hdone
    · show s₁.queues (.garbage p) = []
      rw [hget _ (by simp)]
      exact hgarbage

theorem Links.eraseDone (h : Links s) (hplace : s.place p = .erase) (hs : s.thread p = some s') :
    Links s' := by
  unfold State.thread at hs
  rw [hplace] at hs
  obtain ⟨t, hr, heq⟩ := Option.bind_eq_some_iff.1 hs
  obtain ⟨s₂, hs₂, rfl⟩ := Option.map_eq_some_iff.1 heq
  have hp := h.seated p
  have hmem : t ∈ s.queues (.runnable p) := hp.linked hr (by rw [hplace]; rfl)
  have hdone : s.taskState t = .done := hp.state _ (by rw [hplace]; rfl) t hr
  unfold State.erase at hs₂
  rw [unlink_eq hmem, Option.map_some, Option.some.injEq] at hs₂
  obtain ⟨place, hpl⟩ : ∃ place, place =
      if 16 < (s₂.queues (.gc p)).length then Place.pop .push else .push := ⟨_, rfl⟩
  have hplace' : place = .pop .push ∨ place = .push := by
    rw [hpl]
    split
    · exact .inl rfl
    · exact .inr rfl
  rw [← hpl]
  refine (h.unlinkDone hr hmem hdone (fun u hu => ?_) (hp.garbage (by rw [hplace]; rfl))
    hplace').of_core ?_
  · obtain ⟨hu₁, hu₂⟩ := hp.next u hu
    exact ⟨hu₁, fun he => hu₂ (he ▸ hr)⟩
  · rw [← hs₂, core_goto, core_decRef]
    rfl

/-- A task that is done comes to `gcQueue_`. -/
theorem Links.pushDone (h : Links s) (hplace : s.place p = .push) (hs : s.thread p = some s') :
    Links s' := by
  unfold State.thread at hs
  rw [hplace] at hs
  obtain ⟨t, hr, heq⟩ := Option.map_eq_some_iff.1 hs
  have hp := h.seated p
  have hsits := hp.sits t hr
  rw [hplace] at hsits
  obtain ⟨hnone, habs⟩ := hsits
  have hdone : s.taskState t = .done := hp.state _ (by rw [hplace]; rfl) t hr
  obtain ⟨s₁, hs₁⟩ : ∃ s₁, s₁ = s.link (.gc p) t := ⟨_, rfl⟩
  have hgc : s₁.queues (.gc p) = s.queues (.gc p) ++ [t] := by
    rw [hs₁]
    exact Function.update_self ..
  have hget : ∀ r, r ≠ .gc p → s₁.queues r = s.queues r := by
    intro r hr'
    rw [hs₁]
    exact Function.update_of_ne hr' ..
  have hmem₁ : ∀ r u, u ∈ s₁.queues r → u ∈ s.queues r ∨ u = t ∧ r = .gc p := by
    intro r u hu
    by_cases hrr : r = .gc p
    · subst hrr
      rw [hgc, List.mem_append, List.mem_singleton] at hu
      exact hu.imp_right fun hu => ⟨hu, rfl⟩
    · rw [hget r hrr] at hu
      exact .inl hu
  have hcheck : ∀ u, u ≠ t → s₁.check u = s.check u := by
    intro u hu
    rw [hs₁]
    exact Function.update_of_ne hu ..
  have hrun : (s₁.goto p .finish).runningTask p = some t := by
    rw [hs₁]
    exact hr
  have hlinks : Links (s₁.goto p .finish) := by
    refine h.of_local (p := p) ⟨fun p' hne => ?_, fun p' hne => ?_, fun p' hne => ?_,
      fun p' hne r hr' => hget r fun he => ?_, fun p' hne u hu => ⟨?_, ?_, ?_⟩⟩ ?_ (fun r u hu => ?_)
      ?_ (fun r u hr' hu => ?_) (fun p' u hu => ?_) (fun u hu => ?_) ?_
    · rw [hs₁]
      exact Function.update_of_ne hne ..
    · rw [hs₁]
      rfl
    · rw [hs₁]
      rfl
    · rw [he] at hr'
      exact hne (isOf_unique hr' (by simp [Queue.isOf]))
    · rw [hs₁]
      rfl
    · exact hcheck u fun he => hne (h.running_unique hu (he ▸ hr))
    · intro habs' r hu'
      rcases hmem₁ r u hu' with hu' | ⟨he, -⟩
      · exact habs' r hu'
      · exact hne (h.running_unique hu (he ▸ hr))
    · have := h.apart.append (q := .gc p) habs
      rw [hs₁]
      exact this
    · have : u < s.created := by
        rcases hmem₁ r u hu with hu | ⟨he, -⟩
        · exact h.known r u hu
        · exact he ▸ h.knownRunning p t hr
      rwa [hs₁]
    · rw [hs₁]
      exact Nat.le_refl _
    · show s₁.check u = some r
      rcases hmem₁ r u hu with hu | ⟨he, hrr⟩
      · have hut : u ≠ t := fun he => habs r (he ▸ hu)
        rw [hcheck u hut]
        exact h.tag r u hr' hu
      · rw [he, hrr, hs₁]
        exact Function.update_self ..
    · have : s.taskState u = .done := by
        rcases hu with hu | hu
        · rcases hmem₁ _ u hu with hu | ⟨he, -⟩
          · exact h.gone p' u (.inl hu)
          · exact he ▸ hdone
        · rcases hmem₁ _ u hu with hu | ⟨he, -⟩
          · exact h.gone p' u (.inr hu)
          · exact he ▸ hdone
      rwa [hs₁]
    · rw [hs₁] at hu
      exact h.mine hu
    · refine ⟨fun u hu => ?_, fun u hu => ?_, fun hf => ?_, fun hc => ?_, fun st hst u hu => ?_,
        fun _ => ?_⟩
      · have hut : u = t := Option.some.inj (hu.symm.trans hrun)
        rw [goto_place, hut]
        show t ∈ s₁.queues (.gc p)
        rw [hgc]
        exact List.mem_append_right _ (by simp)
      · have hu' : s.nextTask p = some u := by
          rw [hs₁] at hu
          exact hu
        obtain ⟨hmem', hne⟩ := hp.next u hu'
        refine ⟨?_, ?_⟩
        · show u ∈ s₁.queues (.runnable p)
          rwa [hget _ (by simp)]
        · rwa [hrun, ← hr]
      · rw [goto_place] at hf
        cases hf
      · rw [goto_place] at hc
        cases hc
      · have hut : u = t := Option.some.inj (hu.symm.trans hrun)
        rw [goto_place] at hst
        cases hst
        rw [hut, hs₁]
        exact hdone
      · show s₁.queues (.garbage p) = []
        rw [hget _ (by simp)]
        exact hp.garbage (by rw [hplace]; rfl)
  refine hlinks.of_core ?_
  rw [← heq, hs₁]
  rfl

/-! ### The thread -/

theorem Links.nextRunnable (h : Links s) (hplace : s.place p = .nextRunnable)
    (hs : s.thread p = some s') : Links s' := by
  unfold State.thread at hs
  rw [hplace] at hs
  obtain ⟨t, -, heq⟩ := Option.map_eq_some_iff.1 hs
  have hp := h.seated p
  have hnext : s.nextTask p = none := hp.fresh (by rw [hplace]; rfl)
  dsimp only at heq
  have huse : (s.useQuota p).nextTask p = none := hnext
  rw [h.mark_eq fun u hu => mem_of_next hu, proceed_eq, huse] at heq
  obtain ⟨out, hout⟩ : ∃ out, out = next (s.queues (.runnable p)) t := ⟨_, rfl⟩
  have hinner : Links (s.setThread p out none (if out = none then .loop else .inner)) := by
    refine h.setThread_inner (fun u hu => ?_) (hp.garbage (by rw [hplace]; rfl))
    rw [hout] at hu
    exact mem_of_next hu
  refine hinner.of_core ?_
  rw [hout]
  rw [← heq]
  rfl

theorem Links.toNextThen (h : Links s) {place : Place} (hlinked : (s.place p).seat = .linked)
    (hfresh : (s.place p).fresh = false) (hdone : (s.place p).taskState = some .done)
    (hcollect : (s.place p).collecting = false) {s₁ : State} (hs : s.toNext p = some s₁)
    (hplace : place = .addNew .nextAgain ∨ place = .erase) : Links (s₁.goto p place) := by
  have h₁ := h.toNext hlinked hfresh hs
  obtain ⟨t, -, heq⟩ := Option.map_eq_some_iff.1 hs
  have hplace₁ : s₁.place p = s.place p := by
    obtain ⟨check, hmark⟩ := exists_mark_eq s (.runnable p) (next (s.queues (.runnable p)) t)
    rw [← heq]
    dsimp only
    rw [hmark]
  refine h₁.goto_like ?_ ?_ ?_ ?_
  all_goals rw [hplace₁]
  · rw [hlinked]
    rcases hplace with rfl | rfl <;> rfl
  · rcases hplace with rfl | rfl <;> exact fun hf => by cases hf
  · rw [hdone]
    rcases hplace with rfl | rfl <;> exact .inr rfl
  · exact fun _ => hcollect

/-- Every section of the thread keeps the invariant. -/
theorem Links.thread (h : Links s) (he : Enabled s (.thread p) = true)
    (hs : s.thread p = some s') : Links s' := by
  have hp := h.seated p
  cases hplace : s.place p with
  | loop =>
    rw [State.thread, hplace, Option.some.injEq] at hs
    have hidle : s.runningTask p = none := hp.idle (by rw [hplace]; rfl)
    subst hs
    refine h.goto (fun t ht => ?_) (fun _ => hp.fresh (by rw [hplace]; rfl)) (fun hc => ?_)
      (fun st hst t ht => ?_) fun _ => hp.garbage (by rw [hplace]; rfl)
    · rw [hidle] at ht
      cases ht
    · split at hc <;> cases hc
    · rw [hidle] at ht
      cases ht
  | front =>
    rw [State.thread, hplace, Option.some.injEq] at hs
    subst hs
    exact h.front rfl rfl (hp.fresh (by rw [hplace]; rfl)) (hp.garbage (by rw [hplace]; rfl))
  | frontAgain =>
    rw [State.thread, hplace, Option.some.injEq] at hs
    subst hs
    exact h.front rfl rfl (hp.fresh (by rw [hplace]; rfl)) (hp.garbage (by rw [hplace]; rfl))
  | addNew after =>
    rw [State.thread, hplace, Option.some.injEq] at hs
    subst hs
    refine h.goto_like ?_ ?_ ?_ ?_
    all_goals rw [hplace]
    all_goals cases after <;> simp [Place.seat, Place.fresh, Place.taskState, Place.collecting]
  | adding after n =>
    rw [State.thread, hplace, Option.some.injEq] at hs
    exact hs ▸ h.adding hplace
  | pop after =>
    rw [State.thread, hplace, Option.some.injEq] at hs
    exact hs ▸ h.popAll hplace
  | release after rest =>
    rw [State.thread, hplace, Option.some.injEq] at hs
    exact hs ▸ h.release hplace
  | clear after =>
    rw [State.thread, hplace, Option.some.injEq] at hs
    exact hs ▸ h.clear hplace
  | condition =>
    rw [State.thread, hplace, Option.some.injEq] at hs
    have hgoto : ∀ place : Place, place = .addNew .loop ∨ place = .blocked → Links (s.goto p place) := by
      intro place hpl
      refine h.goto_like ?_ ?_ ?_ ?_
      all_goals rw [hplace]
      all_goals rcases hpl with rfl | rfl <;>
        simp [Place.seat, AfterAdd.seat, Place.fresh, Place.taskState, Place.collecting]
    subst hs
    unfold State.condition
    split
    · exact (hgoto _ (.inl rfl)).of_core rfl
    · exact (hgoto _ (.inr rfl)).of_core rfl
  | blocked => simp [Enabled, hplace] at he
  | woken =>
    rw [State.thread, hplace, Option.some.injEq] at hs
    have hgoto : Links (s.goto p (.addNew .loop)) := by
      refine h.goto_like ?_ ?_ ?_ ?_
      all_goals rw [hplace]
      all_goals simp [Place.seat, AfterAdd.seat, Place.fresh, Place.taskState, Place.collecting]
    subst hs
    exact hgoto.of_core rfl
  | inner =>
    rw [State.thread, hplace, Option.some.injEq] at hs
    subst hs
    have hseat : ∀ place : Place, place = .stopped ∨ place = .swapIn → Links (s.goto p place) := by
      intro place hpl
      refine h.goto_like ?_ ?_ ?_ ?_
      all_goals rw [hplace]
      all_goals rcases hpl with rfl | rfl <;>
        simp [Place.seat, Place.fresh, Place.taskState, Place.collecting]
    refine hseat _ ?_
    split
    · exact .inl rfl
    · exact .inr rfl
  | swapIn =>
    rw [State.thread, hplace] at hs
    exact h.swapIn hplace hs
  | running => simp [Enabled, hplace] at he
  | suspending =>
    rw [State.thread, hplace] at hs
    exact h.suspendBySelf hplace hs
  | switch =>
    rw [State.thread, hplace] at hs
    exact h.switch hplace hs
  | nextRunnable => exact h.nextRunnable hplace hs
  | next =>
    rw [State.thread, hplace] at hs
    obtain ⟨s₁, hs₁, rfl⟩ := Option.map_eq_some_iff.1 hs
    refine h.toNextThen (by rw [hplace]; rfl) (by rw [hplace]; rfl) (by rw [hplace]; rfl)
      (by rw [hplace]; rfl) hs₁ ?_
    split
    · exact .inl rfl
    · exact .inr rfl
  | nextAgain =>
    rw [State.thread, hplace] at hs
    obtain ⟨s₁, hs₁, rfl⟩ := Option.map_eq_some_iff.1 hs
    exact (h.toNextThen (by rw [hplace]; rfl) (by rw [hplace]; rfl) (by rw [hplace]; rfl)
      (by rw [hplace]; rfl) hs₁ (.inr rfl)).of_core rfl
  | erase => exact h.eraseDone hplace hs
  | push => exact h.pushDone hplace hs
  | finish =>
    rw [State.thread, hplace, Option.some.injEq] at hs
    exact hs ▸ h.takeNext (hp.garbage (by rw [hplace]; rfl))
  | stopped => simp [Enabled, hplace] at he

/-! ### `Wakeup` -/

/-- A task goes from `waitQueue_` to `runnableQueue_`. -/
theorem Links.wakeTask (h : Links s) (hmem : t ∈ s.queues (.wait p)) :
    Links (s.exchange (.wait p) (.runnable p) ((s.queues (.wait p)).erase t)
      (s.queues (.runnable p) ++ [t]) (Function.update s.check t (some (.runnable p)))) := by
  have hne : Queue.wait p ≠ .runnable p := by simp
  have hperm : ((s.queues (.wait p)).erase t ++ (s.queues (.runnable p) ++ [t])).Perm
      (s.queues (.wait p) ++ s.queues (.runnable p)) := erase_append_perm hmem
  have hother : ∀ r, r ≠ .wait p → t ∉ s.queues r := fun r hr ht =>
    hr (h.apart.apart r _ t ht hmem)
  refine h.exchange hne hperm (fun r u hr hu => ?_) (fun p' u hu => ?_) fun p' => ?_
  · by_cases hut : u = t
    · subst hut
      have hrr : r = .runnable p := by
        by_contra hrr
        by_cases hrw : r = .wait p
        · subst hrw
          rw [exchange_other hne, (h.apart.nodup _).mem_erase_iff] at hu
          exact hu.1 rfl
        · rw [exchange_of_ne hrw hrr] at hu
          exact hother r hrw hu
      rw [hrr]
      exact Function.update_self ..
    · rw [Function.update_of_ne hut]
      by_cases hrr : r = .runnable p
      · subst hrr
        rw [exchange_self, List.mem_append, List.mem_singleton] at hu
        exact h.tag _ u hr (hu.resolve_right hut)
      · by_cases hrw : r = .wait p
        · subst hrw
          rw [exchange_other hne] at hu
          exact h.tag _ u hr (List.mem_of_mem_erase hu)
        · rw [exchange_of_ne hrw hrr] at hu
          exact h.tag r u hr hu
  · rw [exchange_of_ne (by simp) (by simp), exchange_of_ne (by simp) (by simp)] at hu
    exact h.gone p' u hu
  · refine ⟨fun u _ hu => ?_, fun u _ hu => ?_, fun u _ hu => ?_, fun u _ hcheck habs => ?_,
      fun _ hg => ?_⟩
    · by_cases hp : p' = p
      · subst hp
        rw [exchange_self]
        exact List.mem_append_left _ hu
      · rwa [exchange_of_ne (by simp) (by simpa using hp)]
    · by_cases hp : p' = p
      · subst hp
        rw [exchange_self, exchange_other hne, (h.apart.nodup _).mem_erase_iff]
        by_cases hut : u = t
        · exact .inr (List.mem_append_right _ (by simp [hut]))
        · exact .inl ⟨hut, hu⟩
      · rw [exchange_of_ne (by simpa using hp) (by simp)]
        exact .inl hu
    · rwa [exchange_of_ne (by simp) (by simp)]
    · have hut : u ≠ t := fun he => habs (.wait p) (he ▸ hmem)
      exact ⟨(Function.update_of_ne hut ..).trans hcheck, (absent_exchange hne hperm).2 habs⟩
    · rwa [exchange_of_ne (by simp) (by simp)]

theorem Links.wakeupBySelf (h : Links s) {k : Nat} {w : Wakeup}
    (hs : s.wakeupBySelf k w p = some s') : Links s' := by
  rcases wakeupBySelf_cases hs with ⟨-, rfl⟩ | ⟨-, hmem, rfl⟩
  · exact h.of_core rfl
  · exact (h.wakeTask hmem).of_core rfl

theorem Links.notifyAll (h : Links s) : Links (s.notifyAll p) := by
  unfold State.notifyAll
  split
  · rename_i hplace
    refine h.goto_like ?_ ?_ ?_ ?_
    all_goals rw [hplace]
    all_goals simp [Place.seat, Place.fresh, Place.taskState, Place.collecting]
  · exact h

theorem Links.notifyCondition (h : Links s) : Links (s.notifyCondition p) := by
  unfold State.notifyCondition
  split
  · exact h.notifyAll
  · exact h.of_core rfl

theorem Links.wakeup (h : Links s) {k : Nat} {w : Wakeup} (hs : s.wakeup k w = some s') :
    Links s' := by
  unfold State.wakeup at hs
  split at hs
  · rw [Option.some.injEq] at hs
    subst hs
    split
    · exact h.of_core rfl
    · exact h.of_core rfl
  · cases hs
    exact h.of_core rfl
  · cases hs
    exact h.of_core rfl
  · exact h.wakeupBySelf hs
  · cases hs
    exact h.notifyCondition.of_core rfl
  · cases hs
    exact h.of_core (by simp)
  · cases hs
    exact h

theorem Links.adder (h : Links s) (k : Nat) (a : Adder) : Links (s.adder k a) := by
  unfold State.adder
  split
  · exact h.of_core rfl
  · exact h.notifyAll.of_core rfl
  · exact h.of_core rfl
  · exact h

/-! ### `CreateTask` -/

theorem Links.create (h : Links s) (p : Nat) : Links (s.create p) := by
  have hnew : Absent s.queues s.created := fun q hq => Nat.lt_irrefl _ (h.known q _ hq)
  have hget : ∀ q, q ≠ .up p → (s.create p).queues q = s.queues q :=
    fun q hq => Function.update_of_ne hq ..
  have hup : (s.create p).queues (.up p) = s.queues (.up p) ++ [s.created] := Function.update_self ..
  have hmem : ∀ q t, t ∈ (s.create p).queues q → t ∈ s.queues q ∨ t = s.created ∧ q = .up p := by
    intro q t ht
    by_cases hq : q = .up p
    · subst hq
      rw [hup, List.mem_append, List.mem_singleton] at ht
      exact ht.imp_right fun ht => ⟨ht, rfl⟩
    · rw [hget q hq] at ht
      exact .inl ht
  have hold : ∀ t < s.created, (s.create p).check t = s.check t ∧
      (s.create p).taskState t = s.taskState t := by
    intro t ht
    exact ⟨Function.update_of_ne ht.ne .., Function.update_of_ne ht.ne ..⟩
  have hapart : Apart (s.create p).queues := h.apart.append (q := Queue.up p) hnew
  refine h.of_keeps rfl rfl rfl (fun t ht => (hold t ht).2) (Nat.le_succ _) hapart
    (fun q t ht => ?_) (fun q t hq ht => ?_) (fun p' t ht => ?_) fun p' => ?_
  · rcases hmem q t ht with ht | ⟨rfl, -⟩
    · exact (h.known q t ht).trans (Nat.lt_succ_self _)
    · exact Nat.lt_succ_self _
  · rcases hmem q t ht with ht | ⟨-, rfl⟩
    · rw [(hold t (h.known q t ht)).1]
      exact h.tag q t hq ht
    · cases hq
  · rw [hget _ (by simp), hget _ (by simp)] at ht
    have hlt : t < s.created := ht.elim (h.known _ t) (h.known _ t)
    rw [(hold t hlt).2]
    exact h.gone p' t ht
  · refine ⟨fun t _ ht => ?_, fun t _ ht => .inl ?_, fun t _ ht => ?_, fun t hr hcheck habs => ?_,
      fun _ hg => ?_⟩
    · rwa [hget _ (by simp)]
    · rwa [hget _ (by simp)]
    · rwa [hget _ (by simp)]
    · have hlt := h.knownRunning p' t hr
      refine ⟨(hold t hlt).1.trans hcheck, fun q ht => ?_⟩
      rcases hmem q t ht with ht | ⟨he, -⟩
      · exact habs q ht
      · exact hlt.ne he
    · rwa [hget _ (by simp)]

end Costream.Scheduler
