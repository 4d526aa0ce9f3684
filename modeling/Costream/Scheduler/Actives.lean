import Costream.Scheduler.Balance

/-!
# The map of the active processors

The first phase of a cycle makes the map again when tasks have been shared out.  It enters the
processors of the old range twice: the loop that gives them tasks makes an entry for each of them
until there are no more tasks, and another loop makes one for all of them.

* `Exact` is what the map should be: one entry for each active processor, under its load.
* `Usable` is what the second phase reads off the map.  It holds in either case, for the entries
  made too early have a load that is not zero, and not larger than it is in the end.
-/

namespace Costream.Scheduler

open Trace Costream.Lists

/-! ## The first phase -/

/-- What the first phase leaves. -/
structure FirstPhase where
  active : List Bool
  state : State
  actives : ActiveMap

/-- A cycle up to the end of its first phase. -/
def Dispatcher.firstPhase (d : Dispatcher) (blocking : Nat → Bool)
    (minThreadNumber maxThreadNumber : Nat) : Option FirstPhase :=
  let g := newProcessThread maxThreadNumber (d.gather blocking minThreadNumber)
  if g.actives = [] then some ⟨g.dispatcher.active, g.dispatcher.state, []⟩
  else
    (g.dispatcher.state.balanceBlocked (d.blockings blocking) g.actives).map fun r =>
      ⟨g.dispatcher.active, r.1, r.2.1⟩

namespace FirstPhase

/-- Each active processor is in the map once, under its load. -/
structure Exact (r : FirstPhase) : Prop where
  once : (r.actives.map Prod.snd).Nodup
  active : ∀ p, p ∈ r.actives.map Prod.snd ↔ r.active[p]? = some true
  loads : ∀ e ∈ r.actives, e.1 = r.state.runnableSize e.2

/-- The active processors with no load. -/
def idle (r : FirstPhase) : List Nat :=
  (List.range r.active.length).filter fun p =>
    r.active[p]? = some true ∧ r.state.runnableSize p = 0

/-- `waitN` is the number of the idle processors, and `actives.rbegin()` is one of maximal load. -/
structure Usable (r : FirstPhase) : Prop where
  waitN : ∀ first, r.actives.head? = some first → first.1 = 0 →
    r.actives.least.length = r.idle.length
  maximal : ∀ last, r.actives.getLast? = some last → r.active[last.2]? = some true ∧
    ∀ p, r.active[p]? = some true → r.state.runnableSize p ≤ r.state.runnableSize last.2

end FirstPhase

/-- There is nothing that `Steal(0)` takes from `p`. -/
def State.NothingToSteal (s : State) (p : Nat) : Prop := s.queues (.new p) = [] ∧ s.rest p = []

/-- All processors block, but those that are inactive when none has to be active, and there can be
no other one. -/
def Dispatcher.NoneActive (d : Dispatcher) (blocking : Nat → Bool)
    (minThreadNumber maxThreadNumber : Nat) : Prop :=
  maxThreadNumber ≤ d.active.length ∧ ∀ i < d.active.length,
    blocking i = true ∨ minThreadNumber = 0 ∧ d.active[i]? = some false

variable {s s' : State} {p n : Nat} {m : ActiveMap} {blocking : Nat → Bool} {d : Dispatcher}
  {g : Gathered} {minThreadNumber maxThreadNumber : Nat}

/-! ## Maps in the order of their keys -/

def ActiveMap.Sorted (m : ActiveMap) : Prop := m.Pairwise fun e e' => e.1 ≤ e'.1

theorem ActiveMap.Sorted.insert (h : m.Sorted) (load p : Nat) : (m.insert load p).Sorted := by
  induction m with
  | nil => exact List.pairwise_singleton _ _
  | cons e rest ih =>
    obtain ⟨hfirst, hrest⟩ := List.pairwise_cons.1 h
    unfold ActiveMap.insert
    split
    · rename_i hle
      refine List.pairwise_cons.2 ⟨fun x hx => ?_, ih hrest⟩
      rcases mem_insert.1 hx with heq | hx
      · rw [heq]
        exact hle
      · exact hfirst x hx
    · rename_i hlt
      refine List.pairwise_cons.2 ⟨fun x hx => ?_, h⟩
      simp only
      rcases List.mem_cons.1 hx with heq | hx
      · rw [heq]
        omega
      · have hle := hfirst x hx
        omega

theorem ActiveMap.Sorted.foldl_insert (h : m.Sorted) (f : Nat × Nat → Nat) (l : ActiveMap) :
    (l.foldl (fun m e => m.insert (f e) e.2) m).Sorted := by
  induction l generalizing m with
  | nil => exact h
  | cons e l ih =>
    rw [List.foldl_cons]
    exact ih (h.insert (f e) e.2)

theorem foldl_insert_perm (f : Nat × Nat → Nat) (l m : ActiveMap) :
    (l.foldl (fun m e => m.insert (f e) e.2) m).Perm (l.map (fun e => (f e, e.2)) ++ m) := by
  induction l generalizing m with
  | nil => exact List.Perm.refl _
  | cons e l ih =>
    rw [List.foldl_cons, List.map_cons, List.cons_append]
    refine (ih (m.insert (f e) e.2)).trans ?_
    refine (List.Perm.append_left _ (insert_perm (f e) e.2 m)).trans ?_
    exact List.perm_middle

theorem ActiveMap.Sorted.others (h : m.Sorted) : m.others.Sorted := by
  rw [← least_append_others m] at h
  exact (List.pairwise_append.1 h).2.1

theorem takeWhile_eq_filter {k : Nat} (h : m.Sorted) (hmin : ∀ x ∈ m, k ≤ x.1) :
    (m.takeWhile fun e => e.1 = k) = m.filter fun e => e.1 = k := by
  induction m with
  | nil => rfl
  | cons x rest ih =>
    obtain ⟨hx, hrest⟩ := List.pairwise_cons.1 h
    by_cases heq : x.1 = k
    · rw [List.takeWhile_cons_of_pos (by simpa using heq),
        List.filter_cons_of_pos (by simpa using heq),
        ih hrest fun y hy => hmin y (List.mem_cons_of_mem x hy)]
    · rw [List.takeWhile_cons_of_neg (by simpa using heq),
        List.filter_cons_of_neg (by simpa using heq)]
      refine (List.filter_eq_nil_iff.2 fun y hy => ?_).symm
      have hkx := hmin x List.mem_cons_self
      have hxy := hx y hy
      simp only [decide_eq_true_eq]
      omega

/-- The range of the first key has all its entries. -/
theorem ActiveMap.Sorted.least_eq (h : m.Sorted) {first : Nat × Nat} (hfirst : m.head? = some first) :
    m.least = m.filter fun e => e.1 = first.1 := by
  cases m with
  | nil => cases hfirst
  | cons e rest =>
    rw [List.head?_cons, Option.some.injEq] at hfirst
    obtain ⟨hmin, hrest⟩ := List.pairwise_cons.1 h
    rw [← hfirst, List.filter_cons_of_pos (by simp), ← takeWhile_eq_filter hrest hmin]
    rfl

/-- The last key is the largest one. -/
theorem ActiveMap.Sorted.le_last (h : m.Sorted) {last e : Nat × Nat} (hlast : m.getLast? = some last)
    (he : e ∈ m) : e.1 ≤ last.1 := by
  obtain ⟨front, hfront⟩ := List.getLast?_eq_some_iff.1 hlast
  rw [hfront] at he h
  rcases List.mem_append.1 he with he | he
  · exact (List.pairwise_append.1 h).2.2 e he last List.mem_cons_self
  · rw [List.mem_singleton.1 he]

/-! ## Looking at the processors -/

/-- The tasks are where they were. -/
structure SameTasks (s s' : State) : Prop where
  queues : s'.queues = s.queues
  running : s'.runningTask = s.runningTask
  next : s'.nextTask = s.nextTask

theorem sameTasks_notifyCondition (s : State) (p : Nat) : SameTasks s (s.notifyCondition p) := by
  unfold State.notifyCondition State.notifyAll
  split
  · split
    · exact ⟨rfl, rfl, rfl⟩
    · exact ⟨rfl, rfl, rfl⟩
  · exact ⟨rfl, rfl, rfl⟩

theorem SameTasks.trans {s'' : State} (h : SameTasks s s') (h' : SameTasks s' s'') :
    SameTasks s s'' :=
  ⟨h'.queues.trans h.queues, h'.running.trans h.running, h'.next.trans h.next⟩

theorem SameTasks.nothingToSteal_iff (h : SameTasks s s') :
    s'.NothingToSteal p ↔ s.NothingToSteal p := by
  unfold State.NothingToSteal State.rest State.self
  rw [h.queues, h.running, h.next]

/-- After the loop has looked at the processors below `n`: those that are active have an entry,
and as long as there is none, no processor has been activated. -/
structure Gathered.Full (g : Gathered) (blocking : Nat → Bool) (d : Dispatcher) (quota n : Nat) :
    Prop where
  same : SameTasks d.state g.dispatcher.state
  sorted : g.actives.Sorted
  loads : ∀ e ∈ g.actives, e.1 = d.state.runnableSize e.2
  complete : ∀ i < n, g.dispatcher.active[i]? = some true → i ∈ g.actives.map Prod.snd
  untouched : g.actives = [] ∨ quota = 0 →
    g.activeQuota = quota ∧ g.dispatcher.active = (d.markBlocked blocking).active
  refused : g.actives = [] → ∀ i < n, (d.markBlocked blocking).active[i]? = some false →
    quota = 0 ∨ blocking i = true

/-- What the loop does to the map and to the marks of the processors. -/
theorem visit_cases (g : Gathered) (blocking : Nat → Bool) (n : Nat) :
    SameTasks g.dispatcher.state (Dispatcher.visit blocking g n).dispatcher.state ∧
    (((Dispatcher.visit blocking g n).actives =
        g.actives.insert (g.dispatcher.state.runnableSize n) n ∧
      (∀ i ≠ n, (Dispatcher.visit blocking g n).dispatcher.active[i]? = g.dispatcher.active[i]?) ∧
      (g.activeQuota = 0 → (Dispatcher.visit blocking g n).activeQuota = g.activeQuota ∧
        (Dispatcher.visit blocking g n).dispatcher.active = g.dispatcher.active)) ∨
    ((Dispatcher.visit blocking g n).actives = g.actives ∧
      (Dispatcher.visit blocking g n).dispatcher.active = g.dispatcher.active ∧
      (Dispatcher.visit blocking g n).activeQuota = g.activeQuota ∧
      g.dispatcher.active[n]? ≠ some true ∧
      (g.dispatcher.active[n]? = some false → g.activeQuota = 0 ∨ blocking n = true))) := by
  unfold Dispatcher.visit
  simp only
  by_cases hnew : g.dispatcher.active[n]? = some false ∧ 0 < g.activeQuota ∧ blocking n = false
  · rw [if_pos hnew]
    have hlt : n < g.dispatcher.active.length := (List.getElem?_eq_some_iff.1 hnew.1).1
    have htrue : (g.dispatcher.active.set n true)[n]? = some true := by
      rw [List.getElem?_set_self hlt]
    simp only [htrue, if_true]
    refine ⟨?_, .inl ⟨?_, fun i hi => ?_, fun hzero => ?_⟩⟩
    · split
      · exact sameTasks_notifyCondition _ _
      · exact ⟨rfl, rfl, rfl⟩
    · split
      · rfl
      · rfl
    · split
      · exact List.getElem?_set_ne (Ne.symm hi)
      · exact List.getElem?_set_ne (Ne.symm hi)
    · omega
  · rw [if_neg hnew]
    by_cases htrue : g.dispatcher.active[n]? = some true
    · rw [if_pos htrue]
      refine ⟨?_, .inl ⟨?_, fun i _ => ?_, fun _ => ?_⟩⟩
      · split
        · exact sameTasks_notifyCondition _ _
        · exact ⟨rfl, rfl, rfl⟩
      · split
        · rfl
        · rfl
      · split
        · rfl
        · rfl
      · split
        · exact ⟨rfl, rfl⟩
        · exact ⟨rfl, rfl⟩
    · rw [if_neg htrue]
      have hstay : g.dispatcher.active[n]? = some false → g.activeQuota = 0 ∨ blocking n = true := by
        intro hfalse
        by_contra hnot
        rw [not_or] at hnot
        exact hnew ⟨hfalse, Nat.pos_of_ne_zero hnot.1, by simpa using hnot.2⟩
      split
      · exact ⟨sameTasks_notifyCondition _ _, .inr ⟨rfl, rfl, rfl, htrue, hstay⟩⟩
      · exact ⟨⟨rfl, rfl, rfl⟩, .inr ⟨rfl, rfl, rfl, htrue, hstay⟩⟩

theorem Gathered.Full.visit {quota : Nat} (h : g.Full blocking d quota n) :
    (Dispatcher.visit blocking g n).Full blocking d quota (n + 1) := by
  obtain ⟨hsame, ⟨hactives, hother, hzero⟩ | ⟨hactives, hactive, hquota, hnot, hstay⟩⟩ :=
    visit_cases g blocking n
  · have hmem : (g.dispatcher.state.runnableSize n, n) ∈ (Dispatcher.visit blocking g n).actives := by
      rw [hactives]
      exact mem_insert.2 (.inl rfl)
    refine ⟨h.same.trans hsame, ?_, fun e he => ?_, fun i hi htrue => ?_, fun hor => ?_,
      fun hnil => ?_⟩
    · rw [hactives]
      exact h.sorted.insert _ _
    · rw [hactives] at he
      rcases mem_insert.1 he with heq | he
      · rw [heq]
        exact runnableSize_of_queues h.same.queues n
      · exact h.loads e he
    · rw [hactives, ((insert_perm _ _ _).map Prod.snd).mem_iff, List.map_cons, List.mem_cons]
      by_cases heq : i = n
      · exact .inl heq
      · rw [hother i heq] at htrue
        exact .inr (h.complete i (by omega) htrue)
    · rcases hor with hnil | hquota
      · rw [hnil] at hmem
        cases hmem
      · obtain ⟨hold, hmarked⟩ := h.untouched (.inr hquota)
        obtain ⟨hquota', hactive⟩ := hzero (hold.trans hquota)
        exact ⟨hquota'.trans hold, hactive.trans hmarked⟩
    · rw [hnil] at hmem
      cases hmem
  · refine ⟨h.same.trans hsame, hactives ▸ h.sorted, hactives ▸ h.loads, fun i hi htrue => ?_, ?_,
      fun hnil i hi hfalse => ?_⟩
    · rw [hactive] at htrue
      have hne : i ≠ n := by
        intro heq
        exact hnot (heq ▸ htrue)
      rw [hactives]
      exact h.complete i (by omega) htrue
    · rw [hactives, hactive, hquota]
      exact h.untouched
    · rw [hactives] at hnil
      obtain ⟨hold, hmarked⟩ := h.untouched (.inl hnil)
      by_cases heq : i = n
      · rw [heq, ← hmarked] at hfalse
        rw [heq, ← hold]
        exact hstay hfalse
      · exact h.refused hnil i (by omega) hfalse

theorem gather_full (d : Dispatcher) (blocking : Nat → Bool) (minThreadNumber : Nat) :
    (d.gather blocking minThreadNumber).Full blocking d
      (minThreadNumber - (d.markBlocked blocking).active.count true) d.active.length := by
  have hlen : (d.markBlocked blocking).active.length = d.active.length := List.length_mapIdx ..
  have hloop : ∀ n, ((List.range n).foldl (Dispatcher.visit blocking)
      ⟨d.markBlocked blocking, minThreadNumber - (d.markBlocked blocking).active.count true, []⟩).Full
      blocking d (minThreadNumber - (d.markBlocked blocking).active.count true) n := by
    intro n
    induction n with
    | zero =>
      refine ⟨⟨rfl, rfl, rfl⟩, List.Pairwise.nil, fun e he => ?_, fun i hi => ?_, fun _ => ⟨rfl, rfl⟩,
        fun _ i hi => ?_⟩
      · cases he
      · omega
      · omega
    | succ n ih =>
      rw [List.range_succ, List.foldl_append]
      exact ih.visit
  have hall := hloop (d.markBlocked blocking).active.length
  rw [hlen] at hall
  unfold Dispatcher.gather
  simp only
  rw [hlen]
  exact hall

/-! ### No active processor -/

theorem markBlocked_getElem? (d : Dispatcher) (blocking : Nat → Bool) (i : Nat) :
    (d.markBlocked blocking).active[i]? = d.active[i]?.map fun active => active && !blocking i :=
  List.getElem?_mapIdx ..

theorem gather_eq_nil (h : Idle d.state) : (d.gather blocking minThreadNumber).actives = [] ↔
    ∀ i < d.active.length, blocking i = true ∨ minThreadNumber = 0 ∧ d.active[i]? = some false := by
  have hfull := gather_full d blocking minThreadNumber
  have hinv : (d.gather blocking minThreadNumber).Inv blocking d d.active.length := gather_inv h
  constructor
  · intro hnil i hi
    obtain ⟨-, hmarked⟩ := hfull.untouched (.inl hnil)
    -- no processor is active before the loop, so all of the quota is there
    have hnone : ∀ j < d.active.length, (d.markBlocked blocking).active[j]? ≠ some true := by
      intro j hj htrue
      rw [← hmarked] at htrue
      have hmem := hfull.complete j hj htrue
      rw [hnil] at hmem
      cases hmem
    have hcount : (d.markBlocked blocking).active.count true = 0 := by
      refine List.count_eq_zero.2 fun hmem => ?_
      obtain ⟨j, hj⟩ := List.mem_iff_getElem?.1 hmem
      have hlt : j < (d.markBlocked blocking).active.length := (List.getElem?_eq_some_iff.1 hj).1
      have hlen : (d.markBlocked blocking).active.length = d.active.length := List.length_mapIdx ..
      exact hnone j (hlen ▸ hlt) hj
    rw [hcount, Nat.sub_zero] at hfull
    cases hblock : blocking i with
    | true => exact .inl rfl
    | false =>
      have hget : d.active[i]? = some d.active[i] := List.getElem?_eq_getElem hi
      have hmark := markBlocked_getElem? d blocking i
      rw [hget, Option.map_some, hblock, Bool.not_false, Bool.and_true] at hmark
      have hfalse : d.active[i] = false := by
        cases hb : d.active[i] with
        | false => rfl
        | true =>
          rw [hb] at hmark
          exact absurd hmark (hnone i hi)
      rw [hfalse] at hmark
      rcases hfull.refused hnil i hi hmark with hquota | hblocking
      · exact .inr ⟨hquota, by rw [hget, hfalse]⟩
      · rw [hblock] at hblocking
        cases hblocking
  · intro hall
    refine List.eq_nil_iff_forall_not_mem.2 fun e he => ?_
    obtain ⟨hlt, htrue⟩ := hinv.entries e he
    have hblock := hinv.unblocked e.2 htrue
    rcases hall e.2 hlt with hblocking | ⟨hzero, hfalse⟩
    · rw [hblock] at hblocking
      cases hblocking
    · have hquota : minThreadNumber - (d.markBlocked blocking).active.count true = 0 := by omega
      rw [(hfull.untouched (.inr hquota)).2, markBlocked_getElem?, hfalse] at htrue
      cases htrue

/-! ## What is stolen from the blocked processors -/

/-- `Steal(0)` takes all but the running and the next task, and nothing of another processor. -/
theorem Quiet.stealAll_zero (h : Quiet s) (k p : Nat) (hk : s.queues (.stolen k) = []) :
    ∃ s', s.stealAll k p 0 = some s' ∧ Quiet s' ∧
      s'.queues (.stolen k) = s.rest p ++ s.queues (.new p) ∧
      (∀ q, q ≠ .runnable p → q ≠ .new p → q ≠ .stolen k → s'.queues q = s.queues q) ∧
      s'.runningTask = s.runningTask ∧ s'.nextTask = s.nextTask := by
  obtain ⟨s', hs', hquiet, -, hothers⟩ := h.stealAll k p 0 hk
  obtain ⟨hlinks, hshort⟩ := short_of_run h.reachable
  obtain ⟨s'', hs'', hsafe⟩ := hlinks.stealAll_safe (p := p) (n := 0) hshort hk (h.stealing k)
  have hsame : s' = s'' := Option.some.inj (hs'.symm.trans hs'')
  refine ⟨s', hs', hquiet, ?_, hothers, hsame ▸ hsafe.threads⟩
  have hstealing : (s.steal k p 0).stealing k = some (p, 0) := by
    rw [steal_stealing, if_neg (by simp), Function.update_self]
  unfold State.stealAll at hs'
  simp only [hstealing] at hs'
  obtain ⟨D, C, heq, -⟩ := (hlinks.steal (p := p) (n := 0) hk).stealRest_eq (k := k) (p := p) (n := 0)
  rw [heq, Option.some.injEq] at hs'
  have hrest : (s.steal k p 0).rest p = s.rest p := by
    obtain ⟨hrunning, hnext⟩ := steal_threads k p 0 s
    unfold State.rest State.self
    rw [hrunning, hnext, steal_other k p 0 s (by simp) (by simp)]
  have hstolen : (s.steal k p 0).queues (.stolen k) = s.queues (.new p) := steal_stolen k p 0 s
  rw [← hs']
  show ((s.steal k p 0).stealt k p 0).queues (.stolen k) = _
  rw [stealt_stolen, hrest, hstolen, Nat.zero_sub]
  rfl

/-- Nothing is stolen if there is nothing to steal from any of the processors. -/
theorem Quiet.stealBlocked_eq_nil (h : Quiet s) (hempty : s.queues (.stolen 1) = [])
    {blockings : List Nat} (hnodup : blockings.Nodup) {l : List Handed}
    (hs : s.stealBlocked blockings = some (s', l)) :
    s'.queues (.stolen 0) = [] ↔
      s.queues (.stolen 0) = [] ∧ ∀ p ∈ blockings, s.NothingToSteal p := by
  induction blockings generalizing s l with
  | nil =>
    unfold State.stealBlocked at hs
    rw [Option.some.injEq, Prod.mk.injEq] at hs
    rw [hs.1]
    simp
  | cons p rest ih =>
    obtain ⟨hp, hrest⟩ := List.nodup_cons.1 hnodup
    obtain ⟨s₁, hs₁, hquiet, hstolen, hothers, hrunning, hnext⟩ := h.stealAll_zero 1 p hempty
    unfold State.stealBlocked at hs
    rw [hs₁, Option.bind_some] at hs
    obtain ⟨⟨u, l'⟩, hr, heq⟩ := Option.map_eq_some_iff.1 hs
    have hu : u = s' := (Prod.mk.inj heq).1
    rw [hu] at hr
    have hone : (s₁.append 0 1).queues (.stolen 1) = [] := by
      rw [append_queues, Function.update_self]
    have hzero : (s₁.append 0 1).queues (.stolen 0) =
        s.queues (.stolen 0) ++ (s.rest p ++ s.queues (.new p)) := by
      rw [append_queues, Function.update_of_ne (by simp), Function.update_self, hstolen,
        hothers (.stolen 0) (by simp) (by simp) (by simp)]
    -- the other processors have what they had
    have hkept : ∀ p' ∈ rest, (s₁.append 0 1).NothingToSteal p' ↔ s.NothingToSteal p' := by
      intro p' hp'
      have hne : p' ≠ p := by
        intro heq
        exact hp (heq ▸ hp')
      have hnew : (s₁.append 0 1).queues (.new p') = s.queues (.new p') := by
        rw [append_queues, Function.update_of_ne (by simp), Function.update_of_ne (by simp)]
        exact hothers _ (by simp) (by simpa using hne) (by simp)
      have hrunnable : (s₁.append 0 1).queues (.runnable p') = s.queues (.runnable p') := by
        rw [append_queues, Function.update_of_ne (by simp), Function.update_of_ne (by simp)]
        exact hothers _ (by simpa using hne) (by simp) (by simp)
      have hthreads : (s₁.append 0 1).runningTask = s.runningTask ∧
          (s₁.append 0 1).nextTask = s.nextTask := ⟨hrunning, hnext⟩
      unfold State.NothingToSteal State.rest State.self
      rw [hnew, hrunnable, hthreads.1, hthreads.2]
    rw [ih hquiet.append hone hrest hr, hzero]
    unfold State.NothingToSteal at hkept ⊢
    simp only [List.append_eq_nil_iff, List.forall_mem_cons]
    constructor
    · intro hall
      obtain ⟨⟨hold, hfirst, hnew⟩, hothers'⟩ := hall
      exact ⟨hold, ⟨hnew, hfirst⟩, fun p' hp' => (hkept p' hp').1 (hothers' p' hp')⟩
    · intro hall
      obtain ⟨hold, ⟨hnew, hfirst⟩, hothers'⟩ := hall
      exact ⟨⟨hold, hfirst, hnew⟩, fun p' hp' => (hkept p' hp').2 (hothers' p' hp')⟩

/-! ## The map after the tasks have been shared out -/

/-- Each of the processors has an entry under its load.  Others may be there, under less. -/
structure ActiveMap.Covers (m : ActiveMap) (s : State) (procs : List Nat) : Prop where
  sorted : m.Sorted
  members : ∀ e ∈ m, e.2 ∈ procs
  present : ∀ p ∈ procs, (s.runnableSize p, p) ∈ m
  below : ∀ e ∈ m, e.1 ≤ s.runnableSize e.2
  zero : ∀ e ∈ m, e.1 = 0 → s.runnableSize e.2 = 0
  once : ((m.filter fun e => e.1 = 0).map Prod.snd).Nodup

theorem ActiveMap.Sorted.covers (h : m.Sorted) (hloads : ∀ e ∈ m, e.1 = s.runnableSize e.2)
    (hnodup : (m.map Prod.snd).Nodup) : ActiveMap.Covers m s (m.map Prod.snd) := by
  refine ⟨h, fun e he => List.mem_map_of_mem he, fun p hp => ?_, fun e he => ?_, fun e he hzero => ?_,
    ?_⟩
  · obtain ⟨e, he, heq⟩ := List.mem_map.1 hp
    rw [← heq, ← hloads e he]
    exact he
  · exact Nat.le_of_eq (hloads e he)
  · rw [← hloads e he]
    exact hzero
  · exact hnodup.sublist (List.Sublist.map _ List.filter_sublist)

/-- The map is exact if nothing has been stolen, and only then. -/
theorem Idle.balanceBlocked_covers (h : Idle s) (hm : m ≠ []) (hsorted : m.Sorted)
    (hloads : ∀ e ∈ m, e.1 = s.runnableSize e.2) (hnodup : (m.map Prod.snd).Nodup)
    {blockings : List Nat} (hblock : blockings.Nodup) (hactive : ∀ e ∈ m, e.2 ∉ blockings) :
    ∃ s' m' r, s.balanceBlocked blockings m = some (s', m', r) ∧
      ActiveMap.Covers m' s' (m.map Prod.snd) ∧
      ((∀ p ∈ blockings, s.NothingToSteal p) →
        (m'.map Prod.snd).Nodup ∧ ∀ e ∈ m', e.1 = s'.runnableSize e.2) ∧
      ((m'.map Prod.snd).Nodup → ∀ p ∈ blockings, s.NothingToSteal p) := by
  obtain ⟨s₁, l, hs₁, hquiet, hone, htasks, hprocs, hload, hothers⟩ :=
    h.toQuiet.stealBlocked (h.empty 1) blockings
  have hnothing := h.toQuiet.stealBlocked_eq_nil (h.empty 1) hblock hs₁
  have htwo : s₁.queues (.stolen 2) = [] := by
    rw [hothers _ rfl (by simp) (by simp), h.empty]
  have hkept : ∀ e ∈ m, e.1 = s₁.runnableSize e.2 := by
    intro e he
    rw [hloads e he]
    refine (runnableSize_of_untaken (hload e.2) fun r hr heq => hactive e he ?_).symm
    rw [← heq]
    exact hprocs r hr
  unfold State.balanceBlocked
  rw [hs₁, Option.map_some]
  simp only
  by_cases hnone : s₁.queues (.stolen 0) = []
  · rw [if_pos hnone]
    exact ⟨s₁, m, _, rfl, hsorted.covers hkept hnodup, fun _ => ⟨hnodup, hkept⟩,
      fun _ => (hnothing.1 hnone).2⟩
  · rw [if_neg hnone]
    obtain ⟨s', given, entries, hs', hshared, hzero, hto, hentries, hsome⟩ :=
      hquiet.shareOut htwo (least_ne_nil hm)
    rw [hs']
    have hsplit : m.least.map Prod.snd ++ m.others.map Prod.snd = m.map Prod.snd := by
      rw [← List.map_append, least_append_others]
    -- the processors outside the range get nothing
    have hout : ∀ e ∈ m.others, e.1 = s'.runnableSize e.2 := by
      intro e he
      have hmem : e ∈ m := by
        rw [← least_append_others m]
        exact List.mem_append_right _ he
      have hnot : ∀ r ∈ given, r.proc ≠ e.2 := by
        intro r hr heq
        rw [← hsplit] at hnodup
        refine (List.nodup_append.1 hnodup).2.2 r.proc (hto r hr) e.2 (List.mem_map_of_mem he) heq
      rw [hkept e hmem, runnableSize_eq, runnableSize_eq, hshared.load, tasksOf_eq_nil hnot,
        List.append_nil]
    obtain ⟨m', hm'⟩ : ∃ m' : ActiveMap, m' =
        m.least.foldl (fun m e => m.insert (s'.runnableSize e.2) e.2)
          (entries.foldl (fun m e => m.insert e.1 e.2) m.others) := ⟨_, rfl⟩
    have hperm : m'.Perm (m.least.map (fun e => (s'.runnableSize e.2, e.2)) ++
        (entries ++ m.others)) := by
      rw [hm']
      refine (foldl_insert_perm _ _ _).trans (List.Perm.append_left _ ?_)
      refine (foldl_insert_perm Prod.fst entries m.others).trans ?_
      simp
    have hmem : ∀ x, x ∈ m' ↔ (∃ e ∈ m.least, (s'.runnableSize e.2, e.2) = x) ∨ x ∈ entries ∨
        x ∈ m.others := by
      intro x
      rw [hperm.mem_iff, List.mem_append, List.mem_map, List.mem_append]
    rw [← hm']
    refine ⟨s', m', _, rfl,
      ⟨?_, fun x hx => ?_, fun p hp => ?_, fun x hx => ?_, fun x hx hx0 => ?_, ?_⟩,
      fun hall => ?_, fun hnodup' => ?_⟩
    · rw [hm']
      exact (hsorted.others.foldl_insert Prod.fst entries).foldl_insert _ m.least
    · rw [← hsplit, List.mem_append]
      rcases (hmem x).1 hx with ⟨e, he, heq⟩ | hx | hx
      · rw [← heq]
        exact .inl (List.mem_map.2 ⟨e, he, rfl⟩)
      · exact .inl (hentries x hx).1
      · exact .inr (List.mem_map_of_mem hx)
    · rw [← hsplit, List.mem_append] at hp
      rw [hmem]
      rcases hp with hp | hp
      · obtain ⟨e, he, heq⟩ := List.mem_map.1 hp
        exact .inl ⟨e, he, by rw [heq]⟩
      · obtain ⟨e, he, heq⟩ := List.mem_map.1 hp
        rw [← heq, ← hout e he]
        exact .inr (.inr he)
    · rcases (hmem x).1 hx with ⟨e, he, heq⟩ | hx | hx
      · rw [← heq]
      · exact (hentries x hx).2.2
      · exact Nat.le_of_eq (hout x hx)
    · rcases (hmem x).1 hx with ⟨e, he, heq⟩ | hx | hx
      · rw [← heq] at hx0 ⊢
        exact hx0
      · have hpos := (hentries x hx).2.1
        omega
      · rw [← hout x hx]
        exact hx0
    · -- the entries that are made too early have a load
      have hnil : (entries.filter fun e => e.1 = 0) = [] := by
        refine List.filter_eq_nil_iff.2 fun x hx => ?_
        have hpos := (hentries x hx).2.1
        simp only [decide_eq_true_eq]
        omega
      refine (((hperm.filter fun e => e.1 = 0).map Prod.snd).nodup_iff).2 ?_
      rw [List.filter_append, List.filter_append, hnil, List.nil_append, List.map_append]
      rw [← hsplit] at hnodup
      refine hnodup.sublist (List.Sublist.append ?_ (List.Sublist.map _ List.filter_sublist))
      refine (List.Sublist.map Prod.snd List.filter_sublist).trans ?_
      rw [List.map_map]
      exact List.Sublist.refl _
    · exact absurd (hnothing.2 ⟨h.empty 0, hall⟩) hnone
    · -- a processor that has got tasks has two entries
      have hne := hsome hnone
      obtain ⟨x, hx⟩ := List.exists_mem_of_ne_nil entries hne
      rw [(hperm.map Prod.snd).nodup_iff, List.map_append, List.map_append, List.map_map] at hnodup'
      have htwice := (List.nodup_append.1 hnodup').2.2 x.2 (hentries x hx).1 x.2
        (List.mem_append_left _ (List.mem_map_of_mem hx))
      exact absurd rfl htwice

/-! ## The result -/

theorem ActiveMap.Covers.usable {r : FirstPhase} {procs : List Nat}
    (h : r.actives.Covers r.state procs) (hactive : ∀ p, p ∈ procs ↔ r.active[p]? = some true) :
    r.Usable := by
  constructor
  · intro first hfirst hzero
    have hleast := h.sorted.least_eq hfirst
    rw [hzero] at hleast
    have hidle : r.idle.Nodup := List.nodup_range.filter _
    have hperm : ((r.actives.filter fun e => e.1 = 0).map Prod.snd).Perm r.idle := by
      refine (List.perm_ext_iff_of_nodup h.once hidle).2 fun p => ?_
      unfold FirstPhase.idle
      rw [List.mem_map, List.mem_filter, decide_eq_true_eq, List.mem_range]
      constructor
      · intro hp
        obtain ⟨e, he, heq⟩ := hp
        rw [List.mem_filter, decide_eq_true_eq] at he
        have htrue := (hactive e.2).1 (h.members e he.1)
        rw [← heq]
        exact ⟨(List.getElem?_eq_some_iff.1 htrue).1, htrue, h.zero e he.1 he.2⟩
      · intro hp
        have hpresent := h.present p ((hactive p).2 hp.2.1)
        rw [hp.2.2] at hpresent
        exact ⟨(0, p), List.mem_filter.2 ⟨hpresent, by simp⟩, rfl⟩
    rw [hleast, ← hperm.length_eq, List.length_map]
  · intro last hlast
    have hmem : last ∈ r.actives := List.mem_of_getLast? hlast
    refine ⟨(hactive last.2).1 (h.members last hmem), fun p hp => ?_⟩
    have hkey := h.sorted.le_last hlast (h.present p ((hactive p).2 hp))
    exact hkey.trans (h.below last hmem)

/-- The map before the first phase, also when there is a new processor. -/
theorem Gathered.Full.newProcessThread {quota : Nat} (h : g.Full blocking d quota d.active.length)
    (hinv : g.Inv blocking d d.active.length)
    (hfresh : ∀ p, d.active.length ≤ p → d.state.tasks p = []) (maxThreadNumber : Nat) :
    let g' := Dispatcher.newProcessThread maxThreadNumber g
    g'.actives.Sorted ∧ (∀ e ∈ g'.actives, e.1 = d.state.runnableSize e.2) ∧
      (∀ p, p ∈ g'.actives.map Prod.snd ↔ g'.dispatcher.active[p]? = some true) ∧
      (g'.actives = [] ↔ g.actives = [] ∧ maxThreadNumber ≤ d.active.length) := by
  simp only
  unfold Dispatcher.newProcessThread
  simp only
  have hmem : ∀ p, p ∈ g.actives.map Prod.snd ↔ g.dispatcher.active[p]? = some true := by
    intro p
    constructor
    · intro hp
      obtain ⟨e, he, heq⟩ := List.mem_map.1 hp
      rw [← heq]
      exact (hinv.entries e he).2
    · intro htrue
      refine h.complete p ?_ htrue
      rw [← hinv.length]
      exact (List.getElem?_eq_some_iff.1 htrue).1
  split
  · rename_i hnew
    have hnone : ∀ p : Nat, g.dispatcher.active[p]? ≠ some true := by
      intro p htrue
      have hin := (hmem p).2 htrue
      rw [hnew.1] at hin
      cases hin
    have hsize : d.state.runnableSize g.dispatcher.active.length = 0 := by
      have htasks := hfresh g.dispatcher.active.length (by rw [hinv.length])
      rw [runnableSize_eq, List.length_eq_zero_iff, List.eq_nil_iff_forall_not_mem]
      intro t ht
      have hin := mem_tasks.2 (Or.inl ht)
      rw [htasks] at hin
      cases hin
    rw [hnew.1]
    refine ⟨List.pairwise_singleton _ _, fun e he => ?_, fun p => ?_, ?_⟩
    · rw [mem_insert] at he
      rcases he with heq | he
      · rw [heq, hsize]
      · cases he
    · show p ∈ [g.dispatcher.active.length] ↔ _
      rw [List.mem_singleton, List.getElem?_append]
      split
      · rename_i hlt
        constructor
        · intro heq
          omega
        · intro htrue
          exact absurd htrue (hnone p)
      · rename_i hge
        constructor
        · intro heq
          rw [heq, Nat.sub_self]
          rfl
        · intro htrue
          have hlt := (List.getElem?_eq_some_iff.1 htrue).1
          simp only [List.length_singleton] at hlt
          omega
    · constructor
      · intro hnil
        cases hnil
      · intro hboth
        rw [hinv.length] at hnew
        omega
  · rename_i hnot
    refine ⟨h.sorted, h.loads, hmem, fun hnil => ⟨hnil, ?_⟩, fun hboth => hboth.1⟩
    rw [hinv.length] at hnot
    by_contra hlt
    exact hnot ⟨hnil, by omega⟩

theorem blockings_nodup (d : Dispatcher) (blocking : Nat → Bool) : (d.blockings blocking).Nodup :=
  List.nodup_range.filter _

/-- The first phase is the first part of a cycle. -/
theorem firstPhase_of_cycle {c : Cycle}
    (hc : d.cycle blocking minThreadNumber maxThreadNumber = some c) :
    ∃ r, d.firstPhase blocking minThreadNumber maxThreadNumber = some r ∧ c.between = r.state ∧
      c.dispatcher.active = r.active := by
  unfold Dispatcher.cycle at hc
  unfold Dispatcher.firstPhase
  simp only at hc ⊢
  split at hc
  · rename_i hnil
    rw [if_pos hnil]
    rw [Option.some.injEq] at hc
    rw [← hc]
    exact ⟨_, rfl, rfl, rfl⟩
  · rename_i hne
    rw [if_neg hne]
    obtain ⟨r, hr, hc⟩ := Option.bind_eq_some_iff.1 hc
    obtain ⟨r', -, heq⟩ := Option.map_eq_some_iff.1 hc
    rw [hr, Option.map_some, ← heq]
    exact ⟨_, rfl, rfl, rfl⟩

/-- For any number of processors with any loads, any of which are blocked. -/
theorem actives_exact_iff (d : Dispatcher) (blocking : Nat → Bool)
    (minThreadNumber maxThreadNumber : Nat) (h : Idle d.state)
    (hfresh : ∀ p, d.active.length ≤ p → d.state.tasks p = []) :
    ∃ r, d.firstPhase blocking minThreadNumber maxThreadNumber = some r ∧ r.Usable ∧
      (r.Exact ↔ d.NoneActive blocking minThreadNumber maxThreadNumber ∨
        ∀ p ∈ d.blockings blocking, d.state.NothingToSteal p) := by
  have hinv : (d.gather blocking minThreadNumber).Inv blocking d d.active.length := gather_inv h
  have hfull := gather_full d blocking minThreadNumber
  obtain ⟨hstate, -, -, hnodup, hentries⟩ := hinv.newProcessThread hfresh maxThreadNumber
  obtain ⟨hsorted, hloads, hactive, hnone⟩ := hfull.newProcessThread hinv hfresh maxThreadNumber
  rw [gather_eq_nil h] at hnone
  unfold Dispatcher.firstPhase
  simp only
  generalize Dispatcher.newProcessThread maxThreadNumber (d.gather blocking minThreadNumber) = g at *
  have hqueues : g.dispatcher.state.queues = d.state.queues := by
    rw [hstate]
    exact hinv.queues
  have hidle : Idle g.dispatcher.state := by
    rw [hstate]
    exact hinv.idle
  by_cases hnil : g.actives = []
  · rw [if_pos hnil]
    have hnot : ∀ p : Nat, g.dispatcher.active[p]? ≠ some true := by
      intro p htrue
      have hin := (hactive p).2 htrue
      rw [hnil] at hin
      cases hin
    refine ⟨_, rfl, ⟨?_, ?_⟩, ?_⟩
    · intro first hfirst
      cases hfirst
    · intro last hlast
      cases hlast
    · obtain ⟨hblocked, hmax⟩ := hnone.1 hnil
      refine iff_of_true ⟨List.nodup_nil, fun p => ?_, fun e he => ?_⟩ (.inl ⟨hmax, hblocked⟩)
      · constructor
        · intro hp
          cases hp
        · intro htrue
          exact absurd htrue (hnot p)
      · cases he
  · rw [if_neg hnil]
    obtain ⟨s', m', r, hs', hcovers, hexact, honly⟩ := hidle.balanceBlocked_covers hnil hsorted
      (fun e he => (hloads e he).trans (runnableSize_of_queues hqueues e.2).symm) hnodup
      (blockings_nodup d blocking) fun e he => (hentries e he).2
    have hsame : ∀ p, g.dispatcher.state.NothingToSteal p ↔ d.state.NothingToSteal p := by
      intro p
      rw [hstate]
      exact hfull.same.nothingToSteal_iff
    rw [hs', Option.map_some]
    refine ⟨_, rfl, hcovers.usable hactive, ?_⟩
    constructor
    · intro hall
      exact .inr fun p hp => (hsame p).1 (honly hall.once p hp)
    · intro hor
      have hnothing : ∀ p ∈ d.blockings blocking, g.dispatcher.state.NothingToSteal p := by
        rcases hor with hidle | hall
        · exact absurd (hnone.2 ⟨hidle.2, hidle.1⟩) hnil
        · exact fun p hp => (hsame p).2 (hall p hp)
      obtain ⟨honce, hsizes⟩ := hexact hnothing
      refine ⟨honce, fun p => ?_, hsizes⟩
      rw [← hactive p]
      constructor
      · intro hp
        obtain ⟨e, he, heq⟩ := List.mem_map.1 hp
        rw [← heq]
        exact hcovers.members e he
      · intro hp
        exact List.mem_map.2 ⟨_, hcovers.present p hp, rfl⟩

/-- The first of four processors is blocked with one task, which it runs, and the second one has six
tasks. -/
theorem actives_exact_iff_running : ∃ d r,
    Dispatcher.firstPhase d (fun p => p == 0) 2 4 = some r ∧ r.Exact ∧
      r.actives = [(0, 2), (0, 3), (6, 1)] := by
  generalize hacts : [Action.create 0] ++ List.replicate 6 (.create 1) ++
    List.replicate 8 (.thread 0) ++ List.replicate 13 (.thread 1) = acts
  have hexec : ((machine.exec anyAction State.initial acts).map fun s =>
      (Dispatcher.firstPhase ⟨s, [true, true, true, true], 0⟩ (fun p => p == 0) 2 4,
        s.queues (.new 0), s.rest 0)).any (fun x =>
        x.1.any (fun r => r.actives = [(0, 2), (0, 3), (6, 1)]) &&
          x.2.1 = [] && x.2.2 = []) = true := by
    rw [← hacts]
    decide +kernel
  have hfar : ∀ p, (machine.exec anyAction State.initial acts).map (·.tasks (p + 4)) = some [] := by
    intro p
    rw [← hacts]
    rfl
  have hempty : ∀ k, (machine.exec anyAction State.initial acts).map (fun s =>
      (s.queues (.stolen k), s.stealing k)) = some ([], none) := by
    intro k
    rw [← hacts]
    rfl
  cases hs : machine.exec anyAction State.initial acts with
  | none =>
    rw [hs] at hexec
    cases hexec
  | some s =>
    obtain ⟨r, hr, -, hiff⟩ :=
      actives_exact_iff ⟨s, [true, true, true, true], 0⟩ (fun p => p == 0) 2 4
      (idle_of_exec hs hempty) (fresh_of_exec hs hfar)
    rw [hs, Option.map_some, hr] at hexec
    simp only [Option.any_some, Bool.and_eq_true, decide_eq_true_eq] at hexec
    refine ⟨_, r, hr, hiff.2 (.inr fun p hp => ?_), hexec.1.1⟩
    have hzero : p = 0 := by simpa using (List.mem_filter.1 hp).2
    rw [hzero]
    exact ⟨hexec.1.2, hexec.2⟩

/-- The first of two processors is blocked, and a task of it goes to the second one, which has two
entries then. -/
theorem processor_twice : ¬ ∀ (d : Dispatcher) (blocking : Nat → Bool)
    (minThreadNumber maxThreadNumber : Nat), Idle d.state →
      (∀ p, d.active.length ≤ p → d.state.tasks p = []) →
      ∃ r, d.firstPhase blocking minThreadNumber maxThreadNumber = some r ∧ r.Exact := by
  intro hall
  generalize hacts : [Action.create 0, .create 0] ++ List.replicate 9 (.thread 0) = acts
  have hexec : ((machine.exec anyAction State.initial acts).bind fun s =>
      Dispatcher.firstPhase ⟨s, [true, true], 0⟩ (fun p => p == 0) 1 2).any (fun r =>
        r.actives = [(1, 1), (1, 1)]) = true := by
    rw [← hacts]
    decide +kernel
  have hfar : ∀ p, (machine.exec anyAction State.initial acts).map (·.tasks (p + 2)) = some [] := by
    intro p
    rw [← hacts]
    rfl
  have hempty : ∀ k, (machine.exec anyAction State.initial acts).map (fun s =>
      (s.queues (.stolen k), s.stealing k)) = some ([], none) := by
    intro k
    rw [← hacts]
    rfl
  cases hs : machine.exec anyAction State.initial acts with
  | none =>
    rw [hs] at hexec
    cases hexec
  | some s =>
    obtain ⟨r, hr, hexact⟩ := hall ⟨s, [true, true], 0⟩ (fun p => p == 0) 1 2 (idle_of_exec hs hempty)
      (fresh_of_exec hs hfar)
    rw [hs, Option.bind_some, hr] at hexec
    simp only [Option.any_some, decide_eq_true_eq] at hexec
    have honce := hexact.once
    rw [hexec] at honce
    exact absurd honce (by decide)

end Costream.Scheduler
