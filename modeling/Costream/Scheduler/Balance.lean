import Costream.Scheduler.Dispatcher

/-!
# A cycle of the dispatcher

* `Transfer.Fair` is about one phase: what is taken is given, once, to a processor from which
  nothing was taken.
* `ActiveMap.Loads` connects the phases: an entry of the map that the first one leaves still says
  whether its processor has a load, though some processors have two entries.
* `balance_conserves` is the result: both phases are fair, they give tasks only to active processors
  that are not blocked, and no task is lost.
-/

namespace Costream.Scheduler

open Trace Costream.Lists

variable {s s' : State} {p n : Nat} {q : Queue} {l : List Handed} {m : ActiveMap}

/-! ## The two phases -/

/-- A phase gives what it takes, once, and takes nothing from a processor that it gives to. -/
structure Transfer.Fair (r : Transfer) (s s' : State) (may : Nat → Prop) : Prop where
  perm : (r.given.flatMap Handed.tasks).Perm (r.stolen.flatMap Handed.tasks)
  once : (r.given.flatMap Handed.tasks).Nodup
  receivers : ∀ h ∈ r.given, may h.proc ∧ ∀ h' ∈ r.stolen, h'.proc ≠ h.proc
  load : ∀ p, (s'.load p ++ tasksOf p r.stolen).Perm (s.load p ++ tasksOf p r.given)
  others : ∀ q, q.isLoad = false → s'.queues q = s.queues q

/-- The lists of the dispatcher are empty. -/
structure Idle (s : State) : Prop extends Quiet s where
  empty : ∀ k, s.queues (.stolen k) = []

/-- An entry says whether the processor has a load. -/
def ActiveMap.Loads (m : ActiveMap) (s : State) : Prop := ∀ e ∈ m, e.1 = 0 ↔ s.runnableSize e.2 = 0

theorem Transfer.Fair.nothing (s : State) (may : Nat → Prop) : Transfer.Fair ⟨[], []⟩ s s may := by
  refine ⟨List.Perm.refl _, List.nodup_nil, ?_, fun p => List.Perm.refl _, fun q _ => rfl⟩
  intro h hmem
  cases hmem

/-- Tasks in the list 0 are shared out: a phase is fair when they were taken elsewhere. -/
theorem Quiet.fair (h : Quiet s) {s₀ : State} (h₀ : Idle s₀) {stolen given : List Handed}
    {may : Nat → Prop}
    (htasks : s.queues (.stolen 0) = stolen.flatMap Handed.tasks)
    (hload : ∀ p, (s.load p ++ tasksOf p stolen).Perm (s₀.load p))
    (hothers : ∀ q, q.isLoad = false → q ≠ .stolen 0 → s.queues q = s₀.queues q)
    (hshared : Shared s s' given) (hzero : s'.queues (.stolen 0) = [])
    (hreceivers : ∀ r ∈ given, may r.proc ∧ ∀ r' ∈ stolen, r'.proc ≠ r.proc) :
    Transfer.Fair ⟨stolen, given⟩ s₀ s' may ∧ Idle s' := by
  have hgiven : given.flatMap Handed.tasks = stolen.flatMap Handed.tasks := by
    have heq := hshared.tasks
    rw [hzero, List.append_nil, htasks] at heq
    exact heq
  have hsame : ∀ q, q.isLoad = false → s'.queues q = s₀.queues q := by
    intro q hq
    by_cases h0 : q = .stolen 0
    · rw [h0, hzero, h₀.empty]
    by_cases h2 : q = .stolen 2
    · rw [h2, hshared.empty, h₀.empty]
    · rw [hshared.others q hq h0 h2, hothers q hq h0]
  refine ⟨⟨List.Perm.of_eq hgiven, ?_, hreceivers, fun p => ?_, hsame⟩, hshared.quiet, fun k => ?_⟩
  · show (given.flatMap Handed.tasks).Nodup
    rw [hgiven, ← htasks]
    exact h.links.apart.nodup _
  · show (s'.load p ++ tasksOf p stolen).Perm (s₀.load p ++ tasksOf p given)
    rw [hshared.load p, List.append_assoc]
    refine List.Perm.trans (List.Perm.append_left _ List.perm_append_comm) ?_
    rw [← List.append_assoc]
    exact List.Perm.append_right _ (hload p)
  · rw [hsame _ rfl, h₀.empty]

theorem insert_perm (load p : Nat) (m : ActiveMap) : (m.insert load p).Perm ((load, p) :: m) := by
  induction m with
  | nil => exact List.Perm.refl _
  | cons e rest ih =>
    unfold ActiveMap.insert
    split
    · exact (List.Perm.cons e ih).trans (List.Perm.swap ..)
    · exact List.Perm.refl _

theorem mem_insert {load p : Nat} {x : Nat × Nat} : x ∈ m.insert load p ↔ x = (load, p) ∨ x ∈ m := by
  rw [(insert_perm load p m).mem_iff, List.mem_cons]

/-- Several entries are inserted. -/
theorem mem_foldl_insert {x : Nat × Nat} (f : Nat × Nat → Nat) (l : ActiveMap) :
    x ∈ l.foldl (fun m e => m.insert (f e) e.2) m ↔ (∃ e ∈ l, x = (f e, e.2)) ∨ x ∈ m := by
  induction l generalizing m with
  | nil => simp
  | cons e l ih =>
    rw [List.foldl_cons, ih, mem_insert]
    simp only [List.mem_cons, exists_eq_or_imp]
    rw [or_assoc, or_left_comm]

theorem least_append_others (m : ActiveMap) : m.least ++ m.others = m := by
  cases m with
  | nil => rfl
  | cons e rest =>
    unfold ActiveMap.least ActiveMap.others
    rw [List.cons_append, List.takeWhile_append_dropWhile]

theorem least_ne_nil (h : m ≠ []) : m.least ≠ [] := by
  cases m with
  | nil => exact absurd rfl h
  | cons e rest => simp [ActiveMap.least]

/-- The entries of the range have the first key. -/
theorem mem_least {x : Nat × Nat} {first : Nat × Nat} (hx : x ∈ m.least)
    (hfirst : m.head? = some first) :
    x.1 = first.1 := by
  cases m with
  | nil => cases hfirst
  | cons e rest =>
    cases hfirst
    rcases List.mem_cons.1 hx with heq | hx
    · rw [heq]
    · simpa using List.mem_takeWhile_imp hx

/-- The first phase. -/
theorem Idle.balanceBlocked (h : Idle s) (hm : m ≠ []) (hloads : m.Loads s)
    (hnodup : (m.map Prod.snd).Nodup) {blockings : List Nat} (hactive : ∀ e ∈ m, e.2 ∉ blockings) :
    ∃ s' m' r, s.balanceBlocked blockings m = some (s', m', r) ∧
      r.Fair s s' (· ∈ m.map Prod.snd) ∧ Idle s' ∧ m'.Loads s' ∧
      ∀ e ∈ m', e.2 ∈ m.map Prod.snd := by
  obtain ⟨s₁, l, hs₁, hquiet, hone, htasks, hprocs, hload, hothers⟩ :=
    h.toQuiet.stealBlocked (h.empty 1) blockings
  rw [h.empty 0, List.nil_append] at htasks
  have hsame : ∀ q, q.isLoad = false → q ≠ .stolen 0 → s₁.queues q = s.queues q := by
    intro q hq h0
    by_cases h1 : q = .stolen 1
    · rw [h1, hone, h.empty]
    · exact hothers q hq h0 h1
  have htwo : s₁.queues (.stolen 2) = [] := by
    rw [hsame _ rfl (by simp), h.empty]
  have hkept : ∀ e ∈ m, s₁.runnableSize e.2 = s.runnableSize e.2 := by
    intro e he
    refine runnableSize_of_untaken (hload e.2) fun r hr heq => hactive e he ?_
    rw [← heq]
    exact hprocs r hr
  unfold State.balanceBlocked
  rw [hs₁, Option.map_some]
  simp only
  by_cases hnone : s₁.queues (.stolen 0) = []
  · rw [if_pos hnone]
    have hreceivers : ∀ r ∈ ([] : List Handed), r.proc ∈ m.map Prod.snd ∧ ∀ r' ∈ l, r'.proc ≠ r.proc :=
      fun r hr => by cases hr
    obtain ⟨hfair, hidle⟩ := hquiet.fair h htasks hload hsame (.refl hquiet htwo) hnone hreceivers
    refine ⟨s₁, m, _, rfl, hfair, hidle, ?_, fun e he => List.mem_map_of_mem he⟩
    intro e he
    rw [hkept e he]
    exact hloads e he
  · rw [if_neg hnone]
    obtain ⟨s', given, entries, hs', hshared, hzero, hto, hentries, -⟩ :=
      hquiet.shareOut htwo (least_ne_nil hm)
    have hsub : ∀ p, p ∈ m.least.map Prod.snd → p ∈ m.map Prod.snd := by
      intro p hp
      rw [← least_append_others m, List.map_append]
      exact List.mem_append_left _ hp
    have hreceivers : ∀ r ∈ given, r.proc ∈ m.map Prod.snd ∧ ∀ r' ∈ l, r'.proc ≠ r.proc := by
      intro r hr
      refine ⟨hsub _ (hto r hr), fun r' hr' heq => ?_⟩
      obtain ⟨e, he, hproc⟩ := List.mem_map.1 (hsub _ (hto r hr))
      refine hactive e he ?_
      rw [hproc, ← heq]
      exact hprocs r' hr'
    obtain ⟨hfair, hidle⟩ := hquiet.fair h htasks hload hsame hshared hzero hreceivers
    rw [hs']
    refine ⟨s', _, _, rfl, hfair, hidle, ?_, ?_⟩
    · intro x hx
      rcases (mem_foldl_insert (fun e => s'.runnableSize e.2) _).1 hx with ⟨e, he, heq⟩ | hx
      · rw [heq]
      rcases (mem_foldl_insert Prod.fst _).1 hx with ⟨e, he, heq⟩ | hx
      · obtain ⟨_, hkey, hpos⟩ := hentries e he
        rw [heq]
        simp only
        omega
      · have hmem : x ∈ m := by
          rw [← least_append_others m]
          exact List.mem_append_right _ hx
        have hout : x.2 ∉ m.least.map Prod.snd := by
          intro hin
          rw [← least_append_others m, List.map_append] at hnodup
          exact (List.nodup_append.1 hnodup).2.2 _ hin _ (List.mem_map_of_mem hx) rfl
        have hnot : ∀ r ∈ given, r.proc ≠ x.2 := by
          intro r hr heq
          refine hout ?_
          rw [← heq]
          exact hto r hr
        have hsize : s'.runnableSize x.2 = s₁.runnableSize x.2 := by
          rw [runnableSize_eq, runnableSize_eq, hshared.load, tasksOf_eq_nil hnot, List.append_nil]
        rw [hsize, hkept x hmem]
        exact hloads x hmem
    · intro x hx
      rcases (mem_foldl_insert (fun e => s'.runnableSize e.2) _).1 hx with ⟨e, he, heq⟩ | hx
      · rw [heq]
        exact hsub e.2 (List.mem_map_of_mem he)
      rcases (mem_foldl_insert Prod.fst _).1 hx with ⟨e, he, heq⟩ | hx
      · rw [heq]
        exact hsub _ (hentries e he).1
      · rw [← least_append_others m, List.map_append]
        exact List.mem_append_right _ (List.mem_map_of_mem hx)

/-- The second phase. -/
theorem Idle.balanceWaiting (h : Idle s) (hloads : m.Loads s) :
    ∃ s' r, s.balanceWaiting m = some (s', r) ∧ r.Fair s s' (· ∈ m.map Prod.snd) ∧ Idle s' := by
  unfold State.balanceWaiting
  split
  case h_2 => exact ⟨s, _, rfl, .nothing s _, h⟩
  case h_1 first last hfirst hlast =>
    simp only
    split
    · exact ⟨s, _, rfl, .nothing s _, h⟩
    · rename_i hgoes
      rw [not_or, not_or] at hgoes
      have hhas : s.runnableSize last.2 ≠ 0 := by omega
      have hm : m ≠ [] := by
        intro heq
        rw [heq] at hfirst
        cases hfirst
      obtain ⟨s₁, hs₁, hquiet, hperm, hothers⟩ := h.toQuiet.stealAll 0 last.2
        (min (s.runnableSize last.2 / 2) (m.least.length * 1024)) (h.empty 0)
      rw [hs₁, Option.map_some]
      have hsame : ∀ q, q.isLoad = false → q ≠ .stolen 0 → s₁.queues q = s.queues q := by
        intro q hq h0
        refine hothers q ?_ ?_ h0
        · intro heq
          rw [heq] at hq
          cases hq
        · intro heq
          rw [heq] at hq
          cases hq
      have hload : ∀ p, (s₁.load p ++ tasksOf p [⟨last.2, s₁.queues (.stolen 0)⟩]).Perm (s.load p) := by
        intro p
        rw [tasksOf_cons]
        show (_ ++ (_ ++ [])).Perm _
        rw [List.append_nil]
        by_cases heq : last.2 = p
        · rw [if_pos heq, ← heq]
          exact hperm
        · rw [if_neg heq, List.append_nil]
          refine List.Perm.of_eq ?_
          unfold State.load
          rw [hothers (.runnable p) (by simpa using Ne.symm heq) (by simp) (by simp),
            hothers (.new p) (by simp) (by simpa using Ne.symm heq) (by simp)]
      have htwo : s₁.queues (.stolen 2) = [] := by
        rw [hsame _ rfl (by simp), h.empty]
      by_cases hnone : s₁.queues (.stolen 0) = []
      · rw [if_pos hnone]
        rw [hnone] at hload
        have htasks : s₁.queues (.stolen 0) = [(⟨last.2, []⟩ : Handed)].flatMap Handed.tasks := by
          simpa using hnone
        have hreceivers : ∀ r ∈ ([] : List Handed), r.proc ∈ m.map Prod.snd ∧
            ∀ r' ∈ [(⟨last.2, []⟩ : Handed)], r'.proc ≠ r.proc := fun r hr => by cases hr
        obtain ⟨hfair, hidle⟩ :=
          hquiet.fair h htasks hload hsame (.refl hquiet htwo) hnone hreceivers
        exact ⟨s₁, _, rfl, hfair, hidle⟩
      · rw [if_neg hnone]
        obtain ⟨s', given, entries, hs', hshared, hzero, hto, _⟩ :=
          hquiet.shareOut htwo (least_ne_nil hm)
        have hreceivers : ∀ r ∈ given, r.proc ∈ m.map Prod.snd ∧
            ∀ r' ∈ [(⟨last.2, s₁.queues (.stolen 0)⟩ : Handed)], r'.proc ≠ r.proc := by
          intro r hr
          obtain ⟨e, he, hproc⟩ := List.mem_map.1 (hto r hr)
          have hmem : e ∈ m := by
            rw [← least_append_others m]
            exact List.mem_append_left _ he
          refine ⟨hproc ▸ List.mem_map_of_mem hmem, fun r' hr' heq => hhas ?_⟩
          rw [List.mem_singleton.1 hr'] at heq
          simp only at heq
          rw [heq, ← hproc]
          exact (hloads e hmem).1 (by rw [mem_least he hfirst]; omega)
        have htasks : s₁.queues (.stolen 0) =
            [(⟨last.2, s₁.queues (.stolen 0)⟩ : Handed)].flatMap Handed.tasks := by
          simp
        obtain ⟨hfair, hidle⟩ := hquiet.fair h htasks hload hsame hshared hzero hreceivers
        rw [hs']
        exact ⟨s', _, rfl, hfair, hidle⟩

/-! ## Looking at the processors -/

/-- After the loop has looked at the processors below `n`. -/
structure Gathered.Inv (g : Gathered) (blocking : Nat → Bool) (d : Dispatcher) (n : Nat) : Prop where
  idle : Idle g.dispatcher.state
  queues : g.dispatcher.state.queues = d.state.queues
  length : g.dispatcher.active.length = d.active.length
  unblocked : ∀ i, g.dispatcher.active[i]? = some true → blocking i = false
  entries : ∀ e ∈ g.actives, e.2 < n ∧ g.dispatcher.active[e.2]? = some true
  loads : g.actives.Loads d.state
  nodup : (g.actives.map Prod.snd).Nodup

variable {blocking : Nat → Bool} {d : Dispatcher} {g : Gathered} {minThreadNumber maxThreadNumber : Nat}

theorem runnableSize_of_queues (h : s'.queues = s.queues) (p : Nat) :
    s'.runnableSize p = s.runnableSize p := by
  unfold State.runnableSize
  rw [h]

theorem Idle.notifyCondition (h : Idle s) (p : Nat) : Idle (s.notifyCondition p) := by
  refine ⟨h.toQuiet.notifyCondition p, fun k => ?_⟩
  rw [notifyCondition_queues]
  exact h.empty k

/-- One processor is activated, or left as it is. -/
theorem Gathered.Inv.activate (h : g.Inv blocking d n) {active : List Bool} {last quota : Nat}
    (hlen : active.length = g.dispatcher.active.length)
    (hactive : ∀ i : Nat, active[i]? = some true →
      g.dispatcher.active[i]? = some true ∨ blocking i = false)
    (hmono : ∀ i : Nat, g.dispatcher.active[i]? = some true → active[i]? = some true) :
    Gathered.Inv ⟨⟨g.dispatcher.state, active, last⟩, quota, g.actives⟩ blocking d n := by
  refine ⟨h.idle, h.queues, hlen.trans h.length, ?_, ?_, h.loads, h.nodup⟩
  · intro i hi
    rcases hactive i hi with hold | hnew
    · exact h.unblocked i hold
    · exact hnew
  · intro e he
    obtain ⟨hlt, htrue⟩ := h.entries e he
    exact ⟨hlt, hmono e.2 htrue⟩

theorem Gathered.Inv.visit (h : g.Inv blocking d n) :
    (Dispatcher.visit blocking g n).Inv blocking d (n + 1) := by
  have hinsert : ∀ g : Gathered, g.Inv blocking d n → g.dispatcher.active[n]? = some true →
      Gathered.Inv { g with actives := g.actives.insert (d.state.runnableSize n) n } blocking d
        (n + 1) := by
    intro g h htrue
    refine ⟨h.idle, h.queues, h.length, h.unblocked, ?_, ?_, ?_⟩
    · intro e he
      rcases mem_insert.1 he with heq | he
      · rw [heq]
        exact ⟨Nat.lt_succ_self n, htrue⟩
      · obtain ⟨hlt, htrue'⟩ := h.entries e he
        exact ⟨by omega, htrue'⟩
    · intro e he
      rcases mem_insert.1 he with heq | he
      · rw [heq]
      · exact h.loads e he
    · refine (((insert_perm _ _ _).map Prod.snd).nodup_iff).2 (List.nodup_cons.2 ⟨?_, h.nodup⟩)
      intro hmem
      obtain ⟨e, he, heq⟩ := List.mem_map.1 hmem
      have hlt := (h.entries e he).1
      omega
  have hskip : ∀ g : Gathered, g.Inv blocking d n → g.Inv blocking d (n + 1) := by
    intro g h
    refine ⟨h.idle, h.queues, h.length, h.unblocked, ?_, h.loads, h.nodup⟩
    intro e he
    obtain ⟨hlt, htrue⟩ := h.entries e he
    exact ⟨by omega, htrue⟩
  have hnotify : ∀ g : Gathered, g.Inv blocking d (n + 1) → Gathered.Inv { g with
      dispatcher := { g.dispatcher with state := g.dispatcher.state.notifyCondition n } }
      blocking d (n + 1) := by
    intro g h
    exact ⟨h.idle.notifyCondition n, (notifyCondition_queues _ _).trans h.queues, h.length, h.unblocked,
      h.entries, h.loads, h.nodup⟩
  have hsize : g.dispatcher.state.runnableSize n = d.state.runnableSize n :=
    runnableSize_of_queues h.queues n
  unfold Dispatcher.visit
  simp only [hsize]
  -- The three `if`s of the loop, one after the other.
  generalize hg₁ : (if g.dispatcher.active[n]? = some false ∧ 0 < g.activeQuota ∧ blocking n = false then
    _ else g : Gathered) = g₁
  have h₁ : g₁.Inv blocking d n := by
    rw [← hg₁]
    split
    · rename_i hcond
      refine h.activate (List.length_set ..) ?_ ?_
      · intro i hi
        by_cases heq : i = n
        · rw [heq]
          exact .inr hcond.2.2
        · rw [List.getElem?_set_ne (Ne.symm heq)] at hi
          exact .inl hi
      · intro i hi
        by_cases heq : i = n
        · rw [heq, hcond.1] at hi
          cases hi
        · rw [List.getElem?_set_ne (Ne.symm heq)]
          exact hi
    · exact h
  generalize hg₂ : (if g₁.dispatcher.active[n]? = some true then
    { g₁ with actives := g₁.actives.insert (d.state.runnableSize n) n } else g₁ : Gathered) = g₂
  have h₂ : g₂.Inv blocking d (n + 1) := by
    rw [← hg₂]
    split
    · rename_i htrue
      exact hinsert g₁ h₁ htrue
    · exact hskip g₁ h₁
  split
  · exact hnotify g₂ h₂
  · exact h₂

/-- What the loops over the processors find. -/
theorem gather_inv (h : Idle d.state) :
    (d.gather blocking minThreadNumber).Inv blocking d d.active.length := by
  have hlen : (d.markBlocked blocking).active.length = d.active.length := List.length_mapIdx ..
  have hloop : ∀ n, ((List.range n).foldl (Dispatcher.visit blocking)
      ⟨d.markBlocked blocking, minThreadNumber - (d.markBlocked blocking).active.count true, []⟩).Inv
      blocking d n := by
    intro n
    induction n with
    | zero =>
      refine ⟨h, rfl, hlen, ?_, ?_, ?_, List.nodup_nil⟩
      · intro i hi
        have hi : (d.active.mapIdx fun i active => active && !blocking i)[i]? = some true := hi
        rw [List.getElem?_mapIdx] at hi
        obtain ⟨active, _, heq⟩ := Option.map_eq_some_iff.1 hi
        rw [Bool.and_eq_true, Bool.not_eq_true'] at heq
        exact heq.2
      · intro e he
        cases he
      · intro e he
        cases he
    | succ n ih =>
      rw [List.range_succ, List.foldl_append]
      exact ih.visit
  have hall : (d.gather blocking minThreadNumber).Inv blocking d
      (d.markBlocked blocking).active.length :=
    hloop _
  rw [hlen] at hall
  exact hall

/-! ## The cycle -/

/-- The lists of tasks that belong to `p`. -/
def queuesOf (p : Nat) : List Queue := [.runnable p, .new p, .up p, .wait p, .gc p, .garbage p]

def State.tasks (s : State) (p : Nat) : List Nat := (queuesOf p).flatMap s.queues

theorem mem_tasks {t : Nat} : t ∈ s.tasks p ↔ t ∈ s.load p ∨ t ∈ s.queues (.up p) ∨
    t ∈ s.queues (.wait p) ∨ t ∈ s.queues (.gc p) ∨ t ∈ s.queues (.garbage p) := by
  unfold State.tasks State.load queuesOf
  simp only [List.flatMap_cons, List.flatMap_nil, List.append_nil, List.mem_append, or_assoc]

/-- All tasks of the first `n` processors. -/
def State.allTasks (s : State) (n : Nat) : List Nat := (List.range n).flatMap s.tasks

theorem queuesOf_unique {p' : Nat} (h : q ∈ queuesOf p) (h' : q ∈ queuesOf p') : p = p' := by
  unfold queuesOf at h h'
  simp only [List.mem_cons, List.not_mem_nil, or_false] at h h'
  rcases h with rfl | rfl | rfl | rfl | rfl | rfl <;> simpa using h'

theorem Links.tasks_nodup (h : Links s) (p : Nat) : (s.tasks p).Nodup := by
  refine List.nodup_flatMap.2 ⟨fun q _ => h.apart.nodup q, ?_⟩
  have hdistinct : (queuesOf p).Nodup := by
    simp [queuesOf]
  refine List.Pairwise.imp ?_ hdistinct
  intro q q' hne t ht ht'
  exact hne (h.apart.apart q q' t ht ht')

theorem Links.allTasks_nodup (h : Links s) (n : Nat) : (s.allTasks n).Nodup := by
  refine List.nodup_flatMap.2 ⟨fun p _ => h.tasks_nodup p, ?_⟩
  refine List.Pairwise.imp ?_ (List.nodup_range (n := n))
  intro p p' hne t ht ht'
  obtain ⟨q, hq, hmem⟩ := List.mem_flatMap.1 ht
  obtain ⟨q', hq', hmem'⟩ := List.mem_flatMap.1 ht'
  have heq := h.apart.apart q q' t hmem hmem'
  rw [← heq] at hq'
  exact hne (queuesOf_unique hq hq')

/-- A fair phase moves tasks from one processor to another. -/
theorem Transfer.Fair.mem_tasks_iff {r : Transfer} {may : Nat → Prop} (h : r.Fair s s' may) {t : Nat} :
    (t ∈ s'.tasks p ∨ t ∈ tasksOf p r.stolen) ↔ (t ∈ s.tasks p ∨ t ∈ tasksOf p r.given) := by
  have hload := (h.load p).mem_iff (a := t)
  rw [List.mem_append, List.mem_append] at hload
  rw [mem_tasks, mem_tasks, h.others (.up p) rfl, h.others (.wait p) rfl, h.others (.gc p) rfl,
    h.others (.garbage p) rfl]
  tauto

theorem Transfer.Fair.exists_tasks {r : Transfer} {may : Nat → Prop} (h : r.Fair s s' may) {t : Nat} :
    (∃ p, t ∈ s'.tasks p) ↔ ∃ p, t ∈ s.tasks p := by
  have hnone : ∀ p, (∃ x ∈ r.given, x.proc = p) → tasksOf p r.stolen = [] := by
    intro p ⟨x, hx, hp⟩
    refine tasksOf_eq_nil fun y hy heq => ?_
    exact (h.receivers x hx).2 y hy (heq.trans hp.symm)
  have hnone' : ∀ p, (∃ x ∈ r.stolen, x.proc = p) → tasksOf p r.given = [] := by
    intro p ⟨x, hx, hp⟩
    refine tasksOf_eq_nil fun y hy heq => ?_
    exact (h.receivers y hy).2 x hx (hp.trans heq.symm)
  constructor
  · intro ⟨p, ht⟩
    rcases h.mem_tasks_iff.1 (.inl ht) with hold | hgiven
    · exact ⟨p, hold⟩
    · obtain ⟨x, hx, _, htx⟩ := mem_tasksOf.1 hgiven
      have hstolen := h.perm.mem_iff.1 (List.mem_flatMap.2 ⟨x, hx, htx⟩)
      obtain ⟨y, hy, hty⟩ := List.mem_flatMap.1 hstolen
      have hin := h.mem_tasks_iff.1 (.inr (mem_tasksOf.2 ⟨y, hy, rfl, hty⟩))
      rw [hnone' y.proc ⟨y, hy, rfl⟩] at hin
      exact ⟨y.proc, hin.resolve_right (by simp)⟩
  · intro ⟨p, ht⟩
    rcases h.mem_tasks_iff.2 (.inl ht) with hnew | hstolen
    · exact ⟨p, hnew⟩
    · obtain ⟨x, hx, _, htx⟩ := mem_tasksOf.1 hstolen
      have hgiven := h.perm.mem_iff.2 (List.mem_flatMap.2 ⟨x, hx, htx⟩)
      obtain ⟨y, hy, hty⟩ := List.mem_flatMap.1 hgiven
      have hin := h.mem_tasks_iff.2 (.inr (mem_tasksOf.2 ⟨y, hy, rfl, hty⟩))
      rw [hnone y.proc ⟨y, hy, rfl⟩] at hin
      exact ⟨y.proc, hin.resolve_right (by simp)⟩

/-- A processor can get tasks: it is active, and not one of those that were blocked. -/
def Cycle.Receives (c : Cycle) (blockings : List Nat) (p : Nat) : Prop :=
  c.dispatcher.active[p]? = some true ∧ p ∉ blockings

/-- What a cycle does to the tasks. -/
structure Cycle.Conserves (c : Cycle) (d : Dispatcher) (blockings : List Nat) : Prop where
  blocked : c.blocked.Fair d.state c.between (c.Receives blockings)
  waiting : c.waiting.Fair c.between c.dispatcher.state (c.Receives blockings)
  tasks : (c.dispatcher.state.allTasks c.dispatcher.active.length).Perm (d.state.allTasks d.active.length)

theorem Transfer.Fair.mono {r : Transfer} {may may' : Nat → Prop} (h : r.Fair s s' may)
    (hmay : ∀ p, may p → may' p) : r.Fair s s' may' := by
  refine ⟨h.perm, h.once, fun x hx => ?_, h.load, h.others⟩
  obtain ⟨hreceives, hne⟩ := h.receivers x hx
  exact ⟨hmay x.proc hreceives, hne⟩

theorem Transfer.Fair.of_queues {r : Transfer} {may : Nat → Prop} (h : r.Fair s s' may) {s₀ : State}
    (heq : s.queues = s₀.queues) : r.Fair s₀ s' may := by
  refine ⟨h.perm, h.once, h.receivers, fun p => ?_, fun q hq => ?_⟩
  · have hload := h.load p
    unfold State.load at hload ⊢
    rw [heq] at hload
    exact hload
  · rw [h.others q hq, heq]

/-- The entries are those of active processors that are not blocked, also when there is a new
one. -/
theorem Gathered.Inv.newProcessThread (h : g.Inv blocking d d.active.length)
    (hfresh : ∀ p, d.active.length ≤ p → d.state.tasks p = []) (maxThreadNumber : Nat) :
    let g' := Dispatcher.newProcessThread maxThreadNumber g
    g'.dispatcher.state = g.dispatcher.state ∧ d.active.length ≤ g'.dispatcher.active.length ∧
      g'.actives.Loads d.state ∧ (g'.actives.map Prod.snd).Nodup ∧
      ∀ e ∈ g'.actives, g'.dispatcher.active[e.2]? = some true ∧ e.2 ∉ d.blockings blocking := by
  simp only
  unfold Dispatcher.newProcessThread
  simp only
  split
  · rename_i hnew
    rw [hnew.1]
    refine ⟨rfl, ?_, ?_, ?_, ?_⟩
    · show d.active.length ≤ (g.dispatcher.active ++ [true]).length
      rw [List.length_append, h.length]
      omega
    · intro e he
      rw [mem_insert] at he
      rcases he with heq | he
      · have hnone := hfresh g.dispatcher.active.length (by rw [h.length])
        have hsize : d.state.runnableSize g.dispatcher.active.length = 0 := by
          rw [runnableSize_eq, List.length_eq_zero_iff, List.eq_nil_iff_forall_not_mem]
          intro t ht
          have hmem := mem_tasks.2 (Or.inl ht)
          rw [hnone] at hmem
          cases hmem
        rw [heq, hsize]
      · cases he
    · exact List.nodup_singleton _
    · intro e he
      rw [mem_insert] at he
      rcases he with heq | he
      · rw [heq]
        refine ⟨List.getElem?_concat_length, ?_⟩
        unfold Dispatcher.blockings
        rw [List.mem_filter, List.mem_range, h.length]
        exact fun hlt => Nat.lt_irrefl _ hlt.1
      · cases he
  · refine ⟨rfl, by rw [h.length], h.loads, h.nodup, ?_⟩
    intro e he
    obtain ⟨_, htrue⟩ := h.entries e he
    refine ⟨htrue, ?_⟩
    unfold Dispatcher.blockings
    rw [List.mem_filter, h.unblocked _ htrue]
    simp

theorem Transfer.Fair.tasks_eq_nil {r : Transfer} {may : Nat → Prop} (h : r.Fair s s' may)
    (hnot : ¬ may p) (hnone : s.tasks p = []) : s'.tasks p = [] := by
  refine List.eq_nil_iff_forall_not_mem.2 fun t ht => ?_
  rcases h.mem_tasks_iff.1 (.inl ht) with hold | hgiven
  · rw [hnone] at hold
    cases hold
  · obtain ⟨x, hx, hproc, _⟩ := mem_tasksOf.1 hgiven
    refine hnot ?_
    rw [← hproc]
    exact (h.receivers x hx).1

/-- The same tasks are there, and each of them belongs to one processor. -/
theorem allTasks_perm (h : Links s) (h' : Links s') {n n' : Nat}
    (hfresh : ∀ p, n ≤ p → s.tasks p = []) (hfresh' : ∀ p, n' ≤ p → s'.tasks p = [])
    (hsame : ∀ t, (∃ p, t ∈ s'.tasks p) ↔ ∃ p, t ∈ s.tasks p) :
    (s'.allTasks n').Perm (s.allTasks n) := by
  have hmem : ∀ (u : State) (m t : Nat), (∀ p, m ≤ p → u.tasks p = []) →
      (t ∈ u.allTasks m ↔ ∃ p, t ∈ u.tasks p) := by
    intro u m t hnone
    unfold State.allTasks
    rw [List.mem_flatMap]
    constructor
    · intro ⟨p, _, ht⟩
      exact ⟨p, ht⟩
    · intro ⟨p, ht⟩
      refine ⟨p, List.mem_range.2 (Nat.lt_of_not_le fun hmp => ?_), ht⟩
      rw [hnone p hmp] at ht
      cases ht
  refine (List.perm_ext_iff_of_nodup (h'.allTasks_nodup n') (h.allTasks_nodup n)).2 fun t => ?_
  rw [hmem s' n' t hfresh', hmem s n t hfresh]
  exact hsame t

/-- One cycle, for any number of processors with any loads, any of which are blocked. -/
theorem balance_conserves (d : Dispatcher) (blocking : Nat → Bool) (minThreadNumber maxThreadNumber : Nat)
    (h : Idle d.state) (hfresh : ∀ p, d.active.length ≤ p → d.state.tasks p = []) :
    ∃ c, d.cycle blocking minThreadNumber maxThreadNumber = some c ∧
      c.Conserves d (d.blockings blocking) := by
  have hg : (d.gather blocking minThreadNumber).Inv blocking d d.active.length := gather_inv h
  obtain ⟨hstate, hlen, hloads, hnodup, hentries⟩ :=
    hg.newProcessThread hfresh maxThreadNumber
  unfold Dispatcher.cycle
  simp only
  generalize Dispatcher.newProcessThread maxThreadNumber (d.gather blocking minThreadNumber) = g at *
  have hqueues : g.dispatcher.state.queues = d.state.queues := by
    rw [hstate]
    exact hg.queues
  have hidle : Idle g.dispatcher.state := by
    rw [hstate]
    exact hg.idle
  have hperm : ∀ (s' : State), Links s' → (∀ p, g.dispatcher.active.length ≤ p → s'.tasks p = []) →
      (∀ t, (∃ p, t ∈ s'.tasks p) ↔ ∃ p, t ∈ d.state.tasks p) →
      (s'.allTasks g.dispatcher.active.length).Perm (d.state.allTasks d.active.length) := by
    intro s' hlinks hfresh' hsame
    exact allTasks_perm h.links hlinks hfresh hfresh' hsame
  have hnone : ∀ p, g.dispatcher.active.length ≤ p → d.state.tasks p = [] :=
    fun p hp => hfresh p (by omega)
  by_cases hactives : g.actives = []
  · rw [if_pos hactives]
    have hnothing := (Transfer.Fair.nothing g.dispatcher.state fun p =>
      g.dispatcher.active[p]? = some true ∧ p ∉ d.blockings blocking)
    refine ⟨_, rfl, hnothing.of_queues hqueues, hnothing, ?_⟩
    refine hperm _ hidle.links ?_ ?_
    · intro p hp
      unfold State.tasks
      rw [hqueues]
      exact hnone p hp
    · intro t
      unfold State.tasks
      rw [hqueues]
  · rw [if_neg hactives]
    have hloads' : g.actives.Loads g.dispatcher.state := by
      intro e he
      rw [runnableSize_of_queues hqueues]
      exact hloads e he
    obtain ⟨s₁, m, r₁, hs₁, hfair₁, hidle₁, hloads₁, hsub⟩ :=
      hidle.balanceBlocked hactives hloads' hnodup
      fun e he => (hentries e he).2
    obtain ⟨s₂, r₂, hs₂, hfair₂, hidle₂⟩ := hidle₁.balanceWaiting hloads₁
    rw [hs₁, Option.bind_some, hs₂, Option.map_some]
    have hmay : ∀ p, p ∈ g.actives.map Prod.snd →
        g.dispatcher.active[p]? = some true ∧ p ∉ d.blockings blocking := by
      intro p hp
      obtain ⟨e, he, heq⟩ := List.mem_map.1 hp
      rw [← heq]
      exact hentries e he
    have hmay' : ∀ p, p ∈ m.map Prod.snd →
        g.dispatcher.active[p]? = some true ∧ p ∉ d.blockings blocking := by
      intro p hp
      obtain ⟨e, he, heq⟩ := List.mem_map.1 hp
      rw [← heq]
      exact hmay _ (hsub e he)
    have hfirst := (hfair₁.mono hmay).of_queues hqueues
    have hsecond := hfair₂.mono hmay'
    refine ⟨_, rfl, hfirst, hsecond, ?_⟩
    refine hperm s₂ hidle₂.links ?_ ?_
    · intro p hp
      have hnot : ¬ (g.dispatcher.active[p]? = some true ∧ p ∉ d.blockings blocking) := by
        intro hactive
        rw [List.getElem?_eq_none hp] at hactive
        cases hactive.1
      exact hsecond.tasks_eq_nil hnot (hfirst.tasks_eq_nil hnot (hnone p hp))
    · intro t
      exact hsecond.exists_tasks.trans hfirst.exists_tasks

/-- A state found by evaluation, in which the dispatcher has nothing. -/
theorem idle_of_exec {actions : List Action}
    (hs : machine.exec anyAction State.initial actions = some s)
    (hempty : ∀ k, (machine.exec anyAction State.initial actions).map (fun s =>
      (s.queues (.stolen k), s.stealing k)) = some ([], none)) : Idle s := by
  have hnone : ∀ k, s.queues (.stolen k) = [] ∧ s.stealing k = none := by
    intro k
    have heq := hempty k
    rw [hs, Option.map_some, Option.some.injEq, Prod.mk.injEq] at heq
    exact heq
  exact ⟨⟨Run.of_exec hs, fun k => (hnone k).2⟩, fun k => (hnone k).1⟩

/-- Processors from `n` on that have no tasks in a state found by evaluation. -/
theorem fresh_of_exec {actions : List Action} {n : Nat}
    (hs : machine.exec anyAction State.initial actions = some s)
    (hfar : ∀ p, (machine.exec anyAction State.initial actions).map (·.tasks (p + n)) = some []) :
    ∀ p, n ≤ p → s.tasks p = [] := by
  intro p hp
  have heq := hfar (p - n)
  rw [hs, Option.map_some, Option.some.injEq, Nat.sub_add_cancel hp] at heq
  exact heq

/-- The first of four processors is blocked, and the second one has six tasks: the task of the first
one goes to the third, and half of the load of the second one goes to the fourth. -/
theorem balance_conserves_four : ∃ d c, Dispatcher.cycle d (fun p => p == 0) 2 4 = some c ∧
    c.Conserves d (d.blockings fun p => p == 0) ∧
    c.blocked.given = [⟨2, [1]⟩] ∧ c.waiting.given = [⟨3, [5, 6, 7]⟩] := by
  generalize hacts : [Action.create 0, .create 0] ++ List.replicate 6 (.create 1) ++
    List.replicate 9 (.thread 0) ++ List.replicate 13 (.thread 1) = acts
  have hexec : ((machine.exec anyAction State.initial acts).bind fun s =>
      Dispatcher.cycle ⟨s, [true, true, true, true], 0⟩ (fun p => p == 0) 2 4).any (fun c =>
        c.blocked.given = [⟨2, [1]⟩] && c.waiting.given = [⟨3, [5, 6, 7]⟩]) = true := by
    rw [← hacts]
    decide +kernel
  have hfar : ∀ p, (machine.exec anyAction State.initial acts).map (·.tasks (p + 4)) = some [] := by
    intro p
    rw [← hacts]
    rfl
  have hempty : ∀ k, (machine.exec anyAction State.initial acts).map (fun s =>
      (s.queues (.stolen k), s.stealing k)) = some ([], none) := by
    intro k
    rw [← hacts]
    rfl
  cases hs : machine.exec anyAction State.initial acts with
  | none =>
    rw [hs] at hexec
    cases hexec
  | some s =>
    have hidle : Idle s := idle_of_exec hs hempty
    have hfresh : ∀ p, 4 ≤ p → s.tasks p = [] := fresh_of_exec hs hfar
    obtain ⟨c, hc, hconserves⟩ :=
      balance_conserves ⟨s, [true, true, true, true], 0⟩ (fun p => p == 0) 2 4
      hidle hfresh
    rw [hs, Option.bind_some, hc] at hexec
    simp only [Option.any_some, Bool.and_eq_true, decide_eq_true_eq] at hexec
    exact ⟨_, c, hc, hconserves, hexec⟩

end Costream.Scheduler
