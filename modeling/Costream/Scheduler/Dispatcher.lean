import Costream.Scheduler.Stolen

/-!
# The dispatcher

One cycle of `DispatcherThread` while nothing else happens.  It looks at the processors, marks those
that are blocked as inactive, steals the tasks of these and shares them out among the processors
with the least load; then it shares a part of the largest load out among the processors with none.

* The lists `tasks`, `p->Steal(..)` and `in` of the source are the lists 0, 1 and 2 of the
  dispatcher.
* `blocking` says what `IsBlocking` answers, all through the cycle.  A new processor has no task, is
  active and does not block; how it gets its two queues is the subject of another module.
* A `Transfer` is a record of what a phase takes and gives.

`Shared` says what a step of the dispatcher does to the loads: a processor gets what is recorded,
from the front of the list 0.
-/

namespace Costream.Scheduler

open Trace Costream.Lists

/-! ## The cycle -/

/-- `RunnableSize()`. -/
def State.runnableSize (s : State) (p : Nat) : Nat :=
  (s.queues (.runnable p)).length + (s.queues (.new p)).length

/-- An `ActiveMap`: loads and processors, in the order of its iterators. -/
abbrev ActiveMap := List (Nat × Nat)

namespace ActiveMap

/-- A new entry comes after those with the same key. -/
def insert (load p : Nat) : ActiveMap → ActiveMap
  | [] => [(load, p)]
  | e :: rest => if e.1 ≤ load then e :: insert load p rest else (load, p) :: e :: rest

/-- `equal_range(begin()->first)`. -/
def least : ActiveMap → ActiveMap
  | [] => []
  | e :: rest => e :: rest.takeWhile fun e' => e'.1 = e.1

/-- What comes after it. -/
def others : ActiveMap → ActiveMap
  | [] => []
  | e :: rest => rest.dropWhile fun e' => e'.1 = e.1

end ActiveMap

/-- `active` has one member for each of `processers_`. -/
structure Dispatcher where
  state : State
  active : List Bool
  lastActive : Nat

/-- Tasks that were taken from `proc`, or given to it. -/
structure Handed where
  proc : Nat
  tasks : List Nat
deriving DecidableEq

structure Transfer where
  stolen : List Handed
  given : List Handed

/-- Where the loop over the processors is. -/
structure Gathered where
  dispatcher : Dispatcher
  activeQuota : Nat
  actives : ActiveMap

namespace Dispatcher

variable (blocking : Nat → Bool) (d : Dispatcher)

def blockings : List Nat := (List.range d.active.length).filter blocking

/-- The first loop. -/
def markBlocked : Dispatcher :=
  { d with active := d.active.mapIdx fun i active => active && !blocking i }

/-- The second loop, for the processor `i`. -/
def visit (g : Gathered) (i : Nat) : Gathered :=
  let d := g.dispatcher
  let loadaverage := d.state.runnableSize i
  let g :=
    if d.active[i]? = some false ∧ 0 < g.activeQuota ∧ blocking i = false then
      { g with
        dispatcher := { d with active := d.active.set i true, lastActive := i }
        activeQuota := g.activeQuota - 1 }
    else g
  let g :=
    if g.dispatcher.active[i]? = some true then
      { g with actives := g.actives.insert loadaverage i }
    else g
  if 0 < loadaverage ∧ g.dispatcher.state.waiting i then
    { g with dispatcher := { g.dispatcher with state := g.dispatcher.state.notifyCondition i } }
  else g

def gather (minThreadNumber : Nat) : Gathered :=
  let d := d.markBlocked blocking
  (List.range d.active.length).foldl (visit blocking)
    ⟨d, minThreadNumber - d.active.count true, []⟩

/-- `NewProcessThread`, when all processors are blocked and there can be another one. -/
def newProcessThread (maxThreadNumber : Nat) (g : Gathered) : Gathered :=
  let pcount := g.dispatcher.active.length
  if g.actives = [] ∧ pcount < maxThreadNumber then
    { g with
      dispatcher := { g.dispatcher with active := g.dispatcher.active ++ [true] }
      actives := g.actives.insert 0 pcount }
  else g

end Dispatcher

namespace State

variable (s : State)

/-- `tasks.append(p->Steal(0))`, for each of the processors. -/
def stealBlocked (s : State) : List Nat → Option (State × List Handed)
  | [] => some (s, [])
  | p :: rest =>
    (s.stealAll 1 p 0).bind fun s =>
      ((s.append 0 1).stealBlocked rest).map fun r =>
        (r.1, ⟨p, s.queues (.stolen 1)⟩ :: r.2)

/-- `avg` tasks for each of the processors, as long as there are any.  The result has the entries
that are made for the processors. -/
def share (avg : Nat) (s : State) : ActiveMap → State × List Handed × ActiveMap
  | [] => (s, [], [])
  | e :: rest =>
    let s := s.cut 0 2 avg
    let tasks := s.queues (.stolen 2)
    if tasks = [] then (s, [], [])
    else
      let s := s.addTask 2 e.2
      let r := share avg s rest
      (r.1, ⟨e.2, tasks⟩ :: r.2.1, (s.runnableSize e.2, e.2) :: r.2.2)

/-- The tasks are shared out, and the first processor gets what is left. -/
def shareOut (range : ActiveMap) : State × List Handed × ActiveMap :=
  let avg := (s.queues (.stolen 0)).length / range.length
  let r := s.share (if avg = 0 then 1 else avg) range
  let tasks := r.1.queues (.stolen 0)
  match range with
  | [] => r
  | e :: _ => if tasks = [] then r else (r.1.addTask 0 e.2, r.2.1 ++ [⟨e.2, tasks⟩], r.2.2)

/-- The tasks of the blocked processors are stolen, and shared out. -/
def balanceBlocked (blockings : List Nat) (actives : ActiveMap) :
    Option (State × ActiveMap × Transfer) :=
  (s.stealBlocked blockings).map fun r =>
    if r.1.queues (.stolen 0) = [] then (r.1, actives, ⟨r.2, []⟩)
    else
      let range := actives.least
      let r' := r.1.shareOut range
      let newActives := r'.2.2.foldl (fun m e => m.insert e.1 e.2) actives.others
      let newActives := range.foldl (fun m e => m.insert (r'.1.runnableSize e.2) e.2) newActives
      (r'.1, newActives, ⟨r.2, r'.2.1⟩)

/-- A part of the largest load is shared out among the processors that have none. -/
def balanceWaiting (actives : ActiveMap) : Option (State × Transfer) :=
  match actives.head?, actives.getLast? with
  | some first, some last =>
    let range := actives.least
    let waitN := range.length
    let stealN := min (s.runnableSize last.2 / 2) (waitN * 1024)
    if first.1 ≠ 0 ∨ waitN = actives.length ∨ stealN = 0 then some (s, ⟨[], []⟩)
    else
      (s.stealAll 0 last.2 stealN).map fun s =>
        let tasks := s.queues (.stolen 0)
        if tasks = [] then (s, ⟨[⟨last.2, []⟩], []⟩)
        else
          let r := s.shareOut range
          (r.1, ⟨[⟨last.2, tasks⟩], r.2.1⟩)
  | _, _ => some (s, ⟨[], []⟩)

end State

/-- What a cycle leaves, what its two phases have moved, and the state between these. -/
structure Cycle where
  dispatcher : Dispatcher
  between : State
  blocked : Transfer
  waiting : Transfer

def Dispatcher.cycle (d : Dispatcher) (blocking : Nat → Bool) (minThreadNumber maxThreadNumber : Nat) :
    Option Cycle :=
  let g := newProcessThread maxThreadNumber (d.gather blocking minThreadNumber)
  let s := g.dispatcher.state
  if g.actives = [] then some ⟨g.dispatcher, s, ⟨[], []⟩, ⟨[], []⟩⟩
  else
    (s.balanceBlocked (d.blockings blocking) g.actives).bind fun r =>
      (r.1.balanceWaiting r.2.1).map fun r' =>
        ⟨{ g.dispatcher with state := r'.1 }, r.1, r.2.2, r'.2⟩

/-! ## What the steps of the dispatcher do to the loads -/

variable {s s' : State} {k p n : Nat} {q : Queue} {a : Action} {l l' : List Handed} {m : ActiveMap}

/-- The tasks that `RunnableSize` counts. -/
def State.load (s : State) (p : Nat) : List Nat := s.queues (.runnable p) ++ s.queues (.new p)

theorem runnableSize_eq (s : State) (p : Nat) : s.runnableSize p = (s.load p).length := by
  unfold State.runnableSize State.load
  rw [List.length_append]

/-- The tasks in the records that are about `p`. -/
def tasksOf (p : Nat) (l : List Handed) : List Nat := (l.filter fun h => h.proc = p).flatMap Handed.tasks

theorem tasksOf_cons (p : Nat) (h : Handed) :
    tasksOf p (h :: l) = (if h.proc = p then h.tasks else []) ++ tasksOf p l := by
  unfold tasksOf
  by_cases heq : h.proc = p
  · rw [List.filter_cons_of_pos (by simpa using heq), List.flatMap_cons, if_pos heq]
  · rw [List.filter_cons_of_neg (by simpa using heq), if_neg heq, List.nil_append]

theorem tasksOf_append (p : Nat) : tasksOf p (l ++ l') = tasksOf p l ++ tasksOf p l' := by
  unfold tasksOf
  rw [List.filter_append, List.flatMap_append]

theorem tasksOf_eq_nil (h : ∀ r ∈ l, r.proc ≠ p) : tasksOf p l = [] := by
  unfold tasksOf
  rw [List.filter_eq_nil_iff.2 fun r hr => by simpa using h r hr]
  rfl

theorem mem_tasksOf {t : Nat} : t ∈ tasksOf p l ↔ ∃ r ∈ l, r.proc = p ∧ t ∈ r.tasks := by
  unfold tasksOf
  rw [List.mem_flatMap]
  constructor
  · intro ⟨r, hr, ht⟩
    rw [List.mem_filter, decide_eq_true_eq] at hr
    exact ⟨r, hr.1, hr.2, ht⟩
  · intro ⟨r, hr, hp, ht⟩
    exact ⟨r, List.mem_filter.2 ⟨hr, by simpa using hp⟩, ht⟩

/-- A processor from which nothing was taken has the load that it had. -/
theorem runnableSize_of_untaken {p : Nat} (hperm : (s'.load p ++ tasksOf p l).Perm (s.load p))
    (hout : ∀ r ∈ l, r.proc ≠ p) : s'.runnableSize p = s.runnableSize p := by
  rw [tasksOf_eq_nil hout, List.append_nil] at hperm
  rw [runnableSize_eq, runnableSize_eq, hperm.length_eq]

/-- The queue holds tasks that `RunnableSize` counts. -/
def Queue.isLoad : Queue → Bool
  | .runnable _ => true
  | .new _ => true
  | _ => false

/-- A state of a run, in which no call of `Steal` is under way. -/
structure Quiet (s : State) : Prop where
  reachable : Run machine anyAction State.initial s
  stealing : ∀ k, s.stealing k = none

theorem Quiet.step (h : Quiet s) (he : Enabled s a = true) (hs : Scheduler.step s a = some s')
    (hstealing : s'.stealing = s.stealing) : Quiet s' := by
  refine ⟨h.reachable.tail he trivial hs, fun k => ?_⟩
  rw [hstealing]
  exact h.stealing k

theorem Quiet.links (h : Quiet s) : Links s := links_of_run h.reachable

/-- A whole call of `Steal`. -/
theorem Quiet.stealAll (h : Quiet s) (k p n : Nat) (hk : s.queues (.stolen k) = []) :
    ∃ s', s.stealAll k p n = some s' ∧ Quiet s' ∧
      (s'.load p ++ s'.queues (.stolen k)).Perm (s.load p) ∧
      ∀ q, q ≠ .runnable p → q ≠ .new p → q ≠ .stolen k → s'.queues q = s.queues q := by
  obtain ⟨hlinks, hshort⟩ := short_of_run h.reachable
  obtain ⟨s', hs', hsafe⟩ := hlinks.stealAll_safe (p := p) (n := n) hshort hk (h.stealing k)
  have hperm : (s'.load p ++ s'.queues (.stolen k)).Perm (s.load p) := by
    have hold := hsafe.perm
    rw [hk, List.nil_append] at hold
    unfold State.load
    refine List.perm_append_comm.trans (List.Perm.trans ?_ (hold.trans List.perm_append_comm))
    exact List.Perm.append_left _ List.perm_append_comm
  have hfirst : Run machine anyAction State.initial (s.steal k p n) := by
    refine h.reachable.tail (a := .steal k p n) ?_ trivial rfl
    show Enabled s (.steal k p n) = true
    simp [Enabled, hk, h.stealing k]
  refine ⟨s', hs', ?_, hperm, ?_⟩
  · unfold State.stealAll at hs'
    simp only at hs'
    have hother : ∀ j ≠ k, (s.steal k p n).stealing j = none := by
      intro j hj
      rw [steal_stealing]
      split
      · exact h.stealing j
      · rw [Function.update_of_ne hj]
        exact h.stealing j
    cases hr : (s.steal k p n).stealing k with
    | none =>
      simp only [hr, Option.some.injEq] at hs'
      rw [← hs']
      refine ⟨hfirst, fun j => ?_⟩
      by_cases hj : j = k
      · rw [hj]
        exact hr
      · exact hother j hj
    | some r =>
      simp only [hr] at hs'
      have hrest : Run machine anyAction State.initial s' := by
        refine hfirst.tail (a := .stealRest k) ?_ trivial ?_
        · show Enabled _ (.stealRest k) = true
          simp [Enabled, hr]
        · show Scheduler.step _ (.stealRest k) = some s'
          unfold Scheduler.step
          simp only [hr, Option.bind_some]
          exact hs'
      refine ⟨hrest, fun j => ?_⟩
      obtain ⟨D, C, heq, -⟩ := (links_of_run hfirst).stealRest_eq (k := k) (p := r.1) (n := r.2)
      rw [heq, Option.some.injEq] at hs'
      rw [← hs']
      show Function.update (s.steal k p n).stealing k none j = none
      by_cases hj : j = k
      · rw [hj, Function.update_self]
      · rw [Function.update_of_ne hj]
        exact hother j hj
  · intro q hrunnable hnew hstolen
    unfold State.stealAll at hs'
    simp only at hs'
    have hsteal := steal_other k p n s hnew hstolen
    cases hr : (s.steal k p n).stealing k with
    | none =>
      simp only [hr, Option.some.injEq] at hs'
      rw [← hs']
      exact hsteal
    | some r =>
      simp only [hr] at hs'
      have hkey : r.1 = p := by
        rw [steal_stealing] at hr
        split at hr
        · rw [h.stealing k] at hr
          cases hr
        · rw [Function.update_self] at hr
          cases hr
          rfl
      obtain ⟨D, C, heq, -⟩ := (links_of_run hfirst).stealRest_eq (k := k) (p := r.1) (n := r.2)
      rw [heq, Option.some.injEq] at hs'
      rw [← hs', ← hsteal]
      exact stealt_other k r.1 r.2 (s.steal k p n) (by rw [hkey]; exact hrunnable) hstolen

theorem notifyCondition_queues (s : State) (p : Nat) : (s.notifyCondition p).queues = s.queues := by
  unfold State.notifyCondition State.notifyAll
  split
  · split <;> rfl
  · rfl

theorem Quiet.notifyCondition (h : Quiet s) (p : Nat) : Quiet (s.notifyCondition p) :=
  h.step (a := .notify p) rfl rfl (untouched_notifyCondition s p).stealing

theorem Quiet.append (h : Quiet s) : Quiet (s.append 0 1) := by
  refine h.step (a := .append 0 1) ?_ rfl rfl
  simp [Enabled, h.stealing]

theorem Quiet.cut (h : Quiet s) (n : Nat) (hempty : s.queues (.stolen 2) = []) :
    Quiet (s.cut 0 2 n) := by
  refine h.step (a := .cut 0 2 n) ?_ rfl rfl
  simp [Enabled, h.stealing, hempty]

theorem Quiet.addTask (h : Quiet s) (k p : Nat) : Quiet (s.addTask k p) := by
  refine h.step (a := .addTask k p) ?_ rfl ?_
  · simp [Enabled, h.stealing]
  · exact (untouched_notifyCondition _ p).stealing

theorem append_queues (s : State) : (s.append 0 1).queues = Function.update
    (Function.update s.queues (.stolen 0) (s.queues (.stolen 0) ++ s.queues (.stolen 1))) (.stolen 1) [] :=
  rfl

theorem addTask_queues (s : State) (k p : Nat) : (s.addTask k p).queues = Function.update
    (Function.update s.queues (.new p) (s.queues (.new p) ++ s.queues (.stolen k))) (.stolen k) [] :=
  notifyCondition_queues _ p

/-! ## Stealing from the blocked processors -/

/-- What the processors lose is in the list of the dispatcher. -/
theorem Quiet.stealBlocked (h : Quiet s) (hempty : s.queues (.stolen 1) = []) (blockings : List Nat) :
    ∃ s' l, s.stealBlocked blockings = some (s', l) ∧ Quiet s' ∧ s'.queues (.stolen 1) = [] ∧
      s'.queues (.stolen 0) = s.queues (.stolen 0) ++ l.flatMap Handed.tasks ∧
      (∀ r ∈ l, r.proc ∈ blockings) ∧
      (∀ p, (s'.load p ++ tasksOf p l).Perm (s.load p)) ∧
      ∀ q, q.isLoad = false → q ≠ .stolen 0 → q ≠ .stolen 1 → s'.queues q = s.queues q := by
  induction blockings generalizing s with
  | nil =>
    refine ⟨s, [], rfl, h, hempty, ?_, ?_, ?_, fun _ _ _ _ => rfl⟩
    · rw [List.flatMap_nil, List.append_nil]
    · intro r hr
      cases hr
    · intro p
      exact List.Perm.of_eq (List.append_nil _)
  | cons p rest ih =>
    obtain ⟨s₁, hs₁, hquiet₁, hperm₁, hother₁⟩ := h.stealAll 1 p 0 hempty
    have hload : ∀ p', (s₁.append 0 1).load p' = s₁.load p' := by
      intro p'
      unfold State.load
      rw [append_queues]
      simp [Function.update]
    have hstolen : (s₁.append 0 1).queues (.stolen 0) =
        s.queues (.stolen 0) ++ s₁.queues (.stolen 1) := by
      rw [append_queues, Function.update_of_ne (by simp), Function.update_self,
        hother₁ (.stolen 0) (by simp) (by simp) (by simp)]
    have hnone : (s₁.append 0 1).queues (.stolen 1) = [] := by
      rw [append_queues, Function.update_self]
    obtain ⟨s', l, hs', hquiet, hempty', htasks, hmem, hperm, hother⟩ := ih hquiet₁.append hnone
    refine ⟨s', ⟨p, s₁.queues (.stolen 1)⟩ :: l, ?_, hquiet, hempty', ?_, ?_, ?_, ?_⟩
    · unfold State.stealBlocked
      rw [hs₁, Option.bind_some, hs', Option.map_some]
    · rw [htasks, hstolen, List.flatMap_cons, List.append_assoc]
    · intro r hr
      rcases List.mem_cons.1 hr with heq | hr
      · rw [heq]
        exact List.mem_cons_self
      · exact List.mem_cons_of_mem p (hmem r hr)
    · intro p'
      rw [tasksOf_cons]
      have hrest := hperm p'
      rw [hload p'] at hrest
      by_cases heq : p = p'
      · subst heq
        rw [if_pos rfl]
        refine List.Perm.trans ?_ hperm₁
        rw [← List.append_assoc]
        refine List.Perm.trans (List.Perm.append_right _ List.perm_append_comm) ?_
        rw [List.append_assoc]
        exact List.perm_append_comm.trans (List.Perm.append_right _ hrest)
      · rw [if_neg heq, List.nil_append]
        have hsame : s₁.load p' = s.load p' := by
          unfold State.load
          rw [hother₁ (.runnable p') (by simpa using Ne.symm heq) (by simp) (by simp),
            hother₁ (.new p') (by simp) (by simpa using Ne.symm heq) (by simp)]
        rw [hsame] at hrest
        exact hrest
    · intro q hload' h0 h1
      rw [hother q hload' h0 h1, append_queues, Function.update_of_ne h1, Function.update_of_ne h0]
      refine hother₁ q ?_ ?_ h1
      · intro heq
        rw [heq] at hload'
        cases hload'
      · intro heq
        rw [heq] at hload'
        cases hload'

/-! ## Sharing the tasks out -/

/-- The tasks of the list `k` go to `p`. -/
theorem addTask_load (s : State) (k p p' : Nat) : (s.addTask k p).load p' =
    s.load p' ++ (if p = p' then s.queues (.stolen k) else []) := by
  unfold State.load
  rw [addTask_queues]
  by_cases heq : p = p'
  · rw [if_pos heq, ← heq]
    simp [Function.update]
  · rw [if_neg heq]
    simp [Function.update, Ne.symm heq]

/-- What is shared out is taken from the list 0, from its front. -/
structure Shared (s s' : State) (l : List Handed) : Prop where
  quiet : Quiet s'
  empty : s'.queues (.stolen 2) = []
  tasks : l.flatMap Handed.tasks ++ s'.queues (.stolen 0) = s.queues (.stolen 0)
  load : ∀ p, s'.load p = s.load p ++ tasksOf p l
  others : ∀ q, q.isLoad = false → q ≠ .stolen 0 → q ≠ .stolen 2 → s'.queues q = s.queues q

theorem Shared.refl (h : Quiet s) (hempty : s.queues (.stolen 2) = []) : Shared s s [] :=
  ⟨h, hempty, rfl, fun _ => (List.append_nil _).symm, fun _ _ _ _ => rfl⟩

theorem Shared.trans {s'' : State} (h : Shared s s' l) (h' : Shared s' s'' l') :
    Shared s s'' (l ++ l') := by
  refine ⟨h'.quiet, h'.empty, ?_, fun p => ?_, fun q hload h0 h2 => ?_⟩
  · rw [List.flatMap_append, List.append_assoc, h'.tasks, h.tasks]
  · rw [h'.load p, h.load p, tasksOf_append, List.append_assoc]
  · rw [h'.others q hload h0 h2, h.others q hload h0 h2]

theorem cut_taken (s : State) (n : Nat) :
    (s.cut 0 2 n).queues (.stolen 2) = (s.queues (.stolen 0)).take n := by
  unfold State.cut State.setQueue
  simp [Function.update]

theorem cut_rest (s : State) (n : Nat) :
    (s.cut 0 2 n).queues (.stolen 0) = (s.queues (.stolen 0)).drop n := by
  unfold State.cut State.setQueue
  simp [Function.update]

theorem cut_other (s : State) (n : Nat) (h0 : q ≠ .stolen 0) (h2 : q ≠ .stolen 2) :
    (s.cut 0 2 n).queues q = s.queues q := by
  unfold State.cut State.setQueue
  simp [Function.update, h0, h2]

theorem cut_load (s : State) (n p : Nat) : (s.cut 0 2 n).load p = s.load p := by
  unfold State.load
  rw [cut_other s n (by simp) (by simp), cut_other s n (by simp) (by simp)]

/-- There is nothing to cut off. -/
theorem Quiet.cut_none (h : Quiet s) (hempty : s.queues (.stolen 2) = []) {n : Nat} (hn : 0 < n)
    (hnone : (s.cut 0 2 n).queues (.stolen 2) = []) : Shared s (s.cut 0 2 n) [] := by
  have hzero : s.queues (.stolen 0) = [] := by
    rw [cut_taken, List.take_eq_nil_iff] at hnone
    exact hnone.resolve_left (by omega)
  refine ⟨h.cut n hempty, hnone, ?_, fun p => ?_, fun q _ h0 h2 => cut_other s n h0 h2⟩
  · rw [cut_rest, hzero]
    simp
  · rw [cut_load]
    exact (List.append_nil _).symm

/-- Some tasks are cut off, and go to a processor. -/
theorem Quiet.cut_addTask (h : Quiet s) (hempty : s.queues (.stolen 2) = []) (n p : Nat) :
    Shared s ((s.cut 0 2 n).addTask 2 p) [⟨p, (s.cut 0 2 n).queues (.stolen 2)⟩] := by
  refine ⟨(h.cut n hempty).addTask 2 p, ?_, ?_, fun p' => ?_, fun q hload h0 h2 => ?_⟩
  · rw [addTask_queues, Function.update_self]
  · rw [addTask_queues, Function.update_of_ne (by simp), Function.update_of_ne (by simp), cut_rest,
      cut_taken]
    simp
  · rw [addTask_load, tasksOf_cons, cut_load]
    show _ = _ ++ (_ ++ [])
    rw [List.append_nil]
  · have hnew : q ≠ .new p := by
      intro heq
      rw [heq] at hload
      cases hload
    rw [addTask_queues, Function.update_of_ne h2, Function.update_of_ne hnew,
      cut_other s n h0 h2]

/-- What is left goes to a processor. -/
theorem Quiet.addTask_rest (h : Quiet s) (hempty : s.queues (.stolen 2) = []) (p : Nat) :
    Shared s (s.addTask 0 p) [⟨p, s.queues (.stolen 0)⟩] := by
  refine ⟨h.addTask 0 p, ?_, ?_, fun p' => ?_, fun q hload h0 h2 => ?_⟩
  · rw [addTask_queues, Function.update_of_ne (by simp), Function.update_of_ne (by simp), hempty]
  · rw [addTask_queues, Function.update_self]
    simp
  · rw [addTask_load, tasksOf_cons]
    show _ = _ ++ (_ ++ [])
    rw [List.append_nil]
  · have hnew : q ≠ .new p := by
      intro heq
      rw [heq] at hload
      cases hload
    rw [addTask_queues, Function.update_of_ne h0, Function.update_of_ne hnew]

theorem Quiet.share (h : Quiet s) (hempty : s.queues (.stolen 2) = []) {avg : Nat} (havg : 0 < avg)
    (m : ActiveMap) : ∃ s' l e, s.share avg m = (s', l, e) ∧ Shared s s' l ∧
      (∀ r ∈ l, r.proc ∈ m.map Prod.snd) ∧
      (∀ x ∈ e, x.2 ∈ m.map Prod.snd ∧ 0 < x.1 ∧ x.1 ≤ s'.runnableSize x.2) ∧
      (m ≠ [] → s.queues (.stolen 0) ≠ [] → e ≠ []) := by
  induction m generalizing s with
  | nil =>
    refine ⟨s, [], [], rfl, .refl h hempty, ?_, ?_, fun hm => absurd rfl hm⟩
    · intro r hr
      cases hr
    · intro x hx
      cases hx
  | cons y rest ih =>
    by_cases hnone : (s.cut 0 2 avg).queues (.stolen 2) = []
    · refine ⟨s.cut 0 2 avg, [], [], ?_, h.cut_none hempty havg hnone, ?_, ?_, fun _ htasks => ?_⟩
      · unfold State.share
        exact if_pos hnone
      · intro r hr
        cases hr
      · intro x hx
        cases hx
      · rw [cut_taken, List.take_eq_nil_iff] at hnone
        exact absurd (hnone.resolve_left (by omega)) htasks
    · have hfirst := h.cut_addTask hempty avg y.2
      obtain ⟨s', l, e, hs', hshared, hprocs, hentries, -⟩ := ih hfirst.quiet hfirst.empty
      have hsize : 0 < ((s.cut 0 2 avg).addTask 2 y.2).runnableSize y.2 := by
        have hpos := List.length_pos_of_ne_nil hnone
        rw [runnableSize_eq, addTask_load, if_pos rfl, List.length_append]
        omega
      refine ⟨s', ⟨y.2, (s.cut 0 2 avg).queues (.stolen 2)⟩ :: l,
        (((s.cut 0 2 avg).addTask 2 y.2).runnableSize y.2, y.2) :: e, ?_, hfirst.trans hshared, ?_, ?_,
        by simp⟩
      · unfold State.share
        simp only
        rw [if_neg hnone, hs']
      · intro r hr
        rw [List.map_cons]
        rcases List.mem_cons.1 hr with heq | hr
        · rw [heq]
          exact List.mem_cons_self
        · exact List.mem_cons_of_mem _ (hprocs r hr)
      · intro x hx
        rw [List.map_cons]
        rcases List.mem_cons.1 hx with heq | hx
        · rw [heq]
          refine ⟨List.mem_cons_self, hsize, ?_⟩
          rw [runnableSize_eq, runnableSize_eq, hshared.load, List.length_append]
          exact Nat.le_add_right _ _
        · obtain ⟨hmem, hpos⟩ := hentries x hx
          exact ⟨List.mem_cons_of_mem _ hmem, hpos⟩

/-- Everything is shared out. -/
theorem Quiet.shareOut (h : Quiet s) (hempty : s.queues (.stolen 2) = []) (hm : m ≠ []) :
    ∃ s' l e, s.shareOut m = (s', l, e) ∧ Shared s s' l ∧ s'.queues (.stolen 0) = [] ∧
      (∀ r ∈ l, r.proc ∈ m.map Prod.snd) ∧
      (∀ x ∈ e, x.2 ∈ m.map Prod.snd ∧ 0 < x.1 ∧ x.1 ≤ s'.runnableSize x.2) ∧
      (s.queues (.stolen 0) ≠ [] → e ≠ []) := by
  have havg : ∀ n : Nat, 0 < if n = 0 then 1 else n := by
    intro n
    split <;> omega
  obtain ⟨s₁, l, e, hs₁, hshared, hprocs, hentries, hsome⟩ := h.share hempty
    (havg ((s.queues (.stolen 0)).length / m.length)) m
  unfold State.shareOut
  simp only [hs₁]
  cases m with
  | nil => exact absurd rfl hm
  | cons y rest =>
    simp only
    by_cases hnone : s₁.queues (.stolen 0) = []
    · rw [if_pos hnone]
      exact ⟨s₁, l, e, rfl, hshared, hnone, hprocs, hentries, hsome hm⟩
    · rw [if_neg hnone]
      have hlast := hshared.quiet.addTask_rest hshared.empty y.2
      refine ⟨_, _, _, rfl, hshared.trans hlast, ?_, ?_, ?_, hsome hm⟩
      · rw [addTask_queues, Function.update_self]
      · intro r hr
        rcases List.mem_append.1 hr with hr | hr
        · exact hprocs r hr
        · rw [List.mem_singleton.1 hr]
          exact List.mem_cons_self
      · intro x hx
        obtain ⟨hmem, hkey, hle⟩ := hentries x hx
        refine ⟨hmem, hkey, hle.trans ?_⟩
        rw [runnableSize_eq, runnableSize_eq, addTask_load, List.length_append]
        exact Nat.le_add_right _ _

end Costream.Scheduler
