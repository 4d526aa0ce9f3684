import Costream.Scheduler.Dispatcher
import Costream.Scheduler.Life
import Costream.Scheduler.Stop
import Mathlib.Data.Nat.Find

/-!
# Whose turn it is

`Process` goes through `runnableQueue_` from its front to its end, and begins again.  A task that
stands behind the running one has its turn after the tasks that are between them, whatever is
created, suspended or woken up meanwhile, unless the dispatcher takes tasks away.

* `State.line` is what stands behind the running task.  From the decision on who is next to the
  switch to this task, it begins with this task.
* `line_step` is the effect of a step: the line loses its head with a switch, and may grow.
* `line_served` is the result: a thread that goes on comes to each task of the line, in order.
* A thread that is busy does not look for new tasks.  `cycling_ignores` says how long.
-/

namespace Costream.Scheduler

open Trace Costream.Lists

/-! ## What stands behind an element -/

section behind

variable {xs ys : List Nat} {t u : Nat}

def after (xs : List Nat) (t : Nat) : List Nat := (xs.dropWhile (· ≠ t)).tail

/-- The rest of the list from an element on. -/
def lineFrom (xs : List Nat) : Option Nat → List Nat
  | none => []
  | some t => t :: after xs t

theorem next_eq (xs : List Nat) (t : Nat) : next xs t = (after xs t).head? := rfl

theorem after_split (h : t ∉ xs) : after (xs ++ t :: ys) t = ys := by
  have hdrop : (xs ++ t :: ys).dropWhile (· ≠ t) = t :: ys := by
    rw [List.dropWhile_append_of_pos, List.dropWhile_cons_of_neg (by simp)]
    intro u hu
    rw [decide_eq_true_eq]
    exact fun heq => h (heq ▸ hu)
  rw [after, hdrop, List.tail_cons]

theorem exists_after_append (xs ys : List Nat) (t : Nat) :
    ∃ added, after (xs ++ ys) t = after xs t ++ added := by
  by_cases h : t ∈ xs
  · obtain ⟨l, r, hxs, hl⟩ := List.eq_append_cons_of_mem h
    refine ⟨ys, ?_⟩
    rw [hxs, List.append_assoc, List.cons_append, after_split hl, after_split hl]
  · refine ⟨after (xs ++ ys) t, ?_⟩
    have hnil : xs.dropWhile (· ≠ t) = [] := by
      rw [List.dropWhile_eq_nil_iff]
      intro u hu
      rw [decide_eq_true_eq]
      exact fun heq => h (heq ▸ hu)
    rw [show after xs t = [] by rw [after, hnil]; rfl, List.nil_append]

theorem exists_lineFrom_append (xs ys : List Nat) (head : Option Nat) :
    ∃ added, lineFrom (xs ++ ys) head = lineFrom xs head ++ added := by
  cases head with
  | none => exact ⟨[], rfl⟩
  | some t =>
    obtain ⟨added, h⟩ := exists_after_append xs ys t
    exact ⟨added, congrArg (t :: ·) h⟩

theorem next_append (h : next xs t = some u) : next (xs ++ ys) t = some u := by
  obtain ⟨added, hadded⟩ := exists_after_append xs ys t
  rw [next_eq] at h ⊢
  rw [hadded, List.head?_append, h]
  rfl

/-- A list around an element and the next one. -/
theorem split_next (hnd : xs.Nodup) (h : next xs t = some u) :
    ∃ l r, xs = l ++ t :: u :: r ∧ t ∉ l ∧ u ∉ l ∧ u ≠ t := by
  have hmem : t ∈ xs := by
    by_contra hmem
    rw [next, List.dropWhile_eq_nil_iff.2 fun v hv => by
      rw [decide_eq_true_eq]
      exact fun heq => hmem (heq ▸ hv)] at h
    cases h
  obtain ⟨l, r, hxs, hl⟩ := List.eq_append_cons_of_mem hmem
  rw [hxs, next_append_cons hl] at h
  obtain ⟨r, rfl⟩ := List.head?_eq_some_iff.1 h
  subst hxs
  refine ⟨l, r, rfl, hl, fun hu => ?_, fun hut => ?_⟩
  · exact (List.nodup_append.1 hnd).2.2 u hu u (by simp) rfl
  · subst hut
    simp [List.nodup_append] at hnd

theorem lineFrom_next (hnd : xs.Nodup) (t : Nat) : lineFrom xs (next xs t) = after xs t := by
  cases hnext : next xs t with
  | none =>
    rw [next_eq, List.head?_eq_none_iff] at hnext
    exact hnext.symm
  | some u =>
    obtain ⟨l, r, rfl, hl, hu, hne⟩ := split_next hnd hnext
    have hafter : after (l ++ t :: u :: r) u = r := by
      rw [List.append_cons]
      refine after_split fun hmem => ?_
      rw [List.mem_append, List.mem_singleton] at hmem
      exact hmem.elim hu hne
    rw [after_split hl, lineFrom, hafter]

theorem lineFrom_erase (hnd : xs.Nodup) (t : Nat) :
    lineFrom (xs.erase t) (next xs t) = after xs t := by
  cases hnext : next xs t with
  | none =>
    rw [next_eq, List.head?_eq_none_iff] at hnext
    exact hnext.symm
  | some u =>
    obtain ⟨l, r, rfl, hl, hu, -⟩ := split_next hnd hnext
    rw [after_split hl, List.erase_append_right _ hl, List.erase_cons_head, lineFrom, after_split hu]

end behind

/-! ## The line -/

variable {s s' : State} {p p' t u k n : Nat}

/-- Who is next after the running task `t`, where it is decided. -/
def State.decision (s : State) (p t : Nat) : Option (Option Nat) :=
  match s.place p with
  | .inner | .swapIn | .stopped => some (some t)
  | .running | .switch => if s.taskState t = .block then some (s.nextTask p) else none
  | .pop .push | .release .push _ | .clear .push => some (s.nextTask p)
  | .erase | .push | .finish => some (s.nextTask p)
  | _ => none

/-- The tasks that have their turn before `Process` begins again at the front. -/
def State.line (s : State) (p : Nat) : List Nat :=
  match s.runningTask p with
  | none => []
  | some t =>
    match s.decision p t with
    | some head => lineFrom (s.queues (.runnable p)) head
    | none => after (s.queues (.runnable p)) t

/-- The task to which the thread of `p` switches. -/
def State.switches (p : Nat) (s : State) : Action → List Nat
  | .thread p' => if p' = p ∧ s.place p = .swapIn then (s.runningTask p).toList else []
  | _ => []

theorem switches_own {a : Action} (h : s.switches p a ≠ []) :
    a.isOf p = true ∧ s.place p = .swapIn := by
  cases a with
  | thread p' =>
    by_cases hand : p' = p ∧ s.place p = .swapIn
    · exact ⟨decide_eq_true hand.1.symm, hand.2⟩
    · exact absurd (if_neg hand) h
  | _ => exact absurd rfl h

theorem switches_eq {a : Action} (hown : a.isOf p = true) (hplace : s.place p = .swapIn)
    (he : Enabled s a = true) (hr : s.runningTask p = some t) : s.switches p a = [t] := by
  cases a with
  | thread p' =>
    have hp : p = p' := of_decide_eq_true hown
    rw [State.switches, if_pos ⟨hp.symm, hplace⟩, hr]
    rfl
  | yield p' | suspend p' | finish p' =>
    have hp : p = p' := of_decide_eq_true hown
    subst hp
    simp [Enabled, hplace] at he
  | _ => cases hown

/-- The dispatcher takes tasks out of `runnableQueue_`. -/
def State.loses (p : Nat) (s : State) : Action → Bool
  | .stealRest k => (s.stealing k).any fun r => r.1 = p
  | _ => false

theorem line_idle (hr : s.runningTask p = none) : s.line p = [] := by
  rw [State.line, hr]

theorem line_decided (hr : s.runningTask p = some t) {h : Option Nat}
    (hd : s.decision p t = some h) : s.line p = lineFrom (s.queues (.runnable p)) h := by
  rw [State.line, hr]
  dsimp only
  rw [hd]

theorem line_open (hr : s.runningTask p = some t) (hd : s.decision p t = none) :
    s.line p = after (s.queues (.runnable p)) t := by
  rw [State.line, hr]
  dsimp only
  rw [hd]

theorem line_congr (hr : s'.runningTask p = s.runningTask p)
    (hq : s'.queues (.runnable p) = s.queues (.runnable p))
    (hd : ∀ t, s.runningTask p = some t → s'.decision p t = s.decision p t) :
    s'.line p = s.line p := by
  unfold State.line
  rw [hr, hq]
  cases hrun : s.runningTask p with
  | none => rfl
  | some t =>
    dsimp only
    rw [hd t hrun]

/-- Tasks come to the end of the queue. -/
theorem line_append (hr : s'.runningTask p = s.runningTask p) (ys : List Nat)
    (hq : s'.queues (.runnable p) = s.queues (.runnable p) ++ ys)
    (hd : ∀ t, s.runningTask p = some t → s'.decision p t = s.decision p t) :
    ∃ added, s'.line p = s.line p ++ added := by
  unfold State.line
  rw [hr, hq]
  cases hrun : s.runningTask p with
  | none => exact ⟨[], rfl⟩
  | some t =>
    dsimp only
    rw [hd t hrun]
    cases s.decision p t with
    | none => exact exists_after_append _ _ t
    | some head => exact exists_lineFrom_append _ _ head

/-! ### The steps of others -/

theorem Spares.decision (h : Spares p s s') (hr : s.runningTask p = some t) :
    s'.decision p t = s.decision p t := by
  unfold State.decision
  rw [h.state t hr, h.next]
  rcases h.place with hsame | ⟨hblocked, hwoken⟩
  · rw [hsame]
  · rw [hblocked, hwoken]

/-- The dispatcher gives a list of tasks to `p`. -/
def Action.gives (p : Nat) : Action → Bool
  | .addTask _ p' => p' = p
  | _ => false

/-- What a step `a` of another does to the lists of `p`. -/
structure Grows (p : Nat) (a : Action) (s s' : State) : Prop where
  runnable : ∃ added, s'.queues (.runnable p) = s.queues (.runnable p) ++ added
  up : ∃ added, s'.queues (.up p) = s.queues (.up p) ++ added
  new : a.gives p = false → s.queues (.new p) = [] → s'.queues (.new p) = []

theorem grows_same {a : Action}
    (h : ∀ q, q = .runnable p ∨ q = .up p ∨ q = .new p → s'.queues q = s.queues q) :
    Grows p a s s' where
  runnable := ⟨[], by rw [h _ (.inl rfl), List.append_nil]⟩
  up := ⟨[], by rw [h _ (.inr (.inl rfl)), List.append_nil]⟩
  new _ hnew := (h _ (.inr (.inr rfl))).trans hnew

/-- The lists `k` and `k'` are not of `p`. -/
theorem grows_stolen (s : State) {a : Action} {k k' : Nat} (tasks tasks' : List Nat) :
    Grows p a s ((s.setQueue (.stolen k) tasks).setQueue (.stolen k') tasks') := by
  refine grows_same fun q hq => ?_
  rcases hq with rfl | rfl | rfl
  all_goals rw [setQueue_other (by simp), setQueue_other (by simp)]

theorem grows_wakeup {w : Wakeup} {a : Action} (hs : s.wakeup k w = some s') : Grows p a s s' := by
  unfold State.wakeup at hs
  split at hs
  · cases hs
    refine grows_same fun q _ => ?_
    split <;> rfl
  · cases hs
    exact grows_same fun _ _ => rfl
  · cases hs
    exact grows_same fun _ _ => rfl
  · rename_i p' _
    rcases wakeupBySelf_cases hs with ⟨-, rfl⟩ | ⟨-, -, rfl⟩
    · exact grows_same fun _ _ => rfl
    · have hother : ∀ q, q ≠ .wait p' → q ≠ .runnable p' →
          (s.awaken p' w.task).queues q = s.queues q := fun q h h' => awaken_other s p' w.task h h'
      refine ⟨?_, ⟨[], ?_⟩, fun _ hnew => ?_⟩
      · by_cases hp : p' = p
        · subst hp
          exact ⟨[w.task], Function.update_self ..⟩
        · refine ⟨[], ?_⟩
          rw [List.append_nil]
          exact hother (.runnable p) (by simp) (by simpa using Ne.symm hp)
      · rw [List.append_nil]
        exact hother (.up p) (by simp) (by simp)
      · exact (hother (.new p) (by simp) (by simp)).trans hnew
  · cases hs
    exact grows_same fun q _ => congrFun (notifyCondition_queues s _) q
  · cases hs
    exact grows_same fun q _ => congrFun (decRef_queues s w.task) q
  · cases hs
    exact grows_same fun _ _ => rfl

theorem grows_step (hlinks : Links s) {a : Action} (hother : a.isOf p = false)
    (hloses : s.loses p a = false) (hs : step s a = some s') : Grows p a s s' := by
  cases a with
  | create p' =>
    cases hs
    refine ⟨⟨[], ?_⟩, ?_, fun _ hnew => (create_other s p' (by simp)).trans hnew⟩
    · rw [create_other s p' (by simp), List.append_nil]
    · by_cases hp : p' = p
      · subst hp
        exact ⟨[s.created], Function.update_self ..⟩
      · exact ⟨[], by rw [create_other s p' (by simpa using Ne.symm hp), List.append_nil]⟩
  | adder k =>
    obtain ⟨a, -, rfl⟩ := Option.map_eq_some_iff.1 hs
    refine grows_same fun q _ => ?_
    unfold State.adder
    split
    · rfl
    · show (s.notifyAll a.proc).queues q = _
      unfold State.notifyAll
      split <;> rfl
    · rfl
    · rfl
  | thread p' =>
    have hne : p' ≠ p := fun heq => by simp [Action.isOf, heq] at hother
    refine grows_same fun q hq => (leaves_thread hs).queues q ?_ ?_
    · rcases hq with rfl | rfl | rfl <;> simp [Queue.isOf, hne]
    · rcases hq with rfl | rfl | rfl <;> simp [hne.symm]
  | yield p' | spurious p' | stop | wake caller t id =>
    cases hs
    exact grows_same fun _ _ => rfl
  | suspend p' | finish p' =>
    obtain ⟨t, -, rfl⟩ := Option.map_eq_some_iff.1 hs
    exact grows_same fun _ _ => rfl
  | wakeup k =>
    obtain ⟨w, -, hw⟩ := Option.bind_eq_some_iff.1 hs
    exact grows_wakeup hw
  | steal k p' n =>
    cases hs
    have hold : ∀ q, q = .runnable p ∨ q = .up p → (s.steal k p' n).queues q = s.queues q := by
      intro q hq
      rw [steal_queues]
      rcases hq with rfl | rfl
      all_goals rw [Function.update_of_ne (by simp), Function.update_of_ne (by simp)]
    refine ⟨⟨[], ?_⟩, ⟨[], ?_⟩, fun _ hnew => ?_⟩
    · rw [hold _ (.inl rfl), List.append_nil]
    · rw [hold _ (.inr rfl), List.append_nil]
    · by_cases hp : p' = p
      · subst hp
        rw [steal_new, hnew]
        unfold State.popSome State.popBack
        split
        · rfl
        · exact List.take_nil
      · rw [steal_queues, Function.update_of_ne (by simp),
          Function.update_of_ne (by simpa using Ne.symm hp), hnew]
  | stealRest k =>
    obtain ⟨r, hk, hr⟩ := Option.bind_eq_some_iff.1 hs
    obtain ⟨D, C, heq, -⟩ := hlinks.stealRest_eq (k := k) (p := r.1) (n := r.2)
    rw [heq, Option.some.injEq] at hr
    subst hr
    have hne : r.1 ≠ p := by simpa [State.loses, hk] using hloses
    refine grows_same fun q hq => ?_
    have hold : (s.stealt k r.1 r.2).queues q = s.queues q := by
      rcases hq with rfl | rfl | rfl
      · exact stealt_other k r.1 r.2 s (by simpa using hne.symm) (by simp)
      · exact stealt_other k r.1 r.2 s (by simp) (by simp)
      · exact stealt_other k r.1 r.2 s (by simp) (by simp)
    exact hold
  | append k k' =>
    cases hs
    exact grows_stolen s _ _
  | cut k k' n =>
    cases hs
    exact grows_stolen s _ _
  | addTask k p' =>
    cases hs
    have hold : ∀ q, q ≠ .new p' → q ≠ .stolen k → (s.addTask k p').queues q = s.queues q := by
      intro q h h'
      unfold State.addTask
      rw [notifyCondition_queues, setQueue_other h', setQueue_other h]
    refine ⟨⟨[], ?_⟩, ⟨[], ?_⟩, fun hgives hnew => ?_⟩
    · rw [hold _ (by simp) (by simp), List.append_nil]
    · rw [hold _ (by simp) (by simp), List.append_nil]
    · have hne : p' ≠ p := of_decide_eq_false hgives
      rw [hold _ (by simpa using hne.symm) (by simp), hnew]
  | notify p' =>
    cases hs
    exact grows_same fun q _ => congrFun (notifyCondition_queues s p') q

theorem line_other (hlinks : Links s) {a : Action} (hother : a.isOf p = false)
    (hloses : s.loses p a = false) (he : Enabled s a = true) (hs : step s a = some s') :
    ∃ added, s'.line p = s.line p ++ added := by
  have hspares := spares_step hlinks hother he hs
  obtain ⟨ys, hys⟩ := (grows_step hlinks hother hloses hs).runnable
  exact line_append hspares.running _ hys fun t hr => hspares.decision hr

/-! ### The decision at `erase` -/

/-- `nextTask_` is what stands behind the task that is erased. -/
def Chosen (s : State) (p : Nat) : Prop :=
  s.place p = .erase → ∀ t u, s.runningTask p = some t → s.nextTask p = some u →
    next (s.queues (.runnable p)) t = some u

theorem Chosen.congr (h : Chosen s p) (hplace : s'.place = s.place)
    (hrunning : s'.runningTask = s.runningTask) (hnext : s'.nextTask = s.nextTask)
    (hqueues : s'.queues = s.queues) : Chosen s' p := by
  unfold Chosen
  rw [hplace, hrunning, hnext, hqueues]
  exact h

theorem erase_from (hs : s.thread p = some s') (herase : s'.place p = .erase) :
    s.place p = .next ∨ s.place p = .nextAgain := by
  have hgoto : ∀ {u : State} {place : Place}, (u.goto p place).place p = .erase →
      place = .erase := fun h => (goto_place ..).symm.trans h
  cases hplace : s.place p with
  | next => exact .inl rfl
  | nextAgain => exact .inr rfl
  | loop | inner =>
    rw [State.thread, hplace, Option.some.injEq] at hs
    subst hs
    have h := hgoto herase
    split at h <;> cases h
  | front | frontAgain =>
    rw [State.thread, hplace, Option.some.injEq] at hs
    subst hs
    rw [(front_place ..).2.2] at herase
    split at herase <;> cases herase
  | addNew after | woken | condition | pop after =>
    rw [State.thread, hplace, Option.some.injEq] at hs
    subst hs
    first
      | cases hgoto herase
      | unfold State.condition at herase
        split at herase <;> cases hgoto herase
  | adding after n =>
    rw [State.thread, hplace, Option.some.injEq] at hs
    subst hs
    unfold State.adding at herase
    split at herase
    · cases hgoto herase
    · cases after <;> cases hgoto herase
  | release after rest =>
    rw [State.thread, hplace, Option.some.injEq] at hs
    subst hs
    cases rest <;> cases hgoto herase
  | clear after =>
    rw [State.thread, hplace, Option.some.injEq] at hs
    subst hs
    unfold State.clear at herase
    split at herase
    · cases after <;> cases hgoto herase
    · cases hgoto herase
  | swapIn | push =>
    rw [State.thread, hplace] at hs
    obtain ⟨t, -, rfl⟩ := Option.map_eq_some_iff.1 hs
    cases hgoto herase
  | suspending =>
    rw [State.thread, hplace] at hs
    obtain ⟨t, -, heq⟩ := Option.bind_eq_some_iff.1 hs
    obtain ⟨s₁, -, rfl⟩ := Option.map_eq_some_iff.1 heq
    cases hgoto herase
  | switch =>
    rw [State.thread, hplace] at hs
    obtain ⟨t, -, rfl⟩ := Option.map_eq_some_iff.1 hs
    cases hst : s.taskState t with
    | runnable =>
      rw [hst] at herase
      dsimp only at herase
      unfold State.caseRunnable at herase
      split at herase
      · rw [proceed_place] at herase
        cases herase
      · split at herase
        · rw [proceed_place] at herase
          cases herase
        · cases hgoto herase
    | block =>
      rw [hst] at herase
      dsimp only at herase
      rw [takeNext_place] at herase
      split at herase <;> cases herase
    | done =>
      rw [hst] at herase
      cases hgoto herase
  | nextRunnable =>
    rw [State.thread, hplace] at hs
    obtain ⟨t, -, rfl⟩ := Option.map_eq_some_iff.1 hs
    rw [proceed_place] at herase
    split at herase <;> cases herase
  | erase =>
    rw [State.thread, hplace] at hs
    obtain ⟨t, -, heq⟩ := Option.bind_eq_some_iff.1 hs
    obtain ⟨s₁, -, rfl⟩ := Option.map_eq_some_iff.1 heq
    have h := hgoto herase
    split at h <;> cases h
  | finish =>
    rw [State.thread, hplace, Option.some.injEq] at hs
    subst hs
    rw [takeNext_place] at herase
    split at herase <;> cases herase
  | running | blocked | stopped =>
    rw [State.thread, hplace, Option.some.injEq] at hs
    subst hs
    rw [hplace] at herase
    cases herase

/-- What `toNext` leaves behind. -/
theorem toNext_cases (hlinks : Links s) (hs : s.toNext p = some s') :
    ∃ t, s.runningTask p = some t ∧
      s' = { s with nextTask := Function.update s.nextTask p (next (s.queues (.runnable p)) t) } := by
  obtain ⟨t, hr, rfl⟩ := Option.map_eq_some_iff.1 hs
  refine ⟨t, hr, ?_⟩
  dsimp only
  rw [hlinks.mark_eq fun u hu => mem_of_next hu]

theorem chosen_toNext (hlinks : Links s) (hs : s.toNext p = some s') (place : Place) :
    Chosen (s'.goto p place) p := by
  obtain ⟨t, hr, rfl⟩ := toNext_cases hlinks hs
  intro _ u v hu hv
  have hut : t = u := Option.some.inj (hr.symm.trans hu)
  subst hut
  replace hv : Function.update s.nextTask p (next (s.queues (.runnable p)) t) p = some v := hv
  rw [Function.update_self] at hv
  exact hv

/-- `Steal` puts the running task and the next one back to the end, in this order. -/
theorem chosen_stealt (hlinks : Links s) : Chosen (s.stealt k p n) p := by
  intro hplace t u ht hu
  replace hplace : s.place p = .erase := hplace
  replace ht : s.runningTask p = some t := ht
  replace hu : s.nextTask p = some u := hu
  have hmem := (hlinks.seated p).linked ht (by rw [hplace]; rfl)
  have hself : s.self p = [t, u] := by simp [State.self, ht, hu, hmem]
  have hqueue := stealt_runnable k p n s
  rw [hself] at hqueue
  have hnew : Links (s.stealt k p n) := hlinks.stealt
  have hnd := hnew.apart.nodup (.runnable p)
  rw [hqueue] at hnd ⊢
  exact next_append_cons fun hl => (List.nodup_append.1 hnd).2.2 t hl t (by simp) rfl

theorem chosen_step (hlinks : Links s) (hchosen : Chosen s p) {a : Action}
    (he : Enabled s a = true) (hs : step s a = some s') : Chosen s' p := by
  cases hown : a.isOf p with
  | false =>
    cases hloses : s.loses p a with
    | false =>
      have hspares := spares_step hlinks hown he hs
      obtain ⟨ys, hys⟩ := (grows_step hlinks hown hloses hs).runnable
      intro hplace t u ht hu
      rw [hys]
      refine next_append (hchosen ?_ t u (hspares.running ▸ ht) (hspares.next ▸ hu))
      rcases hspares.place with hsame | ⟨-, hwoken⟩
      · rw [← hsame, hplace]
      · rw [hwoken] at hplace
        cases hplace
    | true =>
      cases a with
      | stealRest k =>
        obtain ⟨r, hk, hr⟩ := Option.bind_eq_some_iff.1 hs
        obtain ⟨D, C, heq, -⟩ := hlinks.stealRest_eq (k := k) (p := r.1) (n := r.2)
        rw [heq, Option.some.injEq] at hr
        subst hr
        have hp : r.1 = p := by simpa [State.loses, hk] using hloses
        subst hp
        exact (chosen_stealt hlinks).congr rfl rfl rfl rfl
      | _ => cases hloses
  | true =>
    intro hplace
    have hnot : ∀ place, s'.place p = place → place ≠ .erase → False := fun place h hne =>
      hne (h.symm.trans hplace)
    cases a with
    | thread p' =>
      have hp : p = p' := of_decide_eq_true hown
      subst hp
      replace hs : s.thread p = some s' := hs
      have hfrom := erase_from hs hplace
      unfold State.thread at hs
      rcases hfrom with hnext | hagain
      · rw [hnext] at hs
        obtain ⟨s₁, hs₁, rfl⟩ := Option.map_eq_some_iff.1 hs
        exact chosen_toNext hlinks hs₁ _ hplace
      · rw [hagain] at hs
        obtain ⟨s₁, hs₁, rfl⟩ := Option.map_eq_some_iff.1 hs
        exact chosen_toNext hlinks hs₁ .erase (goto_place ..)
    | yield p' =>
      have hp : p = p' := of_decide_eq_true hown
      subst hp
      cases hs
      exact (hnot _ (goto_place ..) (by simp)).elim
    | suspend p' =>
      have hp : p = p' := of_decide_eq_true hown
      subst hp
      obtain ⟨t, -, rfl⟩ := Option.map_eq_some_iff.1 hs
      exact (hnot _ (goto_place ..) (by simp)).elim
    | finish p' =>
      have hp : p = p' := of_decide_eq_true hown
      subst hp
      obtain ⟨t, -, rfl⟩ := Option.map_eq_some_iff.1 hs
      exact (hnot _ (goto_place ..) (by simp)).elim
    | _ => cases hown

/-! ### The steps of the thread -/

theorem line_proceed (s : State) (p : Nat) (task : Option Nat) :
    (s.proceed p task).line p = lineFrom (s.queues (.runnable p)) task := by
  cases task with
  | none => exact line_idle (proceed_running s p none)
  | some t =>
    refine line_decided (proceed_running s p (some t)) ?_
    rw [State.decision, proceed_place]
    rfl

theorem line_takeNext (s : State) (p : Nat) :
    (s.takeNext p).line p = lineFrom (s.queues (.runnable p)) (s.nextTask p) := by
  have hcongr : (s.takeNext p).line p = (s.proceed p (s.nextTask p)).line p := by
    refine line_congr rfl rfl fun t ht => ?_
    replace ht : (s.proceed p (s.nextTask p)).runningTask p = some t := ht
    rw [proceed_running] at ht
    unfold State.decision
    rw [takeNext_place, proceed_place, ht]
    rfl
  rw [hcongr, line_proceed]

/-- The thread goes on with the same task and the same decision. -/
theorem line_goto {place : Place}
    (hd : ∀ t, s.runningTask p = some t → (s.goto p place).decision p t = s.decision p t) :
    (s.goto p place).line p = s.line p := line_congr rfl rfl hd

/-- A task that is asleep, with the next one chosen. -/
theorem line_asleep (hlinks : Links s) (hr : s.runningTask p = some t)
    (hst : s.taskState t = .block) :
    (s.asleep p t).line p = after (s.queues (.runnable p)) t := by
  have hd : (s.asleep p t).decision p t = some (next (s.queues (.runnable p)) t) := by
    unfold State.decision
    rw [show (s.asleep p t).place p = .running from Function.update_self ..]
    dsimp only
    rw [if_pos (show (s.asleep p t).taskState t = .block from hst)]
    exact congrArg some (Function.update_self ..)
  have hqueues : (s.asleep p t).queues = Function.update (Function.update s.queues (.runnable p)
      ((s.queues (.runnable p)).erase t)) (.wait p) (s.queues (.wait p) ++ [t]) := rfl
  have hrun : (s.asleep p t).runningTask p = some t := hr
  rw [line_decided hrun hd, hqueues, Function.update_of_ne (by simp), Function.update_self]
  exact lineFrom_erase (hlinks.apart.nodup _) t

theorem line_switch (hlinks : Links s) (hplace : s.place p = .switch)
    (hs : s.switch p = some s') : s'.line p = s.line p := by
  obtain ⟨t, hr, rfl⟩ := Option.map_eq_some_iff.1 hs
  have hnd := hlinks.apart.nodup (.runnable p)
  cases hst : s.taskState t with
  | runnable =>
    have hd : s.decision p t = none := by
      rw [State.decision, hplace]
      exact if_neg (by rw [hst]; simp)
    dsimp only
    rw [line_open hr hd, ← lineFrom_next hnd]
    unfold State.caseRunnable
    split
    · rename_i u hu
      rw [line_proceed, hu]
      rfl
    · rename_i hnone
      rw [hnone]
      split
      · rw [line_proceed]
      · have hd' : (s.goto p (.addNew .nextRunnable)).decision p t = none := by
          rw [State.decision, goto_place]
        have hline : (s.goto p (.addNew .nextRunnable)).line p = after (s.queues (.runnable p)) t :=
          line_open hr hd'
        rw [hline, ← lineFrom_next hnd, hnone]
  | block =>
    have hd : s.decision p t = some (s.nextTask p) := by
      rw [State.decision, hplace]
      exact if_pos hst
    dsimp only
    rw [line_decided hr hd, line_takeNext]
  | done =>
    refine line_goto fun u hu => ?_
    have hut : t = u := Option.some.inj (hr.symm.trans hu)
    subst hut
    rw [State.decision, goto_place, State.decision, hplace]
    exact (if_neg (by rw [hst]; simp)).symm

/-- `runnableQueue_.next(runningTask_, nextTask_)`, and the erase. -/
theorem line_toNext (hlinks : Links s) (hs : s.toNext p = some s')
    (hd : ∀ t, s.decision p t = none) : (s'.goto p .erase).line p = s.line p := by
  obtain ⟨t, hr, rfl⟩ := toNext_cases hlinks hs
  obtain ⟨s₁, hs₁⟩ : ∃ s₁, s₁ = { s with
      nextTask := Function.update s.nextTask p (next (s.queues (.runnable p)) t) } := ⟨_, rfl⟩
  have hdecision : (s₁.goto p .erase).decision p t = some (next (s.queues (.runnable p)) t) := by
    rw [State.decision, goto_place, hs₁]
    exact congrArg some (Function.update_self ..)
  have hline : (s₁.goto p .erase).line p = lineFrom (s₁.queues (.runnable p)) _ :=
    line_decided (by rw [hs₁]; exact hr) hdecision
  rw [← hs₁, hline, line_open hr (hd t), hs₁]
  exact lineFrom_next (hlinks.apart.nodup _) t

/-- There is none behind it, so that `AddNewTasks` comes first. -/
theorem line_toNext_again (hlinks : Links s) (hs : s.toNext p = some s')
    (hd : ∀ t, s.decision p t = none) : (s'.goto p (.addNew .nextAgain)).line p = s.line p := by
  obtain ⟨t, hr, rfl⟩ := toNext_cases hlinks hs
  refine line_congr rfl rfl fun u _ => ?_
  rw [State.decision, goto_place, hd u]

theorem line_thread (hlinks : Links s) (hchosen : Chosen s p) (he : Enabled s (.thread p) = true)
    (hs : s.thread p = some s') :
    ∃ added, s.line p ++ added = s.switches p (.thread p) ++ s'.line p := by
  have hsame : s.place p ≠ .swapIn → s'.line p = s.line p →
      ∃ added, s.line p ++ added = s.switches p (.thread p) ++ s'.line p := by
    intro hplace hline
    refine ⟨[], ?_⟩
    rw [State.switches, if_neg fun h => hplace h.2, hline, List.append_nil, List.nil_append]
  have hgrows : s.place p ≠ .swapIn → (∃ added, s'.line p = s.line p ++ added) →
      ∃ added, s.line p ++ added = s.switches p (.thread p) ++ s'.line p := by
    rintro hplace ⟨added, hline⟩
    refine ⟨added, ?_⟩
    rw [State.switches, if_neg fun h => hplace h.2, hline, List.nil_append]
  by_cases hseat : (s.place p).seat = .idle
  · -- The next round begins.
    refine hgrows ?_ ⟨s'.line p, by rw [line_idle ((hlinks.seated p).idle hseat), List.nil_append]⟩
    intro hplace
    rw [hplace] at hseat
    cases hseat
  · cases hplace : s.place p with
    | loop | front | frontAgain | condition | woken => exact absurd (by rw [hplace]; rfl) hseat
    | running | blocked | stopped => simp [Enabled, hplace] at he
    | addNew after =>
      rw [State.thread, hplace, Option.some.injEq] at hs
      subst hs
      refine hsame (by rw [hplace]; simp) (line_goto fun t _ => ?_)
      rw [State.decision, goto_place, State.decision, hplace]
    | adding after n =>
      rw [State.thread, hplace, Option.some.injEq] at hs
      subst hs
      refine hgrows (by rw [hplace]; simp) ?_
      unfold State.adding
      split
      · rename_i u rest hup
        refine line_append rfl [u] ?_ fun t _ => ?_
        · show Function.update _ _ _ _ = _
          rw [Function.update_self]
          exact congrArg (· ++ [u]) (setQueue_other (by simp))
        · rw [State.decision, goto_place, State.decision, hplace]
      · refine line_append rfl [] (List.append_nil _).symm fun t _ => ?_
        rw [State.decision, goto_place, State.decision, hplace]
        cases after <;> rfl
    | pop after =>
      cases after with
      | condition => exact absurd (by rw [hplace]; rfl) hseat
      | push =>
        rw [State.thread, hplace, Option.some.injEq] at hs
        subst hs
        have hq : ((s.setQueue (.garbage p) (s.queues (.gc p))).setQueue (.gc p) []).queues
            (.runnable p) = s.queues (.runnable p) := by
          rw [setQueue_other (by simp), setQueue_other (by simp)]
        refine hsame (by rw [hplace]; simp) (line_congr rfl hq fun t _ => ?_)
        · rw [State.decision, State.popAll, goto_place, State.decision, hplace]
          rfl
    | release after rest =>
      cases after with
      | condition => exact absurd (by rw [hplace]; rfl) hseat
      | push =>
        rw [State.thread, hplace, Option.some.injEq] at hs
        subst hs
        refine hsame (by rw [hplace]; simp) ?_
        cases rest with
        | nil =>
          refine line_goto fun t _ => ?_
          rw [State.decision, goto_place, State.decision, hplace]
          rfl
        | cons u rest =>
          obtain ⟨D, C, heq, -⟩ :=
            exists_decRef_eq { s with collected := Function.update s.collected u true } u
          rw [State.release, heq]
          refine line_congr rfl rfl fun t _ => ?_
          rw [State.decision, goto_place, State.decision, hplace]
          rfl
    | clear after =>
      cases after with
      | condition => exact absurd (by rw [hplace]; rfl) hseat
      | push =>
        rw [State.thread, hplace, Option.some.injEq] at hs
        subst hs
        refine hsame (by rw [hplace]; simp) ?_
        unfold State.clear
        split
        · refine line_goto fun t _ => ?_
          rw [State.decision, goto_place, State.decision, hplace]
          rfl
        · rename_i u rest hlist
          obtain ⟨D, C, heq, -⟩ := exists_decRef_eq (s.setQueue (.garbage p) rest) u
          have hq : (s.setQueue (.garbage p) rest).queues (.runnable p) = s.queues (.runnable p) :=
            setQueue_other (by simp)
          rw [heq]
          refine line_congr rfl hq fun t _ => ?_
          rw [State.decision, goto_place, State.decision, hplace]
          rfl
    | inner =>
      rw [State.thread, hplace, Option.some.injEq] at hs
      subst hs
      refine hsame (by rw [hplace]; simp) (line_goto fun t _ => ?_)
      rw [State.decision, goto_place, State.decision, hplace]
      cases s.stop <;> rfl
    | swapIn =>
      rw [State.thread, hplace] at hs
      obtain ⟨t, hr, rfl⟩ := Option.map_eq_some_iff.1 hs
      have hd : s.decision p t = some (some t) := by rw [State.decision, hplace]
      refine ⟨[], ?_⟩
      rw [State.switches, if_pos ⟨rfl, hplace⟩, hr, line_decided hr hd, List.append_nil,
        Option.toList_some, List.singleton_append]
      refine congrArg (t :: ·) (Eq.symm ?_)
      refine line_open (by exact hr) ?_
      rw [State.decision, goto_place]
      exact if_neg (by simp [State.goto])
    | suspending =>
      rw [State.thread, hplace] at hs
      obtain ⟨t, hr, -, rfl⟩ := hlinks.suspendBySelf_cases hplace hs
      have hst : s.taskState t = .block := (hlinks.seated p).state _ (by rw [hplace]; rfl) t hr
      have hd : s.decision p t = none := by rw [State.decision, hplace]
      refine hsame (by rw [hplace]; simp) ?_
      rw [line_open hr hd, line_asleep hlinks hr hst]
    | switch =>
      rw [State.thread, hplace] at hs
      exact hsame (by rw [hplace]; simp) (line_switch hlinks hplace hs)
    | nextRunnable =>
      rw [State.thread, hplace] at hs
      obtain ⟨t, hr, rfl⟩ := Option.map_eq_some_iff.1 hs
      have hd : s.decision p t = none := by rw [State.decision, hplace]
      refine hsame (by rw [hplace]; simp) ?_
      show (((s.mark (.runnable p) (next (s.queues (.runnable p)) t)).useQuota p).proceed p
        (next (s.queues (.runnable p)) t)).line p = s.line p
      rw [hlinks.mark_eq fun u hu => mem_of_next hu, line_proceed, line_open hr hd,
        ← lineFrom_next (hlinks.apart.nodup _)]
      rfl
    | next =>
      rw [State.thread, hplace] at hs
      obtain ⟨s₁, hs₁, rfl⟩ := Option.map_eq_some_iff.1 hs
      have hd : ∀ t, s.decision p t = none := fun t => by rw [State.decision, hplace]
      refine hsame (by rw [hplace]; simp) ?_
      split
      · exact line_toNext_again hlinks hs₁ hd
      · exact line_toNext hlinks hs₁ hd
    | nextAgain =>
      rw [State.thread, hplace] at hs
      obtain ⟨s₁, hs₁, rfl⟩ := Option.map_eq_some_iff.1 hs
      have hd : ∀ t, s.decision p t = none := fun t => by rw [State.decision, hplace]
      refine hsame (by rw [hplace]; simp) ?_
      rw [← line_toNext hlinks hs₁ hd]
      refine line_congr rfl rfl fun t _ => ?_
      rw [State.decision, goto_place, State.decision, goto_place]
      rfl
    | erase =>
      rw [State.thread, hplace] at hs
      obtain ⟨t, hr, heq⟩ := Option.bind_eq_some_iff.1 hs
      obtain ⟨s₁, hs₁, rfl⟩ := Option.map_eq_some_iff.1 heq
      obtain ⟨s₂, hs₂, rfl⟩ := Option.map_eq_some_iff.1 hs₁
      have hmem := (hlinks.seated p).linked hr (by rw [hplace]; rfl)
      rw [unlink_eq hmem, Option.some.injEq] at hs₂
      subst hs₂
      obtain ⟨D, C, hdec, -⟩ := exists_decRef_eq ((s.setQueue (.runnable p)
        ((s.queues (.runnable p)).erase t)).setCheck t none) t
      refine hsame (by rw [hplace]; simp) ?_
      have hd : s.decision p t = some (s.nextTask p) := by rw [State.decision, hplace]
      rw [line_decided hr hd, hdec]
      refine (line_decided (h := s.nextTask p) (by exact hr) ?_).trans ?_
      · rw [State.decision, goto_place]
        split_ifs <;> rfl
      · show lineFrom (Function.update s.queues _ _ _) _ = _
        rw [Function.update_self]
        cases hnext : s.nextTask p with
        | none => rfl
        | some u =>
          rw [← hchosen hplace t u hr hnext, lineFrom_erase (hlinks.apart.nodup _),
            lineFrom_next (hlinks.apart.nodup _)]
    | push =>
      rw [State.thread, hplace] at hs
      obtain ⟨t, hr, rfl⟩ := Option.map_eq_some_iff.1 hs
      have hq : (s.setQueue (.gc p) (s.queues (.gc p) ++ [t])).queues (.runnable p) =
          s.queues (.runnable p) := setQueue_other (by simp)
      refine hsame (by rw [hplace]; simp) (line_congr rfl hq fun t _ => ?_)
      rw [State.decision, goto_place, State.decision, hplace]
      rfl
    | finish =>
      rw [State.thread, hplace, Option.some.injEq] at hs
      subst hs
      refine hgrows (by rw [hplace]; simp) ?_
      cases hr : s.runningTask p with
      | none => exact ⟨_, (by rw [line_idle hr, List.nil_append] : _ = s.line p ++ _)⟩
      | some t =>
        have hd : s.decision p t = some (s.nextTask p) := by rw [State.decision, hplace]
        exact ⟨[], by rw [line_takeNext, line_decided hr hd, List.append_nil]⟩

/-- A step takes the head of the line with a switch, and can add to its end. -/
theorem line_step (hlinks : Links s) (hchosen : Chosen s p) {a : Action}
    (hloses : s.loses p a = false) (he : Enabled s a = true) (hs : step s a = some s') :
    ∃ added, s.line p ++ added = s.switches p a ++ s'.line p := by
  cases hown : a.isOf p with
  | false =>
    obtain ⟨added, hline⟩ := line_other hlinks hown hloses he hs
    refine ⟨added, ?_⟩
    have hnil : s.switches p a = [] := by
      cases a with
      | thread p' => exact if_neg fun h => by simp [Action.isOf, h.1] at hown
      | _ => rfl
    rw [hnil, hline, List.nil_append]
  | true =>
    have hsame : s.switches p a = [] → s'.line p = s.line p →
        ∃ added, s.line p ++ added = s.switches p a ++ s'.line p := fun hnil hline =>
      ⟨[], by rw [hnil, hline, List.append_nil, List.nil_append]⟩
    cases a with
    | thread p' =>
      have hp : p = p' := of_decide_eq_true hown
      subst hp
      exact line_thread hlinks hchosen he hs
    | yield p' =>
      have hp : p = p' := of_decide_eq_true hown
      subst hp
      simp only [Enabled, Bool.and_eq_true, decide_eq_true_eq] at he
      cases hs
      refine hsame rfl (line_goto fun t _ => ?_)
      rw [State.decision, goto_place, State.decision, he.1]
      rfl
    | suspend p' =>
      have hp : p = p' := of_decide_eq_true hown
      subst hp
      simp only [Enabled, Bool.and_eq_true, decide_eq_true_eq] at he
      obtain ⟨t, hr, rfl⟩ := Option.map_eq_some_iff.1 hs
      obtain ⟨u, hu, hst⟩ := runs_iff.1 he.2
      refine hsame rfl (line_congr rfl rfl fun v hv => ?_)
      have huv : u = v := Option.some.inj (hu.symm.trans hv)
      subst huv
      rw [State.decision, goto_place, State.decision, he.1.1]
      exact (if_neg (by rw [hst]; simp)).symm
    | finish p' =>
      have hp : p = p' := of_decide_eq_true hown
      subst hp
      simp only [Enabled, Bool.and_eq_true, decide_eq_true_eq] at he
      obtain ⟨t, hr, rfl⟩ := Option.map_eq_some_iff.1 hs
      obtain ⟨u, hu, hst⟩ := runs_iff.1 he.2
      refine hsame rfl (line_congr rfl rfl fun v hv => ?_)
      have huv : u = v := Option.some.inj (hu.symm.trans hv)
      have htu : t = u := Option.some.inj (hr.symm.trans hu)
      subst huv htu
      rw [State.decision, goto_place, State.decision, he.1.1]
      have hdone : Function.update s.taskState t .done t ≠ .block := by
        rw [Function.update_self]
        simp
      exact (if_neg hdone).trans (if_neg (by rw [hst]; simp)).symm
    | _ => cases hown

/-! ## The first one has its turn -/

/-- What is to come before the switch. -/
def State.turnRank (s : State) (p : Nat) : Nat ×ₗ Nat :=
  if s.place p = .swapIn then toLex (0, 0) else s.rank p

/-- A thread with a line works on its running task. -/
theorem Links.busy (h : Links s) (hline : s.line p ≠ []) : (s.place p).seat ≠ .idle := fun hseat =>
  hline (line_idle ((h.seated p).idle hseat))

theorem turnRank_own (hlinks : Links s) (hline : s.line p ≠ []) (hstop : s.stop = false)
    (hplace : s.place p ≠ .swapIn) {a : Action} (hown : a.isOf p = true)
    (he : Enabled s a = true) (hs : step s a = some s') : s'.turnRank p < s.turnRank p := by
  have hseat := hlinks.busy hline
  rw [State.turnRank, State.turnRank, if_neg hplace]
  by_cases hinner : s.place p = .inner
  · have hnext : s'.place p = .swapIn := by
      cases a with
      | thread p' =>
        have hp : p = p' := of_decide_eq_true hown
        subst hp
        replace hs : s.thread p = some s' := hs
        rw [State.thread, hinner, Option.some.injEq, hstop] at hs
        subst hs
        exact goto_place ..
      | yield p' | suspend p' | finish p' =>
        have hp : p = p' := of_decide_eq_true hown
        subst hp
        simp [Enabled, hinner] at he
      | _ => cases hown
    rw [if_pos hnext]
    refine Prod.Lex.toLex_lt_toLex.2 (.inl ?_)
    show 0 < s.level p
    rw [level_of hinner (by simp)]
    decide
  · have hhead : s.place p = .loop ∨ s.place p = .inner → s.stop = true := by
      rintro (hloop | hin)
      · exact absurd (by rw [hloop]; rfl) hseat
      · exact absurd hin hinner
    have hkept : a.kept s = true := by
      cases a with
      | thread p' =>
        have hp : p = p' := of_decide_eq_true hown
        subst hp
        refine decide_eq_true fun hcond => hseat ?_
        rw [hcond]
        rfl
      | notify p' => cases hown
      | _ => rfl
    have hlt := (descends_step hlinks hhead hown hkept he hs).rank
    split
    · exact lt_of_le_of_lt (Prod.Lex.toLex_le_toLex.2 (by simp; omega)) hlt
    · exact hlt

theorem turnRank_other (hlinks : Links s) (hline : s.line p ≠ []) {a : Action}
    (hother : a.isOf p = false) (he : Enabled s a = true) (hs : step s a = some s') :
    s'.turnRank p = s.turnRank p := by
  have hspares := spares_step hlinks hother he hs
  have hblocked : s.place p ≠ .blocked := fun h => hlinks.busy hline (by rw [h]; rfl)
  have hplace : s'.place p = s.place p := hspares.place.resolve_right fun h => hblocked h.1
  unfold State.turnRank
  rw [hplace, hspares.rank hblocked]

/-! ## The result -/

variable (x : Endless machine) {i : Nat}

theorem chosen_of_endless (h0 : x.state 0 = .initial) (p j : Nat) :
    Links (x.state j) ∧ Chosen (x.state j) p := by
  have hlinks : ∀ j, Links (x.state j) := fun j => links_of_run (h0 ▸ x.run j)
  refine ⟨hlinks j, ?_⟩
  induction j with
  | zero =>
    intro hplace
    rw [h0] at hplace
    cases hplace
  | succ j ih => exact chosen_step (hlinks j) ih (x.enabled j) (x.step j)

/-- While there is no switch, the line keeps its head. -/
theorem line_head (h0 : x.state 0 = .initial)
    (hloses : ∀ j, i ≤ j → (x.state j).loses p (x.action j) = false)
    (hline : ∃ rest, (x.state i).line p = t :: rest) (n : Nat)
    (hnil : ∀ k < n, (x.state (i + k)).switches p (x.action (i + k)) = []) :
    ∃ rest, (x.state (i + n)).line p = t :: rest := by
  induction n with
  | zero => exact hline
  | succ n ih =>
    obtain ⟨rest, hrest⟩ := ih fun k hk => hnil k (by omega)
    obtain ⟨hlinks, hchosen⟩ := chosen_of_endless x h0 p (i + n)
    obtain ⟨added, hadded⟩ :=
      line_step hlinks hchosen (hloses _ (by omega)) (x.enabled (i + n)) (x.step (i + n))
    rw [hnil n (by omega), hrest, List.nil_append] at hadded
    exact ⟨rest ++ added, hadded.symm⟩

/-- The head of the line is the running task at the switch. -/
theorem running_of_line {rest : List Nat} (hline : s.line p = t :: rest)
    (hplace : s.place p = .swapIn) : s.runningTask p = some t := by
  cases hr : s.runningTask p with
  | none =>
    rw [line_idle hr] at hline
    cases hline
  | some u =>
    have hd : s.decision p u = some (some u) := by rw [State.decision, hplace]
    rw [line_decided hr hd, lineFrom, List.cons.injEq] at hline
    rw [hline.1]

/-- The thread comes to the switch to the first task of the line, and to no other before. -/
theorem line_first (h0 : x.state 0 = .initial) (hstop : ∀ j, i ≤ j → (x.state j).stop = false)
    (hloses : ∀ j, i ≤ j → (x.state j).loses p (x.action j) = false)
    (hfair : ∀ j, i ≤ j → ∃ k, j ≤ k ∧
      ((x.state k).line p = [] ∨ (x.action k).isOf p = true))
    {rest : List Nat} (hline : (x.state i).line p = t :: rest) :
    x.First (State.switches p) i t := by
  have hhead := line_head x h0 hloses ⟨rest, hline⟩
  have hswitch : ∃ n, (x.state (i + n)).switches p (x.action (i + n)) ≠ [] := by
    by_contra hnone
    have hnil : ∀ n, (x.state (i + n)).switches p (x.action (i + n)) = [] := fun n => by
      by_contra hne
      exact hnone ⟨n, hne⟩
    have hbusy : ∀ k, i ≤ k → (x.state k).line p ≠ [] := by
      intro k hk
      obtain ⟨n, rfl⟩ := Nat.exists_eq_add_of_le hk
      obtain ⟨rest, hrest⟩ := hhead n fun k _ => hnil k
      rw [hrest]
      simp
    have hlinks : ∀ k, Links (x.state k) := fun k => (chosen_of_endless x h0 p k).1
    have hclose : ∀ k, i ≤ k → (x.action k).isOf p = true →
        (x.state (k + 1)).turnRank p < (x.state k).turnRank p := by
      intro k hk hown
      refine turnRank_own (hlinks k) (hbusy k hk) (hstop k hk) (fun hplace => ?_) hown
        (x.enabled k) (x.step k)
      obtain ⟨n, rfl⟩ := Nat.exists_eq_add_of_le hk
      obtain ⟨rest, hrest⟩ := hhead n fun k _ => hnil k
      have heq := switches_eq hown hplace (x.enabled _) (running_of_line hrest hplace)
      rw [hnil n] at heq
      cases heq
    have hstay : ∀ k, i ≤ k → ¬ (x.action k).isOf p = true →
        (x.state (k + 1)).turnRank p = (x.state k).turnRank p := fun k hk hother =>
      turnRank_other (hlinks k) (hbusy k hk) (Bool.eq_false_iff.2 hother) (x.enabled k) (x.step k)
    have hnever : ∃ j, i ≤ j ∧ False := by
      refine x.eventually_from (fun _ => True) (fun _ => False) (fun a => a.isOf p = true)
        wellFounded_lt (fun s => s.turnRank p) (fun k hk _ _ hown => ⟨trivial, hclose k hk hown⟩)
        (fun k hk _ _ hother => ⟨trivial, hstay k hk hother⟩) trivial fun k hk => ?_
      obtain ⟨j, hj, hor⟩ := hfair k hk
      exact ⟨j, hj, .inr (hor.resolve_left (hbusy j (hk.trans hj)))⟩
    obtain ⟨-, -, hfalse⟩ := hnever
    exact hfalse
  classical
  have hbefore : ∀ k < Nat.find hswitch, (x.state (i + k)).switches p (x.action (i + k)) = [] :=
    fun k hk => not_not.1 (Nat.find_min hswitch hk)
  obtain ⟨hown, hplace⟩ := switches_own (Nat.find_spec hswitch)
  obtain ⟨rest', hrest'⟩ := hhead _ hbefore
  refine ⟨Nat.find hswitch, x.outputs_eq_nil fun k hk hlt => ?_,
    switches_eq hown hplace (x.enabled _) (running_of_line hrest' hplace)⟩
  obtain ⟨n, rfl⟩ := Nat.exists_eq_add_of_le hk
  exact hbefore n (by omega)

/-- A task that stands behind the running one has its turn after those that are between the two:
the thread switches to these in order, and then to it.  Whatever the others do cannot change this,
as long as no task is taken away and the coroutines before it give the thread back. -/
theorem line_served (h0 : x.state 0 = .initial) (hstop : ∀ j, i ≤ j → (x.state j).stop = false)
    (hloses : ∀ j, i ≤ j → (x.state j).loses p (x.action j) = false)
    (hfair : ∀ j, i ≤ j → ∃ k, j ≤ k ∧
      ((x.state k).line p = [] ∨ (x.action k).isOf p = true))
    {ahead behind : List Nat} (hline : (x.state i).line p = ahead ++ t :: behind) :
    ∃ n, x.outputs (State.switches p) i n = ahead ∧
      (x.state (i + n)).switches p (x.action (i + n)) = [t] := by
  refine x.served (fun s => s.line p) (fun k hk => ?_) (fun k hk u rest hrest => ?_) hline
  · obtain ⟨hlinks, hchosen⟩ := chosen_of_endless x h0 p k
    exact line_step hlinks hchosen (hloses k hk) (x.enabled k) (x.step k)
  · exact line_first x h0 (fun j hj => hstop j (hk.trans hj)) (fun j hj => hloses j (hk.trans hj))
      (fun j hj => hfair j (hk.trans hj)) hrest

/-- Two tasks wait, and both run to their ends. -/
theorem line_served_two : ∃ x : Endless machine, ∃ n,
    x.outputs (State.switches 0) 9 n = [0] ∧
      (x.state (9 + n)).switches 0 (x.action (9 + n)) = [1] := by
  obtain ⟨as, has⟩ : ∃ as : List Action, as = List.flatten [[.create 0, .create 0],
      List.replicate 9 (.thread 0), [.finish 0], List.replicate 7 (.thread 0), [.finish 0],
      List.replicate 8 (.thread 0)] := ⟨_, rfl⟩
  have hend : ((machine.exec anyAction .initial as).any fun s => decide (s.line 0 = [] ∧
      s.stop = false ∧ s.queues (.stolen 0) = [] ∧ s.queues (.stolen 1) = [] ∧
      s.stealing 0 = none ∧ s.stealing 1 = none)) = true := by
    rw [has]
    decide +kernel
  have hline : ((machine.exec anyAction .initial (as.take 9)).any fun s =>
      decide (s.line 0 = [0, 1])) = true := by
    rw [has]
    decide +kernel
  have hgoes : ∀ j ≤ 28, ((machine.exec anyAction .initial (as.take j)).any fun s =>
      decide (s.stop = false)) = true := by
    rw [has]
    decide +kernel
  have hloses : ∀ a ∈ as, ∀ s : State, s.loses 0 a = false := by
    intro a ha s
    rw [has] at ha
    simp only [List.flatten_cons, List.flatten_nil, List.mem_append, List.mem_cons,
      List.mem_replicate, List.not_mem_nil, or_false] at ha
    rcases ha with (rfl | rfl) | ⟨-, rfl⟩ | rfl | ⟨-, rfl⟩ | rfl | ⟨-, rfl⟩
    all_goals rfl
  have hlength : as.length = 28 := by
    rw [has]
    rfl
  obtain ⟨x, hexec, hrest, haction⟩ := Endless.exists_of_exec (a := .append 0 1) hend <| by
    intro t ht
    obtain ⟨-, -, hq, hq', hk, hk'⟩ := of_decide_eq_true ht
    constructor
    · show Enabled t _ = true
      simp [Enabled, hk, hk']
    · show some (t.append 0 1) = some t
      rw [append_nothing hq hq']
  rw [hlength] at hexec hrest
  have h0 : x.state 0 = .initial := (Option.some.inj (hexec 0 (Nat.zero_le _))).symm
  have hat : (x.state 9).line 0 = [0] ++ 1 :: [] := by
    rw [hexec 9 (by omega)] at hline
    exact of_decide_eq_true hline
  refine ⟨x, line_served x h0 (fun j _ => ?_) (fun j _ => ?_) (fun j _ => ⟨j + 28, by omega, .inl ?_⟩)
    hat⟩
  · rcases Nat.le_total j 28 with hle | hle
    · have hstop := hgoes j hle
      rw [hexec j hle] at hstop
      exact of_decide_eq_true hstop
    · exact (of_decide_eq_true (hrest j hle)).2.1
  · rw [haction, List.getD_eq_getElem?_getD]
    cases hj : as[j]? with
    | none => rfl
    | some a => exact hloses a (List.mem_of_getElem? hj) _
  · exact (of_decide_eq_true (hrest (j + 28) (by omega))).1

/-! ## A thread that does not look for new tasks -/

/-- The thread goes on without `AddNewTasks`. -/
def Place.cycling : Place → Bool
  | .loop | .front | .inner | .swapIn | .running | .switch | .stopped => true
  | _ => false

/-- The coroutines on `p` only yield, and no task is given to it or taken away. -/
def State.undisturbed (p : Nat) (s : State) : Action → Bool
  | .suspend p' | .finish p' => p' ≠ p
  | a => !a.gives p && !s.loses p a

structure Cycling (p : Nat) (s : State) : Prop where
  tasks : s.queues (.runnable p) ≠ []
  new : s.queues (.new p) = []
  place : (s.place p).cycling = true
  awake : (s.place p).seat = .coroutine → Runs s p = true

theorem Cycling.of_grows (h : Cycling p s) {a : Action} (hgrows : Grows p a s s')
    (hgives : a.gives p = false) (hspares : Spares p s s') : Cycling p s' := by
  have hplace : s'.place p = s.place p := by
    refine hspares.place.resolve_right fun hblocked => ?_
    have hcycling := h.place
    rw [hblocked.1] at hcycling
    cases hcycling
  refine ⟨?_, hgrows.new hgives h.new, by rw [hplace]; exact h.place, fun hseat => ?_⟩
  · obtain ⟨added, hadded⟩ := hgrows.runnable
    rw [hadded]
    simp [h.tasks]
  · rw [hplace] at hseat
    obtain ⟨t, hr, hst⟩ := runs_iff.1 (h.awake hseat)
    exact runs_iff.2 ⟨t, hspares.running.trans hr, (hspares.state t hr).trans hst⟩

/-- A section of a busy thread works on no list. -/
theorem Cycling.thread (h : Cycling p s) (hs : s.thread p = some s') :
    Cycling p s' ∧ s'.queues (.up p) = s.queues (.up p) := by
  have hgoto : ∀ {u : State} {place : Place}, u.queues = s.queues → place.cycling = true →
      (place.seat = .coroutine → Runs u p = true) →
      Cycling p (u.goto p place) ∧ (u.goto p place).queues (.up p) = s.queues (.up p) := by
    intro u place hq hcycling hawake
    have hq' : (u.goto p place).queues = s.queues := hq
    refine ⟨⟨by rw [hq']; exact h.tasks, by rw [hq']; exact h.new, ?_, ?_⟩, by rw [hq']⟩
    · rw [goto_place]
      exact hcycling
    · rw [goto_place]
      exact hawake
  cases hplace : s.place p with
  | loop =>
    rw [State.thread, hplace, Option.some.injEq] at hs
    subst hs
    refine hgoto rfl ?_ ?_
    all_goals cases s.stop <;> simp [Place.cycling, Place.seat]
  | front =>
    rw [State.thread, hplace, Option.some.injEq] at hs
    subst hs
    obtain ⟨-, hq, hinner⟩ := front_place s p (.addNew .frontAgain)
    rw [if_neg h.tasks] at hinner
    refine ⟨⟨by rw [hq]; exact h.tasks, by rw [hq]; exact h.new, by rw [hinner]; rfl, ?_⟩, by rw [hq]⟩
    rw [hinner]
    exact fun hseat => by cases hseat
  | inner =>
    rw [State.thread, hplace, Option.some.injEq] at hs
    subst hs
    refine hgoto rfl ?_ ?_
    all_goals cases s.stop <;> simp [Place.cycling, Place.seat]
  | swapIn =>
    rw [State.thread, hplace] at hs
    obtain ⟨t, hr, rfl⟩ := Option.map_eq_some_iff.1 hs
    refine hgoto rfl rfl fun _ => runs_iff.2 ⟨t, hr, ?_⟩
    exact Function.update_self ..
  | switch =>
    rw [State.thread, hplace] at hs
    obtain ⟨t, hr, hst⟩ := runs_iff.1 (h.awake (by rw [hplace]; rfl))
    rw [State.switch, hr, Option.map_some, Option.some.injEq, hst] at hs
    subst hs
    dsimp only
    unfold State.caseRunnable
    split
    · exact hgoto rfl rfl fun hseat => by cases hseat
    · rw [if_pos (.inr h.new)]
      exact hgoto rfl rfl fun hseat => by cases hseat
  | running | stopped =>
    rw [State.thread, hplace, Option.some.injEq] at hs
    subst hs
    exact ⟨h, rfl⟩
  | _ =>
    have hcycling := h.place
    rw [hplace] at hcycling
    cases hcycling

theorem Cycling.step (h : Cycling p s) (hlinks : Links s) {a : Action}
    (hcalm : s.undisturbed p a = true) (he : Enabled s a = true)
    (hs : Scheduler.step s a = some s') :
    Cycling p s' ∧ ∃ added, s'.queues (.up p) = s.queues (.up p) ++ added := by
  cases hown : a.isOf p with
  | false =>
    have hquiet : a.gives p = false ∧ s.loses p a = false := by
      cases a with
      | suspend p' | finish p' => exact ⟨rfl, rfl⟩
      | _ => simpa [State.undisturbed] using hcalm
    have hgrows := grows_step hlinks hown hquiet.2 hs
    exact ⟨h.of_grows hgrows hquiet.1 (spares_step hlinks hown he hs), hgrows.up⟩
  | true =>
    cases a with
    | thread p' =>
      have hp : p = p' := of_decide_eq_true hown
      subst hp
      obtain ⟨hcycles, hup⟩ := h.thread hs
      exact ⟨hcycles, [], by rw [hup, List.append_nil]⟩
    | yield p' =>
      have hp : p = p' := of_decide_eq_true hown
      subst hp
      simp only [Enabled, Bool.and_eq_true, decide_eq_true_eq] at he
      cases hs
      refine ⟨⟨h.tasks, h.new, ?_, fun _ => h.awake (by rw [he.1]; rfl)⟩, [], ?_⟩
      · rw [goto_place]
        rfl
      · exact (List.append_nil _).symm
    | suspend p' | finish p' =>
      have hp : p = p' := of_decide_eq_true hown
      subst hp
      simp [State.undisturbed] at hcalm
    | _ => cases hown

end Costream.Scheduler
