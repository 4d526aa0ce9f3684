import Costream.Scheduler.NotifyCondition
import Costream.Scheduler.Wakeup

/-!
# What `Wakeup` returns

* `Suspends.stale_run` is a call of `Wakeup` with the entry of a suspension that is over.
* `Unstolen` are the runs without `Steal`, in which a task that has been woken up is in
  `runnableQueue_`.
* `suspend_wakeup` puts the results together.
* `old_entry_wakes` is what happens after `2 ^ 63` suspensions, when the ids begin again.
-/

namespace Costream.Scheduler

open Trace Costream.Lists Costream.Tally

variable {s s' : State} {p p' t u k n i : Nat} {q q' : Queue} {w w' : Wakeup}

theorem suspends_of_run (hr : Run machine FewSuspensions State.initial s) :
    Links s ∧ Books s ∧ Suspends s := by
  refine hr.invariant (P := fun s => Links s ∧ Books s ∧ Suspends s)
    ⟨links_initial, books_initial, suspends_initial⟩ ?_
  rintro s a s' ⟨hlinks, hbooks, h⟩ he hfew hs
  exact ⟨hlinks.step he hs, hbooks.step hlinks he hs, h.step hlinks hbooks he hfew hs⟩

/-! ## The calls of `Wakeup` -/

/-- A call goes on, and keeps its entry. -/
theorem wakeup_wakeups (hs : s.wakeup k w = some s') (hw : s.wakeups[k]? = some w) :
    ∃ w', s'.wakeups = s.wakeups.set k w' ∧ w'.task = w.task ∧ w'.id = w.id ∧ w.ran ≤ w'.ran := by
  cases hplace : w.place with
  | locked p =>
    rw [State.wakeup, hplace] at hs
    rcases wakeupBySelf_cases hs with ⟨-, rfl⟩ | ⟨-, -, rfl⟩
    · exact ⟨_, rfl, rfl, rfl, Nat.le_refl _⟩
    · exact ⟨_, rfl, rfl, rfl, Nat.le_succ _⟩
  | lock =>
    rw [State.wakeup, hplace, Option.some.injEq] at hs
    subst hs
    split <;> exact ⟨_, rfl, rfl, rfl, Nat.le_refl _⟩
  | notify p =>
    rw [State.wakeup, hplace, Option.some.injEq] at hs
    subst hs
    refine ⟨_, congrArg (List.set · k _) (notifyCondition_wakeups s p), rfl, rfl, Nat.le_refl _⟩
  | drop result =>
    rw [State.wakeup, hplace, Option.some.injEq] at hs
    subst hs
    exact ⟨_, congrArg (List.set · k _) (decRef_wakeups s w.task), rfl, rfl, Nat.le_refl _⟩
  | done result =>
    rw [State.wakeup, hplace, Option.some.injEq] at hs
    subst hs
    obtain ⟨hk, hget⟩ := List.getElem?_eq_some_iff.1 hw
    refine ⟨w, ?_, rfl, rfl, Nat.le_refl _⟩
    rw [← hget, List.set_getElem_self]
  | _ =>
    rw [State.wakeup, hplace, Option.some.injEq] at hs
    subst hs
    exact ⟨_, rfl, rfl, rfl, Nat.le_refl _⟩

/-- Only `Wakeup` works on its calls, and a new one has run nothing. -/
theorem step_wakeups (hlinks : Links s) {a : Action} (hs : step s a = some s') :
    (∃ k w, a = .wakeup k ∧ s.wakeups[k]? = some w ∧ s.wakeup k w = some s') ∨
      ∃ ws : List Wakeup, s'.wakeups = s.wakeups ++ ws := by
  have hsame : s'.wakeups = s.wakeups → ∃ ws : List Wakeup, s'.wakeups = s.wakeups ++ ws :=
    fun heq => ⟨[], heq.trans (List.append_nil _).symm⟩
  cases a with
  | wakeup k =>
    obtain ⟨w, hw, hs⟩ := Option.bind_eq_some_iff.1 hs
    exact .inl ⟨k, w, rfl, hw, hs⟩
  | wake caller t id =>
    cases hs
    exact .inr ⟨_, rfl⟩
  | adder k =>
    obtain ⟨a, -, rfl⟩ := Option.map_eq_some_iff.1 hs
    refine .inr (hsame ?_)
    unfold State.adder
    split
    · rfl
    · exact (notifyAll_rest s a.proc).2.2.1
    · rfl
    · rfl
  | thread p => exact .inr (hsame (leaves_thread hs).wakeups)
  | suspend p =>
    obtain ⟨t, -, rfl⟩ := Option.map_eq_some_iff.1 hs
    exact .inr (hsame rfl)
  | finish p =>
    obtain ⟨t, -, rfl⟩ := Option.map_eq_some_iff.1 hs
    exact .inr (hsame rfl)
  | steal k p n =>
    cases hs
    exact .inr (hsame (steal_rest k p n s).2.2.2)
  | stealRest k =>
    obtain ⟨r, -, hr⟩ := Option.bind_eq_some_iff.1 hs
    obtain ⟨D, C, heq, -⟩ := hlinks.stealRest_eq (k := k) (p := r.1) (n := r.2)
    rw [heq, Option.some.injEq] at hr
    subst hr
    exact .inr (hsame rfl)
  | addTask k p =>
    cases hs
    exact .inr (hsame (notifyCondition_wakeups _ p))
  | notify p =>
    cases hs
    exact .inr (hsame (notifyCondition_wakeups s p))
  | _ =>
    cases hs
    exact .inr (hsame rfl)

theorem woken_mono (hlinks : Links s) {a : Action} (hs : step s a = some s') :
    s.woken t ≤ s'.woken t := by
  rcases step_wakeups hlinks hs with ⟨k, w, -, hw, hs⟩ | ⟨ws, hws⟩
  · obtain ⟨w', heq, htask, -, hran⟩ := wakeup_wakeups hs hw
    have hset := tally_set (fun w : Wakeup => w.wakes t) hw w'
    have hle : w.wakes t ≤ w'.wakes t := by
      unfold Wakeup.wakes
      rw [htask]
      split
      · exact hran
      · exact Nat.le_refl 0
    unfold State.woken
    rw [heq]
    omega
  · unfold State.woken
    rw [hws, tally_append]
    exact Nat.le_add_right _ _

/-! ### The entry of an earlier suspension -/

/-- The `k`-th call has the entry of a suspension of `t` that is over, and has not got through. -/
def State.Stale (s : State) (k t i : Nat) : Prop :=
  (∃ w, s.wakeups[k]? = some w ∧ w.task = t ∧ w.id = 2 * i + 1 ∧ w.ran = 0) ∧ i < s.woken t

/-- A step of such a call moves no task. -/
theorem Suspends.stale_wakeup (h : Suspends s) (hw : s.wakeups[k]? = some w)
    (hid : w.id = 2 * i + 1) (hran : w.ran = 0) (hi : i < s.woken w.task)
    (hs : s.wakeup k w = some s') : s'.queues = s.queues ∧ ∃ w', s'.wakeups[k]? = some w' ∧
      w'.task = w.task ∧ w'.id = w.id ∧ w'.ran = 0 := by
  have hk : k < s.wakeups.length := (List.getElem?_eq_some_iff.1 hw).1
  have hcall := h.calls w (List.mem_of_getElem? hw)
  cases hplace : w.place with
  | locked p =>
    rw [State.wakeup, hplace] at hs
    rcases wakeupBySelf_cases hs with ⟨-, rfl⟩ | ⟨heq, hmem, -⟩
    · exact ⟨rfl, _, List.getElem?_set_self hk, rfl, rfl, hran⟩
    · have hodd := (h.suspended p w.task hmem).2.1
      omega
  | lock =>
    rw [State.wakeup, hplace, Option.some.injEq] at hs
    subst hs
    split <;> exact ⟨rfl, _, List.getElem?_set_self hk, rfl, rfl, hran⟩
  | notify p =>
    have hone := hcall.ran
    rw [hplace, hran] at hone
    cases hone
  | drop result =>
    rw [State.wakeup, hplace, Option.some.injEq] at hs
    subst hs
    obtain ⟨D, C, heq, -⟩ := exists_decRef_eq s w.task
    rw [heq]
    exact ⟨rfl, _, List.getElem?_set_self hk, rfl, rfl, hran⟩
  | done result =>
    rw [State.wakeup, hplace, Option.some.injEq] at hs
    subst hs
    exact ⟨rfl, w, hw, rfl, rfl, hran⟩
  | _ =>
    rw [State.wakeup, hplace, Option.some.injEq] at hs
    subst hs
    exact ⟨rfl, _, List.getElem?_set_self hk, rfl, rfl, hran⟩

theorem Suspends.stale_step (h : Suspends s) (hlinks : Links s) (hstale : s.Stale k t i)
    {a : Action} (hs : Scheduler.step s a = some s') : s'.Stale k t i := by
  obtain ⟨⟨w, hw, rfl, hid, hran⟩, hi⟩ := hstale
  refine ⟨?_, hi.trans_le (woken_mono hlinks hs)⟩
  rcases step_wakeups hlinks hs with ⟨j, v, -, hv, hs⟩ | ⟨ws, hws⟩
  · by_cases hjk : j = k
    · subst hjk
      cases hw.symm.trans hv
      obtain ⟨-, w', hw', htask, hid', hran'⟩ := h.stale_wakeup hw hid hran hi hs
      exact ⟨w', hw', htask, hid'.trans hid, hran'⟩
    · obtain ⟨v', heq, -⟩ := wakeup_wakeups hs hv
      refine ⟨w, ?_, rfl, hid, hran⟩
      rw [heq, List.getElem?_set_ne hjk, hw]
  · refine ⟨w, ?_, rfl, hid, hran⟩
    rw [hws, List.getElem?_append_left (List.getElem?_eq_some_iff.1 hw).1, hw]

theorem Suspends.stale_run (h : Suspends s) (hlinks : Links s) (hbooks : Books s)
    (hstale : s.Stale k t i) (hr : Run machine FewSuspensions s s') :
    Suspends s' ∧ s'.Stale k t i := by
  have hall := hr.invariant
    (P := fun s => (Links s ∧ Books s ∧ Suspends s) ∧ s.Stale k t i)
    ⟨⟨hlinks, hbooks, h⟩, hstale⟩ (by
      rintro s a s' ⟨⟨hlinks, hbooks, h⟩, hstale⟩ he hfew hs
      exact ⟨⟨hlinks.step he hs, hbooks.step hlinks he hs, h.step hlinks hbooks he hfew hs⟩,
        h.stale_step hlinks hstale hs⟩)
  exact ⟨hall.1.2.2, hall.2⟩

/-! ## Runs without `Steal` -/

/-- The action takes tasks from a processor. -/
def Action.steals : Action → Bool
  | .steal _ _ _ => true
  | _ => false

def Unstolen (s : State) (a : Action) : Prop := FewSuspensions s a ∧ a.steals = false

instance (s : State) (a : Action) : Decidable (Unstolen s a) :=
  inferInstanceAs (Decidable (FewSuspensions s a ∧ a.steals = false))

/-- What `Steal` works on is empty. -/
structure Settles (s : State) : Prop where
  new : ∀ p, s.queues (.new p) = []
  stolen : ∀ k, s.queues (.stolen k) = []
  stealing : ∀ k, s.stealing k = none

/-- The lists that `Steal` works on. -/
def Queue.moved : Queue → Bool
  | .new _ | .stolen _ => true
  | _ => false

theorem Settles.of_same (h : Settles s) (hstealing : s'.stealing = s.stealing)
    (hqueues : ∀ q : Queue, q.moved = true → s.queues q = [] → s'.queues q = []) : Settles s' := by
  refine ⟨fun p => hqueues _ rfl (h.new p), fun k => hqueues _ rfl (h.stolen k), fun k => ?_⟩
  rw [hstealing]
  exact h.stealing k

theorem notifyCondition_rest (s : State) (p : Nat) :
    (s.notifyCondition p).stealing = s.stealing ∧ (s.notifyCondition p).queues = s.queues := by
  unfold State.notifyCondition State.notifyAll
  split
  · split <;> exact ⟨rfl, rfl⟩
  · exact ⟨rfl, rfl⟩

/-- `Wakeup` works on `waitQueue_` and `runnableQueue_`. -/
theorem wakeup_queues (hs : s.wakeup k w = some s') (hwait : ∀ p, q ≠ .wait p)
    (hrunnable : ∀ p, q ≠ .runnable p) : s'.queues q = s.queues q := by
  unfold State.wakeup at hs
  split at hs
  case h_1 =>
    cases hs
    split <;> rfl
  case h_4 p _ =>
    rcases wakeupBySelf_cases hs with ⟨-, rfl⟩ | ⟨-, -, rfl⟩
    · rfl
    · exact awaken_other s p w.task (hwait p) (hrunnable p)
  case h_5 p _ =>
    cases hs
    exact congrFun (notifyCondition_rest s p).2 q
  case h_6 =>
    cases hs
    obtain ⟨D, C, heq, -⟩ := exists_decRef_eq s w.task
    rw [heq]
    rfl
  all_goals
    cases hs
    rfl

/-- Lists that are empty exchange nothing. -/
theorem setQueue_nil {xs ys : List Nat} {r : Queue} (hr : s.queues r = []) (hx : q = r → xs = [])
    (hy : q' = r → ys = []) : ((s.setQueue q xs).setQueue q' ys).queues r = [] := by
  by_cases hq' : q' = r
  · rw [hy hq', hq']
    exact setQueue_self
  · rw [setQueue_other (Ne.symm hq')]
    by_cases hq : q = r
    · rw [hx hq, hq]
      exact setQueue_self
    · rw [setQueue_other (Ne.symm hq), hr]

theorem Settles.step (h : Settles s) {a : Action} (he : Enabled s a = true) (hok : Unstolen s a)
    (hs : Scheduler.step s a = some s') : Settles s' := by
  cases a with
  | create p =>
    cases hs
    refine h.of_same rfl fun q hq hnil => ?_
    rwa [create_other]
    rintro rfl
    cases hq
  | adder k =>
    obtain ⟨a, -, rfl⟩ := Option.map_eq_some_iff.1 hs
    unfold State.adder
    split
    · exact h.of_same rfl fun _ _ hnil => hnil
    · refine h.of_same (untouched_notifyAll s a.proc).stealing fun q _ hnil => ?_
      exact (congrFun (notifyAll_rest s a.proc).2.2.2 q).trans hnil
    · exact h.of_same rfl fun _ _ hnil => hnil
    · exact h
  | thread p =>
    have hleaves := leaves_thread hs
    refine h.of_same hleaves.stealing fun q hq hnil => ?_
    cases q with
    | new p' => rw [hleaves.queues _ rfl (by simp), hnil]
    | stolen k => rw [hleaves.queues _ rfl (by simp), hnil]
    | _ => cases hq
  | suspend p =>
    obtain ⟨t, -, rfl⟩ := Option.map_eq_some_iff.1 hs
    exact h.of_same rfl fun _ _ hnil => hnil
  | finish p =>
    obtain ⟨t, -, rfl⟩ := Option.map_eq_some_iff.1 hs
    exact h.of_same rfl fun _ _ hnil => hnil
  | wakeup k =>
    obtain ⟨w, -, hs⟩ := Option.bind_eq_some_iff.1 hs
    refine h.of_same (untouched_wakeup hs).stealing fun q hq hnil => ?_
    rw [wakeup_queues hs, hnil]
    · rintro p rfl
      cases hq
    · rintro p rfl
      cases hq
  | steal k p n => cases hok.2
  | stealRest k =>
    simp only [Enabled, h.stealing, decide_eq_true_eq, ne_eq, not_true_eq_false] at he
  | append k k' =>
    cases hs
    refine h.of_same rfl fun q _ hnil => setQueue_nil hnil (fun _ => ?_) fun _ => rfl
    rw [h.stolen, h.stolen]
    rfl
  | cut k k' n =>
    cases hs
    refine h.of_same rfl fun q _ hnil => setQueue_nil hnil (fun _ => ?_) fun _ => ?_
    · rw [h.stolen, List.take_nil]
    · rw [h.stolen, List.drop_nil]
  | addTask k p =>
    cases hs
    obtain ⟨hstealing, hqueues⟩ := notifyCondition_rest ((s.setQueue (.new p)
      (s.queues (.new p) ++ s.queues (.stolen k))).setQueue (.stolen k) []) p
    refine h.of_same hstealing fun q _ hnil => ?_
    refine (congrFun hqueues q).trans (setQueue_nil hnil (fun _ => ?_) fun _ => rfl)
    rw [h.new, h.stolen]
    rfl
  | notify p =>
    cases hs
    obtain ⟨hstealing, hqueues⟩ := notifyCondition_rest s p
    exact h.of_same hstealing fun q _ hnil => (congrFun hqueues q).trans hnil
  | _ =>
    cases hs
    exact h.of_same rfl fun _ _ hnil => hnil

theorem settles_of_run (hr : Run machine Unstolen State.initial s) : Settles s := by
  refine hr.invariant (P := Settles) ⟨fun _ => rfl, fun _ => rfl, fun _ => rfl⟩ ?_
  rintro s a s' h he hok hs
  exact h.step he hok hs

/-! ## The results -/

/-- Where a task can be that has been woken up. -/
def Queue.ready : Queue → Bool
  | .runnable _ | .new _ | .stolen _ => true
  | _ => false

/-- What holds of suspensions and of the calls of `Wakeup`.  The `i`-th suspension of a task has the
entry with the id `2 * i + 1`.  One call gets through with it at most, and this call has run its
functor once.  A task that is suspended is in the `waitQueue_` of its processor, and one that has
been woken up is in another list.  The section of `WakeupBySelf` always finds the task. -/
structure Protocol (s : State) : Prop where
  entries : ∀ t, s.entries.filter (fun e => e.1 = t) =
    (List.range (s.suspensions t)).map fun i => (t, 2 * i + 1)
  once : ∀ (k k' : Nat) (w w' : Wakeup), s.wakeups[k]? = some w → s.wakeups[k']? = some w' →
    w.place.success = true → w'.place.success = true → w.task = w'.task → w.id = w'.id → k = k'
  functor : ∀ w ∈ s.wakeups, w.ran = if w.place.success then 1 else 0
  linked : ∀ t, s.taskState t = .block → ∃ q, t ∈ s.queues q ∧ (∀ q', t ∈ s.queues q' → q' = q) ∧
    if s.woken t < s.suspensions t then ∃ p, q = .wait p ∧ s.proc t = some p else q.ready = true
  found : ∀ k < s.wakeups.length, (step s (.wakeup k)).isSome = true

/-- Where a task does not wait, every suspension is over. -/
theorem Suspends.caught_up (h : Suspends s) (ht : t < s.created)
    (hwait : ∀ p, t ∉ s.queues (.wait p)) : s.woken t = s.suspensions t := by
  by_cases hsettled : s.Settled t
  · exact (h.awake t ht hwait hsettled).1
  · unfold State.Settled at hsettled
    simp only [not_forall, not_not] at hsettled
    obtain ⟨p, hp, hr⟩ := hsettled
    exact (h.suspending p t hp hr).1

theorem Suspends.suspensions_le (h : Suspends s) (ht : t < s.created) :
    s.suspensions t ≤ s.woken t + 1 := by
  by_cases hwait : ∀ p, t ∉ s.queues (.wait p)
  · have heq := h.caught_up ht hwait
    omega
  · simp only [not_forall, not_not] at hwait
    obtain ⟨p, hp⟩ := hwait
    exact (h.suspended p t hp).1.le

theorem Suspends.once_call (h : Suspends s) {k' : Nat} (hw : s.wakeups[k]? = some w)
    (hw' : s.wakeups[k']? = some w') (hs : w.place.success = true) (hs' : w'.place.success = true)
    (htask : w.task = w'.task) (hid : w.id = w'.id) : k = k' := by
  by_contra hne
  obtain ⟨i, -, hi⟩ := (h.calls w (List.mem_of_getElem? hw)).id
  have hran := (h.calls w (List.mem_of_getElem? hw)).ran
  have hran' := (h.calls w' (List.mem_of_getElem? hw')).ran
  rw [if_pos hs] at hran
  rw [if_pos hs'] at hran'
  have hone := h.once w.task i
  have hboth := add_le_tally (fun v : Wakeup => v.wakesFrom w.task (2 * i + 1)) hw hw' hne
  unfold State.wakings at hone
  simp only [Wakeup.wakesFrom, hi, ← htask, ← hid, and_self, if_true, hran, hran'] at hboth
  unfold Wakeup.wakesFrom at hone
  split at hone <;> omega

theorem Suspends.linked_once (h : Suspends s) (hlinks : Links s) (ht : s.taskState t = .block) :
    ∃ q, t ∈ s.queues q ∧ (∀ q', t ∈ s.queues q' → q' = q) ∧
      if s.woken t < s.suspensions t then ∃ p, q = .wait p ∧ s.proc t = some p
      else q.ready = true := by
  obtain ⟨q, hq, hmem⟩ := h.held t ht
  refine ⟨q, hmem, fun q' hmem' => hlinks.apart.apart q' q t hmem' hmem, ?_⟩
  cases q with
  | wait p =>
    obtain ⟨hsuspensions, -, hproc⟩ := h.suspended p t hmem
    rw [if_pos (by omega)]
    exact ⟨p, rfl, hproc⟩
  | up p => cases hq
  | gc p => cases hq
  | garbage p => cases hq
  | _ =>
    have hwait : ∀ p, t ∉ s.queues (.wait p) := by
      intro p hp
      have heq := hlinks.apart.apart _ _ t hmem hp
      cases heq
    have heq := h.caught_up (hlinks.known _ t hmem) hwait
    rw [if_neg (by omega)]
    rfl

theorem wakeupBySelf_isSome (h : w.id = s.suspendId w.task → w.task ∈ s.queues (.wait p)) :
    (s.wakeupBySelf k w p).isSome = true := by
  unfold State.wakeupBySelf
  split
  · rfl
  · rename_i hid
    dsimp only
    rw [unlink_eq (by exact h (not_not.1 hid))]
    rfl

/-- The section of `WakeupBySelf` finds the task in `waitQueue_`. -/
theorem Suspends.found (h : Suspends s) (hbooks : Books s) (hk : k < s.wakeups.length) :
    (Scheduler.step s (.wakeup k)).isSome = true := by
  show ((s.wakeups[k]?).bind (s.wakeup k)).isSome = true
  obtain ⟨w, hw⟩ : ∃ w, s.wakeups[k]? = some w := ⟨_, List.getElem?_eq_getElem hk⟩
  rw [hw, Option.bind_some]
  cases hplace : w.place with
  | locked p =>
    rw [State.wakeup, hplace]
    exact wakeupBySelf_isSome (h.waiting hbooks (List.mem_of_getElem? hw) hplace)
  | _ =>
    rw [State.wakeup, hplace]
    rfl

theorem Suspends.protocol (h : Suspends s) (hlinks : Links s) (hbooks : Books s) : Protocol s where
  entries := h.entries
  once _ _ _ _ hw hw' hs hs' htask hid := h.once_call hw hw' hs hs' htask hid
  functor w hw := (h.calls w hw).ran
  linked _ ht := h.linked_once hlinks ht
  found _ hk := h.found hbooks hk

/-- The `k`-th call has run nothing and returns nothing but false, and its next step moves no
task. -/
def State.Ignores (s : State) (k : Nat) : Prop :=
  ∃ w, s.wakeups[k]? = some w ∧ w.ran = 0 ∧ w.place.success = false ∧
    ∀ s', step s (.wakeup k) = some s' → s'.queues = s.queues

theorem Suspends.ignores (h : Suspends s) (hstale : s.Stale k t i) : s.Ignores k := by
  obtain ⟨⟨w, hw, rfl, hid, hran⟩, hi⟩ := hstale
  refine ⟨w, hw, hran, ?_, fun s' hs => ?_⟩
  · have hcall := (h.calls w (List.mem_of_getElem? hw)).ran
    rw [hran] at hcall
    cases hsuccess : w.place.success with
    | false => rfl
    | true =>
      rw [hsuccess] at hcall
      cases hcall
  · obtain ⟨v, hv, hs⟩ := Option.bind_eq_some_iff.1 hs
    cases hw.symm.trans hv
    exact (h.stale_wakeup hw hid hran hi hs).1

/-- In every run in which no task is suspended more than `2 ^ 63` times the calls of `Wakeup` keep
to the `Protocol`.  One with the entry of an earlier suspension is ignored from then on.  Where
nothing is stolen, a task that is suspended or has been woken up is in `waitQueue_` or
`runnableQueue_`. -/
theorem suspend_wakeup (hr : Run machine FewSuspensions State.initial s) :
    Protocol s ∧
      (∀ s' (k : Nat) (w : Wakeup) (i : Nat), Run machine FewSuspensions s s' →
        s.wakeups[k]? = some w → w.ran = 0 → w.id = 2 * i + 1 →
        i + 1 < s.suspensions w.task ∨ i < s.woken w.task → s'.Ignores k) ∧
      (Run machine Unstolen State.initial s → ∀ t, s.taskState t = .block →
        ∃ p, t ∈ s.queues (.wait p) ∨ t ∈ s.queues (.runnable p)) := by
  obtain ⟨hlinks, hbooks, h⟩ := suspends_of_run hr
  refine ⟨h.protocol hlinks hbooks, fun s' k w i hr' hw hran hid hi => ?_, fun hr' t ht => ?_⟩
  · have hle := h.suspensions_le (hbooks.known w (List.mem_of_getElem? hw))
    have hstale : s.Stale k w.task i := ⟨⟨w, hw, rfl, hid, hran⟩, by omega⟩
    obtain ⟨h', hstale'⟩ := h.stale_run hlinks hbooks hstale hr'
    exact h'.ignores hstale'
  · -- without `Steal` the lists that it works on are empty
    have hsettles := settles_of_run hr'
    obtain ⟨q, hq, hmem⟩ := h.held t ht
    cases q with
    | runnable p => exact ⟨p, .inr hmem⟩
    | wait p => exact ⟨p, .inl hmem⟩
    | new p =>
      rw [hsettles.new] at hmem
      cases hmem
    | stolen k =>
      rw [hsettles.stolen] at hmem
      cases hmem
    | _ => cases hq

/-- One call has woken the task up, and another one has its entry and has not begun. -/
theorem suspend_wakeup_one : ∃ s, Run machine FewSuspensions State.initial s ∧ s.woken 0 = 1 ∧
    Protocol s ∧ s.Ignores 1 ∧ ∃ p, 0 ∈ s.queues (.wait p) ∨ 0 ∈ s.queues (.runnable p) := by
  have hexec : (machine.exec Unstolen State.initial
      (List.flatten [[.create 0], List.replicate 8 (.thread 0),
        [.suspend 0, .thread 0, .wake none 0 1, .wake none 0 1], List.replicate 6 (.wakeup 0)])).any
      (fun s => decide (s.woken 0 = 1 ∧ s.taskState 0 = .block ∧
        s.wakeups[1]? = some ⟨none, 0, 1, .lock, 0⟩)) := by
    decide +kernel
  obtain ⟨s, hr, hdec⟩ := Run.exists_of_exec hexec
  obtain ⟨hwoken, hstate, hw⟩ := of_decide_eq_true hdec
  have hfew : Run machine FewSuspensions State.initial s := hr.mono fun _ _ h => h.1
  obtain ⟨hprotocol, hignores, hlinked⟩ := suspend_wakeup hfew
  refine ⟨s, hfew, hwoken, hprotocol, ?_, hlinked hr 0 hstate⟩
  exact hignores s 1 _ 0 .refl hw rfl rfl (.inr (by rw [hwoken]; decide))

/-! ## Ids that begin again -/

/-- What processor 0 does with task 0, where no coroutine is in a call of `Wakeup`. -/
structure Sees (s : State) (place : Place) (running : Option Nat) (st : TaskState) (id : Nat)
    (runnable wait : List Nat) (reference : Int) : Prop where
  place : s.place 0 = place
  running : s.runningTask 0 = running
  taskState : s.taskState 0 = st
  suspendId : s.suspendId 0 = id
  runnable : s.queues (.runnable 0) = runnable
  wait : s.queues (.wait 0) = wait
  reference : s.reference 0 = reference
  proc : s.proc 0 = some 0
  next : s.nextTask 0 = none
  stop : s.stop = false
  callers : ∀ w ∈ s.wakeups, w.caller = none

section Sees

variable {place : Place} {running : Option Nat} {st : TaskState} {id : Nat}
  {runnable wait : List Nat} {r : Int}

theorem Sees.free (h : Sees s place running st id runnable wait r) : Free s 0 = true := by
  rw [free_iff]
  intro w hw hcaller
  rw [h.callers w hw] at hcaller
  cases hcaller

theorem Sees.goto (h : Sees s place running st id runnable wait r) (place' : Place) :
    Sees (s.goto 0 place') place' running st id runnable wait r :=
  { h with place := goto_place s 0 place' }

theorem Sees.setWakeup (h : Sees s place running st id runnable wait r) (hw : w.caller = none) :
    Sees (s.setWakeup k w) place running st id runnable wait r := by
  refine { h with callers := fun v hv => ?_ }
  rcases List.mem_or_eq_of_mem_set hv with hv | rfl
  · exact h.callers v hv
  · exact hw

/-- One action. -/
theorem run_one {a : Action} (he : Enabled s a = true) (hs : step s a = some s') :
    Run machine anyAction s s' :=
  .tail .refl he trivial hs

theorem Sees.run_thread (h : Sees s place running st id runnable wait r)
    (hplace : place ≠ .blocked ∧ place ≠ .running ∧ place ≠ .stopped) (hs : s.thread 0 = some s') :
    Run machine anyAction s s' := by
  refine run_one (a := .thread 0) ?_ hs
  simp [Enabled, h.place, hplace]

/-- The task suspends itself. -/
theorem Sees.sleep (h : Sees s .running (some 0) .runnable id [0] [] r) (hlinks : Links s) :
    ∃ s', Run machine anyAction s s' ∧
      Sees s' .running (some 0) .block ((id + 1) % 2 ^ 64) [] [0] r ∧ s'.wakeups = s.wakeups ∧
      (0, (id + 1) % 2 ^ 64) ∈ s'.entries := by
  obtain ⟨s₁, hs₁⟩ : ∃ s₁, s₁ = { s with
      taskState := Function.update s.taskState 0 .block
      suspendId := Function.update s.suspendId 0 ((s.suspendId 0 + 1) % 2 ^ 64) }.goto 0
        .suspending := ⟨_, rfl⟩
  have he : Enabled s (.suspend 0) = true := by
    simp [Enabled, h.place, h.free, Runs, h.running, h.taskState]
  have hstep : step s (.suspend 0) = some s₁ := by
    simp [step, h.running, hs₁]
  have h₁ : Sees s₁ .suspending (some 0) .block ((id + 1) % 2 ^ 64) [0] [] r := by
    rw [hs₁]
    refine ⟨goto_place .., h.running, ?_, ?_, h.runnable, h.wait, h.reference, h.proc, h.next, h.stop,
      h.callers⟩
    · simp [State.goto]
    · simp [State.goto, h.suspendId]
  have hthread : s₁.thread 0 = some (s₁.asleep 0 0) := by
    rw [State.thread, h₁.place]
    refine (hlinks.step he hstep).suspendBySelf_eq h₁.running ?_
    rw [h₁.runnable]
    exact List.mem_singleton_self 0
  refine ⟨s₁.asleep 0 0, (run_one he hstep).trans
    (h₁.run_thread (by simp) hthread), ?_, ?_, ?_⟩
  · have hnext : Lists.next [0] 0 = none := rfl
    refine ⟨?_, h₁.running, h₁.taskState, h₁.suspendId, ?_, ?_, h₁.reference, h₁.proc, ?_, h₁.stop,
      h₁.callers⟩
    · simp [State.asleep]
    · simp [State.asleep, State.exchange, h₁.runnable]
    · simp [State.asleep, State.exchange, h₁.wait]
    · simp [State.asleep, h₁.runnable, hnext]
  · rw [hs₁]
    rfl
  · show _ ∈ s₁.entries ++ [(0, s₁.suspendId 0)]
    rw [h₁.suspendId]
    exact List.mem_append_right _ (List.mem_singleton_self _)

/-! ### A call of `Wakeup` gets through -/

theorem Sees.decRef (h : Sees s place running st id runnable wait r) :
    Sees (s.decRef 0) place running st id runnable wait (r - 1) := by
  obtain ⟨D, C, heq, -⟩ := exists_decRef_eq s 0
  rw [heq]
  refine { h with reference := ?_ }
  show Function.update s.reference 0 (s.reference 0 - 1) 0 = r - 1
  rw [Function.update_self, h.reference]

theorem Sees.incRef (h : Sees s place running st id runnable wait r) :
    Sees (s.incRef 0) place running st id runnable wait (r + 1) := by
  refine { h with reference := ?_ }
  show Function.update s.reference 0 (s.reference 0 + 1) 0 = r + 1
  rw [Function.update_self, h.reference]

theorem Sees.notifyCondition (h : Sees s place running st id runnable wait r)
    (hplace : place ≠ .blocked) : Sees (s.notifyCondition 0) place running st id runnable wait r := by
  unfold State.notifyCondition State.notifyAll
  rw [h.place, if_neg hplace]
  split
  · exact h
  · exact { h with }

/-- A run in which the `k`-th call goes on, and is `w` at its end. -/
structure Calls (k : Nat) (w : Wakeup) (s s' : State) : Prop where
  run : Run machine anyAction s s'
  wakeups : s'.wakeups = s.wakeups.set k w

theorem Calls.get (h : Calls k w s s') (hw : s.wakeups[k]? = some w') : s'.wakeups[k]? = some w := by
  rw [h.wakeups]
  exact List.getElem?_set_self (List.getElem?_eq_some_iff.1 hw).1

theorem Calls.trans {s'' : State} (h : Calls k w s s') (h' : Calls k w' s' s'') :
    Calls k w' s s'' := by
  refine ⟨h.run.trans h'.run, ?_⟩
  rw [h'.wakeups, h.wakeups, List.set_set]

theorem calls_of_wakeup (hw : s.wakeups[k]? = some w) (hs : s.wakeup k w = some s')
    (hset : s'.wakeups = s.wakeups.set k w') : Calls k w' s s' := by
  refine ⟨run_one (a := .wakeup k) ?_ ?_, hset⟩
  · exact decide_eq_true (List.getElem?_eq_some_iff.1 hw).1
  · show (s.wakeups[k]?).bind (s.wakeup k) = some s'
    rw [hw, Option.bind_some, hs]

/-- The `k`-th call has this entry, and is at this place. -/
def State.CallAt (s : State) (k id : Nat) (place : WakeupPlace) (ran : Nat) : Prop :=
  s.wakeups[k]? = some ⟨none, 0, id, place, ran⟩

/-- The call has an `IncursivePtr`, and is before the lock of the queues. -/
theorem Sees.lock (h : Sees s .running (some 0) .block id [] [0] 2) (hw : s.CallAt k id .lock 0) :
    ∃ s', Calls k ⟨none, 0, id, .locked 0, 0⟩ s s' ∧
      Sees s' .running (some 0) .block id [] [0] 3 := by
  obtain ⟨s₁, hs₁⟩ : ∃ s₁, s₁ = (s.incRef 0).setWakeup k ⟨none, 0, id, .proc, 0⟩ := ⟨_, rfl⟩
  have hcalls₁ : Calls k ⟨none, 0, id, .proc, 0⟩ s s₁ := by
    refine calls_of_wakeup hw ?_ (by rw [hs₁]; rfl)
    rw [State.wakeup, hs₁]
    simp [h.reference]
  have h₁ : Sees s₁ .running (some 0) .block id [] [0] 3 := by
    rw [hs₁]
    exact h.incRef.setWakeup rfl
  obtain ⟨s₂, hs₂⟩ : ∃ s₂, s₂ = s₁.setWakeup k ⟨none, 0, id, .check 0, 0⟩ := ⟨_, rfl⟩
  have hcalls₂ : Calls k ⟨none, 0, id, .check 0, 0⟩ s₁ s₂ := by
    refine calls_of_wakeup (hcalls₁.get hw) ?_ (by rw [hs₂]; rfl)
    rw [State.wakeup, hs₂]
    simp [h₁.proc]
  have h₂ : Sees s₂ .running (some 0) .block id [] [0] 3 := by
    rw [hs₂]
    exact h₁.setWakeup rfl
  have hcalls₃ : Calls k ⟨none, 0, id, .locked 0, 0⟩ s₂
      (s₂.setWakeup k ⟨none, 0, id, .locked 0, 0⟩) := by
    refine calls_of_wakeup (hcalls₂.get (hcalls₁.get hw)) ?_ rfl
    rw [State.wakeup]
    simp [h₂.suspendId]
  exact ⟨_, (hcalls₁.trans hcalls₂).trans hcalls₃, h₂.setWakeup rfl⟩

/-- The section of `WakeupBySelf`, where the id is that of the task. -/
theorem Sees.locked (h : Sees s .running (some 0) .block id [] [0] r)
    (hw : s.CallAt k id (.locked 0) 0) :
    ∃ s', Calls k ⟨none, 0, id, .notify 0, 1⟩ s s' ∧
      Sees s' .running (some 0) .block ((id + 1) % 2 ^ 64) [0] [] r := by
  have hmem : 0 ∈ s.queues (.wait 0) := by
    rw [h.wait]
    exact List.mem_singleton_self 0
  have hsome := wakeupBySelf_isSome (k := k) (w := ⟨none, 0, id, .locked 0, 0⟩) fun _ => hmem
  obtain ⟨s', hs⟩ := Option.isSome_iff_exists.1 hsome
  refine ⟨s', ?_⟩
  have hs' := hs
  rcases wakeupBySelf_cases hs with ⟨hne, -⟩ | ⟨-, -, heq⟩
  · exact absurd h.suspendId.symm hne
  · rw [h.runnable, if_pos ⟨rfl, nofun⟩] at heq
    subst heq
    refine ⟨calls_of_wakeup hw hs' rfl, Sees.setWakeup ⟨h.place, h.running, h.taskState, ?_, ?_, ?_,
      h.reference, h.proc, h.next, h.stop, h.callers⟩ rfl⟩
    · simp [State.awaken, h.suspendId]
    · simp [State.awaken, State.exchange, h.runnable]
    · simp [State.awaken, State.exchange, h.wait]

/-- The call notifies the processor, and drops its `IncursivePtr`. -/
theorem Sees.unlock (h : Sees s .running (some 0) .block id [0] [] 3) {id' : Nat}
    (hw : s.CallAt k id' (.notify 0) 1) : ∃ s', Calls k ⟨none, 0, id', .done true, 1⟩ s s' ∧
      Sees s' .running (some 0) .block id [0] [] 2 := by
  obtain ⟨s₁, hs₁⟩ : ∃ s₁, s₁ = (s.notifyCondition 0).setWakeup k ⟨none, 0, id', .drop true, 1⟩ :=
    ⟨_, rfl⟩
  have hcalls₁ : Calls k ⟨none, 0, id', .drop true, 1⟩ s s₁ := by
    refine calls_of_wakeup hw (by rw [hs₁]; rfl) ?_
    rw [hs₁]
    exact congrArg (List.set · k _) (notifyCondition_wakeups s 0)
  have h₁ : Sees s₁ .running (some 0) .block id [0] [] 3 := by
    rw [hs₁]
    exact (h.notifyCondition nofun).setWakeup rfl
  have hcalls₂ : Calls k ⟨none, 0, id', .done true, 1⟩ s₁
      ((s₁.decRef 0).setWakeup k ⟨none, 0, id', .done true, 1⟩) := by
    refine calls_of_wakeup (hcalls₁.get hw) rfl ?_
    exact congrArg (List.set · k _) (decRef_wakeups s₁ 0)
  exact ⟨_, hcalls₁.trans hcalls₂, h₁.decRef.setWakeup rfl⟩

/-- A call that has the id of the suspension gets through. -/
theorem Sees.awaken (h : Sees s .running (some 0) .block id [] [0] 2) (hw : s.CallAt k id .lock 0) :
    ∃ s', Calls k ⟨none, 0, id, .done true, 1⟩ s s' ∧
      Sees s' .running (some 0) .block ((id + 1) % 2 ^ 64) [0] [] 2 := by
  obtain ⟨s₁, hcalls₁, h₁⟩ := h.lock hw
  obtain ⟨s₂, hcalls₂, h₂⟩ := h₁.locked (hcalls₁.get hw)
  obtain ⟨s₃, hcalls₃, h₃⟩ := h₂.unlock (hcalls₂.get (hcalls₁.get hw))
  exact ⟨s₃, (hcalls₁.trans hcalls₂).trans hcalls₃, h₃⟩

/-! ### The thread comes to the task again -/

theorem Sees.loop (h : Sees s .loop none st id [0] [] r) :
    ∃ s', Run machine anyAction s s' ∧ Sees s' .running (some 0) .runnable id [0] [] r ∧
      s'.wakeups = s.wakeups := by
  have hrun₁ : Run machine anyAction s (s.goto 0 .front) := by
    refine h.run_thread (by simp) ?_
    rw [State.thread, h.place, h.stop]
    rfl
  have h₁ := h.goto .front
  obtain ⟨s₂, hs₂⟩ : ∃ s₂, s₂ = (s.goto 0 .front).front 0 (.addNew .frontAgain) := ⟨_, rfl⟩
  have hrun₂ : Run machine anyAction (s.goto 0 .front) s₂ := by
    refine h₁.run_thread (by simp) ?_
    rw [State.thread, h₁.place, hs₂]
  have h₂ : Sees s₂ .inner (some 0) st id [0] [] r ∧ s₂.wakeups = s.wakeups := by
    rw [hs₂]
    unfold State.front
    rw [h₁.runnable]
    refine ⟨⟨goto_place .., ?_, h.taskState, h.suspendId, h.runnable, h.wait, h.reference, h.proc,
      h.next, h.stop, h.callers⟩, rfl⟩
    simp [State.goto]
  have hrun₃ : Run machine anyAction s₂ (s₂.goto 0 .swapIn) := by
    refine h₂.1.run_thread (by simp) ?_
    rw [State.thread, h₂.1.place, h₂.1.stop]
    rfl
  have h₃ := h₂.1.goto .swapIn
  obtain ⟨s₄, hs₄⟩ : ∃ s₄, (s₂.goto 0 .swapIn).swapIn 0 = some s₄ := by
    unfold State.swapIn
    rw [h₃.running]
    exact ⟨_, rfl⟩
  have hrun₄ : Run machine anyAction (s₂.goto 0 .swapIn) s₄ := by
    refine h₃.run_thread (by simp) ?_
    rw [State.thread, h₃.place, hs₄]
  refine ⟨s₄, ((hrun₁.trans hrun₂).trans hrun₃).trans hrun₄, ?_⟩
  unfold State.swapIn at hs₄
  rw [h₃.running, Option.map_some, Option.some.injEq] at hs₄
  subst hs₄
  refine ⟨⟨goto_place .., h₃.running, ?_, h₃.suspendId, h₃.runnable, h₃.wait, h₃.reference, ?_,
    h₃.next, h₃.stop, h₃.callers⟩, h₂.2⟩
  · simp [State.goto]
  · simp [State.goto]

/-- The task yields, and the thread of its processor goes round. -/
theorem Sees.resume (h : Sees s .running (some 0) .block id [0] [] r) :
    ∃ s', Run machine anyAction s s' ∧ Sees s' .running (some 0) .runnable id [0] [] r ∧
      s'.wakeups = s.wakeups := by
  have hrun₁ : Run machine anyAction s (s.goto 0 .switch) := by
    refine run_one (a := .yield 0) ?_ rfl
    simp [Enabled, h.place, h.free]
  have h₁ := h.goto .switch
  obtain ⟨s₂, hs₂⟩ : ∃ s₂, s₂ = (s.goto 0 .switch).takeNext 0 := ⟨_, rfl⟩
  have hrun₂ : Run machine anyAction (s.goto 0 .switch) s₂ := by
    refine h₁.run_thread (by simp) ?_
    rw [State.thread, h₁.place]
    unfold State.switch
    rw [h₁.running, Option.map_some, h₁.taskState, hs₂]
  have h₂ : Sees s₂ .loop none .block id [0] [] r := by
    rw [hs₂, takeNext_eq, h₁.next]
    refine ⟨setThread_place .., setThread_running .., h.taskState, h.suspendId, h.runnable, h.wait,
      h.reference, h.proc, setThread_next .., h.stop, h.callers⟩
  obtain ⟨s₃, hrun₃, h₃, hwakeups⟩ := h₂.loop
  refine ⟨s₃, (hrun₁.trans hrun₂).trans hrun₃, h₃, hwakeups.trans ?_⟩
  rw [hs₂]
  rfl

/-! ### All the ids -/

/-- The task suspends itself, and a new call of `Wakeup` wakes it up. -/
theorem Sees.round (h : Sees s .running (some 0) .runnable (2 * i % 2 ^ 64) [0] [] 2)
    (hlinks : Links s) : ∃ s', Run machine anyAction s s' ∧
      Sees s' .running (some 0) .runnable (2 * (i + 1) % 2 ^ 64) [0] [] 2 ∧
      ∃ ws, s'.wakeups = s.wakeups ++ ws := by
  obtain ⟨id, hid⟩ : ∃ id, id = (2 * i % 2 ^ 64 + 1) % 2 ^ 64 := ⟨_, rfl⟩
  have hnext : (id + 1) % 2 ^ 64 = 2 * (i + 1) % 2 ^ 64 := by omega
  obtain ⟨s₁, hrun₁, h₁, hwakeups₁, hentry⟩ := h.sleep hlinks
  rw [← hid] at h₁ hentry
  obtain ⟨s₂, hs₂⟩ : ∃ s₂ : State, s₂ =
      { s₁ with wakeups := s₁.wakeups ++ [⟨none, 0, id, .lock, 0⟩] } := ⟨_, rfl⟩
  have hrun₂ : Run machine anyAction s₁ s₂ := by
    refine run_one (a := .wake none 0 id) ?_ (by rw [hs₂]; rfl)
    simp [Enabled, hentry]
  have h₂ : Sees s₂ .running (some 0) .block id [] [0] 2 := by
    rw [hs₂]
    refine { h₁ with callers := fun w hw => ?_ }
    rcases List.mem_append.1 hw with hw | hw
    · exact h₁.callers w hw
    · rw [List.mem_singleton.1 hw]
  have hw₂ : s₂.CallAt s₁.wakeups.length id .lock 0 := by
    rw [hs₂]
    exact List.getElem?_concat_length
  obtain ⟨s₃, hcalls, h₃⟩ := h₂.awaken hw₂
  obtain ⟨s₄, hrun₄, h₄, hwakeups₄⟩ := h₃.resume
  rw [hnext] at h₄
  refine ⟨s₄, ((hrun₁.trans hrun₂).trans hcalls.run).trans hrun₄, h₄,
    [⟨none, 0, id, .done true, 1⟩], ?_⟩
  rw [hwakeups₄, hcalls.wakeups, hs₂, ← hwakeups₁]
  simp

theorem Sees.rounds (h : Sees s .running (some 0) .runnable (2 * i % 2 ^ 64) [0] [] 2)
    (hr : Run machine anyAction State.initial s) (n : Nat) : ∃ s', Run machine anyAction s s' ∧
      Sees s' .running (some 0) .runnable (2 * (i + n) % 2 ^ 64) [0] [] 2 ∧
      ∃ ws, s'.wakeups = s.wakeups ++ ws := by
  induction n with
  | zero => exact ⟨s, .refl, h, [], (List.append_nil _).symm⟩
  | succ n ih =>
    obtain ⟨s₁, hrun₁, h₁, ws, hws⟩ := ih
    obtain ⟨s₂, hrun₂, h₂, ws', hws'⟩ := h₁.round (books_of_run (hr.trans hrun₁)).1
    refine ⟨s₂, hrun₁.trans hrun₂, h₂, ws ++ ws', ?_⟩
    rw [hws', hws, List.append_assoc]

end Sees

/-- A task suspends itself.  Two calls of `Wakeup` have the entry: the first one has not begun, and
the other one has got through. -/
def firstSuspension : List Action :=
  List.flatten [[.create 0], List.replicate 8 (.thread 0),
    [.suspend 0, .thread 0, .wake none 0 1, .wake none 0 1], List.replicate 6 (.wakeup 1),
    [.yield 0], List.replicate 5 (.thread 0)]

/-- After `2 ^ 63` more suspensions the first call gets through as well. -/
theorem old_entry_wakes : ∃ s s', Run machine anyAction State.initial s ∧
    Run machine anyAction s s' ∧ s.suspensions 0 = 1 ∧
    s.wakeups = [⟨none, 0, 1, .lock, 0⟩, ⟨none, 0, 1, .done true, 1⟩] ∧
    s'.wakeups[0]? = some ⟨none, 0, 1, .done true, 1⟩ ∧
    s'.wakeups[1]? = some ⟨none, 0, 1, .done true, 1⟩ := by
  have hexec : (machine.exec anyAction State.initial firstSuspension).any
      (fun s => decide ((s.place 0 = .running ∧ s.runningTask 0 = some 0 ∧
        s.taskState 0 = .runnable ∧ s.suspendId 0 = 2 ∧ s.queues (.runnable 0) = [0] ∧
        s.queues (.wait 0) = [] ∧ s.reference 0 = 2 ∧ s.proc 0 = some 0 ∧ s.nextTask 0 = none ∧
        s.stop = false) ∧ s.suspensions 0 = 1 ∧
        s.wakeups = [⟨none, 0, 1, .lock, 0⟩, ⟨none, 0, 1, .done true, 1⟩])) := by
    decide +kernel
  obtain ⟨s, hr, hdec⟩ := Run.exists_of_exec hexec
  obtain ⟨⟨hplace, hrunning, hstate, hid, hrunnable, hwait, hreference, hproc, hnext, hstop⟩,
    hsuspensions, hwakeups⟩ := of_decide_eq_true hdec
  have h : Sees s .running (some 0) .runnable (2 * 1 % 2 ^ 64) [0] [] 2 := by
    refine ⟨hplace, hrunning, hstate, hid, hrunnable, hwait, hreference, hproc, hnext, hstop, ?_⟩
    rw [hwakeups]
    simp
  obtain ⟨s₁, hr₁, h₁, ws, hws⟩ := h.rounds hr (2 ^ 63 - 1)
  obtain ⟨s₂, hr₂, h₂, hwakeups₂, -⟩ := h₁.sleep (books_of_run (hr.trans hr₁)).1
  have hall : s₂.wakeups = s.wakeups ++ ws := hwakeups₂.trans hws
  have hone : (2 * (1 + (2 ^ 63 - 1)) % 2 ^ 64 + 1) % 2 ^ 64 = 1 := by decide
  rw [hone] at h₂
  have hw : s₂.CallAt 0 1 .lock 0 := by
    unfold State.CallAt
    rw [hall, hwakeups]
    rfl
  obtain ⟨s₃, hcalls, -⟩ := h₂.awaken hw
  refine ⟨s, s₃, hr, (hr₁.trans hr₂).trans hcalls.run, hsuspensions, hwakeups, hcalls.get hw, ?_⟩
  rw [hcalls.wakeups, hall, hwakeups]
  rfl

end Costream.Scheduler
