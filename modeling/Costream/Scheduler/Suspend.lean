import Costream.Scheduler.Lifetime

/-!
# `Suspend` and `Wakeup`

A suspension makes the id of the task odd, and a `Wakeup` that gets through makes it even again.
The `i`-th suspension of a task has the id `2 * i + 1`, as long as there are not more than `2 ^ 63`.

* `State.suspensions` and `State.woken` count the suspensions of a task, and the calls of `Wakeup`
  that got through.  `Suspends` says that they take turns.
* `Kept` is a step that suspends and wakes nothing.  Most steps are (`kept_thread` and others).
-/

namespace Costream.Scheduler

open Trace Costream.Lists Costream.Tally

/-! ## Counts -/

/-- The call has run its functor, and returns true. -/
def WakeupPlace.success : WakeupPlace → Bool
  | .notify _ => true
  | .drop result | .done result => result
  | _ => false

/-- The functors that a call has run for the task, and for one of its suspensions. -/
def Wakeup.wakes (w : Wakeup) (t : Nat) : Nat := if w.task = t then w.ran else 0

def Wakeup.wakesFrom (w : Wakeup) (t id : Nat) : Nat := if w.task = t ∧ w.id = id then w.ran else 0

namespace State

variable (s : State) (t id : Nat)

/-- The suspensions of a task that have an entry. -/
def suspensions : Nat := s.entries.countP fun e => e.1 = t

def woken : Nat := tally (fun w => w.wakes t) s.wakeups

/-- The calls that got through with the entry `(t, id)`. -/
def wakings : Nat := tally (fun w => w.wakesFrom t id) s.wakeups

end State

/-- A list in which a task that is suspended, or woken up, can be. -/
def Queue.live : Queue → Bool
  | .runnable _ | .wait _ | .new _ | .stolen _ => true
  | _ => false

/-- No task is suspended more than `2 ^ 63` times. -/
def State.fewSuspensions (s : State) : Action → Bool
  | .suspend p => (s.runningTask p).all fun t => s.suspensions t < 2 ^ 63
  | _ => true

def FewSuspensions (s : State) (a : Action) : Prop := s.fewSuspensions a = true

instance (s : State) (a : Action) : Decidable (FewSuspensions s a) :=
  inferInstanceAs (Decidable (s.fewSuspensions a = true))

/-- What holds of a call of `Wakeup`.  A call that has passed its first check of the id, and whose
entry is still the last one, has the processor on which the task waits. -/
structure Call (s : State) (w : Wakeup) : Prop where
  id : ∃ i < s.suspensions w.task, w.id = 2 * i + 1
  ran : w.ran = if w.place.success then 1 else 0
  proc : ∀ p, w.place = .check p ∨ w.place = .locked p → w.id = s.suspendId w.task →
    s.proc w.task = some p

/-- No task is being suspended by the thread of a processor. -/
def State.Settled (s : State) (t : Nat) : Prop :=
  ∀ p, s.place p = .suspending → s.runningTask p ≠ some t

/-- The suspensions of a task and the calls of `Wakeup` that get through take turns. -/
structure Suspends (s : State) : Prop where
  entries : ∀ t, s.entries.filter (fun e => e.1 = t) =
    (List.range (s.suspensions t)).map fun i => (t, 2 * i + 1)
  calls : ∀ w ∈ s.wakeups, Call s w
  once : ∀ t i, s.wakings t (2 * i + 1) = if i < s.woken t then 1 else 0
  suspending : ∀ p t, s.place p = .suspending → s.runningTask p = some t →
    s.woken t = s.suspensions t ∧ s.suspendId t = 2 * s.suspensions t + 1
  suspended : ∀ p t, t ∈ s.queues (.wait p) → s.suspensions t = s.woken t + 1 ∧
    s.suspendId t = 2 * s.woken t + 1 ∧ s.proc t = some p
  awake : ∀ t < s.created, (∀ p, t ∉ s.queues (.wait p)) → s.Settled t →
    s.woken t = s.suspensions t ∧ s.suspendId t = 2 * s.suspensions t % 2 ^ 64
  placed : ∀ p t, s.place p = .running ∨ s.place p = .suspending → s.runningTask p = some t →
    s.proc t = some p
  held : ∀ t, s.taskState t = .block → ∃ q : Queue, q.live = true ∧ t ∈ s.queues q

variable {s s' : State} {p p' t u k n : Nat} {q q' : Queue} {w w' : Wakeup}

/-! ## Steps that suspend and wake nothing -/

/-- What runs, and what is being suspended, stays the same. -/
structure SameRunning (s s' : State) : Prop where
  suspending : ∀ p t, s'.place p = .suspending ∧ s'.runningTask p = some t ↔
    s.place p = .suspending ∧ s.runningTask p = some t
  running : ∀ p t, s'.place p = .running → s'.runningTask p = some t →
    s.place p = .running ∧ s.runningTask p = some t

/-- The counts stay as they are, and so do the ids, `waitQueue_` and what is being suspended. -/
structure Kept (s s' : State) : Prop extends SameRunning s s' where
  created : s'.created = s.created
  suspendId : s'.suspendId = s.suspendId
  proc : s'.proc = s.proc
  calls : ∀ w ∈ s'.wakeups, w ∈ s.wakeups ∨ Call s w
  woken : s'.woken = s.woken
  wakings : s'.wakings = s.wakings
  entries : s'.entries = s.entries
  wait : ∀ p, s'.queues (.wait p) = s.queues (.wait p)
  held : ∀ t, s'.taskState t = .block → s.taskState t = .block ∧
    ((∃ q : Queue, q.live = true ∧ t ∈ s.queues q) → ∃ q : Queue, q.live = true ∧ t ∈ s'.queues q)

theorem Kept.suspensions (h : Kept s s') (t : Nat) : s'.suspensions t = s.suspensions t := by
  rw [State.suspensions, h.entries, State.suspensions]

theorem Kept.call (h : Kept s s') : Call s' w ↔ Call s w := by
  have hsuspensions := h.suspensions w.task
  constructor
  · intro hc
    refine ⟨?_, hc.ran, ?_⟩
    · rw [← hsuspensions]
      exact hc.id
    · rw [← h.suspendId, ← h.proc]
      exact hc.proc
  · intro hc
    refine ⟨?_, hc.ran, ?_⟩
    · rw [hsuspensions]
      exact hc.id
    · rw [h.suspendId, h.proc]
      exact hc.proc

theorem SameRunning.settled (h : SameRunning s s') : s'.Settled t ↔ s.Settled t := by
  refine forall_congr' fun p => ?_
  rw [← not_and, ← not_and, h.suspending]

theorem Suspends.of_kept (h : Suspends s) (hk : Kept s s') : Suspends s' := by
  refine ⟨fun t => ?_, fun w hw => ?_, fun t i => ?_, fun p t hp hr => ?_, fun p t ht => ?_,
    fun t ht hwait hsettled => ?_, fun p t hp hr => ?_, fun t ht => ?_⟩
  · rw [hk.entries, hk.suspensions]
    exact h.entries t
  · rw [hk.call]
    exact (hk.calls w hw).elim (h.calls w) id
  · rw [hk.wakings, hk.woken]
    exact h.once t i
  · obtain ⟨hplace, hrunning⟩ := (hk.suspending p t).1 ⟨hp, hr⟩
    rw [hk.woken, hk.suspensions, hk.suspendId]
    exact h.suspending p t hplace hrunning
  · rw [hk.wait] at ht
    rw [hk.woken, hk.suspensions, hk.suspendId, hk.proc]
    exact h.suspended p t ht
  · rw [hk.created] at ht
    rw [hk.woken, hk.suspensions, hk.suspendId]
    refine h.awake t ht (fun p hmem => hwait p ?_) (hk.settled.1 hsettled)
    rw [hk.wait]
    exact hmem
  · rw [hk.proc]
    rcases hp with hp | hp
    · obtain ⟨hplace, hrunning⟩ := hk.running p t hp hr
      exact h.placed p t (.inl hplace) hrunning
    · obtain ⟨hplace, hrunning⟩ := (hk.suspending p t).1 ⟨hp, hr⟩
      exact h.placed p t (.inr hplace) hrunning
  · obtain ⟨hblock, hheld⟩ := hk.held t ht
    exact hheld (h.held t hblock)

/-- The part of a state that the counts are about. -/
def State.protocol (s : State) : State :=
  { State.initial with
    created := s.created
    taskState := s.taskState
    proc := s.proc
    suspendId := s.suspendId
    wakeups := s.wakeups
    entries := s.entries }

theorem SameRunning.refl (hplace : s'.place = s.place) (hrunning : s'.runningTask = s.runningTask) :
    SameRunning s s' := by
  refine ⟨fun p t => ?_, fun p t hp hr => ?_⟩
  · rw [hplace, hrunning]
  · rw [hplace] at hp
    rw [hrunning] at hr
    exact ⟨hp, hr⟩

theorem kept_of_protocol (heq : s'.protocol = s.protocol) (hsame : SameRunning s s')
    (hwait : ∀ p, s'.queues (.wait p) = s.queues (.wait p))
    (hlive : ∀ (q : Queue) t, q.live = true → s.taskState t = .block → t ∈ s.queues q →
      ∃ q' : Queue, q'.live = true ∧ t ∈ s'.queues q') : Kept s s' := by
  simp only [State.protocol, State.mk.injEq, true_and, and_true] at heq
  obtain ⟨hcreated, hstate, hproc, hsuspendId, hwakeups, hentries⟩ := heq
  refine ⟨hsame, hcreated, hsuspendId, hproc, fun w hw => ?_, funext fun t => ?_,
    funext fun t => funext fun id => ?_, hentries, hwait, fun t ht => ?_⟩
  · rw [hwakeups] at hw
    exact .inl hw
  · rw [State.woken, hwakeups, State.woken]
  · rw [State.wakings, hwakeups, State.wakings]
  · rw [hstate] at ht
    exact ⟨ht, fun ⟨q, hq, hmem⟩ => hlive q t hq ht hmem⟩

theorem sameRunning_of_thread (hp : s.place p ≠ .suspending)
    (hp' : s'.place p ≠ .suspending ∧ s'.place p ≠ .running)
    (hother : ∀ p' ≠ p, s'.place p' = s.place p' ∧ s'.runningTask p' = s.runningTask p') :
    SameRunning s s' := by
  refine ⟨fun r t => ?_, fun r t hr ht => ?_⟩
  · by_cases hr : r = p
    · subst hr
      exact iff_of_false (fun h => hp'.1 h.1) fun h => hp h.1
    · rw [(hother r hr).1, (hother r hr).2]
  · by_cases hrp : r = p
    · subst hrp
      exact absurd hr hp'.2
    · rw [(hother r hrp).1] at hr
      rw [(hother r hrp).2] at ht
      exact ⟨hr, ht⟩

theorem sameRunning_goto (hp : s.place p ≠ .suspending) {place : Place}
    (hplace : place ≠ .suspending ∧ place ≠ .running) : SameRunning s (s.goto p place) := by
  refine sameRunning_of_thread hp ?_ fun p' hne => ⟨Function.update_of_ne hne .., rfl⟩
  rw [goto_place]
  exact hplace

/-- A section that only concerns the thread. -/
theorem Still.kept (h : Still p s s') (hp : s.place p ≠ .suspending) : Kept s s' := by
  have hqueues : s'.queues = s.queues := by
    show (s'.outside p).queues = (s.outside p).queues
    rw [h.outside]
  refine kept_of_protocol ?_ (sameRunning_of_thread hp ?_ fun p' hne => h.other hne)
    (fun p' => by rw [hqueues]) fun q t hq _ ht => ⟨q, hq, by rw [hqueues]; exact ht⟩
  · show (s'.outside p).protocol = (s.outside p).protocol
    rw [h.outside]
  · have hsimple := h.simple
    constructor
    · intro hplace
      rw [hplace] at hsimple
      cases hsimple
    · intro hplace
      rw [hplace] at hsimple
      cases hsimple

/-- A list that is not `waitQueue_` changes, and keeps what it has of the tasks that are blocked. -/
theorem kept_setQueue (heq : s'.protocol = s.protocol) (hsame : SameRunning s s') {l : List Nat}
    (hqueues : s'.queues = (s.setQueue q l).queues) (hwait : ∀ p, q ≠ .wait p)
    (hlive : q.live = true → ∀ t ∈ s.queues q, s.taskState t = .block → t ∈ l) : Kept s s' := by
  refine kept_of_protocol heq hsame (fun p => ?_) fun r t hr hblock ht => ⟨r, hr, ?_⟩
  · rw [hqueues, setQueue_other (Ne.symm (hwait p))]
  · rw [hqueues]
    by_cases hrq : r = q
    · subst hrq
      rw [setQueue_self]
      exact hlive hr t ht hblock
    · rwa [setQueue_other hrq]

/-- Tasks go from a list to another one, and stay in a list. -/
theorem Swapped.held {xs ys : List Nat} (h : Swapped s s' q q' xs ys)
    (hlive : q.live = true ∧ q'.live = true) {r : Queue} (hr : r.live = true) (ht : t ∈ s.queues r) :
    ∃ r : Queue, r.live = true ∧ t ∈ s'.queues r := by
  by_cases hrq : r = q ∨ r = q'
  · have hboth : t ∈ s.queues q ∨ t ∈ s.queues q' := by
      rcases hrq with rfl | rfl
      · exact .inl ht
      · exact .inr ht
    rcases h.mem_iff.2 hboth with ht | ht
    · exact ⟨q, hlive.1, ht⟩
    · exact ⟨q', hlive.2, ht⟩
  · rw [not_or] at hrq
    exact ⟨r, hr, by rw [h.other hrq.1 hrq.2]; exact ht⟩

theorem Swapped.kept_live {xs ys : List Nat} (h : Swapped s s' q q' xs ys)
    (heq : s'.protocol = s.protocol) (hsame : SameRunning s s')
    (hwait : ∀ p, q ≠ .wait p ∧ q' ≠ .wait p) (hlive : q.live = true ∧ q'.live = true) :
    Kept s s' :=
  kept_of_protocol heq hsame (fun p => h.other (Ne.symm (hwait p).1) (Ne.symm (hwait p).2))
    fun _ _ hr _ ht => h.held hlive hr ht

/-! ### The thread of a processor -/

theorem Kept.trans {s'' : State} (h : Kept s s') (h' : Kept s' s'') : Kept s s'' where
  created := h'.created.trans h.created
  suspendId := h'.suspendId.trans h.suspendId
  proc := h'.proc.trans h.proc
  calls w hw := by
    rcases h'.calls w hw with hw | hc
    · exact h.calls w hw
    · exact .inr (h.call.1 hc)
  woken := h'.woken.trans h.woken
  wakings := h'.wakings.trans h.wakings
  entries := h'.entries.trans h.entries
  wait p := (h'.wait p).trans (h.wait p)
  suspending p t := (h'.suspending p t).trans (h.suspending p t)
  running p t hp hr := by
    obtain ⟨hp', hr'⟩ := h'.running p t hp hr
    exact h.running p t hp' hr'
  held t ht := by
    obtain ⟨hblock', hheld'⟩ := h'.held t ht
    obtain ⟨hblock, hheld⟩ := h.held t hblock'
    exact ⟨hblock, fun hq => hheld' (hheld hq)⟩

/-- What is not in the protocol changes. -/
theorem kept_same (heq : s'.protocol = s.protocol) (hqueues : s'.queues = s.queues)
    (hplace : s'.place = s.place) (hrunning : s'.runningTask = s.runningTask) : Kept s s' :=
  kept_of_protocol heq (.refl hplace hrunning) (fun p => by rw [hqueues])
    fun q t hq _ ht => ⟨q, hq, by rw [hqueues]; exact ht⟩

theorem kept_goto (hp : s.place p ≠ .suspending) {place : Place}
    (hplace : place ≠ .suspending ∧ place ≠ .running) : Kept s (s.goto p place) :=
  kept_of_protocol rfl (sameRunning_goto hp hplace) (fun _ => rfl)
    fun q _ hq _ ht => ⟨q, hq, ht⟩

theorem kept_decRef (s : State) (t : Nat) : Kept s (s.decRef t) := by
  obtain ⟨D, C, heq, -⟩ := exists_decRef_eq s t
  rw [heq]
  exact kept_same rfl rfl rfl rfl

theorem decRef_wakeups (s : State) (t : Nat) : (s.decRef t).wakeups = s.wakeups := by
  obtain ⟨D, C, heq, -⟩ := exists_decRef_eq s t
  rw [heq]

theorem decRef_place (s : State) (t : Nat) : (s.decRef t).place = s.place := by
  obtain ⟨D, C, heq, -⟩ := exists_decRef_eq s t
  rw [heq]

theorem kept_dropped {xs : List Nat} (hq : q.live = false) (hwait : ∀ p, q ≠ .wait p) :
    Kept s (s.setQueue q xs) :=
  kept_setQueue rfl (.refl rfl rfl) rfl hwait fun hlive => by
    rw [hq] at hlive
    cases hlive

theorem kept_push (hwait : ∀ p, q ≠ .wait p) (t : Nat) : Kept s (s.push q t) :=
  kept_setQueue (l := s.queues q ++ [t]) rfl (.refl rfl rfl) rfl hwait
    fun _ _ hu _ => List.mem_append_left _ hu

/-- What is erased is not blocked. -/
theorem kept_erase (hwait : ∀ p, q ≠ .wait p) (ht : s.taskState t ≠ .block)
    (hs : s.erase q t = some s') : Kept s s' := by
  obtain ⟨s₁, hs₁, rfl⟩ := Option.map_eq_some_iff.1 hs
  refine Kept.trans ?_ (kept_decRef s₁ t)
  unfold State.unlink at hs₁
  split at hs₁
  · cases hs₁
    refine kept_setQueue (l := (s.queues q).erase t) rfl (.refl rfl rfl) rfl hwait
      fun _ u hu hblock => ?_
    have hut : u ≠ t := by
      rintro rfl
      exact ht hblock
    exact (List.mem_erase_of_ne hut).2 hu
  · cases hs₁

theorem erase_place (hs : s.erase q t = some s') : s'.place = s.place := by
  obtain ⟨s₁, hs₁, rfl⟩ := Option.map_eq_some_iff.1 hs
  rw [decRef_place]
  unfold State.unlink at hs₁
  split at hs₁
  · cases hs₁
    rfl
  · cases hs₁

/-- What a section does that suspends nothing, and does not begin to run a task. -/
theorem kept_thread (hlinks : Links s) (he : Enabled s (.thread p) = true)
    (hp : s.place p ≠ .suspending ∧ s.place p ≠ .swapIn) (hs : s.thread p = some s') :
    Kept s s' := by
  cases hplace : s.place p with
  | adding after n =>
    rw [State.thread, hplace, Option.some.injEq] at hs
    subst hs
    unfold State.adding
    split
    · rename_i n t rest hup
      have htaken : Kept s (s.setQueue (.up p) rest) := kept_dropped rfl (by simp)
      have hnot : ∀ r, Queue.runnable p ≠ .wait r := fun r => by simp
      have hpush := kept_push (s := s.setQueue (.up p) rest) hnot t
      refine (htaken.trans hpush).trans (kept_goto ?_ (by simp))
      exact hp.1
    · exact kept_goto hp.1 (by cases after <;> decide)
  | pop after =>
    rw [State.thread, hplace, Option.some.injEq] at hs
    subst hs
    have hgarbage : Kept s (s.setQueue (.garbage p) (s.queues (.gc p))) := kept_dropped rfl (by simp)
    have hgc : Kept s ((s.setQueue (.garbage p) (s.queues (.gc p))).setQueue (.gc p) []) :=
      hgarbage.trans (kept_dropped rfl (by simp))
    refine hgc.trans (kept_goto ?_ (by simp))
    exact hp.1
  | release after rest =>
    rw [State.thread, hplace, Option.some.injEq] at hs
    subst hs
    cases rest with
    | nil => exact kept_goto hp.1 (by simp)
    | cons t rest =>
      have hcollected : Kept s { s with collected := Function.update s.collected t true } :=
        kept_same rfl rfl rfl rfl
      refine (hcollected.trans (kept_decRef _ t)).trans (kept_goto ?_ (by simp))
      rw [decRef_place]
      exact hp.1
  | clear after =>
    rw [State.thread, hplace, Option.some.injEq] at hs
    subst hs
    unfold State.clear
    split
    · exact kept_goto hp.1 (by cases after <;> decide)
    · rename_i t rest hlist
      have hrest : Kept s (s.setQueue (.garbage p) rest) := kept_dropped rfl (by simp)
      refine (hrest.trans (kept_decRef _ t)).trans (kept_goto ?_ (by simp))
      rw [decRef_place]
      exact hp.1
  | swapIn => exact absurd hplace hp.2
  | suspending => exact absurd hplace hp.1
  | erase =>
    rw [State.thread, hplace] at hs
    obtain ⟨t, hr, heq⟩ := Option.bind_eq_some_iff.1 hs
    obtain ⟨s₁, hs₁, rfl⟩ := Option.map_eq_some_iff.1 heq
    have hdone : s.taskState t = .done :=
      (hlinks.seated p).state _ (by rw [hplace]; rfl) t hr
    have hnot : ∀ r, Queue.runnable p ≠ .wait r := fun r => by simp
    refine (kept_erase hnot (by rw [hdone]; decide) hs₁).trans (kept_goto ?_ ?_)
    · rw [erase_place hs₁]
      exact hp.1
    · split <;> simp
  | push =>
    rw [State.thread, hplace] at hs
    obtain ⟨t, hr, rfl⟩ := Option.map_eq_some_iff.1 hs
    have hnot : ∀ r, Queue.gc p ≠ .wait r := fun r => by simp
    refine (kept_push hnot t).trans (kept_goto ?_ (by simp))
    exact hp.1
  | _ => exact (still_thread hlinks (by rw [hplace]; rfl) he hs).kept hp.1

/-! ### The other calls -/

theorem kept_notifyAll (s : State) (p : Nat) : Kept s (s.notifyAll p) := by
  unfold State.notifyAll
  split
  · rename_i hplace
    exact kept_goto (by rw [hplace]; nofun) ⟨nofun, nofun⟩
  · exact kept_same rfl rfl rfl rfl

theorem kept_notifyCondition (s : State) (p : Nat) : Kept s (s.notifyCondition p) := by
  unfold State.notifyCondition
  split
  · exact kept_notifyAll s p
  · exact kept_same rfl rfl rfl rfl

theorem kept_adder (s : State) (k : Nat) (a : Adder) : Kept s (s.adder k a) := by
  unfold State.adder
  split
  · exact kept_same rfl rfl rfl rfl
  · exact (kept_notifyAll s a.proc).trans (kept_same rfl rfl rfl rfl)
  · exact kept_same rfl rfl rfl rfl
  · exact kept_same rfl rfl rfl rfl

end Costream.Scheduler
