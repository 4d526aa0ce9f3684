import Costream.Scheduler.Stolen

/-!
# Woken tasks are not left behind

`WakeupBySelf` calls `NotifyCondition` only when its task is the first one in `runnableQueue_`,
and not when it runs on the processor itself.  The processor reads `notified_` under another lock,
after it has found `runnableQueue_` empty and has collected its garbage.

* `Heard` says that a notification has arrived, or that a call of `WakeupBySelf` will still make
  one.
* `Awake` is the invariant of one processor.
-/

namespace Costream.Scheduler

open Trace Costream.Lists

/-- What the thread does, as far as the condition variable is concerned.  In the window it has found
`runnableQueue_` empty, and has not looked at `notified_` yet. -/
inductive Phase where
  | busy
  | window
  | blocked
  | woken
  deriving DecidableEq

def AfterGC.phase : AfterGC → Phase
  | .condition => .window
  | .push => .busy

def Place.phase : Place → Phase
  | .pop after | .release after _ | .clear after => after.phase
  | .condition => .window
  | .blocked => .blocked
  | .woken => .woken
  | _ => .busy

variable {s s' : State} {p p' t k n : Nat} {q : Queue}

/-- A call of `WakeupBySelf` on `p` has still to call `NotifyCondition`. -/
def Pending (s : State) (p : Nat) : Prop := ∃ w ∈ s.wakeups, w.place = .notify p

/-- The invariant of the processor `p`. -/
structure Awake (s : State) (p : Nat) : Prop where
  waiting : s.waiting p = true ↔ (s.place p).phase = .blocked ∨ (s.place p).phase = .woken
  caller : ∀ w ∈ s.wakeups, w.caller = some p → (∀ result, w.place ≠ .done result) →
    s.place p = .running
  window : (s.place p).phase = .window → s.queues (.runnable p) ≠ [] →
    s.notified p = true ∨ Pending s p
  blocked : (s.place p).phase = .blocked → s.queues (.runnable p) ≠ [] → Pending s p

theorem awake_initial (p : Nat) : Awake State.initial p := by
  constructor <;> simp [State.initial, Place.phase]

/-! ## Steps of others -/

/-- Nothing changes for the processor, but that `runnableQueue_` may lose tasks. -/
theorem Awake.of_same (h : Awake s p) (hplace : s'.place p = s.place p)
    (hwaiting : s'.waiting p = s.waiting p) (hnotified : s'.notified p = s.notified p)
    (hwakeups : s'.wakeups = s.wakeups)
    (hrunnable : s'.queues (.runnable p) ≠ [] → s.queues (.runnable p) ≠ []) : Awake s' p := by
  constructor
  · rw [hwaiting, hplace]
    exact h.waiting
  · rw [hwakeups, hplace]
    exact h.caller
  · intro hwindow hne
    rw [hplace] at hwindow
    unfold Pending
    rw [hnotified, hwakeups]
    exact h.window hwindow (hrunnable hne)
  · intro hblocked hne
    rw [hplace] at hblocked
    unfold Pending
    rw [hwakeups]
    exact h.blocked hblocked (hrunnable hne)

theorem Awake.of_leaves (h : Awake s p) (hl : Leaves p' s s') (hne : p ≠ p') : Awake s' p := by
  have hrunnable : s'.queues (.runnable p) = s.queues (.runnable p) :=
    hl.queues _ (by simpa [Queue.isOf] using hne.symm) (by simp)
  refine h.of_same (hl.place p hne) (hl.waiting p hne) (hl.notified p hne) hl.wakeups ?_
  rw [hrunnable]
  exact id

theorem Awake.of_frame (h : Awake s p) (heq : s'.frame = s.frame) : Awake s' p :=
  h.of_leaves (Leaves.of_frame (p := p + 1) heq) (by omega)

/-! ## Notifications -/

/-- After a notification the thread is not blocked, and sees the flag. -/
structure Notified (s : State) (p : Nat) : Prop where
  window : (s.place p).phase = .window → s.notified p = true
  blocked : (s.place p).phase ≠ .blocked

theorem notifyAll_place_self (hb : s.place p = .blocked) : (s.notifyAll p).place p = .woken := by
  rw [State.notifyAll, if_pos hb, goto_place]

theorem notifyAll_place_other (hne : p ≠ p') : (s.notifyAll p').place p = s.place p := by
  unfold State.notifyAll
  split
  · exact Function.update_of_ne hne ..
  · rfl

theorem notifyAll_rest (s : State) (p : Nat) : (s.notifyAll p).waiting = s.waiting ∧
    (s.notifyAll p).notified = s.notified ∧ (s.notifyAll p).wakeups = s.wakeups ∧
    (s.notifyAll p).queues = s.queues := by
  unfold State.notifyAll
  split <;> exact ⟨rfl, rfl, rfl, rfl⟩

theorem phase_blocked_iff {place : Place} : place.phase = .blocked ↔ place = .blocked := by
  cases place with
  | pop after | release after _ | clear after => cases after <;> simp [Place.phase, AfterGC.phase]
  | _ => simp [Place.phase]

theorem phase_woken_iff {place : Place} : place.phase = .woken ↔ place = .woken := by
  cases place with
  | pop after | release after _ | clear after => cases after <;> simp [Place.phase, AfterGC.phase]
  | _ => simp [Place.phase]

theorem Awake.notifyAll (h : Awake s p) (p' : Nat) : Awake (s.notifyAll p') p := by
  obtain ⟨hwaiting, hnotified, hwakeups, hqueues⟩ := notifyAll_rest s p'
  by_cases hb : p = p' ∧ s.place p = .blocked
  · obtain ⟨rfl, hb⟩ := hb
    have hplace := notifyAll_place_self hb
    constructor
    · rw [hwaiting, h.waiting, hplace, hb]
      simp [Place.phase]
    · intro w hw hcaller hopen
      rw [hwakeups] at hw
      have := h.caller w hw hcaller hopen
      rw [hb] at this
      cases this
    · rw [hplace]
      exact fun hwindow => by cases hwindow
    · rw [hplace]
      exact fun hblocked => by cases hblocked
  · have hplace : (s.notifyAll p').place p = s.place p := by
      by_cases hp : p = p'
      · subst hp
        rw [State.notifyAll, if_neg fun hplace => hb ⟨rfl, hplace⟩]
      · exact notifyAll_place_other hp
    refine h.of_same hplace (by rw [hwaiting]) (by rw [hnotified]) hwakeups ?_
    rw [hqueues]
    exact id

theorem Awake.setNotified (h : Awake s p) (p' : Nat) :
    Awake { s with notified := Function.update s.notified p' true } p := by
  refine ⟨h.waiting, h.caller, fun hwindow hne => ?_, h.blocked⟩
  by_cases hp : p = p'
  · subst hp
    exact .inl (Function.update_self ..)
  · refine (h.window hwindow hne).imp_left fun hnotified => ?_
    exact (Function.update_of_ne hp ..).trans hnotified

theorem Awake.notifyCondition (h : Awake s p) (p' : Nat) : Awake (s.notifyCondition p') p := by
  unfold State.notifyCondition
  split
  · exact h.notifyAll p'
  · exact h.setNotified p'

theorem Awake.notified (h : Awake s p) : Notified (s.notifyCondition p) p := by
  unfold State.notifyCondition
  split
  · rename_i hwaiting
    rcases h.waiting.1 hwaiting with hb | hw
    · have hplace := notifyAll_place_self (phase_blocked_iff.1 hb)
      constructor
      · rw [hplace]
        exact fun hwindow => by cases hwindow
      · rw [hplace]
        exact fun hblocked => by cases hblocked
    · have hne : s.place p ≠ .blocked := by
        intro hb
        rw [hb] at hw
        cases hw
      rw [State.notifyAll, if_neg hne]
      constructor
      · rw [hw]
        exact fun hwindow => by cases hwindow
      · rw [hw]
        exact fun hblocked => by cases hblocked
  · rename_i hwaiting
    refine ⟨fun _ => Function.update_self .., fun hb => hwaiting ?_⟩
    exact h.waiting.2 (.inl hb)

/-! ## Calls of `Wakeup` -/

/-- The `k`-th call goes on.  Its notification of `p` is not lost by that. -/
theorem Awake.setWakeup (h : Awake s p) {w w' : Wakeup} (hk : s.wakeups[k]? = some w)
    (hcaller : w'.caller = w.caller) (hopen : ∀ result, w.place ≠ .done result)
    (hkeep : w.place ≠ .notify p ∨ Notified s p) : Awake (s.setWakeup k w') p := by
  have hpending : w.place ≠ .notify p → Pending s p → Pending (s.setWakeup k w') p := by
    rintro hne ⟨v, hv, hplace⟩
    obtain ⟨j, hj, hget⟩ := List.mem_iff_getElem.1 hv
    have hjk : k ≠ j := by
      rintro rfl
      rw [List.getElem?_eq_getElem hj, hget, Option.some.injEq] at hk
      exact hne (hk ▸ hplace)
    refine ⟨v, ?_, hplace⟩
    have hlen : j < (s.wakeups.set k w').length := by rwa [List.length_set]
    have hset : (s.wakeups.set k w')[j] = v := by rw [List.getElem_set_of_ne hjk, hget]
    exact hset ▸ List.getElem_mem hlen
  refine ⟨h.waiting, fun v hv hc hv' => ?_, fun hwindow hne => ?_, fun hblocked hne => ?_⟩
  · rcases List.mem_or_eq_of_mem_set hv with hv | rfl
    · exact h.caller v hv hc hv'
    · exact h.caller w (List.mem_of_getElem? hk) (hcaller ▸ hc) hopen
  · rcases hkeep with hkeep | hkeep
    · exact (h.window hwindow hne).imp_right (hpending hkeep)
    · exact .inl (hkeep.window hwindow)
  · rcases hkeep with hkeep | hkeep
    · exact hpending hkeep (h.blocked hblocked hne)
    · exact absurd hblocked hkeep.blocked

/-- A woken task comes to `runnableQueue_`. -/
theorem Awake.awaken (h : Awake s p) {w w' : Wakeup} (hk : s.wakeups[k]? = some w)
    (hplace : w.place = .locked p') (hcaller : w'.caller = w.caller)
    (hplace' : w'.place = if s.queues (.runnable p') = [] ∧ w.caller ≠ some p' then .notify p'
      else .drop true) : Awake ((s.awaken p' w.task).setWakeup k w') p := by
  have hopen : ∀ result, w.place ≠ .done result := by
    rw [hplace]
    simp
  by_cases hp : p = p'
  · subst hp
    by_cases hempty : s.queues (.runnable p) = []
    · by_cases hself : w.caller = some p
      · have hrunning := h.caller w (List.mem_of_getElem? hk) hself hopen
        have hplaceS : ((s.awaken p w.task).setWakeup k w').place p = .running := hrunning
        refine ⟨h.waiting, fun v _ _ _ => hplaceS, fun hwindow => ?_, fun hblocked => ?_⟩
        · rw [hplaceS] at hwindow
          cases hwindow
        · rw [hplaceS] at hblocked
          cases hblocked
      · rw [if_pos ⟨hempty, hself⟩] at hplace'
        have hpending : Pending ((s.awaken p w.task).setWakeup k w') p := by
          obtain ⟨hlt, -⟩ := List.getElem?_eq_some_iff.1 hk
          exact ⟨w', List.mem_set hlt w', hplace'⟩
        refine ⟨h.waiting, fun v hv hc hv' => ?_, fun _ _ => .inr hpending, fun _ _ => hpending⟩
        rcases List.mem_or_eq_of_mem_set hv with hv | rfl
        · exact h.caller v hv hc hv'
        · exact absurd (hcaller.symm.trans hc) hself
    · have hs : Awake (s.awaken p w.task) p :=
        h.of_same rfl rfl rfl rfl fun _ => hempty
      exact hs.setWakeup hk hcaller hopen (.inl (by simp [hplace]))
  · have hs : Awake (s.awaken p' w.task) p := by
      refine h.of_same rfl rfl rfl rfl ?_
      rw [awaken_other s p' w.task (by simp) (by simpa using hp)]
      exact id
    exact hs.setWakeup hk hcaller hopen (.inl (by simp [hplace]))

theorem Awake.wakeup (h : Awake s p) {w : Wakeup} (hk : s.wakeups[k]? = some w)
    (hs : s.wakeup k w = some s') : Awake s' p := by
  unfold State.wakeup at hs
  split at hs
  case h_1 hplace =>
    cases hs
    split
    · exact h.setWakeup hk rfl (by simp [hplace]) (.inl (by simp [hplace]))
    · have hinc : Awake (s.incRef w.task) p := h.of_same rfl rfl rfl rfl id
      exact hinc.setWakeup hk rfl (by simp [hplace]) (.inl (by simp [hplace]))
  case h_2 hplace | h_3 hplace =>
    cases hs
    exact h.setWakeup hk rfl (by simp [hplace]) (.inl (by simp [hplace]))
  case h_4 p' hplace =>
    rcases wakeupBySelf_cases hs with ⟨-, rfl⟩ | ⟨-, -, rfl⟩
    · exact h.setWakeup hk rfl (by simp [hplace]) (.inl (by simp [hplace]))
    · exact h.awaken hk hplace rfl rfl
  case h_5 p' hplace =>
    cases hs
    have hwakeups : (s.notifyCondition p').wakeups[k]? = some w := by
      rw [notifyCondition_wakeups, hk]
    refine (h.notifyCondition p').setWakeup hwakeups rfl (by simp [hplace]) ?_
    by_cases hp : p = p'
    · subst hp
      exact .inr h.notified
    · exact .inl (by simpa [hplace] using Ne.symm hp)
  case h_6 result hplace =>
    cases hs
    have hdec := frame_decRef s w.task
    have hwakeups := (Leaves.of_frame (p := p) hdec).wakeups
    have hget : (s.decRef w.task).wakeups[k]? = some w := by rw [hwakeups, hk]
    exact (h.of_frame hdec).setWakeup hget rfl (by simp [hplace]) (.inl (by simp [hplace]))
  case h_7 =>
    cases hs
    exact h

/-! ## The thread of the processor -/

/-- Where `front` goes. -/
theorem front_place (s : State) (p : Nat) (empty : Place) :
    (s.front p empty).waiting = s.waiting ∧ (s.front p empty).queues = s.queues ∧
      (s.front p empty).place p = if s.queues (.runnable p) = [] then empty else .inner := by
  obtain ⟨check, hmark⟩ := exists_mark_eq s (.runnable p) (s.queues (.runnable p)).head?
  unfold State.front
  dsimp only
  rw [hmark]
  cases hq : s.queues (.runnable p) with
  | nil => exact ⟨rfl, rfl, Function.update_self ..⟩
  | cons t rest => exact ⟨rfl, rfl, Function.update_self ..⟩

theorem proceed_phase (s : State) (p : Nat) (task : Option Nat) :
    ((s.proceed p task).place p).phase = .busy := by
  unfold State.proceed
  rw [goto_place]
  split <;> rfl

theorem afterAdd_phase (after : AfterAdd) : after.place.phase = .busy := by
  cases after <;> rfl

theorem afterGC_phase (after : AfterGC) : after.place.phase = after.phase := by
  cases after <;> rfl

/-- What a section of the busy thread leads to. -/
structure Busy (s s' : State) (p : Nat) : Prop where
  waiting : s'.waiting = s.waiting
  phase : (s'.place p).phase = .busy ∨
    (s'.place p).phase = .window ∧ s'.queues (.runnable p) = []

theorem busy_goto (hwaiting : s'.waiting = s.waiting) {place : Place} (hbusy : place.phase = .busy) :
    Busy s (s'.goto p place) p :=
  ⟨hwaiting, .inl (by rw [goto_place, hbusy])⟩

theorem decRef_waiting (s : State) (t : Nat) : (s.decRef t).waiting = s.waiting := by
  unfold State.decRef
  dsimp only
  split <;> rfl

theorem mark_waiting (s : State) (q : Queue) (out : Option Nat) :
    (s.mark q out).waiting = s.waiting := by
  cases out <;> rfl

theorem unlink_waiting (hs : s.unlink q t = some s') : s'.waiting = s.waiting := by
  unfold State.unlink at hs
  split at hs
  · cases hs
    rfl
  · cases hs

theorem busy_caseRunnable (s : State) (p t : Nat) : Busy s (s.caseRunnable p t) p := by
  unfold State.caseRunnable
  split
  · exact ⟨rfl, .inl (proceed_phase _ p _)⟩
  · split
    · exact ⟨rfl, .inl (proceed_phase _ p _)⟩
    · exact busy_goto rfl rfl

theorem busy_takeNext (s : State) (p : Nat) : Busy s (s.takeNext p) p :=
  ⟨rfl, .inl (proceed_phase s p (s.nextTask p))⟩

theorem toNext_waiting (hs : s.toNext p = some s') : s'.waiting = s.waiting := by
  obtain ⟨t, -, rfl⟩ := Option.map_eq_some_iff.1 hs
  exact mark_waiting s _ (next (s.queues (.runnable p)) t)

/-- A section of the busy thread. -/
theorem thread_busy (hbusy : (s.place p).phase = .busy) (hs : s.thread p = some s') :
    Busy s s' p := by
  cases hplace : s.place p with
  | loop | inner =>
    rw [State.thread, hplace, Option.some.injEq] at hs
    subst hs
    refine busy_goto rfl ?_
    split <;> rfl
  | front | frontAgain =>
    rw [State.thread, hplace, Option.some.injEq] at hs
    subst hs
    obtain ⟨hwaiting, hqueues, hfront⟩ := front_place s p _
    refine ⟨hwaiting, ?_⟩
    rw [hfront, hqueues]
    split
    · rename_i hempty
      first | exact .inl rfl | exact .inr ⟨rfl, hempty⟩
    · exact .inl rfl
  | addNew after =>
    rw [State.thread, hplace, Option.some.injEq] at hs
    subst hs
    exact busy_goto (by rfl) (by rfl)
  | adding after n =>
    rw [State.thread, hplace, Option.some.injEq] at hs
    subst hs
    unfold State.adding
    split
    · exact busy_goto (by rfl) (by rfl)
    · exact busy_goto rfl (afterAdd_phase after)
  | pop after =>
    rw [State.thread, hplace, Option.some.injEq] at hs
    rw [hplace] at hbusy
    subst hs
    exact busy_goto (by rfl) (by exact hbusy)
  | release after rest =>
    rw [State.thread, hplace, Option.some.injEq] at hs
    rw [hplace] at hbusy
    subst hs
    cases rest with
    | nil => exact busy_goto (by rfl) (by exact hbusy)
    | cons t rest => exact busy_goto (by exact decRef_waiting _ t) (by exact hbusy)
  | clear after =>
    rw [State.thread, hplace, Option.some.injEq] at hs
    rw [hplace] at hbusy
    subst hs
    unfold State.clear
    split
    · exact busy_goto rfl ((afterGC_phase after).trans hbusy)
    · exact busy_goto (by exact decRef_waiting _ _) (by exact hbusy)
  | condition | blocked | woken =>
    rw [hplace] at hbusy
    cases hbusy
  | swapIn =>
    rw [State.thread, hplace] at hs
    obtain ⟨t, -, rfl⟩ := Option.map_eq_some_iff.1 hs
    exact busy_goto (by rfl) (by rfl)
  | running | stopped =>
    rw [State.thread, hplace, Option.some.injEq] at hs
    subst hs
    exact ⟨rfl, .inl hbusy⟩
  | suspending =>
    rw [State.thread, hplace] at hs
    obtain ⟨t, -, hs⟩ := Option.bind_eq_some_iff.1 hs
    obtain ⟨u, hu, rfl⟩ := Option.map_eq_some_iff.1 hs
    refine busy_goto ?_ rfl
    exact (unlink_waiting hu).trans (mark_waiting s _ (next _ t))
  | switch =>
    rw [State.thread, hplace] at hs
    obtain ⟨t, -, rfl⟩ := Option.map_eq_some_iff.1 hs
    split
    · exact busy_caseRunnable s p t
    · exact busy_takeNext s p
    · exact busy_goto (by rfl) (by rfl)
  | nextRunnable =>
    rw [State.thread, hplace] at hs
    obtain ⟨t, -, rfl⟩ := Option.map_eq_some_iff.1 hs
    exact ⟨mark_waiting s _ (next _ t), .inl (proceed_phase _ p _)⟩
  | next | nextAgain =>
    rw [State.thread, hplace] at hs
    obtain ⟨u, hu, rfl⟩ := Option.map_eq_some_iff.1 hs
    refine busy_goto ?_ ?_
    · show u.waiting = s.waiting
      exact toNext_waiting hu
    · first | rfl | split <;> rfl
  | erase =>
    rw [State.thread, hplace] at hs
    obtain ⟨t, -, hs⟩ := Option.bind_eq_some_iff.1 hs
    obtain ⟨u, hu, rfl⟩ := Option.map_eq_some_iff.1 hs
    obtain ⟨v, hv, rfl⟩ := Option.map_eq_some_iff.1 hu
    refine busy_goto ?_ ?_
    · exact (decRef_waiting v t).trans (unlink_waiting hv)
    · split <;> rfl
  | push =>
    rw [State.thread, hplace] at hs
    obtain ⟨t, -, rfl⟩ := Option.map_eq_some_iff.1 hs
    exact busy_goto (by rfl) (by rfl)
  | finish =>
    rw [State.thread, hplace, Option.some.injEq] at hs
    subst hs
    exact busy_takeNext s p

/-- A section of the thread in `WaitCondition`, up to its wait. -/
structure Collects (s s' : State) (p : Nat) : Prop where
  waiting : s'.waiting = s.waiting
  notified : s'.notified = s.notified
  phase : (s'.place p).phase = .window
  runnable : s'.queues (.runnable p) = s.queues (.runnable p)

theorem decRef_notified (s : State) (t : Nat) : (s.decRef t).notified = s.notified := by
  unfold State.decRef
  dsimp only
  split <;> rfl

theorem decRef_queues (s : State) (t : Nat) : (s.decRef t).queues = s.queues := by
  unfold State.decRef
  dsimp only
  split <;> rfl

theorem collects_of_decRef (hcollects : Collects s s' p) (t : Nat) {place : Place}
    (hplace : place.phase = .window) : Collects s ((s'.decRef t).goto p place) p := by
  refine ⟨(decRef_waiting s' t).trans hcollects.waiting,
    (decRef_notified s' t).trans hcollects.notified, by rw [goto_place, hplace], ?_⟩
  show (s'.decRef t).queues (.runnable p) = _
  rw [decRef_queues]
  exact hcollects.runnable

theorem thread_window (hwindow : (s.place p).phase = .window) (hs : s.thread p = some s') :
    Collects s s' p ∨ s.place p = .condition ∧ s' = s.condition p := by
  cases hplace : s.place p with
  | condition =>
    rw [State.thread, hplace, Option.some.injEq] at hs
    exact .inr ⟨rfl, hs.symm⟩
  | pop after =>
    rw [State.thread, hplace, Option.some.injEq] at hs
    rw [hplace] at hwindow
    subst hs
    refine .inl ⟨rfl, rfl, ?_, ?_⟩
    · rw [State.popAll, goto_place]
      exact hwindow
    · show ((s.setQueue (.garbage p) (s.queues (.gc p))).setQueue (.gc p) []).queues
        (.runnable p) = s.queues (.runnable p)
      rw [setQueue_other (by simp), setQueue_other (by simp)]
  | release after rest =>
    rw [State.thread, hplace, Option.some.injEq] at hs
    have hphase := hwindow
    rw [hplace] at hphase
    subst hs
    cases rest with
    | nil => exact .inl ⟨rfl, rfl, by rw [State.release, goto_place]; exact hphase, rfl⟩
    | cons t rest =>
      have hsame : Collects s { s with collected := Function.update s.collected t true } p :=
        ⟨rfl, rfl, hwindow, rfl⟩
      exact .inl (collects_of_decRef hsame t hphase)
  | clear after =>
    rw [State.thread, hplace, Option.some.injEq] at hs
    have hphase := hwindow
    rw [hplace] at hphase
    subst hs
    unfold State.clear
    split
    · exact .inl ⟨rfl, rfl, by rw [goto_place, afterGC_phase]; exact hphase, rfl⟩
    · rename_i t rest _
      have hset : Collects s (s.setQueue (.garbage p) rest) p :=
        ⟨rfl, rfl, hwindow, setQueue_other (by simp)⟩
      exact .inl (collects_of_decRef hset t hphase)
  | _ =>
    rw [hplace] at hwindow
    cases hwindow

/-! ## `Steal` -/

/-- `Steal` brings no task to a `runnableQueue_` that is empty. -/
theorem Links.stealt_nil (h : Links s) {p' : Nat} (hempty : s.queues (.runnable p) = []) :
    (s.stealt k p' n).queues (.runnable p) = [] := by
  by_cases hp : p = p'
  · subst hp
    rw [List.eq_nil_iff_forall_not_mem]
    intro t ht
    have hmem := (h.stealt_perm (p := p) (n := n - (s.queues (.stolen k)).length) []).mem_iff.1
      (List.mem_append_left _ (stealt_runnable k p n s ▸ ht))
    simp [hempty] at hmem
  · rw [stealt_other k p' n s (by simpa using hp) (by simp), hempty]

/-! ## Every step -/

/-- No coroutine of the processor is in a call of `Wakeup`. -/
theorem Awake.no_caller (h : Awake s p) (hplace : s.place p ≠ .running) {w : Wakeup}
    (hw : w ∈ s.wakeups) (hcaller : w.caller = some p) : ∃ result, w.place = .done result := by
  by_contra hopen
  exact hplace (h.caller w hw hcaller fun result hdone => hopen ⟨result, hdone⟩)

theorem Awake.condition (h : Awake s p) (hplace : s.place p = .condition) :
    Awake (s.condition p) p := by
  have hcaller : ∀ w ∈ s.wakeups, w.caller = some p → (∀ result, w.place ≠ .done result) → False := by
    intro w hw hc hopen
    obtain ⟨result, hdone⟩ := h.no_caller (by simp [hplace]) hw hc
    exact hopen result hdone
  have hwaiting : s.waiting p ≠ true := by
    rw [ne_eq, h.waiting, hplace]
    simp [Place.phase]
  unfold State.condition
  split
  · refine ⟨?_, fun w hw hc ho => (hcaller w hw hc ho).elim, ?_, ?_⟩
    all_goals rw [goto_place]
    · exact ⟨fun hw => absurd hw hwaiting, fun hor => by simp [Place.phase] at hor⟩
    · exact fun hwindow => by cases hwindow
    · exact fun hblocked => by cases hblocked
  · rename_i hnotified
    refine ⟨?_, fun w hw hc ho => (hcaller w hw hc ho).elim, ?_, fun _ hne => ?_⟩
    · rw [goto_place]
      exact ⟨fun _ => .inl rfl, fun _ => Function.update_self ..⟩
    · rw [goto_place]
      exact fun hwindow => by cases hwindow
    · have hwindow : (s.place p).phase = .window := by rw [hplace]; rfl
      exact (h.window hwindow hne).resolve_left hnotified

/-- The thread of the processor goes on. -/
theorem Awake.thread (h : Awake s p) (he : Enabled s (.thread p) = true)
    (hs : s.thread p = some s') : Awake s' p := by
  simp only [Enabled, ne_eq, Bool.and_eq_true, decide_eq_true_eq] at he
  obtain ⟨⟨hblocked, hrunning⟩, -⟩ := he
  have hl := leaves_thread hs
  have hcaller : ∀ w ∈ s'.wakeups, w.caller = some p → (∀ result, w.place ≠ .done result) →
      s'.place p = .running := by
    intro w hw hc hopen
    rw [hl.wakeups] at hw
    obtain ⟨result, hdone⟩ := h.no_caller (by simpa using hrunning) hw hc
    exact absurd hdone (hopen result)
  have hpending : Pending s p → Pending s' p := by
    rintro ⟨w, hw, hplace⟩
    exact ⟨w, hl.wakeups ▸ hw, hplace⟩
  cases hphase : (s.place p).phase with
  | busy =>
    obtain ⟨hwaiting, hphase'⟩ := thread_busy hphase hs
    have hnot : s'.waiting p ≠ true := by
      rw [hwaiting, ne_eq, h.waiting, hphase]
      simp
    refine ⟨⟨fun hw => absurd hw hnot, fun hor => ?_⟩, hcaller, fun hwindow hne => ?_,
      fun hblocked => ?_⟩
    · rcases hphase' with hb | ⟨hw, -⟩
      · simp [hb] at hor
      · simp [hw] at hor
    · rcases hphase' with hb | ⟨-, hempty⟩
      · rw [hb] at hwindow
        cases hwindow
      · exact absurd hempty hne
    · rcases hphase' with hb | ⟨hw, -⟩
      · rw [hb] at hblocked
        cases hblocked
      · rw [hw] at hblocked
        cases hblocked
  | window =>
    rcases thread_window hphase hs with hc | ⟨hplace, rfl⟩
    · refine ⟨?_, hcaller, fun _ hne => ?_, fun hb => ?_⟩
      · rw [hc.waiting, h.waiting, hphase, hc.phase]
      · rw [hc.notified]
        rw [hc.runnable] at hne
        exact (h.window hphase hne).imp_right hpending
      · rw [hc.phase] at hb
        cases hb
    · exact h.condition hplace
  | blocked => exact absurd (phase_blocked_iff.1 hphase) (by simpa using hblocked)
  | woken =>
    have hplace : s.place p = .woken := phase_woken_iff.1 hphase
    rw [State.thread, hplace, Option.some.injEq] at hs
    subst hs
    refine ⟨?_, hcaller, ?_, ?_⟩
    all_goals rw [goto_place]
    · refine ⟨fun hw => ?_, fun hor => by simp [Place.phase] at hor⟩
      have hself : Function.update s.waiting p false p = true := hw
      rw [Function.update_self] at hself
      cases hself
    · exact fun hwindow => by cases hwindow
    · exact fun hb => by cases hb

/-- The thread goes from one place to another that no invariant mentions. -/
theorem Awake.goto (h : Awake s p) {place : Place} (hfree : Free s p' = true)
    (hphase : (s.place p').phase = .busy) (hbusy : place.phase = .busy) :
    Awake (s.goto p' place) p := by
  by_cases hp : p = p'
  · subst hp
    have hnot : s.waiting p ≠ true := by
      rw [ne_eq, h.waiting, hphase]
      simp
    refine ⟨⟨fun hw => absurd hw hnot, fun hor => ?_⟩, fun w hw hc hopen => ?_, fun hwindow => ?_,
      fun hblocked => ?_⟩
    · rw [goto_place, hbusy] at hor
      simp at hor
    · obtain ⟨result, hdone⟩ := free_iff.1 hfree w hw hc
      exact absurd hdone (hopen result)
    · rw [goto_place, hbusy] at hwindow
      cases hwindow
    · rw [goto_place, hbusy] at hblocked
      cases hblocked
  · have hplace : (s.goto p' place).place p = s.place p := Function.update_of_ne hp ..
    exact h.of_same hplace rfl rfl rfl id

/-- A call of `Wakeup` starts. -/
theorem Awake.wake (h : Awake s p) {w : Wakeup}
    (hcaller : w.caller = some p → s.place p = .running) :
    Awake { s with wakeups := s.wakeups ++ [w] } p := by
  have hpending : Pending s p → Pending { s with wakeups := s.wakeups ++ [w] } p := by
    rintro ⟨v, hv, hplace⟩
    exact ⟨v, List.mem_append_left _ hv, hplace⟩
  refine ⟨h.waiting, fun v hv hc hopen => ?_, fun hwindow hne => ?_, fun hblocked hne => ?_⟩
  · rcases List.mem_append.1 hv with hv | hv
    · exact h.caller v hv hc hopen
    · rw [List.mem_singleton] at hv
      exact hcaller (hv ▸ hc)
  · exact (h.window hwindow hne).imp_right hpending
  · exact hpending (h.blocked hblocked hne)

theorem Awake.spurious (h : Awake s p) (hplace : s.place p' = .blocked) :
    Awake (s.goto p' .woken) p := by
  have := h.notifyAll p'
  rwa [State.notifyAll, if_pos hplace] at this

/-- Every step keeps the invariant. -/
theorem Awake.step (h : Awake s p) (hlinks : Links s) {a : Action} (he : Enabled s a = true)
    (hs : Scheduler.step s a = some s') : Awake s' p := by
  cases a with
  | create p' =>
    cases hs
    refine h.of_same rfl rfl rfl rfl ?_
    rw [create_other s p' (by simp)]
    exact id
  | adder k =>
    obtain ⟨a, -, rfl⟩ := Option.map_eq_some_iff.1 hs
    unfold State.adder
    split
    · exact h.of_same rfl rfl rfl rfl id
    · exact (h.notifyAll a.proc).of_same rfl rfl rfl rfl id
    · exact (h.setNotified a.proc).of_same rfl rfl rfl rfl id
    · exact h
  | thread p' =>
    by_cases hp : p = p'
    · subst hp
      exact h.thread he hs
    · exact h.of_leaves (leaves_thread hs) hp
  | yield p' =>
    cases hs
    simp only [Enabled, Bool.and_eq_true, decide_eq_true_eq] at he
    exact h.goto he.2 (by rw [he.1]; rfl) rfl
  | suspend p' =>
    obtain ⟨t, -, rfl⟩ := Option.map_eq_some_iff.1 hs
    simp only [Enabled, Bool.and_eq_true, decide_eq_true_eq] at he
    exact (h.goto he.1.2 (by rw [he.1.1]; rfl) rfl).of_same rfl rfl rfl rfl id
  | finish p' =>
    obtain ⟨t, -, rfl⟩ := Option.map_eq_some_iff.1 hs
    simp only [Enabled, Bool.and_eq_true, decide_eq_true_eq] at he
    exact (h.goto he.1.2 (by rw [he.1.1]; rfl) rfl).of_same rfl rfl rfl rfl id
  | spurious p' =>
    cases hs
    simp only [Enabled, decide_eq_true_eq] at he
    exact h.spurious he
  | wake caller t id =>
    cases hs
    simp only [Enabled, Bool.and_eq_true] at he
    refine h.wake fun hcaller => ?_
    have hall := he.2
    rw [show caller = some p from hcaller] at hall
    simp only [Option.all_some, Bool.and_eq_true, decide_eq_true_eq] at hall
    exact hall.1
  | wakeup k =>
    obtain ⟨w, hk, hw⟩ := Option.bind_eq_some_iff.1 hs
    exact h.wakeup hk hw
  | steal k p' n =>
    cases hs
    obtain ⟨hplace, hwaiting, hnotified, hwakeups⟩ := steal_rest k p' n s
    refine h.of_same (congrFun hplace p) (congrFun hwaiting p) (congrFun hnotified p) hwakeups ?_
    rw [steal_other k p' n s (by simp) (by simp)]
    exact id
  | stealRest k =>
    obtain ⟨r, -, hr⟩ := Option.bind_eq_some_iff.1 hs
    obtain ⟨D, C, heq, -⟩ := hlinks.stealRest_eq (k := k) (p := r.1) (n := r.2)
    rw [heq, Option.some.injEq] at hr
    subst hr
    refine h.of_same rfl rfl rfl rfl fun hne hempty => hne ?_
    exact hlinks.stealt_nil hempty
  | append k k' =>
    cases hs
    refine h.of_same rfl rfl rfl rfl ?_
    unfold State.append
    rw [setQueue_other (by simp), setQueue_other (by simp)]
    exact id
  | cut k k' n =>
    cases hs
    refine h.of_same rfl rfl rfl rfl ?_
    unfold State.cut
    rw [setQueue_other (by simp), setQueue_other (by simp)]
    exact id
  | addTask k p' =>
    cases hs
    refine Awake.notifyCondition ?_ p'
    refine h.of_same rfl rfl rfl rfl ?_
    rw [setQueue_other (by simp), setQueue_other (by simp)]
    exact id
  | notify p' =>
    cases hs
    exact h.notifyCondition p'
  | stop =>
    cases hs
    exact h.of_frame rfl

theorem awake_of_run (hr : Run machine anyAction State.initial s) (p : Nat) : Awake s p := by
  have hinv : Links s ∧ Awake s p := by
    refine hr.invariant (P := fun s => Links s ∧ Awake s p) ⟨links_initial, awake_initial p⟩ ?_
    rintro s a s' ⟨hlinks, hawake⟩ he - hs
    exact ⟨hlinks.step he hs, hawake.step hlinks he hs⟩
  exact hinv.2

/-- A processor does not sleep while a woken task is in its `runnableQueue_`, unless the call of
`WakeupBySelf` that brought one there has still to call `NotifyCondition`. -/
theorem no_lost_wakeup (hr : Run machine anyAction State.initial s) (p : Nat)
    (hblocked : s.place p = .blocked) (hpending : ∀ w ∈ s.wakeups, w.place ≠ .notify p) :
    s.queues (.runnable p) = [] := by
  by_contra hne
  obtain ⟨w, hw, hplace⟩ := (awake_of_run hr p).blocked (phase_blocked_iff.2 hblocked) hne
  exact hpending w hw hplace

/-- A task has suspended itself, and the processor sleeps. -/
theorem no_lost_wakeup_suspended : ∃ s, Run machine anyAction State.initial s ∧
    (s.queues (.wait 0) = [0] ∧ s.place 0 = .blocked) ∧ s.queues (.runnable 0) = [] := by
  have hexec : (machine.exec anyAction State.initial
      (.create 0 :: List.replicate 8 (.thread 0) ++
        [.suspend 0, .thread 0, .yield 0] ++ List.replicate 10 (.thread 0))).any
      (fun s => s.queues (.wait 0) = [0] && s.place 0 = .blocked && s.wakeups = []) = true := by
    decide +kernel
  obtain ⟨s, hr, hs⟩ := Run.exists_of_exec hexec
  simp only [Bool.and_eq_true, decide_eq_true_eq] at hs
  exact ⟨s, hr, hs.1, no_lost_wakeup hr 0 hs.1.2 (by simp [hs.2])⟩

end Costream.Scheduler
