import Costream.Scheduler.Links

/-!
# What a step leaves alone

A section of the thread of `p` works on the queues of `p`, and on what `p` knows about its thread.
`Leaves` lists the rest, which it leaves alone.
-/

namespace Costream.Scheduler

open Trace Costream.Lists

/-- A section of the thread of `p` goes from `s` to `s'`. -/
structure Leaves (p : Nat) (s s' : State) : Prop where
  created : s'.created = s.created
  suspendId : s'.suspendId = s.suspendId
  wakeups : s'.wakeups = s.wakeups
  adders : s'.adders = s.adders
  stealing : s'.stealing = s.stealing
  queues : ∀ q, q.isOf p = false → q ≠ .up p → s'.queues q = s.queues q
  place : ∀ p' ≠ p, s'.place p' = s.place p'
  waiting : ∀ p' ≠ p, s'.waiting p' = s.waiting p'
  notified : ∀ p' ≠ p, s'.notified p' = s.notified p'

variable {s s' s'' : State} {p p' t k : Nat} {q : Queue}

theorem Leaves.trans (h : Leaves p s s') (h' : Leaves p s' s'') : Leaves p s s'' where
  created := h'.created.trans h.created
  suspendId := h'.suspendId.trans h.suspendId
  wakeups := h'.wakeups.trans h.wakeups
  adders := h'.adders.trans h.adders
  stealing := h'.stealing.trans h.stealing
  queues q hq hup := (h'.queues q hq hup).trans (h.queues q hq hup)
  place p' hne := (h'.place p' hne).trans (h.place p' hne)
  waiting p' hne := (h'.waiting p' hne).trans (h.waiting p' hne)
  notified p' hne := (h'.notified p' hne).trans (h.notified p' hne)

/-! ### The small steps -/

/-- The part of a state that `Leaves` is about. -/
def State.frame (s : State) : State :=
  { State.initial with
    created := s.created
    suspendId := s.suspendId
    wakeups := s.wakeups
    adders := s.adders
    stealing := s.stealing
    queues := s.queues
    place := s.place
    waiting := s.waiting
    notified := s.notified }

theorem Leaves.of_frame (h : s'.frame = s.frame) : Leaves p s s' where
  created := (congrArg State.created h : _)
  suspendId := (congrArg State.suspendId h : _)
  wakeups := (congrArg State.wakeups h : _)
  adders := (congrArg State.adders h : _)
  stealing := (congrArg State.stealing h : _)
  queues q _ _ := (congrArg (State.queues · q) h : _)
  place p' _ := (congrArg (State.place · p') h : _)
  waiting p' _ := (congrArg (State.waiting · p') h : _)
  notified p' _ := (congrArg (State.notified · p') h : _)

theorem frame_decRef (s : State) (t : Nat) : (s.decRef t).frame = s.frame := by
  unfold State.decRef
  dsimp only
  split <;> rfl

theorem frame_mark (s : State) (q : Queue) (out : Option Nat) : (s.mark q out).frame = s.frame := by
  cases out <;> rfl

theorem Leaves.goto (h : Leaves p s s') {place : Place} : Leaves p s (s'.goto p place) where
  created := h.created
  suspendId := h.suspendId
  wakeups := h.wakeups
  adders := h.adders
  stealing := h.stealing
  queues := h.queues
  place p' hne := (Function.update_of_ne hne ..).trans (h.place p' hne)
  waiting := h.waiting
  notified := h.notified

theorem Leaves.setQueue (h : Leaves p s s') {tasks : List Nat} (hq : q.isOf p = true ∨ q = .up p) :
    Leaves p s (s'.setQueue q tasks) where
  created := h.created
  suspendId := h.suspendId
  wakeups := h.wakeups
  adders := h.adders
  stealing := h.stealing
  queues q' hof hup := by
    have hne : q' ≠ q := by
      intro he
      rw [he] at hof hup
      rcases hq with hq | hq
      · rw [hof] at hq
        cases hq
      · exact hup hq
    exact (Function.update_of_ne hne ..).trans (h.queues q' hof hup)
  place := h.place
  waiting := h.waiting
  notified := h.notified

theorem Leaves.link (h : Leaves p s s') (t : Nat) (hq : q.isOf p = true) :
    Leaves p s (s'.link q t) :=
  (h.setQueue (.inl hq)).trans (.of_frame rfl)

theorem Leaves.push (h : Leaves p s s') (t : Nat) (hq : q.isOf p = true) :
    Leaves p s (s'.push q t) := by
  refine (h.link t hq).trans (.of_frame ?_)
  rfl

theorem Leaves.decRef (h : Leaves p s s') : Leaves p s (s'.decRef t) :=
  h.trans (.of_frame (frame_decRef s' t))

theorem leaves_unlink (hq : q.isOf p = true) (hs : s.unlink q t = some s') : Leaves p s s' := by
  unfold State.unlink at hs
  split at hs
  · cases hs
    exact (Leaves.setQueue (.of_frame rfl) (.inl hq)).trans (.of_frame rfl)
  · cases hs

theorem Leaves.flags (h : Leaves p s s') (b b' : Bool) :
    Leaves p s { s' with
      notified := Function.update s'.notified p b
      waiting := Function.update s'.waiting p b' } where
  created := h.created
  suspendId := h.suspendId
  wakeups := h.wakeups
  adders := h.adders
  stealing := h.stealing
  queues := h.queues
  place := h.place
  waiting p' hne := (Function.update_of_ne hne ..).trans (h.waiting p' hne)
  notified p' hne := (Function.update_of_ne hne ..).trans (h.notified p' hne)

theorem leaves_notified (s : State) (p : Nat) (b : Bool) :
    Leaves p s { s with notified := Function.update s.notified p b } := by
  have := Leaves.flags (p := p) (s := s) (.of_frame rfl) b (s.waiting p)
  rwa [Function.update_eq_self] at this

theorem leaves_waiting (s : State) (p : Nat) (b : Bool) :
    Leaves p s { s with waiting := Function.update s.waiting p b } := by
  have := Leaves.flags (p := p) (s := s) (.of_frame rfl) (s.notified p) b
  rwa [Function.update_eq_self] at this

/-! ### The sections -/

theorem leaves_front (s : State) (p : Nat) (empty : Place) : Leaves p s (s.front p empty) := by
  have hmark := frame_mark s (.runnable p) (s.queues (.runnable p)).head?
  unfold State.front
  dsimp only
  split
  · refine Leaves.goto (.of_frame ?_)
    exact hmark
  · refine Leaves.goto (.of_frame ?_)
    exact hmark

theorem leaves_proceed (s : State) (p : Nat) (task : Option Nat) :
    Leaves p s (s.proceed p task) := by
  refine Leaves.goto (.of_frame ?_)
  rfl

theorem leaves_adding (s : State) (p : Nat) (after : AfterAdd) (n : Nat) :
    Leaves p s (s.adding p after n) := by
  unfold State.adding
  split
  · rename_i rest _
    have hset : Leaves p s (s.setQueue (.up p) rest) := Leaves.setQueue (.of_frame rfl) (.inr rfl)
    have hq : (Queue.runnable p).isOf p = true := by simp [Queue.isOf]
    exact (hset.push _ hq).goto
  · refine Leaves.goto (.of_frame ?_)
    rfl

theorem leaves_popAll (s : State) (p : Nat) (after : AfterGC) : Leaves p s (s.popAll p after) :=
  ((Leaves.setQueue (.of_frame rfl) (.inl (by simp [Queue.isOf]))).setQueue
    (.inl (by simp [Queue.isOf]))).goto

theorem leaves_release (s : State) (p : Nat) (after : AfterGC) (rest : List Nat) :
    Leaves p s (s.release p after rest) := by
  cases rest with
  | nil => exact Leaves.goto (.of_frame rfl)
  | cons t rest =>
    refine (Leaves.decRef (.of_frame ?_)).goto
    rfl

theorem leaves_clear (s : State) (p : Nat) (after : AfterGC) : Leaves p s (s.clear p after) := by
  unfold State.clear
  split
  · refine Leaves.goto (.of_frame ?_)
    rfl
  · exact (Leaves.setQueue (.of_frame rfl) (.inl (by simp [Queue.isOf]))).decRef.goto

theorem leaves_condition (s : State) (p : Nat) : Leaves p s (s.condition p) := by
  unfold State.condition
  split
  · exact (leaves_notified s p false).goto
  · exact (leaves_waiting s p true).goto

theorem leaves_swapIn (hs : s.swapIn p = some s') : Leaves p s s' := by
  obtain ⟨t, -, rfl⟩ := Option.map_eq_some_iff.1 hs
  refine Leaves.goto (.of_frame ?_)
  rfl

theorem leaves_suspendBySelf (hs : s.suspendBySelf p = some s') : Leaves p s s' := by
  obtain ⟨t, -, hs⟩ := Option.bind_eq_some_iff.1 hs
  obtain ⟨u, hu, rfl⟩ := Option.map_eq_some_iff.1 hs
  have hrunnable : (Queue.runnable p).isOf p = true := by simp [Queue.isOf]
  have hwait : (Queue.wait p).isOf p = true := by simp [Queue.isOf]
  have hmark := frame_mark s (.runnable p) (next (s.queues (.runnable p)) t)
  have hunlink : Leaves p s u := by
    refine Leaves.trans (.of_frame ?_) (leaves_unlink hrunnable hu)
    exact hmark
  refine ((hunlink.link t hwait).trans (.of_frame ?_)).goto
  rfl

theorem leaves_caseRunnable (s : State) (p t : Nat) : Leaves p s (s.caseRunnable p t) := by
  unfold State.caseRunnable
  split
  · refine Leaves.goto (.of_frame ?_)
    rfl
  · split
    · exact leaves_proceed s p none
    · exact Leaves.goto (.of_frame rfl)

theorem leaves_takeNext (s : State) (p : Nat) : Leaves p s (s.takeNext p) :=
  (leaves_proceed s p (s.nextTask p)).trans (.of_frame rfl)

theorem leaves_switch (hs : s.switch p = some s') : Leaves p s s' := by
  obtain ⟨t, -, rfl⟩ := Option.map_eq_some_iff.1 hs
  split
  · exact leaves_caseRunnable s p t
  · exact leaves_takeNext s p
  · refine Leaves.goto (.of_frame ?_)
    rfl

theorem leaves_toNext (hs : s.toNext p = some s') : Leaves p s s' := by
  obtain ⟨t, -, rfl⟩ := Option.map_eq_some_iff.1 hs
  exact .of_frame (frame_mark s (.runnable p) (next (s.queues (.runnable p)) t))

theorem leaves_erase (hq : q.isOf p = true) (hs : s.erase q t = some s') : Leaves p s s' := by
  obtain ⟨u, hu, rfl⟩ := Option.map_eq_some_iff.1 hs
  exact (leaves_unlink hq hu).decRef

theorem leaves_thread (hs : s.thread p = some s') : Leaves p s s' := by
  have hrefl : Leaves p s s := .of_frame rfl
  unfold State.thread at hs
  split at hs
  case h_2 | h_3 => exact Option.some.inj hs ▸ leaves_front s p _
  case h_5 => exact Option.some.inj hs ▸ leaves_adding s p _ _
  case h_6 => exact Option.some.inj hs ▸ leaves_popAll s p _
  case h_7 => exact Option.some.inj hs ▸ leaves_release s p _ _
  case h_8 => exact Option.some.inj hs ▸ leaves_clear s p _
  case h_9 => exact Option.some.inj hs ▸ leaves_condition s p
  case h_10 => exact Option.some.inj hs ▸ (leaves_waiting s p false).goto
  case h_12 => exact leaves_swapIn hs
  case h_13 => exact leaves_suspendBySelf hs
  case h_14 => exact leaves_switch hs
  case h_15 =>
    obtain ⟨t, -, rfl⟩ := Option.map_eq_some_iff.1 hs
    have hmark := frame_mark s (.runnable p) (next (s.queues (.runnable p)) t)
    refine Leaves.goto (.of_frame ?_)
    exact hmark
  case h_16 | h_17 =>
    obtain ⟨u, hu, rfl⟩ := Option.map_eq_some_iff.1 hs
    refine Leaves.goto ((leaves_toNext hu).trans (.of_frame ?_))
    rfl
  case h_18 =>
    obtain ⟨t, -, hs⟩ := Option.bind_eq_some_iff.1 hs
    obtain ⟨u, hu, rfl⟩ := Option.map_eq_some_iff.1 hs
    exact (leaves_erase (by simp [Queue.isOf]) hu).goto
  case h_19 =>
    obtain ⟨t, -, rfl⟩ := Option.map_eq_some_iff.1 hs
    have hq : (Queue.gc p).isOf p = true := by simp [Queue.isOf]
    exact (hrefl.push t hq).goto
  case h_20 => exact Option.some.inj hs ▸ leaves_takeNext s p
  all_goals
    cases hs
    first | exact hrefl | exact hrefl.goto

/-! ## Sections that only concern the thread -/

/-- The state without what `p` knows about its thread. -/
def State.outside (s : State) (p : Nat) : State :=
  { s with
    runningTask := Function.update s.runningTask p none
    nextTask := Function.update s.nextTask p none
    addNewQuota := Function.update s.addNewQuota p 0
    notified := Function.update s.notified p false
    waiting := Function.update s.waiting p false
    place := Function.update s.place p .loop }

/-- The section at this place works on no list and on no task. -/
def Place.still : Place → Bool
  | .adding _ _ | .pop _ | .release _ _ | .clear _ => false
  | .swapIn | .suspending | .erase | .push => false
  | _ => true

/-- Where such a section leads to. -/
def Place.simple : Place → Bool
  | .release _ _ | .clear _ | .running | .suspending | .push => false
  | .pop .push => false
  | _ => true

/-- Only what `p` knows about its thread changes. -/
structure Still (p : Nat) (s s' : State) : Prop where
  outside : s'.outside p = s.outside p
  simple : (s'.place p).simple = true

theorem Still.other (h : Still p s s') (hp : p' ≠ p) :
    s'.place p' = s.place p' ∧ s'.runningTask p' = s.runningTask p' := by
  have hplace : (s'.outside p).place p' = (s.outside p).place p' := by rw [h.outside]
  have hrunning : (s'.outside p).runningTask p' = (s.outside p).runningTask p' := by rw [h.outside]
  unfold State.outside at hplace hrunning
  dsimp only at hplace hrunning
  rw [Function.update_of_ne hp, Function.update_of_ne hp] at hplace hrunning
  exact ⟨hplace, hrunning⟩

@[simp] theorem outside_goto (s : State) (p : Nat) (place : Place) :
    (s.goto p place).outside p = s.outside p := by
  unfold State.outside State.goto
  dsimp only
  rw [Function.update_idem]

@[simp] theorem outside_proceed (s : State) (p : Nat) (task : Option Nat) :
    (s.proceed p task).outside p = s.outside p := by
  unfold State.proceed
  rw [outside_goto]
  unfold State.outside
  dsimp only
  rw [Function.update_idem]

@[simp] theorem outside_next (s : State) (p : Nat) (next : Option Nat) :
    { s with nextTask := Function.update s.nextTask p next }.outside p = s.outside p := by
  unfold State.outside
  dsimp only
  rw [Function.update_idem]

@[simp] theorem outside_useQuota (s : State) (p : Nat) :
    (s.useQuota p).outside p = s.outside p := by
  unfold State.outside State.useQuota
  dsimp only
  rw [Function.update_idem]

theorem simple_goto {place : Place} (h : place.simple = true) (s : State) (p : Nat) :
    ((s.goto p place).place p).simple = true := by
  rw [goto_place]
  exact h

theorem still_proceed (s : State) (p : Nat) (task : Option Nat) : Still p s (s.proceed p task) := by
  refine ⟨outside_proceed s p task, simple_goto ?_ _ p⟩
  split <;> rfl

theorem still_goto {place : Place} (h : place.simple = true) (s : State) (p : Nat) :
    Still p s (s.goto p place) :=
  ⟨outside_goto s p place, simple_goto h s p⟩

theorem Still.trans (h : Still p s s') (h' : Still p s' s'') : Still p s s'' :=
  ⟨h'.outside.trans h.outside, h'.simple⟩

theorem still_toNext (h : Links s) (hs : s.toNext p = some s') : s'.outside p = s.outside p := by
  obtain ⟨t, -, rfl⟩ := Option.map_eq_some_iff.1 hs
  dsimp only
  rw [h.mark_eq fun u hu => mem_of_next hu]
  exact outside_next s p _

theorem still_front (h : Links s) {empty : Place} (hempty : empty.simple = true) :
    Still p s (s.front p empty) := by
  unfold State.front
  dsimp only
  rw [h.mark_eq fun t ht => List.mem_of_head? ht]
  cases (s.queues (.runnable p)).head? with
  | none =>
    refine ⟨?_, simple_goto hempty _ p⟩
    rw [outside_goto]
    unfold State.outside
    dsimp only
    rw [Function.update_idem]
  | some t =>
    refine ⟨?_, simple_goto rfl _ p⟩
    rw [outside_goto]
    unfold State.outside
    dsimp only
    rw [Function.update_idem, Function.update_idem]

theorem still_caseRunnable (h : Links s) (t : Nat) : Still p s (s.caseRunnable p t) := by
  unfold State.caseRunnable
  split
  · rename_i u hu
    rw [h.setCheck_eq (mem_of_next hu)]
    exact still_proceed s p (some u)
  · split
    · exact still_proceed s p none
    · exact still_goto rfl s p

theorem still_switch (h : Links s) (hs : s.switch p = some s') : Still p s s' := by
  obtain ⟨t, -, rfl⟩ := Option.map_eq_some_iff.1 hs
  cases s.taskState t with
  | runnable => exact still_caseRunnable h t
  | block =>
    exact ⟨(outside_next _ p none).trans (outside_proceed s p _), (still_proceed s p _).simple⟩
  | done => exact still_goto rfl s p

/-- A section that works on no list and on no task. -/
theorem still_thread (h : Links s) (hplace : (s.place p).still = true)
    (he : Enabled s (.thread p) = true) (hs : s.thread p = some s') : Still p s s' := by
  cases hp : s.place p with
  | loop =>
    rw [State.thread, hp, Option.some.injEq] at hs
    subst hs
    refine still_goto ?_ s p
    split <;> rfl
  | front =>
    rw [State.thread, hp, Option.some.injEq] at hs
    exact hs ▸ still_front h rfl
  | frontAgain =>
    rw [State.thread, hp, Option.some.injEq] at hs
    exact hs ▸ still_front h rfl
  | addNew after =>
    rw [State.thread, hp, Option.some.injEq] at hs
    exact hs ▸ still_goto rfl s p
  | condition =>
    rw [State.thread, hp, Option.some.injEq] at hs
    subst hs
    unfold State.condition
    split
    · refine ⟨?_, simple_goto rfl _ p⟩
      rw [outside_goto]
      unfold State.outside
      dsimp only
      rw [Function.update_idem]
    · refine ⟨?_, simple_goto rfl _ p⟩
      rw [outside_goto]
      unfold State.outside
      dsimp only
      rw [Function.update_idem]
  | woken =>
    rw [State.thread, hp, Option.some.injEq] at hs
    subst hs
    refine ⟨?_, simple_goto rfl _ p⟩
    rw [outside_goto]
    unfold State.outside
    dsimp only
    rw [Function.update_idem]
  | inner =>
    rw [State.thread, hp, Option.some.injEq] at hs
    subst hs
    refine still_goto ?_ s p
    split <;> rfl
  | switch =>
    rw [State.thread, hp] at hs
    exact still_switch h hs
  | nextRunnable =>
    rw [State.thread, hp] at hs
    obtain ⟨t, -, rfl⟩ := Option.map_eq_some_iff.1 hs
    dsimp only
    rw [h.mark_eq fun u hu => mem_of_next hu]
    exact ⟨(outside_proceed _ p _).trans (outside_useQuota s p), (still_proceed _ p _).simple⟩
  | next =>
    rw [State.thread, hp] at hs
    obtain ⟨s₁, hs₁, rfl⟩ := Option.map_eq_some_iff.1 hs
    refine ⟨(outside_goto s₁ p _).trans (still_toNext h hs₁), simple_goto ?_ s₁ p⟩
    split <;> rfl
  | nextAgain =>
    rw [State.thread, hp] at hs
    obtain ⟨s₁, hs₁, rfl⟩ := Option.map_eq_some_iff.1 hs
    refine ⟨?_, simple_goto rfl _ p⟩
    rw [outside_goto, outside_useQuota]
    exact still_toNext h hs₁
  | finish =>
    rw [State.thread, hp, Option.some.injEq] at hs
    subst hs
    exact ⟨(outside_next _ p none).trans (outside_proceed s p _), (still_proceed s p _).simple⟩
  | blocked => simp [Enabled, hp] at he
  | running => simp [Enabled, hp] at he
  | stopped => simp [Enabled, hp] at he
  | _ =>
    rw [hp] at hplace
    cases hplace

/-! ## `Wakeup` -/

/-- The state after `t` has gone from `waitQueue_` to `runnableQueue_`, with a new id. -/
def State.awaken (s : State) (p t : Nat) : State :=
  { s.exchange (.wait p) (.runnable p) ((s.queues (.wait p)).erase t)
      (s.queues (.runnable p) ++ [t]) (Function.update s.check t (some (.runnable p))) with
    suspendId := Function.update s.suspendId t ((s.suspendId t + 1) % 2 ^ 64) }

section awaken

variable (s p t)

theorem awaken_queues : (s.awaken p t).queues =
    Function.update (Function.update s.queues (.wait p) ((s.queues (.wait p)).erase t))
      (.runnable p) (s.queues (.runnable p) ++ [t]) := rfl

theorem awaken_other (hwait : q ≠ .wait p) (hrunnable : q ≠ .runnable p) :
    (s.awaken p t).queues q = s.queues q := by
  rw [awaken_queues, Function.update_of_ne hrunnable, Function.update_of_ne hwait]

end awaken

/-- The two results of the section of `WakeupBySelf`. -/
theorem wakeupBySelf_cases {w : Wakeup} (hs : s.wakeupBySelf k w p = some s') :
    w.id ≠ s.suspendId w.task ∧ s' = s.setWakeup k { w with place := .drop false } ∨
      w.id = s.suspendId w.task ∧ w.task ∈ s.queues (.wait p) ∧
        s' = (s.awaken p w.task).setWakeup k { w with
          ran := w.ran + 1
          place := if s.queues (.runnable p) = [] ∧ w.caller ≠ some p then .notify p
            else .drop true } := by
  unfold State.wakeupBySelf at hs
  split at hs
  · rename_i hid
    cases hs
    exact .inl ⟨hid, rfl⟩
  · rename_i hid
    obtain ⟨s₁, hs₁, rfl⟩ := Option.map_eq_some_iff.1 hs
    unfold State.unlink at hs₁
    split at hs₁
    · rename_i hmem
      cases hs₁
      refine .inr ⟨not_not.1 hid, hmem, ?_⟩
      have hget : Function.update s.queues (.wait p) ((s.queues (.wait p)).erase w.task)
          (.runnable p) = s.queues (.runnable p) := Function.update_of_ne (by simp) ..
      unfold State.awaken State.link State.setQueue State.setCheck State.exchange
      dsimp only
      rw [hget, Function.update_idem]
      simp only [Function.update_self, List.length_append, List.length_singleton,
        Nat.add_eq_right, List.length_eq_zero_iff]
    · cases hs₁

theorem notifyCondition_wakeups (s : State) (p : Nat) :
    (s.notifyCondition p).wakeups = s.wakeups := by
  unfold State.notifyCondition State.notifyAll
  split
  · split <;> rfl
  · rfl

theorem create_other (s : State) (p : Nat) (hq : q ≠ .up p) :
    (s.create p).queues q = s.queues q := Function.update_of_ne hq ..

theorem free_iff : Free s p = true ↔
    ∀ w ∈ s.wakeups, w.caller = some p → ∃ result, w.place = .done result := by
  unfold Free
  rw [List.all_eq_true]
  refine forall_congr' fun w => forall_congr' fun _ => ?_
  cases hplace : w.place with
  | done result => simp
  | _ => simp

end Costream.Scheduler
