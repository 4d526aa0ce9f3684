import Costream.Endless
import Costream.Scheduler.WaitCondition

/-!
# `Stop`

`Stop` sets a flag that the threads of the processors read at the head of both loops of `Process`,
and calls `NotifyCondition` of each processor, for its thread may be in `WaitCondition`.  It does
not wait for these threads.

* `stopMachine` is the machine of `AddTask` and `WaitCondition` with a call of `Stop`.
* `Doomed` is the invariant of a processor after that: its thread does not sleep, and does not go
  to sleep any more.
* `rank` gets smaller with each step of such a thread.  A step of another one leaves it as it is.
* `stop_ends` is the result: all threads end, when they go on and no coroutine runs forever.
-/

namespace Costream.Scheduler

open Trace Costream.Lists

/-! ## The machine -/

/-- `turn` is the next processor in the loop of `Stop`, once it has been called. -/
structure StopState where
  fine : FineState
  turn : Option Nat

inductive StopAction where
  | fine (a : FineAction)
  | stop
  | notify

namespace StopState

variable (s : StopState)

def initial : StopState := ⟨.initial, none⟩

/-- `stop_ = true`. -/
def stop : StopState :=
  { fine := { s.fine with base := { s.fine.base with stop := true } }
    turn := some 0 }

/-- `p->NotifyCondition()`, in the loop. -/
def notify (p : Nat) : StopState :=
  { fine := { s.fine with base := s.fine.base.notifyCondition p }
    turn := some (p + 1) }

end StopState

/-- `Stop` is called once, and there are `n` processors then. -/
def StopEnabled (n : Nat) (s : StopState) : StopAction → Bool
  | .fine (.base .stop) => false
  | .fine a => FineEnabled s.fine a
  | .stop => s.turn = none
  | .notify => s.turn.any fun p => p < n && s.fine.stage p = .outside

def stopStep (s : StopState) : StopAction → Option StopState
  | .fine a => (fineStep s.fine a).map fun f => { s with fine := f }
  | .stop => some s.stop
  | .notify => s.turn.map s.notify

def stopMachine (n : Nat) : Machine StopState StopAction where
  enabled s a := StopEnabled n s a = true
  step := stopStep

instance (n : Nat) (s : StopState) (a : StopAction) : Decidable ((stopMachine n).enabled s a) :=
  inferInstanceAs (Decidable (StopEnabled n s a = true))

def FineAction.isOf (p : Nat) : FineAction → Bool
  | .base a => a.isOf p
  | .test p' | .clear p' | .mark p' | .wait p' => p = p'
  | _ => false

/-- The steps of the thread of `p`, and of the coroutine that runs on it. -/
def StopAction.isOf (p : Nat) : StopAction → Bool
  | .fine a => a.isOf p
  | _ => false

/-! ## What the others leave to a processor -/

structure Spares (p : Nat) (s s' : State) : Prop where
  place : s'.place p = s.place p ∨ s.place p = .blocked ∧ s'.place p = .woken
  notified : s.notified p = true → s'.notified p = true
  waiting : s'.waiting p = s.waiting p
  stop : s.stop = true → s'.stop = true
  garbage : s'.queues (.garbage p) = s.queues (.garbage p)
  running : s'.runningTask p = s.runningTask p
  next : s'.nextTask p = s.nextTask p
  state : ∀ t, s.runningTask p = some t → s'.taskState t = s.taskState t

variable {s s' s'' : State} {p p' t k n : Nat} {q : Queue}

theorem Spares.trans (h : Spares p s s') (h' : Spares p s' s'') : Spares p s s'' where
  place := by
    rcases h.place with hsame | hwoken
    · rw [← hsame]
      exact h'.place
    · rcases h'.place with hsame' | hwoken'
      · exact .inr ⟨hwoken.1, hsame'.trans hwoken.2⟩
      · rw [hwoken.2] at hwoken'
        cases hwoken'.1
  notified hn := h'.notified (h.notified hn)
  waiting := h'.waiting.trans h.waiting
  stop hs := h'.stop (h.stop hs)
  garbage := h'.garbage.trans h.garbage
  running := h'.running.trans h.running
  next := h'.next.trans h.next
  state t ht := (h'.state t (h.running.trans ht)).trans (h.state t ht)

/-- The part of a state that `Spares` is about, but for the lists. -/
def State.spared (s : State) : State :=
  { State.initial with
    place := s.place
    notified := s.notified
    waiting := s.waiting
    stop := s.stop
    runningTask := s.runningTask
    nextTask := s.nextTask
    taskState := s.taskState }

theorem spares_of_spared (h : s'.spared = s.spared)
    (hgarbage : s'.queues (.garbage p) = s.queues (.garbage p)) : Spares p s s' where
  place := .inl (congrArg (State.place · p) h : _)
  notified hn := (congrArg (State.notified · p) h : _).trans hn
  waiting := (congrArg (State.waiting · p) h : _)
  stop hs := (congrArg State.stop h : _).trans hs
  garbage := hgarbage
  running := (congrArg (State.runningTask · p) h : _)
  next := (congrArg (State.nextTask · p) h : _)
  state t _ := (congrArg (State.taskState · t) h : _)

theorem Spares.refl (s : State) : Spares p s s := spares_of_spared rfl rfl

theorem spares_setQueue (s : State) (tasks : List Nat) (hq : q ≠ .garbage p) :
    Spares p s (s.setQueue q tasks) :=
  spares_of_spared rfl (setQueue_other hq.symm)

theorem spares_decRef (s : State) (t : Nat) : Spares p s (s.decRef t) := by
  obtain ⟨D, C, heq, -⟩ := exists_decRef_eq s t
  rw [heq]
  exact spares_of_spared rfl rfl

theorem spares_goto (s : State) (place : Place) (hne : p ≠ p') : Spares p s (s.goto p' place) :=
  ⟨.inl (Function.update_of_ne hne ..), id, rfl, id, rfl, rfl, rfl, fun _ _ => rfl⟩

theorem spares_woken (p : Nat) (hblocked : s.place p' = .blocked) :
    Spares p s (s.goto p' .woken) := by
  by_cases hp : p = p'
  · subst hp
    exact ⟨.inr ⟨hblocked, goto_place s p .woken⟩, id, rfl, id, rfl, rfl, rfl, fun _ _ => rfl⟩
  · exact spares_goto s .woken hp

theorem spares_notified (s : State) (p p' : Nat) :
    Spares p s { s with notified := Function.update s.notified p' true } := by
  refine ⟨.inl rfl, fun hn => ?_, rfl, id, rfl, rfl, rfl, fun _ _ => rfl⟩
  by_cases hp : p = p'
  · subst hp
    exact Function.update_self ..
  · exact (Function.update_of_ne hp ..).trans hn

theorem spares_notifyAll (s : State) (p p' : Nat) : Spares p s (s.notifyAll p') := by
  unfold State.notifyAll
  split
  · rename_i hblocked
    exact spares_woken p hblocked
  · exact .refl s

theorem spares_notifyCondition (s : State) (p p' : Nat) : Spares p s (s.notifyCondition p') := by
  unfold State.notifyCondition
  split
  · exact spares_notifyAll s p p'
  · exact spares_notified s p p'

theorem spares_adder (s : State) (k p : Nat) (a : Adder) : Spares p s (s.adder k a) := by
  unfold State.adder
  split
  · exact spares_of_spared rfl rfl
  · exact (spares_notifyAll s p a.proc).trans (spares_of_spared rfl rfl)
  · exact (spares_notified s p a.proc).trans (spares_of_spared rfl rfl)
  · exact .refl s

theorem spares_wakeup {w : Wakeup} (hs : s.wakeup k w = some s') : Spares p s s' := by
  have hset : ∀ (u : State) (w' : Wakeup), Spares p u (u.setWakeup k w') :=
    fun u w' => spares_of_spared rfl rfl
  unfold State.wakeup at hs
  split at hs
  · cases hs
    split
    · exact hset s _
    · have hinc : Spares p s (s.incRef w.task) := spares_of_spared rfl rfl
      exact hinc.trans (hset (s.incRef w.task) _)
  · cases hs
    exact hset s _
  · cases hs
    exact hset s _
  · rename_i p' _
    rcases wakeupBySelf_cases hs with ⟨-, rfl⟩ | ⟨-, -, rfl⟩
    · exact hset s _
    · refine Spares.trans ?_ (hset (s.awaken p' w.task) _)
      exact spares_of_spared rfl (awaken_other s p' w.task (by simp) (by simp))
  · cases hs
    exact (spares_notifyCondition s p _).trans (hset _ _)
  · cases hs
    exact (spares_decRef s w.task).trans (hset _ _)
  · cases hs
    exact .refl s

theorem spares_steal (s : State) (k p' n : Nat) : Spares p s (s.steal k p' n) := by
  have hnew := spares_setQueue (p := p) s (State.popSome n (s.queues (.new p'))).1
    (show Queue.new p' ≠ .garbage p by simp)
  have hstolen := hnew.trans (spares_setQueue (p := p) _
    (State.popSome n (s.queues (.new p'))).2 (show Queue.stolen k ≠ .garbage p by simp))
  unfold State.steal
  dsimp only
  split
  · exact hstolen
  · exact hstolen.trans (spares_of_spared rfl rfl)

/-- The thread of another processor goes on with its running task. -/
theorem spares_turn (hlinks : Links s) (hne : p ≠ p') (hr : s.runningTask p' = some t)
    (st : TaskState) (hplace : ∀ r ≠ p', s'.place r = s.place r)
    (hstate : s'.taskState = Function.update s.taskState t st)
    (hnotified : s'.notified = s.notified) (hwaiting : s'.waiting = s.waiting)
    (hstop : s'.stop = s.stop) (hqueues : s'.queues = s.queues)
    (hrunning : s'.runningTask = s.runningTask) (hnext : s'.nextTask = s.nextTask) :
    Spares p s s' := by
  refine ⟨.inl (hplace p hne), fun hn => by rw [hnotified, hn], by rw [hwaiting],
    fun hs => by rw [hstop, hs], by rw [hqueues], by rw [hrunning], by rw [hnext], fun u hu => ?_⟩
  rw [hstate]
  refine Function.update_of_ne ?_ ..
  rintro rfl
  exact hne (hlinks.running_unique hu hr)

/-- What no section of a thread changes, but the switch to a coroutine. -/
structure SameTurn (p : Nat) (s s' : State) : Prop where
  stop : s'.stop = s.stop
  state : s'.taskState = s.taskState
  running : ∀ r ≠ p, s'.runningTask r = s.runningTask r
  next : ∀ r ≠ p, s'.nextTask r = s.nextTask r

theorem sameTurn_decRef (h : SameTurn p s s') (t : Nat) : SameTurn p s (s'.decRef t) := by
  obtain ⟨D, C, heq, -⟩ := exists_decRef_eq s' t
  rw [heq]
  exact ⟨h.stop, h.state, h.running, h.next⟩

theorem sameTurn_thread (hlinks : Links s) (he : Enabled s (.thread p) = true)
    (hin : s.place p ≠ .swapIn) (hs : s.thread p = some s') : SameTurn p s s' := by
  have hrefl : SameTurn p s s := ⟨rfl, rfl, fun _ _ => rfl, fun _ _ => rfl⟩
  cases hplace : s.place p with
  | adding after n =>
    rw [State.thread, hplace, Option.some.injEq] at hs
    subst hs
    unfold State.adding
    split
    · exact ⟨rfl, rfl, fun _ _ => rfl, fun _ _ => rfl⟩
    · exact ⟨rfl, rfl, fun _ _ => rfl, fun _ _ => rfl⟩
  | pop after =>
    rw [State.thread, hplace, Option.some.injEq] at hs
    subst hs
    exact ⟨rfl, rfl, fun _ _ => rfl, fun _ _ => rfl⟩
  | release after rest =>
    rw [State.thread, hplace, Option.some.injEq] at hs
    subst hs
    cases rest with
    | nil => exact ⟨rfl, rfl, fun _ _ => rfl, fun _ _ => rfl⟩
    | cons t rest =>
      have hcollected : SameTurn p s { s with collected := Function.update s.collected t true } :=
        ⟨rfl, rfl, fun _ _ => rfl, fun _ _ => rfl⟩
      have hdec := sameTurn_decRef hcollected t
      exact ⟨hdec.stop, hdec.state, hdec.running, hdec.next⟩
  | clear after =>
    rw [State.thread, hplace, Option.some.injEq] at hs
    subst hs
    unfold State.clear
    split
    · exact ⟨rfl, rfl, fun _ _ => rfl, fun _ _ => rfl⟩
    · rename_i t rest hlist
      have hrest : SameTurn p s (s.setQueue (.garbage p) rest) :=
        ⟨rfl, rfl, fun _ _ => rfl, fun _ _ => rfl⟩
      have hdec := sameTurn_decRef hrest t
      exact ⟨hdec.stop, hdec.state, hdec.running, hdec.next⟩
  | swapIn => exact absurd hplace hin
  | suspending =>
    rw [State.thread, hplace] at hs
    obtain ⟨t, -, -, rfl⟩ := hlinks.suspendBySelf_cases hplace hs
    exact ⟨rfl, rfl, fun _ _ => rfl, fun r hr => Function.update_of_ne hr ..⟩
  | erase =>
    rw [State.thread, hplace] at hs
    obtain ⟨t, hr, heq⟩ := Option.bind_eq_some_iff.1 hs
    obtain ⟨s₁, hs₁, rfl⟩ := Option.map_eq_some_iff.1 heq
    obtain ⟨s₂, hs₂, rfl⟩ := Option.map_eq_some_iff.1 hs₁
    unfold State.unlink at hs₂
    split at hs₂
    · cases hs₂
      have hunlink : SameTurn p s ((s.setQueue (.runnable p)
          ((s.queues (.runnable p)).erase t)).setCheck t none) :=
        ⟨rfl, rfl, fun _ _ => rfl, fun _ _ => rfl⟩
      have hdec := sameTurn_decRef hunlink t
      exact ⟨hdec.stop, hdec.state, hdec.running, hdec.next⟩
    · cases hs₂
  | push =>
    rw [State.thread, hplace] at hs
    obtain ⟨t, hr, rfl⟩ := Option.map_eq_some_iff.1 hs
    exact ⟨rfl, rfl, fun _ _ => rfl, fun _ _ => rfl⟩
  | _ =>
    have hstill := still_thread hlinks (by rw [hplace]; rfl) he hs
    refine ⟨?_, ?_, fun r hr => (hstill.other hr).2, fun r hr => ?_⟩
    · show (s'.outside p).stop = (s.outside p).stop
      rw [hstill.outside]
    · show (s'.outside p).taskState = (s.outside p).taskState
      rw [hstill.outside]
    · have hnext : (s'.outside p).nextTask r = (s.outside p).nextTask r := by rw [hstill.outside]
      unfold State.outside at hnext
      dsimp only at hnext
      rwa [Function.update_of_ne hr, Function.update_of_ne hr] at hnext

theorem spares_thread (hlinks : Links s) (he : Enabled s (.thread p') = true) (hne : p ≠ p')
    (hs : s.thread p' = some s') : Spares p s s' := by
  by_cases hin : s.place p' = .swapIn
  · rw [State.thread, hin] at hs
    obtain ⟨t, hr, rfl⟩ := Option.map_eq_some_iff.1 hs
    exact spares_turn hlinks hne hr .runnable (fun r hr => Function.update_of_ne hr ..) rfl rfl rfl
      rfl rfl rfl rfl
  · have hl := leaves_thread hs
    have hsame := sameTurn_thread hlinks he hin hs
    refine ⟨.inl (hl.place p hne), fun hn => by rw [hl.notified p hne, hn], hl.waiting p hne,
      fun hstop => by rw [hsame.stop, hstop], hl.queues _ ?_ (by simp), hsame.running p hne,
      hsame.next p hne, fun t _ => by rw [hsame.state]⟩
    simpa [Queue.isOf] using hne.symm

theorem spares_step (hlinks : Links s) {a : Action} (hother : a.isOf p = false)
    (he : Enabled s a = true) (hs : step s a = some s') : Spares p s s' := by
  cases a with
  | create p' =>
    cases hs
    refine ⟨.inl rfl, id, rfl, id, create_other s p' (by simp), rfl, rfl, fun t ht => ?_⟩
    exact Function.update_of_ne (hlinks.knownRunning p t ht).ne ..
  | adder k =>
    obtain ⟨a, -, rfl⟩ := Option.map_eq_some_iff.1 hs
    exact spares_adder s k p a
  | thread p' => exact spares_thread hlinks he (by simpa [Action.isOf] using hother) hs
  | yield p' =>
    cases hs
    exact spares_goto s .switch (by simpa [Action.isOf] using hother)
  | suspend p' =>
    obtain ⟨t, hr, rfl⟩ := Option.map_eq_some_iff.1 hs
    exact spares_turn hlinks (by simpa [Action.isOf] using hother) hr .block
      (fun r hr => Function.update_of_ne hr ..) rfl rfl rfl rfl rfl rfl rfl
  | finish p' =>
    obtain ⟨t, hr, rfl⟩ := Option.map_eq_some_iff.1 hs
    exact spares_turn hlinks (by simpa [Action.isOf] using hother) hr .done
      (fun r hr => Function.update_of_ne hr ..) rfl rfl rfl rfl rfl rfl rfl
  | spurious p' =>
    cases hs
    exact spares_woken p (of_decide_eq_true he)
  | wake caller t id =>
    cases hs
    exact spares_of_spared rfl rfl
  | wakeup k =>
    obtain ⟨w, -, hw⟩ := Option.bind_eq_some_iff.1 hs
    exact spares_wakeup hw
  | steal k p' n =>
    cases hs
    exact spares_steal s k p' n
  | stealRest k =>
    obtain ⟨r, -, hr⟩ := Option.bind_eq_some_iff.1 hs
    obtain ⟨D, C, heq, -⟩ := hlinks.stealRest_eq (k := k) (p := r.1) (n := r.2)
    rw [heq, Option.some.injEq] at hr
    subst hr
    have hgarbage : (s.stealt k r.1 r.2).queues (.garbage p) = s.queues (.garbage p) :=
      stealt_other k r.1 r.2 s (by simp) (by simp)
    exact spares_of_spared rfl hgarbage
  | append k k' =>
    cases hs
    exact (spares_setQueue s _ (by simp)).trans (spares_setQueue _ _ (by simp))
  | cut k k' n =>
    cases hs
    exact (spares_setQueue s _ (by simp)).trans (spares_setQueue _ _ (by simp))
  | addTask k p' =>
    cases hs
    exact ((spares_setQueue s _ (by simp)).trans (spares_setQueue _ _ (by simp))).trans
      (spares_notifyCondition _ p p')
  | notify p' =>
    cases hs
    exact spares_notifyCondition s p p'
  | stop =>
    cases hs
    exact ⟨.inl rfl, id, rfl, fun _ => rfl, rfl, rfl, rfl, fun _ _ => rfl⟩

/-! ## The thread after `Stop` -/

/-- The thread comes to `WaitCondition` without reading the flag. -/
def Place.heading : Place → Bool
  | .front | .frontAgain | .addNew .frontAgain | .adding .frontAgain _ => true
  | .pop .condition | .release .condition _ | .clear .condition | .condition => true
  | _ => false

/-- The parts of `Process` that are to come before the flag is read. -/
def Place.level : Place → Nat
  | .stopped => 0
  | .loop | .inner | .blocked => 1
  | .adding .loop _ | .finish | .nextRunnable => 2
  | .addNew .loop | .adding .nextRunnable _ | .push => 3
  | .woken | .addNew .nextRunnable | .clear .push => 4
  | .condition | .release .push _ => 5
  | .clear .condition | .pop .push => 6
  | .release .condition _ | .erase => 7
  | .pop .condition | .nextAgain => 8
  | .frontAgain | .adding .nextAgain _ => 9
  | .adding .frontAgain _ | .addNew .nextAgain => 10
  | .addNew .frontAgain | .next => 11
  | .front | .switch => 12
  | .running => 13
  | .suspending => 14
  | .swapIn => 16

/-- A coroutine that has not suspended itself can still do so. -/
def State.level (s : State) (p : Nat) : Nat :=
  if s.place p = .running ∧ Runs s p = true then 15 else (s.place p).level

/-- What is left of the loop that the thread is in. -/
def State.count (s : State) (p : Nat) : Nat :=
  match s.place p with
  | .adding _ n => n
  | .release _ rest => rest.length
  | .clear _ => (s.queues (.garbage p)).length
  | _ => 0

def State.rank (s : State) (p : Nat) : Nat ×ₗ Nat := toLex (s.level p, s.count p)

theorem level_of {place : Place} (h : s.place p = place) (hne : place ≠ .running) :
    s.level p = place.level := by
  unfold State.level
  rw [h, if_neg fun hand => hne hand.1]

theorem rank_lt_of_level (h : s'.level p < s.level p) : s'.rank p < s.rank p :=
  Prod.Lex.toLex_lt_toLex.2 (.inl h)

/-- The thread comes nearer to the flag, and keeps the notification that it needs. -/
structure Descends (p : Nat) (s s' : State) : Prop where
  rank : s'.rank p < s.rank p
  heading : (s'.place p).heading = true →
    (s.place p).heading = true ∧ s'.notified p = s.notified p
  blocked : s'.place p ≠ .blocked

theorem descends_level {old new : Place} (hold : s.place p = old) (hnew : s'.place p = new)
    (hrun : old ≠ .running ∧ new ≠ .running) (hlt : new.level < old.level)
    (hheading : new.heading = true → old.heading = true ∧ s'.notified p = s.notified p)
    (hblocked : new ≠ .blocked) : Descends p s s' := by
  refine ⟨rank_lt_of_level ?_, ?_, by rw [hnew]; exact hblocked⟩
  · rw [level_of hold hrun.1, level_of hnew hrun.2]
    exact hlt
  · rw [hnew, hold]
    exact hheading

/-- The loop that the thread is in goes on. -/
theorem descends_count {old new : Place} (hold : s.place p = old) (hnew : s'.place p = new)
    (hrun : old ≠ .running ∧ new ≠ .running) (heq : new.level = old.level)
    (hlt : s'.count p < s.count p) (hheading : new.heading = old.heading)
    (hnotified : s'.notified p = s.notified p) (hblocked : new ≠ .blocked) : Descends p s s' := by
  refine ⟨Prod.Lex.toLex_lt_toLex.2 (.inr ⟨?_, hlt⟩), ?_, by rw [hnew]; exact hblocked⟩
  · rw [level_of hold hrun.1, level_of hnew hrun.2]
    exact heq
  · rw [hnew, hold, hheading]
    exact fun h => ⟨h, hnotified⟩

/-! ### The sections -/

theorem front_notified (s : State) (p : Nat) (empty : Place) :
    (s.front p empty).notified = s.notified := by
  obtain ⟨check, hmark⟩ := exists_mark_eq s (.runnable p) (s.queues (.runnable p)).head?
  unfold State.front
  dsimp only
  rw [hmark]
  split <;> rfl

theorem descends_front {old empty : Place} (hold : s.place p = old)
    (hrun : old ≠ .running ∧ empty ≠ .running) (hlt : empty.level < old.level)
    (hone : 1 < old.level) (hheading : old.heading = true) (hblocked : empty ≠ .blocked) :
    Descends p s (s.front p empty) := by
  obtain ⟨-, -, hplace⟩ := front_place s p empty
  have hnotified := congrFun (front_notified s p empty) p
  by_cases hempty : s.queues (.runnable p) = []
  · rw [if_pos hempty] at hplace
    exact descends_level hold hplace hrun hlt (fun _ => ⟨hheading, hnotified⟩) hblocked
  · rw [if_neg hempty] at hplace
    exact descends_level hold hplace ⟨hrun.1, by simp⟩ hone (fun h => by cases h) (by simp)

theorem proceed_place (s : State) (p : Nat) (task : Option Nat) :
    (s.proceed p task).place p = if task = none then .loop else .inner := goto_place ..

theorem takeNext_place (s : State) (p : Nat) :
    (s.takeNext p).place p = if s.nextTask p = none then .loop else .inner := goto_place ..

/-- The thread comes to the head of a loop. -/
theorem descends_head {old : Place} (hold : s.place p = old) {task : Option Nat}
    (hnew : s'.place p = if task = none then .loop else .inner) (hrun : old ≠ .running)
    (hlt : 1 < old.level) : Descends p s s' := by
  by_cases hnone : task = none
  · rw [if_pos hnone] at hnew
    exact descends_level hold hnew ⟨hrun, by simp⟩ hlt (fun h => by cases h) (by simp)
  · rw [if_neg hnone] at hnew
    exact descends_level hold hnew ⟨hrun, by simp⟩ hlt (fun h => by cases h) (by simp)

theorem level_adding (after : AfterAdd) (n : Nat) :
    after.place.level < (Place.adding after n).level ∧
      (Place.adding after n).level < (Place.addNew after).level := by
  cases after <;> simp [AfterAdd.place, Place.level]

theorem heading_adding (after : AfterAdd) (n : Nat) :
    (Place.adding after n).heading = (Place.addNew after).heading ∧
      (after.place.heading = true → (Place.adding after n).heading = true) := by
  cases after <;> exact ⟨rfl, fun h => h⟩

theorem descends_adding {after : AfterAdd} {n : Nat} (hplace : s.place p = .adding after n) :
    Descends p s (s.adding p after n) := by
  unfold State.adding
  split
  · rename_i t rest hup
    refine descends_count hplace (goto_place ..) ⟨by simp, by simp⟩ (by cases after <;> rfl) ?_
      (by cases after <;> rfl) rfl (by simp)
    unfold State.count
    rw [goto_place, hplace]
    exact Nat.lt_succ_self _
  · refine descends_level hplace (goto_place ..) ⟨by simp, by cases after <;> simp [AfterAdd.place]⟩
      (level_adding after _).1 (fun h => ⟨(heading_adding after _).2 h, rfl⟩)
      (by cases after <;> simp [AfterAdd.place])

theorem level_gc (after : AfterGC) (rest : List Nat) :
    after.place.level < (Place.clear after).level ∧
      (Place.clear after).level < (Place.release after rest).level ∧
        (Place.release after rest).level < (Place.pop after).level := by
  cases after <;> simp [AfterGC.place, Place.level]

theorem heading_gc (after : AfterGC) (rest : List Nat) :
    after.place.heading = (Place.clear after).heading ∧
      (Place.clear after).heading = (Place.release after rest).heading ∧
        (Place.release after rest).heading = (Place.pop after).heading := by
  cases after <;> exact ⟨rfl, rfl, rfl⟩

theorem descends_popAll {after : AfterGC} (hplace : s.place p = .pop after) :
    Descends p s (s.popAll p after) :=
  descends_level hplace (goto_place ..) ⟨by simp, by simp⟩ (level_gc after _).2.2
    (fun h => ⟨(heading_gc after _).2.2 ▸ h, rfl⟩) (by simp)

theorem descends_release {after : AfterGC} {rest : List Nat}
    (hplace : s.place p = .release after rest) : Descends p s (s.release p after rest) := by
  cases rest with
  | nil =>
    exact descends_level hplace (goto_place ..) ⟨by simp, by simp⟩ (level_gc after []).2.1
      (fun h => ⟨(heading_gc after []).2.1 ▸ h, rfl⟩) (by simp)
  | cons t rest =>
    refine descends_count hplace (goto_place ..) ⟨by simp, by simp⟩ (by cases after <;> rfl) ?_
      (by cases after <;> rfl) (congrFun (decRef_notified _ t) p) (by simp)
    unfold State.count
    rw [State.release, goto_place, hplace]
    exact Nat.lt_succ_self _

theorem descends_clear {after : AfterGC} (hplace : s.place p = .clear after) :
    Descends p s (s.clear p after) := by
  unfold State.clear
  split
  · exact descends_level hplace (goto_place ..) ⟨by simp, by cases after <;> simp [AfterGC.place]⟩
      (level_gc after []).1 (fun h => ⟨(heading_gc after []).1 ▸ h, rfl⟩)
      (by cases after <;> simp [AfterGC.place])
  · rename_i t rest hlist
    refine descends_count hplace ((goto_place ..)) ⟨by simp, by simp⟩ rfl ?_ rfl
      (congrFun (decRef_notified _ t) p) (by simp)
    unfold State.count
    rw [goto_place, hplace]
    show (((s.setQueue (.garbage p) rest).decRef t).queues (.garbage p)).length < _
    rw [decRef_queues, hlist,
      show (s.setQueue (.garbage p) rest).queues (.garbage p) = rest from Function.update_self ..]
    exact Nat.lt_succ_self _

theorem descends_switch (hplace : s.place p = .switch) (hs : s.switch p = some s') :
    Descends p s s' := by
  obtain ⟨t, hr, rfl⟩ := Option.map_eq_some_iff.1 hs
  cases s.taskState t with
  | runnable =>
    dsimp only
    unfold State.caseRunnable
    split
    · exact descends_head hplace (proceed_place _ p _) (by simp) (by decide)
    · split
      · exact descends_head hplace (proceed_place _ p _) (by simp) (by decide)
      · exact descends_level hplace (goto_place ..) ⟨by simp, by simp⟩ (by decide)
          (fun h => by cases h) (by simp)
  | block => exact descends_head hplace (takeNext_place s p) (by simp) (by decide)
  | done =>
    exact descends_level hplace (goto_place ..) ⟨by simp, by simp⟩ (by decide)
      (fun h => by cases h) (by simp)

/-- The thread switches to a coroutine. -/
theorem descends_swapIn (hplace : s.place p = .swapIn) (hs : s.swapIn p = some s') :
    Descends p s s' := by
  obtain ⟨t, hr, rfl⟩ := Option.map_eq_some_iff.1 hs
  refine ⟨rank_lt_of_level ?_, ?_, by rw [goto_place]; simp⟩
  · rw [level_of hplace (by simp)]
    unfold State.level
    split
    · decide
    · rw [goto_place]
      decide
  · rw [goto_place]
    exact fun h => by cases h

/-- The coroutine is suspended, and can only yield. -/
theorem descends_suspendBySelf (hlinks : Links s) (hplace : s.place p = .suspending)
    (hs : s.suspendBySelf p = some s') : Descends p s s' := by
  obtain ⟨t, hr, -, rfl⟩ := hlinks.suspendBySelf_cases hplace hs
  have hblock : s.taskState t = .block := (hlinks.seated p).state _ (by rw [hplace]; rfl) t hr
  have hnew : (s.asleep p t).place p = .running := Function.update_self ..
  have hruns : Runs (s.asleep p t) p ≠ true := by
    intro hruns
    obtain ⟨u, hu, hst⟩ := runs_iff.1 hruns
    have hut : u = t := Option.some.inj (Eq.trans hu.symm hr)
    rw [hut, show (s.asleep p t).taskState t = s.taskState t from rfl, hblock] at hst
    cases hst
  refine ⟨rank_lt_of_level ?_, ?_, by rw [hnew]; simp⟩
  · rw [level_of hplace (by simp)]
    unfold State.level
    rw [if_neg fun h => hruns h.2, hnew]
    decide
  · rw [hnew]
    exact fun h => by cases h

/-- Any section, but that of `WaitCondition` and the reading of a flag that is not set. -/
theorem descends_thread (hlinks : Links s)
    (hstop : s.place p = .loop ∨ s.place p = .inner → s.stop = true)
    (he : Enabled s (.thread p) = true) (hcond : s.place p ≠ .condition)
    (hs : s.thread p = some s') : Descends p s s' := by
  cases hplace : s.place p with
  | loop | inner =>
    rw [State.thread, hplace, Option.some.injEq, hstop (by simp [hplace]), if_pos rfl] at hs
    subst hs
    exact descends_level hplace (goto_place ..) ⟨by simp, by simp⟩ (by decide)
      (fun h => by cases h) (by simp)
  | front | frontAgain =>
    rw [State.thread, hplace, Option.some.injEq] at hs
    subst hs
    exact descends_front hplace ⟨by simp, by simp⟩ (by decide) (by decide) rfl (by simp)
  | addNew after =>
    rw [State.thread, hplace, Option.some.injEq] at hs
    subst hs
    exact descends_level hplace (goto_place ..) ⟨by simp, by simp⟩ (level_adding after _).2
      (fun h => ⟨(heading_adding after _).1 ▸ h, rfl⟩) (by simp)
  | adding after n =>
    rw [State.thread, hplace, Option.some.injEq] at hs
    exact hs ▸ descends_adding hplace
  | pop after =>
    rw [State.thread, hplace, Option.some.injEq] at hs
    exact hs ▸ descends_popAll hplace
  | release after rest =>
    rw [State.thread, hplace, Option.some.injEq] at hs
    exact hs ▸ descends_release hplace
  | clear after =>
    rw [State.thread, hplace, Option.some.injEq] at hs
    exact hs ▸ descends_clear hplace
  | condition => exact absurd hplace hcond
  | blocked | running | stopped => simp [Enabled, hplace] at he
  | woken =>
    rw [State.thread, hplace, Option.some.injEq] at hs
    subst hs
    exact descends_level hplace (goto_place ..) ⟨by simp, by simp⟩ (by decide)
      (fun h => by cases h) (by simp)
  | swapIn =>
    rw [State.thread, hplace] at hs
    exact descends_swapIn hplace hs
  | suspending =>
    rw [State.thread, hplace] at hs
    exact descends_suspendBySelf hlinks hplace hs
  | switch =>
    rw [State.thread, hplace] at hs
    exact descends_switch hplace hs
  | nextRunnable =>
    rw [State.thread, hplace] at hs
    obtain ⟨t, hr, rfl⟩ := Option.map_eq_some_iff.1 hs
    exact descends_head hplace (proceed_place _ p _) (by simp) (by decide)
  | next =>
    rw [State.thread, hplace] at hs
    obtain ⟨s₁, hs₁, rfl⟩ := Option.map_eq_some_iff.1 hs
    by_cases hagain : s₁.nextTask p = none ∧ 0 < s₁.addNewQuota p
    · rw [if_pos hagain]
      exact descends_level hplace (goto_place ..) ⟨by simp, by simp⟩ (by decide)
        (fun h => by cases h) (by simp)
    · rw [if_neg hagain]
      exact descends_level hplace (goto_place ..) ⟨by simp, by simp⟩ (by decide)
        (fun h => by cases h) (by simp)
  | nextAgain =>
    rw [State.thread, hplace] at hs
    obtain ⟨s₁, hs₁, rfl⟩ := Option.map_eq_some_iff.1 hs
    exact descends_level hplace (goto_place ..) ⟨by simp, by simp⟩ (by decide)
      (fun h => by cases h) (by simp)
  | erase =>
    rw [State.thread, hplace] at hs
    obtain ⟨t, hr, heq⟩ := Option.bind_eq_some_iff.1 hs
    obtain ⟨s₁, hs₁, rfl⟩ := Option.map_eq_some_iff.1 heq
    by_cases hmany : 16 < (s₁.queues (.gc p)).length
    · rw [if_pos hmany]
      exact descends_level hplace (goto_place ..) ⟨by simp, by simp⟩ (by decide)
        (fun h => by cases h) (by simp)
    · rw [if_neg hmany]
      exact descends_level hplace (goto_place ..) ⟨by simp, by simp⟩ (by decide)
        (fun h => by cases h) (by simp)
  | push =>
    rw [State.thread, hplace] at hs
    obtain ⟨t, hr, rfl⟩ := Option.map_eq_some_iff.1 hs
    exact descends_level hplace (goto_place ..) ⟨by simp, by simp⟩ (by decide)
      (fun h => by cases h) (by simp)
  | finish =>
    rw [State.thread, hplace, Option.some.injEq] at hs
    subst hs
    exact descends_head hplace (takeNext_place s p) (by simp) (by decide)

/-- A step of the coroutine on `p`. -/
theorem descends_running (hplace : s.place p = .running) {new : Place} (hnew : s'.place p = new)
    (hlt : new = .switch ∨ new = .suspending ∧ Runs s p = true) : Descends p s s' := by
  have hlevel : s.level p = if Runs s p = true then 15 else 13 := by
    unfold State.level
    rw [hplace]
    simp [Place.level]
  rcases hlt with rfl | ⟨rfl, hruns⟩
  · refine ⟨rank_lt_of_level ?_, fun h => ?_, by rw [hnew]; simp⟩
    · rw [level_of hnew (by simp), hlevel]
      split <;> decide
    · rw [hnew] at h
      cases h
  · refine ⟨rank_lt_of_level ?_, fun h => ?_, by rw [hnew]; simp⟩
    · rw [level_of hnew (by simp), hlevel, if_pos hruns]
      decide
    · rw [hnew] at h
      cases h

theorem descends_step (hlinks : Links s)
    (hstop : s.place p = .loop ∨ s.place p = .inner → s.stop = true) {a : Action}
    (hown : a.isOf p = true) (hkept : a.kept s = true) (he : Enabled s a = true)
    (hs : step s a = some s') : Descends p s s' := by
  cases a with
  | thread p' =>
    have hp : p = p' := of_decide_eq_true hown
    subst hp
    exact descends_thread hlinks hstop he (by simpa [Action.kept] using hkept) hs
  | yield p' =>
    have hp : p = p' := of_decide_eq_true hown
    subst hp
    cases hs
    simp only [Enabled, Bool.and_eq_true, decide_eq_true_eq] at he
    exact descends_running he.1 (goto_place ..) (.inl rfl)
  | suspend p' =>
    have hp : p = p' := of_decide_eq_true hown
    subst hp
    obtain ⟨t, -, rfl⟩ := Option.map_eq_some_iff.1 hs
    simp only [Enabled, Bool.and_eq_true, decide_eq_true_eq] at he
    exact descends_running he.1.1 (goto_place ..) (.inr ⟨rfl, he.2⟩)
  | finish p' =>
    have hp : p = p' := of_decide_eq_true hown
    subst hp
    obtain ⟨t, -, rfl⟩ := Option.map_eq_some_iff.1 hs
    simp only [Enabled, Bool.and_eq_true, decide_eq_true_eq] at he
    exact descends_running he.1.1 (goto_place ..) (.inl rfl)
  | _ => cases hown

/-- A thread that does not sleep is as far as it was. -/
theorem Spares.rank (h : Spares p s s') (hblocked : s.place p ≠ .blocked) : s'.rank p = s.rank p := by
  have hplace : s'.place p = s.place p := h.place.resolve_right fun hmoved => hblocked hmoved.1
  have hruns : Runs s' p = Runs s p := by
    unfold Runs
    rw [h.running]
    cases hr : s.runningTask p with
    | none => rfl
    | some t => simp only [Option.any_some, h.state t hr]
  unfold State.rank State.level State.count
  rw [hplace, hruns, h.garbage]

/-! ## The invariants -/

variable {f f' : FineState}

/-- `waiting_` is set from before the wait until after it. -/
def Sleeping (f : FineState) (p : Nat) : Prop :=
  f.base.waiting p = true →
    f.base.place p = .blocked ∨ f.base.place p = .woken ∨ f.stage p = .wait

/-- After `Stop` the thread of `p` neither sleeps nor is about to. -/
structure Doomed (f : FineState) (p : Nat) : Prop where
  stop : f.base.stop = true
  blocked : f.base.place p ≠ .blocked
  stage : f.stage p = .outside ∨ f.stage p = .clear
  heading : (f.base.place p).heading = true → f.stage p = .outside → f.base.notified p = true

/-- What the steps of `WaitCondition` and of the threads rely on. -/
structure Waits (f : FineState) (p : Nat) : Prop where
  links : Links f.base
  attended : Attended f p
  sleeping : Sleeping f p

def FineState.rank (f : FineState) (p : Nat) : Nat ×ₗ Nat :=
  if f.stage p = .clear then toLex (4, 0) else f.base.rank p

theorem Sleeping.of_spares (h : Sleeping f p) (hs : Spares p f.base f'.base)
    (hstage : f'.stage p = f.stage p) : Sleeping f' p := by
  intro hw
  rw [hs.waiting] at hw
  rw [hstage]
  rcases h hw with hb | hwoken | hwait
  · rcases hs.place with hsame | hmoved
    · exact .inl (hsame.trans hb)
    · exact .inr (.inl hmoved.2)
  · rcases hs.place with hsame | hmoved
    · exact .inr (.inl (hsame.trans hwoken))
    · rw [hwoken] at hmoved
      cases hmoved.1
  · exact .inr (.inr hwait)

theorem Doomed.of_spares (h : Doomed f p) (hs : Spares p f.base f'.base)
    (hstage : f'.stage p = f.stage p) : Doomed f' p := by
  have hplace : f'.base.place p = f.base.place p :=
    hs.place.resolve_right fun hmoved => h.blocked hmoved.1
  refine ⟨hs.stop h.stop, ?_, ?_, fun hheading hout => hs.notified ?_⟩
  · rw [hplace]
    exact h.blocked
  · rw [hstage]
    exact h.stage
  · rw [hplace] at hheading
    rw [hstage] at hout
    exact h.heading hheading hout

theorem Doomed.rank_of_spares (h : Doomed f p) (hs : Spares p f.base f'.base)
    (hstage : f'.stage p = f.stage p) : f'.rank p = f.rank p := by
  unfold FineState.rank
  rw [hstage, hs.rank h.blocked]

/-- The thread does not wait, and sets no flag. -/
theorem Waits.own_waiting (h : Waits f p) {a : Action} (hown : a.isOf p = true)
    (hkept : a.kept f.base = true) (he : Enabled f.base a = true)
    (hs : step f.base a = some s') : s'.waiting p ≠ true := by
  obtain ⟨hcond, hblocked, -⟩ := place_of_isOf hown hkept he hs
  have hstage : f.stage p ≠ .wait := fun hwait =>
    hcond (h.attended.stage (by rw [hwait]; simp))
  have hbefore : f.base.place p ≠ .woken → f.base.waiting p ≠ true := by
    intro hwoken hw
    rcases h.sleeping hw with hb | hb | hb
    · exact hblocked hb
    · exact hwoken hb
    · exact hstage hb
  cases a with
  | thread p' =>
    have hp : p = p' := of_decide_eq_true hown
    subst hp
    replace hs : f.base.thread p = some s' := hs
    cases hphase : (f.base.place p).phase with
    | busy =>
      rw [(thread_busy hphase hs).waiting]
      refine hbefore fun hwoken => ?_
      rw [hwoken] at hphase
      cases hphase
    | window =>
      rcases thread_window hphase hs with hc | ⟨hplace, -⟩
      · rw [hc.waiting]
        refine hbefore fun hwoken => ?_
        rw [hwoken] at hphase
        cases hphase
      · exact absurd hplace hcond
    | blocked => exact absurd (phase_blocked_iff.1 hphase) hblocked
    | woken =>
      rw [State.thread, phase_woken_iff.1 hphase, Option.some.injEq] at hs
      subst hs
      show Function.update f.base.waiting p false p ≠ true
      rw [Function.update_self]
      simp
  | yield p' =>
    have hp : p = p' := of_decide_eq_true hown
    subst hp
    cases hs
    simp only [Enabled, Bool.and_eq_true, decide_eq_true_eq] at he
    exact hbefore (by rw [he.1]; simp)
  | suspend p' =>
    have hp : p = p' := of_decide_eq_true hown
    subst hp
    obtain ⟨t, -, rfl⟩ := Option.map_eq_some_iff.1 hs
    simp only [Enabled, Bool.and_eq_true, decide_eq_true_eq] at he
    exact hbefore (by rw [he.1.1]; simp)
  | finish p' =>
    have hp : p = p' := of_decide_eq_true hown
    subst hp
    obtain ⟨t, -, rfl⟩ := Option.map_eq_some_iff.1 hs
    simp only [Enabled, Bool.and_eq_true, decide_eq_true_eq] at he
    exact hbefore (by rw [he.1.1]; simp)
  | _ => cases hown

/-! ### The steps of others -/

theorem spares_fine (hlinks : Links f.base) {a : FineAction} (hother : a.isOf p = false)
    (he : FineEnabled f a = true) (hs : fineStep f a = some f') :
    Spares p f.base f'.base ∧ f'.stage p = f.stage p := by
  cases a with
  | base a =>
    obtain ⟨s, hstep, rfl⟩ := Option.map_eq_some_iff.1 hs
    simp only [FineEnabled, Bool.and_eq_true] at he
    exact ⟨spares_step hlinks hother he.1.1 hstep, rfl⟩
  | test p' =>
    cases hs
    exact ⟨.refl f.base, setStage_other f _ (by simpa [FineAction.isOf] using hother)⟩
  | clear p' =>
    cases hs
    have hne : p ≠ p' := by simpa [FineAction.isOf] using hother
    refine ⟨?_, setStage_other f .outside hne⟩
    refine ⟨.inl (Function.update_of_ne hne ..), fun hn => ?_, rfl, id, rfl, rfl, rfl, fun _ _ => rfl⟩
    exact (Function.update_of_ne hne ..).trans hn
  | mark p' =>
    cases hs
    have hne : p ≠ p' := by simpa [FineAction.isOf] using hother
    refine ⟨?_, setStage_other f .wait hne⟩
    exact ⟨.inl rfl, id, Function.update_of_ne hne .., id, rfl, rfl, rfl, fun _ _ => rfl⟩
  | wait p' =>
    cases hs
    have hne : p ≠ p' := by simpa [FineAction.isOf] using hother
    exact ⟨spares_goto f.base .blocked hne, setStage_other f .outside hne⟩
  | loadSize p' | isWaiting p' =>
    cases hs
    exact ⟨.refl f.base, rfl⟩
  | notify p' =>
    cases hs
    exact ⟨spares_notifyCondition f.base p p', rfl⟩

/-! ### Every step keeps `Waits` -/

theorem links_fine (h : ∀ p, Waits f p) {a : FineAction} (he : FineEnabled f a = true)
    (hs : fineStep f a = some f') : Links f'.base := by
  have hlinks := (h 0).links
  cases a with
  | base a =>
    obtain ⟨s, hstep, rfl⟩ := Option.map_eq_some_iff.1 hs
    simp only [FineEnabled, Bool.and_eq_true] at he
    exact hlinks.step he.1.1 hstep
  | clear p' =>
    cases hs
    have hplace := (h p').attended.stage (by rw [of_decide_eq_true he]; simp)
    have hgoto : Links (f.base.goto p' (.addNew .loop)) := by
      refine hlinks.goto_like ?_ ?_ ?_ ?_
      all_goals rw [hplace]
      all_goals simp [Place.seat, Place.fresh, Place.taskState, Place.collecting, AfterAdd.seat]
    exact hgoto.of_core rfl
  | wait p' =>
    cases hs
    have hplace := (h p').attended.stage (by rw [of_decide_eq_true he]; simp)
    refine hlinks.goto_like ?_ ?_ ?_ ?_
    all_goals rw [hplace]
    all_goals simp [Place.seat, Place.fresh, Place.taskState, Place.collecting]
  | mark p' =>
    cases hs
    exact hlinks.of_core rfl
  | notify p' =>
    cases hs
    exact hlinks.notifyCondition
  | test p' | loadSize p' | isWaiting p' =>
    cases hs
    exact hlinks

theorem sleeping_fine (h : Waits f p) {a : FineAction} (he : FineEnabled f a = true)
    (hs : fineStep f a = some f') : Sleeping f' p := by
  cases hown : a.isOf p with
  | false =>
    obtain ⟨hspares, hstage⟩ := spares_fine h.links hown he hs
    exact h.sleeping.of_spares hspares hstage
  | true =>
    cases a with
    | base a =>
      obtain ⟨s, hstep, rfl⟩ := Option.map_eq_some_iff.1 hs
      simp only [FineEnabled, Bool.and_eq_true] at he
      exact fun hw => absurd hw (h.own_waiting hown he.1.2 he.1.1 hstep)
    | test p' =>
      have hp : p = p' := of_decide_eq_true hown
      subst hp
      cases hs
      simp only [FineEnabled, Bool.and_eq_true, decide_eq_true_eq] at he
      intro hw
      rcases h.sleeping hw with hb | hb | hb
      · exact .inl hb
      · exact .inr (.inl hb)
      · rw [he.2] at hb
        cases hb
    | clear p' =>
      have hp : p = p' := of_decide_eq_true hown
      subst hp
      cases hs
      have hstage : f.stage p = .clear := of_decide_eq_true he
      have hplace := h.attended.stage (by rw [hstage]; simp)
      intro hw
      rcases h.sleeping hw with hb | hb | hb
      · rw [hplace] at hb
        cases hb
      · rw [hplace] at hb
        cases hb
      · rw [hstage] at hb
        cases hb
    | mark p' =>
      have hp : p = p' := of_decide_eq_true hown
      subst hp
      cases hs
      exact fun _ => .inr (.inr (setStage_self f p .wait))
    | wait p' =>
      have hp : p = p' := of_decide_eq_true hown
      subst hp
      cases hs
      exact fun _ => .inl (goto_place ..)
    | _ => cases hown

theorem waits_fine (h : ∀ p, Waits f p) {a : FineAction} (he : FineEnabled f a = true)
    (hs : fineStep f a = some f') (p : Nat) : Waits f' p :=
  ⟨links_fine h he hs, (h p).attended.step he hs, sleeping_fine (h p) he hs⟩

/-! ### A doomed thread -/

theorem own_stop (hlinks : Links s) {a : Action} (hown : a.isOf p = true)
    (he : Enabled s a = true) (hs : step s a = some s') : s'.stop = s.stop := by
  cases a with
  | thread p' =>
    by_cases hin : s.place p' = .swapIn
    · replace hs : s.thread p' = some s' := hs
      rw [State.thread, hin] at hs
      obtain ⟨t, -, rfl⟩ := Option.map_eq_some_iff.1 hs
      rfl
    · exact (sameTurn_thread hlinks he hin hs).stop
  | yield p' =>
    cases hs
    rfl
  | suspend p' | finish p' =>
    obtain ⟨t, -, rfl⟩ := Option.map_eq_some_iff.1 hs
    rfl
  | _ => cases hown

/-- A step of its own. -/
theorem Doomed.own (h : Doomed f p) (hw : Waits f p) {a : FineAction} (hown : a.isOf p = true)
    (he : FineEnabled f a = true) (hs : fineStep f a = some f') :
    Doomed f' p ∧ f'.rank p < f.rank p := by
  cases a with
  | base a =>
    obtain ⟨s, hstep, rfl⟩ := Option.map_eq_some_iff.1 hs
    simp only [FineEnabled, Bool.and_eq_true] at he
    obtain ⟨hcond, -, hblocked⟩ := place_of_isOf hown he.1.2 he.1.1 hstep
    have hstage : f.stage p = .outside := by
      by_contra hstage
      exact hcond (hw.attended.stage hstage)
    have hd := descends_step hw.links (fun _ => h.stop) hown he.1.2 he.1.1 hstep
    refine ⟨⟨?_, hblocked, .inl hstage, fun hheading _ => ?_⟩, ?_⟩
    · exact (own_stop hw.links hown he.1.1 hstep).trans h.stop
    · obtain ⟨hold, hnotified⟩ := hd.heading hheading
      exact hnotified.trans (h.heading hold hstage)
    · unfold FineState.rank
      rw [hstage, if_neg (by simp), if_neg (by simp)]
      exact hd.rank
  | test p' =>
    have hp : p = p' := of_decide_eq_true hown
    subst hp
    cases hs
    simp only [FineEnabled, Bool.and_eq_true, decide_eq_true_eq] at he
    have hnotified := h.heading (by rw [he.1]; rfl) he.2
    have hstage : (f.test p).stage p = .clear := by
      unfold FineState.test
      rw [setStage_self, if_pos hnotified]
    refine ⟨⟨h.stop, h.blocked, .inr hstage, fun _ hout => ?_⟩, ?_⟩
    · rw [hstage] at hout
      cases hout
    · unfold FineState.rank
      rw [hstage, he.2, if_pos rfl, if_neg (by simp)]
      refine Prod.Lex.toLex_lt_toLex.2 (.inl ?_)
      rw [level_of he.1 (by simp)]
      simp [Place.level]
  | clear p' =>
    have hp : p = p' := of_decide_eq_true hown
    subst hp
    cases hs
    have hstage : f.stage p = .clear := of_decide_eq_true he
    have hplace : (f.clear p).base.place p = .addNew .loop := goto_place ..
    have hout : (f.clear p).stage p = .outside := setStage_self f p .outside
    refine ⟨⟨h.stop, by rw [hplace]; simp, .inl hout, fun hheading => ?_⟩, ?_⟩
    · rw [hplace] at hheading
      cases hheading
    · unfold FineState.rank
      rw [hstage, hout, if_pos rfl, if_neg (by simp)]
      refine Prod.Lex.toLex_lt_toLex.2 (.inl ?_)
      rw [level_of hplace (by simp)]
      simp [Place.level]
  | mark p' =>
    have hp : p = p' := of_decide_eq_true hown
    subst hp
    have hstage : f.stage p = .mark := of_decide_eq_true he
    rcases h.stage with hs' | hs'
    · rw [hstage] at hs'
      cases hs'
    · rw [hstage] at hs'
      cases hs'
  | wait p' =>
    have hp : p = p' := of_decide_eq_true hown
    subst hp
    have hstage : f.stage p = .wait := of_decide_eq_true he
    rcases h.stage with hs' | hs'
    · rw [hstage] at hs'
      cases hs'
    · rw [hstage] at hs'
      cases hs'
  | _ => cases hown

/-- `NotifyCondition` after the flag has been set. -/
theorem doomed_notify (h : Waits f p) (hstop : f.base.stop = true) (hstage : f.stage p = .outside) :
    Doomed { f with base := f.base.notifyCondition p } p := by
  have hawake : f.base.waiting p = true → f.base.place p = .blocked ∨ f.base.place p = .woken := by
    intro hw
    rcases h.sleeping hw with hb | hb | hb
    · exact .inl hb
    · exact .inr hb
    · rw [hstage] at hb
      cases hb
  have hspares := spares_notifyCondition f.base p p
  have hresult : (f.base.notifyCondition p).place p = .woken ∨
      (f.base.notifyCondition p).place p ≠ .blocked ∧
        (f.base.notifyCondition p).notified p = true := by
    unfold State.notifyCondition
    split
    · rename_i hw
      rcases hawake hw with hb | hb
      · exact .inl (notifyAll_place_self hb)
      · rw [State.notifyAll, if_neg (by rw [hb]; simp)]
        exact .inl hb
    · rename_i hw
      refine .inr ⟨fun hb => hw ?_, Function.update_self ..⟩
      exact h.attended.waiting (.inr hb)
  refine ⟨hspares.stop hstop, fun hb => ?_, .inl hstage, fun hheading _ => ?_⟩
  · replace hb : (f.base.notifyCondition p).place p = .blocked := hb
    rcases hresult with hwoken | hother
    · rw [hb] at hwoken
      cases hwoken
    · exact hother.1 hb
  · replace hheading : ((f.base.notifyCondition p).place p).heading = true := hheading
    rcases hresult with hwoken | hother
    · rw [hwoken] at hheading
      cases hheading
    · exact hother.2

/-! ## The call of `Stop` -/

/-- A step is of one thread at most. -/
theorem FineAction.exists_other (a : FineAction) : ∃ p, a.isOf p = false := by
  have hne : ∀ p' : Nat, decide (p' + 1 = p') = false := fun p' => by simp
  cases a with
  | base a =>
    cases a with
    | thread p' | yield p' | suspend p' | finish p' => exact ⟨p' + 1, hne p'⟩
    | _ => exact ⟨0, rfl⟩
  | test p' | clear p' | mark p' | wait p' => exact ⟨p' + 1, hne p'⟩
  | _ => exact ⟨0, rfl⟩

/-- The processors that the loop has passed are doomed. -/
structure Stopping (n : Nat) (s : StopState) : Prop where
  waits : ∀ p, Waits s.fine p
  bound : ∀ m, s.turn = some m → m ≤ n
  stop : ∀ m, s.turn = some m → s.fine.base.stop = true
  told : ∀ m, s.turn = some m → ∀ p < m, Doomed s.fine p

variable {x x' : StopState} {m : Nat}

theorem stopping_initial (n : Nat) : Stopping n .initial := by
  refine ⟨fun p => ⟨links_initial, attended_initial p, fun hw => ?_⟩, ?_, ?_, ?_⟩
  · cases hw
  all_goals
    intro m hm
    cases hm

theorem fineEnabled_of_stop {a : FineAction} (he : StopEnabled n x (.fine a) = true) :
    FineEnabled x.fine a = true := by
  cases a with
  | base a =>
    cases a with
    | stop => cases he
    | _ => exact he
  | _ => exact he

theorem Stopping.fine (h : Stopping n x) {a : FineAction}
    (he : StopEnabled n x (.fine a) = true) (hf : fineStep x.fine a = some f) :
    Stopping n { x with fine := f } := by
  have he' := fineEnabled_of_stop he
  refine ⟨waits_fine h.waits he' hf, h.bound, fun m hm => ?_, fun m hm p hp => ?_⟩
  · obtain ⟨p, hother⟩ := a.exists_other
    exact (spares_fine (h.waits p).links hother he' hf).1.stop (h.stop m hm)
  · have hd := h.told m hm p hp
    cases hown : a.isOf p with
    | false =>
      obtain ⟨hspares, hstage⟩ := spares_fine (h.waits p).links hown he' hf
      exact hd.of_spares hspares hstage
    | true => exact (hd.own (h.waits p) hown he' hf).1

theorem Stopping.setStop (h : Stopping n x) : Stopping n x.stop := by
  refine ⟨fun p => ⟨(h.waits p).links.of_core rfl, ?_, (h.waits p).sleeping⟩, fun m hm => ?_,
    fun m _ => rfl, fun m hm p hp => ?_⟩
  · exact ⟨(h.waits p).attended.stage, (h.waits p).attended.waiting⟩
  · cases hm
    exact Nat.zero_le n
  · cases hm
    cases hp

theorem Stopping.notify {r : Nat} (h : Stopping n x) (hr : x.turn = some r) (hlt : r < n)
    (hstage : x.fine.stage r = .outside) : Stopping n (x.notify r) := by
  have hstop := h.stop r hr
  have hspares : ∀ p, Spares p x.fine.base (x.notify r).fine.base :=
    fun p => spares_notifyCondition x.fine.base p r
  refine ⟨fun p => ⟨(h.waits p).links.notifyCondition, ?_, (h.waits p).sleeping.of_spares
    (hspares p) rfl⟩, fun m hm => ?_, fun m _ => (hspares 0).stop hstop, fun m hm p hp => ?_⟩
  · exact (h.waits p).attended.of_calm (silent_notifyCondition x.fine.base p r).toCalm rfl
  · cases hm
    exact hlt
  · cases hm
    by_cases hpr : p = r
    · subst hpr
      exact doomed_notify (h.waits p) hstop hstage
    · exact (h.told r hr p (by omega)).of_spares (hspares p) rfl

theorem notify_enabled (he : StopEnabled n x .notify = true) :
    ∃ r, x.turn = some r ∧ r < n ∧ x.fine.stage r = .outside := by
  unfold StopEnabled at he
  cases hr : x.turn with
  | none =>
    rw [hr] at he
    cases he
  | some r =>
    rw [hr] at he
    simp only [Option.any_some, Bool.and_eq_true, decide_eq_true_eq] at he
    exact ⟨r, rfl, he⟩

theorem Stopping.step (h : Stopping n x) {a : StopAction} (he : StopEnabled n x a = true)
    (hs : stopStep x a = some x') : Stopping n x' := by
  cases a with
  | fine a =>
    obtain ⟨f, hf, rfl⟩ := Option.map_eq_some_iff.1 hs
    exact h.fine he hf
  | stop =>
    cases hs
    exact h.setStop
  | notify =>
    obtain ⟨r, hr, hlt, hstage⟩ := notify_enabled he
    rw [stopStep, hr, Option.map_some, Option.some.injEq] at hs
    exact hs ▸ h.notify hr hlt hstage

/-- The loop of `Stop` goes on by its own steps. -/
theorem turn_step {a : StopAction} (hm : x.turn = some m) (he : StopEnabled n x a = true)
    (hs : stopStep x a = some x') :
    x'.turn = some m ∧ a ≠ .notify ∨ x'.turn = some (m + 1) ∧ m < n ∧ a = .notify := by
  cases a with
  | fine a =>
    obtain ⟨f, -, rfl⟩ := Option.map_eq_some_iff.1 hs
    exact .inl ⟨hm, by simp⟩
  | stop =>
    rw [StopEnabled, hm] at he
    cases he
  | notify =>
    obtain ⟨r, hr, hlt, -⟩ := notify_enabled he
    rw [stopStep, hr, Option.map_some, Option.some.injEq] at hs
    have hrm : r = m := Option.some.inj (hr.symm.trans hm)
    subst hrm
    exact .inr ⟨hs ▸ rfl, hlt, rfl⟩

/-! ## The result -/

/-- The thread of `p` has ended. -/
def StopState.Stopped (s : StopState) (p : Nat) : Prop := s.fine.base.place p = .stopped

variable (y : Endless (stopMachine n))

theorem stopping_of_endless (h0 : y.state 0 = .initial) (i : Nat) : Stopping n (y.state i) := by
  refine (y.run i).invariant (h0 ▸ stopping_initial n) ?_
  rintro s a s' h he - hs
  exact h.step he hs

/-- The loop of `Stop` comes to its end. -/
theorem loop_ends (h0 : y.state 0 = .initial) (hcall : ∃ i, (y.state i).turn ≠ none)
    (hloop : ∀ i, ∃ j, i ≤ j ∧ ((y.state j).turn = none ∨ (y.state j).turn = some n ∨
      y.action j = .notify)) : ∃ i, (y.state i).turn = some n := by
  obtain ⟨i, hi⟩ := hcall
  obtain ⟨m, hm⟩ := Option.ne_none_iff_exists'.1 hi
  have hstep : ∀ s a s', (∃ m ≤ n, s.turn = some m) → StopEnabled n s a = true →
      stopStep s a = some s' → ∃ m ≤ n, s'.turn = some m := by
    rintro s a s' ⟨m, hle, hm⟩ he hs
    rcases turn_step hm he hs with ⟨hm', -⟩ | ⟨hm', hlt, -⟩
    · exact ⟨m, hle, hm'⟩
    · exact ⟨m + 1, hlt, hm'⟩
  have hstart : ∃ m ≤ n, (y.state i).turn = some m :=
    ⟨m, (stopping_of_endless y h0 i).bound m hm, hm⟩
  suffices hends : ∃ j, i ≤ j ∧ (y.state j).turn = some n by
    obtain ⟨j, -, hj⟩ := hends
    exact ⟨j, hj⟩
  refine y.eventually (fun s => ∃ m ≤ n, s.turn = some m) (fun s => s.turn = some n)
    (fun a => a = .notify) wellFounded_lt (fun s => n - s.turn.getD 0) ?_ ?_ hstart ?_
  · rintro s a s' ⟨m, hle, hm⟩ hnot rfl he hs
    refine ⟨hstep s .notify s' ⟨m, hle, hm⟩ he hs, ?_⟩
    rcases turn_step hm he hs with ⟨-, hne⟩ | ⟨hm', hlt, -⟩
    · exact absurd rfl hne
    · show n - s'.turn.getD 0 < n - s.turn.getD 0
      rw [hm, hm', Option.getD_some, Option.getD_some]
      omega
  · rintro s a s' ⟨m, hle, hm⟩ hnot hne he hs
    refine ⟨hstep s a s' ⟨m, hle, hm⟩ he hs, ?_⟩
    rcases turn_step hm he hs with ⟨hm', -⟩ | ⟨-, -, heq⟩
    · rw [hm, hm']
    · exact absurd heq hne
  · intro k hk
    obtain ⟨j, hj, hor⟩ := hloop k
    refine ⟨j, hj, hor.resolve_left ?_⟩
    have hsome : ∃ m ≤ n, (y.state j).turn = some m :=
      y.stays (P := fun s => ∃ m ≤ n, s.turn = some m) hstart
        (fun l _ hl => hstep _ _ _ hl (y.enabled l) (y.step l)) (hk.trans hj)
    obtain ⟨m, -, hm⟩ := hsome
    rw [hm]
    simp

/-- After the loop only the threads go on. -/
theorem told_step {a : StopAction} (h : Stopping n x ∧ x.turn = some n)
    (he : StopEnabled n x a = true) (hs : stopStep x a = some x') :
    (Stopping n x' ∧ x'.turn = some n) ∧
      ∃ b f, a = .fine b ∧ FineEnabled x.fine b = true ∧ fineStep x.fine b = some f ∧
        x'.fine = f := by
  rcases turn_step h.2 he hs with ⟨hm', hne⟩ | ⟨-, hlt, -⟩
  · refine ⟨⟨h.1.step he hs, hm'⟩, ?_⟩
    cases a with
    | fine b =>
      obtain ⟨f, hf, rfl⟩ := Option.map_eq_some_iff.1 hs
      exact ⟨b, f, rfl, fineEnabled_of_stop he, hf, rfl⟩
    | stop =>
      rw [StopEnabled, h.2] at he
      cases he
    | notify => exact absurd rfl hne
  · exact absurd hlt (Nat.lt_irrefl n)

/-- A thread that has ended stays so. -/
theorem stopped_fine (h : Waits f p) (hp : f.base.place p = .stopped) {a : FineAction}
    (he : FineEnabled f a = true) (hs : fineStep f a = some f') : f'.base.place p = .stopped := by
  cases hown : a.isOf p with
  | false =>
    have hplace := (spares_fine h.links hown he hs).1.place
    rw [hp] at hplace
    exact hplace.resolve_right fun hmoved => by cases hmoved.1
  | true =>
    have hstage : f.stage p = .outside := by
      by_contra hstage
      have hcond := h.attended.stage hstage
      rw [hp] at hcond
      cases hcond
    cases a with
    | base a =>
      cases a with
      | thread p' =>
        have heq : p = p' := of_decide_eq_true hown
        subst heq
        simp [FineEnabled, Enabled, hp] at he
      | yield p' | suspend p' | finish p' =>
        have heq : p = p' := of_decide_eq_true hown
        subst heq
        simp [FineEnabled, Enabled, hp] at he
      | _ => cases hown
    | test p' | clear p' | mark p' | wait p' =>
      have heq : p = p' := of_decide_eq_true hown
      subst heq
      simp [FineEnabled, hp, hstage] at he
    | _ => cases hown

/-- A thread ends after the loop, when it goes on. -/
theorem thread_ends {i : Nat} (h : Stopping n (y.state i) ∧ (y.state i).turn = some n) (hp : p < n)
    (hthread : ∀ i, ∃ j, i ≤ j ∧ ((y.state j).fine.base.place p = .blocked ∨
      (y.state j).Stopped p ∨ (y.action j).isOf p = true)) :
    ∃ j, i ≤ j ∧ (y.state j).Stopped p := by
  have hkeep : ∀ s a s', Stopping n s ∧ s.turn = some n → StopEnabled n s a = true →
      stopStep s a = some s' → Stopping n s' ∧ s'.turn = some n := by
    rintro s a s' hs he hstep
    exact (told_step hs he hstep).1
  refine y.eventually (fun s => Stopping n s ∧ s.turn = some n) (fun s => s.Stopped p)
    (fun a => a.isOf p = true) wellFounded_lt (fun s => s.fine.rank p) ?_ ?_ h ?_
  · rintro s a s' hs - hown he hstep
    obtain ⟨hs', b, f, rfl, hb, hf, hfine⟩ := told_step hs he hstep
    refine ⟨hs', ?_⟩
    rw [hfine]
    exact ((hs.1.told n hs.2 p hp).own (hs.1.waits p) hown hb hf).2
  · rintro s a s' hs - hother he hstep
    obtain ⟨hs', b, f, rfl, hb, hf, hfine⟩ := told_step hs he hstep
    refine ⟨hs', ?_⟩
    obtain ⟨hspares, hstage⟩ := spares_fine (hs.1.waits p).links (Bool.eq_false_iff.2 hother) hb hf
    rw [hfine]
    exact (hs.1.told n hs.2 p hp).rank_of_spares hspares hstage
  · intro k hk
    obtain ⟨j, hj, hor⟩ := hthread k
    have hstate : Stopping n (y.state j) ∧ (y.state j).turn = some n :=
      y.stays (P := fun s => Stopping n s ∧ s.turn = some n) h
        (fun l _ hl => hkeep _ _ _ hl (y.enabled l) (y.step l)) (hk.trans hj)
    exact ⟨j, hj, hor.resolve_left (hstate.1.told n hstate.2 p hp).blocked⟩

/-- When `Stop` is called, and its loop and the threads of the `n` processors go on, all these
threads come to their end: none sleeps on, and none is left behind in a loop. -/
theorem stop_ends (h0 : y.state 0 = .initial) (hcall : ∃ i, (y.state i).turn ≠ none)
    (hloop : ∀ i, ∃ j, i ≤ j ∧ ((y.state j).turn = none ∨ (y.state j).turn = some n ∨
      y.action j = .notify))
    (hthreads : ∀ p < n, ∀ i, ∃ j, i ≤ j ∧ ((y.state j).fine.base.place p = .blocked ∨
      (y.state j).Stopped p ∨ (y.action j).isOf p = true)) :
    ∃ i, ∀ p < n, ∀ j, i ≤ j → (y.state j).Stopped p := by
  obtain ⟨i, hi⟩ := loop_ends y h0 hcall hloop
  have hbegin : Stopping n (y.state i) ∧ (y.state i).turn = some n :=
    ⟨stopping_of_endless y h0 i, hi⟩
  have htold : ∀ j, i ≤ j → Stopping n (y.state j) ∧ (y.state j).turn = some n := fun j hj =>
    y.stays (P := fun s => Stopping n s ∧ s.turn = some n) hbegin
      (fun l _ hl => (told_step hl (y.enabled l) (y.step l)).1) hj
  have hall : ∀ m ≤ n, ∃ k, i ≤ k ∧ ∀ p < m, ∀ j, k ≤ j → (y.state j).Stopped p := by
    intro m
    induction m with
    | zero => exact fun _ => ⟨i, Nat.le_refl i, fun p hp => absurd hp (Nat.not_lt_zero p)⟩
    | succ m ih =>
      intro hm
      obtain ⟨k, hik, hk⟩ := ih (by omega)
      obtain ⟨l, hkl, hl⟩ := thread_ends y (htold k hik) hm (hthreads m hm)
      refine ⟨l, hik.trans hkl, fun p hp j hj => ?_⟩
      by_cases hpm : p = m
      · subst hpm
        refine y.stays (P := fun s => s.Stopped p) hl (fun j hj hstopped => ?_) hj
        obtain ⟨-, b, f, -, hb, hf, hfine⟩ :=
          told_step (htold j (by omega)) (y.enabled j) (y.step j)
        show (y.state (j + 1)).fine.base.place p = .stopped
        rw [hfine]
        exact stopped_fine ((htold j (by omega)).1.waits p) hstopped hb hf
      · exact hk p (by omega) j (hkl.trans hj)
  obtain ⟨k, -, hk⟩ := hall n (Nat.le_refl n)
  exact ⟨k, hk⟩

/-- The dispatcher can join two lists without a task forever. -/
theorem append_nothing (h : s.queues (.stolen 0) = []) (h' : s.queues (.stolen 1) = []) :
    s.append 0 1 = s := by
  unfold State.append State.setQueue
  rw [h, h', List.append_nil]
  ext1
  case queues =>
    show Function.update (Function.update s.queues (.stolen 0) []) (.stolen 1) [] = s.queues
    rw [← h, Function.update_eq_self, h, ← h', Function.update_eq_self]
  all_goals rfl

/-- The processor sleeps when `Stop` is called. -/
theorem stop_ends_asleep : ∃ y : Endless (stopMachine 1),
    ∃ i, ∀ p < 1, ∀ j, i ≤ j → (y.state j).Stopped p := by
  have hexec : ((stopMachine 1).exec anyAction .initial
      (List.flatten [List.replicate 8 (.fine (.base (.thread 0))),
        [.fine (.test 0), .fine (.mark 0), .fine (.wait 0), .stop, .notify],
        List.replicate 4 (.fine (.base (.thread 0)))])).any
      (fun s => decide (s.turn = some 1 ∧ s.fine.base.place 0 = .stopped ∧
        s.fine.base.queues (.stolen 0) = [] ∧ s.fine.base.queues (.stolen 1) = [] ∧
        s.fine.base.stealing 0 = none ∧ s.fine.base.stealing 1 = none)) := by
    decide +kernel
  obtain ⟨y, hstart, hy, -⟩ := Endless.exists_of_exec (a := .fine (.base (.append 0 1))) hexec <| by
    intro t ht
    obtain ⟨-, -, hq, hq', hk, hk'⟩ := of_decide_eq_true ht
    constructor
    · show StopEnabled 1 t _ = true
      simp [StopEnabled, FineEnabled, Enabled, Action.kept, Action.newQueue, hk, hk']
    · show stopStep t (.fine (.base (.append 0 1))) = some t
      simp only [stopStep, fineStep, step, append_nothing hq hq', Option.map_some]
  have h0 : y.state 0 = .initial := (Option.some.inj (hstart 0 (Nat.zero_le _))).symm
  have hlater : ∀ i, (y.state (i + 17)).turn = some 1 ∧ (y.state (i + 17)).Stopped 0 := by
    intro i
    have hi := of_decide_eq_true (hy (i + 17) (by simp))
    exact ⟨hi.1, hi.2.1⟩
  refine ⟨y, stop_ends y h0 ⟨0 + 17, ?_⟩ (fun i => ⟨i + 17, by omega, .inr (.inl (hlater i).1)⟩)
    fun p hp i => ⟨i + 17, by omega, .inr (.inl ?_)⟩⟩
  · rw [(hlater 0).1]
    simp
  · rw [Nat.lt_one_iff.1 hp]
    exact (hlater i).2

end Costream.Scheduler
