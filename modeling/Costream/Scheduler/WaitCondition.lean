import Costream.Scheduler.NotifyCondition

/-!
# New tasks while a processor goes to sleep

`machine` takes what `WaitCondition` does under the lock of `newQueue_` as one section.
`AddTask(Task*)` does not take that lock.  Here `WaitCondition` has one step for each access to
`notified_` and to `waiting_`, and one for the wait.

The dispatcher calls `NotifyCondition` when it has found tasks in `runnableQueue_` or `newQueue_`,
and `waiting_` set.  A task in the up-queue does not count.

An `AddTask` is in progress from where its packet is in the up-queue.  `Coming` says that there is
one that will wake the processor.
-/

namespace Costream.Scheduler

open Trace Costream.Lists

/-- Where the thread of a processor is while it has the lock in `WaitCondition`. -/
inductive Stage where
  | outside
  | clear
  | mark
  | wait
  deriving DecidableEq

/-- What the dispatcher has found. -/
inductive Finding where
  | nothing
  | tasks
  | waiting
  deriving DecidableEq

structure FineState where
  base : State
  stage : Nat → Stage
  finding : Nat → Finding

inductive FineAction where
  | base (a : Action)
  | test (p : Nat)
  | clear (p : Nat)
  | mark (p : Nat)
  | wait (p : Nat)
  | loadSize (p : Nat)
  | isWaiting (p : Nat)
  | notify (p : Nat)

namespace FineState

variable (f : FineState)

def initial : FineState := ⟨.initial, fun _ => .outside, fun _ => .nothing⟩

def setStage (p : Nat) (stage : Stage) : FineState :=
  { f with stage := Function.update f.stage p stage }

def setFinding (p : Nat) (finding : Finding) : FineState :=
  { f with finding := Function.update f.finding p finding }

/-- `if (notified_)`. -/
def test (p : Nat) : FineState := f.setStage p (if f.base.notified p then .clear else .mark)

/-- `notified_ = false`, and the return. -/
def clear (p : Nat) : FineState :=
  { f.setStage p .outside with
    base := { f.base with notified := Function.update f.base.notified p false }.goto p
      (.addNew .loop) }

/-- `waiting_ = true`. -/
def mark (p : Nat) : FineState :=
  { f.setStage p .wait with
    base := { f.base with waiting := Function.update f.base.waiting p true } }

/-- `cv_.wait(lock)`. -/
def wait (p : Nat) : FineState :=
  { f.setStage p .outside with base := f.base.goto p .blocked }

/-- `RunnableSize` is positive: one of its two parts has been so. -/
def loadSize (p : Nat) : FineState := f.setFinding p .tasks

def isWaiting (p : Nat) : FineState :=
  f.setFinding p (if f.base.waiting p then .waiting else .nothing)

def notify (p : Nat) : FineState :=
  { f.setFinding p .nothing with base := f.base.notifyCondition p }

end FineState

/-- The processor whose `newQueue_` is locked by a section. -/
def Action.newQueue (s : State) : Action → Option Nat
  | .wakeup k => (s.wakeups[k]?).bind fun w =>
    match w.place with
    | .notify p => some p
    | _ => none
  | .steal _ p _ => some p
  | .addTask _ p => some p
  | _ => none

/-- `WaitCondition` and `NotifyCondition` have steps of their own here. -/
def Action.kept (s : State) : Action → Bool
  | .thread p => s.place p ≠ .condition
  | .notify _ => false
  | _ => true

def FineEnabled (f : FineState) : FineAction → Bool
  | .base a => Enabled f.base a && a.kept f.base &&
    (a.newQueue f.base).all fun p => f.stage p = .outside
  | .test p => f.base.place p = .condition && f.stage p = .outside
  | .clear p => f.stage p = .clear
  | .mark p => f.stage p = .mark
  | .wait p => f.stage p = .wait
  | .loadSize p => f.finding p = .nothing &&
    (f.base.queues (.runnable p) ≠ [] || f.base.queues (.new p) ≠ [])
  | .isWaiting p => f.finding p = .tasks
  | .notify p => f.finding p = .waiting && f.stage p = .outside

def fineStep (f : FineState) : FineAction → Option FineState
  | .base a => (step f.base a).map fun s => { f with base := s }
  | .test p => some (f.test p)
  | .clear p => some (f.clear p)
  | .mark p => some (f.mark p)
  | .wait p => some (f.wait p)
  | .loadSize p => some (f.loadSize p)
  | .isWaiting p => some (f.isWaiting p)
  | .notify p => some (f.notify p)

def fineMachine : Machine FineState FineAction where
  enabled f a := FineEnabled f a = true
  step := fineStep

instance (f : FineState) (a : FineAction) : Decidable (fineMachine.enabled f a) :=
  inferInstanceAs (Decidable (FineEnabled f a = true))

/-- An `AddTask` on `p` will find `waiting_` set while the processor sleeps, or has found it. -/
def Coming (s : State) (p : Nat) : Prop :=
  ∃ a ∈ s.adders, a.proc = p ∧ (a.place = .waiting ∨ a.place = .notify)

instance (s : State) (p : Nat) : Decidable (Coming s p) :=
  inferInstanceAs (Decidable (∃ a ∈ s.adders, a.proc = p ∧ (a.place = .waiting ∨ a.place = .notify)))

/-- The processor does not go to sleep with a task in its up-queue and no `AddTask` to wake it. -/
def SleepsIdle (f : FineState) : FineAction → Prop
  | .wait p => f.base.queues (.up p) = [] ∨ Coming f.base p
  | _ => True

instance (f : FineState) (a : FineAction) : Decidable (SleepsIdle f a) := by
  unfold SleepsIdle
  split <;> infer_instance

/-- The processor sleeps, no `AddTask` on it is in progress, and there is a task in its up-queue. -/
structure Stuck (s : State) (p : Nat) : Prop where
  place : s.place p = .blocked
  returned : ∀ a ∈ s.adders, a.proc = p → a.place = .done
  up : s.queues (.up p) ≠ []

/-! ## Steps of others -/

variable {s s' s'' : State} {p p' t k n : Nat} {q : Queue}

/-- Nothing happens to the thread, but that it may be woken. -/
structure Calm (p : Nat) (s s' : State) : Prop where
  waiting : s'.waiting p = s.waiting p
  place : s'.place p = s.place p ∨ s.place p = .blocked ∧ s'.place p = .woken

/-- Nor does anything happen to the up-queue. -/
structure Silent (p : Nat) (s s' : State) : Prop extends Calm p s s' where
  adders : s'.adders = s.adders
  up : s'.queues (.up p) = s.queues (.up p)

theorem Calm.blocked (h : Calm p s s') (hblocked : s'.place p = .blocked) :
    s.place p = .blocked := by
  rcases h.place with hsame | hwoken
  · exact hsame.symm.trans hblocked
  · exact hwoken.1

theorem Calm.trans (h : Calm p s s') (h' : Calm p s' s'') : Calm p s s'' := by
  refine ⟨h'.waiting.trans h.waiting, ?_⟩
  rcases h.place with hsame | hwoken
  · rcases h'.place with hsame' | hwoken'
    · exact .inl (hsame'.trans hsame)
    · exact .inr ⟨hsame ▸ hwoken'.1, hwoken'.2⟩
  · rcases h'.place with hsame' | hwoken'
    · exact .inr ⟨hwoken.1, hsame'.trans hwoken.2⟩
    · exact .inr ⟨hwoken.1, hwoken'.2⟩

theorem Silent.trans (h : Silent p s s') (h' : Silent p s' s'') : Silent p s s'' where
  toCalm := h.toCalm.trans h'.toCalm
  adders := h'.adders.trans h.adders
  up := h'.up.trans h.up

theorem Silent.of_leaves (h : Leaves p' s s') (hne : p ≠ p') : Silent p s s' where
  adders := h.adders
  up := h.queues _ (by simp [Queue.isOf]) (by simpa using hne)
  waiting := h.waiting p hne
  place := .inl (h.place p hne)

theorem Silent.of_frame (h : s'.frame = s.frame) : Silent p s s' :=
  .of_leaves (Leaves.of_frame (p := p + 1) h) (by omega)

theorem Silent.refl (s : State) : Silent p s s := .of_frame rfl

theorem silent_setQueue (s : State) (tasks : List Nat) (hq : q ≠ .up p) :
    Silent p s (s.setQueue q tasks) :=
  ⟨⟨rfl, .inl rfl⟩, rfl, setQueue_other hq.symm⟩

theorem silent_woken (p : Nat) (hblocked : s.place p' = .blocked) :
    Silent p s (s.goto p' .woken) := by
  refine ⟨⟨rfl, ?_⟩, rfl, rfl⟩
  by_cases hp : p = p'
  · rw [hp]
    exact .inr ⟨hblocked, goto_place s p' .woken⟩
  · exact .inl (Function.update_of_ne hp ..)

theorem silent_notifyAll (s : State) (p p' : Nat) : Silent p s (s.notifyAll p') := by
  unfold State.notifyAll
  split
  · rename_i hblocked
    exact silent_woken p hblocked
  · exact .refl s

theorem silent_notifyCondition (s : State) (p p' : Nat) : Silent p s (s.notifyCondition p') := by
  unfold State.notifyCondition
  split
  · exact silent_notifyAll s p p'
  · exact ⟨⟨rfl, .inl rfl⟩, rfl, rfl⟩

theorem silent_goto (s : State) {place : Place} (hne : p ≠ p') : Silent p s (s.goto p' place) :=
  ⟨⟨rfl, .inl (Function.update_of_ne hne ..)⟩, rfl, rfl⟩

theorem silent_wakeup {w : Wakeup} (hs : s.wakeup k w = some s') : Silent p s s' := by
  have hset : ∀ (u : State) (w' : Wakeup), Silent p u (u.setWakeup k w') :=
    fun u w' => ⟨⟨rfl, .inl rfl⟩, rfl, rfl⟩
  unfold State.wakeup at hs
  split at hs
  · cases hs
    split
    · exact hset s _
    · have hinc : Silent p s (s.incRef w.task) := .of_frame rfl
      exact hinc.trans (hset (s.incRef w.task) _)
  · cases hs
    exact hset s _
  · cases hs
    exact hset s _
  · rename_i p' _
    rcases wakeupBySelf_cases hs with ⟨-, rfl⟩ | ⟨-, -, rfl⟩
    · exact hset s _
    · refine Silent.trans ?_ (hset (s.awaken p' w.task) _)
      exact ⟨⟨rfl, .inl rfl⟩, rfl, awaken_other s p' w.task (by simp) (by simp)⟩
  · cases hs
    exact (silent_notifyCondition s p _).trans (hset _ _)
  · cases hs
    exact Silent.trans (.of_frame (frame_decRef s w.task)) (hset _ _)
  · cases hs
    exact .refl s

/-! ### `Steal` -/

theorem silent_steal (s : State) (k p' n : Nat) : Silent p s (s.steal k p' n) := by
  unfold State.steal
  simp only
  have hnew := silent_setQueue (p := p) s (State.popSome n (s.queues (.new p'))).1
    (show Queue.new p' ≠ .up p by simp)
  have hstolen := silent_setQueue (p := p)
    (s.setQueue (.new p') (State.popSome n (s.queues (.new p'))).1)
    (State.popSome n (s.queues (.new p'))).2 (show Queue.stolen k ≠ .up p by simp)
  split
  · exact hnew.trans hstolen
  · exact (hnew.trans hstolen).trans ⟨⟨rfl, .inl rfl⟩, rfl, rfl⟩

theorem silent_erase (hq : q ≠ .up p) (hs : s.erase q t = some s') : Silent p s s' := by
  obtain ⟨u, hu, rfl⟩ := Option.map_eq_some_iff.1 hs
  unfold State.unlink at hu
  split at hu
  · cases hu
    refine ((silent_setQueue s ((s.queues q).erase t) hq).trans (.of_frame ?_)).trans
      (.of_frame (frame_decRef _ t))
    rfl
  · cases hu

theorem silent_eraseSelf {o : Option Nat} {r : Bool × State} (hs : s.eraseSelf k p' o = some r) :
    Silent p s r.2 := by
  cases o with
  | none =>
    cases hs
    exact .refl s
  | some t =>
    unfold State.eraseSelf at hs
    simp only at hs
    split at hs
    · obtain ⟨u, hu, rfl⟩ := Option.map_eq_some_iff.1 hs
      exact silent_erase (by simp) hu
    · split at hs
      · split at hs
        · cases hs
          exact (silent_setQueue s _ (by simp)).trans (.of_frame (frame_decRef _ t))
        · cases hs
      · cases hs
        exact .refl s

theorem silent_pushSelf (s : State) (p p' : Nat) (erased : Bool) (o : Option Nat) :
    Silent p s (s.pushSelf p' erased o) := by
  cases o with
  | none => exact .refl s
  | some t =>
    unfold State.pushSelf
    simp only
    split
    · have hset := silent_setQueue (p := p) (q := .runnable p') s (s.queues (.runnable p') ++ [t])
        (by simp)
      exact hset.trans ⟨⟨rfl, .inl rfl⟩, rfl, rfl⟩
    · exact .refl s

theorem silent_stealRest (hs : s.stealRest k p' n = some s') : Silent p s s' := by
  obtain ⟨r, hr, hs⟩ := Option.bind_eq_some_iff.1 hs
  obtain ⟨r', hr', rfl⟩ := Option.map_eq_some_iff.1 hs
  have herase := (silent_eraseSelf (p := p) hr).trans (silent_eraseSelf (p := p) hr')
  have hrunnable := herase.trans (silent_setQueue (p := p) (q := .runnable p') r'.2
    (State.popSome (n - (r'.2.queues (.stolen k)).length) (r'.2.queues (.runnable p'))).1 (by simp))
  have hstolen := hrunnable.trans (silent_setQueue (p := p) (q := .stolen k) _
    ((State.popSome (n - (r'.2.queues (.stolen k)).length) (r'.2.queues (.runnable p'))).2 ++
      r'.2.queues (.stolen k)) (by simp))
  have hpush := hstolen.trans (silent_pushSelf _ p p' r.1 (s.runningTask p'))
  exact (hpush.trans (silent_pushSelf _ p p' r'.1 (s.nextTask p'))).trans ⟨⟨rfl, .inl rfl⟩, rfl, rfl⟩

/-! ### All of them -/

/-- The actions that the thread of `p` takes. -/
def Action.isOf (p : Nat) : Action → Bool
  | .thread p' | .yield p' | .suspend p' | .finish p' => p = p'
  | _ => false

def Action.addsTask : Action → Bool
  | .create _ | .adder _ => true
  | _ => false

theorem silent_step {a : Action} (hother : a.isOf p = false) (hadds : a.addsTask = false)
    (he : Enabled s a = true) (hs : step s a = some s') : Silent p s s' := by
  cases a with
  | create p' => cases hadds
  | adder k => cases hadds
  | thread p' => exact .of_leaves (leaves_thread hs) (by simpa [Action.isOf] using hother)
  | yield p' =>
    cases hs
    exact silent_goto s (by simpa [Action.isOf] using hother)
  | suspend p' =>
    obtain ⟨t, -, rfl⟩ := Option.map_eq_some_iff.1 hs
    refine Silent.trans ?_ (silent_goto _ (by simpa [Action.isOf] using hother))
    exact ⟨⟨rfl, .inl rfl⟩, rfl, rfl⟩
  | finish p' =>
    obtain ⟨t, -, rfl⟩ := Option.map_eq_some_iff.1 hs
    refine Silent.trans ?_ (silent_goto _ (by simpa [Action.isOf] using hother))
    exact ⟨⟨rfl, .inl rfl⟩, rfl, rfl⟩
  | spurious p' =>
    cases hs
    exact silent_woken p (of_decide_eq_true he)
  | wake caller t id =>
    cases hs
    exact ⟨⟨rfl, .inl rfl⟩, rfl, rfl⟩
  | wakeup k =>
    obtain ⟨w, -, hw⟩ := Option.bind_eq_some_iff.1 hs
    exact silent_wakeup hw
  | steal k p' n =>
    cases hs
    exact silent_steal s k p' n
  | stealRest k =>
    obtain ⟨r, -, hr⟩ := Option.bind_eq_some_iff.1 hs
    exact silent_stealRest hr
  | append k k' =>
    cases hs
    exact (silent_setQueue s _ (by simp)).trans (silent_setQueue _ _ (by simp))
  | cut k k' n =>
    cases hs
    exact (silent_setQueue s _ (by simp)).trans (silent_setQueue _ _ (by simp))
  | addTask k p' =>
    cases hs
    exact ((silent_setQueue s _ (by simp)).trans (silent_setQueue _ _ (by simp))).trans
      (silent_notifyCondition _ p p')
  | notify p' =>
    cases hs
    exact silent_notifyCondition s p p'
  | stop =>
    cases hs
    exact .of_frame rfl

/-! ## The thread of the processor -/

variable {f f' : FineState}

/-- The thread comes to its wait by `WaitCondition` only. -/
theorem place_of_isOf {a : Action} (hown : a.isOf p = true) (hkept : a.kept s = true)
    (he : Enabled s a = true) (hs : step s a = some s') :
    s.place p ≠ .condition ∧ s.place p ≠ .blocked ∧ s'.place p ≠ .blocked := by
  have hrunning : ∀ {t : State}, s.place p = .running →
      t.place p = .suspending ∨ t.place p = .switch →
      s.place p ≠ .condition ∧ s.place p ≠ .blocked ∧ t.place p ≠ .blocked := by
    intro t hplace hor
    rcases hor with hor | hor <;> simp [hplace, hor]
  cases a with
  | thread p' =>
    have hp : p = p' := of_decide_eq_true hown
    subst hp
    have hcond : s.place p ≠ .condition := by simpa [Action.kept] using hkept
    simp only [Enabled, ne_eq, Bool.and_eq_true, decide_eq_true_eq] at he
    have hblocked : s.place p ≠ .blocked := by simpa using he.1.1
    refine ⟨hcond, hblocked, fun hplace => ?_⟩
    have hphase' : (s'.place p).phase = .blocked := phase_blocked_iff.2 hplace
    cases hphase : (s.place p).phase with
    | busy =>
      rcases (thread_busy hphase hs).phase with hbusy | hwindow
      · rw [hbusy] at hphase'
        cases hphase'
      · rw [hwindow.1] at hphase'
        cases hphase'
    | window =>
      rcases thread_window hphase hs with hcollects | hcondition
      · rw [hcollects.phase] at hphase'
        cases hphase'
      · exact hcond hcondition.1
    | blocked => exact hblocked (phase_blocked_iff.1 hphase)
    | woken =>
      have hwoken := phase_woken_iff.1 hphase
      have hthread : s.thread p = some s' := hs
      rw [State.thread, hwoken, Option.some.injEq] at hthread
      rw [← hthread, goto_place] at hplace
      cases hplace
  | yield p' =>
    have hp : p = p' := of_decide_eq_true hown
    subst hp
    cases hs
    simp only [Enabled, Bool.and_eq_true, decide_eq_true_eq] at he
    exact hrunning he.1 (.inr (goto_place s p .switch))
  | suspend p' =>
    have hp : p = p' := of_decide_eq_true hown
    subst hp
    obtain ⟨t, -, rfl⟩ := Option.map_eq_some_iff.1 hs
    simp only [Enabled, Bool.and_eq_true, decide_eq_true_eq] at he
    exact hrunning he.1.1 (.inl (goto_place _ p .suspending))
  | finish p' =>
    have hp : p = p' := of_decide_eq_true hown
    subst hp
    obtain ⟨t, -, rfl⟩ := Option.map_eq_some_iff.1 hs
    simp only [Enabled, Bool.and_eq_true, decide_eq_true_eq] at he
    exact hrunning he.1.1 (.inr (goto_place _ p .switch))
  | _ => cases hown

/-! ## The invariant -/

/-- While the thread is in `WaitCondition` its place is, and `waiting_` is set before its wait. -/
structure Attended (f : FineState) (p : Nat) : Prop where
  stage : f.stage p ≠ .outside → f.base.place p = .condition
  waiting : f.stage p = .wait ∨ f.base.place p = .blocked → f.base.waiting p = true

/-- A processor that sleeps with a task in its up-queue will be woken. -/
def Heard (s : State) (p : Nat) : Prop :=
  s.place p = .blocked → s.queues (.up p) = [] ∨ Coming s p

theorem Attended.of_calm (h : Attended f p) (hcalm : Calm p f.base f'.base)
    (hstage : f'.stage p = f.stage p) : Attended f' p := by
  constructor
  · intro hne
    have hplace := h.stage (hstage ▸ hne)
    rcases hcalm.place with hsame | hwoken
    · exact hsame.trans hplace
    · rw [hplace] at hwoken
      cases hwoken.1
  · intro hor
    rw [hstage] at hor
    rw [hcalm.waiting]
    exact h.waiting (hor.imp_right hcalm.blocked)

theorem Heard.of_silent (h : Heard s p) (hsilent : Silent p s s') : Heard s' p := by
  intro hblocked
  rw [hsilent.up]
  unfold Coming
  rw [hsilent.adders]
  exact h (hsilent.blocked hblocked)

/-- The thread is elsewhere. -/
theorem Attended.of_outside (hstage : f.stage p = .outside) (hplace : f.base.place p ≠ .blocked) :
    Attended f p := by
  constructor
  · intro hne
    exact absurd hstage hne
  · intro hor
    rcases hor with hwait | hblocked
    · rw [hstage] at hwait
      cases hwait
    · exact absurd hblocked hplace

/-! ### `AddTask` -/

theorem calm_adder (s : State) (k p : Nat) (a : Adder) : Calm p s (s.adder k a) := by
  unfold State.adder
  split
  · exact ⟨rfl, .inl rfl⟩
  · have hnotify := silent_notifyAll s p a.proc
    exact ⟨hnotify.waiting, hnotify.place⟩
  · exact ⟨rfl, .inl rfl⟩
  · exact ⟨rfl, .inl rfl⟩

theorem Coming.setAdder (h : Coming s p) {a b : Adder} (hk : s.adders[k]? = some a)
    (hadders : s'.adders = s.adders.set k b)
    (hkeep : a.proc = p ∧ (a.place = .waiting ∨ a.place = .notify) →
      b.proc = p ∧ (b.place = .waiting ∨ b.place = .notify)) : Coming s' p := by
  obtain ⟨c, hc, hcoming⟩ := h
  obtain ⟨j, hj⟩ := List.mem_iff_getElem?.1 hc
  by_cases hjk : j = k
  · rw [hjk, hk, Option.some.injEq] at hj
    have hlt : k < s.adders.length := (List.getElem?_eq_some_iff.1 hk).1
    refine ⟨b, ?_, hkeep (hj ▸ hcoming)⟩
    rw [hadders]
    exact List.mem_set hlt b
  · refine ⟨c, List.mem_iff_getElem?.2 ⟨j, ?_⟩, hcoming⟩
    rw [hadders, List.getElem?_set_ne (Ne.symm hjk)]
    exact hj

theorem Heard.create (h : Heard s p) (p' : Nat) : Heard (s.create p') p := by
  intro hblocked
  by_cases hp : p = p'
  · refine .inr ⟨⟨p', .waiting⟩, ?_, hp.symm, .inl rfl⟩
    exact List.mem_append_right _ List.mem_cons_self
  · rw [create_other s p' (by simpa using hp)]
    refine (h hblocked).imp_right fun hcoming => ?_
    obtain ⟨a, ha, hplace⟩ := hcoming
    exact ⟨a, List.mem_append_left _ ha, hplace⟩

/-- While the processor sleeps, `AddTask` finds `waiting_` set, and wakes it. -/
theorem Heard.adder (h : Heard s p) {a : Adder} (hk : s.adders[k]? = some a)
    (hwaiting : s.place p = .blocked → s.waiting p = true) : Heard (s.adder k a) p := by
  intro hblocked
  have hbefore := (calm_adder s k p a).blocked hblocked
  have hup : (s.adder k a).queues = s.queues := by
    unfold State.adder
    split
    · rfl
    · exact (notifyAll_rest s a.proc).2.2.2
    · rfl
    · rfl
  rw [hup]
  refine (h hbefore).imp_right fun hcoming => ?_
  unfold State.adder at hblocked ⊢
  split at hblocked
  · refine hcoming.setAdder hk rfl fun hthis => ⟨hthis.1, .inr ?_⟩
    rw [hthis.1, hwaiting hbefore]
    rfl
  · rename_i hplace
    refine hcoming.setAdder (b := { a with place := .done }) hk ?_ fun hthis => ?_
    · show (s.notifyAll a.proc).adders.set k _ = _
      rw [(silent_notifyAll s p a.proc).adders]
    · -- it is this one that wakes the processor
      have hwoken : (s.notifyAll a.proc).place a.proc = .woken := by
        rw [hthis.1]
        exact notifyAll_place_self hbefore
      have hblocked' : (s.notifyAll a.proc).place a.proc = .blocked := by
        rw [hthis.1] at hblocked ⊢
        exact hblocked
      rw [hwoken] at hblocked'
      cases hblocked'
  · rename_i hplace
    refine hcoming.setAdder (b := { a with place := .done }) hk rfl fun hthis => ?_
    simp [hplace] at hthis
  · exact hcoming

/-! ### Every step -/

theorem setStage_self (f : FineState) (p : Nat) (stage : Stage) :
    (f.setStage p stage).stage p = stage := Function.update_self ..

theorem setStage_other (f : FineState) (stage : Stage) (hp : p ≠ p') :
    (f.setStage p' stage).stage p = f.stage p := Function.update_of_ne hp ..

theorem attended_initial (p : Nat) : Attended .initial p :=
  .of_outside rfl (by simp [FineState.initial, State.initial])

theorem Attended.base (h : Attended f p) {a : Action} (he : FineEnabled f (.base a) = true)
    (hs : step f.base a = some s) : Attended { f with base := s } p := by
  simp only [FineEnabled, Bool.and_eq_true] at he
  obtain ⟨⟨he, hkept⟩, -⟩ := he
  cases hown : a.isOf p with
  | true =>
    obtain ⟨hcond, -, hblocked⟩ := place_of_isOf hown hkept he hs
    refine .of_outside ?_ hblocked
    by_contra hstage
    exact hcond (h.stage hstage)
  | false =>
    cases hadds : a.addsTask with
    | false => exact h.of_calm (silent_step hown hadds he hs).toCalm rfl
    | true =>
      cases a with
      | create p' =>
        cases hs
        exact h.of_calm ⟨rfl, .inl rfl⟩ rfl
      | adder k =>
        obtain ⟨a, -, rfl⟩ := Option.map_eq_some_iff.1 hs
        exact h.of_calm (calm_adder f.base k p a) rfl
      | _ => cases hadds

theorem Attended.step (h : Attended f p) {a : FineAction} (he : FineEnabled f a = true)
    (hs : fineStep f a = some f') : Attended f' p := by
  cases a with
  | base a =>
    obtain ⟨s, hstep, rfl⟩ := Option.map_eq_some_iff.1 hs
    exact h.base he hstep
  | test p' =>
    cases hs
    by_cases hp : p = p'
    · subst hp
      simp only [FineEnabled, Bool.and_eq_true, decide_eq_true_eq] at he
      refine ⟨fun _ => he.1, fun hor => ?_⟩
      have hwait : (f.test p).stage p ≠ .wait := by
        unfold FineState.test
        rw [setStage_self]
        split <;> simp
      exact h.waiting (.inr (hor.resolve_left hwait))
    · exact h.of_calm (Silent.refl f.base).toCalm (setStage_other f _ hp)
  | clear p' =>
    cases hs
    by_cases hp : p = p'
    · subst hp
      refine .of_outside (setStage_self f p .outside) ?_
      show ((State.goto _ p _).place p) ≠ .blocked
      rw [goto_place]
      simp
    · refine h.of_calm ?_ (setStage_other f .outside hp)
      exact ⟨rfl, .inl (Function.update_of_ne hp ..)⟩
  | mark p' =>
    cases hs
    by_cases hp : p = p'
    · subst hp
      simp only [FineEnabled, decide_eq_true_eq] at he
      refine ⟨fun _ => h.stage (by rw [he]; simp), fun _ => ?_⟩
      exact Function.update_self ..
    · refine h.of_calm ?_ (setStage_other f .wait hp)
      exact ⟨Function.update_of_ne hp .., .inl rfl⟩
  | wait p' =>
    cases hs
    by_cases hp : p = p'
    · subst hp
      simp only [FineEnabled, decide_eq_true_eq] at he
      refine ⟨fun hne => absurd (setStage_self f p .outside) hne, fun _ => ?_⟩
      exact h.waiting (.inl he)
    · refine h.of_calm ?_ (setStage_other f .outside hp)
      exact ⟨rfl, .inl (Function.update_of_ne hp ..)⟩
  | loadSize p' =>
    cases hs
    exact h.of_calm (Silent.refl f.base).toCalm rfl
  | isWaiting p' =>
    cases hs
    exact h.of_calm (Silent.refl f.base).toCalm rfl
  | notify p' =>
    cases hs
    exact h.of_calm (silent_notifyCondition f.base p p').toCalm rfl

theorem Heard.base (h : Heard f.base p) (hattended : Attended f p) {a : Action}
    (he : FineEnabled f (.base a) = true) (hs : Scheduler.step f.base a = some s) : Heard s p := by
  simp only [FineEnabled, Bool.and_eq_true] at he
  obtain ⟨⟨he, hkept⟩, -⟩ := he
  cases hown : a.isOf p with
  | true =>
    obtain ⟨-, -, hblocked⟩ := place_of_isOf hown hkept he hs
    exact fun hplace => absurd hplace hblocked
  | false =>
    cases hadds : a.addsTask with
    | false => exact h.of_silent (silent_step hown hadds he hs)
    | true =>
      cases a with
      | create p' =>
        cases hs
        exact h.create p'
      | adder k =>
        obtain ⟨a, hk, rfl⟩ := Option.map_eq_some_iff.1 hs
        exact h.adder hk fun hblocked => hattended.waiting (.inr hblocked)
      | _ => cases hadds

theorem Heard.step (h : Heard f.base p) (hattended : Attended f p) {a : FineAction}
    (he : FineEnabled f a = true) (hok : SleepsIdle f a) (hs : fineStep f a = some f') :
    Heard f'.base p := by
  cases a with
  | base a =>
    obtain ⟨s, hstep, rfl⟩ := Option.map_eq_some_iff.1 hs
    exact h.base hattended he hstep
  | wait p' =>
    cases hs
    by_cases hp : p = p'
    · subst hp
      exact fun _ => hok
    · exact h.of_silent (silent_goto f.base hp)
  | clear p' =>
    cases hs
    by_cases hp : p = p'
    · subst hp
      intro hblocked
      have hplace : (State.goto { f.base with
          notified := Function.update f.base.notified p false } p (.addNew .loop)).place p =
        .blocked := hblocked
      rw [goto_place] at hplace
      cases hplace
    · refine h.of_silent (Silent.trans ?_ (silent_goto _ hp))
      exact ⟨⟨rfl, .inl rfl⟩, rfl, rfl⟩
  | mark p' =>
    cases hs
    exact h
  | notify p' =>
    cases hs
    exact h.of_silent (silent_notifyCondition f.base p p')
  | test p' | loadSize p' | isWaiting p' =>
    cases hs
    exact h

theorem heard_of_run (hr : Run fineMachine SleepsIdle .initial f) (p : Nat) : Heard f.base p := by
  have hinv : Attended f p ∧ Heard f.base p := by
    refine hr.invariant (P := fun f => Attended f p ∧ Heard f.base p) ⟨attended_initial p, ?_⟩ ?_
    · intro hblocked
      cases hblocked
    · intro f a f' h he hok hs
      exact ⟨h.1.step he hs, h.2.step h.1 he hok hs⟩
  exact hinv.2

/-! ## The step that breaks it -/

/-- Some `AddTask` on the processor has not returned. -/
def unreturned (s : State) (p : Nat) : Nat :=
  s.adders.countP fun a => a.proc = p ∧ a.place ≠ .done

/-- Every `AddTask` that is left only sets `notified_`. -/
theorem exists_stuck (hblocked : f.base.place p = .blocked) (hup : f.base.queues (.up p) ≠ [])
    (hcoming : ¬ Coming f.base p) : ∃ f', Run fineMachine anyAction f f' ∧ Stuck f'.base p := by
  have hprogress : ∃ f', Run fineMachine anyAction f f' ∧ (f'.base.place p = .blocked ∧
      f'.base.queues (.up p) ≠ [] ∧ ¬ Coming f'.base p) ∧ unreturned f'.base p = 0 := by
    refine Run.exists_of_wf Nat.lt_wfRel.wf (fun f => unreturned f.base p)
      ⟨hblocked, hup, hcoming⟩ fun g hg hnot => ?_
    obtain ⟨hblocked, hup, hcoming⟩ := hg
    obtain ⟨a, ha, hleft⟩ := List.countP_pos_iff.1 (Nat.pos_of_ne_zero hnot)
    obtain ⟨hproc, hplace⟩ := of_decide_eq_true hleft
    obtain ⟨k, hk⟩ := List.mem_iff_getElem?.1 ha
    have hlt : k < g.base.adders.length := (List.getElem?_eq_some_iff.1 hk).1
    have hflag : a.place = .flag := by
      cases hplace' : a.place with
      | waiting => exact absurd ⟨a, ha, hproc, .inl hplace'⟩ hcoming
      | notify => exact absurd ⟨a, ha, hproc, .inr hplace'⟩ hcoming
      | flag => rfl
      | done => exact absurd hplace' hplace
    have hstep : g.base.adder k a =
        { g.base with notified := Function.update g.base.notified a.proc true }.setAdder k
          { a with place := .done } := by
      unfold State.adder
      rw [hflag]
    refine ⟨.base (.adder k), { g with base := g.base.adder k a }, ?_, trivial, ?_, ?_, .inr ?_⟩
    · show FineEnabled g (.base (.adder k)) = true
      simp [FineEnabled, Enabled, Action.kept, Action.newQueue, hlt]
    · show ((g.base.adders[k]?).map (g.base.adder k)).map _ = _
      rw [hk]
      rfl
    · rw [hstep]
      refine ⟨hblocked, hup, fun hnew => hcoming ?_⟩
      obtain ⟨b, hb, hb'⟩ := hnew
      rcases List.mem_or_eq_of_mem_set hb with hold | hdone
      · exact ⟨b, hold, hb'⟩
      · rw [hdone] at hb'
        simp at hb'
    · show unreturned (g.base.adder k a) p < unreturned g.base p
      have hget : g.base.adders[k] = a := (List.getElem?_eq_some_iff.1 hk).2
      have hpos : 0 < unreturned g.base p := Nat.pos_of_ne_zero hnot
      unfold unreturned at hpos ⊢
      have hdone : decide (a.proc = p ∧ AdderPlace.done ≠ .done) = false := by simp
      rw [hstep, State.setAdder, List.countP_set hlt, hget, if_pos hleft, hdone]
      simp only [Bool.false_eq_true, if_false, Nat.add_zero]
      omega
  obtain ⟨f', hr, ⟨hblocked, hup, -⟩, hreturned⟩ := hprogress
  refine ⟨f', hr, hblocked, fun a ha hproc => ?_, hup⟩
  by_contra hplace
  have hpos : 0 < unreturned f'.base p :=
    List.countP_pos_iff.2 ⟨a, ha, decide_eq_true ⟨hproc, hplace⟩⟩
  omega

/-! ## The result -/

/-- In a run in which no processor goes to sleep over a task, none is stuck.  Any other step to
sleep leads to where the processor is stuck. -/
theorem no_task_asleep (hr : Run fineMachine SleepsIdle .initial f) (p : Nat) :
    ¬ Stuck f.base p ∧ (fineMachine.enabled f (.wait p) → ¬ SleepsIdle f (.wait p) →
      ∃ f', Run fineMachine anyAction f f' ∧ Stuck f'.base p) := by
  constructor
  · intro hstuck
    rcases heard_of_run hr p hstuck.place with hempty | ⟨a, ha, hproc, hplace⟩
    · exact hstuck.up hempty
    · rw [hstuck.returned a ha hproc] at hplace
      simp at hplace
  · intro he hsleeps
    obtain ⟨hup, hcoming⟩ := not_or.1 hsleeps
    have hblocked : (f.wait p).base.place p = .blocked := goto_place f.base p .blocked
    obtain ⟨f', hstuck, hplace⟩ := exists_stuck (f := f.wait p) hblocked hup hcoming
    have hone : Run fineMachine anyAction f (f.wait p) := .tail .refl he trivial rfl
    exact ⟨f', hone.trans hstuck, hplace⟩

/-- The thread comes to `WaitCondition` and finds nothing. -/
def toCondition : List FineAction := List.replicate 8 (.base (.thread 0))

/-- A task comes while the processor sleeps, and it is woken. -/
theorem no_task_asleep_woken : ∃ f, Run fineMachine SleepsIdle .initial f ∧
    (f.base.place 0 = .woken ∧ f.base.queues (.up 0) = [0]) ∧ ¬ Stuck f.base 0 := by
  have hexec : (fineMachine.exec SleepsIdle .initial
      (toCondition ++ [.test 0, .mark 0, .wait 0, .base (.create 0), .base (.adder 0),
        .base (.adder 0)])).any
      (fun f => f.base.place 0 = .woken && f.base.queues (.up 0) = [0]) = true := by
    decide +kernel
  obtain ⟨f, hr, hf⟩ := Run.exists_of_exec hexec
  simp only [Bool.and_eq_true, decide_eq_true_eq] at hf
  exact ⟨f, hr, hf, (no_task_asleep hr 0).1⟩

/-- A task comes after the test of `notified_`, and `AddTask` finds `waiting_` not yet set. -/
theorem task_asleep : ¬ ∀ f, Run fineMachine anyAction .initial f → ∀ p, ¬ Stuck f.base p := by
  intro hall
  have hexec : (fineMachine.exec anyAction .initial
      (toCondition ++ [.test 0, .base (.create 0), .base (.adder 0), .mark 0, .wait 0,
        .base (.adder 0)])).any
      (fun f => f.base.place 0 = .blocked && f.base.queues (.up 0) = [0] &&
        f.base.adders = [⟨0, .done⟩]) = true := by
    decide +kernel
  obtain ⟨f, hr, hf⟩ := Run.exists_of_exec hexec
  simp only [Bool.and_eq_true, decide_eq_true_eq] at hf
  refine hall f hr 0 ⟨hf.1.1, fun a ha _ => ?_, by simp [hf.1.2]⟩
  rw [hf.2, List.mem_singleton] at ha
  rw [ha]

end Costream.Scheduler
