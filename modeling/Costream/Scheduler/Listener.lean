import Costream.Scheduler.Life

/-!
# The events of a task

A listener is told what happens to each task.  Its header draws a state chart of the events: a task
is created, entered for the first time, started, and then left and entered again, until its function
has returned or has thrown.

* `Chart` is this state chart.
* `watched` is the machine of the scheduler with a listener that is there from the start, and that
  does not yield.  It has the events of each task, and which tasks have been entered before: the
  first switch to a context leads to `Task::Run`, and any other one back to where it was left.
* `events_follow_chart` is the result, for any interleaving of the threads.
-/

namespace Costream.Scheduler

open Trace Costream.Lists

/-! ## The state chart -/

/-- The functions of `TaskListener`. -/
inductive Event where
  | onCreated
  | onSwapIn
  | onStart
  | onSwapOut
  | onCompleted
  | onException
  | onFinished
  deriving DecidableEq

/-- The states of the chart.  `running` is the star, and `returned` is behind `onCompleted` and
`onException`. -/
inductive Chart where
  | start
  | created
  | entered
  | running
  | left
  | returned
  | finished
  | last
  deriving DecidableEq

namespace Chart

def next : Chart → Event → Option Chart
  | .start, .onCreated => some .created
  | .created, .onSwapIn => some .entered
  | .entered, .onStart => some .running
  | .running, .onSwapOut => some .left
  | .left, .onSwapIn => some .running
  | .running, .onCompleted => some .returned
  | .running, .onException => some .returned
  | .returned, .onFinished => some .finished
  | .finished, .onSwapOut => some .last
  | _, _ => none

/-- Where the events lead to, if the chart has such a path. -/
def after (events : List Event) : Option Chart := events.foldlM next .start

theorem after_append {events : List Event} {c : Chart} (h : after events = some c)
    (more : List Event) : after (events ++ more) = more.foldlM next c := by
  rw [after, List.foldlM_append]
  exact congrArg (· >>= fun c => more.foldlM next c) h

end Chart

/-! ## The machine with a listener -/

/-- `eCoExHandle`. -/
inductive ExHandle where
  | immedaitely_throw
  | on_listener
  deriving DecidableEq

structure Watched where
  scheduler : State
  entered : Nat → Bool
  events : Nat → List Event

namespace Watched

def initial : Watched where
  scheduler := .initial
  entered _ := false
  events _ := []

/-- `throw` is the end of a coroutine whose function has thrown. -/
inductive Step where
  | of (a : Action)
  | throw (p : Nat)

def Step.action : Step → Action
  | .of a => a
  | .throw p => .finish p

def Step.throws : Step → Bool
  | .of _ => false
  | .throw _ => true

/-- `onSwapIn`, and `onStart` when the switch leads to `Task::Run`. -/
def onEntry (entered : Bool) : List Event :=
  if entered then [.onSwapIn] else [.onSwapIn, .onStart]

/-- `Task::Run` when the function has returned, or has thrown, up to the switch in `CoYield`. -/
def onReturn (thrown : Bool) : List Event :=
  [if thrown then .onException else .onCompleted, .onFinished, .onSwapOut]

variable (w : Watched)

/-- The listener is told about `t`. -/
def tell (t : Nat) (events : List Event) (s : State) : Watched :=
  { w with scheduler := s, events := Function.update w.events t (w.events t ++ events) }

/-- The step leads to the state `s`. -/
def notice (s : State) : Step → Option Watched
  | .of (.create _) => some (w.tell w.scheduler.created [.onCreated] s)
  | .of (.thread p) =>
    if w.scheduler.place p = .swapIn then
      (w.scheduler.runningTask p).map fun t =>
        { w.tell t (onEntry (w.entered t)) s with entered := Function.update w.entered t true }
    else some { w with scheduler := s }
  | .of (.yield p) => (w.scheduler.runningTask p).map fun t => w.tell t [.onSwapOut] s
  | .of (.finish p) => (w.scheduler.runningTask p).map fun t => w.tell t (onReturn false) s
  | .throw p => (w.scheduler.runningTask p).map fun t => w.tell t (onReturn true) s
  | .of _ => some { w with scheduler := s }

/-- An exception that is thrown at once ends the program. -/
def step (handle : ExHandle) (a : Step) : Option Watched :=
  if handle = .immedaitely_throw ∧ a.throws = true then none
  else (Scheduler.step w.scheduler a.action).bind fun s => w.notice s a

end Watched

def watched (handle : ExHandle) : Machine Watched Watched.Step where
  enabled w a := Enabled w.scheduler a.action = true
  step w a := w.step handle a

instance (handle : ExHandle) (w : Watched) (a : Watched.Step) :
    Decidable ((watched handle).enabled w a) :=
  inferInstanceAs (Decidable (Enabled w.scheduler a.action = true))

/-! ## Where a task is in the chart -/

/-- The task is at the state `c` of the chart. -/
inductive Watched.At (w : Watched) (t : Nat) : Chart → Prop where
  | start : w.scheduler.created ≤ t → w.entered t = false → At w t .start
  | created : t < w.scheduler.created → w.entered t = false → w.scheduler.taskState t ≠ .done →
    (¬ ∃ p, w.scheduler.Inside p t) → At w t .created
  | running : t < w.scheduler.created → w.entered t = true → w.scheduler.taskState t ≠ .done →
    (∃ p, w.scheduler.Inside p t) → At w t .running
  | left : t < w.scheduler.created → w.entered t = true → w.scheduler.taskState t ≠ .done →
    (¬ ∃ p, w.scheduler.Inside p t) → At w t .left
  | last : t < w.scheduler.created → w.entered t = true → w.scheduler.taskState t = .done →
    (¬ ∃ p, w.scheduler.Inside p t) → At w t .last

structure Watching (w : Watched) : Prop where
  links : Links w.scheduler
  ended : Ended w.scheduler
  chart : ∀ t, ∃ c, Chart.after (w.events t) = some c ∧ w.At t c

variable {w w' : Watched} {s' : State} {p t : Nat} {c : Chart}

theorem watching_initial : Watching .initial :=
  ⟨links_initial, ended_initial, fun t => ⟨.start, rfl, .start (Nat.zero_le t) rfl⟩⟩

/-- Nothing happens to the task. -/
theorem Watched.At.same (h : w.At t c)
    (hcreated : t < w'.scheduler.created ↔ t < w.scheduler.created)
    (hentered : w'.entered t = w.entered t)
    (hdone : w'.scheduler.taskState t = .done ↔ w.scheduler.taskState t = .done)
    (hinside : (∃ p, w'.scheduler.Inside p t) ↔ ∃ p, w.scheduler.Inside p t) : w'.At t c := by
  cases h with
  | start hlt he =>
    refine .start (Nat.le_of_not_lt fun hlt' => ?_) (hentered.trans he)
    exact absurd (hcreated.1 hlt') (Nat.not_lt.2 hlt)
  | created hlt he hd hin =>
    exact .created (hcreated.2 hlt) (hentered.trans he) (mt hdone.1 hd) (mt hinside.1 hin)
  | running hlt he hd hin =>
    exact .running (hcreated.2 hlt) (hentered.trans he) (mt hdone.1 hd) (hinside.2 hin)
  | left hlt he hd hin =>
    exact .left (hcreated.2 hlt) (hentered.trans he) (mt hdone.1 hd) (mt hinside.1 hin)
  | last hlt he hd hin =>
    exact .last (hcreated.2 hlt) (hentered.trans he) (hdone.2 hd) (mt hinside.1 hin)

/-- The listener hears nothing. -/
theorem Watching.unheard (h : Watching w) (hlinks : Links s') (hc : Stays w.scheduler s') :
    Watching { w with scheduler := s' } := by
  refine ⟨hlinks, h.ended.of_stays hc, fun t => ?_⟩
  obtain ⟨c, hafter, hat⟩ := h.chart t
  refine ⟨c, hafter, hat.same ?_ rfl (hc.done t) (exists_congr fun p => hc.inside p t)⟩
  show t < s'.created ↔ t < w.scheduler.created
  rw [hc.created]

/-- The listener is told about `t`, and nothing happens to the others. -/
theorem Watching.told (h : Watching w) (hlinks : Links w'.scheduler) (hended : Ended w'.scheduler)
    {events : List Event}
    (hevents : w'.events = Function.update w.events t (w.events t ++ events))
    (ht : ∀ c, w.At t c → ∃ c', events.foldlM Chart.next c = some c' ∧ w'.At t c')
    (hother : ∀ u c, u ≠ t → w.At u c → w'.At u c) : Watching w' := by
  refine ⟨hlinks, hended, fun u => ?_⟩
  obtain ⟨c, hafter, hat⟩ := h.chart u
  rw [hevents]
  by_cases hut : u = t
  · subst hut
    obtain ⟨c', hpath, hat'⟩ := ht c hat
    rw [Function.update_self, Chart.after_append hafter]
    exact ⟨c', hpath, hat'⟩
  · rw [Function.update_of_ne hut]
    exact ⟨c, hafter, hother u c hut hat⟩

/-! ### The steps -/

theorem Watching.create (h : Watching w) (hlinks : Links (w.scheduler.create p)) :
    Watching (w.tell w.scheduler.created [.onCreated] (w.scheduler.create p)) := by
  have hinside : ∀ u, (∃ r, (w.scheduler.create p).Inside r u) ↔ ∃ r, w.scheduler.Inside r u :=
    fun u => Iff.rfl
  refine h.told (t := w.scheduler.created) hlinks (h.ended.create p) rfl (fun c hat => ?_)
    fun u c hne hat => hat.same ?_ rfl ?_ (hinside u)
  · have hnot : ¬ ∃ r, w.scheduler.Inside r w.scheduler.created := by
      rintro ⟨r, -, hr⟩
      exact Nat.lt_irrefl _ (h.links.knownRunning r _ hr)
    cases hat with
    | start _ he =>
      refine ⟨.created, rfl, .created (Nat.lt_succ_self _) he ?_ (mt (hinside _).1 hnot)⟩
      show Function.update w.scheduler.taskState _ _ _ ≠ _
      rw [Function.update_self]
      simp
    | created hlt => exact absurd hlt (Nat.lt_irrefl _)
    | running hlt => exact absurd hlt (Nat.lt_irrefl _)
    | left hlt => exact absurd hlt (Nat.lt_irrefl _)
    | last hlt => exact absurd hlt (Nat.lt_irrefl _)
  · show u < w.scheduler.created + 1 ↔ u < w.scheduler.created
    omega
  · show Function.update w.scheduler.taskState _ _ u = _ ↔ _
    rw [Function.update_of_ne hne]

/-- The thread of `p` enters its running task, or leaves it. -/
theorem Watching.turn (h : Watching w) (hr : w.scheduler.runningTask p = some t)
    (hlinks : Links w'.scheduler) (hended : Ended w'.scheduler) (place : Place) {st : TaskState}
    {events : List Event} {entered : Bool}
    (hcreated : w'.scheduler.created = w.scheduler.created)
    (hstate : w'.scheduler.taskState = Function.update w.scheduler.taskState t st)
    (hrunning : w'.scheduler.runningTask = w.scheduler.runningTask)
    (hplace : w'.scheduler.place = Function.update w.scheduler.place p place)
    (hentered : w'.entered = Function.update w.entered t entered)
    (hevents : w'.events = Function.update w.events t (w.events t ++ events))
    (ht : ∀ c, w.At t c → ((∃ r, w'.scheduler.Inside r t) ↔ place.inside = true) →
      ∃ c', events.foldlM Chart.next c = some c' ∧ w'.At t c') : Watching w' := by
  have hinside := inside_goto hr hrunning hplace
  refine h.told (t := t) hlinks hended hevents (fun c hat => ht c hat ?_)
    fun u c hut hat => hat.same ?_ ?_ ?_ ?_
  · rw [hinside t]
    constructor
    · rintro (⟨-, hin⟩ | ⟨r, hrp, hin⟩)
      · exact hin
      · exact absurd (h.links.running_unique hin.2 hr) hrp
    · exact fun hin => .inl ⟨rfl, hin⟩
  · rw [hcreated]
  · rw [hentered, Function.update_of_ne hut]
  · rw [hstate, Function.update_of_ne hut]
  · rw [hinside u]
    constructor
    · rintro (⟨heq, -⟩ | ⟨r, -, hin⟩)
      · exact absurd heq hut
      · exact ⟨r, hin⟩
    · rintro ⟨r, hin⟩
      refine .inr ⟨r, ?_, hin⟩
      rintro rfl
      exact hut (Option.some.inj (hin.2.symm.trans hr))

/-- The thread of `p` switches to its running task. -/
theorem Watching.swapIn (h : Watching w) (hplace : w.scheduler.place p = .swapIn)
    (hr : w.scheduler.runningTask p = some t) (hlinks : Links s') (hended : Ended s')
    (hs : w.scheduler.swapIn p = some s') :
    Watching { w.tell t (Watched.onEntry (w.entered t)) s' with
      entered := Function.update w.entered t true } := by
  obtain ⟨u, hu, rfl⟩ := Option.map_eq_some_iff.1 hs
  have hut : u = t := Option.some.inj (hu.symm.trans hr)
  subst hut
  refine h.turn hr hlinks hended .running rfl rfl rfl rfl rfl rfl fun c hat hin => ?_
  have hknown := h.links.knownRunning p u hr
  have hlive : Function.update w.scheduler.taskState u .runnable u ≠ .done := by
    rw [Function.update_self]
    simp
  have hself : Function.update w.entered u true u = true := Function.update_self ..
  have hinside := hin.2 rfl
  cases hat with
  | start hle => exact absurd hknown (Nat.not_lt.2 hle)
  | created _ he =>
    refine ⟨.running, ?_, .running hknown hself hlive hinside⟩
    rw [he]
    rfl
  | running _ _ _ hold =>
    obtain ⟨r, hin, hr'⟩ := hold
    rw [h.links.running_unique hr' hr, hplace] at hin
    cases hin
  | left _ he =>
    refine ⟨.running, ?_, .running hknown hself hlive hinside⟩
    rw [he]
    rfl
  | last _ _ hdone =>
    have hend := h.ended.running p u hdone hr
    rw [hplace] at hend
    cases hend

/-- The coroutine switches back to the thread of `p`, for good when it is done. -/
theorem Watching.swapOut (h : Watching w) (hplace : w.scheduler.place p = .running)
    (hr : w.scheduler.runningTask p = some t) (hlinks : Links s') (hended : Ended s')
    {st : TaskState} {events : List Event} {c' : Chart} (hcreated : s'.created = w.scheduler.created)
    (hstate : s'.taskState = Function.update w.scheduler.taskState t st)
    (hrunning : s'.runningTask = w.scheduler.runningTask)
    (hswitch : s'.place = Function.update w.scheduler.place p .switch)
    (hpath : events.foldlM Chart.next .running = some c')
    (hc : st ≠ .done ∧ c' = .left ∨ st = .done ∧ c' = .last) : Watching (w.tell t events s') := by
  refine h.turn hr hlinks hended _ hcreated hstate hrunning hswitch
    (Function.update_eq_self t w.entered).symm rfl fun c hat hin => ?_
  have hbefore : ∃ r, w.scheduler.Inside r t := ⟨p, by rw [hplace]; rfl, hr⟩
  have hout : ¬ ∃ r, s'.Inside r t := fun hex => by cases hin.1 hex
  cases hat with
  | start hle => exact absurd (h.links.knownRunning p t hr) (Nat.not_lt.2 hle)
  | created _ _ _ hnot => exact absurd hbefore hnot
  | running hlt he _ _ =>
    refine ⟨c', hpath, ?_⟩
    have hlt' : t < s'.created := hcreated ▸ hlt
    rcases hc with ⟨hst, rfl⟩ | ⟨hst, rfl⟩
    · refine .left hlt' he ?_ hout
      show s'.taskState t ≠ .done
      rw [hstate, Function.update_self]
      exact hst
    · refine .last hlt' he ?_ hout
      show s'.taskState t = .done
      rw [hstate, Function.update_self]
      exact hst
  | left _ _ _ hnot => exact absurd hbefore hnot
  | last _ _ _ hnot => exact absurd hbefore hnot

theorem notice_unheard {a : Action} (hv : w.scheduler.vital a = false)
    (hn : w.notice s' (.of a) = some w') : w' = { w with scheduler := s' } := by
  cases a with
  | thread p =>
    have hplace : w.scheduler.place p ≠ .swapIn := of_decide_eq_false hv
    rw [Watched.notice, if_neg hplace, Option.some.injEq] at hn
    exact hn.symm
  | create p => cases hv
  | yield p => cases hv
  | finish p => cases hv
  | _ => exact (Option.some.inj hn).symm

/-- The function of the task that runs on `p` has returned, or has thrown. -/
theorem Watching.finish (h : Watching w) (thrown : Bool)
    (hen : Enabled w.scheduler (.finish p) = true)
    (hs : Scheduler.step w.scheduler (.finish p) = some s')
    (hn : (w.scheduler.runningTask p).map (fun t => w.tell t (Watched.onReturn thrown) s') =
      some w') : Watching w' := by
  have hlinks := h.links.step hen hs
  have hended := h.ended.step h.links hen hs
  simp only [Enabled, Bool.and_eq_true, decide_eq_true_eq] at hen
  obtain ⟨t, hr, rfl⟩ := Option.map_eq_some_iff.1 hs
  obtain ⟨u, hu, rfl⟩ := Option.map_eq_some_iff.1 hn
  have hut : u = t := Option.some.inj (hu.symm.trans hr)
  subst hut
  refine h.swapOut hen.1.1 hr hlinks hended rfl rfl rfl rfl ?_ (.inr ⟨rfl, rfl⟩)
  cases thrown <;> rfl

theorem Watching.step (h : Watching w) {handle : ExHandle} {a : Watched.Step}
    (hen : Enabled w.scheduler a.action = true) (hs : w.step handle a = some w') : Watching w' := by
  unfold Watched.step at hs
  split at hs
  · cases hs
  · obtain ⟨s', hs', hn⟩ := Option.bind_eq_some_iff.1 hs
    have hlinks := h.links.step hen hs'
    have hended := h.ended.step h.links hen hs'
    cases a with
    | throw p => exact h.finish true hen hs' hn
    | of a =>
      cases hv : w.scheduler.vital a with
      | false =>
        rw [notice_unheard hv hn]
        exact h.unheard hlinks (stays_step h.links h.ended hen hv hs')
      | true =>
        cases a with
        | create p =>
          cases hs'
          cases hn
          exact h.create hlinks
        | thread p =>
          have hplace : w.scheduler.place p = .swapIn := of_decide_eq_true hv
          rw [Watched.notice, if_pos hplace] at hn
          obtain ⟨t, hr, rfl⟩ := Option.map_eq_some_iff.1 hn
          replace hs' : w.scheduler.thread p = some s' := hs'
          rw [State.thread, hplace] at hs'
          exact h.swapIn hplace hr hlinks hended hs'
        | yield p =>
          cases hs'
          obtain ⟨t, hr, rfl⟩ := Option.map_eq_some_iff.1 hn
          have hplace : w.scheduler.place p = .running := by
            simp only [Watched.Step.action, Enabled, Bool.and_eq_true, decide_eq_true_eq] at hen
            exact hen.1
          have hlive := h.ended.not_done hr (by rw [hplace]; rfl)
          exact h.swapOut hplace hr hlinks hended rfl
            (Function.update_eq_self t w.scheduler.taskState).symm rfl rfl rfl (.inl ⟨hlive, rfl⟩)
        | finish p => exact h.finish false hen hs' hn
        | _ => cases hv

/-! ## The result -/

/-- What the events of a task say. -/
structure Watched.Follows (w : Watched) (t : Nat) (c : Chart) : Prop where
  path : Chart.after (w.events t) = some c
  created : c = .start ↔ w.scheduler.created ≤ t
  inside : c = .running ↔ ∃ p, w.scheduler.Inside p t
  once : ∀ p p', w.scheduler.Inside p t → w.scheduler.Inside p' t → p = p'
  done : c = .last ↔ w.scheduler.taskState t = .done

theorem Watching.follows (h : Watching w) (t : Nat) : ∃ c, w.Follows t c := by
  obtain ⟨c, hafter, hat⟩ := h.chart t
  have honce : ∀ p p', w.scheduler.Inside p t → w.scheduler.Inside p' t → p = p' :=
    fun p p' hp hp' => h.links.inside_unique hp hp'
  refine ⟨c, hafter, ?_, ?_, honce, ?_⟩
  · cases hat with
    | start hle => simpa using hle
    | created hlt | running hlt | left hlt | last hlt => simpa using hlt
  · cases hat with
    | start hle =>
      have hnot : ¬ ∃ p, w.scheduler.Inside p t := by
        rintro ⟨p, -, hr⟩
        exact absurd (h.links.knownRunning p t hr) (Nat.not_lt.2 hle)
      exact iff_of_false (by simp) hnot
    | created _ _ _ hnot | left _ _ _ hnot | last _ _ _ hnot => exact iff_of_false (by simp) hnot
    | running _ _ _ hin => exact iff_of_true rfl hin
  · cases hat with
    | start hle =>
      have hnot : w.scheduler.taskState t ≠ .done := fun hdone =>
        absurd (h.ended.known t hdone) (Nat.not_lt.2 hle)
      exact iff_of_false (by simp) hnot
    | created _ _ hd | running _ _ hd | left _ _ hd => exact iff_of_false (by simp) hd
    | last _ _ hd => exact iff_of_true rfl hd

/-- In every run, the events of a task are a path of the state chart.  The task is at the star when
it is inside a processor, which is one processor, and at the end when it is done. -/
theorem events_follow_chart (handle : ExHandle)
    (hr : Run (watched handle) anyAction Watched.initial w) (t : Nat) : ∃ c, w.Follows t c := by
  refine Watching.follows (hr.invariant watching_initial ?_) t
  rintro w a w' h he - hs
  exact h.step he hs

/-- A coroutine that yields once, and then throws. -/
theorem events_follow_chart_throw : ∃ w : Watched, (∃ c, w.Follows 0 c) ∧
    w.events 0 = [.onCreated, .onSwapIn, .onStart, .onSwapOut, .onSwapIn, .onException, .onFinished,
      .onSwapOut] := by
  have hexec : ((watched .on_listener).exec anyAction Watched.initial
      (List.flatten [[.of (.create 0)], List.replicate 8 (.of (.thread 0)), [.of (.yield 0)],
        List.replicate 5 (.of (.thread 0)), [.throw 0]])).any
      (fun w => decide (w.events 0 = [.onCreated, .onSwapIn, .onStart, .onSwapOut, .onSwapIn,
        .onException, .onFinished, .onSwapOut])) := by
    decide +kernel
  obtain ⟨w, hr, hevents⟩ := Run.exists_of_exec hexec
  exact ⟨w, events_follow_chart .on_listener hr 0, of_decide_eq_true hevents⟩

end Costream.Scheduler
