import Costream.Scheduler.Machine

/-!
# Where a task is linked

The place of a processor's thread says where its running task is: in `runnableQueue_`, in
`waitQueue_` when it has suspended itself and has not yielded yet, in no list at all between its
erase and its push to `gcQueue_`, or in `gcQueue_`.  `nextTask_` is always in `runnableQueue_`, and
the tag `check_` of a task in `runnableQueue_`, `waitQueue_` or `gcQueue_` is that of the queue.

`Links` is this invariant, with `Apart`: a task is in one list at most.
-/

namespace Costream.Scheduler

open Trace Costream.Lists

/-! ## Places -/

/-- Where the running task is. -/
inductive Seat where
  | idle
  | linked
  | coroutine
  | loose
  | collected
  deriving DecidableEq

def AfterAdd.seat : AfterAdd → Seat
  | .frontAgain => .idle
  | .loop => .idle
  | .nextRunnable => .linked
  | .nextAgain => .linked

def AfterGC.seat : AfterGC → Seat
  | .condition => .idle
  | .push => .loose

namespace Place

def seat : Place → Seat
  | .loop | .front | .frontAgain | .condition | .blocked | .woken => .idle
  | .addNew after | .adding after _ => after.seat
  | .pop after | .release after _ | .clear after => after.seat
  | .running | .switch => .coroutine
  | .push => .loose
  | .finish => .collected
  | _ => .linked

/-- `nextTask_` is null. -/
def fresh : Place → Bool
  | .addNew .nextAgain | .adding .nextAgain _ => false
  | .pop .push | .release .push _ | .clear .push => false
  | .running | .switch | .next | .nextAgain | .erase | .push | .finish | .stopped => false
  | _ => true

/-- The state of the running task. -/
def taskState : Place → Option TaskState
  | .suspending => some .block
  | .addNew .nextAgain | .adding .nextAgain _ => some .done
  | .pop .push | .release .push _ | .clear .push => some .done
  | .next | .nextAgain | .erase | .push | .finish => some .done
  | _ => none

/-- `GC` has a list. -/
def collecting : Place → Bool
  | .release _ _ | .clear _ => true
  | _ => false

@[simp] theorem seat_afterAdd (after : AfterAdd) : after.place.seat = after.seat := by
  cases after <;> rfl

@[simp] theorem seat_afterGC (after : AfterGC) : after.place.seat = after.seat := by
  cases after <;> rfl

@[simp] theorem collecting_afterAdd (after : AfterAdd) : after.place.collecting = false := by
  cases after <;> rfl

@[simp] theorem collecting_afterGC (after : AfterGC) : after.place.collecting = false := by
  cases after <;> rfl

end Place

/-- The queues whose tag a task in them has. -/
def Queue.tagged : Queue → Bool
  | .runnable _ | .wait _ | .gc _ => true
  | _ => false

/-- The queue is `runnableQueue_`, `waitQueue_` or `gcQueue_` of `p`, or its list of garbage. -/
def Queue.isOf (p : Nat) : Queue → Bool
  | .runnable p' | .wait p' | .gc p' | .garbage p' => p = p'
  | _ => false

/-! ## The invariant -/

/-- The task `t` is where the running task of `p` is. -/
def State.Sits (s : State) (p t : Nat) : Seat → Prop
  | .idle => False
  | .linked => t ∈ s.queues (.runnable p)
  | .coroutine =>
    t ∈ s.queues (.runnable p) ∨ s.taskState t = .block ∧ t ∈ s.queues (.wait p)
  | .loose => s.check t = none ∧ Absent s.queues t
  | .collected => t ∈ s.queues (.gc p)

structure Seated (s : State) (p : Nat) : Prop where
  sits : ∀ t, s.runningTask p = some t → s.Sits p t (s.place p).seat
  next : ∀ u, s.nextTask p = some u → u ∈ s.queues (.runnable p) ∧ s.runningTask p ≠ some u
  fresh : (s.place p).fresh = true → s.nextTask p = none
  awake : (s.place p).seat = .coroutine → ∀ t, s.runningTask p = some t →
    s.taskState t ≠ .block → s.nextTask p = none
  state : ∀ st, (s.place p).taskState = some st → ∀ t, s.runningTask p = some t →
    s.taskState t = st
  garbage : (s.place p).collecting = false → s.queues (.garbage p) = []

structure Links (s : State) : Prop where
  apart : Apart s.queues
  known : ∀ q t, t ∈ s.queues q → t < s.created
  knownRunning : ∀ p t, s.runningTask p = some t → t < s.created
  tag : ∀ q t, q.tagged = true → t ∈ s.queues q → s.check t = some q
  gone : ∀ p t, t ∈ s.queues (.gc p) ∨ t ∈ s.queues (.garbage p) → s.taskState t = .done
  seated : ∀ p, Seated s p
  loose : ∀ p p' t, (s.place p).seat = .loose → (s.place p').seat = .loose →
    s.runningTask p = some t → s.runningTask p' = some t → p = p'

variable {s s' : State} {p p' t u : Nat} {q : Queue}

theorem links_initial : Links State.initial := by
  refine ⟨⟨fun q => List.nodup_nil, ?_⟩, ?_, ?_, ?_, ?_, fun p => ⟨?_, ?_, ?_, ?_, ?_, ?_⟩, ?_⟩
  all_goals simp [State.initial]

/-! ### What the running tasks are in -/

/-- A running task is in a queue of its processor, or in no list. -/
theorem Links.running_cases (h : Links s) (hr : s.runningTask p = some t) :
    (∃ q, q.isOf p = true ∧ q.tagged = true ∧ t ∈ s.queues q) ∨
      ((s.place p).seat = .loose ∧ s.check t = none ∧ Absent s.queues t) := by
  have hsits := (h.seated p).sits t hr
  cases hseat : (s.place p).seat with
  | idle =>
    rw [hseat] at hsits
    exact hsits.elim
  | linked =>
    rw [hseat] at hsits
    exact .inl ⟨.runnable p, by simp [Queue.isOf], rfl, hsits⟩
  | coroutine =>
    rw [hseat] at hsits
    rcases hsits with hsits | ⟨-, hsits⟩
    · exact .inl ⟨.runnable p, by simp [Queue.isOf], rfl, hsits⟩
    · exact .inl ⟨.wait p, by simp [Queue.isOf], rfl, hsits⟩
  | loose =>
    rw [hseat] at hsits
    exact .inr ⟨rfl, hsits⟩
  | collected =>
    rw [hseat] at hsits
    exact .inl ⟨.gc p, by simp [Queue.isOf], rfl, hsits⟩

theorem isOf_unique (h : q.isOf p = true) (h' : q.isOf p' = true) : p = p' := by
  cases q <;> simp_all [Queue.isOf]

/-- A task runs on one processor. -/
theorem Links.running_unique (h : Links s) (hr : s.runningTask p = some t)
    (hr' : s.runningTask p' = some t) : p = p' := by
  rcases h.running_cases hr with ⟨q, hq, -, hmem⟩ | ⟨hloose, -, habs⟩
  · rcases h.running_cases hr' with ⟨q', hq', -, hmem'⟩ | ⟨-, -, habs'⟩
    · have hqq := h.apart.apart q q' t hmem hmem'
      subst hqq
      exact isOf_unique hq hq'
    · exact absurd hmem (habs' q)
  · rcases h.running_cases hr' with ⟨q', -, -, hmem'⟩ | ⟨hloose', -, -⟩
    · exact absurd hmem' (habs q')
    · exact h.loose p p' t hloose hloose' hr hr'

/-- What is in another list does not run on `p`. -/
theorem Links.running_ne (h : Links s) (hr : s.runningTask p = some t) (hu : u ∈ s.queues q)
    (hq : q.isOf p = false) : t ≠ u := by
  intro htu
  subst htu
  rcases h.running_cases hr with ⟨q', hq', -, hmem⟩ | ⟨-, -, habs⟩
  · have hqq := h.apart.apart q q' t hu hmem
    subst hqq
    rw [hq] at hq'
    cases hq'
  · exact habs q hu

/-- The running task in `runnableQueue_`, where no other place is possible. -/
theorem Seated.linked (h : Seated s p) (hr : s.runningTask p = some t)
    (hseat : (s.place p).seat = .linked) : t ∈ s.queues (.runnable p) := by
  have := h.sits t hr
  rwa [hseat] at this

theorem Seated.coroutine (h : Seated s p) (hr : s.runningTask p = some t)
    (hseat : (s.place p).seat = .coroutine) (hst : s.taskState t ≠ .block) :
    t ∈ s.queues (.runnable p) := by
  have := h.sits t hr
  rw [hseat] at this
  exact this.resolve_right fun hblock => hst hblock.1

theorem Seated.idle (h : Seated s p) (hseat : (s.place p).seat = .idle) :
    s.runningTask p = none := by
  cases hr : s.runningTask p with
  | none => rfl
  | some t =>
    have := h.sits t hr
    rw [hseat] at this
    exact this.elim

/-! ### What the invariant does not see -/

/-- The part of a state that `Links` is about. -/
def State.core (s : State) : State :=
  { State.initial with
    created := s.created
    taskState := s.taskState
    check := s.check
    queues := s.queues
    runningTask := s.runningTask
    nextTask := s.nextTask
    place := s.place }

theorem seated_core : Seated s.core p ↔ Seated s p :=
  ⟨fun h => ⟨h.sits, h.next, h.fresh, h.awake, h.state, h.garbage⟩,
    fun h => ⟨h.sits, h.next, h.fresh, h.awake, h.state, h.garbage⟩⟩

theorem links_core : Links s.core ↔ Links s :=
  ⟨fun h => ⟨h.apart, h.known, h.knownRunning, h.tag, h.gone, fun p => seated_core.1 (h.seated p),
      h.loose⟩,
    fun h => ⟨h.apart, h.known, h.knownRunning, h.tag, h.gone, fun p => seated_core.2 (h.seated p),
      h.loose⟩⟩

theorem Links.of_core (h : Links s) (heq : s'.core = s.core) : Links s' := by
  rw [← links_core, heq, links_core]
  exact h

@[simp] theorem core_decRef (s : State) (t : Nat) : (s.decRef t).core = s.core := by
  unfold State.decRef
  dsimp only
  split <;> rfl

@[simp] theorem core_incRef (s : State) (t : Nat) : (s.incRef t).core = s.core := rfl

@[simp] theorem core_setWakeup (s : State) (k : Nat) (w : Wakeup) :
    (s.setWakeup k w).core = s.core := rfl

@[simp] theorem core_setAdder (s : State) (k : Nat) (a : Adder) :
    (s.setAdder k a).core = s.core := rfl

theorem core_goto (s : State) (p : Nat) (place : Place) :
    (s.goto p place).core = s.core.goto p place := rfl

@[simp] theorem goto_place (s : State) (p : Nat) (place : Place) :
    (s.goto p place).place p = place := Function.update_self ..

theorem setQueue_other {r : Queue} {tasks : List Nat} (hr : r ≠ q) :
    (s.setQueue q tasks).queues r = s.queues r := Function.update_of_ne hr ..

theorem exists_mark_eq (s : State) (q : Queue) (out : Option Nat) :
    ∃ check, s.mark q out = { s with check := check } := by
  cases out with
  | none => exact ⟨s.check, rfl⟩
  | some t => exact ⟨_, rfl⟩

/-! ### Steps of one processor -/

/-- The step changes nothing that the invariant says about the other processors. -/
structure Local (s s' : State) (p : Nat) : Prop where
  place : ∀ p' ≠ p, s'.place p' = s.place p'
  running : ∀ p' ≠ p, s'.runningTask p' = s.runningTask p'
  next : ∀ p' ≠ p, s'.nextTask p' = s.nextTask p'
  queues : ∀ p' ≠ p, ∀ q, q.isOf p' = true → s'.queues q = s.queues q
  others : ∀ p' ≠ p, ∀ t, s.runningTask p' = some t →
    s'.taskState t = s.taskState t ∧ s'.check t = s.check t ∧
      (Absent s.queues t → Absent s'.queues t)

theorem Seated.of_local (h : Seated s p') (hl : Local s s' p) (hne : p' ≠ p) : Seated s' p' := by
  have hplace := hl.place p' hne
  have hrunning := hl.running p' hne
  have hnext := hl.next p' hne
  have hqueue : ∀ q, q.isOf p' = true → s'.queues q = s.queues q := hl.queues p' hne
  have hrunnable := hqueue (.runnable p') (by simp [Queue.isOf])
  have hwait := hqueue (.wait p') (by simp [Queue.isOf])
  have hgc := hqueue (.gc p') (by simp [Queue.isOf])
  have hgarbage := hqueue (.garbage p') (by simp [Queue.isOf])
  refine ⟨fun t ht => ?_, ?_, ?_, fun hseat t ht => ?_, fun st hst t ht => ?_, ?_⟩
  · rw [hrunning] at ht
    obtain ⟨hst, hcheck, habs⟩ := hl.others p' hne t ht
    have hsits := h.sits t ht
    rw [hplace]
    cases hseat : (s.place p').seat with
    | idle =>
      rw [hseat] at hsits
      exact hsits
    | linked =>
      rw [hseat] at hsits
      unfold State.Sits
      rwa [hrunnable]
    | coroutine =>
      rw [hseat] at hsits
      unfold State.Sits
      rwa [hrunnable, hwait, hst]
    | loose =>
      rw [hseat] at hsits
      exact ⟨hcheck.trans hsits.1, habs hsits.2⟩
    | collected =>
      rw [hseat] at hsits
      unfold State.Sits
      rwa [hgc]
  · rw [hnext, hrunnable, hrunning]
    exact h.next
  · rw [hplace, hnext]
    exact h.fresh
  · rw [hplace] at hseat
    rw [hrunning] at ht
    rw [hnext, (hl.others p' hne t ht).1]
    exact h.awake hseat t ht
  · rw [hplace] at hst
    rw [hrunning] at ht
    rw [(hl.others p' hne t ht).1]
    exact h.state st hst t ht
  · rw [hplace, hgarbage]
    exact h.garbage

/-- The task can run on `p`. -/
def Mine (s : State) (p t : Nat) : Prop := t < s.created ∧ ∀ p' ≠ p, s.runningTask p' ≠ some t

theorem Links.mine (h : Links s) (hr : s.runningTask p = some t) : Mine s p t :=
  ⟨h.knownRunning p t hr, fun _ hne hr' => hne (h.running_unique hr' hr)⟩

theorem Links.mine_of_mem (h : Links s) (hmem : t ∈ s.queues q) (hq : q.isOf p = true) :
    Mine s p t := by
  refine ⟨h.known q t hmem, fun p' hne hr' => ?_⟩
  refine h.running_ne hr' hmem ?_ rfl
  cases hq' : q.isOf p' with
  | false => rfl
  | true => exact absurd (isOf_unique hq' hq) hne

/-- A step of `p` keeps the invariant when it does so for `p`. -/
theorem Links.of_local (h : Links s) (hl : Local s s' p) (hapart : Apart s'.queues)
    (hknown : ∀ q t, t ∈ s'.queues q → t < s'.created) (hcreated : s.created ≤ s'.created)
    (htag : ∀ q t, q.tagged = true → t ∈ s'.queues q → s'.check t = some q)
    (hgone : ∀ p t, t ∈ s'.queues (.gc p) ∨ t ∈ s'.queues (.garbage p) → s'.taskState t = .done)
    (hmine : ∀ t, s'.runningTask p = some t → Mine s p t) (hseated : Seated s' p) :
    Links s' := by
  have hrunning : ∀ p' ≠ p, ∀ t, s'.runningTask p' = some t → s.runningTask p' = some t := by
    intro p' hne t ht
    rwa [hl.running p' hne] at ht
  refine ⟨hapart, hknown, fun p' t ht => ?_, htag, hgone, fun p' => ?_, ?_⟩
  · by_cases hp : p' = p
    · exact (hmine t (hp ▸ ht)).1.trans_le hcreated
    · exact (h.knownRunning p' t (hrunning p' hp t ht)).trans_le hcreated
  · by_cases hp : p' = p
    · exact hp ▸ hseated
    · exact (h.seated p').of_local hl hp
  · intro p₁ p₂ t hp₁ hp₂ hr₁ hr₂
    by_cases h₁ : p₁ = p
    · subst h₁
      by_cases h₂ : p₂ = p₁
      · exact h₂.symm
      · exact absurd (hrunning p₂ h₂ t hr₂) ((hmine t hr₁).2 p₂ h₂)
    · by_cases h₂ : p₂ = p
      · subst h₂
        exact absurd (hrunning p₁ h₁ t hr₁) ((hmine t hr₂).2 p₁ h₁)
      · rw [hl.place p₁ h₁] at hp₁
        rw [hl.place p₂ h₂] at hp₂
        exact h.loose p₁ p₂ t hp₁ hp₂ (hrunning p₁ h₁ t hr₁) (hrunning p₂ h₂ t hr₂)

/-! ### Steps that leave the lists alone -/

/-- The thread of `p` with other tasks and at another place. -/
def State.setThread (s : State) (p : Nat) (running next : Option Nat) (place : Place) : State :=
  { s with
    runningTask := Function.update s.runningTask p running
    nextTask := Function.update s.nextTask p next
    place := Function.update s.place p place }

section setThread

variable (running next : Option Nat) (place : Place)

@[simp] theorem setThread_running : (s.setThread p running next place).runningTask p = running :=
  Function.update_self ..

@[simp] theorem setThread_next : (s.setThread p running next place).nextTask p = next :=
  Function.update_self ..

@[simp] theorem setThread_place : (s.setThread p running next place).place p = place :=
  Function.update_self ..

@[simp] theorem setThread_queues : (s.setThread p running next place).queues = s.queues := rfl

@[simp] theorem setThread_taskState :
    (s.setThread p running next place).taskState = s.taskState := rfl

theorem proceed_eq : s.proceed p running =
    s.setThread p running (s.nextTask p) (if running = none then .loop else .inner) := by
  unfold State.setThread
  rw [Function.update_eq_self]
  rfl

theorem takeNext_eq : s.takeNext p =
    s.setThread p (s.nextTask p) none (if s.nextTask p = none then .loop else .inner) := by
  rfl

end setThread

/-- Only the tasks and the place of the thread change. -/
theorem Links.setThread (h : Links s) {running next : Option Nat} {place : Place}
    (hmine : ∀ t, running = some t → Mine s p t)
    (hs : Seated (s.setThread p running next place) p) :
    Links (s.setThread p running next place) := by
  refine h.of_local (p := p) ⟨fun p' hne => Function.update_of_ne hne ..,
    fun p' hne => Function.update_of_ne hne .., fun p' hne => Function.update_of_ne hne ..,
    fun _ _ _ _ => rfl, fun _ _ _ _ => ⟨rfl, rfl, id⟩⟩ h.apart
    h.known (Nat.le_refl _) h.tag h.gone (fun t ht => ?_) hs
  rw [setThread_running] at ht
  exact hmine t ht

/-- The inner loop goes on with `running`, or the outer one. -/
theorem Links.setThread_inner (h : Links s) {running : Option Nat}
    (hrunning : ∀ t, running = some t → t ∈ s.queues (.runnable p))
    (hgarbage : s.queues (.garbage p) = []) :
    Links (s.setThread p running none (if running = none then .loop else .inner)) := by
  refine h.setThread (fun t ht => h.mine_of_mem (hrunning t ht) (by simp [Queue.isOf])) ?_
  refine ⟨fun t ht => ?_, fun u hu => ?_, fun _ => ?_, fun _ t _ _ => ?_, fun st hst => ?_,
    fun _ => hgarbage⟩
  · rw [setThread_running] at ht
    subst ht
    rw [setThread_place, if_neg (by simp)]
    exact hrunning t rfl
  · rw [setThread_next] at hu
    cases hu
  · rw [setThread_next]
  · rw [setThread_next]
  · rw [setThread_place] at hst
    split at hst <;> cases hst

/-- `front`, `next` and `Process` only confirm the tags of tasks in `runnableQueue_`. -/
theorem Links.setCheck_eq (h : Links s) (ht : t ∈ s.queues (.runnable p)) :
    s.setCheck t (some (.runnable p)) = s := by
  unfold State.setCheck
  rw [← h.tag (.runnable p) t rfl ht, Function.update_eq_self]

theorem Links.mark_eq (h : Links s) {out : Option Nat}
    (hout : ∀ t, out = some t → t ∈ s.queues (.runnable p)) : s.mark (.runnable p) out = s := by
  cases out with
  | none => rfl
  | some t => exact h.setCheck_eq (hout t rfl)

/-- The thread goes on to another place. -/
theorem Links.goto (h : Links s) {place : Place}
    (hsits : ∀ t, s.runningTask p = some t → s.Sits p t place.seat)
    (hfresh : place.fresh = true → s.nextTask p = none)
    (hawake : place.seat = .coroutine → ∀ t, s.runningTask p = some t →
      s.taskState t ≠ .block → s.nextTask p = none)
    (hstate : ∀ st, place.taskState = some st → ∀ t, s.runningTask p = some t →
      s.taskState t = st)
    (hgarbage : place.collecting = false → s.queues (.garbage p) = []) :
    Links (s.goto p place) := by
  refine h.of_local (p := p) ⟨fun p' hne => Function.update_of_ne hne .., fun _ _ => rfl,
    fun _ _ => rfl, fun _ _ _ _ => rfl, fun _ _ _ _ => ⟨rfl, rfl, id⟩⟩ h.apart h.known (Nat.le_refl _)
    h.tag h.gone (fun t ht => h.mine ht) ?_
  refine ⟨fun t ht => ?_, (h.seated p).next, ?_, ?_, ?_, ?_⟩
  · rw [goto_place]
    exact hsits t ht
  · rw [goto_place]
    exact hfresh
  · rw [goto_place]
    exact hawake
  · rw [goto_place]
    exact hstate
  · rw [goto_place]
    exact hgarbage

/-- The thread goes on to a place that says the same. -/
theorem Links.goto_like (h : Links s) {place : Place} (hseat : place.seat = (s.place p).seat)
    (hfresh : place.fresh = true → (s.place p).fresh = true)
    (hstate : place.taskState = none ∨ place.taskState = (s.place p).taskState)
    (hgarbage : place.collecting = false → (s.place p).collecting = false) :
    Links (s.goto p place) := by
  have hp := h.seated p
  refine h.goto (fun t ht => ?_) (fun hf => hp.fresh (hfresh hf)) (fun hc => ?_)
    (fun st hst => ?_) fun hg => hp.garbage (hgarbage hg)
  · rw [hseat]
    exact hp.sits t ht
  · rw [hseat] at hc
    exact hp.awake hc
  · rcases hstate with hnone | hsame
    · rw [hnone] at hst
      cases hst
    · rw [hsame] at hst
      exact hp.state st hst

/-! ### Steps that move tasks from list to list -/

/-- What a move of tasks leaves for the running and the next task of `p`. -/
structure Keeps (s s' : State) (p : Nat) : Prop where
  runnable : ∀ t, s.runningTask p = some t ∨ s.nextTask p = some t →
    t ∈ s.queues (.runnable p) → t ∈ s'.queues (.runnable p)
  wait : ∀ t, s.runningTask p = some t → t ∈ s.queues (.wait p) →
    t ∈ s'.queues (.wait p) ∨ t ∈ s'.queues (.runnable p)
  gc : ∀ t, s.runningTask p = some t → t ∈ s.queues (.gc p) → t ∈ s'.queues (.gc p)
  loose : ∀ t, s.runningTask p = some t → s.check t = none → Absent s.queues t →
    s'.check t = none ∧ Absent s'.queues t
  garbage : (s.place p).collecting = false → s.queues (.garbage p) = [] →
    s'.queues (.garbage p) = []

theorem Seated.of_keeps (h : Seated s p) (hk : Keeps s s' p) (hplace : s'.place = s.place)
    (hrunning : s'.runningTask = s.runningTask) (hnext : s'.nextTask = s.nextTask)
    (hstate : ∀ t, s.runningTask p = some t → s'.taskState t = s.taskState t) : Seated s' p := by
  refine ⟨fun t ht => ?_, fun u hu => ?_, ?_, fun hc t ht => ?_, fun st hst t ht => ?_,
    fun hg => ?_⟩
  · rw [hrunning] at ht
    have hsits := h.sits t ht
    rw [hplace]
    cases hseat : (s.place p).seat with
    | idle =>
      rw [hseat] at hsits
      exact hsits
    | linked =>
      rw [hseat] at hsits
      exact hk.runnable t (.inl ht) hsits
    | coroutine =>
      rw [hseat] at hsits
      rcases hsits with hsits | ⟨hst, hsits⟩
      · exact .inl (hk.runnable t (.inl ht) hsits)
      · rcases hk.wait t ht hsits with hwait | hrunnable
        · exact .inr ⟨(hstate t ht).trans hst, hwait⟩
        · exact .inl hrunnable
    | loose =>
      rw [hseat] at hsits
      exact hk.loose t ht hsits.1 hsits.2
    | collected =>
      rw [hseat] at hsits
      exact hk.gc t ht hsits
  · rw [hnext] at hu
    obtain ⟨hmem, hne⟩ := h.next u hu
    rw [hrunning]
    exact ⟨hk.runnable u (.inr hu) hmem, hne⟩
  · rw [hplace, hnext]
    exact h.fresh
  · rw [hplace] at hc
    rw [hrunning] at ht
    rw [hstate t ht, hnext]
    exact h.awake hc t ht
  · rw [hplace] at hst
    rw [hrunning] at ht
    rw [hstate t ht]
    exact h.state st hst t ht
  · rw [hplace] at hg
    exact hk.garbage hg (h.garbage hg)

/-- A move of tasks that leaves the threads alone. -/
theorem Links.of_keeps (h : Links s) (hplace : s'.place = s.place)
    (hrunning : s'.runningTask = s.runningTask) (hnext : s'.nextTask = s.nextTask)
    (hstate : ∀ t < s.created, s'.taskState t = s.taskState t) (hcreated : s.created ≤ s'.created)
    (hapart : Apart s'.queues) (hknown : ∀ q t, t ∈ s'.queues q → t < s'.created)
    (htag : ∀ q t, q.tagged = true → t ∈ s'.queues q → s'.check t = some q)
    (hgone : ∀ p t, t ∈ s'.queues (.gc p) ∨ t ∈ s'.queues (.garbage p) → s'.taskState t = .done)
    (hkeeps : ∀ p, Keeps s s' p) : Links s' := by
  refine ⟨hapart, hknown, fun p t ht => ?_, htag, hgone, fun p => ?_, ?_⟩
  · rw [hrunning] at ht
    exact (h.knownRunning p t ht).trans_le hcreated
  · exact (h.seated p).of_keeps (hkeeps p) hplace hrunning hnext
      fun t ht => hstate t (h.knownRunning p t ht)
  · rw [hplace, hrunning]
    exact h.loose

/-- The state after two lists have exchanged tasks. -/
def State.exchange (s : State) (q q' : Queue) (xs ys : List Nat) (check : Nat → Option Queue) :
    State :=
  { s with
    queues := Function.update (Function.update s.queues q xs) q' ys
    check := check }

section exchange

variable {q' : Queue} {xs ys : List Nat} {check : Nat → Option Queue}

theorem exchange_queues : (s.exchange q q' xs ys check).queues =
    Function.update (Function.update s.queues q xs) q' ys := rfl

theorem exchange_self : (s.exchange q q' xs ys check).queues q' = ys := Function.update_self ..

theorem exchange_other (hne : q ≠ q') : (s.exchange q q' xs ys check).queues q = xs := by
  rw [exchange_queues, Function.update_of_ne hne, Function.update_self]

theorem exchange_of_ne {r : Queue} (hq : r ≠ q) (hq' : r ≠ q') :
    (s.exchange q q' xs ys check).queues r = s.queues r := by
  rw [exchange_queues, Function.update_of_ne hq', Function.update_of_ne hq]

theorem exchange_known (h : Links s) (hperm : (xs ++ ys).Perm (s.queues q ++ s.queues q'))
    {r : Queue} (ht : t ∈ (s.exchange q q' xs ys check).queues r) : t < s.created := by
  have hmem := hperm.mem_iff (a := t)
  rw [List.mem_append, List.mem_append] at hmem
  have hboth : t ∈ s.queues q ∨ t ∈ s.queues q' → t < s.created :=
    fun ht => ht.elim (h.known q t) (h.known q' t)
  rw [exchange_queues] at ht
  by_cases hr' : r = q'
  · subst hr'
    rw [Function.update_self] at ht
    exact hboth (hmem.1 (.inr ht))
  · rw [Function.update_of_ne hr'] at ht
    by_cases hr : r = q
    · subst hr
      rw [Function.update_self] at ht
      exact hboth (hmem.1 (.inl ht))
    · rw [Function.update_of_ne hr] at ht
      exact h.known r t ht

/-- Two lists exchange tasks. -/
theorem Links.exchange (h : Links s) (hne : q ≠ q')
    (hperm : (xs ++ ys).Perm (s.queues q ++ s.queues q'))
    (htag : ∀ r t, r.tagged = true → t ∈ (s.exchange q q' xs ys check).queues r → check t = some r)
    (hgone : ∀ p t, t ∈ (s.exchange q q' xs ys check).queues (.gc p) ∨
      t ∈ (s.exchange q q' xs ys check).queues (.garbage p) → s.taskState t = .done)
    (hkeeps : ∀ p, Keeps s (s.exchange q q' xs ys check) p) :
    Links (s.exchange q q' xs ys check) :=
  h.of_keeps rfl rfl rfl (fun _ _ => rfl) (Nat.le_refl _) (h.apart.exchange hne hperm)
    (fun _ _ ht => exchange_known (s := s) h hperm ht) htag hgone hkeeps

/-- Two lists in which no tag counts exchange tasks. -/
theorem Links.exchange_untagged (h : Links s) (hne : q ≠ q')
    (hperm : (xs ++ ys).Perm (s.queues q ++ s.queues q'))
    (hq : ∀ p, q.isOf p = false) (hq' : ∀ p, q'.isOf p = false) :
    Links (s.exchange q q' xs ys s.check) := by
  have hof : ∀ r p, r.isOf p = true → (s.exchange q q' xs ys s.check).queues r = s.queues r := by
    intro r p hr
    refine exchange_of_ne (fun he => ?_) (fun he => ?_)
    · rw [he, hq] at hr
      cases hr
    · rw [he, hq'] at hr
      cases hr
  have htagged : ∀ r : Queue, r.tagged = true → ∃ p, r.isOf p = true := by
    intro r hr
    cases r with
    | runnable p => exact ⟨p, by simp [Queue.isOf]⟩
    | wait p => exact ⟨p, by simp [Queue.isOf]⟩
    | gc p => exact ⟨p, by simp [Queue.isOf]⟩
    | _ => cases hr
  refine h.exchange hne hperm (fun r t hr ht => ?_) (fun p t ht => ?_) fun p => ?_
  · obtain ⟨p, hp⟩ := htagged r hr
    rw [hof r p hp] at ht
    exact h.tag r t hr ht
  · rw [hof (.gc p) p (by simp [Queue.isOf]), hof (.garbage p) p (by simp [Queue.isOf])] at ht
    exact h.gone p t ht
  · refine ⟨fun t _ ht => ?_, fun t _ ht => .inl ?_, fun t _ ht => ?_, fun t _ hcheck habs => ?_,
      fun _ hg => ?_⟩
    · rwa [hof (.runnable p) p (by simp [Queue.isOf])]
    · rwa [hof (.wait p) p (by simp [Queue.isOf])]
    · rwa [hof (.gc p) p (by simp [Queue.isOf])]
    · exact ⟨hcheck, (absent_exchange hne hperm).2 habs⟩
    · rwa [hof (.garbage p) p (by simp [Queue.isOf])]

end exchange

end Costream.Scheduler
