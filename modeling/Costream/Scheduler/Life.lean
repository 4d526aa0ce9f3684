import Costream.Scheduler.Suspend

/-!
# The life of a coroutine

A coroutine is outside of all processors or inside of one, from the switch to its stack to the
switch back.  A task that is done is not entered again: it stays the running task of its thread
until it is in `gcQueue_`, and no other list gives it to a thread.

* `Ended` is the invariant about the tasks that are done.
* `Stays` is a step in which no coroutine is created, entered, left or done.  `stays_thread` and
  `stays_step` say that these are all steps but the four that do so.
* `State.follow` keeps on whose stack each thread is, from the switches alone.  It is the stack of
  the running task, for as long as the thread is inside (`OnStack.step`).
-/

namespace Costream.Scheduler

open Trace Costream.Lists

/-- The thread is on the stack of the running task. -/
def Place.inside : Place → Bool
  | .running | .suspending => true
  | _ => false

/-- A task that is done can be the running task. -/
def Place.ending : Place → Bool
  | .addNew .nextAgain | .adding .nextAgain _ => true
  | .pop .push | .release .push _ | .clear .push => true
  | .switch | .next | .nextAgain | .erase | .push | .finish => true
  | _ => false

/-- The task waits to be deleted. -/
def Queue.dead : Queue → Bool
  | .gc _ | .garbage _ => true
  | _ => false

/-- The coroutine `t` is inside the processor `p`. -/
def State.Inside (s : State) (p t : Nat) : Prop :=
  (s.place p).inside = true ∧ s.runningTask p = some t

structure Ended (s : State) : Prop where
  known : ∀ t, s.taskState t = .done → t < s.created
  queued : ∀ q t, s.taskState t = .done → t ∈ s.queues q →
    q.dead = true ∨ ∃ p, q = .runnable p ∧ s.runningTask p = some t
  running : ∀ p t, s.taskState t = .done → s.runningTask p = some t → (s.place p).ending = true

theorem ended_initial : Ended State.initial := by
  refine ⟨fun t ht => ?_, fun q t ht => ?_, fun p t ht => ?_⟩
  all_goals cases ht

/-- No coroutine is created, entered, left or done. -/
structure Stays (s s' : State) : Prop where
  created : s'.created = s.created
  done : ∀ t, s'.taskState t = .done ↔ s.taskState t = .done
  inside : ∀ p t, s'.Inside p t ↔ s.Inside p t
  queued : ∀ q t, s.taskState t = .done → t ∈ s'.queues q → q.dead = true ∨ t ∈ s.queues q
  running : ∀ p t, s.taskState t = .done → s'.runningTask p = some t →
    s.runningTask p = some t ∧ ((s.place p).ending = true → (s'.place p).ending = true)
  leaves : ∀ p t, s.taskState t = .done → s.runningTask p = some t →
    s'.runningTask p = some t ∨ ∀ q, t ∈ s'.queues q → q.dead = true

variable {s s' s'' : State} {p p' t u k n : Nat} {q : Queue}

theorem Ended.of_stays (h : Ended s) (hc : Stays s s') : Ended s' := by
  refine ⟨fun t ht => ?_, fun q t ht hmem => ?_, fun p t ht hr => ?_⟩
  · rw [hc.created]
    exact h.known t ((hc.done t).1 ht)
  · have hdone := (hc.done t).1 ht
    rcases hc.queued q t hdone hmem with hdead | hold
    · exact .inl hdead
    · rcases h.queued q t hdone hold with hdead | ⟨p, hq, hr⟩
      · exact .inl hdead
      · rcases hc.leaves p t hdone hr with hr' | hall
        · exact .inr ⟨p, hq, hr'⟩
        · exact .inl (hall q hmem)
  · have hdone := (hc.done t).1 ht
    obtain ⟨hr', hend⟩ := hc.running p t hdone hr
    exact hend (h.running p t hdone hr')

theorem Stays.trans (h : Stays s s') (h' : Stays s' s'') : Stays s s'' where
  created := h'.created.trans h.created
  done t := (h'.done t).trans (h.done t)
  inside p t := (h'.inside p t).trans (h.inside p t)
  queued q t ht hmem := by
    rcases h'.queued q t ((h.done t).2 ht) hmem with hdead | hmem'
    · exact .inl hdead
    · exact h.queued q t ht hmem'
  running p t ht hr := by
    obtain ⟨hr', hend'⟩ := h'.running p t ((h.done t).2 ht) hr
    obtain ⟨hr, hend⟩ := h.running p t ht hr'
    exact ⟨hr, fun he => hend' (hend he)⟩
  leaves p t ht hr := by
    rcases h.leaves p t ht hr with hr' | hall
    · exact h'.leaves p t ((h.done t).2 ht) hr'
    · refine .inr fun q hmem => ?_
      rcases h'.queued q t ((h.done t).2 ht) hmem with hdead | hmem'
      · exact hdead
      · exact hall q hmem'

/-- What runs is not done at another place. -/
theorem Ended.not_done (h : Ended s) (hr : s.runningTask p = some t)
    (hplace : (s.place p).ending = false) : s.taskState t ≠ .done := by
  intro hdone
  rw [h.running p t hdone hr] at hplace
  cases hplace

/-- What does not run is not done when it is in `runnableQueue_`. -/
theorem Ended.runnable (h : Ended s) (hmem : t ∈ s.queues (.runnable p))
    (hne : s.runningTask p ≠ some t) : s.taskState t ≠ .done := by
  intro hdone
  rcases h.queued _ t hdone hmem with hdead | ⟨p', hq, hr⟩
  · cases hdead
  · cases hq
    exact hne hr

/-- What waits in another list is not done. -/
theorem Ended.waits (h : Ended s) (hmem : t ∈ s.queues q) (hdead : q.dead = false)
    (hq : ∀ p, q ≠ .runnable p) : s.taskState t ≠ .done := by
  intro hdone
  rcases h.queued q t hdone hmem with hd | ⟨p, hp, -⟩
  · rw [hdead] at hd
    cases hd
  · exact hq p hp

/-! ## Steps of a thread -/

/-- Only lists change. -/
theorem stays_of_queued (hcreated : s'.created = s.created) (hstate : s'.taskState = s.taskState)
    (hrunning : s'.runningTask = s.runningTask) (hplace : s'.place = s.place)
    (hqueued : ∀ q t, s.taskState t = .done → t ∈ s'.queues q → q.dead = true ∨ t ∈ s.queues q) :
    Stays s s' := by
  refine ⟨hcreated, fun t => by rw [hstate], fun p t => ?_, hqueued, fun p t _ hr => ?_,
    fun p t _ hr => .inl ?_⟩
  · unfold State.Inside
    rw [hplace, hrunning]
  · rw [hrunning] at hr
    rw [hplace]
    exact ⟨hr, id⟩
  · rw [hrunning]
    exact hr

theorem stays_same (hcreated : s'.created = s.created) (hstate : s'.taskState = s.taskState)
    (hrunning : s'.runningTask = s.runningTask) (hplace : s'.place = s.place)
    (hqueues : s'.queues = s.queues) : Stays s s' :=
  stays_of_queued hcreated hstate hrunning hplace fun q t _ ht => .inr (by rwa [hqueues] at ht)

theorem stays_refl (s : State) : Stays s s := stays_same rfl rfl rfl rfl rfl

theorem stays_setQueue {l : List Nat}
    (hl : ∀ t ∈ l, s.taskState t = .done → q.dead = true ∨ t ∈ s.queues q) :
    Stays s (s.setQueue q l) := by
  refine stays_of_queued rfl rfl rfl rfl fun q' t ht hmem => ?_
  by_cases hq : q' = q
  · subst hq
    rw [setQueue_self] at hmem
    exact hl t hmem ht
  · rw [setQueue_other hq] at hmem
    exact .inr hmem

theorem stays_link (hlive : q.dead = true ∨ s.taskState t ≠ .done) : Stays s (s.link q t) := by
  have hset : Stays s (s.setQueue q (s.queues q ++ [t])) := by
    refine stays_setQueue fun u hu hdone => ?_
    rw [List.mem_append, List.mem_singleton] at hu
    rcases hu with hu | rfl
    · exact .inr hu
    · exact .inl (hlive.resolve_right fun hne => hne hdone)
  exact hset.trans (stays_same rfl rfl rfl rfl rfl)

theorem stays_push (hlive : q.dead = true ∨ s.taskState t ≠ .done) : Stays s (s.push q t) :=
  (stays_link hlive).trans (stays_same rfl rfl rfl rfl rfl)

theorem stays_decRef (s : State) (t : Nat) : Stays s (s.decRef t) := by
  obtain ⟨D, C, heq, -⟩ := exists_decRef_eq s t
  rw [heq]
  exact stays_same rfl rfl rfl rfl rfl

theorem stays_unlink (hs : s.unlink q t = some s') : Stays s s' := by
  unfold State.unlink at hs
  split at hs
  · cases hs
    have hset : Stays s (s.setQueue q ((s.queues q).erase t)) :=
      stays_setQueue fun u hu _ => .inr (List.mem_of_mem_erase hu)
    exact hset.trans (stays_same rfl rfl rfl rfl rfl)
  · cases hs

/-- The thread of `p` goes on, outside of the coroutines. -/
theorem stays_thread_of (hcreated : s'.created = s.created) (hstate : s'.taskState = s.taskState)
    (hqueues : s'.queues = s.queues)
    (hother : ∀ p' ≠ p, s'.place p' = s.place p' ∧ s'.runningTask p' = s.runningTask p')
    (hp : (s.place p).inside = false) (hp' : (s'.place p).inside = false)
    (hrun : ∀ t, s.taskState t = .done → s'.runningTask p = some t →
      s.runningTask p = some t ∧ ((s.place p).ending = true → (s'.place p).ending = true))
    (hleave : ∀ t, s.taskState t = .done → s.runningTask p = some t →
      s'.runningTask p = some t ∨ ∀ q, t ∈ s.queues q → q.dead = true) : Stays s s' := by
  refine ⟨hcreated, fun t => by rw [hstate], fun r t => ?_, fun q t _ ht => .inr ?_,
    fun r t ht hr => ?_, fun r t ht hr => ?_⟩
  · unfold State.Inside
    by_cases hrp : r = p
    · rw [hrp, hp, hp']
      simp
    · rw [(hother r hrp).1, (hother r hrp).2]
  · rwa [hqueues] at ht
  · by_cases hrp : r = p
    · subst hrp
      exact hrun t ht hr
    · rw [(hother r hrp).2] at hr
      rw [(hother r hrp).1]
      exact ⟨hr, id⟩
  · by_cases hrp : r = p
    · subst hrp
      rw [hqueues]
      exact hleave t ht hr
    · rw [(hother r hrp).2]
      exact .inl hr

theorem stays_goto {old place : Place} (hold : s.place p = old) (hin : old.inside = place.inside)
    (hend : old.ending = true → place.ending = true) : Stays s (s.goto p place) := by
  refine ⟨rfl, fun t => Iff.rfl, fun r t => ?_, fun q t _ ht => .inr ht, fun r t _ hr => ⟨hr, ?_⟩,
    fun r t _ hr => .inl hr⟩
  · unfold State.Inside
    by_cases hrp : r = p
    · rw [hrp, goto_place, hold, hin]
      rfl
    · rw [show (s.goto p place).place r = s.place r from Function.update_of_ne hrp ..]
      rfl
  · by_cases hrp : r = p
    · rw [hrp, goto_place, hold]
      exact hend
    · rw [show (s.goto p place).place r = s.place r from Function.update_of_ne hrp ..]
      exact id

theorem inside_of_simple {place : Place} (h : place.simple = true) : place.inside = false := by
  cases place <;> first | rfl | cases h

/-- The thread takes another task.  None of the two is done, but a task in `gcQueue_`. -/
theorem Still.stays (h : Still p s s') (hp : (s.place p).inside = false)
    (hrun : ∀ t, s'.runningTask p = some t → s.taskState t ≠ .done)
    (hleave : ∀ t, s.runningTask p = some t → s.taskState t = .done →
      ∀ q, t ∈ s.queues q → q.dead = true) : Stays s s' := by
  have hout := h.outside
  refine stays_thread_of (p := p) ?_ ?_ ?_ (fun p' hne => h.other hne) hp (inside_of_simple h.simple)
    (fun t ht hr => absurd ht (hrun t hr)) fun t ht hr => .inr (hleave t hr ht)
  · show (s'.outside p).created = (s.outside p).created
    rw [hout]
  · show (s'.outside p).taskState = (s.outside p).taskState
    rw [hout]
  · show (s'.outside p).queues = (s.outside p).queues
    rw [hout]

/-- The thread goes on with the same task. -/
theorem Still.stays_same (h : Still p s s') (hp : (s.place p).inside = false)
    (hrun : s'.runningTask p = s.runningTask p)
    (hend : (s.place p).ending = true → (s'.place p).ending = true) : Stays s s' := by
  have hout := h.outside
  refine stays_thread_of (p := p) ?_ ?_ ?_ (fun p' hne => h.other hne) hp (inside_of_simple h.simple)
    (fun t _ hr => ⟨hrun ▸ hr, hend⟩) fun t _ hr => .inl (hrun.trans hr)
  · show (s'.outside p).created = (s.outside p).created
    rw [hout]
  · show (s'.outside p).taskState = (s.outside p).taskState
    rw [hout]
  · show (s'.outside p).queues = (s.outside p).queues
    rw [hout]

/-! ### The sections -/

@[simp] theorem proceed_running (s : State) (p : Nat) (task : Option Nat) :
    (s.proceed p task).runningTask p = task := Function.update_self ..

@[simp] theorem takeNext_running (s : State) (p : Nat) :
    (s.takeNext p).runningTask p = s.nextTask p := Function.update_self ..

theorem Links.next_fresh (h : Links s) (he : Ended s) (hr : s.runningTask p = some t)
    (hu : next (s.queues (.runnable p)) t = some u) : s.taskState u ≠ .done := by
  refine he.runnable (mem_of_next hu) fun hr' => ?_
  have htu : t = u := Option.some.inj (hr.symm.trans hr')
  exact next_ne (h.apart.nodup _) hu htu.symm

theorem stays_front (h : Links s) (he : Ended s) (hseat : (s.place p).seat = .idle)
    (hp : (s.place p).inside = false) {empty : Place} (hempty : empty.simple = true) :
    Stays s (s.front p empty) := by
  have hidle := (h.seated p).idle hseat
  refine (still_front h hempty).stays hp (fun t ht => ?_) fun t ht => ?_
  · have hout : (s.front p empty).runningTask p = (s.queues (.runnable p)).head? := by
      unfold State.front
      dsimp only
      split <;> exact Function.update_self ..
    rw [hout] at ht
    refine he.runnable (List.mem_of_head? ht) ?_
    rw [hidle]
    simp
  · rw [hidle] at ht
    cases ht

theorem stays_switch (h : Links s) (he : Ended s) (hplace : s.place p = .switch)
    (hs : s.switch p = some s') : Stays s s' := by
  have hstill := still_switch h hs
  have hp : (s.place p).inside = false := by rw [hplace]; rfl
  obtain ⟨t, hr, rfl⟩ := Option.map_eq_some_iff.1 hs
  cases hst : s.taskState t with
  | runnable =>
    rw [hst] at hstill
    dsimp only at hstill ⊢
    refine hstill.stays hp (fun u hu hdone => ?_) fun u hu hdone => ?_
    · unfold State.caseRunnable at hu
      split at hu
      · rename_i v hv
        rw [proceed_running, Option.some.injEq] at hu
        subst hu
        exact h.next_fresh he hr hv hdone
      · split at hu
        · rw [proceed_running] at hu
          cases hu
        · have htu : t = u := Option.some.inj (hr.symm.trans hu)
          rw [← htu, hst] at hdone
          cases hdone
    · have htu : t = u := Option.some.inj (hr.symm.trans hu)
      rw [← htu, hst] at hdone
      cases hdone
  | block =>
    rw [hst] at hstill
    dsimp only at hstill ⊢
    refine hstill.stays hp (fun u hu => ?_) fun u hu hdone => ?_
    · rw [takeNext_running] at hu
      obtain ⟨hmem, hne⟩ := (h.seated p).next u hu
      exact he.runnable hmem hne
    · have htu : t = u := Option.some.inj (hr.symm.trans hu)
      rw [← htu, hst] at hdone
      cases hdone
  | done => exact stays_goto hplace rfl fun _ => rfl

theorem toNext_running (hs : s.toNext p = some s') : s'.runningTask = s.runningTask := by
  obtain ⟨t, -, rfl⟩ := Option.map_eq_some_iff.1 hs
  cases next (s.queues (.runnable p)) t <;> rfl

/-- Going through `AddNewTasks` and `GC`, the thread stays at places of one kind. -/
theorem ending_adding (after : AfterAdd) (n : Nat) :
    (Place.adding after n).ending = (Place.addNew after).ending := by
  cases after <;> rfl

theorem ending_afterAdd (after : AfterAdd) : after.place.ending = (Place.addNew after).ending := by
  cases after <;> rfl

theorem ending_release (after : AfterGC) (rest : List Nat) :
    (Place.release after rest).ending = (Place.pop after).ending := by
  cases after <;> rfl

theorem ending_clear (after : AfterGC) : (Place.clear after).ending = (Place.pop after).ending := by
  cases after <;> rfl

theorem ending_afterGC (after : AfterGC) : after.place.ending = (Place.pop after).ending := by
  cases after <;> rfl

theorem stays_adding (he : Ended s) {after : AfterAdd} {n : Nat} (hplace : s.place p = .adding after n) :
    Stays s (s.adding p after n) := by
  unfold State.adding
  split
  · rename_i t rest hup
    have hlive : s.taskState t ≠ .done :=
      he.waits (q := .up p) (by rw [hup]; exact List.mem_cons_self) rfl (by simp)
    have htaken : Stays s (s.setQueue (.up p) rest) :=
      stays_setQueue fun u hu _ => .inr (by rw [hup]; exact List.mem_cons_of_mem _ hu)
    have hpush : Stays s ((s.setQueue (.up p) rest).push (.runnable p) t) :=
      htaken.trans (stays_push (.inr hlive))
    refine hpush.trans (stays_goto hplace rfl fun hend => ?_)
    rwa [ending_adding] at hend ⊢
  · refine stays_goto hplace (by cases after <;> rfl) fun hend => ?_
    rwa [ending_adding, ← ending_afterAdd] at hend

theorem stays_popAll {after : AfterGC} (hplace : s.place p = .pop after) :
    Stays s (s.popAll p after) := by
  have hgarbage : Stays s (s.setQueue (.garbage p) (s.queues (.gc p))) :=
    stays_setQueue fun _ _ _ => .inl rfl
  have hgc : Stays s ((s.setQueue (.garbage p) (s.queues (.gc p))).setQueue (.gc p) []) :=
    hgarbage.trans (stays_setQueue fun _ _ _ => .inl rfl)
  refine hgc.trans (stays_goto hplace rfl fun hend => ?_)
  rwa [ending_release]

theorem stays_release {after : AfterGC} {rest : List Nat} (hplace : s.place p = .release after rest) :
    Stays s (s.release p after rest) := by
  cases rest with
  | nil =>
    refine stays_goto hplace rfl fun hend => ?_
    rwa [ending_clear, ← ending_release after []]
  | cons t rest =>
    have hcollected : Stays s { s with collected := Function.update s.collected t true } :=
      stays_same rfl rfl rfl rfl rfl
    have hdec := hcollected.trans (stays_decRef _ t)
    refine hdec.trans (stays_goto ((congrFun (decRef_place _ t) p).trans hplace) rfl
      fun hend => ?_)
    rwa [ending_release] at hend ⊢

theorem stays_clear {after : AfterGC} (hplace : s.place p = .clear after) :
    Stays s (s.clear p after) := by
  unfold State.clear
  split
  · refine stays_goto hplace (by cases after <;> rfl) fun hend => ?_
    rwa [ending_afterGC, ← ending_clear after]
  · rename_i t rest hlist
    have hrest : Stays s (s.setQueue (.garbage p) rest) := stays_setQueue fun _ _ _ => .inl rfl
    have hdec := hrest.trans (stays_decRef _ t)
    exact hdec.trans (stays_goto ((congrFun (decRef_place _ t) p).trans hplace) rfl id)

theorem stays_condition (hplace : s.place p = .condition) : Stays s (s.condition p) := by
  unfold State.condition
  split
  · have hflag : Stays s { s with notified := Function.update s.notified p false } :=
      stays_same rfl rfl rfl rfl rfl
    exact hflag.trans (stays_goto hplace rfl fun hend => by cases hend)
  · have hflag : Stays s { s with waiting := Function.update s.waiting p true } :=
      stays_same rfl rfl rfl rfl rfl
    exact hflag.trans (stays_goto hplace rfl fun hend => by cases hend)

/-- The coroutine has suspended itself, and goes on inside. -/
theorem stays_suspendBySelf (h : Links s) (he : Ended s) (hplace : s.place p = .suspending)
    (hs : s.suspendBySelf p = some s') : Stays s s' := by
  obtain ⟨t, hr, -, rfl⟩ := h.suspendBySelf_cases hplace hs
  have hlive : s.taskState t ≠ .done := he.not_done hr (by rw [hplace]; rfl)
  have hunlink : Stays s (s.setQueue (.runnable p) ((s.queues (.runnable p)).erase t)) :=
    stays_setQueue fun u hu _ => .inr (List.mem_of_mem_erase hu)
  have hlink := hunlink.trans (stays_link (q := .wait p) (t := t) (.inr hlive))
  have hgoto : Stays s (State.goto _ p .running) :=
    hlink.trans (stays_goto hplace rfl fun hend => by cases hend)
  refine hgoto.trans (stays_same rfl rfl rfl rfl ?_)
  show Function.update (Function.update s.queues _ _) _ _ = Function.update _ _ _
  rw [show (s.setQueue (.runnable p) ((s.queues (.runnable p)).erase t)).queues (.wait p) =
    s.queues (.wait p) from setQueue_other (by simp)]
  rfl

/-- What a section of a thread does that does not enter a coroutine. -/
theorem stays_thread (h : Links s) (he : Ended s) (hen : Enabled s (.thread p) = true)
    (hin : s.place p ≠ .swapIn) (hs : s.thread p = some s') : Stays s s' := by
  cases hplace : s.place p with
  | loop =>
    rw [State.thread, hplace, Option.some.injEq] at hs
    subst hs
    exact stays_goto hplace (by split <;> rfl) fun hend => by cases hend
  | front =>
    rw [State.thread, hplace, Option.some.injEq] at hs
    subst hs
    exact stays_front h he (by rw [hplace]; rfl) (by rw [hplace]; rfl) rfl
  | frontAgain =>
    rw [State.thread, hplace, Option.some.injEq] at hs
    subst hs
    exact stays_front h he (by rw [hplace]; rfl) (by rw [hplace]; rfl) rfl
  | addNew after =>
    rw [State.thread, hplace, Option.some.injEq] at hs
    subst hs
    refine stays_goto hplace rfl fun hend => ?_
    rwa [ending_adding]
  | adding after n =>
    rw [State.thread, hplace, Option.some.injEq] at hs
    exact hs ▸ stays_adding he hplace
  | pop after =>
    rw [State.thread, hplace, Option.some.injEq] at hs
    exact hs ▸ stays_popAll hplace
  | release after rest =>
    rw [State.thread, hplace, Option.some.injEq] at hs
    exact hs ▸ stays_release hplace
  | clear after =>
    rw [State.thread, hplace, Option.some.injEq] at hs
    exact hs ▸ stays_clear hplace
  | condition =>
    rw [State.thread, hplace, Option.some.injEq] at hs
    exact hs ▸ stays_condition hplace
  | blocked => simp [Enabled, hplace] at hen
  | woken =>
    rw [State.thread, hplace, Option.some.injEq] at hs
    subst hs
    have hflag : Stays s { s with waiting := Function.update s.waiting p false } :=
      stays_same rfl rfl rfl rfl rfl
    exact hflag.trans (stays_goto hplace rfl fun hend => by cases hend)
  | inner =>
    rw [State.thread, hplace, Option.some.injEq] at hs
    subst hs
    exact stays_goto hplace (by split <;> rfl) fun hend => by cases hend
  | swapIn => exact absurd hplace hin
  | running => simp [Enabled, hplace] at hen
  | suspending =>
    rw [State.thread, hplace] at hs
    exact stays_suspendBySelf h he hplace hs
  | switch =>
    rw [State.thread, hplace] at hs
    exact stays_switch h he hplace hs
  | nextRunnable =>
    have hstill := still_thread h (by rw [hplace]; rfl) hen hs
    rw [State.thread, hplace] at hs
    obtain ⟨t, hr, rfl⟩ := Option.map_eq_some_iff.1 hs
    refine hstill.stays (by rw [hplace]; rfl) (fun u hu => ?_) fun u hu hdone => ?_
    · rw [proceed_running] at hu
      exact h.next_fresh he hr hu
    · exact absurd hdone (he.not_done hu (by rw [hplace]; rfl))
  | next =>
    have hstill := still_thread h (by rw [hplace]; rfl) hen hs
    rw [State.thread, hplace] at hs
    obtain ⟨s₁, hs₁, rfl⟩ := Option.map_eq_some_iff.1 hs
    have hrun : s₁.runningTask p = s.runningTask p := congrFun (toNext_running hs₁) p
    refine hstill.stays_same (by rw [hplace]; rfl) hrun fun _ => ?_
    rw [goto_place]
    split <;> rfl
  | nextAgain =>
    have hstill := still_thread h (by rw [hplace]; rfl) hen hs
    rw [State.thread, hplace] at hs
    obtain ⟨s₁, hs₁, rfl⟩ := Option.map_eq_some_iff.1 hs
    have hrun : s₁.runningTask p = s.runningTask p := congrFun (toNext_running hs₁) p
    refine hstill.stays_same (by rw [hplace]; rfl) hrun fun _ => ?_
    rw [goto_place]
    rfl
  | erase =>
    rw [State.thread, hplace] at hs
    obtain ⟨t, hr, heq⟩ := Option.bind_eq_some_iff.1 hs
    obtain ⟨s₁, hs₁, rfl⟩ := Option.map_eq_some_iff.1 heq
    have hplace' : s₁.place p = .erase := (congrFun (erase_place hs₁) p).trans hplace
    obtain ⟨s₂, hs₂, rfl⟩ := Option.map_eq_some_iff.1 hs₁
    refine ((stays_unlink hs₂).trans (stays_decRef s₂ t)).trans (stays_goto hplace' ?_ fun _ => ?_)
    · split <;> rfl
    · split <;> rfl
  | push =>
    rw [State.thread, hplace] at hs
    obtain ⟨t, hr, rfl⟩ := Option.map_eq_some_iff.1 hs
    have hpush : Stays s (s.push (.gc p) t) := stays_push (.inl rfl)
    exact hpush.trans (stays_goto hplace rfl fun _ => rfl)
  | finish =>
    have hstill := still_thread h (by rw [hplace]; rfl) hen hs
    rw [State.thread, hplace, Option.some.injEq] at hs
    subst hs
    refine hstill.stays (by rw [hplace]; rfl) (fun u hu => ?_) fun t hr _ q hmem => ?_
    · rw [takeNext_running] at hu
      obtain ⟨hmem, hne⟩ := (h.seated p).next u hu
      exact he.runnable hmem hne
    · have hsits := (h.seated p).sits t hr
      rw [hplace] at hsits
      rw [h.apart.apart q (.gc p) t hmem hsits]
      rfl
  | stopped => simp [Enabled, hplace] at hen

/-! ## Every step -/

theorem stays_notifyAll (s : State) (p : Nat) : Stays s (s.notifyAll p) := by
  unfold State.notifyAll
  split
  · rename_i hplace
    exact stays_goto hplace rfl fun hend => by cases hend
  · exact stays_refl s

theorem stays_notifyCondition (s : State) (p : Nat) : Stays s (s.notifyCondition p) := by
  unfold State.notifyCondition
  split
  · exact stays_notifyAll s p
  · exact stays_same rfl rfl rfl rfl rfl

theorem stays_adder (s : State) (k : Nat) (a : Adder) : Stays s (s.adder k a) := by
  unfold State.adder
  split
  · exact stays_same rfl rfl rfl rfl rfl
  · exact (stays_notifyAll s a.proc).trans (stays_same rfl rfl rfl rfl rfl)
  · exact stays_same rfl rfl rfl rfl rfl
  · exact stays_refl s

theorem stays_wakeup (he : Ended s) {w : Wakeup} (hs : s.wakeup k w = some s') : Stays s s' := by
  unfold State.wakeup at hs
  split at hs
  · rw [Option.some.injEq] at hs
    subst hs
    split
    · exact stays_same rfl rfl rfl rfl rfl
    · exact stays_same rfl rfl rfl rfl rfl
  · cases hs
    exact stays_same rfl rfl rfl rfl rfl
  · cases hs
    exact stays_same rfl rfl rfl rfl rfl
  · rename_i p hplace
    rcases wakeupBySelf_cases hs with ⟨-, rfl⟩ | ⟨-, hmem, rfl⟩
    · exact stays_same rfl rfl rfl rfl rfl
    · have hlive := he.waits hmem rfl (by simp)
      refine stays_of_queued rfl rfl rfl rfl fun q t hdone ht => .inr ?_
      replace ht : t ∈ (s.awaken p w.task).queues q := ht
      by_cases hr : q = .runnable p
      · subst hr
        rw [awaken_queues, Function.update_self, List.mem_append, List.mem_singleton] at ht
        refine ht.resolve_right fun heq => ?_
        rw [heq] at hdone
        exact hlive hdone
      · by_cases hw : q = .wait p
        · subst hw
          rw [awaken_queues, Function.update_of_ne hr, Function.update_self] at ht
          exact List.mem_of_mem_erase ht
        · rwa [awaken_other s p w.task hw hr] at ht
  · cases hs
    exact (stays_notifyCondition s _).trans (stays_same rfl rfl rfl rfl rfl)
  · cases hs
    exact (stays_decRef s w.task).trans (stays_same rfl rfl rfl rfl rfl)
  · cases hs
    exact stays_refl s

/-- A list takes over tasks from `newQueue_`, or from a list of the dispatcher. -/
theorem stays_move {l : List Nat} (he : Ended s) {r : Queue} (hdead : r.dead = false)
    (hr : ∀ p, r ≠ .runnable p) (hl : ∀ t ∈ l, t ∈ s.queues q ∨ t ∈ s.queues r) :
    Stays s (s.setQueue q l) := by
  refine stays_setQueue fun t ht hdone => .inr ?_
  exact (hl t ht).resolve_right fun hmem => he.waits hmem hdead hr hdone

theorem stays_steal (he : Ended s) : Stays s (s.steal k p n) := by
  have hmem := fun t => (popSome_perm n (s.queues (.new p))).mem_iff (a := t)
  simp only [List.mem_append] at hmem
  have hnew : Stays s (s.setQueue (.new p) (State.popSome n (s.queues (.new p))).1) :=
    stays_setQueue fun t ht _ => .inr ((hmem t).1 (.inl ht))
  have hstolen := hnew.trans (stays_setQueue (q := .stolen k)
    (l := (State.popSome n (s.queues (.new p))).2) fun t ht hdone =>
      absurd hdone (he.waits ((hmem t).1 (.inr ht)) rfl (by simp)))
  unfold State.steal
  dsimp only
  split
  · exact hstolen
  · exact hstolen.trans (stays_same rfl rfl rfl rfl rfl)

/-- `Steal` leaves the running task where it is. -/
theorem stays_stealt (h : Links s) (he : Ended s) : Stays s (s.stealt k p n) := by
  refine stays_of_queued rfl rfl rfl rfl fun q t hdone ht => .inr ?_
  have hrest : ∀ u ∈ s.rest p, u ∈ s.queues (.runnable p) ∧ u ∉ s.self p := fun u hu =>
    (h.apart.nodup _).mem_sdiff_iff.1 hu
  have hpop := fun u => (popSome_perm (n - (s.queues (.stolen k)).length) (s.rest p)).mem_iff (a := u)
  simp only [List.mem_append] at hpop
  by_cases hr : q = .runnable p
  · subst hr
    rw [stealt_runnable, List.mem_append] at ht
    rcases ht with ht | ht
    · exact (hrest t ((hpop t).1 (.inl ht))).1
    · exact h.self_subset t ht
  · by_cases hk : q = .stolen k
    · subst hk
      rw [stealt_stolen, List.mem_append] at ht
      rcases ht with ht | ht
      · obtain ⟨hmem, hself⟩ := hrest t ((hpop t).1 (.inr ht))
        refine absurd hdone (he.runnable hmem fun hrun => hself ?_)
        simp [State.self, hrun, hmem]
      · exact ht
    · rwa [stealt_other k p n s hr hk] at ht

theorem stays_append (he : Ended s) (k k' : Nat) : Stays s (s.append k k') := by
  have hjoin : Stays s (s.setQueue (.stolen k) (s.queues (.stolen k) ++ s.queues (.stolen k'))) :=
    stays_move (r := .stolen k') he rfl (by simp) fun t ht => List.mem_append.1 ht
  exact hjoin.trans (stays_setQueue fun t ht => by cases ht)

theorem stays_cut (he : Ended s) {k' : Nat} (hne : k ≠ k') : Stays s (s.cut k k' n) := by
  have htake : Stays s (s.setQueue (.stolen k') ((s.queues (.stolen k)).take n)) :=
    stays_move (r := .stolen k) he rfl (by simp) fun t ht => .inr (List.mem_of_mem_take ht)
  refine htake.trans (stays_setQueue fun t ht _ => .inr ?_)
  rw [setQueue_other (by simpa using hne)]
  exact List.mem_of_mem_drop ht

theorem stays_addTask (he : Ended s) (k p : Nat) : Stays s (s.addTask k p) := by
  have hjoin : Stays s (s.setQueue (.new p) (s.queues (.new p) ++ s.queues (.stolen k))) :=
    stays_move (r := .stolen k) he rfl (by simp) fun t ht => List.mem_append.1 ht
  have hclear := hjoin.trans (stays_setQueue (q := .stolen k) (l := []) fun t ht => by cases ht)
  exact hclear.trans (stays_notifyCondition _ p)

theorem stays_suspend (hplace : s.place p = .running) (hruns : Runs s p = true)
    (hs : step s (.suspend p) = some s') : Stays s s' := by
  obtain ⟨t, hr, rfl⟩ := Option.map_eq_some_iff.1 hs
  obtain ⟨u, hu, hst⟩ := runs_iff.1 hruns
  have hut : u = t := Option.some.inj (hu.symm.trans hr)
  subst hut
  have hblock : Stays s { s with
      taskState := Function.update s.taskState u .block
      suspendId := Function.update s.suspendId u ((s.suspendId u + 1) % 2 ^ 64) } := by
    refine ⟨rfl, fun v => ?_, fun _ _ => Iff.rfl, fun _ _ _ ht => .inr ht,
      fun _ _ _ hr => ⟨hr, id⟩, fun _ _ _ hr => .inl hr⟩
    dsimp only
    by_cases hv : v = u
    · subst hv
      rw [hst]
      simp
    · rw [Function.update_of_ne hv]
  exact hblock.trans (stays_goto hplace rfl fun hend => by cases hend)

/-- The four steps of the life of a coroutine. -/
def State.vital (s : State) : Action → Bool
  | .create _ | .yield _ | .finish _ => true
  | .thread p => s.place p = .swapIn
  | _ => false

theorem stays_step (h : Links s) (he : Ended s) {a : Action} (hen : Enabled s a = true)
    (ha : s.vital a = false) (hs : step s a = some s') : Stays s s' := by
  cases a with
  | create p => cases ha
  | adder k =>
    obtain ⟨a, -, rfl⟩ := Option.map_eq_some_iff.1 hs
    exact stays_adder s k a
  | thread p => exact stays_thread h he hen (of_decide_eq_false ha) hs
  | yield p => cases ha
  | suspend p =>
    simp only [Enabled, Bool.and_eq_true, decide_eq_true_eq] at hen
    exact stays_suspend hen.1.1 hen.2 hs
  | finish p => cases ha
  | spurious p =>
    cases hs
    exact stays_goto (of_decide_eq_true hen) rfl fun hend => by cases hend
  | wake caller t id =>
    cases hs
    exact stays_same rfl rfl rfl rfl rfl
  | wakeup k =>
    obtain ⟨w, -, hw⟩ := Option.bind_eq_some_iff.1 hs
    exact stays_wakeup he hw
  | steal k p n =>
    cases hs
    exact stays_steal he
  | stealRest k =>
    obtain ⟨r, -, hr⟩ := Option.bind_eq_some_iff.1 hs
    obtain ⟨D, C, heq, -⟩ := h.stealRest_eq (k := k) (p := r.1) (n := r.2)
    rw [heq, Option.some.injEq] at hr
    subst hr
    exact (stays_stealt h he).trans (stays_same rfl rfl rfl rfl rfl)
  | append k k' =>
    cases hs
    exact stays_append he k k'
  | cut k k' n =>
    cases hs
    simp only [Enabled, Bool.and_eq_true, decide_eq_true_eq] at hen
    exact stays_cut he hen.1.1.1
  | addTask k p =>
    cases hs
    exact stays_addTask he k p
  | notify p =>
    cases hs
    exact stays_notifyCondition s p
  | stop =>
    cases hs
    exact stays_same rfl rfl rfl rfl rfl

/-! ## The four steps of a life -/

theorem Ended.create (h : Ended s) (p : Nat) : Ended (s.create p) := by
  have hold : ∀ t, (s.create p).taskState t = .done → t ≠ s.created ∧ s.taskState t = .done := by
    intro t ht
    replace ht : Function.update s.taskState s.created .runnable t = .done := ht
    by_cases hnew : t = s.created
    · rw [hnew, Function.update_self] at ht
      cases ht
    · rw [Function.update_of_ne hnew] at ht
      exact ⟨hnew, ht⟩
  refine ⟨fun t ht => Nat.lt_succ_of_lt (h.known t (hold t ht).2), fun q t ht hmem => ?_,
    fun r t ht hr => h.running r t (hold t ht).2 hr⟩
  obtain ⟨hnew, hdone⟩ := hold t ht
  refine h.queued q t hdone ?_
  by_cases hq : q = .up p
  · subst hq
    replace hmem : t ∈ Function.update s.queues (.up p) (s.queues (.up p) ++ [s.created]) (.up p) :=
      hmem
    rw [Function.update_self, List.mem_append, List.mem_singleton] at hmem
    exact hmem.resolve_right hnew
  · rwa [create_other s p hq] at hmem

/-- The running task is entered, left or done. -/
theorem Ended.turn (h : Ended s) (hlinks : Links s) (hr : s.runningTask p = some t)
    {st : TaskState} {place : Place} (hcreated : s'.created = s.created)
    (hstate : s'.taskState = Function.update s.taskState t st) (hqueues : s'.queues = s.queues)
    (hrunning : s'.runningTask = s.runningTask) (hplace : s'.place = Function.update s.place p place)
    (hdone : st = .done → place.ending = true ∧ t ∈ s.queues (.runnable p)) : Ended s' := by
  have hold : ∀ u, s'.taskState u = .done → u = t ∧ st = .done ∨ u ≠ t ∧ s.taskState u = .done := by
    intro u hu
    rw [hstate] at hu
    by_cases hut : u = t
    · rw [hut, Function.update_self] at hu
      exact .inl ⟨hut, hu⟩
    · rw [Function.update_of_ne hut] at hu
      exact .inr ⟨hut, hu⟩
  refine ⟨fun u hu => ?_, fun q u hu hmem => ?_, fun r u hu hru => ?_⟩
  · rw [hcreated]
    rcases hold u hu with ⟨rfl, -⟩ | ⟨-, hd⟩
    · exact hlinks.knownRunning p u hr
    · exact h.known u hd
  · rw [hqueues] at hmem
    rw [hrunning]
    rcases hold u hu with ⟨rfl, hst⟩ | ⟨-, hd⟩
    · exact .inr ⟨p, hlinks.apart.apart q _ u hmem (hdone hst).2, hr⟩
    · exact h.queued q u hd hmem
  · rw [hrunning] at hru
    rw [hplace]
    rcases hold u hu with ⟨rfl, hst⟩ | ⟨hut, hd⟩
    · rw [hlinks.running_unique hru hr, Function.update_self]
      exact (hdone hst).1
    · have hrp : r ≠ p := by
        rintro rfl
        exact hut (Option.some.inj (hru.symm.trans hr))
      rw [Function.update_of_ne hrp]
      exact h.running r u hd hru

theorem Ended.yield (h : Ended s) (p : Nat) : Ended (s.goto p .switch) := by
  refine ⟨h.known, h.queued, fun r t ht hr => ?_⟩
  by_cases hrp : r = p
  · rw [hrp, goto_place]
    rfl
  · rw [show (s.goto p .switch).place r = s.place r from Function.update_of_ne hrp ..]
    exact h.running r t ht hr

theorem Ended.step (h : Ended s) (hlinks : Links s) {a : Action} (hen : Enabled s a = true)
    (hs : Scheduler.step s a = some s') : Ended s' := by
  cases hv : s.vital a with
  | false => exact h.of_stays (stays_step hlinks h hen hv hs)
  | true =>
    cases a with
    | create p =>
      cases hs
      exact h.create p
    | thread p =>
      have hplace : s.place p = .swapIn := of_decide_eq_true hv
      replace hs : s.thread p = some s' := hs
      rw [State.thread, hplace] at hs
      obtain ⟨t, hr, rfl⟩ := Option.map_eq_some_iff.1 hs
      exact h.turn hlinks hr rfl rfl rfl rfl rfl fun hst => by cases hst
    | yield p =>
      cases hs
      exact h.yield p
    | finish p =>
      simp only [Enabled, Bool.and_eq_true, decide_eq_true_eq] at hen
      obtain ⟨t, hr, rfl⟩ := Option.map_eq_some_iff.1 hs
      obtain ⟨u, hu, hst⟩ := runs_iff.1 hen.2
      have hut : u = t := Option.some.inj (hu.symm.trans hr)
      subst hut
      refine h.turn hlinks hr rfl rfl rfl rfl rfl fun _ => ⟨rfl, ?_⟩
      exact (hlinks.seated p).coroutine hr (by rw [hen.1.1]; rfl) (by rw [hst]; simp)
    | _ => cases hv

/-! ### Inside and outside -/

theorem Links.inside_unique (h : Links s) (hp : s.Inside p t) (hp' : s.Inside p' t) : p = p' :=
  h.running_unique hp.2 hp'.2

theorem Ended.outside (h : Ended s) (ht : s.taskState t = .done) : ¬ s.Inside p t := by
  rintro ⟨hin, hr⟩
  have hend := h.running p t ht hr
  cases hplace : s.place p with
  | running | suspending =>
    rw [hplace] at hend
    cases hend
  | _ =>
    rw [hplace] at hin
    cases hin

/-- Going to another place, the thread of `p` enters or leaves its running task. -/
theorem inside_goto {place : Place} (hr : s.runningTask p = some t)
    (hrunning : s'.runningTask = s.runningTask)
    (hplace : s'.place = Function.update s.place p place) (u : Nat) :
    (∃ r, s'.Inside r u) ↔ u = t ∧ place.inside = true ∨ ∃ r ≠ p, s.Inside r u := by
  have hself : s'.Inside p u ↔ u = t ∧ place.inside = true := by
    unfold State.Inside
    rw [hplace, Function.update_self, hrunning, hr, Option.some.injEq, and_comm, eq_comm]
  have hother : ∀ r, r ≠ p → (s'.Inside r u ↔ s.Inside r u) := by
    intro r hrp
    unfold State.Inside
    rw [hplace, Function.update_of_ne hrp, hrunning]
  constructor
  · rintro ⟨r, hin⟩
    by_cases hrp : r = p
    · subst hrp
      exact .inl (hself.1 hin)
    · exact .inr ⟨r, hrp, (hother r hrp).1 hin⟩
  · rintro (hin | ⟨r, hrp, hin⟩)
    · exact ⟨p, hself.2 hin⟩
    · exact ⟨r, (hother r hrp).2 hin⟩

theorem Ended.done_step (h : Ended s) (hlinks : Links s) {a : Action} (hen : Enabled s a = true)
    (hs : Scheduler.step s a = some s') (ht : s.taskState t = .done) : s'.taskState t = .done := by
  cases hv : s.vital a with
  | false => exact ((stays_step hlinks h hen hv hs).done t).2 ht
  | true =>
    cases a with
    | create p =>
      cases hs
      have hne : t ≠ s.created := Nat.ne_of_lt (h.known t ht)
      exact (Function.update_of_ne hne ..).trans ht
    | thread p =>
      have hplace : s.place p = .swapIn := of_decide_eq_true hv
      replace hs : s.thread p = some s' := hs
      rw [State.thread, hplace] at hs
      obtain ⟨u, hr, rfl⟩ := Option.map_eq_some_iff.1 hs
      have hne : t ≠ u := by
        rintro rfl
        exact h.not_done hr (by rw [hplace]; rfl) ht
      exact (Function.update_of_ne hne ..).trans ht
    | yield p =>
      cases hs
      exact ht
    | finish p =>
      obtain ⟨u, -, rfl⟩ := Option.map_eq_some_iff.1 hs
      show Function.update s.taskState u .done t = .done
      by_cases htu : t = u
      · rw [htu, Function.update_self]
      · rw [Function.update_of_ne htu, ht]
    | _ => cases hv

theorem created_step (hlinks : Links s) (h : Ended s) {a : Action} (hen : Enabled s a = true)
    (hs : Scheduler.step s a = some s') : s'.created = s.created ∨ ∃ p, a = .create p := by
  cases hv : s.vital a with
  | false => exact .inl (stays_step hlinks h hen hv hs).created
  | true =>
    cases a with
    | create p => exact .inr ⟨p, rfl⟩
    | thread p =>
      have hplace : s.place p = .swapIn := of_decide_eq_true hv
      replace hs : s.thread p = some s' := hs
      rw [State.thread, hplace] at hs
      obtain ⟨u, -, rfl⟩ := Option.map_eq_some_iff.1 hs
      exact .inl rfl
    | yield p =>
      cases hs
      exact .inl rfl
    | finish p =>
      obtain ⟨u, -, rfl⟩ := Option.map_eq_some_iff.1 hs
      exact .inl rfl
    | _ => cases hv

/-! ### Whose stack it is -/

/-- A switch to a stack, or back from it. -/
def State.follow (s : State) (stack : Nat → Option Nat) : Action → Nat → Option Nat
  | .thread p =>
    if s.place p = .swapIn then Function.update stack p (s.runningTask p) else stack
  | .yield p | .finish p => Function.update stack p none
  | _ => stack

def OnStack (stack : Nat → Option Nat) (s : State) : Prop :=
  ∀ p t, stack p = some t ↔ s.Inside p t

theorem onStack_initial : OnStack (fun _ => none) State.initial := by
  intro p t
  refine iff_of_false (by simp) ?_
  rintro ⟨hin, -⟩
  cases hin

/-- The thread of `p` is on the stack of its running task or on its own, by its new place. -/
theorem OnStack.turn {stack : Nat → Option Nat} (h : OnStack stack s) (place : Place)
    {on : Option Nat} (hon : ∀ t, on = some t ↔ place.inside = true ∧ s.runningTask p = some t)
    (hrunning : s'.runningTask = s.runningTask)
    (hplace : s'.place = Function.update s.place p place) :
    OnStack (Function.update stack p on) s' := by
  intro r t
  unfold State.Inside
  rw [hrunning, hplace]
  by_cases hrp : r = p
  · rw [hrp, Function.update_self, Function.update_self]
    exact hon t
  · rw [Function.update_of_ne hrp, Function.update_of_ne hrp]
    exact h r t

theorem OnStack.step {stack : Nat → Option Nat} (h : OnStack stack s) (hlinks : Links s)
    (he : Ended s) {a : Action} (hen : Enabled s a = true) (hs : Scheduler.step s a = some s') :
    OnStack (s.follow stack a) s' := by
  cases hv : s.vital a with
  | false =>
    have hstays := stays_step hlinks he hen hv hs
    have hfollow : s.follow stack a = stack := by
      cases a with
      | thread p => exact if_neg (of_decide_eq_false hv)
      | yield p | finish p => cases hv
      | _ => rfl
    rw [hfollow]
    exact fun p t => (h p t).trans (hstays.inside p t).symm
  | true =>
    cases a with
    | create p =>
      cases hs
      exact h
    | thread p =>
      have hplace : s.place p = .swapIn := of_decide_eq_true hv
      replace hs : s.thread p = some s' := hs
      rw [State.thread, hplace] at hs
      obtain ⟨u, -, rfl⟩ := Option.map_eq_some_iff.1 hs
      rw [show s.follow stack (.thread p) = Function.update stack p (s.runningTask p) from
        if_pos hplace]
      exact h.turn .running (fun t => by simp [Place.inside]) rfl rfl
    | yield p =>
      cases hs
      exact h.turn .switch (fun t => by simp [Place.inside]) rfl rfl
    | finish p =>
      obtain ⟨u, -, rfl⟩ := Option.map_eq_some_iff.1 hs
      exact h.turn .switch (fun t => by simp [Place.inside]) rfl rfl
    | _ => cases hv

end Costream.Scheduler
