import Costream.Scheduler.References

/-!
# The life of a task

Every section of a thread and of a call keeps the `Books`: `Books.thread` is the thread of a
processor, `Books.wakeup` a call of `Wakeup`, and `Books.step` any step.  So a task is deleted once,
when nothing refers to it any more (`task_lifetime`).
-/

namespace Costream.Scheduler

open Trace Costream.Lists Costream.Tally

variable {s s' : State} {p p' t u k n : Nat} {q q' : Queue} {w w' : Wakeup}

/-! ## The thread of a processor -/

/-- The thread does not work through garbage, and its task is in a list. -/
def Place.calm (place : Place) : Prop := place.collecting = false ∧ place.seat ≠ .loose

theorem Books.of_thread (h : Books s) (heq : s'.books = s.books)
    (hstate : ∀ t, s.collected t = true → s'.taskState t = s.taskState t)
    (hother : ∀ p' ≠ p, s'.place p' = s.place p' ∧ s'.runningTask p' = s.runningTask p')
    (hcalm : (s'.place p).calm) : Books s' :=
  h.of_moved (h.moved heq hstate
    (steady_of_thread hother hcalm.1 fun hloose => absurd hloose hcalm.2))

/-- What a step knows about its thread, and the tags of the tasks, are not in the books. -/
theorem Books.of_books (h : Books s) (heq : s'.books = s.books) (hstate : s'.taskState = s.taskState)
    (hplace : s'.place = s.place) (hrunning : s'.runningTask = s.runningTask) : Books s' :=
  h.of_moved (h.moved heq (fun t _ => by rw [hstate])
    fun p => .inl ⟨by rw [hplace], by rw [hrunning]⟩)

theorem calm_of_simple {place : Place} (h : place.simple = true) : place.calm := by
  cases place with
  | addNew after => cases after <;> exact ⟨rfl, nofun⟩
  | adding after n => cases after <;> exact ⟨rfl, nofun⟩
  | pop after =>
    cases after with
    | condition => exact ⟨rfl, nofun⟩
    | push => cases h
  | release after rest => cases h
  | clear after => cases h
  | running => cases h
  | suspending => cases h
  | push => cases h
  | _ => exact ⟨rfl, nofun⟩

/-- A section that only concerns the thread. -/
theorem Books.of_still (h : Books s) (hstill : Still p s s') : Books s' := by
  have hstate : s'.taskState = s.taskState := by
    show (s'.outside p).taskState = (s.outside p).taskState
    rw [hstill.outside]
  refine h.of_thread (p := p) ?_ (fun t _ => by rw [hstate]) (fun p' hp => hstill.other hp) ?_
  · show (s'.outside p).books = (s.outside p).books
    rw [hstill.outside]
  · exact calm_of_simple hstill.simple

/-- A packet of the up-queue comes to `runnableQueue_`. -/
theorem Books.adding (h : Books s) (hlinks : Links s) (after : AfterAdd) (n : Nat) :
    Books (s.adding p after n) := by
  unfold State.adding
  split
  · rename_i n t rest hup
    have hmem : t ∈ s.queues (.up p) := by
      rw [hup]
      exact List.mem_cons_self
    have hlinked : ∀ u, (s.setQueue (.up p) rest).Linked u ↔ s.Linked u := by
      refine fun u => exists_congr fun q => and_congr_right fun hq => ?_
      rw [setQueue_other]
      rintro rfl
      cases hq
    have hsub : rest.Sublist (s.queues (.up p)) := by
      rw [hup]
      exact List.sublist_cons_self t rest
    have htaken : Books (s.setQueue (.up p) rest) := by
      refine h.of_moved ⟨rfl, rfl, rfl, rfl, rfl, h.known, h.entries, fun _ => rfl, hlinked,
        fun _ _ => rfl, fun q u hq hu => ?_, fun p' => setQueue_other (by simp),
        fun _ => .inl ⟨rfl, rfl⟩⟩
      by_cases hqp : q = .up p
      · subst hqp
        rw [setQueue_self] at hu
        exact h.kept _ u hq (hsub.subset hu)
      · rw [setQueue_other hqp] at hu
        exact h.kept q u hq hu
    have hfree : ¬ (s.setQueue (.up p) rest).Linked t := by
      rw [hlinked]
      rintro ⟨q, hq, ht⟩
      rw [hlinks.apart.apart q _ t ht hmem] at hq
      cases hq
    refine (htaken.push (q := .runnable p) (hlinks.apart.shrink hsub) (hlinks.known _ t hmem) hfree
      (h.kept (.up p) t rfl hmem) rfl rfl).goto rfl fun hseat => ?_
    cases after <;> cases hseat
  · refine h.goto ?_ fun hseat => ?_
    · cases after <;> rfl
    · cases after <;> cases hseat

/-- A task that suspends itself goes to `waitQueue_`. -/
theorem Books.suspendBySelf (h : Books s) (hlinks : Links s) (hplace : s.place p = .suspending)
    (hs : s.suspendBySelf p = some s') : Books s' := by
  obtain ⟨t, -, hmem, rfl⟩ := hlinks.suspendBySelf_cases hplace hs
  have hne : Queue.runnable p ≠ .wait p := by simp
  have hswap : Books (s.exchange (.runnable p) (.wait p) ((s.queues (.runnable p)).erase t)
      (s.queues (.wait p) ++ [t]) s.check) :=
    h.swapped ⟨rfl, hne, erase_append_perm hmem, rfl, rfl⟩ rfl rfl rfl (fun _ _ => rfl)
      fun _ => .inl ⟨rfl, rfl⟩
  have hentry : Books { s.exchange (.runnable p) (.wait p) ((s.queues (.runnable p)).erase t)
      (s.queues (.wait p) ++ [t]) s.check with entries := s.entries ++ [(t, s.suspendId t)] } := by
    refine ⟨⟨hswap.known, fun e he => ?_, hswap.count⟩, ⟨hswap.deletions, hswap.taskCount⟩,
      ⟨hswap.done, hswap.kept, hswap.loose, hswap.releasing, hswap.clearing⟩⟩
    rcases List.mem_append.1 he with he | he
    · exact h.entries e he
    · rw [List.mem_singleton.1 he]
      exact hlinks.known _ t hmem
  exact (hentry.goto (p := p) (rfl : Place.running.collecting = false) nofun).of_books rfl rfl rfl rfl

/-- A task that runs refers to itself. -/
theorem Books.running_kept (h : Books s) (hlinks : Links s) (hr : s.runningTask p = some t)
    (hseat : (s.place p).seat ≠ .loose) : s.collected t = false := by
  rcases hlinks.running_cases hr with ⟨q, -, htag, hmem⟩ | ⟨hloose, -, -⟩
  · refine h.kept q t ?_ hmem
    cases q with
    | garbage p => cases htag
    | _ => rfl
  · exact absurd hloose hseat

/-- The state of the running task changes, and the place of its thread. -/
theorem Books.setState (h : Books s) (hlinks : Links s) (hr : s.runningTask p = some t)
    (hseat : (s.place p).seat ≠ .loose) {st : TaskState} {place : Place} (hcalm : place.calm)
    (hbooks : s'.books = s.books) (hstate : s'.taskState = Function.update s.taskState t st)
    (hplace : s'.place = Function.update s.place p place)
    (hrunning : s'.runningTask = s.runningTask) : Books s' := by
  refine h.of_thread (p := p) hbooks (fun u hu => ?_) (fun p' hp => ⟨?_, by rw [hrunning]⟩) ?_
  · rw [hstate, Function.update_of_ne]
    rintro rfl
    rw [h.running_kept hlinks hr hseat] at hu
    cases hu
  · rw [hplace, Function.update_of_ne hp]
  · rw [hplace, Function.update_self]
    exact hcalm

/-- A section of the thread. -/
theorem Books.thread (h : Books s) (hlinks : Links s) (he : Enabled s (.thread p) = true)
    (hs : s.thread p = some s') : Books s' := by
  cases hplace : s.place p with
  | adding after n =>
    rw [State.thread, hplace, Option.some.injEq] at hs
    exact hs ▸ h.adding hlinks after n
  | pop after =>
    rw [State.thread, hplace, Option.some.injEq] at hs
    exact hs ▸ h.popAll hlinks hplace
  | release after rest =>
    rw [State.thread, hplace, Option.some.injEq] at hs
    exact hs ▸ h.release hlinks hplace
  | clear after =>
    rw [State.thread, hplace, Option.some.injEq] at hs
    exact hs ▸ h.clear hlinks hplace
  | swapIn =>
    rw [State.thread, hplace] at hs
    obtain ⟨t, hr, rfl⟩ := Option.map_eq_some_iff.1 hs
    have hcalm : Place.running.calm := ⟨rfl, by decide⟩
    exact h.setState hlinks hr (by rw [hplace]; decide) hcalm rfl rfl rfl rfl
  | suspending =>
    rw [State.thread, hplace] at hs
    exact h.suspendBySelf hlinks hplace hs
  | erase =>
    rw [State.thread, hplace] at hs
    obtain ⟨t, hr, heq⟩ := Option.bind_eq_some_iff.1 hs
    obtain ⟨s₁, hs₁, rfl⟩ := Option.map_eq_some_iff.1 heq
    have hmem := (hlinks.seated p).linked hr (by rw [hplace]; rfl)
    have hkept := h.kept _ t rfl hmem
    refine (h.erase hlinks rfl rfl hs₁).goto ?_ fun _ u hu => ?_
    · split <;> rfl
    · obtain ⟨hrunning, hcollected⟩ := erase_same hs₁
      rw [hrunning, hr] at hu
      cases hu
      rw [hcollected]
      exact hkept
  | push =>
    rw [State.thread, hplace] at hs
    obtain ⟨t, hr, rfl⟩ := Option.map_eq_some_iff.1 hs
    have hsits := (hlinks.seated p).sits t hr
    rw [hplace] at hsits
    refine (h.push (q := .gc p) hlinks.apart (hlinks.knownRunning p t hr) ?_
      (h.loose p t (by rw [hplace]; rfl) hr) rfl rfl).goto rfl fun hseat => absurd hseat (by decide)
    rintro ⟨q, -, ht⟩
    exact hsits.2 q ht
  | _ => exact h.of_still (still_thread hlinks (by rw [hplace]; rfl) he hs)

/-! ## The other calls -/

theorem Books.notifyAll (h : Books s) (p : Nat) : Books (s.notifyAll p) := by
  unfold State.notifyAll
  split
  · exact h.goto rfl nofun
  · exact h

theorem Books.notifyCondition (h : Books s) (p : Nat) : Books (s.notifyCondition p) := by
  unfold State.notifyCondition
  split
  · exact h.notifyAll p
  · exact h.of_books rfl rfl rfl rfl

theorem Books.adder (h : Books s) (k : Nat) (a : Adder) : Books (s.adder k a) := by
  unfold State.adder
  split
  · exact h.of_books rfl rfl rfl rfl
  · exact (h.notifyAll a.proc).of_books rfl rfl rfl rfl
  · exact h.of_books rfl rfl rfl rfl
  · exact h

/-- A call of `Wakeup` goes on, and keeps the `IncursivePtr` that it has, or has none. -/
theorem Books.setWakeup (h : Books s) (hw : s.wakeups[k]? = some w) (htask : w'.task = w.task)
    (hholds : w'.place.holds = w.place.holds) : Books (s.setWakeup k w') := by
  have hshare : ∀ t, w'.share t = w.share t := fun t => by
    rw [Wakeup.share, Wakeup.share, htask, hholds]
  refine h.of_moved ⟨rfl, rfl, rfl, rfl, rfl, fun v hv => ?_, h.entries, fun t => ?_,
    fun _ => Iff.rfl, fun _ _ => rfl, h.kept, fun _ => rfl, fun _ => .inl ⟨rfl, rfl⟩⟩
  · rcases List.mem_or_eq_of_mem_set hv with hv | rfl
    · exact h.known v hv
    · rw [htask]
      exact h.known w (List.mem_of_getElem? hw)
  · have hset := pointers_setWakeup hw w' t
    rw [hshare] at hset
    exact Nat.add_right_cancel hset

/-- A new call of `Wakeup` has no `IncursivePtr` yet. -/
theorem Books.wake (h : Books s) {caller : Option Nat} {id : Nat} (ht : t < s.created) :
    Books { s with wakeups := s.wakeups ++ [⟨caller, t, id, .lock, 0⟩] } := by
  refine h.of_moved ⟨rfl, rfl, rfl, rfl, rfl, fun w hw => ?_, h.entries, fun u => ?_,
    fun _ => Iff.rfl, fun _ _ => rfl, h.kept, fun _ => rfl, fun _ => .inl ⟨rfl, rfl⟩⟩
  · rcases List.mem_append.1 hw with hw | hw
    · exact h.known w hw
    · rw [List.mem_singleton.1 hw]
      exact ht
  · unfold State.pointers
    rw [tally_append]
    simp [Wakeup.share, WakeupPlace.holds]

theorem Books.wakeupBySelf (h : Books s) (hw : s.wakeups[k]? = some w)
    (hholds : w.place.holds = true) (hs : s.wakeupBySelf k w p = some s') : Books s' := by
  rcases wakeupBySelf_cases hs with ⟨-, rfl⟩ | ⟨-, hmem, rfl⟩
  · exact h.setWakeup hw rfl hholds.symm
  · have hawaken : Books (s.awaken p w.task) :=
      h.swapped ⟨rfl, by simp, erase_append_perm hmem, rfl, rfl⟩ rfl rfl rfl (fun _ _ => rfl)
        fun _ => .inl ⟨rfl, rfl⟩
    refine hawaken.setWakeup hw rfl ?_
    rw [hholds]
    split <;> rfl

theorem Books.wakeup (h : Books s) (hw : s.wakeups[k]? = some w) (hs : s.wakeup k w = some s') :
    Books s' := by
  cases hplace : w.place with
  | lock =>
    rw [State.wakeup, hplace, Option.some.injEq] at hs
    subst hs
    split
    · exact h.setWakeup hw rfl (by rw [hplace]; rfl)
    · rename_i hlive
      exact h.lock hw (by rw [hplace]; rfl) hlive rfl
  | proc =>
    rw [State.wakeup, hplace, Option.some.injEq] at hs
    subst hs
    refine h.setWakeup hw rfl ?_
    rw [hplace]
    cases s.proc w.task <;> rfl
  | check p =>
    rw [State.wakeup, hplace, Option.some.injEq] at hs
    subst hs
    refine h.setWakeup hw rfl ?_
    rw [hplace]
    split <;> rfl
  | locked p =>
    rw [State.wakeup, hplace] at hs
    exact h.wakeupBySelf hw (by rw [hplace]; rfl) hs
  | notify p =>
    rw [State.wakeup, hplace, Option.some.injEq] at hs
    subst hs
    have hw' : (s.notifyCondition p).wakeups[k]? = some w := by
      rw [notifyCondition_wakeups]
      exact hw
    exact (h.notifyCondition p).setWakeup hw' rfl (by rw [hplace]; rfl)
  | drop result =>
    rw [State.wakeup, hplace, Option.some.injEq] at hs
    subst hs
    exact h.unlock hw (by rw [hplace]; rfl) rfl
  | done result =>
    rw [State.wakeup, hplace, Option.some.injEq] at hs
    exact hs ▸ h

/-! ### `Steal` and the dispatcher -/

theorem Books.steal (h : Books s) (hk : s.queues (.stolen k) = []) : Books (s.steal k p n) := by
  have hperm : ((State.popSome n (s.queues (.new p))).1 ++
      (State.popSome n (s.queues (.new p))).2).Perm (s.queues (.new p) ++ s.queues (.stolen k)) := by
    rw [hk, List.append_nil]
    exact popSome_perm n _
  have hswap : Swapped s (s.steal k p n) (.new p) (.stolen k) _ _ :=
    ⟨steal_queues k p n s, by simp, hperm, rfl, rfl⟩
  have hrest : { (s.steal k p n).books with queues := s.queues } = s.books ∧
      (s.steal k p n).taskState = s.taskState ∧ (s.steal k p n).place = s.place := by
    unfold State.steal
    dsimp only
    split <;> exact ⟨rfl, rfl, rfl⟩
  obtain ⟨hbooks, hstate, hplace⟩ := hrest
  exact h.swapped hswap rfl rfl hbooks (fun t _ => by rw [hstate])
    fun _ => .inl ⟨by rw [hplace], by rw [(steal_threads k p n s).1]⟩

theorem Books.stealRest (h : Books s) (hlinks : Links s) (hs : s.stealRest k p n = some s') :
    Books s' := by
  obtain ⟨D, C, heq, hlive⟩ := hlinks.stealRest_eq (p := p) (k := k) (n := n)
  obtain ⟨rfl, rfl⟩ := hlive fun t ht => by
    have hmem := hlinks.self_subset t ht
    have hcount := h.count t (hlinks.known _ t hmem)
    rw [hooks_linked (linked_of_mem rfl hmem), State.own, h.kept _ t rfl hmem] at hcount
    simp only [Bool.false_eq_true, if_false] at hcount
    omega
  rw [heq, Option.some.injEq] at hs
  subst hs
  have hswap : Swapped s { s.stealt k p n with deletions := s.deletions, taskCount := s.taskCount }
      (.runnable p) (.stolen k) _ _ := ⟨rfl, by simp, hlinks.stealt_perm _, rfl, rfl⟩
  exact h.swapped hswap rfl rfl rfl (fun _ _ => rfl) fun _ => .inl ⟨rfl, rfl⟩

theorem Books.lists (h : Books s) (hne : q ≠ q') (hq : q.hooked = true) (hq' : q'.hooked = true)
    (hgarbage : q.isGarbage = false) (hgarbage' : q'.isGarbage = false) {xs ys : List Nat}
    (hperm : (xs ++ ys).Perm (s.queues q ++ s.queues q')) :
    Books ((s.setQueue q xs).setQueue q' ys) :=
  h.swapped ⟨rfl, hne, hperm, hq, hq'⟩ hgarbage hgarbage' rfl (fun _ _ => rfl)
    fun _ => .inl ⟨rfl, rfl⟩

theorem Books.step (h : Books s) (hlinks : Links s) {a : Action} (he : Enabled s a = true)
    (hs : Scheduler.step s a = some s') : Books s' := by
  cases a with
  | create p =>
    cases hs
    exact h.create hlinks p
  | adder k =>
    obtain ⟨a, -, rfl⟩ := Option.map_eq_some_iff.1 hs
    exact h.adder k a
  | thread p => exact h.thread hlinks he hs
  | yield p =>
    cases hs
    exact h.goto rfl fun hseat => absurd hseat (by decide)
  | suspend p =>
    simp only [Enabled, Bool.and_eq_true, decide_eq_true_eq] at he
    obtain ⟨t, hr, rfl⟩ := Option.map_eq_some_iff.1 hs
    have hcalm : Place.suspending.calm := ⟨rfl, by decide⟩
    exact h.setState hlinks hr (by rw [he.1.1]; decide) hcalm rfl rfl rfl rfl
  | finish p =>
    simp only [Enabled, Bool.and_eq_true, decide_eq_true_eq] at he
    obtain ⟨t, hr, rfl⟩ := Option.map_eq_some_iff.1 hs
    have hcalm : Place.switch.calm := ⟨rfl, by decide⟩
    exact h.setState hlinks hr (by rw [he.1.1]; decide) hcalm rfl rfl rfl rfl
  | spurious p =>
    cases hs
    exact h.goto rfl fun hseat => absurd hseat (by decide)
  | wake caller t id =>
    cases hs
    simp only [Enabled, Bool.and_eq_true, List.contains_iff_mem] at he
    exact h.wake (h.entries _ he.1)
  | wakeup k =>
    obtain ⟨w, hw, hs⟩ := Option.bind_eq_some_iff.1 hs
    exact h.wakeup hw hs
  | steal k p n =>
    cases hs
    simp only [Enabled, Bool.and_eq_true, decide_eq_true_eq] at he
    exact h.steal he.1
  | stealRest k =>
    obtain ⟨r, -, hr⟩ := Option.bind_eq_some_iff.1 hs
    exact h.stealRest hlinks hr
  | append k k' =>
    cases hs
    simp only [Enabled, Bool.and_eq_true, decide_eq_true_eq] at he
    have hne : Queue.stolen k ≠ .stolen k' := by simpa using he.1.1
    exact h.lists hne rfl rfl rfl rfl (by rw [List.append_nil])
  | cut k k' n =>
    cases hs
    simp only [Enabled, Bool.and_eq_true, decide_eq_true_eq] at he
    have hne : Queue.stolen k' ≠ .stolen k := by simpa using Ne.symm he.1.1.1
    refine h.lists hne rfl rfl rfl rfl ?_
    rw [he.2, List.take_append_drop, List.nil_append]
  | addTask k p =>
    cases hs
    refine Books.notifyCondition ?_ p
    have hne : Queue.new p ≠ .stolen k := by simp
    exact h.lists hne rfl rfl rfl rfl (by rw [List.append_nil])
  | notify p =>
    cases hs
    exact h.notifyCondition p
  | stop =>
    cases hs
    exact h.of_books rfl rfl rfl rfl

theorem books_initial : Books State.initial := by
  refine ⟨⟨nofun, nofun, nofun⟩, ⟨nofun, rfl⟩, ⟨nofun, nofun, nofun, nofun, nofun⟩⟩

theorem books_of_run (hr : Run machine anyAction State.initial s) : Links s ∧ Books s := by
  refine hr.invariant (P := fun s => Links s ∧ Books s) ⟨links_initial, books_initial⟩ ?_
  rintro s a s' ⟨hlinks, h⟩ he - hs
  exact ⟨hlinks.step he hs, h.step hlinks he hs⟩

/-! ## The life of a task -/

/-- What holds of a task at any time.  It is finished when `GC` drops its reference to itself, and
then only the list of `GC` can have it.  It has been deleted once when nothing refers to it any
more, and not before. -/
structure Accounted (s : State) (t : Nat) : Prop where
  count : s.reference t = s.own t + s.hooks t + s.pointers t
  one : ∀ q q', t ∈ s.queues q → t ∈ s.queues q' → q = q'
  once : ∀ q, (s.queues q).Nodup
  finished : s.own t = 0 → s.taskState t = .done
  left : s.own t = 0 → ∀ q, t ∈ s.queues q → q.isGarbage = true
  deleted : s.deletions t ≤ 1 ∧
    (s.deletions t = 1 ↔ s.own t = 0 ∧ ¬ s.Linked t ∧ s.pointers t = 0)

theorem own_eq_zero : s.own t = 0 ↔ s.collected t = true := by
  unfold State.own
  split
  · rename_i h
    simp [h]
  · rename_i h
    simp [h]

theorem hooks_eq_zero : s.hooks t = 0 ↔ ¬ s.Linked t :=
  ⟨fun h hl => absurd (hooks_linked hl) (by rw [h]; exact Nat.zero_ne_one), hooks_free⟩

theorem Books.accounted (h : Books s) (hlinks : Links s) (ht : t < s.created) : Accounted s t := by
  have hcount := h.count t ht
  refine ⟨hcount, fun q q' => hlinks.apart.apart q q' t, hlinks.apart.nodup,
    fun hown => h.done t (own_eq_zero.1 hown), fun hown q hq => ?_, ?_⟩
  · cases hg : q.isGarbage with
    | true => rfl
    | false =>
      have hkept := h.kept q t hg hq
      rw [own_eq_zero.1 hown] at hkept
      cases hkept
  · rw [h.deletions t ht, hcount, ← hooks_eq_zero]
    split
    · omega
    · omega

/-- In every run the count of a task is the number of what refers to it, and `taskCount_` that of
the tasks that are not deleted. -/
theorem task_lifetime (hr : Run machine anyAction State.initial s) :
    (∀ t < s.created, Accounted s t) ∧ s.taskCount = s.undeleted.card % 2 ^ 32 := by
  obtain ⟨hlinks, h⟩ := books_of_run hr
  exact ⟨fun t ht => h.accounted hlinks ht, h.taskCount⟩

/-- A task has been created and is in `runnableQueue_`. -/
theorem task_lifetime_one : ∃ s, Run machine anyAction State.initial s ∧ s.created = 1 ∧
    s.reference 0 = 2 ∧ (∀ t < s.created, Accounted s t) ∧
      s.taskCount = s.undeleted.card % 2 ^ 32 := by
  have hrun : (machine.exec anyAction State.initial
      (.create 0 :: List.replicate 4 (.thread 0))).any
      (fun s => decide (s.created = 1 ∧ s.reference 0 = 2)) := by
    decide +kernel
  obtain ⟨s, hs, hdec⟩ := Run.exists_of_exec hrun
  obtain ⟨hcreated, hreference⟩ := of_decide_eq_true hdec
  exact ⟨s, hs, hcreated, hreference, task_lifetime hs⟩

/-- A task suspends itself, one call of `Wakeup` gets an `IncursivePtr` to it and stops, another one
wakes it up, it finishes, and `GC` has its last references. -/
def heldTask : List Action :=
  List.flatten [[.create 0], List.replicate 8 (.thread 0),
    [.suspend 0, .thread 0, .yield 0, .thread 0, .wake none 0 1, .wakeup 0, .wake none 0 1],
    List.replicate 6 (.wakeup 1), List.replicate 4 (.thread 0), [.finish 0],
    List.replicate 17 (.thread 0)]

/-- `GC` has dropped the reference of a task to itself, and the task is not deleted. -/
theorem own_reference_dropped : ∃ s, Run machine anyAction State.initial s ∧ 0 < s.created ∧
    s.deletions 0 = 0 ∧ s.reference 0 ≠ 1 + s.hooks 0 + s.pointers 0 := by
  have hrun : (machine.exec anyAction State.initial heldTask).any
      (fun s => decide (0 < s.created ∧ s.deletions 0 = 0 ∧ s.reference 0 = 1 ∧
        s.pointers 0 = 1)) := by
    decide +kernel
  obtain ⟨s, hs, hdec⟩ := Run.exists_of_exec hrun
  obtain ⟨hcreated, hdeletions, hreference, hpointers⟩ := of_decide_eq_true hdec
  refine ⟨s, hs, hcreated, hdeletions, ?_⟩
  rw [hreference, hpointers]
  omega

end Costream.Scheduler
