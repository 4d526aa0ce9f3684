import Costream.Scheduler.Frame
import Costream.Scheduler.Steal

/-!
# What a steal takes

`Steal` has two sections, and between them any other section of any thread may run.  Each of them
keeps what a steal must not touch.  The second one relies on what is in its list, which only the
call itself uses.
-/

namespace Costream.Scheduler

open Trace Costream.Lists

variable {s s' : State} {p t k n : Nat} {q : Queue}

/-! ## What a steal takes -/

/-- What a whole call of `Steal(n)` on `p` does, with the list `k` for its result. -/
def State.stealAll (s : State) (k p n : Nat) : Option State :=
  let s := s.steal k p n
  match s.stealing k with
  | none => some s
  | some r => s.stealRest k r.1 r.2

/-- A section of `Steal(n)`, or the whole call, goes from `s` to `s'`: it does not take the running
and the next task, it loses no task, it takes at most `n`, and the running and the next task are
where they were. -/
structure StealSafe (k p n : Nat) (s s' : State) : Prop where
  threads : s'.runningTask = s.runningTask ∧ s'.nextTask = s.nextTask
  spared : ∀ t, s.runningTask p = some t ∨ s.nextTask p = some t → t ∉ s'.queues (.stolen k)
  perm : (s'.queues (.stolen k) ++ (s'.queues (.new p) ++ s'.queues (.runnable p))).Perm
    (s.queues (.stolen k) ++ (s.queues (.new p) ++ s.queues (.runnable p)))
  bound : n ≠ 0 → (s'.queues (.stolen k)).length ≤ n
  linked : ∀ t, s.runningTask p = some t ∨ s.nextTask p = some t →
    (t ∈ s'.queues (.runnable p) ↔ t ∈ s.queues (.runnable p))

theorem popBack_length (n : Nat) (hn : n ≠ 0) (tasks : List Nat) :
    (State.popSome n tasks).2.length ≤ n := by
  rw [State.popSome, if_neg hn, State.popBack]
  dsimp only
  rw [List.length_drop]
  have hmod : n % 2 ^ 32 ≤ n := Nat.mod_le ..
  omega

theorem Links.next_not_stolen (h : Links s)
    (ht : s.runningTask p = some t ∨ s.nextTask p = some t) (hq : q.isOf p = false) :
    t ∉ s.queues q := by
  intro hmem
  rcases ht with hr | hn
  · exact h.running_ne hr hmem hq rfl
  · have hqq := h.apart.apart q _ t hmem ((h.seated p).next t hn).1
    rw [hqq] at hq
    simp [Queue.isOf] at hq

section steal

variable (k p n : Nat)

theorem steal_queues (s : State) :
    (s.steal k p n).queues =
      Function.update (Function.update s.queues (.new p) (State.popSome n (s.queues (.new p))).1)
        (.stolen k) (State.popSome n (s.queues (.new p))).2 := by
  unfold State.steal
  dsimp only
  split <;> rfl

theorem steal_new (s : State) :
    (s.steal k p n).queues (.new p) = (State.popSome n (s.queues (.new p))).1 := by
  rw [steal_queues, Function.update_of_ne (by simp), Function.update_self]

theorem steal_stolen (s : State) :
    (s.steal k p n).queues (.stolen k) = (State.popSome n (s.queues (.new p))).2 := by
  rw [steal_queues, Function.update_self]

theorem steal_other (s : State) (hq : q ≠ .new p) (hq' : q ≠ .stolen k) :
    (s.steal k p n).queues q = s.queues q := by
  rw [steal_queues, Function.update_of_ne hq', Function.update_of_ne hq]

theorem steal_threads (s : State) : (s.steal k p n).runningTask = s.runningTask ∧
    (s.steal k p n).nextTask = s.nextTask := by
  unfold State.steal
  dsimp only
  split <;> exact ⟨rfl, rfl⟩

theorem steal_rest (s : State) : (s.steal k p n).place = s.place ∧
    (s.steal k p n).waiting = s.waiting ∧ (s.steal k p n).notified = s.notified ∧
    (s.steal k p n).wakeups = s.wakeups := by
  unfold State.steal
  dsimp only
  split <;> exact ⟨rfl, rfl, rfl, rfl⟩

/-- The section under the lock of `newQueue_`. -/
theorem Links.steal_first_safe (h : Links s) (hk : s.queues (.stolen k) = []) :
    StealSafe k p n s (s.steal k p n) := by
  have hrunnable : (s.steal k p n).queues (.runnable p) = s.queues (.runnable p) :=
    steal_other k p n s (by simp) (by simp)
  refine ⟨steal_threads k p n s, fun t ht hmem => ?_, ?_, fun hn => ?_, fun t _ => ?_⟩
  · rw [steal_stolen] at hmem
    have hnew := (popSome_perm n _).mem_iff.1 (List.mem_append_right _ hmem)
    exact h.next_not_stolen ht rfl hnew
  · rw [hk, hrunnable, steal_new, steal_stolen, List.nil_append, ← List.append_assoc]
    exact List.Perm.append_right _ (List.perm_append_comm.trans (popSome_perm n _))
  · rw [steal_stolen]
    exact popBack_length n hn _
  · rw [hrunnable]

theorem stealt_queues (s : State) :
    (s.stealt k p n).queues =
      Function.update (Function.update s.queues (.runnable p)
        ((State.popSome (n - (s.queues (.stolen k)).length) (s.rest p)).1 ++ s.self p)) (.stolen k)
        ((State.popSome (n - (s.queues (.stolen k)).length) (s.rest p)).2 ++
          s.queues (.stolen k)) := rfl

theorem stealt_stolen (s : State) :
    (s.stealt k p n).queues (.stolen k) =
      (State.popSome (n - (s.queues (.stolen k)).length) (s.rest p)).2 ++ s.queues (.stolen k) := by
  rw [stealt_queues, Function.update_self]

theorem stealt_runnable (s : State) :
    (s.stealt k p n).queues (.runnable p) =
      (State.popSome (n - (s.queues (.stolen k)).length) (s.rest p)).1 ++ s.self p := by
  rw [stealt_queues, Function.update_of_ne (by simp), Function.update_self]

theorem stealt_other (s : State) (hq : q ≠ .runnable p) (hq' : q ≠ .stolen k) :
    (s.stealt k p n).queues q = s.queues q := by
  rw [stealt_queues, Function.update_of_ne hq', Function.update_of_ne hq]

theorem stealt_new (s : State) : (s.stealt k p n).queues (.new p) = s.queues (.new p) :=
  stealt_other k p n s (by simp) (by simp)

end steal

/-- The section under the lock of `runnableQueue_`. -/
theorem Links.stealt_safe (h : Links s) (hlen : n ≠ 0 → (s.queues (.stolen k)).length < n)
    {D : Nat → Nat} {C : Nat} :
    StealSafe k p n s { s.stealt k p n with deletions := D, taskCount := C } := by
  have hstolen := stealt_stolen k p n s
  have hrunnable := stealt_runnable k p n s
  have hperm := h.stealt_perm (p := p) (n := n - (s.queues (.stolen k)).length)
    (s.queues (.stolen k))
  rw [← hrunnable, ← hstolen] at hperm
  refine ⟨⟨rfl, rfl⟩, fun t ht hmem => ?_, ?_, fun hn => ?_, fun t ht => ?_⟩
  · dsimp only at hmem
    rw [hstolen, List.mem_append] at hmem
    rcases hmem with hmem | hmem
    · have hrest := (popSome_perm _ (s.rest p)).mem_iff.1 (List.mem_append_right _ hmem)
      have hin := h.self_perm.mem_iff.1 (List.mem_append_left _ hrest)
      have hself : t ∈ s.self p := by
        unfold State.self
        rcases ht with hr | hn
        · exact List.mem_append_left _ (by simp [hr, hin])
        · exact List.mem_append_right _ (by simp [hn])
      have hnodup := h.self_perm.nodup_iff.2 (h.apart.nodup (.runnable p))
      exact (List.nodup_append.1 hnodup).2.2 t hrest t hself rfl
    · exact h.next_not_stolen ht rfl hmem
  · dsimp only
    rw [stealt_new]
    have hswap : ∀ a b c : List Nat, (a ++ (b ++ c)).Perm (b ++ (c ++ a)) := by
      intro a b c
      rw [← List.append_assoc b c a]
      exact List.perm_append_comm
    exact (hswap _ _ _).trans ((List.Perm.append_left _ hperm).trans (hswap _ _ _).symm)
  · have hpop := popBack_length (n - (s.queues (.stolen k)).length)
      (by have := hlen hn; omega) (s.rest p)
    have := hlen hn
    dsimp only
    rw [hstolen, List.length_append]
    omega
  · dsimp only
    constructor
    · intro hmem
      have := hperm.mem_iff.1 (List.mem_append_left _ hmem)
      exact (List.mem_append.1 this).resolve_right (h.next_not_stolen ht rfl)
    · intro hmem
      rw [hrunnable]
      refine List.mem_append_right _ ?_
      unfold State.self
      rcases ht with hr | hn
      · exact List.mem_append_left _ (by simp [hr, hmem])
      · exact List.mem_append_right _ (by simp [hn])

/-! ## Between the sections -/

/-- The first section of a call of `Steal` that goes on has taken too few tasks. -/
def Short (s : State) : Prop :=
  ∀ k p n, s.stealing k = some (p, n) → n ≠ 0 → (s.queues (.stolen k)).length < n

/-- The step leaves the lists of the dispatcher alone. -/
structure Untouched (s s' : State) : Prop where
  stealing : s'.stealing = s.stealing
  stolen : ∀ k, s'.queues (.stolen k) = s.queues (.stolen k)

theorem Short.of_untouched (h : Short s) (hu : Untouched s s') : Short s' := by
  intro k p n hk hn
  rw [hu.stealing] at hk
  rw [hu.stolen]
  exact h k p n hk hn

theorem untouched_notifyAll (s : State) (p : Nat) : Untouched s (s.notifyAll p) := by
  unfold State.notifyAll
  split <;> exact ⟨rfl, fun _ => rfl⟩

theorem untouched_notifyCondition (s : State) (p : Nat) : Untouched s (s.notifyCondition p) := by
  unfold State.notifyCondition
  split
  · exact untouched_notifyAll s p
  · exact ⟨rfl, fun _ => rfl⟩

theorem untouched_decRef (s : State) (t : Nat) : Untouched s (s.decRef t) := by
  unfold State.decRef
  dsimp only
  split <;> exact ⟨rfl, fun _ => rfl⟩

theorem untouched_adder (s : State) (k : Nat) (a : Adder) : Untouched s (s.adder k a) := by
  unfold State.adder
  split
  · exact ⟨rfl, fun _ => rfl⟩
  · obtain ⟨hstealing, hstolen⟩ := untouched_notifyAll s a.proc
    exact ⟨hstealing, hstolen⟩
  · exact ⟨rfl, fun _ => rfl⟩
  · exact ⟨rfl, fun _ => rfl⟩

theorem untouched_wakeupBySelf {w : Wakeup} (hs : s.wakeupBySelf k w p = some s') :
    Untouched s s' := by
  rcases wakeupBySelf_cases hs with ⟨-, rfl⟩ | ⟨-, -, rfl⟩
  · exact ⟨rfl, fun _ => rfl⟩
  · exact ⟨rfl, fun j => awaken_other (q := .stolen j) s p w.task (by simp) (by simp)⟩

theorem untouched_wakeup {w : Wakeup} (hs : s.wakeup k w = some s') : Untouched s s' := by
  unfold State.wakeup at hs
  split at hs
  case h_4 => exact untouched_wakeupBySelf hs
  case h_1 =>
    cases hs
    split <;> exact ⟨rfl, fun _ => rfl⟩
  case h_5 p _ =>
    cases hs
    obtain ⟨hstealing, hstolen⟩ := untouched_notifyCondition s p
    exact ⟨hstealing, hstolen⟩
  case h_6 =>
    cases hs
    obtain ⟨hstealing, hstolen⟩ := untouched_decRef s w.task
    exact ⟨hstealing, hstolen⟩
  all_goals
    cases hs
    exact ⟨rfl, fun _ => rfl⟩

theorem untouched_of_leaves (h : Leaves p s s') : Untouched s s' :=
  ⟨h.stealing, fun _ => h.queues _ rfl (by simp)⟩

/-- Lists of the dispatcher change while no call of `Steal` works on them. -/
theorem Short.of_free (h : Short s) (hstealing : s'.stealing = s.stealing)
    (hstolen : ∀ k, s'.queues (.stolen k) = s.queues (.stolen k) ∨ s.stealing k = none) :
    Short s' := by
  intro k p n hk hn
  rw [hstealing] at hk
  rcases hstolen k with hsame | hnone
  · rw [hsame]
    exact h k p n hk hn
  · rw [hnone] at hk
    cases hk

/-- The list `k` changes, and nothing is known of a call of `Steal` that works on it. -/
theorem Short.of_one (h : Short s) (hother : ∀ j ≠ k, s'.stealing j = s.stealing j ∧
    s'.queues (.stolen j) = s.queues (.stolen j))
    (hk : ∀ p n, s'.stealing k = some (p, n) → n ≠ 0 → (s'.queues (.stolen k)).length < n) :
    Short s' := by
  intro j p n hj hn
  by_cases hjk : j = k
  · subst hjk
    exact hk p n hj hn
  · obtain ⟨hstealing, hstolen⟩ := hother j hjk
    rw [hstealing] at hj
    rw [hstolen]
    exact h j p n hj hn

theorem steal_stealing (k p n : Nat) (s : State) : (s.steal k p n).stealing =
    if n ≠ 0 ∧ n ≤ (State.popSome n (s.queues (.new p))).2.length then s.stealing
    else Function.update s.stealing k (some (p, n)) := by
  unfold State.steal
  dsimp only
  split <;> rfl

theorem Short.steal (h : Short s) (hk : s.stealing k = none) : Short (s.steal k p n) := by
  refine h.of_one (k := k) (fun j hj => ⟨?_, steal_other k p n s (by simp) (by simpa using hj)⟩)
    fun p' n' hsome hn' => ?_
  · rw [steal_stealing]
    split
    · rfl
    · exact Function.update_of_ne hj ..
  · rw [steal_stealing] at hsome
    rw [steal_stolen]
    split at hsome
    · rw [hk] at hsome
      cases hsome
    · rename_i hshort
      rw [Function.update_self] at hsome
      cases hsome
      omega

theorem Short.stealRest (h : Short s) (hlinks : Links s) (hs : s.stealRest k p n = some s') :
    Short s' := by
  obtain ⟨D, C, heq, -⟩ := hlinks.stealRest_eq (k := k) (p := p) (n := n)
  rw [heq, Option.some.injEq] at hs
  subst hs
  refine h.of_one (k := k) (fun j hj => ⟨Function.update_of_ne hj .., ?_⟩) fun p' n' hsome => ?_
  · exact stealt_other k p n s (by simp) (by simpa using hj)
  · have hnone : Function.update s.stealing k none k = some (p', n') := hsome
    rw [Function.update_self] at hnone
    cases hnone

/-- Every step keeps the invariant. -/
theorem Short.step (h : Short s) (hlinks : Links s) {a : Action} (he : Enabled s a = true)
    (hs : Scheduler.step s a = some s') : Short s' := by
  cases a with
  | create p =>
    cases hs
    exact h.of_untouched ⟨rfl, fun j => create_other (q := .stolen j) s p (by simp)⟩
  | adder k =>
    obtain ⟨a, -, rfl⟩ := Option.map_eq_some_iff.1 hs
    exact h.of_untouched (untouched_adder s k a)
  | thread p => exact h.of_untouched (untouched_of_leaves (leaves_thread hs))
  | suspend p =>
    obtain ⟨t, -, rfl⟩ := Option.map_eq_some_iff.1 hs
    exact h.of_untouched ⟨rfl, fun _ => rfl⟩
  | finish p =>
    obtain ⟨t, -, rfl⟩ := Option.map_eq_some_iff.1 hs
    exact h.of_untouched ⟨rfl, fun _ => rfl⟩
  | wakeup k =>
    obtain ⟨w, -, hw⟩ := Option.bind_eq_some_iff.1 hs
    exact h.of_untouched (untouched_wakeup hw)
  | steal k p n =>
    cases hs
    simp only [Enabled, Bool.and_eq_true, decide_eq_true_eq] at he
    exact h.steal he.2
  | stealRest k =>
    obtain ⟨r, -, hr⟩ := Option.bind_eq_some_iff.1 hs
    exact h.stealRest hlinks hr
  | append k k' =>
    cases hs
    simp only [Enabled, Bool.and_eq_true, decide_eq_true_eq] at he
    refine h.of_free rfl fun j => ?_
    by_cases hj : j = k
    · exact .inr (hj ▸ he.1.2)
    · by_cases hj' : j = k'
      · exact .inr (hj' ▸ he.2)
      · refine .inl ?_
        unfold State.append
        rw [setQueue_other (by simpa using hj'), setQueue_other (by simpa using hj)]
  | cut k k' n =>
    cases hs
    simp only [Enabled, Bool.and_eq_true, decide_eq_true_eq] at he
    refine h.of_free rfl fun j => ?_
    by_cases hj : j = k
    · exact .inr (hj ▸ he.1.1.2)
    · by_cases hj' : j = k'
      · exact .inr (hj' ▸ he.1.2)
      · refine .inl ?_
        unfold State.cut
        rw [setQueue_other (by simpa using hj), setQueue_other (by simpa using hj')]
  | addTask k p =>
    cases hs
    simp only [Enabled, decide_eq_true_eq] at he
    refine Short.of_untouched ?_ (untouched_notifyCondition _ p)
    refine h.of_free rfl fun j => ?_
    by_cases hj : j = k
    · exact .inr (hj ▸ he)
    · refine .inl ?_
      rw [setQueue_other (by simpa using hj), setQueue_other (by simp)]
  | notify p =>
    cases hs
    exact h.of_untouched (untouched_notifyCondition s p)
  | _ =>
    cases hs
    exact h.of_untouched ⟨rfl, fun _ => rfl⟩

/-- The two invariants hold in every state of a run. -/
theorem short_of_run (hr : Run machine anyAction State.initial s) : Links s ∧ Short s := by
  have hinitial : Short State.initial := fun k p n hk => by cases hk
  refine hr.invariant (P := fun s => Links s ∧ Short s) ⟨links_initial, hinitial⟩ ?_
  rintro s a s' ⟨hlinks, hshort⟩ he - hs
  exact ⟨hlinks.step he hs, hshort.step hlinks he hs⟩

/-! ## The whole call -/

theorem StealSafe.trans {s'' : State} (h : StealSafe k p n s s') (h' : StealSafe k p n s' s'') :
    StealSafe k p n s s'' where
  threads := ⟨h'.threads.1.trans h.threads.1, h'.threads.2.trans h.threads.2⟩
  spared t ht := by
    refine h'.spared t ?_
    rwa [h.threads.1, h.threads.2]
  perm := h'.perm.trans h.perm
  bound := h'.bound
  linked t ht := by
    refine (h'.linked t ?_).trans (h.linked t ht)
    rwa [h.threads.1, h.threads.2]

theorem Links.stealRest_safe (h : Links s) (hlen : n ≠ 0 → (s.queues (.stolen k)).length < n) :
    ∃ s', s.stealRest k p n = some s' ∧ StealSafe k p n s s' := by
  obtain ⟨D, C, heq, -⟩ := h.stealRest_eq (k := k) (p := p) (n := n)
  exact ⟨_, heq, h.stealt_safe hlen⟩

theorem Links.stealAll_safe (h : Links s) (hshort : Short s) (hk : s.queues (.stolen k) = [])
    (hnone : s.stealing k = none) :
    ∃ s', s.stealAll k p n = some s' ∧ StealSafe k p n s s' := by
  have hfirst := h.steal_first_safe k p n hk
  have hshort' := hshort.steal (p := p) (n := n) hnone
  unfold State.stealAll
  dsimp only
  cases hr : (s.steal k p n).stealing k with
  | none => exact ⟨_, rfl, hfirst⟩
  | some r =>
    have hkey : r = (p, n) := by
      rw [steal_stealing] at hr
      split at hr
      · rw [hnone] at hr
        cases hr
      · rw [Function.update_self] at hr
        exact (Option.some.inj hr).symm
    subst hkey
    obtain ⟨s', hs', hsafe⟩ := (h.steal hk).stealRest_safe fun hn => hshort' k p n hr hn
    exact ⟨s', hs', hfirst.trans hsafe⟩

/-- In every state that can be reached, between any two sections of the threads and of the calls of
`Wakeup`, a call of `Steal(n)` is safe: its first section, the second one after whatever has
happened since the first, and both at once. -/
theorem steal_safe (hr : Run machine anyAction State.initial s) :
    (∀ k p n, s.queues (.stolen k) = [] → s.stealing k = none →
      StealSafe k p n s (s.steal k p n) ∧
        ∃ s', s.stealAll k p n = some s' ∧ StealSafe k p n s s') ∧
    ∀ k p n, s.stealing k = some (p, n) →
      ∃ s', s.stealRest k p n = some s' ∧ StealSafe k p n s s' := by
  obtain ⟨hlinks, hshort⟩ := short_of_run hr
  refine ⟨fun k p n hk hnone => ⟨hlinks.steal_first_safe k p n hk, hlinks.stealAll_safe hshort hk hnone⟩,
    fun k p n hk => ?_⟩
  exact hlinks.stealRest_safe (hshort k p n hk)

/-- The first of three tasks runs, and a call of `Steal(2)` is between its two sections. -/
theorem steal_safe_two : ∃ s s', Run machine anyAction State.initial s ∧
    (s.queues (.runnable 0) = [0, 1, 2] ∧ s.runningTask 0 = some 0) ∧
    s.stealRest 0 0 2 = some s' ∧ StealSafe 0 0 2 s s' := by
  have hexec : (machine.exec anyAction State.initial
      (List.replicate 3 (.create 0) ++ List.replicate 10 (.thread 0) ++ [.steal 0 0 2])).any
      (fun s => s.queues (.runnable 0) = [0, 1, 2] && s.runningTask 0 = some 0 &&
        s.stealing 0 = some (0, 2)) = true := by
    decide +kernel
  obtain ⟨s, hr, hs⟩ := Run.exists_of_exec hexec
  simp only [Bool.and_eq_true, decide_eq_true_eq] at hs
  obtain ⟨s', hs', hsafe⟩ := (steal_safe hr).2 0 0 2 hs.2
  exact ⟨s, s', hr, hs.1, hs', hsafe⟩

end Costream.Scheduler
