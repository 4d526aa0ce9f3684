import Costream.Scheduler.Suspend

/-!
# Suspensions and wakings take turns

The steps that suspend a task or wake it up, one lemma each: `Suspends.suspend` makes the id odd,
`Suspends.suspendBySelf` publishes the entry, and `Suspends.awaken` makes the id even again.
`Suspends.step` is any step.
-/

namespace Costream.Scheduler

open Trace Costream.Lists Costream.Tally

variable {s s' : State} {p p' t u k n : Nat} {q q' : Queue} {w w' : Wakeup}

/-! ## Where a task is -/

/-- A task in `runnableQueue_` does not wait. -/
theorem Links.not_waiting (h : Links s) (ht : t ∈ s.queues (.runnable p)) :
    t ∉ s.queues (.wait p') := by
  intro hwait
  have heq := h.apart.apart _ _ t ht hwait
  cases heq

/-- What the thread of `p` runs, and does not suspend, is not being suspended. -/
theorem Links.settled (h : Links s) (hr : s.runningTask p = some t)
    (hplace : s.place p ≠ .suspending) : s.Settled t := by
  intro p' hp' hr'
  have heq := h.running_unique hr hr'
  subst heq
  exact hplace hp'

/-- A task that waits is not being suspended. -/
theorem Links.waiting_settled (h : Links s) (ht : t ∈ s.queues (.wait p)) : s.Settled t := by
  intro p' hp' hr'
  have hmem := (h.seated p').linked hr' (by rw [hp']; rfl)
  exact h.not_waiting hmem ht

/-- The entry of a call is not the id of a task that has been woken up. -/
theorem Call.ne_even (h : Call s w) : w.id ≠ 2 * n % 2 ^ 64 := by
  obtain ⟨i, -, hi⟩ := h.id
  omega

/-! ## `SwapIn` -/

theorem Suspends.swapIn (h : Suspends s) (hlinks : Links s) (hplace : s.place p = .swapIn)
    (hs : s.swapIn p = some s') : Suspends s' := by
  obtain ⟨t, hr, rfl⟩ := Option.map_eq_some_iff.1 hs
  have hmem := (hlinks.seated p).linked hr (by rw [hplace]; rfl)
  have hsettled : s.Settled t := hlinks.settled hr (by rw [hplace]; nofun)
  have hid := (h.awake t (hlinks.known _ t hmem) (fun _ => hlinks.not_waiting hmem) hsettled).2
  have hother : ∀ p', Function.update s.place p .running p' = .suspending →
      s.place p' = .suspending := by
    intro p' hp'
    by_cases hpp : p' = p
    · rw [hpp, Function.update_self] at hp'
      cases hp'
    · rwa [Function.update_of_ne hpp] at hp'
  refine ⟨h.entries, fun w hw => ⟨(h.calls w hw).id, (h.calls w hw).ran, fun p' hp' heq => ?_⟩,
    h.once, fun p' u hp' hu => h.suspending p' u (hother p' hp') hu, fun p' u hu => ?_,
    fun u hu hwait hnot => h.awake u hu hwait fun p' hp' hr' => ?_, fun p' u hp' hu => ?_,
    fun u hu => ?_⟩
  · have hne : w.task ≠ t := by
      intro htask
      have heq : w.id = s.suspendId w.task := heq
      rw [htask, hid] at heq
      exact (h.calls w hw).ne_even heq
    show Function.update s.proc t (some p) w.task = some p'
    rw [Function.update_of_ne hne]
    exact (h.calls w hw).proc p' hp' heq
  · have hne : u ≠ t := by
      rintro rfl
      exact hlinks.not_waiting hmem hu
    show _ ∧ _ ∧ Function.update s.proc t (some p) u = some p'
    rw [Function.update_of_ne hne]
    exact h.suspended p' u hu
  · refine hnot p' ?_ hr'
    show Function.update s.place p .running p' = .suspending
    rw [Function.update_of_ne, hp']
    rintro rfl
    rw [hplace] at hp'
    cases hp'
  · show Function.update s.proc t (some p) u = some p'
    by_cases hpp : p' = p
    · subst hpp
      have heq : some u = some t := hu.symm.trans hr
      cases heq
      exact Function.update_self ..
    · have hne : u ≠ t := by
        rintro rfl
        exact hpp (hlinks.running_unique hu hr)
      rw [Function.update_of_ne hne]
      refine h.placed p' u ?_ hu
      have hp' : Function.update s.place p .running p' = .running ∨
        Function.update s.place p .running p' = .suspending := hp'
      rwa [Function.update_of_ne hpp] at hp'
  · refine h.held u ?_
    have hu : Function.update s.taskState t .runnable u = .block := hu
    by_cases hut : u = t
    · rw [hut, Function.update_self] at hu
      cases hu
    · rwa [Function.update_of_ne hut] at hu

/-! ## `Suspend` -/

/-- The id becomes odd before the section that the task suspends itself in. -/
theorem Suspends.suspend (h : Suspends s) (hlinks : Links s) (hplace : s.place p = .running)
    (hr : s.runningTask p = some t) (hstate : s.taskState t = .runnable)
    (hfew : s.suspensions t < 2 ^ 63) : Suspends ({ s with
      taskState := Function.update s.taskState t .block
      suspendId := Function.update s.suspendId t ((s.suspendId t + 1) % 2 ^ 64) }.goto p
        .suspending) := by
  have hmem := (hlinks.seated p).coroutine hr (by rw [hplace]; rfl) (by rw [hstate]; nofun)
  have hsettled : s.Settled t := hlinks.settled hr (by rw [hplace]; nofun)
  obtain ⟨hwoken, hid⟩ :=
    h.awake t (hlinks.known _ t hmem) (fun _ => hlinks.not_waiting hmem) hsettled
  have hodd : (s.suspendId t + 1) % 2 ^ 64 = 2 * s.suspensions t + 1 := by omega
  rw [hodd]
  refine ⟨h.entries, fun w hw => ⟨(h.calls w hw).id, (h.calls w hw).ran, fun p' hp' heq => ?_⟩,
    h.once, fun p' u hp' hu => ?_, fun p' u hu => ?_, fun u hu hwait hnot => ?_,
    fun p' u hp' hu => ?_, fun u hu => ?_⟩
  · have heq : w.id = Function.update s.suspendId t (2 * s.suspensions t + 1) w.task := heq
    refine (h.calls w hw).proc p' hp' ?_
    by_cases htask : w.task = t
    · rw [htask, Function.update_self] at heq
      obtain ⟨i, hi, hid⟩ := (h.calls w hw).id
      rw [htask] at hi
      omega
    · rwa [Function.update_of_ne htask] at heq
  · show s.woken u = s.suspensions u ∧
      Function.update s.suspendId t (2 * s.suspensions t + 1) u = 2 * s.suspensions u + 1
    by_cases hpp : p' = p
    · subst hpp
      have heq : some u = some t := hu.symm.trans hr
      cases heq
      exact ⟨hwoken, Function.update_self ..⟩
    · have hne : u ≠ t := by
        rintro rfl
        exact hpp (hlinks.running_unique hu hr)
      have hp' : Function.update s.place p .suspending p' = .suspending := hp'
      rw [Function.update_of_ne hpp] at hp'
      rw [Function.update_of_ne hne]
      exact h.suspending p' u hp' hu
  · have hne : u ≠ t := by
      rintro rfl
      exact hlinks.not_waiting hmem hu
    show _ ∧ Function.update s.suspendId t (2 * s.suspensions t + 1) u = _ ∧ _
    rw [Function.update_of_ne hne]
    exact h.suspended p' u hu
  · have hne : u ≠ t := by
      rintro rfl
      exact hnot p (Function.update_self ..) hr
    show _ ∧ Function.update s.suspendId t (2 * s.suspensions t + 1) u = _
    rw [Function.update_of_ne hne]
    refine h.awake u hu hwait fun p' hp' hr' => hnot p' ?_ hr'
    show Function.update s.place p .suspending p' = .suspending
    by_cases hpp : p' = p
    · rw [hpp, Function.update_self]
    · rwa [Function.update_of_ne hpp]
  · by_cases hpp : p' = p
    · subst hpp
      exact h.placed p' u (.inl hplace) hu
    · have hp' : Function.update s.place p .suspending p' = .running ∨
        Function.update s.place p .suspending p' = .suspending := hp'
      rw [Function.update_of_ne hpp] at hp'
      exact h.placed p' u hp' hu
  · by_cases hut : u = t
    · subst hut
      exact ⟨.runnable p, rfl, hmem⟩
    · have hu : Function.update s.taskState t .block u = .block := hu
      rw [Function.update_of_ne hut] at hu
      exact h.held u hu

/-! ### The section of `SuspendBySelf` -/

theorem asleep_suspensions (s : State) (p t u : Nat) :
    (s.asleep p t).suspensions u = s.suspensions u + if u = t then 1 else 0 := by
  show (s.entries ++ [(t, s.suspendId t)]).countP (fun e => e.1 = u) = _
  rw [List.countP_append, List.countP_singleton]
  unfold State.suspensions
  simp only [decide_eq_true_eq, eq_comm (a := u)]

theorem asleep_swapped (ht : t ∈ s.queues (.runnable p)) :
    Swapped s (s.asleep p t) (.runnable p) (.wait p) ((s.queues (.runnable p)).erase t)
      (s.queues (.wait p) ++ [t]) :=
  ⟨rfl, by simp, erase_append_perm ht, rfl, rfl⟩

/-- A task waits that has just gone to sleep, or has waited before. -/
theorem mem_asleep_wait (hu : u ∈ (s.asleep p t).queues (.wait p')) :
    p' = p ∧ u = t ∨ u ∈ s.queues (.wait p') := by
  have hu : u ∈ Function.update (Function.update s.queues (.runnable p)
    ((s.queues (.runnable p)).erase t)) (.wait p) (s.queues (.wait p) ++ [t]) (.wait p') := hu
  by_cases hpp : p' = p
  · subst hpp
    rw [Function.update_self, List.mem_append, List.mem_singleton] at hu
    exact hu.elim .inr fun heq => .inl ⟨rfl, heq⟩
  · rw [Function.update_of_ne (by simpa using hpp), Function.update_of_ne (by simp)] at hu
    exact .inr hu

theorem mem_asleep_self (s : State) (p t : Nat) : t ∈ (s.asleep p t).queues (.wait p) := by
  show t ∈ Function.update (Function.update s.queues (.runnable p)
    ((s.queues (.runnable p)).erase t)) (.wait p) (s.queues (.wait p) ++ [t]) (.wait p)
  rw [Function.update_self]
  exact List.mem_append_right _ (List.mem_singleton_self t)

theorem mem_asleep (ht : u ∈ s.queues (.wait p')) : u ∈ (s.asleep p t).queues (.wait p') := by
  show u ∈ Function.update (Function.update s.queues (.runnable p)
    ((s.queues (.runnable p)).erase t)) (.wait p) (s.queues (.wait p) ++ [t]) (.wait p')
  by_cases hpp : p' = p
  · subst hpp
    rw [Function.update_self]
    exact List.mem_append_left _ ht
  · rwa [Function.update_of_ne (by simpa using hpp), Function.update_of_ne (by simp)]

/-- The entry is published when the task has changed its list. -/
theorem Suspends.suspendBySelf (h : Suspends s) (hlinks : Links s)
    (hplace : s.place p = .suspending) (hs : s.suspendBySelf p = some s') : Suspends s' := by
  obtain ⟨t, hr, hmem, rfl⟩ := hlinks.suspendBySelf_cases hplace hs
  obtain ⟨hwoken, hid⟩ := h.suspending p t hplace hr
  have hother : ∀ p' ≠ p, (s.asleep p t).place p' = s.place p' :=
    fun p' hpp => Function.update_of_ne hpp ..
  have hself : (s.asleep p t).place p = .running := Function.update_self ..
  refine ⟨fun u => ?_, fun w hw => ⟨?_, (h.calls w hw).ran, (h.calls w hw).proc⟩, h.once,
    fun p' u hp' hu => ?_, fun p' u hu => ?_, fun u hu hwait hnot => ?_, fun p' u hp' hu => ?_,
    fun u hu => ?_⟩
  · show (s.entries ++ [(t, s.suspendId t)]).filter (fun e => e.1 = u) = _
    rw [List.filter_append, h.entries, asleep_suspensions]
    by_cases hut : u = t
    · subst hut
      rw [if_pos rfl, List.range_succ, List.map_append, List.map_singleton, hid,
        List.filter_singleton]
      simp
    · rw [if_neg hut, List.filter_singleton]
      simp [Ne.symm hut]
  · obtain ⟨i, hi, hid⟩ := (h.calls w hw).id
    refine ⟨i, ?_, hid⟩
    rw [asleep_suspensions]
    exact hi.trans_le (Nat.le_add_right _ _)
  · by_cases hpp : p' = p
    · rw [hpp, hself] at hp'
      cases hp'
    · have hne : u ≠ t := by
        rintro rfl
        exact hpp (hlinks.running_unique hu hr)
      rw [hother p' hpp] at hp'
      rw [asleep_suspensions, if_neg hne]
      exact h.suspending p' u hp' hu
  · rw [asleep_suspensions]
    rcases mem_asleep_wait hu with ⟨rfl, rfl⟩ | hwait
    · rw [if_pos rfl]
      show s.suspensions u + 1 = s.woken u + 1 ∧ s.suspendId u = 2 * s.woken u + 1 ∧ _
      rw [hwoken, hid]
      exact ⟨rfl, rfl, h.placed p' u (.inr hplace) hr⟩
    · have hne : u ≠ t := by
        rintro rfl
        exact hlinks.not_waiting hmem hwait
      rw [if_neg hne]
      exact h.suspended p' u hwait
  · have hne : u ≠ t := by
      rintro rfl
      exact hwait p (mem_asleep_self s p u)
    rw [asleep_suspensions, if_neg hne]
    refine h.awake u hu (fun p' hp' => hwait p' (mem_asleep hp')) fun p' hp' hr' => ?_
    by_cases hpp : p' = p
    · subst hpp
      exact hne (Option.some.inj (hr'.symm.trans hr))
    · refine hnot p' ?_ hr'
      rwa [hother p' hpp]
  · by_cases hpp : p' = p
    · subst hpp
      exact h.placed p' u (.inr hplace) hu
    · rw [hother p' hpp] at hp'
      exact h.placed p' u hp' hu
  · obtain ⟨r, hr, hmem'⟩ := h.held u hu
    exact (asleep_swapped hmem).held ⟨rfl, rfl⟩ hr hmem'

/-! ## `Wakeup` -/

theorem woken_setWakeup (hw : s.wakeups[k]? = some w) (w' : Wakeup) (u : Nat) :
    (s.setWakeup k w').woken u + w.wakes u = s.woken u + w'.wakes u :=
  tally_set _ hw w'

theorem wakings_setWakeup (hw : s.wakeups[k]? = some w) (w' : Wakeup) (u id : Nat) :
    (s.setWakeup k w').wakings u id + w.wakesFrom u id = s.wakings u id + w'.wakesFrom u id :=
  tally_set _ hw w'

/-- The call goes on and has not got through. -/
theorem kept_setWakeup (h : Suspends s) (hw : s.wakeups[k]? = some w) (htask : w'.task = w.task)
    (hid : w'.id = w.id) (hran : w'.ran = w.ran) (hsuccess : w'.place.success = w.place.success)
    (hproc : ∀ p, w'.place = .check p ∨ w'.place = .locked p → w.id = s.suspendId w.task →
      s.proc w.task = some p) : Kept s (s.setWakeup k w') := by
  have hcall := h.calls w (List.mem_of_getElem? hw)
  refine ⟨.refl rfl rfl, rfl, rfl, rfl, fun v hv => ?_, funext fun u => ?_,
    funext fun u => funext fun id => ?_, rfl, fun _ => rfl, fun _ ht => ⟨ht, id⟩⟩
  · rcases List.mem_or_eq_of_mem_set hv with hv | rfl
    · exact .inl hv
    · refine .inr ⟨?_, ?_, ?_⟩
      · rw [htask, hid]
        exact hcall.id
      · rw [hran, hsuccess]
        exact hcall.ran
      · rw [htask, hid]
        exact hproc
  · have hset := woken_setWakeup hw w' u
    rw [Wakeup.wakes, Wakeup.wakes, htask, hran] at hset
    exact Nat.add_right_cancel hset
  · have hset := wakings_setWakeup hw w' u id
    rw [Wakeup.wakesFrom, Wakeup.wakesFrom, htask, hran, hid] at hset
    exact Nat.add_right_cancel hset

/-- The entry of a new call has been published. -/
theorem kept_wake (h : Suspends s) {caller : Option Nat} {id : Nat} (hentry : (t, id) ∈ s.entries) :
    Kept s { s with wakeups := s.wakeups ++ [⟨caller, t, id, .lock, 0⟩] } := by
  have hmem : (t, id) ∈ s.entries.filter fun e => e.1 = t :=
    List.mem_filter.2 ⟨hentry, decide_eq_true rfl⟩
  rw [h.entries, List.mem_map] at hmem
  obtain ⟨i, hi, heq⟩ := hmem
  cases heq
  refine ⟨.refl rfl rfl, rfl, rfl, rfl, fun w hw => ?_, funext fun u => ?_,
    funext fun u => funext fun id => ?_, rfl, fun _ => rfl, fun _ ht => ⟨ht, fun h => h⟩⟩
  · rcases List.mem_append.1 hw with hw | hw
    · exact .inl hw
    · rw [List.mem_singleton.1 hw]
      exact .inr ⟨⟨i, List.mem_range.1 hi, rfl⟩, rfl, by simp⟩
  · unfold State.woken
    rw [tally_append]
    simp [Wakeup.wakes]
  · unfold State.wakings
    rw [tally_append]
    simp [Wakeup.wakesFrom]

/-- A call that gets through has the entry of the last suspension, and the task waits. -/
theorem Suspends.waiting (h : Suspends s) (hbooks : Books s) (hw : w ∈ s.wakeups)
    (hplace : w.place = .locked p) (hid : w.id = s.suspendId w.task) :
    w.task ∈ s.queues (.wait p) := by
  obtain ⟨i, hi, heq⟩ := (h.calls w hw).id
  have hproc := (h.calls w hw).proc p (.inr hplace) hid
  by_contra hnot
  have hwait : ∀ p', w.task ∉ s.queues (.wait p') := by
    intro p' hmem
    have heq := (h.suspended p' _ hmem).2.2.symm.trans hproc
    cases heq
    exact hnot hmem
  by_cases hsettled : s.Settled w.task
  · have heven := (h.awake w.task (hbooks.known w hw) hwait hsettled).2
    rw [← hid] at heven
    exact (h.calls w hw).ne_even heven
  · unfold State.Settled at hsettled
    simp only [not_forall, not_not] at hsettled
    obtain ⟨p', hp', hr⟩ := hsettled
    have hodd := (h.suspending p' w.task hp' hr).2
    omega

theorem awaken_swapped (ht : t ∈ s.queues (.wait p)) :
    Swapped s (s.awaken p t) (.wait p) (.runnable p) ((s.queues (.wait p)).erase t)
      (s.queues (.runnable p) ++ [t]) :=
  ⟨rfl, by simp, erase_append_perm ht, rfl, rfl⟩

theorem awaken_wait (s : State) (p t p' : Nat) : (s.awaken p t).queues (.wait p') =
    if p' = p then (s.queues (.wait p)).erase t else s.queues (.wait p') := by
  rw [awaken_queues, Function.update_of_ne (by simp)]
  split
  · rename_i hpp
    rw [hpp, Function.update_self]
  · rename_i hpp
    rw [Function.update_of_ne (by simpa using hpp)]

/-- The id becomes even under the lock, in which the task changes its list and the functor runs. -/
theorem Suspends.awaken (h : Suspends s) (hlinks : Links s) (hw : s.wakeups[k]? = some w)
    (hplace : w.place = .locked p) (hid : w.id = s.suspendId w.task)
    (hmem : w.task ∈ s.queues (.wait p)) (htask : w'.task = w.task) (hid' : w'.id = w.id)
    (hran : w'.ran = w.ran + 1) (hsuccess : w'.place.success = true) :
    Suspends ((s.awaken p w.task).setWakeup k w') := by
  obtain ⟨hsuspensions, hodd, -⟩ := h.suspended p _ hmem
  have hcall := h.calls w (List.mem_of_getElem? hw)
  have hfirst : w.ran = 0 := by rw [hcall.ran, hplace]; rfl
  have hget : (s.awaken p w.task).wakeups[k]? = some w := hw
  have hwoken : ∀ u, ((s.awaken p w.task).setWakeup k w').woken u =
      s.woken u + if u = w.task then 1 else 0 := by
    intro u
    have hset := woken_setWakeup hget w' u
    rw [Wakeup.wakes, Wakeup.wakes, htask, hran, hfirst, ite_self, Nat.add_zero] at hset
    simp only [eq_comm (a := u)]
    exact hset
  have hwakings : ∀ u id, ((s.awaken p w.task).setWakeup k w').wakings u id =
      s.wakings u id + if u = w.task ∧ id = w.id then 1 else 0 := by
    intro u id
    have hset := wakings_setWakeup hget w' u id
    rw [Wakeup.wakesFrom, Wakeup.wakesFrom, htask, hran, hid', hfirst, ite_self,
      Nat.add_zero] at hset
    simp only [eq_comm (a := u), eq_comm (a := id)]
    exact hset
  have hother : ∀ u p', u ∈ (s.awaken p w.task).queues (.wait p') →
      u ≠ w.task ∧ u ∈ s.queues (.wait p') := by
    intro u p' hu
    rw [awaken_wait] at hu
    split at hu
    · rename_i hpp
      subst hpp
      rwa [(hlinks.apart.nodup _).mem_erase_iff] at hu
    · rename_i hpp
      refine ⟨?_, hu⟩
      rintro rfl
      have heq := hlinks.apart.apart _ _ _ hu hmem
      cases heq
      exact hpp rfl
  have heven : (s.suspendId w.task + 1) % 2 ^ 64 = 2 * s.suspensions w.task % 2 ^ 64 := by omega
  have hnew : ∀ u, ((s.awaken p w.task).setWakeup k w').suspendId u =
      if u = w.task then 2 * s.suspensions w.task % 2 ^ 64 else s.suspendId u := by
    intro u
    show Function.update s.suspendId w.task ((s.suspendId w.task + 1) % 2 ^ 64) u = _
    rw [heven, Function.update_apply]
  refine ⟨h.entries, fun v hv => ?_, fun u i => ?_, fun p' u hp' hu => ?_, fun p' u hu => ?_,
    fun u hu hwait hnot => ?_, h.placed, fun u hu => ?_⟩
  · rcases List.mem_or_eq_of_mem_set hv with hv | rfl
    · refine ⟨(h.calls v hv).id, (h.calls v hv).ran, fun p' hp' heq => ?_⟩
      rw [hnew] at heq
      split at heq
      · exact absurd heq (h.calls v hv).ne_even
      · exact (h.calls v hv).proc p' hp' heq
    · refine ⟨?_, ?_, fun p' hp' => ?_⟩
      · rw [htask, hid']
        exact hcall.id
      · rw [hran, hfirst, hsuccess]
        rfl
      · rcases hp' with hp' | hp'
        · rw [hp'] at hsuccess
          cases hsuccess
        · rw [hp'] at hsuccess
          cases hsuccess
  · rw [hwoken, hwakings, h.once]
    have hlast : 2 * i + 1 = w.id ↔ i = s.woken w.task := by omega
    by_cases hut : u = w.task
    · subst hut
      simp only [true_and, if_true, hlast]
      split <;> split <;> split <;> omega
    · simp only [hut, false_and, if_false, Nat.add_zero]
  · have hne : u ≠ w.task := by
      rintro rfl
      exact hlinks.waiting_settled hmem p' hp' hu
    rw [hwoken, hnew, if_neg hne, if_neg hne]
    exact h.suspending p' u hp' hu
  · obtain ⟨hne, hu⟩ := hother u p' hu
    rw [hwoken, hnew, if_neg hne, if_neg hne]
    exact h.suspended p' u hu
  · rw [hwoken, hnew]
    by_cases hut : u = w.task
    · subst hut
      rw [if_pos rfl, if_pos rfl]
      exact ⟨hsuspensions.symm, rfl⟩
    · rw [if_neg hut, if_neg hut]
      refine h.awake u hu (fun p' hu' => hwait p' ?_) hnot
      show u ∈ (s.awaken p w.task).queues (.wait p')
      rw [awaken_wait]
      split
      · rename_i hpp
        subst hpp
        exact (List.mem_erase_of_ne hut).2 hu'
      · exact hu'
  · obtain ⟨r, hr, hmem'⟩ := h.held u hu
    exact (awaken_swapped hmem).held ⟨rfl, rfl⟩ hr hmem'

/-- The next step of a call of `Wakeup`. -/
theorem Suspends.wakeup (h : Suspends s) (hlinks : Links s) (hw : s.wakeups[k]? = some w)
    (hs : s.wakeup k w = some s') : Suspends s' := by
  have hcall := h.calls w (List.mem_of_getElem? hw)
  cases hplace : w.place with
  | lock =>
    rw [State.wakeup, hplace, Option.some.injEq] at hs
    subst hs
    split
    · exact h.of_kept (kept_setWakeup h hw rfl rfl rfl (by rw [hplace]; rfl) (by simp))
    · have hinc : Kept s (s.incRef w.task) := kept_same rfl rfl rfl rfl
      exact (h.of_kept hinc).of_kept (kept_setWakeup (h.of_kept hinc) hw rfl rfl rfl
        (by rw [hplace]; rfl) (by simp))
  | proc =>
    rw [State.wakeup, hplace, Option.some.injEq] at hs
    subst hs
    refine h.of_kept (kept_setWakeup h hw rfl rfl rfl ?_ fun p hp _ => ?_)
    · rw [hplace]
      cases s.proc w.task <;> rfl
    · cases hproc : s.proc w.task with
      | none =>
        rw [hproc] at hp
        simp at hp
      | some r =>
        rw [hproc] at hp
        simp only [WakeupPlace.check.injEq, reduceCtorEq, or_false] at hp
        rw [hp]
  | check p =>
    rw [State.wakeup, hplace, Option.some.injEq] at hs
    subst hs
    refine h.of_kept (kept_setWakeup h hw rfl rfl rfl ?_ fun p' hp' hid => ?_)
    · rw [hplace]
      split <;> rfl
    · have hproc := hcall.proc p (.inl hplace) hid
      dsimp only at hp'
      rw [if_neg (not_not.2 hid)] at hp'
      simp only [reduceCtorEq, WakeupPlace.locked.injEq, false_or] at hp'
      rwa [← hp']
  | locked p =>
    rw [State.wakeup, hplace] at hs
    rcases wakeupBySelf_cases hs with ⟨-, rfl⟩ | ⟨hid, hmem, rfl⟩
    · exact h.of_kept (kept_setWakeup h hw rfl rfl rfl (by rw [hplace]; rfl) (by simp))
    · refine h.awaken hlinks hw hplace hid hmem rfl rfl rfl ?_
      split <;> rfl
  | notify p =>
    rw [State.wakeup, hplace, Option.some.injEq] at hs
    subst hs
    have hnotify := kept_notifyCondition s p
    have hget : (s.notifyCondition p).wakeups[k]? = some w := by rw [notifyCondition_wakeups, hw]
    exact (h.of_kept hnotify).of_kept (kept_setWakeup (h.of_kept hnotify) hget rfl rfl rfl
      (by rw [hplace]; rfl) (by simp))
  | drop result =>
    rw [State.wakeup, hplace, Option.some.injEq] at hs
    subst hs
    have hdec := kept_decRef s w.task
    have hget : (s.decRef w.task).wakeups[k]? = some w := by rw [decRef_wakeups, hw]
    exact (h.of_kept hdec).of_kept (kept_setWakeup (h.of_kept hdec) hget rfl rfl rfl
      (by rw [hplace]; rfl) (by simp))
  | done result =>
    rw [State.wakeup, hplace, Option.some.injEq] at hs
    exact hs ▸ h

/-! ## Every step -/

/-- Nothing is known about a new task. -/
theorem Suspends.create (h : Suspends s) (hlinks : Links s) (hbooks : Books s) (p : Nat) :
    Suspends (s.create p) := by
  have hentries : s.suspensions s.created = 0 := by
    unfold State.suspensions
    rw [List.countP_eq_zero]
    intro e he
    have hlt := hbooks.entries e he
    simp only [decide_eq_true_eq]
    omega
  have hwoken : s.woken s.created = 0 := by
    unfold State.woken
    rw [tally_eq_zero]
    intro w hw
    have hlt := hbooks.known w hw
    exact if_neg (by omega)
  have hrunning : ∀ p' u, s.runningTask p' = some u → u ≠ s.created :=
    fun p' u hu => Nat.ne_of_lt (hlinks.knownRunning p' u hu)
  refine ⟨h.entries, fun w hw => ⟨(h.calls w hw).id, (h.calls w hw).ran, fun p' hp' heq => ?_⟩,
    h.once, fun p' u hp' hu => ?_, fun p' u hu => ?_, fun u hu hwait hnot => ?_,
    fun p' u hp' hu => ?_, fun u hu => ?_⟩
  · have hne : w.task ≠ s.created := Nat.ne_of_lt (hbooks.known w hw)
    have heq : w.id = Function.update s.suspendId s.created 0 w.task := heq
    rw [Function.update_of_ne hne] at heq
    show Function.update s.proc s.created none w.task = some p'
    rw [Function.update_of_ne hne]
    exact (h.calls w hw).proc p' hp' heq
  · show s.woken u = s.suspensions u ∧ Function.update s.suspendId s.created 0 u = _
    rw [Function.update_of_ne (hrunning p' u hu)]
    exact h.suspending p' u hp' hu
  · rw [create_other s p (by simp)] at hu
    have hne : u ≠ s.created := Nat.ne_of_lt (hlinks.known _ u hu)
    show s.suspensions u = s.woken u + 1 ∧ Function.update s.suspendId s.created 0 u = _ ∧
      Function.update s.proc s.created none u = _
    rw [Function.update_of_ne hne, Function.update_of_ne hne]
    exact h.suspended p' u hu
  · show s.woken u = s.suspensions u ∧
      Function.update s.suspendId s.created 0 u = 2 * s.suspensions u % 2 ^ 64
    by_cases hut : u = s.created
    · subst hut
      rw [hwoken, hentries, Function.update_self]
      exact ⟨rfl, rfl⟩
    · rw [Function.update_of_ne hut]
      have hlt : u < s.created + 1 := hu
      refine h.awake u (by omega) (fun p' hu' => hwait p' ?_) hnot
      rwa [create_other s p (by simp)]
  · show Function.update s.proc s.created none u = some p'
    rw [Function.update_of_ne (hrunning p' u hu)]
    exact h.placed p' u hp' hu
  · have hu : Function.update s.taskState s.created .runnable u = .block := hu
    by_cases hut : u = s.created
    · rw [hut, Function.update_self] at hu
      cases hu
    · rw [Function.update_of_ne hut] at hu
      obtain ⟨r, hr, hmem⟩ := h.held u hu
      refine ⟨r, hr, ?_⟩
      rwa [create_other]
      rintro rfl
      cases hr

/-- A task that is finished has not suspended itself. -/
theorem kept_finish (hp : s.place p = .running) (t : Nat) : Kept s ({ s with
    taskState := Function.update s.taskState t .done }.goto p .switch) := by
  have hsame : SameRunning s (s.goto p .switch) :=
    sameRunning_goto (by rw [hp]; nofun) ⟨nofun, nofun⟩
  refine ⟨⟨hsame.suspending, hsame.running⟩, rfl, rfl, rfl, fun w hw => .inl hw, rfl, rfl, rfl,
    fun _ => rfl, fun u hu => ⟨?_, fun h => h⟩⟩
  have hu : Function.update s.taskState t .done u = .block := hu
  by_cases hut : u = t
  · rw [hut, Function.update_self] at hu
    cases hu
  · rwa [Function.update_of_ne hut] at hu

theorem kept_steal (hk : s.queues (.stolen k) = []) : Kept s (s.steal k p n) := by
  have hperm : ((State.popSome n (s.queues (.new p))).1 ++
      (State.popSome n (s.queues (.new p))).2).Perm (s.queues (.new p) ++ s.queues (.stolen k)) := by
    rw [hk, List.append_nil]
    exact popSome_perm n _
  have hswap : Swapped s (s.steal k p n) (.new p) (.stolen k) _ _ :=
    ⟨steal_queues k p n s, by simp, hperm, rfl, rfl⟩
  have hprotocol : (s.steal k p n).protocol = s.protocol := by
    unfold State.steal
    dsimp only
    split <;> rfl
  refine hswap.kept_live hprotocol (.refl (steal_rest k p n s).1 (steal_threads k p n s).1)
    (fun _ => ⟨nofun, nofun⟩) ⟨rfl, rfl⟩

theorem kept_stealRest (hlinks : Links s) (hs : s.stealRest k p n = some s') : Kept s s' := by
  obtain ⟨D, C, heq, -⟩ := hlinks.stealRest_eq (p := p) (k := k) (n := n)
  rw [heq, Option.some.injEq] at hs
  subst hs
  have hswap : Swapped s { s.stealt k p n with deletions := D, taskCount := C }
      (.runnable p) (.stolen k) _ _ := ⟨rfl, by simp, hlinks.stealt_perm _, rfl, rfl⟩
  exact hswap.kept_live rfl (.refl rfl rfl) (fun _ => ⟨nofun, nofun⟩) ⟨rfl, rfl⟩

/-- Tasks go from one list of the dispatcher to another one, or to `newQueue_`. -/
theorem kept_lists (hne : q ≠ q') (hq : q.hooked = true) (hq' : q'.hooked = true) {xs ys : List Nat}
    (hperm : (xs ++ ys).Perm (s.queues q ++ s.queues q')) (hwait : ∀ p, q ≠ .wait p ∧ q' ≠ .wait p)
    (hlive : q.live = true ∧ q'.live = true) : Kept s ((s.setQueue q xs).setQueue q' ys) := by
  have hswap : Swapped s ((s.setQueue q xs).setQueue q' ys) q q' xs ys := ⟨rfl, hne, hperm, hq, hq'⟩
  exact hswap.kept_live rfl (.refl rfl rfl) hwait hlive

theorem Suspends.thread (h : Suspends s) (hlinks : Links s) (he : Enabled s (.thread p) = true)
    (hs : s.thread p = some s') : Suspends s' := by
  cases hplace : s.place p with
  | swapIn =>
    rw [State.thread, hplace] at hs
    exact h.swapIn hlinks hplace hs
  | suspending =>
    rw [State.thread, hplace] at hs
    exact h.suspendBySelf hlinks hplace hs
  | _ => exact h.of_kept (kept_thread hlinks he (by rw [hplace]; simp) hs)

theorem Suspends.step (h : Suspends s) (hlinks : Links s) (hbooks : Books s) {a : Action}
    (he : Enabled s a = true) (hfew : FewSuspensions s a) (hs : Scheduler.step s a = some s') :
    Suspends s' := by
  cases a with
  | create p =>
    cases hs
    exact h.create hlinks hbooks p
  | adder k =>
    obtain ⟨a, -, rfl⟩ := Option.map_eq_some_iff.1 hs
    exact h.of_kept (kept_adder s k a)
  | thread p => exact h.thread hlinks he hs
  | yield p =>
    cases hs
    simp only [Enabled, Bool.and_eq_true, decide_eq_true_eq] at he
    exact h.of_kept (kept_goto (by rw [he.1]; simp) (by simp))
  | suspend p =>
    simp only [Enabled, Bool.and_eq_true, decide_eq_true_eq, Runs] at he
    obtain ⟨t, hr, rfl⟩ := Option.map_eq_some_iff.1 hs
    have hstate := he.2
    have hfew : (s.runningTask p).all (fun t => s.suspensions t < 2 ^ 63) = true := hfew
    rw [hr, Option.any_some, decide_eq_true_eq] at hstate
    rw [hr, Option.all_some, decide_eq_true_eq] at hfew
    exact h.suspend hlinks he.1.1 hr hstate hfew
  | finish p =>
    simp only [Enabled, Bool.and_eq_true, decide_eq_true_eq] at he
    obtain ⟨t, -, rfl⟩ := Option.map_eq_some_iff.1 hs
    exact h.of_kept (kept_finish he.1.1 t)
  | spurious p =>
    cases hs
    simp only [Enabled, decide_eq_true_eq] at he
    exact h.of_kept (kept_goto (by rw [he]; simp) (by simp))
  | wake caller t id =>
    cases hs
    simp only [Enabled, Bool.and_eq_true, List.contains_iff_mem] at he
    exact h.of_kept (kept_wake h he.1)
  | wakeup k =>
    obtain ⟨w, hw, hs⟩ := Option.bind_eq_some_iff.1 hs
    exact h.wakeup hlinks hw hs
  | steal k p n =>
    cases hs
    simp only [Enabled, Bool.and_eq_true, decide_eq_true_eq] at he
    exact h.of_kept (kept_steal he.1)
  | stealRest k =>
    obtain ⟨r, -, hr⟩ := Option.bind_eq_some_iff.1 hs
    exact h.of_kept (kept_stealRest hlinks hr)
  | append k k' =>
    cases hs
    simp only [Enabled, Bool.and_eq_true, decide_eq_true_eq] at he
    have hne : Queue.stolen k ≠ .stolen k' := by simpa using he.1.1
    exact h.of_kept (kept_lists hne rfl rfl (by rw [List.append_nil]) (fun _ => (by simp))
      ⟨rfl, rfl⟩)
  | cut k k' n =>
    cases hs
    simp only [Enabled, Bool.and_eq_true, decide_eq_true_eq] at he
    have hne : Queue.stolen k' ≠ .stolen k := by simpa using Ne.symm he.1.1.1
    refine h.of_kept (kept_lists hne rfl rfl ?_ (fun _ => (by simp)) ⟨rfl, rfl⟩)
    rw [he.2, List.take_append_drop, List.nil_append]
  | addTask k p =>
    cases hs
    have hne : Queue.new p ≠ .stolen k := by simp
    have hlists : Kept s ((s.setQueue (.new p) (s.queues (.new p) ++
        s.queues (.stolen k))).setQueue (.stolen k) []) :=
      kept_lists hne rfl rfl (by rw [List.append_nil]) (fun _ => (by simp)) ⟨rfl, rfl⟩
    exact h.of_kept (hlists.trans (kept_notifyCondition _ p))
  | notify p =>
    cases hs
    exact h.of_kept (kept_notifyCondition s p)
  | stop =>
    cases hs
    exact h.of_kept (kept_same rfl rfl rfl rfl)

theorem suspends_initial : Suspends State.initial := by
  refine ⟨fun _ => rfl, nofun, fun _ _ => rfl, nofun, nofun, nofun, nofun, nofun⟩

end Costream.Scheduler
