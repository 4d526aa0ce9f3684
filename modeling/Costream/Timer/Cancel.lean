import Costream.Timer.Refine

/-!
# What `StopTimer` returns

`StopTimer` returns true when the callback has not been invoked and never will
be.  The lock `active_` is to decide between `cancel` and `call`, but `call`
gives it back when the callback returns: `StopTimer` on a timer that has fired
gets the lock and returns true (`stopTimer_true_after_fire`).

As long as every action comes in time the answer is right:
`stopTimer_true_iff`.
-/

namespace Costream.Timer

open Trace

variable {F : Type*}

/-- What `StopTimer` is to return: true exactly when the callback is not invoked
in the whole run and `StopTimer` has not returned true before; so it returns
true at most once for each timer. -/
structure StopsRight (log : List (Event F)) : Prop where
  iff : ∀ later n ret earlier, log = later ++ .stopped n ret :: earlier →
    (ret = true ↔ ¬ Fired log n ∧ ¬ Stopped earlier n)
  once : ∀ later n earlier, log = later ++ .stopped n true :: earlier →
    ¬ Stopped later n ∧ ¬ Stopped earlier n

section Consistent

variable {log later earlier : List (Event F)} {n : Nat}

theorem fired_append : Fired (later ++ earlier) n ↔ Fired later n ∨ Fired earlier n := by
  constructor
  · rintro ⟨cb, tp, clock, hmem⟩
    rcases List.mem_append.1 hmem with hmem | hmem
    · exact Or.inl ⟨cb, tp, clock, hmem⟩
    · exact Or.inr ⟨cb, tp, clock, hmem⟩
  · rintro (⟨cb, tp, clock, hmem⟩ | ⟨cb, tp, clock, hmem⟩)
    · exact ⟨cb, tp, clock, List.mem_append_left _ hmem⟩
    · exact ⟨cb, tp, clock, List.mem_append_right _ hmem⟩

theorem Consistent.right (h : Consistent (later ++ earlier)) : Consistent earlier := by
  induction later with
  | nil => exact h
  | cons ev later ih =>
    cases ev with
    | fired => exact ih h.2.2
    | stopped => exact ih h.2

/-- After `StopTimer` has returned true, neither the callback nor another
success follows. -/
theorem Consistent.after_stop (h : Consistent (later ++ earlier))
    (hs : Stopped earlier n) : ¬ Fired later n ∧ ¬ Stopped later n := by
  induction later with
  | nil => exact ⟨fun ⟨_, _, _, hev⟩ => List.not_mem_nil hev, List.not_mem_nil⟩
  | cons ev later ih =>
    have hpast : Stopped (later ++ earlier) n := List.mem_append_right _ hs
    cases ev with
    | fired m cb tp clock =>
      obtain ⟨-, hns, hrest⟩ := h
      obtain ⟨h1, h2⟩ := ih hrest
      have hne : (Event.fired m cb tp clock).serial ≠ n := by
        intro he
        obtain rfl : m = n := he
        exact hns hpast
      exact ⟨(fired_cons_of_ne hne).not.2 h1, (stopped_cons_of_ne hne).not.2 h2⟩
    | stopped m ret =>
      obtain ⟨hret, hrest⟩ := h
      obtain ⟨h1, h2⟩ := ih hrest
      refine ⟨fired_cons_stopped.not.2 h1, fun hmem => ?_⟩
      rcases List.mem_cons.1 hmem with he | hmem
      · cases he
        exact (hret.1 rfl).2 hpast
      · exact h2 hmem

theorem Consistent.stopsRight (h : Consistent log) : StopsRight log where
  iff later n ret earlier hlog := by
    subst hlog
    have hret := (h.right : Consistent (.stopped n ret :: earlier)).1
    constructor
    · rintro rfl
      obtain ⟨hnf, hns⟩ := hret.1 rfl
      refine ⟨fun hf => ?_, hns⟩
      rcases fired_append.1 hf with hf | hf
      · exact (h.after_stop stopped_cons_self).1 hf
      · exact hnf (fired_cons_stopped.1 hf)
    · rintro ⟨hnf, hns⟩
      exact hret.2 ⟨fun hf => hnf (fired_append.2 (Or.inr (fired_cons_stopped.2 hf))), hns⟩
  once later n earlier hlog := by
    subst hlog
    have hret := (h.right : Consistent (.stopped n true :: earlier)).1
    exact ⟨(h.after_stop stopped_cons_self).2, (hret.1 rfl).2⟩

end Consistent

/-- In every run whose actions come in time, `StopTimer` returns what it is to
return. -/
theorem stopTimer_true_iff [Inhabited F] {cfg : Config} {s : State F}
    (h : Run (machine cfg) InTime (State.initial cfg) s) : StopsRight s.log := by
  obtain ⟨st, ν, hlife⟩ := alive_of_run (fun _ _ hok => hok) h
  exact hlife.consistent.stopsRight

/-- Two copies of one `TimerId` are stopped: the first answer is true, the
second false. -/
theorem stopTimer_true_iff_copies : ∃ s : State Unit,
    s.log = [.stopped 0 false, .stopped 0 true] ∧ StopsRight s.log := by
  have hrun : ((machine Config.zero).exec InTime (State.initial Config.zero)
      [.startTimer 1 (), .copyId ⟨0, 0⟩, .stopTimer ⟨0, 0⟩, .stopTimer ⟨0, 0⟩]).any
      (fun s : State Unit => decide (s.log = [.stopped 0 false, .stopped 0 true])) := by
    decide +kernel
  obtain ⟨s, hs, hlog⟩ := Run.exists_of_exec hrun
  exact ⟨s, of_decide_eq_true hlog, stopTimer_true_iff hs⟩

/-- A timer has fired, and then `StopTimer` on a copy of its `TimerId` returns
true. -/
theorem stopTimer_true_after_fire : ∃ s : State Unit,
    Run (machine Config.zero) anyAction (State.initial Config.zero) s ∧
      s.log = [.stopped 0 true, .fired 0 () 0 0] ∧ ¬ StopsRight s.log := by
  have hrun : ((machine Config.zero).exec anyAction (State.initial Config.zero)
      [.startTimer 0 (), .copyId ⟨0, 0⟩, .runOnce, .loop, .loop, .loop, .loop,
        .stopTimer ⟨0, 0⟩]).any
      (fun s : State Unit => decide (s.log = [.stopped 0 true, .fired 0 () 0 0])) := by
    decide +kernel
  obtain ⟨s, hs, hlog⟩ := Run.exists_of_exec hrun
  have hlog := of_decide_eq_true hlog
  refine ⟨s, hs, hlog, fun hright => ?_⟩
  rw [hlog] at hright
  have := (hright.iff [] 0 true [.fired 0 () 0 0] rfl).1 rfl
  exact this.1 ⟨(), 0, 0, by simp⟩

end Costream.Timer
