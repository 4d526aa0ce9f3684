import Costream.Timer.Refine

/-!
# Callbacks are not invoked early

`Trigger` invokes the callbacks of a slot without a look at their deadlines.
That is right for a slot of level 0, which comes up at the due tick of its
timers.  It is wrong in two situations.

* When `RunOnce` is late it triggers slots of a higher level as a whole.  The
  first slot of level 1 holds the timers of the ticks 256 to 511, and all of
  them are fired when `RunOnce` comes at tick 257 for the first time.
* A callback starts a timer in the middle of the sweep: `point_` stands at the
  destination already, and the new timer can get into a slot that the sweep has
  still to trigger (`fired_early`).

`OnTimeOk` excludes the two, and then `fired_on_time` holds.
-/

namespace Costream.Timer

open Trace

variable {F : Type*}

/-- The action comes in time.  A clock reading of `RunOnce` finds no timer that
its sweep would trigger early, and a callback starts none. -/
def OnTimeOk (cfg : Config) (s : State F) (a : Act F) : Prop :=
  InTime s a ∧ (a = .loop → s.ReadsClock → s.abs.ReadOnTime cfg) ∧
    ∀ tp cb, a = .startTimer tp cb → s.abs.StartOnTime cfg tp

section Abs

variable {cfg : Config} {s : State F}

theorem sound_initial : (State.initial cfg : State F).abs.Sound cfg where
  last_le := by simp [State.abs, State.initial, Config.lastTime]
  clock_lt := by
    have := cfg.begin_lt
    simp only [State.abs, State.initial]
    omega
  tp_lt q x hx := by
    obtain ⟨p, -, hmem, -⟩ := hx
    exact absurd hmem List.not_mem_nil
  frame f hf := by simp [State.abs, State.initial] at hf
  sweep f swept turned σ hφ := by simp [State.abs, State.initial] at hφ

theorem pending_initial (q : QueueRef) :
    (State.initial cfg : State F).abs.pending q = ∅ :=
  pending_eq_empty rfl

end Abs

theorem OnTimeOk.label {cfg : Config} {s : State F} {a : Act F} {l : Service.Label}
    (h : OnTimeOk cfg s a) (hl : ActLabel s a l) : l.OnTime cfg s.abs := by
  obtain ⟨-, hread, hstart⟩ := h
  cases l with
  | start tp =>
    obtain ⟨cb, rfl⟩ := hl
    exact hstart tp cb rfl
  | read => exact hread hl.1 hl.2
  | client | loop => trivial

/-- In every run of this kind, every callback is invoked at a time that is not
before its deadline. -/
theorem fired_on_time [Inhabited F] {cfg : Config} {s : State F}
    (h : Run (machine cfg) (OnTimeOk cfg) (State.initial cfg) s) :
    ∀ n cb tp clock, .fired n cb tp clock ∈ s.log → tp ≤ clock := by
  have h₀ : (State.initial cfg : State F).abs.OnTime cfg :=
    { sound := sound_initial
      low := fun r x hx => by simp [pending_initial] at hx
      complete := fun x hx => by simp [pending_initial] at hx
      idle := fun _ => pending_initial _
      batch := fun _ x hx => by simp [pending_initial] at hx
      swept := fun f swept turned σ hφ => by simp [State.abs, State.initial] at hφ
      fired := fun n cb tp clock hev => by simp [State.abs, State.initial] at hev }
  have hrun := abs_invariant (P := Service.OnTime cfg) h Alive.initial
    (fun _ _ hok => hok.1) h₀
    fun t a l a' hok hl hP hs => hP.step hs (hok.label hl)
  exact hrun.2.fired

/-- A timer of tick 0 is started at tick 0 and fires when `RunOnce` comes at
tick 2. -/
theorem fired_on_time_once : ∃ s : State Unit,
    s.log = [.fired 0 () 0 200000] ∧
      ∀ n cb tp clock, .fired n cb tp clock ∈ s.log → tp ≤ clock := by
  have hrun : ((machine Config.zero).exec
      (fun s a => InTime s a ∧ (s.queue .slist = [] ∨ a matches .startTimer _ _ → s.loop = none))
      (State.initial Config.zero)
      [.startTimer 0 (), .tick 200000, .runOnce, .loop]).any
      (fun s : State Unit => decide (s.log = [.fired 0 () 0 200000])) := by
    decide +kernel
  obtain ⟨s, hs, hlog⟩ := Run.exists_of_exec hrun
  refine ⟨s, of_decide_eq_true hlog, fired_on_time (hs.mono ?_)⟩
  rintro t a ⟨hin, hidle⟩
  refine ⟨hin, ?_, ?_⟩
  · rintro rfl ⟨hloop, hq⟩
    rw [hidle (Or.inl hq)] at hloop
    cases hloop
  · rintro tp cb rfl f swept turned σ hφ
    rw [State.abs, hidle (Or.inr rfl)] at hφ
    cases hφ

/-- A timer due at tick 257 is started by a callback in the sweep to tick 2, and
fires in this sweep. -/
theorem fired_early : ∃ s : State Unit,
    Run (machine Config.zero) anyAction (State.initial Config.zero) s ∧
      ∃ n cb tp clock, .fired n cb tp clock ∈ s.log ∧ clock < tp := by
  have hrun : ((machine Config.zero).exec anyAction (State.initial Config.zero)
      [.startTimer 1 (), .tick 200000, .runOnce, .loop, .loop, .loop,
        .startTimer 25700000 (), .loop, .loop, .loop, .loop]).any
      (fun s : State Unit => decide (.fired 1 () 25700000 200000 ∈ s.log)) := by
    decide +kernel
  obtain ⟨s, hs, hlog⟩ := Run.exists_of_exec hrun
  exact ⟨s, hs, 1, (), 25700000, 200000, of_decide_eq_true hlog, by decide⟩

end Costream.Timer
