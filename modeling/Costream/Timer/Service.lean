import Costream.Timer.Machine
import Mathlib.Data.Set.Insert

/-!
# What a timer is for

`Service` is the timer without elements: a set of pending timers for every
queue, the tick `point`, the clock and the log.  `Service.Step` says what can
happen to it.  Reference counts, the pool and `TimerId`s do not appear here;
`Costream.Timer.Refine` shows that the machine with them takes no other steps.

* `Service.Sound` is what holds in every state, whatever the clients do.
* `Service.OnTime` is what makes callbacks come at their time.
* `Service.Filing` is what makes `RunOnce` find the due timers.

The last two are kept by a step under a condition on the clock reading of
`RunOnce` (`ReadOnTime`, `ReadInReach`), and the first also under one on a
`StartTimer` in the middle of the sweep (`StartOnTime`).
-/

namespace Costream.Timer

/-- A timer that has been started: its serial and its deadline. -/
structure Entry where
  serial : Nat
  tp : Int
  deriving DecidableEq

/-- The timers of a `Timer<F>`, with the phase of `RunOnce`. -/
@[ext]
structure Service (F : Type*) where
  point : Nat
  clock : Int
  started : Nat
  phase : Option Phase
  pending : QueueRef → Set Entry
  log : List (Event F)

/-- The tick in which a timer is due. -/
def Config.due (cfg : Config) (tp : Int) : Nat := (cfg.tick tp).toNat

namespace Service

variable {F : Type*}

/-- A timer enters a queue. -/
def put (a : Service F) (q : QueueRef) (x : Entry) : Service F :=
  { a with pending := Function.update a.pending q (insert x (a.pending q)) }

/-- A timer leaves a queue. -/
def take (a : Service F) (q : QueueRef) (x : Entry) : Service F :=
  { a with pending := Function.update a.pending q (a.pending q \ {x}) }

/-- All timers of queue `q` move to queue `q'`. -/
def pour (a : Service F) (q q' : QueueRef) : Service F :=
  { a with
    pending := Function.update (Function.update a.pending q ∅) q'
      (a.pending q' ∪ a.pending q) }

def withPhase (a : Service F) (phase : Option Phase) : Service F :=
  { a with phase := phase }

def record (a : Service F) (ev : Event F) : Service F :=
  { a with log := ev :: a.log }

/-- Where `StartTimer` puts a timer. -/
def home (cfg : Config) (a : Service F) (tp : Int) : QueueRef :=
  if tp ≤ cfg.lastTime a.point then .complete else .slot (place cfg a.point tp)

/-- The kinds of step: `StartTimer` and the clock reading of `RunOnce`, what else
the clients do, and what else `RunOnce` does. -/
inductive Label where
  | start (tp : Int)
  | read
  | client
  | loop

/-- The steps of a timer. -/
inductive Step (cfg : Config) (a : Service F) : Label → Service F → Prop where
  | start {tp : Int} : tp < 2 ^ 63 →
      Step cfg a (.start tp)
        { a.put (home cfg a tp) ⟨a.started, tp⟩ with started := a.started + 1 }
  | refuse {n : Nat} : Step cfg a .client (a.record (.stopped n false))
  | cancel {q : QueueRef} {x : Entry} : q = .complete ∨ (∃ r, q = .slot r) →
      x ∈ a.pending q →
      Step cfg a .client ((a.record (.stopped x.serial true)).take q x)
  | tick {d : Nat} : a.clock + d < 2 ^ 63 →
      Step cfg a .client { a with clock := a.clock + d }
  | call : a.phase = none →
      Step cfg a .client ((a.withPhase (some .complete)).pour .complete .slist)
  | fire {φ : Phase} {x : Entry} {cb : F} : a.phase = some φ →
      x ∈ a.pending .slist → (∀ f, φ = .final f → x.tp ≤ f.now) →
      Step cfg a .loop
        ((a.record (.fired x.serial cb x.tp a.clock)).take .slist x)
  | refile {f : Frame} {x : Entry} : a.phase = some (.final f) →
      x ∈ a.pending .slist → f.now < x.tp →
      Step cfg a .loop
        ((a.take .slist x).put (.slot (place cfg a.point x.tp)) x)
  | early : a.phase = some .complete → a.pending .slist = ∅ →
      cfg.destVal a.clock ≤ a.point → Step cfg a .read (a.withPhase none)
  | read : a.phase = some .complete → a.pending .slist = ∅ →
      a.point < cfg.destVal a.clock →
      Step cfg a .read
        { a with
          point := cfg.destVal a.clock
          phase := some (.sweep ⟨a.clock, a.point, cfg.destVal a.clock - a.point⟩
            a.point [] .init) }
  | trigger {f : Frame} {swept : Nat} {σ : Sweep} :
      a.phase = some (.sweep f swept [] σ) → a.pending .slist = ∅ → σ.i < f.delta →
      Step cfg a .loop
        ((a.withPhase (some (.sweep f (σ.pos f.last + 1) (σ.turned f.last)
          (σ.next f.last)))).pour (.slot (σ.triggered f.last)) .slist)
  | collect {f : Frame} {swept : Nat} {r : SlotRef} {rest : List SlotRef}
      {σ : Sweep} : a.phase = some (.sweep f swept (r :: rest) σ) →
      Step cfg a .loop
        ((a.withPhase (some (.sweep f swept rest σ))).pour (.slot r) .dispatchers)
  | swept {f : Frame} {swept : Nat} {σ : Sweep} :
      a.phase = some (.sweep f swept [] σ) → a.pending .slist = ∅ →
      f.delta ≤ σ.i →
      Step cfg a .loop
        ((a.withPhase (some (.final f))).pour .dispatchers .slist)
  | done {f : Frame} : a.phase = some (.final f) → a.pending .slist = ∅ →
      Step cfg a .loop (a.withPhase none)

/-! ## Queues -/

section Queues

variable {a a' : Service F} {q q' q'' : QueueRef} {x y : Entry}

theorem mem_put : y ∈ (a.put q x).pending q' ↔
    (q' = q ∧ y = x) ∨ y ∈ a.pending q' := by
  by_cases h : q' = q
  · subst h
    simp [put]
  · simp [put, h]

theorem mem_take : y ∈ (a.take q x).pending q' ↔
    y ∈ a.pending q' ∧ (q' = q → y ≠ x) := by
  by_cases h : q' = q
  · subst h
    simp [take]
  · simp [take, h]

theorem of_mem_pour (h : y ∈ (a.pour q q').pending q'') (hne : q ≠ q') :
    (q'' ≠ q ∧ y ∈ a.pending q'') ∨ (q'' = q' ∧ y ∈ a.pending q) := by
  by_cases h1 : q'' = q'
  · subst h1
    simpa [pour, hne.symm] using h
  · by_cases h2 : q'' = q
    · subst h2
      simp [pour, h1] at h
    · exact Or.inl ⟨h2, by simpa [pour, h1, h2] using h⟩

theorem exists_mem_pour (h : y ∈ a.pending q'') (hne : q ≠ q') :
    ∃ p, y ∈ (a.pour q q').pending p := by
  by_cases hq : q'' = q
  · subst hq
    exact ⟨q', by simp [pour, h]⟩
  · by_cases hq' : q'' = q'
    · subst hq'
      exact ⟨q'', by simp [pour, h]⟩
    · exact ⟨q'', by simp [pour, hq, hq', h]⟩

end Queues

/-! ## What a step does -/

section Step

variable {cfg : Config} {a a' : Service F} {l : Label} {x : Entry}

theorem Step.point_le (h : Step cfg a l a') : a.point ≤ a'.point := by
  cases h with
  | read _ _ hlt => exact hlt.le
  | _ => exact Nat.le_refl _

theorem Step.clock_le (h : Step cfg a l a') : a.clock ≤ a'.clock := by
  cases h with
  | tick => exact Int.le_add_of_nonneg_right (Int.natCast_nonneg _)
  | _ => exact Int.le_refl _

/-- A timer gets into a slot when it is started or filed again, always by its
deadline and `point_`. -/
theorem Step.mem_slot (h : Step cfg a l a') {r : SlotRef}
    (hx : x ∈ a'.pending (.slot r)) : x ∈ a.pending (.slot r) ∨
      (r = place cfg a.point x.tp ∧ a'.phase = a.phase ∧ a'.point = a.point ∧
        ((l = .start x.tp ∧ cfg.lastTime a.point < x.tp ∧ x.tp < 2 ^ 63) ∨
          ∃ f, a.phase = some (.final f) ∧ f.now < x.tp ∧ x ∈ a.pending .slist)) := by
  cases h with
  | @start tp htp =>
    rcases mem_put.1 hx with ⟨he, rfl⟩ | hx
    · rw [home] at he
      split at he
      · cases he
      · simp only [QueueRef.slot.injEq] at he
        exact Or.inr ⟨he, rfl, rfl, Or.inl ⟨rfl, Int.not_le.1 ‹_›, htp⟩⟩
    · exact Or.inl hx
  | refuse | tick | early | read | done => exact Or.inl hx
  | cancel | fire => exact Or.inl (mem_take.1 hx).1
  | refile hφ hmem hlt =>
    rcases mem_put.1 hx with ⟨he, rfl⟩ | hx
    · simp only [QueueRef.slot.injEq] at he
      exact Or.inr ⟨he, rfl, rfl, Or.inr ⟨_, hφ, hlt, hmem⟩⟩
    · exact Or.inl (mem_take.1 hx).1
  | call | trigger | collect | swept =>
    rcases of_mem_pour hx (by simp) with ⟨-, hx⟩ | ⟨he, -⟩
    · exact Or.inl hx
    · cases he

/-- A timer gets into `completeSlot_` when it is started after its deadline. -/
theorem Step.mem_complete (h : Step cfg a l a') (hx : x ∈ a'.pending .complete) :
    x ∈ a.pending .complete ∨
      (l = .start x.tp ∧ x.serial = a.started ∧ x.tp ≤ cfg.lastTime a.point) := by
  cases h with
  | start =>
    rcases mem_put.1 hx with ⟨he, rfl⟩ | hx
    · rw [home] at he
      split at he
      · rename_i hle
        exact Or.inr ⟨rfl, rfl, hle⟩
      · cases he
    · exact Or.inl hx
  | refuse | tick | early | read | done => exact Or.inl hx
  | cancel | fire => exact Or.inl (mem_take.1 hx).1
  | refile hφ hmem hlt =>
    rcases mem_put.1 hx with ⟨he, -⟩ | hx
    · cases he
    · exact Or.inl (mem_take.1 hx).1
  | call | trigger | collect | swept =>
    rcases of_mem_pour hx (by simp) with ⟨-, hx⟩ | ⟨he, -⟩
    · exact Or.inl hx
    · cases he

/-- `RunOnce` takes whole queues in hand. -/
theorem Step.mem_slist (h : Step cfg a l a') (hx : x ∈ a'.pending .slist) :
    x ∈ a.pending .slist ∨
      (a'.phase = some .complete ∧ x ∈ a.pending .complete) ∨
      (∃ f swept σ, a.phase = some (.sweep f swept [] σ) ∧ σ.i < f.delta ∧
        (∃ swept' turned' σ', a'.phase = some (.sweep f swept' turned' σ')) ∧
        x ∈ a.pending (.slot (σ.triggered f.last))) ∨
      ((∃ f, a'.phase = some (.final f)) ∧ x ∈ a.pending .dispatchers) := by
  cases h with
  | start =>
    rcases mem_put.1 hx with ⟨he, -⟩ | hx
    · rw [home] at he
      split at he <;> cases he
    · exact Or.inl hx
  | refuse | tick | early | read | done => exact Or.inl hx
  | cancel | fire => exact Or.inl (mem_take.1 hx).1
  | refile hφ hmem hlt =>
    rcases mem_put.1 hx with ⟨he, -⟩ | hx
    · cases he
    · exact Or.inl (mem_take.1 hx).1
  | call =>
    rcases of_mem_pour hx (by simp) with ⟨-, hx⟩ | ⟨-, hx⟩
    · exact Or.inl hx
    · exact Or.inr (Or.inl ⟨rfl, hx⟩)
  | trigger hφ _ hi =>
    rcases of_mem_pour hx (by simp) with ⟨-, hx⟩ | ⟨-, hx⟩
    · exact Or.inl hx
    · exact Or.inr (Or.inr (Or.inl ⟨_, _, _, hφ, hi, ⟨_, _, _, rfl⟩, hx⟩))
  | collect =>
    rcases of_mem_pour hx (by simp) with ⟨-, hx⟩ | ⟨he, -⟩
    · exact Or.inl hx
    · cases he
  | swept =>
    rcases of_mem_pour hx (by simp) with ⟨-, hx⟩ | ⟨-, hx⟩
    · exact Or.inl hx
    · exact Or.inr (Or.inr (Or.inr ⟨⟨_, rfl⟩, hx⟩))

/-- Only a timer in hand is fired, and in `Dispatch(dispatchers, now)` only one
that is due. -/
theorem Step.mem_log (h : Step cfg a l a') {n : Nat} {cb : F} {tp clock : Int}
    (hev : .fired n cb tp clock ∈ a'.log) : .fired n cb tp clock ∈ a.log ∨
      (∃ φ, a.phase = some φ ∧ (∀ f, φ = .final f → tp ≤ f.now) ∧
        ⟨n, tp⟩ ∈ a.pending .slist ∧ clock = a.clock) := by
  cases h with
  | refuse | cancel =>
    rcases List.mem_cons.1 hev with he | hev
    · cases he
    · exact Or.inl hev
  | fire hφ hx hfin =>
    rcases List.mem_cons.1 hev with he | hev
    · cases he
      exact Or.inr ⟨_, hφ, hfin, hx, rfl⟩
    · exact Or.inl hev
  | _ => exact Or.inl hev

/-- A timer stays in a queue until it is fired or cancelled. -/
theorem Step.kept (h : Step cfg a l a') {q : QueueRef} (hx : x ∈ a.pending q) :
    Fired a'.log x.serial ∨ Stopped a'.log x.serial ∨ ∃ q', x ∈ a'.pending q' := by
  cases h with
  | start => exact Or.inr (Or.inr ⟨q, mem_put.2 (Or.inr hx)⟩)
  | refuse | tick | early | read | done => exact Or.inr (Or.inr ⟨q, hx⟩)
  | @cancel q' y _ hy =>
    by_cases hxy : x = y
    · subst hxy
      exact Or.inr (Or.inl (List.mem_cons_self))
    · exact Or.inr (Or.inr ⟨q, mem_take.2 ⟨hx, fun _ => hxy⟩⟩)
  | @fire φ y cb =>
    by_cases hxy : x = y
    · subst hxy
      exact Or.inl ⟨_, _, _, List.mem_cons_self⟩
    · exact Or.inr (Or.inr ⟨q, mem_take.2 ⟨hx, fun _ => hxy⟩⟩)
  | @refile f y =>
    by_cases hxy : x = y
    · subst hxy
      exact Or.inr (Or.inr ⟨_, mem_put.2 (Or.inl ⟨rfl, rfl⟩)⟩)
    · exact Or.inr (Or.inr ⟨q, mem_put.2 (Or.inr (mem_take.2 ⟨hx, fun _ => hxy⟩))⟩)
  | call | trigger | collect | swept => exact Or.inr (Or.inr (exists_mem_pour hx (by simp)))

/-- `RunOnce` returns when it has nothing in hand. -/
theorem Step.of_idle (h : Step cfg a l a') (hφ : a'.phase = none) :
    a.phase = none ∨ a.pending .slist = ∅ := by
  cases h with
  | call | read | trigger | collect | swept => cases hφ
  | early _ hslist | done _ hslist => exact Or.inr hslist
  | _ => exact Or.inl hφ

theorem Step.of_complete (h : Step cfg a l a') (hφ : a'.phase = some .complete) :
    a.phase = some .complete ∨ a.phase = none := by
  cases h with
  | early | read | trigger | collect | swept | done => cases hφ
  | call hφ₀ => exact Or.inr hφ₀
  | _ => exact Or.inl hφ

/-- No log entry is lost. -/
theorem Step.log_suffix (h : Step cfg a l a') : a.log <:+ a'.log := by
  cases h with
  | refuse | cancel | fire => exact List.suffix_cons _ _
  | _ => exact List.suffix_refl _

end Step

/-! ## What holds in every state -/

/-- The variables of `RunOnce` after the clock reading: the destination is the
tick of the reading, and `point_` has been moved there. -/
structure FrameOk (cfg : Config) (a : Service F) (f : Frame) : Prop where
  dest_eq : f.dest = a.point
  tick_eq : (f.dest : Int) = cfg.tick f.now
  now_le : f.now ≤ a.clock

/-- The clock has reached `point_`, and the counters of the loop are right. -/
structure Sound (cfg : Config) (a : Service F) : Prop where
  last_le : cfg.lastTime a.point ≤ a.clock
  clock_lt : a.clock < 2 ^ 63
  tp_lt : ∀ q, ∀ x ∈ a.pending q, x.tp < 2 ^ 63
  frame : ∀ f, (∃ swept turned σ, a.phase = some (.sweep f swept turned σ)) ∨
    a.phase = some (.final f) → FrameOk cfg a f
  sweep : ∀ f swept turned σ, a.phase = some (.sweep f swept turned σ) →
    SweepInv f.last σ ∧ swept ≤ floor σ.triggerLevel (f.last + σ.i)

section Sound

variable {cfg : Config} {a a' : Service F} {l : Label} {f : Frame}

theorem Sound.begin_le (h : Sound cfg a) : (cfg.begin_ : Int) ≤ a.clock :=
  (cfg.begin_le_lastTime a.point).trans h.last_le

theorem Sound.dest_lt (h : Sound cfg a) (hf : FrameOk cfg a f) :
    f.dest < 2 ^ 47 := by
  have h1 := cfg.tick_mono hf.now_le
  have h2 := cfg.tick_lt h.clock_lt
  have h3 := hf.tick_eq
  omega

/-- `point_` is where the reading of the clock has moved it. -/
theorem FrameOk.lastTime_le (hf : FrameOk cfg a f) :
    cfg.lastTime a.point ≤ f.now := by
  rw [cfg.lastTime_le_iff, ← hf.dest_eq, hf.tick_eq]

/-- The reading of the clock is not before `point_`. -/
theorem Sound.destVal_eq (h : Sound cfg a) :
    (cfg.destVal a.clock : Int) = cfg.tick a.clock :=
  cfg.destVal_eq h.begin_le h.clock_lt

theorem Sound.tp_step (h : Sound cfg a) (hs : Step cfg a l a') :
    ∀ q, ∀ x ∈ a'.pending q, x.tp < 2 ^ 63 := by
  intro q x hx
  cases hs with
  | start htp =>
    rcases mem_put.1 hx with ⟨-, rfl⟩ | hx
    · exact htp
    · exact h.tp_lt q x hx
  | refuse | tick | early | read | done => exact h.tp_lt q x hx
  | cancel | fire => exact h.tp_lt q x (mem_take.1 hx).1
  | refile _ hmem =>
    rcases mem_put.1 hx with ⟨-, rfl⟩ | hx
    · exact h.tp_lt _ x hmem
    · exact h.tp_lt q x (mem_take.1 hx).1
  | call | trigger | collect | swept =>
    rcases of_mem_pour hx (by simp) with ⟨-, hx⟩ | ⟨-, hx⟩
    · exact h.tp_lt _ x hx
    · exact h.tp_lt _ x hx

theorem Sound.step (h : Sound cfg a) (hs : Step cfg a l a') : Sound cfg a' := by
  have htp := h.tp_step hs
  cases hs with
  | start | refuse | cancel | fire | refile =>
    exact ⟨h.last_le, h.clock_lt, htp,
      fun f hf => ⟨(h.frame f hf).dest_eq, (h.frame f hf).tick_eq, (h.frame f hf).now_le⟩,
      h.sweep⟩
  | @tick d hd =>
    refine ⟨h.last_le.trans (Int.le_add_of_nonneg_right (Int.natCast_nonneg d)), hd, htp,
      fun f hf => ⟨(h.frame f hf).dest_eq, (h.frame f hf).tick_eq, ?_⟩, h.sweep⟩
    exact (h.frame f hf).now_le.trans (Int.le_add_of_nonneg_right (Int.natCast_nonneg d))
  | call | early | done =>
    refine ⟨h.last_le, h.clock_lt, htp, ?_, ?_⟩
    · rintro f (⟨_, _, _, hf⟩ | hf) <;> simp [withPhase, pour] at hf
    · intro _ _ _ _ hf
      simp [withPhase, pour] at hf
  | read hφ hslist hlt =>
    have hdest := h.destVal_eq
    refine ⟨?_, h.clock_lt, htp, ?_, ?_⟩
    · rw [cfg.lastTime_le_iff, hdest]
    · rintro f (⟨_, _, _, hf⟩ | hf)
      · simp only [Option.some.injEq, Phase.sweep.injEq] at hf
        obtain ⟨rfl, -⟩ := hf
        have hd : a.point + (cfg.destVal a.clock - a.point) = cfg.destVal a.clock := by
          omega
        exact ⟨hd, by rw [Frame.dest, hd, hdest], Int.le_refl _⟩
      · simp at hf
    · intro _ _ _ _ hf
      simp only [Option.some.injEq, Phase.sweep.injEq] at hf
      obtain ⟨rfl, rfl, rfl, rfl⟩ := hf
      exact ⟨SweepInv.init _, by simp [Sweep.init]⟩
  | @trigger f swept σ hφ hslist hi =>
    have hf := h.frame f (Or.inl ⟨_, _, _, hφ⟩)
    have hlt := h.dest_lt hf
    rw [Frame.dest] at hlt
    obtain ⟨hinv, hsw⟩ := h.sweep _ _ _ _ hφ
    refine ⟨h.last_le, h.clock_lt, htp, ?_, ?_⟩
    · rintro f' (⟨_, _, _, hf'⟩ | hf')
      · simp only [withPhase, pour, Option.some.injEq, Phase.sweep.injEq] at hf'
        obtain ⟨rfl, -⟩ := hf'
        exact ⟨hf.dest_eq, hf.tick_eq, hf.now_le⟩
      · simp [withPhase, pour] at hf'
    · intro _ _ _ _ hf'
      simp only [withPhase, pour, Option.some.injEq, Phase.sweep.injEq] at hf'
      obtain ⟨rfl, rfl, rfl, rfl⟩ := hf'
      have hb : f.last + σ.i < 2 ^ 47 := by omega
      rw [Sweep.pos_eq hb]
      exact hinv.next hb
  | @collect f swept r rest σ hφ =>
    have hf := h.frame f (Or.inl ⟨_, _, _, hφ⟩)
    refine ⟨h.last_le, h.clock_lt, htp, ?_, ?_⟩
    · rintro f' (⟨_, _, _, hf'⟩ | hf')
      · simp only [withPhase, pour, Option.some.injEq, Phase.sweep.injEq] at hf'
        obtain ⟨rfl, -⟩ := hf'
        exact ⟨hf.dest_eq, hf.tick_eq, hf.now_le⟩
      · simp [withPhase, pour] at hf'
    · intro _ _ _ _ hf'
      simp only [withPhase, pour, Option.some.injEq, Phase.sweep.injEq] at hf'
      obtain ⟨rfl, rfl, rfl, rfl⟩ := hf'
      exact h.sweep _ _ _ _ hφ
  | @swept f _ σ hφ =>
    have hf := h.frame f (Or.inl ⟨_, _, _, hφ⟩)
    refine ⟨h.last_le, h.clock_lt, htp, ?_, ?_⟩
    · rintro f' (⟨_, _, _, hf'⟩ | hf')
      · simp [withPhase, pour] at hf'
      · simp only [withPhase, pour, Option.some.injEq, Phase.final.injEq] at hf'
        subst hf'
        exact ⟨hf.dest_eq, hf.tick_eq, hf.now_le⟩
    · intro _ _ _ _ hf'
      simp [withPhase, pour] at hf'

end Sound

/-! ## Callbacks come at their time -/

/-- A clock reading moves `point_` only so far that no timer in a slot above
level 0 can be triggered with its slot before its deadline. -/
def ReadOnTime (cfg : Config) (a : Service F) : Prop :=
  ∀ r, ∀ x ∈ a.pending (.slot r), 0 < r.level →
    Triggers a.point (cfg.destVal a.clock) r a.point → x.tp ≤ a.clock

/-- A timer that is started in the middle of the sweep is due, or its slot is
not triggered any more. -/
def StartOnTime (cfg : Config) (a : Service F) (tp : Int) : Prop :=
  ∀ f swept turned σ, a.phase = some (.sweep f swept turned σ) →
    cfg.lastTime a.point < tp →
    Triggers f.last f.dest (place cfg a.point tp) swept → tp ≤ f.now

/-- The condition of `OnTime.step`. -/
def Label.OnTime (cfg : Config) (a : Service F) : Label → Prop
  | .read => ReadOnTime cfg a
  | .start tp => StartOnTime cfg a tp
  | .client | .loop => True

/-- The timers in the hands of `RunOnce` are due, and so are those in the slots
that the sweep is going to trigger. -/
structure OnTime (cfg : Config) (a : Service F) : Prop where
  sound : Sound cfg a
  low : ∀ r, ∀ x ∈ a.pending (.slot r), r.level = 0 →
    cfg.due x.tp ≤ a.point + 255 ∧ cfg.due x.tp % 256 = r.offset
  complete : ∀ x ∈ a.pending .complete, x.tp ≤ a.clock
  idle : a.phase = none → a.pending .slist = ∅
  batch : a.phase = some .complete → ∀ x ∈ a.pending .slist, x.tp ≤ a.clock
  swept : ∀ f swept turned σ, a.phase = some (.sweep f swept turned σ) →
    (∀ x ∈ a.pending .slist, x.tp ≤ f.now) ∧
      ∀ r, ∀ x ∈ a.pending (.slot r), Triggers f.last f.dest r swept → x.tp ≤ f.now
  fired : ∀ n cb tp clock, .fired n cb tp clock ∈ a.log → tp ≤ clock

section OnTime

variable {cfg : Config} {a a' : Service F} {l : Label}

/-- A slot of level 0 is triggered at the due ticks of its timers. -/
theorem lt_of_triggers {tp : Int} {r : SlotRef} {p q : Nat}
    (hlow : cfg.due tp ≤ p + 255 ∧ cfg.due tp % 256 = r.offset) (hr : r.level = 0)
    (ht : Triggers p q r p) : cfg.due tp < q := by
  obtain ⟨v, hpv, hvq, hv, -, hend⟩ := ht
  have hd : v % 256 = r.offset := by
    have := hv.2
    rwa [hr, Radix.digit, Nat.pow_zero, Nat.div_one] at this
  have hle := hend (by omega)
  rw [hr, catchUpEnd] at hle
  omega

/-- A timer that gets into a slot is properly filed there. -/
theorem Sound.filed_of_step (h : Sound cfg a) (hs : Step cfg a l a') {r : SlotRef}
    {x : Entry} (hx : x ∈ a'.pending (.slot r)) (hnot : x ∉ a.pending (.slot r)) :
    a'.phase = a.phase ∧ a'.point = a.point ∧ Filed a.point (cfg.due x.tp) r := by
  obtain ⟨rfl, hφ, hp, hin⟩ := (hs.mem_slot hx).resolve_left hnot
  refine ⟨hφ, hp, ?_⟩
  rcases hin with ⟨-, hlt, htp⟩ | ⟨f, hf, hlt, hmem⟩
  · exact place_filed cfg hlt.le htp
  · have hframe := h.frame f (Or.inr hf)
    exact place_filed cfg (hframe.lastTime_le.trans hlt.le) (h.tp_lt _ x hmem)

/-- The timers that the next clock reading of `RunOnce` makes due at level 0. -/
theorem OnTime.due_of_triggers (h : OnTime cfg a) (hr : ReadOnTime cfg a)
    {r : SlotRef} {x : Entry} (hx : x ∈ a.pending (.slot r))
    (ht : Triggers a.point (cfg.destVal a.clock) r a.point) : x.tp ≤ a.clock := by
  rcases Nat.eq_zero_or_pos r.level with h0 | h0
  · have hdue := lt_of_triggers (h.low r x hx h0) h0 ht
    have hdest := h.sound.destVal_eq
    refine (cfg.lt_of_tick_lt ?_).le
    rw [Config.due] at hdue
    omega
  · exact hr r x hx h0 ht

theorem OnTime.swept_step (h : OnTime cfg a) (hs : Step cfg a l a')
    (hl : l.OnTime cfg a) {f : Frame} {swept : Nat} {turned : List SlotRef}
    {σ : Sweep} (hφ : a'.phase = some (.sweep f swept turned σ)) :
    (∀ x ∈ a'.pending .slist, x.tp ≤ f.now) ∧
      ∀ r, ∀ x ∈ a'.pending (.slot r), Triggers f.last f.dest r swept → x.tp ≤ f.now := by
  by_cases hsame : a'.phase = a.phase
  · -- within the phase timers leave the queues, or they are started
    rw [hsame] at hφ
    obtain ⟨h1, h2⟩ := h.swept f swept turned σ hφ
    refine ⟨fun x hx => ?_, fun r x hx ht => ?_⟩
    · rcases hs.mem_slist hx with hx | ⟨hφ', -⟩ | ⟨f', _, _, hφ', hi, -, hx⟩ | ⟨⟨_, hφ'⟩, -⟩
      · exact h1 x hx
      · rw [hsame, hφ] at hφ'
        cases hφ'
      · rw [hφ] at hφ'
        cases hφ'
        have hdest := h.sound.dest_lt (h.sound.frame f (Or.inl ⟨_, _, _, hφ⟩))
        obtain ⟨hinv, hsw⟩ := h.sound.sweep _ _ _ _ hφ
        rw [Frame.dest] at hdest
        exact h2 _ x hx (hinv.triggers (by omega) (by rw [Frame.dest]; omega) hsw)
      · rw [hsame, hφ] at hφ'
        cases hφ'
    · rcases hs.mem_slot hx with hx | ⟨rfl, -, -, ⟨rfl, hlt, -⟩ | ⟨f', hf', -⟩⟩
      · exact h2 r x hx ht
      · exact hl f swept turned σ hφ hlt ht
      · rw [hφ] at hf'
        cases hf'
  · cases hs with
    | start | refuse | cancel | tick | fire | refile => exact absurd rfl hsame
    | call | early | swept | done => cases hφ
    | read hφ₀ hslist hlt =>
      cases hφ
      have hd : a.point + (cfg.destVal a.clock - a.point) = cfg.destVal a.clock := by
        omega
      refine ⟨fun x hx => ?_, fun r x hx ht => ?_⟩
      · have hx' : x ∈ a.pending .slist := hx
        rw [hslist] at hx'
        exact absurd hx' (Set.notMem_empty x)
      · rw [Frame.dest, hd] at ht
        exact h.due_of_triggers hl hx ht
    | @trigger f swept σ hφ₀ hslist hi =>
      cases hφ
      have hdest := h.sound.dest_lt (h.sound.frame f (Or.inl ⟨_, _, _, hφ₀⟩))
      obtain ⟨hinv, hsw⟩ := h.sound.sweep _ _ _ _ hφ₀
      obtain ⟨-, h2⟩ := h.swept _ _ _ _ hφ₀
      have hlt : f.last + σ.i < f.dest := by
        rw [Frame.dest]
        omega
      have hb : f.last + σ.i < 2 ^ 47 := hlt.trans hdest
      refine ⟨fun x hx => ?_, fun r x hx ht => ?_⟩
      · rcases of_mem_pour hx (by simp) with ⟨-, hx⟩ | ⟨-, hx⟩
        · have hx' : x ∈ a.pending .slist := hx
          rw [hslist] at hx'
          exact absurd hx' (Set.notMem_empty x)
        · exact h2 _ x hx (hinv.triggers hb hlt hsw)
      · rcases of_mem_pour hx (by simp) with ⟨-, hx⟩ | ⟨he, -⟩
        · refine h2 r x hx (ht.mono ?_)
          have := floor_le σ.triggerLevel (f.last + σ.i)
          rw [Sweep.pos_eq hb]
          omega
        · cases he
    | collect hφ₀ =>
      cases hφ
      obtain ⟨h1, h2⟩ := h.swept _ _ _ _ hφ₀
      refine ⟨fun x hx => ?_, fun r x hx ht => ?_⟩
      · rcases of_mem_pour hx (by simp) with ⟨-, hx⟩ | ⟨he, -⟩
        · exact h1 x hx
        · cases he
      · rcases of_mem_pour hx (by simp) with ⟨-, hx⟩ | ⟨he, -⟩
        · exact h2 r x hx ht
        · cases he

theorem OnTime.step (h : OnTime cfg a) (hs : Step cfg a l a') (hl : l.OnTime cfg a) :
    OnTime cfg a' where
  sound := h.sound.step hs
  low r x hx hr := by
    by_cases hold : x ∈ a.pending (.slot r)
    · obtain ⟨h1, h2⟩ := h.low r x hold hr
      exact ⟨h1.trans (Nat.add_le_add_right hs.point_le _), h2⟩
    · obtain ⟨-, hp, hfiled⟩ := h.sound.filed_of_step hs hx hold
      rw [hp]
      exact hfiled.low hr
  complete x hx := by
    rcases hs.mem_complete hx with hx | ⟨-, -, hle⟩
    · exact (h.complete x hx).trans hs.clock_le
    · exact hle.trans (h.sound.last_le.trans hs.clock_le)
  idle hφ := by
    refine Set.eq_empty_of_forall_notMem fun x hx => ?_
    rcases hs.mem_slist hx with hx | ⟨hφ', -⟩ | ⟨_, _, _, -, -, ⟨_, _, _, hφ'⟩, -⟩ | ⟨⟨_, hφ'⟩, -⟩
    · rcases hs.of_idle hφ with hφ' | hslist
      · rw [h.idle hφ'] at hx
        exact hx
      · rw [hslist] at hx
        exact hx
    all_goals
      rw [hφ] at hφ'
      cases hφ'
  batch hφ x hx := by
    rcases hs.mem_slist hx with hx | ⟨-, hx⟩ | ⟨_, _, _, -, -, ⟨_, _, _, hφ'⟩, -⟩ | ⟨⟨_, hφ'⟩, -⟩
    · rcases hs.of_complete hφ with hφ' | hφ'
      · exact (h.batch hφ' x hx).trans hs.clock_le
      · rw [h.idle hφ'] at hx
        exact absurd hx (Set.notMem_empty x)
    · exact (h.complete x hx).trans hs.clock_le
    all_goals
      rw [hφ] at hφ'
      cases hφ'
  swept f swept turned σ hφ := h.swept_step hs hl hφ
  fired n cb tp clock hev := by
    rcases hs.mem_log hev with hev | ⟨φ, hφ, hfin, hx, rfl⟩
    · exact h.fired n cb tp clock hev
    · -- the timer in hand is due on each of the paths
      cases φ with
      | complete => exact h.batch hφ _ hx
      | sweep f swept turned σ =>
        exact ((h.swept _ _ _ _ hφ).1 _ hx).trans
          (h.sound.frame f (Or.inl ⟨_, _, _, hφ⟩)).now_le
      | final f => exact (hfin f rfl).trans (h.sound.frame f (Or.inr hφ)).now_le

end OnTime

/-! ## `RunOnce` finds the due timers -/

/-- A clock reading moves `point_` only so far that the loop visits the slots
of the timers above level 3 before it leaves level 3. -/
def ReadInReach (cfg : Config) (a : Service F) : Prop :=
  a.point < cfg.destVal a.clock → ∀ r, ∀ x ∈ a.pending (.slot r), 4 ≤ r.level →
    InReach a.point (cfg.destVal a.clock) r

/-- The condition of `Filing.step`. -/
def Label.InReach (cfg : Config) (a : Service F) : Label → Prop
  | .read => ReadInReach cfg a
  | _ => True

/-- Every timer in a slot is properly filed, or the sweep has still to visit
its slot. -/
structure Filing (cfg : Config) (a : Service F) : Prop where
  sound : Sound cfg a
  filed : (∀ f swept turned σ, a.phase ≠ some (.sweep f swept turned σ)) →
    ∀ r, ∀ x ∈ a.pending (.slot r), Filed a.point (cfg.due x.tp) r
  ahead : ∀ f swept turned σ, a.phase = some (.sweep f swept turned σ) →
    ∀ r, ∀ x ∈ a.pending (.slot r), Filed f.dest (cfg.due x.tp) r ∨
      (Filed f.last (cfg.due x.tp) r ∧ Timer.InReach f.last f.dest r ∧
        Ahead f.last f.dest turned σ r)
  dispatchers : (∀ f swept turned σ, a.phase ≠ some (.sweep f swept turned σ)) →
    a.pending .dispatchers = ∅
  idle : a.phase = none → a.pending .slist = ∅
  begun : ∀ r, ∀ x ∈ a.pending (.slot r), (cfg.begin_ : Int) ≤ x.tp

section Filing

variable {cfg : Config} {a a' : Service F} {l : Label}

/-- A timer whose slot does not come up before the destination is properly
filed there. -/
theorem filed_of_finish {f : Frame} {σ : Sweep} {r : SlotRef} {due : Nat}
    (hi : f.delta ≤ σ.i) (h : Filed f.dest due r ∨
      (Filed f.last due r ∧ Timer.InReach f.last f.dest r ∧
        Ahead f.last f.dest [] σ r)) : Filed f.dest due r := by
  rcases h with h | ⟨h, -, ha⟩
  · exact h
  · refine h.advance (Nat.le_add_right _ _) (ha.finish ?_)
    rw [Frame.dest]
    omega

theorem Filing.ahead_step (h : Filing cfg a) (hs : Step cfg a l a')
    (hl : l.InReach cfg a) {f : Frame} {swept : Nat} {turned : List SlotRef}
    {σ : Sweep} (hφ : a'.phase = some (.sweep f swept turned σ)) :
    ∀ r, ∀ x ∈ a'.pending (.slot r), Filed f.dest (cfg.due x.tp) r ∨
      (Filed f.last (cfg.due x.tp) r ∧ Timer.InReach f.last f.dest r ∧
        Ahead f.last f.dest turned σ r) := by
  intro r x hx
  by_cases hold : x ∈ a.pending (.slot r)
  · by_cases hsame : a'.phase = a.phase
    · rw [hsame] at hφ
      exact h.ahead f swept turned σ hφ r x hold
    · cases hs with
      | start | refuse | cancel | tick | fire | refile => exact absurd rfl hsame
      | call | early | swept | done => cases hφ
      | read hφ₀ hslist hlt =>
        cases hφ
        have hd : a.point + (cfg.destVal a.clock - a.point) = cfg.destVal a.clock := by
          omega
        have hf := h.filed (by simp [hφ₀]) r x hold
        refine Or.inr ⟨hf, ?_, Ahead.init _ _ _⟩
        rw [Frame.dest, hd]
        rcases Nat.lt_or_ge r.level 4 with h4 | h4
        · exact inReach_of_level_le (by omega)
        · exact hl hlt r x hold h4
      | @trigger f swept σ hφ₀ hslist hi =>
        cases hφ
        rcases of_mem_pour hx (by simp) with ⟨hne, -⟩ | ⟨he, -⟩
        · rcases h.ahead _ _ _ _ hφ₀ r x hold with hf | ⟨hf, hreach, ha⟩
          · exact Or.inl hf
          · have hdest := h.sound.dest_lt (h.sound.frame f (Or.inl ⟨_, _, _, hφ₀⟩))
            rw [Frame.dest] at hdest
            have hinv := (h.sound.sweep _ _ _ _ hφ₀).1
            rcases ha.iterate hinv (by omega) hf.offset_lt hf.high hreach with he | ha
            · exact absurd (congrArg QueueRef.slot he) hne
            · exact Or.inr ⟨hf, hreach, ha⟩
        · cases he
      | collect hφ₀ =>
        cases hφ
        rcases of_mem_pour hx (by simp) with ⟨hne, -⟩ | ⟨he, -⟩
        · rcases h.ahead _ _ _ _ hφ₀ r x hold with hf | ⟨hf, hreach, ha⟩
          · exact Or.inl hf
          · refine Or.inr ⟨hf, hreach, ha.turn fun he => hne ?_⟩
            rw [he]
        · cases he
  · obtain ⟨hφ', hp, hfiled⟩ := h.sound.filed_of_step hs hx hold
    rw [hφ'] at hφ
    rw [← (h.sound.frame f (Or.inl ⟨_, _, _, hφ⟩)).dest_eq] at hfiled
    exact Or.inl hfiled

theorem Filing.filed_step (h : Filing cfg a) (hs : Step cfg a l a')
    (hφ : ∀ f swept turned σ, a'.phase ≠ some (.sweep f swept turned σ)) :
    ∀ r, ∀ x ∈ a'.pending (.slot r), Filed a'.point (cfg.due x.tp) r := by
  intro r x hx
  by_cases hold : x ∈ a.pending (.slot r)
  · by_cases hsame : ∀ f swept turned σ, a.phase ≠ some (.sweep f swept turned σ)
    · have hf := h.filed hsame r x hold
      cases hs with
      | read => exact absurd rfl (hφ _ _ _ _)
      | _ => exact hf
    · push Not at hsame
      obtain ⟨f, swept, turned, σ, hφ₀⟩ := hsame
      have ha := h.ahead _ _ _ _ hφ₀ r x hold
      have hd := (h.sound.frame f (Or.inl ⟨_, _, _, hφ₀⟩)).dest_eq
      cases hs with
      | start | refuse | cancel | tick | fire | refile => exact absurd hφ₀ (hφ _ _ _ _)
      | read | trigger | collect => exact absurd rfl (hφ _ _ _ _)
      | call hφ₁ | early hφ₁ | done hφ₁ =>
        rw [hφ₀] at hφ₁
        cases hφ₁
      | swept hφ₁ _ hi =>
        rw [hφ₀] at hφ₁
        cases hφ₁
        have := filed_of_finish hi ha
        rwa [hd] at this
  · obtain ⟨-, hp, hfiled⟩ := h.sound.filed_of_step hs hx hold
    rwa [hp]

theorem Filing.step (h : Filing cfg a) (hs : Step cfg a l a') (hl : l.InReach cfg a) :
    Filing cfg a' where
  sound := h.sound.step hs
  filed hφ := h.filed_step hs hφ
  ahead f swept turned σ hφ := h.ahead_step hs hl hφ
  dispatchers hφ := by
    refine Set.eq_empty_of_forall_notMem fun x hx => ?_
    cases hs with
    | start =>
      rcases mem_put.1 hx with ⟨he, -⟩ | hx
      · rw [home] at he
        split at he <;> cases he
      · rw [h.dispatchers hφ] at hx
        exact hx
    | refuse | tick =>
      have hx' : x ∈ a.pending .dispatchers := hx
      rw [h.dispatchers hφ] at hx'
      exact hx'
    | cancel | fire =>
      have hx' : x ∈ a.pending .dispatchers := (mem_take.1 hx).1
      rw [h.dispatchers hφ] at hx'
      exact hx'
    | refile hφ₀ =>
      rcases mem_put.1 hx with ⟨he, -⟩ | hx
      · cases he
      · have hx' : x ∈ a.pending .dispatchers := (mem_take.1 hx).1
        rw [h.dispatchers (by simp [hφ₀])] at hx'
        exact hx'
    | early hφ₀ | done hφ₀ =>
      have hx' : x ∈ a.pending .dispatchers := hx
      rw [h.dispatchers (by simp [hφ₀])] at hx'
      exact hx'
    | read | trigger | collect => exact absurd rfl (hφ _ _ _ _)
    | call hφ₀ =>
      rcases of_mem_pour hx (by simp) with ⟨-, hx⟩ | ⟨he, -⟩
      · have hx' : x ∈ a.pending .dispatchers := hx
        rw [h.dispatchers (by simp [hφ₀])] at hx'
        exact hx'
      · cases he
    | swept =>
      rcases of_mem_pour hx (by simp) with ⟨hne, -⟩ | ⟨he, -⟩
      · exact hne rfl
      · cases he
  idle hφ := by
    refine Set.eq_empty_of_forall_notMem fun x hx => ?_
    rcases hs.mem_slist hx with hx | ⟨hφ', -⟩ | ⟨_, _, _, -, -, ⟨_, _, _, hφ'⟩, -⟩ | ⟨⟨_, hφ'⟩, -⟩
    · rcases hs.of_idle hφ with hφ' | hslist
      · rw [h.idle hφ'] at hx
        exact hx
      · rw [hslist] at hx
        exact hx
    all_goals
      rw [hφ] at hφ'
      cases hφ'
  begun r x hx := by
    rcases hs.mem_slot hx with hx | ⟨-, -, -, ⟨-, hlt, -⟩ | ⟨f, hf, hlt, -⟩⟩
    · exact h.begun r x hx
    · exact (cfg.begin_le_lastTime a.point).trans hlt.le
    · have hle := (h.sound.frame f (Or.inr hf)).lastTime_le
      exact (cfg.begin_le_lastTime a.point).trans (hle.trans hlt.le)

end Filing

end Service

end Costream.Timer
