import Costream.Timer.OnTime
import Costream.Timer.Return

/-!
# `RunOnce` leaves no due timer behind

When `RunOnce` returns, the timers that were due have been fired, wherever
they were filed (`runOnce_fires_due`).

The table `additions` goes from `1 << 16` to `1 << 32`.  So the loop of a very
late `RunOnce`, which has covered level 3, goes on in steps of `1 << 40`
instead of `1 << 32`, and slots of level 4 are left out
(`runOnce_leaves_due`).  `DueOk` says that no timer is in such a slot when
`RunOnce` reads the clock.
-/

namespace Costream.Timer

open Trace

variable {F : Type*}

/-- The action comes in time, and a clock reading of `RunOnce` finds no timer
that its sweep would leave out. -/
def DueOk (cfg : Config) (s : State F) (a : Act F) : Prop :=
  InTime s a ∧ (a = .loop → s.ReadsClock → s.abs.ReadInReach cfg)

namespace Service

/-- The timer was pending when `RunOnce` was called, and has been pursued since
then. -/
structure Pursued (x : Entry) (a : Service F) : Prop where
  kept : Fired a.log x.serial ∨ Stopped a.log x.serial ∨ ∃ q, x ∈ a.pending q
  taken : x ∉ a.pending .complete
  started : x.serial < a.started

/-- `point_` has been moved to the tick `d`, or will be by the next clock
reading. -/
def Reaches (cfg : Config) (d : Nat) (a : Service F) : Prop :=
  d ≤ a.point ∨
    (a.phase = some .complete ∧ a.pending .slist = ∅ ∧ d ≤ cfg.destVal a.clock)

section Due

variable {cfg : Config} {a a' : Service F} {l : Label} {x : Entry} {d : Nat}

theorem Step.started_le (h : Step cfg a l a') : a.started ≤ a'.started := by
  cases h with
  | start => exact Nat.le_succ _
  | _ => exact Nat.le_refl _

theorem Pursued.step (h : Pursued x a) (hs : Step cfg a l a') : Pursued x a' where
  kept := by
    have hlog := hs.log_suffix.subset
    rcases h.kept with ⟨cb, tp, clock, hev⟩ | hev | ⟨q, hx⟩
    · exact Or.inl ⟨cb, tp, clock, hlog hev⟩
    · exact Or.inr (Or.inl (hlog hev))
    · exact hs.kept hx
  taken hx := by
    rcases hs.mem_complete hx with hx | ⟨-, he, -⟩
    · exact h.taken hx
    · have := h.started
      omega
  started := h.started.trans_le hs.started_le

theorem Reaches.step (h : Reaches cfg d a) (hsound : Sound cfg a)
    (hs : Step cfg a l a') : Reaches cfg d a' := by
  rcases h with h | ⟨hφ, hslist, hd⟩
  · exact Or.inl (h.trans hs.point_le)
  · cases hs with
    | start =>
      refine Or.inr ⟨hφ, ?_, hd⟩
      refine Set.eq_empty_of_forall_notMem fun y hy => ?_
      rcases mem_put.1 hy with ⟨he, -⟩ | hy
      · rw [home] at he
        split at he <;> cases he
      · rw [hslist] at hy
        exact hy
    | refuse => exact Or.inr ⟨hφ, hslist, hd⟩
    | cancel =>
      refine Or.inr ⟨hφ, ?_, hd⟩
      refine Set.eq_empty_of_forall_notMem fun y hy => ?_
      have hy' : y ∈ a.pending .slist := (mem_take.1 hy).1
      rw [hslist] at hy'
      exact hy'
    | @tick n hn =>
      refine Or.inr ⟨hφ, hslist, hd.trans ?_⟩
      have h1 := hsound.destVal_eq
      have h2 := (hsound.step (.tick hn)).destVal_eq
      have h3 : cfg.tick a.clock ≤ cfg.tick (a.clock + n) :=
        cfg.tick_mono (Int.le_add_of_nonneg_right (Int.natCast_nonneg n))
      dsimp only at h2 ⊢
      omega
    | call hφ' | trigger hφ' | collect hφ' | swept hφ' | done hφ' | refile hφ' =>
      rw [hφ] at hφ'
      cases hφ'
    | fire _ hx =>
      rw [hslist] at hx
      exact absurd hx (Set.notMem_empty _)
    | early _ _ hle => exact Or.inl (hd.trans hle)
    | read => exact Or.inl hd

/-- After `RunOnce` has returned, a timer it has pursued to its due tick has been
fired or stopped. -/
theorem Pursued.done (h : Pursued x a) (hf : Filing cfg a) (hidle : a.phase = none)
    (hpool : a.pending .pool = ∅) (hr : Reaches cfg d a) (hd : cfg.tick x.tp < d) :
    Fired a.log x.serial ∨ Stopped a.log x.serial := by
  have hpoint : d ≤ a.point := by
    rcases hr with hr | ⟨hφ, -⟩
    · exact hr
    · rw [hidle] at hφ
      cases hφ
  rcases h.kept with hev | hev | ⟨q, hx⟩
  · exact Or.inl hev
  · exact Or.inr hev
  · exfalso
    have hno : ∀ f swept turned σ, a.phase ≠ some (.sweep f swept turned σ) := by
      simp [hidle]
    cases q with
    | slot r =>
      have hle := (hf.filed hno r x hx).le_due
      have h0 : 0 ≤ cfg.tick x.tp := Int.ediv_nonneg
        (Int.sub_nonneg.2 (hf.begun r x hx)) (Int.natCast_nonneg _)
      rw [Config.due] at hle
      omega
    | complete => exact h.taken hx
    | pool =>
      rw [hpool] at hx
      exact hx
    | slist =>
      rw [hf.idle hidle] at hx
      exact hx
    | dispatchers =>
      rw [hf.dispatchers hno] at hx
      exact hx

end Due

end Service

theorem DueOk.label {cfg : Config} {s : State F} {a : Act F} {l : Service.Label}
    (h : DueOk cfg s a) (hl : ActLabel s a l) : l.InReach cfg s.abs := by
  obtain ⟨-, hread⟩ := h
  cases l with
  | read => exact hread hl.1 hl.2
  | start | client | loop => trivial

section Main

variable [Inhabited F] {cfg : Config} {s₀ b s t : State F}

theorem filing_of_run (h : Run (machine cfg) (DueOk cfg) (State.initial cfg) s) :
    Alive s ∧ s.abs.Filing cfg := by
  have h₀ : (State.initial cfg : State F).abs.Filing cfg :=
    { sound := sound_initial
      filed := fun _ r x hx => by simp [pending_initial] at hx
      ahead := fun f swept turned σ hφ => by simp [State.abs, State.initial] at hφ
      dispatchers := fun _ => pending_initial _
      idle := fun _ => pending_initial _
      begun := fun r x hx => by simp [pending_initial] at hx }
  exact abs_invariant (P := Service.Filing cfg) h .initial (fun _ _ hok => hok.1) h₀
    fun t a l a' hok hl hP hs => hP.step hs (hok.label hl)

omit [Inhabited F] in
theorem pending_pool : s.abs.pending .pool = ∅ :=
  Set.eq_empty_of_forall_notMem fun _ ⟨_, hne, _⟩ => hne rfl

omit [Inhabited F] in
/-- The call of `RunOnce` begins the pursuit of the pending timers. -/
theorem pursued_runOnce (h : Alive s₀) {q : QueueRef} {p : Ptr} {e : Element F}
    (hq : q = .complete ∨ ∃ r, q = .slot r) (hp : p ∈ s₀.queue q)
    (he : s₀.heap p = some e) (ha : e.active = false) :
    s₀.runOnce.abs.Pursued ⟨e.serial, e.tp⟩ where
  kept := by
    refine Or.inr (Or.inr ?_)
    rcases hq with rfl | ⟨r, rfl⟩
    · exact ⟨.slist, p, by simp, by simpa [State.runOnce, State.popAll, State.setQueue,
        State.withLoop] using hp, e, he, ha, rfl⟩
    · exact ⟨.slot r, p, by simp, by simpa [State.runOnce, State.popAll, State.setQueue,
        State.withLoop] using hp, e, he, ha, rfl⟩
  taken := by
    have hnil : s₀.runOnce.queue .complete = [] := by
      simp [State.runOnce, State.popAll, State.setQueue, State.withLoop]
    rw [pending_eq_empty hnil]
    exact Set.notMem_empty _
  started := by
    obtain ⟨st, ν, hlife⟩ := h
    have hh := hlife.here p
    refine (hh.fits e he).started fun hpool => ?_
    rw [hh.mem_iff, hpool] at hp
    rcases hq with rfl | ⟨r, rfl⟩ <;> simp [Stage.links] at hp

/-- `RunOnce` can always return.  When it has, each timer that was pending when
it was called, and due before the tick of its clock reading, has been fired
or stopped. -/
theorem runOnce_fires_due
    (h₀ : Run (machine cfg) (DueOk cfg) (State.initial cfg) s₀) (hidle : s₀.loop = none)
    (hok : DueOk cfg s₀ .runOnce) :
    (∀ t, Run (machine cfg) (DueOk cfg) s₀.runOnce t →
      ∃ s, Run (machine cfg) (fun _ a => a = .loop) t s ∧ s.loop = none) ∧
    ∀ b s, Run (machine cfg) (DueOk cfg) s₀.runOnce b → b.ReadsClock →
      Run (machine cfg) (DueOk cfg) b s → s.loop = none →
      ∀ q p e, q = .complete ∨ (∃ r, q = .slot r) → p ∈ s₀.queue q →
        s₀.heap p = some e → e.active = false → cfg.tick e.tp < cfg.destVal b.clock →
        Fired s.log e.serial ∨ Stopped s.log e.serial := by
  have h₁ : Run (machine cfg) (DueOk cfg) (State.initial cfg) s₀.runOnce :=
    h₀.tail (a := .runOnce) (by simp [machine, Enabled, hidle]) hok rfl
  refine ⟨fun t ht => ?_, fun b s hb hread hs hret q p e hq hp he ha hdue => ?_⟩
  · obtain ⟨halive, hfiling⟩ := filing_of_run (h₁.trans ht)
    exact runOnce_returns halive hfiling.sound
  · -- the timer is pursued from the call to the clock reading
    have hpur := abs_invariant (P := fun a => a.Filing cfg ∧ a.Pursued ⟨e.serial, e.tp⟩)
      hb (filing_of_run h₁).1 (fun _ _ hok => hok.1)
      ⟨(filing_of_run h₁).2, pursued_runOnce (filing_of_run h₀).1 hq hp he ha⟩
      fun t a l a' hok hl hP hst => ⟨hP.1.step hst (hok.label hl), hP.2.step hst⟩
    -- and from there to the return, while `point_` gets to its destination
    have hreach : b.abs.Reaches cfg (cfg.destVal b.clock) := by
      obtain ⟨hloop, hnil⟩ := hread
      exact Or.inr ⟨by simp [State.abs, hloop], pending_eq_empty hnil, Nat.le_refl _⟩
    have hend := abs_invariant (P := fun a => a.Filing cfg ∧ a.Pursued ⟨e.serial, e.tp⟩ ∧
        a.Reaches cfg (cfg.destVal b.clock))
      hs hpur.1 (fun _ _ hok => hok.1) ⟨hpur.2.1, hpur.2.2, hreach⟩
      fun t a l a' hok hl hP hst => ⟨hP.1.step hst (hok.label hl), hP.2.1.step hst,
        hP.2.2.step hP.1.sound hst⟩
    obtain ⟨-, hfiling, hpursued, hreaches⟩ := hend
    exact hpursued.done hfiling (by simp [State.abs, hret]) pending_pool hreaches hdue

end Main

/-- A `RunOnce` that comes before the loop can have left level 3 finds all. -/
theorem Service.readInReach_of_le {cfg : Config} {a : Service F}
    (h : cfg.destVal a.clock ≤ catchUpStart a.point 4) : a.ReadInReach cfg :=
  fun _ _ _ _ _ hlt => hlt.trans_le h

/-- A timer of tick 1 is fired by the `RunOnce` that comes at tick 2. -/
theorem runOnce_fires_due_once : ∃ s₀ s : State Unit,
    s₀.queue (.slot ⟨0, 1⟩) = [0] ∧ Config.zero.destVal s₀.clock = 2 ∧
      s.loop = none ∧ (Fired s.log 0 ∨ Stopped s.log 0) := by
  let ok : State Unit → Act Unit → Prop := fun s a =>
    InTime s a ∧ Config.zero.destVal s.clock ≤ catchUpStart s.point 4
  have hok : ∀ s a, ok s a → DueOk Config.zero s a := fun s a h =>
    ⟨h.1, fun _ _ => Service.readInReach_of_le h.2⟩
  have hrun : ((machine Config.zero).exec ok (State.initial Config.zero)
      [.startTimer 100000 (), .tick 200000]).any (fun s₀ : State Unit =>
        decide (s₀.loop.isNone ∧ s₀.queue .complete = [] ∧ s₀.queue (.slot ⟨0, 1⟩) = [0] ∧
          s₀.clock = 200000 ∧ s₀.point = 0) &&
        (s₀.heap 0).any (fun e => decide (e.active = false ∧ e.tp = 100000 ∧ e.serial = 0)) &&
        ((machine Config.zero).exec ok s₀.runOnce (List.replicate 8 .loop)).any
          (fun s => s.loop.isNone)) := by
    decide +kernel
  obtain ⟨s₀, hs₀, hdec⟩ := Run.exists_of_exec hrun
  simp only [Bool.and_eq_true, decide_eq_true_eq, Option.any_eq_true] at hdec
  obtain ⟨⟨⟨hidle, hnil, hq, hclock, hpoint⟩, e, he, hact, htp, hserial⟩, s, hexec, hret⟩ := hdec
  have hs : Run (machine Config.zero) ok s₀.runOnce s := .of_exec hexec
  have hin : InTime s₀ .runOnce := by simp [InTime, hnil]
  have hdue := (runOnce_fires_due (hs₀.mono hok) (Option.isNone_iff_eq_none.1 hidle)
    ⟨hin, by simp⟩).2 s₀.runOnce s .refl ⟨rfl, hnil⟩ (hs.mono hok)
    (Option.isNone_iff_eq_none.1 hret) _ 0 e (Or.inr ⟨⟨0, 1⟩, rfl⟩) (by simp [hq]) he hact
    (by rw [htp]; change _ < (Config.zero.destVal s₀.clock : Int); rw [hclock]; decide)
  rw [hserial] at hdue
  exact ⟨s₀, s, hq, by rw [hclock]; decide, Option.isNone_iff_eq_none.1 hret, hdue⟩

/-! ## A slot that is left out -/

section LeftOut

/-- A timer with one pending element. -/
def oneTimer (r : SlotRef) (tp : Int) (clock : Int) : State Unit where
  point := 0
  queue := Function.update (fun _ => []) (.slot r) [0]
  maxPoolSize := 0
  heap := Function.update (fun _ => none) 0 (some ⟨(), false, tp, some r, 3, 0⟩)
  brk := 1
  ids := [⟨0, 0⟩]
  started := 1
  clock := clock
  log := []
  loop := none

theorem startTimer_initial {cfg : Config} {tp : Int} (hlt : cfg.lastTime 0 < tp) :
    (State.initial cfg).startTimer cfg tp () =
      some (oneTimer (place cfg 0 tp) tp cfg.begin_) := by
  simp [State.startTimer, State.newElement, State.initial, State.allocate, State.init,
    State.incrementRef, State.set, State.dispatch, State.push, State.setQueue, oneTimer,
    Int.not_le.2 hlt]

/-- The timer is due at tick `2 ^ 33`, and one tick later nobody has called
`RunOnce`. -/
theorem run_oneTimer : Run (machine Config.zero) (DueOk Config.zero) (State.initial Config.zero)
    (oneTimer ⟨4, 2⟩ (2 ^ 33 * 100000) ((2 ^ 33 + 1) * 100000)) := by
  have hplace : place Config.zero 0 (2 ^ 33 * 100000) = ⟨4, 2⟩ := by decide +kernel
  have hstart := startTimer_initial (show Config.zero.lastTime 0 < 2 ^ 33 * 100000 by decide)
  rw [hplace] at hstart
  have h1 : Run (machine Config.zero) (DueOk Config.zero) (State.initial Config.zero)
      (oneTimer ⟨4, 2⟩ (2 ^ 33 * 100000) 0) :=
    .tail (a := .startTimer _ _) .refl ⟨rfl, by decide⟩ ⟨trivial, nofun⟩ hstart
  exact h1.tail (a := .tick ((2 ^ 33 + 1) * 100000)) (by simp [machine, Enabled, oneTimer])
    ⟨trivial, nofun⟩ (by simp [machine, oneTimer])

variable {σ : Sweep}

/-- The loop that starts at tick 0 passes the slots of level 4 by: the step
with which it leaves level 3 covers all of them. -/
theorem SweepInv.passes (h : SweepInv 0 σ) (h3 : σ.triggerLevel ≤ 3) :
    σ.triggered 0 ≠ ⟨4, 2⟩ ∧ ⟨4, 2⟩ ∉ σ.turned 0 ∧
      ((σ.next 0).triggerLevel ≤ 3 ∨ 2 ^ 33 + 1 ≤ (σ.next 0).i) := by
  have hend : ∀ lv ≤ 3, catchUpEnd 0 lv ≤ 2 ^ 32 := by decide
  have hle := (h.le_catchUpEnd h3).trans (hend _ h3)
  have hb : 0 + σ.i < 2 ^ 47 := by omega
  refine ⟨fun he => ?_, fun hmem => ?_, ?_⟩
  · have : σ.triggerLevel = 4 := congrArg SlotRef.level he
    omega
  · rw [Sweep.turned, Sweep.pos_eq hb] at hmem
    rcases Nat.eq_zero_or_pos (0 + σ.i) with h0 | hpos
    · rw [h0, cascade_zero] at hmem
      exact List.not_mem_nil hmem
    · have hfl := floor_of_dvd (h.aligned h3)
      obtain ⟨-, -, ho⟩ := (mem_cascade hpos (by omega) _ _ (by omega) (by omega) _).1 hmem
      simp only [p8, Radix.digit] at ho
      omega
  · by_cases hup : σ.triggerSlots σ.triggerLevel + 1 = 256
    · have hn : σ.nextLevel = σ.triggerLevel + 1 := if_pos hup
      rcases Nat.lt_or_ge σ.triggerLevel 3 with hlt | hge
      · exact Or.inl (by change σ.nextLevel ≤ 3; omega)
      · -- level 3 ends at tick `2 ^ 32`, and the step from there is `1 << 40`
        have he : σ.triggerLevel = 3 := by omega
        have hi := h.eq_catchUpEnd hup h3
        rw [he] at hi hn
        have hadd := Sweep.add_eq (by decide) hb hn
        have h32 : 0 + σ.i = 2 ^ 32 := hi.trans (by decide)
        rw [h32, show min ((256 - p8 (2 ^ 32) 3) * additions.getD 3 0)
          (additions.getD (3 + 1) 0) = 2 ^ 40 by decide +kernel] at hadd
        have hnext := (h.turnEnd_le_next hb (by omega)).1
        exact Or.inr (by omega)
    · have hn : σ.nextLevel = σ.triggerLevel := if_neg hup
      exact Or.inl (hn.trans_le h3)

/-- The timer due at tick `2 ^ 33` stays in its slot while `RunOnce` goes to the
next tick. -/
structure Service.Missed (a : Service Unit) : Prop where
  sound : a.Sound Config.zero
  log : a.log = []
  clock : a.clock = (2 ^ 33 + 1) * 100000
  rest : ∀ q, q ≠ .slot ⟨4, 2⟩ → a.pending q = ∅
  point : a.phase = some .complete → a.point = 0
  sweep : ∀ f swept turned σ, a.phase = some (.sweep f swept turned σ) →
    f.last = 0 ∧ f.delta = 2 ^ 33 + 1 ∧ ⟨4, 2⟩ ∉ turned ∧
      (σ.triggerLevel ≤ 3 ∨ f.delta ≤ σ.i)

/-- Pouring an empty queue leaves all but one queue empty. -/
theorem Service.rest_pour {a : Service F} {φ : Option Phase} {q q' q₀ : QueueRef}
    (h : ∀ p, p ≠ q₀ → a.pending p = ∅) (hq : q ≠ q₀) (hne : q ≠ q') :
    ∀ p, p ≠ q₀ → ((a.withPhase φ).pour q q').pending p = ∅ := by
  intro p hp
  refine Set.eq_empty_of_forall_notMem fun y hy => ?_
  rcases of_mem_pour hy hne with ⟨-, hy⟩ | ⟨-, hy⟩
  · have hy' : y ∈ a.pending p := hy
    rw [h p hp] at hy'
    exact hy'
  · have hy' : y ∈ a.pending q := hy
    rw [h q hq] at hy'
    exact hy'

theorem Service.Missed.step {a a' : Service Unit} {l : Service.Label} (h : a.Missed)
    (hs : Service.Step Config.zero a l a') (hl : l = .read ∨ l = .loop) : a'.Missed := by
  have hsound := h.sound.step hs
  have hslist := h.rest .slist (by simp)
  cases hs with
  | start | refuse | cancel | tick | call => simp at hl
  | fire _ hx | refile _ hx =>
    rw [hslist] at hx
    exact absurd hx (Set.notMem_empty _)
  | early => exact ⟨hsound, h.log, h.clock, h.rest, nofun, nofun⟩
  | done => exact ⟨hsound, h.log, h.clock, h.rest, nofun, nofun⟩
  | read hφ =>
    refine ⟨hsound, h.log, h.clock, h.rest, nofun, ?_⟩
    intro f swept turned σ he
    cases he
    have hd : Config.zero.destVal ((2 ^ 33 + 1) * 100000) = 2 ^ 33 + 1 := by decide
    rw [h.point hφ, h.clock, hd]
    exact ⟨rfl, rfl, List.not_mem_nil, Or.inl (by decide)⟩
  | trigger hφ _ hi =>
    obtain ⟨hlast, hdelta, -, h3⟩ := h.sweep _ _ _ _ hφ
    have hinv := (h.sound.sweep _ _ _ _ hφ).1
    rw [hlast] at hinv
    obtain ⟨hne, hmem, hnext⟩ := hinv.passes (h3.resolve_right (by omega))
    rw [hlast] at hsound ⊢
    refine ⟨hsound, h.log, h.clock, rest_pour h.rest (by simpa using hne) (by simp), nofun, ?_⟩
    intro f swept turned σ he
    cases he
    exact ⟨hlast, hdelta, hmem, hdelta ▸ hnext⟩
  | @collect f swept r rest σ hφ =>
    obtain ⟨hlast, hdelta, hmem, h3⟩ := h.sweep _ _ _ _ hφ
    have hne : r ≠ ⟨4, 2⟩ := fun he => hmem (he ▸ List.mem_cons_self)
    refine ⟨hsound, h.log, h.clock, rest_pour h.rest (by simpa using hne) (by simp), nofun, ?_⟩
    intro f swept turned σ he
    cases he
    exact ⟨hlast, hdelta, fun hr => hmem (List.mem_cons_of_mem _ hr), h3⟩
  | swept =>
    exact ⟨hsound, h.log, h.clock, rest_pour h.rest (by simp) (by simp), nofun, nofun⟩

/-- A timer is due at tick `2 ^ 33`.  `RunOnce` is called at the next tick, with
no other thread and no callback around, and returns without a callback. -/
theorem runOnce_leaves_due : ∃ s₀ s : State Unit,
    Run (machine Config.zero) anyAction (State.initial Config.zero) s₀ ∧
      s₀.loop = none ∧
      Run (machine Config.zero) (fun _ a => a = .loop) s₀.runOnce s ∧ s.loop = none ∧
      0 ∈ s₀.queue (.slot ⟨4, 2⟩) ∧
      s₀.heap 0 = some ⟨(), false, 2 ^ 33 * 100000, some ⟨4, 2⟩, 3, 0⟩ ∧
      Config.zero.tick (2 ^ 33 * 100000) < Config.zero.destVal s₀.clock ∧
      ¬ Fired s.log 0 ∧ ¬ Stopped s.log 0 := by
  let s₀ := oneTimer ⟨4, 2⟩ (2 ^ 33 * 100000) ((2 ^ 33 + 1) * 100000)
  have h₁ : Run (machine Config.zero) (DueOk Config.zero) (State.initial Config.zero)
      s₀.runOnce :=
    run_oneTimer.tail (a := .runOnce) rfl ⟨by simp [InTime, oneTimer], nofun⟩ rfl
  obtain ⟨halive, hfiling⟩ := filing_of_run h₁
  have hmissed : s₀.runOnce.abs.Missed :=
    { sound := hfiling.sound
      log := rfl
      clock := rfl
      rest := fun q hq => pending_eq_empty (by
        by_cases hs : q = .slist
        · subst hs
          simp [s₀, State.runOnce, State.popAll, State.setQueue, State.withLoop, oneTimer]
        · by_cases hc : q = .complete
          · subst hc
            simp [s₀, State.runOnce, State.popAll, State.setQueue, State.withLoop]
          · simp [s₀, State.runOnce, State.popAll, State.setQueue, State.withLoop, oneTimer,
              hs, hc, hq])
      point := fun _ => rfl
      sweep := nofun }
  obtain ⟨s, hs, hret⟩ := runOnce_returns halive hfiling.sound
  have hend : s.abs.Missed := (abs_invariant (P := Service.Missed) hs halive
    (fun _ _ hok => hok ▸ trivial) hmissed fun t a l a' hok hl hP hst => hP.step hst (by
      cases l with
      | start tp =>
        obtain ⟨cb, ha⟩ := hl
        rw [hok] at ha
        cases ha
      | read => exact Or.inl rfl
      | client => exact absurd hok hl
      | loop => exact Or.inr rfl)).2
  have hlog : s.log = [] := hend.log
  refine ⟨s₀, s, run_oneTimer.mono fun _ _ _ => trivial, rfl, hs, hret, ?_, rfl, by decide,
    ?_, ?_⟩
  · simp [s₀, oneTimer]
  · rw [hlog]
    rintro ⟨_, _, _, hmem⟩
    exact List.not_mem_nil hmem
  · rw [hlog]
    exact List.not_mem_nil

end LeftOut

end Costream.Timer
