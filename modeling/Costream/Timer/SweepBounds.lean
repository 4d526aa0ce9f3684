import Costream.Timer.Sweep
import Costream.Trace

/-!
# The sweep loop stays in its tables

`Sweep` takes for granted that the loop of `RunOnce` reads its tables where they are, and gives the
inner loop eight rounds.  Here the loop is a machine that takes nothing for granted: an access to
`slots_`, `triggerSlots`, `additions` or the bytes of a point is a fault when its index is not below
the size, and the inner loop goes on as long as its test says.

* `Stands` is the invariant: between two iterations the machine is where `Sweep` is, and in the
  inner loop it has done a part of `Sweep.turned`.  So the machine goes through the states of
  `Sweep`.
* `sweep_loop_safe`: there is no fault, `i` goes up in each iteration, and the loop ends.
-/

namespace Costream.Timer

open Radix Trace

/-! ## The loop with its accesses -/

/-- `pos.p64`, `lv` and `slotIdx` in the body of the loop. -/
structure Body where
  pos : Nat
  lv : Nat
  slotIdx : Nat
  deriving DecidableEq

/-- The variables of the loop; between two iterations there are none of the body. -/
structure Sweeping where
  i : Nat
  triggerLevel : Nat
  triggerSlots : Nat → Nat
  body : Option Body

/-- `p.p8[i]`. -/
def byteAt (p i : Nat) : Option Nat := if i < 8 then some (p8 p i) else none

/-- `slots_[lv][slotIdx]`. -/
def slotAt (lv slotIdx : Nat) : Option SlotRef :=
  if lv < 8 ∧ slotIdx < 256 then some ⟨lv, slotIdx⟩ else none

/-- `++triggerSlots[lv]`. -/
def bumpAt (triggerSlots : Nat → Nat) (lv : Nat) : Option (Nat → Nat) :=
  if lv < 8 then some (bump triggerSlots lv) else none

namespace Sweeping

/-- `int triggerLevel = 0; int triggerSlots[8] = {}; uint64_t i = 0;` -/
def init : Sweeping := ⟨0, 0, fun _ => 0, none⟩

/-- From the test of the loop to the inner loop. -/
def enter (last : Nat) (s : Sweeping) : Option Sweeping := do
  let pos := (last + s.i) % 2 ^ 64
  let lv := s.triggerLevel
  let slotIdx ← byteAt pos lv
  let _ ← slotAt lv slotIdx
  let triggerSlots ← bumpAt s.triggerSlots lv
  let triggerLevel := if triggerSlots lv = 256 then s.triggerLevel + 1 else s.triggerLevel
  return ⟨s.i, triggerLevel, triggerSlots, some ⟨pos, lv, slotIdx⟩⟩

/-- A round of the inner loop. -/
def round (s : Sweeping) (b : Body) : Option Sweeping := do
  let lv := b.lv + 1
  let slotIdx ← byteAt b.pos lv
  let _ ← slotAt lv slotIdx
  let triggerSlots ← bumpAt s.triggerSlots lv
  return ⟨s.i, s.triggerLevel, triggerSlots, some ⟨b.pos, lv, slotIdx⟩⟩

/-- From the inner loop to the test of the loop. -/
def leave (s : Sweeping) (b : Body) : Option Sweeping := do
  let add ← additions[s.triggerLevel]?
  if 0 < s.triggerLevel then
    let byte ← byteAt b.pos (s.triggerLevel - 1)
    let below ← additions[s.triggerLevel - 1]?
    let levelupSteps := (256 - byte) * below % 2 ^ 64
    let add := if 0 < levelupSteps then min levelupSteps add else add
    return ⟨(s.i + add) % 2 ^ 64, s.triggerLevel, s.triggerSlots, none⟩
  else
    return ⟨(s.i + add) % 2 ^ 64, s.triggerLevel, s.triggerSlots, none⟩

def step (last : Nat) (s : Sweeping) : Option Sweeping :=
  match s.body with
  | none => s.enter last
  | some b => if 0 < b.pos ∧ b.slotIdx = 0 then s.round b else s.leave b

end Sweeping

/-- The loop from `last` over `delta` ticks. -/
def sweeping (last delta : Nat) : Machine Sweeping Unit where
  enabled s _ := s.body ≠ none ∨ s.i < delta
  step s _ := s.step last

/-- What is to hold of the loop. -/
structure SafeSweep (last delta : Nat) : Prop where
  /-- Every index is in its bounds. -/
  noFault : ∀ s, Run (sweeping last delta) anyAction .init s →
    (sweeping last delta).enabled s () → ∃ t, (sweeping last delta).step s () = some t
  /-- An iteration leaves `i` where it is until its last step, which does not wrap around. -/
  increases : ∀ s t, Run (sweeping last delta) anyAction .init s →
    (sweeping last delta).enabled s () → (sweeping last delta).step s () = some t →
    (t.body ≠ none → t.i = s.i) ∧ (t.body = none → s.i < t.i)
  /-- The inner loop goes up by a level in each round, and there are eight. -/
  inner : ∀ s t b c, Run (sweeping last delta) anyAction .init s → s.body = some b →
    (sweeping last delta).step s () = some t → t.body = some c → c.lv = b.lv + 1 ∧ c.lv < 8
  /-- The loop ends, from wherever it is. -/
  ends : ∀ s, Run (sweeping last delta) anyAction .init s →
    ∃ t, Run (sweeping last delta) anyAction s t ∧ ¬ (sweeping last delta).enabled t ()

/-! ## Where the loop is -/

/-- Between two iterations. -/
def Sweep.between (s : Sweep) : Sweeping := ⟨s.i, s.triggerLevel, s.triggerSlots, none⟩

/-- In the inner loop, after the slots `taken` of `Sweep.turned`. -/
def Sweep.within (last : Nat) (s : Sweep) (taken : List SlotRef) (lv : Nat) : Sweeping :=
  ⟨s.i, s.nextLevel, (taken.map SlotRef.level).foldl bump (bump s.triggerSlots s.triggerLevel),
    some ⟨last + s.i, lv, p8 (last + s.i) lv⟩⟩

inductive Stands (last delta : Nat) : Sweeping → Prop where
  | between (s : Sweep) (h : SweepInv last s) : Stands last delta s.between
  | within (s : Sweep) (h : SweepInv last s) (hi : s.i < delta) (taken : List SlotRef)
    (fuel lv : Nat) (hturned : s.turned last = taken ++ cascade (last + s.i) fuel lv
      (p8 (last + s.i) lv)) (hfuel : 8 ≤ fuel + lv)
    (hfloor : 0 < last + s.i → 0 < floor lv (last + s.i)) :
    Stands last delta (s.within last taken lv)

variable {last delta : Nat} {s : Sweep} {taken : List SlotRef} {fuel lv : Nat}

theorem lt_six_of_floor_pos {p : Nat} (hp : p < 2 ^ 47) (h : 0 < floor lv p) : lv < 6 := by
  by_contra hge
  have hpow : 256 ^ 6 ≤ 256 ^ lv := Nat.pow_le_pow_right (by decide) (by omega)
  have hzero : floor lv p = 0 := by
    rw [floor, Nat.div_eq_of_lt (by omega), Nat.zero_mul]
  omega

/-- The level of an iteration has come up at least once. -/
theorem SweepInv.floor_pos (h : SweepInv last s) (hpos : 0 < last + s.i) :
    0 < floor s.triggerLevel (last + s.i) := by
  rcases Nat.eq_zero_or_pos s.triggerLevel with h0 | h0
  · rw [h0, floor_zero]
    exact hpos
  · exact (catchUpStart_pos last h0).trans_le h.caughtUp

/-- The step into the body. -/
theorem step_between (h : SweepInv last s) (hb : last + s.i < 2 ^ 47) :
    s.between.step last = some (s.within last [] s.triggerLevel) := by
  have hlevel := h.level_le
  have hlv : s.triggerLevel < 8 := by omega
  have hpos : (last + s.i) % 2 ^ 64 = last + s.i := Nat.mod_eq_of_lt (by omega)
  have hslot : s.triggerLevel < 8 ∧ p8 (last + s.i) s.triggerLevel < 256 := ⟨hlv, p8_lt _ _⟩
  have hbump : bump s.triggerSlots s.triggerLevel s.triggerLevel =
      s.triggerSlots s.triggerLevel + 1 := by
    unfold bump
    rw [Function.update_self]
  show s.between.enter last = _
  unfold Sweeping.enter Sweep.between Sweep.within Sweep.nextLevel
  simp only [hpos, byteAt, slotAt, bumpAt, if_pos hlv, if_pos hslot, Option.bind_eq_bind,
    Option.bind_some, hbump]
  rfl

/-- A round of the inner loop takes the next slot. -/
theorem step_round (hlv : lv + 1 < 8) :
    (s.within last taken lv).round ⟨last + s.i, lv, p8 (last + s.i) lv⟩ =
      some (s.within last (taken ++ [⟨lv + 1, p8 (last + s.i) (lv + 1)⟩]) (lv + 1)) := by
  have hslot : lv + 1 < 8 ∧ p8 (last + s.i) (lv + 1) < 256 := ⟨hlv, p8_lt _ _⟩
  unfold Sweeping.round Sweep.within
  simp only [byteAt, slotAt, bumpAt, if_pos hlv, if_pos hslot, Option.bind_eq_bind,
    Option.bind_some, List.map_append, List.foldl_append, List.map_cons, List.map_nil,
    List.foldl_cons, List.foldl_nil]
  rfl

theorem additions_get {k : Nat} (hk : k < 8) :
    additions[k]? = some (additions.getD k 0) := by
  rw [List.getD_eq_getElem?_getD, List.getElem?_eq_getElem hk, Option.getD_some]

/-- The step out of the body ends the iteration of `Sweep`. -/
theorem step_leave (h : SweepInv last s) (hb : last + s.i < 2 ^ 47)
    (hturned : s.turned last = taken) :
    (s.within last taken lv).leave ⟨last + s.i, lv, p8 (last + s.i) lv⟩ =
      some (s.next last).between := by
  have hn := h.nextLevel_le hb
  have hadd := additions_get (by omega : s.nextLevel < 8)
  unfold Sweep.between Sweep.next
  rw [hturned]
  unfold Sweeping.leave Sweep.within Sweep.add
  rw [Sweep.pos_eq hb]
  by_cases hlv : 0 < s.nextLevel
  · have hbelow := additions_get (by omega : s.nextLevel - 1 < 8)
    simp only [hadd, hbelow, byteAt, if_pos hlv, if_pos (by omega : s.nextLevel - 1 < 8),
      Option.bind_eq_bind, Option.bind_some]
    rfl
  · simp only [hadd, if_neg hlv, Option.bind_eq_bind, Option.bind_some]
    rfl

/-! ## Every step -/

/-- A step can be done, and it goes on in the iteration or comes to the next one. -/
theorem Stands.step {r : Sweeping} (h : Stands last delta r) (hdest : last + delta ≤ 2 ^ 47)
    (he : (sweeping last delta).enabled r ()) :
    ∃ t, r.step last = some t ∧ Stands last delta t ∧ r.i < delta ∧
      (t.body ≠ none → t.i = r.i) ∧ (t.body = none → r.i < t.i) ∧
      (∀ b c, r.body = some b → t.body = some c → c.lv = b.lv + 1 ∧ c.lv < 8) := by
  cases h with
  | between s h =>
    have hi : s.i < delta := he.resolve_left fun hne => hne rfl
    have hb : last + s.i < 2 ^ 47 := by omega
    refine ⟨_, step_between h hb, ?_, hi, fun _ => rfl, ?_, ?_⟩
    · refine .within s h hi [] 8 s.triggerLevel ?_ (by omega) h.floor_pos
      rw [Sweep.turned, Sweep.pos_eq hb, List.nil_append]
    · intro hbody
      cases hbody
    · intro b c hbody
      cases hbody
  | within s h hi taken fuel lv hturned hfuel hfloor =>
    have hb : last + s.i < 2 ^ 47 := by omega
    by_cases hmore : 0 < last + s.i ∧ p8 (last + s.i) lv = 0
    · -- the wheel below turns over, so the position has a byte above that is not zero
      have hnext : 0 < floor (lv + 1) (last + s.i) := by
        rw [floor_succ_of_digit hmore.2]
        exact hfloor hmore.1
      have hlv := lt_six_of_floor_pos hb hnext
      have hstep : (s.within last taken lv).step last =
          some (s.within last (taken ++ [⟨lv + 1, p8 (last + s.i) (lv + 1)⟩]) (lv + 1)) :=
        (if_pos hmore).trans (step_round (by omega))
      refine ⟨_, hstep, ?_, hi, fun _ => rfl, ?_, ?_⟩
      · obtain ⟨fuel', hfuel'⟩ : ∃ fuel', fuel = fuel' + 1 := ⟨fuel - 1, by omega⟩
        rw [hfuel', cascade, if_pos hmore] at hturned
        refine .within s h hi _ fuel' (lv + 1) ?_ (by omega) fun _ => hnext
        rw [hturned, List.append_assoc]
        rfl
      · intro hbody
        cases hbody
      · intro b c hbody hbody'
        cases hbody
        cases hbody'
        exact ⟨rfl, by show lv + 1 < 8; omega⟩
    · have hlast : s.turned last = taken := by
        rw [hturned]
        cases fuel with
        | zero => exact List.append_nil taken
        | succ fuel => rw [cascade, if_neg hmore, List.append_nil]
      have hstep : (s.within last taken lv).step last = some (s.next last).between :=
        (if_neg hmore).trans (step_leave h hb hlast)
      obtain ⟨hinv, hgt⟩ := h.next hb
      have hup : s.i < (s.next last).i := by
        have hfl := floor_le s.nextLevel (last + (s.next last).i)
        omega
      refine ⟨_, hstep, .between _ hinv, hi, fun hne => absurd rfl hne, fun _ => hup, ?_⟩
      intro b c _ hbody
      cases hbody

theorem stands_of_run {r : Sweeping} (hdest : last + delta ≤ 2 ^ 47)
    (h : Run (sweeping last delta) anyAction .init r) : Stands last delta r := by
  refine h.invariant (P := Stands last delta) (.between _ (SweepInv.init last)) ?_
  intro t a u ht he _ hs
  obtain ⟨v, hv, hstands, -⟩ := ht.step hdest he
  have hs' : t.step last = some u := hs
  rw [hv] at hs'
  cases hs'
  exact hstands

/-! ## The loop ends -/

/-- What the loop has left: of the ticks, and then of the iteration. -/
def Sweeping.left (delta : Nat) (r : Sweeping) : Nat × Nat :=
  (delta - r.i, match r.body with | none => 9 | some b => 8 - b.lv)

theorem sweeping_ends {r : Sweeping} (hdest : last + delta ≤ 2 ^ 47)
    (h : Stands last delta r) :
    ∃ t, Run (sweeping last delta) anyAction r t ∧ ¬ (sweeping last delta).enabled t () := by
  have hprogress : ∀ t, Stands last delta t → ¬ ¬ (sweeping last delta).enabled t () →
      ∃ a u, (sweeping last delta).enabled t a ∧ anyAction t a ∧
        (sweeping last delta).step t a = some u ∧ Stands last delta u ∧
        (¬ (sweeping last delta).enabled u () ∨
          Prod.Lex (· < ·) (· < ·) (u.left delta) (t.left delta)) := by
    intro t ht he
    rw [not_not] at he
    obtain ⟨u, hu, hstands, hi, hsame, hup, hinner⟩ := ht.step hdest he
    refine ⟨(), u, he, trivial, hu, hstands, .inr ?_⟩
    unfold Sweeping.left
    cases hbody : u.body with
    | none =>
      have hlt := hup hbody
      exact .left _ _ (by omega)
    | some c =>
      have heq : u.i = t.i := hsame (by rw [hbody]; nofun)
      rw [heq]
      refine .right _ ?_
      cases hbody' : t.body with
      | none =>
        show 8 - c.lv < 9
        omega
      | some b =>
        obtain ⟨hlv, hlt⟩ := hinner b c hbody' hbody
        show 8 - c.lv < 8 - b.lv
        omega
  obtain ⟨t, hrun, -, hdone⟩ := Run.exists_of_wf
    (WellFounded.prod_lex Nat.lt_wfRel.wf Nat.lt_wfRel.wf) (Sweeping.left delta) h hprogress
  exact ⟨t, hrun, hdone⟩

/-- The sweep loop of `RunOnce`, from any tick to that of a reading of the clock. -/
theorem sweep_loop_safe (cfg : Config) {now : Int} (h0 : (cfg.begin_ : Int) ≤ now)
    (h1 : now < 2 ^ 63) {last : Nat} (hlast : last ≤ cfg.destVal now) :
    SafeSweep last (cfg.destVal now - last) := by
  have hdest : last + (cfg.destVal now - last) ≤ 2 ^ 47 := by
    have heq := cfg.destVal_eq h0 h1
    have hlt := cfg.tick_lt h1
    omega
  refine ⟨?_, ?_, ?_, ?_⟩
  · intro s hrun he
    obtain ⟨t, ht, -⟩ := (stands_of_run hdest hrun).step hdest he
    exact ⟨t, ht⟩
  · intro s t hrun he hs
    obtain ⟨u, hu, -, -, hsame, hup, -⟩ := (stands_of_run hdest hrun).step hdest he
    have hs' : s.step last = some t := hs
    rw [hu] at hs'
    cases hs'
    exact ⟨hsame, hup⟩
  · intro s t b c hrun hbody hs hbody'
    have he : (sweeping last (cfg.destVal now - last)).enabled s () :=
      .inl (by rw [hbody]; nofun)
    obtain ⟨u, hu, -, -, -, -, hinner⟩ := (stands_of_run hdest hrun).step hdest he
    have hs' : s.step last = some t := hs
    rw [hu] at hs'
    cases hs'
    exact hinner b c hbody hbody'
  · intro s hrun
    exact sweeping_ends hdest (stands_of_run hdest hrun)

/-- From tick 1 to tick 300, at the least precision. -/
theorem sweep_loop_safe_300 : SafeSweep 1 299 := by
  have hdest : Config.zero.destVal 30000000 - 1 = 299 := by decide
  rw [← hdest]
  exact sweep_loop_safe Config.zero (by decide) (by decide) (by decide)

end Costream.Timer
