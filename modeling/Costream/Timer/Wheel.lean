import Costream.Radix
import Mathlib.Tactic.IntervalCases

/-!
# The wheel of `Timer<F>`

`Timer<F>` keeps its timers in `slots_[8][256]`.  Time is cut into ticks of
`precision_`, counted from `begin_`, and `point_` is the tick that the sweep
has reached.  This module models

* the clock of a timer (`Config`, `SetPrecision`), with the tick of a time
  point;
* `Timer::Dispatch(Element*, bool)`, as far as it picks the slot (`place`).

`place_filed` is what every later module reads off `place`: the first visit
of the slot, counted from `point_`, is not after the due tick.
-/

namespace Costream.Timer

open Radix

/-- The conversion of a signed count to `uint64_t`. -/
def toU64 (n : Int) : Nat := (n % 2 ^ 64).toNat

theorem toU64_of_nonneg {n : Int} (h0 : 0 ≤ n) (h : n < 2 ^ 63) :
    toU64 n = n.toNat := by
  rw [toU64, Int.emod_eq_of_lt h0 (by omega)]

/-- `Point::p8[i]`: byte `i` of a tick. -/
def p8 (p i : Nat) : Nat := digit 256 i p

theorem p8_lt (p i : Nat) : p8 p i < 256 := digit_lt (by decide) i p

/-! ## The clock -/

/-- What is fixed over the life of one timer: `begin_`, a 64-bit count of
nanoseconds, and `precision_` within the limits of `SetPrecision`. -/
structure Config where
  begin_ : Nat
  precision : Nat
  begin_lt : begin_ < 2 ^ 63
  precision_ge : 100000 ≤ precision
  precision_le : precision ≤ 60000000000

/-- `Timer::SetPrecision`: at least 100 microseconds, at most one minute. -/
def setPrecision (cfg : Config) (precision : Nat) : Config where
  begin_ := cfg.begin_
  precision := min (max precision 100000) 60000000000
  begin_lt := cfg.begin_lt
  precision_ge := by omega
  precision_le := by omega

/-- `Timer::Timer` starts at 100 microseconds. -/
def Config.default (begin_ : Nat) (h : begin_ < 2 ^ 63) : Config where
  begin_ := begin_
  precision := 100000
  begin_lt := h
  precision_ge := by decide
  precision_le := by decide

/-- A timer constructed at time 0, for concrete runs. -/
def Config.zero : Config := Config.default 0 (by decide)

namespace Config

variable (cfg : Config)

/-- `begin_ + point * precision_`, the start of a tick. -/
def lastTime (point : Nat) : Int := cfg.begin_ + point * cfg.precision

/-- `destVal` of `RunOnce`: the tick of a clock reading. -/
def destVal (now : Int) : Nat :=
  toU64 ((now - cfg.begin_).tdiv cfg.precision)

/-- The tick in which a time point lies. -/
def tick (tp : Int) : Int := (tp - cfg.begin_) / cfg.precision

theorem precision_pos : (0 : Int) < cfg.precision := by
  have := cfg.precision_ge
  omega

theorem tick_mono {s t : Int} (h : s ≤ t) : cfg.tick s ≤ cfg.tick t :=
  Int.ediv_le_ediv cfg.precision_pos (by omega)

/-- A tick starts at `lastTime`. -/
theorem lastTime_le_iff (p : Nat) (t : Int) :
    cfg.lastTime p ≤ t ↔ (p : Int) ≤ cfg.tick t := by
  rw [tick, Int.le_ediv_iff_mul_le cfg.precision_pos, lastTime]
  omega

theorem lastTime_mono {p q : Nat} (h : p ≤ q) :
    cfg.lastTime p ≤ cfg.lastTime q := by
  have := Int.mul_le_mul_of_nonneg_right (Int.ofNat_le.2 h)
    cfg.precision_pos.le
  rw [lastTime, lastTime]
  omega

theorem begin_le_lastTime (p : Nat) : (cfg.begin_ : Int) ≤ cfg.lastTime p := by
  have h0 := cfg.lastTime_mono (Nat.zero_le p)
  rw [lastTime, Nat.cast_zero, Int.zero_mul, Int.add_zero] at h0
  exact h0

/-- A time point whose tick has ended lies before the next tick. -/
theorem lt_of_tick_lt {s t : Int} (h : cfg.tick s < cfg.tick t) : s < t := by
  by_contra hle
  have := cfg.tick_mono (Int.not_lt.1 hle)
  omega

/-- From `begin_` on, `destVal` is the tick of the reading. -/
theorem destVal_eq {now : Int} (h0 : (cfg.begin_ : Int) ≤ now)
    (h1 : now < 2 ^ 63) : (cfg.destVal now : Int) = cfg.tick now := by
  have hp := cfg.precision_pos
  have hnn : 0 ≤ (now - cfg.begin_) / (cfg.precision : Int) :=
    Int.ediv_nonneg (by omega) hp.le
  have hle : (now - cfg.begin_) / (cfg.precision : Int) ≤ now - cfg.begin_ :=
    Int.ediv_le_self _ (by omega)
  rw [destVal, Int.tdiv_eq_ediv_of_nonneg (by omega),
    toU64_of_nonneg hnn (by omega), tick]
  omega

/-- A 64-bit nanosecond clock stays below tick `2 ^ 47`. -/
theorem tick_lt {t : Int} (h : t < 2 ^ 63) : cfg.tick t < 2 ^ 47 := by
  have hge := cfg.precision_ge
  rw [tick, Int.ediv_lt_iff_lt_mul cfg.precision_pos]
  omega

end Config

/-! ## Slots -/

/-- `slots_[level][offset]`. -/
structure SlotRef where
  level : Nat
  offset : Nat
  deriving DecidableEq, Repr

namespace SlotRef

/-- The sweep visits the slot at position `v`. -/
def VisitedAt (r : SlotRef) (v : Nat) : Prop := Visits 256 r.level r.offset v

/-- The first position from `p` on at which the sweep visits the slot. -/
def next (r : SlotRef) (p : Nat) : Nat := nextVisit 256 r.level r.offset p

theorem le_next (r : SlotRef) (p : Nat) : p ≤ r.next p :=
  le_nextVisit (by decide) _ _ _

theorem next_le {r : SlotRef} {p v : Nat} (h : r.VisitedAt v) (hp : p ≤ v) :
    r.next p ≤ v :=
  nextVisit_le (by decide) h hp

theorem visitedAt_next {r : SlotRef} (h : r.offset < 256) (p : Nat) :
    r.VisitedAt (r.next p) :=
  visits_nextVisit h _ _

theorem next_of_le {r : SlotRef} {p q : Nat} (h : r.offset < 256)
    (hpq : p ≤ q) (hq : q ≤ r.next p) : r.next q = r.next p :=
  nextVisit_of_le h hpq hq

end SlotRef

/-! ## `Timer::Dispatch(Element*, bool)`: which slot -/

/-- The loop of `Dispatch` over the bytes of `durVal`, from byte `n - 1` down:
the first byte that is not zero. -/
def leadingLevel (durVal : Nat) : Nat → Option Nat
  | 0 => none
  | n + 1 => if 0 < p8 durVal n then some n else leadingLevel durVal n

/-- The slot in which `Dispatch` files a timer with deadline `tp` when it has
loaded the tick `last` from `point_`. -/
def place (cfg : Config) (last : Nat) (tp : Int) : SlotRef :=
  let durNanos := toU64 (tp - cfg.lastTime last)
  let durVal := durNanos / cfg.precision
  match leadingLevel durVal 8 with
  | some level => ⟨level, (p8 durVal level + p8 last level) % 256⟩
  | none => ⟨0, p8 last 0⟩

/-- A timer of due tick `due` is properly filed in slot `r` while `point_` is
`p`: the sweep reaches the slot by tick `due`, and a slot of level 0 is
reached at tick `due` itself. -/
structure Filed (p due : Nat) (r : SlotRef) : Prop where
  level_lt : r.level < 8
  offset_lt : r.offset < 256
  next_le : r.next p ≤ due
  low : r.level = 0 → due ≤ p + 255 ∧ due % 256 = r.offset
  high : 0 < r.level → 0 < r.next p

/-- The loop finds the leading byte. -/
theorem leadingLevel_spec {d n : Nat} (hd : d < 256 ^ n) :
    (∃ i, leadingLevel d n = some i ∧ i < n ∧ 256 ^ i ≤ d ∧ d < 256 ^ (i + 1)) ∨
      leadingLevel d n = none ∧ d = 0 := by
  induction n with
  | zero => exact Or.inr ⟨rfl, by simpa using hd⟩
  | succ n ih =>
    have hpos : 0 < 256 ^ n := Nat.pow_pos (by decide)
    have hq : d / 256 ^ n < 256 := by
      rw [Nat.div_lt_iff_lt_mul hpos, ← Nat.pow_succ']
      exact hd
    have hp8 : p8 d n = d / 256 ^ n := Nat.mod_eq_of_lt hq
    rw [leadingLevel]
    split
    · rename_i h
      rw [hp8] at h
      exact Or.inl ⟨n, rfl, Nat.lt_succ_self n, (Nat.div_pos_iff.1 h).2, hd⟩
    · rename_i h
      have hz : d / 256 ^ n = 0 := by omega
      rcases ih ((Nat.div_eq_zero_iff_lt hpos).1 hz) with ⟨i, hi, hin, hb⟩ | hnone
      · exact Or.inl ⟨i, hi, by omega, hb⟩
      · exact Or.inr hnone

/-- Ticks from `last` to the due tick, as `Dispatch` computes them. -/
theorem durVal_eq (cfg : Config) {last : Nat} {tp : Int}
    (hlast : cfg.lastTime last ≤ tp) (htp : tp < 2 ^ 63) :
    toU64 (tp - cfg.lastTime last) / cfg.precision =
      (cfg.tick tp).toNat - last := by
  have hp := cfg.precision_pos
  have h0 : (0 : Int) ≤ cfg.lastTime last := by
    have := Int.mul_nonneg (Int.natCast_nonneg last) hp.le
    rw [Config.lastTime]
    omega
  rw [toU64_of_nonneg (by omega) (by omega)]
  have hsub : (tp - cfg.lastTime last) / (cfg.precision : Int)
      = cfg.tick tp - last := by
    rw [Config.lastTime, Config.tick, ← Int.sub_sub,
      Int.sub_mul_ediv_right _ _ hp.ne']
  have hle := (cfg.lastTime_le_iff last tp).1 hlast
  have hcast : (((tp - cfg.lastTime last).toNat / cfg.precision : Nat) : Int)
      = (tp - cfg.lastTime last) / (cfg.precision : Int) := by
    rw [Int.natCast_ediv, Int.toNat_of_nonneg (by omega)]
  rw [hsub] at hcast
  omega

/-- `Dispatch` files every timer properly. -/
theorem place_filed (cfg : Config) {last : Nat} {tp : Int}
    (hlast : cfg.lastTime last ≤ tp) (htp : tp < 2 ^ 63) :
    Filed last (cfg.tick tp).toNat (place cfg last tp) := by
  have hle := (cfg.lastTime_le_iff last tp).1 hlast
  have hbig := cfg.tick_lt htp
  have hdur := durVal_eq cfg hlast htp
  obtain ⟨t, ht⟩ : ∃ t, (cfg.tick tp).toNat = last + t :=
    ⟨(cfg.tick tp).toNat - last, by omega⟩
  rw [ht, Nat.add_sub_cancel_left] at hdur
  rw [ht]
  have h8 : t < 256 ^ 8 := by
    have : last + t < 2 ^ 47 := by omega
    omega
  simp only [place, hdur]
  rcases leadingLevel_spec h8 with ⟨i, hi, hi8, hge, hlt⟩ | ⟨hnone, rfl⟩
  · rw [hi]
    refine ⟨hi8, Nat.mod_lt _ (by decide), ?_, ?_, ?_⟩
    · exact nextVisit_add_digits (by decide) hge
    · intro h0
      obtain rfl : i = 0 := h0
      simp only [p8, digit, Nat.pow_zero, Nat.div_one]
      omega
    · intro _
      exact lt_nextVisit_add_digits (by decide) hge hlt
  · rw [hnone]
    have hv : SlotRef.VisitedAt ⟨0, p8 last 0⟩ last :=
      ⟨Nat.one_dvd last, rfl⟩
    refine ⟨Nat.zero_lt_succ 7, p8_lt _ _, SlotRef.next_le hv (Nat.le_refl _), ?_,
      fun h => absurd h (Nat.lt_irrefl 0)⟩
    intro _
    simp only [p8, digit, Nat.pow_zero, Nat.div_one]
    omega

/-! ## How a filing ages -/

/-- While the sweep has not reached the slot, the timer stays properly
filed. -/
theorem Filed.advance {p q due : Nat} {r : SlotRef} (h : Filed p due r)
    (hpq : p ≤ q) (hq : q ≤ r.next p) : Filed q due r where
  level_lt := h.level_lt
  offset_lt := h.offset_lt
  next_le := by
    rw [SlotRef.next_of_le h.offset_lt hpq hq]
    exact h.next_le
  low h0 := by
    obtain ⟨h1, h2⟩ := h.low h0
    exact ⟨by omega, h2⟩
  high h0 := by
    rw [SlotRef.next_of_le h.offset_lt hpq hq]
    exact h.high h0

/-- A properly filed timer is not overdue. -/
theorem Filed.le_due {p due : Nat} {r : SlotRef} (h : Filed p due r) :
    p ≤ due :=
  (r.le_next p).trans h.next_le

end Costream.Timer
