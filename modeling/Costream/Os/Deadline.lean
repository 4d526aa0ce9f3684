import Mathlib.Data.Nat.Notation
import Mathlib.Tactic.Ring

/-!
# The deadline of a wait for an OS event

`WaitForOsEvent` adds its timeout to the time of day, which has microseconds, and gives the sum to
`pthread_cond_timedwait`, which takes nanoseconds.  `deadline` is that sum in the types of the
source.  Where a sum of seconds does not fit into `time_t`, which is undefined in the source, it
wraps around here.

* `Proper` says what the deadline is to be.
* `deadline_proper_iff`: it is that, but for a sum of exactly one second below the seconds, which
  the test for the carry leaves as it is.
-/

namespace Costream.Os.Deadline

structure TimeVal where
  tv_sec : Int64
  tv_usec : Int64
  deriving DecidableEq

structure TimeSpec where
  tv_sec : Int64
  tv_nsec : Int64
  deriving DecidableEq

/-- An `unsigned int` in a sum of type `long`. -/
def toLong (x : UInt32) : Int64 := x.toUInt64.toInt64

def deadline (tp : TimeVal) (milli_seconds : UInt32) : TimeSpec :=
  let ts : TimeSpec := { tv_sec := tp.tv_sec, tv_nsec := tp.tv_usec * 1000 }
  let sec := milli_seconds / 1000
  let mSec := milli_seconds % 1000
  let ts := { ts with tv_sec := ts.tv_sec + toLong sec }
  let ts := { ts with tv_nsec := ts.tv_nsec + toLong (mSec * 1000000) }
  if ts.tv_nsec > 1000000000 then
    { tv_sec := ts.tv_sec + 1, tv_nsec := ts.tv_nsec - 1000000000 }
  else ts

/-! ## What it is to be -/

/-- What `gettimeofday` answers. -/
structure TimeVal.Valid (tp : TimeVal) : Prop where
  nonneg : 0 ≤ tp.tv_usec.toInt
  lt : tp.tv_usec.toInt < 10 ^ 6

def TimeVal.nanoseconds (tp : TimeVal) : ℤ := tp.tv_sec.toInt * 10 ^ 9 + tp.tv_usec.toInt * 10 ^ 3

def TimeSpec.nanoseconds (ts : TimeSpec) : ℤ := ts.tv_sec.toInt * 10 ^ 9 + ts.tv_nsec.toInt

structure Proper (tp : TimeVal) (milli_seconds : UInt32) : Prop where
  nonneg : 0 ≤ (deadline tp milli_seconds).tv_nsec.toInt
  lt : (deadline tp milli_seconds).tv_nsec.toInt < 10 ^ 9
  exact : (deadline tp milli_seconds).nanoseconds =
    tp.nanoseconds + (milli_seconds.toNat : ℤ) * 10 ^ 6
  /-- The product of type `unsigned int` does not overflow. -/
  product : (milli_seconds % 1000 * 1000000).toNat = (milli_seconds % 1000).toNat * 1000000

/-- The nanoseconds below the seconds, before the carry. -/
def fraction (tp : TimeVal) (milli_seconds : UInt32) : ℤ :=
  tp.tv_usec.toInt * 1000 + (milli_seconds.toNat % 1000 * 1000000 : ℕ)

/-! ## The arithmetic of the types -/

theorem toInt_toLong (x : UInt32) : (toLong x).toInt = x.toNat := by
  have hx : x.toNat < 2 ^ 32 := x.toNat_lt
  have hbits : (toLong x).toBitVec.toNat = x.toNat := by
    unfold toLong
    rw [UInt64.toBitVec_toInt64, UInt64.toNat_toBitVec, UInt32.toNat_toUInt64]
  rw [Int64.toInt, BitVec.toInt_eq_toNat_of_lt (by omega), hbits]

/-- What becomes of a sum that may be too large for `time_t`. -/
def wrap (x : ℤ) : ℤ := if x < 2 ^ 63 then x else x - 2 ^ 64

theorem wrap_eq_iff {x : ℤ} : wrap x = x ↔ x < 2 ^ 63 := by
  unfold wrap
  split <;> omega

theorem wrap_add_one {x : ℤ} (h : x < 2 ^ 63 + 2 ^ 32) : wrap (wrap x + 1) = wrap (x + 1) := by
  by_cases hx : x < 2 ^ 63
  · rw [wrap_eq_iff.2 hx]
  · have hwrap : wrap x = x - 2 ^ 64 := if_neg hx
    have hnext : wrap (x + 1) = x + 1 - 2 ^ 64 := if_neg (by omega)
    rw [hwrap, hnext, wrap_eq_iff.2 (by omega)]
    ring

/-- A sum with something that is not negative. -/
theorem toInt_add {x y : Int64} (hy : 0 ≤ y.toInt) :
    (x + y).toInt = wrap (x.toInt + y.toInt) := by
  have hx := x.le_toInt
  have hxlt := x.toInt_lt
  have hylt := y.toInt_lt
  unfold wrap
  rw [Int64.toInt_add, Int.bmod_def]
  split <;> split <;> omega

theorem product_toNat (milli_seconds : UInt32) :
    (milli_seconds % 1000 * 1000000).toNat = milli_seconds.toNat % 1000 * 1000000 := by
  have hthousand : (1000 : UInt32).toNat = 1000 := rfl
  have hmillion : (1000000 : UInt32).toNat = 1000000 := rfl
  rw [UInt32.toNat_mul, UInt32.toNat_mod, hthousand, hmillion]
  apply Nat.mod_eq_of_lt
  omega

variable {tp : TimeVal} {milli_seconds : UInt32}

theorem fraction_bounds (htp : tp.Valid) (milli_seconds : UInt32) :
    0 ≤ fraction tp milli_seconds ∧ fraction tp milli_seconds < 2 * 10 ^ 9 := by
  have hnonneg := htp.nonneg
  have hlt := htp.lt
  unfold fraction
  omega

/-- The nanoseconds before the carry, in the types of the source. -/
theorem toInt_fraction (htp : tp.Valid) :
    (tp.tv_usec * 1000 + toLong (milli_seconds % 1000 * 1000000)).toInt =
      fraction tp milli_seconds := by
  have hnonneg := htp.nonneg
  have hlt := htp.lt
  have hthousand : (1000 : Int64).toInt = 1000 := rfl
  have hscaled : (tp.tv_usec * 1000).toInt = tp.tv_usec.toInt * 1000 := by
    rw [Int64.toInt_mul, hthousand]
    exact Int.bmod_eq_of_le (by omega) (by omega)
  have hbound := fraction_bounds htp milli_seconds
  have hproduct : (toLong (milli_seconds % 1000 * 1000000)).toInt =
      (milli_seconds.toNat % 1000 * 1000000 : ℕ) := by
    rw [toInt_toLong, product_toNat]
  rw [toInt_add (by omega), hscaled, hproduct]
  apply wrap_eq_iff.2
  unfold fraction at hbound
  omega

/-- The seconds of the deadline, before the carry. -/
def seconds (tp : TimeVal) (milli_seconds : UInt32) : ℤ :=
  tp.tv_sec.toInt + (milli_seconds.toNat / 1000 : ℕ)

theorem toInt_seconds (tp : TimeVal) (milli_seconds : UInt32) :
    (tp.tv_sec + toLong (milli_seconds / 1000)).toInt = wrap (seconds tp milli_seconds) := by
  have hthousand : (1000 : UInt32).toNat = 1000 := rfl
  have hsec : (toLong (milli_seconds / 1000)).toInt = (milli_seconds.toNat / 1000 : ℕ) := by
    rw [toInt_toLong, UInt32.toNat_div, hthousand]
  rw [toInt_add (by omega), hsec]
  rfl

theorem toInt_seconds_add_one (tp : TimeVal) (milli_seconds : UInt32) :
    (tp.tv_sec + toLong (milli_seconds / 1000) + 1).toInt =
      wrap (seconds tp milli_seconds + 1) := by
  have hone : (1 : Int64).toInt = 1 := rfl
  have hlt := tp.tv_sec.toInt_lt
  have hms := milli_seconds.toNat_lt
  have hbound : seconds tp milli_seconds < 2 ^ 63 + 2 ^ 32 := by
    unfold seconds
    omega
  rw [toInt_add (by decide), toInt_seconds, hone]
  exact wrap_add_one hbound

/-! ## The deadline -/

theorem deadline_eq (tp : TimeVal) (milli_seconds : UInt32) : deadline tp milli_seconds =
    if tp.tv_usec * 1000 + toLong (milli_seconds % 1000 * 1000000) > 1000000000 then
      { tv_sec := tp.tv_sec + toLong (milli_seconds / 1000) + 1,
        tv_nsec := tp.tv_usec * 1000 + toLong (milli_seconds % 1000 * 1000000) - 1000000000 }
    else
      { tv_sec := tp.tv_sec + toLong (milli_seconds / 1000),
        tv_nsec := tp.tv_usec * 1000 + toLong (milli_seconds % 1000 * 1000000) } := rfl

theorem carry_iff (htp : tp.Valid) :
    tp.tv_usec * 1000 + toLong (milli_seconds % 1000 * 1000000) > 1000000000 ↔
      10 ^ 9 < fraction tp milli_seconds := by
  have hbillion : (1000000000 : Int64).toInt = 10 ^ 9 := rfl
  rw [gt_iff_lt, Int64.lt_iff_toInt_lt, toInt_fraction htp, hbillion]

/-- Without a carry. -/
theorem deadline_of_le (htp : tp.Valid) (hle : fraction tp milli_seconds ≤ 10 ^ 9) :
    (deadline tp milli_seconds).tv_sec.toInt = wrap (seconds tp milli_seconds) ∧
      (deadline tp milli_seconds).tv_nsec.toInt = fraction tp milli_seconds := by
  rw [deadline_eq, if_neg ((carry_iff htp).not.2 (not_lt.2 hle))]
  exact ⟨toInt_seconds tp milli_seconds, toInt_fraction htp⟩

/-- With a carry. -/
theorem deadline_of_lt (htp : tp.Valid) (hlt : 10 ^ 9 < fraction tp milli_seconds) :
    (deadline tp milli_seconds).tv_sec.toInt = wrap (seconds tp milli_seconds + 1) ∧
      (deadline tp milli_seconds).tv_nsec.toInt = fraction tp milli_seconds - 10 ^ 9 := by
  have hbillion : (1000000000 : Int64).toInt = 10 ^ 9 := rfl
  have hbound := fraction_bounds htp milli_seconds
  have hnsec : (tp.tv_usec * 1000 + toLong (milli_seconds % 1000 * 1000000) - 1000000000).toInt =
      fraction tp milli_seconds - 10 ^ 9 := by
    rw [Int64.toInt_sub, toInt_fraction htp, hbillion]
    exact Int.bmod_eq_of_le (by omega) (by omega)
  rw [deadline_eq, if_pos ((carry_iff htp).2 hlt)]
  exact ⟨toInt_seconds_add_one tp milli_seconds, hnsec⟩

/-- What the deadline is to denote. -/
theorem nanoseconds_add (tp : TimeVal) (milli_seconds : UInt32) :
    tp.nanoseconds + (milli_seconds.toNat : ℤ) * 10 ^ 6 =
      seconds tp milli_seconds * 10 ^ 9 + fraction tp milli_seconds := by
  unfold TimeVal.nanoseconds seconds fraction
  omega

/-- The deadline is exact when its nanoseconds are the fraction without the carry, and its seconds
fit. -/
theorem exact_iff (carry : ℤ)
    (hsec : (deadline tp milli_seconds).tv_sec.toInt = wrap (seconds tp milli_seconds + carry))
    (hnsec : (deadline tp milli_seconds).tv_nsec.toInt =
      fraction tp milli_seconds - carry * 10 ^ 9) :
    (deadline tp milli_seconds).nanoseconds =
        tp.nanoseconds + (milli_seconds.toNat : ℤ) * 10 ^ 6 ↔
      seconds tp milli_seconds + carry < 2 ^ 63 := by
  rw [nanoseconds_add, ← wrap_eq_iff]
  unfold TimeSpec.nanoseconds
  rw [hsec, hnsec]
  omega

/-- The deadline is what it is to be exactly if the nanoseconds below the seconds do not add up to
one second, and the seconds fit into `time_t`. -/
theorem deadline_proper_iff (htp : tp.Valid) : Proper tp milli_seconds ↔
    fraction tp milli_seconds ≠ 10 ^ 9 ∧
      seconds tp milli_seconds + fraction tp milli_seconds / 10 ^ 9 < 2 ^ 63 := by
  have hbound := fraction_bounds htp milli_seconds
  have hproduct : (milli_seconds % 1000 * 1000000).toNat =
      (milli_seconds % 1000).toNat * 1000000 := product_toNat milli_seconds
  rcases lt_trichotomy (10 ^ 9) (fraction tp milli_seconds) with hlt | heq | hgt
  · obtain ⟨hsec, hnsec⟩ := deadline_of_lt htp hlt
    have hcarry : fraction tp milli_seconds / 10 ^ 9 = 1 := by omega
    have hexact := exact_iff 1 hsec (by rw [hnsec]; omega)
    rw [hcarry, ← hexact]
    constructor
    · intro h
      exact ⟨hlt.ne', h.exact⟩
    · intro h
      exact ⟨by rw [hnsec]; omega, by rw [hnsec]; omega, h.2, hproduct⟩
  · obtain ⟨_, hnsec⟩ := deadline_of_le htp heq.ge
    constructor
    · intro h
      have hless := h.lt
      rw [hnsec, ← heq] at hless
      exact absurd hless (lt_irrefl _)
    · intro h
      exact absurd heq.symm h.1
  · obtain ⟨hsec, hnsec⟩ := deadline_of_le htp hgt.le
    have hcarry : fraction tp milli_seconds / 10 ^ 9 = 0 := by omega
    have hexact := exact_iff 0 (by rw [hsec, add_zero]) (by rw [hnsec]; omega)
    rw [hcarry, ← hexact]
    constructor
    · intro h
      exact ⟨hgt.ne, h.exact⟩
    · intro h
      exact ⟨by rw [hnsec]; omega, by rw [hnsec]; omega, h.2, hproduct⟩

/-- Half a second, and a timeout of 250 milliseconds. -/
theorem deadline_proper_half : Proper ⟨1700000000, 500000⟩ 250 :=
  (deadline_proper_iff ⟨by decide, by decide⟩).2 ⟨by decide, by decide⟩

/-- Half a second, and a timeout of half a second. -/
theorem not_proper : ¬ ∀ (tp : TimeVal) (milli_seconds : UInt32), tp.Valid →
    Proper tp milli_seconds := by
  intro h
  have hlt := (h ⟨1700000000, 500000⟩ 500 ⟨by decide, by decide⟩).lt
  exact absurd hlt (by decide)

end Costream.Os.Deadline
