import Costream.Timer.Machine

/-!
# `Timer::NextTrigger`

`NextTrigger` says until when a caller of `RunOnce` may sleep.  It looks at the levels of the wheel
one after the other, from the slot of `point_` on, and takes the first slot that is not empty.  The
bytes of its digit are put into the tick of `now + max`, the bytes above are cleared in both ticks,
and the difference is what there is to sleep.

* `Wheel.nextTrigger` is the function; `Wheel` is what it sees of a timer.
* `NotLate` is what it is for.  `Wheel.Busy` takes from `RunOnce` what it has to do at a position.
* `First` is the slot at which the search stops, `Clear` says that it has come to its end, and
  `search_first` is what it makes of the two.
* `Wheel.Due` says when the result is not late.

The bytes below the one that is set keep the value of the horizon.  A slot of a lower level is taken
even if one of a higher level comes up before it, and the slot of the horizon is not looked at.
-/

namespace Costream.Timer

open Trace Radix

/-! ## The code -/

/-- What `NextTrigger` sees of a timer: whether `completeSlot_` and a slot have an element. -/
structure Wheel where
  point : Nat
  complete : Bool
  full : SlotRef → Bool

/-- The conversion of a `uint64_t` to a signed count. -/
def toI64 (n : Nat) : Int := Int.bmod n (2 ^ 64)

/-- `p.p8[i] = v`. -/
def setP8 (p i v : Nat) : Nat := p - p8 p i * 256 ^ i + v * 256 ^ i

/-- The bytes above `i` are set to 0. -/
def clearAbove (p i : Nat) : Nat := p % 256 ^ (i + 1)

/-- The loop over the bytes from `n - 1` down: the first one that is less in `last`. -/
def topLevel (last p : Nat) : Nat → Nat
  | 0 => 0
  | i + 1 => if p8 last i < p8 p i then i else topLevel last p i

namespace Wheel

variable (w : Wheel)

/-- The loop over the slots of level `i`: the `k` at which it stops. -/
def scanLevel (last i : Nat) : Option Nat :=
  (List.range 256).find? fun k => w.full ⟨i, (k + p8 last i) % 256⟩

/-- The loop over `n` levels from `i` on: the level and the `k` at which it stops. -/
def scan (last : Nat) : Nat → Nat → Option (Nat × Nat)
  | _, 0 => none
  | i, n + 1 =>
    match w.scanLevel last i with
    | some k => some (i, k)
    | none => scan last (i + 1) n

/-- `p` and `last` at `check_done`. -/
def search (last p : Nat) : Nat × Nat :=
  let topLevel := topLevel last p 8
  match w.scan last 0 topLevel with
  | some (i, k) =>
    let j := (k + p8 last i) % 256
    let p := clearAbove (setP8 p i j) i
    let last := clearAbove last i
    (if j < p8 last i then setP8 p (i + 1) 1 else p, last)
  | none =>
    let first := p8 last topLevel
    match (List.range (p8 p topLevel - first)).find? fun k => w.full ⟨topLevel, first + k⟩ with
    | some k => (setP8 p topLevel (first + k), last)
    | none => (p, last)

/-- `Timer::NextTrigger`, with one reading of the clock.  If `now + max` overflows there is no
result. -/
def nextTrigger (cfg : Config) (now max : Int) : Option Int :=
  if max = 0 then some now
  else if w.complete then some now
  else if 2 ^ 63 ≤ now + max then none
  else
    let durVal := cfg.destVal (now + max)
    if durVal ≤ w.point then some now
    else
      let (p, last) := w.search w.point durVal
      if last < p then
        some (toI64 ((p - last) * cfg.precision + (w.point * cfg.precision + cfg.begin_)))
      else some now

/-! ## What it is for -/

/-- `RunOnce` from tick `p` to the next one has something to trigger or to dispatch. -/
def Busy (p : Nat) : Prop :=
  ∃ r, w.full r = true ∧ (r = Sweep.init.triggered p ∨ r ∈ Sweep.init.turned p)

end Wheel

/-- A caller who sleeps until `t` does not sleep longer than `max`, and not past the start of a tick
at which `RunOnce` would have something to do. -/
structure NotLate (cfg : Config) (w : Wheel) (now max t : Int) : Prop where
  bounded : 0 < max → t ≤ now + max
  complete : w.complete = true → t ≤ now
  busy : t ≤ now ∨ ∀ p, w.point ≤ p → w.Busy p → t ≤ cfg.lastTime (p + 1)

/-- The state of a timer as `NextTrigger` sees it. -/
def State.wheel {F : Type*} (s : State F) : Wheel where
  point := s.point
  complete := !(s.queue .complete).isEmpty
  full r := !(s.queue (.slot r)).isEmpty

/-! ## Where the search stops -/

/-- The search with the horizon `p` stops at level `m`, at the slot to which the wheel of this level
has `k` moves to go: nothing is in the levels below, nor in the slots before.  At the level of the
first different byte it does not come to the slot of the horizon. -/
structure First (w : Wheel) (p m k : Nat) : Prop where
  within : w.point / 256 ^ (m + 1) < p / 256 ^ (m + 1) ∨
    w.point / 256 ^ (m + 1) = p / 256 ^ (m + 1) ∧ p8 w.point m + k < p8 p m
  lt : k < 256
  full : w.full ⟨m, (k + p8 w.point m) % 256⟩ = true
  first : ∀ k' < k, w.full ⟨m, (k' + p8 w.point m) % 256⟩ = false
  below : ∀ i < m, ∀ j < 256, w.full ⟨i, j⟩ = false

/-- The position at which the wheel of level `m` has moved `k` times. -/
def Wheel.moves (w : Wheel) (m k : Nat) : Nat := (w.point / 256 ^ m + k) * 256 ^ m

/-- A slot of a level above `m` is to be dispatched at position `q`. -/
def Wheel.Above (w : Wheel) (m q : Nat) : Prop :=
  ∃ r, w.full r = true ∧ m < r.level ∧ r ∈ Sweep.init.turned q

/-- The search stops at the slot of `point_` itself: it is not to be dispatched at once, or the
bytes of the horizon below are not more than one tick. -/
def Wheel.Stays (cfg : Config) (w : Wheel) (now : Int) (p m : Nat) : Prop :=
  ¬ 256 ^ m ∣ w.point ∨ w.point = 0 ∨ p % 256 ^ m ≤ 1 ∨
    ((w.point + p % 256 ^ m : Nat) : Int) ≤ cfg.tick now

/-- The search stops at a slot to which the wheel has to move.  This is before the horizon; the
bytes of the horizon below are not more than one tick, and no slot of a higher level is dispatched
before. -/
def Wheel.Moves (cfg : Config) (w : Wheel) (now max : Int) (p m k : Nat) : Prop :=
  (0 < max → w.moves m k ≤ p) ∧
    (((w.moves m k + p % 256 ^ m : Nat) : Int) ≤ cfg.tick now ∨
      p % 256 ^ m ≤ 1 ∧ ∀ q, w.point ≤ q → w.Above m q → w.moves m k + p % 256 ^ m ≤ q + 1)

/-- The start of tick `n` does not fit in 63 bits.  What it wraps to is not late: this is so when it
fits in 64 bits. -/
def Wheel.Wraps (cfg : Config) (w : Wheel) (now : Int) (n : Nat) : Prop :=
  n ≤ w.point ∨ toI64 (n * cfg.precision + cfg.begin_) ≤ now ∨
    ∀ q, w.point ≤ q → w.Busy q → toI64 (n * cfg.precision + cfg.begin_) ≤ cfg.lastTime (q + 1)

/-- What is to hold of the slot at which the search stops. -/
structure Wheel.Stops (cfg : Config) (w : Wheel) (now max : Int) (p m k : Nat) : Prop where
  stays : cfg.lastTime (w.moves m k + p % 256 ^ m) < 2 ^ 63 → k = 0 → w.Stays cfg now p m
  moves : cfg.lastTime (w.moves m k + p % 256 ^ m) < 2 ^ 63 → k ≠ 0 → w.Moves cfg now max p m k
  wraps : 2 ^ 63 ≤ cfg.lastTime (w.moves m k + p % 256 ^ m) →
    w.Wraps cfg now (w.moves m k + p % 256 ^ m)

/-- The search with the horizon `p` has not found a slot.  It has looked at the levels below `m`
and, in level `m`, at the slots before that of the horizon. -/
structure Clear (w : Wheel) (p m : Nat) : Prop where
  above : w.point / 256 ^ (m + 1) = p / 256 ^ (m + 1)
  less : p8 w.point m < p8 p m
  below : ∀ i < m, ∀ j < 256, w.full ⟨i, j⟩ = false
  before : ∀ j, p8 w.point m ≤ j → j < p8 p m → w.full ⟨m, j⟩ = false

/-- What is to hold when there is no slot: the slot of the horizon, at which the search does not
look, is empty or comes up with the horizon, and no slot of a higher level is to be dispatched at
once. -/
def Wheel.Passes (cfg : Config) (w : Wheel) (now : Int) (p m : Nat) : Prop :=
  (p : Int) ≤ cfg.tick now ∨
    (w.full ⟨m, p8 p m⟩ = true → p % 256 ^ m ≤ 1) ∧ (w.Above m w.point → p ≤ w.point + 1)

/-- When the result is not late. -/
def Wheel.Due (cfg : Config) (w : Wheel) (now max : Int) : Prop :=
  max = 0 ∨ w.complete = true ∨
    now + max < 2 ^ 63 ∧
      let p := cfg.destVal (now + max)
      p ≤ w.point ∨
        (∀ m k, First w p m k → w.Stops cfg now max p m k) ∧
          ∀ m, Clear w p m → now + max < cfg.begin_ ∨ w.Passes cfg now p m

/-! ## Bytes -/

theorem div_succ (q m : Nat) : q / 256 ^ (m + 1) = q / 256 ^ m / 256 := by
  rw [Nat.pow_succ, Nat.div_div_eq_div_mul]

/-- A number is what is above a byte, the byte, and what is below it. -/
theorem bytes_eq (p i : Nat) :
    p / 256 ^ (i + 1) * 256 ^ (i + 1) + p8 p i * 256 ^ i + p % 256 ^ i = p := by
  have hhigh : p / 256 ^ (i + 1) * 256 ^ (i + 1) + p8 p i * 256 ^ i =
      (p / 256 ^ i / 256 * 256 + p / 256 ^ i % 256) * 256 ^ i := by
    rw [div_succ, p8, digit]
    ring
  rw [hhigh, Nat.div_add_mod', Nat.div_add_mod']

theorem setP8_eq (p i v : Nat) :
    setP8 p i v = p / 256 ^ (i + 1) * 256 ^ (i + 1) + v * 256 ^ i + p % 256 ^ i := by
  have h := bytes_eq p i
  unfold setP8
  omega

/-- The bytes up to `i`. -/
theorem clearAbove_eq (p i : Nat) : clearAbove p i = p8 p i * 256 ^ i + p % 256 ^ i := by
  have h := bytes_eq p i
  have hmod := Nat.div_add_mod' p (256 ^ (i + 1))
  unfold clearAbove
  omega

theorem setP8_low {i v : Nat} (hv : v < 256) (p : Nat) :
    clearAbove (setP8 p i v) i = v * 256 ^ i + p % 256 ^ i := by
  have hm : 0 < 256 ^ i := Nat.pow_pos (by decide)
  have hlow : p % 256 ^ i < 256 ^ i := Nat.mod_lt _ hm
  have hlt : v * 256 ^ i + p % 256 ^ i < 256 ^ (i + 1) := by
    have hle := Nat.mul_le_mul_right (256 ^ i) (Nat.succ_le_of_lt hv)
    rw [Nat.succ_mul] at hle
    rw [Nat.pow_succ, Nat.mul_comm (256 ^ i) 256]
    omega
  rw [clearAbove, setP8_eq, Nat.add_assoc, Nat.mul_add_mod', Nat.mod_eq_of_lt hlt]

/-- The byte above is clear, so a carry is added. -/
theorem setP8_carry {n i : Nat} (h : n < 256 ^ (i + 1)) :
    setP8 n (i + 1) 1 = n + 256 ^ (i + 1) := by
  rw [setP8, p8, digit, Nat.div_eq_of_lt h]
  simp

/-- The numbers agree above the byte that `topLevel` finds, and are different in it. -/
theorem topLevel_spec {last p n : Nat} (hlt : last < p) (heq : last / 256 ^ n = p / 256 ^ n) :
    topLevel last p n < n ∧
      last / 256 ^ (topLevel last p n + 1) = p / 256 ^ (topLevel last p n + 1) ∧
      p8 last (topLevel last p n) < p8 p (topLevel last p n) := by
  induction n with
  | zero =>
    simp only [Nat.pow_zero, Nat.div_one] at heq
    omega
  | succ n ih =>
    rw [topLevel]
    split
    · rename_i hdigit
      exact ⟨Nat.lt_succ_self n, heq, hdigit⟩
    · rename_i hdigit
      have hle : last / 256 ^ n ≤ p / 256 ^ n := Nat.div_le_div_right hlt.le
      have heq' : last / 256 ^ n = p / 256 ^ n := by
        simp only [p8, digit] at hdigit
        rw [div_succ, div_succ] at heq
        omega
      obtain ⟨hlevel, hspec⟩ := ih heq'
      exact ⟨hlevel.trans (Nat.lt_succ_self n), hspec⟩

/-! ## The search -/

variable {w : Wheel} {last p m k m' k' i j n : Nat}

theorem scanLevel_some (h : w.scanLevel last i = some k) : k < 256 ∧
    w.full ⟨i, (k + p8 last i) % 256⟩ = true ∧
      ∀ k' < k, w.full ⟨i, (k' + p8 last i) % 256⟩ = false := by
  obtain ⟨hfull, hmem, hfirst⟩ := List.find?_range_eq_some.1 h
  refine ⟨List.mem_range.1 hmem, hfull, fun k' hk' => ?_⟩
  have hnot := hfirst k' hk'
  rwa [Bool.not_eq_true'] at hnot

theorem scanLevel_none (h : w.scanLevel last i = none) (hj : j < 256) : w.full ⟨i, j⟩ = false := by
  have hlt := p8_lt last i
  have hoffset : ((j + (256 - p8 last i)) % 256 + p8 last i) % 256 = j := by omega
  have hnot := List.find?_range_eq_none.1 h ((j + (256 - p8 last i)) % 256)
    (Nat.mod_lt _ (by decide))
  rwa [hoffset, Bool.not_eq_true'] at hnot

theorem scan_some (h : w.scan last i n = some (m, k)) : i ≤ m ∧ m < i + n ∧
    w.scanLevel last m = some k ∧ ∀ i', i ≤ i' → i' < m → w.scanLevel last i' = none := by
  induction n generalizing i with
  | zero => cases h
  | succ n ih =>
    rw [Wheel.scan] at h
    cases hlevel : w.scanLevel last i with
    | some k' =>
      rw [hlevel] at h
      cases h
      exact ⟨Nat.le_refl _, by omega, hlevel, fun i' h1 h2 => by omega⟩
    | none =>
      rw [hlevel] at h
      obtain ⟨hle, hlt, hsome, hnone⟩ := ih h
      refine ⟨by omega, by omega, hsome, fun i' h1 h2 => ?_⟩
      rcases Nat.eq_or_lt_of_le h1 with rfl | h1
      · exact hlevel
      · exact hnone i' h1 h2

theorem scan_none (h : w.scan last i n = none) :
    ∀ i', i ≤ i' → i' < i + n → w.scanLevel last i' = none := by
  induction n generalizing i with
  | zero => exact fun i' h1 h2 => by omega
  | succ n ih =>
    rw [Wheel.scan] at h
    cases hlevel : w.scanLevel last i with
    | some k' =>
      rw [hlevel] at h
      cases h
    | none =>
      rw [hlevel] at h
      intro i' h1 h2
      rcases Nat.eq_or_lt_of_le h1 with rfl | h1
      · exact hlevel
      · exact ih h i' h1 (by omega)

/-- Above the first different byte the bytes agree. -/
theorem Clear.above_div (h : Clear w p m) (hlt : m < m') :
    w.point / 256 ^ m' = p / 256 ^ m' := by
  obtain ⟨e, rfl⟩ := Nat.exists_eq_add_of_le (Nat.succ_le_of_lt hlt)
  rw [Nat.succ_eq_add_one, Nat.pow_add, ← Nat.div_div_eq_div_mul, ← Nat.div_div_eq_div_mul, h.above]

/-- There is one first different byte. -/
theorem Clear.unique (h : Clear w p m) (h' : Clear w p m') : m = m' := by
  have hbyte : ∀ i, w.point / 256 ^ i = p / 256 ^ i → p8 w.point i = p8 p i := fun i heq => by
    rw [p8, p8, digit, digit, heq]
  rcases Nat.lt_trichotomy m m' with hlt | heq | hlt
  · exact absurd (hbyte m' (h.above_div hlt)) (Nat.ne_of_lt h'.less)
  · exact heq
  · exact absurd (hbyte m (h'.above_div hlt)) (Nat.ne_of_lt h.less)

/-- There is one slot at which the search stops. -/
theorem First.unique (h : First w p m k) (h' : First w p m' k') : m = m' ∧ k = k' := by
  have hmod : ∀ n : Nat, n % 256 < 256 := fun n => Nat.mod_lt n (by decide)
  have hlevel : m = m' := by
    rcases Nat.lt_trichotomy m m' with hlt | heq | hlt
    · exact absurd h.full (by rw [h'.below m hlt _ (hmod _)]; exact Bool.false_ne_true)
    · exact heq
    · exact absurd h'.full (by rw [h.below m' hlt _ (hmod _)]; exact Bool.false_ne_true)
  subst hlevel
  refine ⟨rfl, ?_⟩
  rcases Nat.lt_trichotomy k k' with hlt | heq | hlt
  · exact absurd h.full (by rw [h'.first k hlt]; exact Bool.false_ne_true)
  · exact heq
  · exact absurd h'.full (by rw [h.first k' hlt]; exact Bool.false_ne_true)

/-- `point_` as the number of moves of a wheel, and what is below. -/
theorem moves_eq (w : Wheel) (m k : Nat) :
    w.moves m k + w.point % 256 ^ m = w.point + k * 256 ^ m := by
  have h := Nat.div_add_mod' w.point (256 ^ m)
  unfold Wheel.moves
  rw [Nat.add_mul]
  omega

/-- What `p` and `last` are worth at `check_done`, counted from `point_`. -/
def Wheel.Aims (w : Wheel) (r : Nat × Nat) (n : Nat) : Prop :=
  (r.2 < r.1 ↔ w.point < n) ∧ (r.2 < r.1 → r.1 - r.2 + w.point = n)

theorem aims_self : w.Aims (p, w.point) p :=
  ⟨Iff.rfl, fun h => Nat.sub_add_cancel (Nat.le_of_lt h)⟩

/-- What is left of the ticks when a slot below the first different byte has been found. -/
theorem search_below (hk : k < 256) :
    let j := (k + p8 w.point m) % 256
    w.Aims (if j < p8 (clearAbove w.point m) m
        then setP8 (clearAbove (setP8 p m j) m) (m + 1) 1
        else clearAbove (setP8 p m j) m, clearAbove w.point m)
      (w.moves m k + p % 256 ^ m) := by
  intro j
  have hd := p8_lt w.point m
  have hj : j < 256 := Nat.mod_lt _ (by decide)
  have hbyte : p8 (clearAbove w.point m) m = p8 w.point m := by
    rw [p8, p8, digit, digit, clearAbove, Nat.pow_succ, Nat.mod_mul_right_div_self, Nat.mod_mod]
  have hvalue : (if j < p8 (clearAbove w.point m) m
      then setP8 (clearAbove (setP8 p m j) m) (m + 1) 1
      else clearAbove (setP8 p m j) m) = (p8 w.point m + k) * 256 ^ m + p % 256 ^ m := by
    rw [hbyte]
    split
    · rename_i hcarry
      have hsum : p8 w.point m + k = j + 256 := by omega
      have hsmall : clearAbove (setP8 p m j) m < 256 ^ (m + 1) :=
        Nat.mod_lt _ (Nat.pow_pos (by decide))
      rw [setP8_carry hsmall, setP8_low hj, hsum, Nat.add_mul, Nat.pow_succ]
      omega
    · rename_i hcarry
      have hsum : p8 w.point m + k = j := by omega
      rw [setP8_low hj, hsum]
  have hmoves := moves_eq w m k
  rw [hvalue, clearAbove_eq, Nat.add_mul]
  constructor
  · show _ < _ ↔ _ < _
    generalize p8 w.point m * 256 ^ m = x at *
    generalize k * 256 ^ m = y at *
    omega
  · show _ < _ → _ - _ + _ = _
    generalize p8 w.point m * 256 ^ m = x at *
    generalize k * 256 ^ m = y at *
    omega

/-- What the search makes of the slot at which it stops. -/
theorem search_first (hlt : w.point < p) (hp : p < 256 ^ 8) :
    (∃ m k, First w p m k ∧ w.Aims (w.search w.point p) (w.moves m k + p % 256 ^ m)) ∨
      ∃ m, Clear w p m ∧ w.Aims (w.search w.point p) p := by
  have hzero : ∀ q < 256 ^ 8, q / 256 ^ 8 = 0 := fun q hq => Nat.div_eq_of_lt hq
  obtain ⟨-, heq, hdigit⟩ := topLevel_spec (n := 8) hlt
    ((hzero _ (hlt.trans hp)).trans (hzero p hp).symm)
  unfold Wheel.search
  dsimp only
  generalize topLevel w.point p 8 = top at heq hdigit ⊢
  have hhigh : ∀ m, top < m → w.point / 256 ^ m = p / 256 ^ m := by
    intro m hm
    obtain ⟨e, rfl⟩ := Nat.exists_eq_add_of_le hm
    rw [Nat.pow_add, ← Nat.div_div_eq_div_mul, ← Nat.div_div_eq_div_mul, heq]
  have htop : w.point / 256 ^ top < p / 256 ^ top := by
    rw [div_succ, div_succ] at heq
    simp only [p8, digit] at hdigit
    omega
  cases hscan : w.scan w.point 0 top with
  | some result =>
    obtain ⟨m, k⟩ := result
    obtain ⟨-, hm, hsome, hnone⟩ := scan_some hscan
    obtain ⟨hk, hfull, hfirst⟩ := scanLevel_some hsome
    left
    refine ⟨m, k, ⟨.inl ?_, hk, hfull, hfirst, fun i hi j hj =>
      scanLevel_none (hnone i (Nat.zero_le i) hi) hj⟩, search_below hk⟩
    by_contra hle
    obtain ⟨e, he⟩ := Nat.exists_eq_add_of_le (show m + 1 ≤ top by omega)
    have hdiv := Nat.div_le_div_right (c := 256 ^ e) (Nat.not_lt.1 hle)
    rw [Nat.div_div_eq_div_mul, Nat.div_div_eq_div_mul, ← Nat.pow_add, ← he] at hdiv
    omega
  | none =>
    have hbelow : ∀ i < top, ∀ j < 256, w.full ⟨i, j⟩ = false := fun i hi j hj =>
      scanLevel_none (scan_none hscan i (Nat.zero_le i) (by omega)) hj
    dsimp only
    cases hfind : (List.range (p8 p top - p8 w.point top)).find?
        fun k => w.full ⟨top, p8 w.point top + k⟩ with
    | some k =>
      obtain ⟨hfull, hmem, hfirst⟩ := List.find?_range_eq_some.1 hfind
      have hk := List.mem_range.1 hmem
      have hbyte := p8_lt p top
      left
      refine ⟨top, k, ⟨.inr ⟨heq, by omega⟩, by omega, ?_, fun k' hk' => ?_, hbelow⟩, ?_⟩
      · rw [Nat.mod_eq_of_lt (by omega), Nat.add_comm]
        exact hfull
      · have hnot := hfirst k' hk'
        rw [Bool.not_eq_true'] at hnot
        rw [Nat.mod_eq_of_lt (by omega), Nat.add_comm]
        exact hnot
      · have hvalue : setP8 p top (p8 w.point top + k) = w.moves top k + p % 256 ^ top := by
          have hpoint := bytes_eq w.point top
          have hmoves := moves_eq w top k
          rw [setP8_eq, ← heq, Nat.add_mul]
          omega
        dsimp only
        rw [hvalue]
        exact aims_self
    | none =>
      right
      refine ⟨top, ⟨heq, hdigit, hbelow, fun j hge hlt => ?_⟩, aims_self⟩
      have hnot := List.find?_range_eq_none.1 hfind (j - p8 w.point top) (by omega)
      rwa [Nat.add_sub_cancel' hge, Bool.not_eq_true'] at hnot

/-- When it has not found a slot, there is none at which it would stop. -/
theorem Clear.not_first (h : Clear w p m) : ¬ First w p m' k := by
  intro h'
  rcases Nat.lt_trichotomy m' m with hlt | rfl | hlt
  · have hempty := h.below m' hlt _ (Nat.mod_lt (k + p8 w.point m') (by decide))
    exact Bool.false_ne_true (hempty.symm.trans h'.full)
  · rcases h'.within with hhigh | ⟨-, hdigit⟩
    · exact absurd h.above (Nat.ne_of_lt hhigh)
    · have hbyte := p8_lt p m'
      have hempty := h.before (k + p8 w.point m') (by omega) (by omega)
      have hfull := h'.full
      rw [Nat.mod_eq_of_lt (by omega), hempty] at hfull
      cases hfull
  · have hhigh := h.above_div hlt
    rcases h'.within with hless | ⟨-, hdigit⟩
    · rw [h.above_div (hlt.trans (Nat.lt_succ_self _))] at hless
      exact Nat.lt_irrefl _ hless
    · rw [p8, p8, digit, digit, hhigh] at hdigit
      omega

/-! ## What there is to do at a position -/

/-- `RunOnce` of one tick handles the slots that the wheels enter at its position. -/
theorem handled_iff {r : SlotRef} (hp : p < 256 ^ 8) :
    r = Sweep.init.triggered p ∨ r ∈ Sweep.init.turned p ↔
      r.VisitedAt p ∧ (r.level = 0 ∨ 0 < p) := by
  have hpos : Sweep.init.pos p = p := Nat.mod_eq_of_lt hp
  have htriggered : Sweep.init.triggered p = ⟨0, p8 p 0⟩ := by
    rw [Sweep.triggered, hpos]
    rfl
  have hturned : Sweep.init.turned p = cascade p 8 0 (p8 p 0) := by
    rw [Sweep.turned, hpos]
    rfl
  rw [htriggered, hturned]
  obtain ⟨level, offset⟩ := r
  rcases Nat.eq_zero_or_pos level with rfl | hlevel
  · have hnot : (⟨0, offset⟩ : SlotRef) ∉ cascade p 8 0 (p8 p 0) := fun hmem =>
      absurd ((cascade_levels p 8 0 _).1 _ hmem) (Nat.lt_irrefl 0)
    have hvisited : SlotRef.VisitedAt ⟨0, offset⟩ p ↔ p8 p 0 = offset :=
      ⟨fun h => h.2, fun h => ⟨Nat.one_dvd p, h⟩⟩
    rw [hvisited, SlotRef.mk.injEq]
    simp only [hnot, or_false, true_and, true_or, and_true]
    exact eq_comm
  · have hne : (⟨level, offset⟩ : SlotRef) ≠ ⟨0, p8 p 0⟩ := by
      rw [Ne, SlotRef.mk.injEq]
      omega
    have hlevel0 : level ≠ 0 := by omega
    simp only [hne, false_or, hlevel0]
    rcases Nat.eq_zero_or_pos p with rfl | hp0
    · rw [cascade_zero]
      simp
    · rw [mem_cascade hp0 hp 8 0 (Nat.le_refl 8) (by rwa [floor_zero]), floor_zero]
      simp only [hlevel, hp0, true_and, and_true]
      exact and_congr_right fun _ => eq_comm

/-- Nothing is to be done before the wheel of the lowest level that is not empty moves. -/
theorem busy_ge (hbelow : ∀ i < m, ∀ j < 256, w.full ⟨i, j⟩ = false) (hp : p < 256 ^ 8)
    (h : w.Busy p) : 256 ^ m ∣ p ∧ (m = 0 ∨ 0 < p) := by
  obtain ⟨⟨level, offset⟩, hfull, hhandled⟩ := h
  obtain ⟨⟨hdvd, hdigit⟩, hlevel⟩ := (handled_iff hp).1 hhandled
  have hm : m ≤ level := by
    by_contra hlt
    have hoffset : offset < 256 := lt_of_eq_of_lt hdigit.symm (p8_lt p level)
    exact Bool.false_ne_true ((hbelow level (by omega) offset hoffset).symm.trans hfull)
  refine ⟨(Nat.pow_dvd_pow 256 hm).trans hdvd, ?_⟩
  rcases hlevel with hzero | hpos
  · exact .inl (Nat.le_zero.1 (hm.trans_eq hzero))
  · exact .inr hpos

/-! ## The time -/

variable {cfg : Config} {now max t : Int}

theorem toI64_small (h : n < 2 ^ 63) : toI64 n = n := by
  unfold toI64
  rw [Int.bmod_def]
  split
  · omega
  · omega

/-- A count that does not fit is negative. -/
theorem toI64_large (h : 2 ^ 63 ≤ n) (hn : n < 2 ^ 64) : toI64 n < 0 := by
  unfold toI64
  rw [Int.bmod_def]
  split
  · omega
  · omega

/-- A horizon before the timer began comes out again. -/
theorem toI64_destVal {dest : Int} (hlt : dest < cfg.begin_) (hge : -2 ^ 63 ≤ dest) :
    toI64 (cfg.destVal dest * cfg.precision + cfg.begin_) ≤ cfg.begin_ := by
  have hbegin := cfg.begin_lt
  have hpos := cfg.precision_pos
  obtain ⟨d, hd⟩ : ∃ d : Int, dest = cfg.begin_ - d := ⟨cfg.begin_ - dest, by omega⟩
  have hquot : (dest - cfg.begin_).tdiv cfg.precision = -(d / cfg.precision) := by
    rw [hd, show (cfg.begin_ : Int) - d - cfg.begin_ = -d by omega, Int.neg_tdiv,
      Int.tdiv_eq_ediv_of_nonneg (by omega)]
  have hnonneg : 0 ≤ d / (cfg.precision : Int) * cfg.precision :=
    Int.mul_nonneg (Int.ediv_nonneg (by omega) hpos.le) hpos.le
  have hle : d / (cfg.precision : Int) * cfg.precision ≤ d := Int.ediv_mul_le d hpos.ne'
  have hwrap : ∀ q : Int, toI64 (toU64 q * cfg.precision + cfg.begin_) =
      Int.bmod (q * cfg.precision + cfg.begin_) (2 ^ 64) := by
    intro q
    have hcast : ((toU64 q : Nat) : Int) = q % 2 ^ 64 :=
      Int.toNat_of_nonneg (Int.emod_nonneg q (by decide))
    have hexpand : (q % 2 ^ 64 * cfg.precision + cfg.begin_ : Int) =
        q * cfg.precision + cfg.begin_ + 2 ^ 64 * (-(q / 2 ^ 64) * cfg.precision) := by
      have hmod := Int.emod_def q (2 ^ 64)
      rw [hmod]
      ring
    unfold toI64
    rw [Nat.cast_add, Nat.cast_mul, hcast, hexpand, ← Int.emod_bmod,
      show ((2 ^ 64 : Nat) : Int) = 2 ^ 64 from rfl, Int.add_mul_emod_self_left]
    exact Int.emod_bmod _ _
  rw [Config.destVal, hwrap, hquot, Int.neg_mul]
  generalize d / (cfg.precision : Int) * cfg.precision = x at hnonneg hle
  rw [Int.bmod_eq_of_le_mul_two (by omega) (by omega)]
  omega

theorem lastTime_le_lastTime (cfg : Config) (p q : Nat) :
    cfg.lastTime p ≤ cfg.lastTime q ↔ p ≤ q := by
  refine ⟨fun h => ?_, cfg.lastTime_mono⟩
  by_contra hlt
  have hsucc := cfg.lastTime_mono (Nat.succ_le_of_lt (Nat.not_le.1 hlt))
  have hpos := cfg.precision_pos
  simp only [Config.lastTime, Nat.succ_eq_add_one, Nat.cast_add, Nat.cast_one, Int.add_mul] at h hsucc
  omega

/-- To sleep until the start of tick `n` is not too long: that tick has begun, or `RunOnce` has
nothing to do before it. -/
def Wheel.Early (cfg : Config) (w : Wheel) (now : Int) (n : Nat) : Prop :=
  (n : Int) ≤ cfg.tick now ∨ ∀ p, w.point ≤ p → w.Busy p → n ≤ p + 1

/-- The start of a tick as a result. -/
theorem notLate_lastTime (hcomplete : w.complete = false) : NotLate cfg w now max (cfg.lastTime n) ↔
    (0 < max → (n : Int) ≤ cfg.tick (now + max)) ∧ w.Early cfg now n := by
  constructor
  · intro h
    refine ⟨fun hmax => (cfg.lastTime_le_iff _ _).1 (h.bounded hmax), ?_⟩
    rcases h.busy with hnow | hbusy
    · exact .inl ((cfg.lastTime_le_iff _ _).1 hnow)
    · exact .inr fun p hp hb => (lastTime_le_lastTime cfg _ _).1 (hbusy p hp hb)
  · rintro ⟨hbounded, hearly⟩
    refine ⟨fun hmax => (cfg.lastTime_le_iff _ _).2 (hbounded hmax), by simp [hcomplete], ?_⟩
    rcases hearly with hnow | hbusy
    · exact .inl ((cfg.lastTime_le_iff _ _).2 hnow)
    · exact .inr fun p hp hb => (lastTime_le_lastTime cfg _ _).2 (hbusy p hp hb)

/-- The present is never late. -/
theorem notLate_now : NotLate cfg w now max now :=
  ⟨fun h => by omega, fun _ => Int.le_refl now, .inl (Int.le_refl now)⟩

theorem notLate_past (h : t ≤ now) : NotLate cfg w now max t :=
  ⟨fun hmax => by omega, fun _ => h, .inl h⟩

/-- What a search that aims at tick `n` returns. -/
theorem Aims.result {r : Nat × Nat} (h : w.Aims r n) :
    (if r.2 < r.1 then
        some (toI64 ((r.1 - r.2) * cfg.precision + (w.point * cfg.precision + cfg.begin_)))
      else some now) =
      some (if w.point < n then toI64 (n * cfg.precision + cfg.begin_) else now) := by
  obtain ⟨hiff, hsub⟩ := h
  by_cases hlt : r.2 < r.1
  · rw [if_pos hlt, if_pos (hiff.1 hlt), ← Nat.add_assoc, ← Nat.add_mul, hsub hlt]
  · rw [if_neg hlt, if_neg fun h => hlt (hiff.2 h)]

theorem toU64_lt (q : Int) : toU64 q < 256 ^ 8 := by
  unfold toU64
  omega

/-! ## The cases -/

theorem moves_le {p : Nat} (hlt : w.moves m k ≤ p) : w.moves m k + p % 256 ^ m ≤ p := by
  have hm : 0 < 256 ^ m := Nat.pow_pos (by decide)
  have hdiv : w.point / 256 ^ m + k ≤ p / 256 ^ m := (Nat.le_div_iff_mul_le hm).2 hlt
  have hmul := Nat.mul_le_mul_right (256 ^ m) hdiv
  have hp := Nat.div_add_mod' p (256 ^ m)
  unfold Wheel.moves
  omega

theorem lt_moves (w : Wheel) (m : Nat) (hk : 0 < k) : w.point < w.moves m k := by
  have hm : 0 < 256 ^ m := Nat.pow_pos (by decide)
  have hmod := Nat.mod_lt w.point hm
  have hmul := Nat.mul_le_mul_right (256 ^ m) (Nat.succ_le_of_lt hk)
  have h := moves_eq w m k
  omega

theorem moves_zero_le (w : Wheel) (m : Nat) : w.moves m 0 ≤ w.point := by
  have h := moves_eq w m 0
  omega

/-- The search stops at the slot of `point_`. -/
theorem First.stays_iff (h : First w p m 0) (hlt : w.point < p) (hp : p < 256 ^ 8) :
    w.Stays cfg now p m ↔ (w.point < w.moves m 0 + p % 256 ^ m →
      w.Early cfg now (w.moves m 0 + p % 256 ^ m)) := by
  have hm : 0 < 256 ^ m := Nat.pow_pos (by decide)
  have hlow := Nat.mod_lt p hm
  have hpoint := moves_eq w m 0
  have hzero := moves_zero_le w m
  have hbig := moves_le (hzero.trans hlt.le)
  constructor
  · intro hstays hless
    by_cases hnow : ((w.moves m 0 + p % 256 ^ m : Nat) : Int) ≤ cfg.tick now
    · exact .inl hnow
    · refine .inr fun q hq hbusy => ?_
      rcases Nat.lt_or_ge q (256 ^ 8) with hq8 | hq8
      · obtain ⟨hdvd, hpos⟩ := busy_ge h.below hq8 hbusy
        rcases hstays with hnot | hstart | hone | hearly
        · -- the wheel moves once before the position
          have hne : w.point < q := Nat.lt_of_le_of_ne hq fun heq => hnot (heq ▸ hdvd)
          have hturn := turnEnd_le hdvd hne
          have hturned : turnEnd m w.point = w.moves m 0 + 256 ^ m := by
            unfold turnEnd Wheel.moves
            ring
          omega
        · rcases hpos with rfl | hpos
          · rw [Nat.pow_zero, Nat.mod_one] at hless
            omega
          · have hge := Nat.le_of_dvd hpos hdvd
            omega
        · omega
        · omega
      · omega
  · intro hearly
    by_contra hstays
    simp only [Wheel.Stays, not_or, not_not, Nat.not_le, Int.not_le] at hstays
    obtain ⟨hdvd, hstart, hone, hnow⟩ := hstays
    have hmoves : w.moves m 0 = w.point := by
      have hmod := Nat.mod_eq_zero_of_dvd hdvd
      omega
    rw [hmoves] at hearly
    rcases hearly (by omega) with hle | hbusy
    · omega
    · have hhandled := (handled_iff (r := ⟨m, (0 + p8 w.point m) % 256⟩) (hlt.trans hp)).2
        ⟨⟨hdvd, by rw [Nat.zero_add, Nat.mod_eq_of_lt (p8_lt _ _)]; rfl⟩, .inr (by omega)⟩
      have hle := hbusy w.point (Nat.le_refl _) ⟨_, h.full, hhandled⟩
      omega

/-- The tick that the search makes of the horizon is less than twice the horizon. -/
theorem First.aim_le (h : First w p m k) (hlt : w.point < p) :
    w.moves m k + p % 256 ^ m ≤ 2 * p := by
  have hm : 0 < 256 ^ m := Nat.pow_pos (by decide)
  have hlow := Nat.mod_lt p hm
  rcases h.within with hhigh | ⟨heq, hdigit⟩
  · have hmoves := moves_eq w m k
    have hk := Nat.mul_le_mul_right (256 ^ m) (Nat.le_sub_one_of_lt h.lt)
    have hpos : 1 ≤ p / 256 ^ (m + 1) := Nat.lt_of_le_of_lt (Nat.zero_le _) hhigh
    have hle : 256 ^ m * 256 ≤ p := by
      rw [← Nat.pow_succ, ← Nat.one_mul (256 ^ (m + 1))]
      exact (Nat.le_div_iff_mul_le (Nat.pow_pos (by decide))).1 hpos
    omega
  · have hwheel : w.point / 256 ^ m + k ≤ p / 256 ^ m := by
      simp only [p8, digit] at hdigit
      rw [div_succ, div_succ] at heq
      omega
    have hle := moves_le ((Nat.le_div_iff_mul_le hm).1 hwheel)
    omega

/-- The wheel enters the slot when it has moved to it. -/
theorem First.busy (h : First w p m k) (hk : 0 < k) (hlt : w.moves m k < 256 ^ 8) :
    w.Busy (w.moves m k) := by
  have hm : 0 < 256 ^ m := Nat.pow_pos (by decide)
  have hdigit : digit 256 m (w.moves m k) = (k + p8 w.point m) % 256 := by
    rw [Wheel.moves, p8, digit, digit, Nat.mul_div_cancel _ hm, Nat.add_comm, Nat.add_mod_mod]
  exact ⟨_, h.full, (handled_iff hlt).2 ⟨⟨Dvd.intro_left _ rfl, hdigit⟩,
    .inr ((Nat.zero_le _).trans_lt (lt_moves w m hk))⟩⟩

theorem Wheel.Above.busy (h : w.Above m n) : w.Busy n := by
  obtain ⟨r, hfull, -, hturned⟩ := h
  exact ⟨r, hfull, .inr hturned⟩

/-- What there is to do at a position, by the level of the slot: below `m` nothing, in level `m` the
slot that the wheel enters there, or a slot of a higher level. -/
theorem busy_cases (hbelow : ∀ i < m, ∀ j < 256, w.full ⟨i, j⟩ = false) (hp : p < 256 ^ 8)
    (h : w.Busy p) : 256 ^ m ∣ p ∧ w.full ⟨m, p8 p m⟩ = true ∨ 256 ^ (m + 1) ∣ p ∧ w.Above m p := by
  obtain ⟨hdvd, -⟩ := busy_ge hbelow hp h
  obtain ⟨⟨level, offset⟩, hfull, hhandled⟩ := h
  obtain ⟨⟨hlevel, hdigit⟩, -⟩ := (handled_iff hp).1 hhandled
  have hoffset : offset < 256 := lt_of_eq_of_lt hdigit.symm (p8_lt p level)
  rcases Nat.lt_trichotomy level m with hlt | rfl | hlt
  · exact absurd hfull (by rw [hbelow level hlt offset hoffset]; exact Bool.false_ne_true)
  · exact .inl ⟨hdvd, by rw [p8, show digit 256 level p = offset from hdigit]; exact hfull⟩
  · refine .inr ⟨(Nat.pow_dvd_pow 256 hlt).trans hlevel, _, hfull, hlt, ?_⟩
    rcases hhandled with htriggered | hturned
    · rw [Sweep.triggered, SlotRef.mk.injEq] at htriggered
      exact absurd htriggered.1 (Nat.ne_of_gt ((Nat.zero_le m).trans_lt hlt))
    · exact hturned

/-- The search stops at a slot to which the wheel has to move. -/
theorem First.moves_iff (h : First w p m k) (hk : 0 < k)
    (hlt : w.moves m k + p % 256 ^ m < 256 ^ 8) :
    w.Early cfg now (w.moves m k + p % 256 ^ m) ↔
      ((w.moves m k + p % 256 ^ m : Nat) : Int) ≤ cfg.tick now ∨
        p % 256 ^ m ≤ 1 ∧ ∀ q, w.point ≤ q → w.Above m q → w.moves m k + p % 256 ^ m ≤ q + 1 := by
  have hm : 0 < 256 ^ m := Nat.pow_pos (by decide)
  refine or_congr_right ⟨fun hearly => ⟨?_, fun q hq habove => hearly q hq habove.busy⟩, ?_⟩
  · have hle := hearly _ (lt_moves w m hk).le (h.busy hk (by omega))
    omega
  · rintro ⟨hone, habove⟩ q hq hbusy
    rcases Nat.lt_or_ge q (w.moves m k) with hless | hge
    · rcases busy_cases h.below (by omega) hbusy with ⟨⟨c, rfl⟩, hfull⟩ | ⟨-, hhigher⟩
      · -- the slot would be before the one found
        have hlow : w.point / 256 ^ m ≤ c := by
          rw [← Nat.mul_div_cancel_left c hm]
          exact Nat.div_le_div_right hq
        have hhigh : c < w.point / 256 ^ m + k := by
          rw [Wheel.moves, Nat.mul_comm] at hless
          exact Nat.lt_of_mul_lt_mul_right hless
        have hempty := h.first (c - w.point / 256 ^ m) (by omega)
        have hoffset : (c - w.point / 256 ^ m + p8 w.point m) % 256 = p8 (256 ^ m * c) m := by
          rw [p8, p8, digit, digit, Nat.mul_div_cancel_left c hm, Nat.add_mod_mod]
          congr 1
          omega
        rw [hoffset, hfull] at hempty
        cases hempty
      · exact habove q hq hhigher
    · omega

/-- The search comes to its end. -/
theorem Clear.passes_iff (h : Clear w p m) (hp : p < 256 ^ 8) :
    w.Early cfg now p ↔ w.Passes cfg now p m := by
  have hm : 0 < 256 ^ m := Nat.pow_pos (by decide)
  have hlow := Nat.div_add_mod' p (256 ^ m)
  have habove := h.above
  have hless := h.less
  rw [div_succ, div_succ] at habove
  simp only [p8, digit] at hless
  refine or_congr_right ⟨fun hearly => ⟨fun hfull => ?_, fun hhigher =>
    hearly _ (Nat.le_refl _) hhigher.busy⟩, ?_⟩
  · have hmoved : w.point < p / 256 ^ m * 256 ^ m := by
      rw [← Nat.div_lt_iff_lt_mul hm]
      omega
    have hdigit : digit 256 m (p / 256 ^ m * 256 ^ m) = p8 p m := by
      rw [p8, digit, digit, Nat.mul_div_cancel _ hm]
    have hle := hearly (p / 256 ^ m * 256 ^ m) hmoved.le ⟨_, hfull, (handled_iff (by omega)).2
      ⟨⟨Dvd.intro_left _ rfl, hdigit⟩, .inr ((Nat.zero_le _).trans_lt hmoved)⟩⟩
    omega
  · rintro ⟨hone, hhigher⟩ q hq hbusy
    rcases Nat.lt_or_ge q p with hqp | hge
    · rcases busy_cases h.below (by omega) hbusy with ⟨⟨c, rfl⟩, hfull⟩ | ⟨⟨c, rfl⟩, hup⟩
      · have hdiv : 256 ^ m * c / 256 ^ m = c := Nat.mul_div_cancel_left c hm
        have hge : w.point / 256 ^ m ≤ c := by
          rw [← hdiv]
          exact Nat.div_le_div_right hq
        have hle : c ≤ p / 256 ^ m := by
          rw [← hdiv]
          exact Nat.div_le_div_right hqp.le
        have hbyte : p8 (256 ^ m * c) m = c % 256 := by rw [p8, digit, hdiv]
        rw [hbyte] at hfull
        rcases Nat.eq_or_lt_of_le hle with rfl | hlt
        · have hend := hone hfull
          rw [Nat.mul_comm]
          omega
        · -- the slot is one of those at which the search has looked
          have hempty := h.before (c % 256) (by rw [p8, digit]; omega) (by rw [p8, digit]; omega)
          rw [hempty] at hfull
          cases hfull
      · have hdiv : 256 ^ (m + 1) * c / 256 ^ (m + 1) = c :=
          Nat.mul_div_cancel_left c (Nat.pow_pos (by decide))
        have hpoint : c ≤ w.point / 256 ^ (m + 1) := by
          rw [h.above, ← hdiv]
          exact Nat.div_le_div_right hqp.le
        have hle : 256 ^ (m + 1) * c ≤ w.point := by
          rw [Nat.mul_comm]
          exact (Nat.le_div_iff_mul_le (Nat.pow_pos (by decide))).1 hpoint
        rw [Nat.le_antisymm hle hq] at hup ⊢
        exact hhigher hup
    · omega

/-- Up to the horizon a result fits. -/
theorem toI64_lastTime (h : cfg.lastTime n < 2 ^ 63) :
    toI64 (n * cfg.precision + cfg.begin_) = cfg.lastTime n := by
  have hcast : ((n * cfg.precision + cfg.begin_ : Nat) : Int) = cfg.lastTime n := by
    unfold Config.lastTime
    push_cast
    ring
  rw [toI64_small (by omega), hcast]

theorem lt_of_lastTime (h : cfg.lastTime n < 2 ^ 63) : n < 256 ^ 8 := by
  have hpos := cfg.precision_pos
  have hle := Int.mul_le_mul_of_nonneg_left (Int.add_one_le_of_lt hpos) (Int.natCast_nonneg n)
  rw [Config.lastTime] at h
  omega

/-- A result that does not fit is in the past, if the horizon is a time. -/
theorem First.past (h : First w p m k) (hlt : w.point < p) (hp : cfg.lastTime p < 2 ^ 63)
    (hlarge : 2 ^ 63 ≤ cfg.lastTime (w.moves m k + p % 256 ^ m)) :
    toI64 ((w.moves m k + p % 256 ^ m) * cfg.precision + cfg.begin_) < 0 := by
  have htwice := Nat.mul_le_mul_right cfg.precision (h.aim_le hlt)
  rw [Nat.mul_assoc] at htwice
  rw [Config.lastTime, ← Nat.cast_mul] at hp hlarge
  exact toI64_large (by omega) (by omega)

/-- The result for the slot at which the search stops. -/
theorem First.stops_iff (h : First w p m k) (hlt : w.point < p) (hp8 : p < 256 ^ 8)
    (hcomplete : w.complete = false) (hnow : 0 ≤ now) (hfits : now + max < 2 ^ 63)
    (hp : 0 < max → (p : Int) = cfg.tick (now + max)) :
    (w.point < w.moves m k + p % 256 ^ m → NotLate cfg w now max
      (toI64 ((w.moves m k + p % 256 ^ m) * cfg.precision + cfg.begin_))) ↔
        w.Stops cfg now max p m k := by
  have hless : 0 < k → w.point < w.moves m k + p % 256 ^ m := fun hk =>
    Nat.lt_of_lt_of_le (lt_moves w m hk) (Nat.le_add_right _ _)
  rcases Int.lt_or_le (cfg.lastTime (w.moves m k + p % 256 ^ m)) (2 ^ 63) with hsmall | hlarge
  · rw [toI64_lastTime hsmall, notLate_lastTime hcomplete]
    rcases Nat.eq_zero_or_pos k with rfl | hk
    · have hle := moves_le ((moves_zero_le w m).trans hlt.le)
      have hstays : w.Stays cfg now p m ↔ w.Stops cfg now max p m 0 :=
        ⟨fun h => ⟨fun _ _ => h, fun _ h0 => absurd rfl h0, fun hge => by omega⟩,
          fun h => h.stays hsmall rfl⟩
      rw [← hstays, h.stays_iff hlt hp8]
      exact forall_congr' fun _ => and_iff_right fun hmax => by rw [← hp hmax]; exact_mod_cast hle
    · have hmoves : w.Moves cfg now max p m k ↔ w.Stops cfg now max p m k :=
        ⟨fun h => ⟨fun _ h0 => absurd h0 hk.ne', fun _ _ => h, fun hge => by omega⟩,
          fun h => h.moves hsmall hk.ne'⟩
      rw [← hmoves, forall_prop_of_true (hless hk), h.moves_iff hk (lt_of_lastTime hsmall)]
      refine and_congr_left' (forall_congr' fun hmax => ?_)
      rw [← hp hmax, Int.ofNat_le]
      exact ⟨fun hle => (Nat.le_add_right _ _).trans hle, moves_le⟩
  · have hwraps : w.Wraps cfg now (w.moves m k + p % 256 ^ m) ↔ w.Stops cfg now max p m k :=
      ⟨fun h => ⟨fun hsmall => by omega, fun hsmall => by omega, fun _ => h⟩,
        fun h => h.wraps hlarge⟩
    rw [← hwraps, Wheel.Wraps, ← Nat.not_lt, imp_iff_not_or]
    refine or_congr_right ⟨fun hlate => hlate.busy, fun hbusy => ⟨fun hmax => ?_, ?_, hbusy⟩⟩
    · have htime := (cfg.lastTime_le_iff p _).2 (hp hmax).le
      have hpast := h.past hlt (by omega) hlarge
      omega
    · simp [hcomplete]

/-- What is returned when there is something to search for. -/
theorem nextTrigger_aims (hmax : max ≠ 0) (hcomplete : w.complete = false)
    (hfits : now + max < 2 ^ 63) (hp : cfg.destVal (now + max) = p) (hlt : w.point < p)
    (h : w.Aims (w.search w.point p) n) :
    w.nextTrigger cfg now max =
      some (if w.point < n then toI64 (n * cfg.precision + cfg.begin_) else now) := by
  unfold Wheel.nextTrigger
  rw [if_neg hmax, hcomplete, if_neg Bool.false_ne_true, if_neg (by omega)]
  dsimp only
  rw [hp, if_neg (Nat.not_le.2 hlt)]
  exact Aims.result h

theorem notLate_result (h : w.nextTrigger cfg now max =
      some (if w.point < n then toI64 (n * cfg.precision + cfg.begin_) else now)) :
    (∃ t, w.nextTrigger cfg now max = some t ∧ NotLate cfg w now max t) ↔
      (w.point < n → NotLate cfg w now max (toI64 (n * cfg.precision + cfg.begin_))) := by
  simp only [h, Option.some.injEq, exists_eq_left']
  by_cases hless : w.point < n
  · rw [if_pos hless]
    exact ⟨fun hlate _ => hlate, fun himp => himp hless⟩
  · rw [if_neg hless]
    exact iff_of_true notLate_now fun h => absurd h hless

/-- The result when the search comes to its end. -/
theorem Clear.result_iff (h : Clear w p m) (hlt : w.point < p) (hp8 : p < 256 ^ 8)
    (hcomplete : w.complete = false) (hbegin : (cfg.begin_ : Int) ≤ now) (hmax : -2 ^ 63 ≤ max)
    (hfits : now + max < 2 ^ 63) (hp : cfg.destVal (now + max) = p) :
    (w.point < p → NotLate cfg w now max (toI64 (p * cfg.precision + cfg.begin_))) ↔
      now + max < cfg.begin_ ∨ w.Passes cfg now p m := by
  rw [forall_prop_of_true hlt]
  rcases Int.lt_or_le (now + max) cfg.begin_ with hdest | hdest
  · have hpast := toI64_destVal hdest (by omega)
    rw [hp] at hpast
    exact iff_of_true (notLate_past (hpast.trans hbegin)) (.inl hdest)
  · have htick := cfg.destVal_eq hdest hfits
    rw [hp] at htick
    have htime := (cfg.lastTime_le_iff _ _).2 htick.le
    rw [or_iff_right (Int.not_lt.2 hdest), toI64_lastTime (by omega), notLate_lastTime hcomplete,
      and_iff_right fun _ => htick.le]
    exact h.passes_iff hp8

/-- The result of the search. -/
theorem search_iff (hzero : max ≠ 0) (hlt : w.point < p) (hcomplete : w.complete = false)
    (hbegin : (cfg.begin_ : Int) ≤ now) (hmax : -2 ^ 63 ≤ max) (hfits : now + max < 2 ^ 63)
    (hp : cfg.destVal (now + max) = p) :
    (∃ t, w.nextTrigger cfg now max = some t ∧ NotLate cfg w now max t) ↔
      (∀ m k, First w p m k → w.Stops cfg now max p m k) ∧
        ∀ m, Clear w p m → now + max < cfg.begin_ ∨ w.Passes cfg now p m := by
  have hp8 : p < 256 ^ 8 := hp ▸ toU64_lt _
  have htick : 0 < max → (p : Int) = cfg.tick (now + max) := fun hpos =>
    hp ▸ cfg.destVal_eq (by omega) hfits
  rcases search_first hlt hp8 with ⟨m, k, hfirst, haims⟩ | ⟨m, hclear, haims⟩
  · rw [notLate_result (nextTrigger_aims hzero hcomplete hfits hp hlt haims),
      hfirst.stops_iff hlt hp8 hcomplete (by omega) hfits htick]
    constructor
    · refine fun h => ⟨fun m' k' h' => ?_, fun m' h' => absurd hfirst h'.not_first⟩
      obtain ⟨rfl, rfl⟩ := hfirst.unique h'
      exact h
    · exact fun h => h.1 m k hfirst
  · rw [notLate_result (nextTrigger_aims hzero hcomplete hfits hp hlt haims),
      hclear.result_iff hlt hp8 hcomplete hbegin hmax hfits hp]
    constructor
    · refine fun h => ⟨fun m' k' h' => absurd h' hclear.not_first, fun m' h' => ?_⟩
      rw [← hclear.unique h']
      exact h
    · exact fun h => h.2 m hclear

/-- The time that `NextTrigger` returns is not late exactly when it is due. -/
theorem next_trigger_iff (cfg : Config) (w : Wheel) {now max : Int}
    (hbegin : (cfg.begin_ : Int) ≤ now) (hmax : -2 ^ 63 ≤ max) :
    (∃ t, w.nextTrigger cfg now max = some t ∧ NotLate cfg w now max t) ↔ w.Due cfg now max := by
  by_cases hzero : max = 0
  · exact iff_of_true ⟨now, if_pos hzero, notLate_now⟩ (.inl hzero)
  cases hcomplete : w.complete with
  | true =>
    refine iff_of_true ⟨now, ?_, notLate_now⟩ (.inr (.inl hcomplete))
    rw [Wheel.nextTrigger, if_neg hzero, if_pos hcomplete]
  | false =>
    unfold Wheel.Due
    simp only [hzero, hcomplete, Bool.false_eq_true, false_or]
    by_cases hfits : now + max < 2 ^ 63
    · rw [and_iff_right hfits]
      rcases Nat.lt_or_ge w.point (cfg.destVal (now + max)) with hlt | hge
      · rw [or_iff_right (Nat.not_le.2 hlt)]
        exact search_iff hzero hlt hcomplete hbegin hmax hfits rfl
      · refine iff_of_true ⟨now, ?_, notLate_now⟩ (.inl hge)
        unfold Wheel.nextTrigger
        rw [if_neg hzero, hcomplete, if_neg Bool.false_ne_true, if_neg (by omega)]
        exact if_pos hge
    · refine iff_of_false ?_ fun h => hfits h.1
      rintro ⟨t, ht, -⟩
      unfold Wheel.nextTrigger at ht
      rw [if_neg hzero, hcomplete, if_neg Bool.false_ne_true, if_pos (by omega)] at ht
      cases ht

/-- A timer is due at tick 5, and the horizon is tick 10. -/
theorem next_trigger_five :
    let w : Wheel := ⟨0, false, fun r => r = ⟨0, 5⟩⟩
    w.nextTrigger Config.zero 0 1000000 = some 500000 ∧
      ∃ t, w.nextTrigger Config.zero 0 1000000 = some t ∧ NotLate Config.zero w 0 1000000 t := by
  intro w
  have hfull : ∀ {r}, w.full r = true → r = ⟨0, 5⟩ := of_decide_eq_true
  refine ⟨by decide +kernel, (next_trigger_iff Config.zero w (by decide) (by decide)).2
    (.inr (.inr ⟨by decide, .inr ⟨fun m k h => ?_, fun m h => ?_⟩⟩))⟩
  · have hslot := hfull h.full
    rw [SlotRef.mk.injEq, show p8 w.point m = 0 by simp [w, p8, digit]] at hslot
    obtain ⟨rfl, hk⟩ := hslot
    obtain rfl : k = 5 := by
      have hlt := h.lt
      omega
    refine ⟨fun _ h0 => absurd h0 (by decide),
      fun _ _ => ⟨fun _ => by decide, .inr ⟨by decide, ?_⟩⟩,
      fun hlarge => absurd hlarge (by decide)⟩
    rintro q - ⟨r, hr, hlevel, -⟩
    rw [hfull hr] at hlevel
    cases hlevel
  · have hzero : p8 w.point m = 0 := by simp [w, p8, digit]
    have hm : m = 0 := by
      by_contra hm
      have hlt : (10 : Nat) < 256 ^ m := (show 10 < 256 ^ 1 by decide).trans_le
        (Nat.pow_le_pow_right (by decide) (Nat.one_le_iff_ne_zero.2 hm))
      have hbyte : p8 (Config.zero.destVal (0 + 1000000)) m = 0 := by
        rw [show Config.zero.destVal (0 + 1000000) = 10 by decide, p8, digit,
          Nat.div_eq_of_lt hlt]
      have hless := h.less
      omega
    subst hm
    exact absurd (h.before 5 (by decide) (by decide)) (by decide)

/-- A timer is due after 30 ms, and its slot is dispatched at tick 257, after 25.7 ms.  With 51.1 ms
as the longest sleep, the search ends before this slot. -/
theorem sleeps_too_long : ∃ s : State Unit,
    Run (machine Config.zero) anyAction (State.initial Config.zero) s ∧ s.clock = 0 ∧
      s.wheel.nextTrigger Config.zero s.clock 51100000 = some 51100000 ∧
      ¬ NotLate Config.zero s.wheel s.clock 51100000 51100000 := by
  have hrun : ((machine Config.zero).exec anyAction (State.initial Config.zero)
      [.startTimer 30000000 ()]).any
      (fun s : State Unit => decide (s.clock = 0 ∧ s.point = 0 ∧
        s.wheel.nextTrigger Config.zero s.clock 51100000 = some 51100000 ∧
        s.wheel.full ⟨1, 1⟩ = true ∧ (⟨1, 1⟩ : SlotRef) ∈ Sweep.init.turned 256)) := by
    decide +kernel
  obtain ⟨s, hs, hdec⟩ := Run.exists_of_exec hrun
  obtain ⟨hclock, hpoint, hresult, hfull, hturned⟩ := of_decide_eq_true hdec
  refine ⟨s, hs, hclock, hresult, fun h => ?_⟩
  rcases h.busy with hnow | hbusy
  · rw [hclock] at hnow
    omega
  · have hle := hbusy 256 (hpoint.trans_le (Nat.zero_le 256)) ⟨_, hfull, .inr hturned⟩
    exact absurd hle (by decide)

end Costream.Timer
