import Costream.Timer.Wheel

/-!
# The sweep loop of `Timer::RunOnce`

`RunOnce` moves `point_` from `last` to the destination tick and then visits
the slots in between.  The loop counts `i` up to `delta` and stands at the
position `pos = last + i`.  It triggers the slot of level `triggerLevel` there,
and takes the slots of the higher levels that turn over for a new dispatch.
When a level has been covered, the loop goes on in steps of the next level.

Which slots it visits does not depend on the timers in them.  So the loop is
modelled apart from its effects: `Sweep` holds the counters of the loop,
`Sweep.triggered` and `Sweep.turned` are the slots of one iteration, and
`Sweep.next` is the state after it.

* `SweepInv` is the invariant of the loop, and `SweepInv.next` is its step.
* `SweepInv.triggers` says where a slot can be triggered.
* `SweepInv.visit_of_next` says that the loop leaves out no slot that comes up
  before it leaves level 3.
-/

namespace Costream.Timer

open Radix

/-! ## The loop -/

/-- The counters of the loop. -/
structure Sweep where
  i : Nat
  triggerLevel : Nat
  triggerSlots : Nat → Nat

/-- The counters before the first iteration. -/
def Sweep.init : Sweep := ⟨0, 0, fun _ => 0⟩

/-- The table `additions`. -/
def additions : List Nat :=
  [1, 2 ^ 8, 2 ^ 16, 2 ^ 32, 2 ^ 40, 2 ^ 48, 2 ^ 56, 2 ^ 64 - 1]

/-- `++triggerSlots[lv]`. -/
def bump (triggerSlots : Nat → Nat) (lv : Nat) : Nat → Nat :=
  Function.update triggerSlots lv (triggerSlots lv + 1)

/-- The inner loop `while (pos.p64 > 0 && slotIdx == 0)`, which goes up while
the wheel below turns over.  A position has eight bytes, so eight rounds are
enough. -/
def cascade (pos : Nat) : Nat → Nat → Nat → List SlotRef
  | 0, _, _ => []
  | fuel + 1, lv, slotIdx =>
    if 0 < pos ∧ slotIdx = 0 then
      ⟨lv + 1, p8 pos (lv + 1)⟩ :: cascade pos fuel (lv + 1) (p8 pos (lv + 1))
    else []

namespace Sweep

variable (last : Nat) (s : Sweep)

/-- `pos.p64 = last.p64 + i`. -/
def pos : Nat := (last + s.i) % 2 ^ 64

/-- `slots_[lv][slotIdx]`, which is triggered at the position. -/
def triggered : SlotRef := ⟨s.triggerLevel, p8 (s.pos last) s.triggerLevel⟩

/-- The slots that turn over at the position, and go to `dispatchers`. -/
def turned : List SlotRef :=
  cascade (s.pos last) 8 s.triggerLevel (p8 (s.pos last) s.triggerLevel)

/-- `triggerLevel` after `if (++triggerSlots[lv] == 256) ++triggerLevel`. -/
def nextLevel : Nat :=
  if s.triggerSlots s.triggerLevel + 1 = 256 then s.triggerLevel + 1
  else s.triggerLevel

/-- The step of the loop: `additions[triggerLevel]`, but not past the point
where the level below turns over. -/
def add : Nat :=
  let lv := s.nextLevel
  let add := additions.getD lv 0
  if 0 < lv then
    let levelupSteps :=
      (256 - p8 (s.pos last) (lv - 1)) * additions.getD (lv - 1) 0 % 2 ^ 64
    if 0 < levelupSteps then min levelupSteps add else add
  else add

/-- The counters after one iteration. -/
def next : Sweep where
  i := (s.i + s.add last) % 2 ^ 64
  triggerLevel := s.nextLevel
  triggerSlots :=
    ((s.turned last).map SlotRef.level).foldl bump
      (bump s.triggerSlots s.triggerLevel)

end Sweep

/-! ## The slots that turn over -/

/-- The part of a position that a wheel of level `t` sees. -/
def floor (t p : Nat) : Nat := p / 256 ^ t * 256 ^ t

theorem floor_le (t p : Nat) : floor t p ≤ p := Nat.div_mul_le_self _ _

theorem lt_floor_add (t p : Nat) : p < floor t p + 256 ^ t := by
  have hm : 0 < 256 ^ t := Nat.pow_pos (by decide)
  have := Nat.lt_div_mul_add hm (a := p)
  exact this

theorem dvd_floor (t p : Nat) : 256 ^ t ∣ floor t p := Nat.dvd_mul_left _ _

theorem floor_of_dvd {t p : Nat} (h : 256 ^ t ∣ p) : floor t p = p :=
  Nat.div_mul_cancel h

@[simp] theorem floor_zero (p : Nat) : floor 0 p = p := by simp [floor]

theorem floor_mono (t : Nat) {p q : Nat} (h : p ≤ q) :
    floor t p ≤ floor t q :=
  Nat.mul_le_mul_right _ (Nat.div_le_div_right h)

/-- A multiple of `256 ^ t` that is not after `p` is not after its floor. -/
theorem le_floor {t p n : Nat} (h : 256 ^ t ∣ n) (hp : n ≤ p) :
    n ≤ floor t p := by
  rw [← floor_of_dvd h]
  exact floor_mono t hp

/-- The digits from `t` up do not see the part below the floor. -/
theorem p8_floor {t k : Nat} (h : t ≤ k) (p : Nat) :
    p8 (floor t p) k = p8 p k := by
  obtain ⟨e, rfl⟩ := Nat.exists_eq_add_of_le h
  have hm : 0 < 256 ^ t := Nat.pow_pos (by decide)
  rw [p8, p8, digit, digit, floor, Nat.pow_add, ← Nat.div_div_eq_div_mul,
    ← Nat.div_div_eq_div_mul, Nat.mul_div_cancel _ hm]

/-- The slot triggered at a position is visited at its floor. -/
theorem visitedAt_floor (t p : Nat) :
    SlotRef.VisitedAt ⟨t, p8 p t⟩ (floor t p) :=
  ⟨dvd_floor t p, p8_floor (Nat.le_refl t) p⟩

/-- The floor has one zero more exactly when the digit is zero. -/
theorem succ_dvd_floor_iff (t p : Nat) :
    256 ^ (t + 1) ∣ floor t p ↔ p8 p t = 0 := by
  rw [pow_succ_dvd_iff (by decide), ← p8_floor (Nat.le_refl t) p]
  exact ⟨fun h => h.2, fun h => ⟨dvd_floor t p, h⟩⟩

theorem floor_succ_of_digit {t p : Nat} (h : p8 p t = 0) :
    floor (t + 1) p = floor t p := by
  obtain ⟨c, hc⟩ := (succ_dvd_floor_iff t p).2 h
  refine Nat.le_antisymm (le_floor ?_ (floor_le _ _)) (le_floor ⟨c, hc⟩ (floor_le _ _))
  exact (Nat.pow_dvd_pow 256 (Nat.le_succ t)).trans (dvd_floor _ _)

/-- The first position after `p` at which the wheel of level `t` moves. -/
def turnEnd (t p : Nat) : Nat := (p / 256 ^ t + 1) * 256 ^ t

theorem turnEnd_eq (t p : Nat) : turnEnd t p = floor t p + 256 ^ t :=
  Nat.succ_mul _ _

theorem lt_turnEnd (t p : Nat) : p < turnEnd t p := by
  rw [turnEnd_eq]
  exact lt_floor_add t p

theorem dvd_turnEnd (t p : Nat) : 256 ^ t ∣ turnEnd t p := Nat.dvd_mul_left _ _

/-- A multiple of `256 ^ t` after `p` is not before the end of the turn. -/
theorem turnEnd_le {t p n : Nat} (h : 256 ^ t ∣ n) (hp : p < n) :
    turnEnd t p ≤ n := by
  obtain ⟨c, rfl⟩ := h
  rw [turnEnd, Nat.mul_comm]
  refine Nat.mul_le_mul_left _ ?_
  exact Nat.succ_le_of_lt (Nat.div_lt_of_lt_mul hp)

/-- A higher wheel does not move before the end of the turn. -/
theorem turnEnd_mono {t k : Nat} (h : t ≤ k) (p : Nat) :
    turnEnd t p ≤ turnEnd k p :=
  turnEnd_le ((Nat.pow_dvd_pow 256 h).trans (dvd_turnEnd k p)) (lt_turnEnd k p)

theorem turnEnd_le_turnEnd (t : Nat) {p q : Nat} (h : p ≤ q) :
    turnEnd t p ≤ turnEnd t q :=
  turnEnd_le (dvd_turnEnd t q) (h.trans_lt (lt_turnEnd t q))

theorem turnEnd_of_dvd {t p : Nat} (h : 256 ^ t ∣ p) :
    turnEnd t p = p + 256 ^ t := by
  rw [turnEnd_eq, floor_of_dvd h]

/-- The turn of a wheel ends where the digits below it have run out. -/
theorem turnEnd_succ (t p : Nat) :
    turnEnd (t + 1) p = floor t p + (256 - p8 p t) * 256 ^ t := by
  have hx : p8 p t = p / 256 ^ t % 256 := rfl
  have hdiv : p / 256 ^ (t + 1) = p / 256 ^ t / 256 := by
    rw [Nat.pow_succ, Nat.div_div_eq_div_mul]
  rw [turnEnd, hdiv, floor, Nat.pow_succ, Nat.mul_comm (256 ^ t) 256,
    ← Nat.mul_assoc, ← Nat.add_mul]
  congr 1
  omega

/-- The inner loop goes through exactly the levels above `lv` that turn over
at the position. -/
theorem mem_cascade {pos : Nat} (hpos : 0 < pos) (h8 : pos < 256 ^ 8)
    (fuel lv : Nat) (hfuel : 8 ≤ fuel + lv) (hf : 0 < floor lv pos)
    (r : SlotRef) :
    r ∈ cascade pos fuel lv (p8 pos lv) ↔
      lv < r.level ∧ 256 ^ r.level ∣ floor lv pos ∧
        r.offset = p8 pos r.level := by
  induction fuel generalizing lv with
  | zero =>
    have hge : 256 ^ 8 ≤ 256 ^ lv := Nat.pow_le_pow_right (by decide) (by omega)
    have hz : floor lv pos = 0 := by
      rw [floor, Nat.div_eq_of_lt (by omega), Nat.zero_mul]
    omega
  | succ fuel ih =>
    rw [cascade]
    split
    · rename_i h
      have hfl := floor_succ_of_digit h.2
      have := ih (lv + 1) (by omega) (by omega)
      rw [List.mem_cons, this, hfl]
      constructor
      · rintro (rfl | ⟨h1, h2, h3⟩)
        · exact ⟨Nat.lt_succ_self lv, (succ_dvd_floor_iff lv pos).2 h.2, rfl⟩
        · exact ⟨by omega, h2, h3⟩
      · rintro ⟨h1, h2, h3⟩
        rcases Nat.eq_or_lt_of_le (Nat.succ_le_of_lt h1) with he | hlt
        · left
          cases r
          simp only at he h3
          subst he
          simp [h3]
        · exact Or.inr ⟨hlt, h2, h3⟩
    · rename_i h
      simp only [List.not_mem_nil, false_iff]
      rintro ⟨h1, h2, -⟩
      have hdvd : 256 ^ (lv + 1) ∣ floor lv pos :=
        (Nat.pow_dvd_pow 256 (Nat.succ_le_of_lt h1)).trans h2
      exact h ⟨hpos, (succ_dvd_floor_iff lv pos).1 hdvd⟩

/-- At position 0 nothing turns over. -/
theorem cascade_zero (fuel lv slotIdx : Nat) : cascade 0 fuel lv slotIdx = [] := by
  cases fuel <;> simp [cascade]

/-- The inner loop goes up: it meets each level at most once. -/
theorem cascade_levels (pos : Nat) (fuel lv slotIdx : Nat) :
    (∀ r ∈ cascade pos fuel lv slotIdx, lv < r.level) ∧
      ((cascade pos fuel lv slotIdx).map SlotRef.level).Nodup := by
  induction fuel generalizing lv slotIdx with
  | zero => simp [cascade]
  | succ fuel ih =>
    rw [cascade]
    split
    · obtain ⟨h1, h2⟩ := ih (lv + 1) (p8 pos (lv + 1))
      refine ⟨?_, ?_⟩
      · intro r hr
        rcases List.mem_cons.1 hr with rfl | hr
        · exact Nat.lt_succ_self lv
        · exact Nat.lt_of_succ_lt (h1 r hr)
      · rw [List.map_cons, List.nodup_cons]
        refine ⟨?_, h2⟩
        intro hmem
        obtain ⟨r, hr, he⟩ := List.mem_map.1 hmem
        exact absurd he (h1 r hr).ne'
    · simp

/-- Counting up along a list of different levels. -/
theorem foldl_bump (ls : List Nat) (hn : ls.Nodup) (ts : Nat → Nat) (k : Nat) :
    ls.foldl bump ts k = ts k + if k ∈ ls then 1 else 0 := by
  induction ls generalizing ts with
  | nil => simp
  | cons l rest ih =>
    rw [List.nodup_cons] at hn
    rw [List.foldl_cons, ih hn.2, bump]
    by_cases hk : k = l
    · subst hk
      simp [hn.1]
    · simp [hk]

/-! ## The invariant of the loop -/

/-- How often the wheel of level `k` moves at the positions from `last` up to,
and without, `x`.  Level 0 moves at every position; a higher level does not
count position 0. -/
def moved (last k x : Nat) : Nat :=
  if k = 0 then x - last else multiplesBefore (256 ^ k) last x

/-- The position at which the loop begins to trigger the slots of a level
whole. -/
def catchUpStart (last : Nat) : Nat → Nat
  | 0 => last
  | 1 => ((last + 255) / 256 + 1) * 256
  | lv + 2 => ((last - 1) / 256 ^ (lv + 2) + 2) * 256 ^ (lv + 2)

/-- The last position at which the loop triggers a slot of the level, for the
levels whose steps in `additions` are right. -/
def catchUpEnd (last : Nat) : Nat → Nat
  | 0 => last + 255
  | lv + 1 => ((last - 1) / 256 ^ (lv + 1) + 256) * 256 ^ (lv + 1)

/-- The invariant of the loop.  Up to level 3 the counters are exact.  Above,
`additions` makes the loop leave slots out, and the counters are only
bounds. -/
structure SweepInv (last : Nat) (s : Sweep) : Prop where
  level_le : s.triggerLevel ≤ 5
  counted : ∀ k, s.triggerLevel ≤ k →
    s.triggerSlots k ≤ moved last k (floor s.triggerLevel (last + s.i))
  aligned : s.triggerLevel ≤ 3 → 256 ^ s.triggerLevel ∣ last + s.i
  exact : s.triggerLevel ≤ 3 → ∀ k, s.triggerLevel ≤ k →
    s.triggerSlots k = moved last k (last + s.i)
  below : s.triggerLevel ≤ 3 → s.triggerSlots s.triggerLevel < 256
  caughtUp : catchUpStart last s.triggerLevel ≤
    floor s.triggerLevel (last + s.i)

theorem last_le_catchUpStart (last lv : Nat) : last ≤ catchUpStart last lv := by
  match lv with
  | 0 => exact Nat.le_refl _
  | 1 => simp only [catchUpStart]; omega
  | lv + 2 =>
    have hm : 0 < 256 ^ (lv + 2) := Nat.pow_pos (by decide)
    have := Nat.lt_div_mul_add hm (a := last - 1)
    simp only [catchUpStart, Nat.add_mul]
    omega

theorem catchUpStart_pos (last : Nat) {lv : Nat} (h : 0 < lv) :
    0 < catchUpStart last lv := by
  match lv with
  | 1 => simp only [catchUpStart]; omega
  | lv + 2 => exact Nat.mul_pos (Nat.succ_pos _) (Nat.pow_pos (by decide))

/-! ## Where a level is triggered whole -/

theorem next_le_catchUpEnd (r : SlotRef) (last : Nat) :
    r.next last ≤ catchUpEnd last r.level := by
  rcases hr : r.level with _ | t
  · rw [SlotRef.next, hr, nextVisit, catchUpEnd]
    simp only [Nat.pow_zero, Nat.div_one, Nat.sub_self, Nat.add_zero, Nat.mul_one]
    have := Nat.mod_lt (r.offset + (256 - last % 256)) (by decide : 256 > 0)
    omega
  · rw [SlotRef.next, hr]
    exact nextVisit_le_window (by decide) _ _ _

theorem catchUpStart_le_catchUpEnd (last lv : Nat) :
    catchUpStart last lv ≤ catchUpEnd last lv := by
  match lv with
  | 0 => exact Nat.le_add_right _ _
  | 1 => simp only [catchUpStart, catchUpEnd, Nat.zero_add, Nat.pow_one]; omega
  | lv + 2 => exact Nat.mul_le_mul_right _ (Nat.add_le_add_left (by decide) _)

/-- A level has come to its end before the next one is triggered. -/
theorem catchUpEnd_lt_catchUpStart (last lv : Nat) :
    catchUpEnd last lv < catchUpStart last (lv + 1) := by
  match lv with
  | 0 => simp only [catchUpStart, catchUpEnd]; omega
  | lv + 1 =>
    have hm : 0 < 256 ^ (lv + 1) := Nat.pow_pos (by decide)
    have hdiv : (last - 1) / 256 ^ (lv + 1 + 1) =
        (last - 1) / 256 ^ (lv + 1) / 256 := by
      rw [Nat.pow_succ 256 (lv + 1), Nat.div_div_eq_div_mul]
    change ((last - 1) / 256 ^ (lv + 1) + 256) * 256 ^ (lv + 1) <
      ((last - 1) / 256 ^ (lv + 1 + 1) + 2) * 256 ^ (lv + 1 + 1)
    rw [hdiv, Nat.pow_succ 256 (lv + 1), Nat.mul_comm (256 ^ (lv + 1)) 256, ← Nat.mul_assoc]
    exact Nat.mul_lt_mul_of_pos_right (by omega) hm

theorem catchUpStart_mono (last : Nat) {l k : Nat} (h : l ≤ k) :
    catchUpStart last l ≤ catchUpStart last k := by
  induction h with
  | refl => exact Nat.le_refl _
  | step _ ih =>
    exact ih.trans ((catchUpStart_le_catchUpEnd last _).trans
      (catchUpEnd_lt_catchUpStart last _).le)

/-- How often the wheel of level `t + 1` has moved when it has just come to
its position `c`. -/
theorem moved_mul {t c : Nat} (last : Nat) (hc : 0 < c) :
    moved last (t + 1) (256 ^ (t + 1) * c) =
      c - 1 - (last - 1) / 256 ^ (t + 1) := by
  have hm : 0 < 256 ^ (t + 1) := Nat.pow_pos (by decide)
  obtain ⟨e, rfl⟩ : ∃ e, c = e + 1 := ⟨c - 1, by omega⟩
  rw [moved, if_neg (Nat.succ_ne_zero t), multiplesBefore, Nat.mul_succ,
    Nat.add_sub_assoc hm, Nat.mul_add_div hm,
    Nat.div_eq_of_lt (Nat.sub_lt hm Nat.one_pos)]
  rfl

/-- The last position of a level is the one at which its wheel has moved 255
times. -/
theorem le_catchUpEnd {last t f : Nat} (hf : 256 ^ t ∣ f)
    (h0 : catchUpStart last t ≤ f) (h : moved last t f ≤ 255) :
    f ≤ catchUpEnd last t := by
  match t with
  | 0 =>
    simp only [moved, if_true, catchUpEnd] at h ⊢
    omega
  | t + 1 =>
    obtain ⟨c, rfl⟩ := hf
    have hc : 0 < c := Nat.pos_of_mul_pos_left
      ((catchUpStart_pos last (Nat.succ_pos t)).trans_le h0)
    rw [moved_mul last hc] at h
    rw [Nat.mul_comm, catchUpEnd]
    exact Nat.mul_le_mul_right _ (by omega)

theorem catchUpEnd_le {last t f : Nat} (hf : 256 ^ t ∣ f)
    (h0 : catchUpStart last t ≤ f) (h : 255 ≤ moved last t f) :
    catchUpEnd last t ≤ f := by
  match t with
  | 0 =>
    simp only [moved, if_true, catchUpEnd, catchUpStart] at h h0 ⊢
    omega
  | t + 1 =>
    obtain ⟨c, rfl⟩ := hf
    have hc : 0 < c := Nat.pos_of_mul_pos_left
      ((catchUpStart_pos last (Nat.succ_pos t)).trans_le h0)
    rw [moved_mul last hc] at h
    rw [Nat.mul_comm _ c, catchUpEnd]
    exact Nat.mul_le_mul_right _ (by omega)

/-- The next level begins at the end of the turn in which the level comes to
its end. -/
theorem turnEnd_catchUpEnd (last t : Nat) :
    turnEnd (t + 1) (catchUpEnd last t) = catchUpStart last (t + 1) := by
  match t with
  | 0 => simp only [turnEnd, catchUpEnd, catchUpStart, Nat.zero_add, Nat.pow_one]
  | t + 1 =>
    have hm : 0 < 256 ^ (t + 1) := Nat.pow_pos (by decide)
    have hdiv : (last - 1) / 256 ^ (t + 2) = (last - 1) / 256 ^ (t + 1) / 256 := by
      rw [Nat.pow_succ, Nat.div_div_eq_div_mul]
    rw [turnEnd, catchUpEnd, catchUpStart, hdiv, Nat.pow_succ 256 (t + 1),
      ← Nat.div_div_eq_div_mul, Nat.mul_div_cancel _ hm]
    congr 1
    omega

/-- Where the loop begins to trigger a level, its wheel has moved at most
twice. -/
theorem moved_catchUpStart_le (last t : Nat) :
    moved last (t + 1) (catchUpStart last (t + 1)) ≤ 2 := by
  match t with
  | 0 =>
    simp only [moved, multiplesBefore, catchUpStart, Nat.zero_add, Nat.pow_one,
      Nat.one_ne_zero, if_false]
    omega
  | t + 1 =>
    have hm : 0 < 256 ^ (t + 1 + 1) := Nat.pow_pos (by decide)
    have hlt : (catchUpStart last (t + 1 + 1) - 1) / 256 ^ (t + 1 + 1)
        < (last - 1) / 256 ^ (t + 1 + 1) + 2 := by
      rw [Nat.div_lt_iff_lt_mul hm]
      exact Nat.sub_lt (catchUpStart_pos last (Nat.succ_pos _)) Nat.one_pos
    simp only [moved, multiplesBefore, if_neg (Nat.succ_ne_zero _)]
    omega

/-! ## One iteration -/

theorem SweepInv.init (last : Nat) : SweepInv last Sweep.init where
  level_le := by decide
  counted k _ := Nat.zero_le _
  aligned _ := Nat.one_dvd _
  exact _ k _ := by simp [Sweep.init, moved, multiplesBefore]
  below _ := by decide
  caughtUp := by simp [Sweep.init, catchUpStart]

section Iteration

variable {last : Nat} {s : Sweep}

theorem Sweep.pos_eq (hb : last + s.i < 2 ^ 47) : s.pos last = last + s.i :=
  Nat.mod_eq_of_lt (by omega)

/-- One iteration counts a level exactly when its wheel moves. -/
theorem SweepInv.count_next (h : SweepInv last s) (hb : last + s.i < 2 ^ 47)
    {k : Nat} (hk : s.triggerLevel ≤ k) :
    ∃ e ≤ 1, (s.next last).triggerSlots k = s.triggerSlots k + e ∧
      moved last k (floor s.triggerLevel (last + s.i) + 1) =
        moved last k (floor s.triggerLevel (last + s.i)) + e := by
  have hlast := (last_le_catchUpStart last s.triggerLevel).trans h.caughtUp
  have hnodup := (cascade_levels (last + s.i) 8 s.triggerLevel
    (p8 (last + s.i) s.triggerLevel)).2
  have habove := (cascade_levels (last + s.i) 8 s.triggerLevel
    (p8 (last + s.i) s.triggerLevel)).1
  simp only [Sweep.next, Sweep.turned, Sweep.pos_eq hb, foldl_bump _ hnodup]
  rcases Nat.eq_or_lt_of_le hk with rfl | hlt
  · -- the triggered slot itself
    have hnot : s.triggerLevel ∉ (cascade (last + s.i) 8 s.triggerLevel
        (p8 (last + s.i) s.triggerLevel)).map SlotRef.level := by
      intro hmem
      obtain ⟨r, hr, he⟩ := List.mem_map.1 hmem
      exact absurd he (habove r hr).ne'
    refine ⟨1, Nat.le_refl 1, by simp [bump, hnot], ?_⟩
    rcases Nat.eq_zero_or_pos s.triggerLevel with h0 | h0
    · simp only [h0, moved, if_true] at hlast ⊢
      omega
    · have hf := (catchUpStart_pos last h0).trans_le h.caughtUp
      rw [moved, moved, if_neg h0.ne', if_neg h0.ne',
        multiplesBefore_succ hf hlast, if_pos (dvd_floor _ _)]
  · -- a slot that turns over
    have hk0 : k ≠ 0 := by omega
    have hbump : bump s.triggerSlots s.triggerLevel k = s.triggerSlots k := by
      rw [bump, Function.update_of_ne hlt.ne']
    rcases Nat.eq_zero_or_pos (floor s.triggerLevel (last + s.i)) with hf | hf
    · have ht0 : s.triggerLevel = 0 := by
        by_contra hne
        have := (catchUpStart_pos last (Nat.pos_of_ne_zero hne)).trans_le h.caughtUp
        omega
      rw [ht0, floor_zero] at hf
      refine ⟨0, Nat.zero_le 1, ?_, ?_⟩
      · simp [hbump, hf, cascade_zero]
      · simp [moved, hk0, multiplesBefore, ht0, hf]
    · have hpos : 0 < last + s.i := hf.trans_le (floor_le _ _)
      refine ⟨if 256 ^ k ∣ floor s.triggerLevel (last + s.i) then 1 else 0,
        by split <;> decide, ?_, ?_⟩
      · rw [hbump]
        congr 1
        refine if_congr ?_ rfl rfl
        have hcas := mem_cascade hpos (by omega) 8 s.triggerLevel
          (by omega) hf
        constructor
        · intro hmem
          obtain ⟨r, hr, rfl⟩ := List.mem_map.1 hmem
          exact ((hcas r).1 hr).2.1
        · intro hdvd
          exact List.mem_map.2 ⟨⟨k, p8 (last + s.i) k⟩,
            (hcas _).2 ⟨hlt, hdvd, rfl⟩, rfl⟩
      · rw [moved, moved, if_neg hk0, if_neg hk0, multiplesBefore_succ hf hlast]

/-- The table is right up to level 2. -/
theorem additions_low {lv : Nat} (h : lv ≤ 2) : additions.getD lv 0 = 256 ^ lv := by
  interval_cases lv <;> rfl

/-- From level 3 on the table has the step of the level above. -/
theorem additions_high {lv : Nat} (h3 : 3 ≤ lv) (h5 : lv ≤ 5) :
    additions.getD lv 0 = 256 ^ (lv + 1) := by
  interval_cases lv <;> rfl

theorem additions_bounds (lv : Nat) (h5 : lv ≤ 5) :
    256 ^ lv ≤ additions.getD lv 0 ∧ additions.getD lv 0 ≤ 2 ^ 48 := by
  interval_cases lv <;> decide

/-- Above level 0 the step is the smaller of the two candidates. -/
theorem Sweep.add_eq {t : Nat} (h5 : t + 1 ≤ 5) (hb : last + s.i < 2 ^ 47)
    (hn : s.nextLevel = t + 1) :
    s.add last = min ((256 - p8 (last + s.i) t) * additions.getD t 0)
      (additions.getD (t + 1) 0) := by
  have hlt := p8_lt (last + s.i) t
  have hA := additions_bounds t (by omega)
  have hpos : 0 < 256 ^ t := Nat.pow_pos (by decide)
  have hbig : (256 - p8 (last + s.i) t) * additions.getD t 0 < 2 ^ 64 := by
    calc (256 - p8 (last + s.i) t) * additions.getD t 0
        ≤ 256 * 2 ^ 48 := Nat.mul_le_mul (by omega) hA.2
      _ < 2 ^ 64 := by decide
  have hsteps : 0 < (256 - p8 (last + s.i) t) * additions.getD t 0 :=
    Nat.mul_pos (by omega) (by omega)
  simp only [Sweep.add, hn, Sweep.pos_eq hb, Nat.add_sub_cancel,
    Nat.mod_eq_of_lt hbig, if_pos (Nat.succ_pos t), if_pos hsteps]

/-- The step within a level covers at least one slot of the level, and up to
level 3 exactly one. -/
theorem Sweep.add_same (h5 : s.triggerLevel ≤ 5) (hb : last + s.i < 2 ^ 47)
    (ha : s.triggerLevel ≤ 3 → 256 ^ s.triggerLevel ∣ last + s.i)
    (hn : s.nextLevel = s.triggerLevel) :
    256 ^ s.triggerLevel ≤ s.add last ∧ s.add last ≤ 2 ^ 48 ∧
      (s.triggerLevel ≤ 3 → s.add last = 256 ^ s.triggerLevel) := by
  rcases ht : s.triggerLevel with _ | t
  · have hadd : s.add last = 1 := by
      simp [Sweep.add, hn, ht, additions]
    rw [hadd]
    decide
  · rw [ht] at h5 ha hn
    have hlt := p8_lt (last + s.i) t
    have hA := additions_bounds _ h5
    have hA' := additions_bounds t (by omega)
    rw [Sweep.add_eq h5 hb hn]
    rcases Nat.lt_or_ge t 3 with h3 | h3
    · -- the position is aligned, so a whole turn of the level below is left
      have hdvd := ha (by omega)
      rw [pow_succ_dvd_iff (by decide)] at hdvd
      have hz : p8 (last + s.i) t = 0 := hdvd.2
      rw [hz, Nat.sub_zero, additions_low (by omega), ← Nat.pow_succ',
        Nat.min_eq_left hA.1]
      exact ⟨Nat.le_refl _, hA.1.trans hA.2, fun _ => rfl⟩
    · refine ⟨le_min ?_ hA.1, (min_le_right _ _).trans hA.2, fun h => by omega⟩
      rw [additions_high h3 (by omega)]
      exact Nat.le_mul_of_pos_left _ (by omega)

/-- The step that leaves a level goes to the end of the turn of that level at
least, and up to level 2 exactly there. -/
theorem Sweep.add_up {t : Nat} (h5 : t + 1 ≤ 5) (hb : last + s.i < 2 ^ 47)
    (hn : s.nextLevel = t + 1) :
    (256 - p8 (last + s.i) t) * 256 ^ t ≤ s.add last ∧ s.add last ≤ 2 ^ 48 ∧
      (t ≤ 2 → s.add last = (256 - p8 (last + s.i) t) * 256 ^ t) := by
  have hA := additions_bounds _ h5
  have hA' := additions_bounds t (by omega)
  have hturn : (256 - p8 (last + s.i) t) * 256 ^ t ≤ additions.getD (t + 1) 0 := by
    refine le_trans ?_ hA.1
    rw [Nat.pow_succ']
    exact Nat.mul_le_mul_right _ (Nat.sub_le _ _)
  rw [Sweep.add_eq h5 hb hn]
  refine ⟨le_min (Nat.mul_le_mul_left _ hA'.1) hturn,
    (min_le_right _ _).trans hA.2, fun h2 => ?_⟩
  rw [additions_low h2, Nat.min_eq_left hturn]

/-- The next position is not before the next move of the wheel of the next
level, and up to level 3 it is that move. -/
theorem SweepInv.turnEnd_le_next (h : SweepInv last s) (hb : last + s.i < 2 ^ 47)
    (hn5 : s.nextLevel ≤ 5) :
    (s.next last).i = s.i + s.add last ∧
      turnEnd s.nextLevel (last + s.i) ≤ last + (s.i + s.add last) ∧
      (s.nextLevel ≤ 3 →
        last + (s.i + s.add last) = turnEnd s.nextLevel (last + s.i)) := by
  have hmod : s.add last ≤ 2 ^ 48 → (s.next last).i = s.i + s.add last :=
    fun hle => Nat.mod_eq_of_lt (by omega)
  have hfloor := floor_le s.triggerLevel (last + s.i)
  by_cases hup : s.triggerSlots s.triggerLevel + 1 = 256
  · have hn : s.nextLevel = s.triggerLevel + 1 := if_pos hup
    rw [hn] at hn5 ⊢
    obtain ⟨h1, h2, h3⟩ := Sweep.add_up hn5 hb hn
    rw [turnEnd_succ]
    refine ⟨hmod h2, by omega, fun hle => ?_⟩
    rw [h3 (by omega), floor_of_dvd (h.aligned (by omega)), Nat.add_assoc]
  · have hn : s.nextLevel = s.triggerLevel := if_neg hup
    rw [hn]
    obtain ⟨h1, h2, h3⟩ := Sweep.add_same h.level_le hb h.aligned hn
    rw [turnEnd_eq]
    refine ⟨hmod h2, by omega, fun hle => ?_⟩
    rw [h3 hle, floor_of_dvd (h.aligned hle), Nat.add_assoc]

/-- The loop never leaves level 5: the clock is not long enough. -/
theorem SweepInv.nextLevel_le (h : SweepInv last s) (hb : last + s.i < 2 ^ 47) :
    s.nextLevel ≤ 5 := by
  have h5 := h.level_le
  by_contra hgt
  have hup : s.triggerSlots s.triggerLevel + 1 = 256 := by
    by_contra hne
    rw [Sweep.nextLevel, if_neg hne] at hgt
    omega
  rw [Sweep.nextLevel, if_pos hup] at hgt
  have ht : s.triggerLevel = 5 := by omega
  have hc := h.counted 5 (by omega)
  have hf := floor_le 5 (last + s.i)
  rw [ht] at hc hup
  simp only [moved, multiplesBefore] at hc
  norm_num at hc
  omega

/-- The wheels of the levels from the next one on do not move between the two
positions. -/
theorem SweepInv.moved_next (h : SweepInv last s) (hb : last + s.i < 2 ^ 47)
    (h3 : s.nextLevel ≤ 3) {k : Nat} (hk : s.nextLevel ≤ k) :
    moved last k (last + (s.next last).i) = moved last k (last + s.i + 1) := by
  obtain ⟨hi, -, heq⟩ := h.turnEnd_le_next hb (by omega)
  have hq := heq h3
  rw [hi, hq]
  have hlt := lt_turnEnd s.nextLevel (last + s.i)
  rcases Nat.eq_zero_or_pos k with rfl | hk0
  · have hz : s.nextLevel = 0 := by omega
    rw [hz, turnEnd_of_dvd (Nat.one_dvd _), Nat.pow_zero]
  · rw [moved, moved, if_neg hk0.ne', if_neg hk0.ne']
    refine multiplesBefore_eq hlt ?_
    have := turnEnd_mono hk (last + s.i)
    rw [Nat.add_sub_cancel, ← turnEnd]
    omega

/-- Up to level 3, the loop leaves a level exactly at its last position. -/
theorem SweepInv.eq_catchUpEnd (h : SweepInv last s)
    (hup : s.triggerSlots s.triggerLevel + 1 = 256) (h3 : s.triggerLevel ≤ 3) :
    last + s.i = catchUpEnd last s.triggerLevel := by
  have hal := h.aligned h3
  have hcu := h.caughtUp
  rw [floor_of_dvd hal] at hcu
  have hcnt : moved last s.triggerLevel (last + s.i) = 255 := by
    rw [← h.exact h3 _ (Nat.le_refl _)]
    omega
  exact Nat.le_antisymm (le_catchUpEnd hal hcu hcnt.le) (catchUpEnd_le hal hcu hcnt.ge)

/-- The next level, if it is not above 3, begins at `catchUpStart`. -/
theorem SweepInv.eq_catchUpStart (h : SweepInv last s) (hb : last + s.i < 2 ^ 47)
    (hup : s.triggerSlots s.triggerLevel + 1 = 256) (h3 : s.nextLevel ≤ 3) :
    last + (s.next last).i = catchUpStart last s.nextLevel := by
  have hn : s.nextLevel = s.triggerLevel + 1 := if_pos hup
  obtain ⟨hi, -, heq⟩ := h.turnEnd_le_next hb (by omega)
  rw [hi, heq h3, hn, h.eq_catchUpEnd hup (by omega), turnEnd_catchUpEnd]

/-- The invariant holds from one iteration to the next. -/
theorem SweepInv.next (h : SweepInv last s) (hb : last + s.i < 2 ^ 47) :
    SweepInv last (s.next last) ∧
      last + s.i < floor s.nextLevel (last + (s.next last).i) := by
  have hn5 := h.nextLevel_le hb
  obtain ⟨hi, hge, heq⟩ := h.turnEnd_le_next hb hn5
  rw [← hi] at hge heq
  have hgt : last + s.i < floor s.nextLevel (last + (s.next last).i) :=
    (lt_turnEnd _ _).trans_le (le_floor (dvd_turnEnd _ _) hge)
  refine ⟨?_, hgt⟩
  have hle : s.triggerLevel ≤ s.nextLevel := by
    rw [Sweep.nextLevel]
    split <;> omega
  have hfl := floor_le s.triggerLevel (last + s.i)
  have hlev : (s.next last).triggerLevel = s.nextLevel := rfl
  -- up to level 3 the counters stay exact
  have hexact : s.nextLevel ≤ 3 → ∀ k, s.nextLevel ≤ k →
      (s.next last).triggerSlots k = moved last k (last + (s.next last).i) := by
    intro h3 k hk
    obtain ⟨e, -, h1, h2⟩ := h.count_next hb (hle.trans hk)
    rw [floor_of_dvd (h.aligned (by omega))] at h2
    rw [h1, h.exact (by omega) k (by omega), h.moved_next hb h3 hk, h2]
  have hcounted : ∀ k, s.nextLevel ≤ k → (s.next last).triggerSlots k ≤
      moved last k (floor s.nextLevel (last + (s.next last).i)) := by
    intro k hk
    obtain ⟨e, -, h1, h2⟩ := h.count_next hb (hle.trans hk)
    rw [h1]
    refine (Nat.add_le_add_right (h.counted k (by omega)) e).trans ?_
    rw [← h2, moved, moved]
    split
    · omega
    · exact multiplesBefore_mono (by omega)
  have haligned : s.nextLevel ≤ 3 → 256 ^ s.nextLevel ∣ last + (s.next last).i := by
    intro h3
    rw [heq h3]
    exact dvd_turnEnd _ _
  by_cases hup : s.triggerSlots s.triggerLevel + 1 = 256
  · -- the level has been covered
    have hn : s.nextLevel = s.triggerLevel + 1 := if_pos hup
    have hcnt := h.counted s.triggerLevel (Nat.le_refl _)
    have hend := catchUpEnd_le (dvd_floor _ _) h.caughtUp
      (by omega : 255 ≤ moved last s.triggerLevel (floor s.triggerLevel (last + s.i)))
    refine ⟨by rw [hlev]; exact hn5, hcounted, haligned, hexact, ?_, ?_⟩
    · intro h3
      have h3' : s.nextLevel ≤ 3 := h3
      rw [hlev, hexact h3' _ (Nat.le_refl _), h.eq_catchUpStart hb hup h3', hn]
      have := moved_catchUpStart_le last s.triggerLevel
      omega
    · have hturn := turnEnd_le_turnEnd (s.triggerLevel + 1) (hend.trans hfl)
      rw [turnEnd_catchUpEnd, ← hn] at hturn
      rw [hlev]
      exact hturn.trans (le_floor (dvd_turnEnd _ _) hge)
  · have hn : s.nextLevel = s.triggerLevel := if_neg hup
    refine ⟨by rw [hlev]; exact hn5, hcounted, haligned, hexact, ?_, ?_⟩
    · intro h3
      have h3' : s.nextLevel ≤ 3 := h3
      obtain ⟨e, he, h1, -⟩ := h.count_next hb (Nat.le_refl s.triggerLevel)
      have := h.below (by omega)
      rw [hlev, hn, h1]
      omega
    · have := floor_mono s.triggerLevel
        (by have := floor_le s.nextLevel (last + (s.next last).i); omega :
          last + s.i ≤ last + (s.next last).i)
      rw [hlev, hn]
      exact h.caughtUp.trans this

/-! ## Which slots are visited -/

/-- The sweep from `last` to `dest` can trigger slot `r` as a whole at a
position from `x` on: the level is in its turn there.  From level 4 on the end
of that turn is not known. -/
def Triggers (last dest : Nat) (r : SlotRef) (x : Nat) : Prop :=
  ∃ v, x ≤ v ∧ v < dest ∧ r.VisitedAt v ∧ catchUpStart last r.level ≤ v ∧
    (r.level ≤ 3 → v ≤ catchUpEnd last r.level)

theorem Triggers.mono {dest x y : Nat} {r : SlotRef} (h : Triggers last dest r y)
    (hxy : x ≤ y) : Triggers last dest r x := by
  obtain ⟨v, hv, hrest⟩ := h
  exact ⟨v, hxy.trans hv, hrest⟩

/-- Up to level 3, the loop does not go past the last position of its level. -/
theorem SweepInv.le_catchUpEnd (h : SweepInv last s) (h3 : s.triggerLevel ≤ 3) :
    last + s.i ≤ catchUpEnd last s.triggerLevel := by
  have hal := h.aligned h3
  have hcu := h.caughtUp
  rw [floor_of_dvd hal] at hcu
  refine Timer.le_catchUpEnd hal hcu ?_
  rw [← h.exact h3 _ (Nat.le_refl _)]
  have := h.below h3
  omega

/-- The loop triggers a slot only in the turn of its level. -/
theorem SweepInv.triggers (h : SweepInv last s) (hb : last + s.i < 2 ^ 47)
    {dest x : Nat} (hdest : last + s.i < dest)
    (hx : x ≤ floor s.triggerLevel (last + s.i)) :
    Triggers last dest (s.triggered last) x := by
  have hfl := floor_le s.triggerLevel (last + s.i)
  rw [Sweep.triggered, Sweep.pos_eq hb]
  refine ⟨_, hx, hfl.trans_lt hdest, visitedAt_floor _ _, h.caughtUp, fun h3 => ?_⟩
  have h3' : s.triggerLevel ≤ 3 := h3
  rw [floor_of_dvd (h.aligned h3')]
  exact h.le_catchUpEnd h3'

/-- A slot that comes up at a position of the loop is visited there. -/
theorem SweepInv.visit_of_visitedAt (h : SweepInv last s)
    (hb : last + s.i < 2 ^ 47) (h3 : s.triggerLevel ≤ 3) {r : SlotRef}
    (hr : s.triggerLevel ≤ r.level) (hv : r.VisitedAt (last + s.i))
    (hpos : 0 < r.level → 0 < last + s.i) :
    r = s.triggered last ∨ r ∈ s.turned last := by
  rw [Sweep.triggered, Sweep.turned, Sweep.pos_eq hb]
  rcases Nat.eq_or_lt_of_le hr with he | hlt
  · left
    rw [he]
    cases r
    simp only [SlotRef.mk.injEq, true_and]
    exact hv.2.symm
  · right
    have hfl := floor_of_dvd (h.aligned h3)
    have hp := hpos (by omega)
    refine (mem_cascade hp (by omega) _ _ (by omega) (by omega) r).2
      ⟨hlt, ?_, hv.2.symm⟩
    rw [hfl]
    exact hv.1

/-- Each iteration visits the slots that come up before the next position, as
long as they come up before the loop leaves level 3. -/
theorem SweepInv.visit_of_next (h : SweepInv last s) (hb : last + s.i < 2 ^ 47)
    {r : SlotRef} (ho : r.offset < 256) (hlow : last + s.i ≤ r.next last)
    (h4 : r.next last < catchUpStart last 4)
    (hpos : 0 < r.level → 0 < r.next last) :
    r = s.triggered last ∨ r ∈ s.turned last ∨
      last + (s.next last).i ≤ r.next last := by
  have hcu := h.caughtUp
  have hfl := floor_le s.triggerLevel (last + s.i)
  have hv := SlotRef.visitedAt_next ho last
  have hend := next_le_catchUpEnd r last
  -- the loop is on level 3 at most, and the level of the slot is not passed
  have h3 : s.triggerLevel ≤ 3 := by
    by_contra hgt
    have : catchUpStart last 4 ≤ catchUpStart last s.triggerLevel :=
      catchUpStart_mono last (by omega)
    omega
  have hr : s.triggerLevel ≤ r.level := by
    by_contra hgt
    have h1 := catchUpEnd_lt_catchUpStart last r.level
    have h2 : catchUpStart last (r.level + 1) ≤ catchUpStart last s.triggerLevel :=
      catchUpStart_mono last (by omega)
    omega
  by_cases hlt : r.next last < last + (s.next last).i
  · have hal := h.aligned h3
    have heq : r.next last = last + s.i := by
      by_cases hup : s.triggerSlots s.triggerLevel + 1 = 256
      · have hn : s.nextLevel = s.triggerLevel + 1 := if_pos hup
        have hpe := h.eq_catchUpEnd hup h3
        rcases Nat.eq_or_lt_of_le hr with he | hlt'
        · rw [← he] at hend
          omega
        · -- the next visit is a multiple of the next level's turn
          have hdvd : 256 ^ (s.triggerLevel + 1) ∣ r.next last :=
            (Nat.pow_dvd_pow 256 hlt').trans hv.1
          have hturn := turnEnd_catchUpEnd last s.triggerLevel
          rw [← hpe] at hturn
          by_contra hne
          have hge := turnEnd_le hdvd (by omega : last + s.i < r.next last)
          rw [hturn, ← hn] at hge
          rcases Nat.lt_or_ge s.nextLevel 4 with h4' | h4'
          · have := h.eq_catchUpStart hb hup (by omega)
            omega
          · have := catchUpStart_mono last h4'
            omega
      · have hn : s.nextLevel = s.triggerLevel := if_neg hup
        obtain ⟨hi, -, hq⟩ := h.turnEnd_le_next hb (by omega)
        have hq := hq (by omega)
        rw [← hi, hn] at hq
        have hdvd : 256 ^ s.triggerLevel ∣ r.next last :=
          (Nat.pow_dvd_pow 256 hr).trans hv.1
        by_contra hne
        have hge := turnEnd_le hdvd (by omega : last + s.i < r.next last)
        omega
    rw [heq] at hv hpos
    rcases h.visit_of_visitedAt hb h3 hr hv hpos with h1 | h1
    · exact Or.inl h1
    · exact Or.inr (Or.inl h1)
  · exact Or.inr (Or.inr (Nat.not_lt.1 hlt))

/-! ## What the sweep has still to visit -/

/-- The sweep to `dest` visits slot `r`, if it has to, before it leaves
level 3. -/
def InReach (last dest : Nat) (r : SlotRef) : Prop :=
  r.next last < dest → r.next last < catchUpStart last 4

theorem inReach_of_level_le {dest : Nat} {r : SlotRef} (h : r.level ≤ 3) :
    InReach last dest r := by
  intro _
  have h1 := next_le_catchUpEnd r last
  have h2 := catchUpEnd_lt_catchUpStart last r.level
  have h3 : catchUpStart last (r.level + 1) ≤ catchUpStart last 4 :=
    catchUpStart_mono last (by omega)
  omega

/-- Slot `r` comes up in the rest of the sweep: it is among the slots that are
left at this position, or it comes up at a later one, or not before `dest`. -/
def Ahead (last dest : Nat) (turned : List SlotRef) (s : Sweep) (r : SlotRef) :
    Prop :=
  r ∈ turned ∨ last + s.i ≤ r.next last ∨ dest ≤ r.next last

theorem Ahead.init (last dest : Nat) (r : SlotRef) :
    Ahead last dest [] Sweep.init r :=
  Or.inr (Or.inl (r.le_next last))

/-- An iteration triggers the slot, or leaves it ahead. -/
theorem Ahead.iterate {dest : Nat} {r : SlotRef} (ha : Ahead last dest [] s r)
    (h : SweepInv last s) (hb : last + s.i < 2 ^ 47) (ho : r.offset < 256)
    (hpos : 0 < r.level → 0 < r.next last) (hr : InReach last dest r) :
    r = s.triggered last ∨ Ahead last dest (s.turned last) (s.next last) r := by
  rcases ha with hmem | hlow | hdest
  · exact absurd hmem (List.not_mem_nil)
  · by_cases hd : r.next last < dest
    · rcases h.visit_of_next hb ho hlow (hr hd) hpos with h1 | h1 | h1
      · exact Or.inl h1
      · exact Or.inr (Or.inl h1)
      · exact Or.inr (Or.inr (Or.inl h1))
    · exact Or.inr (Or.inr (Or.inr (Nat.not_lt.1 hd)))
  · exact Or.inr (Or.inr (Or.inr hdest))

theorem Ahead.turn {dest : Nat} {q r : SlotRef} {rest : List SlotRef}
    (ha : Ahead last dest (q :: rest) s r) (hne : r ≠ q) :
    Ahead last dest rest s r := by
  rcases ha with hmem | h
  · exact Or.inl ((List.mem_cons.1 hmem).resolve_left hne)
  · exact Or.inr h

/-- What is ahead when the loop ends does not come up before `dest`. -/
theorem Ahead.finish {dest : Nat} {r : SlotRef} (ha : Ahead last dest [] s r)
    (hi : dest ≤ last + s.i) : dest ≤ r.next last := by
  rcases ha with hmem | h | h
  · exact absurd hmem (List.not_mem_nil)
  · exact hi.trans h
  · exact h

end Iteration

end Costream.Timer
