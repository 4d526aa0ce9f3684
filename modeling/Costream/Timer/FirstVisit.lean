import Costream.Timer.Client
import Mathlib.Order.Bounds.Defs

/-!
# Where `Dispatch` files a timer

The slot of a timer is picked by the highest byte of the ticks that are left, and its offset is the
sum of that byte and the one of `point_`, without what the lower bytes carry.  A sweep that goes
from tick to tick visits a slot of level `k` at the positions whose `k` lower bytes are zero.

`dispatch_first_visit`: from `point_` on, the first such position for the slot of a timer is not
after the due tick of the timer, and it is that tick if the level is 0.
-/

namespace Costream.Timer

open Radix

variable {F : Type*}

/-- The positions from `p` on at which a sweep from tick to tick visits the slot. -/
def SlotRef.visits (r : SlotRef) (p : Nat) : Set Nat := {v | p ≤ v ∧ r.VisitedAt v}

theorem SlotRef.isLeast_next {r : SlotRef} (h : r.offset < 256) (p : Nat) :
    IsLeast (r.visits p) (r.next p) := by
  constructor
  · exact ⟨r.le_next p, r.visitedAt_next h p⟩
  · intro v hv
    exact SlotRef.next_le hv.2 hv.1

/-- A slot of level 0 is visited at each of its ticks. -/
theorem SlotRef.visitedAt_low {r : SlotRef} (h : r.level = 0) (v : Nat) :
    r.VisitedAt v ↔ v % 256 = r.offset := by
  unfold SlotRef.VisitedAt Visits digit
  rw [h, Nat.pow_zero, Nat.div_one]
  exact and_iff_right (Nat.one_dvd v)

/-- In level 0 a timer is less than one turn ahead. -/
theorem Filed.next_eq {p due : Nat} {r : SlotRef} (h : Filed p due r) (h0 : r.level = 0) :
    r.next p = due := by
  obtain ⟨hturn, hoffset⟩ := h.low h0
  have hle := h.next_le
  have hge := r.le_next p
  have hvisit := (SlotRef.visitedAt_low h0 _).1 (SlotRef.visitedAt_next h.offset_lt p)
  omega

/-- `Dispatch` links the timer into a slot, and a sweep from tick to tick visits that slot from
`point_` on for the first time by the due tick of the timer; in level 0 it is at that tick. -/
theorem dispatch_first_visit (cfg : Config) {s t : State F} {p : Ptr} {e : Element F}
    {mainloop : Bool} (he : s.heap p = some e) (hlt : cfg.lastTime s.point < e.tp)
    (htp : e.tp < 2 ^ 63) (ht : s.dispatch cfg p mainloop = some t) :
    ∃ r : SlotRef, (t.heap p).bind Element.slot = some r ∧
      t.queue (.slot r) = s.queue (.slot r) ++ [p] ∧ r.level < 8 ∧ r.offset < 256 ∧
      ∃ v, IsLeast (r.visits s.point) v ∧ s.point ≤ v ∧ (v : Int) ≤ cfg.tick e.tp ∧
        (r.level = 0 → (v : Int) = cfg.tick e.tp) := by
  have hfiled := place_filed cfg hlt.le htp
  have hdue : (((cfg.tick e.tp).toNat : Nat) : Int) = cfg.tick e.tp := by
    have hle := (cfg.lastTime_le_iff s.point e.tp).1 hlt.le
    exact Int.toNat_of_nonneg (by omega)
  rw [dispatch_slot he (.inr hlt), Option.some.injEq] at ht
  rw [← ht]
  refine ⟨place cfg s.point e.tp, ?_, ?_, hfiled.level_lt, hfiled.offset_lt, ?_⟩
  · simp only [State.set, Function.update_self]
    rfl
  · simp only [State.set, State.setQueue, Function.update_self]
  · refine ⟨_, SlotRef.isLeast_next hfiled.offset_lt s.point, SlotRef.le_next _ _, ?_, ?_⟩
    · rw [← hdue]
      exact Int.ofNat_le.2 hfiled.next_le
    · intro h0
      rw [hfiled.next_eq h0, hdue]

/-- 257 ticks ahead: the first slot of level 1 after the present one. -/
theorem dispatch_first_visit_257 :
    ∃ v, IsLeast (SlotRef.visits ⟨1, 1⟩ 0) v ∧ (v : Int) ≤ Config.zero.tick 25700000 := by
  have he : ((State.initial Config.zero : State Unit).set 0
      ⟨(), false, 25700000, none, 1, 0⟩).heap 0 = some ⟨(), false, 25700000, none, 1, 0⟩ := rfl
  have hlt : Config.zero.lastTime 0 < 25700000 := by decide
  have ht : ((State.initial Config.zero : State Unit).set 0
      ⟨(), false, 25700000, none, 1, 0⟩).dispatch Config.zero 0 false = some _ :=
    dispatch_slot he (.inr hlt)
  obtain ⟨r, hr, -, -, -, v, hv, -, hle, -⟩ :=
    dispatch_first_visit Config.zero he hlt (by decide) ht
  have hplace : place Config.zero 0 25700000 = r := Option.some.inj hr
  have hslot : place Config.zero 0 25700000 = ⟨1, 1⟩ := by decide
  rw [← hplace, hslot] at hv
  exact ⟨v, hv, hle⟩

end Costream.Timer
