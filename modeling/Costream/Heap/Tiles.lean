import Mathlib.Data.List.Chain

/-!
# Blocks one after the other

`Tiles len a b xs`: the blocks at the addresses `xs`, with the lengths `len`, fill the range from
`a` to `b` without gap or overlap.  A tiling is cut where two lists are appended, so a block
is split or two are joined by looking at that place only.
-/

namespace Costream

def Tiles (len : Nat → Nat) : Nat → Nat → List Nat → Prop
  | a, b, [] => a = b
  | a, b, k :: rest => k = a ∧ 0 < len k ∧ Tiles len (a + len k) b rest

variable {len len' : Nat → Nat} {a b c k n : Nat} {xs ys : List Nat}

namespace Tiles

theorem append : Tiles len a b (xs ++ ys) ↔ ∃ c, Tiles len a c xs ∧ Tiles len c b ys := by
  induction xs generalizing a with
  | nil =>
    refine ⟨fun h => ⟨a, rfl, h⟩, fun ⟨c, hc, h⟩ => ?_⟩
    rw [show a = c from hc]
    exact h
  | cons k xs ih =>
    show (k = a ∧ 0 < len k ∧ Tiles len (a + len k) b (xs ++ ys)) ↔
      ∃ c, (k = a ∧ 0 < len k ∧ Tiles len (a + len k) c xs) ∧ Tiles len c b ys
    rw [ih]
    constructor
    · rintro ⟨hk, hpos, c, hxs, hys⟩
      exact ⟨c, ⟨hk, hpos, hxs⟩, hys⟩
    · rintro ⟨c, ⟨hk, hpos, hxs⟩, hys⟩
      exact ⟨hk, hpos, c, hxs, hys⟩

theorem congr (h : Tiles len a b xs) (hlen : ∀ k ∈ xs, len' k = len k) : Tiles len' a b xs := by
  induction xs generalizing a with
  | nil => exact h
  | cons k xs ih =>
    obtain ⟨hk, hpos, hrest⟩ := h
    have hlenk := hlen k (by simp)
    refine ⟨hk, by omega, ?_⟩
    rw [hlenk]
    exact ih hrest fun k' hk' => hlen k' (by simp [hk'])

theorem le (h : Tiles len a b xs) : a ≤ b := by
  induction xs generalizing a with
  | nil => exact Nat.le_of_eq h
  | cons k xs ih =>
    have := ih h.2.2
    omega

/-- A block lies in the range. -/
theorem mem (h : Tiles len a b xs) (hk : k ∈ xs) : a ≤ k ∧ 0 < len k ∧ k + len k ≤ b := by
  induction xs generalizing a with
  | nil => cases hk
  | cons k' xs ih =>
    obtain ⟨rfl, hpos, hrest⟩ := h
    rcases List.mem_cons.1 hk with rfl | hk
    · exact ⟨Nat.le_refl _, hpos, hrest.le⟩
    · have := ih hrest hk
      omega

/-- Two blocks do not overlap. -/
theorem apart (h : Tiles len a b xs) : xs.Pairwise fun x y => x + len x ≤ y := by
  induction xs generalizing a with
  | nil => exact List.Pairwise.nil
  | cons k xs ih =>
    obtain ⟨rfl, -, hrest⟩ := h
    exact List.pairwise_cons.2 ⟨fun y hy => (hrest.mem hy).1, ih hrest⟩

theorem sorted (h : Tiles len a b xs) : xs.Pairwise (· < ·) := by
  refine List.Pairwise.imp_of_mem (fun {x y} hx _ hle => ?_) h.apart
  have := (h.mem hx).2.1
  omega

/-- Of two blocks, the one at the lower address ends before the other begins. -/
theorem le_of_lt (h : Tiles len a b xs) {x y : Nat} (hx : x ∈ xs) (hy : y ∈ xs) (hlt : x < y) :
    x + len x ≤ y := by
  induction xs generalizing a with
  | nil => cases hx
  | cons k xs ih =>
    have hk : k = a := h.1
    rcases List.mem_cons.1 hx with hx | hx
    · rcases List.mem_cons.1 hy with hy | hy
      · omega
      · have := (Tiles.mem h.2.2 hy).1
        rw [hx]
        omega
    · rcases List.mem_cons.1 hy with hy | hy
      · have := (Tiles.mem h.2.2 hx).1
        omega
      · exact ih h.2.2 hx hy

/-- Every place in the range is in a block. -/
theorem exists_mem (h : Tiles len a b xs) {x : Nat} (ha : a ≤ x) (hb : x < b) :
    ∃ k ∈ xs, k ≤ x ∧ x < k + len k := by
  induction xs generalizing a with
  | nil =>
    have hab : a = b := h
    omega
  | cons k xs ih =>
    obtain ⟨hk, -, hrest⟩ := h
    by_cases hx : x < k + len k
    · exact ⟨k, by simp, by omega, hx⟩
    · obtain ⟨k', hk', hin⟩ := ih hrest (by omega)
      exact ⟨k', List.mem_cons_of_mem k hk', hin⟩

/-- And in one only. -/
theorem eq_of_mem (h : Tiles len a b xs) {x y z : Nat} (hx : x ∈ xs) (hy : y ∈ xs)
    (hxz : x ≤ z ∧ z < x + len x) (hyz : y ≤ z ∧ z < y + len y) : x = y := by
  by_contra hne
  rcases Nat.lt_or_gt_of_ne hne with hlt | hlt
  · have := h.le_of_lt hx hy hlt
    omega
  · have := h.le_of_lt hy hx hlt
    omega

/-- A block that begins where another one ends stands behind it. -/
theorem next (h : Tiles len a b (xs ++ k :: ys)) {x : Nat} (hx : x ∈ xs ++ k :: ys)
    (hnext : k + len k = x) : ∃ zs, ys = x :: zs := by
  obtain ⟨c, hxs, rfl, hpos, hys⟩ := append.1 h
  cases ys with
  | nil =>
    have hb : k + len k = b := hys
    have := (h.mem hx).2
    omega
  | cons y zs =>
    have hy : y = k + len k := hys.1
    exact ⟨zs, by rw [hy, hnext]⟩

/-- A block is split. -/
theorem split (h : Tiles len a b (xs ++ k :: ys)) (hn : 0 < n) (hlt : n < len k)
    (hk : len' k = n) (hrest : len' (k + n) = len k - n)
    (hlen : ∀ x ∈ xs ++ k :: ys, x ≠ k → len' x = len x) :
    Tiles len' a b (xs ++ k :: (k + n) :: ys) := by
  have hnd := h.sorted
  obtain ⟨c, hxs, rfl, hpos, hys⟩ := append.1 h
  obtain ⟨-, hnd', hlt'⟩ := List.pairwise_append.1 hnd
  refine append.2 ⟨k, hxs.congr fun x hx => hlen x (by simp [hx]) ?_, rfl, by omega, ?_, by omega, ?_⟩
  · exact Nat.ne_of_lt (hlt' x hx k (by simp))
  · rw [hk]
  · have hsum : k + len' k + len' (k + n) = k + len k := by omega
    rw [hsum]
    refine hys.congr fun x hx => hlen x (by simp [hx]) ?_
    exact Nat.ne_of_gt ((List.pairwise_cons.1 hnd').1 x hx)

/-- Two blocks are joined. -/
theorem join (h : Tiles len a b (xs ++ k :: (k + len k) :: ys))
    (hk : len' k = len k + len (k + len k))
    (hlen : ∀ x ∈ xs ++ k :: (k + len k) :: ys, x ≠ k → len' x = len x) :
    Tiles len' a b (xs ++ k :: ys) := by
  have hnd := h.sorted
  obtain ⟨c, hxs, rfl, hpos, -, -, hys⟩ := append.1 h
  obtain ⟨-, hnd', hlt'⟩ := List.pairwise_append.1 hnd
  refine append.2 ⟨k, hxs.congr fun x hx => hlen x (by simp [hx]) ?_, rfl, by omega, ?_⟩
  · exact Nat.ne_of_lt (hlt' x hx k (by simp))
  · have hsum : k + len' k = k + len k + len (k + len k) := by omega
    rw [hsum]
    refine hys.congr fun x hx => hlen x (by simp [hx]) ?_
    exact Nat.ne_of_gt ((List.pairwise_cons.1 hnd').1 x (by simp [hx]))

end Tiles

end Costream
