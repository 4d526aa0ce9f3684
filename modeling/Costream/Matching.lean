import Mathlib.Data.Finset.Card
import Mathlib.Data.Finset.Sum
import Mathlib.Data.Fintype.Card

/-!
# Matchings in a history

A history is a list of events, the oldest first.  Some of them give something and some of them take
it.  `Matched` says that what is taken is there: each event that takes has an event of its own that
gave, before it, or one of the things that were there at the start.

* `Matched.countP_le` is how a matching is refuted: there are no more events that take than
  there are things.
* `Matched.snoc` and `Matched.snoc_take` are how a matching is made, along the history.
-/

namespace Costream.Matching

variable {α : Type*} {credit : Nat} {give take P : α → Bool} {l : List α} {a : α}

/-! ## Where events of a kind are -/

/-- The positions of the events that meet `P`. -/
def positions (P : α → Bool) (l : List α) : Finset Nat :=
  (Finset.range l.length).filter fun p => l[p]?.any P

theorem mem_positions {p : Nat} : p ∈ positions P l ↔ l[p]?.any P = true := by
  unfold positions
  rw [Finset.mem_filter, Finset.mem_range, and_iff_right_iff_imp]
  intro h
  by_contra hp
  rw [List.getElem?_eq_none (by omega)] at h
  cases h

theorem lt_of_mem_positions {p : Nat} (h : p ∈ positions P l) : p < l.length :=
  Finset.mem_range.1 (Finset.mem_filter.1 h).1

theorem positions_snoc : positions P (l ++ [a]) =
    if P a then insert l.length (positions P l) else positions P l := by
  ext p
  rw [mem_positions]
  rcases Nat.lt_trichotomy p l.length with hp | hp | hp
  · rw [List.getElem?_append_left hp]
    split
    · rw [Finset.mem_insert, mem_positions]
      exact ⟨.inr, fun h => h.resolve_left (by omega)⟩
    · rw [mem_positions]
  · rw [hp, List.getElem?_concat_length, Option.any_some]
    have hnot : l.length ∉ positions P l := fun h => absurd (lt_of_mem_positions h) (by omega)
    split
    · rename_i ha
      simp [ha]
    · rename_i ha
      simp [ha, hnot]
  · rw [List.getElem?_eq_none (by rw [List.length_append, List.length_singleton]; omega)]
    have hnot : p ∉ positions P l := fun h => absurd (lt_of_mem_positions h) (by omega)
    split
    · rw [Finset.mem_insert]
      simp [hnot, Nat.ne_of_gt hp]
    · simp [hnot]

theorem positions_subset : positions P l ⊆ positions P (l ++ [a]) := by
  rw [positions_snoc]
  split
  · exact Finset.subset_insert _ _
  · exact Finset.Subset.refl _

theorem card_positions : (positions P l).card = l.countP P := by
  induction l using List.reverseRecOn with
  | nil => rfl
  | append_singleton l a ih =>
    rw [positions_snoc, List.countP_append, List.countP_singleton]
    split
    · rw [Finset.card_insert_of_notMem fun h => absurd (lt_of_mem_positions h) (by omega), ih]
    · exact ih

/-! ## Matchings -/

/-- Each event that takes has something of its own that was there before it. -/
def Matched (credit : Nat) (give take : α → Bool) (l : List α) : Prop :=
  ∃ f : Nat → Fin credit ⊕ Nat, Set.InjOn f (positions take l) ∧
    ∀ p ∈ positions take l, ∀ q, f p = .inr q → q < p ∧ q ∈ positions give l

/-- All that there is. -/
def things (credit : Nat) (give : α → Bool) (l : List α) : Finset (Fin credit ⊕ Nat) :=
  Finset.univ.disjSum (positions give l)

theorem card_things : (things credit give l).card = credit + l.countP give := by
  unfold things
  rw [Finset.card_disjSum, Finset.card_univ, Fintype.card_fin, card_positions]

theorem mem_things {f : Nat → Fin credit ⊕ Nat} {p : Nat}
    (h : ∀ q, f p = .inr q → q < p ∧ q ∈ positions give l) : f p ∈ things credit give l := by
  unfold things
  rw [Finset.mem_disjSum]
  cases hf : f p with
  | inl c => exact .inl ⟨c, Finset.mem_univ c, rfl⟩
  | inr q => exact .inr ⟨q, (h q hf).2, rfl⟩

theorem Matched.nil : Matched credit give take ([] : List α) :=
  ⟨.inr, by simp [positions], by simp [positions]⟩

theorem Matched.countP_le (h : Matched credit give take l) :
    l.countP take ≤ credit + l.countP give := by
  obtain ⟨f, hinj, hf⟩ := h
  rw [← card_positions, ← card_things]
  exact Finset.card_le_card_of_injOn f (fun p hp => mem_things (hf p hp)) hinj

/-- An event that takes nothing. -/
theorem Matched.snoc (h : Matched credit give take l) (ha : take a = false) :
    Matched credit give take (l ++ [a]) := by
  obtain ⟨f, hinj, hf⟩ := h
  have hsame : positions take (l ++ [a]) = positions take l := by
    rw [positions_snoc, if_neg (by simp [ha])]
  unfold Matched
  rw [hsame]
  exact ⟨f, hinj, fun p hp q hq => ⟨(hf p hp q hq).1, positions_subset (hf p hp q hq).2⟩⟩

/-- An event that takes one of the things that are left. -/
theorem Matched.snoc_take (h : Matched credit give take l)
    (hlt : l.countP take < credit + l.countP give) : Matched credit give take (l ++ [a]) := by
  obtain ⟨f, hinj, hf⟩ := h
  have hcard : ((positions take l).image f).card < (things credit give l).card := by
    rw [Finset.card_image_of_injOn hinj, card_positions, card_things]
    exact hlt
  obtain ⟨x, hx, hfree⟩ := Finset.exists_mem_notMem_of_card_lt_card hcard
  have hold : ∀ p ∈ positions take l, Function.update f l.length x p = f p := fun p hp =>
    Function.update_of_ne (Nat.ne_of_lt (lt_of_mem_positions hp)) x f
  have hother : ∀ p ∈ positions take l, f p ≠ x := fun p hp heq =>
    hfree (Finset.mem_image.2 ⟨p, hp, heq⟩)
  have hcases : ∀ p ∈ positions take (l ++ [a]), p = l.length ∨ p ∈ positions take l := by
    intro p hp
    rw [positions_snoc] at hp
    split at hp
    · exact Finset.mem_insert.1 hp
    · exact .inr hp
  refine ⟨Function.update f l.length x, fun p hp q hq heq => ?_, fun p hp q hq => ?_⟩
  · rcases hcases p hp with rfl | hp <;> rcases hcases q hq with rfl | hq
    · rfl
    · rw [Function.update_self, hold q hq] at heq
      exact absurd heq.symm (hother q hq)
    · rw [Function.update_self, hold p hp] at heq
      exact absurd heq (hother p hp)
    · rw [hold p hp, hold q hq] at heq
      exact hinj hp hq heq
  · rcases hcases p hp with rfl | hp
    · rw [Function.update_self] at hq
      rw [hq] at hx
      obtain ⟨c, -, hc⟩ | ⟨q', hq', heq⟩ := Finset.mem_disjSum.1 hx
      · cases hc
      · cases heq
        exact ⟨lt_of_mem_positions hq', positions_subset hq'⟩
    · rw [hold p hp] at hq
      exact ⟨(hf p hp q hq).1, positions_subset (hf p hp q hq).2⟩

end Costream.Matching
