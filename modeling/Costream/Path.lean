import Mathlib.Logic.Function.Basic
import Mathlib.Data.List.Nodup

/-!
# Singly linked lists

`Path next null a l`: the links lead from `a` through the cells `l`, and from the last of them to
`null`.  There is at most one such list.  `Path.append` and `Path.remove` say which links
are written when a cell comes in at the end or goes.
-/

namespace Costream

variable {α : Type*} {next next' : α → α} {null a b : α} {l xs ys : List α}

def Path (next : α → α) (null : α) : α → List α → Prop
  | a, [] => next a = null
  | a, b :: l => next a = b ∧ Path next null b l

instance Path.decidable [DecidableEq α] : ∀ a l, Decidable (Path next null a l)
  | a, [] => inferInstanceAs (Decidable (next a = null))
  | _, b :: l => @instDecidableAnd _ _ _ (Path.decidable b l)

namespace Path

/-- The links of other cells do not matter. -/
theorem frame (h : Path next null a l) (hnext : ∀ c ∈ a :: l, next' c = next c) :
    Path next' null a l := by
  induction l generalizing a with
  | nil =>
    show next' a = null
    rw [hnext a (by simp)]
    exact h
  | cons b l ih =>
    refine ⟨?_, ih h.2 fun c hc => hnext c (List.mem_cons_of_mem a hc)⟩
    rw [hnext a (by simp)]
    exact h.1

theorem unique (h : Path next null a xs) (h' : Path next null a ys) (hxs : null ∉ xs)
    (hys : null ∉ ys) : xs = ys := by
  induction xs generalizing a ys with
  | nil =>
    cases ys with
    | nil => rfl
    | cons c ys =>
      have hnull : next a = null := h
      exact absurd (by simp [← hnull, h'.1]) hys
  | cons b xs ih =>
    cases ys with
    | nil =>
      have hnull : next a = null := h'
      exact absurd (by simp [← hnull, h.1]) hxs
    | cons c ys =>
      have hbc : b = c := h.1.symm.trans h'.1
      subst hbc
      rw [ih h.2 h'.2 (fun hmem => hxs (List.mem_cons_of_mem b hmem))
        fun hmem => hys (List.mem_cons_of_mem b hmem)]

/-- The link of the last cell before a place in the list. -/
theorem next_getLastD (h : Path next null a (xs ++ ys)) :
    next (xs.getLastD a) = ys.headD null := by
  induction xs generalizing a with
  | nil =>
    cases ys with
    | nil => exact h
    | cons b ys => exact h.1
  | cons c xs ih =>
    rw [List.getLastD_cons]
    exact ih h.2

variable [DecidableEq α]

/-- A cell comes in at the end. -/
theorem append (h : Path next null a l) (hnd : (a :: l).Nodup) (hb : b ∉ a :: l) :
    Path (Function.update (Function.update next (l.getLastD a) b) b null) null a (l ++ [b]) := by
  induction l generalizing a with
  | nil =>
    have hab : a ≠ b := fun hab => hb (by simp [hab])
    refine ⟨?_, Function.update_self ..⟩
    rw [Function.update_of_ne hab]
    exact Function.update_self ..
  | cons c l ih =>
    obtain ⟨hout, hnd'⟩ := List.nodup_cons.1 hnd
    have hab : a ≠ b := fun hab => hb (by simp [hab])
    have hlast : a ≠ l.getLastD c := fun heq => hout (heq ▸ List.getLastD_mem_cons)
    rw [List.getLastD_cons]
    refine ⟨?_, ih h.2 hnd' fun hmem => hb (List.mem_cons_of_mem a hmem)⟩
    rw [Function.update_of_ne hab, Function.update_of_ne hlast]
    exact h.1

/-- A cell goes. -/
theorem remove (h : Path next null a (xs ++ b :: ys)) (hnd : (a :: (xs ++ b :: ys)).Nodup) :
    Path (Function.update (Function.update next (xs.getLastD a) (next b)) b null) null a
      (xs ++ ys) := by
  induction xs generalizing a with
  | nil =>
    obtain ⟨hout, hnd'⟩ := List.nodup_cons.1 hnd
    have hab : a ≠ b := fun hab => hout (by simp [hab])
    have hskip : Function.update (Function.update next a (next b)) b null a = next b := by
      rw [Function.update_of_ne hab]
      exact Function.update_self ..
    obtain ⟨-, hrest⟩ := h
    cases ys with
    | nil => exact hskip.trans hrest
    | cons c ys =>
      refine ⟨hskip.trans hrest.1, hrest.2.frame fun d hd => ?_⟩
      have hdb : d ≠ b := fun hdb => (List.nodup_cons.1 hnd').1 (hdb ▸ hd)
      have hda : d ≠ a := fun hda => hout (List.mem_cons_of_mem b (hda ▸ hd))
      rw [Function.update_of_ne hdb, List.getLastD_nil, Function.update_of_ne hda]
  | cons c xs ih =>
    obtain ⟨hout, hnd'⟩ := List.nodup_cons.1 hnd
    have hab : a ≠ b := fun hab => hout (by simp [hab])
    have hlast : a ≠ xs.getLastD c := by
      intro heq
      have hmem : xs.getLastD c ∈ c :: xs := List.getLastD_mem_cons
      rw [← heq] at hmem
      exact hout (List.mem_append_left (b :: ys) hmem)
    rw [List.getLastD_cons]
    refine ⟨?_, ih h.2 hnd'⟩
    rw [Function.update_of_ne hab, Function.update_of_ne hlast]
    exact h.1

end Path

end Costream
