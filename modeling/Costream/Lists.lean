import Mathlib.Data.List.Nodup
import Mathlib.Data.List.Perm.Basic
import Mathlib.Data.List.TakeWhile
import Mathlib.Logic.Function.Basic

/-!
# Lists that share no element

A family of lists in which nothing occurs twice, as intrusive lists are: an element has
one hook, so it is in one of them at most.

* `Apart.put` changes one list, `Apart.exchange` moves elements between two of them.
* `next` is the successor of an element of a list.
* `swapRemove` removes an element by exchange with the last one.
-/

namespace Costream.Lists

variable {ι α : Type*} [DecidableEq ι] {l : ι → List α} {q q' : ι} {a b : α} {xs ys : List α}

/-- Nothing occurs twice in the lists. -/
structure Apart (l : ι → List α) : Prop where
  nodup : ∀ q, (l q).Nodup
  apart : ∀ q q' a, a ∈ l q → a ∈ l q' → q = q'

/-- The element is in none of the lists. -/
def Absent (l : ι → List α) (a : α) : Prop := ∀ q, a ∉ l q

/-- One list changes: it gets elements that were in none, and keeps some of its own. -/
theorem Apart.put (h : Apart l) (hnd : xs.Nodup) (hx : ∀ a ∈ xs, a ∈ l q ∨ Absent l a) :
    Apart (Function.update l q xs) := by
  have hout : ∀ q' a, q' ≠ q → a ∈ xs → a ∉ l q' := by
    intro q' a hne ha hmem
    rcases hx a ha with haq | habs
    · exact hne (h.apart q' q a hmem haq)
    · exact habs q' hmem
  constructor
  · intro r
    by_cases hr : r = q
    · subst hr
      rw [Function.update_self]
      exact hnd
    · rw [Function.update_of_ne hr]
      exact h.nodup r
  · intro r r' a ha ha'
    by_cases hr : r = q
    · subst hr
      rw [Function.update_self] at ha
      by_contra hne
      rw [Function.update_of_ne (Ne.symm hne)] at ha'
      exact hout r' a (Ne.symm hne) ha ha'
    · rw [Function.update_of_ne hr] at ha
      by_cases hr' : r' = q
      · subst hr'
        rw [Function.update_self] at ha'
        exact absurd ha (hout r a hr ha')
      · rw [Function.update_of_ne hr'] at ha'
        exact h.apart r r' a ha ha'

/-- A new element at the end of a list. -/
theorem Apart.append (h : Apart l) (habs : Absent l a) :
    Apart (Function.update l q (l q ++ [a])) := by
  refine h.put ?_ fun b hb => ?_
  · refine List.nodup_append.2 ⟨h.nodup q, by simp, fun b hb c hc => ?_⟩
    rw [List.mem_singleton] at hc
    subst hc
    exact fun hbc => habs q (hbc ▸ hb)
  · rw [List.mem_append, List.mem_singleton] at hb
    rcases hb with hb | hb
    · exact .inl hb
    · exact .inr (hb ▸ habs)

/-- A list loses some of its elements. -/
theorem Apart.shrink (h : Apart l) (hsub : xs.Sublist (l q)) : Apart (Function.update l q xs) :=
  h.put (hsub.nodup (h.nodup q)) fun _ ha => .inl (hsub.subset ha)

/-- Two lists exchange elements. -/
theorem Apart.exchange (h : Apart l) (hne : q ≠ q') (hperm : (xs ++ ys).Perm (l q ++ l q')) :
    Apart (Function.update (Function.update l q xs) q' ys) := by
  have hmem : ∀ a, a ∈ xs ∨ a ∈ ys ↔ a ∈ l q ∨ a ∈ l q' := by
    intro a
    have := hperm.mem_iff (a := a)
    rwa [List.mem_append, List.mem_append] at this
  have hnd : (xs ++ ys).Nodup := by
    rw [hperm.nodup_iff]
    refine List.nodup_append.2 ⟨h.nodup q, h.nodup q', fun a ha b hb hab => ?_⟩
    subst hab
    exact hne (h.apart q q' a ha hb)
  obtain ⟨hxs, hys, hdisj⟩ := List.nodup_append.1 hnd
  have hget : ∀ r, r ≠ q → r ≠ q' →
      Function.update (Function.update l q xs) q' ys r = l r := by
    intro r hr hr'
    rw [Function.update_of_ne hr', Function.update_of_ne hr]
  have hgetq : Function.update (Function.update l q xs) q' ys q = xs := by
    rw [Function.update_of_ne hne, Function.update_self]
  have hgetq' : Function.update (Function.update l q xs) q' ys q' = ys := Function.update_self ..
  have hout : ∀ r a, r ≠ q → r ≠ q' → a ∈ l r → ¬ (a ∈ xs ∨ a ∈ ys) := by
    intro r a hr hr' ha hxy
    rcases (hmem a).1 hxy with hq | hq
    · exact hr (h.apart r q a ha hq)
    · exact hr' (h.apart r q' a ha hq)
  constructor
  · intro r
    by_cases hr : r = q
    · rw [hr, hgetq]
      exact hxs
    · by_cases hr' : r = q'
      · rw [hr', hgetq']
        exact hys
      · rw [hget r hr hr']
        exact h.nodup r
  · intro r r' a ha ha'
    by_cases hr : r = q
    · subst hr
      rw [hgetq] at ha
      by_cases hr' : r' = r
      · exact hr'.symm
      · by_cases hr'' : r' = q'
        · subst hr''
          rw [hgetq'] at ha'
          exact absurd rfl (hdisj a ha a ha')
        · rw [hget r' hr' hr''] at ha'
          exact absurd (.inl ha) (hout r' a hr' hr'' ha')
    · by_cases hrq : r = q'
      · subst hrq
        rw [hgetq'] at ha
        by_cases hr' : r' = q
        · subst hr'
          rw [hgetq] at ha'
          exact absurd rfl (hdisj a ha' a ha)
        · by_cases hr'' : r' = r
          · exact hr''.symm
          · rw [hget r' hr' hr''] at ha'
            exact absurd (.inr ha) (hout r' a hr' hr'' ha')
      · rw [hget r hr hrq] at ha
        by_cases hr' : r' = q
        · subst hr'
          rw [hgetq] at ha'
          exact absurd (.inl ha') (hout r a hr hrq ha)
        · by_cases hr'' : r' = q'
          · subst hr''
            rw [hgetq'] at ha'
            exact absurd (.inr ha') (hout r a hr hrq ha)
          · rw [hget r' hr' hr''] at ha'
            exact h.apart r r' a ha ha'

/-- An exchange neither adds nor loses an element. -/
theorem absent_exchange (hne : q ≠ q') (hperm : (xs ++ ys).Perm (l q ++ l q')) :
    Absent (Function.update (Function.update l q xs) q' ys) a ↔ Absent l a := by
  have hmem : a ∈ xs ∨ a ∈ ys ↔ a ∈ l q ∨ a ∈ l q' := by
    have := hperm.mem_iff (a := a)
    rwa [List.mem_append, List.mem_append] at this
  constructor
  · intro h r hr
    by_cases hrq : r = q ∨ r = q'
    · have hlr : a ∈ l q ∨ a ∈ l q' := by
        rcases hrq with hrq | hrq
        · exact .inl (hrq ▸ hr)
        · exact .inr (hrq ▸ hr)
      rcases hmem.2 hlr with hx | hy
      · refine h q ?_
        rwa [Function.update_of_ne hne, Function.update_self]
      · refine h q' ?_
        rwa [Function.update_self]
    · obtain ⟨hrq, hrq'⟩ := not_or.1 hrq
      refine h r ?_
      rwa [Function.update_of_ne hrq', Function.update_of_ne hrq]
  · intro h r hr
    by_cases hrq' : r = q'
    · subst hrq'
      rw [Function.update_self] at hr
      exact (hmem.1 (.inr hr)).elim (h q) (h r)
    · rw [Function.update_of_ne hrq'] at hr
      by_cases hrq : r = q
      · subst hrq
        rw [Function.update_self] at hr
        exact (hmem.1 (.inl hr)).elim (h r) (h q')
      · rw [Function.update_of_ne hrq] at hr
        exact h r hr

/-! ## The successor -/

variable [DecidableEq α]

/-- An element goes from a list to the end of another one. -/
theorem erase_append_perm (h : a ∈ xs) : (xs.erase a ++ (ys ++ [a])).Perm (xs ++ ys) := by
  rw [← List.append_assoc]
  refine List.perm_append_comm.trans ?_
  rw [← List.append_assoc, List.singleton_append]
  exact List.Perm.append_right _ (List.perm_cons_erase h).symm

/-- What stands behind `a`. -/
def next (xs : List α) (a : α) : Option α := (xs.dropWhile (· ≠ a)).tail.head?

theorem mem_of_next (h : next xs a = some b) : b ∈ xs := by
  unfold next at h
  have hmem : b ∈ (xs.dropWhile (· ≠ a)).tail := List.mem_of_head? h
  exact (List.dropWhile_suffix _).subset (List.mem_of_mem_tail hmem)

theorem mem_erase_of_next (h : next xs a = some b) : b ∈ xs.erase a := by
  induction xs with
  | nil => cases h
  | cons x xs ih =>
    by_cases hx : x = a
    · rw [next, List.dropWhile_cons_of_neg (by simp [hx])] at h
      rw [hx, List.erase_cons_head]
      exact List.mem_of_head? h
    · rw [next, List.dropWhile_cons_of_pos (by simp [hx])] at h
      rw [List.erase_cons_tail (by simp [hx])]
      exact List.mem_cons_of_mem x (ih h)

theorem next_append_cons (h : a ∉ xs) : next (xs ++ a :: ys) a = ys.head? := by
  have hdrop : (xs ++ a :: ys).dropWhile (· ≠ a) = a :: ys := by
    rw [List.dropWhile_append_of_pos, List.dropWhile_cons_of_neg (by simp)]
    intro b hb
    rw [decide_eq_true_eq]
    exact fun heq => h (heq ▸ hb)
  rw [next, hdrop, List.tail_cons]

/-- Nothing stands behind itself. -/
theorem next_ne (hnd : xs.Nodup) (h : next xs a = some b) : b ≠ a := by
  induction xs with
  | nil => cases h
  | cons x xs ih =>
    have hnd' := List.nodup_cons.1 hnd
    by_cases hx : x = a
    · subst hx
      simp only [next, ne_eq, not_true_eq_false, decide_false, Bool.false_eq_true,
        not_false_eq_true, List.dropWhile_cons_of_neg, List.tail_cons] at h
      exact fun hb => hnd'.1 (hb ▸ List.mem_of_head? h)
    · apply ih hnd'.2
      simpa [next, List.dropWhile_cons, hx] using h

/-! ## Removal by exchange -/

/-- The element at `i` is overwritten with the last one, and the last one is taken away. -/
def swapRemove {α : Type*} (xs : List α) (i : Nat) : List α :=
  match xs.getLast? with
  | some a => (xs.set i a).dropLast
  | none => []

section

variable {α β : Type*} {xs : List α} {a : α} {i : Nat}

theorem swapRemove_perm (h : xs[i]? = some a) : (a :: swapRemove xs i).Perm xs := by
  obtain ⟨hi, ha⟩ := List.getElem?_eq_some_iff.1 h
  obtain ⟨ys, b, rfl⟩ := xs.eq_nil_or_concat'.resolve_left (List.ne_nil_of_length_pos (by omega))
  have hlast : swapRemove (ys ++ [b]) i = ((ys ++ [b]).set i b).dropLast := by
    simp [swapRemove]
  rw [hlast]
  rw [List.length_append, List.length_singleton] at hi
  by_cases hend : i = ys.length
  · subst hend
    rw [List.set_append_right _ _ (le_refl _)]
    simp only [Nat.sub_self, List.set_cons_zero, List.dropLast_concat]
    rw [← ha, List.getElem_append_right (le_refl _)]
    simpa using (List.perm_append_singleton b ys).symm
  · have hlt : i < ys.length := by omega
    rw [List.set_append_left _ _ hlt, List.dropLast_concat, ← ha, List.getElem_append_left hlt]
    calc (ys[i] :: ys.set i b).Perm (ys[i] :: b :: ys.eraseIdx i) :=
          (List.set_perm_cons_eraseIdx hlt b).cons _
      _ |>.Perm (b :: ys[i] :: ys.eraseIdx i) := .swap _ _ _
      _ |>.Perm (b :: ys) := (List.getElem_cons_eraseIdx_perm hlt).cons _
      _ |>.Perm (ys ++ [b]) := (List.perm_append_singleton b ys).symm

theorem swapRemove_length (h : i < xs.length) : (swapRemove xs i).length + 1 = xs.length :=
  (swapRemove_perm (List.getElem?_eq_getElem h)).length_eq

theorem swapRemove_map (f : α → β) (xs : List α) (i : Nat) :
    swapRemove (xs.map f) i = (swapRemove xs i).map f := by
  unfold swapRemove
  rw [List.getLast?_map]
  cases xs.getLast? with
  | none => rfl
  | some b => simp only [Option.map_some, List.map_dropLast, List.map_set]

theorem swapRemove_cons (a : α) (h : i < xs.length) :
    swapRemove (a :: xs) (i + 1) = a :: swapRemove xs i := by
  have hne : xs ≠ [] := List.ne_nil_of_length_pos (by omega)
  unfold swapRemove
  rw [List.getLast?_cons_of_ne_nil hne, List.getLast?_eq_some_getLast hne]
  simp only [List.set_cons_succ]
  rw [List.dropLast_cons_of_ne_nil]
  exact List.ne_nil_of_length_pos (by rw [List.length_set]; omega)

end

end Costream.Lists
