import Mathlib.Data.List.Chain
import Mathlib.Data.List.Nodup

/-!
# Lists linked both ways

The elements of an intrusive list know their neighbours.  `next` and `prev` are what their links
say, and `ref b` is a link to `b`.

* `Chain` says that neighbours in a list point to each other.  What the two ends point to
  is left open.
* `Chain.frame` is the rule for links that are written elsewhere, `Chain.insert` and
  `Chain.remove` are those for an element that comes in between two others or goes.
-/

namespace Costream

variable {α β : Type*} {ref : α → β} {next next' prev prev' : α → β} {xs ys l : List α} {a b x : α}

/-- `a` and `b` point to each other. -/
def Joined (ref : α → β) (next prev : α → β) (a b : α) : Prop := next a = ref b ∧ prev b = ref a

def Chain (ref : α → β) (next prev : α → β) (l : List α) : Prop := l.IsChain (Joined ref next prev)

namespace Chain

/-- The link forward of the last element and the link back of the first one do not matter. -/
theorem frame (h : Chain ref next prev l) (hnext : ∀ c ∈ l.dropLast, next' c = next c)
    (hprev : ∀ c ∈ l.tail, prev' c = prev c) : Chain ref next' prev' l := by
  induction l with
  | nil => exact List.isChain_nil
  | cons a l ih =>
    cases l with
    | nil => exact List.isChain_singleton a
    | cons b l =>
      obtain ⟨hab, hrest⟩ := List.isChain_cons_cons.1 h
      refine List.isChain_cons_cons.2 ⟨⟨?_, ?_⟩, ih hrest ?_ ?_⟩
      · rw [hnext a (by simp), hab.1]
      · rw [hprev b (by simp), hab.2]
      · intro c hc
        exact hnext c (by simp [hc])
      · intro c hc
        exact hprev c (List.mem_of_mem_tail (by simpa using hc))

theorem split : Chain ref next prev (xs ++ a :: b :: ys) ↔
    Chain ref next prev (xs ++ [a]) ∧ Joined ref next prev a b ∧ Chain ref next prev (b :: ys) :=
  List.isChain_append_cons_cons

/-- The part before a link that is written. -/
theorem frame_left (h : Chain ref next prev (xs ++ [a])) (hnext : ∀ c ∈ xs, next' c = next c)
    (hprev : ∀ c ∈ xs ++ [a], prev' c = prev c) : Chain ref next' prev' (xs ++ [a]) := by
  refine h.frame ?_ fun c hc => hprev c (List.mem_of_mem_tail hc)
  rw [List.dropLast_concat]
  exact hnext

/-- The part behind a link that is written. -/
theorem frame_right (h : Chain ref next prev (b :: ys)) (hnext : ∀ c ∈ b :: ys, next' c = next c)
    (hprev : ∀ c ∈ ys, prev' c = prev c) : Chain ref next' prev' (b :: ys) :=
  h.frame (fun c hc => hnext c (List.dropLast_subset _ hc)) hprev

theorem nodup_split (hnd : (xs ++ a :: b :: ys).Nodup) :
    a ∉ xs ∧ b ∉ xs ∧ a ∉ b :: ys ∧ b ∉ ys := by
  obtain ⟨-, hnd', hdisj⟩ := List.nodup_append.1 hnd
  obtain ⟨ha, hnd''⟩ := List.nodup_cons.1 hnd'
  refine ⟨fun h => hdisj a h a (by simp) rfl, fun h => hdisj b h b (by simp) rfl, ha, ?_⟩
  exact (List.nodup_cons.1 hnd'').1

/-- `x` comes in between `a` and `b`. -/
theorem insert (h : Chain ref next prev (xs ++ a :: b :: ys)) (hnd : (xs ++ a :: b :: ys).Nodup)
    (hnext : ∀ c ∈ xs ++ a :: b :: ys, c ≠ a → next' c = next c)
    (hprev : ∀ c ∈ xs ++ a :: b :: ys, c ≠ b → prev' c = prev c)
    (hax : Joined ref next' prev' a x) (hxb : Joined ref next' prev' x b) :
    Chain ref next' prev' (xs ++ a :: x :: b :: ys) := by
  obtain ⟨hleft, -, hright⟩ := split.1 h
  obtain ⟨haxs, hbxs, hab, hbys⟩ := nodup_split hnd
  refine split.2 ⟨?_, hax, List.isChain_cons_cons.2 ⟨hxb, ?_⟩⟩
  · refine hleft.frame_left (fun c hc => ?_) fun c hc => ?_
    · exact hnext c (by simp [hc]) fun hca => haxs (hca ▸ hc)
    · rw [List.mem_append, List.mem_singleton] at hc
      rcases hc with hc | hc
      · exact hprev c (by simp [hc]) fun hcb => hbxs (hcb ▸ hc)
      · exact hprev c (by simp [hc]) fun hcb => hab (by simp [← hc, hcb])
  · refine hright.frame_right (fun c hc => ?_) fun c hc => ?_
    · exact hnext c (List.mem_append_right _ (List.mem_cons_of_mem _ hc)) fun hca => hab (hca ▸ hc)
    · exact hprev c (by simp [hc]) fun hcb => hbys (hcb ▸ hc)

theorem not_mem_of_nodup (hnd : (xs ++ a :: x :: ys).Nodup) : x ∉ xs ++ a :: ys := by
  have hsplit : xs ++ a :: x :: ys = (xs ++ [a]) ++ x :: ys := by simp
  rw [hsplit, List.nodup_middle, List.nodup_cons] at hnd
  simpa using hnd.1

/-- `x` goes, and `a` and `b` become neighbours. -/
theorem remove (h : Chain ref next prev (xs ++ a :: x :: b :: ys))
    (hnd : (xs ++ a :: x :: b :: ys).Nodup)
    (hnext : ∀ c ∈ xs ++ a :: b :: ys, c ≠ a → next' c = next c)
    (hprev : ∀ c ∈ xs ++ a :: b :: ys, c ≠ b → prev' c = prev c)
    (hab : Joined ref next' prev' a b) : Chain ref next' prev' (xs ++ a :: b :: ys) := by
  obtain ⟨hleft, -, hrest⟩ := split.1 h
  obtain ⟨-, hright⟩ := List.isChain_cons_cons.1 hrest
  have hsub : (xs ++ a :: b :: ys).Sublist (xs ++ a :: x :: b :: ys) :=
    (List.Sublist.refl xs).append (((List.sublist_cons_self x (b :: ys))).cons_cons a)
  obtain ⟨haxs, hbxs, habs, hbys⟩ := nodup_split (hsub.nodup hnd)
  refine split.2 ⟨?_, hab, ?_⟩
  · refine hleft.frame_left (fun c hc => ?_) fun c hc => ?_
    · exact hnext c (by simp [hc]) fun hca => haxs (hca ▸ hc)
    · rw [List.mem_append, List.mem_singleton] at hc
      rcases hc with hc | hc
      · exact hprev c (by simp [hc]) fun hcb => hbxs (hcb ▸ hc)
      · exact hprev c (by simp [hc]) fun hcb => habs (by simp [← hc, hcb])
  · refine frame_right hright (fun c hc => ?_) fun c hc => ?_
    · exact hnext c (List.mem_append_right _ (List.mem_cons_of_mem _ hc)) fun hca => habs (hca ▸ hc)
    · exact hprev c (by simp [hc]) fun hcb => hbys (hcb ▸ hc)

end Chain

end Costream
