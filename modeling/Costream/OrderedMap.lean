import Mathlib.Data.List.Induction
import Mathlib.Order.Lattice
import Mathlib.Order.RelClasses

/-!
# Maps that are ordered by a comparison

A map whose keys are compared by `lt` alone, as a list of its entries: two keys are the same to it
if neither is less than the other.  `alter` finds the entry of a key, or makes one, and changes its
value.  `collect` does so for each of a list of things in turn.

For a strict weak order:

* The entries stay in order, so that no two of them have keys that are the same to the map.
* `of_mem_alter` says which entries there are after a change.
* `of_mem_collect` says that the value of an entry comes from the things with its key, and
  `exists_mem_collect` that each thing has an entry.
-/

namespace Costream.OrderedMap

variable {α κ β : Type*} (lt : κ → κ → Prop)

/-! ## Keys -/

/-- Neither is less than the other. -/
def Same (a b : κ) : Prop := ¬ lt a b ∧ ¬ lt b a

instance [DecidableRel lt] : DecidableRel (Same lt) :=
  fun a b => inferInstanceAs (Decidable (¬ lt a b ∧ ¬ lt b a))

variable {lt}

theorem Same.symm {a b : κ} (h : Same lt a b) : Same lt b a := ⟨h.2, h.1⟩

theorem Same.refl [IsStrictWeakOrder κ lt] (a : κ) : Same lt a a := ⟨irrefl a, irrefl a⟩

theorem Same.trans [IsStrictWeakOrder κ lt] {a b c : κ} (h : Same lt a b) (h' : Same lt b c) :
    Same lt a c :=
  IsStrictWeakOrder.incomp_trans a b c h h'

/-- A comparison by a value of a linear order. -/
theorem isStrictWeakOrder_of_key [LinearOrder β] {f : κ → β}
    (h : ∀ a b, lt a b ↔ f a < f b) : IsStrictWeakOrder κ lt where
  irrefl a := by
    rw [h]
    exact lt_irrefl _
  trans a b c hab hbc := by
    rw [h] at *
    exact lt_trans hab hbc
  incomp_trans a b c hab hbc := by
    rw [h, h, not_lt, not_lt] at *
    exact ⟨hbc.1.trans hab.1, hab.2.trans hbc.2⟩

/-! ## The map -/

variable (lt) [DecidableRel lt]

/-- Changes the value of a key, which is `init` if it has no entry. -/
def alter (k : κ) (init : β) (f : β → β) : List (κ × β) → List (κ × β)
  | [] => [(k, f init)]
  | e :: rest =>
    if lt e.1 k then e :: alter k init f rest
    else if lt k e.1 then (k, f init) :: e :: rest
    else (e.1, f e.2) :: rest

/-- Changes the value of the key of each of `xs`. -/
def collect (key : α → κ) (init : β) (f : α → β → β) (xs : List α) : List (κ × β) :=
  xs.foldl (fun m x => alter lt (key x) init (f x) m) []

def Ordered (m : List (κ × β)) : Prop := m.Pairwise fun d e => lt d.1 e.1

variable {lt} {k k' : κ} {b init : β} {f : β → β} {m : List (κ × β)} {e : κ × β}

omit [DecidableRel lt] in
theorem Ordered.not_same (h : Ordered lt m) : m.Pairwise fun d e => ¬ Same lt d.1 e.1 :=
  h.imp fun hlt hsame => hsame.1 hlt

/-- The key of a new entry is that of the change. -/
theorem mem_alter_key (he : e ∈ alter lt k init f m) : e.1 = k ∨ ∃ d ∈ m, e.1 = d.1 := by
  induction m with
  | nil =>
    rw [alter, List.mem_singleton] at he
    rw [he]
    exact .inl rfl
  | cons d rest ih =>
    rw [alter] at he
    split at he
    · rcases List.mem_cons.1 he with hd | hrest
      · exact .inr ⟨d, List.mem_cons_self, by rw [hd]⟩
      · refine (ih hrest).imp_right ?_
        intro ⟨d', hd', hkey⟩
        exact ⟨d', List.mem_cons_of_mem d hd', hkey⟩
    · split at he
      · rcases List.mem_cons.1 he with hk | hd
        · exact .inl (by rw [hk])
        · exact .inr ⟨e, hd, rfl⟩
      · rcases List.mem_cons.1 he with hd | hrest
        · exact .inr ⟨d, List.mem_cons_self, by rw [hd]⟩
        · exact .inr ⟨e, List.mem_cons_of_mem d hrest, rfl⟩

section Order

variable [IsStrictWeakOrder κ lt]

theorem Ordered.alter (h : Ordered lt m) : Ordered lt (alter lt k init f m) := by
  induction m with
  | nil => exact List.pairwise_singleton _ _
  | cons d rest ih =>
    obtain ⟨hd, hrest⟩ := List.pairwise_cons.1 h
    rw [OrderedMap.alter]
    split
    · rename_i hlt
      refine List.pairwise_cons.2 ⟨?_, ih hrest⟩
      intro e he
      rcases mem_alter_key he with hk | ⟨d', hd', hkey⟩
      · rw [hk]
        exact hlt
      · rw [hkey]
        exact hd d' hd'
    · split
      · rename_i hlt
        refine List.pairwise_cons.2 ⟨?_, h⟩
        intro e he
        rcases List.mem_cons.1 he with hed | he
        · rw [hed]
          exact hlt
        · exact IsTrans.trans _ _ _ hlt (hd e he)
      · exact List.pairwise_cons.2 ⟨hd, hrest⟩

/-- Which entries there are after a change: those of the other keys, and that of the key with its
new value. -/
theorem of_mem_alter (h : Ordered lt m) (he : (k', b) ∈ alter lt k init f m) :
    (¬ Same lt k' k ∧ (k', b) ∈ m) ∨ (Same lt k' k ∧ ∃ b', (k', b') ∈ m ∧ b = f b') ∨
      ((∀ e ∈ m, ¬ Same lt e.1 k) ∧ k' = k ∧ b = f init) := by
  induction m with
  | nil =>
    cases List.mem_singleton.1 he
    exact .inr (.inr ⟨nofun, rfl, rfl⟩)
  | cons d rest ih =>
    obtain ⟨hd, hrest⟩ := List.pairwise_cons.1 h
    rw [alter] at he
    split at he
    · rename_i hlt
      have hother : ¬ Same lt d.1 k := fun hsame => hsame.1 hlt
      rcases List.mem_cons.1 he with hk | he
      · rw [← hk] at hother
        exact .inl ⟨hother, by rw [hk]; exact List.mem_cons_self⟩
      · rcases ih hrest he with ⟨hne, hmem⟩ | ⟨hsame, b', hmem, hb⟩ | ⟨hnone, hk, hb⟩
        · exact .inl ⟨hne, List.mem_cons_of_mem d hmem⟩
        · exact .inr (.inl ⟨hsame, b', List.mem_cons_of_mem d hmem, hb⟩)
        · refine .inr (.inr ⟨?_, hk, hb⟩)
          intro e he
          rcases List.mem_cons.1 he with hed | he
          · rw [hed]
            exact hother
          · exact hnone e he
    · rename_i hnlt
      split at he
      · rename_i hlt
        have hgreater : ∀ e ∈ d :: rest, lt k e.1 := by
          intro e he
          rcases List.mem_cons.1 he with hed | he
          · rw [hed]
            exact hlt
          · exact IsTrans.trans _ _ _ hlt (hd e he)
        rcases List.mem_cons.1 he with hk | he
        · cases hk
          exact .inr (.inr ⟨fun e he hsame => hsame.2 (hgreater e he), rfl, rfl⟩)
        · exact .inl ⟨fun hsame => hsame.2 (hgreater _ he), he⟩
      · rename_i hnlt'
        have hsame : Same lt d.1 k := ⟨hnlt, hnlt'⟩
        rcases List.mem_cons.1 he with hk | he
        · cases hk
          exact .inr (.inl ⟨hsame, d.2, List.mem_cons_self, rfl⟩)
        · refine .inl ⟨fun hk => ?_, List.mem_cons_of_mem d he⟩
          exact (hsame.trans hk.symm).1 (hd _ he)

/-- The key has an entry. -/
theorem exists_mem_alter (k : κ) (init : β) (f : β → β) (m : List (κ × β)) :
    ∃ e ∈ OrderedMap.alter lt k init f m, Same lt e.1 k := by
  induction m with
  | nil => exact ⟨(k, f init), List.mem_singleton_self _, .refl k⟩
  | cons d rest ih =>
    rw [OrderedMap.alter]
    split
    · obtain ⟨e, he, hsame⟩ := ih
      exact ⟨e, List.mem_cons_of_mem d he, hsame⟩
    · rename_i hnlt
      split
      · exact ⟨_, List.mem_cons_self, .refl k⟩
      · rename_i hnlt'
        exact ⟨_, List.mem_cons_self, hnlt, hnlt'⟩

end Order

/-- Each key keeps its entry. -/
theorem mem_alter_of_mem (he : e ∈ m) : ∃ d ∈ alter lt k init f m, d.1 = e.1 := by
  induction m with
  | nil => cases he
  | cons d rest ih =>
    rw [alter]
    split
    · rcases List.mem_cons.1 he with hed | he
      · exact ⟨d, List.mem_cons_self, by rw [hed]⟩
      · obtain ⟨d', hd', hkey⟩ := ih he
        exact ⟨d', List.mem_cons_of_mem d hd', hkey⟩
    · split
      · exact ⟨e, List.mem_cons_of_mem _ he, rfl⟩
      · rcases List.mem_cons.1 he with hed | he
        · exact ⟨_, List.mem_cons_self, by rw [hed]⟩
        · exact ⟨e, List.mem_cons_of_mem _ he, rfl⟩

/-! ## Collecting -/

section Collect

variable {key : α → κ} {g : α → β → β} {xs : List α} {x : α}

theorem collect_concat : collect lt key init g (xs ++ [x]) =
    alter lt (key x) init (g x) (collect lt key init g xs) := by
  unfold collect
  rw [List.foldl_append]
  rfl

variable [IsStrictWeakOrder κ lt]

theorem ordered_collect : Ordered lt (collect lt key init g xs) := by
  induction xs using List.reverseRecOn with
  | nil => exact List.Pairwise.nil
  | append_singleton xs x ih =>
    rw [collect_concat]
    exact ih.alter

theorem exists_mem_collect (hx : x ∈ xs) :
    ∃ e ∈ collect lt key init g xs, Same lt e.1 (key x) := by
  induction xs using List.reverseRecOn with
  | nil => cases hx
  | append_singleton xs y ih =>
    rw [collect_concat]
    rcases List.mem_append.1 hx with hx | hx
    · obtain ⟨e, he, hsame⟩ := ih hx
      obtain ⟨d, hd, hkey⟩ : ∃ d ∈ alter lt (key y) init (g y) (collect lt key init g xs),
          d.1 = e.1 := mem_alter_of_mem he
      exact ⟨d, hd, by rw [hkey]; exact hsame⟩
    · rw [List.mem_singleton.1 hx]
      exact exists_mem_alter _ _ _ _

/-- The value of an entry comes from the things with its key, in their order. -/
theorem of_mem_collect (he : (k, b) ∈ collect lt key init g xs) :
    b = (xs.filter fun x => Same lt (key x) k).foldl (fun b x => g x b) init ∧
      ∃ x ∈ xs, key x = k := by
  induction xs using List.reverseRecOn generalizing b with
  | nil => cases he
  | append_singleton xs x ih =>
    rw [collect_concat] at he
    rw [List.filter_append, List.foldl_append, List.filter_cons, List.filter_nil]
    rcases of_mem_alter ordered_collect he with
      ⟨hne, hmem⟩ | ⟨hsame, b', hmem, hb⟩ | ⟨hnone, hk, hb⟩
    · obtain ⟨hvalue, y, hy, hkey⟩ := ih hmem
      have hother : ¬ Same lt (key x) k := fun h => hne h.symm
      rw [if_neg (by simpa using hother)]
      exact ⟨hvalue, y, List.mem_append_left _ hy, hkey⟩
    · obtain ⟨hvalue, y, hy, hkey⟩ := ih hmem
      rw [if_pos (by simpa using hsame.symm), hb, hvalue]
      exact ⟨rfl, y, List.mem_append_left _ hy, hkey⟩
    · have hempty : (xs.filter fun x => Same lt (key x) k) = [] := by
        rw [List.filter_eq_nil_iff]
        intro y hy hsame
        obtain ⟨e, he', hkey⟩ : ∃ e ∈ collect lt key init g xs, Same lt e.1 (key y) :=
          exists_mem_collect hy
        have hyk : Same lt (key y) k := by simpa using hsame
        rw [hk] at hyk
        exact hnone e he' (hkey.trans hyk)
      have hself : Same lt (key x) k := by
        rw [hk]
        exact .refl _
      rw [if_pos (by simpa using hself), hempty, hb]
      exact ⟨rfl, x, List.mem_append_right _ (List.mem_singleton_self x), hk.symm⟩

end Collect

end Costream.OrderedMap
