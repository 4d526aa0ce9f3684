import Mathlib.Logic.Equiv.Basic
import Mathlib.Logic.Function.Basic

/-!
# Objects with one owner

Pointers that own what they point to, and the objects themselves.  An address can be used again when
its object has been deleted.

* `Store.delete` has no result for an address that has no object.
* `Owned` says that the pointers and the objects match: no pointer dangles, no object has two
  owners, and none is without.
* `Owned.drop`, `Owned.put`, `Owned.replace`, `Owned.swap` and `Owned.write` are the operations that
  keep it, with what they do to the values.  `Owned.replace` gives a pointer its new object before
  the old one is deleted.
-/

namespace Costream.Owning

structure Store (ι β : Type*) where
  object : Nat → Option β
  pointer : ι → Option Nat

variable {ι β : Type*} [DecidableEq ι]

namespace Store

def empty : Store ι β := ⟨fun _ => none, fun _ => none⟩

variable (s : Store ι β)

/-- What the pointer `i` points to. -/
def value (i : ι) : Option β := (s.pointer i).bind s.object

def set (i : ι) (c : Option Nat) : Store ι β := { s with pointer := Function.update s.pointer i c }

/-- An object at the address `a`. -/
def new (a : Nat) (v : β) : Store ι β := { s with object := Function.update s.object a (some v) }

def delete : Option Nat → Option (Store ι β)
  | none => some s
  | some a =>
    (s.object a).map fun _ => { s with object := Function.update s.object a none }

def swap (i j : ι) : Store ι β := (s.set i (s.pointer j)).set j (s.pointer i)

/-- Deletes what `i` points to. -/
def drop (i : ι) : Option (Store ι β) := (s.set i none).delete (s.pointer i)

/-- `i` points to a new object at `a`. -/
def put (i : ι) (a : Nat) (v : β) : Store ι β := (s.new a v).set i (some a)

/-- `i` points to a new object at `a`, and its old one is deleted. -/
def replace (i : ι) (a : Nat) (v : β) : Option (Store ι β) := (s.put i a v).delete (s.pointer i)

/-- Assigns to what `i` points to. -/
def write (i : ι) (v : β) : Option (Store ι β) :=
  (s.pointer i).bind fun a => (s.object a).map fun _ => s.new a v

end Store

structure Owned (s : Store ι β) : Prop where
  live : ∀ i a, s.pointer i = some a → s.object a ≠ none
  unique : ∀ i j a, s.pointer i = some a → s.pointer j = some a → i = j
  owned : ∀ a, s.object a ≠ none → ∃ i, s.pointer i = some a

omit [DecidableEq ι] in
theorem owned_empty : Owned (Store.empty : Store ι β) where
  live i a h := by cases h
  unique i j a h := by cases h
  owned a h := absurd rfl h

variable {s s' : Store ι β} {i j : ι} {a b : Nat} {v : β}

omit [DecidableEq ι] in
/-- A pointer that is not null has a value. -/
theorem Owned.value_eq_none (h : Owned s) : s.value i = none ↔ s.pointer i = none := by
  constructor
  · intro hv
    cases hp : s.pointer i with
    | none => rfl
    | some a =>
      rw [Store.value, hp] at hv
      exact absurd hv (h.live i a hp)
  · intro hp
    rw [Store.value, hp]
    rfl

/-! ## The operations -/

theorem drop_eq (hs : s.drop i = some s') : s'.pointer = Function.update s.pointer i none ∧
    ∀ b, s'.object b = if s.pointer i = some b then none else s.object b := by
  unfold Store.drop Store.delete at hs
  split at hs
  · rename_i hnull
    cases hs
    refine ⟨rfl, fun b => ?_⟩
    rw [hnull, if_neg (by simp)]
    rfl
  · rename_i a ha
    obtain ⟨-, -, rfl⟩ := Option.map_eq_some_iff.1 hs
    refine ⟨rfl, fun b => ?_⟩
    show Function.update s.object a none b = _
    by_cases hb : b = a
    · rw [hb, Function.update_self, if_pos ha]
    · rw [Function.update_of_ne hb, if_neg fun heq => hb (Option.some.inj (heq.symm.trans ha))]

theorem set_null (hi : s.pointer i = none) : s.set i none = s := by
  unfold Store.set
  rw [← hi, Function.update_eq_self]

/-- The others keep their objects. -/
theorem Owned.value_drop (h : Owned s) (hs : s.drop i = some s') :
    s'.value = Function.update s.value i none := by
  obtain ⟨hpointer, hobject⟩ := drop_eq hs
  funext j
  unfold Store.value
  rw [hpointer]
  by_cases hj : j = i
  · rw [hj, Function.update_self, Function.update_self]
    rfl
  · rw [Function.update_of_ne hj, Function.update_of_ne hj]
    cases hp : s.pointer j with
    | none => rfl
    | some b => exact (hobject b).trans (if_neg fun hi => hj (h.unique j i b hp hi))

theorem Owned.drop (h : Owned s) (i : ι) :
    ∃ s', s.drop i = some s' ∧ Owned s' ∧ s'.value = Function.update s.value i none := by
  have hdef : ∃ s', s.drop i = some s' := by
    unfold Store.drop Store.delete
    cases hp : s.pointer i with
    | none => exact ⟨_, rfl⟩
    | some a =>
      obtain ⟨v, hv⟩ := Option.ne_none_iff_exists'.1 (h.live i a hp)
      exact ⟨_, Option.map_eq_some_iff.2 ⟨v, hv, rfl⟩⟩
  obtain ⟨s', hs⟩ := hdef
  obtain ⟨hpointer, hobject⟩ := drop_eq hs
  have hold : ∀ j b, s'.pointer j = some b → j ≠ i ∧ s.pointer j = some b := by
    intro j b hj
    rw [hpointer] at hj
    by_cases hne : j = i
    · rw [hne, Function.update_self] at hj
      cases hj
    · rw [Function.update_of_ne hne] at hj
      exact ⟨hne, hj⟩
  refine ⟨s', hs, ⟨fun j b hj => ?_, fun j k b hj hk => ?_, fun b hb => ?_⟩, h.value_drop hs⟩
  · obtain ⟨hne, hj⟩ := hold j b hj
    rw [hobject, if_neg fun hi => hne (h.unique j i b hj hi)]
    exact h.live j b hj
  · exact h.unique j k b (hold j b hj).2 (hold k b hk).2
  · rw [hobject] at hb
    split at hb
    · exact absurd rfl hb
    · rename_i hi
      obtain ⟨j, hj⟩ := h.owned b hb
      refine ⟨j, ?_⟩
      rw [hpointer, Function.update_of_ne, hj]
      rintro rfl
      exact hi hj

theorem Owned.put (h : Owned s) (hi : s.pointer i = none) (ha : s.object a = none) (v : β) :
    Owned (s.put i a v) ∧ (s.put i a v).value = Function.update s.value i (some v) := by
  have hpointer : (s.put i a v).pointer = Function.update s.pointer i (some a) := rfl
  have hobject : (s.put i a v).object = Function.update s.object a (some v) := rfl
  have hfresh : ∀ j b, s.pointer j = some b → b ≠ a := by
    rintro j b hj rfl
    exact h.live j b hj ha
  have hcases : ∀ j b, (s.put i a v).pointer j = some b →
      j = i ∧ b = a ∨ j ≠ i ∧ b ≠ a ∧ s.pointer j = some b := by
    intro j b hj
    rw [hpointer] at hj
    by_cases hne : j = i
    · rw [hne, Function.update_self] at hj
      exact .inl ⟨hne, (Option.some.inj hj).symm⟩
    · rw [Function.update_of_ne hne] at hj
      exact .inr ⟨hne, hfresh j b hj, hj⟩
  refine ⟨⟨fun j b hj => ?_, fun j k b hj hk => ?_, fun b hb => ?_⟩, funext fun j => ?_⟩
  · rw [hobject]
    rcases hcases j b hj with ⟨-, rfl⟩ | ⟨-, hb, hj⟩
    · rw [Function.update_self]
      simp
    · rw [Function.update_of_ne hb]
      exact h.live j b hj
  · rcases hcases j b hj with ⟨hji, hb⟩ | ⟨-, hb, hj⟩
    · rcases hcases k b hk with ⟨hki, -⟩ | ⟨-, hb', -⟩
      · rw [hji, hki]
      · exact absurd hb hb'
    · rcases hcases k b hk with ⟨-, hb'⟩ | ⟨-, -, hk⟩
      · exact absurd hb' hb
      · exact h.unique j k b hj hk
  · by_cases hba : b = a
    · refine ⟨i, ?_⟩
      rw [hpointer, Function.update_self, hba]
    · rw [hobject, Function.update_of_ne hba] at hb
      obtain ⟨j, hj⟩ := h.owned b hb
      refine ⟨j, ?_⟩
      rw [hpointer, Function.update_of_ne, hj]
      rintro rfl
      rw [hi] at hj
      cases hj
  · unfold Store.value
    rw [hpointer, hobject]
    by_cases hj : j = i
    · rw [hj, Function.update_self, Function.update_self]
      exact Function.update_self ..
    · rw [Function.update_of_ne hj, Function.update_of_ne hj]
      cases hp : s.pointer j with
      | none => rfl
      | some b => exact Function.update_of_ne (hfresh j b hp) ..

/-- The old object can be deleted last. -/
theorem replace_eq (ha : s.object a = none) (hold : s.pointer i ≠ some a) :
    s.replace i a v = (s.drop i).map fun s => s.put i a v := by
  unfold Store.replace Store.drop Store.delete
  cases hp : s.pointer i with
  | none =>
    simp only [Store.put, Store.new, Store.set, Option.map_some, Function.update_idem]
  | some b =>
    have hba : b ≠ a := by
      rintro rfl
      exact hold hp
    simp only [Store.put, Store.new, Store.set, Function.update_of_ne hba, Option.map_map,
      Function.comp_def, Function.update_idem]
    rw [Function.update_comm hba]

theorem Owned.replace (h : Owned s) (ha : s.object a = none) (v : β) :
    ∃ s', s.replace i a v = some s' ∧ Owned s' ∧ s'.value = Function.update s.value i (some v) := by
  obtain ⟨t, ht, howned, hvalue⟩ := h.drop i
  obtain ⟨hpointer, hobject⟩ := drop_eq ht
  have hi : t.pointer i = none := by rw [hpointer, Function.update_self]
  have hfree : t.object a = none := by
    rw [hobject]
    split
    · rfl
    · exact ha
  obtain ⟨howned', hvalue'⟩ := howned.put hi hfree v
  refine ⟨t.put i a v, ?_, howned', ?_⟩
  · rw [replace_eq ha fun hold => h.live i a hold ha, ht]
    rfl
  · rw [hvalue', hvalue, Function.update_idem]

theorem Owned.swap (h : Owned s) (i j : ι) : Owned (s.swap i j) ∧
    (s.swap i j).value = Function.update (Function.update s.value i (s.value j)) j (s.value i) := by
  have hpointer : ∀ k, (s.swap i j).pointer k = s.pointer (Equiv.swap i j k) := by
    intro k
    show Function.update (Function.update s.pointer i (s.pointer j)) j (s.pointer i) k = _
    by_cases hj : k = j
    · rw [hj, Function.update_self, Equiv.swap_apply_right]
    · rw [Function.update_of_ne hj]
      by_cases hi : k = i
      · rw [hi, Function.update_self, Equiv.swap_apply_left]
      · rw [Function.update_of_ne hi, Equiv.swap_apply_of_ne_of_ne hi hj]
  refine ⟨⟨fun k a hk => ?_, fun k l a hk hl => ?_, fun a ha => ?_⟩, funext fun k => ?_⟩
  · rw [hpointer] at hk
    exact h.live _ a hk
  · rw [hpointer] at hk hl
    exact (Equiv.swap i j).injective (h.unique _ _ a hk hl)
  · obtain ⟨k, hk⟩ := h.owned a ha
    refine ⟨Equiv.swap i j k, ?_⟩
    rw [hpointer, Equiv.swap_apply_self, hk]
  · unfold Store.value
    rw [hpointer]
    by_cases hj : k = j
    · rw [hj, Function.update_self, Equiv.swap_apply_right]
      rfl
    · rw [Function.update_of_ne hj]
      by_cases hi : k = i
      · rw [hi, Function.update_self, Equiv.swap_apply_left]
        rfl
      · rw [Function.update_of_ne hi, Equiv.swap_apply_of_ne_of_ne hi hj]
        rfl

theorem Owned.write (h : Owned s) (hi : s.pointer i ≠ none) (v : β) :
    ∃ s', s.write i v = some s' ∧ Owned s' ∧ s'.value = Function.update s.value i (some v) := by
  obtain ⟨a, ha⟩ := Option.ne_none_iff_exists'.1 hi
  obtain ⟨w, hw⟩ := Option.ne_none_iff_exists'.1 (h.live i a ha)
  have hobject : ∀ b, (s.new a v).object b ≠ none ↔ s.object b ≠ none := by
    intro b
    show Function.update s.object a (some v) b ≠ none ↔ _
    by_cases hb : b = a
    · rw [hb, Function.update_self, hw]
      simp
    · rw [Function.update_of_ne hb]
  refine ⟨s.new a v, ?_, ⟨fun j b hj => ?_, h.unique, fun b hb => ?_⟩, funext fun j => ?_⟩
  · unfold Store.write
    rw [ha, Option.bind_some, hw]
    rfl
  · exact (hobject b).2 (h.live j b hj)
  · exact h.owned b ((hobject b).1 hb)
  · show (s.pointer j).bind (Function.update s.object a (some v)) = _
    by_cases hj : j = i
    · rw [hj, Function.update_self, ha]
      exact Function.update_self ..
    · rw [Function.update_of_ne hj]
      unfold Store.value
      cases hp : s.pointer j with
      | none => rfl
      | some b =>
        refine Function.update_of_ne ?_ ..
        rintro rfl
        exact hj (h.unique j i b hp ha)

end Costream.Owning
