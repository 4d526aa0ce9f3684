import Costream.Pointer.Shared
import Costream.Tally
import Mathlib.Data.Finset.Card

/-!
# What the counts of a shared object count

`reference_` counts the `IncursivePtr`s that are not null, and the counts that calls of `lock` have
for themselves; `weak_` counts the `WeakPtr`s, and has one unit more until the object is gone
(`Inv`).  `Inv.replace` and `Inv.change` say what a step has to do to keep that, and the last part
what follows from it: the object, or the `RefObjectImpl`, is there wherever a call uses it.
-/

namespace Costream.Pointer

open Costream.Tally

/-! ## What the counts count -/

def Call.isLock : Call → Bool
  | .lock _ _ => true
  | _ => false

/-- The call drops an `IncursivePtr`. -/
def Call.dropsPointer (c : Call) : Bool :=
  match c.dropped with
  | some (.pointer _) => true
  | _ => false

namespace Party

/-- `lock` has a count that belongs to no pointer. -/
def locks : Party → Nat
  | .inCall c .increment => c.isLock.toNat
  | .inCall c .decrementRef => c.isLock.toNat
  | .inCall c .decrement => c.isLock.toNat
  | _ => 0

/-- The deleter is what the party does next. -/
def deletes : Party → Nat
  | .inCall _ .deleter => 1
  | _ => 0

/-- The party gives back the unit of the object. -/
def owns : Party → Nat
  | .inCall _ .deleter => 1
  | .inCall c .decrementWeak => c.dropsPointer.toNat
  | _ => 0

/-- The party frees the `RefObjectImpl` next. -/
def frees : Party → Nat
  | .inCall _ .delete => 1
  | _ => 0

end Party

namespace Call

/-- The call can come to the place. -/
def fits (c : Call) : Place → Bool
  | .first => true
  | .decrementRef => c.isLock || c.dropsPointer
  | .decrement => c.isLock || c.dropsPointer
  | .deleter => c.dropsPointer
  | .decrementWeak => c.dropped.isSome
  | .delete => c.dropped.isSome
  | .assign => c.goOn ≠ .idle
  | .isShared =>
    match c with
    | watch _ _ => true
    | _ => false
  | .increment =>
    match c with
    | copy _ _ => true
    | lock _ _ => true
    | _ => false
  | .incrementWeak =>
    match c with
    | watch _ _ => true
    | copyWeak _ _ => true
    | _ => false
  | .load => c.isLock
  | .compareExchange count => c.isLock && count ≠ 0

/-- The pointers that are not null while the call is at the place. -/
def full (c : Call) : Place → List Var
  | .decrementRef =>
    match c with
    | lock _ dst => [.pointer dst]
    | _ => c.dropped.toList
  | .decrement =>
    match c with
    | lock _ dst => [.pointer dst]
    | _ => c.dropped.toList
  | .decrementWeak =>
    match c.dropped with
    | some (.weakPtr w) => [.weakPtr w]
    | _ => []
  | .isShared =>
    match c with
    | watch _ src => [.pointer src]
    | _ => []
  | .increment =>
    match c with
    | copy _ src => [.pointer src]
    | _ => []
  | .incrementWeak =>
    match c with
    | watch _ src => [.pointer src]
    | copyWeak _ src => [.weakPtr src]
    | _ => []
  | .load =>
    match c with
    | lock w _ => [.weakPtr w]
    | _ => []
  | .compareExchange _ =>
    match c with
    | lock w _ => [.weakPtr w]
    | _ => []
  | _ => []

/-- The pointer that is null while the call is at the place. -/
def null (c : Call) : Place → List Var
  | .first =>
    match c with
    | lock _ dst => [.pointer dst]
    | _ => []
  | .decrementRef => []
  | .decrement => []
  | .decrementWeak =>
    match c.dropped with
    | some (.pointer v) => [.pointer v]
    | _ => []
  | _ =>
    match c with
    | lock _ dst => [.pointer dst]
    | _ => c.dropped.toList

end Call

namespace State

variable (s : State)

/-- The pointer is not null. -/
def Has : Var → Prop
  | .pointer v => v ∈ s.pointers
  | .weakPtr w => w ∈ s.weakPtrs

/-- The pointers that a call uses are as they have to be at the place. -/
structure Ready (c : Call) (place : Place) : Prop where
  other : c.toItself = false
  fits : c.fits place = true
  full : ∀ x ∈ c.full place, s.Has x
  null : ∀ x ∈ c.null place, ¬ s.Has x

def ReadyParty : Party → Prop
  | .idle => True
  | .inCall c place => s.Ready c place

/-- The counts are those of the pointers and of the calls, and what has come to an end is gone, or
one call is about to end it. -/
structure Inv : Prop where
  reference : s.reference = (s.pointers.card + tally Party.locks s.parties : Nat)
  weak : s.weak = (s.weakPtrs.card + tally Party.owns s.parties : Nat) + min s.reference 1
  deleted : (s.deleted + tally Party.deletes s.parties : Nat) + min s.reference 1 = 1
  freed : (s.freed + tally Party.frees s.parties : Nat) + min s.weak 1 = 1
  ready : ∀ p ∈ s.parties, s.ReadyParty p
  apart : ∀ (i j : Nat) (c c' : Call) (place place' : Place), i ≠ j →
    s.parties[i]? = some (.inCall c place) → s.parties[j]? = some (.inCall c' place') →
    c.apart c' = true

end State

variable {s t : State} {i : Nat} {c c' : Call} {place : Place} {p q : Party} {x : Var} {v w : Nat}

/-! ## Other calls -/

theorem Call.full_subset (h : x ∈ c.full place) : x ∈ c.uses := by
  cases place <;> cases c <;> simp_all [Call.full, Call.dropped, Call.uses, Call.writes]

theorem Call.null_subset (h : x ∈ c.null place) : x ∈ c.uses := by
  cases place <;> cases c <;> simp_all [Call.null, Call.dropped, Call.uses, Call.writes]

/-- Where a call uses the count of a pointer, the pointer is not null, or the call is `lock` with a
count of its own. -/
theorem Call.counted (h : c.fits place = true) (hplace : place = .decrementRef ∨
    place = .decrement ∨ place = .isShared ∨ place = .increment) :
    (∃ v, .pointer v ∈ c.full place) ∨ (Party.inCall c place).locks = 1 := by
  rcases hplace with rfl | rfl | rfl | rfl <;> cases c <;>
    simp_all [Call.fits, Call.full, Call.dropped, Call.isLock, Call.dropsPointer, Party.locks]

/-- A call stays ready while its pointers stay as they are. -/
theorem State.Ready.congr (h : s.Ready c place) (hsame : ∀ x ∈ c.uses, (s.Has x ↔ t.Has x)) :
    t.Ready c place where
  other := h.other
  fits := h.fits
  full x hx := (hsame x (Call.full_subset hx)).1 (h.full x hx)
  null x hx := fun ht => h.null x hx ((hsame x (Call.null_subset hx)).2 ht)

theorem Call.not_mem_of_apart (h : c.apart c' = true) (hx : x ∈ c.writes) : x ∉ c'.uses := by
  unfold Call.apart at h
  rw [Bool.and_eq_true, List.all_eq_true] at h
  simpa using h.1 x hx

theorem Call.apart_comm (h : c.apart c' = true) : c'.apart c = true := by
  unfold Call.apart at h ⊢
  rwa [Bool.and_comm]

namespace State.Inv

/-- One party is replaced: the counts move with its shares, and the pointers of the other calls stay
as they are. -/
theorem replace (h : s.Inv) (hp : s.parties[i]? = some p)
    {reference weak : Int} {deleted freed : Nat} {pointers weakPtrs : Finset Nat}
    (hothers : ∀ (j : Nat) (c' : Call) (place' : Place), i ≠ j →
      s.parties[j]? = some (.inCall c' place') →
      (∀ x ∈ c'.uses, (s.Has x ↔
        (⟨reference, weak, deleted, freed, pointers, weakPtrs, s.parties⟩ : State).Has x)) ∧
      ∀ (c₁ : Call) (place₁ : Place), q = .inCall c₁ place₁ → c₁.apart c' = true)
    (hready : (⟨reference, weak, deleted, freed, pointers, weakPtrs, s.parties⟩ : State).ReadyParty q)
    (hreference : reference + s.pointers.card + p.locks = s.reference + pointers.card + q.locks)
    (hweak : weak + s.weakPtrs.card + p.owns + min s.reference 1 =
      s.weak + weakPtrs.card + q.owns + min reference 1)
    (hdeleted : deleted + q.deletes + min reference 1 = s.deleted + p.deletes + min s.reference 1)
    (hfreed : freed + q.frees + min weak 1 = s.freed + p.frees + min s.weak 1) :
    (⟨reference, weak, deleted, freed, pointers, weakPtrs, s.parties.set i q⟩ : State).Inv where
  reference := by
    have hsum := tally_set Party.locks hp q
    have hold := h.reference
    show reference = (pointers.card + tally Party.locks (s.parties.set i q) : Nat)
    omega
  weak := by
    have hsum := tally_set Party.owns hp q
    have hold := h.weak
    show weak = (weakPtrs.card + tally Party.owns (s.parties.set i q) : Nat) + min reference 1
    omega
  deleted := by
    have hsum := tally_set Party.deletes hp q
    have hold := h.deleted
    show (deleted + tally Party.deletes (s.parties.set i q) : Nat) + min reference 1 = 1
    omega
  freed := by
    have hsum := tally_set Party.frees hp q
    have hold := h.freed
    show (freed + tally Party.frees (s.parties.set i q) : Nat) + min weak 1 = 1
    omega
  ready := by
    intro p' hmem
    obtain ⟨j, hj⟩ := List.mem_iff_getElem?.1 hmem
    by_cases hij : i = j
    · subst hij
      rw [List.getElem?_set_self (List.getElem?_eq_some_iff.1 hp).1] at hj
      cases hj
      cases q with
      | idle => trivial
      | inCall c' place' => exact Ready.congr hready fun x _ => Iff.rfl
    · rw [List.getElem?_set_ne hij] at hj
      have hold := h.ready p' (List.mem_of_getElem? hj)
      cases p' with
      | idle => trivial
      | inCall c' place' => exact Ready.congr hold (hothers j c' place' hij hj).1
  apart := by
    have hlt := (List.getElem?_eq_some_iff.1 hp).1
    intro j k c₁ c₂ place₁ place₂ hjk hj hk
    by_cases hij : i = j
    · subst hij
      rw [List.getElem?_set_self hlt] at hj
      rw [List.getElem?_set_ne hjk] at hk
      exact (hothers k c₂ place₂ hjk hk).2 c₁ place₁ (Option.some.inj hj)
    · rw [List.getElem?_set_ne hij] at hj
      by_cases hik : i = k
      · subst hik
        rw [List.getElem?_set_self hlt] at hk
        exact Call.apart_comm ((hothers j c₁ place₁ hij hj).2 c₂ place₂ (Option.some.inj hk))
      · rw [List.getElem?_set_ne hik] at hk
        exact h.apart j k c₁ c₂ place₁ place₂ hjk hj hk

/-- A call has taken a step, and has changed only its own pointers. -/
theorem change (h : s.Inv) (hp : s.parties[i]? = some (.inCall c place))
    {reference weak : Int} {deleted freed : Nat} {pointers weakPtrs : Finset Nat}
    (hq : q = .idle ∨ ∃ place', q = .inCall c place')
    (hpointers : ∀ v, .pointer v ∉ c.writes → (v ∈ s.pointers ↔ v ∈ pointers))
    (hweakPtrs : ∀ w, .weakPtr w ∉ c.writes → (w ∈ s.weakPtrs ↔ w ∈ weakPtrs))
    (hready : (⟨reference, weak, deleted, freed, pointers, weakPtrs, s.parties⟩ : State).ReadyParty q)
    (hreference : reference + s.pointers.card + (Party.inCall c place).locks =
      s.reference + pointers.card + q.locks)
    (hweak : weak + s.weakPtrs.card + (Party.inCall c place).owns + min s.reference 1 =
      s.weak + weakPtrs.card + q.owns + min reference 1)
    (hdeleted : deleted + q.deletes + min reference 1 =
      s.deleted + (Party.inCall c place).deletes + min s.reference 1)
    (hfreed : freed + q.frees + min weak 1 =
      s.freed + (Party.inCall c place).frees + min s.weak 1) :
    (⟨reference, weak, deleted, freed, pointers, weakPtrs, s.parties.set i q⟩ : State).Inv := by
  refine h.replace hp (fun j c' place' hij hj => ?_) hready hreference hweak hdeleted hfreed
  have hapart := h.apart i j c c' place place' hij hp hj
  refine ⟨fun x hx => ?_, fun c₁ place₁ hc => ?_⟩
  · cases x with
    | pointer v => exact hpointers v fun hw => Call.not_mem_of_apart hapart hw hx
    | weakPtr w => exact hweakPtrs w fun hw => Call.not_mem_of_apart hapart hw hx
  · rcases hq with hq | ⟨place₂, hq⟩
    · rw [hq] at hc
      cases hc
    · rw [hq] at hc
      cases hc
      exact hapart

/-- A step that changes no count and no pointer. -/
theorem quiet (h : s.Inv) (hp : s.parties[i]? = some (.inCall c place))
    (hq : q = .idle ∨ ∃ place', q = .inCall c place') (hready : s.ReadyParty q)
    (hlocks : q.locks = (Party.inCall c place).locks) (howns : q.owns = (Party.inCall c place).owns)
    (hdeletes : q.deletes = (Party.inCall c place).deletes)
    (hfrees : q.frees = (Party.inCall c place).frees) : (s.put i q).Inv := by
  refine h.change hp hq (fun v _ => Iff.rfl) (fun w _ => Iff.rfl) ?_ ?_ ?_ ?_ ?_
  · cases q with
    | idle => trivial
    | inCall c' place' => exact Ready.congr hready fun x _ => Iff.rfl
  · rw [hlocks]
  · rw [howns]
  · rw [hdeletes]
  · rw [hfrees]

/-! ## What keeps the object and its counts -/

theorem reference_pos (h : s.Inv) (hv : v ∈ s.pointers) : 1 ≤ s.reference := by
  have hcard := Finset.card_pos.2 ⟨v, hv⟩
  have hreference := h.reference
  omega

theorem reference_pos_of_locks (h : s.Inv) (hp : s.parties[i]? = some p) (hlocks : p.locks = 1) :
    1 ≤ s.reference := by
  have hle := le_tally Party.locks (List.mem_of_getElem? hp)
  have hreference := h.reference
  omega

theorem weak_pos_of_reference (h : s.Inv) (hreference : 1 ≤ s.reference) : 1 ≤ s.weak := by
  have hweak := h.weak
  omega

theorem weak_pos (h : s.Inv) (hw : w ∈ s.weakPtrs) : 1 ≤ s.weak := by
  have hcard := Finset.card_pos.2 ⟨w, hw⟩
  have hreference := h.reference
  have hweak := h.weak
  omega

theorem weak_pos_of_owns (h : s.Inv) (hp : s.parties[i]? = some p) (howns : p.owns = 1) :
    1 ≤ s.weak := by
  have hle := le_tally Party.owns (List.mem_of_getElem? hp)
  have hreference := h.reference
  have hweak := h.weak
  omega

theorem deleted_eq_zero_of_reference (h : s.Inv) (hreference : 1 ≤ s.reference) :
    s.deleted = 0 := by
  have hdeleted := h.deleted
  omega

theorem freed_eq_zero_of_weak (h : s.Inv) (hweak : 1 ≤ s.weak) : s.freed = 0 := by
  have hfreed := h.freed
  omega

/-- The call is ready. -/
theorem ready_of (h : s.Inv) (hp : s.parties[i]? = some (.inCall c place)) : s.Ready c place :=
  h.ready _ (List.mem_of_getElem? hp)

/-- While a call is where it uses the count of a pointer, there is a count. -/
theorem reference_pos_of_place (h : s.Inv) (hp : s.parties[i]? = some (.inCall c place))
    (hplace : place = .decrementRef ∨ place = .decrement ∨ place = .isShared ∨
      place = .increment) : 1 ≤ s.reference := by
  have hready := h.ready_of hp
  rcases Call.counted hready.fits hplace with ⟨v, hv⟩ | hlocks
  · exact h.reference_pos (hready.full (.pointer v) hv)
  · exact h.reference_pos_of_locks hp hlocks

/-- The object is there when it is used. -/
theorem deleted_eq_zero (h : s.Inv) (hp : s.parties[i]? = some (.inCall c place))
    (huses : place.usesObject = true) : s.deleted = 0 := by
  cases place with
  | decrementRef => exact h.deleted_eq_zero_of_reference (h.reference_pos_of_place hp (by simp))
  | decrement => exact h.deleted_eq_zero_of_reference (h.reference_pos_of_place hp (by simp))
  | isShared => exact h.deleted_eq_zero_of_reference (h.reference_pos_of_place hp (by simp))
  | increment => exact h.deleted_eq_zero_of_reference (h.reference_pos_of_place hp (by simp))
  | deleter =>
    have hle : 1 ≤ tally Party.deletes s.parties :=
      le_tally Party.deletes (List.mem_of_getElem? hp)
    have hreference := h.reference
    have hdeleted := h.deleted
    omega
  | first => cases huses
  | decrementWeak => cases huses
  | delete => cases huses
  | assign => cases huses
  | incrementWeak => cases huses
  | load => cases huses
  | compareExchange count => cases huses

/-- While a call is where it uses the `RefObjectImpl`, somebody has a unit. -/
theorem freed_eq_zero (h : s.Inv) (hp : s.parties[i]? = some (.inCall c place))
    (huses : place.usesImpl = true) : s.freed = 0 := by
  have hready := h.ready_of hp
  have hfits := hready.fits
  have hfull := hready.full
  have hcounted : ∀ {v}, v ∈ s.pointers → s.freed = 0 := fun hv =>
    h.freed_eq_zero_of_weak (h.weak_pos_of_reference (h.reference_pos hv))
  have hwatched : ∀ {w}, w ∈ s.weakPtrs → s.freed = 0 := fun hw =>
    h.freed_eq_zero_of_weak (h.weak_pos hw)
  cases place with
  | decrement =>
    exact h.freed_eq_zero_of_weak (h.weak_pos_of_reference (h.reference_pos_of_place hp (by simp)))
  | increment =>
    exact h.freed_eq_zero_of_weak (h.weak_pos_of_reference (h.reference_pos_of_place hp (by simp)))
  | delete =>
    have hle : 1 ≤ tally Party.frees s.parties := le_tally Party.frees (List.mem_of_getElem? hp)
    have hreference := h.reference
    have hweak := h.weak
    have hfreed := h.freed
    omega
  | decrementWeak =>
    cases hc : c.dropped with
    | none =>
      unfold Call.fits at hfits
      rw [hc] at hfits
      cases hfits
    | some x =>
      cases x with
      | pointer v =>
        refine h.freed_eq_zero_of_weak (h.weak_pos_of_owns hp ?_)
        simp [Party.owns, Call.dropsPointer, hc]
      | weakPtr w =>
        refine hwatched (hfull (.weakPtr w) ?_)
        unfold Call.full
        simp only [hc, List.mem_singleton]
  | incrementWeak =>
    cases c with
    | watch w src => exact hcounted (hfull (.pointer src) (by simp [Call.full]))
    | copyWeak w src => exact hwatched (hfull (.weakPtr src) (by simp [Call.full]))
    | _ => cases hfits
  | load =>
    cases c with
    | lock w dst => exact hwatched (hfull (.weakPtr w) (by simp [Call.full]))
    | _ => cases hfits
  | compareExchange count =>
    cases c with
    | lock w dst => exact hwatched (hfull (.weakPtr w) (by simp [Call.full]))
    | _ => cases hfits
  | first => cases huses
  | decrementRef => cases huses
  | deleter => cases huses
  | assign => cases huses
  | isShared => cases huses

end State.Inv

end Costream.Pointer
