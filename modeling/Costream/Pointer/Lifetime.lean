import Costream.Pointer.Counts

/-!
# The lifetime of a shared object

One lemma for each place of a call says that its step keeps the counts what they are.  From them it
follows that the object and its `RefObjectImpl` are gone exactly when nobody can use them any more
(`shared_lifetime`).
-/

namespace Costream.Pointer

open Trace Costream.Tally

variable {s t : State} {i : Nat} {c c' : Call} {place : Place} {p q : Party} {x : Var} {v w : Nat}

/-! ## The steps -/

theorem Call.goOn_cases (c : Call) : c.goOn = .idle ∨ ∃ place, c.goOn = .inCall c place := by
  cases c <;> simp [Call.goOn]

theorem Call.goOn_shares (c : Call) :
    c.goOn.locks = 0 ∧ c.goOn.owns = 0 ∧ c.goOn.deletes = 0 ∧ c.goOn.frees = 0 := by
  cases c <;> exact ⟨rfl, rfl, rfl, rfl⟩

theorem Call.exists_pointer (h : c.dropsPointer = true) : ∃ v, c.dropped = some (.pointer v) := by
  cases c <;> simp_all [Call.dropsPointer, Call.dropped]

theorem Call.exists_lock (h : c.isLock = true) : ∃ w dst, c = .lock w dst := by
  cases c <;> simp_all [Call.isLock]

/-- What is dropped is null from then on. -/
theorem Call.dropped_mem_null (h : c.dropped = some x)
    (hplace : place = .deleter ∨ place = .delete ∨ place = .assign) : x ∈ c.null place := by
  rcases hplace with rfl | rfl | rfl <;> cases c <;> simp_all [Call.null, Call.dropped]

theorem Call.dropped_of_mem_null (h : c.dropped.isSome = true) (hx : x ∈ c.null place)
    (hplace : place = .deleter ∨ place = .delete ∨ place = .assign) : c.dropped = some x := by
  rcases hplace with rfl | rfl | rfl <;> cases c <;> simp_all [Call.null, Call.dropped]

theorem Call.of_pointer (h : c.dropped = some (.pointer v)) :
    c.dropsPointer = true ∧ c.isLock = false ∧ c.full .decrementRef = [.pointer v] ∧
      c.null .decrementWeak = [.pointer v] ∧ .pointer v ∈ c.writes := by
  cases c <;> simp_all [Call.dropped, Call.dropsPointer, Call.isLock, Call.full, Call.null,
    Call.writes]

theorem Call.of_weakPtr (h : c.dropped = some (.weakPtr w)) :
    c.dropsPointer = false ∧ c.full .decrementWeak = [.weakPtr w] ∧ c.null .decrementWeak = [] ∧
      .weakPtr w ∈ c.writes := by
  cases c <;> simp_all [Call.dropped, Call.dropsPointer, Call.full, Call.null, Call.writes]

/-- What was there is dropped, and the call goes on. -/
theorem State.ready_goOn (hother : c.toItself = false)
    (hnull : ∀ x, c.dropped = some x → ¬ s.Has x) : s.ReadyParty c.goOn := by
  have hassign : c.goOn = .inCall c .assign → s.Ready c .assign := by
    intro hgo
    refine ⟨hother, ?_, ?_, ?_⟩
    · unfold Call.fits
      rw [hgo]
      rfl
    · intro x hx
      cases hx
    · intro x hx
      refine hnull x ?_
      cases c <;> simp_all [Call.null, Call.dropped, Call.goOn]
  cases c with
  | copy v src => exact hassign rfl
  | move v src => exact hassign rfl
  | watch w src => exact hassign rfl
  | copyWeak w src => exact hassign rfl
  | _ => trivial

theorem State.mem_swap {l : Finset Nat} {src u : Nat} (hv : u ≠ v) (hsrc : u ≠ src) :
    u ∈ l ↔ u ∈ l.map (Equiv.swap v src).toEmbedding := by
  rw [Finset.mem_map_equiv, Equiv.symm_swap, Equiv.swap_apply_of_ne_of_ne hv hsrc]

namespace State.Inv

theorem swapPointers (h : s.Inv) (hp : s.parties[i]? = some (.inCall c place)) {src : Nat}
    (hc : c.writes = [.pointer v, .pointer src]) (hplace : place = .first ∨ place = .assign) :
    ((s.swapPointers v src).put i .idle).Inv := by
  have hshares : (Party.inCall c place).locks = 0 ∧ (Party.inCall c place).owns = 0 ∧
      (Party.inCall c place).deletes = 0 ∧ (Party.inCall c place).frees = 0 := by
    rcases hplace with rfl | rfl <;> cases c <;> exact ⟨rfl, rfl, rfl, rfl⟩
  obtain ⟨hlocks, howns, hdeletes, hfrees⟩ := hshares
  show (⟨s.reference, s.weak, s.deleted, s.freed, s.pointers.map (Equiv.swap v src).toEmbedding,
    s.weakPtrs, s.parties.set i .idle⟩ : State).Inv
  refine h.change hp (.inl rfl) ?_ (fun w _ => Iff.rfl) trivial ?_ ?_ ?_ ?_
  · intro u hu
    rw [hc] at hu
    exact State.mem_swap (fun heq => hu (by simp [heq])) fun heq => hu (by simp [heq])
  · rw [hlocks, Finset.card_map]
    rfl
  · rw [howns]
    rfl
  · rw [hdeletes]
    rfl
  · rw [hfrees]
    rfl

theorem swapWeakPtrs (h : s.Inv) {src : Nat}
    (hp : s.parties[i]? = some (.inCall (.swapWeak w src) .first)) :
    ((s.swapWeakPtrs w src).put i .idle).Inv := by
  show (⟨s.reference, s.weak, s.deleted, s.freed, s.pointers,
    s.weakPtrs.map (Equiv.swap w src).toEmbedding, s.parties.set i .idle⟩ : State).Inv
  refine h.change hp (.inl rfl) (fun v _ => Iff.rfl) ?_ trivial rfl ?_ rfl rfl
  · intro u hu
    exact State.mem_swap (fun heq => hu (by simp [Call.writes, heq]))
      fun heq => hu (by simp [Call.writes, heq])
  · rw [Finset.card_map]
    rfl

/-- What was there is dropped. -/
theorem goOn (h : s.Inv) (hp : s.parties[i]? = some (.inCall c .first))
    (hnull : ∀ x, c.dropped = some x → ¬ s.Has x) : (s.put i c.goOn).Inv := by
  obtain ⟨hlocks, howns, hdeletes, hfrees⟩ := c.goOn_shares
  exact h.quiet hp c.goOn_cases (State.ready_goOn (h.ready_of hp).other hnull) hlocks howns hdeletes
    hfrees

/-- `if (ptr_)` and `if (impl_)`. -/
theorem start (h : s.Inv) (hp : s.parties[i]? = some (.inCall c .first)) : (s.start i c).Inv := by
  have hready := h.ready_of hp
  unfold State.start
  cases hc : c.dropped with
  | none =>
    cases c with
    | swap v src => exact h.swapPointers hp rfl (.inl rfl)
    | swapWeak w src => exact h.swapWeakPtrs hp
    | lock w dst =>
      show (s.put i (if w ∈ s.weakPtrs then _ else _)).Inv
      split
      · rename_i hw
        refine h.quiet hp (.inr ⟨_, rfl⟩) ⟨rfl, rfl, ?_, hready.null⟩ rfl rfl rfl rfl
        intro x hx
        rw [List.mem_singleton.1 hx]
        exact hw
      · exact h.quiet hp (.inl rfl) trivial rfl rfl rfl rfl
    | _ => cases hc
  | some x =>
    have hnull : ¬ s.Has x → ∀ y, c.dropped = some y → ¬ s.Has y := by
      intro hx y hy
      rw [hc] at hy
      cases hy
      exact hx
    cases x with
    | pointer v =>
      obtain ⟨hdrops, hlock, hfull, -, -⟩ := Call.of_pointer hc
      show (s.put i (if v ∈ s.pointers then _ else _)).Inv
      split
      · rename_i hv
        refine h.quiet hp (.inr ⟨_, rfl⟩) ⟨hready.other, ?_, ?_, ?_⟩ ?_ rfl rfl rfl
        · simp [Call.fits, hdrops]
        · intro x hx
          rw [hfull, List.mem_singleton] at hx
          rw [hx]
          exact hv
        · intro x hx
          cases hx
        · simp [Party.locks, hlock]
      · rename_i hv
        exact h.goOn hp (hnull hv)
    | weakPtr w =>
      obtain ⟨hdrops, hfull, hnone, -⟩ := Call.of_weakPtr hc
      show (s.put i (if w ∈ s.weakPtrs then _ else _)).Inv
      split
      · rename_i hw
        refine h.quiet hp (.inr ⟨_, rfl⟩) ⟨hready.other, ?_, ?_, ?_⟩ rfl ?_ rfl rfl
        · simp [Call.fits, hc]
        · intro x hx
          rw [hfull, List.mem_singleton] at hx
          rw [hx]
          exact hw
        · intro x hx
          rw [hnone] at hx
          cases hx
        · simp [Party.owns, hdrops]
      · rename_i hw
        exact h.goOn hp (hnull hw)

/-- `impl = impl_`. -/
theorem decrementRef (h : s.Inv) (hp : s.parties[i]? = some (.inCall c .decrementRef)) :
    (s.put i (.inCall c .decrement)).Inv := by
  have hready := h.ready_of hp
  exact h.quiet hp (.inr ⟨_, rfl⟩) ⟨hready.other, hready.fits, hready.full, hready.null⟩ rfl rfl rfl rfl

/-- `lock` gives back the count that it has taken: the pointer that it returns has one as well. -/
theorem decrementLock (h : s.Inv) {dst : Nat}
    (hp : s.parties[i]? = some (.inCall (.lock w dst) .decrement)) :
    s.reference - 1 ≠ 0 ∧ ({ s with reference := s.reference - 1 }.put i .idle).Inv := by
  have hdst : dst ∈ s.pointers := (h.ready_of hp).full (.pointer dst) (by simp [Call.full])
  have hcard := Finset.card_pos.2 ⟨dst, hdst⟩
  have hlock : 1 ≤ tally Party.locks s.parties := le_tally Party.locks (List.mem_of_getElem? hp)
  have hreference := h.reference
  have hlocks : (Party.inCall (.lock w dst) .decrement).locks = 1 := rfl
  refine ⟨by omega, ?_⟩
  show (⟨s.reference - 1, s.weak, s.deleted, s.freed, s.pointers, s.weakPtrs,
    s.parties.set i .idle⟩ : State).Inv
  refine h.change hp (.inl rfl) (fun v _ => Iff.rfl) (fun w _ => Iff.rfl) trivial ?_ ?_ ?_ rfl
  · rw [hlocks]
    simp only [Party.locks]
    omega
  · simp only [Party.owns]
    omega
  · simp only [Party.deletes]
    omega

/-- `--*reference_` of a pointer that is dropped: the call that brings the count to zero is the one
that runs the deleter. -/
theorem decrementPointer (h : s.Inv) (hp : s.parties[i]? = some (.inCall c .decrement))
    (hc : c.dropped = some (.pointer v)) :
    ({ s with reference := s.reference - 1, pointers := s.pointers.erase v }.put i
      (if s.reference - 1 = 0 then .inCall c .deleter else c.goOn)).Inv := by
  have hready := h.ready_of hp
  have hpos := h.reference_pos_of_place hp (by simp)
  obtain ⟨hdrops, hlock, hfull, -, hwrites⟩ := Call.of_pointer hc
  obtain ⟨hlocks, howns, hdeletes, hfrees⟩ := c.goOn_shares
  have hv : v ∈ s.pointers := hready.full (.pointer v) (by
    show _ ∈ c.full .decrementRef
    rw [hfull]
    exact List.mem_singleton_self _)
  have hcard := Finset.card_erase_add_one hv
  have hframe : ∀ u, .pointer u ∉ c.writes → (u ∈ s.pointers ↔ u ∈ s.pointers.erase v) := by
    intro u hu
    rw [Finset.mem_erase]
    constructor
    · exact fun hmem => ⟨fun heq => hu (heq ▸ hwrites), hmem⟩
    · exact fun hmem => hmem.2
  have hshare : (Party.inCall c .decrement).locks = 0 := by
    simp [Party.locks, hlock]
  have hnull : ∀ x, c.dropped = some x →
      ¬ ({ s with reference := s.reference - 1, pointers := s.pointers.erase v } : State).Has x := by
    intro x hx
    rw [hc] at hx
    cases hx
    exact Finset.notMem_erase v s.pointers
  by_cases hzero : s.reference - 1 = 0
  · rw [if_pos hzero]
    show (⟨s.reference - 1, s.weak, s.deleted, s.freed, s.pointers.erase v, s.weakPtrs,
      s.parties.set i (.inCall c .deleter)⟩ : State).Inv
    refine h.change hp (.inr ⟨_, rfl⟩) hframe (fun w _ => Iff.rfl) ⟨hready.other, hdrops, ?_, ?_⟩
      ?_ ?_ ?_ rfl
    · intro x hx
      cases hx
    · intro x hx
      exact hnull x (Call.dropped_of_mem_null (by simp [hc]) hx (by simp))
    · rw [hshare]
      simp only [Party.locks]
      omega
    · simp only [Party.owns]
      omega
    · simp only [Party.deletes]
      omega
  · rw [if_neg hzero]
    show (⟨s.reference - 1, s.weak, s.deleted, s.freed, s.pointers.erase v, s.weakPtrs,
      s.parties.set i c.goOn⟩ : State).Inv
    refine h.change hp c.goOn_cases hframe (fun w _ => Iff.rfl)
      (State.ready_goOn hready.other hnull) ?_ ?_ ?_ ?_
    · rw [hshare, hlocks]
      omega
    · rw [howns]
      simp only [Party.owns]
      omega
    · rw [hdeletes]
      simp only [Party.deletes]
      omega
    · rw [hfrees]
      rfl

/-- `--*reference_`. -/
theorem decrement (h : s.Inv) (hp : s.parties[i]? = some (.inCall c .decrement)) :
    ({ s.dropPointer c with reference := s.reference - 1 }.put i
      (if s.reference - 1 = 0 then .inCall c .deleter else c.goOn)).Inv := by
  have hfits : (c.isLock || c.dropsPointer) = true := (h.ready_of hp).fits
  rw [Bool.or_eq_true] at hfits
  rcases hfits with hlock | hdrops
  · obtain ⟨w, dst, rfl⟩ := Call.exists_lock hlock
    obtain ⟨hne, hinv⟩ := h.decrementLock hp
    rw [if_neg hne]
    exact hinv
  · obtain ⟨v, hc⟩ := Call.exists_pointer hdrops
    unfold State.dropPointer
    rw [hc]
    exact h.decrementPointer hp hc

/-- `deleter_(this)`. -/
theorem deleter (h : s.Inv) (hp : s.parties[i]? = some (.inCall c .deleter)) :
    ({ s with deleted := s.deleted + 1 }.put i (.inCall c .decrementWeak)).Inv := by
  have hready := h.ready_of hp
  obtain ⟨v, hc⟩ := Call.exists_pointer hready.fits
  obtain ⟨hdrops, -, -, hnone, -⟩ := Call.of_pointer hc
  have howns : (Party.inCall c .decrementWeak).owns = 1 := by
    simp [Party.owns, hdrops]
  show (⟨s.reference, s.weak, s.deleted + 1, s.freed, s.pointers, s.weakPtrs,
    s.parties.set i (.inCall c .decrementWeak)⟩ : State).Inv
  refine h.change hp (.inr ⟨_, rfl⟩) (fun v _ => Iff.rfl) (fun w _ => Iff.rfl)
    ⟨hready.other, ?_, ?_, ?_⟩ rfl ?_ ?_ rfl
  · simp [Call.fits, hc]
  · intro x hx
    simp [Call.full, hc] at hx
  · intro x hx
    rw [hnone, List.mem_singleton] at hx
    rw [hx]
    exact hready.null (.pointer v) (Call.dropped_mem_null hc (by simp))
  · rw [howns]
    rfl
  · simp only [Party.deletes]
    omega

/-- `--weak_`, with what becomes of the `WeakPtr`s: the call that brings the count to zero is the
one that frees the `RefObjectImpl`. -/
theorem unit (h : s.Inv) (hp : s.parties[i]? = some (.inCall c .decrementWeak))
    {weakPtrs : Finset Nat}
    (hcard : weakPtrs.card + 1 = s.weakPtrs.card + (Party.inCall c .decrementWeak).owns)
    (hframe : ∀ w, .weakPtr w ∉ c.writes → (w ∈ s.weakPtrs ↔ w ∈ weakPtrs))
    (hnull : ∀ x, c.dropped = some x → ¬ ({ s with weakPtrs := weakPtrs } : State).Has x) :
    ({ s with weak := s.weak - 1, weakPtrs := weakPtrs }.put i
      (if s.weak - 1 = 0 then .inCall c .delete else c.goOn)).Inv := by
  have hready := h.ready_of hp
  obtain ⟨hlocks, howns, hdeletes, hfrees⟩ := c.goOn_shares
  have hreference := h.reference
  have hweak := h.weak
  have hle := le_tally Party.owns (List.mem_of_getElem? hp)
  by_cases hzero : s.weak - 1 = 0
  · rw [if_pos hzero]
    show (⟨s.reference, s.weak - 1, s.deleted, s.freed, s.pointers, weakPtrs,
      s.parties.set i (.inCall c .delete)⟩ : State).Inv
    refine h.change hp (.inr ⟨_, rfl⟩) (fun v _ => Iff.rfl) hframe ⟨hready.other, hready.fits, ?_, ?_⟩
      rfl ?_ rfl ?_
    · intro x hx
      cases hx
    · intro x hx
      exact hnull x (Call.dropped_of_mem_null hready.fits hx (by simp))
    · simp only [Party.owns] at hcard ⊢
      omega
    · simp only [Party.frees]
      omega
  · rw [if_neg hzero]
    show (⟨s.reference, s.weak - 1, s.deleted, s.freed, s.pointers, weakPtrs,
      s.parties.set i c.goOn⟩ : State).Inv
    refine h.change hp c.goOn_cases (fun v _ => Iff.rfl) hframe
      (State.ready_goOn hready.other hnull) ?_ ?_ ?_ ?_
    · rw [hlocks]
      rfl
    · rw [howns]
      omega
    · rw [hdeletes]
      rfl
    · rw [hfrees]
      simp only [Party.frees]
      omega

theorem decrementWeak (h : s.Inv) (hp : s.parties[i]? = some (.inCall c .decrementWeak)) :
    ({ s.dropWeakPtr c with weak := s.weak - 1 }.put i
      (if s.weak - 1 = 0 then .inCall c .delete else c.goOn)).Inv := by
  have hready := h.ready_of hp
  unfold State.dropWeakPtr
  cases hc : c.dropped with
  | none =>
    have hfits := hready.fits
    simp [Call.fits, hc] at hfits
  | some x =>
    cases x with
    | pointer v =>
      obtain ⟨hdrops, -, -, hnone, -⟩ := Call.of_pointer hc
      refine h.unit hp ?_ (fun w _ => Iff.rfl) ?_
      · simp [Party.owns, hdrops]
      · intro x hx
        rw [hc] at hx
        cases hx
        exact hready.null (.pointer v) (by rw [hnone]; exact List.mem_singleton_self _)
    | weakPtr w =>
      obtain ⟨hdrops, hfull, -, hwrites⟩ := Call.of_weakPtr hc
      have hw : w ∈ s.weakPtrs := hready.full (.weakPtr w) (by
        rw [hfull]
        exact List.mem_singleton_self _)
      refine h.unit hp ?_ ?_ ?_
      · rw [Finset.card_erase_add_one hw]
        simp [Party.owns, hdrops]
      · intro u hu
        rw [Finset.mem_erase]
        constructor
        · exact fun hmem => ⟨fun heq => hu (heq ▸ hwrites), hmem⟩
        · exact fun hmem => hmem.2
      · intro x hx
        rw [hc] at hx
        cases hx
        exact Finset.notMem_erase w s.weakPtrs

/-- `delete this` of the `RefObjectImpl`. -/
theorem delete (h : s.Inv) (hp : s.parties[i]? = some (.inCall c .delete)) :
    ({ s with freed := s.freed + 1 }.put i c.goOn).Inv := by
  have hready := h.ready_of hp
  obtain ⟨hlocks, howns, hdeletes, hfrees⟩ := c.goOn_shares
  show (⟨s.reference, s.weak, s.deleted, s.freed + 1, s.pointers, s.weakPtrs,
    s.parties.set i c.goOn⟩ : State).Inv
  refine h.change hp c.goOn_cases (fun v _ => Iff.rfl) (fun w _ => Iff.rfl)
    (State.ready_goOn hready.other fun x hx => ?_) ?_ ?_ ?_ ?_
  · exact hready.null x (Call.dropped_mem_null hx (by simp))
  · rw [hlocks]
    rfl
  · rw [howns]
    rfl
  · rw [hdeletes]
    rfl
  · rw [hfrees]
    simp only [Party.frees]
    omega

/-- The call looks at the other pointer. -/
theorem assign (h : s.Inv) (hp : s.parties[i]? = some (.inCall c .assign)) {fails : Bool}
    (hnext : s.advance i c fails .assign = some t) : t.Inv := by
  have hready := h.ready_of hp
  have hidle : (s.put i .idle).Inv := h.quiet hp (.inl rfl) trivial rfl rfl rfl rfl
  unfold State.advance at hnext
  cases c with
  | copy v src =>
    cases hnext
    split
    · rename_i hsrc
      refine h.quiet hp (.inr ⟨_, rfl⟩) ⟨hready.other, rfl, ?_, hready.null⟩ rfl rfl rfl rfl
      intro x hx
      rw [List.mem_singleton.1 hx]
      exact hsrc
    · exact hidle
  | move v src =>
    cases hnext
    exact h.swapPointers hp rfl (.inr rfl)
  | watch w src =>
    cases hnext
    split
    · rename_i hsrc
      refine h.quiet hp (.inr ⟨_, rfl⟩) ⟨hready.other, rfl, ?_, hready.null⟩ rfl rfl rfl rfl
      intro x hx
      rw [List.mem_singleton.1 hx]
      exact hsrc
    · exact hidle
  | copyWeak w src =>
    cases hnext
    split
    · rename_i hsrc
      refine h.quiet hp (.inr ⟨_, rfl⟩) ⟨hready.other, rfl, ?_, hready.null⟩ rfl rfl rfl rfl
      intro x hx
      rw [List.mem_singleton.1 hx]
      exact hsrc
    · exact hidle
  | _ => cases hnext

/-- `ptr->IsShared()` and `impl_ = ptr->impl_`. -/
theorem isShared (h : s.Inv) (hp : s.parties[i]? = some (.inCall c .isShared)) :
    (s.put i (.inCall c .incrementWeak)).Inv := by
  have hready := h.ready_of hp
  have hfits := hready.fits
  cases c with
  | watch w src =>
    exact h.quiet hp (.inr ⟨_, rfl⟩) ⟨hready.other, rfl, hready.full, hready.null⟩ rfl rfl rfl rfl
  | _ => cases hfits

/-- A pointer gets a count. -/
theorem insertPointer (h : s.Inv) (hp : s.parties[i]? = some (.inCall c .increment))
    (hq : q = .idle ∨ ∃ place', q = .inCall c place') (hv : v ∉ s.pointers)
    (hwrites : .pointer v ∈ c.writes)
    (hready : ({ s with reference := s.reference + 1, pointers := insert v s.pointers } :
      State).ReadyParty q)
    (hlocks : q.locks = c.isLock.toNat) (howns : q.owns = 0) (hdeletes : q.deletes = 0)
    (hfrees : q.frees = 0) :
    ({ s with reference := s.reference + 1, pointers := insert v s.pointers }.put i q).Inv := by
  have hpos := h.reference_pos_of_place hp (by simp)
  have hcard := Finset.card_insert_of_notMem hv
  show (⟨s.reference + 1, s.weak, s.deleted, s.freed, insert v s.pointers, s.weakPtrs,
    s.parties.set i q⟩ : State).Inv
  refine h.change hp hq ?_ (fun w _ => Iff.rfl) hready ?_ ?_ ?_ ?_
  · intro u hu
    rw [Finset.mem_insert]
    constructor
    · exact fun hmem => .inr hmem
    · exact fun hmem => hmem.resolve_left fun heq => hu (heq ▸ hwrites)
  · rw [hlocks, hcard]
    simp only [Party.locks]
    omega
  · rw [howns]
    simp only [Party.owns]
    omega
  · rw [hdeletes]
    simp only [Party.deletes]
    omega
  · rw [hfrees]
    rfl

/-- `++*reference_`. -/
theorem increment (h : s.Inv) (hp : s.parties[i]? = some (.inCall c .increment)) {fails : Bool}
    (hnext : s.advance i c fails .increment = some t) : t.Inv := by
  have hready := h.ready_of hp
  unfold State.advance at hnext
  cases c with
  | copy v src =>
    cases hnext
    refine h.insertPointer hp (.inl rfl) ?_ (by simp [Call.writes]) trivial rfl rfl rfl rfl
    exact hready.null (.pointer v) (by simp [Call.null, Call.dropped])
  | lock w dst =>
    cases hnext
    refine h.insertPointer hp (.inr ⟨_, rfl⟩) ?_ (by simp [Call.writes]) ⟨rfl, rfl, ?_, ?_⟩ rfl rfl rfl
      rfl
    · exact hready.null (.pointer dst) (by simp [Call.null])
    · intro x hx
      rw [List.mem_singleton.1 hx]
      exact Finset.mem_insert_self dst s.pointers
    · intro x hx
      cases hx
  | _ => cases hnext

/-- `++weak_`. -/
theorem insertWeakPtr (h : s.Inv) (hp : s.parties[i]? = some (.inCall c .incrementWeak))
    (hw : w ∉ s.weakPtrs) (hwrites : .weakPtr w ∈ c.writes) (hpos : 1 ≤ s.weak) :
    ({ s with weak := s.weak + 1, weakPtrs := insert w s.weakPtrs }.put i .idle).Inv := by
  have hcard := Finset.card_insert_of_notMem hw
  show (⟨s.reference, s.weak + 1, s.deleted, s.freed, s.pointers, insert w s.weakPtrs,
    s.parties.set i .idle⟩ : State).Inv
  refine h.change hp (.inl rfl) (fun v _ => Iff.rfl) ?_ trivial rfl ?_ rfl ?_
  · intro u hu
    rw [Finset.mem_insert]
    constructor
    · exact fun hmem => .inr hmem
    · exact fun hmem => hmem.resolve_left fun heq => hu (heq ▸ hwrites)
  · rw [hcard]
    simp only [Party.owns]
    omega
  · simp only [Party.frees]
    omega

theorem incrementWeak (h : s.Inv) (hp : s.parties[i]? = some (.inCall c .incrementWeak))
    {fails : Bool} (hnext : s.advance i c fails .incrementWeak = some t) : t.Inv := by
  have hready := h.ready_of hp
  unfold State.advance at hnext
  cases c with
  | watch w src =>
    cases hnext
    have hsrc : src ∈ s.pointers := hready.full (.pointer src) (by simp [Call.full])
    refine h.insertWeakPtr hp ?_ (by simp [Call.writes])
      (h.weak_pos_of_reference (h.reference_pos hsrc))
    exact hready.null (.weakPtr w) (by simp [Call.null, Call.dropped])
  | copyWeak w src =>
    cases hnext
    have hsrc : src ∈ s.weakPtrs := hready.full (.weakPtr src) (by simp [Call.full])
    refine h.insertWeakPtr hp ?_ (by simp [Call.writes]) (h.weak_pos hsrc)
    exact hready.null (.weakPtr w) (by simp [Call.null, Call.dropped])
  | _ => cases hnext

/-- The test in the loop of `RefObjectImpl::Lock`. -/
theorem loop (h : s.Inv) (hp : s.parties[i]? = some (.inCall c place))
    (hplace : place = .load ∨ ∃ count, place = .compareExchange count) (count : Int) :
    (s.loop i c count).Inv := by
  have hready := h.ready_of hp
  have hlock : c.isLock = true := by
    have hfits := hready.fits
    rcases hplace with rfl | ⟨count', rfl⟩
    · exact hfits
    · exact (Bool.and_eq_true_iff.1 hfits).1
  obtain ⟨w, dst, rfl⟩ := Call.exists_lock hlock
  unfold State.loop
  split
  · rcases hplace with rfl | ⟨count', rfl⟩
    · exact h.quiet hp (.inl rfl) trivial rfl rfl rfl rfl
    · exact h.quiet hp (.inl rfl) trivial rfl rfl rfl rfl
  · rename_i hcount
    have hfits : (Call.lock w dst).fits (.compareExchange count) = true := by
      simp [Call.fits, Call.isLock, hcount]
    rcases hplace with rfl | ⟨count', rfl⟩
    · exact h.quiet hp (.inr ⟨_, rfl⟩) ⟨rfl, hfits, hready.full, hready.null⟩ rfl rfl rfl rfl
    · exact h.quiet hp (.inr ⟨_, rfl⟩) ⟨rfl, hfits, hready.full, hready.null⟩ rfl rfl rfl rfl

/-- `compare_exchange_weak` adds to a count that is not zero. -/
theorem exchange (h : s.Inv) (hp : s.parties[i]? = some (.inCall c (.compareExchange s.reference))) :
    ({ s with reference := s.reference + 1 }.put i (.inCall c .increment)).Inv := by
  have hready := h.ready_of hp
  have hreference := h.reference
  obtain ⟨hlock, hcount⟩ := Bool.and_eq_true_iff.1 hready.fits
  have hne : s.reference ≠ 0 := of_decide_eq_true hcount
  obtain ⟨w, dst, rfl⟩ := Call.exists_lock hlock
  show (⟨s.reference + 1, s.weak, s.deleted, s.freed, s.pointers, s.weakPtrs,
    s.parties.set i (.inCall (.lock w dst) .increment)⟩ : State).Inv
  refine h.change hp (.inr ⟨_, rfl⟩) (fun v _ => Iff.rfl) (fun w _ => Iff.rfl)
    ⟨rfl, rfl, ?_, hready.null⟩ ?_ ?_ ?_ rfl
  · intro x hx
    cases hx
  · simp only [Party.locks, Call.isLock, Bool.toNat_true]
    omega
  · simp only [Party.owns]
    omega
  · simp only [Party.deletes]
    omega

theorem advance (h : s.Inv) (hp : s.parties[i]? = some (.inCall c place)) {fails : Bool}
    (hnext : s.advance i c fails place = some t) : t.Inv := by
  cases place with
  | first =>
    cases hnext
    exact h.start hp
  | decrementRef =>
    cases hnext
    exact h.decrementRef hp
  | decrement =>
    cases hnext
    exact h.decrement hp
  | deleter =>
    cases hnext
    exact h.deleter hp
  | decrementWeak =>
    cases hnext
    exact h.decrementWeak hp
  | delete =>
    cases hnext
    exact h.delete hp
  | assign => exact h.assign hp hnext
  | isShared =>
    cases hnext
    exact h.isShared hp
  | increment => exact h.increment hp hnext
  | incrementWeak => exact h.incrementWeak hp hnext
  | load =>
    cases hnext
    exact h.loop hp (.inl rfl) s.reference
  | compareExchange count =>
    simp only [State.advance] at hnext
    split at hnext
    · rename_i hsame
      cases hnext
      rw [← hsame.1] at hp ⊢
      exact h.exchange hp
    · cases hnext
      exact h.loop hp (.inr ⟨count, rfl⟩) s.reference

/-- A call begins. -/
theorem call (h : s.Inv) (hp : s.parties[i]? = some .idle) (hbegin : s.mayBegin c = true) :
    (s.put i (if c.toItself then .idle else .inCall c .first)).Inv := by
  unfold State.mayBegin at hbegin
  rw [Bool.and_eq_true, List.all_eq_true] at hbegin
  obtain ⟨hothers, hdst⟩ := hbegin
  show (⟨s.reference, s.weak, s.deleted, s.freed, s.pointers, s.weakPtrs,
    s.parties.set i _⟩ : State).Inv
  cases hself : c.toItself with
  | true =>
    rw [if_pos rfl]
    refine h.replace hp (fun j c' place' _ _ => ⟨fun x _ => Iff.rfl, ?_⟩) trivial rfl rfl rfl rfl
    intro c₁ place₁ hc
    cases hc
  | false =>
    rw [if_neg (by simp)]
    refine h.replace hp (fun j c' place' _ hj => ⟨fun x _ => Iff.rfl, ?_⟩)
      ⟨hself, rfl, fun x hx => ?_, fun x hx => ?_⟩ rfl rfl rfl rfl
    · intro c₁ place₁ hc
      cases hc
      exact hothers _ (List.mem_of_getElem? hj)
    · cases hx
    · cases c with
      | lock w dst =>
        rw [List.mem_singleton.1 hx]
        exact (of_decide_eq_true hdst : dst ∉ s.pointers)
      | _ => cases hx

theorem initial (n : Nat) : (State.initial n).Inv where
  reference := by
    rw [tally_eq_zero.2 fun p hp => by rw [List.eq_of_mem_replicate hp]; rfl]
    rfl
  weak := by
    rw [tally_eq_zero.2 fun p hp => by rw [List.eq_of_mem_replicate hp]; rfl]
    rfl
  deleted := by
    rw [tally_eq_zero.2 fun p hp => by rw [List.eq_of_mem_replicate hp]; rfl]
    rfl
  freed := by
    rw [tally_eq_zero.2 fun p hp => by rw [List.eq_of_mem_replicate hp]; rfl]
    rfl
  ready p hp := by
    rw [List.eq_of_mem_replicate hp]
    trivial
  apart i j c c' place place' _ hp := by
    have hidle := List.eq_of_mem_replicate (List.mem_of_getElem? hp)
    cases hidle

theorem step (h : s.Inv) {a : Action} (henabled : s.enabled a = true) (hnext : s.next a = some t) :
    t.Inv := by
  cases a with
  | call i c =>
    obtain ⟨hp, hbegin⟩ := Bool.and_eq_true_iff.1 henabled
    cases hnext
    exact h.call (of_decide_eq_true hp) hbegin
  | step i fails =>
    simp only [State.next] at hnext
    split at hnext
    · rename_i c place hp
      split at hnext
      · cases hnext
      · exact h.advance hp hnext
    · cases hnext

/-- A call that is ready has a next step. -/
theorem advances (h : s.Inv) (hp : s.parties[i]? = some (.inCall c place)) (fails : Bool) :
    (s.advance i c fails place).isSome = true := by
  have hfits := (h.ready_of hp).fits
  cases place with
  | assign => cases c <;> first | rfl | cases hfits
  | increment => cases c <;> first | rfl | cases hfits
  | incrementWeak => cases c <;> first | rfl | cases hfits
  | compareExchange count =>
    simp only [State.advance]
    split
    · rfl
    · rfl
  | _ => rfl

/-- No step touches what is gone. -/
theorem works (h : s.Inv) {a : Action} (henabled : s.enabled a = true) :
    (s.next a).isSome = true := by
  cases a with
  | call i c => rfl
  | step i fails =>
    obtain ⟨p, hp, hne⟩ := (Option.any_eq_true _ _).1 henabled
    cases p with
    | idle => cases hne
    | inCall c place =>
      simp only [State.next, hp]
      rw [if_neg ?_]
      · exact h.advances hp fails
      · rintro (⟨huses, hgone⟩ | ⟨huses, hgone⟩)
        · exact hgone (h.deleted_eq_zero hp huses)
        · exact hgone (h.freed_eq_zero hp huses)

end State.Inv

/-! ## The lifetime -/

/-- What holds whenever: the deleter runs once, and it is the call that brings the count to zero
that runs it; the `RefObjectImpl` is freed once, when the object and all pointers are gone; a
pointer that is not null keeps the object; and no step touches what is gone. -/
structure State.Sound (s : State) : Prop where
  works : ∀ a, s.enabled a = true → (s.next a).isSome = true
  deletedOnce : s.deleted ≤ 1
  deleted : s.reference = 0 ↔ s.deleted = 1 ∨ ∃ c, .inCall c .deleter ∈ s.parties
  freedOnce : s.freed ≤ 1
  freedLast : s.freed = 1 → s.deleted = 1 ∧ s.pointers = ∅ ∧ s.weakPtrs = ∅
  held : ∀ v ∈ s.pointers, s.deleted = 0 ∧ ∀ c, .inCall c .deleter ∉ s.parties
  finished : (∀ p ∈ s.parties, p = .idle) →
    (s.deleted = 1 ↔ s.pointers = ∅) ∧ (s.freed = 1 ↔ s.pointers = ∅ ∧ s.weakPtrs = ∅)

namespace State.Inv

theorem exists_deleter (h : 0 < tally Party.deletes s.parties) :
    ∃ c, .inCall c .deleter ∈ s.parties := by
  by_contra hnone
  have hzero : tally Party.deletes s.parties = 0 := by
    refine tally_eq_zero.2 fun p hp => ?_
    cases p with
    | idle => rfl
    | inCall c place =>
      cases place with
      | deleter => exact absurd ⟨c, hp⟩ hnone
      | _ => rfl
  omega

theorem deletes_le_owns : tally Party.deletes s.parties ≤ tally Party.owns s.parties := by
  refine tally_le fun p _ => ?_
  cases p with
  | idle => exact Nat.le_refl 0
  | inCall c place =>
    cases place with
    | deleter => exact Nat.le_refl 1
    | _ => exact Nat.zero_le _

theorem sound (h : s.Inv) : s.Sound := by
  have hreference := h.reference
  have hweak := h.weak
  have hdeleted := h.deleted
  have hfreed := h.freed
  have hle := deletes_le_owns (s := s)
  have hpending : ∀ c, .inCall c .deleter ∈ s.parties → 1 ≤ tally Party.deletes s.parties :=
    fun c hc => le_tally Party.deletes hc
  refine ⟨fun a ha => h.works ha, by omega, ?_, by omega, ?_, ?_, ?_⟩
  · constructor
    · intro hzero
      by_cases hone : s.deleted = 1
      · exact .inl hone
      · exact .inr (exists_deleter (by omega))
    · rintro (hone | ⟨c, hc⟩)
      · omega
      · have hpos := hpending c hc
        omega
  · intro hone
    refine ⟨by omega, ?_, ?_⟩
    · exact Finset.card_eq_zero.1 (by omega)
    · exact Finset.card_eq_zero.1 (by omega)
  · intro v hv
    have hpos := h.reference_pos hv
    refine ⟨by omega, fun c hc => ?_⟩
    have hone := hpending c hc
    omega
  · intro hidle
    have hzero : ∀ f : Party → Nat, f .idle = 0 → tally f s.parties = 0 := by
      intro f hf
      refine tally_eq_zero.2 fun p hp => ?_
      rw [hidle p hp, hf]
    have hlocks := hzero Party.locks rfl
    have howns := hzero Party.owns rfl
    have hdeletes := hzero Party.deletes rfl
    have hfrees := hzero Party.frees rfl
    rw [← Finset.card_eq_zero, ← Finset.card_eq_zero]
    omega

end State.Inv

/-- In every run of any number of parties. -/
theorem shared_lifetime (n : Nat) (h : Run machine anyAction (State.initial n) s) : s.Sound := by
  have hinv : s.Inv := by
    refine h.invariant (State.Inv.initial n) ?_
    intro t a u ht henabled _ hnext
    exact ht.step henabled hnext
  exact hinv.sound

/-- A party locks a weak pointer while another one drops the last pointer. -/
theorem shared_lifetime_locked : ∃ s, Run machine anyAction (State.initial 2) s ∧ s.Sound ∧
    s.deleted = 0 ∧ s.pointers = {1} := by
  have hexec : (machine.exec anyAction (State.initial 2)
      [.call 0 (.watch 0 0), .step 0 false, .step 0 false, .step 0 false, .step 0 false,
        .call 0 (.reset 0), .step 0 false, .call 1 (.lock 0 1), .step 1 false, .step 1 false,
        .step 0 false, .step 1 true, .step 1 false, .step 0 false, .step 1 false, .step 1 false,
        .step 1 false]).any (fun s => decide (s.deleted = 0 ∧ s.pointers = {1})) = true := by
    decide +kernel
  obtain ⟨s, hrun, hs⟩ := Run.exists_of_exec hexec
  exact ⟨s, hrun, shared_lifetime 2 hrun, of_decide_eq_true hs⟩

end Costream.Pointer
