import Costream.Heap.Represents

/-!
# What can be freed

`free` looks for its argument only in the map, where it also finds the guards and the blocks that
are free.  It does not test whether the entry is in use: for one that is not, the free entry before
it has it as its `next`, and so the assertion about the order fails.

* `Sound.free_free` is that argument, for all entries that are in the list.
* `free_completes_iff` puts it together with what happens to a block that is in use and to an
  address without an entry.
-/

namespace Costream.SmallHeap

open SmallHeap.Memory Trace

variable {h : Heap} {blocks frees : List Nat} {taken : Nat → Nat → Prop} {base length ptr p q : Nat}
  {s : State}

/-- `assert(false && "Illegal free.")`. -/
theorem free_unknown (hptr : ptr ≠ 0) (hkey : ptr ∉ h.memory.keys) : h.free ptr = none := by
  unfold Heap.free
  rw [if_neg hptr, find, if_neg hkey]
  rfl

/-- The assertion about the order of the list. -/
theorem free_disordered (hptr : ptr ≠ 0) (hkey : ptr ∈ h.memory.keys)
    (hbefore : (h.memory.below ptr).find? h.memory.isfree = some p)
    (hnext : h.memory.deref (h.memory.next p) = some q) (hle : q ≤ ptr) : h.free ptr = none := by
  have hfind : h.memory.deref (h.memory.find ptr) = some ptr := by
    rw [find, if_pos hkey, deref_entry hkey]
  have hnot : ¬ ptr < q := Nat.not_lt.2 hle
  unfold Heap.free
  rw [if_neg hptr]
  simp only [hfind, hbefore, hnext, guard, hnot, reduceIte, Option.bind_eq_bind, Option.bind_some]
  rfl

/-- What is in the list is not freed again. -/
theorem Sound.free_free (hs : Sound h blocks frees taken) (hptr : ptr ≠ 0) (hfree : ptr ∈ frees) :
    h.free ptr = none := by
  have hkey := hs.stock.shape.sub ptr hfree
  obtain ⟨xs, p, ys, rfl⟩ := hs.stock.shape.split_prior hfree hptr
  obtain ⟨hnext, -, hlt⟩ := hs.stock.shape.joined
  refine free_disordered hptr hkey (find_before hs.stock hlt (Nat.le_refl ptr)) ?_ (Nat.le_refl ptr)
  rw [hnext, deref_entry hkey]

theorem Sound.free_iff (hs : Sound h blocks frees taken) :
    (h.free ptr).isSome = true ↔ ptr = 0 ∨ ∃ bytes, taken ptr bytes := by
  constructor
  · intro hsome
    by_contra hnot
    push Not at hnot
    obtain ⟨hptr, huntaken⟩ := hnot
    have hnone : h.free ptr = none := by
      by_cases hkey : ptr ∈ h.memory.keys
      · have hshape := hs.stock.shape
        refine hs.free_free hptr ?_
        rcases hshape.mem_keys.1 hkey with hzero | hblock | htop
        · exact absurd hzero hptr
        · by_contra hused
          exact huntaken _ ((hs.stock.taken ptr _).2 ⟨hblock, hused, rfl⟩)
        · rw [htop]
          exact hshape.high
      · exact free_unknown hptr hkey
    rw [hnone] at hsome
    cases hsome
  · rintro (hptr | ⟨bytes, htaken⟩)
    · rw [hptr]
      rfl
    · obtain ⟨h', hfree, -⟩ := hs.free htaken
      rw [hfree]
      rfl

/-! ## Heaps without bytes -/

theorem createEmpty_free (hptr : ptr ≠ 0) : createEmpty.free ptr = none :=
  free_unknown hptr List.not_mem_nil

/-- The entry of the pool is free, of length 0, and is never freed. -/
theorem create_zero_free (hbase : base ≠ 0) (htop : base < top) (hcreate : create base 0 = some h)
    (hptr : ptr ≠ 0) : h.free ptr = none := by
  obtain ⟨m, hm, hkeys, -, ⟨hnext0, hnextb, -⟩, -⟩ := create_memory hbase (show base + 0 < top from htop)
  rw [hm, Option.some.injEq] at hcreate
  have hmemory : h.memory = m := by rw [← hcreate]
  have hbegin : m.begin = .entry 0 := by
    unfold begin
    rw [hkeys]
    rfl
  have hfree0 : m.isfree 0 = true := by
    rw [isfree, hnext0, hbegin, decide_eq_true_eq, Ne, Iterator.entry.injEq]
    exact hbase
  have hfreeb : m.isfree base = true := by
    rw [isfree, hnextb, hbegin]
    decide
  by_cases hkey : ptr ∈ m.keys
  · have hmem : ptr = base ∨ ptr = top := by
      rw [hkeys] at hkey
      simpa [hptr] using hkey
    have hbt : base ≠ top := Nat.ne_of_lt htop
    rcases hmem with rfl | rfl
    · have hbelow : m.below ptr = [0] := by
        unfold below
        rw [hkeys]
        simp [Nat.pos_of_ne_zero hbase, Nat.le_of_lt htop]
      refine free_disordered (p := 0) (q := ptr) hptr (hmemory ▸ hkey) ?_ ?_ (Nat.le_refl ptr)
      · rw [hmemory, hbelow, List.find?_cons, hfree0]
      · rw [hmemory, hnext0, deref_entry hkey]
    · have hbelow : m.below top = [base, 0] := by
        unfold below
        rw [hkeys]
        simp [htop, Nat.pos_of_ne_zero hptr]
      refine free_disordered (p := base) (q := top) hptr (hmemory ▸ hkey) ?_ ?_ (Nat.le_refl top)
      · rw [hmemory, hbelow, List.find?_cons, hfreeb]
      · rw [hmemory, hnextb, deref_entry hkey]
  · exact free_unknown hptr (hmemory ▸ hkey)

/-! ## The result -/

/-- In every state that allocations and releases can reach. -/
theorem free_completes_iff (hmade : Constructed h) (hrun : Run machine anyAction ⟨h, ∅⟩ s)
    (ptr : Nat) :
    (s.heap.free ptr).isSome = true ↔ ptr = 0 ∨ ∃ b ∈ s.live, b.ptr = ptr := by
  have hstill : h.totalFree = 0 → (∀ ptr, ptr ≠ 0 → h.free ptr = none) →
      ((s.heap.free ptr).isSome = true ↔ ptr = 0 ∨ ∃ b ∈ s.live, b.ptr = ptr) := by
    intro hzero hnone
    rw [still_of_run hzero hrun]
    by_cases hptr : ptr = 0
    · rw [hptr]
      simp [Heap.free]
    · simp [hnone ptr hptr, hptr]
  cases hmade with
  | empty => exact hstill rfl fun ptr hptr => createEmpty_free hptr
  | @range base length h hcreate hwrap =>
    rcases Nat.eq_zero_or_pos length with rfl | hlen
    · obtain ⟨hbase, htop⟩ := create_asserts hcreate hwrap
      obtain ⟨m, hm, -⟩ := create_memory hbase htop
      refine hstill ?_ fun ptr hptr => create_zero_free hbase htop hcreate hptr
      rw [hm, Option.some.injEq] at hcreate
      rw [← hcreate]
    · obtain ⟨blocks, frees, hsound⟩ := (inv_of_run hcreate hlen hwrap hrun).sound
      rw [hsound.free_iff]
      refine or_congr_right ⟨?_, ?_⟩
      · rintro ⟨bytes, high, hb⟩
        exact ⟨_, hb, rfl⟩
      · rintro ⟨b, hb, rfl⟩
        exact ⟨b.bytes, b.high, hb⟩

/-- A block that has been freed, and the one behind it. -/
theorem free_completes_iff_merged : ∃ s,
    Run machine anyAction ⟨(create 4096 64).get create_4096_isSome, ∅⟩ s ∧
      (s.heap.free 4096).isSome = false ∧ (s.heap.free 4112).isSome = true := by
  have hexec : ((machine.exec anyAction ⟨(create 4096 64).get create_4096_isSome, ∅⟩
      [.alloc 16, .alloc 16, .alloc 16, .free 4096]).any fun s =>
        decide (s.live = {⟨4112, 16, false⟩, ⟨4128, 16, false⟩})) = true := by
    decide +kernel
  obtain ⟨s, hs, hstate⟩ := Run.exists_of_exec hexec
  have hcreate := (Option.some_get create_4096_isSome).symm
  have hiff := free_completes_iff (.range hcreate (by decide)) hs
  rw [decide_eq_true_eq] at hstate
  refine ⟨s, hs, ?_, (hiff 4112).2 (.inr ⟨⟨4112, 16, false⟩, by simp [hstate], rfl⟩)⟩
  rw [← Bool.not_eq_true, hiff 4096]
  simp [hstate]

end Costream.SmallHeap
