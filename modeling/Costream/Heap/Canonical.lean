import Costream.Heap.Placement

/-!
# The heap is determined by its live blocks

The free blocks are the maximal runs of free bytes, whatever the order in which they came to be.
So two runs that end with the same live blocks end with the same map, the same list and the same
total.  Only the `prior` of a block that is in use depends on the past, and nothing reads it.

* `Sound.same` is the comparison of two heaps over the same range.
* `Reached` collects what it takes to go on from a state, for all constructors.
-/

namespace Costream.SmallHeap

open SmallHeap.Memory Trace

/-- The heaps cannot be told apart. -/
structure Heap.Same (h h' : Heap) : Prop where
  range : h.pool = h'.pool ∧ h.length = h'.length
  total : h.totalFree = h'.totalFree
  high : h.high = h'.high
  keys : h.memory.keys = h'.memory.keys
  len : ∀ k ∈ h.memory.keys, h.memory.len k = h'.memory.len k
  next : ∀ k ∈ h.memory.keys, h.memory.next k = h'.memory.next k
  prior : ∀ k ∈ h.memory.keys, h.memory.isfree k = true → h.memory.prior k = h'.memory.prior k

theorem Heap.Same.refl (h : Heap) : h.Same h :=
  ⟨⟨rfl, rfl⟩, rfl, rfl, rfl, fun _ _ => rfl, fun _ _ => rfl, fun _ _ _ => rfl⟩

variable {h h' : Heap} {m m' : Memory} {blocks frees blocks' frees' : List Nat}
  {taken : Nat → Nat → Prop} {k n pool stop base length : Nat} {s s' : State}

/-! ## Two heaps with the same blocks taken -/

/-- The links are those of the list. -/
theorem Shape.links (hs : Shape m pool stop blocks frees) (hs' : Shape m' pool stop blocks frees)
    (hk : k ∈ frees) : m.next k = m'.next k ∧ m.prior k = m'.prior k := by
  constructor
  · by_cases htop : k = top
    · rw [htop, hs.last, hs'.last]
    · obtain ⟨xs, b, ys, rfl⟩ := hs.split_next hk htop
      rw [hs.joined.1, hs'.joined.1]
  · by_cases hzero : k = 0
    · rw [hzero, hs.first, hs'.first]
    · obtain ⟨xs, a, ys, rfl⟩ := hs.split_prior hk hzero
      rw [hs.joined.2.1, hs'.joined.2.1]

namespace Sound

variable (hs : Sound h blocks frees taken) (hs' : Sound h' blocks' frees' taken)
  (hrange : h.pool = h'.pool ∧ h.length = h'.length)

include hs hs' hrange

/-- A free block of one is a free block of the other. -/
theorem same_free : k ∈ blocks ∧ k ∈ frees ∧ h.memory.len k = n ↔
    k ∈ blocks' ∧ k ∈ frees' ∧ h'.memory.len k = n := by
  rw [← hs.isRun_iff, ← hs'.isRun_iff, hrange.1, hrange.2]

theorem same_block : k ∈ blocks ∧ h.memory.len k = n ↔ k ∈ blocks' ∧ h'.memory.len k = n := by
  have hfree := same_free hs hs' hrange (k := k) (n := n)
  have hused := (hs.stock.taken k n).symm.trans (hs'.stock.taken k n)
  tauto

theorem same_blocks : blocks = blocks' := by
  refine hs.stock.shape.tiles.sorted.eq_of_mem_iff hs'.stock.shape.tiles.sorted fun k => ?_
  constructor
  · intro hk
    exact ((same_block hs hs' hrange).1 ⟨hk, rfl⟩).1
  · intro hk
    exact ((same_block hs hs' hrange).2 ⟨hk, rfl⟩).1

theorem same_len (hk : k ∈ blocks) : h.memory.len k = h'.memory.len k :=
  ((same_block hs hs' hrange).1 ⟨hk, rfl⟩).2.symm

theorem same_frees : frees = frees' := by
  have hshape := hs.stock.shape
  have hshape' := hs'.stock.shape
  refine hshape.sorted.eq_of_mem_iff hshape'.sorted fun k => ?_
  constructor
  · intro hk
    rcases hshape.mem_keys.1 (hshape.sub k hk) with rfl | hblock | rfl
    · exact hshape'.low
    · exact ((same_free hs hs' hrange).1 ⟨hblock, hk, rfl⟩).2.1
    · exact hshape'.high
  · intro hk
    rcases hshape'.mem_keys.1 (hshape'.sub k hk) with rfl | hblock | rfl
    · exact hshape.low
    · exact ((same_free hs hs' hrange).2 ⟨hblock, hk, rfl⟩).2.1
    · exact hshape.high

theorem same (hhigh : h.high = h'.high) : h.Same h' := by
  have hblocks := same_blocks hs hs' hrange
  have hfrees := same_frees hs hs' hrange
  subst hblocks hfrees
  have hshape := hs.stock.shape
  have hshape' := hs'.stock.shape
  rw [← hrange.1, ← hrange.2] at hshape'
  have hlen : ∀ k ∈ h.memory.keys, h.memory.len k = h'.memory.len k := by
    intro k hk
    rcases hshape.mem_keys.1 hk with rfl | hblock | rfl
    · rw [hshape.guards.1, hshape'.guards.1]
    · exact same_len hs hs' hrange hblock
    · rw [hshape.guards.2, hshape'.guards.2]
  have hkeys : h.memory.keys = h'.memory.keys := hshape.keys.trans hshape'.keys.symm
  refine ⟨hrange, ?_, hhigh, hkeys, hlen, fun k hk => ?_, fun k hk hfree => ?_⟩
  · rw [← hs.stock.total, ← hs'.stock.total]
    exact sum_congr fun k hk => hlen k (hshape.sub k hk)
  · by_cases hfree : k ∈ frees
    · exact (hshape.links hshape' hfree).1
    · rw [hs.stock.used k hk hfree, hs'.stock.used k (hkeys ▸ hk) hfree]
  · exact (hshape.links hshape' ((hshape.isfree_iff hs.stock.used hk).1 hfree)).2

end Sound

/-- The same live blocks. -/
theorem Inv.same (hi : Inv base length s) (hi' : Inv base length s') (hlive : s.live = s'.live) :
    s.heap.Same s'.heap := by
  obtain ⟨blocks, frees, hsound⟩ := hi.sound
  obtain ⟨blocks', frees', hsound'⟩ := hi'.sound
  have hhas : s.Has = s'.Has := by
    unfold State.Has
    rw [hlive]
  rw [← hhas] at hsound'
  refine hsound.same hsound' ⟨?_, ?_⟩ ?_
  · rw [hi.range.1, hi'.range.1]
  · rw [hi.range.2, hi'.range.2]
  · rw [hi.high, hi'.high, hlive]

/-! ## What a run can go on with -/

/-- What there is to say about a state that the heap `h` can come to. -/
structure Reached (h : Heap) (s : State) : Prop where
  run : Run machine anyAction ⟨h, ∅⟩ s
  unique : ∀ b ∈ s.live, ∀ b' ∈ s.live, b.ptr = b'.ptr → b = b'
  freed : ∀ b ∈ s.live, ∃ h', s.heap.free b.ptr = some h'
  fresh : ∀ (side : Side) bytes ptr h', side.alloc s.heap bytes = some (ptr, h') →
    ptr = 0 ∧ h' = s.heap ∨ ptr ≠ 0 ∧ ∀ b ∈ s.live, b.ptr ≠ ptr

/-- A heap without bytes has one state, and the others keep the invariant. -/
theorem Constructed.runs (hmade : Constructed h) :
    (h.totalFree = 0 ∧ ∀ s, Run machine anyAction ⟨h, ∅⟩ s → s = ⟨h, ∅⟩) ∨
      ∃ base length, ∀ s, Run machine anyAction ⟨h, ∅⟩ s → Inv base length s := by
  cases hmade with
  | empty => exact .inl ⟨rfl, fun s hrun => still_of_run rfl hrun⟩
  | @range base length h hcreate hwrap =>
    rcases Nat.eq_zero_or_pos length with hlen | hlen
    · have hzero := (create_sizes hcreate).2.trans hlen
      exact .inl ⟨hzero, fun s hrun => still_of_run hzero hrun⟩
    · exact .inr ⟨base, length, fun s hrun => inv_of_run hcreate hlen hwrap hrun⟩

theorem Inv.reached (hi : Inv base length s) (hrun : Run machine anyAction ⟨h, ∅⟩ s) :
    Reached h s := by
  refine ⟨hrun, hi.unique, fun b hb => ?_, fun side bytes ptr h' halloc => ?_⟩
  · obtain ⟨h', hfree, -⟩ := hi.freed ⟨b, hb, rfl⟩
    exact ⟨h', hfree⟩
  · obtain ⟨blocks, frees, hsound⟩ := hi.sound
    have hgiven : Sound.Given s.Has bytes s.heap h' ptr := by
      cases side with
      | low =>
        obtain ⟨ptr', h'', heq, -, hgiven, -⟩ := hsound.alloc bytes
        have hsame : some (ptr', h'') = some (ptr, h') := heq.symm.trans halloc
        cases hsame
        exact hgiven
      | high =>
        obtain ⟨ptr', h'', heq, -, hgiven, -⟩ := hsound.allocHigh bytes
        have hsame : some (ptr', h'') = some (ptr, h') := heq.symm.trans halloc
        cases hsame
        exact hgiven
    rcases hgiven with hnull | ⟨hne, hfresh, -⟩
    · exact .inl hnull
    · refine .inr ⟨hne, fun b hb heq => hfresh b.bytes ⟨b.high, ?_⟩⟩
      rw [← heq]
      exact hb

theorem Constructed.reached (hmade : Constructed h) (hrun : Run machine anyAction ⟨h, ∅⟩ s) :
    Reached h s := by
  rcases hmade.runs with ⟨hzero, hstill⟩ | ⟨base, length, hinv⟩
  · have hs := hstill s hrun
    subst hs
    refine ⟨hrun, by simp, by simp, fun side bytes ptr h' halloc => ?_⟩
    rw [alloc_none hzero, Option.some.injEq, Prod.mk.injEq] at halloc
    exact .inl ⟨halloc.1.symm, halloc.2.symm⟩
  · exact (hinv s hrun).reached hrun

/-- Two runs with the same live blocks at the end. -/
theorem Constructed.same (hmade : Constructed h) (hrun : Run machine anyAction ⟨h, ∅⟩ s)
    (hrun' : Run machine anyAction ⟨h, ∅⟩ s') (hlive : s.live = s'.live) : s.heap.Same s'.heap := by
  rcases hmade.runs with ⟨hzero, hstill⟩ | ⟨base, length, hinv⟩
  · rw [hstill s hrun, hstill s' hrun']
    exact .refl h
  · exact (hinv s hrun).same (hinv s' hrun') hlive

namespace Reached

variable {b b' : Block} {bytes ptr : Nat} {side : Side}

/-- A live block is freed. -/
theorem free (hr : Reached h s) (hb : b ∈ s.live) (hfree : s.heap.free b.ptr = some h') :
    Run machine anyAction ⟨h, ∅⟩ ⟨h', s.live.filter (·.ptr ≠ b.ptr)⟩ := by
  refine hr.run.tail (a := .free b.ptr) ⟨b, hb, rfl⟩ trivial ?_
  show SmallHeap.step s (.free b.ptr) = _
  rw [SmallHeap.step, hfree]
  rfl

theorem alloc (hr : Reached h s) (halloc : side.alloc s.heap bytes = some (ptr, h')) :
    ∃ high, Run machine anyAction ⟨h, ∅⟩ (s.got bytes high ptr h') := by
  cases side with
  | low =>
    refine ⟨false, hr.run.tail (a := .alloc bytes) trivial trivial ?_⟩
    have heq : s.heap.alloc bytes = some (ptr, h') := halloc
    show SmallHeap.step s (.alloc bytes) = _
    rw [SmallHeap.step, heq]
    rfl
  | high =>
    refine ⟨true, hr.run.tail (a := .allocHigh bytes) trivial trivial ?_⟩
    have heq : s.heap.allocHigh bytes = some (ptr, h') := halloc
    show SmallHeap.step s (.allocHigh bytes) = _
    rw [SmallHeap.step, heq]
    rfl

/-- What has just been given out is freed: the live blocks are as before. -/
theorem filter_got (hfresh : ∀ b ∈ s.live, b.ptr ≠ ptr) (bytes : Nat) (high : Bool) :
    (insert (⟨ptr, bytes, high⟩ : Block) s.live).filter (·.ptr ≠ ptr) = s.live := by
  rw [Finset.filter_insert, if_neg (by simp), Finset.filter_eq_self]
  exact hfresh

theorem undo (hmade : Constructed h) (hr : Reached h s)
    (halloc : side.alloc s.heap bytes = some (ptr, h')) :
    ∃ h'', h'.free ptr = some h'' ∧ h''.Same s.heap := by
  rcases hr.fresh side bytes ptr h' halloc with ⟨rfl, rfl⟩ | ⟨hne, hfresh⟩
  · exact ⟨s.heap, rfl, .refl _⟩
  · obtain ⟨high, hrun⟩ := hr.alloc halloc
    have hlive : (s.got bytes high ptr h').live = insert ⟨ptr, bytes, high⟩ s.live := if_neg hne
    have hr' := hmade.reached hrun
    have hmem : (⟨ptr, bytes, high⟩ : Block) ∈ (s.got bytes high ptr h').live := by
      rw [hlive]
      exact Finset.mem_insert_self _ _
    obtain ⟨h'', hfree⟩ := hr'.freed _ hmem
    refine ⟨h'', hfree, hmade.same (hr'.free hmem hfree) hr.run ?_⟩
    rw [hlive]
    exact filter_got hfresh bytes high

/-- What is live is still live when another block has been freed. -/
theorem mem_freed (hr : Reached h s) (hb : b ∈ s.live) (hb' : b' ∈ s.live) (hne : b ≠ b') :
    b' ∈ s.live.filter (·.ptr ≠ b.ptr) := by
  rw [Finset.mem_filter]
  exact ⟨hb', fun heq => hne (hr.unique b hb b' hb' heq.symm)⟩

theorem commute (hmade : Constructed h) (hr : Reached h s) (hb : b ∈ s.live) (hb' : b' ∈ s.live)
    (hne : b ≠ b') : ∃ h₁ h₂ h₁₂ h₂₁, s.heap.free b.ptr = some h₁ ∧ h₁.free b'.ptr = some h₁₂ ∧
      s.heap.free b'.ptr = some h₂ ∧ h₂.free b.ptr = some h₂₁ ∧ h₁₂.Same h₂₁ := by
  obtain ⟨h₁, hfree₁⟩ := hr.freed b hb
  obtain ⟨h₂, hfree₂⟩ := hr.freed b' hb'
  have hr₁ := hmade.reached (hr.free hb hfree₁)
  have hr₂ := hmade.reached (hr.free hb' hfree₂)
  have hmem₁ := hr.mem_freed hb hb' hne
  have hmem₂ := hr.mem_freed hb' hb hne.symm
  obtain ⟨h₁₂, hfree₁₂⟩ := hr₁.freed b' hmem₁
  obtain ⟨h₂₁, hfree₂₁⟩ := hr₂.freed b hmem₂
  refine ⟨h₁, h₂, h₁₂, h₂₁, hfree₁, hfree₁₂, hfree₂, hfree₂₁,
    hmade.same (hr₁.free hmem₁ hfree₁₂) (hr₂.free hmem₂ hfree₂₁) ?_⟩
  exact Finset.filter_comm _ _ _

/-- The blocks of `l`, which are all that are live, are freed in that order. -/
theorem freeAll (hmade : Constructed h) (hr : Reached h s) {l : List Block} (hnd : l.Nodup)
    (hl : l.toFinset = s.live) :
    ∃ h', (l.map Block.ptr).foldlM Heap.free s.heap = some h' ∧ h'.Same h := by
  induction l generalizing s with
  | nil =>
    have hstart : Run machine anyAction ⟨h, ∅⟩ ⟨h, ∅⟩ := .refl
    exact ⟨s.heap, rfl, hmade.same hr.run hstart hl.symm⟩
  | cons b l ih =>
    obtain ⟨hout, hnd'⟩ := List.nodup_cons.1 hnd
    have hmem : ∀ b' ∈ l, b' ∈ s.live := by
      intro b' hb'
      rw [← hl]
      simp [hb']
    have hb : b ∈ s.live := by
      rw [← hl]
      simp
    obtain ⟨h₁, hfree⟩ := hr.freed b hb
    have hrest : l.toFinset = s.live.filter (·.ptr ≠ b.ptr) := by
      rw [← hl, List.toFinset_cons, Finset.filter_insert, if_neg (by simp)]
      refine (Finset.filter_eq_self.2 fun b' hb' heq => ?_).symm
      have hb'' := List.mem_toFinset.1 hb'
      exact hout (hr.unique b' (hmem b' hb'') b hb heq ▸ hb'')
    obtain ⟨h', hfold, hsame⟩ := ih (hmade.reached (hr.free hb hfree)) hnd' hrest
    refine ⟨h', ?_, hsame⟩
    rw [List.map_cons, List.foldlM_cons, hfree]
    exact hfold

end Reached

/-! ## The result -/

/-- In every state that allocations and releases can reach. -/
theorem heap_canonical (hmade : Constructed h) (hrun : Run machine anyAction ⟨h, ∅⟩ s) :
    (∀ s', Run machine anyAction ⟨h, ∅⟩ s' → s.live = s'.live → s.heap.Same s'.heap) ∧
    (∀ (side : Side) bytes ptr h', side.alloc s.heap bytes = some (ptr, h') →
      ∃ h'', h'.free ptr = some h'' ∧ h''.Same s.heap) ∧
    (∀ b ∈ s.live, ∀ b' ∈ s.live, b ≠ b' →
      ∃ h₁ h₂ h₁₂ h₂₁, s.heap.free b.ptr = some h₁ ∧ h₁.free b'.ptr = some h₁₂ ∧
        s.heap.free b'.ptr = some h₂ ∧ h₂.free b.ptr = some h₂₁ ∧ h₁₂.Same h₂₁) ∧
    ∀ l : List Block, l.Nodup → l.toFinset = s.live →
      ∃ h', (l.map Block.ptr).foldlM Heap.free s.heap = some h' ∧ h'.Same h := by
  have hr := hmade.reached hrun
  refine ⟨fun s' hrun' hlive => hmade.same hrun hrun' hlive, fun side bytes ptr h' halloc => ?_,
    fun b hb b' hb' hne => ?_, fun l hnd hl => ?_⟩
  · exact hr.undo hmade halloc
  · exact hr.commute hmade hb hb' hne
  · exact hr.freeAll hmade hnd hl

/-- The blocks on both sides of one that stays are freed, in either order. -/
theorem heap_canonical_merged : ∃ s s',
    Run machine anyAction ⟨(create 4096 64).get create_4096_isSome, ∅⟩ s ∧
      Run machine anyAction ⟨(create 4096 64).get create_4096_isSome, ∅⟩ s' ∧
      s.live = s'.live ∧ s.heap.memory.inner = [4096, 4112, 4128] ∧ s.heap.Same s'.heap := by
  have hexec : ((machine.exec anyAction ⟨(create 4096 64).get create_4096_isSome, ∅⟩
      [.alloc 16, .alloc 16, .alloc 16, .free 4096, .free 4128]).any fun s =>
        decide (s.live = {⟨4112, 16, false⟩} ∧ s.heap.memory.inner = [4096, 4112, 4128])) = true := by
    decide +kernel
  have hexec' : ((machine.exec anyAction ⟨(create 4096 64).get create_4096_isSome, ∅⟩
      [.alloc 16, .alloc 16, .allocHigh 16, .free 4144, .free 4096]).any fun s =>
        decide (s.live = {⟨4112, 16, false⟩})) = true := by
    decide +kernel
  obtain ⟨s, hs, hstate⟩ := Run.exists_of_exec hexec
  obtain ⟨s', hs', hstate'⟩ := Run.exists_of_exec hexec'
  rw [decide_eq_true_eq] at hstate hstate'
  have hcreate := (Option.some_get create_4096_isSome).symm
  have hlive := hstate.1.trans hstate'.symm
  have hcanonical := heap_canonical (.range hcreate (by decide)) hs
  exact ⟨s, s', hs, hs', hlive, hstate.2, hcanonical.1 s' hs' hlive⟩

end Costream.SmallHeap
