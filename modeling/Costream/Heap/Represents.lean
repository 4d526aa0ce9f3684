import Mathlib.Data.Finset.Basic
import Costream.Heap.Operations

/-!
# The representation of the heap

`Represents` says what the map, the list, the running total and `high` are in terms of the blocks
that the user has got and not freed.  It holds in every run, and no operation in a run fails an
assertion or goes on for ever.
-/

namespace Costream.SmallHeap

open SmallHeap.Memory Trace

/-- The entries that are not guards. -/
def Memory.inner (m : Memory) : List Nat := m.keys.tail.dropLast

/-- The entries that are free, with the guards. -/
def Memory.freelist (m : Memory) : List Nat := m.keys.filter m.isfree

structure Represents (base length : Nat) (s : State) : Prop where
  range : s.heap.pool = base ∧ s.heap.length = length
  guards : s.heap.memory.keys = 0 :: (s.heap.memory.inner ++ [top])
  tiles : Tiles s.heap.memory.len base (base + length) s.heap.memory.inner
  free : s.heap.memory.freelist =
    0 :: (s.heap.memory.inner.filter s.heap.memory.isfree ++ [top])
  increasing : s.heap.memory.freelist.Pairwise (· < ·)
  linked : Chain .entry s.heap.memory.next s.heap.memory.prior s.heap.memory.freelist
  ends : s.heap.memory.prior 0 = .past ∧ s.heap.memory.next top = .past
  compact : ∀ a ∈ s.heap.memory.inner, ∀ b ∈ s.heap.memory.inner, s.heap.memory.isfree a = true →
    s.heap.memory.isfree b = true → a + s.heap.memory.len a ≠ b
  total : s.heap.totalFree =
    ((s.heap.memory.inner.filter s.heap.memory.isfree).map s.heap.memory.len).sum
  high : s.heap.high = insert top ((s.live.filter (·.high = true)).image Block.ptr)
  live : ∀ ptr bytes, (∃ high, ⟨ptr, bytes, high⟩ ∈ s.live) ↔
    ptr ∈ s.heap.memory.inner ∧ s.heap.memory.isfree ptr = false ∧ s.heap.memory.len ptr = bytes

/-! ## The invariant -/

/-- The user has the block at `ptr`, of `bytes` bytes. -/
def State.Has (s : State) (ptr bytes : Nat) : Prop := ∃ high, ⟨ptr, bytes, high⟩ ∈ s.live

structure Inv (base length : Nat) (s : State) : Prop where
  range : s.heap.pool = base ∧ s.heap.length = length
  sound : ∃ blocks frees, Sound s.heap blocks frees s.Has
  unique : ∀ b ∈ s.live, ∀ b' ∈ s.live, b.ptr = b'.ptr → b = b'
  high : s.heap.high = insert top ((s.live.filter (·.high = true)).image Block.ptr)

variable {base length : Nat} {s : State} {ptr bytes : Nat} {h h' : Heap}

theorem Sound.of_iff {blocks frees : List Nat} {taken taken' : Nat → Nat → Prop}
    (hs : Sound h blocks frees taken) (hiff : ∀ k n, taken' k n ↔ taken k n) :
    Sound h blocks frees taken' :=
  ⟨⟨hs.stock.shape, hs.stock.used, hs.stock.total, fun k n => (hiff k n).trans (hs.stock.taken k n)⟩,
    hs.apart⟩

theorem Shape.inner_eq {m : Memory} {pool stop : Nat} {blocks frees : List Nat}
    (h : Shape m pool stop blocks frees) : m.inner = blocks := by
  unfold Memory.inner
  rw [h.keys, List.tail_cons, List.dropLast_concat]

/-- No free block follows on another. -/
theorem Sound.compact {blocks frees : List Nat} {taken : Nat → Nat → Prop}
    (hs : Sound h blocks frees taken) {a b : Nat} (ha : a ∈ frees) (hb : b ∈ frees)
    (hpos : 0 < h.memory.len a) : a + h.memory.len a ≠ b := by
  have happart : frees.Pairwise fun x y => x + h.memory.len x < y := by
    have : IsTrans Nat fun x y => x + h.memory.len x < y := ⟨fun x y z hxy hyz => by omega⟩
    exact List.isChain_iff_pairwise.1 hs.apart
  obtain ⟨xs, ys, hsplit⟩ := List.append_of_mem ha
  rw [hsplit] at happart hb
  intro heq
  rcases List.mem_append.1 hb with hb | hb
  · have := (List.pairwise_append.1 happart).2.2 b hb a (by simp)
    omega
  · rcases List.mem_cons.1 hb with hb | hb
    · omega
    · have := (List.pairwise_cons.1 (List.pairwise_append.1 happart).2.1).1 b hb
      omega

theorem Inv.represents (hi : Inv base length s) : Represents base length s := by
  obtain ⟨blocks, frees, hsound⟩ := hi.sound
  obtain ⟨hpool, hlength⟩ := hi.range
  have hshape := hsound.stock.shape
  have hused := hsound.stock.used
  obtain ⟨m, hm⟩ : ∃ m, m = s.heap.memory := ⟨_, rfl⟩
  rw [← hm] at hshape hused
  have hinner : m.inner = blocks := hshape.inner_eq
  have hfree : m.freelist = frees := by
    have hsorted : m.freelist.Pairwise (· < ·) := m.sorted.filter _
    refine hsorted.eq_of_mem_iff hshape.sorted fun k => ?_
    rw [Memory.freelist, List.mem_filter]
    exact ⟨fun hk => (hshape.isfree_iff hused hk.1).1 hk.2,
      fun hk => ⟨hshape.sub k hk, (hshape.isfree_iff hused (hshape.sub k hk)).2 hk⟩⟩
  have hzero : m.isfree 0 = true := by
    have hlow := hshape.low
    rw [← hfree] at hlow
    exact (List.mem_filter.1 hlow).2
  have htop : m.isfree top = true := by
    have hhigh := hshape.high
    rw [← hfree] at hhigh
    exact (List.mem_filter.1 hhigh).2
  have hsplit : m.freelist = 0 :: (m.inner.filter m.isfree ++ [top]) := by
    rw [Memory.freelist, hshape.keys, List.filter_cons, if_pos hzero, List.filter_append, hinner]
    simp [htop]
  have hmem : ∀ k ∈ blocks, (m.isfree k = true ↔ k ∈ frees) := fun k hk =>
    hshape.isfree_iff hused (hshape.mem_keys.2 (.inr (.inl hk)))
  rw [hpool, hlength] at hshape
  refine ⟨hi.range, ?_, ?_, ?_, ?_, ?_, ?_, ?_, ?_, hi.high, ?_⟩ <;> rw [← hm]
  · rw [hinner]
    exact hshape.keys
  · rw [hinner]
    exact hshape.tiles
  · exact hsplit
  · exact m.sorted.filter _
  · rw [hfree]
    exact hshape.chain
  · exact ⟨hshape.first, hshape.last⟩
  · intro a ha b hb hfa hfb
    rw [hinner] at ha hb
    have hpos := (hshape.bounds ha).2.1
    rw [hm] at hpos ⊢
    exact hsound.compact ((hmem a ha).1 hfa) ((hmem b hb).1 hfb) hpos
  · have htotal := hsound.stock.total
    rw [← hm, ← hfree, hsplit] at htotal
    simp only [List.map_cons, List.map_append, List.sum_cons, List.sum_append, List.map_nil,
      List.sum_nil, hshape.guards.1, hshape.guards.2] at htotal
    omega
  · intro ptr bytes
    rw [hinner]
    refine (hsound.stock.taken ptr bytes).trans ?_
    rw [← hm]
    refine and_congr_right fun hk => and_congr_left fun _ => ?_
    rw [← hmem ptr hk, Bool.not_eq_true]

/-! ## Every step keeps it -/

/-- A block has been given out, or nothing has happened. -/
theorem Inv.given (hi : Inv base length s) (high : Bool)
    (hgiven : Sound.Given s.Has bytes s.heap h' ptr)
    (hhigh : h'.high = if high = true ∧ ptr ≠ 0 then insert ptr s.heap.high else s.heap.high) :
    Inv base length (s.got bytes high ptr h') := by
  rcases hgiven with ⟨rfl, rfl⟩ | ⟨hne, hfresh, hpool, hlength, blocks, frees, hsound⟩
  · exact ⟨hi.range, hi.sound, hi.unique, hi.high⟩
  · have hlive : (s.got bytes high ptr h').live = insert ⟨ptr, bytes, high⟩ s.live := if_neg hne
    refine ⟨⟨hpool.trans hi.range.1, hlength.trans hi.range.2⟩, ⟨blocks, frees, ?_⟩, ?_, ?_⟩
    · refine hsound.of_iff fun k n => ?_
      unfold State.Has
      rw [hlive]
      simp only [Finset.mem_insert, Block.mk.injEq]
      constructor
      · rintro ⟨hi', ⟨hk, hn, -⟩ | hmem⟩
        · exact .inr ⟨hk, hn⟩
        · exact .inl ⟨hi', hmem⟩
      · rintro (⟨hi', hmem⟩ | ⟨hk, hn⟩)
        · exact ⟨hi', .inr hmem⟩
        · exact ⟨high, .inl ⟨hk, hn, rfl⟩⟩
    · rw [hlive]
      have hout : ∀ b ∈ s.live, b.ptr ≠ ptr := by
        intro b hb heq
        exact hfresh b.bytes ⟨b.high, by rw [← heq]; exact hb⟩
      intro b hb b' hb' heq
      rw [Finset.mem_insert] at hb hb'
      rcases hb with rfl | hb
      · rcases hb' with rfl | hb'
        · rfl
        · exact absurd heq.symm (hout b' hb')
      · rcases hb' with rfl | hb'
        · exact absurd heq (hout b hb)
        · exact hi.unique b hb b' hb' heq
    · show h'.high = _
      rw [hlive, hhigh, hi.high, Finset.filter_insert]
      cases high with
      | false => simp
      | true =>
        rw [if_pos ⟨rfl, hne⟩, if_pos rfl, Finset.image_insert, Finset.insert_comm]

theorem Inv.freed (hi : Inv base length s) (hlive : ∃ b ∈ s.live, b.ptr = ptr) :
    ∃ h', s.heap.free ptr = some h' ∧
      Inv base length ⟨h', s.live.filter (·.ptr ≠ ptr)⟩ := by
  obtain ⟨b, hb, rfl⟩ := hlive
  obtain ⟨blocks, frees, hsound⟩ := hi.sound
  have hhas : s.Has b.ptr b.bytes := ⟨b.high, hb⟩
  have hbounds := hsound.stock.shape.bounds ((hsound.stock.taken _ _).1 hhas).1
  obtain ⟨h', hfree, hhigh, hpool, hlength, blocks', frees', hsound'⟩ := hsound.free hhas
  refine ⟨h', hfree, ⟨hpool.trans hi.range.1, hlength.trans hi.range.2⟩, ⟨blocks', frees', ?_⟩, ?_, ?_⟩
  · refine hsound'.of_iff fun k n => ?_
    unfold State.Has
    simp only [Finset.mem_filter]
    exact ⟨fun ⟨hi', hmem, hne⟩ => ⟨⟨hi', hmem⟩, hne⟩, fun ⟨⟨hi', hmem⟩, hne⟩ => ⟨hi', hmem, hne⟩⟩
  · intro b₁ hb₁ b₂ hb₂
    exact hi.unique b₁ (Finset.mem_filter.1 hb₁).1 b₂ (Finset.mem_filter.1 hb₂).1
  · show h'.high = _
    rw [hhigh, hi.high, Finset.erase_insert_of_ne (by omega)]
    congr 1
    ext k
    simp only [Finset.mem_erase, Finset.mem_image, Finset.mem_filter]
    constructor
    · rintro ⟨hne, b', ⟨hb', hh⟩, rfl⟩
      exact ⟨b', ⟨⟨hb', hne⟩, hh⟩, rfl⟩
    · rintro ⟨b', ⟨⟨hb', hne⟩, hh⟩, rfl⟩
      exact ⟨hne, b', ⟨hb', hh⟩, rfl⟩

/-- No action faults, and each keeps the invariant. -/
theorem Inv.step (hi : Inv base length s) {a : Action} (he : Enabled s a) :
    ∃ s', step s a = some s' ∧ Inv base length s' := by
  obtain ⟨blocks, frees, hsound⟩ := hi.sound
  cases a with
  | alloc bytes =>
    obtain ⟨ptr, h', halloc, hhigh, hgiven, -⟩ := hsound.alloc bytes
    refine ⟨_, by rw [SmallHeap.step, halloc]; rfl, hi.given false hgiven ?_⟩
    rw [hhigh, if_neg (by simp)]
  | allocHigh bytes =>
    obtain ⟨ptr, h', halloc, hhigh, hgiven, -⟩ := hsound.allocHigh bytes
    refine ⟨_, by rw [SmallHeap.step, halloc]; rfl, hi.given true hgiven ?_⟩
    rw [hhigh]
    by_cases hptr : ptr = 0
    · rw [if_pos hptr, if_neg (by simp [hptr])]
    · rw [if_neg hptr, if_pos ⟨rfl, hptr⟩]
  | free ptr =>
    obtain ⟨h', hfree, hi'⟩ := hi.freed he
    exact ⟨_, by rw [SmallHeap.step, hfree]; rfl, hi'⟩

/-! ## The constructor -/

/-- One free block between the two guards. -/
theorem stock_created {m : Memory} (hbase : 0 < base) (htop : base + length < top)
    (hlen : 0 < length) (hkeys : m.keys = [0, base, top])
    (hlens : m.len 0 = 0 ∧ m.len base = length ∧ m.len top = 0)
    (hnext : m.next 0 = .entry base ∧ m.next base = .entry top ∧ m.next top = .past)
    (hprior : m.prior 0 = .past ∧ m.prior base = .entry 0 ∧ m.prior top = .entry base) :
    Stock m base (base + length) [base] [0, base, top] length (fun _ _ => False) ∧
      Apart m.len [0, base, top] := by
  obtain ⟨hlen0, hlenb, hlent⟩ := hlens
  obtain ⟨hnext0, hnextb, hnextt⟩ := hnext
  obtain ⟨hprior0, hpriorb, hpriort⟩ := hprior
  have hshape : Shape m base (base + length) [base] [0, base, top] := by
    refine ⟨hbase, htop, hkeys, ⟨rfl, by omega, ?_⟩, fun k hk => by rwa [hkeys], ?_, by simp, by simp,
      ?_, hprior0, hnextt, hlen0, hlent⟩
    · show base + m.len base = base + length
      rw [hlenb]
    · exact List.isChain_cons_cons.2 ⟨hbase, List.isChain_cons_cons.2
        ⟨by omega, List.isChain_singleton top⟩⟩
    · exact List.isChain_cons_cons.2 ⟨⟨hnext0, hpriorb⟩, List.isChain_cons_cons.2
        ⟨⟨hnextb, hpriort⟩, List.isChain_singleton top⟩⟩
  refine ⟨⟨hshape, fun k hk hout => absurd (hkeys ▸ hk) hout, ?_, fun k n => ?_⟩, ?_⟩
  · simp [hlen0, hlenb, hlent]
  · simp only [List.mem_cons, List.not_mem_nil, or_false]
    tauto
  · refine List.isChain_cons_cons.2 ⟨?_, List.isChain_cons_cons.2
      ⟨?_, List.isChain_singleton top⟩⟩
    · omega
    · omega

/-- The map that the constructor makes. -/
theorem create_memory (hbase : base ≠ 0) (htop : base + length < top) :
    ∃ m, create base length = some ⟨base, length, length, m, {top}⟩ ∧ m.keys = [0, base, top] ∧
      (m.len 0 = 0 ∧ m.len base = length ∧ m.len top = 0) ∧
      (m.next 0 = .entry base ∧ m.next base = .entry top ∧ m.next top = .past) ∧
      (m.prior 0 = .past ∧ m.prior base = .entry 0 ∧ m.prior top = .entry base) := by
  have hbt : base ≠ top := by omega
  have h0t : (0 : Nat) ≠ top := by decide
  have hmod : (base + length) % 2 ^ 64 ≠ top := by
    rw [Nat.mod_eq_of_lt (by unfold top at htop; omega)]
    omega
  obtain ⟨m₀, hm₀⟩ : ∃ m₀ : Memory,
    m₀ = ⟨[], fun _ => ⟨0, .singular, .singular⟩, List.Pairwise.nil⟩ := ⟨_, rfl⟩
  have hkeys₀ : ∀ k, k ∉ m₀.keys := by
    intro k
    rw [hm₀]
    exact List.not_mem_nil
  have hkeys₁ : ∀ k, k ∈ (m₀.index 0).keys ↔ k = 0 := by
    intro k
    rw [mem_index (hkeys₀ 0)]
    exact or_iff_left (hkeys₀ k)
  have hkeys₂ : ∀ k, k ∈ ((m₀.index 0).index base).keys ↔ k = base ∨ k = 0 := by
    intro k
    rw [mem_index (by rw [hkeys₁]; exact hbase), hkeys₁]
  obtain ⟨m₃, hm₃⟩ : ∃ m₃, m₃ = ((m₀.index 0).index base).index top := ⟨_, rfl⟩
  have hkeys₃ : m₃.keys = [0, base, top] := by
    refine keys_eq ?_ fun k => ?_
    · simp only [List.pairwise_cons, List.mem_cons, List.not_mem_nil, or_false]
      refine ⟨?_, ?_, by simp⟩
      · rintro k (rfl | rfl) <;> omega
      · rintro k rfl
        omega
    · rw [hm₃, mem_index (by rw [hkeys₂]; omega), hkeys₂]
      simp only [List.mem_cons, List.not_mem_nil, or_false]
      tauto
  have hbegin : m₃.begin = .entry 0 := by
    rw [begin, hkeys₃]
    rfl
  have hfind : m₃.find base = .entry base := by
    rw [find, hkeys₃, if_pos (by simp)]
  unfold create
  simp only [guard, hbase, hbt, hmod, ne_eq, not_false_eq_true, reduceIte, Option.bind_eq_bind,
    Option.bind_some, Option.pure_def, ← hm₀, ← hm₃, hfind, setLen_begin, setNext_begin,
    setPrior_begin, hbegin]
  refine ⟨_, rfl, hkeys₃, ⟨?_, ?_, ?_⟩, ⟨?_, ?_, ?_⟩, ?_, ?_, ?_⟩
  all_goals simp [hbt, h0t, Ne.symm hbase]

theorem create_spec (hbase : base ≠ 0) (htop : base + length < top) (hlen : 0 < length) :
    ∃ m, create base length = some ⟨base, length, length, m, {top}⟩ ∧
      Stock m base (base + length) [base] [0, base, top] length (fun _ _ => False) ∧
      Apart m.len [0, base, top] := by
  obtain ⟨m, hm, hkeys, hlens, hnext, hprior⟩ := create_memory hbase htop
  exact ⟨m, hm, stock_created (by omega) htop hlen hkeys hlens hnext hprior⟩

/-- What the constructor asserts about the range. -/
theorem create_asserts (hcreate : create base length = some h) (hwrap : base + length < 2 ^ 64) :
    base ≠ 0 ∧ base + length < top := by
  have hassert : base ≠ 0 ∧ (base + length) % 2 ^ 64 ≠ top := by
    unfold create at hcreate
    generalize (base + length) % 2 ^ 64 = last at hcreate ⊢
    simp only [guard, Option.bind_eq_bind] at hcreate
    constructor
    · intro hbase
      simp [hbase] at hcreate
    · intro hend
      simp [hend] at hcreate
  obtain ⟨hbase, hend⟩ := hassert
  rw [Nat.mod_eq_of_lt hwrap] at hend
  refine ⟨hbase, ?_⟩
  unfold top at hend ⊢
  omega

theorem inv_create (hcreate : create base length = some h) (hlen : 0 < length)
    (hwrap : base + length < 2 ^ 64) : Inv base length ⟨h, ∅⟩ := by
  obtain ⟨hbase, htop⟩ := create_asserts hcreate hwrap
  obtain ⟨m, hm, hstock, happart⟩ := create_spec hbase htop hlen
  rw [hm, Option.some.injEq] at hcreate
  subst hcreate
  refine ⟨⟨rfl, rfl⟩, ⟨[base], [0, base, top], ?_⟩, by simp, by simp⟩
  refine Sound.of_iff ⟨hstock, happart⟩ fun k n => ?_
  simp [State.Has]

/-- A heap without bytes stays as it is. -/
theorem still_of_run (hzero : h.totalFree = 0) {ok : State → Action → Prop}
    (hrun : Run machine ok ⟨h, ∅⟩ s) : s = ⟨h, ∅⟩ := by
  refine hrun.invariant (P := fun s => s = ⟨h, ∅⟩) rfl fun t a u ht he _ hs => ?_
  have hnone : ∀ bytes, bytes > h.totalFree ∨ bytes = 0 := by
    rw [hzero]
    omega
  subst ht
  cases a with
  | alloc bytes =>
    have halloc : h.alloc bytes = some (0, h) := if_pos (hnone bytes)
    have hstep : SmallHeap.step ⟨h, ∅⟩ (.alloc bytes) = some u := hs
    rw [SmallHeap.step, halloc, Option.map_some, Option.some.injEq] at hstep
    exact hstep.symm
  | allocHigh bytes =>
    have halloc : h.allocHigh bytes = some (0, h) := if_pos (hnone bytes)
    have hstep : SmallHeap.step ⟨h, ∅⟩ (.allocHigh bytes) = some u := hs
    rw [SmallHeap.step, halloc, Option.map_some, Option.some.injEq] at hstep
    exact hstep.symm
  | free ptr =>
    obtain ⟨b, hb, -⟩ := he
    exact absurd hb (Finset.notMem_empty b)

/-! ## The result -/

theorem inv_of_run (hcreate : create base length = some h) (hlen : 0 < length)
    (hwrap : base + length < 2 ^ 64) {ok : State → Action → Prop}
    (hrun : Run machine ok ⟨h, ∅⟩ s) : Inv base length s := by
  refine hrun.invariant (inv_create hcreate hlen hwrap) fun t a u ht he _ hs => ?_
  obtain ⟨u', hu', hi⟩ := ht.step he
  have heq : some u' = some u := hu'.symm.trans hs
  exact Option.some.inj heq ▸ hi

/-- In every run of allocations and releases of live blocks, the representation is as it
should be, and no operation faults. -/
theorem heap_represented (hcreate : create base length = some h) (hlen : 0 < length)
    (hwrap : base + length < 2 ^ 64) (hrun : Run machine anyAction ⟨h, ∅⟩ s) :
    Represents base length s ∧ ∀ a, machine.enabled s a → (machine.step s a).isSome = true := by
  have hi := inv_of_run hcreate hlen hwrap hrun
  refine ⟨hi.represents, fun a he => ?_⟩
  obtain ⟨s', hs', -⟩ := hi.step he
  exact Option.isSome_iff_exists.2 ⟨s', hs'⟩

instance (s : State) (a : Action) : Decidable (machine.enabled s a) :=
  inferInstanceAs (Decidable (Enabled s a))

/-- Blocks are taken from both ends, and the lower one is freed and merged again. -/
theorem heap_represented_reused : ∃ s,
    Run machine anyAction ⟨(create 4096 64).get create_4096_isSome, ∅⟩ s ∧
      decide (s.heap.totalFree = 40 ∧ ⟨4144, 16, true⟩ ∈ s.live ∧
        s.heap.memory.inner = [4096, 4104, 4144]) = true ∧ Represents 4096 64 s := by
  have hexec : ((machine.exec anyAction ⟨(create 4096 64).get create_4096_isSome, ∅⟩
      [.alloc 16, .allocHigh 16, .alloc 100, .free 4096, .alloc 8]).any fun s =>
        decide (s.heap.totalFree = 40 ∧ ⟨4144, 16, true⟩ ∈ s.live ∧
          s.heap.memory.inner = [4096, 4104, 4144])) = true := by
    decide +kernel
  obtain ⟨s, hs, hstate⟩ := Run.exists_of_exec hexec
  have hcreate := (Option.some_get create_4096_isSome).symm
  exact ⟨s, hs, hstate, (heap_represented hcreate (by decide) (by decide) hs).1⟩

end Costream.SmallHeap
