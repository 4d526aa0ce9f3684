import Costream.Heap.Links
import Costream.Heap.Tiles

/-!
# The shape of the map

`Shape m pool stop blocks frees`: between the two guards, the entries of the map are blocks that
fill the range from `pool` to `stop`, and `frees` is the list that starts at the first guard and
ends at the last one.  What is not in the list is in use, `Used`; no free block follows on another,
`Apart`.

The operations on the list are followed one by one: what they need of the shape, and the
shape they leave.
-/

namespace Costream.SmallHeap

open SmallHeap.Memory

structure Shape (m : Memory) (pool stop : Nat) (blocks frees : List Nat) : Prop where
  base : 0 < pool
  room : stop < top
  keys : m.keys = 0 :: (blocks ++ [top])
  tiles : Tiles m.len pool stop blocks
  sub : ∀ k ∈ frees, k ∈ m.keys
  order : frees.IsChain (· < ·)
  low : 0 ∈ frees
  high : top ∈ frees
  chain : Chain .entry m.next m.prior frees
  first : m.prior 0 = .past
  last : m.next top = .past
  guards : m.len 0 = 0 ∧ m.len top = 0

/-- Blocks that are not in the list are in use. -/
def Used (m : Memory) (frees : List Nat) : Prop :=
  ∀ k ∈ m.keys, k ∉ frees → m.next k = .entry 0

/-- Neighbours in the list do not touch. -/
def Apart (len : Nat → Nat) (frees : List Nat) : Prop := frees.IsChain fun x y => x + len x < y

variable {m : Memory} {pool stop : Nat} {blocks frees xs ys : List Nat} {a b k p q x : Nat}

namespace Shape

theorem mem_keys (h : Shape m pool stop blocks frees) :
    k ∈ m.keys ↔ k = 0 ∨ k ∈ blocks ∨ k = top := by
  rw [h.keys]
  simp

theorem begin_eq (h : Shape m pool stop blocks frees) : m.begin = .entry 0 := by
  rw [begin, h.keys]
  rfl

theorem bounds (h : Shape m pool stop blocks frees) (hk : k ∈ blocks) :
    0 < k ∧ 0 < m.len k ∧ k + m.len k ≤ stop ∧ k < top := by
  have := h.tiles.mem hk
  have := h.base
  have := h.room
  omega

theorem le_top (h : Shape m pool stop blocks frees) (hk : k ∈ m.keys) : k ≤ top := by
  rcases h.mem_keys.1 hk with rfl | hk | rfl
  · exact Nat.zero_le _
  · exact Nat.le_of_lt (h.bounds hk).2.2.2
  · exact Nat.le_refl _

theorem sorted (h : Shape m pool stop blocks frees) : frees.Pairwise (· < ·) :=
  List.isChain_iff_pairwise.1 h.order

theorem nodup (h : Shape m pool stop blocks frees) : frees.Nodup := h.sorted.imp Nat.ne_of_lt

/-- Behind everything but the last guard there is something in the list. -/
theorem split_next (h : Shape m pool stop blocks frees) (hk : k ∈ frees) (hne : k ≠ top) :
    ∃ xs b ys, frees = xs ++ k :: b :: ys := by
  obtain ⟨xs, ys, hsplit⟩ := List.append_of_mem hk
  cases ys with
  | nil =>
    have hsorted := h.sorted
    have htop := h.high
    rw [hsplit] at hsorted htop
    have hle := h.le_top (h.sub k hk)
    rcases List.mem_append.1 htop with htop | htop
    · have := (List.pairwise_append.1 hsorted).2.2 top htop k (by simp)
      omega
    · exact absurd (List.mem_singleton.1 htop).symm hne
  | cons b ys => exact ⟨xs, b, ys, hsplit⟩

/-- Before everything but the first guard there is something in the list. -/
theorem split_prior (h : Shape m pool stop blocks frees) (hk : k ∈ frees) (hne : k ≠ 0) :
    ∃ xs a ys, frees = xs ++ a :: k :: ys := by
  obtain ⟨xs, ys, hsplit⟩ := List.append_of_mem hk
  rcases List.eq_nil_or_concat xs with rfl | ⟨xs, a, rfl⟩
  · have hsorted := h.sorted
    have hzero := h.low
    rw [hsplit] at hsorted hzero
    rcases List.mem_cons.1 hzero with hzero | hzero
    · exact absurd hzero.symm hne
    · have := (List.pairwise_cons.1 hsorted).1 0 hzero
      omega
  · exact ⟨xs, a, ys, by simpa using hsplit⟩

theorem joined (h : Shape m pool stop blocks (xs ++ a :: b :: ys)) :
    m.next a = .entry b ∧ m.prior b = .entry a ∧ a < b :=
  ⟨(Chain.split.1 h.chain).2.1.1, (Chain.split.1 h.chain).2.1.2,
    (List.isChain_append_cons_cons.1 h.order).2.1⟩

/-- What is in the list is free. -/
theorem free (h : Shape m pool stop blocks frees) (hk : k ∈ frees) : m.next k ≠ m.begin := by
  rw [h.begin_eq]
  by_cases htop : k = top
  · rw [htop, h.last]
    simp
  · obtain ⟨xs, b, ys, rfl⟩ := h.split_next hk htop
    obtain ⟨hnext, -, hlt⟩ := h.joined
    rw [hnext, Ne, Iterator.entry.injEq]
    omega

theorem isfree_iff (h : Shape m pool stop blocks frees) (hused : Used m frees) (hk : k ∈ m.keys) :
    m.isfree k = true ↔ k ∈ frees := by
  rw [isfree, decide_eq_true_eq]
  constructor
  · intro hfree
    by_contra hout
    exact hfree (by rw [hused k hk hout, h.begin_eq])
  · exact h.free

theorem islastfree_iff (h : Shape m pool stop blocks frees) (hk : k ∈ frees) :
    m.islastfree k = true ↔ k = top := by
  rw [islastfree, decide_eq_true_eq]
  constructor
  · intro hlast
    by_contra htop
    obtain ⟨xs, b, ys, rfl⟩ := h.split_next hk htop
    rw [h.joined.1] at hlast
    cases hlast
  · intro htop
    rw [htop, h.last]

theorem isfirstfree_iff (h : Shape m pool stop blocks frees) (hk : k ∈ frees) :
    m.isfirstfree k = true ↔ k = 0 := by
  rw [isfirstfree, decide_eq_true_eq]
  constructor
  · intro hfirst
    by_contra hzero
    obtain ⟨xs, a, ys, rfl⟩ := h.split_prior hk hzero
    rw [h.joined.2.1] at hfirst
    cases hfirst
  · intro hzero
    rw [hzero, h.first]

/-- A free entry that is not a guard is a block. -/
theorem block (h : Shape m pool stop blocks frees) (hk : k ∈ m.keys) (hzero : k ≠ 0)
    (htop : k ≠ top) : k ∈ blocks := by
  rcases h.mem_keys.1 hk with hk | hk | hk
  · exact absurd hk hzero
  · exact hk
  · exact absurd hk htop

/-! ## `insertafter` -/

theorem insertafter (h : Shape m pool stop blocks (xs ++ p :: q :: ys)) (hx : x ∈ blocks)
    (hout : x ∉ xs ++ p :: q :: ys) (hpx : p < x) (hxq : x < q) :
    ∃ m', m.insertafter p x = some m' ∧ Shape m' pool stop blocks (xs ++ p :: x :: q :: ys) ∧
      m'.keys = m.keys ∧ (∀ k, m'.len k = m.len k) ∧
      ∀ k, k ≠ p → k ≠ x → m'.next k = m.next k := by
  have hq : q ∈ m.keys := h.sub q (by simp)
  have hp : p ∈ xs ++ p :: q :: ys := by simp
  obtain ⟨m', heq, hkeys, hlen, hnext, hprior⟩ :=
    insertafter_spec hpx (h.free hp) h.joined.1 hq
  have hxk : x ∈ m.keys := h.mem_keys.2 (.inr (.inl hx))
  have hptop : p ≠ top := by
    have := h.le_top hq
    omega
  refine ⟨m', heq, ?_, hkeys, hlen, fun k hkp hkx => by rw [hnext, if_neg hkp, if_neg hkx]⟩
  refine ⟨h.base, h.room, hkeys ▸ h.keys, h.tiles.congr fun k _ => hlen k, fun k hk => ?_, ?_, ?_,
    ?_, ?_, ?_, ?_, ?_⟩
  · rw [hkeys]
    by_cases hkx : k = x
    · exact hkx ▸ hxk
    · refine h.sub k ?_
      simp only [List.mem_append, List.mem_cons] at hk ⊢
      tauto
  · obtain ⟨hleft, -, hright⟩ := List.isChain_append_cons_cons.1 h.order
    exact List.isChain_append_cons_cons.2
      ⟨hleft, hpx, List.isChain_cons_cons.2 ⟨hxq, hright⟩⟩
  · have := h.low
    simp only [List.mem_append, List.mem_cons] at this ⊢
    tauto
  · have := h.high
    simp only [List.mem_append, List.mem_cons] at this ⊢
    tauto
  · refine h.chain.insert h.nodup (fun c hc hcp => ?_) (fun c hc hcq => ?_) ⟨?_, ?_⟩ ⟨?_, ?_⟩
    · rw [hnext, if_neg hcp, if_neg fun hcx : c = x => hout (hcx ▸ hc)]
    · rw [hprior, if_neg hcq, if_neg fun hcx : c = x => hout (hcx ▸ hc)]
    · rw [hnext, if_pos rfl]
    · rw [hprior, if_neg (Nat.ne_of_lt hxq), if_pos rfl]
    · rw [hnext, if_neg (Nat.ne_of_gt hpx), if_pos rfl]
    · rw [hprior, if_pos rfl]
  · rw [hprior, if_neg (by omega), if_neg (by omega), h.first]
  · rw [hnext, if_neg hptop.symm, if_neg (Nat.ne_of_gt (h.bounds hx).2.2.2), h.last]
  · rw [hlen, hlen]
    exact h.guards

/-! ## `remove` -/

theorem remove (h : Shape m pool stop blocks (xs ++ p :: x :: q :: ys)) :
    ∃ m', m.remove x = some m' ∧ Shape m' pool stop blocks (xs ++ p :: q :: ys) ∧
      m'.keys = m.keys ∧ (∀ k, m'.len k = m.len k) ∧
      m'.next x = .entry 0 ∧ ∀ k, k ≠ p → k ≠ x → m'.next k = m.next k := by
  have hsplit : xs ++ p :: x :: q :: ys = (xs ++ [p]) ++ x :: q :: ys := by simp
  obtain ⟨-, hprior, hpx⟩ := h.joined
  have h' := h
  rw [hsplit] at h'
  obtain ⟨hnext, -, hxq⟩ := h'.joined
  obtain ⟨m', heq, hkeys, hlen, hnext', hprior'⟩ :=
    remove_spec (h.free (by simp)) hprior (h.sub p (by simp)) (Nat.ne_of_lt hpx) hnext
      (h.sub q (by simp))
  have hle := h.le_top (h.sub q (by simp))
  have hout := Chain.not_mem_of_nodup h.nodup
  have hin : ∀ k ∈ xs ++ p :: x :: q :: ys, k ≠ x → k ∈ xs ++ p :: q :: ys := by
    intro k hk hkx
    simp only [List.mem_append, List.mem_cons] at hk ⊢
    tauto
  have hxzero : x ≠ 0 := by omega
  have hxtop : x ≠ top := by omega
  refine ⟨m', heq, ?_, hkeys, hlen, ?_, fun k hkp hkx => by rw [hnext', if_neg hkx, if_neg hkp]⟩
  · refine ⟨h.base, h.room, hkeys ▸ h.keys, h.tiles.congr fun k _ => hlen k, fun k hk => ?_, ?_,
      hin 0 h.low hxzero.symm, hin top h.high hxtop.symm, ?_, ?_, ?_, ?_⟩
    · rw [hkeys]
      refine h.sub k ?_
      simp only [List.mem_append, List.mem_cons] at hk ⊢
      tauto
    · obtain ⟨hleft, -, hright⟩ := List.isChain_append_cons_cons.1 h.order
      exact List.isChain_append_cons_cons.2
        ⟨hleft, hpx.trans hxq, (List.isChain_cons_cons.1 hright).2⟩
    · refine h.chain.remove h.nodup (fun c hc hcp => ?_) (fun c hc hcq => ?_) ⟨?_, ?_⟩
      · rw [hnext', if_neg fun hcx : c = x => hout (hcx ▸ hc), if_neg hcp]
      · rw [hprior', if_neg hcq]
      · rw [hnext', if_neg (Nat.ne_of_lt hpx), if_pos rfl]
      · rw [hprior', if_pos rfl]
    · rw [hprior', if_neg (by omega), h.first]
    · rw [hnext', if_neg hxtop.symm, if_neg (by omega), h.last]
    · rw [hlen, hlen]
      exact h.guards
  · rw [hnext', if_pos rfl, h.begin_eq]

/-! ## `merge` -/

/-- A free block follows on another one. -/
theorem merge_near (h : Shape m pool stop blocks (xs ++ p :: x :: q :: ys)) (hp : p ∈ blocks)
    (hnear : p + m.len p = x) (hx : x ∈ blocks) :
    ∃ m' blocks', m.merge p x = some (p, m') ∧
      Shape m' pool stop blocks' (xs ++ p :: q :: ys) ∧
      (∀ k, k ∈ blocks ↔ k = x ∨ k ∈ blocks') ∧ x ∉ blocks' ∧
      (∀ k, m'.len k = if k = p then m.len p + m.len x else m.len k) ∧
      ∀ k, k ≠ p → m'.next k = m.next k := by
  have hsplit : xs ++ p :: x :: q :: ys = (xs ++ [p]) ++ x :: q :: ys := by simp
  obtain ⟨-, -, hpx⟩ := h.joined
  have h' := h
  rw [hsplit] at h'
  obtain ⟨hnext, -, hxq⟩ := h'.joined
  have hbound : x + m.len x < 2 ^ 64 := by
    have := h.bounds hx
    have := h.room
    unfold top at this
    omega
  obtain ⟨m', heq, hkeys, hlen, hnext', hprior'⟩ :=
    Memory.merge_near (h.free (k := p) (by simp)) (h.free (k := x) (by simp)) hnear hbound hnext
      (h.sub q (by simp)) (Nat.ne_of_lt hpx)
  -- the tiling is cut between the two
  obtain ⟨us, vs, hblocks⟩ := List.append_of_mem hp
  have htiles := h.tiles
  rw [hblocks] at htiles hx
  obtain ⟨ws, rfl⟩ := htiles.next hx hnear
  subst hblocks
  have hnd : (us ++ p :: x :: ws).Nodup := htiles.sorted.imp Nat.ne_of_lt
  have hxout := Chain.not_mem_of_nodup hnd
  have hout := Chain.not_mem_of_nodup h.nodup
  have hle := h.le_top (h.sub q (by simp))
  have hin : ∀ k ∈ xs ++ p :: x :: q :: ys, k ≠ x → k ∈ xs ++ p :: q :: ys := by
    intro k hk hkx
    simp only [List.mem_append, List.mem_cons] at hk ⊢
    tauto
  have hmem : ∀ k, k ∈ us ++ p :: x :: ws ↔ k = x ∨ k ∈ us ++ p :: ws := by
    intro k
    simp only [List.mem_append, List.mem_cons]
    tauto
  have hfilter : m'.keys = 0 :: ((us ++ p :: ws) ++ [top]) := by
    refine keys_eq ?_ fun k => ?_
    · have hsub : (0 :: ((us ++ p :: ws) ++ [top])).Sublist (0 :: (us ++ p :: x :: ws ++ [top])) :=
        ((((List.Sublist.refl us).append ((List.sublist_cons_self x ws).cons_cons p))).append
          (List.Sublist.refl [top])).cons_cons 0
      exact (h.keys ▸ m.sorted).sublist hsub
    · rw [hkeys, List.mem_filter, h.mem_keys, hmem]
      simp only [ne_eq, decide_not, Bool.not_eq_eq_eq_not, Bool.not_true, decide_eq_false_iff_not,
        List.mem_cons, List.mem_append, List.not_mem_nil, or_false]
      constructor
      · tauto
      · rintro (rfl | hk | rfl)
        · exact ⟨.inl rfl, by omega⟩
        · refine ⟨by tauto, fun hkx => hxout ?_⟩
          rw [← hkx]
          simpa using hk
        · exact ⟨by tauto, by omega⟩
  refine ⟨m', us ++ p :: ws, heq, ?_, hmem, hxout, hlen,
    fun k hk => by rw [hnext', if_neg hk]⟩
  refine ⟨h.base, h.room, hfilter, ?_, fun k hk => ?_, ?_, hin 0 h.low (by omega),
    hin top h.high (by omega), ?_, ?_, ?_, ?_⟩
  · subst hnear
    exact htiles.join (by rw [hlen, if_pos rfl]) fun k hk hkp => by rw [hlen, if_neg hkp]
  · rw [hkeys, List.mem_filter]
    refine ⟨h.sub k ?_, by simpa using fun hkx : k = x => hout (hkx ▸ hk)⟩
    simp only [List.mem_append, List.mem_cons] at hk ⊢
    tauto
  · obtain ⟨hleft, -, hright⟩ := List.isChain_append_cons_cons.1 h.order
    exact List.isChain_append_cons_cons.2
      ⟨hleft, hpx.trans hxq, (List.isChain_cons_cons.1 hright).2⟩
  · refine h.chain.remove h.nodup (fun c hc hcp => ?_) (fun c hc hcq => ?_) ⟨?_, ?_⟩
    · rw [hnext', if_neg hcp]
    · rw [hprior', if_neg hcq]
    · rw [hnext', if_pos rfl]
    · rw [hprior', if_pos rfl]
  · rw [hprior', if_neg (by omega), h.first]
  · rw [hnext', if_neg (by omega), h.last]
  · have hp0 : p ≠ 0 := by
      have := (h.bounds hp).1
      omega
    rw [hlen, hlen, if_neg (by omega), if_neg (by omega)]
    exact h.guards

/-! ## An entry is split -/

/-- There is no entry within a block. -/
theorem fresh (h : Shape m pool stop blocks frees) (ha : a ∈ blocks) {n : Nat} (hn : 0 < n)
    (hlt : n < m.len a) : a + n ∉ m.keys := by
  have hbounds := h.bounds ha
  have hroom := h.room
  intro hmem
  rcases h.mem_keys.1 hmem with heq | hmem | heq
  · omega
  · have := h.tiles.le_of_lt ha hmem (by omega)
    omega
  · omega

theorem sorted_keys (hbase : 0 < pool) (hroom : stop < top) {len : Nat → Nat}
    (htiles : Tiles len pool stop blocks) : (0 :: (blocks ++ [top])).Pairwise (· < ·) := by
  refine List.pairwise_cons.2 ⟨fun k hk => ?_, List.pairwise_append.2 ⟨htiles.sorted, by simp, ?_⟩⟩
  · rcases List.mem_append.1 hk with hk | hk
    · have := htiles.mem hk
      omega
    · have := htiles.le
      rw [List.mem_singleton.1 hk]
      omega
  · intro k hk k' hk'
    have := htiles.mem hk
    rw [List.mem_singleton.1 hk']
    omega

theorem divide (h : Shape m pool stop blocks frees) (ha : a ∈ blocks) {n : Nat} (hn : 0 < n)
    (hlt : n < m.len a) {m' : Memory} (hkeys : ∀ k, k ∈ m'.keys ↔ k = a + n ∨ k ∈ m.keys)
    (hlow : m'.len a = n) (hhigh : m'.len (a + n) = m.len a - n)
    (hlen : ∀ k, k ≠ a → k ≠ a + n → m'.len k = m.len k)
    (hnext : ∀ k, k ≠ a + n → m'.next k = m.next k)
    (hprior : ∀ k, k ≠ a + n → m'.prior k = m.prior k) :
    ∃ blocks', Shape m' pool stop blocks' frees ∧ ∀ k, k ∈ blocks' ↔ k = a + n ∨ k ∈ blocks := by
  have hfresh := h.fresh ha hn hlt
  have hbounds := h.bounds ha
  have hroom := h.room
  obtain ⟨us, ws, hblocks⟩ := List.append_of_mem ha
  subst hblocks
  have hsame : ∀ k ∈ m.keys, k ≠ a + n := fun k hk heq => hfresh (heq ▸ hk)
  have hmem : ∀ k, k ∈ us ++ a :: (a + n) :: ws ↔ k = a + n ∨ k ∈ us ++ a :: ws := by
    intro k
    simp only [List.mem_append, List.mem_cons]
    tauto
  have htiles : Tiles m'.len pool stop (us ++ a :: (a + n) :: ws) := by
    refine h.tiles.split hn hlt hlow hhigh fun k hk hka => hlen k hka ?_
    exact hsame k (h.mem_keys.2 (.inr (.inl hk)))
  have hzero : (0 : Nat) ≠ a + n := by omega
  have htop : top ≠ a + n := by omega
  refine ⟨us ++ a :: (a + n) :: ws, ?_, hmem⟩
  refine ⟨h.base, h.room, keys_eq (sorted_keys h.base h.room htiles) fun k => ?_, htiles,
    fun k hk => (hkeys k).2 (.inr (h.sub k hk)), h.order, h.low, h.high, ?_, ?_, ?_, ?_⟩
  · simp only [hkeys, h.mem_keys, List.mem_cons, List.mem_append, List.not_mem_nil, or_false]
    tauto
  · refine h.chain.frame (fun c hc => hnext c ?_) fun c hc => hprior c ?_
    · exact hsame c (h.sub c (List.dropLast_subset _ hc))
    · exact hsame c (h.sub c (List.mem_of_mem_tail hc))
  · rw [hprior 0 hzero, h.first]
  · rw [hnext top htop, h.last]
  · rw [hlen 0 (by omega) hzero, hlen top (by omega) htop]
    exact h.guards

end Shape

end Costream.SmallHeap
