import Costream.Heap.Shape

/-!
# What is free and what is taken

`Stock` adds to the shape of the map how much is free and which blocks are taken.  A block that is
taken is known by its address and its length.  Each operation on the list says what it does to both;
`take`, `takeHigh` and the two merges of `free` are put together from them.
-/

namespace Costream.SmallHeap

open SmallHeap.Memory

structure Stock (m : Memory) (pool stop : Nat) (blocks frees : List Nat) (total : Nat)
    (taken : Nat → Nat → Prop) : Prop where
  shape : Shape m pool stop blocks frees
  used : Used m frees
  total : (frees.map m.len).sum = total
  taken : ∀ k n, taken k n ↔ k ∈ blocks ∧ k ∉ frees ∧ m.len k = n

variable {m m' : Memory} {pool stop total : Nat} {taken : Nat → Nat → Prop}
  {blocks frees xs ys : List Nat} {a b c k p q x n : Nat}

theorem sum_congr {len len' : Nat → Nat} {l : List Nat} (h : ∀ k ∈ l, len' k = len k) :
    (l.map len').sum = (l.map len).sum := by
  rw [List.map_congr_left h]

theorem sum_middle {len : Nat → Nat} : ((xs ++ a :: ys).map len).sum =
    len a + ((xs ++ ys).map len).sum := by
  simp only [List.map_append, List.map_cons, List.sum_append, List.sum_cons]
  omega

theorem sum_second {len : Nat → Nat} : ((xs ++ a :: b :: ys).map len).sum =
    len b + ((xs ++ a :: ys).map len).sum := by
  simp only [List.map_append, List.map_cons, List.sum_append, List.sum_cons]
  omega

/-- Entries that do not overlap are not longer than the range that they are in. -/
theorem sum_le {len : Nat → Nat} {l : List Nat} (happart : l.Pairwise fun x y => x + len x ≤ y)
    (hab : a ≤ b) (hrange : ∀ k ∈ l, a ≤ k ∧ k + len k ≤ b) : a + (l.map len).sum ≤ b := by
  induction l generalizing a with
  | nil => simpa using hab
  | cons k l ih =>
    obtain ⟨hbehind, happart'⟩ := List.pairwise_cons.1 happart
    obtain ⟨hak, hkb⟩ := hrange k (by simp)
    have := ih happart' hkb fun k' hk' => ⟨hbehind k' hk', (hrange k' (by simp [hk'])).2⟩
    rw [List.map_cons, List.sum_cons]
    omega

namespace Stock

/-- What is free fits in the address space. -/
theorem total_le (h : Stock m pool stop blocks frees total taken) : total ≤ top := by
  have hshape := h.shape
  have hend : ∀ k ∈ frees, k + m.len k ≤ top := by
    intro k hk
    rcases hshape.mem_keys.1 (hshape.sub k hk) with rfl | hk | rfl
    · rw [hshape.guards.1]
      exact Nat.zero_le _
    · have := hshape.bounds hk
      have := hshape.room
      omega
    · rw [hshape.guards.2]
      omega
  have happart : frees.Pairwise fun x y => x + m.len x ≤ y := by
    refine List.Pairwise.imp_of_mem (fun {x y} hx hy hlt => ?_) hshape.sorted
    rcases hshape.mem_keys.1 (hshape.sub x hx) with rfl | hxb | rfl
    · rw [hshape.guards.1]
      omega
    · rcases hshape.mem_keys.1 (hshape.sub y hy) with rfl | hyb | rfl
      · omega
      · exact hshape.tiles.le_of_lt hxb hyb hlt
      · exact hend x hx
    · have := hshape.le_top (hshape.sub y hy)
      omega
  have := sum_le happart (Nat.zero_le top) fun k hk => ⟨Nat.zero_le k, hend k hk⟩
  rwa [Nat.zero_add, h.total] at this

/-- A block that was taken comes into the list. -/
theorem insertafter (h : Stock m pool stop blocks (xs ++ p :: q :: ys) total taken)
    (hx : taken x n) (hpx : p < x) (hxq : x < q) :
    ∃ m', m.insertafter p x = some m' ∧ (∀ k, m'.len k = m.len k) ∧
      Stock m' pool stop blocks (xs ++ p :: x :: q :: ys) (total + n)
        fun k l => taken k l ∧ k ≠ x := by
  obtain ⟨hblock, hout, hlenx⟩ := (h.taken x n).1 hx
  obtain ⟨m', heq, hshape, hkeys, hlen, hnext⟩ := h.shape.insertafter hblock hout hpx hxq
  have hmem : ∀ k, k ∈ xs ++ p :: x :: q :: ys ↔ k = x ∨ k ∈ xs ++ p :: q :: ys := by
    intro k
    simp only [List.mem_append, List.mem_cons]
    tauto
  refine ⟨m', heq, hlen, hshape, fun k hk hkout => ?_, ?_, fun k l => ?_⟩
  · rw [hmem, not_or] at hkout
    rw [hkeys] at hk
    rw [hnext k (fun hkp => hkout.2 (by simp [hkp])) hkout.1, h.used k hk hkout.2]
  · rw [sum_congr fun k _ => hlen k, sum_second, h.total, hlenx]
    omega
  · rw [h.taken, hmem, not_or, hlen]
    tauto

/-- A block is taken out of the list. -/
theorem remove (h : Stock m pool stop blocks (xs ++ p :: x :: q :: ys) total taken)
    (hx : x ∈ blocks) :
    ∃ m', m.remove x = some m' ∧ (∀ k, m'.len k = m.len k) ∧
      Stock m' pool stop blocks (xs ++ p :: q :: ys) (total - m.len x)
        fun k l => taken k l ∨ k = x ∧ l = m.len x := by
  obtain ⟨m', heq, hshape, hkeys, hlen, hnextx, hnext⟩ := h.shape.remove
  have hout := Chain.not_mem_of_nodup h.shape.nodup
  have hmem : ∀ k, k ∈ xs ++ p :: x :: q :: ys ↔ k = x ∨ k ∈ xs ++ p :: q :: ys := by
    intro k
    simp only [List.mem_append, List.mem_cons]
    tauto
  refine ⟨m', heq, hlen, hshape, fun k hk hkout => ?_, ?_, fun k l => ?_⟩
  · rw [hkeys] at hk
    by_cases hkx : k = x
    · rw [hkx, hnextx]
    · rw [hnext k (fun hkp => hkout (by simp [hkp])) hkx]
      exact h.used k hk fun hkin => hkout (((hmem k).1 hkin).resolve_left hkx)
  · have htotal := h.total
    rw [sum_second] at htotal
    rw [sum_congr fun k _ => hlen k, ← htotal]
    omega
  · rw [h.taken, hlen, hmem, not_or]
    constructor
    · rintro (⟨hk, hkout, hl⟩ | ⟨rfl, rfl⟩)
      · exact ⟨hk, hkout.2, hl⟩
      · exact ⟨hx, hout, rfl⟩
    · rintro ⟨hk, hkout, hl⟩
      by_cases hkx : k = x
      · exact .inr ⟨hkx, by rw [← hl, hkx]⟩
      · exact .inl ⟨hk, ⟨hkx, hkout⟩, hl⟩

/-- Two neighbours in the list are merged, unless there is something between them. -/
theorem merge (h : Stock m pool stop blocks (xs ++ a :: b :: ys) total taken)
    (hle : a + m.len a ≤ b) :
    a + m.len a < b ∧ m.merge a b = some (b, m) ∨
      a + m.len a = b ∧ ∃ q zs m' blocks', ys = q :: zs ∧ m.merge a b = some (a, m') ∧
        (∀ k, m'.len k = if k = a then m.len a + m.len b else m.len k) ∧
        Stock m' pool stop blocks' (xs ++ a :: q :: zs) total taken := by
  have hshape := h.shape
  obtain ⟨-, -, hab⟩ := hshape.joined
  have hbk := hshape.sub b (by simp)
  have hbtop := hshape.le_top hbk
  rcases Nat.lt_or_eq_of_le hle with hlt | hnear
  · refine .inl ⟨hlt, merge_far (hshape.free (by simp)) (hshape.free (by simp)) ?_⟩
    rw [Nat.mod_eq_of_lt (by unfold top at hbtop; omega)]
    omega
  · have hazero : a ≠ 0 := by
      intro ha
      rw [ha, hshape.guards.1] at hnear
      omega
    have hablock := hshape.block (hshape.sub a (by simp)) hazero (by omega)
    have hbne : b ≠ top := by
      have := (hshape.bounds hablock).2.2.1
      have := hshape.room
      omega
    have hbblock := hshape.block hbk (by omega) hbne
    obtain ⟨q, zs, rfl⟩ : ∃ q zs, ys = q :: zs := by
      cases ys with
      | nil =>
        have htop := hshape.high
        have hsorted := hshape.sorted
        rw [List.mem_append, List.mem_cons, List.mem_singleton] at htop
        rcases htop with htop | htop | htop
        · have := (List.pairwise_append.1 hsorted).2.2 top htop a (by simp)
          omega
        · omega
        · exact absurd htop.symm hbne
      | cons q zs => exact ⟨q, zs, rfl⟩
    obtain ⟨m', blocks', heq, hshape', hmem', hbout, hlen, hnext⟩ :=
      hshape.merge_near hablock hnear hbblock
    have hout := Chain.not_mem_of_nodup hshape.nodup
    have hmem : ∀ k, k ∈ xs ++ a :: b :: q :: zs ↔ k = b ∨ k ∈ xs ++ a :: q :: zs := by
      intro k
      simp only [List.mem_append, List.mem_cons]
      tauto
    refine .inr ⟨hnear, q, zs, m', blocks', rfl, heq, hlen, hshape', fun k hk hkout => ?_, ?_,
      fun k l => ?_⟩
    · have hkm : k ∈ m.keys ∧ k ≠ b := by
        rcases hshape'.mem_keys.1 hk with hk | hk | hk
        · exact ⟨hshape.mem_keys.2 (.inl hk), by omega⟩
        · exact ⟨hshape.mem_keys.2 (.inr (.inl ((hmem' k).2 (.inr hk)))), fun hkb =>
            hbout (hkb ▸ hk)⟩
        · exact ⟨hshape.mem_keys.2 (.inr (.inr hk)), by omega⟩
      rw [hnext k fun hka => hkout (by simp [hka])]
      refine h.used k hkm.1 fun hkin => hkout (((hmem k).1 hkin).resolve_left hkm.2)
    · have hnd := hshape'.nodup
      have hxs : ∀ k ∈ xs ++ q :: zs, m'.len k = m.len k := by
        intro k hk
        rw [hlen, if_neg]
        rw [List.nodup_middle, List.nodup_cons] at hnd
        exact fun hka => hnd.1 (hka ▸ hk)
      have htotal := h.total
      rw [sum_second, sum_middle] at htotal
      rw [sum_middle, sum_congr hxs, hlen, if_pos rfl, ← htotal]
      omega
    · rw [h.taken, hmem', hmem, not_or, hlen]
      constructor
      · rintro ⟨hk, ⟨hkb, hkout⟩, hl⟩
        refine ⟨hk.resolve_left hkb, hkout, ?_⟩
        rwa [if_neg fun hka => hkout (by simp [hka])]
      · rintro ⟨hk, hkout, hl⟩
        rw [if_neg fun hka => hkout (by simp [hka])] at hl
        exact ⟨.inr hk, ⟨fun hkb => hbout (hkb ▸ hk), hkout⟩, hl⟩

/-- The upper part of a free block becomes an entry of its own, and comes into the list. -/
theorem splitFree (h : Stock m pool stop blocks (xs ++ a :: q :: ys) total taken)
    (ha : a ∈ blocks) (hn : 0 < n) (hlt : n < m.len a) (haq : a + m.len a ≤ q) :
    ∃ m' blocks', (((m.index (a + n)).setLen (a + n) (m.len a - n)).setLen a n).insertafter a (a + n) =
        some m' ∧ (∀ k, m'.len k = if k = a then n else if k = a + n then m.len a - n else m.len k) ∧
      a ∈ blocks' ∧ Stock m' pool stop blocks' (xs ++ a :: (a + n) :: q :: ys) total taken := by
  have hshape := h.shape
  have hfresh := hshape.fresh ha hn hlt
  have hne : a ≠ a + n := by omega
  obtain ⟨m₁, hm₁⟩ : ∃ m₁, m₁ = ((m.index (a + n)).setLen (a + n) (m.len a - n)).setLen a n :=
    ⟨_, rfl⟩
  have hkeys : ∀ k, k ∈ m₁.keys ↔ k = a + n ∨ k ∈ m.keys := by
    intro k
    rw [hm₁]
    exact mem_index hfresh
  have hnode : ∀ k, k ≠ a + n → (m.index (a + n)).node k = m.node k := fun k => index_node hfresh
  have hlen : ∀ k, m₁.len k = if k = a then n else if k = a + n then m.len a - n else m.len k := by
    intro k
    rw [hm₁, setLen_len, setLen_len]
    by_cases hk : k = a + n
    · simp [hk]
    · rw [if_neg hk, if_neg hk, len, hnode k hk, len]
  have hnext : ∀ k, k ≠ a + n → m₁.next k = m.next k := by
    intro k hk
    rw [hm₁, setLen_next, setLen_next, Memory.next, hnode k hk, Memory.next]
  have hprior : ∀ k, k ≠ a + n → m₁.prior k = m.prior k := by
    intro k hk
    rw [hm₁, setLen_prior, setLen_prior, Memory.prior, hnode k hk, Memory.prior]
  obtain ⟨blocks', hshape₁, hmem'⟩ := hshape.divide ha hn hlt hkeys (by rw [hlen, if_pos rfl])
    (by rw [hlen, if_neg hne.symm, if_pos rfl]) (fun k hka hkn => by rw [hlen, if_neg hka, if_neg hkn])
    hnext hprior
  have hout : a + n ∉ xs ++ a :: q :: ys := fun hmem => hfresh (hshape.sub _ hmem)
  obtain ⟨m', heq, hshape', hkeys', hlen', hnext'⟩ :=
    hshape₁.insertafter ((hmem' (a + n)).2 (.inl rfl)) hout (by omega) (by omega)
  have hmem : ∀ k, k ∈ xs ++ a :: (a + n) :: q :: ys ↔ k = a + n ∨ k ∈ xs ++ a :: q :: ys := by
    intro k
    simp only [List.mem_append, List.mem_cons]
    tauto
  rw [← hm₁]
  refine ⟨m', blocks', heq, fun k => by rw [hlen', hlen], (hmem' a).2 (.inr ha), hshape',
    fun k hk hkout => ?_, ?_, fun k l => ?_⟩
  · rw [hmem, not_or] at hkout
    rw [hkeys', hkeys] at hk
    rw [hnext' k (fun hka => hkout.2 (by simp [hka])) hkout.1, hnext k hkout.1]
    exact h.used k (hk.resolve_left hkout.1) hkout.2
  · have htotal := h.total
    rw [sum_middle] at htotal
    have hsame : ∀ k ∈ xs ++ q :: ys, m'.len k = m.len k := by
      intro k hk
      have hnd := hshape.nodup
      rw [List.nodup_middle, List.nodup_cons] at hnd
      rw [hlen', hlen, if_neg fun hka : k = a => hnd.1 (hka ▸ hk), if_neg]
      rintro rfl
      exact hout (by simp only [List.mem_append, List.mem_cons] at hk ⊢; tauto)
    rw [sum_second, sum_middle, sum_congr hsame, ← htotal, hlen', hlen', hlen, hlen, if_pos rfl,
      if_neg hne.symm, if_pos rfl]
    omega
  · rw [h.taken, hmem', hmem, not_or]
    constructor
    · rintro ⟨hk, hkout, hl⟩
      have hkn : k ≠ a + n := fun hkn => hfresh (hkn ▸ hshape.mem_keys.2 (.inr (.inl hk)))
      refine ⟨.inr hk, ⟨hkn, hkout⟩, ?_⟩
      rwa [hlen', hlen, if_neg fun hka : k = a => hkout (by simp [hka]), if_neg hkn]
    · rintro ⟨hk, ⟨hkn, hkout⟩, hl⟩
      rw [hlen', hlen, if_neg fun hka : k = a => hkout (by simp [hka]), if_neg hkn] at hl
      exact ⟨hk.resolve_left hkn, hkout, hl⟩

/-- The upper part of a free block is given out. -/
theorem splitTaken (h : Stock m pool stop blocks (xs ++ a :: ys) total taken)
    (ha : a ∈ blocks) (hn : 0 < n) (hlt : n < m.len a) :
    ∃ m' blocks', ((((m.setLen a n).index (a + n)).setLen (a + n) (m.len a - n)).setused (a + n)) =
        m' ∧ (∀ k, m'.len k = if k = a + n then m.len a - n else if k = a then n else m.len k) ∧
      Stock m' pool stop blocks' (xs ++ a :: ys) (total - (m.len a - n))
        fun k l => taken k l ∨ k = a + n ∧ l = m.len a - n := by
  have hshape := h.shape
  have hfresh := hshape.fresh ha hn hlt
  have hfresh' : a + n ∉ (m.setLen a n).keys := hfresh
  have hne : a ≠ a + n := by omega
  obtain ⟨m₁, hm₁⟩ : ∃ m₁, m₁ =
    (((m.setLen a n).index (a + n)).setLen (a + n) (m.len a - n)).setused (a + n) := ⟨_, rfl⟩
  have hkeys : ∀ k, k ∈ m₁.keys ↔ k = a + n ∨ k ∈ m.keys := by
    intro k
    rw [hm₁]
    exact mem_index hfresh'
  have hnode : ∀ k, k ≠ a + n → ((m.setLen a n).index (a + n)).node k = (m.setLen a n).node k :=
    fun k => index_node hfresh'
  have hlen : ∀ k, m₁.len k = if k = a + n then m.len a - n else if k = a then n else m.len k := by
    intro k
    rw [hm₁, setused, setNext_len, setLen_len]
    by_cases hk : k = a + n
    · rw [if_pos hk, if_pos hk]
    · rw [if_neg hk, if_neg hk, len, hnode k hk]
      exact setLen_len n
  have hnext : ∀ k, k ≠ a + n → m₁.next k = m.next k := by
    intro k hk
    rw [hm₁, setused, setNext_next, if_neg hk, setLen_next, Memory.next, hnode k hk]
    exact setLen_next n
  have hprior : ∀ k, k ≠ a + n → m₁.prior k = m.prior k := by
    intro k hk
    rw [hm₁, setused, setNext_prior, setLen_prior, Memory.prior, hnode k hk]
    exact setLen_prior n
  obtain ⟨blocks', hshape₁, hmem'⟩ := hshape.divide ha hn hlt hkeys
    (by rw [hlen, if_neg hne, if_pos rfl]) (by rw [hlen, if_pos rfl])
    (fun k hka hkn => by rw [hlen, if_neg hkn, if_neg hka]) hnext hprior
  have hout : a + n ∉ xs ++ a :: ys := fun hmem => hfresh (hshape.sub _ hmem)
  have hbegin : m₁.next (a + n) = .entry 0 := by
    have hb := hshape₁.begin_eq
    have hkeys₁ : m₁.begin = (((m.setLen a n).index (a + n)).setLen (a + n) (m.len a - n)).begin := by
      rw [hm₁]
      rfl
    rw [hm₁, setused, setNext_next, if_pos rfl, ← hkeys₁, hb]
  refine ⟨m₁, blocks', hm₁.symm, hlen, hshape₁, fun k hk hkout => ?_, ?_, fun k l => ?_⟩
  · rw [hkeys] at hk
    by_cases hkn : k = a + n
    · rw [hkn, hbegin]
    · rw [hnext k hkn]
      exact h.used k (hk.resolve_left hkn) hkout
  · have htotal := h.total
    rw [sum_middle] at htotal
    have hsame : ∀ k ∈ xs ++ ys, m₁.len k = m.len k := by
      intro k hk
      have hnd := hshape.nodup
      rw [List.nodup_middle, List.nodup_cons] at hnd
      rw [hlen, if_neg, if_neg fun hka : k = a => hnd.1 (hka ▸ hk)]
      rintro rfl
      exact hout (by simp only [List.mem_append, List.mem_cons] at hk ⊢; tauto)
    rw [sum_middle, sum_congr hsame, ← htotal, hlen, if_neg hne, if_pos rfl]
    omega
  · rw [h.taken, hmem', hlen]
    constructor
    · rintro (⟨hk, hkout, hl⟩ | ⟨rfl, rfl⟩)
      · have hkn : k ≠ a + n := fun hkn => hfresh (hkn ▸ hshape.mem_keys.2 (.inr (.inl hk)))
        refine ⟨.inr hk, hkout, ?_⟩
        rwa [if_neg hkn, if_neg fun hka : k = a => hkout (by simp [hka])]
      · exact ⟨.inl rfl, hout, if_pos rfl⟩
    · rintro ⟨hk, hkout, hl⟩
      by_cases hkn : k = a + n
      · rw [if_pos hkn] at hl
        exact .inr ⟨hkn, hl.symm⟩
      · rw [if_neg hkn, if_neg fun hka : k = a => hkout (by simp [hka])] at hl
        exact .inl ⟨hk.resolve_left hkn, hkout, hl⟩

end Stock

end Costream.SmallHeap
