import Costream.Heap.Stock

/-!
# `alloc`, `alloc_high` and `free`

`Sound` is the invariant of the heap.  Each of the three operations ends without a fault and keeps
it; a block is taken when it has been given out and is no longer taken when it has been freed.
-/

namespace Costream.SmallHeap

open SmallHeap.Memory

structure Sound (h : Heap) (blocks frees : List Nat) (taken : Nat → Nat → Prop) : Prop where
  stock : Stock h.memory h.pool (h.pool + h.length) blocks frees h.totalFree taken
  apart : Apart h.memory.len frees

variable {m m' : Memory} {pool stop total : Nat} {taken : Nat → Nat → Prop}
  {blocks frees xs ys : List Nat} {a b c k p q x n bytes : Nat} {len len' : Nat → Nat}

/-! ## Neighbours that do not touch -/

theorem Apart.frame {l : List Nat} (h : Apart len l) (hlen : ∀ k ∈ l.dropLast, len' k = len k) :
    Apart len' l := by
  induction l with
  | nil => exact List.isChain_nil
  | cons a l ih =>
    cases l with
    | nil => exact List.isChain_singleton a
    | cons b l =>
      obtain ⟨hab, hrest⟩ := List.isChain_cons_cons.1 h
      refine List.isChain_cons_cons.2 ⟨?_, ih hrest fun k hk => hlen k (by simp [hk])⟩
      rw [hlen a (by simp)]
      exact hab

theorem Apart.split : Apart len (xs ++ a :: b :: ys) ↔
    Apart len (xs ++ [a]) ∧ a + len a < b ∧ Apart len (b :: ys) :=
  List.isChain_append_cons_cons

/-- What stands before `a` in the list lies below it, and what stands behind it above. -/
theorem lt_of_sorted (h : (xs ++ a :: ys).Pairwise (· < ·)) :
    (∀ k ∈ xs, k < a) ∧ ∀ k ∈ ys, a < k := by
  obtain ⟨-, hright, hlt⟩ := List.pairwise_append.1 h
  exact ⟨fun k hk => hlt k hk a (by simp), (List.pairwise_cons.1 hright).1⟩

/-- One entry between two others changes. -/
theorem Apart.replace (h : Apart len (xs ++ p :: c :: q :: ys))
    (hsorted : (xs ++ p :: c :: q :: ys).Pairwise (· < ·)) (hb : c ≤ b) (hbq : b + len' b < q)
    (hlen : ∀ k, k < c ∨ q ≤ k → len' k = len k) : Apart len' (xs ++ p :: b :: q :: ys) := by
  obtain ⟨hleft, hpc, hrest⟩ := Apart.split.1 h
  obtain ⟨-, hright⟩ := List.isChain_cons_cons.1 hrest
  have hsplit : xs ++ p :: c :: q :: ys = (xs ++ [p]) ++ c :: q :: ys := by simp
  have hlt := (lt_of_sorted (hsplit ▸ hsorted)).1
  have hge : ∀ k ∈ q :: ys, q ≤ k := by
    intro k hk
    have hsorted' := (List.pairwise_append.1 (hsplit ▸ hsorted)).2.1
    rcases List.mem_cons.1 hk with rfl | hk
    · exact Nat.le_refl k
    · exact Nat.le_of_lt ((List.pairwise_cons.1 (List.pairwise_cons.1 hsorted').2).1 k hk)
  have hright' : Apart len' (q :: ys) :=
    Apart.frame hright fun k hk => hlen k (.inr (hge k (List.dropLast_subset _ hk)))
  refine Apart.split.2 ⟨hleft.frame fun k hk => hlen k (.inl ?_), ?_,
    List.isChain_cons_cons.2 ⟨hbq, hright'⟩⟩
  · exact hlt k (List.dropLast_subset _ hk)
  · rw [hlen p (.inl (hlt p (by simp)))]
    omega

/-- One entry between two others goes. -/
theorem Apart.remove (h : Apart len (xs ++ p :: c :: q :: ys)) : Apart len (xs ++ p :: q :: ys) := by
  obtain ⟨hleft, hpc, hrest⟩ := Apart.split.1 h
  obtain ⟨hcq, hright⟩ := List.isChain_cons_cons.1 hrest
  exact Apart.split.2 ⟨hleft, by omega, hright⟩

/-! ## A block is given out -/

theorem take_spec (h : Stock m pool stop blocks (xs ++ p :: c :: q :: ys) total taken)
    (hapart : Apart m.len (xs ++ p :: c :: q :: ys)) (hc : c ∈ blocks) (hpos : 0 < bytes)
    (hle : bytes ≤ m.len c) :
    (∀ l, ¬ taken c l) ∧ ∃ m' blocks' frees', Heap.take m c bytes = some m' ∧
      Stock m' pool stop blocks' frees' (total - bytes) (fun k l => taken k l ∨ k = c ∧ l = bytes) ∧
      Apart m'.len frees' := by
  have hfree : ∀ l, ¬ taken c l := fun l ht => ((h.taken c l).1 ht).2.1 (by simp)
  refine ⟨hfree, ?_⟩
  unfold Heap.take
  by_cases heq : bytes = m.len c
  · subst heq
    rw [if_neg (by simp)]
    obtain ⟨m', hremove, hlen, hstock⟩ := h.remove hc
    exact ⟨m', _, _, hremove, hstock, Apart.frame hapart.remove fun k _ => hlen k⟩
  · have hlt : bytes < m.len c := by omega
    have hbounds := h.shape.bounds hc
    have hroom := h.shape.room
    have hmod : (c + bytes) % 2 ^ 64 = c + bytes := Nat.mod_eq_of_lt (by unfold top at hroom; omega)
    have hsplit : xs ++ p :: c :: q :: ys = (xs ++ [p]) ++ c :: q :: ys := by simp
    have hcq : c + m.len c < q := (Apart.split.1 (hsplit ▸ hapart)).2.1
    obtain ⟨m₁, blocks', hinsert, hlen₁, hc', hstock₁⟩ :=
      (hsplit ▸ h).splitFree hc hpos hlt (Nat.le_of_lt hcq)
    rw [List.append_assoc, List.singleton_append] at hstock₁
    obtain ⟨m', hremove, hlen', hstock'⟩ := hstock₁.remove hc'
    have hlenc : m₁.len c = bytes := by rw [hlen₁, if_pos rfl]
    rw [hlenc] at hstock'
    rw [if_pos heq]
    dsimp only
    rw [hmod, hinsert]
    refine ⟨m', blocks', _, hremove, hstock', ?_⟩
    refine hapart.replace h.shape.sorted (by omega) ?_ fun k hk => ?_
    · rw [hlen', hlen₁, if_neg (by omega), if_pos rfl]
      omega
    · rw [hlen', hlen₁, if_neg (by omega), if_neg (by omega)]

theorem takeHigh_spec (h : Stock m pool stop blocks (xs ++ p :: c :: q :: ys) total taken)
    (hapart : Apart m.len (xs ++ p :: c :: q :: ys)) (hc : c ∈ blocks) (hpos : 0 < bytes)
    (hle : bytes ≤ m.len c) :
    ∃ ptr m' blocks' frees', Heap.takeHigh m c bytes = some (ptr, m') ∧
      ptr = c + m.len c - bytes ∧ (∀ l, ¬ taken ptr l) ∧
      Stock m' pool stop blocks' frees' (total - bytes) (fun k l => taken k l ∨ k = ptr ∧ l = bytes) ∧
      Apart m'.len frees' := by
  unfold Heap.takeHigh
  by_cases heq : bytes = m.len c
  · subst heq
    rw [if_neg (by simp)]
    obtain ⟨m', hremove, hlen, hstock⟩ := h.remove hc
    exact ⟨c, m', _, _, by rw [hremove]; rfl, by omega,
      fun l ht => ((h.taken c l).1 ht).2.1 (by simp), hstock,
      Apart.frame hapart.remove fun k _ => hlen k⟩
  · have hlt : bytes < m.len c := by omega
    have hbounds := h.shape.bounds hc
    have hroom := h.shape.room
    obtain ⟨n, hn⟩ : ∃ n, m.len c = n + bytes := ⟨m.len c - bytes, by omega⟩
    have hmod : (c + m.len c - bytes) % 2 ^ 64 = c + n := by
      rw [Nat.mod_eq_of_lt (by unfold top at hroom; omega)]
      omega
    have hsub : m.len c - bytes = n := by omega
    have hsub' : m.len c - n = bytes := by omega
    have hsplit : xs ++ p :: c :: q :: ys = (xs ++ [p]) ++ c :: q :: ys := by simp
    have hcq : c + m.len c < q := (Apart.split.1 (hsplit ▸ hapart)).2.1
    obtain ⟨m', blocks', hm', hlen', hstock'⟩ :=
      (hsplit ▸ h).splitTaken hc (n := n) (by omega) (by omega)
    rw [hsub'] at hm' hlen' hstock'
    rw [if_pos heq]
    dsimp only
    rw [hmod, hsub, hm']
    refine ⟨c + n, m', blocks', _, rfl, by omega, fun l ht => ?_, hstock', ?_⟩
    · exact h.shape.fresh hc (n := n) (by omega) (by omega)
        (h.shape.mem_keys.2 (.inr (.inl ((h.taken _ l).1 ht).1)))
    · rw [List.append_assoc, List.singleton_append]
      refine hapart.replace h.shape.sorted (Nat.le_refl c) ?_ fun k hk => ?_
      · rw [hlen', if_neg (by omega), if_pos rfl]
        omega
      · rw [hlen', if_neg (by omega), if_neg (by omega)]

/-! ## The search for a block -/

/-- The loop of `alloc` ends at the first entry that fits, or at the last guard. -/
theorem firstFit_spec (h : Shape m pool stop blocks (xs ++ a :: ys)) (hys : ys ≠ []) {fuel : Nat}
    (hfuel : ys.length ≤ fuel) (bytes : Nat) :
    ∃ c ∈ ys, m.firstFit bytes fuel (m.next a) = some c ∧ (c = top ∨ bytes ≤ m.len c) ∧
      ∀ k ∈ ys, k < c → m.len k < bytes := by
  induction ys generalizing xs a fuel with
  | nil => exact absurd rfl hys
  | cons b ys ih =>
    have hb : b ∈ xs ++ a :: b :: ys := by simp
    have hderef : m.deref (m.next a) = some b := by
      rw [h.joined.1]
      exact deref_entry (h.sub b hb)
    cases fuel with
    | zero => simp at hfuel
    | succ fuel =>
      unfold firstFit
      rw [hderef]
      by_cases hstop : m.islastfree b = true ∨ bytes ≤ m.len b
      · refine ⟨b, by simp, if_pos hstop, hstop.imp_left (h.islastfree_iff hb).1, fun k hk hkb => ?_⟩
        rcases List.mem_cons.1 hk with rfl | hk
        · omega
        · have := (List.pairwise_cons.1 (List.pairwise_cons.1
            (List.pairwise_append.1 h.sorted).2.1).2).1 k hk
          omega
      · have hne : ys ≠ [] := by
          rintro rfl
          have hlast := h.high
          have hsorted := h.sorted
          rw [List.mem_append, List.mem_cons, List.mem_singleton] at hlast
          refine hstop (.inl ((h.islastfree_iff hb).2 ?_))
          have hle := h.le_top (h.sub b hb)
          have hlt := h.joined.2.2
          rcases hlast with hlast | hlast | hlast
          · have := (List.pairwise_append.1 hsorted).2.2 top hlast a (by simp)
            omega
          · omega
          · exact hlast.symm
        have hsplit : xs ++ a :: b :: ys = (xs ++ [a]) ++ b :: ys := by simp
        rw [hsplit] at h
        obtain ⟨c, hc, hfit, hcases, hbefore⟩ := ih h hne (by simpa using hfuel)
        refine ⟨c, List.mem_cons_of_mem b hc, (if_neg hstop).trans hfit, hcases, fun k hk hkc => ?_⟩
        rcases List.mem_cons.1 hk with rfl | hk
        · exact Nat.lt_of_not_ge fun hle => hstop (.inr hle)
        · exact hbefore k hk hkc

/-- The loop of `alloc_high` ends at the last entry that fits, or at the first guard. -/
theorem lastFit_spec (h : Shape m pool stop blocks (ys.reverse ++ a :: xs)) (hys : ys ≠ [])
    {fuel : Nat} (hfuel : ys.length ≤ fuel) (bytes : Nat) :
    ∃ c ∈ ys, m.lastFit bytes fuel (m.prior a) = some c ∧ (c = 0 ∨ bytes ≤ m.len c) ∧
      ∀ k ∈ ys, c < k → m.len k < bytes := by
  induction ys generalizing xs a fuel with
  | nil => exact absurd rfl hys
  | cons b ys ih =>
    have hsplit : (b :: ys).reverse ++ a :: xs = ys.reverse ++ b :: a :: xs := by simp
    rw [hsplit] at h
    have hb : b ∈ ys.reverse ++ b :: a :: xs := by simp
    have hderef : m.deref (m.prior a) = some b := by
      rw [h.joined.2.1]
      exact deref_entry (h.sub b hb)
    cases fuel with
    | zero => simp at hfuel
    | succ fuel =>
      unfold lastFit
      rw [hderef]
      by_cases hstop : m.isfirstfree b = true ∨ bytes ≤ m.len b
      · refine ⟨b, by simp, if_pos hstop, hstop.imp_left (h.isfirstfree_iff hb).1, fun k hk hbk => ?_⟩
        rcases List.mem_cons.1 hk with rfl | hk
        · omega
        · have := (List.pairwise_append.1 h.sorted).2.2 k (List.mem_reverse.2 hk) b (by simp)
          omega
      · have hne : ys ≠ [] := by
          rintro rfl
          have hfirst := h.low
          have hsorted := h.sorted
          refine hstop (.inl ((h.isfirstfree_iff hb).2 ?_))
          rcases List.mem_cons.1 hfirst with hfirst | hfirst
          · exact hfirst.symm
          · have := (List.pairwise_cons.1 hsorted).1 0 hfirst
            omega
        obtain ⟨c, hc, hfit, hcases, hbefore⟩ := ih h hne (by simpa using hfuel)
        refine ⟨c, List.mem_cons_of_mem b hc, (if_neg hstop).trans hfit, hcases, fun k hk hkc => ?_⟩
        rcases List.mem_cons.1 hk with rfl | hk
        · exact Nat.lt_of_not_ge fun hle => hstop (.inr hle)
        · exact hbefore k hk hkc

/-- There are no more entries in the list than in the map. -/
theorem Shape.length_le (h : Shape m pool stop blocks frees) : frees.length ≤ m.keys.length :=
  (h.nodup.subperm fun k hk => h.sub k hk).length_le

/-- A block that has been found in the list stands between two others. -/
theorem Shape.between (h : Shape m pool stop blocks frees) (hc : c ∈ frees) (hzero : c ≠ 0)
    (htop : c ≠ top) : ∃ xs p q ys, frees = xs ++ p :: c :: q :: ys ∧ c ∈ blocks := by
  obtain ⟨xs, q, ys, rfl⟩ := h.split_next hc htop
  have hblock := h.block (h.sub c hc) hzero htop
  rcases List.eq_nil_or_concat xs with rfl | ⟨xs, p, rfl⟩
  · have hsorted := h.sorted
    have hlow := h.low
    rcases List.mem_cons.1 hlow with hlow | hlow
    · exact absurd hlow.symm hzero
    · have := (List.pairwise_cons.1 hsorted).1 0 hlow
      omega
  · exact ⟨xs, p, q, ys, by simp, hblock⟩

namespace Sound

variable {h : Heap}

/-- What an allocation leaves: the block is new, or nothing has changed. -/
def Given (taken : Nat → Nat → Prop) (bytes : Nat) (h h' : Heap) (ptr : Nat) : Prop :=
  ptr = 0 ∧ h' = h ∨ ptr ≠ 0 ∧ (∀ l, ¬ taken ptr l) ∧ h'.pool = h.pool ∧ h'.length = h.length ∧
    ∃ blocks frees, Sound h' blocks frees fun k l => taken k l ∨ k = ptr ∧ l = bytes

/-- Which entry an allocation takes from: none is long enough, or `c` is and those that the
search comes to before it are not. -/
def Chosen (len : Nat → Nat) (frees : List Nat) (bytes : Nat) (before : Nat → Nat → Prop)
    (place : Nat → Nat) (ptr : Nat) : Prop :=
  ptr = 0 ∧ (bytes = 0 ∨ ∀ k ∈ frees, len k < bytes) ∨
    0 < bytes ∧ ∃ c ∈ frees, bytes ≤ len c ∧ ptr = place c ∧ ∀ k ∈ frees, before k c → len k < bytes

/-- The test of `total_free` refuses only what does not fit. -/
theorem Chosen.refused {total : Nat} (htotal : (frees.map len).sum = total)
    (hnone : bytes > total ∨ bytes = 0) (before : Nat → Nat → Prop) (place : Nat → Nat) :
    Chosen len frees bytes before place 0 := by
  refine .inl ⟨rfl, hnone.symm.imp_right fun hlt k hk => ?_⟩
  obtain ⟨xs, ys, hsplit⟩ := List.append_of_mem hk
  rw [hsplit, sum_middle] at htotal
  omega

theorem ptr_ne_zero (hs : Stock m pool stop blocks frees total taken) (ht : taken k n) : k ≠ 0 := by
  have := hs.shape.bounds ((hs.taken k n).1 ht).1
  omega

theorem alloc (hs : Sound h blocks frees taken) (bytes : Nat) :
    ∃ ptr h', h.alloc bytes = some (ptr, h') ∧ h'.high = h.high ∧ Given taken bytes h h' ptr ∧
      Chosen h.memory.len frees bytes (· < ·) id ptr := by
  have hshape := hs.stock.shape
  unfold Heap.alloc
  by_cases hnone : bytes > h.totalFree ∨ bytes = 0
  · rw [if_pos hnone]
    exact ⟨0, h, rfl, rfl, .inl ⟨rfl, rfl⟩, .refused hs.stock.total hnone _ _⟩
  · rw [if_neg hnone]
    obtain ⟨hfew, hzero⟩ := not_or.1 hnone
    obtain ⟨xs, b, ys, hsplit⟩ := hshape.split_next hshape.low (by decide)
    have hxs : xs = [] := by
      cases xs with
      | nil => rfl
      | cons x xs =>
        have hsorted := hshape.sorted
        rw [hsplit] at hsorted
        have := (List.pairwise_cons.1 hsorted).1 0 (by simp)
        omega
    subst hxs
    have hlength : (b :: ys).length ≤ h.memory.keys.length := by
      have := hshape.length_le
      rw [hsplit] at this
      simp only [List.nil_append, List.length_cons] at this ⊢
      omega
    obtain ⟨c, hc, hfit, hcases, hfirst⟩ := firstFit_spec (hsplit ▸ hshape) (by simp) hlength bytes
    have hcmem : c ∈ frees := by
      rw [hsplit]
      exact List.mem_cons_of_mem 0 hc
    have hbefore : ∀ k ∈ frees, k < c → h.memory.len k < bytes := by
      intro k hk hkc
      rw [hsplit] at hk
      rcases List.mem_cons.1 hk with rfl | hk
      · rw [hshape.guards.1]
        omega
      · exact hfirst k hk hkc
    have hfirst : h.memory.firstfree = some (h.memory.next 0) := by
      unfold firstfree
      rw [hshape.begin_eq, deref_entry (hshape.mem_keys.2 (.inl rfl))]
      rfl
    simp only [hfirst, hfit, Option.bind_eq_bind, Option.bind_some, Option.pure_def]
    by_cases htop : c = top
    · rw [if_pos ((hshape.islastfree_iff hcmem).2 htop)]
      refine ⟨0, h, ?_, rfl, .inl ⟨rfl, rfl⟩, .inl ⟨rfl, .inr fun k hk => ?_⟩⟩
      · simp [guard, htop, hshape.guards.2]
      · rcases Nat.lt_or_eq_of_le (hshape.le_top (hshape.sub k hk)) with hlt | heq
        · exact hbefore k hk (by omega)
        · rw [heq, hshape.guards.2]
          omega
    · rw [if_neg (by rw [hshape.islastfree_iff hcmem]; exact htop)]
      have hczero : c ≠ 0 := by
        have hsorted := hshape.sorted
        rw [hsplit] at hsorted
        have := (List.pairwise_cons.1 hsorted).1 c hc
        omega
      obtain ⟨us, p, q, vs, rfl, hblock⟩ := hshape.between hcmem hczero htop
      obtain ⟨hfresh, m', blocks', frees', htake, hstock', hapart'⟩ :=
        take_spec hs.stock hs.apart hblock (by omega) (hcases.resolve_left htop)
      rw [htake]
      exact ⟨c, _, rfl, rfl, .inr ⟨hczero, hfresh, rfl, rfl, blocks', frees', hstock', hapart'⟩,
        .inr ⟨by omega, c, hcmem, hcases.resolve_left htop, rfl, hbefore⟩⟩

theorem allocHigh (hs : Sound h blocks frees taken) (bytes : Nat) :
    ∃ ptr h', h.allocHigh bytes = some (ptr, h') ∧
      h'.high = (if ptr = 0 then h.high else insert ptr h.high) ∧ Given taken bytes h h' ptr ∧
      Chosen h.memory.len frees bytes (· > ·) (fun c => c + h.memory.len c - bytes) ptr := by
  have hshape := hs.stock.shape
  unfold Heap.allocHigh
  by_cases hnone : bytes > h.totalFree ∨ bytes = 0
  · rw [if_pos hnone]
    exact ⟨0, h, rfl, rfl, .inl ⟨rfl, rfl⟩, .refused hs.stock.total hnone _ _⟩
  · rw [if_neg hnone]
    obtain ⟨hfew, hzero⟩ := not_or.1 hnone
    obtain ⟨xs, b, ys, hsplit⟩ := hshape.split_prior hshape.high (by decide)
    have hys : ys = [] := by
      cases ys with
      | nil => rfl
      | cons y ys =>
        have hsorted := hshape.sorted
        have hle := hshape.le_top (hshape.sub y (by rw [hsplit]; simp))
        rw [hsplit] at hsorted
        have := (List.pairwise_cons.1 (List.pairwise_cons.1
          (List.pairwise_append.1 hsorted).2.1).2).1 y (by simp)
        omega
    subst hys
    have hrev : frees = (b :: xs.reverse).reverse ++ top :: [] := by simp [hsplit]
    have hlength : (b :: xs.reverse).length ≤ h.memory.keys.length := by
      have := hshape.length_le
      rw [hsplit] at this
      simp only [List.length_append, List.length_cons, List.length_reverse] at this ⊢
      omega
    obtain ⟨c, hc, hfit, hcases, hlatest⟩ := lastFit_spec (hrev ▸ hshape) (by simp) hlength bytes
    have hcmem : c ∈ frees := by
      rw [hrev]
      exact List.mem_append_left _ (List.mem_reverse.2 hc)
    have hbefore : ∀ k ∈ frees, k > c → h.memory.len k < bytes := by
      intro k hk hkc
      rw [hrev] at hk
      rcases List.mem_append.1 hk with hk | hk
      · exact hlatest k (List.mem_reverse.1 hk) hkc
      · rw [List.mem_singleton.1 hk, hshape.guards.2]
        omega
    have hlast : h.memory.lastfree = some (h.memory.prior top) := by
      unfold lastfree
      rw [hshape.keys, ← List.cons_append, List.getLast?_concat]
      rfl
    simp only [hlast, hfit, Option.bind_eq_bind, Option.bind_some, Option.pure_def]
    by_cases hcz : c = 0
    · rw [if_pos ((hshape.isfirstfree_iff hcmem).2 hcz)]
      refine ⟨0, h, ?_, rfl, .inl ⟨rfl, rfl⟩, .inl ⟨rfl, .inr fun k hk => ?_⟩⟩
      · simp [guard, hcz, hshape.guards.1]
      · rcases Nat.eq_zero_or_pos k with heq | hpos
        · rw [heq, hshape.guards.1]
          omega
        · exact hbefore k hk (by omega)
    · rw [if_neg (by rw [hshape.isfirstfree_iff hcmem]; exact hcz)]
      have hctop : c ≠ top := by
        have hsorted := hshape.sorted
        rw [hrev] at hsorted
        have := (List.pairwise_append.1 hsorted).2.2 c (List.mem_reverse.2 hc) top (by simp)
        omega
      obtain ⟨us, p, q, vs, rfl, hblock⟩ := hshape.between hcmem hcz hctop
      obtain ⟨ptr, m', blocks', frees', htake, hplace, hfresh, hstock', hapart'⟩ :=
        takeHigh_spec hs.stock hs.apart hblock (by omega) (hcases.resolve_left hcz)
      rw [htake]
      have hptr : ptr ≠ 0 := ptr_ne_zero hstock' (.inr ⟨rfl, rfl⟩)
      exact ⟨ptr, _, rfl, by rw [if_neg hptr], .inr ⟨hptr, hfresh, rfl, rfl, blocks', frees',
        hstock', hapart'⟩, .inr ⟨by omega, c, hcmem, hcases.resolve_left hcz, hplace, hbefore⟩⟩

/-! ### A block is freed -/

/-- The free entries on both sides of a block that is not in the list. -/
theorem exists_gap {l : List Nat} (hsorted : l.Pairwise (· < ·)) (ha : a ∈ l) (hb : b ∈ l)
    (hax : a < x) (hxb : x < b) (hx : x ∉ l) : ∃ xs p q ys, l = xs ++ p :: q :: ys ∧ p < x ∧ x < q := by
  induction l generalizing a with
  | nil => cases ha
  | cons c l ih =>
    obtain ⟨hc, hsorted'⟩ := List.pairwise_cons.1 hsorted
    have hbl : b ∈ l := by
      rcases List.mem_cons.1 hb with rfl | hbl
      · rcases List.mem_cons.1 ha with rfl | hal
        · omega
        · have := hc a hal
          omega
      · exact hbl
    cases l with
    | nil => cases hbl
    | cons d l =>
      have hxd : x ≠ d := fun hxd => hx (by simp [hxd])
      rcases Nat.lt_or_gt_of_ne hxd with hlt | hgt
      · refine ⟨[], c, d, l, rfl, ?_, hlt⟩
        rcases List.mem_cons.1 ha with rfl | hal
        · exact hax
        · rcases List.mem_cons.1 hal with rfl | hal
          · omega
          · have := (List.pairwise_cons.1 hsorted').1 a hal
            omega
      · obtain ⟨xs, p, q, ys, heq, hpx, hxq⟩ :=
          ih hsorted' (by simp) hbl hgt fun hmem => hx (List.mem_cons_of_mem c hmem)
        exact ⟨c :: xs, p, q, ys, by rw [heq]; rfl, hpx, hxq⟩

/-- `free` goes back to the free entry before the block. -/
theorem find_before (hs : Stock m pool stop blocks (xs ++ p :: q :: ys) total taken)
    (hpx : p < x) (hxq : x ≤ q) :
    (m.below x).find? m.isfree = some p := by
  have hshape := hs.shape
  have hp : p ∈ m.keys := hshape.sub p (by simp)
  have hpfree : m.isfree p = true := (hshape.isfree_iff hs.used hp).2 (by simp)
  have hbelow : p ∈ m.below x := by
    unfold below
    rw [List.mem_reverse, List.mem_filter]
    exact ⟨hp, by simpa using hpx⟩
  obtain ⟨us, vs, hsplit⟩ := List.append_of_mem hbelow
  rw [List.find?_eq_some_iff_append]
  refine ⟨hpfree, us, vs, hsplit, fun k hk => ?_⟩
  -- what comes before `p` on the way back lies between `p` and the block
  have hdesc : (m.below x).Pairwise (fun a b => b < a) := by
    unfold below
    exact List.pairwise_reverse.2 (m.sorted.filter _)
  have hkmem : k ∈ m.below x := by
    rw [hsplit]
    simp [hk]
  have hkp : p < k := by
    rw [hsplit] at hdesc
    exact (List.pairwise_append.1 hdesc).2.2 k hk p (by simp)
  have hkx : k ∈ m.keys ∧ k < x := by
    unfold below at hkmem
    rw [List.mem_reverse, List.mem_filter] at hkmem
    exact ⟨hkmem.1, by simpa using hkmem.2⟩
  have hout : k ∉ xs ++ p :: q :: ys := by
    intro hmem
    have hsorted := hshape.sorted
    obtain ⟨hbefore, hbehind⟩ := lt_of_sorted hsorted
    rcases List.mem_append.1 hmem with hmem | hmem
    · have := hbefore k hmem
      omega
    · rcases List.mem_cons.1 hmem with rfl | hmem
      · omega
      · rcases List.mem_cons.1 hmem with rfl | hmem
        · omega
        · have := (List.pairwise_cons.1 (List.pairwise_cons.1
            (List.pairwise_append.1 hsorted).2.1).2).1 k hmem
          omega
  have hnot : ¬ m.isfree k = true := fun hfree => hout ((hshape.isfree_iff hs.used hkx.1).1 hfree)
  simpa using hnot

/-- The block is merged with what stands before it. -/
theorem merge_before (hs : Stock m pool stop blocks (xs ++ p :: x :: ys) total taken)
    (hle : p + m.len p ≤ x) (hleft : Apart m.len (xs ++ [p])) (hright : Apart m.len ys)
    (hbehind : ∀ q ∈ ys.head?, x + m.len x ≤ q) :
    ∃ it m' blocks' zs, m.merge p x = some (it, m') ∧
      Stock m' pool stop blocks' (zs ++ it :: ys) total taken ∧ Apart m'.len (zs ++ [it]) ∧
      Apart m'.len ys ∧ ∀ q ∈ ys.head?, it + m'.len it ≤ q := by
  rcases hs.merge hle with ⟨hlt, heq⟩ | ⟨hnear, q, zs, m', blocks', rfl, heq, hlen, hstock⟩
  · refine ⟨x, m, blocks, xs ++ [p], heq, by simpa using hs, ?_, hright, hbehind⟩
    rw [List.append_assoc, List.singleton_append]
    exact Apart.split.2 ⟨hleft, hlt, List.isChain_singleton x⟩
  · refine ⟨p, m', blocks', xs, heq, hstock, hleft.frame fun k hk => ?_,
      Apart.frame hright fun k hk => ?_, fun q' hq' => ?_⟩
    · rw [List.dropLast_concat] at hk
      have := (lt_of_sorted hstock.shape.sorted).1 k hk
      rw [hlen, if_neg (by omega)]
    · have := (lt_of_sorted hstock.shape.sorted).2 k (List.dropLast_subset _ hk)
      rw [hlen, if_neg (by omega)]
    · have := hbehind q' hq'
      rw [hlen, if_pos rfl]
      omega

/-- And with what stands behind it. -/
theorem merge_behind (hs : Stock m pool stop blocks (xs ++ x :: q :: ys) total taken)
    (hle : x + m.len x ≤ q) (hleft : Apart m.len (xs ++ [x])) (hright : Apart m.len (q :: ys)) :
    ∃ it m' blocks' frees', m.merge x q = some (it, m') ∧
      Stock m' pool stop blocks' frees' total taken ∧ Apart m'.len frees' := by
  rcases hs.merge hle with ⟨hlt, heq⟩ | ⟨hnear, q', zs, m', blocks', rfl, heq, hlen, hstock⟩
  · exact ⟨q, m, blocks, _, heq, hs, Apart.split.2 ⟨hleft, hlt, hright⟩⟩
  · obtain ⟨hqq, hright'⟩ := List.isChain_cons_cons.1 hright
    have hsorted := lt_of_sorted hstock.shape.sorted
    have hright'' : Apart m'.len (q' :: zs) := Apart.frame hright' fun k hk => by
      have := hsorted.2 k (List.dropLast_subset _ hk)
      rw [hlen, if_neg (by omega)]
    refine ⟨x, m', blocks', _, heq, hstock, Apart.split.2 ⟨hleft.frame fun k hk => ?_, ?_, hright''⟩⟩
    · rw [List.dropLast_concat] at hk
      have := hsorted.1 k hk
      rw [hlen, if_neg (by omega)]
    · rw [hlen, if_pos rfl]
      omega

theorem free (hs : Sound h blocks frees taken) {ptr : Nat} (ht : taken ptr n) :
    ∃ h', h.free ptr = some h' ∧ h'.high = h.high.erase ptr ∧ h'.pool = h.pool ∧
      h'.length = h.length ∧
        ∃ blocks' frees', Sound h' blocks' frees' fun k l => taken k l ∧ k ≠ ptr := by
  have hshape := hs.stock.shape
  obtain ⟨hblock, hout, hlen⟩ := (hs.stock.taken ptr n).1 ht
  have hbounds := hshape.bounds hblock
  have hroom := hshape.room
  have hkey : ptr ∈ h.memory.keys := hshape.mem_keys.2 (.inr (.inl hblock))
  obtain ⟨xs, p, q, ys, rfl, hpx, hxq⟩ :=
    exists_gap hshape.sorted hshape.low hshape.high hbounds.1 hbounds.2.2.2 hout
  obtain ⟨m₁, hinsert, hlen₁, hstock₁⟩ := hs.stock.insertafter ht hpx hxq
  obtain ⟨hleft, -, hright⟩ := Apart.split.1 hs.apart
  -- the block does not overlap with the entries on both sides
  have hple : p + m₁.len p ≤ ptr := by
    rw [hlen₁]
    by_cases hp : p = 0
    · rw [hp, hshape.guards.1]
      omega
    · have hq := hshape.le_top (hshape.sub q (by simp))
      exact hshape.tiles.le_of_lt (hshape.block (hshape.sub p (by simp)) hp (by omega)) hblock hpx
  have hqle : ptr + m₁.len ptr ≤ q := by
    rw [hlen₁]
    by_cases hq : q = top
    · omega
    · exact hshape.tiles.le_of_lt hblock (hshape.block (hshape.sub q (by simp)) (by omega) hq) hxq
  obtain ⟨it, m₂, blocks₂, zs, hmerge, hstock₂, hleft₂, hright₂, hbehind⟩ :=
    merge_before hstock₁ hple (hleft.frame fun k _ => hlen₁ k) (Apart.frame hright fun k _ => hlen₁ k)
      (by simpa using hqle)
  obtain ⟨it', m₃, blocks₃, frees₃, hmerge', hstock₃, hapart₃⟩ :=
    merge_behind hstock₂ (hbehind q rfl) hleft₂ hright₂
  have hnext : m₂.deref (m₂.next it) = some q := by
    rw [hstock₂.shape.joined.1]
    exact deref_entry (hstock₂.shape.sub q (by simp))
  have hfind : h.memory.deref (h.memory.find ptr) = some ptr := by
    rw [find, if_pos hkey, deref_entry hkey]
  have hnextp : h.memory.deref (h.memory.next p) = some q := by
    rw [hshape.joined.1]
    exact deref_entry (hshape.sub q (by simp))
  have htotal : (h.totalFree + h.memory.len ptr) % 2 ^ 64 = h.totalFree + n := by
    have := hstock₁.total_le
    rw [hlen]
    exact Nat.mod_eq_of_lt (by unfold top at this; omega)
  refine ⟨⟨h.pool, h.length, h.totalFree + n, m₃, h.high.erase ptr⟩, ?_, rfl, rfl, rfl, blocks₃,
    frees₃, hstock₃, hapart₃⟩
  unfold Heap.free
  rw [if_neg (by omega)]
  simp only [hfind, htotal, find_before hs.stock hpx hxq.le, hnextp, guard, hxq, hinsert, hmerge, hnext,
    hmerge', reduceIte, Option.pure_def, Option.bind_eq_bind, Option.bind_some]

end Sound

end Costream.SmallHeap
