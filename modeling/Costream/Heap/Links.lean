import Costream.Chain
import Costream.Heap.SmallHeap

/-!
# What the operations on the list do

One lemma for each of `insertafter`, `remove` and `merge`: it does not fault, and these are the
links and lengths afterwards.
-/

namespace Costream.SmallHeap

namespace Memory

variable {m : Memory} {ptr k : Nat}

/-! ## Assignments -/

@[simp] theorem setLen_keys (n : Nat) : (m.setLen ptr n).keys = m.keys := rfl

@[simp] theorem setNext_keys (it : Iterator) : (m.setNext ptr it).keys = m.keys := rfl

@[simp] theorem setPrior_keys (it : Iterator) : (m.setPrior ptr it).keys = m.keys := rfl

@[simp] theorem setLen_deref (n : Nat) (it : Iterator) :
    (m.setLen ptr n).deref it = m.deref it := rfl

@[simp] theorem setNext_deref (it it' : Iterator) :
    (m.setNext ptr it).deref it' = m.deref it' := rfl

@[simp] theorem setPrior_deref (it it' : Iterator) :
    (m.setPrior ptr it).deref it' = m.deref it' := rfl

theorem set_node (n : Node) : (m.set ptr n).node k = if k = ptr then n else m.node k :=
  Function.update_apply m.node ptr n k

@[simp] theorem setLen_len (n : Nat) :
    (m.setLen ptr n).len k = if k = ptr then n else m.len k := by
  rw [setLen, len, set_node]
  split <;> rfl

@[simp] theorem setLen_next (n : Nat) : (m.setLen ptr n).next k = m.next k := by
  rw [setLen, next, set_node]
  split <;> simp_all [next]

@[simp] theorem setLen_prior (n : Nat) : (m.setLen ptr n).prior k = m.prior k := by
  rw [setLen, prior, set_node]
  split <;> simp_all [prior]

@[simp] theorem setNext_len (it : Iterator) : (m.setNext ptr it).len k = m.len k := by
  rw [setNext, len, set_node]
  split <;> simp_all [len]

@[simp] theorem setNext_next (it : Iterator) :
    (m.setNext ptr it).next k = if k = ptr then it else m.next k := by
  rw [setNext, next, set_node]
  split <;> rfl

@[simp] theorem setNext_prior (it : Iterator) : (m.setNext ptr it).prior k = m.prior k := by
  rw [setNext, prior, set_node]
  split <;> simp_all [prior]

@[simp] theorem setPrior_len (it : Iterator) : (m.setPrior ptr it).len k = m.len k := by
  rw [setPrior, len, set_node]
  split <;> simp_all [len]

@[simp] theorem setPrior_next (it : Iterator) : (m.setPrior ptr it).next k = m.next k := by
  rw [setPrior, next, set_node]
  split <;> simp_all [next]

@[simp] theorem setPrior_prior (it : Iterator) :
    (m.setPrior ptr it).prior k = if k = ptr then it else m.prior k := by
  rw [setPrior, prior, set_node]
  split <;> rfl

@[simp] theorem setLen_begin (n : Nat) : (m.setLen ptr n).begin = m.begin := rfl

@[simp] theorem setNext_begin (it : Iterator) : (m.setNext ptr it).begin = m.begin := rfl

@[simp] theorem setPrior_begin (it : Iterator) : (m.setPrior ptr it).begin = m.begin := rfl

theorem deref_entry (h : k ∈ m.keys) : m.deref (.entry k) = some k := if_pos h

theorem index_fresh (h : ptr ∉ m.keys) :
    m.index ptr =
      { keys := m.keys.filter (· < ptr) ++ ptr :: m.keys.filter (ptr < ·)
        node := Function.update m.node ptr ⟨0, .singular, .singular⟩
        sorted := m.sorted_insert ptr } := if_neg h

theorem mem_index (h : ptr ∉ m.keys) : k ∈ (m.index ptr).keys ↔ k = ptr ∨ k ∈ m.keys := by
  rw [index_fresh h]
  simp only [List.mem_append, List.mem_cons, List.mem_filter, decide_eq_true_eq]
  constructor
  · rintro (⟨hk, -⟩ | rfl | ⟨hk, -⟩)
    · exact .inr hk
    · exact .inl rfl
    · exact .inr hk
  · rintro (rfl | hk)
    · exact .inr (.inl rfl)
    · rcases Nat.lt_trichotomy k ptr with hlt | heq | hgt
      · exact .inl ⟨hk, hlt⟩
      · exact absurd (heq ▸ hk) h
      · exact .inr (.inr ⟨hk, hgt⟩)

theorem index_node (h : ptr ∉ m.keys) (hk : k ≠ ptr) : (m.index ptr).node k = m.node k := by
  rw [index_fresh h]
  exact Function.update_of_ne hk _ _

/-- The keys are in order, so they are known by what is in them. -/
theorem keys_eq {l : List Nat} (hl : l.Pairwise (· < ·)) (hmem : ∀ k, k ∈ m.keys ↔ k ∈ l) :
    m.keys = l := m.sorted.eq_of_mem_iff hl hmem

/-! ## `insertafter`, `remove` and `merge` -/

theorem insertafter_spec {place node q : Nat} (hlt : place < node)
    (hfree : m.next place ≠ m.begin) (hnext : m.next place = .entry q) (hq : q ∈ m.keys) :
    ∃ m', m.insertafter place node = some m' ∧ m'.keys = m.keys ∧ (∀ k, m'.len k = m.len k) ∧
      (∀ k, m'.next k = if k = place then .entry node else if k = node then .entry q
        else m.next k) ∧
      ∀ k, m'.prior k = if k = q then .entry node else if k = node then .entry place
        else m.prior k := by
  have hfree' : m.isfree place = true := by simpa [isfree] using hfree
  unfold insertafter
  simp only [guard, hlt, hfree', hnext, reduceIte, Option.pure_def, Option.bind_eq_bind,
    Option.bind_some, setNext_deref, setPrior_deref, deref_entry hq]
  refine ⟨_, rfl, rfl, fun k => by simp, fun k => by simp, fun k => by simp⟩

theorem remove_spec {node p q : Nat} (hfree : m.next node ≠ m.begin)
    (hprior : m.prior node = .entry p) (hp : p ∈ m.keys) (hpn : p ≠ node)
    (hnext : m.next node = .entry q) (hq : q ∈ m.keys) :
    ∃ m', m.remove node = some m' ∧ m'.keys = m.keys ∧ (∀ k, m'.len k = m.len k) ∧
      (∀ k, m'.next k = if k = node then m.begin else if k = p then .entry q else m.next k) ∧
      ∀ k, m'.prior k = if k = q then .entry p else m.prior k := by
  have hfree' : m.isfree node = true := by simpa [isfree] using hfree
  unfold remove
  simp only [guard, hfree', hprior, hnext, reduceIte, Option.pure_def, Option.bind_eq_bind,
    Option.bind_some, deref_entry hp, setNext_next, if_neg hpn.symm, setNext_prior, setNext_deref,
    deref_entry hq]
  refine ⟨_, rfl, rfl, fun k => by simp [setused], fun k => ?_, fun k => by simp [setused]⟩
  rw [setused, setNext_next, setPrior_next, setNext_next]
  rfl

theorem merge_far {low high : Nat} (hlow : m.next low ≠ m.begin) (hhigh : m.next high ≠ m.begin)
    (hfar : (low + m.len low) % 2 ^ 64 ≠ high) : m.merge low high = some (high, m) := by
  have hlow' : m.isfree low = true := by simpa [isfree] using hlow
  have hhigh' : m.isfree high = true := by simpa [isfree] using hhigh
  unfold merge
  simp only [guard, hlow', hhigh', reduceIte, Option.pure_def, Option.bind_eq_bind,
    Option.bind_some, ne_eq, hfar, not_false_eq_true]

theorem merge_near {low high q : Nat} (hlow : m.next low ≠ m.begin) (hhigh : m.next high ≠ m.begin)
    (hnear : low + m.len low = high) (hbound : high + m.len high < 2 ^ 64)
    (hnext : m.next high = .entry q) (hq : q ∈ m.keys) (hlh : low ≠ high) :
    ∃ m', m.merge low high = some (low, m') ∧ m'.keys = m.keys.filter (· ≠ high) ∧
      (∀ k, m'.len k = if k = low then m.len low + m.len high else m.len k) ∧
      (∀ k, m'.next k = if k = low then .entry q else m.next k) ∧
      ∀ k, m'.prior k = if k = q then .entry low else m.prior k := by
  have hlow' : m.isfree low = true := by simpa [isfree] using hlow
  have hhigh' : m.isfree high = true := by simpa [isfree] using hhigh
  have hlast : m.islastfree high = false := by simp [islastfree, hnext]
  have hmod : (low + m.len low) % 2 ^ 64 = high := by omega
  have hlen : (m.len low + m.len high) % 2 ^ 64 = m.len low + m.len high :=
    Nat.mod_eq_of_lt (by omega)
  unfold merge
  simp only [guard, hlow', hhigh', hmod, hlast, hlen, reduceIte, Option.pure_def,
    Option.bind_eq_bind, Option.bind_some, ne_eq, not_true_eq_false, Bool.not_false, setLen_next,
    setNext_next, if_neg hlh.symm, hnext, setLen_deref, setNext_deref, deref_entry hq]
  refine ⟨_, rfl, rfl, fun k => ?_, fun k => ?_, fun k => ?_⟩
  · show Memory.len (Memory.setPrior _ _ _) k = _
    simp
  · show Memory.next (Memory.setPrior _ _ _) k = _
    simp
  · show Memory.prior (Memory.setPrior _ _ _) k = _
    simp

end Memory

end Costream.SmallHeap
