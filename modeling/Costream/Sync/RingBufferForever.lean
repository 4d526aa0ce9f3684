import Costream.Sync.RingBuffer

/-!
# The ring buffer for ever

What happens to a buffer over any number of calls, `write_` overflowing or not.

* `Fifo` says of a sequence of calls that the buffer behaves as a bounded queue all along, and that
  its slots are used as they should be.
* `Tidy` is what the calls keep: the slots hold the stored elements and nothing else.
* `fifo_forever_iff` is the result.  All sequences go well if and only if the number of slots
  divides the number of values of a `size_t`; and one goes well if `write_` does not overflow in it.
-/

namespace Costream.Sync.RingBuffer

variable {w cap : Nat} {α : Type*} {q : RingBuffer w α} {xs : List α} {a : α}

inductive Call (α : Type*) where
  | push (a : α)
  | pop

/-- With the elements `xs`, oldest first, each of the calls is answered as by a queue with room for
`capacity_` elements; a push puts its element into a free slot, and a pop takes one from a slot that
is not free. -/
def Fifo (q : RingBuffer w α) (xs : List α) : List (Call α) → Prop
  | [] => True
  | .push a :: rest =>
    if xs.length < q.capacity then
      q.buf q.pwrite = none ∧ ∃ q', q.push a = some (true, q') ∧ Fifo q' (xs ++ [a]) rest
    else q.push a = some (false, q) ∧ Fifo q xs rest
  | .pop :: rest =>
    match xs with
    | [] => q.pop = some (none, q) ∧ Fifo q [] rest
    | x :: xs => (q.buf q.pread).isSome ∧ ∃ q', q.pop = some (some x, q') ∧ Fifo q' xs rest

/-- How many pushes a queue accepts that has `n` elements. -/
def accepted (cap n : Nat) : List (Call α) → Nat
  | [] => 0
  | .push _ :: rest => if n < cap then accepted cap (n + 1) rest + 1 else accepted cap n rest
  | .pop :: rest => accepted cap (n - 1) rest

/-! ## Free slots -/

/-- A slot that stores no element is free. -/
structure Tidy (q : RingBuffer w α) (xs : List α) : Prop where
  holds : q.Holds xs
  free : ∀ j ≤ q.capacity, (∀ i < xs.length, q.slot i ≠ j) → q.buf j = none

theorem slot_le (q : RingBuffer w α) (i : Nat) : q.slot i ≤ q.capacity :=
  Nat.le_of_lt_succ (Nat.mod_lt _ (Nat.succ_pos _))

theorem tidy_create (h : cap + 1 < 2 ^ w) : (create cap : RingBuffer w α).Tidy [] :=
  ⟨holds_create h, fun _ _ _ => rfl⟩

/-- The slot of the next element is free. -/
theorem Tidy.pwrite_free (h : q.Tidy xs) (hlen : xs.length < q.capacity) : q.buf q.pwrite = none := by
  rw [h.holds.pwrite_eq]
  refine h.free _ (q.slot_le _) fun i hi heq => ?_
  exact q.slot_ne hi (Nat.le_of_lt hlen) heq.symm

/-- After a push the slots that store no element are free, if the slots of the old elements are
still the same. -/
theorem Tidy.free_push (h : q.Tidy xs) {slot : Nat → Nat}
    (hslot : ∀ i < (xs ++ [a]).length, slot i = q.slot i) {j : Nat} (hj : j ≤ q.capacity)
    (hne : ∀ i < (xs ++ [a]).length, slot i ≠ j) :
    Function.update q.buf (q.slot xs.length) (some a) j = none := by
  have hlen : (xs ++ [a]).length = xs.length + 1 := by
    rw [List.length_append, List.length_singleton]
  rw [hlen] at hslot hne
  have hlast : j ≠ q.slot xs.length := by
    have hne' := hne xs.length (Nat.lt_succ_self _)
    rw [hslot xs.length (Nat.lt_succ_self _)] at hne'
    exact hne'.symm
  rw [Function.update_of_ne hlast]
  refine h.free j hj fun i hi => ?_
  rw [← hslot i (by omega)]
  exact hne i (by omega)

theorem Tidy.push (h : q.Tidy xs) (hlen : xs.length < q.capacity) (hw : q.Wraps) :
    ∃ q', q.push a = some (true, q') ∧ q'.Tidy (xs ++ [a]) ∧ q'.capacity = q.capacity ∧
      (q.write + 1 < 2 ^ w → q'.write = q.write + 1) := by
  obtain ⟨q', hpush, hholds, hcap, hwrite⟩ := push_spec (a := a) h.holds hlen hw
  refine ⟨q', hpush, ⟨hholds, fun j hj hne => ?_⟩, hcap, hwrite⟩
  rw [hcap] at hj
  by_cases hover : q.write + 1 < 2 ^ w
  · have hbelow := push_below (a := a) h.holds hlen hover
    rw [hpush, Option.some.injEq, Prod.mk.injEq] at hbelow
    rw [hbelow.2] at hne ⊢
    have hsame : ∀ i < (xs ++ [a]).length, q.slot i = q.slot i := fun i _ => rfl
    exact h.free_push hsame hj hne
  · have hlt := h.holds.write_lt
    have hoverflow := push_overflow (a := a) h.holds hlen (by omega)
    rw [hpush, Option.some.injEq, Prod.mk.injEq] at hoverflow
    rw [hoverflow.2] at hne ⊢
    refine h.free_push (fun i _ => ?_) hj hne
    exact h.holds.slot_rebased (by omega) (hw.resolve_left hover) i

theorem Tidy.pread_stored (h : q.Tidy (a :: xs)) : q.pread = q.slot 0 ∧ q.buf q.pread = some a := by
  have hpread : q.pread = q.slot 0 := by
    rw [pread, slot, h.holds.slots_eq]
    rfl
  have hhead := h.holds.stored 0 (Nat.succ_pos _)
  rw [← hpread, List.getElem?_cons_zero] at hhead
  exact ⟨hpread, hhead⟩

theorem Tidy.pop (h : q.Tidy (a :: xs)) :
    ∃ q', q.pop = some (some a, q') ∧ q'.Tidy xs ∧ q'.capacity = q.capacity ∧ q'.write = q.write := by
  obtain ⟨q', hpop, hholds, hcap, hwrite⟩ := pop_spec h.holds
  obtain ⟨hpread, hhead⟩ := h.pread_stored
  have hweq := h.holds.write_eq
  have hwlt := h.holds.write_lt
  rw [List.length_cons] at hweq
  have hsize : q.size ≠ 0 := by
    rw [h.holds.size_eq, List.length_cons]
    exact Nat.succ_ne_zero _
  have heq := pop_eq hsize h.holds.slots_ne_zero hhead
  rw [hpop, Option.some.injEq, Prod.mk.injEq, Nat.mod_eq_of_lt (by omega : q.read + 1 < 2 ^ w)] at heq
  refine ⟨q', hpop, ⟨hholds, fun j hj hne => ?_⟩, hcap, hwrite⟩
  rw [hcap] at hj
  rw [heq.2] at hne ⊢
  show Function.update q.buf q.pread none j = none
  by_cases hjread : j = q.pread
  · rw [hjread, Function.update_self]
  · rw [Function.update_of_ne hjread]
    refine h.free j hj fun i hi => ?_
    cases i with
    | zero =>
      rw [← hpread]
      exact fun hslot => hjread hslot.symm
    | succ i =>
      have hnext := hne i (by simpa using hi)
      have hslot : (q.read + 1 + i) % (q.capacity + 1) = q.slot (i + 1) := by
        rw [slot, Nat.add_assoc, Nat.add_comm 1]
      rw [← hslot]
      exact hnext

/-! ## Sequences that go well -/

/-- The slots divide the range of the counters, or `write_` does not come to its end. -/
theorem Tidy.fifo (h : q.Tidy xs) (calls : List (Call α))
    (hwraps : q.capacity + 1 ∣ 2 ^ w ∨ q.write + accepted q.capacity xs.length calls < 2 ^ w) :
    q.Fifo xs calls := by
  induction calls generalizing q xs with
  | nil => trivial
  | cons call rest ih =>
    cases call with
    | push a =>
      unfold Fifo
      by_cases hlen : xs.length < q.capacity
      · rw [if_pos hlen]
        have hw : q.Wraps := by
          rcases hwraps with hdvd | hlt
          · exact .inr hdvd
          · unfold accepted at hlt
            rw [if_pos hlen] at hlt
            exact .inl (by omega)
        obtain ⟨q', hpush, htidy, hcap, hwrite⟩ := h.push (a := a) hlen hw
        refine ⟨h.pwrite_free hlen, q', hpush, ih htidy ?_⟩
        rw [hcap, List.length_append, List.length_singleton]
        rcases hwraps with hdvd | hlt
        · exact .inl hdvd
        · unfold accepted at hlt
          rw [if_pos hlen] at hlt
          rw [hwrite (by omega)]
          exact .inr (by omega)
      · rw [if_neg hlen]
        have hle := h.holds.length_le
        refine ⟨push_full h.holds (by omega), ih h ?_⟩
        unfold accepted at hwraps
        rw [if_neg hlen] at hwraps
        exact hwraps
    | pop =>
      unfold accepted at hwraps
      cases xs with
      | nil => exact ⟨pop_nil h.holds, ih h hwraps⟩
      | cons x xs =>
        obtain ⟨q', hpop, htidy, hcap, hwrite⟩ := h.pop
        have hstored := h.pread_stored.2
        refine ⟨by rw [hstored]; rfl, q', hpop, ih htidy ?_⟩
        rw [hcap, hwrite]
        exact hwraps

/-! ## The sequence that goes wrong -/

/-- The empty buffer through which `n` elements have gone. -/
def spun (cap n : Nat) : RingBuffer w α := ⟨cap, fun _ => none, n, n⟩

/-- One element goes in and out, `n` times. -/
def spin (a : α) : Nat → List (Call α)
  | 0 => []
  | n + 1 => .push a :: .pop :: spin a n

theorem spun_holds (hfits : cap + 1 < 2 ^ w) {n : Nat} (hn : n < 2 ^ w) :
    (spun cap n : RingBuffer w α).Holds [] :=
  ⟨hfits, Nat.zero_le _, rfl, hn, fun _ hi => absurd hi (Nat.not_lt_zero _)⟩

theorem update_update_none (j : Nat) :
    Function.update (Function.update (fun _ => none) j (some a)) j none = fun _ => none := by
  rw [Function.update_idem]
  exact Function.update_eq_self j fun _ => none

/-- A push and a pop. -/
theorem spun_succ (hfits : cap + 1 < 2 ^ w) (hcap : 0 < cap) {n : Nat} (hn : n + 1 < 2 ^ w)
    {rest : List (Call α)} (h : (spun cap n : RingBuffer w α).Fifo [] (.push a :: .pop :: rest)) :
    (spun cap (n + 1) : RingBuffer w α).Fifo [] rest := by
  have hholds : (spun cap n : RingBuffer w α).Holds [] := spun_holds hfits (Nat.lt_of_succ_lt hn)
  have hroom : ([] : List α).length < (spun cap n : RingBuffer w α).capacity := hcap
  unfold Fifo at h
  rw [if_pos hroom] at h
  obtain ⟨_, q₁, hpush, h⟩ := h
  have hpushed := push_below (a := a) hholds hcap hn
  rw [hpush, Option.some.injEq, Prod.mk.injEq] at hpushed
  unfold Fifo at h
  obtain ⟨_, q₂, hpop, hrest⟩ := h
  have hpread : q₁.pread = (spun cap n : RingBuffer w α).slot 0 := by
    rw [hpushed.2]
    show n % ((cap + 1) % 2 ^ w) = n % (cap + 1)
    rw [Nat.mod_eq_of_lt hfits]
  have hsize : q₁.size ≠ 0 := by
    rw [hpushed.2]
    show (n + 1 + 2 ^ w - n) % 2 ^ w ≠ 0
    rw [show n + 1 + 2 ^ w - n = 1 + 2 ^ w by omega, Nat.add_mod_right, Nat.mod_eq_of_lt (by omega)]
    exact Nat.one_ne_zero
  have hslots : q₁.slots ≠ 0 := by
    rw [hpushed.2]
    exact hholds.slots_ne_zero
  have hstored : q₁.buf q₁.pread = some a := by
    rw [hpread, hpushed.2]
    exact Function.update_self ..
  have hpopped := pop_eq hsize hslots hstored
  rw [hpop, Option.some.injEq, Prod.mk.injEq] at hpopped
  have hq₂ : q₂ = spun cap (n + 1) := by
    rw [hpopped.2, hpread, hpushed.2]
    show (⟨cap, Function.update (Function.update (fun _ => none) (n % (cap + 1)) (some a))
      (n % (cap + 1)) none, n + 1, (n + 1) % 2 ^ w⟩ : RingBuffer w α) = ⟨cap, fun _ => none, n + 1, n + 1⟩
    rw [update_update_none, Nat.mod_eq_of_lt hn]
  rw [hq₂] at hrest
  exact hrest

theorem spun_of_spin (hfits : cap + 1 < 2 ^ w) (hcap : 0 < cap) {rest : List (Call α)} (m n : Nat)
    (hn : n + m < 2 ^ w) (h : (spun cap n : RingBuffer w α).Fifo [] (spin a m ++ rest)) :
    (spun cap (n + m) : RingBuffer w α).Fifo [] rest := by
  induction m generalizing n with
  | zero => exact h
  | succ m ih =>
    have hnext := ih (n + 1) (by omega) (spun_succ hfits hcap (by omega) h)
    rw [Nat.add_right_comm] at hnext
    exact hnext

/-- The element that is pushed when `write_` overflows is not where the new counter leads to. -/
theorem not_fifo (a : α) (hfits : cap + 1 < 2 ^ w) (hdvd : ¬ cap + 1 ∣ 2 ^ w) :
    ¬ (create cap : RingBuffer w α).Fifo [] (spin a (2 ^ w - 1) ++ [.push a, .pop]) := by
  intro h
  have hcap : 0 < cap := by
    refine Nat.pos_of_ne_zero fun hzero => hdvd ?_
    rw [hzero]
    exact Nat.one_dvd _
  have hlast := spun_of_spin hfits hcap (2 ^ w - 1) 0 (by omega) h
  rw [Nat.zero_add] at hlast
  have hroom : ([] : List α).length < (spun cap (2 ^ w - 1) : RingBuffer w α).capacity := hcap
  unfold Fifo at hlast
  rw [if_pos hroom] at hlast
  obtain ⟨_, q₁, hpush, hlast⟩ := hlast
  have hover : (spun cap (2 ^ w - 1) : RingBuffer w α).write + 1 = 2 ^ w :=
    Nat.sub_add_cancel (Nat.one_le_two_pow)
  have hpushed := push_overflow (a := a) (spun_holds hfits (by omega)) hcap hover
  rw [hpush, Option.some.injEq, Prod.mk.injEq] at hpushed
  unfold Fifo at hlast
  have hpread : q₁.pread = cap := by
    rw [hpushed.2]
    show (cap - 0) % ((cap + 1) % 2 ^ w) = cap
    rw [Nat.mod_eq_of_lt hfits, Nat.sub_zero, Nat.mod_eq_of_lt (Nat.lt_succ_self cap)]
  have hslot : (spun cap (2 ^ w - 1) : RingBuffer w α).slot ([] : List α).length =
      (2 ^ w - 1) % (cap + 1) := rfl
  have hstored := hlast.1
  rw [hpread, hpushed.2] at hstored
  by_cases heq : cap = (2 ^ w - 1) % (cap + 1)
  · refine hdvd ⟨(2 ^ w - 1) / (cap + 1) + 1, ?_⟩
    have hdiv := Nat.div_add_mod (2 ^ w - 1) (cap + 1)
    rw [← heq] at hdiv
    rw [Nat.mul_add]
    omega
  · rw [hslot] at hstored
    simp only at hstored
    rw [Function.update_of_ne heq] at hstored
    cases hstored

/-! ## For ever -/

/-- For every capacity and every width of the counters: all sequences of calls go well if and only
if the slots divide the range of the counters, and whether they do or not, a sequence goes well in
which `write_` does not overflow. -/
theorem fifo_forever_iff (a : α) (hfits : cap + 1 < 2 ^ w) :
    ((∀ calls, (create cap : RingBuffer w α).Fifo [] calls) ↔ cap + 1 ∣ 2 ^ w) ∧
      ∀ calls : List (Call α), accepted cap 0 calls < 2 ^ w →
        (create cap : RingBuffer w α).Fifo [] calls := by
  refine ⟨⟨fun h => ?_, fun hdvd calls => ?_⟩, fun calls hlt => ?_⟩
  · by_contra hdvd
    exact not_fifo a hfits hdvd (h _)
  · exact (tidy_create hfits).fifo calls (.inl hdvd)
  · refine (tidy_create hfits).fifo calls (.inr ?_)
    rw [show (create cap : RingBuffer w α).write = 0 from rfl, Nat.zero_add]
    exact hlt

/-- Four slots: when `write_` has overflowed, the next element is still found. -/
theorem fifo_forever_three :
    (create 3 : RingBuffer 64 Nat).Fifo [] (spin 0 (2 ^ 64 - 1) ++ [.push 0, .pop]) :=
  (fifo_forever_iff 0 (by decide)).1.2 (by decide) _

/-- Three slots: after `2 ^ 64 - 1` elements have gone through the buffer, the next one is lost. -/
theorem element_lost :
    ¬ (create 2 : RingBuffer 64 Nat).Fifo [] (spin 0 (2 ^ 64 - 1) ++ [.push 0, .pop]) :=
  not_fifo 0 (by decide) (by decide)

end Costream.Sync.RingBuffer
