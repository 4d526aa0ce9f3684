import Costream.Align
import Mathlib.Tactic.Common

/-!
# `Anys`

A key is registered with the alignment and the size of its type, and reserves room for the worst
padding.  An object then allocates one block for the header words and for all keys, and looks for an
aligned place in the room of each key, relative to a block whose alignment is not known.

Words of 64 bits are `UInt64`; alignments and sizes are `int` in the source.  `Init`, which then
calls the constructors at the places that were found, is left out.

* `Reserved` describes what the registrations leave, and `Regions` what the loop of the constructor
  finds: both go through the keys from the front, and a region starts where the one before it has
  ended, or later.
* `anys_layout` is the result for every sequence of keys and every block.
-/

namespace Costream.Anys

open Costream.Align

structure KeyInfo where
  align : Nat
  size : Nat
  offset : UInt64

/-- The static members. -/
structure Registry where
  keys : List KeyInfo
  storageLen : UInt64
  size : Nat
  /-- `GetInitGuard()`: an object has been made. -/
  initGuard : Bool

def Registry.empty : Registry := ⟨[], 0, 0, false⟩

/-- `Register`; no result is the exception. -/
def Registry.register (r : Registry) (align size : Nat) : Option Registry :=
  if r.initGuard then none
  else
    some { r with
      keys := r.keys ++ [⟨align, size, r.storageLen⟩]
      storageLen := r.storageLen + UInt64.ofNat (align + size - 1)
      size := r.size + 1 }

/-- The types are registered in turn. -/
def Registry.registerAll (r : Registry) : List (Nat × Nat) → Option Registry
  | [] => some r
  | (align, size) :: rest => (r.register align size).bind fun r => r.registerAll rest

/-- `align`: the aligned place, and the space that is left. -/
def align (align size ptr space : UInt64) : Option (UInt64 × UInt64) :=
  let aligned := (ptr - 1 + align) &&& -align
  let diff := aligned - ptr
  if space < size + diff then none else some (aligned, space - diff)

namespace Registry

variable (r : Registry) (hold : UInt64)

/-- What `malloc` is asked for. -/
def blockSize : UInt64 := 8 * (UInt64.ofNat r.size + 1) + r.storageLen

def storage : UInt64 := hold + 8 * (UInt64.ofNat r.size + 1)

/-- The loop of the constructor, for one key. -/
def place (storage : UInt64) (keyInfo : KeyInfo) : Option UInt64 :=
  let offset := keyInfo.offset
  let space := UInt64.ofNat (keyInfo.align + keyInfo.size - 1)
  let base := storage + offset
  (align (UInt64.ofNat keyInfo.align) (UInt64.ofNat keyInfo.size) base space).map fun r =>
    offset + (r.1 - base)

/-- `offsets_` after the constructor, with a block at `hold`; no result is the exception. -/
def construct : Option (List UInt64) :=
  if r.size = 0 then some [] else (r.keys.take r.size).mapM (place (r.storage hold))

end Registry

/-! ## One key -/

/-- A type that can be registered. -/
structure Registrable (x : Nat × Nat) : Prop where
  align : ∃ k, x.1 = 2 ^ k
  size : 1 ≤ x.2
  sum : x.1 + x.2 < 2 ^ 31

theorem toNat_ofNat {n : Nat} (h : n < 2 ^ 64) : (UInt64.ofNat n).toNat = n :=
  UInt64.toNat_ofNat_of_lt' h

theorem toNat_add {a b : UInt64} (h : a.toNat + b.toNat < 2 ^ 64) :
    (a + b).toNat = a.toNat + b.toNat := by
  rw [UInt64.toNat_add]
  exact Nat.mod_eq_of_lt h

theorem toNat_sub {a b : UInt64} (h : b.toNat ≤ a.toNat) : (a - b).toNat = a.toNat - b.toNat :=
  UInt64.toNat_sub_of_le a b (UInt64.le_iff_toNat_le.2 h)

/-- The mask of the source rounds up. -/
theorem aligned_toNat {k : Nat} (ptr : UInt64) (hk : k < 64) (hpos : 1 ≤ ptr.toNat)
    (hroom : ptr.toNat + 2 ^ k ≤ 2 ^ 64) :
    ((ptr - 1 + UInt64.ofNat (2 ^ k)) &&& -UInt64.ofNat (2 ^ k)).toNat = roundUp (2 ^ k) ptr.toNat := by
  have hpow : 2 ^ k < 2 ^ 64 := Nat.pow_lt_pow_right (by omega) hk
  have halign : (UInt64.ofNat (2 ^ k)).toNat = 2 ^ k := toNat_ofNat hpow
  have hone : (ptr - 1).toNat = ptr.toNat - 1 := toNat_sub hpos
  have hsum : (ptr - 1 + UInt64.ofNat (2 ^ k)).toNat = ptr.toNat + 2 ^ k - 1 := by
    rw [toNat_add (by rw [hone, halign]; omega), hone, halign]
    omega
  have hmask : (-UInt64.ofNat (2 ^ k)).toNat = 2 ^ 64 - 2 ^ k := by
    rw [UInt64.toNat_neg, halign]
    have hkpos := Nat.two_pow_pos k
    exact Nat.mod_eq_of_lt (Nat.sub_lt (by decide) hkpos)
  rw [UInt64.toNat_and, hsum, hmask, and_two_pow_sub (Nat.le_of_lt hk) (by omega)]
  rfl

variable {x : Nat × Nat} {storage hold : UInt64} {lo hi : Nat} {keys : List KeyInfo}
  {pairs : List (Nat × Nat)}

/-- A key finds an aligned place in its room. -/
theorem place_spec (hx : Registrable x) (offset : UInt64) (hpos : 1 ≤ storage.toNat)
    (hroom : storage.toNat + (offset.toNat + (x.1 + x.2 - 1)) ≤ 2 ^ 64) :
    ∃ o, Registry.place storage ⟨x.1, x.2, offset⟩ = some o ∧ offset.toNat ≤ o.toNat ∧
      o.toNat + x.2 ≤ offset.toNat + (x.1 + x.2 - 1) ∧ x.1 ∣ storage.toNat + o.toNat := by
  obtain ⟨k, hk⟩ := hx.align
  have hsize := hx.size
  have hsum := hx.sum
  have hk64 : k < 64 := by
    refine (Nat.pow_lt_pow_iff_right (a := 2) (by omega)).1 ?_
    rw [← hk]
    omega
  have hapos : 0 < x.1 := by
    rw [hk]
    exact Nat.two_pow_pos k
  have hbase : (storage + offset).toNat = storage.toNat + offset.toNat := toNat_add (by omega)
  have haligned := aligned_toNat (storage + offset) hk64 (by omega) (by rw [← hk]; omega)
  rw [← hk, hbase] at haligned
  have hlow := le_roundUp (x := storage.toNat + offset.toNat) hapos
  have hhigh := roundUp_le x.1 (storage.toNat + offset.toNat)
  generalize hplace :
    (storage + offset - 1 + UInt64.ofNat x.1) &&& -UInt64.ofNat x.1 = aligned at haligned
  have hdiff : (aligned - (storage + offset)).toNat =
      roundUp x.1 (storage.toNat + offset.toNat) - (storage.toNat + offset.toNat) := by
    rw [toNat_sub (by omega), haligned, hbase]
  have hneed : (UInt64.ofNat x.2 + (aligned - (storage + offset))).toNat =
      x.2 + (roundUp x.1 (storage.toNat + offset.toNat) - (storage.toNat + offset.toNat)) := by
    rw [toNat_add (by rw [toNat_ofNat (by omega), hdiff]; omega), toNat_ofNat (by omega), hdiff]
  have hspace : ¬ UInt64.ofNat (x.1 + x.2 - 1) < UInt64.ofNat x.2 + (aligned - (storage + offset)) := by
    rw [UInt64.lt_iff_toNat_lt, toNat_ofNat (by omega), hneed]
    omega
  have hresult : (offset + (aligned - (storage + offset))).toNat =
      roundUp x.1 (storage.toNat + offset.toNat) - storage.toNat := by
    rw [toNat_add (by rw [hdiff]; omega), hdiff]
    omega
  refine ⟨offset + (aligned - (storage + offset)), ?_, ?_, ?_, ?_⟩
  · unfold Registry.place align
    simp only [hplace]
    rw [if_neg hspace]
    rfl
  · omega
  · omega
  · have hback : storage.toNat + (offset + (aligned - (storage + offset))).toNat =
        roundUp x.1 (storage.toNat + offset.toNat) := by omega
    rw [hback]
    exact dvd_roundUp x.1 _

/-! ## All keys -/

/-- The rooms of the keys follow one another from `lo` to `hi`. -/
def Reserved (lo : Nat) : List KeyInfo → Nat → Prop
  | [], hi => lo = hi
  | k :: rest, hi => k.offset.toNat = lo ∧ Reserved (lo + (k.align + k.size - 1)) rest hi

theorem Reserved.append (h : Reserved lo keys hi) {k : KeyInfo} (hk : k.offset.toNat = hi) :
    Reserved lo (keys ++ [k]) (hi + (k.align + k.size - 1)) := by
  induction keys generalizing lo with
  | nil =>
    have heq : lo = hi := h
    exact ⟨hk.trans heq.symm, by rw [heq]; rfl⟩
  | cons k' rest ih => exact ⟨h.1, ih h.2⟩

theorem Reserved.le (h : Reserved lo keys hi) : lo ≤ hi := by
  induction keys generalizing lo with
  | nil => exact Nat.le_of_eq h
  | cons k rest ih =>
    have hrest := ih h.2
    omega

/-- The regions are aligned and follow one another from `lo` to `hi`. -/
inductive Regions (storage : UInt64) (hi : Nat) : Nat → List KeyInfo → List UInt64 → Prop where
  | nil {lo : Nat} (h : lo ≤ hi) : Regions storage hi lo [] []
  | cons {lo : Nat} {k : KeyInfo} {keys : List KeyInfo} {o : UInt64} {offsets : List UInt64}
    (hlo : lo ≤ o.toNat) (haligned : k.align ∣ storage.toNat + o.toNat)
    (hrest : Regions storage hi (o.toNat + k.size) keys offsets) :
    Regions storage hi lo (k :: keys) (o :: offsets)

theorem Regions.mono {lo' : Nat} {offsets : List UInt64} (h : Regions storage hi lo keys offsets)
    (hle : lo' ≤ lo) : Regions storage hi lo' keys offsets := by
  cases h with
  | nil hlo => exact .nil (by omega)
  | cons hlo haligned hrest => exact .cons (by omega) haligned hrest

theorem Regions.le {offsets : List UInt64} (h : Regions storage hi lo keys offsets) : lo ≤ hi := by
  induction h with
  | nil h => exact h
  | cons hlo _ _ ih => omega

/-- The loop finds a place for every key. -/
theorem Reserved.place (h : Reserved lo keys hi) (hkeys : ∀ k ∈ keys, Registrable (k.align, k.size))
    (hpos : 1 ≤ storage.toNat) (hroom : storage.toNat + hi ≤ 2 ^ 64) :
    ∃ offsets, keys.mapM (Registry.place storage) = some offsets ∧
      Regions storage hi lo keys offsets := by
  induction keys generalizing lo with
  | nil => exact ⟨[], rfl, .nil (Nat.le_of_eq h)⟩
  | cons k rest ih =>
    obtain ⟨hoffset, hrest⟩ := h
    have hle := hrest.le
    obtain ⟨offsets, hoffsets, hregions⟩ := ih hrest fun k' hk' => hkeys k' (List.mem_cons_of_mem k hk')
    obtain ⟨o, ho, hlow, hhigh, hdvd⟩ := place_spec (hkeys k List.mem_cons_self) k.offset hpos
      (by simp only; omega)
    simp only at hhigh hdvd
    refine ⟨o :: offsets, ?_, .cons (by omega) hdvd (hregions.mono (by omega))⟩
    rw [List.mapM_cons, ho, hoffsets]
    rfl

/-- The room that a sequence of types needs. -/
def roomOf (pairs : List (Nat × Nat)) : Nat := (pairs.map fun x => x.1 + x.2 - 1).sum

/-- What registrations leave. -/
structure Registry.Holds (r : Registry) (pairs : List (Nat × Nat)) : Prop where
  keys : r.keys.map (fun k => (k.align, k.size)) = pairs
  size : r.size = pairs.length
  len : r.storageLen.toNat = roomOf pairs
  reserved : Reserved 0 r.keys r.storageLen.toNat
  initGuard : r.initGuard = false

theorem Registry.Holds.register {r : Registry} (h : r.Holds pairs) {align size : Nat}
    (hroom : roomOf pairs + (align + size - 1) < 2 ^ 64) :
    ∃ r', r.register align size = some r' ∧ r'.Holds (pairs ++ [(align, size)]) := by
  have hlen : (r.storageLen + UInt64.ofNat (align + size - 1)).toNat =
      roomOf pairs + (align + size - 1) := by
    have hofNat := toNat_ofNat (n := align + size - 1) (by omega)
    rw [toNat_add (by rw [h.len, hofNat]; exact hroom), h.len, hofNat]
  unfold Registry.register
  rw [h.initGuard]
  refine ⟨_, if_neg (by simp), ?_, ?_, ?_, ?_, rfl⟩
  · simp only [List.map_append, h.keys]
    rfl
  · simp only [List.length_append, h.size]
    rfl
  · simp only [hlen]
    simp [roomOf]
  · simp only [hlen]
    rw [← h.len]
    exact h.reserved.append (k := ⟨align, size, r.storageLen⟩) rfl

theorem Registry.Holds.registerAll {r : Registry} {before : List (Nat × Nat)} (h : r.Holds before)
    (pairs : List (Nat × Nat)) (hroom : roomOf (before ++ pairs) < 2 ^ 64) :
    ∃ r', r.registerAll pairs = some r' ∧ r'.Holds (before ++ pairs) := by
  induction pairs generalizing r before with
  | nil =>
    rw [List.append_nil]
    exact ⟨r, rfl, h⟩
  | cons x rest ih =>
    have hsplit : before ++ x :: rest = (before ++ [x]) ++ rest := by simp
    have hfits : roomOf before + (x.1 + x.2 - 1) < 2 ^ 64 := by
      unfold roomOf at hroom ⊢
      rw [List.map_append, List.sum_append, List.map_cons, List.sum_cons] at hroom
      omega
    obtain ⟨r₁, hr₁, hholds⟩ := h.register hfits
    rw [hsplit] at hroom ⊢
    obtain ⟨r', hr', hholds'⟩ := ih hholds hroom
    refine ⟨r', ?_, hholds'⟩
    unfold Registry.registerAll
    rw [hr₁, Option.bind_some]
    exact hr'

/-! ## The layout -/

/-- The block that `malloc` has returned is not null, and the end of it is an address, too. -/
structure Block (pairs : List (Nat × Nat)) (hold : UInt64) : Prop where
  pos : 1 ≤ hold.toNat
  fits : hold.toNat + (8 * (pairs.length + 1) + roomOf pairs) < 2 ^ 64

/-- The regions of the keys, from `storage_ + offsets_[i]` on. -/
structure Layout (pairs : List (Nat × Nat)) (hold storage size : UInt64) (offsets : List UInt64) :
    Prop where
  length : offsets.length = pairs.length
  /-- The header words end where the storage starts. -/
  header : storage.toNat = hold.toNat + 8 * (pairs.length + 1)
  aligned : ∀ (i : Nat) x o, pairs[i]? = some x → offsets[i]? = some o → x.1 ∣ (storage + o).toNat
  inside : ∀ (i : Nat) x o, pairs[i]? = some x → offsets[i]? = some o →
    storage.toNat ≤ (storage + o).toNat ∧ (storage + o).toNat + x.2 ≤ hold.toNat + size.toNat
  disjoint : ∀ (i j : Nat) x y o u, i < j → pairs[i]? = some x → offsets[i]? = some o →
    pairs[j]? = some y → offsets[j]? = some u → (storage + o).toNat + x.2 ≤ (storage + u).toNat

theorem Regions.length {offsets : List UInt64} (h : Regions storage hi lo keys offsets) :
    offsets.length = keys.length := by
  induction h with
  | nil => rfl
  | cons _ _ _ ih => rw [List.length_cons, List.length_cons, ih]

/-- The region of one key. -/
theorem Regions.get {offsets : List UInt64} (h : Regions storage hi lo keys offsets) {i : Nat}
    {k : KeyInfo} {o : UInt64} (hk : keys[i]? = some k) (ho : offsets[i]? = some o) :
    lo ≤ o.toNat ∧ o.toNat + k.size ≤ hi ∧ k.align ∣ storage.toNat + o.toNat := by
  induction h generalizing i with
  | nil => cases hk
  | cons hlo haligned hrest ih =>
    cases i with
    | zero =>
      cases hk
      cases ho
      exact ⟨hlo, hrest.le, haligned⟩
    | succ i =>
      obtain ⟨hlow, hhigh, hdvd⟩ := ih hk ho
      exact ⟨by omega, hhigh, hdvd⟩

/-- The regions of two keys. -/
theorem Regions.lt {offsets : List UInt64} (h : Regions storage hi lo keys offsets) {i j : Nat}
    (hij : i < j) {k k' : KeyInfo} {o u : UInt64} (hk : keys[i]? = some k) (ho : offsets[i]? = some o)
    (hk' : keys[j]? = some k') (hu : offsets[j]? = some u) : o.toNat + k.size ≤ u.toNat := by
  induction h generalizing i j with
  | nil => cases hk
  | cons hlo haligned hrest ih =>
    cases j with
    | zero => omega
    | succ j =>
      cases i with
      | zero =>
        cases hk
        cases ho
        exact (hrest.get hk' hu).1
      | succ i => exact ih (by omega) hk ho hk' hu

theorem Registry.Holds.headerSize {r : Registry} (h : r.Holds pairs) (hold : UInt64)
    (hblock : Block pairs hold) :
    (8 * (UInt64.ofNat r.size + 1) : UInt64).toNat = 8 * (pairs.length + 1) := by
  have hpos := hblock.pos
  have hfits := hblock.fits
  have hsize : (UInt64.ofNat r.size).toNat = pairs.length := by
    rw [h.size]
    exact toNat_ofNat (by omega)
  have hone : (1 : UInt64).toNat = 1 := rfl
  have height : (8 : UInt64).toNat = 8 := rfl
  have hsum : (UInt64.ofNat r.size + 1).toNat = pairs.length + 1 := by
    rw [toNat_add (by rw [hsize, hone]; omega), hsize, hone]
  rw [UInt64.toNat_mul, hsum, height]
  exact Nat.mod_eq_of_lt (by omega)

/-- `malloc` is asked for the header words and the rooms. -/
theorem Registry.Holds.blockSize_toNat {r : Registry} (h : r.Holds pairs) (hblock : Block pairs hold) :
    r.blockSize.toNat = 8 * (pairs.length + 1) + roomOf pairs := by
  have hpos := hblock.pos
  have hfits := hblock.fits
  unfold Registry.blockSize
  rw [toNat_add (by rw [h.headerSize hold hblock, h.len]; omega), h.headerSize hold hblock, h.len]

/-- For every sequence of types and every block: the constructor does not throw, and the regions are
aligned, apart from one another and from the header words, and inside the block. -/
theorem anys_layout (pairs : List (Nat × Nat)) (hpairs : ∀ x ∈ pairs, Registrable x) (hold : UInt64)
    (hblock : Block pairs hold) :
    ∃ r offsets, Registry.empty.registerAll pairs = some r ∧ r.construct hold = some offsets ∧
      Layout pairs hold (r.storage hold) r.blockSize offsets := by
  have hpos := hblock.pos
  have hfits := hblock.fits
  have hempty : Registry.empty.Holds [] := ⟨rfl, rfl, rfl, rfl, rfl⟩
  obtain ⟨r, hr, hholds⟩ := hempty.registerAll pairs (by rw [List.nil_append]; omega)
  rw [List.nil_append] at hholds
  have hheader := hholds.headerSize hold hblock
  have hblockSize := hholds.blockSize_toNat hblock
  have hstorage : (r.storage hold).toNat = hold.toNat + 8 * (pairs.length + 1) := by
    unfold Registry.storage
    rw [toNat_add (by rw [hheader]; omega), hheader]
  have hkeys : ∀ k ∈ r.keys, Registrable (k.align, k.size) := by
    intro k hk
    refine hpairs _ ?_
    rw [← hholds.keys]
    exact List.mem_map_of_mem hk
  have hreserved := hholds.reserved
  rw [hholds.len] at hreserved
  have hpos : 1 ≤ (r.storage hold).toNat := by omega
  obtain ⟨offsets, hoffsets, hregions⟩ := hreserved.place hkeys hpos (by omega)
  have hlength : r.keys.length = pairs.length := by
    rw [← hholds.keys, List.length_map]
  have hkey : ∀ (i : Nat) x, pairs[i]? = some x →
      ∃ k, r.keys[i]? = some k ∧ k.align = x.1 ∧ k.size = x.2 ∧ 1 ≤ k.size := by
    intro i x hx
    have hsize := (hpairs x (List.mem_of_getElem? hx)).size
    rw [← hholds.keys, List.getElem?_map] at hx
    obtain ⟨k, hk, heq⟩ := Option.map_eq_some_iff.1 hx
    rw [← heq] at hsize ⊢
    exact ⟨k, hk, rfl, rfl, hsize⟩
  have hsum : ∀ o : UInt64, o.toNat < roomOf pairs →
      (r.storage hold + o).toNat = (r.storage hold).toNat + o.toNat := by
    intro o ho
    exact toNat_add (by omega)
  refine ⟨r, offsets, hr, ?_, ⟨?_, hstorage, ?_, ?_, ?_⟩⟩
  · unfold Registry.construct
    split
    · rename_i hzero
      have hnil : r.keys = [] := by
        rw [← List.length_eq_zero_iff, hlength, ← hholds.size, hzero]
      rw [hnil] at hoffsets
      exact hoffsets
    · rw [hholds.size, ← hlength, List.take_length]
      exact hoffsets
  · rw [hregions.length, hlength]
  · intro i x o hx ho
    obtain ⟨k, hk, halign, hsize, hone⟩ := hkey i x hx
    obtain ⟨_, hhigh, hdvd⟩ := hregions.get hk ho
    rw [hsum o (by omega), ← halign]
    exact hdvd
  · intro i x o hx ho
    obtain ⟨k, hk, halign, hsize, hone⟩ := hkey i x hx
    obtain ⟨_, hhigh, _⟩ := hregions.get hk ho
    rw [hsum o (by omega), hblockSize]
    omega
  · intro i j x y o u hij hx ho hy hu
    obtain ⟨k, hk, halign, hsize, hone⟩ := hkey i x hx
    obtain ⟨k', hk', halign', hsize', hone'⟩ := hkey j y hy
    obtain ⟨_, hhigh, _⟩ := hregions.get hk ho
    obtain ⟨_, hhigh', _⟩ := hregions.get hk' hu
    have hlt := hregions.lt hij hk ho hk' hu
    rw [hsum o (by omega), hsum u (by omega)]
    omega

/-- Two types, with a block at an odd address. -/
theorem anys_layout_odd : ∃ r offsets, Registry.empty.registerAll [(8, 8), (16, 24)] = some r ∧
    r.construct 1001 = some offsets ∧
    Layout [(8, 8), (16, 24)] 1001 (r.storage 1001) r.blockSize offsets ∧ offsets = [7, 15] := by
  have hpairs : ∀ x ∈ [(8, 8), (16, 24)], Registrable x := by
    intro x hx
    rcases List.mem_cons.1 hx with heq | hx
    · rw [heq]
      exact ⟨⟨3, rfl⟩, by decide, by decide⟩
    · rw [List.mem_singleton.1 hx]
      exact ⟨⟨4, rfl⟩, by decide, by decide⟩
  obtain ⟨r, offsets, hr, hoffsets, hlayout⟩ := anys_layout [(8, 8), (16, 24)] hpairs 1001
    ⟨by decide, by decide⟩
  have hexec : ((Registry.empty.registerAll [(8, 8), (16, 24)]).bind fun r => r.construct 1001) =
      some [7, 15] := by
    decide +kernel
  rw [hr, Option.bind_some, hoffsets, Option.some.injEq] at hexec
  exact ⟨r, offsets, hr, hoffsets, hlayout, hexec⟩

end Costream.Anys
