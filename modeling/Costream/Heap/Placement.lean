import Costream.Runs
import Costream.Heap.Represents

/-!
# Where a block is put

The free bytes of the pool are those in no block that the user has.  The free blocks of the map are
the maximal runs of them, since no two free blocks touch.  So an allocation fails only if no run is
long enough; `alloc` takes the lower end of the lowest run that is, `alloc_high` the upper end of
the highest one, and the rest of the map stays as it is.
-/

namespace Costream.SmallHeap

open SmallHeap.Memory Trace

/-- A byte of the pool in no block that has been given out. -/
def FreeByte (pool stop : Nat) (taken : Nat → Nat → Prop) (x : Nat) : Prop :=
  pool ≤ x ∧ x < stop ∧ ∀ ptr bytes, taken ptr bytes → ¬ (ptr ≤ x ∧ x < ptr + bytes)

def State.Free (s : State) : Nat → Prop :=
  FreeByte s.heap.pool (s.heap.pool + s.heap.length) s.Has

/-- The block at an address, with its length and whether it is free. -/
def Heap.block (h : Heap) (ptr : Nat) : Option (Nat × Bool) :=
  if ptr ∈ h.memory.inner then some (h.memory.len ptr, h.memory.isfree ptr) else none

/-- The end of the pool from which a block is taken. -/
inductive Side where
  | low
  | high

namespace Side

def alloc : Side → Heap → Nat → Option (Nat × Heap)
  | .low => Heap.alloc
  | .high => Heap.allocHigh

/-- The run at `start` is preferred to the one at `start'`. -/
def Prefers : Side → Nat → Nat → Prop
  | .low, start, start' => start ≤ start'
  | .high, start, start' => start' ≤ start

/-- Where in a run the block is put. -/
def place : Side → Nat → Nat → Nat → Nat
  | .low, start, _, _ => start
  | .high, start, size, bytes => start + size - bytes

/-- Where the rest of the run begins. -/
def rest : Side → Nat → Nat → Nat
  | .low, start, bytes => start + bytes
  | .high, start, _ => start

end Side

/-- What an allocation of `bytes` should come to: the block at `ptr`, or null, and the heap `h'`. -/
structure State.Placed (s : State) (side : Side) (bytes ptr : Nat) (h' : Heap) : Prop where
  null : ptr = 0 ↔ bytes = 0 ∨ ∀ start size, IsRun s.Free start size → size < bytes
  kept : ptr = 0 → h' = s.heap
  placed : ptr ≠ 0 → ∃ start size, IsRun s.Free start size ∧ bytes ≤ size ∧
    (∀ start' size', IsRun s.Free start' size' → bytes ≤ size' → side.Prefers start start') ∧
    ptr = side.place start size bytes ∧
    ∀ k, h'.block k =
      if k = ptr then some (bytes, false)
      else if k = side.rest start bytes ∧ bytes < size then some (size - bytes, true)
      else s.heap.block k

/-! ## Free blocks and runs of free bytes -/

variable {h h' : Heap} {blocks frees blocks' frees' : List Nat} {taken taken' : Nat → Nat → Prop}
  {a b k n x size bytes ptr base length : Nat} {s : State}

namespace Sound

/-- A byte is free if it is in a free block. -/
theorem freeByte_iff (hs : Sound h blocks frees taken) :
    FreeByte h.pool (h.pool + h.length) taken x ↔
      ∃ c ∈ blocks, c ∈ frees ∧ c ≤ x ∧ x < c + h.memory.len c := by
  have htiles := hs.stock.shape.tiles
  constructor
  · intro hx
    obtain ⟨hlow, hhigh, hout⟩ := hx
    obtain ⟨c, hc, hcx, hxc⟩ := htiles.exists_mem hlow hhigh
    refine ⟨c, hc, ?_, hcx, hxc⟩
    by_contra hused
    exact hout c _ ((hs.stock.taken c _).2 ⟨hc, hused, rfl⟩) ⟨hcx, hxc⟩
  · intro hx
    obtain ⟨c, hc, hfree, hcx, hxc⟩ := hx
    have hin := htiles.mem hc
    refine ⟨by omega, by omega, fun ptr bytes ht hover => ?_⟩
    obtain ⟨hblock, hused, hlen⟩ := (hs.stock.taken ptr bytes).1 ht
    have heq : ptr = c := htiles.eq_of_mem hblock hc (by omega) ⟨hcx, hxc⟩
    exact hused (heq ▸ hfree)

/-- A free block is a maximal run, since the blocks on both sides of it are in use. -/
theorem isRun_block (hs : Sound h blocks frees taken) (hblock : a ∈ blocks) (hfree : a ∈ frees) :
    IsRun (FreeByte h.pool (h.pool + h.length) taken) a (h.memory.len a) := by
  have htiles := hs.stock.shape.tiles
  have hin := htiles.mem hblock
  refine ⟨hin.2.1, fun x hx hlt => hs.freeByte_iff.2 ⟨a, hblock, hfree, hx, hlt⟩, ?_, ?_⟩
  · intro x hx hbyte
    obtain ⟨c, hc, hcfree, hcx, hxc⟩ := hs.freeByte_iff.1 hbyte
    have hcpos := (htiles.mem hc).2.1
    have hle := htiles.le_of_lt hc hblock (by omega)
    exact hs.compact hcfree hfree hcpos (by omega)
  · intro hbyte
    obtain ⟨c, hc, hcfree, hcx, hxc⟩ := hs.freeByte_iff.1 hbyte
    have hle : a + h.memory.len a ≤ c := by
      refine htiles.le_of_lt hblock hc ?_
      by_contra hca
      have heq : c = a := htiles.eq_of_mem hc hblock (z := a) (by omega) (by omega)
      rw [heq] at hxc
      omega
    exact hs.compact hfree hcfree hin.2.1 (by omega)

theorem isRun_iff (hs : Sound h blocks frees taken) :
    IsRun (FreeByte h.pool (h.pool + h.length) taken) a n ↔
      a ∈ blocks ∧ a ∈ frees ∧ h.memory.len a = n := by
  constructor
  · intro hr
    have hpos := hr.pos
    obtain ⟨c, hc, hcfree, hca, hac⟩ := hs.freeByte_iff.1 (hr.inside a (by omega) (by omega))
    have heq := hr.unique (hs.isRun_block hc hcfree) (x := a) (by omega) (by omega) hca hac
    rw [heq.1, heq.2]
    exact ⟨hc, hcfree, rfl⟩
  · intro hfree
    obtain ⟨hblock, hfree, hlen⟩ := hfree
    rw [← hlen]
    exact hs.isRun_block hblock hfree

/-! ## The blocks of the map -/

theorem block_eq (hs : Sound h blocks frees taken) {value : Nat × Bool} :
    h.block k = some value ↔ k ∈ blocks ∧ (h.memory.len k, h.memory.isfree k) = value := by
  unfold Heap.block
  rw [hs.stock.shape.inner_eq]
  split
  · next hk => simp [hk]
  · next hk => simp [hk]

theorem isfree_iff (hs : Sound h blocks frees taken) (hk : k ∈ blocks) :
    h.memory.isfree k = true ↔ k ∈ frees :=
  hs.stock.shape.isfree_iff hs.stock.used (hs.stock.shape.mem_keys.2 (.inr (.inl hk)))

theorem block_used (hs : Sound h blocks frees taken) : h.block k = some (n, false) ↔ taken k n := by
  rw [hs.block_eq, hs.stock.taken, Prod.mk.injEq]
  refine and_congr_right fun hk => ?_
  rw [and_comm, ← hs.isfree_iff hk, Bool.not_eq_true]

theorem block_free (hs : Sound h blocks frees taken) :
    h.block k = some (n, true) ↔ IsRun (FreeByte h.pool (h.pool + h.length) taken) k n := by
  rw [hs.block_eq, hs.isRun_iff, Prod.mk.injEq]
  refine and_congr_right fun hk => ?_
  rw [and_comm, hs.isfree_iff hk]

/-- The blocks after a part of a run has been given out, at one end of it. -/
theorem block_given (hs : Sound h blocks frees taken)
    (hs' : Sound h' blocks' frees' fun k l => taken k l ∨ k = ptr ∧ l = bytes)
    (hpool : h'.pool = h.pool) (hlength : h'.length = h.length)
    (hr : IsRun (FreeByte h.pool (h.pool + h.length) taken) a size) (hpos : 0 < bytes)
    (hle : bytes ≤ size) (side : Side) (hptr : ptr = side.place a size bytes) :
    h'.block k =
      if k = ptr then some (bytes, false)
      else if k = side.rest a bytes ∧ bytes < size then some (size - bytes, true)
      else h.block k := by
  have hends : ptr = a ∧ side.rest a bytes = ptr + bytes ∨
      ptr + bytes = a + size ∧ side.rest a bytes = a := by
    cases side with
    | low => exact .inl ⟨hptr, by rw [hptr]; rfl⟩
    | high =>
      have hplace : ptr = a + size - bytes := hptr
      exact .inr ⟨by omega, rfl⟩
  generalize side.rest a bytes = rest at hends ⊢
  have hbyte : ∀ x, FreeByte h'.pool (h'.pool + h'.length)
      (fun k l => taken k l ∨ k = ptr ∧ l = bytes) x ↔
      FreeByte h.pool (h.pool + h.length) taken x ∧ ¬ (ptr ≤ x ∧ x < ptr + bytes) := by
    intro x
    unfold FreeByte
    rw [hpool, hlength]
    constructor
    · intro hx
      obtain ⟨hlow, hhigh, hout⟩ := hx
      exact ⟨⟨hlow, hhigh, fun k l ht => hout k l (.inl ht)⟩, hout ptr bytes (.inr ⟨rfl, rfl⟩)⟩
    · intro hx
      obtain ⟨⟨hlow, hhigh, hout⟩, hcut⟩ := hx
      refine ⟨hlow, hhigh, fun k l ht => ?_⟩
      rcases ht with ht | ⟨hk, hl⟩
      · exact hout k l ht
      · rw [hk, hl]
        exact hcut
  have hruns : ∀ k n, h'.block k = some (n, true) ↔
      (h.block k = some (n, true) ∧ k ≠ a) ∨ (0 < n ∧ k = a ∧ k + n = ptr) ∨
        (0 < n ∧ k = ptr + bytes ∧ k + n = a + size) := by
    intro k n
    rw [hs'.block_free, hs.block_free]
    exact hr.isRun_cut_iff hbyte hpos (by omega) (by omega)
  split
  · next hk =>
    rw [hs'.block_used]
    exact .inr ⟨hk, rfl⟩
  · next hk =>
    split
    · next hrest =>
      rw [hruns]
      omega
    · next hrest =>
      have hka : k ≠ a := by omega
      have hsame : ∀ value, h'.block k = some value ↔ h.block k = some value := by
        intro value
        obtain ⟨n, free⟩ := value
        cases free with
        | true =>
          rw [hruns]
          constructor
          · intro hblock
            rcases hblock with hblock | hblock | hblock
            · exact hblock.1
            · omega
            · omega
          · intro hblock
            exact .inl ⟨hblock, hka⟩
        | false =>
          rw [hs'.block_used, hs.block_used]
          exact or_iff_left fun heq => hk heq.1
      exact Option.ext hsame

end Sound

/-! ## The result -/

/-- The entry that the search has chosen is the run that is preferred. -/
theorem Sound.placed (hs : Sound s.heap blocks frees s.Has) (side : Side)
    (hgiven : Sound.Given s.Has bytes s.heap h' ptr) {before : Nat → Nat → Prop}
    (hbefore : ∀ x y, ¬ before x y → side.Prefers y x)
    (hchosen : Sound.Chosen s.heap.memory.len frees bytes before
      (fun c => side.place c (s.heap.memory.len c) bytes) ptr) :
    s.Placed side bytes ptr h' := by
  have hguard : ∀ c ∈ frees, 0 < s.heap.memory.len c → c ∈ blocks := by
    intro c hc hpos
    have hshape := hs.stock.shape
    refine hshape.block (hshape.sub c hc) (fun hzero => ?_) fun htop => ?_
    · rw [hzero, hshape.guards.1] at hpos
      omega
    · rw [htop, hshape.guards.2] at hpos
      omega
  unfold Sound.Chosen at hchosen
  rcases hchosen with ⟨hptr, hnone⟩ | ⟨hpos, c, hc, hlen, hptr, hfirst⟩
  · have hsame : h' = s.heap := by
      rcases hgiven with ⟨-, hsame⟩ | ⟨hne, -⟩
      · exact hsame
      · exact absurd hptr hne
    refine ⟨⟨fun _ => ?_, fun _ => hptr⟩, fun _ => hsame, fun hne => absurd hptr hne⟩
    refine hnone.imp_right fun hshort start size hr => ?_
    obtain ⟨-, hfree, hsize⟩ := hs.isRun_iff.1 hr
    rw [← hsize]
    exact hshort start hfree
  · have hr := hs.isRun_block (hguard c hc (by omega)) hc
    have hne : ptr ≠ 0 := by
      have hbase := hs.stock.shape.bounds (hguard c hc (by omega))
      rw [hptr]
      cases side with
      | low =>
        show c ≠ 0
        omega
      | high =>
        show c + s.heap.memory.len c - bytes ≠ 0
        omega
    refine ⟨⟨fun hnull => absurd hnull hne, fun hnull => ?_⟩, fun hnull => absurd hnull hne,
      fun _ => ⟨c, _, hr, hlen, fun start size hr' hle => ?_, hptr, fun k => ?_⟩⟩
    · rcases hnull with hzero | hshort
      · omega
      · have := hshort c _ hr
        omega
    · obtain ⟨-, hfree, hsize⟩ := hs.isRun_iff.1 hr'
      refine hbefore start c fun hearlier => ?_
      have := hfirst start hfree hearlier
      omega
    · rcases hgiven with ⟨hnull, -⟩ | ⟨-, -, hpool, hlength, blocks', frees', hs'⟩
      · exact absurd hnull hne
      · exact hs.block_given hs' hpool hlength hr hpos hlen side hptr

theorem Inv.placed (hi : Inv base length s) (side : Side) (bytes : Nat) :
    ∃ ptr h', side.alloc s.heap bytes = some (ptr, h') ∧ s.Placed side bytes ptr h' := by
  obtain ⟨blocks, frees, hsound⟩ := hi.sound
  cases side with
  | low =>
    obtain ⟨ptr, h', halloc, -, hgiven, hchosen⟩ := hsound.alloc bytes
    refine ⟨ptr, h', halloc, hsound.placed .low hgiven (fun x y hlt => ?_) hchosen⟩
    exact Nat.le_of_not_lt hlt
  | high =>
    obtain ⟨ptr, h', halloc, -, hgiven, hchosen⟩ := hsound.allocHigh bytes
    refine ⟨ptr, h', halloc, hsound.placed .high hgiven (fun x y hlt => ?_) hchosen⟩
    exact Nat.le_of_not_lt hlt

theorem alloc_none (hzero : h.totalFree = 0) (side : Side) (bytes : Nat) :
    side.alloc h bytes = some (0, h) := by
  have hnone : bytes > h.totalFree ∨ bytes = 0 := by
    rw [hzero]
    omega
  cases side with
  | low => exact if_pos hnone
  | high => exact if_pos hnone

/-- A heap without bytes has nothing to give out. -/
structure Empty (s : State) : Prop where
  length : s.heap.length = 0
  total : s.heap.totalFree = 0
  live : s.live = ∅

theorem Empty.placed (he : Empty s) (side : Side) (bytes : Nat) :
    s.Placed side bytes 0 s.heap := by
  refine ⟨⟨fun _ => .inr fun start size hr => ?_, fun _ => rfl⟩, fun _ => rfl,
    fun hne => absurd rfl hne⟩
  have hpos := hr.pos
  have hbyte := hr.inside start (by omega) (by omega)
  have hlow := hbyte.1
  have hhigh := hbyte.2.1
  rw [he.length] at hhigh
  omega

theorem create_sizes (hcreate : create base length = some h) :
    h.length = length ∧ h.totalFree = length := by
  unfold create at hcreate
  simp only [guard, Option.bind_eq_bind, Option.bind_eq_some_iff, Option.pure_def,
    Option.some.injEq] at hcreate
  obtain ⟨-, -, -, -, -, -, hheap⟩ := hcreate
  rw [← hheap]
  exact ⟨rfl, rfl⟩

/-- In every state that allocations and releases can reach, and for every size. -/
theorem alloc_places (hcreate : create base length = some h) (hwrap : base + length < 2 ^ 64)
    (hrun : Run machine anyAction ⟨h, ∅⟩ s) (side : Side) (bytes : Nat) :
    ∃ ptr h', side.alloc s.heap bytes = some (ptr, h') ∧ s.Placed side bytes ptr h' := by
  rcases Nat.eq_zero_or_pos length with hlen | hlen
  · have hsizes := create_sizes hcreate
    have hstill := still_of_run (hsizes.2.trans hlen) hrun
    have he : Empty s := by
      rw [hstill]
      exact ⟨hsizes.1.trans hlen, hsizes.2.trans hlen, rfl⟩
    exact ⟨0, s.heap, alloc_none he.total side bytes, he.placed side bytes⟩
  · exact (inv_of_run hcreate hlen hwrap hrun).placed side bytes

/-- Two runs of 16 bytes are free: 24 bytes do not fit, and 8 are taken from the upper run. -/
theorem alloc_places_fragmented : ∃ s,
    Run machine anyAction ⟨(create 4096 64).get create_4096_isSome, ∅⟩ s ∧
      decide ((s.heap.alloc 24).map Prod.fst = some 0 ∧ s.heap.totalFree = 32 ∧
        (s.heap.alloc 8).map Prod.fst = some 4096 ∧
        (s.heap.allocHigh 8).map Prod.fst = some 4136) = true ∧
      ∃ ptr h', Side.high.alloc s.heap 8 = some (ptr, h') ∧ s.Placed .high 8 ptr h' := by
  have hexec : ((machine.exec anyAction ⟨(create 4096 64).get create_4096_isSome, ∅⟩
      [.alloc 16, .allocHigh 16, .alloc 16, .free 4096]).any fun s =>
        decide ((s.heap.alloc 24).map Prod.fst = some 0 ∧ s.heap.totalFree = 32 ∧
          (s.heap.alloc 8).map Prod.fst = some 4096 ∧
          (s.heap.allocHigh 8).map Prod.fst = some 4136)) = true := by
    decide +kernel
  obtain ⟨s, hs, hstate⟩ := Run.exists_of_exec hexec
  have hcreate := (Option.some_get create_4096_isSome).symm
  exact ⟨s, hs, hstate, alloc_places hcreate (by decide) hs .high 8⟩

end Costream.SmallHeap
