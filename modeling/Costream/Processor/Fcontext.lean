import Costream.Align
import Costream.X86

/-!
# The context switch

`jump_fcontext` and `make_fcontext` as instruction lists.  A context that does not run is known by
the address of its data, a `Frame` on its own stack: the control words, the registers that a call
keeps and the return address.

* `exec_jump` is what `jump_fcontext` does from every state.  `frameAt_saved`, `read_saved` and
  `saved_of_le` say what that is in memory: the data of the context that is left, their address in
  its slot, and nothing else.
* `jump_back` puts two jumps together, one that leaves a context and a later one back to it.
* `exec_make` is what `make_fcontext` does, and `frameAt_made`, `makeAt_aligned` and `makeAt_has`
  say what the data of a new context are and where they lie.
-/

namespace Costream.Fcontext

open Bytes X86

/-- The labels of the two routines, and the function that `make_fcontext` calls. -/
inductive Label where
  | one
  | two
  | finish
  | exit
  deriving DecidableEq

/-- `jump_fcontext(fcontext_t* ofc, fcontext_t nfc, intptr_t vp, bool preserve_fpu)` -/
def jump_fcontext : List (Instr Label) :=
  [ .push .rbp,
    .push .rbx,
    .push .r15,
    .push .r14,
    .push .r13,
    .push .r12,
    -- prepare stack for FPU
    .lea (-0x8#64) .rsp .rsp,
    -- test for flag preserve_fpu
    .cmp 0#64 .rcx,
    .je .one,
    .stmxcsr 0#64 .rsp,
    .fnstcw 0x4#64 .rsp,
    .label .one,
    -- store RSP (pointing to context-data) in RDI
    .store .rsp 0#64 .rdi,
    -- restore RSP (pointing to context-data) from RSI
    .mov .rsi .rsp,
    .cmp 0#64 .rcx,
    .je .two,
    .ldmxcsr 0#64 .rsp,
    .fldcw 0x4#64 .rsp,
    .label .two,
    .lea 0x8#64 .rsp .rsp,
    .pop .r12,
    .pop .r13,
    .pop .r14,
    .pop .r15,
    .pop .rbx,
    .pop .rbp,
    -- restore return-address
    .pop .r8,
    -- use third arg as return-value after jump
    .mov .rdx .rax,
    -- use third arg as first arg in context function
    .mov .rdx .rdi,
    .jmp .r8 ]

/-- `make_fcontext(void* stack, std::size_t size, fn_t fn)` -/
def make_fcontext : List (Instr Label) :=
  [ .mov .rdi .rax,
    -- shift address in RAX to lower 16 byte boundary
    .and (-16#64) .rax,
    .lea (-0x48#64) .rax .rax,
    .store .rdx 0x38#64 .rax,
    .stmxcsr 0#64 .rax,
    .fnstcw 0x4#64 .rax,
    .leaRip .finish .rcx,
    .store .rcx 0x40#64 .rax,
    .ret,
    .label .finish,
    .xor .rdi .rdi,
    .call .exit,
    .hlt ]

/-- The layout of the context data. -/
structure Frame where
  mxcsr : BitVec 32
  x87cw : BitVec 16
  r12 : BitVec 64
  r13 : BitVec 64
  r14 : BitVec 64
  r15 : BitVec 64
  rbx : BitVec 64
  rbp : BitVec 64
  rip : BitVec 64

def frameAt (m : Mem) (c : Addr) : Frame where
  mxcsr := m.read c 4
  x87cw := m.read (c + 4#64) 2
  r12 := m.read (c + 0x8#64) 8
  r13 := m.read (c + 0x10#64) 8
  r14 := m.read (c + 0x18#64) 8
  r15 := m.read (c + 0x20#64) 8
  rbx := m.read (c + 0x28#64) 8
  rbp := m.read (c + 0x30#64) 8
  rip := m.read (c + 0x38#64) 8

/-! ## Saving -/

/-- The part of `jump_fcontext` that pushes the registers. -/
def pushRegs : List (Instr Label) := jump_fcontext.take 7

/-- The part that saves the control words. -/
def saveFpu : List (Instr Label) := (jump_fcontext.drop 7).take 5

/-- The part that changes stacks. -/
def swapStacks : List (Instr Label) := (jump_fcontext.drop 12).take 2

/-- The part that loads the control words. -/
def loadFpu : List (Instr Label) := (jump_fcontext.drop 14).take 5

/-- The part that pops the registers and leaves. -/
def popRegs : List (Instr Label) := jump_fcontext.drop 19

theorem jump_fcontext_eq :
    jump_fcontext = pushRegs ++ (saveFpu ++ (swapStacks ++ (loadFpu ++ popRegs))) := rfl

/-- Where a jump pushes the context data. -/
def saveAt (s : Cpu) : Addr := s.reg .rsp - 0x38#64

theorem saveAt_add (s : Cpu) : saveAt s + 0x38#64 = s.reg .rsp :=
  BitVec.sub_add_cancel _ _

/-- The memory after the pushes. -/
def pushed (s : Cpu) : Mem :=
  let c := saveAt s
  let m := s.mem.write (c + 0x30#64) 8 (s.reg .rbp)
  let m := m.write (c + 0x28#64) 8 (s.reg .rbx)
  let m := m.write (c + 0x20#64) 8 (s.reg .r15)
  let m := m.write (c + 0x18#64) 8 (s.reg .r14)
  let m := m.write (c + 0x10#64) 8 (s.reg .r13)
  m.write (c + 0x8#64) 8 (s.reg .r12)

def afterPush (s : Cpu) : Cpu :=
  { s with reg := Function.update s.reg .rsp (saveAt s), mem := pushed s }

def afterSave (s : Cpu) : Cpu :=
  { s with
    mem :=
      if s.reg .rcx = 0#64 then s.mem
      else (s.mem.write (s.reg .rsp) 4 s.mxcsr).write (s.reg .rsp + 4#64) 2 s.x87cw
    zf := s.reg .rcx == 0#64 }

def afterSwap (s : Cpu) : Cpu :=
  { s with
    reg := Function.update s.reg .rsp (s.reg .rsi)
    mem := s.mem.write (s.reg .rdi) 8 (s.reg .rsp) }

variable {L : Label → Addr} {s : Cpu}

theorem exec_pushRegs : exec L none pushRegs s = .past none (afterPush s) := by
  simp only [pushRegs, jump_fcontext, List.take, exec, Cpu.push, Cpu.set, Cpu.store, saveAt, pushed,
    afterPush, Function.update_self, Function.update_idem, ne_eq, reduceCtorEq, not_false_eq_true,
    Function.update_of_ne, BitVec.sub_eq_add_neg, BitVec.add_assoc]
  rfl

theorem exec_saveFpu : exec L none saveFpu s = .past none (afterSave s) := by
  by_cases h : s.reg .rcx = 0#64 <;>
    simp [saveFpu, jump_fcontext, exec, afterSave, h, Cpu.store]

theorem exec_swapStacks : exec L none swapStacks s = .past none (afterSwap s) := by
  simp [swapStacks, jump_fcontext, exec, afterSwap, Cpu.store, Cpu.set]

/-! ## Restoring -/

def afterLoad (s : Cpu) (f : Frame) : Cpu :=
  { s with
    mxcsr := if s.reg .rcx = 0#64 then s.mxcsr else f.mxcsr
    x87cw := if s.reg .rcx = 0#64 then s.x87cw else f.x87cw
    zf := s.reg .rcx == 0#64 }

/-- The registers after a jump to the context data `f` at `c`. -/
def Frame.regs (f : Frame) (c : Addr) (vp : BitVec 64) (old : Reg → BitVec 64) : Reg → BitVec 64
  | .r12 => f.r12
  | .r13 => f.r13
  | .r14 => f.r14
  | .r15 => f.r15
  | .rbx => f.rbx
  | .rbp => f.rbp
  | .r8 => f.rip
  | .rsp => c + 0x40#64
  | .rax | .rdi => vp
  | r => old r

theorem Frame.regs_update (f : Frame) (c : Addr) (vp : BitVec 64) (old : Reg → BitVec 64)
    (v : BitVec 64) : f.regs c vp (Function.update old .rsp v) = f.regs c vp old := by
  funext r
  cases r <;> rfl

theorem exec_loadFpu
    (h : s.reg .rcx = 0#64 ∨ reserved (frameAt s.mem (s.reg .rsp)).mxcsr = false) :
    exec L none loadFpu s = .past none (afterLoad s (frameAt s.mem (s.reg .rsp))) := by
  by_cases h0 : s.reg .rcx = 0#64
  · simp [loadFpu, jump_fcontext, exec, afterLoad, h0]
  · have hres := h.resolve_left h0
    rw [frameAt] at hres
    simp [loadFpu, jump_fcontext, exec, afterLoad, frameAt, h0, hres]

theorem exec_popRegs :
    exec L none popRegs s =
      .to (frameAt s.mem (s.reg .rsp)).rip
        { s with
          reg := (frameAt s.mem (s.reg .rsp)).regs (s.reg .rsp) (s.reg .rdx) s.reg } := by
  simp [popRegs, jump_fcontext, exec, Cpu.set, Cpu.top, frameAt, BitVec.add_assoc]
  funext r
  cases r <;> simp [Frame.regs]

/-! ## Frames in memory -/

section Frames

variable {m m' : Mem} {b c : Addr} {k : Nat}

theorem frameAt_congr (h : ∀ i < 0x40, m' (c + BitVec.ofNat 64 i) = m (c + BitVec.ofNat 64 i)) :
    frameAt m' c = frameAt m c := by
  have hread : ∀ off n, off + n ≤ 0x40 →
      m'.read (c + BitVec.ofNat 64 off) n = m.read (c + BitVec.ofNat 64 off) n := by
    intro off n hle
    refine read_congr fun i hi => ?_
    rw [BitVec.add_assoc, ← BitVec.ofNat_add]
    exact h _ (by omega)
  have hzero := hread 0 4 (by decide)
  rw [BitVec.add_zero] at hzero
  simp only [frameAt]
  rw [hzero, hread 4 2 (by decide), hread 0x8 8 (by decide), hread 0x10 8 (by decide),
    hread 0x18 8 (by decide), hread 0x20 8 (by decide), hread 0x28 8 (by decide),
    hread 0x30 8 (by decide), hread 0x38 8 (by decide)]

theorem frameAt_write_of_apart (h : Apart c 0x40 b k) (v : BitVec (8 * k)) :
    frameAt (m.write b k v) c = frameAt m c :=
  frameAt_congr fun _ hi => write_of_le (h.le hi (by decide)) v

end Frames

/-! ## A jump -/

/-- The memory after a jump. -/
def saved (s : Cpu) : Mem := (afterSwap (afterSave (afterPush s))).mem

/-- The machine after a jump to the context data `f` at the address in `rsi`. -/
def resumed (s : Cpu) (f : Frame) : Cpu where
  reg := f.regs (s.reg .rsi) (s.reg .rdx) s.reg
  mem := saved s
  zf := s.reg .rcx == 0#64
  mxcsr := if s.reg .rcx = 0#64 then s.mxcsr else f.mxcsr
  x87cw := if s.reg .rcx = 0#64 then s.x87cw else f.x87cw

theorem exec_jump (h : s.reg .rcx = 0#64 ∨
    reserved (frameAt (saved s) (s.reg .rsi)).mxcsr = false) :
    exec L none jump_fcontext s =
      .to (frameAt (saved s) (s.reg .rsi)).rip (resumed s (frameAt (saved s) (s.reg .rsi))) := by
  rw [jump_fcontext_eq, exec_append, exec_pushRegs, Outcome.andThen, exec_append, exec_saveFpu,
    Outcome.andThen, exec_append, exec_swapStacks, Outcome.andThen, exec_append,
    exec_loadFpu h, Outcome.andThen, exec_popRegs]
  -- The stack pointer has moved twice when the registers are popped.
  have hregs := (Frame.regs_update (frameAt (saved s) (s.reg .rsi)) (s.reg .rsi) (s.reg .rdx)
    (Function.update s.reg .rsp (saveAt s)) (s.reg .rsi)).trans (Frame.regs_update _ _ _ _ _)
  exact congrArg (fun reg => Outcome.to _ { (resumed s _) with reg := reg }) hregs

/-- The context data that a jump saves. -/
def frameOf (s : Cpu) : Frame where
  mxcsr := if s.reg .rcx = 0#64 then s.mem.read (saveAt s) 4 else s.mxcsr
  x87cw := if s.reg .rcx = 0#64 then s.mem.read (saveAt s + 4#64) 2 else s.x87cw
  r12 := s.reg .r12
  r13 := s.reg .r13
  r14 := s.reg .r14
  r15 := s.reg .r15
  rbx := s.reg .rbx
  rbp := s.reg .rbp
  rip := s.top

theorem frameAt_saved (h : Apart (saveAt s) 0x40 (s.reg .rdi) 8) :
    frameAt (saved s) (saveAt s) = frameOf s := by
  have hslot : saved s = (afterSave (afterPush s)).mem.write (s.reg .rdi) 8 (saveAt s) := rfl
  rw [hslot, frameAt_write_of_apart h]
  have htop : s.top = s.mem.read (saveAt s + 0x38#64) 8 := by rw [saveAt_add, Cpu.top]
  have hrsp : (afterPush s).reg .rsp = saveAt s := rfl
  by_cases h0 : s.reg .rcx = 0#64 <;>
    simp (disch := first | decide | (rw [apart_add_iff]; decide) |
        (rw [apart_zero_add_iff]; decide) | (rw [apart_add_zero_iff]; decide))
      [h0, htop, afterSave, afterPush, frameOf, frameAt, pushed, read_write_self,
        read_write_of_apart]

/-- The slot of the context that is left holds the address of what it has saved. -/
theorem read_saved : (saved s).read (s.reg .rdi) 8 = saveAt s :=
  read_write_self (by decide) _

/-- A jump writes to the 56 bytes below the stack pointer and to the slot. -/
theorem saved_of_le {x : Addr} (hc : 0x38 ≤ (x - saveAt s).toNat)
    (hd : 8 ≤ (x - s.reg .rdi).toNat) : saved s x = s.mem x := by
  have hslot : saved s x = (afterSave (afterPush s)).mem x := write_of_le hd _
  have hpush : (afterPush s).mem x = s.mem x := by
    simp only [afterPush, pushed]
    rw [write_add_of_le (by omega), write_add_of_le (by omega), write_add_of_le (by omega),
      write_add_of_le (by omega), write_add_of_le (by omega), write_add_of_le (by omega)]
  rw [hslot, afterSave, ← hpush]
  dsimp only
  split
  · rfl
  · rw [write_add_of_le (i := 4) (by show _ ≤ (x - saveAt s).toNat; omega),
      write_of_le (by show _ ≤ (x - saveAt s).toNat; omega)]

/-- What a jump loads that comes back to the context that `s` has left: the memory `m` still holds
its data. -/
theorem frameAt_back {m : Mem} (hslot : Apart (saveAt s) 0x40 (s.reg .rdi) 8)
    (hkeep : ∀ i < 0x40,
      m (saveAt s + BitVec.ofNat 64 i) = saved s (saveAt s + BitVec.ofNat 64 i)) :
    frameAt m (saveAt s) = frameOf s :=
  (frameAt_congr hkeep).trans (frameAt_saved hslot)

/-- A jump back.  `s` is the state when a context is left and `u` the one when it is jumped to
again, with whatever has been done in between except to the 64 bytes at its stack pointer: the
call of `s` returns, with the registers that a call keeps.  The control words come back if both
calls say so. -/
theorem jump_back {u : Cpu} (hslot : Apart (saveAt s) 0x40 (s.reg .rdi) 8)
    (hctx : u.reg .rsi = saveAt s)
    (hkeep : ∀ i < 0x40,
      u.mem (saveAt s + BitVec.ofNat 64 i) = saved s (saveAt s + BitVec.ofNat 64 i))
    (hstack : Apart (saveAt s) 0x40 (saveAt u) 0x38) (hother : Apart (saveAt s) 0x40 (u.reg .rdi) 8)
    (hmxcsr : u.reg .rcx = 0#64 ∨ s.reg .rcx ≠ 0#64 ∧ reserved s.mxcsr = false) :
    ∃ t, exec L none jump_fcontext u = .to s.top t ∧ t.reg .rsp = s.reg .rsp + 8#64 ∧
      t.reg .rax = u.reg .rdx ∧
      (∀ r ∈ [Reg.rbx, .rbp, .r12, .r13, .r14, .r15], t.reg r = s.reg r) ∧
      t.mxcsr = (if u.reg .rcx = 0#64 then u.mxcsr else s.mxcsr) ∧
      t.x87cw = (if u.reg .rcx = 0#64 then u.x87cw else s.x87cw) ∧
      ∀ i < 0x40, t.mem (saveAt s + BitVec.ofNat 64 i) = u.mem (saveAt s + BitVec.ofNat 64 i) := by
  have hmem : ∀ i < 0x40,
      saved u (saveAt s + BitVec.ofNat 64 i) = u.mem (saveAt s + BitVec.ofNat 64 i) :=
    fun i hi => saved_of_le (hstack.le hi (by decide)) (hother.le hi (by decide))
  have hframe : frameAt (saved u) (saveAt s) = frameOf s :=
    frameAt_back hslot fun i hi => (hmem i hi).trans (hkeep i hi)
  have hexec := exec_jump (L := L) (s := u)
  rw [hctx, hframe] at hexec
  refine ⟨_, hexec ?_, ?_, rfl, ?_, ?_, ?_, hmem⟩
  · refine hmxcsr.imp_right fun ⟨h0, hres⟩ => ?_
    simpa only [frameOf, if_neg h0] using hres
  · show u.reg .rsi + 0x40#64 = _
    rw [hctx, saveAt]
    bv_omega
  · intro r hr
    simp only [List.mem_cons, List.not_mem_nil, or_false] at hr
    rcases hr with rfl | rfl | rfl | rfl | rfl | rfl <;> rfl
  · rcases hmxcsr with h | ⟨h0, -⟩
    · simp only [resumed, h, if_true]
    · simp only [resumed, frameOf, if_neg h0]
  · rcases hmxcsr with h | ⟨h0, -⟩
    · simp only [resumed, h, if_true]
    · simp only [resumed, frameOf, if_neg h0]

/-- A context that saves its control words, with 5 in `rbx`. -/
def leaving : Cpu where
  reg
    | .rsp => 0x10000#64
    | .rdi => 0x100#64
    | .rcx => 1#64
    | .rbx => 5#64
    | _ => 0#64
  zf := false
  mxcsr := 0x1f80#32
  x87cw := 0x37f#16
  mem _ := 0#8

/-- Another one that jumps back to it, with other control words. -/
def coming : Cpu where
  reg
    | .rsp => 0x20000#64
    | .rdi => 0x200#64
    | .rsi => saveAt leaving
    | .rcx => 1#64
    | _ => 0#64
  zf := false
  mxcsr := 0x9fc0#32
  x87cw := 0x27f#16
  mem := saved leaving

theorem jump_back_coming :
    ∃ t, exec (fun _ => 0#64) none jump_fcontext coming = .to leaving.top t ∧
      t.reg .rbx = 5#64 ∧ t.mxcsr = 0x1f80#32 := by
  obtain ⟨t, ht, -, -, hregs, hmxcsr, -⟩ := jump_back (L := fun _ => 0#64) (s := leaving)
    (u := coming) (by decide) rfl (fun _ _ => rfl) (by decide) (by decide) (.inr (by decide))
  exact ⟨t, ht, hregs .rbx (by decide), hmxcsr⟩

/-! ## A new context -/

/-- Where `make_fcontext` puts the context data. -/
def makeAt (s : Cpu) : Addr := (s.reg .rdi &&& -16#64) - 0x48#64

/-- The memory after `make_fcontext`. -/
def made (L : Label → Addr) (s : Cpu) : Mem :=
  let c := makeAt s
  let m := s.mem.write (c + 0x38#64) 8 (s.reg .rdx)
  let m := m.write c 4 s.mxcsr
  let m := m.write (c + 4#64) 2 s.x87cw
  m.write (c + 0x40#64) 8 (L .finish)

theorem exec_make :
    exec L none make_fcontext s = .to ((made L s).read (s.reg .rsp) 8)
      { s with
        reg := Function.update (Function.update (Function.update s.reg .rax (makeAt s)) .rcx
          (L .finish)) .rsp (s.reg .rsp + 8#64)
        zf := (s.reg .rdi &&& -16#64) == 0#64
        mem := made L s } := by
  simp [make_fcontext, exec, Cpu.set, Cpu.setFlag, Cpu.store, Cpu.top, made, makeAt,
    BitVec.sub_eq_add_neg]

theorem toNat_and_16 (x : BitVec 64) : (x &&& -16#64).toNat = x.toNat / 16 * 16 := by
  rw [BitVec.toNat_and]
  exact Align.and_two_pow_sub (k := 4) (by decide) x.isLt

/-- On entry to the context function, (RSP - 0x8) % 16 == 0. -/
theorem makeAt_aligned (s : Cpu) : (makeAt s + 0x40#64).toNat % 16 = 8 := by
  have hlt := (s.reg .rdi).isLt
  simp only [makeAt, BitVec.toNat_add, BitVec.toNat_sub, toNat_and_16, BitVec.toNat_ofNat]
  omega

/-- The context data is within the last 0x57 bytes of the stack. -/
theorem makeAt_has {R : Region} (hend : R.base.toNat + R.size = (s.reg .rdi).toNat)
    (hsize : 0x57 ≤ R.size) : R.Has (makeAt s) 0x48 := by
  have hlt := (s.reg .rdi).isLt
  simp only [Region.Has, makeAt, BitVec.toNat_sub, toNat_and_16, BitVec.toNat_ofNat]
  omega

theorem made_of_le {x : Addr} (h : 0x48 ≤ (x - makeAt s).toNat) : made L s x = s.mem x := by
  simp only [made]
  rw [write_add_of_le (by omega), write_add_of_le (by omega), write_of_le (by omega),
    write_add_of_le (by omega)]

theorem frameAt_made :
    (frameAt (made L s) (makeAt s)).rip = s.reg .rdx ∧
      (frameAt (made L s) (makeAt s)).mxcsr = s.mxcsr ∧
      (frameAt (made L s) (makeAt s)).x87cw = s.x87cw ∧
      (made L s).read (makeAt s + 0x40#64) 8 = L .finish := by
  simp (disch := first | decide | (rw [apart_add_iff]; decide) |
      (rw [apart_zero_add_iff]; decide) | (rw [apart_add_zero_iff]; decide))
    [frameAt, made, read_write_self, read_write_of_apart]

/-- What runs at `finish`, where a context function returns to. -/
theorem exec_finish :
    ∃ t, exec L (some .finish) make_fcontext s = .called .exit t ∧ t.reg .rdi = 0#64 := by
  refine ⟨_, rfl, ?_⟩
  simp [Cpu.setFlag, Cpu.set]

/-- The first jump to a context.  `s` is the state in which it is made and `u` the one when it is
jumped to, with its data as they were made: its function is entered with the argument of the jump
and the stack aligned as for a call, and when it returns, the program ends with exit code 0. -/
theorem make_then_jump {u : Cpu} (hctx : u.reg .rsi = makeAt s)
    (hkeep : ∀ i < 0x48,
      u.mem (makeAt s + BitVec.ofNat 64 i) = made L s (makeAt s + BitVec.ofNat 64 i))
    (hstack : Apart (makeAt s) 0x48 (saveAt u) 0x38) (hslot : Apart (makeAt s) 0x48 (u.reg .rdi) 8)
    (hmxcsr : u.reg .rcx = 0#64 ∨ reserved s.mxcsr = false) :
    ∃ t, exec L none jump_fcontext u = .to (s.reg .rdx) t ∧ t.reg .rdi = u.reg .rdx ∧
      (t.reg .rsp).toNat % 16 = 8 ∧ t.top = L .finish ∧
      t.mxcsr = (if u.reg .rcx = 0#64 then u.mxcsr else s.mxcsr) ∧
      t.x87cw = (if u.reg .rcx = 0#64 then u.x87cw else s.x87cw) ∧
      ∀ v, ∃ w, exec L (some .finish) make_fcontext v = .called .exit w ∧ w.reg .rdi = 0#64 := by
  have hmem : ∀ i < 0x48,
      saved u (makeAt s + BitVec.ofNat 64 i) = made L s (makeAt s + BitVec.ofNat 64 i) :=
    fun i hi => (saved_of_le (hstack.le hi (by decide)) (hslot.le hi (by decide))).trans (hkeep i hi)
  have hframe : frameAt (saved u) (makeAt s) = frameAt (made L s) (makeAt s) :=
    frameAt_congr fun i hi => hmem i (by omega)
  have hfin : (saved u).read (makeAt s + 0x40#64) 8 = (made L s).read (makeAt s + 0x40#64) 8 := by
    refine read_congr fun i hi => ?_
    rw [BitVec.add_assoc, ← BitVec.ofNat_add]
    exact hmem _ (by omega)
  obtain ⟨hrip, hmx, hcw, htop⟩ := frameAt_made (L := L) (s := s)
  have hexec := exec_jump (L := L) (s := u)
  rw [hctx, hframe, hrip] at hexec
  have hrsp : (resumed u (frameAt (made L s) (makeAt s))).reg .rsp = makeAt s + 0x40#64 :=
    congrArg (· + 0x40#64) hctx
  refine ⟨_, hexec ?_, rfl, ?_, ?_, ?_, ?_, fun _ => exec_finish⟩
  · rwa [hmx]
  · rw [hrsp, makeAt_aligned]
  · rw [Cpu.top, hrsp]
    exact hfin.trans htop
  · simp only [resumed, hmx]
  · simp only [resumed, hcw]

/-- A stack that ends at `0x30008`, and a function at `0x401000`. -/
def making : Cpu where
  reg
    | .rsp => 0x10000#64
    | .rdi => 0x30008#64
    | .rdx => 0x401000#64
    | _ => 0#64
  zf := false
  mxcsr := 0x1f80#32
  x87cw := 0x37f#16
  mem _ := 0#8

/-- A jump to it with the argument 7. -/
def entering : Cpu where
  reg
    | .rsp => 0x20000#64
    | .rdi => 0x200#64
    | .rsi => makeAt making
    | .rdx => 7#64
    | _ => 0#64
  zf := false
  mxcsr := 0x1f80#32
  x87cw := 0x37f#16
  mem := made (fun _ => 0x400000#64) making

theorem make_then_jump_entering :
    ∃ t, exec (fun _ => 0x400000#64) none jump_fcontext entering = .to 0x401000#64 t ∧
      t.reg .rdi = 7#64 ∧ t.top = 0x400000#64 := by
  obtain ⟨t, ht, hrdi, -, htop, -⟩ := make_then_jump (L := fun _ => 0x400000#64) (s := making)
    (u := entering) rfl (fun _ _ => rfl) (by decide) (by decide) (.inl rfl)
  exact ⟨t, ht, hrdi, htop⟩

end Costream.Fcontext
