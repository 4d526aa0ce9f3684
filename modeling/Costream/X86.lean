import Costream.Bytes

/-!
# Straight-line x86-64 code

The instructions that a context switch consists of, over the registers, the memory, the zero flag
and the two control words of the floating-point units.  A routine is a list of instructions with
labels in it.  Its jumps within itself go forward to the next label of the name.

`exec` runs a routine to the instruction that leaves it, and `exec_append` runs it part by part.
-/

namespace Costream.X86

open Bytes

/-- The general registers. -/
inductive Reg where
  | rax | rbx | rcx | rdx | rsi | rdi | rbp | rsp
  | r8 | r9 | r10 | r11 | r12 | r13 | r14 | r15
  deriving DecidableEq

/-- What is in a processor.  `mxcsr` and `x87cw` are the control and status word of SSE and the
control word of the x87. -/
structure Core where
  reg : Reg → BitVec 64
  zf : Bool
  mxcsr : BitVec 32
  x87cw : BitVec 16

/-- A processor and the memory. -/
structure Cpu extends Core where
  mem : Mem

namespace Cpu

def set (s : Cpu) (r : Reg) (v : BitVec 64) : Cpu := { s with reg := Function.update s.reg r v }

/-- Sets a register to a result, and the zero flag by it. -/
def setFlag (s : Cpu) (r : Reg) (v : BitVec 64) : Cpu := { s.set r v with zf := v == 0#64 }

def store (s : Cpu) (a : Addr) (n : Nat) (v : BitVec (8 * n)) : Cpu :=
  { s with mem := s.mem.write a n v }

def push (s : Cpu) (v : BitVec 64) : Cpu :=
  (s.set .rsp (s.reg .rsp - 8#64)).store (s.reg .rsp - 8#64) 8 v

def top (s : Cpu) : BitVec 64 := s.mem.read (s.reg .rsp) 8

end Cpu

/-- The instructions, with source before destination.  `ℓ` is the labels and the names of other
functions. -/
inductive Instr (ℓ : Type) where
  | label (l : ℓ)
  | push (r : Reg)
  | pop (r : Reg)
  /-- `leaq disp(b), r` -/
  | lea (disp : BitVec 64) (b r : Reg)
  /-- `leaq l(%rip), r` -/
  | leaRip (l : ℓ) (r : Reg)
  | mov (r r' : Reg)
  /-- `movq r, disp(b)` -/
  | store (r : Reg) (disp : BitVec 64) (b : Reg)
  | cmp (v : BitVec 64) (r : Reg)
  | and (v : BitVec 64) (r : Reg)
  | xor (r r' : Reg)
  | stmxcsr (disp : BitVec 64) (b : Reg)
  | ldmxcsr (disp : BitVec 64) (b : Reg)
  | fnstcw (disp : BitVec 64) (b : Reg)
  | fldcw (disp : BitVec 64) (b : Reg)
  | je (l : ℓ)
  /-- `jmp *r` -/
  | jmp (r : Reg)
  | ret
  | call (f : ℓ)
  | hlt
  deriving DecidableEq

/-- How a routine ends. -/
inductive Outcome (ℓ : Type) where
  /-- It goes on at an address outside of it. -/
  | to (a : Addr) (s : Cpu)
  | called (f : ℓ) (s : Cpu)
  | halted (s : Cpu)
  /-- The processor refuses to set a reserved bit of `mxcsr`. -/
  | protection
  /-- It runs past its last instruction, or has not come to the label that it is to go on at. -/
  | past (skip : Option ℓ) (s : Cpu)

/-- The upper half of `mxcsr` is reserved. -/
def reserved (v : BitVec 32) : Bool := v.extractLsb' 16 16 != 0#16

variable {ℓ : Type} [DecidableEq ℓ]

/-- Runs the instructions from the label `skip` on, or else from the first one on.  `addr` is where
the labels are in memory. -/
def exec (addr : ℓ → Addr) (skip : Option ℓ) : List (Instr ℓ) → Cpu → Outcome ℓ
  | [], s => .past skip s
  | i :: is, s =>
    match skip with
    | some l => exec addr (if i = .label l then none else some l) is s
    | none =>
      match i with
      | .label _ => exec addr none is s
      | .push r => exec addr none is (s.push (s.reg r))
      | .pop r => exec addr none is ((s.set .rsp (s.reg .rsp + 8#64)).set r s.top)
      | .lea disp b r => exec addr none is (s.set r (s.reg b + disp))
      | .leaRip l r => exec addr none is (s.set r (addr l))
      | .mov r r' => exec addr none is (s.set r' (s.reg r))
      | .store r disp b => exec addr none is (s.store (s.reg b + disp) 8 (s.reg r))
      | .cmp v r => exec addr none is { s with zf := s.reg r == v }
      | .and v r => exec addr none is (s.setFlag r (s.reg r &&& v))
      | .xor r r' => exec addr none is (s.setFlag r' (s.reg r' ^^^ s.reg r))
      | .stmxcsr disp b => exec addr none is (s.store (s.reg b + disp) 4 s.mxcsr)
      | .ldmxcsr disp b =>
        if reserved (s.mem.read (s.reg b + disp) 4) then .protection
        else exec addr none is { s with mxcsr := s.mem.read (s.reg b + disp) 4 }
      | .fnstcw disp b => exec addr none is (s.store (s.reg b + disp) 2 s.x87cw)
      | .fldcw disp b => exec addr none is { s with x87cw := s.mem.read (s.reg b + disp) 2 }
      | .je l => exec addr (if s.zf then some l else none) is s
      | .jmp r => .to (s.reg r) s
      | .ret => .to s.top (s.set .rsp (s.reg .rsp + 8#64))
      | .call f => .called f s
      | .hlt => .halted s

/-- Goes on with the instructions that follow, if there are any to follow. -/
def Outcome.andThen (addr : ℓ → Addr) (is : List (Instr ℓ)) : Outcome ℓ → Outcome ℓ
  | .past skip s => exec addr skip is s
  | o => o

theorem exec_append {addr : ℓ → Addr} {skip : Option ℓ} {is js : List (Instr ℓ)} {s : Cpu} :
    exec addr skip (is ++ js) s = (exec addr skip is s).andThen addr js := by
  induction is generalizing skip s with
  | nil => rfl
  | cons i is ih =>
    cases skip with
    | some l => exact ih
    | none =>
      cases i with
      | ldmxcsr disp b =>
        simp only [List.cons_append, exec]
        split
        · rfl
        · exact ih
      | jmp _ | ret | call _ | hlt => rfl
      | _ => exact ih

end Costream.X86
