import Costream.Processor.Fcontext
import Costream.Trace

/-!
# Contexts on threads

`Context` switches between a thread's own code and the contexts that run on it, each on a stack of
its own.  The machine has `n` threads over one memory.  The code that runs on a thread is arbitrary,
but it leaves the stacks and the `fcontext_t` of the others alone.  The three switches run the
instructions of `jump_fcontext`, and the constructor those of `make_fcontext`.

* `Left` is a record of what a party that does not run is to find again, and `Data` says that the
  memory holds it.
* `saved_atJump` bounds what a switch writes: `parked_left` and `parked_other` follow for the one
  that gives way and for everybody else.
* `Inv` is the invariant of every run, with a lemma for each kind of step, and `contexts_resume` is
  the result: whoever is switched to goes on where it has left.
-/

namespace Costream.Context

open Bytes X86 Fcontext Trace

/-- Who runs: a thread in its own code, or a context. -/
inductive Party where
  | thread (i : Nat)
  | context (c : Nat)
  deriving DecidableEq

/-- What a party that does not run is to find when it goes on. -/
inductive Left where
  /-- A context that has not run yet. -/
  | fresh (fn : Addr)
  /-- One that has given way in a call that returns to `ret`. -/
  | away (core : Core) (ret : Addr) (mem : Mem)

structure State where
  mem : Mem
  core : Nat → Core
  /-- Where each thread goes on. -/
  pc : Nat → Addr
  /-- Who runs on each thread. -/
  on : Nat → Party
  created : Nat → Bool
  /-- `&GetTlsContext()` of a thread, and `&ctx_` of a context. -/
  slot : Party → Region
  stack : Party → Region
  /-- `vp_` of each context. -/
  vp : Nat → BitVec 64
  /-- The record of those who do not run. -/
  left : Party → Left

inductive Action where
  /-- The code that runs on a thread does anything to the registers and to the memory. -/
  | code (i : Nat) (core : Core) (pc : Addr) (mem : Mem)
  /-- `Context(fn, vp, stackSize)`, with the memory that it is given. -/
  | create (i c : Nat) (slot stack : Region) (fn : Addr) (vp : BitVec 64) (ret : Addr)
  /-- `~Context()` -/
  | destroy (c : Nat)
  | swapIn (i c : Nat) (ret : Addr)
  | swapOut (i : Nat) (ret : Addr)
  | swapTo (i c : Nat) (ret : Addr)

/-- There are `n` threads, and a context is there once it has been created. -/
def Alive (n : Nat) (created : Nat → Bool) : Party → Prop
  | .thread i => i < n
  | .context c => created c = true

namespace State

variable (n : Nat) (label : Label → Addr) (s : State)

/-- A party that is there and does not run. -/
def Away (p : Party) : Prop := Alive n s.created p ∧ ∀ i, s.on i ≠ p

/-- The address that a party's `fcontext_t` holds. -/
def ctx (p : Party) : Addr := s.mem.read (s.slot p).base 8

/-- Thread `i` calls a routine with these arguments. -/
def call (i : Nat) (rdi rsi rdx rcx ret : BitVec 64) : Cpu :=
  (((({ s.core i with mem := s.mem } : Cpu).set .rdi rdi).set .rsi rsi).set .rdx rdx).set .rcx rcx
    |>.push ret

/-- The `fcontext_t` of `p` is filled, and that of `q` is gone to: `preserve_fpu` is false. -/
def switch (i : Nat) (p q : Party) (vp ret : BitVec 64) : Option State :=
  match exec label none jump_fcontext (s.call i (s.slot p).base (s.ctx q) vp 0#64 ret) with
  | .to a t =>
    some { s with
      mem := t.mem
      core := Function.update s.core i t.toCore
      pc := Function.update s.pc i a
      on := Function.update s.on i q
      left := Function.update s.left p (.away (s.core i) ret s.mem) }
  | _ => none

/-- The constructor: `ctx_ = make_fcontext(stack_ + stackSize_, stackSize_, fn_)` -/
def create (i c : Nat) (slot stack : Region) (fn : Addr) (vp ret : BitVec 64) : Option State :=
  let size := BitVec.ofNat 64 stack.size
  match exec label none make_fcontext
      (s.call i (stack.base + size) size fn ((s.core i).reg .rcx) ret) with
  | .to a t =>
    some { s with
      mem := t.mem.write slot.base 8 (t.reg .rax)
      core := Function.update s.core i t.toCore
      pc := Function.update s.pc i a
      created := Function.update s.created c true
      slot := Function.update s.slot (.context c) slot
      stack := Function.update s.stack (.context c) stack
      vp := Function.update s.vp c vp
      left := Function.update s.left (.context c) (.fresh fn) }
  | _ => none

/-- There is room on the stack of who runs for what a switch pushes. -/
def Room (i : Nat) : Prop := (s.stack (s.on i)).Has ((s.core i).reg .rsp - 0x40#64) 0x40

/-- Memory that nobody has yet, for a context. -/
structure Free (slot stack : Region) : Prop where
  slot_size : slot.size = 8
  stack_size : 0x57 ≤ stack.size
  stack_end : stack.base.toNat + stack.size < 2 ^ 64
  slot_stack : slot.Disjoint stack
  slot_slot : ∀ p, Alive n s.created p → slot.Disjoint (s.slot p)
  slot_other : ∀ p, Alive n s.created p → slot.Disjoint (s.stack p)
  stack_slot : ∀ p, Alive n s.created p → stack.Disjoint (s.slot p)
  stack_stack : ∀ p, Alive n s.created p → stack.Disjoint (s.stack p)

/-- What an address belongs to. -/
def Owns (p : Party) (x : Addr) : Prop := (s.stack p).Has x 1 ∨ (s.slot p).Has x 1

end State

def machine (n : Nat) (label : Label → Addr) : Machine State Action where
  enabled s
    | .code i _ _ mem =>
      -- Nobody writes to the stack of somebody else, or to the `fcontext_t`.
      i < n ∧ ∀ q, q ≠ s.on i → Alive n s.created q → ∀ x, s.Owns q x → mem x = s.mem x
    | .create i c slot stack _ _ _ => i < n ∧ s.created c = false ∧ s.Free n slot stack ∧ s.Room i
    | .destroy c => s.Away n (.context c)
    | .swapIn i c _ => i < n ∧ s.on i = .thread i ∧ s.Away n (.context c) ∧ s.Room i
    | .swapOut i _ => i < n ∧ (∃ c, s.on i = .context c) ∧ s.Room i
    | .swapTo i c _ => i < n ∧ (∃ c', s.on i = .context c') ∧ s.Away n (.context c) ∧ s.Room i
  step s
    | .code i core pc mem =>
      some { s with
        mem
        core := Function.update s.core i core
        pc := Function.update s.pc i pc }
    | .create i c slot stack fn vp ret => s.create label i c slot stack fn vp ret
    | .destroy c => some { s with created := Function.update s.created c false }
    | .swapIn i c ret => s.switch label i (.thread i) (.context c) (s.vp c) ret
    | .swapOut i ret => s.switch label i (s.on i) (.thread i) 0#64 ret
    | .swapTo i c ret => s.switch label i (s.on i) (.context c) (s.vp c) ret

/-- The regions of those who are there. -/
structure Separate (alive : Party → Prop) (slot stack : Party → Region) : Prop where
  slot_size : ∀ p, alive p → (slot p).size = 8
  slot_slot : ∀ p q, alive p → alive q → p ≠ q → (slot p).Disjoint (slot q)
  stack_stack : ∀ p q, alive p → alive q → p ≠ q → (stack p).Disjoint (stack q)
  slot_stack : ∀ p q, alive p → alive q → (slot p).Disjoint (stack q)

/-- Every thread runs its own code, and there are no contexts. -/
structure Start (n : Nat) (s : State) : Prop where
  on : s.on = .thread
  created : s.created = fun _ => false
  separate : Separate (Alive n s.created) s.slot s.stack

/-! ## The data of those who are away -/

/-- The registers that a call keeps. -/
def calleeSaved : List Reg := [.rbx, .rbp, .rsp, .r12, .r13, .r14, .r15]

/-- The data at `c` that a party with the stack `R` needs to go on as recorded. -/
def Data (R : Region) (finish : Addr) (m : Mem) (c : Addr) : Left → Prop
  | .fresh fn =>
    R.Has c 0x48 ∧ (frameAt m c).rip = fn ∧ (c + 0x40#64).toNat % 16 = 8 ∧
      m.read (c + 0x40#64) 8 = finish
  | .away core ret mem =>
    R.Has c 0x40 ∧ (frameAt m c).rip = ret ∧
      (∀ r ∈ calleeSaved, ∀ vp old, (frameAt m c).regs c vp old r = core.reg r) ∧
      ∀ x, R.Has x 1 → 0x40 ≤ (x - c).toNat → m x = mem x

/-- The memory holds what `p` needs to go on. -/
def Parked (finish : Addr) (slot stack : Region) (m : Mem) (l : Left) : Prop :=
  Data stack finish m (m.read slot.base 8) l

variable {n : Nat} {L : Label → Addr} {R S : Region} {m m' : Mem} {p q q' : Party}
  {s s' : State} {i : Nat} {a : Addr} {l : Left} {fin : Addr}

theorem Data.has (h : Data R fin m a l) : R.Has a 0x40 := by
  cases l with
  | fresh fn => exact h.1.take (by decide)
  | away core ret mem => exact h.1

theorem Data.congr (h : Data R fin m a l) (hm : ∀ x, R.Has x 1 → m' x = m x) :
    Data R fin m' a l := by
  have hframe : frameAt m' a = frameAt m a := frameAt_congr fun _ hi => hm _ (h.has.byte hi)
  cases l with
  | fresh fn =>
    obtain ⟨hhas, hrip, hal, hfin⟩ := h
    have hret : R.Has (a + 0x40#64) 8 := hhas.part (x := 0x40) (by decide) (by decide)
    exact ⟨hhas, hframe ▸ hrip, hal, (hret.read_congr hm).trans hfin⟩
  | away core ret mem =>
    obtain ⟨hhas, hrip, hregs, hrest⟩ := h
    refine ⟨hhas, hframe ▸ hrip, hframe ▸ hregs, fun x hx hle => ?_⟩
    rw [hm x hx, hrest x hx hle]

theorem slot_has (h : S.size = 8) : S.Has S.base 8 := ⟨Nat.le_refl _, Nat.le_of_eq (by rw [h])⟩

/-- A party stays parked while its stack and its slot are left alone. -/
theorem Parked.congr (h : Parked fin S R m l) (hS : S.size = 8)
    (hm : ∀ x, R.Has x 1 ∨ S.Has x 1 → m' x = m x) : Parked fin S R m' l := by
  have hslot : m'.read S.base 8 = m.read S.base 8 :=
    (slot_has hS).read_congr fun x hx => hm x (.inr hx)
  rw [Parked, hslot]
  exact Data.congr h fun x hx => hm x (.inl hx)

/-! ## A switch -/

section Call

variable {rdi rsi rdx rcx ret : BitVec 64} {r : Reg}

theorem call_reg (h : r ∉ [.rdi, .rsi, .rdx, .rcx, .rsp]) :
    (s.call i rdi rsi rdx rcx ret).reg r = (s.core i).reg r := by
  simp only [List.mem_cons, List.not_mem_nil, or_false, not_or] at h
  simp [State.call, Cpu.push, Cpu.set, Cpu.store, h]

theorem call_rdi : (s.call i rdi rsi rdx rcx ret).reg .rdi = rdi := by
  simp [State.call, Cpu.push, Cpu.set, Cpu.store]

theorem call_rsi : (s.call i rdi rsi rdx rcx ret).reg .rsi = rsi := by
  simp [State.call, Cpu.push, Cpu.set, Cpu.store]

theorem call_rdx : (s.call i rdi rsi rdx rcx ret).reg .rdx = rdx := by
  simp [State.call, Cpu.push, Cpu.set, Cpu.store]

theorem call_rcx : (s.call i rdi rsi rdx rcx ret).reg .rcx = rcx := by
  simp [State.call, Cpu.push, Cpu.set, Cpu.store]

theorem call_rsp : (s.call i rdi rsi rdx rcx ret).reg .rsp = (s.core i).reg .rsp - 8#64 := by
  simp [State.call, Cpu.push, Cpu.set, Cpu.store]

theorem call_mem :
    (s.call i rdi rsi rdx rcx ret).mem = s.mem.write ((s.core i).reg .rsp - 8#64) 8 ret := by
  simp [State.call, Cpu.push, Cpu.set, Cpu.store]

theorem saveAt_call :
    saveAt (s.call i rdi rsi rdx rcx ret) = (s.core i).reg .rsp - 0x40#64 := by
  rw [saveAt, call_rsp, BitVec.sub_sub]
  rfl

theorem call_top : (s.call i rdi rsi rdx rcx ret).top = ret := by
  rw [Cpu.top, call_rsp, call_mem, read_write_self (by decide)]

end Call

/-- The processor when thread `i` calls `jump_fcontext` for a switch from `p` to `q`. -/
def atJump (s : State) (i : Nat) (p q : Party) (vp ret : BitVec 64) : Cpu :=
  s.call i (s.slot p).base (s.ctx q) vp 0#64 ret

section Switch

variable {v w : BitVec 64}

theorem switch_eq :
    s.switch L i p q v w =
      let u := atJump s i p q v w
      let f := frameAt (saved u) (s.ctx q)
      some { s with
        mem := saved u
        core := Function.update s.core i (resumed u f).toCore
        pc := Function.update s.pc i f.rip
        on := Function.update s.on i q
        left := Function.update s.left p (.away (s.core i) w s.mem) } := by
  have hrcx : (atJump s i p q v w).reg .rcx = 0#64 := call_rcx
  have hrsi : (atJump s i p q v w).reg .rsi = s.ctx q := call_rsi
  have hexec := exec_jump (L := L) (.inl hrcx)
  rw [hrsi] at hexec
  rw [State.switch, show s.call i _ _ _ _ _ = atJump s i p q v w from rfl, hexec]
  rfl

/-- A switch writes to 64 bytes of the stack of the party that gives way, and to its slot. -/
theorem saved_atJump {x : Addr} (hc : 0x40 ≤ (x - ((s.core i).reg .rsp - 0x40#64)).toNat)
    (hd : 8 ≤ (x - (s.slot p).base).toNat) : saved (atJump s i p q v w) x = s.mem x := by
  have hpush : (s.core i).reg .rsp - 8#64 =
      (s.core i).reg .rsp - 0x40#64 + BitVec.ofNat 64 0x38 := by bv_omega
  rw [saved_of_le, atJump, call_mem, hpush, write_add_of_le (by omega)]
  · rw [atJump, saveAt_call]
    omega
  · rwa [atJump, call_rdi]

/-- Nobody else's stack or slot is written to. -/
theorem saved_atJump_of_ne (hsep : Separate (Alive n s.created) s.slot s.stack) (hroom : s.Room i)
    (hp : Alive n s.created (s.on i)) (hq : Alive n s.created q') (hqp : q' ≠ s.on i) {x : Addr}
    (hx : s.Owns q' x) : saved (atJump s i (s.on i) q v w) x = s.mem x := by
  have hslot := slot_has (hsep.slot_size _ hp)
  rcases hx with hx | hx
  · exact saved_atJump
      ((hsep.stack_stack _ _ hq hp hqp).apart hx hroom (by decide) (by decide)).2
      ((hsep.slot_stack _ _ hp hq).symm.apart hx hslot (by decide) (by decide)).2
  · exact saved_atJump ((hsep.slot_stack _ _ hq hp).apart hx hroom (by decide) (by decide)).2
      ((hsep.slot_slot _ _ hq hp hqp).apart hx hslot (by decide) (by decide)).2

/-- The party that gives way leaves what it needs to go on. -/
theorem parked_left (hsep : Separate (Alive n s.created) s.slot s.stack) (hroom : s.Room i)
    (hp : Alive n s.created (s.on i)) :
    Parked fin (s.slot (s.on i)) (s.stack (s.on i)) (saved (atJump s i (s.on i) q v w))
      (.away (s.core i) w s.mem) := by
  have hdisj := (hsep.slot_stack _ _ hp hp).symm
  have hslot := slot_has (hsep.slot_size _ hp)
  have hat : saveAt (atJump s i (s.on i) q v w) = (s.core i).reg .rsp - 0x40#64 := saveAt_call
  have hrdi : (atJump s i (s.on i) q v w).reg .rdi = (s.slot (s.on i)).base := call_rdi
  have hread := read_saved (s := atJump s i (s.on i) q v w)
  have hframe := frameAt_saved (s := atJump s i (s.on i) q v w) (by
    rw [hat, hrdi]
    exact hdisj.apart hroom hslot (by decide) (by decide))
  rw [hat] at hframe
  rw [hat, hrdi] at hread
  rw [Parked, hread]
  refine ⟨hroom, ?_, ?_, ?_⟩
  · rw [hframe]
    exact call_top
  · intro r hr w old
    rw [hframe]
    have hreg : ∀ r, r ∉ [Reg.rdi, .rsi, .rdx, .rcx, .rsp] →
        (atJump s i (s.on i) q v w).reg r = (s.core i).reg r := fun r h => call_reg h
    simp only [calleeSaved, List.mem_cons, List.not_mem_nil, or_false] at hr
    rcases hr with rfl | rfl | rfl | rfl | rfl | rfl | rfl
    · exact hreg .rbx (by decide)
    · exact hreg .rbp (by decide)
    · exact BitVec.sub_add_cancel _ _
    · exact hreg .r12 (by decide)
    · exact hreg .r13 (by decide)
    · exact hreg .r14 (by decide)
    · exact hreg .r15 (by decide)
  · intro x hx hle
    exact saved_atJump hle (hdisj.apart hx hslot (by decide) (by decide)).2

/-- Everybody else who is parked stays so. -/
theorem parked_other (hsep : Separate (Alive n s.created) s.slot s.stack) (hroom : s.Room i)
    (hp : Alive n s.created (s.on i)) (hq : Alive n s.created q') (hqp : q' ≠ s.on i)
    (h : Parked fin (s.slot q') (s.stack q') s.mem l) :
    Parked fin (s.slot q') (s.stack q') (saved (atJump s i (s.on i) q v w)) l :=
  h.congr (hsep.slot_size _ hq) fun _ hx => saved_atJump_of_ne hsep hroom hp hq hqp hx

end Switch

/-! ## Going on -/

/-- What a party with the stack `R` finds when it goes on at `pc` with the registers `core`: a new
context is entered as if `finish` had called its function with the argument `vp`, and for one that
has given way the call returns. -/
def GoesOn (R : Region) (finish : Addr) (vp : BitVec 64) (core : Core) (pc : Addr) (mem : Mem) :
    Left → Prop
  | .fresh fn =>
    pc = fn ∧ core.reg .rdi = vp ∧ R.Has (core.reg .rsp) 8 ∧ (core.reg .rsp).toNat % 16 = 8 ∧
      mem.read (core.reg .rsp) 8 = finish
  | .away core' ret mem' =>
    pc = ret ∧ core.reg .rax = vp ∧ (∀ r ∈ calleeSaved, core.reg r = core'.reg r) ∧
      ∀ x, R.Has x 1 → 0x40 ≤ (x - (core'.reg .rsp - 0x40#64)).toNat → mem x = mem' x

theorem Data.goesOn {u : Cpu} (h : Data R fin (saved u) (u.reg .rsi) l) :
    GoesOn R fin (u.reg .rdx) (resumed u (frameAt (saved u) (u.reg .rsi))).toCore
      (frameAt (saved u) (u.reg .rsi)).rip (saved u) l := by
  cases l with
  | fresh fn =>
    obtain ⟨hhas, hrip, hal, hfin⟩ := h
    exact ⟨hrip, rfl, hhas.part (x := 0x40) (by decide) (by decide), hal, hfin⟩
  | away core ret mem =>
    obtain ⟨hhas, hrip, hregs, hrest⟩ := h
    refine ⟨hrip, rfl, fun r hr => hregs r hr _ _, fun x hx hle => hrest x hx ?_⟩
    have hrsp : u.reg .rsi + 0x40#64 = core.reg .rsp := hregs .rsp (by decide) 0#64 u.reg
    rwa [← hrsp, BitVec.add_sub_cancel] at hle

/-! ## The invariant -/

structure Inv (n : Nat) (finish : Addr) (s : State) : Prop where
  separate : Separate (Alive n s.created) s.slot s.stack
  parked : ∀ p, s.Away n p → Parked finish (s.slot p) (s.stack p) s.mem (s.left p)
  running : ∀ i c, s.on i = .context c → s.created c = true
  one : ∀ i j, s.on i = s.on j → i = j
  own : ∀ i j, s.on j = .thread i → j = i

theorem Inv.alive (hi : Inv n fin s) (hin : i < n) : Alive n s.created (s.on i) := by
  cases hon : s.on i with
  | thread j => exact hi.own j i hon ▸ hin
  | context c => exact hi.running i c hon

/-- While a context runs on it, a thread is away. -/
theorem Inv.away_thread {c : Nat} (hi : Inv n fin s) (hin : i < n) (hon : s.on i = .context c) :
    s.Away n (.thread i) := by
  refine ⟨hin, fun j hj => ?_⟩
  have hji := hi.own i j hj
  rw [hji, hon] at hj
  cases hj

theorem inv_start (h : Start n s) : Inv n fin s where
  separate := h.separate
  parked p hp := by
    obtain ⟨hal, hon⟩ := hp
    rw [h.on] at hon
    rw [h.created] at hal
    cases p with
    | thread i => exact absurd rfl (hon i)
    | context c => exact absurd hal Bool.false_ne_true
  running i c hon := by
    rw [h.on] at hon
    cases hon
  one i j hij := by
    rw [h.on] at hij
    exact Party.thread.inj hij
  own i j hij := by
    rw [h.on] at hij
    exact Party.thread.inj hij

section Switch

variable {v w : BitVec 64}

/-- The party that is gone to finds what it needs. -/
theorem goesOn_switch (hi : Inv n fin s) (hin : i < n) (hroom : s.Room i) (hq : s.Away n q) :
    ∃ s', s.switch L i (s.on i) q v w = some s' ∧ s'.on i = q ∧
      GoesOn (s.stack q) fin v (s'.core i) (s'.pc i) s'.mem (s.left q) ∧
      (s'.core i).mxcsr = (s.core i).mxcsr ∧ (s'.core i).x87cw = (s.core i).x87cw := by
  have hqp : q ≠ s.on i := (hq.2 i).symm
  have hp := hi.alive hin
  have hrcx : (atJump s i (s.on i) q v w).reg .rcx = 0#64 := call_rcx
  have hrsi : (atJump s i (s.on i) q v w).reg .rsi = s.ctx q := call_rsi
  have hrdx : (atJump s i (s.on i) q v w).reg .rdx = v := call_rdx
  -- The data of `q` are the same after the pushes.
  have hpark := parked_other (q := q) (v := v) (w := w) hi.separate hroom hp hq.1 hqp
    (hi.parked q hq)
  have hctx : (saved (atJump s i (s.on i) q v w)).read (s.slot q).base 8 = s.ctx q :=
    (slot_has (hi.separate.slot_size _ hq.1)).read_congr fun x hx =>
      saved_atJump_of_ne hi.separate hroom hp hq.1 hqp (.inr hx)
  rw [Parked, hctx, ← hrsi] at hpark
  have hgoes := hpark.goesOn
  rw [hrdx, hrsi] at hgoes
  refine ⟨_, switch_eq, Function.update_self .., ?_, ?_, ?_⟩
  · simpa only [Function.update_self] using hgoes
  · simp only [Function.update_self, resumed, hrcx, if_pos]
    rfl
  · simp only [Function.update_self, resumed, hrcx, if_pos]
    rfl

theorem inv_switch (hi : Inv n fin s) (hin : i < n) (hroom : s.Room i) (hq : s.Away n q)
    (hown : ∀ j, q = .thread j → i = j) (hs : s.switch L i (s.on i) q v w = some s') :
    Inv n fin s' := by
  rw [switch_eq] at hs
  injection hs with hs
  subst hs
  have hne : ∀ j, s.on j ≠ q := hq.2
  constructor
  · exact hi.separate
  · intro p hp
    have hpq : p ≠ q := fun h => hp.2 i (by simp [h])
    by_cases hpi : p = s.on i
    · subst hpi
      simpa only [Function.update_self] using parked_left hi.separate hroom (hi.alive hin)
    · simp only [Function.update_of_ne hpi]
      refine parked_other hi.separate hroom (hi.alive hin) hp.1 hpi
        (hi.parked p ⟨hp.1, fun j hj => ?_⟩)
      by_cases hji : j = i
      · exact hpi (by rw [← hji, hj])
      · exact hp.2 j (by simpa only [Function.update_of_ne hji] using hj)
  · intro j c hj
    by_cases hji : j = i
    · subst hji
      have hqc : q = .context c := by simpa only [Function.update_self] using hj
      subst hqc
      exact hq.1
    · exact hi.running j c (by simpa only [Function.update_of_ne hji] using hj)
  · intro j k hjk
    by_cases hji : j = i <;> by_cases hki : k = i <;>
      simp only [hji, hki, Function.update_self, ne_eq, not_false_eq_true,
        Function.update_of_ne] at hjk ⊢
    · exact absurd hjk.symm (hne k)
    · exact absurd hjk (hne j)
    · exact hi.one j k hjk
  · intro j k hk
    by_cases hki : k = i
    · subst hki
      exact hown j (by simpa only [Function.update_self] using hk)
    · exact hi.own j k (by simpa only [Function.update_of_ne hki] using hk)

end Switch

theorem inv_code {core : Core} {pc : Addr} {mem : Mem} (hi : Inv n fin s)
    (hm : ∀ q, q ≠ s.on i → Alive n s.created q → ∀ x, s.Owns q x → mem x = s.mem x) :
    Inv n fin { s with
      mem
      core := Function.update s.core i core
      pc := Function.update s.pc i pc } where
  separate := hi.separate
  parked p hp := (hi.parked p hp).congr (hi.separate.slot_size _ hp.1)
    fun x hx => hm p (fun h => hp.2 i h.symm) hp.1 x hx
  running := hi.running
  one := hi.one
  own := hi.own

theorem alive_update {created : Nat → Bool} {c : Nat} {b : Bool} (hp : p ≠ .context c) :
    Alive n (Function.update created c b) p ↔ Alive n created p := by
  cases p with
  | thread i => exact Iff.rfl
  | context c' =>
    have hne : c' ≠ c := fun h => hp (h ▸ rfl)
    simp only [Alive, Function.update_of_ne hne]

theorem not_alive_update {created : Nat → Bool} {c : Nat} :
    ¬ Alive n (Function.update created c false) (.context c) := by
  simp [Alive]

theorem Separate.mono {alive alive' : Party → Prop} {slot stack : Party → Region}
    (h : Separate alive slot stack) (hle : ∀ p, alive' p → alive p) :
    Separate alive' slot stack where
  slot_size p hp := h.slot_size p (hle p hp)
  slot_slot p q hp hq := h.slot_slot p q (hle p hp) (hle q hq)
  stack_stack p q hp hq := h.stack_stack p q (hle p hp) (hle q hq)
  slot_stack p q hp hq := h.slot_stack p q (hle p hp) (hle q hq)

theorem inv_destroy {c : Nat} (hi : Inv n fin s) (hc : s.Away n (.context c)) :
    Inv n fin { s with created := Function.update s.created c false } := by
  have hle : ∀ p, Alive n (Function.update s.created c false) p → Alive n s.created p := by
    intro p hal
    have hp : p ≠ .context c := by
      rintro rfl
      exact not_alive_update hal
    exact (alive_update hp).1 hal
  constructor
  · exact hi.separate.mono hle
  · rintro p ⟨hal, hon⟩
    exact hi.parked p ⟨hle p hal, hon⟩
  · intro i c' hon
    have hne : c' ≠ c := fun h => hc.2 i (h ▸ hon)
    simpa only [Function.update_of_ne hne] using hi.running i c' hon
  · exact hi.one
  · exact hi.own

/-! ### The constructor -/

section Create

variable {f w : Addr} {v : BitVec 64} {c : Nat}

/-- The processor when thread `i` calls `make_fcontext` for a stack `R`. -/
def atMake (s : State) (i : Nat) (R : Region) (fn ret : Addr) : Cpu :=
  s.call i (R.base + BitVec.ofNat 64 R.size) (BitVec.ofNat 64 R.size) fn ((s.core i).reg .rcx) ret

theorem create_eq :
    ∃ core pc, s.create L i c S R f v w = some { s with
      mem := (made L (atMake s i R f w)).write S.base 8 (makeAt (atMake s i R f w))
      core := Function.update s.core i core
      pc := Function.update s.pc i pc
      created := Function.update s.created c true
      slot := Function.update s.slot (.context c) S
      stack := Function.update s.stack (.context c) R
      vp := Function.update s.vp c v
      left := Function.update s.left (.context c) (.fresh f) } := by
  have hexec := exec_make (L := L) (s := atMake s i R f w)
  simp only [State.create, show s.call i _ _ _ _ _ = atMake s i R f w from rfl, hexec]
  exact ⟨_, _, rfl⟩

theorem makeAt_atMake (hend : R.base.toNat + R.size < 2 ^ 64) (hsize : 0x57 ≤ R.size) :
    R.Has (makeAt (atMake s i R f w)) 0x48 := by
  refine makeAt_has ?_ hsize
  rw [show (atMake s i R f w).reg .rdi = _ from call_rdi]
  simp only [BitVec.toNat_add, BitVec.toNat_ofNat]
  omega

theorem room_push (hroom : s.Room i) : (s.stack (s.on i)).Has ((s.core i).reg .rsp - 8#64) 8 := by
  have hpart : (s.stack (s.on i)).Has ((s.core i).reg .rsp - 0x40#64 + BitVec.ofNat 64 0x38) 8 :=
    hroom.part (by decide) (by decide)
  have heq : (s.core i).reg .rsp - 0x40#64 + BitVec.ofNat 64 0x38 = (s.core i).reg .rsp - 8#64 := by
    bv_omega
  rwa [heq] at hpart

/-- The new context has what it needs to start. -/
theorem parked_created (h : s.Free n S R) :
    Parked (L .finish) S R ((made L (atMake s i R f w)).write S.base 8
      (makeAt (atMake s i R f w))) (.fresh f) := by
  have hdata : Data R (L .finish) (made L (atMake s i R f w))
      (makeAt (atMake s i R f w)) (.fresh f) := by
    obtain ⟨hrip, -, -, hfin⟩ := frameAt_made (L := L) (s := atMake s i R f w)
    exact ⟨makeAt_atMake h.stack_end h.stack_size, hrip.trans call_rdx, makeAt_aligned _, hfin⟩
  rw [Parked, read_write_self (by decide)]
  refine hdata.congr fun x hx => write_of_le ?_ _
  exact (h.slot_stack.symm.apart hx (slot_has h.slot_size) (by decide) (by decide)).2

/-- Everybody else's stack and slot are left alone. -/
theorem made_other (hfree : s.Free n S R) (hroom : s.Room i)
    (hsep : Separate (Alive n s.created) s.slot s.stack) (hon : Alive n s.created (s.on i))
    (hp : Alive n s.created p) (hpi : p ≠ s.on i) {x : Addr} (hx : s.Owns p x) :
    (made L (atMake s i R f w)).write S.base 8 (makeAt (atMake s i R f w)) x = s.mem x := by
  have hslot := slot_has hfree.slot_size
  have hmake := makeAt_atMake (s := s) (i := i) (f := f) (w := w) hfree.stack_end hfree.stack_size
  have hpush := room_push hroom
  rcases hx with hx | hx
  · rw [write_of_le ((hfree.slot_other p hp).symm.apart hx hslot (by decide) (by decide)).2,
      made_of_le ((hfree.stack_stack p hp).symm.apart hx hmake (by decide) (by decide)).2,
      atMake, call_mem,
      write_of_le ((hsep.stack_stack _ _ hp hon hpi).apart hx hpush (by decide) (by decide)).2]
  · rw [write_of_le ((hfree.slot_slot p hp).symm.apart hx hslot (by decide) (by decide)).2,
      made_of_le ((hfree.stack_slot p hp).symm.apart hx hmake (by decide) (by decide)).2,
      atMake, call_mem,
      write_of_le ((hsep.slot_stack _ _ hp hon).apart hx hpush (by decide) (by decide)).2]

theorem separate_created (hfree : s.Free n S R)
    (hsep : Separate (Alive n s.created) s.slot s.stack) :
    Separate (Alive n (Function.update s.created c true))
      (Function.update s.slot (.context c) S) (Function.update s.stack (.context c) R) := by
  have hcases : ∀ p, Alive n (Function.update s.created c true) p →
      p = .context c ∨ p ≠ .context c ∧ Alive n s.created p := by
    intro p hp
    by_cases hpc : p = .context c
    · exact .inl hpc
    · exact .inr ⟨hpc, (alive_update hpc).1 hp⟩
  constructor
  · intro p hp
    rcases hcases p hp with rfl | ⟨hpc, hp⟩
    · simpa only [Function.update_self] using hfree.slot_size
    · simpa only [Function.update_of_ne hpc] using hsep.slot_size p hp
  · intro p q hp hq hpq
    rcases hcases p hp with rfl | ⟨hpc, hp⟩ <;> rcases hcases q hq with rfl | ⟨hqc, hq⟩
    · exact absurd rfl hpq
    · simpa only [Function.update_self, Function.update_of_ne hqc] using hfree.slot_slot q hq
    · simpa only [Function.update_self, Function.update_of_ne hpc] using (hfree.slot_slot p hp).symm
    · simpa only [Function.update_of_ne hpc, Function.update_of_ne hqc] using
        hsep.slot_slot p q hp hq hpq
  · intro p q hp hq hpq
    rcases hcases p hp with rfl | ⟨hpc, hp⟩ <;> rcases hcases q hq with rfl | ⟨hqc, hq⟩
    · exact absurd rfl hpq
    · simpa only [Function.update_self, Function.update_of_ne hqc] using hfree.stack_stack q hq
    · simpa only [Function.update_self, Function.update_of_ne hpc] using
        (hfree.stack_stack p hp).symm
    · simpa only [Function.update_of_ne hpc, Function.update_of_ne hqc] using
        hsep.stack_stack p q hp hq hpq
  · intro p q hp hq
    rcases hcases p hp with rfl | ⟨hpc, hp⟩ <;> rcases hcases q hq with rfl | ⟨hqc, hq⟩
    · simpa only [Function.update_self] using hfree.slot_stack
    · simpa only [Function.update_self, Function.update_of_ne hqc] using hfree.slot_other q hq
    · simpa only [Function.update_self, Function.update_of_ne hpc] using
        (hfree.stack_slot p hp).symm
    · simpa only [Function.update_of_ne hpc, Function.update_of_ne hqc] using
        hsep.slot_stack p q hp hq

theorem inv_create (hi : Inv n (L .finish) s) (hin : i < n) (hc : s.created c = false)
    (hfree : s.Free n S R) (hroom : s.Room i)
    (hs : s.create L i c S R f v w = some s') : Inv n (L .finish) s' := by
  obtain ⟨core, pc, heq⟩ := create_eq (L := L) (s := s) (i := i) (R := R) (S := S) (f := f)
    (w := w) (v := v) (c := c)
  rw [heq] at hs
  injection hs with hs
  subst hs
  -- The context is not running: it was not there.
  have hon : ∀ j, s.on j ≠ .context c := fun j hj =>
    absurd (hc.symm.trans (hi.running j c hj)) Bool.false_ne_true
  constructor
  · exact separate_created hfree hi.separate
  · rintro p ⟨hal, hp⟩
    by_cases hpc : p = .context c
    · subst hpc
      simpa only [Function.update_self] using parked_created hfree
    · simp only [Function.update_of_ne hpc]
      have hal' := (alive_update hpc).1 hal
      exact (hi.parked p ⟨hal', hp⟩).congr (hi.separate.slot_size p hal') fun x hx =>
        made_other hfree hroom hi.separate (hi.alive hin) hal' (fun h => hp i h.symm) hx
  · intro j c' hj
    by_cases hcc : c' = c
    · rw [hcc]
      exact Function.update_self ..
    · simpa only [Function.update_of_ne hcc] using hi.running j c' hj
  · exact hi.one
  · exact hi.own

end Create

/-! ## Runs -/

/-- What a step does to the invariant. -/
theorem inv_step {a : Action} (hi : Inv n (L .finish) s) (ha : (machine n L).enabled s a)
    (hs : (machine n L).step s a = some s') : Inv n (L .finish) s' := by
  cases a with
  | code i core pc mem =>
    cases hs
    exact inv_code hi ha.2
  | create i c slot stack fn vp ret =>
    obtain ⟨hin, hc, hfree, hroom⟩ := ha
    exact inv_create hi hin hc hfree hroom hs
  | destroy c =>
    cases hs
    exact inv_destroy hi ha
  | swapIn i c ret =>
    obtain ⟨hin, hon, haway, hroom⟩ := ha
    have hs' : s.switch L i (s.on i) (.context c) (s.vp c) ret = some s' := by
      rw [hon]
      exact hs
    exact inv_switch hi hin hroom haway (fun j h => by cases h) hs'
  | swapOut i ret =>
    obtain ⟨hin, ⟨c, hon⟩, hroom⟩ := ha
    exact inv_switch (L := L) hi hin hroom (hi.away_thread hin hon) (fun j h => by cases h; rfl) hs
  | swapTo i c ret =>
    obtain ⟨hin, -, haway, hroom⟩ := ha
    exact inv_switch (L := L) hi hin hroom haway (fun j h => by cases h) hs

theorem inv_run {t : State} (h : Run (machine n L) anyAction s t) (h0 : Start n s) :
    Inv n (L .finish) t :=
  h.invariant (inv_start h0) fun _ _ _ hi he _ hs => inv_step hi he hs

/-- The switch that an action makes: on which thread, and to whom with which argument. -/
def State.target (s : State) : Action → Option (Nat × Party × BitVec 64)
  | .swapIn i c _ | .swapTo i c _ => some (i, .context c, s.vp c)
  | .swapOut i _ => some (i, .thread i, 0#64)
  | _ => none

/-- Whoever is switched to, in any run, goes on where it has left: with its own stack, at the return
address of its own call and with the registers that a call keeps, and a new context at its
function.  The floating-point control words stay those of the thread. -/
theorem contexts_resume {s₀ : State} {a : Action} {v : BitVec 64} (hs₀ : Start n s₀)
    (hrun : Run (machine n L) anyAction s₀ s) (hen : (machine n L).enabled s a)
    (htarget : s.target a = some (i, p, v)) :
    ∃ s', (machine n L).step s a = some s' ∧ s'.on i = p ∧
      GoesOn (s.stack p) (L .finish) v (s'.core i) (s'.pc i) s'.mem (s.left p) ∧
      (s'.core i).mxcsr = (s.core i).mxcsr ∧ (s'.core i).x87cw = (s.core i).x87cw := by
  have hi := inv_run hrun hs₀
  cases a with
  | code | create | destroy => cases htarget
  | swapIn j c ret =>
    cases htarget
    obtain ⟨hin, hon, haway, hroom⟩ := hen
    have hgoes := goesOn_switch (L := L) (v := s.vp c) (w := ret) hi hin hroom haway
    rwa [hon] at hgoes
  | swapOut j ret =>
    cases htarget
    obtain ⟨hin, ⟨c, hon⟩, hroom⟩ := hen
    exact goesOn_switch (L := L) hi hin hroom (hi.away_thread hin hon)
  | swapTo j c ret =>
    cases htarget
    obtain ⟨hin, -, haway, hroom⟩ := hen
    exact goesOn_switch (L := L) hi hin hroom haway

/-! ### A first entry -/

def threadSlot : Region := ⟨0x100#64, 8, by decide⟩

def threadStack : Region := ⟨0x8000#64, 0x8000, by decide⟩

def newSlot : Region := ⟨0x200#64, 8, by decide⟩

def newStack : Region := ⟨0x20000#64, 0x1000, by decide⟩

/-- One thread, with the stack pointer at the end of its stack. -/
def oneThread : State where
  mem _ := 0#8
  core _ := ⟨fun _ => 0x10000#64, false, 0x1f80#32, 0x37f#16⟩
  pc _ := 0#64
  on := .thread
  created _ := false
  slot _ := threadSlot
  stack _ := threadStack
  vp _ := 0#64
  left _ := .fresh 0#64

def someLabels (_ : Label) : Addr := 0x400000#64

theorem start_oneThread : Start 1 oneThread where
  on := rfl
  created := rfl
  separate := by
    have heq : ∀ p, Alive 1 oneThread.created p → p = .thread 0 := by
      rintro (i | c) hp
      · rw [show i = 0 from Nat.lt_one_iff.1 hp]
      · cases hp
    have hdisj : threadSlot.Disjoint threadStack := by decide
    constructor
    · exact fun _ _ => rfl
    · exact fun p q hp hq hpq => absurd ((heq p hp).trans (heq q hq).symm) hpq
    · exact fun p q hp hq hpq => absurd ((heq p hp).trans (heq q hq).symm) hpq
    · exact fun _ _ _ _ => hdisj

theorem free_oneThread : oneThread.Free 1 newSlot newStack where
  slot_size := rfl
  stack_size := by decide
  stack_end := by decide
  slot_stack := by decide
  slot_slot _ _ := show newSlot.Disjoint threadSlot by decide
  slot_other _ _ := show newSlot.Disjoint threadStack by decide
  stack_slot _ _ := show newStack.Disjoint threadSlot by decide
  stack_stack _ _ := show newStack.Disjoint threadStack by decide

theorem room_oneThread : oneThread.Room 0 :=
  show threadStack.Has (0x10000#64 - 0x40#64) 0x40 by decide

/-- Code that does not write may always run. -/
theorem enabled_code (core : Core) (pc : Addr) (hin : i < n) :
    (machine n L).enabled s (.code i core pc s.mem) := ⟨hin, fun _ _ _ _ _ => rfl⟩

/-- A context that has been created and is then switched to. -/
theorem contexts_resume_first :
    ∃ s s', Run (machine 1 someLabels) anyAction oneThread s ∧
      (machine 1 someLabels).step s (.swapIn 0 0 0x401000#64) = some s' ∧
      s'.pc 0 = 0x402000#64 ∧ (s'.core 0).reg .rdi = 7#64 := by
  obtain ⟨core, pc, hcreate⟩ := create_eq (L := someLabels) (s := oneThread) (i := 0) (c := 0)
    (S := newSlot) (R := newStack) (f := 0x402000#64) (w := 0x401000#64) (v := 7#64)
  have hen : (machine 1 someLabels).enabled oneThread
      (.create 0 0 newSlot newStack 0x402000#64 7#64 0x401000#64) :=
    ⟨by decide, rfl, free_oneThread, room_oneThread⟩
  have hrun : Run (machine 1 someLabels) anyAction oneThread _ := .tail .refl hen trivial hcreate
  -- The constructor returns, and the thread goes on with its stack as it was.
  have hcode := hrun.tail (enabled_code (oneThread.core 0) 0x401000#64 Nat.one_pos) trivial rfl
  obtain ⟨s', hs', -, hgoes, -⟩ := contexts_resume (a := .swapIn 0 0 0x401000#64)
    start_oneThread hcode ⟨by decide, rfl, ⟨rfl, fun i hi => by cases hi⟩, room_oneThread⟩ rfl
  exact ⟨_, s', hcode, hs', hgoes.1, hgoes.2.1⟩

end Costream.Context
