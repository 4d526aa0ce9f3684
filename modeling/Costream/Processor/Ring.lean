import Costream.Memory
import Mathlib.Data.Nat.Bitwise

/-!
# The packet ring of a `SoftQueue`

The queue between the scheduler and a processor is a buffer of packets with two
counters.  The scheduler writes `task_packet_t`s into it, and the processor
reads `AqlPacket`s from it.

* `taskPacket` and `aqlPacket` are the two types.  They differ in size, so that
  the packets of the two sides lie at different offsets.
* `SoftQueue.create` is the constructor, and `SoftQueue.writePacket` is the store
  of the producer.
* `SoftQueue.packetType`, `SoftQueue.packetTask` and `SoftQueue.retire` are what
  the consumer does with a packet.

The target is x86-64: numbers are little-endian, and a pointer has eight bytes.
`LITTLE_ENDIAN`, which puts `reserved1` elsewhere, changes no size.  `LARGE_MODEL`, which
leaves it out and which nothing defines, does.
-/

namespace Costream.Processor

open Memory

/-- The address of a `Task`. -/
abbrev Task := Nat

/-! ## Packets -/

section Packets

private def u16 : Field := .scalar 2
private def u32 : Field := .scalar 4
private def u64 : Field := .scalar 8
private def pointer : Field := .scalar 8

/-- `signal_t`. -/
def signal : Field := .struct [u64]

/-- `kernel_dispatch_packet_t`. -/
def kernelDispatchPacket : List Field :=
  [u16, u16, u16, u16, u16, u32, u16, u16, u16, u32, u32, u64, signal, u32, pointer, pointer]

/-- `device_dispatch_packet_t`. -/
def deviceDispatchPacket : List Field :=
  [u16, u16, u32, u32, pointer, .array 4 u64, pointer, signal]

/-- `barrier_and_packet_t` and `barrier_or_packet_t`. -/
def barrierPacket : List Field := [u16, u16, u32, .array 5 signal, pointer, signal]

/-- `dma_copy_packet_t`. -/
def dmaCopyPacket : List Field :=
  [u16, u16, .array 1 signal, pointer, pointer, u64, signal, .array 3 u32]

/-- `task_packet_t`: `header`, `reserved0`, `dep_signal`, `task`, `dst`, `bytes`,
`completion_signal` and `reserve`. -/
def taskPacket : List Field :=
  [u16, u16, .array 1 signal, pointer, pointer, u64, signal, .array 3 u32]

/-- `kernel_dispatch_packet_t` with `LARGE_MODEL`. -/
def kernelDispatchPacketLarge : List Field :=
  [u16, u16, u16, u16, u16, u32, u16, u16, u16, u32, u32, u64, signal, pointer, pointer]

/-- `device_dispatch_packet_t` with `LARGE_MODEL`. -/
def deviceDispatchPacketLarge : List Field :=
  [u16, u16, u32, pointer, .array 4 u64, pointer, signal]

/-- `AqlPacket`: the union of the packets. -/
def aqlPacket : List Field :=
  [.struct kernelDispatchPacket, .struct barrierPacket, .struct barrierPacket,
    .struct deviceDispatchPacket, .struct dmaCopyPacket, .struct taskPacket]

/-- `AqlPacket` with `LARGE_MODEL`. -/
def aqlPacketLarge : List Field :=
  [.struct kernelDispatchPacketLarge, .struct barrierPacket, .struct barrierPacket,
    .struct deviceDispatchPacketLarge, .struct dmaCopyPacket, .struct taskPacket]

end Packets

theorem sizeof_taskPacket : structSize taskPacket = 64 := by decide

theorem sizeof_aqlPacket : unionSize aqlPacket = 72 := by decide

theorem sizeof_aqlPacketLarge : unionSize aqlPacketLarge = 64 := by decide

/-- `offsetof(task_packet_t, task)`. -/
theorem offset_task : offset taskPacket 3 = 16 := by decide

def packetTypeInvalid : Nat := 1
def packetTypeTask : Nat := 7

/-- `PACKET_HEADER_TYPE`: the type is in the low byte of the header. -/
def packetHeaderType : Nat := 0

/-- The packet that `AddTask(Task*)` writes: all zero but for `header` and
`task`. -/
def taskImage (tk : Task) : Nat :=
  image taskPacket [packetTypeTask <<< packetHeaderType, 0, 0, tk, 0, 0, 0, 0]

theorem offsets_taskPacket : offsets taskPacket = [0, 2, 8, 16, 24, 32, 40, 48] := by
  decide

theorem taskImage_eq (tk : Task) : taskImage tk = 7 + tk * 256 ^ 16 := by
  have h7 : packetTypeTask <<< packetHeaderType * 256 ^ 0 = 7 := by decide
  rw [taskImage, image, offsets_taskPacket]
  simp only [imageAt, Nat.zero_mul, Nat.zero_add, Nat.add_zero, h7]

/-! ## The queue -/

/-- `SoftQueue`. -/
structure SoftQueue where
  queueSizePkts : Nat
  queueSizeBytes : Nat
  buffer : Block
  writeDispatchId : Nat
  readDispatchId : Nat

/-- The constructor's loop over the packet headers. -/
def fillInvalid (b : Block) : Nat → Option Block
  | 0 => some b
  | n + 1 => do
    let b ← fillInvalid b n
    b.store (n * unionSize aqlPacket) 2 packetTypeInvalid

/-- The sizes that `CreateQueue` accepts. -/
def Accepted (size : Nat) : Prop := size ≠ 0 ∧ size.isPowerOfTwo ∧ size < 2 ^ 32

/-- The constructor.  `contents` is what the allocator has left in the
buffer. -/
def SoftQueue.create (size : Nat) (contents : Nat → UInt8) : Option SoftQueue := do
  let queueSizeBytes := size * unionSize aqlPacket % 2 ^ 32
  let buffer ← fillInvalid ⟨queueSizeBytes, contents⟩ size
  return ⟨size, queueSizeBytes, buffer, 0, 0⟩

/-- Where `AddTask(Task*)` writes the packet of index `index`. -/
def SoftQueue.writeOffset (q : SoftQueue) (index : Nat) : Nat :=
  let upQueueMask := (q.queueSizeBytes + 2 ^ 32 - 1) % 2 ^ 32
  (index &&& upQueueMask) * structSize taskPacket

/-- The store of the packet in `AddTask(Task*)`. -/
def SoftQueue.writePacket (q : SoftQueue) (index : Nat) (tk : Task) : Option SoftQueue := do
  let buffer ← q.buffer.store (q.writeOffset index) (structSize taskPacket) (taskImage tk)
  return { q with buffer := buffer }

/-- Where `AddNewTasks` reads the packet of index `index`. -/
def SoftQueue.readOffset (q : SoftQueue) (index : Nat) : Nat :=
  index % q.queueSizeBytes * unionSize aqlPacket

/-- What `AddNewTasks` finds. -/
inductive Packet where
  | invalid
  | task
  | other
  deriving DecidableEq

/-- The load of `packet_type`. -/
def SoftQueue.packetType (q : SoftQueue) (index : Nat) : Option Packet := do
  let header ← q.buffer.load (q.readOffset index) 2
  let type := header >>> packetHeaderType % 2 ^ 8
  return if type = packetTypeInvalid then .invalid
    else if type = packetTypeTask then .task
    else .other

/-- The load of `pkt.task.task`. -/
def SoftQueue.packetTask (q : SoftQueue) (index : Nat) : Option Task :=
  q.buffer.load (q.readOffset index + offset taskPacket 3) 8

/-- The header is loaded again and stored with type `PACKET_TYPE_INVALID`. -/
def SoftQueue.retire (q : SoftQueue) (index : Nat) : Option SoftQueue := do
  let header ← q.buffer.load (q.readOffset index) 2
  let buffer ← q.buffer.store (q.readOffset index) 2
    (header &&& 0xFF00 ||| packetTypeInvalid <<< packetHeaderType)
  return { q with buffer := buffer }

end Costream.Processor
