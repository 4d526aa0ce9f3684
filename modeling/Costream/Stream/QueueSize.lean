import Costream.Stream.Pool

/-!
# The size of a queue

`CreateQueue` checks a size in packets.  The constructor of `HardQueue` brings it between two
bounds, multiplies it by the size of a packet, and checks the size in bytes again; the constructor
of `SoftQueue` multiplies it only.  The sizes in bytes have 32 bits.

* `packetSize` is the size of a packet in the two builds: it is a power of two only with
  `LARGE_MODEL`.
* `Build.Sized` is what the constructors should make of a size that `CreateQueue` lets through.
-/

namespace Costream.Stream.Pool

open Memory Processor

/-! ## The sizes -/

/-- `sizeof(AqlPacket)`. -/
def packetSize (largeModel : Bool) : Nat :=
  unionSize (if largeModel then aqlPacketLarge else aqlPacket)

namespace Build

variable (b : Build)

/-- `queue_size_pkts_` of a `HardQueue`. -/
def hardQueuePkts (ringSize : UInt32) : UInt32 :=
  max (min ringSize (UInt32.ofNat (maxBytes / b.sizeofAqlPacket)))
    (UInt32.ofNat (minBytes / b.sizeofAqlPacket))

/-- `queue_size_bytes_` of a `SoftQueue`. -/
def softQueueBytes (ringSize : UInt32) : UInt32 :=
  UInt32.ofNat (ringSize.toNat * b.sizeofAqlPacket)

/-- `queue_size_pkts_` of the queue that is made. -/
def pkts : Option Agent → UInt32 → UInt32
  | some _, size => b.hardQueuePkts size
  | none, size => size

/-- `queue_size_bytes_` of the queue that is made. -/
def bytes : Option Agent → UInt32 → UInt32
  | some _, size => b.queueSizeBytes size
  | none, size => b.softQueueBytes size

/-- The constructor of `HardQueue` multiplies what it has brought between the bounds. -/
theorem queueSizeBytes_eq (ringSize : UInt32) : b.queueSizeBytes ringSize =
    UInt32.ofNat ((b.hardQueuePkts ringSize).toNat * b.sizeofAqlPacket) := rfl

/-- What a size comes to that `CreateQueue` lets through: no constructor throws because of it, the
capacity is a power of two, and the buffer has room for that many packets. -/
structure Sized (agent : Option Agent) (size type : UInt32) (answers : Answers) : Prop where
  accepted : ∀ construction, b.createQueue agent size type { answers with construction } =
    construct construction
  capacity : (b.pkts agent size).toNat.isPowerOfTwo
  buffer : (b.bytes agent size).toNat = (b.pkts agent size).toNat * b.sizeofAqlPacket

/-- `CreateQueue` refuses the sizes that are no powers of two, and those only. -/
structure Handles (agent : Option Agent) (size type : UInt32) (answers : Answers) : Prop where
  invalid : (∀ s, (b.createQueue agent size type answers).run s =
    (.error (.status .errorInvalidArgument), s)) ↔ size = 0 ∨ ¬ size.toNat.isPowerOfTwo
  sized : size ≠ 0 → size.toNat.isPowerOfTwo → b.Sized agent size type answers

end Build

/-- The types that are valid, and for an agent those that `CreateQueue` asserts. -/
def ValidType (agent : Option Agent) (type : UInt32) (answers : Answers) : Prop :=
  type ≤ queueTypeCooperative ∧
    (agent.isSome = true → answers.queueType = queueTypeSingle ∧ type ≠ queueTypeSingle)

variable {b : Build} {agent : Option Agent} {size type : UInt32} {answers : Answers}
  {largeModel : Bool}

/-- The queue of a processor is one of these. -/
theorem softQueue_create {contents : Nat → UInt8} {q : SoftQueue}
    (hsize : b.sizeofAqlPacket = packetSize false)
    (hq : SoftQueue.create size.toNat contents = some q) :
    q.queueSizePkts = size.toNat ∧ q.queueSizeBytes = (b.softQueueBytes size).toNat := by
  unfold SoftQueue.create at hq
  obtain ⟨buffer, -, heq⟩ := Option.bind_eq_some_iff.1 hq
  cases heq
  refine ⟨rfl, ?_⟩
  unfold Build.softQueueBytes
  rw [hsize]
  exact (UInt32.toNat_ofNat' ..).symm

/-! ## What `CreateQueue` refuses -/

/-- The sizes are let through that are powers of two. -/
theorem createQueue_eq (hzero : size ≠ 0) (hpow : b.isPowerOfTwo size = true)
    (htype : ValidType agent type answers) : b.createQueue agent size type answers =
      if agent.isSome ∧ b.refuses size then throw .exception
      else Build.construct answers.construction := by
  obtain ⟨hle, hagent⟩ := htype
  have hcheck : ¬ (size = 0 ∨ ¬ b.isPowerOfTwo size ∨ queueTypeCooperative < type) := by
    simp [hzero, hpow, UInt32.not_lt.2 hle]
  unfold Build.createQueue
  rw [if_neg hcheck]
  cases agent with
  | none => rfl
  | some agent =>
    dsimp only
    rw [if_pos (hagent rfl)]
    unfold Build.newHardQueue
    cases b.refuses size <;> rfl

/-- An exception is none of the answers. -/
theorem throw_ne_construct (queue : Queue) :
    (throw .exception : PoolM Queue) ≠ Build.construct (.object queue) := by
  intro heq
  have hrun := congrFun heq State.initial
  cases hrun

/-- What the constructors do never ends with a status. -/
theorem construct_ne_status (construction : Construction) (s : State) :
    (Build.construct construction).run s ≠ (.error (.status .errorInvalidArgument), s) := by
  cases construction <;> intro h <;> cases h

theorem createQueue_invalid_iff (hpower : size ≠ 0 →
      (b.isPowerOfTwo size = true ↔ size.toNat.isPowerOfTwo)) (htype : ValidType agent type answers) :
    (∀ s, (b.createQueue agent size type answers).run s =
      (.error (.status .errorInvalidArgument), s)) ↔ size = 0 ∨ ¬ size.toNat.isPowerOfTwo := by
  constructor
  · intro hall
    by_contra hsize
    push Not at hsize
    obtain ⟨hzero, hpow⟩ := hsize
    have hrun := hall State.initial
    rw [createQueue_eq hzero ((hpower hzero).2 hpow) htype] at hrun
    split at hrun
    · cases hrun
    · exact construct_ne_status _ _ hrun
  · intro hsize s
    have hcheck : size = 0 ∨ ¬ b.isPowerOfTwo size ∨ queueTypeCooperative < type := by
      by_cases hzero : size = 0
      · exact .inl hzero
      · refine .inr (.inl fun hpow => ?_)
        exact (hsize.resolve_left hzero) ((hpower hzero).1 hpow)
    unfold Build.createQueue
    rw [if_pos hcheck]
    rfl

/-! ## What the constructors make of the others -/

theorem packetSize_eq (largeModel : Bool) :
    packetSize largeModel = if largeModel then 64 else 72 := by
  cases largeModel <;> decide

/-- A power of two of 32 bits. -/
theorem exists_bit (hpow : size.toNat.isPowerOfTwo) : ∃ k < 32, size = UInt32.ofNat (2 ^ k) := by
  obtain ⟨k, hk⟩ := hpow
  have hlt : 2 ^ k < 2 ^ 32 := by
    rw [← hk]
    exact size.toNat_lt
  refine ⟨k, (Nat.pow_lt_pow_iff_right (by decide)).1 hlt, ?_⟩
  rw [← hk, UInt32.ofNat_toNat]

/-- The checks that a size has to come through in the constructor of `HardQueue`. -/
def Build.hardSized (b : Build) (size : UInt32) : Bool :=
  !b.refuses size && (b.hardQueuePkts size).toNat.isPowerOfTwo &&
    (b.queueSizeBytes size).toNat = (b.hardQueuePkts size).toNat * b.sizeofAqlPacket

/-- And in that of `SoftQueue`. -/
def Build.softSized (b : Build) (size : UInt32) : Bool :=
  (b.softQueueBytes size).toNat = size.toNat * b.sizeofAqlPacket

/-- Packets of 72 bytes make no size in bytes that is a power of two, and from `2 ^ 26` packets on
neither size has room in 32 bits. -/
theorem sized_table : ∀ largeModel : Bool, ∀ k < 32,
    (⟨oneBit, packetSize largeModel⟩ : Build).hardSized (UInt32.ofNat (2 ^ k)) =
        (k ≤ 25 && largeModel) ∧
      (⟨oneBit, packetSize largeModel⟩ : Build).softSized (UInt32.ofNat (2 ^ k)) =
        decide (k ≤ 25) := by
  decide +kernel

theorem sized_iff (hsize : b.sizeofAqlPacket = packetSize largeModel)
    (hpow : size.toNat.isPowerOfTwo) :
    (b.hardSized size = true ↔ size.toNat ≤ 2 ^ 25 ∧ largeModel = true) ∧
      (b.softSized size = true ↔ size.toNat ≤ 2 ^ 25) := by
  obtain ⟨k, hk, rfl⟩ := exists_bit hpow
  have hnat : (UInt32.ofNat (2 ^ k)).toNat = 2 ^ k := by
    rw [UInt32.toNat_ofNat']
    exact Nat.mod_eq_of_lt ((Nat.pow_lt_pow_iff_right (by decide)).2 hk)
  have hle : 2 ^ k ≤ 2 ^ 25 ↔ k ≤ 25 := Nat.pow_le_pow_iff_right (by decide)
  obtain ⟨isPowerOfTwo, sizeofAqlPacket⟩ := b
  have heq : sizeofAqlPacket = packetSize largeModel := hsize
  subst heq
  obtain ⟨hhard, hsoft⟩ := sized_table largeModel k hk
  have hhard' : (⟨isPowerOfTwo, packetSize largeModel⟩ : Build).hardSized (UInt32.ofNat (2 ^ k)) =
    (k ≤ 25 && largeModel) := hhard
  have hsoft' : (⟨isPowerOfTwo, packetSize largeModel⟩ : Build).softSized (UInt32.ofNat (2 ^ k)) =
    decide (k ≤ 25) := hsoft
  rw [hhard', hsoft', hnat, hle]
  simp

/-- The sizes that come through for a queue of an agent, or of none. -/
theorem build_sized_iff (hsize : b.sizeofAqlPacket = packetSize largeModel) (hzero : size ≠ 0)
    (hpower : b.isPowerOfTwo size = true ↔ size.toNat.isPowerOfTwo)
    (hpow : size.toNat.isPowerOfTwo) (htype : ValidType agent type answers) :
    b.Sized agent size type answers ↔
      size.toNat ≤ 2 ^ 25 ∧ (agent = none ∨ largeModel = true) := by
  obtain ⟨hhard, hsoft⟩ := sized_iff hsize hpow
  have hcreate : ∀ construction, b.createQueue agent size type { answers with construction } =
      if agent.isSome ∧ b.refuses size then throw .exception else Build.construct construction :=
    fun construction => createQueue_eq hzero (hpower.2 hpow) htype
  cases agent with
  | none =>
    rw [and_iff_left (.inl rfl), ← hsoft]
    unfold Build.softSized
    rw [decide_eq_true_eq]
    constructor
    · exact fun hsized => hsized.buffer
    · exact fun hbytes => ⟨fun construction => hcreate construction, hpow, hbytes⟩
  | some agent =>
    rw [or_iff_right (by simp), ← hhard]
    unfold Build.hardSized
    simp only [Bool.and_eq_true, Bool.not_eq_true', decide_eq_true_eq]
    constructor
    · intro hsized
      refine ⟨⟨?_, hsized.capacity⟩, hsized.buffer⟩
      rw [← Bool.not_eq_true]
      intro hrefuses
      have haccepted := hsized.accepted (.object 0)
      rw [hcreate, if_pos ⟨rfl, hrefuses⟩] at haccepted
      exact throw_ne_construct 0 haccepted
    · intro hchecks
      obtain ⟨⟨haccepts, hcapacity⟩, hbytes⟩ := hchecks
      refine ⟨fun construction => ?_, hcapacity, hbytes⟩
      rw [hcreate, if_neg (by simp [haccepts])]

/-! ## The result -/

/-- For every size, in both builds, with an agent and without. -/
theorem create_queue_sizes_iff (hsize : b.sizeofAqlPacket = packetSize largeModel)
    (hpower : ∀ size, size ≠ 0 → (b.isPowerOfTwo size = true ↔ size.toNat.isPowerOfTwo))
    (agent : Option Agent) (size type : UInt32) (answers : Answers)
    (htype : ValidType agent type answers) :
    b.Handles agent size type answers ↔ size = 0 ∨ ¬ size.toNat.isPowerOfTwo ∨
      size.toNat ≤ 2 ^ 25 ∧ (agent = none ∨ largeModel = true) := by
  have hinvalid := createQueue_invalid_iff (hpower size) htype
  constructor
  · intro hhandles
    by_contra hnot
    push Not at hnot
    obtain ⟨hzero, hpow, hlarge⟩ := hnot
    have hsized := (build_sized_iff hsize hzero (hpower size hzero) hpow htype).1
      (hhandles.sized hzero hpow)
    have hout := hlarge hsized.1
    exact hsized.2.elim hout.1 hout.2
  · intro hcases
    refine ⟨hinvalid, fun hzero hpow => ?_⟩
    have hfits := (hcases.resolve_left hzero).resolve_left (fun hnot => hnot hpow)
    exact (build_sized_iff hsize hzero (hpower size hzero) hpow htype).2 hfits

/-- The usual test for a power of two. -/
theorem oneBit_iff (hzero : size ≠ 0) : oneBit size = true ↔ size.toNat.isPowerOfTwo := by
  have hne : size.toNat ≠ 0 := fun hnat => hzero (UInt32.toNat_inj.1 hnat)
  have hone : (1 : UInt32) ≤ size := by
    rw [UInt32.le_iff_toNat_le]
    exact Nat.pos_of_ne_zero hne
  unfold oneBit
  rw [decide_eq_true_eq, ← UInt32.toNat_inj, UInt32.toNat_and, UInt32.toNat_sub_of_le _ _ hone]
  exact Nat.and_sub_one_eq_zero_iff_isPowerOfTwo hne

/-- With `LARGE_MODEL`, 1024 packets for an agent. -/
theorem create_queue_sizes_iff_large : (⟨oneBit, packetSize true⟩ : Build).Handles (some 0) 1024
    queueTypeMulti ⟨none, queueTypeSingle, .object 7⟩ :=
  (create_queue_sizes_iff rfl (fun _ hzero => oneBit_iff hzero) (some 0) 1024 queueTypeMulti
    ⟨none, queueTypeSingle, .object 7⟩ (by unfold ValidType; decide)).2
    (.inr (.inr ⟨by decide, .inr rfl⟩))

/-- Without it, the constructor of `HardQueue` throws. -/
theorem size_refused : ¬ ∀ (largeModel : Bool) (agent : Option Agent) (size type : UInt32)
    (answers : Answers), ValidType agent type answers →
      (⟨oneBit, packetSize largeModel⟩ : Build).Handles agent size type answers := by
  intro hall
  have hvalid : ValidType (some 0) queueTypeMulti ⟨none, queueTypeSingle, .object 7⟩ := by
    unfold ValidType
    decide
  have hpow : (1024 : UInt32).toNat.isPowerOfTwo := ⟨10, rfl⟩
  have hhandles := hall false (some 0) 1024 queueTypeMulti _ hvalid
  have hzero : (1024 : UInt32) ≠ 0 := by decide
  have hsized := hhandles.sized hzero hpow
  rw [build_sized_iff rfl hzero (oneBit_iff hzero) hpow hvalid] at hsized
  exact absurd hsized (by decide)

end Costream.Stream.Pool
