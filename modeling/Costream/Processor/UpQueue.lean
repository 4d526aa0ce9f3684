import Costream.Processor.Ring

/-!
# The up-queue of a processor

The scheduler adds tasks with `AddTask(Task*)`, and the processor takes them with `AddNewTasks`.

The two sides agree on the first packet only.  The scheduler counts in packets of 64 bytes, and its
mask is made from the size of the buffer in bytes: it writes behind the buffer when it has come to
its end.  The processor counts in packets of 72 bytes, so its second packet begins in the middle of
the scheduler's second packet, where it finds the type of a vendor's packet, and it goes on.
-/

namespace Costream.Processor

open Memory

inductive Call where
  | addTask (tk : Task)
  | addNewTasks
  deriving DecidableEq

/-- `added` and `pushed` are what was given to `AddTask` and what came to `runnableQueue_`. -/
structure UpQueue where
  queue : SoftQueue
  added : List Task
  pushed : List Task

namespace UpQueue

/-- `AddTask(Task*)`. -/
def addTask (s : UpQueue) (tk : Task) : Option UpQueue := do
  let index := s.queue.writeDispatchId
  let queue ← s.queue.writePacket index tk
  return { s with
    queue := { queue with writeDispatchId := (index + 1) % 2 ^ 64 }
    added := s.added ++ [tk] }

/-- The loop of `AddNewTasks`, with `n` packets to go. -/
def receive : Nat → SoftQueue → Nat → Option (SoftQueue × Nat × List Task)
  | 0, q, index => some (q, index, [])
  | n + 1, q, index => do
    match ← q.packetType index with
    | .invalid => return (q, index, [])
    | .task =>
      let tk ← q.packetTask index
      let q ← q.retire index
      let (q, index, tasks) ← receive n q ((index + 1) % 2 ^ 64)
      return (q, index, tk :: tasks)
    | .other =>
      let q ← q.retire index
      receive n q ((index + 1) % 2 ^ 64)

/-- `AddNewTasks`. -/
def addNewTasks (s : UpQueue) : Option UpQueue := do
  let writeIndex := s.queue.writeDispatchId
  let readIndex := s.queue.readDispatchId
  let n := (writeIndex + 2 ^ 64 - readIndex) % 2 ^ 64
  let (queue, index, tasks) ← receive n s.queue readIndex
  return { s with
    queue := { queue with readDispatchId := index }
    pushed := s.pushed ++ tasks }

def step (s : UpQueue) : Call → Option UpQueue
  | .addTask tk => s.addTask tk
  | .addNewTasks => s.addNewTasks

/-- No call touches memory that is not there, what has been pushed comes in the order in which it
was added, and `AddNewTasks` leaves nothing behind. -/
def DeliversFrom (s : UpQueue) : List Call → Prop
  | [] => True
  | call :: rest => ∃ s', s.step call = some s' ∧ s'.pushed <+: s'.added ∧
      (call = .addNewTasks → s'.pushed = s'.added) ∧ s'.DeliversFrom rest

end UpQueue

/-- The calls on a new queue. -/
def Delivers (size : Nat) (contents : Nat → UInt8) (calls : List Call) : Prop :=
  ∃ q, SoftQueue.create size contents = some q ∧ UpQueue.DeliversFrom ⟨q, [], []⟩ calls

/-- The number of tasks that are added. -/
def adds (calls : List Call) : Nat := calls.countP (· ≠ .addNewTasks)

/-- `AddNewTasks` is only called before more than one task has been added, when there are `n`
already. -/
def ReadsFirstOnly (n : Nat) (calls : List Call) : Prop :=
  ∀ before rest, calls = before ++ .addNewTasks :: rest → n + adds before ≤ 1

/-! ## The calls -/

section calls

variable {n : Nat} {tk : Task} {calls : List Call}

theorem adds_addTask : adds (.addTask tk :: calls) = adds calls + 1 := by
  unfold adds
  rw [List.countP_cons_of_pos (by simp)]

theorem adds_addNewTasks : adds (.addNewTasks :: calls) = adds calls := by
  unfold adds
  rw [List.countP_cons_of_neg (by simp)]

theorem readsFirstOnly_nil : ReadsFirstOnly n [] := by
  intro before rest h
  simp at h

theorem readsFirstOnly_addTask :
    ReadsFirstOnly n (.addTask tk :: calls) ↔ ReadsFirstOnly (n + 1) calls := by
  constructor
  · intro h before rest hcalls
    have hle := h (.addTask tk :: before) rest (by rw [hcalls]; rfl)
    rw [adds_addTask] at hle
    omega
  · intro h before rest hcalls
    cases before with
    | nil => cases hcalls
    | cons call before =>
      rw [List.cons_append, List.cons.injEq] at hcalls
      have hle := h before rest hcalls.2
      rw [← hcalls.1, adds_addTask]
      omega

theorem readsFirstOnly_addNewTasks :
    ReadsFirstOnly n (.addNewTasks :: calls) ↔ n ≤ 1 ∧ ReadsFirstOnly n calls := by
  constructor
  · intro h
    refine ⟨h [] calls rfl, fun before rest hcalls => ?_⟩
    have hle := h (.addNewTasks :: before) rest (by rw [hcalls]; rfl)
    rwa [adds_addNewTasks] at hle
  · intro h before rest hcalls
    cases before with
    | nil => exact h.1
    | cons call before =>
      rw [List.cons_append, List.cons.injEq] at hcalls
      rw [← hcalls.1, adds_addNewTasks]
      exact h.2 before rest hcalls.2

end calls

/-! ## Where the packets lie -/

namespace SoftQueue

variable {q q' : SoftQueue} {size index : Nat} {tk : Task}

/-- The mask keeps the indices of the packets that fit in the buffer. -/
theorem writeOffset_eq (hbytes : q.queueSizeBytes = 72 * size) (hpow : size.isPowerOfTwo)
    (hsize : size ≤ 2 ^ 25) (hindex : index < 8 * size) : q.writeOffset index = 64 * index := by
  obtain ⟨k, rfl⟩ := hpow
  have hpos : 0 < 2 ^ k := Nat.two_pow_pos k
  have hmask : (72 * 2 ^ k + 2 ^ 32 - 1) % 2 ^ 32 = 8 * 2 ^ k * 8 + (8 * 2 ^ k - 1) := by omega
  have height : 8 * 2 ^ k = 2 ^ (k + 3) := by rw [Nat.pow_add, Nat.mul_comm]
  have hand : index &&& (8 * 2 ^ k * 8 + (8 * 2 ^ k - 1)) = index := by
    have hle : index &&& (8 * 2 ^ k * 8 + (8 * 2 ^ k - 1)) ≤ index := Nat.and_le_left
    rw [← Nat.mod_eq_of_lt (Nat.lt_of_le_of_lt hle hindex), height, Nat.and_mod_two_pow,
      Nat.mul_add_mod_self_left, Nat.mod_eq_of_lt (height ▸ hindex),
      Nat.mod_eq_of_lt (Nat.sub_lt (Nat.two_pow_pos _) Nat.one_pos), Nat.and_two_pow_sub_one_eq_mod,
      Nat.mod_eq_of_lt (height ▸ hindex)]
  unfold writeOffset
  simp only
  rw [hbytes, hmask, hand, sizeof_taskPacket, Nat.mul_comm]

theorem readOffset_zero : q.readOffset 0 = 0 := by
  unfold readOffset
  rw [Nat.zero_mod, Nat.zero_mul]

theorem readOffset_one (hbytes : q.queueSizeBytes = 72 * size) (hpos : 0 < size) :
    q.readOffset 1 = 72 := by
  unfold readOffset
  rw [hbytes, Nat.mod_eq_of_lt (by omega), sizeof_aqlPacket]

/-- What the consumer finds. -/
theorem packetType_eq {header : Nat} (h : q.buffer.load (q.readOffset index) 2 = some header) :
    q.packetType index = some (if header % 256 = 1 then .invalid
      else if header % 256 = 7 then .task else .other) := by
  unfold packetType
  rw [h]
  rfl

/-- A packet that has been looked at is marked as invalid. -/
theorem retire_eq {header : Nat} (h : q.buffer.load (q.readOffset index) 2 = some header) :
    ∃ buffer v, q.buffer.store (q.readOffset index) 2 v = some buffer ∧
      q.retire index = some { q with buffer := buffer } := by
  have hfits : q.readOffset index + 2 ≤ q.buffer.size := by
    by_contra hlt
    rw [Block.load_eq_none_iff.2 (Nat.lt_of_not_le hlt)] at h
    cases h
  obtain ⟨buffer, hstore⟩ := Block.exists_store hfits
    (header &&& 0xFF00 ||| packetTypeInvalid <<< packetHeaderType)
  refine ⟨buffer, _, hstore, ?_⟩
  unfold retire
  rw [h, Option.bind_eq_bind, Option.bind_some, hstore]
  rfl

/-- The header of a task's packet has the type of a task. -/
theorem header_of_store {b b' : Block} {off : Nat} (h : b.store off 64 (taskImage tk) = some b') :
    b'.load off 2 = some 7 := by
  have hload := Block.load_digit h (k := 0) (m := 2) (by omega)
  rw [Nat.add_zero, Nat.pow_zero, Nat.div_one, taskImage_eq] at hload
  rw [hload]
  congr 1
  omega

theorem task_of_store {b b' : Block} {off : Nat} (h : b.store off 64 (taskImage tk) = some b')
    (htk : tk < 2 ^ 64) : b'.load (off + 16) 8 = some tk := by
  have hload := Block.load_digit h (k := 16) (m := 8) (by omega)
  have hdigit : (7 + tk * 256 ^ 16) / 256 ^ 16 = tk := by
    rw [Nat.add_mul_div_right _ _ (by decide), Nat.div_eq_of_lt (by decide), Nat.zero_add]
  rw [taskImage_eq, hdigit, Nat.mod_eq_of_lt (by omega)] at hload
  exact hload

/-- The bytes from the eighth on are zero. -/
theorem middle_of_store {b b' : Block} {off : Nat} (h : b.store off 64 (taskImage tk) = some b') :
    b'.load (off + 8) 2 = some 0 := by
  have hload := Block.load_digit h (k := 8) (m := 2) (by omega)
  rw [taskImage_eq] at hload
  rw [hload]
  congr 1
  omega

end SoftQueue

/-! ## What the queue holds -/

namespace UpQueue

variable {s : UpQueue} {size : Nat} {tk : Task} {calls : List Call}

/-- The queue as long as the second packet has not been read. -/
structure Inv (size : Nat) (s : UpQueue) : Prop where
  bytes : s.queue.queueSizeBytes = 72 * size
  block : s.queue.buffer.size = 72 * size
  write : s.queue.writeDispatchId = s.added.length
  read : s.queue.readDispatchId = s.pushed.length
  room : 8 * s.added.length ≤ 9 * size
  early : s.pushed.length ≤ 1
  order : s.pushed <+: s.added
  first : ∀ tk rest, s.added = tk :: rest → s.pushed = [] →
    s.queue.buffer.load 0 2 = some 7 ∧ s.queue.buffer.load 16 8 = some tk
  second : 2 ≤ s.added.length → s.queue.buffer.load 72 2 = some 0

/-- There is room for the packet. -/
theorem Inv.addTask (h : Inv size s) (hpow : size.isPowerOfTwo) (hsize : size ≤ 2 ^ 25)
    (htk : tk < 2 ^ 64) (hroom : 8 * (s.added.length + 1) ≤ 9 * size) :
    ∃ s', s.addTask tk = some s' ∧ Inv size s' ∧ s'.added = s.added ++ [tk] ∧
      s'.pushed = s.pushed := by
  have hlt : s.added.length < 8 * size := by omega
  have hoff := SoftQueue.writeOffset_eq h.bytes hpow hsize hlt
  have hfits : 64 * s.added.length + 64 ≤ s.queue.buffer.size := by
    rw [h.block]
    omega
  obtain ⟨buffer, hstore⟩ := Block.exists_store hfits (taskImage tk)
  have hadd : s.addTask tk = some
      { s with
        queue := { s.queue with
          buffer := buffer
          writeDispatchId := (s.added.length + 1) % 2 ^ 64 }
        added := s.added ++ [tk] } := by
    unfold UpQueue.addTask SoftQueue.writePacket
    simp only [h.write, hoff, sizeof_taskPacket, hstore, Option.bind_eq_bind, Option.bind_some,
      Option.pure_def]
  refine ⟨_, hadd, ⟨h.bytes, ?_, ?_, h.read, ?_, h.early, ?_, fun tk' rest hadded hpushed => ?_,
    fun htwo => ?_⟩, rfl, rfl⟩
  · exact (Block.size_of_store hstore).trans h.block
  · show (s.added.length + 1) % 2 ^ 64 = (s.added ++ [tk]).length
    rw [List.length_append, List.length_singleton, Nat.mod_eq_of_lt (by omega)]
  · show 8 * (s.added ++ [tk]).length ≤ 9 * size
    rw [List.length_append, List.length_singleton]
    exact hroom
  · exact h.order.trans (List.prefix_append s.added [tk])
  · show buffer.load 0 2 = some 7 ∧ buffer.load 16 8 = some tk'
    cases hs : s.added with
    | nil =>
      -- this is the first packet
      have hcons : s.added ++ [tk] = tk' :: rest := hadded
      rw [hs, List.nil_append, List.cons.injEq] at hcons
      rw [hs, List.length_nil, Nat.mul_zero] at hstore
      rw [← hcons.1]
      exact ⟨SoftQueue.header_of_store hstore, SoftQueue.task_of_store hstore htk⟩
    | cons tk₀ rest₀ =>
      have hcons : s.added ++ [tk] = tk' :: rest := hadded
      rw [hs, List.cons_append, List.cons.injEq] at hcons
      have hlen : 1 ≤ s.added.length := by
        rw [hs]
        exact Nat.succ_pos _
      rw [Block.load_store_of_disjoint hstore (by omega),
        Block.load_store_of_disjoint hstore (by omega), ← hcons.1]
      exact h.first tk₀ rest₀ hs hpushed
  · show buffer.load 72 2 = some 0
    have hlen : 2 ≤ s.added.length + 1 := by
      have hlen' : 2 ≤ (s.added ++ [tk]).length := htwo
      rwa [List.length_append, List.length_singleton] at hlen'
    by_cases hone : s.added.length = 1
    · rw [hone] at hstore
      exact SoftQueue.middle_of_store hstore
    · rw [Block.load_store_of_disjoint hstore (by omega)]
      exact h.second (by omega)

/-- The packet would lie behind the buffer. -/
theorem Inv.addTask_fault (h : Inv size s) (tk : Task) (hpow : size.isPowerOfTwo)
    (hsize : size ≤ 2 ^ 25) (hroom : 9 * size < 8 * (s.added.length + 1)) : s.addTask tk = none := by
  have hlt : s.added.length < 8 * size := by
    have hle := h.room
    have hpos : 0 < size := by
      obtain ⟨k, rfl⟩ := hpow
      exact Nat.two_pow_pos k
    omega
  have hoff := SoftQueue.writeOffset_eq h.bytes hpow hsize hlt
  have hnone : s.queue.buffer.store (64 * s.added.length) 64 (taskImage tk) = none := by
    rw [Block.store_eq_none_iff, h.block]
    omega
  unfold UpQueue.addTask SoftQueue.writePacket
  simp only [h.write, hoff, sizeof_taskPacket, hnone, Option.bind_eq_bind, Option.bind_none]

/-! ### `AddNewTasks` -/

theorem receive_length {n index index' : Nat} {q q' : SoftQueue} {tasks : List Task}
    (h : receive n q index = some (q', index', tasks)) : tasks.length ≤ n := by
  induction n generalizing q q' index index' tasks with
  | zero =>
    rw [receive, Option.some.injEq, Prod.mk.injEq, Prod.mk.injEq] at h
    rw [← h.2.2]
    exact Nat.le_refl 0
  | succ n ih =>
    rw [receive, Option.bind_eq_bind, Option.bind_eq_some_iff] at h
    obtain ⟨type, -, h⟩ := h
    cases type with
    | invalid =>
      have hnil : [] = tasks := by
        rw [Option.pure_def, Option.some.injEq, Prod.mk.injEq, Prod.mk.injEq] at h
        exact h.2.2
      rw [← hnil]
      exact Nat.zero_le _
    | task =>
      simp only [Option.bind_eq_bind, Option.bind_eq_some_iff, Option.pure_def, Option.some.injEq,
        Prod.mk.injEq] at h
      obtain ⟨tk, -, q₁, -, ⟨q₂, index₂, tasks₂⟩, hrest, -, -, htasks⟩ := h
      have hle : tasks₂.length ≤ n := ih hrest
      simp only at htasks
      rw [← htasks, List.length_cons]
      omega
    | other =>
      simp only [Option.bind_eq_bind, Option.bind_eq_some_iff] at h
      obtain ⟨q₁, -, hrest⟩ := h
      have hle := ih hrest
      omega

/-- The second packet is no task for the consumer. -/
theorem receive_second {n index' : Nat} {q q' : SoftQueue} {tasks : List Task} (hpos : 0 < size)
    (hbytes : q.queueSizeBytes = 72 * size) (hload : q.buffer.load 72 2 = some 0)
    (h : receive (n + 1) q 1 = some (q', index', tasks)) : tasks.length ≤ n := by
  rw [← SoftQueue.readOffset_one hbytes hpos] at hload
  have htype : q.packetType 1 = some .other := SoftQueue.packetType_eq hload
  rw [receive, htype] at h
  simp only [Option.bind_eq_bind, Option.bind_some, Option.bind_eq_some_iff] at h
  obtain ⟨q₁, -, hrest⟩ := h
  exact receive_length hrest

/-- The first packet is one. -/
theorem receive_first {n : Nat} {q : SoftQueue} (hheader : q.buffer.load 0 2 = some 7)
    (htask : q.buffer.load 16 8 = some tk) :
    ∃ buffer v, q.buffer.store 0 2 v = some buffer ∧
      receive (n + 1) q 0 = (receive n { q with buffer := buffer } 1).map
        fun (q, index, tasks) => (q, index, tk :: tasks) := by
  have hoff : q.readOffset 0 = 0 := SoftQueue.readOffset_zero
  rw [← hoff] at hheader
  obtain ⟨buffer, v, hstore, hretire⟩ := SoftQueue.retire_eq hheader
  have htype : q.packetType 0 = some .task := SoftQueue.packetType_eq hheader
  have hfound : q.packetTask 0 = some tk := by
    unfold SoftQueue.packetTask
    rw [hoff, offset_task]
    exact htask
  rw [hoff] at hstore
  refine ⟨buffer, v, hstore, ?_⟩
  rw [receive, htype, hfound, hretire]
  simp only [Option.bind_eq_bind, Option.bind_some, Option.pure_def]
  cases receive n { q with buffer := buffer } ((0 + 1) % 2 ^ 64) with
  | none => rfl
  | some r => rfl

theorem Inv.behind (h : Inv size s) (hsize : size ≤ 2 ^ 25) :
    (s.queue.writeDispatchId + 2 ^ 64 - s.queue.readDispatchId) % 2 ^ 64 =
      s.added.length - s.pushed.length := by
  have hroom := h.room
  have hle := h.order.length_le
  rw [h.write, h.read]
  omega

/-- What has been added is pushed, when it is one task at most. -/
theorem Inv.addNewTasks (h : Inv size s) (hsize : size ≤ 2 ^ 25) (hone : s.added.length ≤ 1) :
    ∃ s', s.addNewTasks = some s' ∧ Inv size s' ∧ s'.added = s.added ∧ s'.pushed = s.added := by
  have hbehind := h.behind hsize
  have hle := h.order.length_le
  rcases Nat.lt_or_eq_of_le hle with hlt | heq
  · obtain ⟨tk, hadded⟩ : ∃ tk, s.added = [tk] := List.length_eq_one_iff.1 (by omega)
    have hpushed : s.pushed = [] := List.length_eq_zero_iff.1 (by omega)
    obtain ⟨hheader, htask⟩ := h.first tk [] hadded hpushed
    obtain ⟨buffer, v, hstore, hreceive⟩ := receive_first (n := 0) hheader htask
    have hread : s.queue.readDispatchId = 0 := by
      rw [h.read, hpushed]
      rfl
    rw [hpushed, hadded] at hbehind
    have hrun : s.addNewTasks = some { s with
        queue := { s.queue with buffer := buffer, readDispatchId := 1 }
        pushed := [tk] } := by
      unfold UpQueue.addNewTasks
      simp only
      rw [hbehind, hread]
      simp only [List.length_singleton, List.length_nil]
      rw [hreceive, hpushed]
      rfl
    refine ⟨_, hrun, ⟨h.bytes, ?_, h.write, rfl, h.room, Nat.le_refl 1, ?_, ?_, ?_⟩, rfl, hadded.symm⟩
    · exact (Block.size_of_store hstore).trans h.block
    · show [tk] <+: s.added
      exact hadded.symm ▸ List.prefix_rfl
    · intro tk' rest _ hnil
      cases hnil
    · intro htwo
      have htwo' : 2 ≤ s.added.length := htwo
      omega
  · have hrun : s.addNewTasks = some s := by
      unfold UpQueue.addNewTasks
      simp only
      rw [hbehind, heq, Nat.sub_self]
      simp only [receive, Option.bind_eq_bind, Option.bind_some, Option.pure_def, List.append_nil]
    exact ⟨s, hrun, h, rfl, h.order.eq_of_length heq⟩

/-- With two tasks or more the second one is lost. -/
theorem Inv.addNewTasks_loss (h : Inv size s) (hpos : 0 < size) (hsize : size ≤ 2 ^ 25)
    (htwo : 2 ≤ s.added.length) {s' : UpQueue} (hrun : s.addNewTasks = some s') :
    s'.pushed.length < s'.added.length := by
  have hbehind := h.behind hsize
  unfold UpQueue.addNewTasks at hrun
  simp only at hrun
  rw [hbehind] at hrun
  simp only [Option.bind_eq_bind, Option.bind_eq_some_iff, Option.pure_def, Option.some.injEq] at hrun
  obtain ⟨⟨q', index', tasks⟩, hreceive, hs'⟩ := hrun
  simp only at hs'
  have hfew : s.pushed.length + tasks.length < s.added.length := by
    have hsecond := h.second htwo
    have hearly := h.early
    have hread := h.read
    rcases Nat.lt_or_eq_of_le hearly with hlt | heq
    · have hpushed : s.pushed = [] := List.length_eq_zero_iff.1 (by omega)
      obtain ⟨n, hn⟩ : ∃ n, s.added.length = n + 2 := ⟨s.added.length - 2, by omega⟩
      cases hadded : s.added with
      | nil =>
        rw [hadded] at htwo
        simp at htwo
      | cons tk rest =>
        obtain ⟨hheader, htask⟩ := h.first tk rest hadded hpushed
        obtain ⟨buffer, v, hstore, hfirst⟩ := receive_first (n := n + 1) hheader htask
        rw [hread, hn, hpushed] at hreceive
        simp only [List.length_nil, Nat.sub_zero] at hreceive
        rw [hfirst, Option.map_eq_some_iff] at hreceive
        obtain ⟨⟨q₂, index₂, tasks₂⟩, hrest, heq⟩ := hreceive
        have hload : buffer.load 72 2 = some 0 := by
          rw [Block.load_store_of_disjoint hstore (by omega)]
          exact hsecond
        have hle := receive_second hpos (q := { s.queue with buffer := buffer }) h.bytes hload hrest
        simp only [Prod.mk.injEq] at heq
        rw [← heq.2.2, ← hadded, hn, hpushed, List.length_cons, List.length_nil]
        omega
    · obtain ⟨n, hn⟩ : ∃ n, s.added.length - s.pushed.length = n + 1 :=
        ⟨s.added.length - 2, by omega⟩
      rw [hread, hn, heq] at hreceive
      have hle := receive_second hpos h.bytes hsecond hreceive
      omega
  rw [← hs', List.length_append]
  exact hfew

/-! ## The result -/

theorem Inv.deliversFrom_iff (h : Inv size s) (hpow : size.isPowerOfTwo) (hsize : size ≤ 2 ^ 25)
    (htasks : ∀ tk, .addTask tk ∈ calls → tk < 2 ^ 64) :
    s.DeliversFrom calls ↔
      8 * (s.added.length + adds calls) ≤ 9 * size ∧ ReadsFirstOnly s.added.length calls := by
  induction calls generalizing s with
  | nil => exact ⟨fun _ => ⟨h.room, readsFirstOnly_nil⟩, fun _ => trivial⟩
  | cons call rest ih =>
    have hrest : ∀ tk, .addTask tk ∈ rest → tk < 2 ^ 64 :=
      fun tk htk => htasks tk (List.mem_cons_of_mem call htk)
    cases call with
    | addTask tk =>
      rw [adds_addTask, readsFirstOnly_addTask]
      by_cases hroom : 8 * (s.added.length + 1) ≤ 9 * size
      · obtain ⟨s', hstep, h', hadded, hpushed⟩ :=
          h.addTask hpow hsize (htasks tk List.mem_cons_self) hroom
        have hiff := ih h' hrest
        rw [hadded, List.length_append, List.length_singleton] at hiff
        have hadd : s.added.length + 1 + adds rest = s.added.length + (adds rest + 1) := by omega
        rw [← hadd, ← hiff]
        constructor
        · intro hdeliver
          obtain ⟨u, hu, -, -, hdeliver⟩ := hdeliver
          have heq : some s' = some u := hstep.symm.trans hu
          rw [Option.some.inj heq]
          exact hdeliver
        · intro hdeliver
          refine ⟨s', hstep, h'.order, fun hcall => ?_, hdeliver⟩
          cases hcall
      · have hnone := h.addTask_fault tk hpow hsize (by omega)
        constructor
        · intro hdeliver
          obtain ⟨u, hu, -⟩ := hdeliver
          have hfault : none = some u := hnone.symm.trans hu
          cases hfault
        · intro hcount
          omega
    | addNewTasks =>
      rw [adds_addNewTasks, readsFirstOnly_addNewTasks]
      by_cases hone : s.added.length ≤ 1
      · obtain ⟨s', hstep, h', hadded, hpushed⟩ := h.addNewTasks hsize hone
        have hiff := ih h' hrest
        rw [hadded] at hiff
        constructor
        · intro hdeliver
          obtain ⟨u, hu, -, -, hdeliver⟩ := hdeliver
          have heq : some s' = some u := hstep.symm.trans hu
          rw [← Option.some.inj heq] at hdeliver
          obtain ⟨hcount, hreads⟩ := hiff.1 hdeliver
          exact ⟨hcount, hone, hreads⟩
        · intro hcond
          obtain ⟨hcount, -, hreads⟩ := hcond
          exact ⟨s', hstep, h'.order, fun _ => hpushed.trans hadded.symm, hiff.2 ⟨hcount, hreads⟩⟩
      · constructor
        · intro hdeliver
          obtain ⟨u, hu, -, hall, -⟩ := hdeliver
          have hpos : 0 < size := by
            obtain ⟨k, rfl⟩ := hpow
            exact Nat.two_pow_pos k
          have hloss := h.addNewTasks_loss hpos hsize (by omega) hu
          rw [hall rfl] at hloss
          exact absurd hloss (Nat.lt_irrefl _)
        · intro hcond
          exact absurd hcond.2.1 hone

end UpQueue

/-! ### The constructor -/

theorem fillInvalid_size {b b' : Block} {n : Nat} (h : fillInvalid b n = some b') :
    b'.size = b.size := by
  induction n generalizing b' with
  | zero =>
    rw [fillInvalid, Option.some.injEq] at h
    rw [h]
  | succ n ih =>
    rw [fillInvalid, Option.bind_eq_bind, Option.bind_eq_some_iff] at h
    obtain ⟨b₁, hfill, hstore⟩ := h
    exact (Block.size_of_store hstore).trans (ih hfill)

theorem exists_fillInvalid {b : Block} {n : Nat} (h : 72 * n ≤ b.size) :
    ∃ b', fillInvalid b n = some b' := by
  induction n with
  | zero => exact ⟨b, rfl⟩
  | succ n ih =>
    obtain ⟨b₁, hfill⟩ := ih (by omega)
    have hfits : n * unionSize aqlPacket + 2 ≤ b₁.size := by
      rw [fillInvalid_size hfill, sizeof_aqlPacket]
      omega
    obtain ⟨b', hstore⟩ := Block.exists_store hfits packetTypeInvalid
    refine ⟨b', ?_⟩
    rw [fillInvalid, hfill]
    exact hstore

variable {size : Nat} {contents : Nat → UInt8} {calls : List Call}

/-- The size in bytes fits in 32 bits. -/
theorem create_small (contents : Nat → UInt8) (hpos : 0 < size) (hsize : size ≤ 2 ^ 25) :
    ∃ q, SoftQueue.create size contents = some q ∧ UpQueue.Inv size ⟨q, [], []⟩ := by
  have hbytes : size * unionSize aqlPacket % 2 ^ 32 = 72 * size := by
    rw [sizeof_aqlPacket, Nat.mod_eq_of_lt (by omega), Nat.mul_comm]
  obtain ⟨b, hfill⟩ := exists_fillInvalid (b := ⟨72 * size, contents⟩) (n := size) (Nat.le_refl _)
  have hsize' := fillInvalid_size hfill
  have hcreate : SoftQueue.create size contents = some ⟨size, 72 * size, b, 0, 0⟩ := by
    unfold SoftQueue.create
    simp only
    rw [hbytes, hfill]
    rfl
  refine ⟨_, hcreate, rfl, hsize', rfl, rfl, Nat.zero_le _, Nat.zero_le _, List.prefix_rfl,
    fun tk rest hnil => ?_, fun htwo => ?_⟩
  · cases hnil
  · simp at htwo

/-- The buffer is too small for the packets that the constructor marks. -/
theorem create_large (contents : Nat → UInt8) (hpow : size.isPowerOfTwo) (hsize : 2 ^ 25 < size) :
    SoftQueue.create size contents = none := by
  have hlarge : 2 ^ 26 ≤ size := by
    obtain ⟨k, rfl⟩ := hpow
    have hk : 25 < k := (Nat.pow_lt_pow_iff_right (by decide)).1 hsize
    exact Nat.pow_le_pow_right (by decide) hk
  obtain ⟨n, hn⟩ : ∃ n, size = n + 1 := ⟨size - 1, by omega⟩
  have hnone : fillInvalid ⟨size * unionSize aqlPacket % 2 ^ 32, contents⟩ size = none := by
    rw [hn, fillInvalid, Option.bind_eq_bind, Option.bind_eq_none_iff]
    intro b hfill
    rw [Block.store_eq_none_iff, fillInvalid_size hfill, sizeof_aqlPacket]
    simp only
    omega
  unfold SoftQueue.create
  simp only
  rw [hnone]
  rfl

/-- For every size that is accepted and every sequence of calls. -/
theorem delivers_iff (hsize : Accepted size) (htasks : ∀ tk, .addTask tk ∈ calls → tk < 2 ^ 64) :
    Delivers size contents calls ↔
      size ≤ 2 ^ 25 ∧ 8 * adds calls ≤ 9 * size ∧ ReadsFirstOnly 0 calls := by
  obtain ⟨hne, hpow, -⟩ := hsize
  unfold Delivers
  by_cases hsmall : size ≤ 2 ^ 25
  · obtain ⟨q, hcreate, hinv⟩ := create_small contents (Nat.pos_of_ne_zero hne) hsmall
    have hiff := hinv.deliversFrom_iff hpow hsmall htasks
    rw [List.length_nil, Nat.zero_add] at hiff
    rw [← hiff]
    constructor
    · intro hdeliver
      obtain ⟨q', hcreate', hdeliver⟩ := hdeliver
      have heq : some q = some q' := hcreate.symm.trans hcreate'
      rw [Option.some.inj heq]
      exact ⟨hsmall, hdeliver⟩
    · intro hdeliver
      exact ⟨q, hcreate, hdeliver.2⟩
  · have hnone := create_large contents hpow (by omega)
    constructor
    · intro hdeliver
      obtain ⟨q', hcreate', -⟩ := hdeliver
      have hfault : none = some q' := hnone.symm.trans hcreate'
      cases hfault
    · intro hcond
      exact absurd hcond.1 hsmall

/-- One task is added and taken, and another one is added. -/
theorem delivers_iff_one : Delivers 2 (fun _ => 0) [.addTask 4096, .addNewTasks, .addTask 8192] ↔
    2 ≤ 2 ^ 25 ∧ 8 * adds [.addTask 4096, .addNewTasks, .addTask 8192] ≤ 9 * 2 ∧
      ReadsFirstOnly 0 [.addTask 4096, .addNewTasks, .addTask 8192] := by
  refine delivers_iff ⟨by decide, ⟨1, rfl⟩, by decide⟩ fun tk htk => ?_
  simp only [List.mem_cons, Call.addTask.injEq, reduceCtorEq, List.not_mem_nil, or_false,
    false_or] at htk
  rcases htk with htk | htk
  · rw [htk]
    decide
  · rw [htk]
    decide

/-- Two tasks are added, and the second one is lost. -/
theorem second_lost : ¬ ∀ size contents calls, Accepted size →
    (∀ tk, .addTask tk ∈ calls → tk < 2 ^ 64) → Delivers size contents calls := by
  intro hall
  have htasks : ∀ tk, .addTask tk ∈ [Call.addTask 4096, .addTask 8192, .addNewTasks] →
      tk < 2 ^ 64 := by
    intro tk htk
    simp only [List.mem_cons, Call.addTask.injEq, reduceCtorEq, List.not_mem_nil, or_false] at htk
    rcases htk with htk | htk
    · rw [htk]
      decide
    · rw [htk]
      decide
  have hpow : (1024 : Nat).isPowerOfTwo := ⟨10, rfl⟩
  obtain ⟨q, hcreate, hdeliver⟩ :=
    hall 1024 (fun _ => 0) _ ⟨by decide, hpow, by decide⟩ htasks
  obtain ⟨q', hcreate', hinv⟩ := create_small (fun _ => 0) (by decide : 0 < 1024) (by decide)
  have heq : some q = some q' := hcreate.symm.trans hcreate'
  rw [Option.some.inj heq] at hdeliver
  have hreads : ReadsFirstOnly 0 _ := ((hinv.deliversFrom_iff hpow (by decide) htasks).1 hdeliver).2
  exact absurd (hreads [.addTask 4096, .addTask 8192] [] rfl) (by decide)

end Costream.Processor
