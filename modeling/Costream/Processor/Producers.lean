import Costream.Processor.UpQueue
import Costream.Tally
import Costream.Trace

/-!
# Several producers of an up-queue

Any thread can call `AddTask(Task*)`, which takes no lock: it loads the write index, stores its
packet at that index, and stores the next index.  `AddNewTasks` runs at the same time.

* `machine` has one action for each of these accesses, of any number of calls.
* `orderly` are the steps that keep to the only order in which the queue works: one call of
  `AddTask(Task*)` after the other.
* `producers_deliver` is the result, and `packet_overwritten` what two calls at once lead to.

The second packet of a queue is lost in any case, as its two sides do not agree on the size of a
packet.  What a call does after it has stored the index, the notification, is not in this model.
-/

namespace Costream.Processor.Producers

open Memory Trace Costream.Tally

/-! ## The machine -/

/-- Where a call of `AddTask(Task*)` is. -/
inductive ProducerPlace where
  | load
  | packet (index : Nat)
  | index (index : Nat)
  | done
  deriving DecidableEq

structure Producer where
  tk : Task
  place : ProducerPlace
  deriving DecidableEq

/-- Where the processor is in `AddNewTasks`. -/
inductive ConsumerPlace where
  | idle
  | readIndex (writeIndex : Nat)
  | packet (writeIndex readIndex index : Nat)
  | task (writeIndex readIndex index : Nat)
  | retire (writeIndex readIndex index : Nat)
  | store (index : Nat)
  deriving DecidableEq

/-- `added` are the tasks whose packet and index have been stored, `seen` those that had been added
when `AddNewTasks` loaded the write index, and `pushed` those that came to `runnableQueue_`. -/
structure State where
  queue : SoftQueue
  producers : List Producer
  consumer : ConsumerPlace
  added : List Task
  seen : List Task
  pushed : List Task

def initial (queue : SoftQueue) : State := ⟨queue, [], .idle, [], [], []⟩

namespace State

variable (s : State)

def setProducer (k : Nat) (p : Producer) : State := { s with producers := s.producers.set k p }

/-- The next access of the `k`-th call of `AddTask(Task*)`. -/
def addTask (k : Nat) (p : Producer) : Option State :=
  match p.place with
  | .load => some (s.setProducer k { p with place := .packet s.queue.writeDispatchId })
  | .packet index => (s.queue.writePacket index p.tk).map fun queue =>
      { s with queue := queue }.setProducer k { p with place := .index index }
  | .index index =>
    some ({ s with
      queue := { s.queue with writeDispatchId := (index + 1) % 2 ^ 64 }
      added := s.added ++ [p.tk] }.setProducer k { p with place := .done })
  | .done => some s

/-- Behind the loop: `StoreReadIndexRelaxed`, unless there was nothing. -/
def leave (readIndex index : Nat) : ConsumerPlace :=
  if readIndex ≠ index then .store index else .idle

/-- The head of the loop. -/
def loop (writeIndex readIndex index : Nat) : ConsumerPlace :=
  if index ≠ writeIndex then .packet writeIndex readIndex index else leave readIndex index

/-- The next access of `AddNewTasks`. -/
def addNewTasks : Option State :=
  match s.consumer with
  | .idle => some { s with consumer := .readIndex s.queue.writeDispatchId, seen := s.added }
  | .readIndex writeIndex =>
    some { s with consumer := loop writeIndex s.queue.readDispatchId s.queue.readDispatchId }
  | .packet writeIndex readIndex index => (s.queue.packetType index).map fun type =>
      { s with
        consumer := match type with
          | .invalid => leave readIndex index
          | .task => .task writeIndex readIndex index
          | .other => .retire writeIndex readIndex index }
  | .task writeIndex readIndex index => (s.queue.packetTask index).map fun tk =>
      { s with consumer := .retire writeIndex readIndex index, pushed := s.pushed ++ [tk] }
  | .retire writeIndex readIndex index => (s.queue.retire index).map fun queue =>
      { s with queue := queue, consumer := loop writeIndex readIndex ((index + 1) % 2 ^ 64) }
  | .store index =>
    some { s with queue := { s.queue with readDispatchId := index }, consumer := .idle }

end State

inductive Action where
  | call (tk : Task)
  | producer (k : Nat)
  | consumer

def enabled (s : State) : Action → Bool
  | .call tk => tk < 2 ^ 64
  | .producer k => k < s.producers.length
  | .consumer => true

def step (s : State) : Action → Option State
  | .call tk => some { s with producers := s.producers ++ [⟨tk, .load⟩] }
  | .producer k => (s.producers[k]?).bind (s.addTask k)
  | .consumer => s.addNewTasks

def machine : Machine State Action where
  enabled s a := enabled s a = true
  step := step

instance (s : State) (a : Action) : Decidable (machine.enabled s a) :=
  inferInstanceAs (Decidable (enabled s a = true))

/-! ## One call after the other -/

/-- The call has loaded the write index and has not stored it. -/
def ProducerPlace.between : ProducerPlace → Bool
  | .packet _ | .index _ => true
  | _ => false

/-- A call loads the index while no other one is between its load and its store, its packet lies in
the buffer, and `AddNewTasks` begins before a second packet has been added. -/
def State.orderly (size : Nat) (s : State) : Action → Bool
  | .call _ => true
  | .producer k => (s.producers[k]?).all fun p =>
    match p.place with
    | .load => s.producers.all fun p => !p.place.between
    | .packet index => 8 * (index + 1) ≤ 9 * size
    | _ => true
  | .consumer => s.consumer ≠ .idle || s.queue.writeDispatchId ≤ 1

def Orderly (size : Nat) (s : State) (a : Action) : Prop := s.orderly size a = true

instance (size : Nat) (s : State) (a : Action) : Decidable (Orderly size s a) :=
  inferInstanceAs (Decidable (s.orderly size a = true))

/-! ## The invariant -/

/-- The packet at the start of the buffer is that of the task. -/
def First (q : SoftQueue) (tk : Task) : Prop :=
  q.buffer.load 0 2 = some 7 ∧ q.buffer.load 16 8 = some tk

/-- What holds of a call: it has the index of the next packet, and has written this packet before it
stores the index. -/
structure Calls (size : Nat) (s : State) (p : Producer) : Prop where
  word : p.tk < 2 ^ 64
  index : ∀ i, p.place = .packet i ∨ p.place = .index i → i = s.added.length
  fits : ∀ i, p.place = .index i → 8 * (i + 1) ≤ 9 * size
  written : p.place = .index 0 → First s.queue p.tk

/-- What holds where the processor is.  It never comes to a second packet. -/
def Consuming (s : State) : Prop :=
  match s.consumer with
  | .idle => s.queue.readDispatchId = s.pushed.length ∧ s.pushed.length ≤ 1 ∧ s.seen <+: s.pushed
  | .readIndex writeIndex => s.queue.readDispatchId = s.pushed.length ∧
      writeIndex = s.seen.length ∧ s.pushed.length ≤ writeIndex ∧ writeIndex ≤ 1
  | .packet writeIndex readIndex index | .task writeIndex readIndex index =>
    writeIndex = 1 ∧ readIndex = 0 ∧ index = 0 ∧ s.seen.length = 1 ∧ s.pushed = []
  | .retire writeIndex readIndex index =>
    writeIndex = 1 ∧ readIndex = 0 ∧ index = 0 ∧ s.seen.length = 1 ∧ s.pushed.length = 1
  | .store index => index = 1 ∧ s.seen.length = 1 ∧ s.pushed.length = 1

/-- The calls between the load and the store of the write index. -/
def Producer.share (p : Producer) : Nat := if p.place.between then 1 else 0

/-- The queue when one call is made after the other, and the second packet has not been read. -/
structure Inv (size : Nat) (s : State) : Prop where
  bytes : s.queue.queueSizeBytes = 72 * size
  block : s.queue.buffer.size = 72 * size
  write : s.queue.writeDispatchId = s.added.length
  room : 8 * s.added.length ≤ 9 * size
  pushed : s.pushed <+: s.added
  seen : s.seen <+: s.added
  one : tally Producer.share s.producers ≤ 1
  calls : ∀ p ∈ s.producers, Calls size s p
  first : ∀ tk rest, s.added = tk :: rest → s.pushed = [] → First s.queue tk
  consuming : Consuming s

variable {s s' : State} {size j k : Nat} {tk : Task} {p p' : Producer} {q : SoftQueue}

/-- A new queue. -/
theorem inv_initial (hsize : Accepted size) {contents : Nat → UInt8}
    (hq : SoftQueue.create size contents = some q) : size ≤ 2 ^ 25 ∧ Inv size (initial q) := by
  obtain ⟨hne, hpow, -⟩ := hsize
  have hsmall : size ≤ 2 ^ 25 := by
    by_contra hlarge
    rw [create_large contents hpow (by omega)] at hq
    cases hq
  obtain ⟨q', hq', hinv⟩ := create_small contents (Nat.pos_of_ne_zero hne) hsmall
  cases hq.symm.trans hq'
  refine ⟨hsmall, hinv.bytes, hinv.block, hinv.write, Nat.zero_le _, List.prefix_rfl,
    List.prefix_rfl, Nat.zero_le _, nofun, nofun, ?_⟩
  exact ⟨hinv.read, Nat.zero_le _, List.prefix_rfl⟩

/-! ### `AddTask` -/

theorem mem_set_cases {l : List Producer} (h : p ∈ l.set k p') :
    p = p' ∨ ∃ j, j ≠ k ∧ l[j]? = some p := by
  obtain ⟨j, hj⟩ := List.mem_iff_getElem?.1 h
  by_cases hjk : j = k
  · subst hjk
    have hlt : j < l.length := by
      have hlt := (List.getElem?_eq_some_iff.1 hj).1
      rwa [List.length_set] at hlt
    rw [List.getElem?_set_self hlt] at hj
    exact .inl (Option.some.inj hj).symm
  · rw [List.getElem?_set_ne (Ne.symm hjk)] at hj
    exact .inr ⟨j, hjk, hj⟩

/-- While a call is between its load and its store, no other one is. -/
theorem Inv.others (h : Inv size s) (hk : s.producers[k]? = some p) (hp : p.place.between = true)
    (hj : s.producers[j]? = some p') (hne : j ≠ k) : p'.place.between = false := by
  have hone := h.one
  have hle := add_le_tally Producer.share hj hk hne
  cases hp' : p'.place.between with
  | false => rfl
  | true =>
    unfold Producer.share at hle hone
    rw [if_pos hp', if_pos hp] at hle
    omega

/-- A call outside knows nothing about the queue. -/
theorem calls_outside (hword : p.tk < 2 ^ 64) (hp : p.place.between = false) : Calls size s p := by
  refine ⟨hword, fun i hi => ?_, fun i hi => ?_, fun hi => ?_⟩
  · rcases hi with hi | hi
    · rw [hi] at hp
      cases hp
    · rw [hi] at hp
      cases hp
  · rw [hi] at hp
    cases hp
  · rw [hi] at hp
    cases hp

theorem Inv.call (h : Inv size s) (htk : tk < 2 ^ 64) :
    Inv size { s with producers := s.producers ++ [⟨tk, .load⟩] } := by
  refine { h with one := ?_, calls := fun p hp => ?_ }
  · show tally Producer.share (s.producers ++ [⟨tk, .load⟩]) ≤ 1
    rw [tally_append]
    exact h.one
  · rcases List.mem_append.1 hp with hp | hp
    · exact ⟨(h.calls p hp).word, (h.calls p hp).index, (h.calls p hp).fits, (h.calls p hp).written⟩
    · rw [List.mem_singleton.1 hp]
      exact calls_outside htk rfl

/-- The access of one call: what it is afterwards, and what the others are. -/
theorem calls_set {q : State} (hother : ∀ j p', j ≠ k → s.producers[j]? = some p' → Calls size q p')
    (hself : Calls size q p) : ∀ p' ∈ s.producers.set k p, Calls size q p' := by
  intro p' hp'
  rcases mem_set_cases hp' with rfl | ⟨j, hjk, hj⟩
  · exact hself
  · exact hother j p' hjk hj

/-- The call loads the write index, while it is alone. -/
theorem Inv.load (h : Inv size s) (hk : s.producers[k]? = some p)
    (halone : ∀ p' ∈ s.producers, p'.place.between = false) :
    Inv size (s.setProducer k { p with place := .packet s.queue.writeDispatchId }) := by
  have hnone : tally Producer.share s.producers = 0 := by
    rw [tally_eq_zero]
    intro p' hp'
    unfold Producer.share
    rw [halone p' hp']
    rfl
  refine { h with one := ?_, calls := calls_set (fun j p' _ hj => ?_) ?_ }
  · have hset := tally_set Producer.share hk { p with place := .packet s.queue.writeDispatchId }
    have hle : Producer.share { p with place := .packet s.queue.writeDispatchId } ≤ 1 := by
      unfold Producer.share
      split <;> decide
    show tally Producer.share (s.producers.set k _) ≤ 1
    omega
  · have hmem := List.mem_of_getElem? hj
    exact calls_outside (h.calls p' hmem).word (halone p' hmem)
  · refine ⟨(h.calls p (List.mem_of_getElem? hk)).word, fun i hi => ?_, fun i hi => ?_, fun hi => ?_⟩
    · rcases hi with hi | hi
      · cases hi
        exact h.write
      · cases hi
    · cases hi
    · cases hi

/-- The call stores its packet, which lies in the buffer. -/
theorem Inv.packet (h : Inv size s) (hpow : size.isPowerOfTwo) (hsize : size ≤ 2 ^ 25)
    (hk : s.producers[k]? = some p) {i : Nat} (hp : p.place = .packet i)
    (hroom : 8 * (i + 1) ≤ 9 * size) :
    ∃ s', s.addTask k p = some s' ∧ Inv size s' := by
  have hcall := h.calls p (List.mem_of_getElem? hk)
  have hindex := hcall.index i (.inl hp)
  have hlt : i < 8 * size := by omega
  have hoff := SoftQueue.writeOffset_eq h.bytes hpow hsize hlt
  have hfits : 64 * i + 64 ≤ s.queue.buffer.size := by
    rw [h.block]
    omega
  obtain ⟨buffer, hstore⟩ := Block.exists_store hfits (taskImage p.tk)
  have hadd : s.addTask k p = some ({ s with
      queue := { s.queue with buffer := buffer } }.setProducer k { p with place := .index i }) := by
    unfold State.addTask SoftQueue.writePacket
    rw [hp]
    simp only [hoff, sizeof_taskPacket, hstore, Option.bind_eq_bind, Option.bind_some,
      Option.pure_def, Option.map_some]
  have hbetween : p.place.between = true := by
    rw [hp]
    rfl
  refine ⟨_, hadd, { h with
    block := (Block.size_of_store hstore).trans h.block
    one := ?_
    calls := calls_set (fun j p' hne hj => ?_) ?_
    first := fun tk rest hadded hnil => ?_ }⟩
  · have hset := tally_set Producer.share hk { p with place := .index i }
    have hsame : Producer.share { p with place := .index i } = p.share := by
      unfold Producer.share
      rw [hbetween]
      rfl
    rw [hsame] at hset
    have hone := h.one
    show tally Producer.share (s.producers.set k _) ≤ 1
    omega
  · exact calls_outside (h.calls p' (List.mem_of_getElem? hj)).word (h.others hk hbetween hj hne)
  · refine ⟨hcall.word, fun j hj => ?_, fun j hj => ?_, fun hj => ?_⟩
    · rcases hj with hj | hj
      · cases hj
      · cases hj
        exact hindex
    · cases hj
      exact hroom
    · cases hj
      exact ⟨SoftQueue.header_of_store hstore, SoftQueue.task_of_store hstore hcall.word⟩
  · have hlen : 1 ≤ s.added.length := by
      have hadded : s.added = tk :: rest := hadded
      rw [hadded]
      exact Nat.succ_pos _
    obtain ⟨hheader, htask⟩ := h.first tk rest hadded hnil
    refine ⟨?_, ?_⟩
    · exact (Block.load_store_of_disjoint hstore (by omega)).trans hheader
    · exact (Block.load_store_of_disjoint hstore (by omega)).trans htask

/-- The call stores the next index. -/
theorem Inv.index (h : Inv size s) (hsize : size ≤ 2 ^ 25) (hk : s.producers[k]? = some p) {i : Nat}
    (hp : p.place = .index i) : Inv size ({ s with
      queue := { s.queue with writeDispatchId := (i + 1) % 2 ^ 64 }
      added := s.added ++ [p.tk] }.setProducer k { p with place := .done }) := by
  have hcall := h.calls p (List.mem_of_getElem? hk)
  have hindex := hcall.index i (.inr hp)
  have hfits := hcall.fits i hp
  have hbetween : p.place.between = true := by
    rw [hp]
    rfl
  have hlen : (s.added ++ [p.tk]).length = i + 1 := by
    rw [List.length_append, List.length_singleton, hindex]
  refine ⟨h.bytes, h.block, ?_, ?_, h.pushed.trans (List.prefix_append ..),
    h.seen.trans (List.prefix_append ..), ?_, calls_set (fun j p' hne hj => ?_) ?_,
    fun tk rest hadded hnil => ?_, h.consuming⟩
  · show (i + 1) % 2 ^ 64 = (s.added ++ [p.tk]).length
    rw [hlen, Nat.mod_eq_of_lt (by omega)]
  · show 8 * (s.added ++ [p.tk]).length ≤ 9 * size
    rw [hlen]
    exact hfits
  · have hset := tally_set Producer.share hk { p with place := .done }
    have hgone : Producer.share { p with place := .done } = 0 := rfl
    have hone := h.one
    show tally Producer.share (s.producers.set k _) ≤ 1
    omega
  · exact calls_outside (h.calls p' (List.mem_of_getElem? hj)).word (h.others hk hbetween hj hne)
  · exact calls_outside hcall.word rfl
  · have hadded : s.added ++ [p.tk] = tk :: rest := hadded
    show First { s.queue with writeDispatchId := (i + 1) % 2 ^ 64 } tk
    cases hs : s.added with
    | nil =>
      -- this is the first packet
      rw [hs, List.nil_append, List.cons.injEq] at hadded
      rw [hs, List.length_nil] at hindex
      rw [← hadded.1]
      exact hcall.written (by rw [hp, hindex])
    | cons tk₀ rest₀ =>
      rw [hs, List.cons_append, List.cons.injEq] at hadded
      rw [← hadded.1]
      exact h.first tk₀ rest₀ hs hnil

/-! ### `AddNewTasks` -/

/-- The accesses that `AddNewTasks` has to go, when a task at most has been added. -/
def State.ahead (s : State) : Nat :=
  match s.consumer with
  | .idle => 7
  | .readIndex writeIndex => 6 + 2 * (s.added.length - writeIndex)
  | .packet _ _ _ => 5
  | .task _ _ _ => 4
  | .retire _ _ _ => 3
  | .store _ => 2

/-- `AddNewTasks` is over, and has pushed what has been added. -/
def State.Drained (s : State) : Prop := s.consumer = .idle ∧ s.pushed = s.added

/-- What an access of `AddNewTasks` does. -/
structure Goes (size : Nat) (s s' : State) : Prop where
  inv : Inv size s'
  added : s'.added = s.added
  ahead : s.added.length ≤ 1 → s'.Drained ∨ s'.ahead < s.ahead

theorem Calls.of_same (h : Calls size s p) (hadded : s'.added = s.added)
    (hbuffer : s'.queue.buffer = s.queue.buffer) : Calls size s' p := by
  refine ⟨h.word, fun i hi => ?_, h.fits, fun hi => ?_⟩
  · rw [hadded]
    exact h.index i hi
  · unfold First
    rw [hbuffer]
    exact h.written hi

theorem eq_of_prefix {l l' : List Task} (h : l <+: s.added) (h' : l' <+: s.added)
    (hlen : l.length = l'.length) : l = l' :=
  (List.prefix_of_prefix_length_le h h' hlen.le).eq_of_length hlen

/-- The first task, when `AddNewTasks` has seen one. -/
theorem Inv.seen_first (h : Inv size s) (hseen : s.seen.length = 1) :
    ∃ tk rest, s.added = tk :: rest ∧ s.seen = [tk] := by
  obtain ⟨tk, htk⟩ := List.length_eq_one_iff.1 hseen
  obtain ⟨rest, hrest⟩ := h.seen
  rw [htk] at hrest
  exact ⟨tk, rest, hrest.symm, htk⟩

theorem Inv.idle (h : Inv size s) (hc : s.consumer = .idle) (hone : s.queue.writeDispatchId ≤ 1) :
    Goes size s { s with consumer := .readIndex s.queue.writeDispatchId, seen := s.added } := by
  have hconsuming := h.consuming
  unfold Consuming at hconsuming
  rw [hc] at hconsuming
  obtain ⟨hread, -, -⟩ := hconsuming
  refine ⟨{ h with
    seen := List.prefix_rfl
    calls := fun p hp => (h.calls p hp).of_same rfl rfl
    consuming := ?_ }, rfl, fun hadded => .inr ?_⟩
  · have hle := h.pushed.length_le
    rw [← h.write] at hle
    exact ⟨hread, h.write, hle, hone⟩
  · unfold State.ahead
    rw [hc]
    show 6 + 2 * (s.added.length - s.queue.writeDispatchId) < 7
    rw [h.write, Nat.sub_self]
    decide

theorem Inv.readIndex (h : Inv size s) {w : Nat} (hc : s.consumer = .readIndex w) :
    Goes size s
      { s with consumer := State.loop w s.queue.readDispatchId s.queue.readDispatchId } := by
  have hconsuming := h.consuming
  unfold Consuming at hconsuming
  rw [hc] at hconsuming
  obtain ⟨hread, hseen, hle, hone⟩ := hconsuming
  by_cases hr : s.queue.readDispatchId = w
  · -- there is nothing to do
    have heq : s.pushed = s.seen := eq_of_prefix h.pushed h.seen (by omega)
    have hloop : State.loop w s.queue.readDispatchId s.queue.readDispatchId = .idle := by
      unfold State.loop State.leave
      rw [if_neg (not_not.2 hr), if_neg (not_not.2 rfl)]
    rw [hloop]
    refine ⟨{ h with
      calls := fun p hp => (h.calls p hp).of_same rfl rfl
      consuming := ⟨hread, hle.trans hone, heq ▸ List.prefix_rfl⟩ }, rfl, fun hadded => ?_⟩
    by_cases hall : w = s.added.length
    · exact .inl ⟨rfl, h.pushed.eq_of_length (by omega)⟩
    · refine .inr ?_
      have hlt := h.seen.length_le
      unfold State.ahead
      rw [hc]
      show 7 < 6 + 2 * (s.added.length - w)
      omega
  · have hnil : s.pushed = [] := List.length_eq_zero_iff.1 (by omega)
    have hzero : s.queue.readDispatchId = 0 := by
      rw [hread, hnil]
      rfl
    have hw : w = 1 := by omega
    have hloop : State.loop w s.queue.readDispatchId s.queue.readDispatchId = .packet 1 0 0 := by
      unfold State.loop
      rw [if_pos hr, hw, hzero]
    rw [hloop]
    refine ⟨{ h with
      calls := fun p hp => (h.calls p hp).of_same rfl rfl
      consuming := ⟨rfl, rfl, rfl, hseen.symm.trans hw, hnil⟩ }, rfl, fun hadded => .inr ?_⟩
    unfold State.ahead
    rw [hc]
    show 5 < 6 + 2 * (s.added.length - w)
    omega

/-- The first packet is a task. -/
theorem Inv.readPacket (h : Inv size s) {w r i : Nat} (hc : s.consumer = .packet w r i) :
    ∃ s', s.addNewTasks = some s' ∧ Goes size s s' := by
  have hconsuming := h.consuming
  unfold Consuming at hconsuming
  rw [hc] at hconsuming
  obtain ⟨rfl, rfl, rfl, hseen, hnil⟩ := hconsuming
  obtain ⟨tk, rest, hadded, -⟩ := h.seen_first hseen
  obtain ⟨hheader, -⟩ := h.first tk rest hadded hnil
  rw [← SoftQueue.readOffset_zero (q := s.queue)] at hheader
  have htype : s.queue.packetType 0 = some .task := SoftQueue.packetType_eq hheader
  refine ⟨{ s with consumer := .task 1 0 0 }, ?_, ⟨{ h with
    calls := fun p hp => (h.calls p hp).of_same rfl rfl
    consuming := ⟨rfl, rfl, rfl, hseen, hnil⟩ }, rfl, fun _ => .inr ?_⟩⟩
  · unfold State.addNewTasks
    rw [hc]
    dsimp only
    rw [htype]
    rfl
  · unfold State.ahead
    rw [hc]
    show 4 < 5
    decide

theorem Inv.readTask (h : Inv size s) {w r i : Nat} (hc : s.consumer = .task w r i) :
    ∃ s', s.addNewTasks = some s' ∧ Goes size s s' := by
  have hconsuming := h.consuming
  unfold Consuming at hconsuming
  rw [hc] at hconsuming
  obtain ⟨rfl, rfl, rfl, hseen, hnil⟩ := hconsuming
  obtain ⟨tk, rest, hadded, -⟩ := h.seen_first hseen
  obtain ⟨-, htask⟩ := h.first tk rest hadded hnil
  have hfound : s.queue.packetTask 0 = some tk := by
    unfold SoftQueue.packetTask
    rw [SoftQueue.readOffset_zero, offset_task]
    exact htask
  refine ⟨{ s with consumer := .retire 1 0 0, pushed := s.pushed ++ [tk] }, ?_, ⟨{ h with
    calls := fun p hp => (h.calls p hp).of_same rfl rfl
    pushed := ?_
    first := fun tk' rest' _ hcons => ?_
    consuming := ⟨rfl, rfl, rfl, hseen, ?_⟩ }, rfl, fun _ => .inr ?_⟩⟩
  · unfold State.addNewTasks
    rw [hc]
    dsimp only
    rw [hfound]
    rfl
  · show s.pushed ++ [tk] <+: s.added
    rw [hnil, hadded]
    exact ⟨rest, rfl⟩
  · exact absurd hcons (List.append_ne_nil_of_right_ne_nil _ (List.cons_ne_nil _ _))
  · show (s.pushed ++ [tk]).length = 1
    rw [hnil]
    rfl
  · unfold State.ahead
    rw [hc]
    show 3 < 4
    decide

theorem Inv.retire (h : Inv size s) (hpos : 0 < size) {w r i : Nat}
    (hc : s.consumer = .retire w r i) : ∃ s', s.addNewTasks = some s' ∧ Goes size s s' := by
  have hconsuming := h.consuming
  unfold Consuming at hconsuming
  rw [hc] at hconsuming
  obtain ⟨rfl, rfl, rfl, hseen, hpushed⟩ := hconsuming
  have hheader : s.queue.buffer.load (s.queue.readOffset 0) 2 =
      some (s.queue.buffer.value (s.queue.readOffset 0) 2) := by
    refine Block.load_eq ?_
    rw [SoftQueue.readOffset_zero, h.block]
    omega
  obtain ⟨buffer, v, hstore, hretire⟩ := SoftQueue.retire_eq hheader
  have hloop : State.loop 1 0 ((0 + 1) % 2 ^ 64) = .store 1 := rfl
  have hne : s.pushed ≠ [] := by
    intro hnil
    rw [hnil] at hpushed
    cases hpushed
  have hadded : 1 ≤ s.added.length := hseen ▸ h.seen.length_le
  refine ⟨{ s with queue := { s.queue with buffer := buffer }, consumer := .store 1 }, ?_, ⟨{ h with
    block := (Block.size_of_store hstore).trans h.block
    calls := fun p hp => ⟨(h.calls p hp).word, (h.calls p hp).index, (h.calls p hp).fits, ?_⟩
    first := fun _ _ _ hnil => absurd hnil hne
    consuming := ⟨rfl, hseen, hpushed⟩ }, rfl, fun _ => .inr ?_⟩⟩
  · unfold State.addNewTasks
    rw [hc]
    dsimp only
    rw [hretire, hloop]
    rfl
  · intro hi
    have hzero := (h.calls p hp).index 0 (.inr hi)
    omega
  · unfold State.ahead
    rw [hc]
    show 2 < 3
    decide

theorem Inv.storeIndex (h : Inv size s) {i : Nat} (hc : s.consumer = .store i) :
    Goes size s { s with
      queue := { s.queue with readDispatchId := i }
      consumer := .idle } := by
  have hconsuming := h.consuming
  unfold Consuming at hconsuming
  rw [hc] at hconsuming
  obtain ⟨rfl, hseen, hpushed⟩ := hconsuming
  have heq : s.pushed = s.seen := eq_of_prefix h.pushed h.seen (by omega)
  refine ⟨{ h with
    calls := fun p hp => (h.calls p hp).of_same rfl rfl
    consuming := ⟨hpushed.symm, hpushed.le, heq ▸ List.prefix_rfl⟩ }, rfl, fun hadded => .inl ?_⟩
  have hle := h.pushed.length_le
  exact ⟨rfl, h.pushed.eq_of_length (by omega)⟩

/-- An access of `AddNewTasks`. -/
theorem Inv.addNewTasks (h : Inv size s) (hpos : 0 < size)
    (hone : s.consumer = .idle → s.queue.writeDispatchId ≤ 1) :
    ∃ s', s.addNewTasks = some s' ∧ Goes size s s' := by
  cases hc : s.consumer with
  | idle => exact ⟨_, by rw [State.addNewTasks, hc], h.idle hc (hone hc)⟩
  | readIndex w => exact ⟨_, by rw [State.addNewTasks, hc], h.readIndex hc⟩
  | packet w r i => exact h.readPacket hc
  | task w r i => exact h.readTask hc
  | retire w r i => exact h.retire hpos hc
  | store i => exact ⟨_, by rw [State.addNewTasks, hc], h.storeIndex hc⟩

/-! ## Every run -/

/-- An access of a call that is made alone. -/
theorem Inv.addTask (h : Inv size s) (hpow : size.isPowerOfTwo) (hsize : size ≤ 2 ^ 25)
    (hk : s.producers[k]? = some p) (hok : Orderly size s (.producer k)) :
    ∃ s', s.addTask k p = some s' ∧ Inv size s' := by
  have hok : (s.producers[k]?).all _ = true := hok
  rw [hk, Option.all_some] at hok
  cases hp : p.place with
  | load =>
    rw [hp] at hok
    refine ⟨_, by rw [State.addTask, hp], h.load hk fun p' hp' => ?_⟩
    have hall := List.all_eq_true.1 hok p' hp'
    simpa using hall
  | packet i =>
    rw [hp] at hok
    exact h.packet hpow hsize hk hp (of_decide_eq_true hok)
  | index i => exact ⟨_, by rw [State.addTask, hp], h.index hsize hk hp⟩
  | done => exact ⟨_, by rw [State.addTask, hp], h⟩

theorem Inv.step (h : Inv size s) (hpow : size.isPowerOfTwo) (hsize : size ≤ 2 ^ 25) {a : Action}
    (he : enabled s a = true) (hok : Orderly size s a) : ∃ s', step s a = some s' ∧ Inv size s' := by
  cases a with
  | call tk => exact ⟨_, rfl, h.call (of_decide_eq_true he)⟩
  | producer k =>
    obtain ⟨p, hk⟩ : ∃ p, s.producers[k]? = some p :=
      ⟨_, List.getElem?_eq_getElem (of_decide_eq_true he)⟩
    obtain ⟨s', hs, h'⟩ := h.addTask hpow hsize hk hok
    refine ⟨s', ?_, h'⟩
    show (s.producers[k]?).bind (s.addTask k) = some s'
    rw [hk, Option.bind_some, hs]
  | consumer =>
    have hpos : 0 < size := by
      obtain ⟨n, rfl⟩ := hpow
      exact Nat.two_pow_pos n
    obtain ⟨s', hs, hgoes⟩ := h.addNewTasks hpos fun hidle => by
      have hok : (decide (s.consumer ≠ .idle) || decide (s.queue.writeDispatchId ≤ 1)) = true := hok
      rw [hidle] at hok
      simpa using hok
    exact ⟨s', hs, hgoes.inv⟩

/-- Only `AddNewTasks` goes on. -/
def ConsumerOnly (size : Nat) (s : State) (a : Action) : Prop := Orderly size s a ∧ a = .consumer

/-- When a task at most has been added, `AddNewTasks` comes to push it. -/
theorem Inv.drain (h : Inv size s) (hpos : 0 < size) (hone : s.added.length ≤ 1) :
    ∃ s', Run machine (ConsumerOnly size) s s' ∧ s'.consumer = .idle ∧ s'.pushed = s.added := by
  have hrun : ∃ s', Run machine (ConsumerOnly size) s s' ∧ (Inv size s' ∧ s'.added = s.added) ∧
      s'.Drained := by
    refine Run.exists_of_wf Nat.lt_wfRel.wf State.ahead ⟨h, rfl⟩ ?_
    rintro t ⟨ht, hadded⟩ -
    have hwrite : t.queue.writeDispatchId ≤ 1 := by
      rw [ht.write, hadded]
      exact hone
    obtain ⟨u, hu, hgoes⟩ := ht.addNewTasks hpos fun _ => hwrite
    have hok : Orderly size t .consumer := by
      show (decide (t.consumer ≠ .idle) || decide (t.queue.writeDispatchId ≤ 1)) = true
      rw [decide_eq_true hwrite, Bool.or_true]
    exact ⟨.consumer, u, rfl, ⟨hok, rfl⟩, hu, ⟨hgoes.inv, hgoes.added.trans hadded⟩,
      hgoes.ahead (hadded ▸ hone)⟩
  obtain ⟨s', hr, ⟨-, hadded⟩, hidle, hpushed⟩ := hrun
  exact ⟨s', hr, hidle, hpushed.trans hadded⟩

/-! ## The result -/

/-- No access is outside the buffer, every task is pushed once at most and in its turn, and an
`AddNewTasks` that is over has pushed what had been added when it began.  While a task at most has
been added, it comes to an end where all have been pushed. -/
structure Delivers (size : Nat) (s : State) : Prop where
  safe : ∀ a, enabled s a = true → Orderly size s a → (step s a).isSome = true
  once : s.pushed <+: s.added
  seen : s.consumer = .idle → s.seen <+: s.pushed
  drains : s.added.length ≤ 1 → ∃ s', Run machine (ConsumerOnly size) s s' ∧
    s'.consumer = .idle ∧ s'.pushed = s.added

/-- In every run that keeps to the order, with any number of calls of `AddTask(Task*)`. -/
theorem producers_deliver (hsize : Accepted size) {contents : Nat → UInt8}
    (hq : SoftQueue.create size contents = some q)
    (hr : Run machine (Orderly size) (initial q) s) : Delivers size s := by
  obtain ⟨hsmall, hinitial⟩ := inv_initial hsize hq
  have hpow := hsize.2.1
  have h : Inv size s := by
    refine hr.invariant (P := Inv size) hinitial ?_
    intro t a u ht he hok hs
    obtain ⟨u', hu', hinv⟩ := ht.step hpow hsmall he hok
    cases hs.symm.trans hu'
    exact hinv
  refine ⟨fun a he hok => ?_, h.pushed, fun hidle => ?_, h.drain (Nat.pos_of_ne_zero hsize.1)⟩
  · obtain ⟨s', hs, -⟩ := h.step hpow hsmall he hok
    rw [hs]
    rfl
  · have hconsuming := h.consuming
    unfold Consuming at hconsuming
    rw [hidle] at hconsuming
    exact hconsuming.2.2

/-- Two calls, one after the other, and `AddNewTasks` while the first one is going on and after
it. -/
theorem producers_deliver_two : ∃ q s, SoftQueue.create 2 (fun _ => 0) = some q ∧
    Run machine (Orderly 2) (initial q) s ∧ s.pushed = [4096] ∧ s.added = [4096, 8192] ∧
    Delivers 2 s := by
  have hexec : ((SoftQueue.create 2 fun _ => 0).bind fun q => machine.exec (Orderly 2) (initial q)
      (List.flatten [[.call 4096, .call 8192, .producer 0, .consumer, .producer 0, .consumer,
        .producer 0], List.replicate 6 .consumer, List.replicate 3 (.producer 1)])).any
      (fun s => decide (s.pushed = [4096] ∧ s.added = [4096, 8192])) := by
    decide +kernel
  cases hq : SoftQueue.create 2 fun _ => 0 with
  | none =>
    rw [hq] at hexec
    cases hexec
  | some q =>
    rw [hq, Option.bind_some] at hexec
    obtain ⟨s, hr, hdec⟩ := Run.exists_of_exec hexec
    obtain ⟨hpushed, hadded⟩ := of_decide_eq_true hdec
    have hsize : Accepted 2 := ⟨by decide, ⟨1, rfl⟩, by decide⟩
    exact ⟨q, s, rfl, hr, hpushed, hadded, producers_deliver hsize hq hr⟩

/-- Two calls load the same index.  Both have returned, `AddNewTasks` is at the write index, and the
first task is nowhere. -/
theorem packet_overwritten : ∃ q s, SoftQueue.create 2 (fun _ => 0) = some q ∧
    Run machine anyAction (initial q) s ∧ (∀ p ∈ s.producers, p.place = .done) ∧
    s.consumer = .idle ∧ s.queue.readDispatchId = s.queue.writeDispatchId ∧
    s.added = [4096, 8192] ∧ s.pushed = [8192] := by
  have hexec : ((SoftQueue.create 2 fun _ => 0).bind fun q => machine.exec anyAction (initial q)
      (List.flatten [[.call 4096, .call 8192, .producer 0, .producer 1, .producer 0, .producer 1,
        .producer 0, .producer 1], List.replicate 6 .consumer])).any
      (fun s => decide ((∀ p ∈ s.producers, p.place = .done) ∧ s.consumer = .idle ∧
        s.queue.readDispatchId = s.queue.writeDispatchId ∧ s.added = [4096, 8192] ∧
        s.pushed = [8192])) := by
    decide +kernel
  cases hq : SoftQueue.create 2 fun _ => 0 with
  | none =>
    rw [hq] at hexec
    cases hexec
  | some q =>
    rw [hq, Option.bind_some] at hexec
    obtain ⟨s, hr, hdec⟩ := Run.exists_of_exec hexec
    obtain ⟨hdone, hidle, hread, hadded, hpushed⟩ := of_decide_eq_true hdec
    exact ⟨q, s, rfl, hr, hdone, hidle, hread, hadded, hpushed⟩

end Costream.Processor.Producers
