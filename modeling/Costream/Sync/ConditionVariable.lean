import Costream.Sync.Arbitration
import Costream.Sync.WaitQueue

/-!
# A condition variable

`machine` is a `ConditionVariableAnyT` with any number of waiters and notifiers: a
`WaitQueue` of entries, each of which goes its own way as in `Entry.machine`.

The lock of the queue is held through the whole of `push` and `pop`, while the waiters
and the timers go on.  So the lock has a place of its own, `Section`: `push` cleans up
by reading the flags of an entry, then its `nativeThreadEntry`, then its `coroEntry`;
`pop` calls `posFunctor_`, which is a `notify`, on one entry after the other.

An entry that was let in without waiting has no waiter; it is `none` here.  It is
always valid, and `notify` on it returns true at once.

`Sound` says that each entry runs as one of `Entry.machine`: it is popped once, `pos_`
passes it once, and a `notify` under the lock of the queue is not disturbed by one after a
pop.
-/

namespace Costream.Sync.CondVar

open Trace

/-! ## The state -/

/-- What the holder of the lock of the queue does next.  `ptr` is the node that `pop` has
taken out. -/
inductive Section where
  | free
  | clean (rounds : Nat)
  | native (i rounds : Nat)
  | expire (i rounds : Nat)
  | take (ptr : Nat)
  | notify (ptr pos : Nat)
  | leave (ptr : Nat)
  deriving DecidableEq

structure State where
  queue : WaitQueue
  lock : Section
  entry : Nat → Option Entry.State
  pushed : Nat
  popped : Nat → Bool

def initial (posDistance : Nat) : State where
  queue := .create posDistance
  lock := .free
  entry _ := none
  pushed := 0
  popped _ := false

def State.set (s : State) (i : Nat) (e : Entry.State) : State :=
  { s with entry := Function.update s.entry i (some e) }

/-! ## The steps -/

inductive Action where
  | push (kind : Entry.Kind) (deadline needWait : Bool)
  | check
  | pop
  | pass
  | entry (i : Nat) (a : Entry.Action)
  deriving DecidableEq

/-- `WaitQueue::push` up to its clean-up. -/
def push (s : State) (kind : Entry.Kind) (deadline needWait : Bool) : State :=
  let queue := s.queue.link s.pushed
  { s with
    queue := if queue.count < queue.threshold then queue else queue.startCheck
    lock := if queue.count < queue.threshold then .free else .clean 2
    entry := Function.update s.entry s.pushed
      (if needWait then some (Entry.initial kind deadline) else none)
    pushed := s.pushed + 1 }

/-- The entry `i` is evicted. -/
def evict (s : State) (i rounds : Nat) : State :=
  { s with
    queue := s.queue.unlink i
    lock := .clean rounds
    entry := Function.update s.entry i ((s.entry i).map (Entry.step · .evict)) }

/-- The entry `i` is valid. -/
def keep (s : State) (i rounds : Nat) : State :=
  { s with queue := s.queue.advance i, lock := .clean rounds }

/-- `isValid` has nothing more to ask: the entry does not wait, or has not begun to
suspend. -/
def validAtOnce (s : State) (i : Nat) : Bool :=
  match s.entry i with
  | some e => !e.isWaiting || !e.flags.suspendBegin
  | none => true

def nativeThreadEntry (s : State) (i : Nat) : Bool :=
  (s.entry i).any (·.nativeThreadEntry)

/-- `coroEntry.IsExpire()`. -/
def isExpire (s : State) (i : Nat) : Bool :=
  !(s.entry i).any fun e => e.coroEntry && e.suspension = .pending

/-- A step of the clean-up.  Nobody locks `notified`, so `isValid` is false for every
native thread. -/
def check (s : State) : State :=
  match s.lock with
  | .clean 0 => { s with lock := .free }
  | .clean (rounds + 1) =>
    match s.queue.checkNext with
    | none => { s with lock := .free }
    | some i => if validAtOnce s i then keep s i rounds else { s with lock := .native i rounds }
  | .native i rounds =>
    if nativeThreadEntry s i then evict s i rounds else { s with lock := .expire i rounds }
  | .expire i rounds => if isExpire s i then evict s i rounds else keep s i rounds
  | _ => s

/-- `WaitQueue::pop` up to its loop. -/
def pop (s : State) : State :=
  match s.queue.nodes with
  | ptr :: _ => { s with queue := s.queue.popHead ptr, lock := .take ptr }
  | [] => s

/-- `posFunctor_` has returned. -/
def passed (s : State) (ptr pos : Nat) (e : Entry.State) : State :=
  { s.set pos (Entry.step e .leave) with
    queue := s.queue.passed
    lock := if e.notifier = some (.posFunctor, .done true) then .leave ptr else .take ptr }

/-- `pop` returns, and `notify_one` goes on with the entry. -/
def leave (s : State) (ptr : Nat) : State :=
  { s with
    queue := s.queue.uncount
    lock := .free
    entry := Function.update s.entry ptr ((s.entry ptr).map (Entry.step · .pop))
    popped := Function.update s.popped ptr true }

/-- A step of the loop in `pop`. -/
def pass (s : State) : State :=
  match s.lock with
  | .take ptr =>
    match s.queue.pos with
    | none => { s with lock := .leave ptr }
    | some pos =>
      match s.entry pos with
      | none => { s with queue := s.queue.passed, lock := .leave ptr }
      | some e => { s.set pos (Entry.step e .pass) with lock := .notify ptr pos }
  | .notify ptr pos =>
    match s.entry pos with
    | some e => passed s ptr pos e
    | none => s
  | .leave ptr => leave s ptr
  | _ => s

/-- A `push` is in its clean-up. -/
def Section.cleaning : Section → Bool
  | .clean _ | .native .. | .expire .. => true
  | _ => false

/-- The steps that an entry takes without the queue.  A waiter has to come back from
`push` first. -/
def Free (s : State) (i : Nat) (e : Entry.State) : Entry.Action → Bool
  | .waiter | .waiterAgain => !(s.lock.cleaning && i + 1 = s.pushed)
  | .fire | .notifier | .notifierAgain => true
  | .leave => e.notifier = some (.popper, .done true) || e.notifier = some (.popper, .done false)
  | .pass | .pop | .evict => false

def Enabled (s : State) : Action → Bool
  | .push .. => s.lock = .free
  | .check => s.lock.cleaning
  | .pop => s.lock = .free && !s.queue.nodes.isEmpty
  | .pass =>
    match s.lock with
    | .take _ | .leave _ => true
    | .notify _ pos => (s.entry pos).any fun e =>
        e.notifier = some (.posFunctor, .done true) || e.notifier = some (.posFunctor, .done false)
    | _ => false
  | .entry i a => (s.entry i).any fun e => Free s i e a && Entry.Enabled e a

def step (s : State) : Action → State
  | .push kind deadline needWait => push s kind deadline needWait
  | .check => check s
  | .pop => pop s
  | .pass => pass s
  | .entry i a =>
    match s.entry i with
    | some e => s.set i (Entry.step e a)
    | none => s

def machine : Machine State Action where
  enabled s a := Enabled s a = true
  step s a := some (step s a)

instance (s : State) (a : Action) : Decidable (machine.enabled s a) :=
  inferInstanceAs (Decidable (Enabled s a = true))

/-! ## Each entry is one of `Entry.machine` -/

/-- The nodes in the queue, with the one that `pop` is about to return. -/
def State.linked (s : State) : List Nat :=
  match s.lock with
  | .take ptr | .notify ptr _ | .leave ptr => ptr :: s.queue.nodes
  | _ => s.queue.nodes

/-- `pos_` has not passed the entry. -/
def Fresh (s : State) (i : Nat) : Prop := ∀ e, s.entry i = some e → e.passed = false

structure Sound (s : State) : Prop where
  unborn : ∀ i, s.pushed ≤ i → s.entry i = none
  nodup : s.linked.Nodup
  linked : ∀ i ∈ s.linked, i < s.pushed
  queued : ∀ i ∈ s.linked, ∀ e, s.entry i = some e → e.queued = true
  popper : ∀ i ∈ s.linked, ∀ e, s.entry i = some e → ∀ pc, e.notifier ≠ some (.popper, pc)
  functor : ∀ i e pc, s.entry i = some e → e.notifier = some (.posFunctor, pc) →
    ∃ ptr, s.lock = .notify ptr i
  pos : ∀ p, s.queue.pos = some p → ∃ front back, s.linked = front ++ p :: back ∧
    (∀ i ∈ back, Fresh s i) ∧ ((∃ ptr, s.lock = .notify ptr p) ∨ Fresh s p)
  notify : ∀ ptr p, s.lock = .notify ptr p → s.queue.pos = some p
  leave : ∀ ptr p, s.lock = .leave ptr → s.queue.pos = some p → p ∈ s.queue.nodes
  check : ∀ i rounds, s.lock = .native i rounds ∨ s.lock = .expire i rounds →
    s.queue.checkNext = some i

variable {s : State}

theorem Sound.initial (posDistance : Nat) : Sound (initial posDistance) := by
  constructor <;> simp [CondVar.initial, State.linked]

/-- What an entry does on its own leaves its place in the queue alone. -/
theorem free_frame {i : Nat} {e : Entry.State} {a : Entry.Action} (h : Free s i e a = true)
    (hn : Entry.Enabled e a = true) :
    (Entry.step e a).queued = e.queued ∧ (Entry.step e a).passed = e.passed ∧
      ∀ caller pc, (Entry.step e a).notifier = some (caller, pc) →
        ∃ pc', e.notifier = some (caller, pc') := by
  cases a with
  | waiter =>
    simp only [Entry.step]
    unfold Entry.waiterStep
    split <;> (try split) <;> exact ⟨rfl, rfl, fun _ pc hpc => ⟨pc, hpc⟩⟩
  | waiterAgain => exact ⟨rfl, rfl, fun _ pc hpc => ⟨pc, hpc⟩⟩
  | fire => exact ⟨rfl, rfl, fun _ pc hpc => ⟨pc, hpc⟩⟩
  | notifier =>
    cases he : e.notifier with
    | none => simp [Entry.Enabled, he] at hn
    | some n =>
      obtain ⟨caller, pc⟩ := n
      simp only [Entry.step, he]
      have hcaller : ∃ pc', (Entry.notifierStep e caller pc).notifier = some (caller, pc') := by
        unfold Entry.notifierStep
        split <;> (try split) <;> first | exact ⟨_, rfl⟩ | exact ⟨_, he⟩
      have hframe : (Entry.notifierStep e caller pc).queued = e.queued ∧
          (Entry.notifierStep e caller pc).passed = e.passed := by
        unfold Entry.notifierStep
        split <;> (try split) <;> exact ⟨rfl, rfl⟩
      obtain ⟨pc', hpc'⟩ := hcaller
      refine ⟨hframe.1, hframe.2, fun c q hq => ⟨pc, ?_⟩⟩
      rw [hpc'] at hq
      cases hq
      rfl
  | notifierAgain =>
    cases he : e.notifier with
    | none => simp [Entry.Enabled, he] at hn
    | some n =>
      obtain ⟨caller, pc⟩ := n
      simp only [Entry.step, he]
      refine ⟨trivial, trivial, fun c q hq => ⟨pc, ?_⟩⟩
      cases hq
      rfl
  | leave =>
    simp only [Free, Bool.or_eq_true, decide_eq_true_eq] at h
    rcases h with h | h <;> simp [Entry.step, h]
  | pass => cases h
  | pop => cases h
  | evict => cases h

/-- An entry has changed, but not its place in the queue. -/
theorem Sound.set (h : Sound s) {i : Nat} {e e' : Entry.State} (he : s.entry i = some e)
    (hqueued : e'.queued = e.queued) (hpassed : e'.passed = e.passed)
    (hcaller : ∀ caller pc, e'.notifier = some (caller, pc) →
      ∃ pc', e.notifier = some (caller, pc')) : Sound (s.set i e') := by
  have hfresh : ∀ j, Fresh s j → Fresh (s.set i e') j := by
    intro j hj f hf
    by_cases hji : j = i
    · subst hji
      simp only [State.set, Function.update_self, Option.some.injEq] at hf
      rw [← hf, hpassed]
      exact hj e he
    · exact hj f (by simpa [State.set, hji] using hf)
  refine ⟨fun j hj => ?_, h.nodup, h.linked, fun j hj f hf => ?_, fun j hj f hf pc hpc => ?_,
    fun j f pc hf hpc => ?_, fun p hp => ?_, h.notify, h.leave, h.check⟩
  · have hji : j ≠ i := fun hji => by
      subst hji
      simp [h.unborn j hj] at he
    simpa [State.set, hji] using h.unborn j hj
  · by_cases hji : j = i
    · subst hji
      simp only [State.set, Function.update_self, Option.some.injEq] at hf
      rw [← hf, hqueued]
      exact h.queued j hj e he
    · exact h.queued j hj f (by simpa [State.set, hji] using hf)
  · by_cases hji : j = i
    · subst hji
      simp only [State.set, Function.update_self, Option.some.injEq] at hf
      subst hf
      obtain ⟨pc', hpc'⟩ := hcaller .popper pc hpc
      exact h.popper j hj e he pc' hpc'
    · exact h.popper j hj f (by simpa [State.set, hji] using hf) pc hpc
  · by_cases hji : j = i
    · subst hji
      simp only [State.set, Function.update_self, Option.some.injEq] at hf
      subst hf
      obtain ⟨pc', hpc'⟩ := hcaller .posFunctor pc hpc
      exact h.functor j e pc' he hpc'
    · exact h.functor j f pc (by simpa [State.set, hji] using hf) hpc
  · obtain ⟨front, back, hl, hback, hp'⟩ := h.pos p hp
    exact ⟨front, back, hl, fun j hj => hfresh j (hback j hj), hp'.imp id (hfresh p)⟩

/-- Nobody notifies an entry in the queue, unless `pos_` is at it. -/
theorem Sound.idle (h : Sound s) {i : Nat} (hi : i ∈ s.linked) {e : Entry.State}
    (he : s.entry i = some e) (hlock : ∀ ptr, s.lock ≠ .notify ptr i) : e.notifier = none := by
  cases hn : e.notifier with
  | none => rfl
  | some n =>
    obtain ⟨caller, pc⟩ := n
    cases caller with
    | popper => exact absurd hn (h.popper i hi e he pc)
    | posFunctor =>
      obtain ⟨ptr, hptr⟩ := h.functor i e pc he hn
      exact absurd hptr (hlock ptr)

/-! ### `push` -/

/-- `push` has the lock, or nobody has. -/
def Section.pushing (lock : Section) : Bool := lock = .free || lock.cleaning

theorem linked_of_pushing (h : s.lock.pushing = true) : s.linked = s.queue.nodes := by
  unfold State.linked
  split <;> simp_all [Section.pushing, Section.cleaning]

theorem not_notify_of_pushing (h : s.lock.pushing = true) (ptr p : Nat) :
    s.lock ≠ .notify ptr p := by
  intro hl
  simp [hl, Section.pushing, Section.cleaning] at h

theorem Sound.of_push (h : Sound s) (hlock : s.lock = .free) (kind : Entry.Kind)
    (deadline needWait : Bool) : Sound (push s kind deadline needWait) := by
  have hfree : s.lock.pushing = true := by simp [hlock, Section.pushing]
  have hlinked : s.linked = s.queue.nodes := linked_of_pushing hfree
  have hpushing : (push s kind deadline needWait).lock.pushing = true := by
    unfold push
    dsimp only
    split <;> rfl
  have hnodes : (push s kind deadline needWait).queue.nodes = s.queue.nodes ++ [s.pushed] := by
    unfold push
    dsimp only
    split <;> simp
  have hlinked' : (push s kind deadline needWait).linked = s.linked ++ [s.pushed] := by
    rw [linked_of_pushing hpushing, hnodes, hlinked]
  have hentry : ∀ i, i ≠ s.pushed → (push s kind deadline needWait).entry i = s.entry i := by
    intro i hi
    simp [push, hi]
  have hnew : ∀ e, (push s kind deadline needWait).entry s.pushed = some e →
      e = Entry.initial kind deadline := by
    intro e he
    cases needWait <;> simp_all [push]
  have hlt : ∀ i ∈ s.linked, i ≠ s.pushed := fun i hi => (h.linked i hi).ne
  have hfresh : ∀ i, Fresh s i → Fresh (push s kind deadline needWait) i := by
    intro i hi e he
    by_cases his : i = s.pushed
    · subst his
      rw [hnew e he]
      rfl
    · exact hi e (by rwa [hentry i his] at he)
  have hfreshNew : Fresh (push s kind deadline needWait) s.pushed := fun e he => by
    rw [hnew e he]
    rfl
  refine ⟨fun i hi => ?_, ?_, fun i hi => ?_, fun i hi e he => ?_, fun i hi e he pc hpc => ?_,
    fun i e pc he hpc => ?_, fun p hp => ?_, fun ptr p hl => ?_, fun ptr p hl => ?_,
    fun i rounds hl => ?_⟩
  · have hi : s.pushed + 1 ≤ i := hi
    rw [hentry i (by omega)]
    exact h.unborn i (by omega)
  · rw [hlinked']
    refine List.nodup_append.2 ⟨h.nodup, by simp, fun i hi j hj => ?_⟩
    rw [List.mem_singleton] at hj
    exact hj ▸ hlt i hi
  · rw [hlinked', List.mem_append, List.mem_singleton] at hi
    show i < s.pushed + 1
    rcases hi with hi | hi
    · have := h.linked i hi
      omega
    · omega
  · rw [hlinked', List.mem_append, List.mem_singleton] at hi
    rcases hi with hi | hi
    · rw [hentry i (hlt i hi)] at he
      exact h.queued i hi e he
    · subst hi
      rw [hnew e he]
      rfl
  · rw [hlinked', List.mem_append, List.mem_singleton] at hi
    rcases hi with hi | hi
    · rw [hentry i (hlt i hi)] at he
      exact h.popper i hi e he pc hpc
    · subst hi
      rw [hnew e he] at hpc
      cases hpc
  · by_cases his : i = s.pushed
    · subst his
      rw [hnew e he] at hpc
      cases hpc
    · rw [hentry i his] at he
      obtain ⟨ptr, hptr⟩ := h.functor i e pc he hpc
      exact absurd hptr (not_notify_of_pushing hfree ptr i)
  · rw [hlinked']
    have hpos : (push s kind deadline needWait).queue.pos = (s.queue.link s.pushed).pos := by
      unfold push
      dsimp only
      split <;> simp
    rw [hpos] at hp
    unfold WaitQueue.link at hp
    dsimp only at hp
    split at hp
    · cases hp
      exact ⟨s.linked, [], rfl, by simp, .inr hfreshNew⟩
    · obtain ⟨front, back, hl, hback, hp'⟩ := h.pos p hp
      refine ⟨front, back ++ [s.pushed], by simp [hl], fun i hi => ?_, ?_⟩
      · rw [List.mem_append, List.mem_singleton] at hi
        rcases hi with hi | rfl
        · exact hfresh i (hback i hi)
        · exact hfreshNew
      · rcases hp' with ⟨ptr, hptr⟩ | hp'
        · exact absurd hptr (not_notify_of_pushing hfree ptr p)
        · exact .inr (hfresh p hp')
  · exact absurd hl (not_notify_of_pushing hpushing ptr p)
  · rw [hl] at hpushing
    cases hpushing
  · unfold push at hl
    dsimp only at hl
    split at hl <;> simp at hl

/-- A step of the clean-up after which the queue is the same. -/
theorem Sound.turn (h : Sound s) (hlock : s.lock.pushing = true) {queue : WaitQueue}
    {lock : Section} (hnodes : queue.nodes = s.queue.nodes) (hpos : queue.pos = s.queue.pos)
    (hlock' : lock.pushing = true) (hcheck : ∀ i rounds,
      lock = .native i rounds ∨ lock = .expire i rounds → queue.checkNext = some i) :
    Sound { s with queue := queue, lock := lock } := by
  have hlinked : State.linked { s with queue := queue, lock := lock } = s.linked := by
    rw [linked_of_pushing hlock, ← hnodes]
    exact linked_of_pushing hlock'
  refine ⟨h.unborn, ?_, fun i hi => ?_, fun i hi => ?_, fun i hi => ?_, fun i e pc he hpc => ?_,
    fun p hp => ?_, fun ptr p hl => ?_, fun ptr p hl => ?_, hcheck⟩
  · exact hlinked ▸ h.nodup
  · exact h.linked i (hlinked ▸ hi)
  · exact h.queued i (hlinked ▸ hi)
  · exact h.popper i (hlinked ▸ hi)
  · obtain ⟨ptr, hptr⟩ := h.functor i e pc he hpc
    exact absurd hptr (not_notify_of_pushing hlock ptr i)
  · obtain ⟨front, back, hl, hback, hp'⟩ := h.pos p (hpos ▸ hp)
    refine ⟨front, back, hlinked ▸ hl, hback, .inr ?_⟩
    rcases hp' with ⟨ptr, hptr⟩ | hp'
    · exact absurd hptr (not_notify_of_pushing hlock ptr p)
    · exact hp'
  · cases hl
    cases hlock'
  · cases hl
    cases hlock'

/-- `pos_` after the node `i` has been taken out of the list. -/
theorem exists_split_erase {l front back : List Nat} {p i : Nat} (hd : l.Nodup)
    (hl : l = front ++ p :: back) (hi : i ≠ p) :
    ∃ front' back', l.erase i = front' ++ p :: back' ∧ ∀ j ∈ back', j ∈ back := by
  subst hl
  by_cases hf : i ∈ front
  · refine ⟨front.erase i, back, ?_, fun _ => id⟩
    rw [List.erase_append_left _ hf]
  · refine ⟨front, back.erase i, ?_, fun j hj => List.mem_of_mem_erase hj⟩
    rw [List.erase_append_right _ hf, List.erase_cons_tail (by simpa using hi.symm)]

theorem Sound.evict (h : Sound s) (hlock : s.lock.pushing = true) {i rounds : Nat} :
    Sound (evict s i rounds) := by
  have hlinked := linked_of_pushing hlock
  have hlinked' : (CondVar.evict s i rounds).linked = s.queue.nodes.erase i := rfl
  have hd : s.queue.nodes.Nodup := hlinked ▸ h.nodup
  have hsub : ∀ j ∈ s.queue.nodes.erase i, j ≠ i ∧ j ∈ s.queue.nodes := fun j hj =>
    hd.mem_erase_iff.1 hj
  have hentry : ∀ j, j ≠ i → (CondVar.evict s i rounds).entry j = s.entry j := by
    intro j hj
    simp [CondVar.evict, hj]
  have hself : ∀ e', (CondVar.evict s i rounds).entry i = some e' →
      ∃ e, s.entry i = some e ∧ e' = Entry.step e .evict := by
    intro e' he'
    simp only [CondVar.evict, Function.update_self, Option.map_eq_some_iff] at he'
    obtain ⟨e, he, rfl⟩ := he'
    exact ⟨e, he, rfl⟩
  have hfresh : ∀ j ∈ s.queue.nodes, Fresh s j → Fresh (CondVar.evict s i rounds) j := by
    intro j _ hj e he
    by_cases hji : j = i
    · subst hji
      obtain ⟨e', he', rfl⟩ := hself e he
      exact hj e' he'
    · exact hj e (by rwa [hentry j hji] at he)
  refine ⟨fun j hj => ?_, ?_, fun j hj => ?_, fun j hj e he => ?_, fun j hj e he => ?_,
    fun j e pc he hpc => ?_, fun p hp => ?_, (fun ptr p hl => by cases hl),
    (fun ptr p hl => by cases hl), fun j r hl => by rcases hl with hl | hl <;> cases hl⟩
  · have hj : s.pushed ≤ j := hj
    by_cases hji : j = i
    · subst hji
      simp [CondVar.evict, h.unborn j hj]
    · rw [hentry j hji]
      exact h.unborn j hj
  · exact hlinked' ▸ hd.erase i
  · exact h.linked j (hlinked ▸ (hsub j (hlinked' ▸ hj)).2)
  · obtain ⟨hji, hj⟩ := hsub j (hlinked' ▸ hj)
    exact h.queued j (hlinked ▸ hj) e (by rwa [hentry j hji] at he)
  · obtain ⟨hji, hj⟩ := hsub j (hlinked' ▸ hj)
    exact h.popper j (hlinked ▸ hj) e (by rwa [hentry j hji] at he)
  · by_cases hji : j = i
    · subst hji
      obtain ⟨e', he', rfl⟩ := hself e he
      obtain ⟨ptr, hptr⟩ := h.functor j e' pc he' hpc
      exact absurd hptr (not_notify_of_pushing hlock ptr j)
    · obtain ⟨ptr, hptr⟩ := h.functor j e pc (by rwa [hentry j hji] at he) hpc
      exact absurd hptr (not_notify_of_pushing hlock ptr j)
  · rw [hlinked']
    have hp : (if s.queue.pos = some i then WaitQueue.next s.queue.nodes i else s.queue.pos) =
        some p := hp
    split at hp
    · rename_i hpi
      obtain ⟨front, back, hl, hback, -⟩ := h.pos i hpi
      rw [hlinked] at hl
      have hif : i ∉ front := fun hif => by
        rw [hl] at hd
        exact (List.nodup_append.1 hd).2.2 i hif i (by simp) rfl
      rw [hl, WaitQueue.next_append hif] at hp
      obtain ⟨back', rfl⟩ : ∃ back', back = p :: back' := by
        cases back with
        | nil => cases hp
        | cons x back' => exact ⟨back', by simpa using hp⟩
      have hmem : ∀ j ∈ p :: back', j ∈ s.queue.nodes := fun j hj => by
        rw [hl]
        simp only [List.mem_append, List.mem_cons] at hj ⊢
        exact .inr (.inr hj)
      refine ⟨front, back', ?_, fun j hj => ?_, .inr ?_⟩
      · rw [hl, List.erase_append_right _ hif, List.erase_cons_head]
      · exact hfresh j (hmem j (by simp [hj])) (hback j (by simp [hj]))
      · exact hfresh p (hmem p (by simp)) (hback p (by simp))
    · rename_i hpi
      obtain ⟨front, back, hl, hback, hp'⟩ := h.pos p hp
      rw [hlinked] at hl
      have hip : i ≠ p := fun hip => hpi (hip ▸ hp)
      obtain ⟨front', back', hl', hback'⟩ := exists_split_erase hd hl hip
      refine ⟨front', back', hl', fun j hj => ?_, .inr ?_⟩
      · refine hfresh j ?_ (hback j (hback' j hj))
        rw [hl]
        simp [hback' j hj]
      · refine hfresh p (by simp [hl]) ?_
        rcases hp' with ⟨ptr, hptr⟩ | hp'
        · exact absurd hptr (not_notify_of_pushing hlock ptr p)
        · exact hp'

theorem Sound.of_check (h : Sound s) (hlock : s.lock.cleaning = true) :
    Sound (CondVar.check s) := by
  have hpushing : s.lock.pushing = true := by simp [Section.pushing, hlock]
  unfold CondVar.check
  split
  · exact h.turn hpushing rfl rfl rfl (by simp)
  · split
    · exact h.turn hpushing rfl rfl rfl (by simp)
    · rename_i rounds _ i hi
      split
      · exact h.turn hpushing rfl rfl rfl (by simp)
      · refine h.turn hpushing rfl rfl rfl fun j r hl => ?_
        rcases hl with hl | hl <;> cases hl
        exact hi
  · rename_i i rounds hl
    split
    · exact h.evict hpushing
    · refine h.turn hpushing rfl rfl rfl fun j r hl' => ?_
      rcases hl' with hl' | hl' <;> cases hl'
      exact h.check i rounds (.inl hl)
  · rename_i i rounds hl
    split
    · exact h.evict hpushing
    · exact h.turn hpushing rfl rfl rfl (by simp)
  · exact h

/-! ### `pop` -/

theorem Sound.of_pop (h : Sound s) (hlock : s.lock = .free) : Sound (pop s) := by
  have hlinked : s.linked = s.queue.nodes := linked_of_pushing (by simp [hlock, Section.pushing])
  unfold pop
  split
  · rename_i ptr rest hnodes
    have hlinked' : State.linked { s with queue := s.queue.popHead ptr, lock := .take ptr } =
        s.linked := by
      simp [State.linked, hlock, hnodes]
    refine ⟨h.unborn, hlinked' ▸ h.nodup, fun i hi => h.linked i (hlinked' ▸ hi),
      fun i hi => h.queued i (hlinked' ▸ hi), fun i hi => h.popper i (hlinked' ▸ hi),
      fun i e pc he hpc => ?_, fun p hp => ?_,
      (fun ptr p hl => by cases hl), (fun ptr p hl => by cases hl),
      fun j r hl => by rcases hl with hl | hl <;> cases hl⟩
    · obtain ⟨ptr, hptr⟩ := h.functor i e pc he hpc
      rw [hlock] at hptr
      cases hptr
    · obtain ⟨front, back, hl, hback, hp'⟩ := h.pos p hp
      refine ⟨front, back, hlinked'.trans hl, hback, .inr ?_⟩
      rcases hp' with ⟨ptr, hptr⟩ | hp'
      · rw [hlock] at hptr
        cases hptr
      · exact hp'
  · exact h

/-- `pos_` has moved on from `p`. -/
theorem next_pos {nodes front back : List Nat} {ptr p : Nat} (hd : (ptr :: nodes).Nodup)
    (hl : ptr :: nodes = front ++ p :: back) {q : Nat} (hq : WaitQueue.next nodes p = some q) :
    ∃ front' back', ptr :: nodes = front' ++ q :: back' ∧ q ∈ nodes ∧
      ∀ j ∈ q :: back', j ∈ back := by
  cases front with
  | nil =>
    simp only [List.nil_append, List.cons.injEq] at hl
    rw [WaitQueue.next_eq_none (hl.1 ▸ (List.nodup_cons.1 hd).1)] at hq
    cases hq
  | cons x front =>
    simp only [List.cons_append, List.cons.injEq] at hl
    obtain ⟨rfl, rfl⟩ := hl
    have hif : p ∉ front := fun hif => by
      have hnd := (List.nodup_cons.1 hd).2
      exact (List.nodup_append.1 hnd).2.2 p hif p (by simp) rfl
    rw [WaitQueue.next_append hif] at hq
    cases back with
    | nil => cases hq
    | cons y back =>
      cases hq
      exact ⟨ptr :: front ++ [p], back, by simp, by simp, fun j hj => hj⟩

/-- The loop of `pop` has one more look at `pos_`, or is over. -/
theorem Sound.move (h : Sound s) {ptr p : Nat} {e : Option Entry.State} {lock : Section}
    (hlinked : s.linked = ptr :: s.queue.nodes) (hp : s.queue.pos = some p)
    (hlock : lock = .take ptr ∨ lock = .leave ptr)
    (hnew : ∀ e', e = some e' → p < s.pushed ∧ e'.queued = true ∧ e'.notifier = none)
    (hfunctor : ∀ i e pc, i ≠ p → s.entry i = some e → e.notifier ≠ some (.posFunctor, pc)) :
    Sound { s with
      queue := s.queue.passed, lock := lock, entry := Function.update s.entry p e } := by
  have hl' : State.linked { s with
      queue := s.queue.passed, lock := lock, entry := Function.update s.entry p e } = s.linked := by
    rcases hlock with rfl | rfl <;> exact hlinked.symm
  obtain ⟨front, back, hsplit, hback, -⟩ := h.pos p hp
  have hd := h.nodup
  rw [hlinked] at hd hsplit
  have hpback : p ∉ back := fun hpb => by
    rw [hsplit] at hd
    have hnd := (List.nodup_append.1 hd).2.1
    exact (List.nodup_cons.1 hnd).1 hpb
  have hpos : ∀ q, s.queue.passed.pos = some q → ∃ front' back',
      ptr :: s.queue.nodes = front' ++ q :: back' ∧ q ∈ s.queue.nodes ∧
        ∀ j ∈ q :: back', j ∈ back := by
    intro q hq
    simp only [WaitQueue.passed, hp, Option.bind_some] at hq
    exact next_pos hd hsplit hq
  have hfresh : ∀ j ∈ back, Fresh { s with
      queue := s.queue.passed, lock := lock, entry := Function.update s.entry p e } j := by
    intro j hj f hf
    have hjp : j ≠ p := fun hjp => hpback (hjp ▸ hj)
    exact hback j hj f (by simpa [hjp] using hf)
  refine ⟨fun j hj => ?_, hl' ▸ h.nodup, fun j hj => h.linked j (hl' ▸ hj),
    fun j hj f hf => ?_, fun j hj f hf pc hpc => ?_, fun j f pc hf hpc => ?_, fun q hq => ?_,
    fun r q hl => ?_, fun r q _ hq => ?_, fun j r hl => ?_⟩
  · have hj : s.pushed ≤ j := hj
    by_cases hjp : j = p
    · subst hjp
      cases e with
      | none => simp
      | some f =>
        have := (hnew f rfl).1
        omega
    · simpa [hjp] using h.unborn j hj
  · by_cases hjp : j = p
    · subst hjp
      exact (hnew f (by simpa using hf)).2.1
    · exact h.queued j (hl' ▸ hj) f (by simpa [hjp] using hf)
  · by_cases hjp : j = p
    · subst hjp
      rw [(hnew f (by simpa using hf)).2.2] at hpc
      cases hpc
    · exact h.popper j (hl' ▸ hj) f (by simpa [hjp] using hf) pc hpc
  · by_cases hjp : j = p
    · subst hjp
      rw [(hnew f (by simpa using hf)).2.2] at hpc
      cases hpc
    · exact absurd hpc (hfunctor j f pc hjp (by simpa [hjp] using hf))
  · obtain ⟨front', back', hsplit', -, hsub⟩ := hpos q hq
    refine ⟨front', back', ?_, fun j hj => hfresh j (hsub j (by simp [hj])),
      .inr (hfresh q (hsub q (by simp)))⟩
    rw [hl', hlinked, hsplit']
  · rcases hlock with rfl | rfl <;> cases hl
  · exact (hpos q hq).choose_spec.choose_spec.2.1
  · rcases hlock with rfl | rfl <;> rcases hl with hl | hl <;> cases hl

/-- `posFunctor_` is called on the entry at `pos_`. -/
theorem Sound.notify_pos (h : Sound s) {ptr p : Nat} {e : Entry.State} (hlock : s.lock = .take ptr)
    (hp : s.queue.pos = some p) (he : s.entry p = some e) :
    Sound { s.set p (Entry.step e .pass) with lock := .notify ptr p } := by
  have hlinked : s.linked = ptr :: s.queue.nodes := by simp [State.linked, hlock]
  have hl' : State.linked { s.set p (Entry.step e .pass) with lock := .notify ptr p } =
      s.linked := hlinked.symm
  obtain ⟨front, back, hsplit, hback, -⟩ := h.pos p hp
  have hpl : p ∈ s.linked := by simp [hsplit]
  have hnone : ∀ i f pc, s.entry i = some f → f.notifier ≠ some (.posFunctor, pc) := by
    intro i f pc hf hpc
    obtain ⟨r, hr⟩ := h.functor i f pc hf hpc
    rw [hlock] at hr
    cases hr
  have hpback : p ∉ back := fun hpb => by
    have hd := h.nodup
    rw [hsplit] at hd
    have hnd := (List.nodup_append.1 hd).2.1
    exact (List.nodup_cons.1 hnd).1 hpb
  have hentry : ∀ j, j ≠ p → (s.set p (Entry.step e .pass)).entry j = s.entry j := by
    intro j hj
    simp [State.set, hj]
  have hself : (s.set p (Entry.step e .pass)).entry p = some (Entry.step e .pass) := by
    simp [State.set]
  refine ⟨fun j hj => ?_, hl' ▸ h.nodup, fun j hj => h.linked j (hl' ▸ hj),
    fun j hj f hf => ?_, fun j hj f hf pc hpc => ?_, fun j f pc hf hpc => ?_, fun q hq => ?_,
    fun r q hl => ?_, (fun r q hl => by cases hl),
    fun j r hl => by rcases hl with hl | hl <;> cases hl⟩
  · have hjp : j ≠ p := fun hjp => by
      have hj : s.pushed ≤ j := hj
      rw [hjp, Nat.le_iff_lt_or_eq] at hj
      have := h.linked p hpl
      omega
    exact (hentry j hjp).trans (h.unborn j hj)
  · by_cases hjp : j = p
    · subst hjp
      rw [hself] at hf
      cases hf
      exact h.queued j hpl e he
    · exact h.queued j (hl' ▸ hj) f (by rwa [hentry j hjp] at hf)
  · by_cases hjp : j = p
    · subst hjp
      rw [hself] at hf
      cases hf
      cases hpc
    · exact h.popper j (hl' ▸ hj) f (by rwa [hentry j hjp] at hf) pc hpc
  · by_cases hjp : j = p
    · exact ⟨ptr, by rw [hjp]⟩
    · exact absurd hpc (hnone j f pc (by rwa [hentry j hjp] at hf))
  · have hqp : q = p := by
      have hq : s.queue.pos = some q := hq
      rw [hp] at hq
      exact (Option.some.inj hq).symm
    subst hqp
    refine ⟨front, back, hl'.trans hsplit, fun j hj f hf => ?_, .inl ⟨ptr, rfl⟩⟩
    have hjp : j ≠ q := fun hjp => hpback (hjp ▸ hj)
    exact hback j hj f (by rwa [hentry j hjp] at hf)
  · cases hl
    exact hp

theorem Sound.of_leave (h : Sound s) {ptr : Nat} (hlock : s.lock = .leave ptr) :
    Sound (CondVar.leave s ptr) := by
  have hlinked : s.linked = ptr :: s.queue.nodes := by simp [State.linked, hlock]
  have hl' : (CondVar.leave s ptr).linked = s.queue.nodes := rfl
  have hd := h.nodup
  rw [hlinked] at hd
  have hne : ∀ j ∈ s.queue.nodes, j ≠ ptr := fun j hj hjp =>
    (List.nodup_cons.1 hd).1 (hjp ▸ hj)
  have hmem : ∀ j ∈ s.queue.nodes, j ∈ s.linked := fun j hj => by simp [hlinked, hj]
  have hentry : ∀ j, j ≠ ptr → (CondVar.leave s ptr).entry j = s.entry j := by
    intro j hj
    simp [CondVar.leave, hj]
  have hself : ∀ f, (CondVar.leave s ptr).entry ptr = some f →
      ∃ e, s.entry ptr = some e ∧ f = Entry.step e .pop := by
    intro f hf
    simp only [CondVar.leave, Function.update_self, Option.map_eq_some_iff] at hf
    obtain ⟨e, he, rfl⟩ := hf
    exact ⟨e, he, rfl⟩
  have hnotify : ∀ r i, s.lock ≠ .notify r i := fun r i hr => by
    rw [hlock] at hr
    cases hr
  refine ⟨fun j hj => ?_, (List.nodup_cons.1 hd).2, fun j hj => h.linked j (hmem j (hl' ▸ hj)),
    fun j hj f hf => ?_, fun j hj f hf => ?_, fun j f pc hf hpc => ?_, fun p hp => ?_,
    (fun r p hl => by cases hl), (fun r p hl => by cases hl),
    fun j r hl => by rcases hl with hl | hl <;> cases hl⟩
  · have hj : s.pushed ≤ j := hj
    by_cases hjp : j = ptr
    · subst hjp
      simp [CondVar.leave, h.unborn j hj]
    · rw [hentry j hjp]
      exact h.unborn j hj
  · rw [hl'] at hj
    exact h.queued j (hmem j hj) f (by rwa [hentry j (hne j hj)] at hf)
  · rw [hl'] at hj
    exact h.popper j (hmem j hj) f (by rwa [hentry j (hne j hj)] at hf)
  · by_cases hjp : j = ptr
    · subst hjp
      obtain ⟨e, he, rfl⟩ := hself f hf
      cases hpc
    · obtain ⟨r, hr⟩ := h.functor j f pc (by rwa [hentry j hjp] at hf) hpc
      exact absurd hr (hnotify r j)
  · have hp : s.queue.pos = some p := hp
    obtain ⟨front, back, hsplit, hback, hp'⟩ := h.pos p hp
    have hpn := h.leave ptr p hlock hp
    rw [hlinked] at hsplit
    have hfresh : ∀ j ∈ s.queue.nodes, Fresh s j → Fresh (CondVar.leave s ptr) j :=
      fun j hj hfj f hf => hfj f (by rwa [hentry j (hne j hj)] at hf)
    cases front with
    | nil =>
      simp only [List.nil_append, List.cons.injEq] at hsplit
      exact absurd hsplit.1.symm (hne p hpn)
    | cons x front =>
      simp only [List.cons_append, List.cons.injEq] at hsplit
      refine ⟨front, back, hl'.trans hsplit.2, fun j hj => hfresh j ?_ (hback j hj), .inr ?_⟩
      · simp [hsplit.2, hj]
      · rcases hp' with ⟨r, hr⟩ | hp'
        · exact absurd hr (hnotify r p)
        · exact hfresh p hpn hp'

theorem Sound.of_pass (h : Sound s) (he : Enabled s .pass = true) : Sound (pass s) := by
  unfold pass
  split
  · rename_i ptr hlock
    have hlinked : s.linked = ptr :: s.queue.nodes := by simp [State.linked, hlock]
    have hnone : ∀ i f pc, s.entry i = some f → f.notifier ≠ some (.posFunctor, pc) := by
      intro i f pc hf hpc
      obtain ⟨r, hr⟩ := h.functor i f pc hf hpc
      rw [hlock] at hr
      cases hr
    split
    · rename_i hp
      have hl' : State.linked { s with lock := .leave ptr } = s.linked := hlinked.symm
      refine ⟨h.unborn, hl' ▸ h.nodup, fun j hj => h.linked j (hl' ▸ hj),
        fun j hj => h.queued j (hl' ▸ hj), fun j hj => h.popper j (hl' ▸ hj),
        fun j f pc hf hpc => absurd hpc (hnone j f pc hf), fun p hq => ?_,
        (fun r p hl => by cases hl), fun r p _ hq => ?_,
        fun j r hl => by rcases hl with hl | hl <;> cases hl⟩
      · have hq : s.queue.pos = some p := hq
        rw [hp] at hq
        cases hq
      · have hq : s.queue.pos = some p := hq
        rw [hp] at hq
        cases hq
    · rename_i p hp
      split
      · rename_i hnone'
        have hupdate : Function.update s.entry p none = s.entry := by
          rw [← hnone']
          exact Function.update_eq_self p s.entry
        have hmove := h.move (e := none) hlinked hp (.inr rfl) (by simp)
          fun i f pc _ hf => hnone i f pc hf
        rwa [hupdate] at hmove
      · rename_i e hep
        exact h.notify_pos hlock hp hep
  · rename_i ptr p hlock
    have hlinked : s.linked = ptr :: s.queue.nodes := by simp [State.linked, hlock]
    have hp := h.notify ptr p hlock
    simp only [Enabled, hlock] at he
    split
    · rename_i e hep
      have hpl : p ∈ s.linked := by
        obtain ⟨front, back, hsplit, -⟩ := h.pos p hp
        simp [hsplit]
      simp only [hep, Option.any_some, Bool.or_eq_true, decide_eq_true_eq] at he
      refine h.move (e := some (Entry.step e .leave)) hlinked hp ?_ ?_ ?_
      · split
        · exact .inr rfl
        · exact .inl rfl
      · intro f hf
        cases hf
        refine ⟨h.linked p hpl, ?_, ?_⟩
        · have hq := h.queued p hpl e hep
          rcases he with he | he <;> simp [Entry.step, he, hq]
        · rcases he with he | he <;> simp [Entry.step, he]
      · intro i f pc hip hf hpc
        obtain ⟨r, hr⟩ := h.functor i f pc hf hpc
        rw [hlock] at hr
        cases hr
        exact hip rfl
    · exact h
  · rename_i ptr hlock
    exact h.of_leave hlock
  · exact h

/-! ### Every step -/

theorem Sound.step (h : Sound s) {a : Action} (he : Enabled s a = true) : Sound (step s a) := by
  cases a with
  | push kind deadline needWait => exact h.of_push (by simpa [Enabled] using he) kind deadline needWait
  | check => exact h.of_check he
  | pop =>
    simp only [Enabled, Bool.and_eq_true, decide_eq_true_eq] at he
    exact h.of_pop he.1
  | pass => exact h.of_pass he
  | entry i a =>
    simp only [Enabled, Option.any_eq_true, Bool.and_eq_true] at he
    obtain ⟨e, hei, hfree, hen⟩ := he
    obtain ⟨hqueued, hpassed, hfunctor⟩ := free_frame hfree hen
    simp only [CondVar.step, hei]
    exact h.set hei hqueued hpassed hfunctor

theorem Sound.of_run {posDistance : Nat} {ok : State → Action → Prop}
    (hr : Run machine ok (CondVar.initial posDistance) s) : Sound s := by
  refine hr.invariant (Sound.initial posDistance) fun t a u h he _ hs => ?_
  cases hs
  exact h.step he

/-! ## The runs of an entry -/

/-- How a step of the condition variable got an entry to be `e'`.  What the queue does to
an entry is `evict`, `pop`, `pass` or `leave`. -/
inductive Becomes (s : State) (a : Action) (i : Nat) (e' : Entry.State) : Prop where
  | same (he : s.entry i = some e')
  | born (he : s.entry i = none) (kind : Entry.Kind) (deadline : Bool)
      (hnew : e' = Entry.initial kind deadline)
  | step (e : Entry.State) (b : Entry.Action) (he : s.entry i = some e)
      (hen : Entry.Enabled e b = true) (hstep : e' = Entry.step e b)
      (hb : a = .entry i b ∨ b = .evict ∨ b = .pop ∨ b = .pass ∨ b = .leave)

/-- The entry `p` is changed by one step of its own, and no other entry is. -/
theorem Becomes.of_update {a : Action} {i p : Nat} {e e' : Entry.State} {b : Entry.Action}
    (hp : s.entry p = some e) (hen : Entry.Enabled e b = true)
    (hb : a = .entry p b ∨ b = .evict ∨ b = .pop ∨ b = .pass ∨ b = .leave)
    (hi : Function.update s.entry p (some (Entry.step e b)) i = some e') : Becomes s a i e' := by
  by_cases hip : i = p
  · subst hip
    rw [Function.update_self, Option.some.injEq] at hi
    exact .step e b hp hen hi.symm hb
  · rw [Function.update_of_ne hip] at hi
    exact .same hi

/-- As `of_update`, for an entry that may have no waiter. -/
theorem Becomes.of_map {a : Action} {i p : Nat} {e' : Entry.State} {b : Entry.Action}
    (hen : ∀ e, s.entry p = some e → Entry.Enabled e b = true)
    (hb : a = .entry p b ∨ b = .evict ∨ b = .pop ∨ b = .pass ∨ b = .leave)
    (hi : Function.update s.entry p ((s.entry p).map (Entry.step · b)) i = some e') :
    Becomes s a i e' := by
  cases hp : s.entry p with
  | none =>
    refine .same ?_
    rwa [hp, Option.map_none, ← hp, Function.update_eq_self] at hi
  | some e =>
    rw [hp, Option.map_some] at hi
    exact of_update hp (hen e hp) hb hi

theorem Sound.becomes_check (h : Sound s) (hlock : s.lock.cleaning = true) {i : Nat}
    {e' : Entry.State} (hi : (CondVar.check s).entry i = some e') : Becomes s .check i e' := by
  have hpushing : s.lock.pushing = true := by simp [Section.pushing, hlock]
  have hevict : ∀ p ∈ s.queue.nodes, ∀ e, s.entry p = some e →
      Entry.Enabled e .evict = true := by
    intro p hp e he
    have hp : p ∈ s.linked := linked_of_pushing hpushing ▸ hp
    simp [Entry.Enabled, h.queued p hp e he,
      h.idle hp he fun ptr => not_notify_of_pushing hpushing ptr p]
  unfold CondVar.check at hi
  split at hi
  · exact .same hi
  · split at hi
    · exact .same hi
    · split at hi <;> exact .same hi
  · rename_i p rounds hl
    split at hi
    · refine .of_map (hevict p ?_) (.inr (.inl rfl)) hi
      exact WaitQueue.mem_of_checkNext (h.check p rounds (.inl hl))
    · exact .same hi
  · rename_i p rounds hl
    split at hi
    · refine .of_map (hevict p ?_) (.inr (.inl rfl)) hi
      exact WaitQueue.mem_of_checkNext (h.check p rounds (.inr hl))
    · exact .same hi
  · exact .same hi

theorem Sound.becomes_pass (h : Sound s) (he : Enabled s .pass = true) {i : Nat}
    {e' : Entry.State} (hi : (pass s).entry i = some e') : Becomes s .pass i e' := by
  unfold pass at hi
  split at hi
  · rename_i ptr hlock
    have hnotify : ∀ r p, s.lock ≠ .notify r p := fun r p hr => by
      rw [hlock] at hr
      cases hr
    split at hi
    · exact .same hi
    · rename_i p hp
      split at hi
      · exact .same hi
      · rename_i e hep
        obtain ⟨front, back, hsplit, -, hfresh⟩ := h.pos p hp
        have hpl : p ∈ s.linked := by simp [hsplit]
        have hpassed : e.passed = false := by
          rcases hfresh with ⟨r, hr⟩ | hfresh
          · exact absurd hr (hnotify r p)
          · exact hfresh e hep
        refine .of_update hep ?_ (.inr (.inr (.inr (.inl rfl)))) hi
        simp [Entry.Enabled, hpassed, h.queued p hpl e hep, h.idle hpl hep fun r => hnotify r p]
  · rename_i ptr p hlock
    simp only [Enabled, hlock] at he
    split at hi
    · rename_i e hep
      simp only [hep, Option.any_some, Bool.or_eq_true, decide_eq_true_eq] at he
      refine .of_update hep ?_ (.inr (.inr (.inr (.inr rfl)))) hi
      rcases he with he | he <;> simp [Entry.Enabled, he]
    · exact .same hi
  · rename_i ptr hlock
    refine .of_map (fun e hep => ?_) (.inr (.inr (.inl rfl))) hi
    have hpl : ptr ∈ s.linked := by simp [State.linked, hlock]
    have hidle := h.idle hpl hep fun r hr => by
      rw [hlock] at hr
      cases hr
    simp [Entry.Enabled, h.queued ptr hpl e hep, hidle]
  · exact .same hi

theorem Sound.becomes (h : Sound s) {a : Action} (he : Enabled s a = true) {i : Nat}
    {e' : Entry.State} (hi : (CondVar.step s a).entry i = some e') : Becomes s a i e' := by
  cases a with
  | push kind deadline needWait =>
    have hi : Function.update s.entry s.pushed
        (if needWait then some (Entry.initial kind deadline) else none) i = some e' := hi
    by_cases his : i = s.pushed
    · subst his
      rw [Function.update_self] at hi
      split at hi
      · exact .born (h.unborn _ (Nat.le_refl _)) kind deadline (Option.some.inj hi).symm
      · cases hi
    · rw [Function.update_of_ne his] at hi
      exact .same hi
  | check => exact h.becomes_check he hi
  | pop =>
    refine .same ?_
    simp only [CondVar.step, CondVar.pop] at hi
    split at hi <;> exact hi
  | pass => exact h.becomes_pass he hi
  | entry j b =>
    simp only [Enabled, Option.any_eq_true, Bool.and_eq_true] at he
    obtain ⟨e, hje, -, hen⟩ := he
    simp only [CondVar.step, hje] at hi
    exact .of_update hje hen (.inl rfl) hi

/-- The run of each entry is one of `Entry.machine`. -/
theorem entry_run {posDistance : Nat} {ok : State → Action → Prop}
    (ok' : Entry.State → Entry.Action → Prop)
    (hown : ∀ s i e b, s.entry i = some e → ok s (.entry i b) → ok' e b)
    (hqueue : ∀ e b, b = .evict ∨ b = .pop ∨ b = .pass ∨ b = .leave → ok' e b)
    (hr : Run machine ok (initial posDistance) s) {i : Nat} {e : Entry.State}
    (he : s.entry i = some e) :
    ∃ kind deadline, Run Entry.machine ok' (Entry.initial kind deadline) e := by
  induction hr generalizing e with
  | refl => cases he
  | @tail t u a hr hen hok hs ih =>
    cases hs
    cases (Sound.of_run hr).becomes hen he with
    | same he => exact ih he
    | born _ kind deadline hnew => exact ⟨kind, deadline, hnew ▸ .refl⟩
    | step e' b he' hen' hstep hb =>
      obtain ⟨kind, deadline, hr'⟩ := ih he'
      refine ⟨kind, deadline, hr'.tail hen' ?_ (congrArg some hstep.symm)⟩
      rcases hb with hb | hb
      · exact hown t i e' b he' (hb ▸ hok)
      · exact hqueue e' b hb

/-! ## The functors -/

end Costream.Sync.CondVar
