import Costream.Trace
import Costream.Sync.Hooks

/-!
# What stays linked

Runs of `push` and `pop` on one queue, with all the answers that `checkFunctor_`, `posFunctor_` and
the conditions can give.  A node can be pushed again when it has been popped or evicted.

The hooks describe a list of nodes in every run.  Two things go wrong.

* An eviction leaves `count_` as it is, so `count_` is too large by the number of evictions.
* Without a `posFunctor_`, `pos_` does not move on when the node that it points to is popped.
-/

namespace Costream.Sync

open Trace Hooks

namespace WaitQueue

/-- `check_` and `pos_` are at no node that has gone. -/
structure Held (w : WaitQueue) : Prop where
  check : ∀ i, w.check = .node i → i ∈ w.nodes
  pos : ∀ i, w.pos = some i → i ∈ w.nodes

variable {w : WaitQueue} {i ptr : Nat} {front back : List Nat}

theorem Held.link (h : w.Held) (ptr : Nat) : (w.link ptr).Held := by
  refine ⟨fun i hi => List.mem_append_left [ptr] (h.check i hi), fun i hi => ?_⟩
  have hpos : (if (w.count + 1) % 2 ^ 64 = w.posDistance then some ptr else w.pos) = some i := hi
  split at hpos
  · rw [Option.some.injEq] at hpos
    rw [← hpos]
    exact List.mem_append_right w.nodes (List.mem_singleton_self ptr)
  · exact List.mem_append_left [ptr] (h.pos i hpos)

theorem Held.startCheck (h : w.Held) : w.startCheck.Held := by
  unfold WaitQueue.startCheck
  split
  · exact h
  · refine ⟨fun i hi => h.pos i ?_, h.pos⟩
    have hcheck : Cursor.of w.pos = .node i := hi
    cases hpos : w.pos with
    | none =>
      rw [hpos] at hcheck
      cases hcheck
    | some j =>
      rw [hpos] at hcheck
      rw [Cursor.node.inj hcheck]

/-- Behind `check_` one node goes, and `check_` stays before it. -/
theorem Held.unlink (h : w.Held) (hnd : w.nodes.Nodup) (hi : w.checkNext = some i) :
    (w.unlink i).Held := by
  obtain ⟨front, back, hsplit, hcheck⟩ := checkNext_split hi
  rw [hsplit] at hnd
  have hout : i ∉ front := fun hmem => (List.nodup_append.1 hnd).2.2 i hmem i (by simp) rfl
  have hnodes : (w.unlink i).nodes = front ++ back := by
    rw [unlink_nodes, hsplit, List.erase_append_right _ hout, List.erase_cons_head]
  refine ⟨fun j hj => ?_, fun j hj => ?_⟩
  · rw [hnodes]
    have hlast : last front = .node j := hcheck.symm.trans hj
    exact List.mem_append_left back (last_eq_node hlast)
  · rw [hnodes]
    have hpos : (if w.pos = some i then next w.nodes i else w.pos) = some j := hj
    split at hpos
    · rw [hsplit, next_append hout] at hpos
      exact List.mem_append_right front (List.mem_of_head? hpos)
    · next hne =>
      have hmem := h.pos j hpos
      rw [hsplit, List.mem_append, List.mem_cons] at hmem
      rw [List.mem_append]
      have hji : j ≠ i := fun heq => hne (by rw [hpos, heq])
      tauto

theorem Held.advance (h : w.Held) (hi : w.checkNext = some i) : (w.advance i).Held := by
  refine ⟨fun j hj => ?_, h.pos⟩
  have hij : Cursor.node i = .node j := hj
  have hmem : i ∈ w.nodes := mem_of_checkNext hi
  rw [← Cursor.node.inj hij]
  exact hmem

/-! ## What `push` does to the list -/

/-- The nodes that are evicted go from the list, and the others keep their order. -/
theorem cleanUp_spec (valid : Nat → Bool) (rounds : Nat) (hnd : w.nodes.Nodup) :
    w.nodes.Perm ((w.cleanUp valid rounds).1 ++ (w.cleanUp valid rounds).2.nodes) ∧
      (w.cleanUp valid rounds).2.nodes.Sublist w.nodes ∧
      (w.cleanUp valid rounds).2.count = w.count ∧
      (w.Held → (w.cleanUp valid rounds).2.Held) := by
  induction rounds generalizing w with
  | zero => exact ⟨List.Perm.refl _, List.Sublist.refl _, rfl, id⟩
  | succ rounds ih =>
    unfold cleanUp
    cases hnext : w.checkNext with
    | none => exact ⟨List.Perm.refl _, List.Sublist.refl _, rfl, id⟩
    | some i =>
      by_cases hvalid : valid i = true
      · simp only [hvalid, if_true]
        obtain ⟨hperm, hsub, hcount, hheld⟩ := ih (w := w.advance i) hnd
        exact ⟨hperm, hsub, hcount, fun h => hheld (h.advance hnext)⟩
      · simp only [hvalid]
        have hmem := mem_of_checkNext hnext
        obtain ⟨hperm, hsub, hcount, hheld⟩ := ih (w := w.unlink i) (hnd.erase i)
        refine ⟨?_, hsub.trans List.erase_sublist, hcount, fun h => hheld (h.unlink hnd hnext)⟩
        exact (List.perm_cons_erase hmem).trans (hperm.cons i)

/-- After a `push` that has not been refused. -/
structure Pushed (w w' : WaitQueue) (ptr : Nat) (evicted : List Nat) : Prop where
  perm : (w.nodes ++ [ptr]).Perm (evicted ++ w'.nodes)
  sub : w'.nodes.Sublist (w.nodes ++ [ptr])
  count : w'.count = (w.count + 1) % 2 ^ 64
  held : w.Held → w'.Held

theorem push_refused (cond : Option (Nat → CondRet)) (checkFunctor : Option (Nat → Bool))
    (hret : (CondRet.of cond w.count).canQueue = false) :
    w.push ptr cond checkFunctor = (CondRet.of cond w.count, [], w) := by
  unfold push
  simp only
  rw [if_neg (by simp [hret])]

theorem push_accepted (hnd : w.nodes.Nodup) (hptr : ptr ∉ w.nodes)
    (cond : Option (Nat → CondRet)) (checkFunctor : Option (Nat → Bool))
    (hret : (CondRet.of cond w.count).canQueue = true) :
    (w.push ptr cond checkFunctor).1 = CondRet.of cond w.count ∧
      Pushed w (w.push ptr cond checkFunctor).2.2 ptr (w.push ptr cond checkFunctor).2.1 := by
  have hlinked : Pushed w (w.link ptr) ptr [] :=
    ⟨List.Perm.refl _, List.Sublist.refl _, rfl, fun h => h.link ptr⟩
  unfold push
  simp only
  rw [if_pos hret]
  cases checkFunctor with
  | none => exact ⟨rfl, hlinked⟩
  | some valid =>
    simp only
    by_cases hfew : (w.link ptr).count < (w.link ptr).threshold
    · rw [if_pos hfew]
      exact ⟨rfl, hlinked⟩
    · rw [if_neg hfew]
      have hnd' : (w.link ptr).startCheck.nodes.Nodup := by
        rw [startCheck_nodes, link_nodes, ← List.concat_eq_append]
        exact List.Nodup.concat hptr hnd
      have hcount : (w.link ptr).startCheck.count = (w.count + 1) % 2 ^ 64 := by
        unfold WaitQueue.startCheck
        split
        · rfl
        · rfl
      obtain ⟨hperm, hsub, hsame, hheld⟩ := cleanUp_spec valid 2 hnd'
      rw [startCheck_nodes, link_nodes] at hperm hsub
      refine ⟨rfl, hperm, hsub, hsame.trans hcount, fun h => hheld (h.link ptr).startCheck⟩

/-! ## What `pop` does to the list -/

/-- After a `pop` that has found a node. -/
structure Popped (w w' : WaitQueue) (ptr : Nat) (posFunctor : Bool) : Prop where
  nodes : w.nodes = ptr :: w'.nodes
  count : w'.count = if w.count = 0 then 2 ^ 64 - 1 else w.count - 1
  held : w.Held → (w'.Held ↔ posFunctor = true ∨ w.pos ≠ some ptr)

/-- `check_` has moved on from the node that is popped. -/
theorem Held.popHead_check (h : w.Held) (hnodes : w.nodes = ptr :: back) (i : Nat)
    (hi : (w.popHead ptr).check = .node i) : i ∈ back := by
  have hcheck : (if w.check = .node ptr then Cursor.of w.nodes.tail.head? else w.check) =
      .node i := hi
  split at hcheck
  · rw [hnodes, List.tail_cons] at hcheck
    cases back with
    | nil => cases hcheck
    | cons j back =>
      rw [← Cursor.node.inj hcheck]
      exact List.mem_cons_self
  · next hne =>
    have hmem := h.check i hcheck
    rw [hnodes, List.mem_cons] at hmem
    exact hmem.resolve_left fun heq => hne (by rw [hcheck, heq])

theorem pop_spec (hnd : w.nodes.Nodup) (hnodes : w.nodes = ptr :: back)
    (posFunctor : Option (Nat → Bool)) :
    (w.pop posFunctor).1 = some ptr ∧ Popped w (w.pop posFunctor).2 ptr posFunctor.isSome := by
  have hout : ptr ∉ back := by
    rw [hnodes] at hnd
    exact (List.nodup_cons.1 hnd).1
  have htail : (w.popHead ptr).nodes = back := by
    rw [popHead_nodes, hnodes]
    rfl
  unfold pop
  rw [hnodes]
  cases posFunctor with
  | none =>
    refine ⟨rfl, ?_, rfl, fun h => ⟨fun h' => .inr fun hpos => ?_,
      fun hpos => ⟨fun i hi => ?_, fun i hi => ?_⟩⟩⟩
    · show w.nodes = ptr :: (w.popHead ptr).nodes
      rw [htail, hnodes]
    · have hmem : ptr ∈ (w.popHead ptr).nodes := h'.pos ptr hpos
      rw [htail] at hmem
      exact hout hmem
    · show i ∈ (w.popHead ptr).nodes
      rw [htail]
      exact h.popHead_check hnodes i hi
    · show i ∈ (w.popHead ptr).nodes
      have hpos' : w.pos = some i := hi
      have hmem := h.pos i hpos'
      rw [hnodes, List.mem_cons] at hmem
      rw [htail]
      refine hmem.resolve_left fun heq => ?_
      rcases hpos with hfalse | hne
      · cases hfalse
      · exact hne (by rw [hpos', heq])
  | some ok =>
    refine ⟨rfl, ?_, rfl, fun h => ⟨fun _ => .inl rfl, fun _ => ⟨fun i hi => ?_, fun i hi => ?_⟩⟩⟩
    · show w.nodes = ptr :: (w.popHead ptr).nodes
      rw [htail, hnodes]
    · show i ∈ (w.popHead ptr).nodes
      rw [htail]
      exact h.popHead_check hnodes i hi
    · show i ∈ (w.popHead ptr).nodes
      have hpos : (w.pos.bind fun j => (((w.popHead ptr).nodes.dropWhile (· ≠ j)).dropWhile
          fun j => !ok j).tail.head?) = some i := hi
      obtain ⟨j, -, hhead⟩ := Option.bind_eq_some_iff.1 hpos
      have hmem := List.mem_of_mem_tail (List.mem_of_head? hhead)
      exact (List.dropWhile_suffix _).subset ((List.dropWhile_suffix _).subset hmem)

end WaitQueue

namespace Linkage

/-! ## Runs -/

structure State where
  queue : Hooks
  pushed : List Nat
  popped : List Nat
  evicted : List Nat

/-- A call, with the answers that the functors give during it. -/
inductive Action where
  | push (ptr : Nat) (cond : Option (Nat → CondRet)) (valid : Nat → Bool)
  | pop (ok : Nat → Bool)
  | tryPop (ok : Nat → Bool)

def initial (posDistance : Nat) : State := ⟨Hooks.create posDistance, [], [], []⟩

/-- A node is pushed that is not in the queue: it has gone as often as it was pushed. -/
def Enabled (s : State) : Action → Prop
  | .push ptr _ _ => s.pushed.count ptr = (s.evicted ++ s.popped).count ptr
  | _ => True

instance (s : State) : (a : Action) → Decidable (Enabled s a)
  | .push ptr _ _ =>
    inferInstanceAs (Decidable (s.pushed.count ptr = (s.evicted ++ s.popped).count ptr))
  | .pop _ => inferInstanceAs (Decidable True)
  | .tryPop _ => inferInstanceAs (Decidable True)

/-- A member `Functor`, which can be null. -/
def functor (given : Bool) (f : Nat → Bool) : Option (Nat → Bool) := if given then some f else none

def State.afterPush (s : State) (ptr : Nat) : CondRet × List Nat × Hooks → State
  | (ret, evicted, queue) =>
    { s with
      queue := queue
      pushed := if ret.canQueue then s.pushed ++ [ptr] else s.pushed
      evicted := s.evicted ++ evicted }

def State.afterPop (s : State) : Option Nat × Hooks → State
  | (ptr, queue) => { s with queue := queue, popped := s.popped ++ ptr.toList }

/-- The loop of `pop` needs no more rounds than there are nodes. -/
def step (checkFunctor posFunctor : Bool) (s : State) : Action → Option State
  | .push ptr cond valid =>
    (s.queue.push ptr cond (functor checkFunctor valid)).map (s.afterPush ptr)
  | .pop ok => (s.queue.pop (functor posFunctor ok) (s.pushed.length + 1)).map s.afterPop
  | .tryPop ok => (s.queue.tryPop (functor posFunctor ok) (s.pushed.length + 1)).map s.afterPop

def machine (checkFunctor posFunctor : Bool) : Machine State Action where
  enabled := Enabled
  step := step checkFunctor posFunctor

instance (c p : Bool) (s : State) (a : Action) : Decidable ((machine c p).enabled s a) :=
  inferInstanceAs (Decidable (Enabled s a))

/-! ## The structure -/

/-- The nodes linked from `head_`. -/
def State.Linked (s : State) (nodes : List Nat) : Prop :=
  Path s.queue.next .null .dummy (nodes.map .node)

instance (s : State) (nodes : List Nat) : Decidable (s.Linked nodes) :=
  inferInstanceAs (Decidable (Path _ _ _ _))

/-- `tail_` is the last node.  Every node that was pushed has been popped or evicted or is linked,
and those that were not evicted are popped in the order of the pushes.  A node that has gone cannot
be reached, unless it is pushed again. -/
structure State.Kept (s : State) (nodes : List Nat) : Prop where
  tail : s.queue.tail = last nodes
  order : (s.popped ++ nodes).Sublist s.pushed
  once : s.pushed.Perm (s.evicted ++ s.popped ++ nodes)
  gone : ∀ i, i ∈ nodes ↔ (s.evicted ++ s.popped).count i < s.pushed.count i

/-- `check_` and `pos_` are null or at nodes that are linked, or `check_` is at the dummy node. -/
structure State.Held (s : State) (nodes : List Nat) : Prop where
  check : s.queue.check = .null ∨ s.queue.check = .dummy ∨ ∃ i ∈ nodes, s.queue.check = .node i
  pos : s.queue.pos = .null ∨ ∃ i ∈ nodes, s.queue.pos = .node i

/-- `count_` is the number of nodes. -/
def State.Counted (s : State) (nodes : List Nat) : Prop := s.queue.count = nodes.length % 2 ^ 64

def State.Structured (s : State) : Prop :=
  ∃ nodes, s.Linked nodes ∧ s.Kept nodes ∧ s.Held nodes ∧ s.Counted nodes

/-- The call takes the first node. -/
def Pops (s : State) : Action → Prop
  | .push .. => False
  | .pop _ => s.queue.tail ≠ .dummy
  | .tryPop _ => s.queue.tail ≠ .dummy ∧ s.queue.count ≠ 0

/-- There is a `posFunctor_`, or `pos_` is not at the node that is taken. -/
def KeepsPos (posFunctor : Bool) (s : State) (a : Action) : Prop :=
  Pops s a → posFunctor = true ∨ s.queue.pos ≠ s.queue.next .dummy

instance (s : State) : (a : Action) → Decidable (Pops s a)
  | .push .. => inferInstanceAs (Decidable False)
  | .pop _ => inferInstanceAs (Decidable (s.queue.tail ≠ .dummy))
  | .tryPop _ => inferInstanceAs (Decidable (s.queue.tail ≠ .dummy ∧ s.queue.count ≠ 0))

instance (p : Bool) (s : State) (a : Action) : Decidable (KeepsPos p s a) :=
  inferInstanceAs (Decidable (Pops s a → _))

/-! ## The invariant -/

variable {s s' : State} {w : WaitQueue} {ptr : Nat} {a : Action} {checkFunctor posFunctor : Bool}

/-- The hooks describe `w`, and its nodes are those that have not gone. -/
structure Sound (s : State) (w : WaitQueue) : Prop where
  refines : s.queue.Refines w
  order : (s.popped ++ w.nodes).Sublist s.pushed
  once : s.pushed.Perm (s.evicted ++ s.popped ++ w.nodes)
  count : w.count = (w.nodes.length + s.evicted.length) % 2 ^ 64

namespace Sound

theorem mem_iff (h : Sound s w) (i : Nat) :
    i ∈ w.nodes ↔ (s.evicted ++ s.popped).count i < s.pushed.count i := by
  have hcount : s.pushed.count i = (s.evicted ++ s.popped).count i + w.nodes.count i :=
    (h.once.count_eq i).trans List.count_append
  rw [hcount, ← List.count_pos_iff]
  omega

theorem length_le (h : Sound s w) : w.nodes.length ≤ s.pushed.length := by
  have hlen := h.once.length_eq
  simp only [List.length_append] at hlen
  omega

theorem pushStep (h : Sound s w) (cond : Option (Nat → CondRet)) (valid : Option (Nat → Bool))
    (he : s.pushed.count ptr = (s.evicted ++ s.popped).count ptr) :
    ∃ s' w', (s.queue.push ptr cond valid).map (s.afterPush ptr) = some s' ∧ Sound s' w' ∧
      (w.Held → w'.Held) := by
  have hptr : ptr ∉ w.nodes := by
    rw [h.mem_iff]
    omega
  obtain ⟨q', hpush, hrefines⟩ := push_refines h.refines hptr cond valid
  rw [hpush, Option.map_some]
  cases hret : (CondRet.of cond w.count).canQueue with
  | false =>
    rw [WaitQueue.push_refused cond valid hret] at hrefines ⊢
    refine ⟨_, w, rfl, ⟨hrefines, ?_, ?_, ?_⟩, id⟩
    · simp only [State.afterPush, hret]
      exact h.order
    · simp only [State.afterPush, hret, List.append_nil]
      exact h.once
    · simp only [State.afterPush, List.append_nil]
      exact h.count
  | true =>
    obtain ⟨hanswer, hpushed⟩ := WaitQueue.push_accepted h.refines.nodup hptr cond valid hret
    generalize w.push ptr cond valid = r at *
    obtain ⟨ret, evicted, w'⟩ := r
    simp only at hanswer hpushed hrefines
    refine ⟨_, w', rfl, ⟨hrefines, ?_, ?_, ?_⟩, hpushed.held⟩
    · simp only [State.afterPush, hanswer, hret, if_true]
      refine ((List.Sublist.refl s.popped).append hpushed.sub).trans ?_
      rw [← List.append_assoc]
      exact h.order.append (List.Sublist.refl [ptr])
    · simp only [State.afterPush, hanswer, hret, if_true]
      refine List.perm_iff_count.2 fun i => ?_
      have honce := h.once.count_eq i
      have hperm := hpushed.perm.count_eq i
      simp only [List.count_append] at honce hperm ⊢
      omega
    · show w'.count = (w'.nodes.length + (s.evicted ++ evicted).length) % 2 ^ 64
      have hlen := hpushed.perm.length_eq
      rw [hpushed.count, h.count]
      simp only [List.length_append, List.length_singleton] at hlen ⊢
      omega

theorem popStep (h : Sound s w) (posFunctor : Bool) (f : Nat → Bool) :
    ∃ s' w', (s.queue.pop (functor posFunctor f) (s.pushed.length + 1)).map s.afterPop = some s' ∧
      Sound s' w' ∧
      (w.Held → (w'.Held ↔ (s.queue.tail ≠ .dummy → posFunctor = true ∨
        s.queue.pos ≠ s.queue.next .dummy))) := by
  have hfuel : w.nodes.length < s.pushed.length + 1 := Nat.lt_succ_of_le h.length_le
  obtain ⟨q', hpop, hrefines⟩ := pop_refines h.refines (functor posFunctor f) hfuel
  rw [hpop, Option.map_some]
  cases hnodes : w.nodes with
  | nil =>
    have hsame : w.pop (functor posFunctor f) = (none, w) := by
      unfold WaitQueue.pop
      rw [hnodes]
    have hempty : s.queue.tail = .dummy := by
      rw [h.refines.tail, last_eq_dummy, hnodes]
    rw [hsame] at hrefines ⊢
    refine ⟨_, w, rfl, ⟨hrefines, ?_, ?_, h.count⟩, fun hheld => ⟨fun _ hne => ?_, fun _ => hheld⟩⟩
    · simp only [State.afterPop, Option.toList_none, List.append_nil]
      exact h.order
    · simp only [State.afterPop, Option.toList_none, List.append_nil]
      exact h.once
    · exact absurd hempty hne
  | cons ptr back =>
    obtain ⟨hptr, hpopped⟩ := WaitQueue.pop_spec h.refines.nodup hnodes (functor posFunctor f)
    generalize w.pop (functor posFunctor f) = r at *
    obtain ⟨found, w'⟩ := r
    simp only at hptr hpopped hrefines
    have horder := h.order
    have honce := h.once
    have hcount := h.count
    rw [hpopped.nodes] at horder honce hcount
    have hne : s.queue.tail ≠ .dummy := by
      rw [h.refines.tail, Ne, last_eq_dummy, hnodes]
      simp
    have hfirst : s.queue.next .dummy = .node ptr := by
      have hnext := h.refines.next_last (List.nil_append w.nodes).symm
      rw [hnodes] at hnext
      exact hnext
    have hpos : s.queue.pos ≠ s.queue.next .dummy ↔ w.pos ≠ some ptr := by
      rw [hfirst, h.refines.pos]
      cases w.pos with
      | none => simp [Cursor.of]
      | some i => simp [Cursor.of]
    have hgiven : (functor posFunctor f).isSome = posFunctor := by
      cases posFunctor with
      | false => rfl
      | true => rfl
    rw [hptr]
    refine ⟨_, w', rfl, ⟨hrefines, ?_, ?_, ?_⟩, fun hheld => ?_⟩
    · show (s.popped ++ [ptr] ++ w'.nodes).Sublist s.pushed
      rw [List.append_assoc]
      exact horder
    · show s.pushed.Perm (s.evicted ++ (s.popped ++ [ptr]) ++ w'.nodes)
      rw [← List.append_assoc, List.append_assoc]
      exact honce
    · show w'.count = (w'.nodes.length + s.evicted.length) % 2 ^ 64
      rw [hpopped.count, hcount, List.length_cons]
      split
      · omega
      · omega
    · rw [hpopped.held hheld, hgiven, hpos]
      exact ⟨fun hkeeps _ => hkeeps, fun hkeeps => hkeeps hne⟩

/-- No call faults, and each leaves hooks that describe a list. -/
theorem step (h : Sound s w) (he : Enabled s a) :
    ∃ s' w', Linkage.step checkFunctor posFunctor s a = some s' ∧ Sound s' w' ∧
      (w.Held → (w'.Held ↔ KeepsPos posFunctor s a)) := by
  cases a with
  | push ptr cond valid =>
    obtain ⟨s', w', hstep, hsound, hheld⟩ := h.pushStep cond (functor checkFunctor valid) he
    refine ⟨s', w', hstep, hsound, fun hw => ⟨fun _ hpops => hpops.elim, fun _ => hheld hw⟩⟩
  | pop ok => exact h.popStep posFunctor ok
  | tryPop ok =>
    by_cases hzero : s.queue.count = 0
    · have hstep : Linkage.step checkFunctor posFunctor s (.tryPop ok) = some s := by
        simp [Linkage.step, Hooks.tryPop, hzero, State.afterPop]
      refine ⟨s, w, hstep, h, fun hw => ⟨fun _ hpops => absurd hzero hpops.2, fun _ => hw⟩⟩
    · obtain ⟨s', w', hstep, hsound, hheld⟩ := h.popStep posFunctor ok
      refine ⟨s', w', ?_, hsound, fun hw => (hheld hw).trans ?_⟩
      · rw [← hstep]
        simp [Linkage.step, Hooks.tryPop, hzero]
      · exact ⟨fun hkeeps hpops => hkeeps hpops.1, fun hkeeps hne => hkeeps ⟨hne, hzero⟩⟩

theorem kept (h : Sound s w) : s.Kept w.nodes :=
  ⟨h.refines.tail, h.order, h.once, h.mem_iff⟩

theorem held_iff (h : Sound s w) : s.Held w.nodes ↔ w.Held := by
  have hcheck := h.refines.check
  have hpos := h.refines.pos
  constructor
  · intro hheld
    refine ⟨fun i hi => ?_, fun i hi => ?_⟩
    · rw [← hcheck] at hi
      rcases hheld.check with hnull | hdummy | ⟨j, hj, hnode⟩
      · rw [hnull] at hi
        cases hi
      · rw [hdummy] at hi
        cases hi
      · rw [hnode, Cursor.node.injEq] at hi
        rw [← hi]
        exact hj
    · rw [hi] at hpos
      rcases hheld.pos with hnull | ⟨j, hj, hnode⟩
      · rw [hnull] at hpos
        cases hpos
      · have hij : Cursor.node j = .node i := hnode.symm.trans hpos
        rw [← Cursor.node.inj hij]
        exact hj
  · intro hheld
    constructor
    · rw [hcheck]
      cases hw : w.check with
      | null => exact .inl rfl
      | dummy => exact .inr (.inl rfl)
      | node i => exact .inr (.inr ⟨i, hheld.check i hw, rfl⟩)
    · rw [hpos]
      cases hw : w.pos with
      | none => exact .inl rfl
      | some i => exact .inr ⟨i, hheld.pos i hw, rfl⟩

theorem counted_iff (h : Sound s w) : s.Counted w.nodes ↔ 2 ^ 64 ∣ s.evicted.length := by
  unfold State.Counted
  rw [h.refines.count, h.count]
  omega

/-- There is one list that is linked from `head_`. -/
theorem linked_iff (h : Sound s w) (nodes : List Nat) : s.Linked nodes ↔ nodes = w.nodes := by
  constructor
  · intro hlinked
    exact path_unique hlinked h.refines.path
  · intro hnodes
    rw [hnodes]
    exact h.refines.path

theorem structured_iff (h : Sound s w) :
    s.Structured ↔ w.Held ∧ 2 ^ 64 ∣ s.evicted.length := by
  constructor
  · intro hs
    obtain ⟨nodes, hlinked, -, hheld, hcounted⟩ := hs
    rw [h.linked_iff] at hlinked
    subst hlinked
    exact ⟨h.held_iff.1 hheld, h.counted_iff.1 hcounted⟩
  · intro hs
    exact ⟨w.nodes, h.refines.path, h.kept, h.held_iff.2 hs.1, h.counted_iff.2 hs.2⟩

end Sound

theorem sound_initial (posDistance : Nat) :
    Sound (initial posDistance) (WaitQueue.create posDistance) :=
  ⟨create_refines posDistance, List.Sublist.refl _, List.Perm.refl _, rfl⟩

theorem held_create (posDistance : Nat) : (WaitQueue.create posDistance).Held :=
  ⟨fun _ hi => (nomatch hi), fun _ hi => (nomatch hi)⟩

/-! ## The result -/

/-- In the runs in which `pos_` is never at the node that is taken, unless there is a `posFunctor_`,
all is as it should be except for `count_`, which is right as long as no node has been evicted. -/
theorem structure_kept {posDistance : Nat}
    (hrun : Run (machine checkFunctor posFunctor) (KeepsPos posFunctor) (initial posDistance) s) :
    (∃ nodes, s.Linked nodes ∧ s.Kept nodes ∧ s.Held nodes ∧
        (s.Counted nodes ↔ 2 ^ 64 ∣ s.evicted.length)) ∧
      ∀ a, (machine checkFunctor posFunctor).enabled s a →
        ∃ s', (machine checkFunctor posFunctor).step s a = some s' ∧
          (s'.Structured ↔ KeepsPos posFunctor s a ∧ 2 ^ 64 ∣ s'.evicted.length) := by
  have hsound : ∃ w, Sound s w ∧ w.Held := by
    refine hrun.invariant (P := fun s => ∃ w, Sound s w ∧ w.Held)
      ⟨_, sound_initial posDistance, held_create posDistance⟩ ?_
    intro t a u ht he hkeeps hs
    obtain ⟨w, hw, hheld⟩ := ht
    obtain ⟨u', w', hstep, hw', hheld'⟩ := hw.step (a := a) he
    have heq : some u' = some u := hstep.symm.trans hs
    rw [← Option.some.inj heq]
    exact ⟨w', hw', (hheld' hheld).2 hkeeps⟩
  obtain ⟨w, hw, hheld⟩ := hsound
  refine ⟨⟨w.nodes, hw.refines.path, hw.kept, hw.held_iff.2 hheld, hw.counted_iff⟩, fun a he => ?_⟩
  obtain ⟨s', w', hstep, hw', hheld'⟩ := hw.step he
  refine ⟨s', hstep, ?_⟩
  rw [hw'.structured_iff, hheld' hheld]

/-- The nodes `n`, `n + 1`, … are pushed. -/
def pushes (n count : Nat) : List Action :=
  (List.range' n count).map fun ptr => .push ptr none fun _ => true

/-- `pos_` is at the node 1, which is evicted, then the node 2 is, and two nodes are popped. -/
theorem structure_kept_evicted : ∃ s,
    Run (machine true true) (KeepsPos true) (initial 2) s ∧
      decide (s.Linked (List.range' 4 15) ∧ s.popped = [0, 3] ∧ s.evicted = [1, 2] ∧
        s.queue.pos = .node 6 ∧ s.queue.check = .node 4) = true ∧
      ∃ nodes, s.Linked nodes ∧ s.Kept nodes ∧ s.Held nodes ∧
        (s.Counted nodes ↔ 2 ^ 64 ∣ s.evicted.length) := by
  have hexec : ((machine true true).exec (KeepsPos true) (initial 2)
      (pushes 0 17 ++ [.push 17 none fun i => i ≠ 1, .push 18 none fun i => i ≠ 2,
        .pop fun i => i ≠ 3, .pop fun _ => true])).any
      (fun s => decide (s.Linked (List.range' 4 15) ∧ s.popped = [0, 3] ∧ s.evicted = [1, 2] ∧
        s.queue.pos = .node 6 ∧ s.queue.check = .node 4)) = true := by
    decide +kernel
  obtain ⟨s, hs, hstate⟩ := Run.exists_of_exec hexec
  exact ⟨s, hs, hstate, (structure_kept hs).1⟩

/-- Of 16 nodes two are evicted, and `count_` is 16. -/
theorem structure_lost : ¬ ∀ posDistance checkFunctor posFunctor s,
    Run (machine checkFunctor posFunctor) anyAction (initial posDistance) s → s.Structured := by
  intro hall
  have hexec : ((machine true false).exec anyAction (initial 0)
      (pushes 0 15 ++ [.push 15 none fun _ => false])).any
      (fun s => decide (s.Linked (List.range' 2 14) ∧ s.queue.count = 16)) = true := by
    decide +kernel
  obtain ⟨s, hs, hstate⟩ := Run.exists_of_exec hexec
  obtain ⟨hlinked, hcount⟩ := of_decide_eq_true hstate
  obtain ⟨nodes, hlinked', -, -, hcounted⟩ := hall 0 true false s hs
  have hnodes : nodes = List.range' 2 14 := path_unique hlinked' hlinked
  rw [State.Counted, hcount, hnodes] at hcounted
  exact absurd hcounted (by decide)

end Linkage

end Costream.Sync
