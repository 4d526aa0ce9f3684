import Costream.TsQueue.Refine
import Costream.TsQueue.Sections

/-!
# A `TSQueue` and its threads

Any number of threads call the functions of queues that have one lock, as those of a processor do.
Some functions look at `head_` and `tail_` before they ask for the lock, and return if the queue is
empty; another thread may be in the middle of its section then.

What is returned by value goes to a list of the caller; `mine` says whose the lists are.

* `refines_sequences`: to a look of the others a section is one step, since it stores `tail_`
  once.
* `queues_linearizable` is the result: the calls are operations on sequences.
-/

namespace Costream.TsQueue

open Costream.Lists Costream.Locked Costream.Trace

variable {T P : Type} [DecidableEq T] {mine : Nat → P} {p : P} {s t : State T} {q i n : Nat}

/-! ## The object -/

/-- The lists of a call are the caller's own, and what is returned is constructed where nothing
is. -/
def Call.ready (mine : Nat → P) (p : P) : Call T → State T → Prop
  | .pushList _ i, _ => mine i = p
  | .popFront _ n i, s => (mine i = p ∧ s.lists i = .empty) ∧ 1 ≤ n
  | .popBack _ n i, s => (mine i = p ∧ s.lists i = .empty) ∧ 1 ≤ n
  | .popAll _ i, s => mine i = p ∧ s.lists i = .empty
  | _, _ => True

deriving instance DecidableEq for SList
deriving instance DecidableEq for Result

/-- The queues of one lock. -/
def object (mine : Nat → P) : Object P (State T) (Call T) (Result T) where
  ready := Call.ready mine
  look := Call.look
  body := Call.code

instance [DecidableEq P] (p : P) (c : Call T) (s : State T) :
    Decidable ((object mine).ready p c s) :=
  match c with
  | .pushList .. => inferInstanceAs (Decidable (_ = _))
  | .popFront .. | .popBack .. => inferInstanceAs (Decidable ((_ ∧ _) ∧ _))
  | .popAll .. => inferInstanceAs (Decidable (_ ∧ _))
  | .push .. | .pop .. | .erase .. | .front .. | .next .. => .isTrue trivial

/-- The operations on sequences. -/
def sequences : Spec (Sequences T) (Call T) (Result T) where
  legal a c := a.Legal c.op
  apply a c := a.apply c.op

/-- The containers are those sequences. -/
structure Stands (s : State T) (a : Sequences T) : Prop where
  rep : Rep s a
  returned : a.contents .returned = []

/-! ## What the others see of a write -/

omit [DecidableEq T] in
theorem ready_congr {p : P} (c : Call T) (h : ∀ i, mine i = p → t.lists i = s.lists i) :
    c.ready mine p t ↔ c.ready mine p s := by
  have hlist : ∀ i, mine i = p ∧ t.lists i = .empty ↔ mine i = p ∧ s.lists i = .empty :=
    fun i => and_congr_right fun hi => by rw [h i hi]
  cases c with
  | popFront q n i => exact and_congr_left' (hlist i)
  | popBack q n i => exact and_congr_left' (hlist i)
  | popAll q i => exact hlist i
  | _ => exact Iff.rfl

theorem look_congr {p : P} {c : Call T} (hempty : ∀ q, t.isEmpty q = s.isEmpty q)
    (h : ∀ i, mine i = p → t.lists i = s.lists i) (hready : c.ready mine p s) :
    c.look t = c.look s := by
  cases c with
  | pushList q i =>
    have hi : mine i = p := hready
    simp only [Call.look, h i hi]
  | pop q => simp only [Call.look, hempty q]
  | popFront q n i => simp only [Call.look, hempty q]
  | popBack q n i => simp only [Call.look, hempty q]
  | popAll q i => simp only [Call.look, hempty q]
  | _ => rfl

theorem kept_of (h : ∀ i, mine i ≠ p → t.lists i = s.lists i) : (object mine).Kept p s t :=
  fun _ hq c => ready_congr c fun i hi => h i fun hp => hq (hi.symm.trans hp)

theorem same_of (hempty : ∀ q, t.isEmpty q = s.isEmpty q)
    (h : ∀ i, mine i ≠ p → t.lists i = s.lists i) : (object mine).Same p s t where
  kept := kept_of h
  unseen _ hq _ hready := look_congr hempty (fun i hi => h i fun hp => hq (hi.symm.trans hp)) hready

section Writes

variable (mine p s)

theorem same_setNext (h : Hook T) (v : Option (Hook T)) : (object mine).Same p s (s.setNext h v) :=
  same_of (fun _ => rfl) fun _ _ => rfl

theorem same_setPrev (h : Hook T) (v : Option (Hook T)) : (object mine).Same p s (s.setPrev h v) :=
  same_of (fun _ => rfl) fun _ _ => rfl

theorem same_setPrevIf (h v : Option (Hook T)) : (object mine).Same p s (s.setPrevIf h v) :=
  same_of (fun _ => rfl) fun _ _ => rfl

theorem same_setCheck (h : Hook T) (c : Option Nat) : (object mine).Same p s (s.setCheck h c) :=
  same_of (fun _ => rfl) fun _ _ => rfl

theorem same_setCount (q count : Nat) : (object mine).Same p s (s.setCount q count) := by
  refine same_of (fun r => ?_) fun _ _ => rfl
  unfold State.isEmpty State.setCount
  by_cases hr : r = q
  · rw [hr, State.setQueue_queues]
  · show decide ((Function.update s.queues q _ r).head = (Function.update s.queues q _ r).tail) = _
    rw [Function.update_of_ne hr]

theorem same_setList {i : Nat} (hi : mine i = p) (list : SList T) :
    (object mine).Same p s (s.setList i list) := by
  refine same_of (fun _ => rfl) fun j hj => ?_
  have hne : j ≠ i := fun heq => hj (heq ▸ hi)
  rw [State.setList_lists, Function.update_of_ne hne]

theorem kept_setTail (q : Nat) (tail : Hook T) : (object mine).Kept p s (s.setTail q tail) :=
  kept_of fun _ _ => rfl

/-- `if (ptr == tail_) tail_ = head_`. -/
theorem kept_setTail_if (q : Nat) (ptr : Hook T) :
    (object mine).Kept p s
      (if ptr = (s.queues q).tail then s.setTail q (s.queues q).head else s) := by
  by_cases hptr : ptr = (s.queues q).tail
  · rw [if_pos hptr]
    exact kept_setTail mine p s q _
  · rw [if_neg hptr]
    exact (Object.Same.refl (object mine) p s).kept

end Writes

/-! ## A section stores `tail_` once -/

/-- The code has one write that the others can see. -/
def OneWrite (mine : Nat → P) (p : P) (k : Section.Code T) : Prop :=
  ∀ s, k.Once ((object mine).Same p) ((object mine).Kept p) s

/-- The code has none. -/
def NoWrite (mine : Nat → P) (p : P) (k : Section.Code T) : Prop :=
  ∀ s, k.Steady ((object mine).Same p) s

namespace Section

variable {hook h theNext : Hook T} {k : Code T}

theorem noWrite_detach (hk : NoWrite mine p k) : NoWrite mine p (detach hook k) := by
  intro s
  unfold detach
  apply Locked.Code.Steady.write (same_setNext ..)
  apply Locked.Code.Steady.write (same_setPrev ..)
  exact hk _

theorem noWrite_construct (hi : mine i = p) (list : SList T) :
    NoWrite mine p (construct i list) := by
  intro s
  unfold construct
  apply Locked.Code.Steady.write (same_setList mine p s hi list)
  trivial

theorem oneWrite_link (hk : OneWrite mine p k) : OneWrite mine p (link h theNext k) := by
  intro s
  unfold link
  apply Locked.Code.Once.assert
  apply Locked.Code.Once.assert
  apply Locked.Code.Once.write (same_setNext ..)
  apply Locked.Code.Once.write (same_setPrev ..)
  exact hk _

theorem oneWrite_push : OneWrite mine p (push q hook) := by
  intro s
  unfold push
  apply Locked.Code.Once.assert
  apply Locked.Code.Once.assert
  refine oneWrite_link (fun s => ?_) s
  apply Locked.Code.Once.last (kept_setTail mine p _ q _)
  apply Locked.Code.Steady.write (same_setNext ..)
  apply Locked.Code.Steady.write (same_setCheck ..)
  apply Locked.Code.Steady.write (same_setCount ..)
  trivial

theorem oneWrite_pushList (hi : mine i = p) : OneWrite mine p (pushList q i : Code T) := by
  intro s
  apply Locked.Code.Once.read
  apply Locked.Code.Once.ite
  · trivial
  · apply Locked.Code.Once.get
    intro head
    apply Locked.Code.Once.get
    intro tail
    apply Locked.Code.Once.assert
    apply Locked.Code.Once.assert
    apply Locked.Code.Once.write (same_setCount ..)
    refine oneWrite_link (fun s => ?_) _
    apply Locked.Code.Once.last (kept_setTail mine p _ q _)
    apply Locked.Code.Steady.write (same_setList mine p _ hi _)
    trivial

theorem oneWrite_pop : OneWrite mine p (pop q : Code T) := by
  intro s
  apply Locked.Code.Once.read
  apply Locked.Code.Once.ite
  · trivial
  · apply Locked.Code.Once.get
    intro ptr
    apply Locked.Code.Once.last (kept_setTail_if mine p _ q _)
    apply Locked.Code.Steady.write (same_setNext ..)
    apply Locked.Code.Steady.write (same_setPrevIf ..)
    refine noWrite_detach (fun s => ?_) _
    apply Locked.Code.Steady.write (same_setCheck ..)
    apply Locked.Code.Steady.write (same_setCount ..)
    trivial

theorem once_walkFront {last : Hook T} {c : Nat} {k : Hook T → Nat → Code T}
    (hk : ∀ last c, OneWrite mine p (k last c)) : OneWrite mine p (walkFront last c k n) := by
  intro s
  induction n generalizing last c with
  | zero => exact hk last c s
  | succ n ih =>
    unfold walkFront
    apply Locked.Code.Once.read
    cases s.next last with
    | none => exact hk last c s
    | some next => exact ih

theorem once_walkBack {head first : Hook T} {c : Nat} {k : Hook T → Nat → Code T}
    (hk : ∀ first c, OneWrite mine p (k first c)) :
    OneWrite mine p (walkBack head first c k n) := by
  intro s
  induction n generalizing first c with
  | zero => exact hk first c s
  | succ n ih =>
    apply Locked.Code.Once.read
    apply Locked.Code.Once.ite
    · exact hk first c s
    · apply Locked.Code.Once.get
      intro prev
      exact ih

theorem oneWrite_popFront (hi : mine i = p) : OneWrite mine p (popFront q n i : Code T) := by
  intro s
  apply Locked.Code.Once.read
  apply Locked.Code.Once.ite
  · exact (noWrite_construct hi .empty s).once
  · apply Locked.Code.Once.get
    intro first
    refine once_walkFront (fun last c s => ?_) s
    apply Locked.Code.Once.last (kept_setTail_if mine p _ q _)
    apply Locked.Code.Steady.write (same_setNext ..)
    apply Locked.Code.Steady.write (same_setPrevIf ..)
    apply Locked.Code.Steady.write (same_setNext ..)
    apply Locked.Code.Steady.write (same_setPrev ..)
    apply Locked.Code.Steady.write (same_setCount ..)
    exact noWrite_construct hi _ _

theorem oneWrite_popBack (hi : mine i = p) : OneWrite mine p (popBack q n i : Code T) := by
  intro s
  apply Locked.Code.Once.read
  apply Locked.Code.Once.ite
  · exact (noWrite_construct hi .empty s).once
  · refine once_walkBack (fun first c s => ?_) s
    apply Locked.Code.Once.get
    intro tail
    apply Locked.Code.Once.last (kept_setTail mine p _ q _)
    apply Locked.Code.Steady.write (same_setNext ..)
    apply Locked.Code.Steady.write (same_setPrev ..)
    apply Locked.Code.Steady.write (same_setCount ..)
    exact noWrite_construct hi _ _

theorem oneWrite_popAll (hi : mine i = p) : OneWrite mine p (popAll q i : Code T) := by
  intro s
  apply Locked.Code.Once.read
  apply Locked.Code.Once.ite
  · exact (noWrite_construct hi .empty s).once
  · apply Locked.Code.Once.get
    intro first
    apply Locked.Code.Once.read
    apply Locked.Code.Once.last (kept_setTail mine p _ q _)
    apply Locked.Code.Steady.write (same_setNext ..)
    apply Locked.Code.Steady.write (same_setNext ..)
    apply Locked.Code.Steady.write (same_setPrev ..)
    apply Locked.Code.Steady.write (same_setCount ..)
    exact noWrite_construct hi _ _

theorem noWrite_eraseRest : NoWrite mine p (eraseRest q hook) := by
  refine noWrite_detach fun s => ?_
  apply Locked.Code.Steady.write (same_setCheck ..)
  apply Locked.Code.Steady.assert
  apply Locked.Code.Steady.write (same_setCount ..)
  trivial

theorem oneWrite_eraseTail : OneWrite mine p (eraseTail q hook) := by
  intro s
  apply Locked.Code.Once.read
  apply Locked.Code.Once.ite
  · apply Locked.Code.Once.get
    intro tail
    exact .last (kept_setTail mine p _ q _) (noWrite_eraseRest _)
  · exact (noWrite_eraseRest s).once

theorem oneWrite_erase (check : Bool) : OneWrite mine p (erase q hook check) := by
  intro s
  apply Locked.Code.Once.read
  apply Locked.Code.Once.ite
  · trivial
  · apply Locked.Code.Once.get
    intro prev
    apply Locked.Code.Once.assert
    apply Locked.Code.Once.write (same_setNext ..)
    apply Locked.Code.Once.write (same_setPrevIf ..)
    exact oneWrite_eraseTail _

theorem oneWrite_tagNext (ptr : State T → Hook T) : OneWrite mine p (tagNext q ptr) := by
  intro s
  unfold tagNext
  apply Locked.Code.Once.read
  cases s.next (ptr s) with
  | some out => exact .write (same_setCheck ..) trivial
  | none => trivial

end Section

theorem Call.oneWrite {c : Call T} (h : c.ready mine p s) : OneWrite mine p c.code := by
  cases c with
  | push q x => exact Section.oneWrite_push
  | pushList q i => exact Section.oneWrite_pushList h
  | pop q => exact Section.oneWrite_pop
  | popFront q n i => exact Section.oneWrite_popFront h.1.1
  | popBack q n i => exact Section.oneWrite_popBack h.1.1
  | popAll q i => exact Section.oneWrite_popAll h.1
  | erase q x check => exact Section.oneWrite_erase check
  | front q => exact Section.oneWrite_tagNext _
  | next q x => exact Section.oneWrite_tagNext _

/-! ## The specification is met -/

theorem Rep.isEmpty_iff {a : Sequences T} (h : Rep s a) (q : Nat) :
    s.isEmpty q = true ↔ a.contents (.queue q) = [] := by
  unfold State.isEmpty
  rw [decide_eq_true_iff, h.queues q]
  exact TSQueue.head_eq_tail q _

omit [DecidableEq T] in
theorem SList.of_eq_empty {xs : List T} (h : SList.of xs = .empty) : xs = [] :=
  List.length_eq_zero_iff.1 (congrArg SList.count h)

omit [DecidableEq T] in
theorem Call.target_empty {c : Call T} (h : c.ready mine p s) (hi : c.target = some i) :
    s.lists i = .empty := by
  cases c with
  | popFront q n j =>
    cases hi
    exact h.1.2
  | popBack q n j =>
    cases hi
    exact h.1.2
  | popAll q j =>
    cases hi
    exact h.2
  | _ => cases hi

/-- A look that finds nothing to do has done what there was to do. -/
theorem look_answers {c : Call T} {a : Sequences T} {r : Result T} (h : Rep s a)
    (hready : c.ready mine p s) (hlook : c.look s = some r) :
    a.Legal c.op ∧ a.apply c.op = (a, r) := by
  have hempty : ∀ {q r'}, (if s.isEmpty q then some r' else none) = some r →
      r' = r ∧ a.contents (.queue q) = [] := by
    intro q r' hite
    obtain ⟨hq, hr⟩ := Option.ite_none_right_eq_some.1 hite
    exact ⟨Option.some.inj hr, (h.isEmpty_iff q).1 hq⟩
  have hlist : ∀ {i}, s.lists i = .empty → a.contents (.list i) = [] := fun {i} hi =>
    SList.of_eq_empty ((h.lists i).symm.trans hi)
  cases c with
  | pushList q i =>
    obtain ⟨hi, hr⟩ := Option.ite_none_right_eq_some.1 hlook
    cases hr
    refine ⟨trivial, Prod.ext (a.join_nil ?_) rfl⟩
    rw [h.lists i] at hi
    simpa [SList.of] using hi
  | pop q =>
    obtain ⟨rfl, hq⟩ := hempty hlook
    refine ⟨trivial, ?_⟩
    simp only [Call.op, Sequences.apply, Sequences.pop, hq]
  | popFront q n i =>
    obtain ⟨rfl, hq⟩ := hempty hlook
    refine ⟨hready.2, Prod.ext (a.divide_self ?_ ?_) rfl⟩
    · rw [hq, List.drop_nil]
    · rw [hq, List.take_nil]
      exact hlist hready.1.2
  | popBack q n i =>
    obtain ⟨rfl, hq⟩ := hempty hlook
    refine ⟨hready.2, Prod.ext (a.divide_self ?_ ?_) rfl⟩
    · rw [hq, List.take_nil]
    · rw [hq, List.drop_nil]
      exact hlist hready.1.2
  | popAll q i =>
    obtain ⟨rfl, hq⟩ := hempty hlook
    refine ⟨trivial, Prod.ext (a.divide_self hq ?_) rfl⟩
    rw [hq]
    exact hlist hready.2
  | _ => cases hlook

theorem refines_sequences (mine : Nat → P) :
    Refines (object mine : Object P (State T) (Call T) (Result T)) sequences Stands where
  look h hready hlook := look_answers h.rep hready hlook
  run {p c s a} h hready hlegal := by
    obtain ⟨t, ht, hrep⟩ := h.rep.apply h.returned hlegal
    refine ⟨t, ?_, hrep, ?_⟩
    · show c.code.run s = _
      rw [c.run_code s fun i hi => Call.target_empty hready hi]
      exact ht
    · show (a.apply c.op).1.contents .returned = []
      rw [a.returned_apply, h.returned]
  once hready := Call.oneWrite hready _

/-- Any number of threads call the functions of the queues in any order, with their accesses
interleaved: the calls and returns are those of a run in which every call is an operation on
sequences, done at once somewhere between its call and its return.  No assertion fails and no null
pointer is read; and whenever the lock is free the links, the ends and the counts are those of the
sequences. -/
theorem queues_linearizable [DecidableEq P] {mine : Nat → P}
    {s : Locked.State P (State T) (Call T) (Result T)}
    (hrun : Run (machine (object mine)) (Lawful sequences Stands) (.initial .initial) s) :
    ∃ t : Spec.State P (Sequences T) (Call T) (Result T),
      Run sequences.machine anyAction (.initial .initial) t ∧ t.history = s.history ∧
        (s.flag = false → Rep s.shared t.value) ∧
        ∀ a, (machine (object mine)).enabled s a → Lawful sequences Stands s a →
          (machine (object mine)).step s a ≠ none := by
  obtain ⟨t, ht, hhistory, hrep, hsafe⟩ :=
    (refines_sequences mine).linearizable (a := Sequences.initial) ⟨Rep.initial, rfl⟩ hrun
  exact ⟨t, ht, hhistory, fun hflag => (hrep hflag).rep, hsafe⟩

omit [DecidableEq T] in
/-- Nothing is in a container at first. -/
theorem absent_initial {a : Sequences T} (h : Stands State.initial a) (x : T) :
    Absent a.contents x := by
  intro c
  have hempty : a.contents c = [] := by
    cases c with
    | queue q => exact List.length_eq_zero_iff.1 (congrArg TSQueue.count (h.rep.queues q).symm)
    | list i => exact SList.of_eq_empty (h.rep.lists i).symm
    | returned => exact h.returned
  rw [hempty]
  exact List.not_mem_nil

/-- A thread pushes an element.  Another one looks for it before `tail_` is stored, and gets
nothing; then it waits for the lock, and has the element before `push` has returned. -/
theorem queues_linearizable_overtaken :
    ∃ (s : Locked.State Bool (State Nat) (Call Nat) (Result Nat))
      (t : Spec.State Bool (Sequences Nat) (Call Nat) (Result Nat)),
      Run (machine (object fun _ => true)) (Lawful sequences Stands) (.initial .initial) s ∧
      s.history = [.call false (.push 0 5), .call true (.pop 0), .ret true (.pointer none),
        .call true (.pop 0), .ret true (.pointer (some (.element 5)))] ∧
      Run sequences.machine anyAction (.initial .initial) t ∧ t.history = s.history := by
  obtain ⟨s₁, hentered, hexec⟩ : ∃ s₁ : Locked.State Bool (State Nat) (Call Nat) (Result Nat),
      Run (machine (object fun _ => true)) (Lawful sequences Stands) (.initial State.initial) s₁ ∧
      ((machine (object (T := Nat) fun _ => true)).exec
        (fun s a => ∀ c ∈ s.gets a, c = Call.pop 0) s₁
        (List.replicate 7 (.thread false) ++ [.call true (.pop 0), .thread true, .ret true] ++
          [.thread false] ++ [.call true (.pop 0), .thread true, .thread true] ++
          List.replicate 5 (.thread false) ++ List.replicate 11 (.thread true) ++
          [.ret true])).any (fun s => s.history = [.call false (.push 0 5), .call true (.pop 0),
            .ret true (.pointer none), .call true (.pop 0),
            .ret true (.pointer (some (.element 5)))]) = true := by
    refine ⟨_, .tail (.tail (.tail .refl (a := .call false (.push 0 5)) ⟨rfl, trivial⟩ ?_ rfl)
      (a := .thread false) rfl ?_ rfl) (a := .thread false) rfl ?_ rfl, ?_⟩
    · intro c hc
      cases hc
    · intro c hc
      cases hc
    · intro c hc a ha
      cases hc
      exact absent_initial ha 5
    · decide +kernel
  obtain ⟨s, hrun, hs⟩ := Run.exists_of_exec hexec
  have hrun' := hentered.trans <| hrun.mono fun s a hok c hc v hv => by
    cases hok c hc
    trivial
  obtain ⟨t, ht, hhistory, -⟩ := queues_linearizable hrun'
  exact ⟨s, t, hrun', of_decide_eq_true hs, ht, hhistory⟩

end Costream.TsQueue
