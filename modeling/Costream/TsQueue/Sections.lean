import Costream.Locked
import Costream.TsQueue.Containers

/-!
# The locked sections of `TSQueue`

What each function of a `TSQueue` does between `lock` and `unlock`, one access after another.
Before that some of them look, without the lock, whether there is anything to do.

What is returned by value is constructed in a list of the caller that holds nothing, before the lock
is given back.

* `Call.run_code`: a section that nobody disturbs does what the function does.
-/

namespace Costream.TsQueue

open Costream.Locked

variable {T : Type} [DecidableEq T]

/-- A call of a `TSQueue`. -/
inductive Call (T : Type) where
  | push (q : Nat) (x : T)
  | pushList (q i : Nat)
  | pop (q : Nat)
  | popFront (q n i : Nat)
  | popBack (q n i : Nat)
  | popAll (q i : Nat)
  | erase (q : Nat) (x : T) (check : Bool)
  | front (q : Nat)
  | next (q : Nat) (x : T)
deriving DecidableEq

/-! ## Accesses -/

namespace State

variable (s : State T) (q i : Nat)

/-- `head_ == tail_`. -/
def isEmpty : Bool := (s.queues q).head = (s.queues q).tail

def setTail (tail : Hook T) : State T := s.setQueue q { s.queues q with tail := tail }

def setCount (count : Nat) : State T := s.setQueue q { s.queues q with count := count }

end State

/-! ## Sections -/

namespace Section

/-- What runs under the lock of a queue. -/
abbrev Code (T : Type) := Locked.Code (State T) (Result T)

/-- `link`. -/
def link (h theNext : Hook T) (k : Code T) : Code T :=
  .assert (fun s => s.next h = none) <|
  .assert (fun s => s.prev theNext = none) <|
  .write (·.setNext h (some theNext)) <|
  .write (·.setPrev theNext (some h)) k

/-- `pushWithoutLock(T*)`. -/
def push (q : Nat) (hook : Hook T) : Code T :=
  .assert (fun s => s.next hook = none) <|
  .assert (fun s => s.prev hook = none) <|
  .read fun s => link (s.queues q).tail hook <|
  .write (·.setTail q hook) <|
  .write (·.setNext hook none) <|
  .write (·.setCheck hook (some q)) <|
  .write (fun s => s.setCount q ((s.queues q).count + 1)) <|
  .read fun s => .ret (.size (s.queues q).count)

/-- `pushWithoutLock(SList&&)`. -/
def pushList (q i : Nat) : Code T :=
  .read fun s =>
    if (s.lists i).head = none then .ret .done
    else
      .get (fun s => (s.lists i).head) fun head =>
      .get (fun s => (s.lists i).tail) fun tail =>
      .assert (fun s => s.prev head = none) <|
      .assert (fun s => s.next tail = none) <|
      .write (fun s => s.setCount q ((s.queues q).count + (s.lists i).count)) <|
      .read fun s => link (s.queues q).tail head <|
      .write (·.setTail q tail) <|
      .write (·.setList i .empty) <|
      .ret .done

/-- `ptr->prev = ptr->next = nullptr`. -/
def detach (ptr : Hook T) (k : Code T) : Code T :=
  .write (·.setNext ptr none) <|
  .write (·.setPrev ptr none) k

/-- `pop`. -/
def pop (q : Nat) : Code T :=
  .read fun s =>
    if s.isEmpty q then .ret (.pointer none)
    else
      .get (fun s => s.next (s.queues q).head) fun ptr =>
      .write (fun s => if ptr = (s.queues q).tail then s.setTail q (s.queues q).head else s) <|
      .write (fun s => s.setNext (s.queues q).head (s.next ptr)) <|
      .write (fun s => s.setPrevIf (s.next ptr) (some (s.queues q).head)) <|
      detach ptr <|
      .write (·.setCheck ptr none) <|
      .write (fun s => s.setCount q ((s.queues q).count - 1)) <|
      .ret (.pointer (some ptr))

/-- `return SList<T>(..)`. -/
def construct (i : Nat) (list : SList T) : Code T :=
  .write (·.setList i list) <|
  .ret .done

/-- The loop of `pop_front`. -/
def walkFront (last : Hook T) (c : Nat) (k : Hook T → Nat → Code T) : Nat → Code T
  | 0 => k last c
  | n + 1 =>
    .read fun s =>
      match s.next last with
      | none => k last c
      | some next => walkFront next (c + 1) k n

/-- `pop_front`. -/
def popFront (q n i : Nat) : Code T :=
  .read fun s =>
    if s.isEmpty q then construct i .empty
    else
      .get (fun s => s.next (s.queues q).head) fun first =>
      walkFront first 1 (fun last c =>
        .write (fun s => if last = (s.queues q).tail then s.setTail q (s.queues q).head else s) <|
        .write (fun s => s.setNext (s.queues q).head (s.next last)) <|
        .write (fun s => s.setPrevIf (s.next last) (some (s.queues q).head)) <|
        .write (·.setNext last none) <|
        .write (·.setPrev first none) <|
        .write (fun s => s.setCount q ((s.queues q).count - c)) <|
        construct i ⟨some first, some last, c⟩) (n - 1)

/-- The loop of `pop_back`. -/
def walkBack (head first : Hook T) (c : Nat) (k : Hook T → Nat → Code T) : Nat → Code T
  | 0 => k first c
  | n + 1 =>
    .read fun s =>
      if s.prev first = some head then k first c
      else .get (fun s => s.prev first) fun prev => walkBack head prev (c + 1) k n

/-- `pop_backWithoutLock`. -/
def popBack (q n i : Nat) : Code T :=
  .read fun s =>
    if s.isEmpty q then construct i .empty
    else
      .read fun s =>
      walkBack (s.queues q).head (s.queues q).tail 1 (fun first c =>
        .get (fun s => s.prev first) fun tail =>
        .write (·.setTail q tail) <|
        .write (·.setNext tail none) <|
        .write (·.setPrev first none) <|
        .write (fun s => s.setCount q ((s.queues q).count - c)) <|
        construct i ⟨some first, some (s.queues q).tail, c⟩) (n - 1)

/-- `pop_allWithoutLock`. -/
def popAll (q i : Nat) : Code T :=
  .read fun s =>
    if s.isEmpty q then construct i .empty
    else
      .get (fun s => s.next (s.queues q).head) fun first =>
      .read fun s =>
      .write (fun s => s.setTail q (s.queues q).head) <|
      .write (fun s => s.setNext (s.queues q).head none) <|
      .write (·.setNext (s.queues q).tail none) <|
      .write (·.setPrev first none) <|
      .write (·.setCount q 0) <|
      construct i ⟨some first, some (s.queues q).tail, (s.queues q).count⟩

/-- The end of `eraseWithoutLock`. -/
def eraseRest (q : Nat) (hook : Hook T) : Code T :=
  detach hook <|
  .write (·.setCheck hook none) <|
  .assert (fun s => 0 < (s.queues q).count) <|
  .write (fun s => s.setCount q ((s.queues q).count - 1)) <|
  .ret (.flag true)

/-- `else if (hook == tail_) tail_ = tail_->prev`, and what comes behind it. -/
def eraseTail (q : Nat) (hook : Hook T) : Code T :=
  .read fun s =>
    if s.next hook = none ∧ hook = (s.queues q).tail then
      .get (fun s => s.prev (s.queues q).tail) fun tail =>
      .write (·.setTail q tail) <|
      eraseRest q hook
    else eraseRest q hook

/-- `eraseWithoutLock`. -/
def erase (q : Nat) (hook : Hook T) (check : Bool) : Code T :=
  .read fun s =>
    if check = true ∧ s.check hook ≠ some q then .ret (.flag false)
    else
      .get (fun s => s.prev hook) fun prev =>
      .assert (fun s => hook = (s.queues q).tail ∨ s.next hook ≠ none) <|
      .write (fun s => s.setNext prev (s.next hook)) <|
      .write (fun s => s.setPrevIf (s.next hook) (some prev)) <|
      eraseTail q hook

/-- `front` and `nextWithoutLock`: the element behind a hook gets the tag of the queue. -/
def tagNext (q : Nat) (ptr : State T → Hook T) : Code T :=
  .read fun s =>
    match s.next (ptr s) with
    | some out =>
      .write (·.setCheck out (some q)) <|
      .ret (.pointer (some out))
    | none => .ret (.pointer none)

end Section

namespace Call

/-- The function that is called. -/
def op : Call T → Op T
  | .push q x => .push q x
  | .pushList q i => .pushList q i
  | .pop q => .pop q
  | .popFront q n i => .popFront q n i
  | .popBack q n i => .popBack q n i
  | .popAll q i => .popAll q i
  | .erase q x check => .erase q x check
  | .front q => .front q
  | .next q x => .next q x

/-- What it does under the lock. -/
def code : Call T → Section.Code T
  | .push q x => Section.push q (.element x)
  | .pushList q i => Section.pushList q i
  | .pop q => Section.pop q
  | .popFront q n i => Section.popFront q n i
  | .popBack q n i => Section.popBack q n i
  | .popAll q i => Section.popAll q i
  | .erase q x check => Section.erase q (.element x) check
  | .front q => Section.tagNext q fun s => (s.queues q).head
  | .next q x => Section.tagNext q fun _ => .element x

/-- What it returns when it finds nothing to do before it asks for the lock. -/
def look : Call T → State T → Option (Result T)
  | .pop q, s => if s.isEmpty q then some (.pointer none) else none
  | .popFront q _ _, s => if s.isEmpty q then some .done else none
  | .popBack q _ _, s => if s.isEmpty q then some .done else none
  | .popAll q _, s => if s.isEmpty q then some .done else none
  | .pushList _ i, s => if (s.lists i).head = none then some .done else none
  | _, _ => none

/-- The list that what it returns is constructed in. -/
def target : Call T → Option Nat
  | .popFront _ _ i => some i
  | .popBack _ _ i => some i
  | .popAll _ i => some i
  | _ => none

end Call

/-! ## A section that nobody disturbs -/

section Fields

omit [DecidableEq T]

variable (s : State T) (q i : Nat) (queue queue' : TSQueue T) (list : SList T)

@[simp] theorem State.setQueue_queues : (s.setQueue q queue).queues q = queue :=
  Function.update_self ..
@[simp] theorem State.setQueue_check : (s.setQueue q queue).check = s.check := rfl
@[simp] theorem State.setQueue_lists : (s.setQueue q queue).lists = s.lists := rfl
@[simp] theorem State.setList_queues : (s.setList i list).queues = s.queues := rfl

/-! A queue's own members are stored to last. -/

@[simp] theorem State.setQueue_setQueue :
    (s.setQueue q queue).setQueue q queue' = s.setQueue q queue' := by
  unfold setQueue
  rw [Function.update_idem]

@[simp] theorem State.setQueue_setList :
    (s.setQueue q queue).setList i list = (s.setList i list).setQueue q queue := rfl

end Fields

namespace State

section Fields

variable (s : State T) (q : Nat) (queue : TSQueue T) (h : Hook T) (v o : Option (Hook T))
  (c : Option Nat)

@[simp] theorem setNext_queues : (s.setNext h v).queues = s.queues := rfl
@[simp] theorem setNext_check : (s.setNext h v).check = s.check := rfl
@[simp] theorem setPrev_queues : (s.setPrev h v).queues = s.queues := rfl
@[simp] theorem setPrev_check : (s.setPrev h v).check = s.check := rfl
@[simp] theorem setPrevIf_queues : (s.setPrevIf o v).queues = s.queues := rfl
@[simp] theorem setPrevIf_check : (s.setPrevIf o v).check = s.check := rfl
@[simp] theorem setPrevIf_lists : (s.setPrevIf o v).lists = s.lists := rfl
@[simp] theorem setCheck_queues : (s.setCheck h c).queues = s.queues := rfl
@[simp] theorem setCheck_next : (s.setCheck h c).next = s.next := rfl
@[simp] theorem setCheck_prev : (s.setCheck h c).prev = s.prev := rfl
@[simp] theorem setCheck_lists : (s.setCheck h c).lists = s.lists := rfl

@[simp] theorem setQueue_setNext :
    (s.setQueue q queue).setNext h v = (s.setNext h v).setQueue q queue := rfl
@[simp] theorem setQueue_setPrev :
    (s.setQueue q queue).setPrev h v = (s.setPrev h v).setQueue q queue := rfl
@[simp] theorem setQueue_setPrevIf :
    (s.setQueue q queue).setPrevIf o v = (s.setPrevIf o v).setQueue q queue := rfl
@[simp] theorem setQueue_setCheck :
    (s.setQueue q queue).setCheck h c = (s.setCheck h c).setQueue q queue := rfl

end Fields

end State

/-- A link that is read again after the store of its own value. -/
theorem update_read {α β : Type*} [DecidableEq α] (f : α → β) (a b : α) :
    Function.update f a (f b) b = f b := by
  by_cases h : b = a
  · rw [h, Function.update_self]
  · rw [Function.update_of_ne h]

variable (s : State T) (q i n : Nat)

/-- A list that holds nothing is only stored to. -/
theorem assign_empty {list : SList T} (h : s.lists i = .empty) :
    s.assign i list = some (s.setList i list) := by
  unfold State.assign State.clear
  rw [h]
  show some ((s.setList i .empty).setList i list) = _
  simp [State.setList, Function.update_idem]

theorem link_eq {s t : State T} {h theNext : Hook T} (hlink : s.link h theNext = some t) :
    t = (s.setNext h (some theNext)).setPrev theNext (some h) := by
  unfold State.link at hlink
  by_cases hn : s.next h = none <;> by_cases hp : s.prev theNext = none <;>
    simp [hn, hp] at hlink
  exact hlink.symm

theorem link_setQueue (queue : TSQueue T) (h theNext : Hook T) :
    (s.setQueue q queue).link h theNext = (s.link h theNext).map (·.setQueue q queue) := by
  unfold State.link
  by_cases hn : s.next h = none <;> by_cases hp : s.prev theNext = none <;> simp [hn, hp]

namespace Section

theorem run_link (h theNext : Hook T) (k : Code T) :
    (link h theNext k).run s = (s.link h theNext).bind k.run := by
  unfold link State.link
  by_cases hn : s.next h = none <;> by_cases hp : s.prev theNext = none <;>
    simp [hn, hp]

theorem run_push (hook : Hook T) :
    (push q hook).run s = (s.push q hook).map fun r => (r.1, .size r.2) := by
  unfold push State.push
  by_cases hn : s.next hook = none <;> by_cases hp : s.prev hook = none <;>
    simp [hn, hp, run_link, State.setTail, State.setCount]
  cases hlink : s.link (s.queues q).tail hook with
  | none => rfl
  | some t =>
    rw [link_eq hlink]
    simp

theorem run_pop : (pop q).run s = (s.pop q).map fun r => (r.1, .pointer r.2) := by
  unfold pop State.pop State.isEmpty
  by_cases hempty : (s.queues q).head = (s.queues q).tail
  · simp [hempty]
  · cases hptr : s.next (s.queues q).head with
    | none => simp [hempty, hptr]
    | some ptr =>
      by_cases htail : ptr = (s.queues q).tail <;>
        simp [hempty, hptr, htail, detach, State.setTail,
          State.setCount, update_read]

theorem run_pushList :
    (pushList q i).run s = (s.pushList q i).map fun t => (t, .done) := by
  unfold pushList State.pushList
  cases hhead : (s.lists i).head with
  | none => simp [hhead]
  | some head =>
    cases htail : (s.lists i).tail with
    | none => simp [hhead, htail]
    | some tail =>
      by_cases hp : s.prev head = none <;> by_cases hn : s.next tail = none <;>
        simp [hhead, htail, hp, hn, run_link,
          link_setQueue, State.setTail, State.setCount]
      cases hlink : s.link (s.queues q).tail head with
      | none => rfl
      | some t =>
        rw [link_eq hlink]
        simp

omit [DecidableEq T] in
theorem run_construct (list : SList T) :
    (construct i list).run s = some (s.setList i list, .done) := rfl

omit [DecidableEq T] in
theorem run_walkFront (last : Hook T) (c : Nat) (k : Hook T → Nat → Code T) :
    (walkFront last c k n).run s =
      (k (s.walkFront last c n).1 (s.walkFront last c n).2).run s := by
  induction n generalizing last c with
  | zero => rfl
  | succ n ih =>
    unfold walkFront State.walkFront
    cases hnext : s.next last with
    | none => simp [Locked.Code.run, hnext]
    | some next =>
      simp [Locked.Code.run, hnext]
      exact ih next (c + 1)

theorem run_popFront (h : s.lists i = .empty) :
    (popFront q n i).run s =
      ((s.popFront q n).bind fun r => r.1.assign i r.2).map fun t => (t, .done) := by
  unfold popFront State.popFront State.isEmpty
  by_cases hempty : (s.queues q).head = (s.queues q).tail
  · simp [hempty, run_construct, assign_empty s i h]
  · cases hfirst : s.next (s.queues q).head with
    | none => simp [hempty, hfirst]
    | some first =>
      cases hwalk : s.walkFront first 1 (n - 1) with
      | mk last c =>
        by_cases htail : last = (s.queues q).tail <;>
          simp [hempty, hfirst, hwalk, htail, run_walkFront,
            run_construct, State.setTail, State.setCount, update_read]
        all_goals
          rw [assign_empty _ i (by simpa using h)]
          simp

theorem run_walkBack (head first : Hook T) (c : Nat) (k : Hook T → Nat → Code T) :
    (walkBack head first c k n).run s =
      (s.walkBack head first c n).bind fun r => (k r.1 r.2).run s := by
  induction n generalizing first c with
  | zero => rfl
  | succ n ih =>
    unfold walkBack State.walkBack
    by_cases hhead : s.prev first = some head
    · simp [Locked.Code.run, hhead]
    · cases hprev : s.prev first with
      | none => simp [Locked.Code.run, Locked.Code.get, hprev]
      | some prev =>
        have hne : prev ≠ head := fun heq => hhead (by rw [hprev, heq])
        simp [Locked.Code.run, Locked.Code.get, hprev, hne]
        exact ih prev (c + 1)

theorem run_popBack (h : s.lists i = .empty) :
    (popBack q n i).run s =
      ((s.popBack q n).bind fun r => r.1.assign i r.2).map fun t => (t, .done) := by
  unfold popBack State.popBack State.isEmpty
  by_cases hempty : (s.queues q).head = (s.queues q).tail
  · simp [hempty, run_construct, assign_empty s i h]
  · cases hwalk : s.walkBack (s.queues q).head (s.queues q).tail 1 (n - 1) with
    | none => simp [hempty, hwalk, run_walkBack]
    | some r =>
      obtain ⟨first, c⟩ := r
      cases htail : s.prev first with
      | none => simp [hempty, hwalk, htail, run_walkBack]
      | some tail =>
        simp [hempty, hwalk, htail, run_walkBack,
          run_construct, State.setTail, State.setCount]
        rw [assign_empty _ i (by simpa using h)]
        simp

theorem run_popAll (h : s.lists i = .empty) :
    (popAll q i).run s =
      ((s.popAll q).bind fun r => r.1.assign i r.2).map fun t => (t, .done) := by
  unfold popAll State.popAll State.isEmpty
  by_cases hempty : (s.queues q).head = (s.queues q).tail
  · simp [hempty, run_construct, assign_empty s i h]
  · cases hfirst : s.next (s.queues q).head with
    | none => simp [hempty, hfirst]
    | some first =>
      simp [hempty, hfirst, run_construct, State.setTail,
        State.setCount]
      rw [assign_empty _ i (by simpa using h)]
      simp

theorem run_eraseRest (hook : Hook T) :
    (eraseRest q hook).run s =
      if 0 < (s.queues q).count then
        some ((((s.setNext hook none).setPrev hook none).setCheck hook none).setQueue q
          { s.queues q with count := (s.queues q).count - 1 }, .flag true)
      else none := by
  by_cases hcount : 0 < (s.queues q).count <;> simp [eraseRest, hcount, detach, State.setCount]

theorem run_eraseTail (hook : Hook T) :
    (eraseTail q hook).run s =
      (if s.next hook = none ∧ hook = (s.queues q).tail then s.prev (s.queues q).tail
        else some (s.queues q).tail).bind fun tail =>
          if 0 < (s.queues q).count then
            some ((((s.setNext hook none).setPrev hook none).setCheck hook none).setQueue q
              { s.queues q with tail := tail, count := (s.queues q).count - 1 }, .flag true)
          else none := by
  by_cases htail : s.next hook = none ∧ hook = (s.queues q).tail
  · obtain ⟨hnone, rfl⟩ := htail
    cases hprev : s.prev (s.queues q).tail <;>
      simp [eraseTail, hnone, hprev, run_eraseRest, State.setTail]
  · simp [eraseTail, htail, run_eraseRest]

theorem run_erase (hook : Hook T) (check : Bool) :
    (erase q hook check).run s = (s.erase q hook check).map fun r => (r.1, .flag r.2) := by
  unfold erase State.erase
  by_cases hcheck : check = true ∧ s.check hook ≠ some q
  · simp [hcheck]
  · cases hprev : s.prev hook with
    | none => simp [hcheck, hprev]
    | some prev =>
      by_cases hassert : hook = (s.queues q).tail ∨ s.next hook ≠ none
      · rw [Locked.Code.run_read, if_neg hcheck, if_neg hcheck]
        by_cases htail : s.next hook = none ∧ hook = (s.queues q).tail
        · obtain ⟨hnone, rfl⟩ := htail
          have hread : Function.update s.next prev none (s.queues q).tail = none := by
            rw [← hnone, update_read]
          by_cases hcount : 0 < (s.queues q).count <;>
            simp [hprev, hnone, hcount, run_eraseTail, hread, write]
        · by_cases hcount : 0 < (s.queues q).count <;>
            simp [hprev, hassert, htail, hcount, run_eraseTail, update_read]
      · simp [hcheck, hprev, hassert]

theorem run_tagNext (ptr : State T → Hook T) :
    (tagNext q ptr).run s = some (match s.next (ptr s) with
      | some out => (s.setCheck out (some q), .pointer (some out))
      | none => (s, .pointer none)) := by
  unfold tagNext
  cases hnext : s.next (ptr s) <;> simp [Locked.Code.run, hnext]

end Section

/-- What is returned by value is assigned to a list. -/
theorem map_assign (o : Option (State T × SList T)) :
    (o.bind fun r => r.1.assign i r.2).map (fun t => (t, (.done : Result T))) =
      o.bind fun r => (r.1.assign i r.2).bind fun t => some (t, .done) := by
  cases o with
  | none => rfl
  | some r =>
    show Option.map _ (r.1.assign i r.2) = Option.bind (r.1.assign i r.2) _
    cases r.1.assign i r.2 <;> rfl

/-- A section that nobody disturbs does what the function does. -/
theorem Call.run_code (c : Call T) (h : ∀ i, c.target = some i → s.lists i = .empty) :
    c.code.run s = s.apply c.op := by
  cases c with
  | push q x =>
    simp only [code, op, State.apply, Section.run_push]
    cases s.push q (.element x) <;> rfl
  | pushList q i =>
    simp only [code, op, State.apply, Section.run_pushList]
    cases s.pushList q i <;> rfl
  | pop q =>
    simp only [code, op, State.apply, Section.run_pop]
    cases s.pop q <;> rfl
  | popFront q n i =>
    simp only [code, op, State.apply, Section.run_popFront s q i n (h i rfl)]
    exact map_assign i (s.popFront q n)
  | popBack q n i =>
    simp only [code, op, State.apply, Section.run_popBack s q i n (h i rfl)]
    exact map_assign i (s.popBack q n)
  | popAll q i =>
    simp only [code, op, State.apply, Section.run_popAll s q i (h i rfl)]
    exact map_assign i (s.popAll q)
  | erase q x check =>
    simp only [code, op, State.apply, Section.run_erase]
    cases s.erase q (.element x) check <;> rfl
  | front q =>
    simp only [code, op, State.apply, Section.run_tagNext, State.front]
    cases s.next (s.queues q).head <;> rfl
  | next q x =>
    simp only [code, op, State.apply, Section.run_tagNext, State.nextOf]
    cases s.next (.element x) <;> rfl

end Costream.TsQueue
