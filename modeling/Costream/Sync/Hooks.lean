import Costream.Path
import Costream.Sync.WaitQueue

/-!
# The hooks of the queue

`Hooks` is `WaitQueue<T>` with its pointers.  Every node has a `next`, as has the dummy node that
`head_` points to, and `push` and `pop` write to them and to `tail_`, `check_` and `pos_`.

* A pointer that is dereferenced and does not point to a node is a fault: `none`.
* `Refines q w` says that the hooks describe the list of nodes `w`.  Each operation on the hooks
  ends without a fault and does to the list what `WaitQueue` says.
-/

namespace Costream.Sync

structure Hooks where
  next : Cursor → Cursor
  tail : Cursor
  check : Cursor
  pos : Cursor
  count : Nat
  posDistance : Nat

structure CondRet where
  canQueue : Bool
  needWait : Bool
  deriving DecidableEq

/-- What `cond` answers, where there is one. -/
def CondRet.of (cond : Option (Nat → CondRet)) (count : Nat) : CondRet :=
  match cond with
  | none => ⟨true, true⟩
  | some cond => cond count

namespace Hooks

def create (posDistance : Nat) : Hooks where
  next := fun _ => .null
  tail := .dummy
  check := .dummy
  pos := .null
  count := 0
  posDistance := posDistance

variable (q : Hooks)

/-! ## `push` -/

/-- `ptr` becomes the last node. -/
def link (ptr : Nat) : Option Hooks :=
  if q.tail = .null then none
  else
    some { q with
      next := Function.update (Function.update q.next q.tail (.node ptr)) (.node ptr) .null
      tail := .node ptr
      count := (q.count + 1) % 2 ^ 64
      pos := if (q.count + 1) % 2 ^ 64 = q.posDistance then .node ptr else q.pos }

def threshold : Nat := max q.posDistance ((q.posDistance + 16) % 2 ^ 64)

def startCheck : Hooks :=
  if q.check = .null ∨ q.next q.check = .null then { q with check := q.pos } else q

/-- `temp` is `check_->next`, and goes. -/
def evict (temp : Cursor) : Hooks :=
  { q with
    pos := if q.pos = temp then q.next q.pos else q.pos
    tail := if q.tail = temp then q.check else q.tail
    next := Function.update (Function.update q.next q.check (q.next temp)) temp .null }

/-- The loop over what `check_` comes to.  The nodes that are evicted are released. -/
def cleanUp (valid : Nat → Bool) : Nat → Hooks → Option (List Nat × Hooks)
  | 0, q => some ([], q)
  | rounds + 1, q =>
    if q.check = .null then some ([], q)
    else
      match q.next q.check with
      | .null => some ([], q)
      | .dummy => none
      | .node i =>
        if valid i then cleanUp valid rounds { q with check := .node i }
        else (cleanUp valid rounds (q.evict (.node i))).map fun (evicted, q) => (i :: evicted, q)

def push (ptr : Nat) (cond : Option (Nat → CondRet)) (checkFunctor : Option (Nat → Bool)) :
    Option (CondRet × List Nat × Hooks) :=
  let ret := CondRet.of cond q.count
  if ret.canQueue then
    (q.link ptr).bind fun q =>
      match checkFunctor with
      | none => some (ret, [], q)
      | some valid =>
        if q.count < q.threshold then some (ret, [], q)
        else (cleanUp valid 2 q.startCheck).map fun (evicted, q) => (ret, evicted, q)
  else some (ret, [], q)

/-! ## `pop` -/

/-- `ptr` is the first node, and goes. -/
def popHead (ptr : Nat) : Hooks :=
  { q with
    tail := if q.tail = .node ptr then .dummy else q.tail
    check := if q.check = .node ptr then q.next q.check else q.check
    next := Function.update (Function.update q.next .dummy (q.next (.node ptr))) (.node ptr) .null }

/-- `pos_` moves on, until `posFunctor_` has accepted a node. -/
def passPos (ok : Nat → Bool) : Nat → Hooks → Option Hooks
  | 0, _ => none
  | fuel + 1, q =>
    match q.pos with
    | .null => some q
    | .dummy => none
    | .node i =>
      let q := { q with pos := q.next q.pos }
      if ok i then some q else passPos ok fuel q

def uncount : Hooks := { q with count := if q.count = 0 then 2 ^ 64 - 1 else q.count - 1 }

def pop (posFunctor : Option (Nat → Bool)) (fuel : Nat) : Option (Option Nat × Hooks) :=
  if q.tail = .dummy then some (none, q)
  else
    match q.next .dummy with
    | .node ptr =>
      match posFunctor with
      | none => some (some ptr, (q.popHead ptr).uncount)
      | some ok => (passPos ok fuel (q.popHead ptr)).map fun q => (some ptr, q.uncount)
    | _ => none

def tryPop (posFunctor : Option (Nat → Bool)) (fuel : Nat) : Option (Option Nat × Hooks) :=
  if q.count = 0 then some (none, q) else q.pop posFunctor fuel

end Hooks

/-! ## The operations on the list of nodes -/

namespace WaitQueue

def cleanUp (valid : Nat → Bool) : Nat → WaitQueue → List Nat × WaitQueue
  | 0, w => ([], w)
  | rounds + 1, w =>
    match w.checkNext with
    | none => ([], w)
    | some i =>
      if valid i then cleanUp valid rounds (w.advance i)
      else
        let (evicted, w) := cleanUp valid rounds (w.unlink i)
        (i :: evicted, w)

def push (w : WaitQueue) (ptr : Nat) (cond : Option (Nat → CondRet))
    (checkFunctor : Option (Nat → Bool)) : CondRet × List Nat × WaitQueue :=
  let ret := CondRet.of cond w.count
  if ret.canQueue then
    match checkFunctor with
    | none => (ret, [], w.link ptr)
    | some valid =>
      if (w.link ptr).count < (w.link ptr).threshold then (ret, [], w.link ptr)
      else (ret, cleanUp valid 2 (w.link ptr).startCheck)
  else (ret, [], w)

/-- `pos_` ends behind the first node from it on that `ok` accepts. -/
def passUntil (w : WaitQueue) (ok : Nat → Bool) : WaitQueue :=
  { w with
    pos := w.pos.bind fun i =>
      ((w.nodes.dropWhile (· ≠ i)).dropWhile fun j => !ok j).tail.head? }

def pop (w : WaitQueue) (posFunctor : Option (Nat → Bool)) : Option Nat × WaitQueue :=
  match w.nodes with
  | [] => (none, w)
  | ptr :: _ =>
    match posFunctor with
    | none => (some ptr, (w.popHead ptr).uncount)
    | some ok => (some ptr, ((w.popHead ptr).passUntil ok).uncount)

end WaitQueue

/-! ## The hooks describe a list -/

namespace Hooks

open WaitQueue (checkNext)

/-- The last node, or the dummy node. -/
def last (nodes : List Nat) : Cursor := (nodes.map Cursor.node).getLastD .dummy

structure Refines (q : Hooks) (w : WaitQueue) : Prop where
  path : Path q.next .null .dummy (w.nodes.map .node)
  nodup : w.nodes.Nodup
  unlinked : ∀ i, i ∉ w.nodes → q.next (.node i) = .null
  tail : q.tail = last w.nodes
  check : q.check = w.check
  pos : q.pos = .of w.pos
  count : q.count = w.count
  posDistance : q.posDistance = w.posDistance

variable {q : Hooks} {w : WaitQueue} {nodes front back : List Nat} {i ptr : Nat}

@[simp] theorem last_nil : last [] = .dummy := rfl

@[simp] theorem last_concat : last (nodes ++ [i]) = .node i := by
  unfold last
  simp

theorem last_ne_null : last nodes ≠ .null := by
  rcases List.eq_nil_or_concat' nodes with h | ⟨front, i, h⟩
  · rw [h]
    decide
  · rw [h, last_concat]
    simp

theorem last_eq_dummy : last nodes = .dummy ↔ nodes = [] := by
  rcases List.eq_nil_or_concat' nodes with h | ⟨front, i, h⟩
  · simp [h]
  · rw [h, last_concat]
    simp

theorem last_eq_node (h : last nodes = .node i) : i ∈ nodes := by
  rcases List.eq_nil_or_concat' nodes with hnil | ⟨front, j, hnodes⟩
  · rw [hnil] at h
    cases h
  · rw [hnodes, last_concat, Cursor.node.injEq] at h
    rw [hnodes, h]
    simp

theorem cells_nodup (h : nodes.Nodup) : (Cursor.dummy :: nodes.map Cursor.node).Nodup := by
  refine List.nodup_cons.2 ⟨by simp, h.map fun i j hij => ?_⟩
  exact Cursor.node.inj hij

theorem headD_map (nodes : List Nat) : (nodes.map Cursor.node).headD .null = .of nodes.head? := by
  cases nodes with
  | nil => rfl
  | cons i nodes => rfl

/-- The list is all that can be reached from `head_`. -/
theorem path_unique {next : Cursor → Cursor} {nodes nodes' : List Nat}
    (h : Path next .null .dummy (nodes.map .node)) (h' : Path next .null .dummy (nodes'.map .node)) :
    nodes = nodes' := by
  have heq := h.unique h' (by simp) (by simp)
  exact List.map_injective_iff.2 (fun i j hij => Cursor.node.inj hij) heq

namespace Refines

theorem next_last (h : Refines q w) (hnodes : w.nodes = front ++ back) :
    q.next (last front) = .of back.head? := by
  have hpath := h.path
  rw [hnodes, List.map_append] at hpath
  rw [last, hpath.next_getLastD, headD_map]

theorem next_node (h : Refines q w) (i : Nat) :
    q.next (.node i) = .of (WaitQueue.next w.nodes i) := by
  by_cases hi : i ∈ w.nodes
  · obtain ⟨front, back, hnodes, hout⟩ := List.eq_append_cons_of_mem hi
    have hsplit : w.nodes = (front ++ [i]) ++ back := by simp [hnodes]
    have hnext := h.next_last hsplit
    rw [last_concat] at hnext
    rw [hnext, hnodes, WaitQueue.next_append hout]
  · rw [h.unlinked i hi, WaitQueue.next_eq_none hi]
    rfl

theorem next_check (h : Refines q w) (hne : w.check ≠ .null) : q.next q.check = .of w.checkNext := by
  rw [h.check]
  unfold checkNext
  split
  · next hnull => exact absurd hnull hne
  · next hdummy =>
    rw [hdummy]
    exact h.next_last (List.nil_append w.nodes).symm
  · next i hnode =>
    rw [hnode]
    exact h.next_node i

end Refines

/-- Where `check_` is when it comes to `i`. -/
theorem checkNext_split (h : w.checkNext = some i) :
    ∃ front back, w.nodes = front ++ i :: back ∧ w.check = last front := by
  unfold checkNext at h
  split at h
  · cases h
  · next hdummy =>
    obtain ⟨back, hnodes⟩ : ∃ back, w.nodes = i :: back := List.head?_eq_some_iff.1 h
    exact ⟨[], back, hnodes, hdummy⟩
  · next j hnode =>
    by_cases hj : j ∈ w.nodes
    · obtain ⟨front, rest, hnodes, hout⟩ := List.eq_append_cons_of_mem hj
      rw [hnodes, WaitQueue.next_append hout] at h
      obtain ⟨back, hrest⟩ : ∃ back, rest = i :: back := List.head?_eq_some_iff.1 h
      refine ⟨front ++ [j], back, ?_, ?_⟩
      · rw [hnodes, hrest]
        simp
      · rw [hnode, last_concat]
    · rw [WaitQueue.next_eq_none hj] at h
      cases h

/-! ## Each operation does to the list what it should -/

theorem create_refines (posDistance : Nat) :
    Refines (create posDistance) (WaitQueue.create posDistance) :=
  ⟨rfl, List.nodup_nil, fun _ _ => rfl, rfl, rfl, rfl, rfl, rfl⟩

theorem threshold_eq (h : Refines q w) : q.threshold = w.threshold := by
  unfold threshold WaitQueue.threshold
  rw [h.posDistance]

theorem link_refines (h : Refines q w) (hptr : ptr ∉ w.nodes) :
    ∃ q', q.link ptr = some q' ∧ Refines q' (w.link ptr) := by
  have hnull : q.tail ≠ .null := by
    rw [h.tail]
    exact last_ne_null
  have hout : Cursor.node ptr ∉ Cursor.dummy :: w.nodes.map Cursor.node := by simpa using hptr
  have hpath := h.path.append (cells_nodup h.nodup) hout
  unfold link
  rw [if_neg hnull]
  refine ⟨_, rfl, ?_, ?_, fun i hi => ?_, ?_, h.check, ?_, ?_, h.posDistance⟩
  · show Path _ _ _ ((w.nodes ++ [ptr]).map Cursor.node)
    rw [List.map_append, h.tail]
    exact hpath
  · show (w.nodes ++ [ptr]).Nodup
    rw [← List.concat_eq_append]
    exact List.Nodup.concat hptr h.nodup
  · have hi' : i ∉ w.nodes ∧ i ≠ ptr := by
      rw [WaitQueue.link_nodes, List.mem_append, List.mem_singleton, not_or] at hi
      exact hi
    have hne : Cursor.node i ≠ .node ptr := by simpa using hi'.2
    have htail : Cursor.node i ≠ q.tail := by
      intro heq
      rw [h.tail] at heq
      exact hi'.1 (last_eq_node heq.symm)
    show Function.update (Function.update q.next q.tail (.node ptr)) (.node ptr) .null (.node i) =
      .null
    rw [Function.update_of_ne hne, Function.update_of_ne htail]
    exact h.unlinked i hi'.1
  · show Cursor.node ptr = last (w.nodes ++ [ptr])
    rw [last_concat]
  · show (if (q.count + 1) % 2 ^ 64 = q.posDistance then Cursor.node ptr else q.pos) =
      .of (if (w.count + 1) % 2 ^ 64 = w.posDistance then some ptr else w.pos)
    rw [h.count, h.posDistance, h.pos]
    split
    · rfl
    · rfl
  · show (q.count + 1) % 2 ^ 64 = (w.count + 1) % 2 ^ 64
    rw [h.count]

theorem startCheck_refines (h : Refines q w) : Refines q.startCheck w.startCheck := by
  have hsame : (q.check = .null ∨ q.next q.check = .null) ↔ w.checkNext = none := by
    by_cases hnull : w.check = .null
    · rw [h.check]
      simp [checkNext, hnull]
    · rw [h.next_check hnull, h.check]
      cases w.checkNext with
      | none => simp [Cursor.of]
      | some i => simp [Cursor.of, hnull]
  unfold startCheck WaitQueue.startCheck
  cases hnext : w.checkNext with
  | none =>
    rw [if_pos (hsame.2 hnext)]
    exact { h with check := h.pos }
  | some i =>
    rw [if_neg (by rw [hsame, hnext]; simp)]
    exact h

/-- The links after the node behind `front` has gone. -/
theorem removed (h : Refines q w) (hsplit : w.nodes = front ++ i :: back) {next : Cursor → Cursor}
    (hnext : next = Function.update (Function.update q.next (last front) (q.next (.node i)))
      (.node i) .null) :
    Path next .null .dummy ((front ++ back).map .node) ∧
      ∀ j, j ∉ front ++ back → next (.node j) = .null := by
  have hcells := cells_nodup h.nodup
  have hpath := h.path
  rw [hsplit, List.map_append, List.map_cons] at hcells hpath
  refine ⟨?_, fun j hj => ?_⟩
  · rw [hnext, List.map_append]
    exact hpath.remove hcells
  · rw [hnext]
    by_cases hji : Cursor.node j = .node i
    · rw [hji]
      exact Function.update_self ..
    · have hlast : Cursor.node j ≠ last front := by
        intro heq
        exact hj (List.mem_append_left back (last_eq_node heq.symm))
      rw [Function.update_of_ne hji, Function.update_of_ne hlast]
      refine h.unlinked j ?_
      rw [hsplit, List.mem_append, List.mem_cons]
      rw [List.mem_append] at hj
      have hne : j ≠ i := fun heq => hji (by rw [heq])
      tauto

/-- `tail_` after the node behind `front` has gone. -/
theorem last_removed (h : (front ++ i :: back).Nodup) :
    (if last (front ++ i :: back) = .node i then last front else last (front ++ i :: back)) =
      last (front ++ back) := by
  rcases List.eq_nil_or_concat' back with hback | ⟨bs, b, hback⟩
  · subst hback
    rw [if_pos last_concat, List.append_nil]
  · subst hback
    have hlast : last (front ++ i :: (bs ++ [b])) = .node b := by
      rw [show front ++ i :: (bs ++ [b]) = (front ++ i :: bs) ++ [b] by simp, last_concat]
    have hne : b ≠ i := by
      intro heq
      obtain ⟨-, hback, -⟩ := List.nodup_append.1 h
      exact (List.nodup_cons.1 hback).1 (by simp [heq])
    rw [hlast, if_neg (by simpa using hne), ← List.append_assoc, last_concat]

theorem evict_refines (h : Refines q w) (hi : w.checkNext = some i) :
    Refines (q.evict (.node i)) (w.unlink i) := by
  obtain ⟨front, back, hsplit, hcheck⟩ := checkNext_split hi
  have hnd := h.nodup
  rw [hsplit] at hnd
  have hout : i ∉ front := fun hmem =>
    (List.nodup_append.1 hnd).2.2 i hmem i (by simp) rfl
  have hnodes : (w.unlink i).nodes = front ++ back := by
    rw [WaitQueue.unlink_nodes, hsplit, List.erase_append_right _ hout, List.erase_cons_head]
  obtain ⟨hpath, hunlinked⟩ := removed h hsplit rfl
  have hnext : (q.evict (.node i)).next = Function.update
      (Function.update q.next (last front) (q.next (.node i))) (.node i) .null := by
    rw [← hcheck, ← h.check]
    rfl
  refine ⟨?_, ?_, fun j hj => ?_, ?_, h.check, ?_, h.count, h.posDistance⟩
  · rw [hnext, hnodes]
    exact hpath
  · rw [hnodes]
    exact hnd.sublist ((List.Sublist.refl front).append (List.sublist_cons_self i back))
  · rw [hnext]
    rw [hnodes] at hj
    exact hunlinked j hj
  · rw [hnodes, ← last_removed hnd, ← hsplit, ← hcheck, ← h.tail, ← h.check]
    rfl
  · show (if q.pos = .node i then q.next q.pos else q.pos) =
      .of (if w.pos = some i then WaitQueue.next w.nodes i else w.pos)
    rw [h.pos]
    cases hpos : w.pos with
    | none => rfl
    | some j =>
      by_cases hji : j = i
      · have hnode : Cursor.of (some i) = .node i := rfl
        rw [hji, hnode, if_pos rfl, if_pos rfl]
        exact h.next_node i
      · rw [if_neg (by simpa [Cursor.of] using hji), if_neg (by simpa using hji)]

theorem cleanUp_refines (valid : Nat → Bool) (rounds : Nat) (h : Refines q w) :
    ∃ q', cleanUp valid rounds q = some ((w.cleanUp valid rounds).1, q') ∧
      Refines q' (w.cleanUp valid rounds).2 := by
  induction rounds generalizing q w with
  | zero => exact ⟨q, rfl, h⟩
  | succ rounds ih =>
    unfold cleanUp WaitQueue.cleanUp
    by_cases hnull : w.check = .null
    · have hnone : w.checkNext = none := by simp [checkNext, hnull]
      rw [if_pos (h.check.trans hnull), hnone]
      exact ⟨q, rfl, h⟩
    · rw [if_neg (by rw [h.check]; exact hnull), h.next_check hnull]
      cases hnext : w.checkNext with
      | none => exact ⟨q, rfl, h⟩
      | some i =>
        by_cases hvalid : valid i = true
        · simp only [Cursor.of, hvalid, if_true]
          exact ih { h with check := rfl }
        · simp only [Cursor.of, hvalid]
          obtain ⟨q', hclean, hrefines⟩ := ih (evict_refines h hnext)
          refine ⟨q', ?_, hrefines⟩
          simp [hclean]

theorem push_refines (h : Refines q w) (hptr : ptr ∉ w.nodes) (cond : Option (Nat → CondRet))
    (checkFunctor : Option (Nat → Bool)) :
    ∃ q', q.push ptr cond checkFunctor =
        some ((w.push ptr cond checkFunctor).1, (w.push ptr cond checkFunctor).2.1, q') ∧
      Refines q' (w.push ptr cond checkFunctor).2.2 := by
  unfold push WaitQueue.push
  rw [h.count]
  simp only
  by_cases hret : (CondRet.of cond w.count).canQueue = true
  · rw [if_pos hret, if_pos hret]
    obtain ⟨q₁, hlink, h₁⟩ := link_refines h hptr
    rw [hlink, Option.bind_some]
    cases checkFunctor with
    | none => exact ⟨q₁, rfl, h₁⟩
    | some valid =>
      simp only
      rw [h₁.count, threshold_eq h₁]
      by_cases hfew : (w.link ptr).count < (w.link ptr).threshold
      · rw [if_pos hfew, if_pos hfew]
        exact ⟨q₁, rfl, h₁⟩
      · rw [if_neg hfew, if_neg hfew]
        obtain ⟨q', hclean, hrefines⟩ := cleanUp_refines valid 2 (startCheck_refines h₁)
        refine ⟨q', ?_, hrefines⟩
        rw [hclean]
        rfl
  · rw [if_neg hret, if_neg hret]
    exact ⟨q, rfl, h⟩

theorem popHead_refines (h : Refines q w) (hnodes : w.nodes = ptr :: back) :
    Refines (q.popHead ptr) (w.popHead ptr) := by
  have hnd := h.nodup
  rw [hnodes] at hnd
  have hsplit : w.nodes = [] ++ ptr :: back := hnodes
  have hrest : (w.popHead ptr).nodes = back := by
    rw [WaitQueue.popHead_nodes, hnodes]
    rfl
  obtain ⟨hpath, hunlinked⟩ := removed h hsplit rfl
  refine ⟨?_, ?_, fun j hj => ?_, ?_, ?_, h.pos, h.count, h.posDistance⟩
  · rw [hrest]
    exact hpath
  · rw [hrest]
    exact (List.nodup_cons.1 hnd).2
  · rw [hrest] at hj
    exact hunlinked j hj
  · rw [hrest]
    show (if q.tail = .node ptr then .dummy else q.tail) = last back
    rw [h.tail, hnodes]
    rw [← List.nil_append (ptr :: back)] at hnd ⊢
    exact last_removed hnd
  · show (if q.check = .node ptr then q.next q.check else q.check) =
      if w.check = .node ptr then .of w.nodes.tail.head? else w.check
    rw [h.check]
    by_cases hptr : w.check = .node ptr
    · rw [if_pos hptr, if_pos hptr, hptr, h.next_node, hnodes]
      rw [← List.nil_append (ptr :: back), WaitQueue.next_append List.not_mem_nil]
      rfl
    · rw [if_neg hptr, if_neg hptr]

/-- The loop ends when `pos_` is behind the last node, at the latest. -/
theorem passPos_refines (ok : Nat → Bool) (h : Refines q w) {fuel : Nat}
    (hnodes : w.nodes = front ++ back) (hpos : w.pos = back.head?) (hfuel : back.length < fuel) :
    ∃ q', passPos ok fuel q = some q' ∧
      Refines q' { w with pos := (back.dropWhile fun j => !ok j).tail.head? } := by
  induction back generalizing q w front fuel with
  | nil =>
    cases fuel with
    | zero => simp at hfuel
    | succ fuel =>
      have hnull : q.pos = .null := by
        rw [h.pos, hpos]
        rfl
      unfold passPos
      rw [hnull]
      exact ⟨q, rfl, { h with pos := hnull }⟩
  | cons i back ih =>
    cases fuel with
    | zero => simp at hfuel
    | succ fuel =>
      have hnode : q.pos = .node i := by
        rw [h.pos, hpos]
        rfl
      have hsplit : w.nodes = (front ++ [i]) ++ back := by simp [hnodes]
      have hnext : q.next q.pos = .of back.head? := by
        have hlast : last (front ++ [i]) = .node i := last_concat
        rw [hnode, ← hlast]
        exact h.next_last hsplit
      have hmoved : Refines { q with pos := q.next q.pos } { w with pos := back.head? } :=
        { h with pos := hnext }
      unfold passPos
      simp only [hnode]
      rw [hnode] at hmoved
      by_cases hok : ok i = true
      · rw [if_pos hok, List.dropWhile_cons_of_neg (by simp [hok])]
        exact ⟨_, rfl, hmoved⟩
      · rw [if_neg hok, List.dropWhile_cons_of_pos (by simpa using hok)]
        exact ih hmoved hsplit rfl (by simpa using hfuel)

/-- Behind a node that has gone there is nothing. -/
theorem passPos_stale (ok : Nat → Bool) (h : Refines q w) (hpos : w.pos = some i)
    (hi : i ∉ w.nodes) (fuel : Nat) :
    ∃ q', passPos ok (fuel + 2) q = some q' ∧ Refines q' { w with pos := none } := by
  have hnode : q.pos = .node i := by
    rw [h.pos, hpos]
    rfl
  have hnext : q.next q.pos = .null := by
    rw [hnode]
    exact h.unlinked i hi
  refine ⟨{ q with pos := .null }, ?_, { h with pos := rfl }⟩
  unfold passPos
  simp only [hnode]
  rw [hnode] at hnext
  rw [hnext]
  split
  · rfl
  · rfl

theorem passUntil_refines (ok : Nat → Bool) (h : Refines q w) {fuel : Nat}
    (hfuel : w.nodes.length + 1 < fuel) :
    ∃ q', passPos ok fuel q = some q' ∧ Refines q' (w.passUntil ok) := by
  unfold WaitQueue.passUntil
  cases hpos : w.pos with
  | none => exact passPos_refines ok h (List.append_nil w.nodes).symm hpos (by simp; omega)
  | some i =>
    rw [Option.bind_some]
    by_cases hi : i ∈ w.nodes
    · obtain ⟨front, back, hnodes, hout⟩ := List.eq_append_cons_of_mem hi
      have hdrop : w.nodes.dropWhile (· ≠ i) = i :: back := by
        rw [hnodes]
        exact WaitQueue.dropWhile_append hout
      rw [hdrop]
      refine passPos_refines ok h hnodes hpos ?_
      rw [hnodes, List.length_append] at hfuel
      omega
    · rw [WaitQueue.dropWhile_eq_nil hi]
      obtain ⟨fuel, rfl⟩ : ∃ n, fuel = n + 2 := ⟨fuel - 2, by omega⟩
      exact passPos_stale ok h hpos hi fuel

theorem uncount_refines (h : Refines q w) : Refines q.uncount w.uncount :=
  have hcount : q.uncount.count = w.uncount.count := by
    unfold uncount WaitQueue.uncount
    rw [h.count]
  { h with count := hcount }

theorem pop_refines (h : Refines q w) (posFunctor : Option (Nat → Bool)) {fuel : Nat}
    (hfuel : w.nodes.length < fuel) :
    ∃ q', q.pop posFunctor fuel = some ((w.pop posFunctor).1, q') ∧
      Refines q' (w.pop posFunctor).2 := by
  unfold pop WaitQueue.pop
  cases hnodes : w.nodes with
  | nil =>
    have hempty : q.tail = .dummy := by rw [h.tail, last_eq_dummy, hnodes]
    rw [if_pos hempty]
    exact ⟨q, rfl, h⟩
  | cons ptr back =>
    have hne : q.tail ≠ .dummy := by
      rw [h.tail, Ne, last_eq_dummy, hnodes]
      simp
    have hfirst : q.next .dummy = .node ptr := by
      have hnext := h.next_last (List.nil_append w.nodes).symm
      rw [hnodes] at hnext
      exact hnext
    have hpopped := popHead_refines h hnodes
    rw [if_neg hne, hfirst]
    cases posFunctor with
    | none => exact ⟨_, rfl, uncount_refines hpopped⟩
    | some ok =>
      have hlt : (w.popHead ptr).nodes.length + 1 < fuel := by
        rw [hnodes] at hfuel
        rw [WaitQueue.popHead_nodes, hnodes]
        simpa using hfuel
      obtain ⟨q', hpass, hrefines⟩ := passUntil_refines ok hpopped hlt
      refine ⟨q'.uncount, ?_, uncount_refines hrefines⟩
      simp only
      rw [hpass]
      rfl

end Hooks

end Costream.Sync
