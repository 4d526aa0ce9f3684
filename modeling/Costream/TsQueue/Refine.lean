import Costream.TsQueue.Sequences

/-!
# The containers refine sequences

One theorem for each function of `TSQueue` and `SList`: on containers that stand for
sequences it has a result, which is the one of the operation on sequences, and it leaves
containers that stand for what the operation leaves.

`sequences_refined` puts them together: whatever the order of the calls on any number of
containers, every call returns and leaves what the sequences say.
-/

namespace Costream.TsQueue

open Costream.Lists

variable {T : Type} {s t : State T} {a b : Sequences T} {l : Container → List T}
  {c c' : Container} {x : T} {xs ys zs : List T} {q i j n : Nat}

/-! ## Ends and counts -/

section Ends

variable {queues : Nat → TSQueue T} {lists : Nat → SList T}

theorem queues_put (h : ∀ r, queues r = .of r (l (.queue r))) (q : Nat) (xs : List T) (r : Nat) :
    Function.update queues q (.of q xs) r = .of r (Function.update l (.queue q) xs (.queue r)) := by
  by_cases hr : r = q
  · rw [hr, Function.update_self, Function.update_self]
  · rw [Function.update_of_ne hr, Function.update_of_ne (by simpa using hr)]
    exact h r

theorem queues_plain (h : ∀ r, queues r = .of r (l (.queue r))) (hc : c.Plain) (xs : List T)
    (r : Nat) : queues r = .of r (Function.update l c xs (.queue r)) := by
  rw [Function.update_of_ne fun heq => hc r heq.symm]
  exact h r

theorem lists_put (h : ∀ r, lists r = .of (l (.list r))) (i : Nat) (xs : List T) (r : Nat) :
    Function.update lists i (.of xs) r = .of (Function.update l (.list i) xs (.list r)) := by
  by_cases hr : r = i
  · rw [hr, Function.update_self, Function.update_self]
  · rw [Function.update_of_ne hr, Function.update_of_ne (by simpa using hr)]
    exact h r

theorem lists_other (h : ∀ r, lists r = .of (l (.list r))) (hc : ∀ i, c ≠ .list i) (xs : List T)
    (r : Nat) : lists r = .of (Function.update l c xs (.list r)) := by
  rw [Function.update_of_ne fun heq => hc r heq.symm]
  exact h r

theorem plain_list (i : Nat) : (Container.list i).Plain := by
  intro q heq
  cases heq

theorem plain_returned : Container.returned.Plain := by
  intro q heq
  cases heq

theorem TSQueue.tail_of {y : T} (h : xs.getLast? = some y) : (TSQueue.of q xs).tail = .element y := by
  show ((xs.getLast?).map Hook.element).getD _ = _
  rw [h]
  rfl

theorem exists_getLast (x : T) (xs : List T) : ∃ y, (x :: xs).getLast? = some y :=
  ⟨_, List.getLast?_eq_some_getLast (by simp)⟩

theorem TSQueue.tail_append_cons (q : Nat) (xs : List T) (x : T) (ys : List T) :
    (TSQueue.of q (xs ++ x :: ys)).tail = (TSQueue.of q (x :: ys)).tail := by
  obtain ⟨y, hy⟩ := exists_getLast x ys
  rw [TSQueue.tail_of hy, TSQueue.tail_of]
  rw [List.getLast?_append_cons, hy]

@[simp] theorem TSQueue.head_of (q : Nat) (xs : List T) : (TSQueue.of q xs).head = .sentinel q :=
  rfl

@[simp] theorem TSQueue.count_of (q : Nat) (xs : List T) : (TSQueue.of q xs).count = xs.length :=
  rfl

theorem SList.of_eq {w z : T} (hw : xs.head? = some w) (hz : xs.getLast? = some z) :
    SList.of xs = ⟨some (.element w), some (.element z), xs.length⟩ := by
  rw [SList.of, hw, hz]
  rfl

theorem exists_head_of_ne_nil (h : xs ≠ []) : ∃ x, xs.head? = some x := by
  cases xs with
  | nil => exact absurd rfl h
  | cons x xs => exact ⟨x, rfl⟩

theorem queue_ne_list (q : Nat) (i : Nat) : Container.queue q ≠ .list i := by
  intro heq
  cases heq

theorem returned_ne_queue (q : Nat) : Container.returned ≠ .queue q := by
  intro heq
  cases heq

theorem returned_ne_list (i : Nat) : Container.returned ≠ .list i := by
  intro heq
  cases heq

/-- The front of a queue has been taken out: its last element was the last one of the queue, or
the last one of the queue is still there. -/
theorem TSQueue.of_rest [DecidableEq T] {z : T} (hnd : (ys ++ zs).Nodup)
    (hz : ys.getLast? = some z) :
    (⟨.sentinel q, if .element z = (TSQueue.of q (ys ++ zs)).tail then .sentinel q
      else (TSQueue.of q (ys ++ zs)).tail, (ys ++ zs).length - ys.length⟩ : TSQueue T) =
      .of q zs := by
  have hcount : (ys ++ zs).length - ys.length = zs.length := by
    rw [List.length_append]
    omega
  rw [hcount]
  cases zs with
  | nil =>
    rw [List.append_nil, TSQueue.tail_of hz, if_pos rfl]
    rfl
  | cons w zs =>
    obtain ⟨y, hy⟩ := exists_getLast w zs
    have hne : z ≠ y := by
      intro heq
      subst heq
      exact (List.nodup_append.1 hnd).2.2 z (List.mem_of_getLast? hz) z (List.mem_of_getLast? hy) rfl
    have hlast : (ys ++ w :: zs).getLast? = some y := by rw [List.getLast?_append_cons, hy]
    rw [TSQueue.tail_of hlast, if_neg (by simpa using hne), ← TSQueue.tail_of (q := q) hy]
    rfl

end Ends

/-- A queue has been divided, and the returned list is one part of it. -/
theorem Rep.divided (h : Rep s a) (hstrung : Strung t.next t.prev
    (family (a.divide (.queue q) .returned xs ys).contents))
    (hqueues : t.queues = Function.update s.queues q (.of q xs)) (hlists : t.lists = s.lists)
    (hcheck : t.check = s.check) : Rep t (a.divide (.queue q) .returned xs ys) where
  strung := hstrung
  queues := by
    rw [hqueues]
    exact queues_plain (queues_put h.queues q xs) plain_returned ys
  lists := by
    rw [hlists]
    exact lists_other (lists_other h.lists (queue_ne_list q) xs) returned_ne_list ys
  check := by
    rw [hcheck]
    exact h.check

/-- Only the links and the list `i` have changed. -/
theorem Rep.relisted (h : Rep s a) (hstrung : Strung t.next t.prev
    (family (a.put (.list i) xs).contents)) (hqueues : t.queues = s.queues)
    (hlists : t.lists = Function.update s.lists i (.of xs)) (hcheck : t.check = s.check) :
    Rep t (a.put (.list i) xs) where
  strung := hstrung
  queues := by
    rw [hqueues]
    exact queues_plain h.queues (plain_list i) xs
  lists := by
    rw [hlists]
    exact lists_put h.lists i xs
  check := by
    rw [hcheck]
    exact h.check

/-- What an iterator knows that points to the first one of `ys`. -/
theorem Rep.iterator_eq (h : Rep s a) (hc : a.contents c = xs ++ ys) :
    (s.iterator (ys.head?.map .element)).ptr = ys.head?.map .element ∧
      (s.iterator (ys.head?.map .element)).next = ys.tail.head?.map .element := by
  refine ⟨rfl, ?_⟩
  cases ys with
  | nil => rfl
  | cons y ys => exact (h.links hc).1

/-- The queues have no part in what happens between lists. -/
theorem Rep.queues_join (h : Rep s a) (hc : c.Plain) (hc' : c'.Plain) (r : Nat) :
    s.queues r = .of r ((a.join c c').contents (.queue r)) :=
  queues_plain (queues_plain h.queues hc (a.contents c ++ a.contents c')) hc' [] r

theorem Rep.next_tail (h : Rep s a) (q : Nat) :
    s.next (TSQueue.of q (a.contents (.queue q))).tail = none :=
  (h.strung.linked (.held (.queue q))).next_last (getLast_hooks_queue q _)

/-- The loop of `pop_front` goes to the last one of the elements that are taken. -/
theorem Rep.walkFront_eq (h : Rep s a) (hc : a.contents c = xs ++ x :: ys) (n m : Nat) :
    ∃ z, ((x :: ys).take (n + 1)).getLast? = some z ∧
      s.walkFront (.element x) (m + 1) n = (.element z, m + ((x :: ys).take (n + 1)).length) := by
  induction n generalizing x xs ys m with
  | zero => exact ⟨x, rfl, rfl⟩
  | succ n ih =>
    obtain ⟨hnext, -⟩ := h.links hc
    unfold State.walkFront
    cases ys with
    | nil =>
      rw [hnext]
      exact ⟨x, rfl, rfl⟩
    | cons y ys =>
      have hc' : a.contents c = (xs ++ [x]) ++ y :: ys := by simp [hc]
      obtain ⟨z, hz, hwalk⟩ := ih hc' (m + 1)
      refine ⟨z, ?_, ?_⟩
      · rw [List.take_succ_cons, List.take_succ_cons, List.getLast?_cons_cons,
          ← List.take_succ_cons, hz]
      · rw [hnext]
        show s.walkFront (.element y) (m + 1 + 1) n = _
        rw [hwalk, List.take_succ_cons (a := x), List.length_cons]
        congr 1
        omega

/-- The loop of `cut` goes to the last one of the elements that are taken. -/
theorem Rep.walk_eq (h : Rep s a) (hc : a.contents c = xs ++ x :: ys) (hn : n ≤ ys.length) :
    ∃ z, ((x :: ys).take (n + 1)).getLast? = some z ∧
      s.walk (.element x) n = some (.element z) := by
  induction n generalizing x xs ys with
  | zero => exact ⟨x, rfl, rfl⟩
  | succ n ih =>
    obtain ⟨hnext, -⟩ := h.links hc
    cases ys with
    | nil => simp at hn
    | cons y ys =>
      have hc' : a.contents c = (xs ++ [x]) ++ y :: ys := by simp [hc]
      obtain ⟨z, hz, hwalk⟩ := ih hc' (by simpa using hn)
      refine ⟨z, ?_, ?_⟩
      · rw [List.take_succ_cons, List.take_succ_cons, List.getLast?_cons_cons,
          ← List.take_succ_cons, hz]
      · unfold State.walk
        rw [hnext]
        exact hwalk

/-- The loop of `pop_back` goes to the first one of the elements that are taken. -/
theorem Rep.walkBack_eq [DecidableEq T] (h : Rep s a) (hc : a.contents (.queue q) = xs ++ x :: ys)
    (n m : Nat) : ∃ us vs z, xs ++ [x] = us ++ vs ∧ us.length = xs.length - n ∧ vs.head? = some z ∧
      s.walkBack (.sentinel q) (.element x) (m + 1) n = some (.element z, m + vs.length) := by
  induction n generalizing x xs ys m with
  | zero => exact ⟨xs, [x], x, rfl, rfl, rfl, rfl⟩
  | succ n ih =>
    obtain ⟨-, hprev⟩ := h.links hc
    rw [getLast_hooks_queue] at hprev
    unfold State.walkBack
    rcases List.eq_nil_or_concat xs with hxs | ⟨us, y, hxs⟩
    · refine ⟨[], [x], x, by rw [hxs], by rw [hxs]; simp, rfl, ?_⟩
      rw [hprev, hxs]
      exact if_pos rfl
    · subst hxs
      have hc' : a.contents (.queue q) = us ++ y :: x :: ys := by simp [hc]
      obtain ⟨us', vs, z, hsplit, hlen, hz, hwalk⟩ := ih hc' (m + 1)
      have htail : (TSQueue.of q (us ++ [y])).tail = .element y := TSQueue.tail_of (by simp)
      refine ⟨us', vs ++ [x], z, ?_, ?_, ?_, ?_⟩
      · rw [List.concat_eq_append, hsplit, List.append_assoc]
      · rw [hlen, List.concat_eq_append, List.length_append]
        simp
      · rw [List.head?_append, hz]
        rfl
      · rw [hprev, List.concat_eq_append, htail, if_neg (by simp)]
        show s.walkBack (.sentinel q) (.element y) (m + 1 + 1) n = _
        rw [hwalk, List.length_append]
        congr 2
        simp
        omega

variable [DecidableEq T]

theorem check_update {check : Hook T → Option Nat} {check' : T → Option Nat}
    (h : ∀ y, check (.element y) = check' y) (x : T) (v : Option Nat) (y : T) :
    Function.update check (.element x) v (.element y) = Function.update check' x v y := by
  by_cases hy : y = x
  · rw [hy, Function.update_self, Function.update_self]
  · rw [Function.update_of_ne (by simpa using hy), Function.update_of_ne hy]
    exact h y

namespace Rep

/-! ## `TSQueue` -/

theorem pop (h : Rep s a) (q : Nat) :
    ∃ t, s.pop q = some (t, (a.pop q).2) ∧ Rep t (a.pop q).1 := by
  unfold Sequences.pop State.pop
  cases hxs : a.contents (.queue q) with
  | nil =>
    refine ⟨s, ?_, h⟩
    rw [h.queues q, hxs]
    exact if_pos rfl
  | cons x xs =>
    have hptr := h.links_sentinel q
    rw [hxs, List.head?_cons, Option.map_some] at hptr
    have hc : a.contents (.queue q) = [] ++ x :: xs := hxs
    obtain ⟨hnext, -⟩ := h.links hc
    obtain ⟨y, hy⟩ := exists_getLast x xs
    have htail : (TSQueue.of q (x :: xs)).tail = .element y := TSQueue.tail_of hy
    have hnd : ([x] ++ xs).Nodup := by
      have hq := h.apart.nodup (.queue q)
      rwa [hxs] at hq
    have hqueue := TSQueue.of_rest (q := q) hnd rfl
    refine ⟨((((s.setQueue q (.of q xs)).setNext (.sentinel q) (s.next (.element x))).setPrevIf
      (s.next (.element x)) (some (.sentinel q))).setNext (.element x) none).setPrev (.element x)
      none |>.setCheck (.element x) none, ?_, ?_, ?_, ?_, ?_⟩
    · rw [h.queues q, hxs]
      show (if Hook.sentinel q = (TSQueue.of q (x :: xs)).tail then _ else
        (s.next (.sentinel q)).bind _) = _
      rw [if_neg (by simp [htail]), hptr, ← hqueue]
      rfl
    · have hstrung := h.remove hc
      rw [← hnext] at hstrung
      exact hstrung
    · exact queues_put h.queues q xs
    · exact lists_other h.lists (queue_ne_list q) xs
    · exact check_update h.check x none

theorem push (h : Rep s a) (q : Nat) (habs : Absent a.contents x) :
    ∃ t, s.push q (.element x) = some (t, (a.contents (.queue q)).length + 1) ∧
      Rep t (a.push q x) := by
  obtain ⟨hnext, hprev⟩ := h.links_free habs
  have hlast : (hooks (.queue q) (a.contents (.queue q))).getLast? =
      some (TSQueue.of q (a.contents (.queue q))).tail := getLast_hooks_queue q _
  have htail := h.next_tail q
  have hqueue : (⟨.sentinel q, .element x, (a.contents (.queue q)).length + 1⟩ : TSQueue T) =
      .of q (a.contents (.queue q) ++ [x]) := by
    simp [TSQueue.of]
  refine ⟨(((s.setNext (TSQueue.of q (a.contents (.queue q))).tail (some (.element x))).setPrev
    (.element x) (some (TSQueue.of q (a.contents (.queue q))).tail)).setNext (.element x)
    none).setCheck (.element x) (some q) |>.setQueue q (.of q (a.contents (.queue q) ++ [x])),
    ?_, ?_, ?_, ?_, ?_⟩
  · simp [State.push, State.link, h.queues q, hnext, hprev, htail, ← hqueue]
  · have hstrung := h.insert (c := .queue q) habs
    rw [hlast] at hstrung
    -- `hook->next` is null already
    have hself : write (write s.next (some (TSQueue.of q (a.contents (.queue q))).tail)
        (some (.element x))) (some (.element x)) none =
        write s.next (some (TSQueue.of q (a.contents (.queue q))).tail) (some (.element x)) := by
      refine write_self fun y hy => ?_
      rw [← Option.some.inj hy, write_apply, if_neg fun heq => ?_]
      · exact hnext
      · rw [heq] at hlast
        exact habs (.queue q) (mem_hooks.1 (List.mem_of_getLast? hlast))
    rw [← hself] at hstrung
    exact hstrung
  · exact queues_put h.queues q (a.contents (.queue q) ++ [x])
  · exact lists_other h.lists (queue_ne_list q) (a.contents (.queue q) ++ [x])
  · exact check_update h.check x (some q)

theorem front (h : Rep s a) (q : Nat) :
    (s.front q).2 = (a.look q (a.contents (.queue q)).head?).2 ∧
      Rep (s.front q).1 (a.look q (a.contents (.queue q)).head?).1 := by
  have hnext := h.links_sentinel q
  unfold State.front Sequences.look
  rw [h.queues q, TSQueue.head_of, hnext]
  cases (a.contents (.queue q)).head? with
  | none => exact ⟨rfl, h⟩
  | some x => exact ⟨rfl, h.strung, h.queues, h.lists, check_update h.check x (some q)⟩

/-- An element divides the sequence that it is in. -/
theorem exists_split (h : Rep s a) (hx : x ∈ a.contents c) :
    ∃ xs ys, a.contents c = xs ++ x :: ys ∧ x ∉ xs ∧ (a.contents c).erase x = xs ++ ys ∧
      Lists.next (a.contents c) x = ys.head? := by
  obtain ⟨xs, ys, hc⟩ := List.append_of_mem hx
  have hnd := h.apart.nodup c
  rw [hc, List.nodup_middle, List.nodup_cons, List.mem_append, not_or] at hnd
  refine ⟨xs, ys, hc, hnd.1.1, ?_, ?_⟩
  · rw [hc, List.erase_append_right _ hnd.1.1, List.erase_cons_head]
  · rw [hc, Lists.next_append_cons hnd.1.1]

theorem nextOf (h : Rep s a) (hx : x ∈ a.contents (.queue q)) :
    (s.nextOf q (.element x)).2 = (a.look q (Lists.next (a.contents (.queue q)) x)).2 ∧
      Rep (s.nextOf q (.element x)).1 (a.look q (Lists.next (a.contents (.queue q)) x)).1 := by
  obtain ⟨xs, ys, hc, -, -, hout⟩ := h.exists_split hx
  obtain ⟨hnext, -⟩ := h.links hc
  unfold State.nextOf Sequences.look
  rw [hout, hnext]
  cases ys.head? with
  | none => exact ⟨rfl, h⟩
  | some y => exact ⟨rfl, h.strung, h.queues, h.lists, check_update h.check y (some q)⟩

theorem erase_linked (h : Rep s a) (hc : a.contents (.queue q) = xs ++ x :: ys) (hnot : x ∉ xs)
    {check : Bool} (hcheck : ¬ (check = true ∧ s.check (.element x) ≠ some q)) :
    ∃ t, s.erase q (.element x) check = some (t, true) ∧
      Rep t ((a.put (.queue q) (xs ++ ys)).tag x none) := by
  obtain ⟨hnext, hprev⟩ := h.links hc
  rw [getLast_hooks_queue] at hprev
  have hne : ¬ (TSQueue.of q xs).tail = Hook.element x := by
    intro heq
    have hmem := List.mem_of_getLast? (getLast_hooks_queue q xs)
    rw [heq, mem_hooks] at hmem
    exact hnot hmem
  refine ⟨((((s.setNext (TSQueue.of q xs).tail (s.next (.element x))).setPrevIf
    (s.next (.element x)) (some (TSQueue.of q xs).tail)).setNext (.element x) none).setPrev
    (.element x) none).setCheck (.element x) none |>.setQueue q (.of q (xs ++ ys)), ?_, ?_, ?_,
    ?_, ?_⟩
  · have hkept : ∀ v, Function.update s.next (TSQueue.of q xs).tail v (.element x) =
        ys.head?.map .element := by
      intro v
      rw [Function.update_of_ne (Ne.symm hne), hnext]
    unfold State.erase
    simp only [if_neg hcheck, hprev, h.queues q, hc]
    cases ys with
    | nil =>
      -- the last element goes, and the one in front of it becomes the last one
      have htail : (TSQueue.of q (xs ++ [x])).tail = .element x := TSQueue.tail_of (by simp)
      have hqueue : (⟨.sentinel q, (TSQueue.of q xs).tail, xs.length⟩ : TSQueue T) = .of q xs := rfl
      simp [htail, hkept, write, hnext, hprev, hqueue]
    | cons y ys =>
      have htail : (TSQueue.of q (xs ++ x :: y :: ys)).tail =
          (TSQueue.of q (xs ++ y :: ys)).tail := by
        have hsplit : xs ++ x :: y :: ys = (xs ++ [x]) ++ y :: ys := by simp
        rw [hsplit, TSQueue.tail_append_cons, TSQueue.tail_append_cons]
      have hqueue : (⟨.sentinel q, (TSQueue.of q (xs ++ y :: ys)).tail,
          xs.length + (ys.length + 1)⟩ : TSQueue T) = .of q (xs ++ y :: ys) := by
        simp [TSQueue.of]
      have hcount : 0 < xs.length + (ys.length + 1 + 1) := by omega
      simp [htail, hkept, hnext, hqueue, hcount]
  · have hstrung := h.remove hc
    rw [getLast_hooks_queue, ← hnext] at hstrung
    exact hstrung
  · exact queues_put h.queues q (xs ++ ys)
  · exact lists_other h.lists (queue_ne_list q) (xs ++ ys)
  · exact check_update h.check x none

theorem erase (h : Rep s a) (hx : x ∈ a.contents (.queue q)) (check : Bool) :
    ∃ t, s.erase q (.element x) check = some (t, (a.erase q x check).2) ∧
      Rep t (a.erase q x check).1 := by
  obtain ⟨xs, ys, hc, hnot, herase, -⟩ := h.exists_split hx
  unfold Sequences.erase
  rw [← h.check, herase]
  by_cases hcheck : check = true ∧ s.check (.element x) ≠ some q
  · rw [if_pos hcheck]
    refine ⟨s, ?_, h⟩
    unfold State.erase
    rw [if_pos hcheck]
    rfl
  · rw [if_neg hcheck]
    exact h.erase_linked hc hnot hcheck

theorem pushList (h : Rep s a) (q i : Nat) :
    ∃ t, s.pushList q i = some t ∧ Rep t (a.join (.queue q) (.list i)) := by
  cases hys : a.contents (.list i) with
  | nil =>
    refine ⟨s, ?_, ?_⟩
    · simp [State.pushList, h.lists i, hys, SList.of]
    · rw [a.join_nil hys]
      exact h
  | cons y ys =>
    obtain ⟨z, hz⟩ := exists_getLast y ys
    have hc : a.contents (.list i) = [] ++ y :: ys := hys
    obtain ⟨-, hprev⟩ := h.links hc
    have hnext : s.next (.element z) = none := by
      refine (h.strung.linked (.held (.list i))).next_last ?_
      rw [family, hys, hooks, List.getLast?_map, hz]
      rfl
    have hlist := SList.of_eq (List.head?_cons : (y :: ys).head? = some y) hz
    have hqueue : (⟨.sentinel q, .element z,
        (a.contents (.queue q)).length + (y :: ys).length⟩ : TSQueue T) =
        .of q (a.contents (.queue q) ++ y :: ys) := by
      have hlast : (a.contents (.queue q) ++ y :: ys).getLast? = some z := by
        rw [List.getLast?_append_cons, hz]
      rw [← TSQueue.tail_of (q := q) hlast, ← List.length_append]
      rfl
    refine ⟨((s.setNext (TSQueue.of q (a.contents (.queue q))).tail (some (.element y))).setPrev
      (.element y) (some (TSQueue.of q (a.contents (.queue q))).tail)).setQueue q
      (.of q (a.contents (.queue q) ++ y :: ys)) |>.setList i .empty, ?_, ?_, ?_, ?_, ?_⟩
    · have hprev' : s.prev (.element y) = none := hprev
      simp [State.pushList, State.link, h.lists i, hys, hlist, hprev', hnext, h.queues q,
        h.next_tail q, ← hqueue]
    · have hstrung := h.join (queue_ne_list q i) (plain_list i)
      rw [getLast_hooks_queue, hys] at hstrung
      exact hstrung
    · have hput := queues_put h.queues q (a.contents (.queue q) ++ y :: ys)
      have hplain := queues_plain hput (plain_list i) []
      rw [← hys] at hplain ⊢
      exact hplain
    · have hother := lists_other h.lists (queue_ne_list q)
        (a.contents (.queue q) ++ a.contents (.list i))
      exact lists_put hother i []
    · exact h.check

/-- `pop_front` takes out the part `ys`, if its loop ends at the last element of it. -/
theorem popFront_split (h : Rep s a) (hreturned : a.contents .returned = []) {w z : T}
    (hc : a.contents (.queue q) = ys ++ zs) (hw : ys.head? = some w) (hz : ys.getLast? = some z)
    (hwalk : s.walkFront (.element w) 1 (n - 1) = (.element z, ys.length)) :
    ∃ t, s.popFront q n = some (t, .of ys) ∧ Rep t (a.divide (.queue q) .returned zs ys) := by
  have hfirst := h.links_sentinel q
  have hcons : ys = ys.dropLast ++ [z] := (List.dropLast_append_getLast? z hz).symm
  have hc' : a.contents (.queue q) = ys.dropLast ++ z :: zs := by
    rw [hc]
    nth_rewrite 1 [hcons]
    simp
  obtain ⟨hnext, -⟩ := h.links hc'
  have hfront : (ys ++ zs).head? = some w := by rw [List.head?_append, hw]; rfl
  obtain ⟨y, hy⟩ : ∃ y, (ys ++ zs).getLast? = some y := by
    cases hys : ys ++ zs with
    | nil =>
      rw [hys] at hfront
      cases hfront
    | cons u us => exact exists_getLast u us
  have htail : (TSQueue.of q (ys ++ zs)).tail = .element y := TSQueue.tail_of hy
  have hnd := h.apart.nodup (.queue q)
  rw [hc] at hnd
  have hqueue := TSQueue.of_rest (q := q) hnd hz
  rw [hc, hfront, Option.map_some] at hfirst
  have hlist := SList.of_eq hw hz
  refine ⟨(((s.setQueue q (.of q zs)).setNext (.sentinel q) (s.next (.element z))).setPrevIf
    (s.next (.element z)) (some (.sentinel q))).setNext (.element z) none |>.setPrev (.element w)
    none, ?_, h.divided ?_ rfl rfl rfl⟩
  · rw [htail] at hqueue
    simp [State.popFront, h.queues q, hc, htail, hfirst, hwalk, hlist, ← hqueue]
  · have hparts : a.contents (.queue q) = [] ++ ys ++ zs := hc
    have hstrung := h.divide (by simp) plain_returned hparts hreturned
    rw [← hnext, hz, hw] at hstrung
    exact hstrung

theorem popFront (h : Rep s a) (hreturned : a.contents .returned = []) (hn : 1 ≤ n) (q : Nat) :
    ∃ t, s.popFront q n = some (t, .of ((a.contents (.queue q)).take n)) ∧
      Rep t (a.divide (.queue q) .returned ((a.contents (.queue q)).drop n)
        ((a.contents (.queue q)).take n)) := by
  cases hxs : a.contents (.queue q) with
  | nil =>
    refine ⟨s, ?_, ?_⟩
    · simp [State.popFront, h.queues q, hxs, TSQueue.of, SList.of, SList.empty]
    · rw [List.drop_nil, List.take_nil, a.divide_self hxs hreturned]
      exact h
  | cons x xs =>
    obtain ⟨k, rfl⟩ : ∃ k, n = k + 1 := ⟨n - 1, by omega⟩
    have hc : a.contents (.queue q) = [] ++ x :: xs := hxs
    obtain ⟨z, hz, hwalk⟩ := h.walkFront_eq hc k 0
    rw [Nat.zero_add, Nat.zero_add] at hwalk
    refine h.popFront_split hreturned ?_ rfl hz hwalk
    rw [hxs, List.take_append_drop]

theorem popBack (h : Rep s a) (hreturned : a.contents .returned = []) (hn : 1 ≤ n) (q : Nat) :
    ∃ t, s.popBack q n = some (t, .of ((a.contents (.queue q)).drop
        ((a.contents (.queue q)).length - n))) ∧
      Rep t (a.divide (.queue q) .returned
        ((a.contents (.queue q)).take ((a.contents (.queue q)).length - n))
        ((a.contents (.queue q)).drop ((a.contents (.queue q)).length - n))) := by
  rcases List.eq_nil_or_concat (a.contents (.queue q)) with hxs | ⟨xs, x, hxs⟩
  · rw [hxs]
    refine ⟨s, ?_, ?_⟩
    · simp [State.popBack, h.queues q, hxs, TSQueue.of, SList.of, SList.empty]
    · rw [List.drop_nil, List.take_nil, a.divide_self hxs hreturned]
      exact h
  · rw [List.concat_eq_append] at hxs
    obtain ⟨us, vs, z, hsplit, hlen, hz, hwalk⟩ := h.walkBack_eq hxs (n - 1) 0
    have hlen' : (xs ++ [x]).length - n = us.length := by
      rw [hlen, List.length_append, List.length_singleton]
      omega
    have hlast : vs.getLast? = some x := by
      have hboth : (us ++ vs).getLast? = some x := by rw [← hsplit]; simp
      cases vs with
      | nil => cases hz
      | cons v vs => rwa [List.getLast?_append_cons] at hboth
    rw [hxs, hlen', hsplit, List.take_left, List.drop_left]
    have hc : a.contents (.queue q) = us ++ vs := by rw [hxs, hsplit]
    obtain ⟨vs', rfl⟩ : ∃ vs', vs = z :: vs' := by
      cases vs with
      | nil => cases hz
      | cons v vs' => exact ⟨vs', by rw [(Option.some.inj hz : v = z)]⟩
    obtain ⟨-, hprev⟩ := h.links hc
    rw [getLast_hooks_queue] at hprev
    have htail : (TSQueue.of q (us ++ z :: vs')).tail = .element x := by
      rw [← hsplit]
      exact TSQueue.tail_of (by simp)
    have hlist := SList.of_eq hz hlast
    have hqueue : (⟨.sentinel q, (TSQueue.of q us).tail, us.length⟩ : TSQueue T) = .of q us := rfl
    refine ⟨((s.setQueue q (.of q us)).setNext (TSQueue.of q us).tail none).setPrev (.element z)
      none, ?_, h.divided ?_ rfl rfl rfl⟩
    · rw [Nat.zero_add, Nat.zero_add] at hwalk
      simp [State.popBack, h.queues q, hc, htail, hwalk, hprev, hlist, hqueue]
    · have hparts : a.contents (.queue q) = us ++ z :: vs' ++ [] := by simp [hc]
      have hstrung := h.divide (by simp) plain_returned hparts hreturned
      rw [hlast, List.append_nil, getLast_hooks_queue] at hstrung
      -- the link forward of the last element is null already
      have hself : write (write s.next (some (TSQueue.of q us).tail) none)
          (some (.element x)) none = write s.next (some (TSQueue.of q us).tail) none := by
        refine write_self fun y hy => ?_
        rw [write_apply]
        split
        · rfl
        · rw [← Option.some.inj hy, ← htail, ← hc]
          exact h.next_tail q
      rw [List.head?_nil, Option.map_none, Option.map_some, hself] at hstrung
      exact hstrung

theorem popAll (h : Rep s a) (hreturned : a.contents .returned = []) (q : Nat) :
    ∃ t, s.popAll q = some (t, .of (a.contents (.queue q))) ∧
      Rep t (a.divide (.queue q) .returned [] (a.contents (.queue q))) := by
  cases hxs : a.contents (.queue q) with
  | nil =>
    refine ⟨s, ?_, ?_⟩
    · simp [State.popAll, h.queues q, hxs, TSQueue.of, SList.of, SList.empty]
    · rw [a.divide_self hxs hreturned]
      exact h
  | cons x xs =>
    obtain ⟨z, hz⟩ := exists_getLast x xs
    have htail : (TSQueue.of q (x :: xs)).tail = .element z := TSQueue.tail_of hz
    have hfirst := h.links_sentinel q
    rw [hxs, List.head?_cons, Option.map_some] at hfirst
    have hlist := SList.of_eq (List.head?_cons : (x :: xs).head? = some x) hz
    have hqueue : (⟨.sentinel q, .sentinel q, 0⟩ : TSQueue T) = .of q [] := rfl
    refine ⟨((s.setQueue q (.of q [])).setNext (.sentinel q) none).setNext (.element z) none
      |>.setPrev (.element x) none, ?_, h.divided ?_ rfl rfl rfl⟩
    · simp [State.popAll, h.queues q, hxs, htail, hfirst, hlist, hqueue]
    · have hparts : a.contents (.queue q) = [] ++ x :: xs ++ [] := by simp [hxs]
      have hstrung := h.divide (by simp) plain_returned hparts hreturned
      rw [hz] at hstrung
      exact hstrung

/-! ## `SList` -/

theorem eraseElement (h : Rep s a) (hc : a.contents (.list i) = xs ++ x :: ys) :
    ∃ t, s.eraseElement i (.element x) = some t ∧ Rep t (a.put (.list i) (xs ++ ys)) := by
  obtain ⟨hnext, hprev⟩ := h.links hc
  have hstrung := h.remove hc
  have hnd := h.apart.nodup (.list i)
  rw [hc, List.nodup_middle, List.nodup_cons, List.mem_append, not_or] at hnd
  rw [hooks_plain (plain_list i), List.getLast?_map] at hprev hstrung
  have heval : s.eraseElement i (.element x) = some
      { s with
        next := write (write s.next (xs.getLast?.map .element) (ys.head?.map .element))
          (some (.element x)) none
        prev := write (write s.prev (ys.head?.map .element) (xs.getLast?.map .element))
          (some (.element x)) none
        lists := Function.update s.lists i (.of (xs ++ ys)) } := by
    have hlist := h.lists i
    rw [hc] at hlist
    rcases List.eq_nil_or_concat xs with hxs | ⟨us, u, hxs⟩
    · subst hxs
      cases ys with
      | nil =>
        simp [State.eraseElement, hprev, hnext, hlist, SList.of, State.setNext, State.setPrev,
          State.setList, write]
      | cons y ys =>
        simp [State.eraseElement, hprev, hnext, hlist, SList.of, State.setNext, State.setPrev,
          State.setList, write]
    · rw [List.concat_eq_append] at hxs
      have hne : ¬ x = u := by
        intro heq
        rw [hxs, heq] at hnd
        exact hnd.1.1 (by simp)
      subst hxs
      cases ys with
      | nil =>
        simp [State.eraseElement, hprev, hnext, hlist, SList.of, State.setNext, State.setPrev,
          State.setList, write, hne]
      | cons y ys =>
        simp [State.eraseElement, hprev, hnext, hlist, SList.of, State.setNext, State.setPrev,
          State.setList, write, hne]
  exact ⟨_, heval, h.relisted hstrung rfl rfl rfl⟩

/-- The loop visits the elements that are left, and keeps those that are to be kept: an iteration
has looked at the link forward before it erases. -/
theorem traverse (keep : Hook T → Bool) (h : Rep s a) (hc : a.contents (.list i) = xs ++ ys)
    {it : Iterator T} (hptr : it.ptr = ys.head?.map .element)
    (hnext : it.next = ys.tail.head?.map .element) :
    ∃ t, State.traverse i keep ys.length s it = some (t, ys.map .element) ∧
      Rep t (a.put (.list i) (xs ++ ys.filter (keep <| .element ·))) := by
  induction ys generalizing s a xs it with
  | nil =>
    refine ⟨s, ?_, ?_⟩
    · unfold State.traverse
      rw [hptr]
      rfl
    · rw [List.filter_nil, ← hc, a.put_self]
      exact h
  | cons y ys ih =>
    rw [List.tail_cons] at hnext
    have hc' : a.contents (.list i) = (xs ++ [y]) ++ ys := by simp [hc]
    obtain ⟨hptr', hnext'⟩ := h.iterator_eq hc'
    cases hkeep : keep (.element y) with
    | true =>
      obtain ⟨t, ht, hrep⟩ := ih h hc' hptr' hnext'
      refine ⟨t, ?_, ?_⟩
      · unfold State.traverse
        simp [hptr, hkeep, hnext, ht]
      · rw [List.filter_cons_of_pos (by simp [hkeep])]
        rwa [List.append_assoc] at hrep
    | false =>
      obtain ⟨u, hu, hrepu⟩ := h.eraseElement hc
      have hcu : (a.put (.list i) (xs ++ ys)).contents (.list i) = xs ++ ys :=
        Function.update_self ..
      obtain ⟨t, ht, hrep⟩ := ih hrepu hcu hptr' hnext'
      refine ⟨t, ?_, ?_⟩
      · unfold State.traverse
        simp [hptr, hkeep, State.eraseIterator, hnext, hu, ht]
      · rw [List.filter_cons_of_neg (by simp [hkeep])]
        rwa [a.put_put] at hrep

theorem clear (h : Rep s a) (i : Nat) : ∃ t, s.clear i = some t ∧ Rep t (a.put (.list i) []) := by
  have hc : a.contents (.list i) = [] ++ a.contents (.list i) := rfl
  obtain ⟨hptr, hnext⟩ := h.iterator_eq hc
  obtain ⟨t, ht, hrep⟩ := h.traverse (fun _ => false) hc hptr hnext
  rw [List.nil_append, List.filter_false] at hrep
  refine ⟨t.setList i .empty, ?_, ?_⟩
  · simp [State.clear, h.lists i, SList.of, ht]
  · have hrelisted : Rep (t.setList i .empty) ((a.put (.list i) []).put (.list i) []) := by
      refine hrep.relisted ?_ rfl rfl rfl
      rw [a.put_put]
      exact hrep.strung
    rwa [a.put_put] at hrelisted

theorem assign (h : Rep s a) (i : Nat) :
    ∃ t, s.assign i (.of (a.contents .returned)) = some t ∧
      Rep t ((a.put (.list i) []).join (.list i) .returned) := by
  obtain ⟨t, ht, hrep⟩ := h.clear i
  have hreturned := a.contents_put_of_ne (returned_ne_list i) []
  refine ⟨t.setList i (.of (a.contents .returned)), ?_, ?_, ?_, ?_, hrep.check⟩
  · simp [State.assign, ht]
  · exact hrep.rename (returned_ne_list i).symm (plain_list i) plain_returned (a.contents_put _ _)
  · exact hrep.queues_join (plain_list i) plain_returned
  · rw [Sequences.join, a.contents_put, List.nil_append, hreturned]
    exact lists_other (lists_put hrep.lists i (a.contents .returned)) returned_ne_list []

theorem move (h : Rep s a) (j i : Nat) :
    ∃ t, s.move j i = some t ∧ Rep t ((a.put (.list i) []).join (.list i) (.list j)) := by
  obtain ⟨t, ht, hrep⟩ := h.clear i
  by_cases hij : j = i
  · -- a list that is moved to itself is cleared
    subst hij
    have hempty : t.lists j = .empty := by
      rw [hrep.lists j, a.contents_put]
      rfl
    rw [Sequences.join_nil _ (a.contents_put _ _)]
    refine ⟨t, ?_, hrep⟩
    simp [State.move, ht, ← hempty]
  · have hne : Container.list j ≠ .list i := by simpa using hij
    have hj := a.contents_put_of_ne hne []
    refine ⟨(t.setList i (.of (a.contents (.list j)))).setList j .empty, ?_, ?_, ?_, ?_,
      hrep.check⟩
    · simp [State.move, ht, hrep.lists j, hj]
    · exact hrep.rename hne.symm (plain_list i) (plain_list j) (a.contents_put _ _)
    · exact hrep.queues_join (plain_list i) (plain_list j)
    · rw [Sequences.join, a.contents_put, List.nil_append, hj]
      exact lists_put (lists_put hrep.lists i (a.contents (.list j))) j []

theorem append (h : Rep s a) (hij : i ≠ j) :
    ∃ t, s.append i j = some t ∧ Rep t (a.join (.list i) (.list j)) := by
  cases hys : a.contents (.list j) with
  | nil =>
    refine ⟨s, ?_, ?_⟩
    · simp [State.append, h.lists j, hys, SList.of]
    · rw [a.join_nil hys]
      exact h
  | cons y ys =>
    cases hxs : a.contents (.list i) with
    | nil =>
      obtain ⟨t, ht, hrep⟩ := h.move j i
      have hsame : a.put (.list i) [] = a := by
        rw [← hxs]
        exact a.put_self _
      rw [hsame] at hrep
      refine ⟨t, ?_, hrep⟩
      simp [State.append, h.lists i, h.lists j, hxs, hys, SList.of, ht]
    | cons x xs =>
      have hne : Container.list i ≠ .list j := by simpa using hij
      obtain ⟨w, hw⟩ := exists_getLast x xs
      obtain ⟨z, hz⟩ := exists_getLast y ys
      have hc : a.contents (.list j) = [] ++ y :: ys := hys
      have hprev : s.prev (.element y) = none := (h.links hc).2
      have hnext : s.next (.element w) = none := by
        refine (h.strung.linked (.held (.list i))).next_last ?_
        rw [family, hxs, hooks, List.getLast?_map, hw]
        rfl
      have hlist : SList.of (x :: xs ++ y :: ys) =
          ⟨some (.element x), some (.element z), (x :: xs).length + (y :: ys).length⟩ := by
        rw [← List.length_append]
        exact SList.of_eq rfl (by rw [List.getLast?_append_cons, hz])
      refine ⟨((s.setNext (.element w) (some (.element y))).setPrev (.element y)
        (some (.element w))).setList i (.of (x :: xs ++ y :: ys)) |>.setList j .empty,
        ?_, ?_, ?_, ?_, h.check⟩
      · rw [hlist]
        simp [State.append, State.link, h.lists i, h.lists j, hxs, hys, SList.of_eq rfl hw,
          SList.of_eq rfl hz, hprev, hnext]
      · have hstrung := h.join hne (plain_list j)
        rw [hooks_plain (plain_list i), List.getLast?_map, hxs, hw, hys] at hstrung
        exact hstrung
      · exact h.queues_join (plain_list i) (plain_list j)
      · rw [Sequences.join, hxs, hys]
        exact lists_put (lists_put h.lists i (x :: xs ++ y :: ys)) j []

theorem cut_split (h : Rep s a) (hreturned : a.contents .returned = [])
    (hc : a.contents (.list i) = ys ++ zs) {v w z : T} (hv : ys.head? = some v)
    (hz : ys.getLast? = some z) (hw : zs.head? = some w) (hn : n = ys.length)
    (hwalk : s.walk (.element v) (n - 1) = some (.element z)) :
    ∃ t, s.cut i n = some (t, .of ys) ∧ Rep t (a.divide (.list i) .returned zs ys) := by
  obtain ⟨ys', hys⟩ : ∃ ys', ys = ys' ++ [z] := ⟨ys.dropLast, (List.dropLast_append_getLast? z hz).symm⟩
  obtain ⟨zs', rfl⟩ : ∃ zs', zs = w :: zs' := by
    cases zs with
    | nil => cases hw
    | cons w' zs' => exact ⟨zs', by rw [(Option.some.inj hw : w' = w)]⟩
  have hc' : a.contents (.list i) = ys' ++ z :: w :: zs' := by
    rw [hc, hys]
    simp
  obtain ⟨hnext, -⟩ := h.links hc'
  obtain ⟨-, hprev⟩ := h.links hc
  rw [hooks_plain (plain_list i), List.getLast?_map, hz] at hprev
  obtain ⟨u, hu⟩ := exists_getLast w zs'
  have hhead : (ys ++ w :: zs').head? = some v := by
    rw [List.head?_append, hv]
    rfl
  have hlast : (ys ++ w :: zs').getLast? = some u := by rw [List.getLast?_append_cons, hu]
  have hpos : ¬ (ys = []) := by simp [hys]
  refine ⟨((s.setList i (.of (w :: zs'))).setNext (.element z) none).setPrev (.element w) none,
    ?_, ?_, ?_, ?_, h.check⟩
  · have hlist : SList.of (w :: zs') =
        ⟨some (.element w), some (.element u), zs'.length + 1⟩ := SList.of_eq rfl hu
    rw [hlist]
    simp [State.cut, State.unlink, h.lists i, hc, SList.of_eq hhead hlast, SList.of_eq hv hz, hn,
      hpos, hn ▸ hwalk, hnext, hprev]
  · have hparts : a.contents (.list i) = [] ++ ys ++ w :: zs' := hc
    have hstrung := h.divide (by simp) plain_returned hparts hreturned
    have hfirst : s.prev (.element v) = none := by
      refine (h.strung.linked (.held (.list i))).prev_head ?_
      rw [family, hc, hooks, List.head?_map, hhead]
      rfl
    -- the link back of the first element is null already
    have hself : write (write s.prev (some (.element w)) none) (some (.element v)) none =
        write s.prev (some (.element w)) none := by
      refine write_self fun y hy => ?_
      rw [write_apply]
      split
      · rfl
      · rw [← Option.some.inj hy]
        exact hfirst
    have hnone : (hooks (.list i) ([] : List T)).getLast? = none := rfl
    rw [hv, hz, hnone, List.head?_cons, Option.map_some, Option.map_some, Option.map_some,
      hself] at hstrung
    exact hstrung
  · exact queues_plain (queues_plain h.queues (plain_list i) (w :: zs')) plain_returned ys
  · exact lists_other (lists_put h.lists i (w :: zs')) returned_ne_list ys

theorem cut (h : Rep s a) (hreturned : a.contents .returned = []) (i n : Nat) :
    ∃ t, s.cut i n = some (t, .of ((a.contents (.list i)).take n)) ∧
      Rep t (a.divide (.list i) .returned ((a.contents (.list i)).drop n)
        ((a.contents (.list i)).take n)) := by
  cases hxs : a.contents (.list i) with
  | nil =>
    refine ⟨s, ?_, ?_⟩
    · simp [State.cut, h.lists i, hxs, SList.of, SList.empty]
    · rw [List.drop_nil, List.take_nil, a.divide_self hxs hreturned]
      exact h
  | cons x xs =>
    obtain ⟨z, hz⟩ := exists_getLast x xs
    by_cases hall : (x :: xs).length ≤ n
    · -- the whole list is returned
      rw [List.drop_of_length_le hall, List.take_of_length_le hall]
      rw [← hxs, a.divide_all (returned_ne_list i) hreturned]
      refine ⟨s.setList i .empty, ?_, ?_, ?_, ?_, h.check⟩
      · simp [State.cut, h.lists i, hxs, SList.of_eq rfl hz, List.length_cons ▸ hall]
      · exact h.rename (returned_ne_list i) plain_returned (plain_list i) hreturned
      · exact h.queues_join plain_returned (plain_list i)
      · exact lists_put (lists_other h.lists returned_ne_list
          (a.contents .returned ++ a.contents (.list i))) i []
    · by_cases hzero : n = 0
      · subst hzero
        refine ⟨s, ?_, ?_⟩
        · simp [State.cut, h.lists i, hxs, SList.of, SList.empty]
        · rw [List.drop_zero, List.take_zero, a.divide_self hxs hreturned]
          exact h
      · obtain ⟨k, rfl⟩ : ∃ k, n = k + 1 := ⟨n - 1, by omega⟩
        rw [List.length_cons] at hall
        have hc : a.contents (.list i) = [] ++ x :: xs := hxs
        have hk : k ≤ xs.length := by omega
        obtain ⟨y, hy, hwalk⟩ := h.walk_eq hc hk
        obtain ⟨w, hw⟩ : ∃ w, ((x :: xs).drop (k + 1)).head? = some w := by
          refine exists_head_of_ne_nil fun hnil => ?_
          rw [List.drop_eq_nil_iff, List.length_cons] at hnil
          omega
        refine h.cut_split hreturned ?_ rfl hy hw ?_ hwalk
        · rw [hxs, List.take_append_drop]
        · rw [List.length_take, List.length_cons]
          omega

theorem eraseIterator (h : Rep s a) (hx : x ∈ a.contents (.list i)) :
    ∃ t it, s.eraseIterator i (s.iterator (some (.element x))) = some (t, it) ∧
      it.ptr = (Lists.next (a.contents (.list i)) x).map .element ∧
      Rep t (a.put (.list i) ((a.contents (.list i)).erase x)) := by
  obtain ⟨xs, ys, hc, -, herase, hout⟩ := h.exists_split hx
  obtain ⟨hnext, -⟩ := h.links hc
  obtain ⟨t, ht, hrep⟩ := h.eraseElement hc
  refine ⟨t, s.iterator (s.next (.element x)), ?_, ?_, ?_⟩
  · simp [State.eraseIterator, State.iterator, ht]
  · rw [hout]
    exact hnext
  · rw [herase]
    exact hrep

/-! ## What is returned -/

/-- What a function returns goes to a list of the caller. -/
theorem assignDivided (h : Rep t (a.divide c .returned xs ys)) (hne : c ≠ .returned)
    (hreturned : a.contents .returned = []) (i : Nat) :
    ∃ u, t.assign i (.of ys) = some u ∧ Rep u (a.divide c (.list i) xs ys) := by
  have hout : (a.divide c .returned xs ys).contents .returned = ys :=
    (a.put c xs).contents_put .returned ys
  obtain ⟨u, hu, hrep⟩ := h.assign i
  rw [hout] at hu
  rw [a.divide_returned hne hreturned] at hrep
  exact ⟨u, hu, hrep⟩

end Rep

/-! ## All calls -/

/-- The lists that functions return have all been assigned. -/
theorem Sequences.returned_apply (a : Sequences T) (op : Op T) :
    (a.apply op).1.contents .returned = a.contents .returned := by
  cases op with
  | push q x => exact a.contents_put_of_ne (returned_ne_queue q) (a.contents (.queue q) ++ [x])
  | pushList q i => exact a.returned_join (returned_ne_queue q) (returned_ne_list i)
  | pop q =>
    show (a.pop q).1.contents .returned = _
    unfold Sequences.pop
    split
    · rfl
    · rename_i x xs hxs
      exact a.contents_put_of_ne (returned_ne_queue q) xs
  | popFront q n i => exact a.returned_divide (returned_ne_queue q) (returned_ne_list i) _ _
  | popBack q n i => exact a.returned_divide (returned_ne_queue q) (returned_ne_list i) _ _
  | popAll q i => exact a.returned_divide (returned_ne_queue q) (returned_ne_list i) _ _
  | erase q x check =>
    show (a.erase q x check).1.contents .returned = _
    unfold Sequences.erase
    split
    · rfl
    · exact a.contents_put_of_ne (returned_ne_queue q) ((a.contents (.queue q)).erase x)
  | front q => exact a.returned_look q _
  | next q x => exact a.returned_look q _
  | append i j => exact a.returned_join (returned_ne_list i) (returned_ne_list j)
  | cut i n j => exact a.returned_divide (returned_ne_list i) (returned_ne_list j) _ _
  | move j i =>
    have hput := a.contents_put_of_ne (returned_ne_list i) []
    rw [← hput]
    exact (a.put (.list i) []).returned_join (returned_ne_list i) (returned_ne_list j)
  | clear i => exact a.contents_put_of_ne (returned_ne_list i) _
  | eraseIterator i x => exact a.contents_put_of_ne (returned_ne_list i) _
  | traverse i keep => exact a.contents_put_of_ne (returned_ne_list i) _

/-- Every call has a result, and it is what the sequences say. -/
theorem Rep.apply (h : Rep s a) (hreturned : a.contents .returned = []) {op : Op T}
    (hop : a.Legal op) : ∃ t, s.apply op = some (t, (a.apply op).2) ∧ Rep t (a.apply op).1 := by
  cases op with
  | push q x =>
    obtain ⟨t, ht, hrep⟩ := h.push q hop
    exact ⟨t, by simp [State.apply, ht, Sequences.apply], hrep⟩
  | pushList q i =>
    obtain ⟨t, ht, hrep⟩ := h.pushList q i
    exact ⟨t, by simp [State.apply, ht, Sequences.apply], hrep⟩
  | pop q =>
    obtain ⟨t, ht, hrep⟩ := h.pop q
    exact ⟨t, by simp [State.apply, ht, Sequences.apply], hrep⟩
  | popFront q n i =>
    obtain ⟨t, ht, hrep⟩ := h.popFront hreturned hop q
    obtain ⟨u, hu, hrep⟩ := hrep.assignDivided (by simp) hreturned i
    exact ⟨u, by simp [State.apply, ht, hu, Sequences.apply], hrep⟩
  | popBack q n i =>
    obtain ⟨t, ht, hrep⟩ := h.popBack hreturned hop q
    obtain ⟨u, hu, hrep⟩ := hrep.assignDivided (by simp) hreturned i
    exact ⟨u, by simp [State.apply, ht, hu, Sequences.apply], hrep⟩
  | popAll q i =>
    obtain ⟨t, ht, hrep⟩ := h.popAll hreturned q
    obtain ⟨u, hu, hrep⟩ := hrep.assignDivided (by simp) hreturned i
    exact ⟨u, by simp [State.apply, ht, hu, Sequences.apply], hrep⟩
  | erase q x check =>
    obtain ⟨t, ht, hrep⟩ := h.erase hop check
    exact ⟨t, by simp [State.apply, ht, Sequences.apply], hrep⟩
  | front q =>
    obtain ⟨hout, hrep⟩ := h.front q
    exact ⟨(s.front q).1, by simp [State.apply, hout, Sequences.apply], hrep⟩
  | next q x =>
    obtain ⟨hout, hrep⟩ := h.nextOf hop
    exact ⟨(s.nextOf q (.element x)).1, by simp [State.apply, hout, Sequences.apply], hrep⟩
  | append i j =>
    obtain ⟨t, ht, hrep⟩ := h.append hop
    exact ⟨t, by simp [State.apply, ht, Sequences.apply], hrep⟩
  | cut i n j =>
    obtain ⟨t, ht, hrep⟩ := h.cut hreturned i n
    obtain ⟨u, hu, hrep⟩ := hrep.assignDivided (by simp) hreturned j
    exact ⟨u, by simp [State.apply, ht, hu, Sequences.apply], hrep⟩
  | move j i =>
    obtain ⟨t, ht, hrep⟩ := h.move j i
    exact ⟨t, by simp [State.apply, ht, Sequences.apply], hrep⟩
  | clear i =>
    obtain ⟨t, ht, hrep⟩ := h.clear i
    exact ⟨t, by simp [State.apply, ht, Sequences.apply], hrep⟩
  | eraseIterator i x =>
    obtain ⟨t, it, ht, hptr, hrep⟩ := h.eraseIterator hop
    exact ⟨t, by simp [State.apply, ht, hptr, Sequences.apply], hrep⟩
  | traverse i keep =>
    have hc : a.contents (.list i) = [] ++ a.contents (.list i) := rfl
    obtain ⟨hptr, hnext⟩ := h.iterator_eq hc
    obtain ⟨t, ht, hrep⟩ := h.traverse keep hc hptr hnext
    refine ⟨t, ?_, hrep⟩
    have hlist := h.lists i
    simp only [State.apply, hlist]
    simp only [SList.of]
    rw [ht]
    rfl

/-- Where a hook is at first. -/
def home : Hook T → Place T
  | .sentinel q => .held (.queue q)
  | .element x => .free x

omit [DecidableEq T] in
theorem family_initial (p : Place T) :
    family Sequences.initial.contents p = [] ∨
      ∃ h : Hook T, family Sequences.initial.contents p = [h] ∧ home h = p := by
  rcases p with (q | i | _) | x
  · exact .inr ⟨.sentinel q, rfl, rfl⟩
  · exact .inl rfl
  · exact .inl rfl
  · exact .inr ⟨.element x, family_free_absent fun c => List.not_mem_nil, rfl⟩

omit [DecidableEq T] in
/-- Every hook is alone at first. -/
theorem Rep.initial : Rep (State.initial : State T) .initial where
  strung := by
    have hhome : ∀ p (h : Hook T), h ∈ family Sequences.initial.contents p → home h = p := by
      intro p h hh
      rcases family_initial p with hp | ⟨h', hp, hh'⟩
      · rw [hp] at hh
        cases hh
      · rw [hp, List.mem_singleton] at hh
        rw [hh, hh']
    refine ⟨⟨fun p => ?_, fun p p' h hp hp' => ?_⟩, fun p => ?_⟩
    · rcases family_initial p with hp | ⟨h, hp, -⟩
      · rw [hp]
        exact List.nodup_nil
      · rw [hp]
        exact List.nodup_singleton h
    · rw [← hhome p h hp, ← hhome p' h hp']
    · rcases family_initial p with hp | ⟨h, hp, -⟩
      · rw [hp]
        exact Linked.nil
      · rw [hp]
        exact Linked.singleton.2 ⟨rfl, rfl⟩
  queues _ := rfl
  lists _ := rfl
  check _ := rfl

/-- The calls refine the operations on sequences. -/
theorem Rep.exec (h : Rep s a) (hreturned : a.contents .returned = []) {ops : List (Op T)}
    (hops : a.AllLegal ops) :
    ∃ t, s.exec ops = some (t, (a.exec ops).2) ∧ Rep t (a.exec ops).1 := by
  induction ops generalizing s a with
  | nil => exact ⟨s, rfl, h⟩
  | cons op ops ih =>
    obtain ⟨hop, hops⟩ := hops
    obtain ⟨t, ht, hrep⟩ := h.apply hreturned hop
    have hreturned' : (a.apply op).1.contents .returned = [] := by
      rw [a.returned_apply, hreturned]
    obtain ⟨u, hu, hrepu⟩ := ih hrep hreturned' hops
    refine ⟨u, ?_, hrepu⟩
    unfold State.exec
    rw [ht]
    show (t.exec ops).bind _ = _
    rw [hu]
    rfl

omit [DecidableEq T] in
theorem TSQueue.head_eq_tail (q : Nat) (xs : List T) :
    (TSQueue.of q xs).head = (TSQueue.of q xs).tail ↔ xs = [] := by
  constructor
  · intro h
    cases xs with
    | nil => rfl
    | cons x xs =>
      obtain ⟨y, hy⟩ := exists_getLast x xs
      rw [TSQueue.tail_of hy] at h
      cases h
  · intro h
    rw [h]
    rfl

/-- Every call returns and leaves what the operation on sequences gives: the links, the ends and the
counts of all containers are those of the sequences, and a container is empty when its sequence
is. -/
theorem sequences_refined (ops : List (Op T)) (hops : Sequences.initial.AllLegal ops) :
    ∃ t, State.initial.exec ops = some (t, (Sequences.initial.exec ops).2) ∧
      Rep t (Sequences.initial.exec ops).1 ∧
      (∀ q, ((t.queues q).head = (t.queues q).tail ↔
          (Sequences.initial.exec ops).1.contents (.queue q) = []) ∧
        ((t.queues q).count = 0 ↔ (Sequences.initial.exec ops).1.contents (.queue q) = [])) ∧
      ∀ i, (t.lists i).head = none ↔ (Sequences.initial.exec ops).1.contents (.list i) = [] := by
  obtain ⟨t, ht, hrep⟩ := Rep.initial.exec rfl hops
  refine ⟨t, ht, hrep, fun q => ⟨?_, ?_⟩, fun i => ?_⟩
  · rw [hrep.queues q]
    exact TSQueue.head_eq_tail q _
  · rw [hrep.queues q]
    exact List.length_eq_zero_iff
  · rw [hrep.lists i]
    show ((_ : List T).head?.map Hook.element) = none ↔ _
    rw [Option.map_eq_none_iff, List.head?_eq_none_iff]

/-- Two elements go from a queue to a list, which is cut, and one of them goes back. -/
theorem sequences_refined_moved : ∃ t,
    State.initial.exec [.push 0 5, .push 0 6, .popAll 0 1, .cut 1 1 2, .pushList 0 1] =
      some (t, [.size 1, .size 2, .done, .done, .done]) ∧
    t.lists 2 = .of [5] ∧ t.queues 0 = .of 0 [6] := by
  have hlegal : Sequences.initial.AllLegal
      [.push 0 5, .push 0 6, .popAll 0 1, .cut 1 1 2, .pushList 0 1] := by
    refine ⟨fun c => List.not_mem_nil, ?_, trivial, trivial, trivial, trivial⟩
    refine (absent_update _ _ _).2 ⟨by decide, fun c _ => List.not_mem_nil⟩
  obtain ⟨t, ht, hrep, -⟩ := sequences_refined _ hlegal
  exact ⟨t, ht, hrep.lists 2, hrep.queues 0⟩

end Costream.TsQueue
