import Costream.Scheduler.Stolen
import Costream.Tally
import Mathlib.Data.Finset.Card
import Mathlib.Data.Finset.Range

/-!
# What refers to a task

A task refers to itself until `GC` drops this reference, a list that it is linked in refers to it,
and so does each `IncursivePtr`.  The reference count is to be their sum.

* `State.own`, `State.hooks` and `State.pointers` are the three.  `Ledger` says that the count is
  their sum, and `Counted` what `DeleteTask` has made of it.
* `Dropped` says which tasks `GC` has dropped: those before `rest` in its list, and those that have
  left it.
* `Moved` is a step that changes no count.  The other steps change a list and the count together.
-/

namespace Costream.Scheduler

open Trace Costream.Lists Costream.Tally

/-! ## The references -/

/-- The lists in which a task is linked by its hook. -/
def Queue.hooked : Queue → Bool
  | .up _ => false
  | _ => true

def Queue.isGarbage : Queue → Bool
  | .garbage _ => true
  | _ => false

/-- A call of `Wakeup` has an `IncursivePtr` to its task. -/
def WakeupPlace.holds : WakeupPlace → Bool
  | .lock | .done _ => false
  | _ => true

def Wakeup.share (w : Wakeup) (t : Nat) : Nat := if w.task = t ∧ w.place.holds = true then 1 else 0

namespace State

variable (s : State) (t : Nat)

/-- The reference of a task to itself. -/
def own : Nat := if s.collected t then 0 else 1

def Linked : Prop := ∃ q : Queue, q.hooked = true ∧ t ∈ s.queues q

open Classical in
/-- The reference of the list that a task is linked in. -/
noncomputable def hooks : Nat := if s.Linked t then 1 else 0

/-- The `IncursivePtr`s to a task. -/
def pointers : Nat := tally (fun w => w.share t) s.wakeups

/-- The tasks for which `DeleteTask` has not been called. -/
def undeleted : Finset Nat := (Finset.range s.created).filter fun t => s.deletions t = 0

end State

/-- The count of a task is the number of what refers to it. -/
structure Ledger (s : State) : Prop where
  known : ∀ w ∈ s.wakeups, w.task < s.created
  entries : ∀ e ∈ s.entries, e.1 < s.created
  count : ∀ t < s.created, s.reference t = s.own t + s.hooks t + s.pointers t

/-- `DeleteTask` has been called for the tasks to which nothing refers. -/
structure Counted (s : State) : Prop where
  deletions : ∀ t < s.created, s.deletions t = if s.reference t = 0 then 1 else 0
  taskCount : s.taskCount = s.undeleted.card % 2 ^ 32

/-- What `GC` has dropped. -/
structure Dropped (s : State) : Prop where
  done : ∀ t, s.collected t = true → s.taskState t = .done
  kept : ∀ q t, q.isGarbage = false → t ∈ s.queues q → s.collected t = false
  loose : ∀ p t, (s.place p).seat = .loose → s.runningTask p = some t → s.collected t = false
  releasing : ∀ p after rest, s.place p = .release after rest → ∃ pre,
    s.queues (.garbage p) = pre ++ rest ∧ (∀ t ∈ pre, s.collected t = true) ∧
      ∀ t ∈ rest, s.collected t = false
  clearing : ∀ p after, s.place p = .clear after → ∀ t ∈ s.queues (.garbage p), s.collected t = true

structure Books (s : State) : Prop extends Ledger s, Counted s, Dropped s

variable {s s' : State} {p p' t u k n : Nat} {q q' : Queue} {w w' : Wakeup}

/-! ### Links as a count -/

theorem hooks_linked (h : s.Linked t) : s.hooks t = 1 := if_pos h

theorem hooks_free (h : ¬ s.Linked t) : s.hooks t = 0 := if_neg h

theorem hooks_congr (h : s'.Linked t ↔ s.Linked t) : s'.hooks t = s.hooks t := by
  by_cases hlinked : s.Linked t
  · rw [hooks_linked hlinked, hooks_linked (h.2 hlinked)]
  · rw [hooks_free hlinked, hooks_free fun h' => hlinked (h.1 h')]

theorem linked_of_mem (hq : q.hooked = true) (h : t ∈ s.queues q) : s.Linked t := ⟨q, hq, h⟩

theorem setQueue_self {xs : List Nat} : (s.setQueue q xs).queues q = xs := Function.update_self ..

/-- The task stays in the list that changes, or out of it. -/
theorem linked_setQueue {xs : List Nat} (h : t ∈ xs ↔ t ∈ s.queues q) :
    (s.setQueue q xs).Linked t ↔ s.Linked t := by
  unfold State.Linked
  refine exists_congr fun r => and_congr_right fun _ => ?_
  by_cases hr : r = q
  · subst hr
    rw [setQueue_self]
    exact h
  · rw [setQueue_other hr]

/-- The task is in the list that changes, and in no other one. -/
theorem linked_setQueue_self (h : Apart s.queues) {xs : List Nat}
    (hmem : t ∈ s.queues q ∨ ¬ s.Linked t) (hq : q.hooked = true) :
    (s.setQueue q xs).Linked t ↔ t ∈ xs := by
  constructor
  · rintro ⟨r, hr, ht⟩
    by_cases hrq : r = q
    · subst hrq
      rwa [setQueue_self] at ht
    · rw [setQueue_other hrq] at ht
      rcases hmem with hmem | hfree
      · exact absurd (h.apart r q t ht hmem) hrq
      · exact absurd ⟨r, hr, ht⟩ hfree
  · exact fun ht => ⟨q, hq, setQueue_self.symm ▸ ht⟩

/-! ### The pointers -/

theorem pointers_setWakeup (h : s.wakeups[k]? = some w) (w' : Wakeup) (t : Nat) :
    (s.setWakeup k w').pointers t + w.share t = s.pointers t + w'.share t :=
  tally_set (fun w => w.share t) h w'

theorem pointers_eq_zero (h : ∀ w ∈ s.wakeups, w.task ≠ t) : s.pointers t = 0 :=
  tally_eq_zero.2 fun w hw => if_neg fun hshare => h w hw hshare.1

/-! ### The deletions -/

theorem Counted.of_same (h : Counted s) (hcreated : s'.created = s.created)
    (hdeletions : s'.deletions = s.deletions) (htaskCount : s'.taskCount = s.taskCount)
    (hzero : ∀ t < s.created, s'.reference t = 0 ↔ s.reference t = 0) : Counted s' := by
  have hundeleted : s'.undeleted = s.undeleted := by
    unfold State.undeleted
    rw [hcreated, hdeletions]
  refine ⟨fun t ht => ?_, by rw [htaskCount, hundeleted, h.taskCount]⟩
  rw [hcreated] at ht
  rw [hdeletions, h.deletions t ht]
  exact if_congr (hzero t ht).symm rfl rfl

/-- A reference is dropped, and the last one deletes the task. -/
theorem Counted.decRef (h : Counted s) (ht : t < s.created) (hpos : 0 < s.reference t) :
    Counted (s.decRef t) := by
  have hlive : s.deletions t = 0 := by
    rw [h.deletions t ht, if_neg (by omega)]
  have hother : ∀ u ≠ t, Function.update s.reference t (s.reference t - 1) u = s.reference u :=
    fun u hu => Function.update_of_ne hu ..
  unfold State.decRef
  dsimp only
  split
  · rename_i hzero
    rw [Function.update_self] at hzero
    have hundeleted : ((Finset.range s.created).filter fun u =>
        Function.update s.deletions t (s.deletions t + 1) u = 0) = s.undeleted.erase t := by
      ext u
      simp only [State.undeleted, Finset.mem_erase, Finset.mem_filter, Finset.mem_range]
      by_cases hu : u = t
      · subst hu
        simp
      · simp [hu]
    have hmem : t ∈ s.undeleted := by
      simp [State.undeleted, ht, hlive]
    have hcard := Finset.card_erase_add_one hmem
    constructor
    · intro u hu
      show Function.update s.deletions t (s.deletions t + 1) u =
        if Function.update s.reference t (s.reference t - 1) u = 0 then 1 else 0
      by_cases hut : u = t
      · rw [hut, Function.update_self, Function.update_self, hlive, if_pos hzero]
      · rw [Function.update_of_ne hut, hother u hut]
        exact h.deletions u hu
    · show (s.taskCount + 2 ^ 32 - 1) % 2 ^ 32 = (Finset.card _) % 2 ^ 32
      unfold State.undeleted
      dsimp only
      rw [hundeleted, h.taskCount]
      omega
  · rename_i hzero
    rw [Function.update_self] at hzero
    refine h.of_same rfl rfl rfl fun u hu => ?_
    show Function.update s.reference t (s.reference t - 1) u = 0 ↔ _
    by_cases hut : u = t
    · rw [hut, Function.update_self]
      omega
    · rw [hother u hut]

/-! ## Steps that change no count -/

/-- What the thread of `p` may be told: it is where it was, or it does not work through garbage, and
its task, if it is in no list, refers to itself. -/
def Steady (s s' : State) (p : Nat) : Prop :=
  s'.place p = s.place p ∧ s'.runningTask p = s.runningTask p ∨
    (s'.place p).collecting = false ∧
      ((s'.place p).seat = .loose → ∀ t, s'.runningTask p = some t → s.collected t = false)

/-- Tasks go from a list to another one, at most. -/
structure Moved (s s' : State) : Prop where
  created : s'.created = s.created
  reference : s'.reference = s.reference
  collected : s'.collected = s.collected
  deletions : s'.deletions = s.deletions
  taskCount : s'.taskCount = s.taskCount
  known : ∀ w ∈ s'.wakeups, w.task < s.created
  entries : ∀ e ∈ s'.entries, e.1 < s.created
  pointers : ∀ t, s'.pointers t = s.pointers t
  linked : ∀ t, s'.Linked t ↔ s.Linked t
  state : ∀ t, s.collected t = true → s'.taskState t = s.taskState t
  kept : ∀ q t, q.isGarbage = false → t ∈ s'.queues q → s.collected t = false
  garbage : ∀ p, s'.queues (.garbage p) = s.queues (.garbage p)
  steady : ∀ p, Steady s s' p

theorem Ledger.of_moved (h : Ledger s) (hm : Moved s s') : Ledger s' := by
  refine ⟨fun w hw => ?_, fun e he => ?_, fun t ht => ?_⟩
  · rw [hm.created]
    exact hm.known w hw
  · rw [hm.created]
    exact hm.entries e he
  · rw [hm.created] at ht
    have hown : s'.own t = s.own t := by rw [State.own, hm.collected, State.own]
    rw [hm.reference, hm.pointers, hown, hooks_congr (hm.linked t)]
    exact h.count t ht

theorem Dropped.of_moved (h : Dropped s) (hm : Moved s s') : Dropped s' := by
  refine ⟨fun t ht => ?_, fun q t hq ht => ?_, fun p t hseat hr => ?_, fun p after rest hp => ?_,
    fun p after hp => ?_⟩
  · rw [hm.collected] at ht
    rw [hm.state t ht]
    exact h.done t ht
  · rw [hm.collected]
    exact hm.kept q t hq ht
  · rw [hm.collected]
    rcases hm.steady p with ⟨hplace, hrunning⟩ | ⟨-, hloose⟩
    · rw [hplace] at hseat
      rw [hrunning] at hr
      exact h.loose p t hseat hr
    · exact hloose hseat t hr
  · rcases hm.steady p with ⟨hplace, -⟩ | ⟨hcollecting, -⟩
    · rw [hm.garbage, hm.collected]
      exact h.releasing p after rest (hplace ▸ hp)
    · rw [hp] at hcollecting
      cases hcollecting
  · rcases hm.steady p with ⟨hplace, -⟩ | ⟨hcollecting, -⟩
    · rw [hm.garbage, hm.collected]
      exact h.clearing p after (hplace ▸ hp)
    · rw [hp] at hcollecting
      cases hcollecting

theorem Books.of_moved (h : Books s) (hm : Moved s s') : Books s' where
  toLedger := h.toLedger.of_moved hm
  toCounted := h.toCounted.of_same hm.created hm.deletions hm.taskCount fun t _ => by
    rw [hm.reference]
  toDropped := h.toDropped.of_moved hm

/-- The part of a state that says what refers to a task. -/
def State.books (s : State) : State :=
  { State.initial with
    created := s.created
    reference := s.reference
    collected := s.collected
    deletions := s.deletions
    queues := s.queues
    wakeups := s.wakeups
    entries := s.entries
    taskCount := s.taskCount }

theorem Books.moved (h : Books s) (heq : s'.books = s.books)
    (hstate : ∀ t, s.collected t = true → s'.taskState t = s.taskState t)
    (hsteady : ∀ p, Steady s s' p) : Moved s s' := by
  simp only [State.books, State.mk.injEq, true_and, and_true] at heq
  obtain ⟨hcreated, hreference, hcollected, hdeletions, hqueues, hwakeups, hentries, hcount⟩ := heq
  refine ⟨hcreated, hreference, hcollected, hdeletions, hcount, hwakeups ▸ h.known,
    hentries ▸ h.entries, fun t => ?_, fun t => ?_, hstate, hqueues ▸ h.kept, fun p => ?_, hsteady⟩
  · rw [State.pointers, hwakeups, State.pointers]
  · rw [State.Linked, hqueues, State.Linked]
  · rw [hqueues]

theorem steady_of_thread (hother : ∀ p' ≠ p, s'.place p' = s.place p' ∧
      s'.runningTask p' = s.runningTask p') (hcollecting : (s'.place p).collecting = false)
    (hloose : (s'.place p).seat = .loose → ∀ t, s'.runningTask p = some t → s.collected t = false)
    (p' : Nat) : Steady s s' p' := by
  by_cases hp : p' = p
  · subst hp
    exact .inr ⟨hcollecting, hloose⟩
  · exact .inl (hother p' hp)

/-- Only the place of a thread changes. -/
theorem Books.goto (h : Books s) {place : Place} (hcollecting : place.collecting = false)
    (hloose : place.seat = .loose → ∀ t, s.runningTask p = some t → s.collected t = false) :
    Books (s.goto p place) := by
  refine h.of_moved (h.moved rfl (fun _ _ => rfl) (steady_of_thread (p := p) ?_ ?_ ?_))
  · exact fun p' hp => ⟨Function.update_of_ne hp .., rfl⟩
  · rw [goto_place]
    exact hcollecting
  · rw [goto_place]
    exact hloose

/-- Two lists exchange tasks. -/
structure Swapped (s s' : State) (q q' : Queue) (xs ys : List Nat) : Prop where
  queues : s'.queues = Function.update (Function.update s.queues q xs) q' ys
  ne : q ≠ q'
  perm : (xs ++ ys).Perm (s.queues q ++ s.queues q')
  hooked : q.hooked = true ∧ q'.hooked = true

section swapped

variable {xs ys : List Nat}

theorem Swapped.other (h : Swapped s s' q q' xs ys) {r : Queue} (hq : r ≠ q) (hq' : r ≠ q') :
    s'.queues r = s.queues r := by
  rw [h.queues, Function.update_of_ne hq', Function.update_of_ne hq]

theorem Swapped.mem_iff (h : Swapped s s' q q' xs ys) :
    t ∈ s'.queues q ∨ t ∈ s'.queues q' ↔ t ∈ s.queues q ∨ t ∈ s.queues q' := by
  have hmem := h.perm.mem_iff (a := t)
  rw [List.mem_append, List.mem_append] at hmem
  rw [h.queues, Function.update_self, Function.update_of_ne h.ne, Function.update_self]
  exact hmem

/-- What is in one of the two lists before and after. -/
theorem Swapped.from (h : Swapped s s' q q' xs ys) {r : Queue} (ht : t ∈ s'.queues r) :
    ∃ r', t ∈ s.queues r' ∧ (r' = r ∨ (r = q ∨ r = q') ∧ (r' = q ∨ r' = q')) := by
  by_cases hr : r = q ∨ r = q'
  · have hboth : t ∈ s'.queues q ∨ t ∈ s'.queues q' := by
      rcases hr with rfl | rfl
      · exact .inl ht
      · exact .inr ht
    rcases h.mem_iff.1 hboth with ht | ht
    · exact ⟨q, ht, .inr ⟨hr, .inl rfl⟩⟩
    · exact ⟨q', ht, .inr ⟨hr, .inr rfl⟩⟩
  · rw [not_or] at hr
    rw [h.other hr.1 hr.2] at ht
    exact ⟨r, ht, .inl rfl⟩

theorem Swapped.linked (h : Swapped s s' q q' xs ys) (t : Nat) : s'.Linked t ↔ s.Linked t := by
  have hhooked : ∀ r : Queue, r = q ∨ r = q' → r.hooked = true := by
    rintro r (rfl | rfl)
    · exact h.hooked.1
    · exact h.hooked.2
  constructor
  · rintro ⟨r, hr, ht⟩
    obtain ⟨r', ht', hcases⟩ := h.from ht
    exact ⟨r', hcases.elim (fun he => he ▸ hr) fun hc => hhooked r' hc.2, ht'⟩
  · rintro ⟨r, hr, ht⟩
    by_cases hrq : r = q ∨ r = q'
    · have hboth : t ∈ s.queues q ∨ t ∈ s.queues q' := by
        rcases hrq with rfl | rfl
        · exact .inl ht
        · exact .inr ht
      rcases h.mem_iff.2 hboth with ht | ht
      · exact ⟨q, h.hooked.1, ht⟩
      · exact ⟨q', h.hooked.2, ht⟩
    · rw [not_or] at hrq
      rw [← h.other hrq.1 hrq.2] at ht
      exact ⟨r, hr, ht⟩

theorem Swapped.kept (h : Swapped s s' q q' xs ys) (hs : Dropped s) (hq : q.isGarbage = false)
    (hq' : q'.isGarbage = false) {r : Queue} (hr : r.isGarbage = false) (ht : t ∈ s'.queues r) :
    s.collected t = false := by
  obtain ⟨r', ht', rfl | ⟨-, rfl | rfl⟩⟩ := h.from ht
  · exact hs.kept _ t hr ht'
  · exact hs.kept _ t hq ht'
  · exact hs.kept _ t hq' ht'

end swapped

theorem Books.swapped (h : Books s) {xs ys : List Nat} (hsw : Swapped s s' q q' xs ys)
    (hq : q.isGarbage = false) (hq' : q'.isGarbage = false)
    (hbooks : { s'.books with queues := s.queues } = s.books)
    (hstate : ∀ t, s.collected t = true → s'.taskState t = s.taskState t)
    (hsteady : ∀ p, Steady s s' p) : Books s' := by
  have hmoved : Moved s { s' with queues := s.queues } := h.moved hbooks hstate hsteady
  refine h.of_moved ⟨hmoved.created, hmoved.reference, hmoved.collected, hmoved.deletions,
    hmoved.taskCount, hmoved.known, hmoved.entries, hmoved.pointers, hsw.linked, hmoved.state,
    fun r t hr ht => hsw.kept h.toDropped hq hq' hr ht, fun p => hsw.other ?_ ?_, hmoved.steady⟩
  · rintro rfl
    cases hq
  · rintro rfl
    cases hq'

/-! ## The steps that change a count -/

/-- A task that is in no list, but for the up-queue, is pushed. -/
theorem Books.push (h : Books s) (hapart : Apart s.queues) (ht : t < s.created) (hfree : ¬ s.Linked t)
    (hcollected : s.collected t = false) (hq : q.hooked = true) (hgarbage : q.isGarbage = false) :
    Books (s.push q t) := by
  have hqueues : (s.push q t).queues = (s.setQueue q (s.queues q ++ [t])).queues := rfl
  have hlinked : ∀ u, (s.push q t).Linked u ↔ s.Linked u ∨ u = t := by
    intro u
    by_cases hu : u ∈ s.queues q ∨ ¬ s.Linked u
    · refine (linked_setQueue_self hapart hu hq).trans ?_
      rw [List.mem_append, List.mem_singleton]
      refine or_congr_left ⟨linked_of_mem hq, fun hl => hu.resolve_right (not_not.2 hl)⟩
    · rw [not_or, not_not] at hu
      have hne : u ≠ t := fun he => hfree (he ▸ hu.2)
      have hsame : u ∈ s.queues q ++ [t] ↔ u ∈ s.queues q := by simp [hu.1, hne]
      refine (linked_setQueue hsame).trans ?_
      simp [hne]
  have hreference : ∀ u, u ≠ t → (s.push q t).reference u = s.reference u :=
    fun u hu => Function.update_of_ne hu ..
  have hself : (s.push q t).reference t = s.reference t + 1 := Function.update_self ..
  have hcount := h.count t ht
  have hown : s.own t = 1 := by rw [State.own, hcollected]; rfl
  refine ⟨⟨h.known, h.entries, fun u hu => ?_⟩, h.toCounted.of_same rfl rfl rfl fun u hu => ?_,
    h.done, fun r u hr hu => ?_, h.loose, fun p after rest hp => ?_, fun p after hp => ?_⟩
  · show _ = (s.own u + (s.push q t).hooks u + s.pointers u : Int)
    by_cases hut : u = t
    · subst hut
      rw [hself, hooks_linked ((hlinked u).2 (.inr rfl)), hcount, hooks_free hfree]
      omega
    · rw [hreference u hut, h.count u hu, hooks_congr ((hlinked u).trans (or_iff_left hut))]
  · by_cases hut : u = t
    · subst hut
      rw [hself]
      omega
    · rw [hreference u hut]
  · rw [hqueues] at hu
    by_cases hrq : r = q
    · subst hrq
      rw [setQueue_self, List.mem_append, List.mem_singleton] at hu
      rcases hu with hu | rfl
      · exact h.kept r u hr hu
      · exact hcollected
    · rw [setQueue_other hrq] at hu
      exact h.kept r u hr hu
  all_goals
    have hother : (s.push q t).queues (.garbage p) = s.queues (.garbage p) := by
      refine setQueue_other fun he => ?_
      rw [← he] at hgarbage
      cases hgarbage
    rw [hother]
  · exact h.releasing p after rest hp
  · exact h.clearing p after hp

/-- A list drops a task. -/
theorem Books.drop (h : Books s) (hapart : Apart s.queues) (hcreated : t < s.created)
    (ht : t ∈ s.queues q) (hq : q.hooked = true) {xs : List Nat}
    (hxs : ∀ u, u ∈ xs ↔ u ∈ s.queues q ∧ u ≠ t)
    (hclear : ∀ p, q = .garbage p → ∃ after, s.place p = .clear after) :
    Books ((s.setQueue q xs).decRef t) := by
  have hlinked : ∀ u ≠ t, (s.setQueue q xs).Linked u ↔ s.Linked u := fun u hu =>
    linked_setQueue ((hxs u).trans (and_iff_left hu))
  have hfree : ¬ (s.setQueue q xs).Linked t := fun hl =>
    ((hxs t).1 ((linked_setQueue_self hapart (.inl ht) hq).1 hl)).2 rfl
  have hcount := h.count t hcreated
  rw [hooks_linked (linked_of_mem hq ht)] at hcount
  have hcounted : Counted (s.setQueue q xs) := h.toCounted.of_same rfl rfl rfl fun _ _ => Iff.rfl
  have hcounted' : Counted ((s.setQueue q xs).decRef t) := hcounted.decRef hcreated (by
    show 0 < s.reference t
    omega)
  have hsub : ∀ r u, u ∈ (s.setQueue q xs).queues r → u ∈ s.queues r := by
    intro r u hu
    by_cases hr : r = q
    · subst hr
      rw [setQueue_self] at hu
      exact ((hxs u).1 hu).1
    · rwa [setQueue_other hr] at hu
  obtain ⟨D, C, heq, -⟩ := exists_decRef_eq (s.setQueue q xs) t
  rw [heq] at hcounted' ⊢
  refine ⟨⟨h.known, h.entries, fun u hu => ?_⟩, hcounted', h.done,
    fun r u hr hu => h.kept r u hr (hsub r u hu), h.loose, fun p after rest hp => ?_,
    fun p after hp u hu => h.clearing p after hp u (hsub _ u hu)⟩
  · show Function.update s.reference t (s.reference t - 1) u =
      (s.own u + (s.setQueue q xs).hooks u + s.pointers u : Int)
    by_cases hut : u = t
    · subst hut
      rw [Function.update_self, hooks_free hfree, hcount]
      omega
    · rw [Function.update_of_ne hut, h.count u hu, hooks_congr (hlinked u hut)]
  · have hother : (s.setQueue q xs).queues (.garbage p) = s.queues (.garbage p) := by
      refine setQueue_other fun he => ?_
      obtain ⟨after', hafter⟩ := hclear p he.symm
      have hplace : s.place p = .release after rest := hp
      rw [hafter] at hplace
      cases hplace
    show ∃ pre, (s.setQueue q xs).queues (.garbage p) = pre ++ rest ∧ _
    rw [hother]
    exact h.releasing p after rest hp

/-- `eraseWithoutLock(hook)`. -/
theorem Books.erase (h : Books s) (hlinks : Links s) (hq : q.hooked = true)
    (hgarbage : q.isGarbage = false) (hs : s.erase q t = some s') : Books s' := by
  obtain ⟨s₁, hs₁, rfl⟩ := Option.map_eq_some_iff.1 hs
  have hmem : t ∈ s.queues q := by
    by_contra hmem
    rw [State.unlink, if_neg hmem] at hs₁
    cases hs₁
  rw [unlink_eq hmem] at hs₁
  cases hs₁
  have hbooks : Books (s.setCheck t none) := h.of_moved (h.moved rfl (fun _ _ => rfl) fun _ =>
    .inl ⟨rfl, rfl⟩)
  refine hbooks.drop hlinks.apart (hlinks.known q t hmem) hmem hq (fun u => ?_) fun p hp => ?_
  · rw [(hlinks.apart.nodup q).mem_erase_iff]
    exact and_comm
  · rw [hp] at hgarbage
    cases hgarbage

theorem erase_same (hs : s.erase q t = some s') :
    s'.runningTask = s.runningTask ∧ s'.collected = s.collected := by
  obtain ⟨s₁, hs₁, rfl⟩ := Option.map_eq_some_iff.1 hs
  obtain ⟨D, C, heq, -⟩ := exists_decRef_eq s₁ t
  rw [heq]
  unfold State.unlink at hs₁
  split at hs₁
  · cases hs₁
    exact ⟨rfl, rfl⟩
  · cases hs₁

/-- The first step of a call: it gets an `IncursivePtr` to a task that is not deleted. -/
theorem Books.lock (h : Books s) (hw : s.wakeups[k]? = some w) (hfree : w.place.holds = false)
    (hlive : s.reference w.task ≠ 0) {place : WakeupPlace} (hplace : place.holds = true) :
    Books ((s.incRef w.task).setWakeup k { w with place := place }) := by
  have hmem := List.mem_of_getElem? hw
  have hcreated := h.known w hmem
  have hpointers : ∀ u, ((s.incRef w.task).setWakeup k { w with place := place }).pointers u =
      s.pointers u + if w.task = u then 1 else 0 := by
    intro u
    have hset := pointers_setWakeup (s := s.incRef w.task) hw { w with place := place } u
    simp only [Wakeup.share, hfree, hplace, Bool.false_eq_true, and_false, and_true, if_false,
      Nat.add_zero] at hset
    exact hset
  refine ⟨⟨fun w' hw' => ?_, h.entries, fun u hu => ?_⟩, h.toCounted.of_same rfl rfl rfl
    fun u hu => ?_, h.done, h.kept, h.loose, h.releasing, h.clearing⟩
  · rcases List.mem_or_eq_of_mem_set hw' with hw' | rfl
    · exact h.known w' hw'
    · exact hcreated
  · rw [hpointers]
    show Function.update s.reference w.task (s.reference w.task + 1) u =
      (s.own u + s.hooks u + _ : Int)
    have hcount := h.count u hu
    by_cases hut : u = w.task
    · subst hut
      rw [Function.update_self, if_pos rfl]
      omega
    · rw [Function.update_of_ne hut, if_neg (Ne.symm hut)]
      omega
  · show Function.update s.reference w.task (s.reference w.task + 1) u = 0 ↔ _
    by_cases hut : u = w.task
    · subst hut
      have hcount := h.count w.task hu
      rw [Function.update_self]
      omega
    · rw [Function.update_of_ne hut]

/-- The last step: the call drops its `IncursivePtr`. -/
theorem Books.unlock (h : Books s) (hw : s.wakeups[k]? = some w) (hholds : w.place.holds = true)
    {place : WakeupPlace} (hplace : place.holds = false) :
    Books ((s.decRef w.task).setWakeup k { w with place := place }) := by
  have hmem := List.mem_of_getElem? hw
  have hcreated := h.known w hmem
  have hpointers : ∀ u, (s.setWakeup k { w with place := place }).pointers u +
      (if w.task = u then 1 else 0) = s.pointers u := by
    intro u
    have hset := pointers_setWakeup hw { w with place := place } u
    simp only [Wakeup.share, hholds, hplace, Bool.false_eq_true, and_false, and_true, if_false,
      Nat.add_zero] at hset
    exact hset
  have hself := hpointers w.task
  rw [if_pos rfl] at hself
  have hcount := h.count w.task hcreated
  have hcounted := h.toCounted.decRef hcreated (t := w.task) (by omega)
  obtain ⟨D, C, heq, -⟩ := exists_decRef_eq s w.task
  rw [heq] at hcounted ⊢
  refine ⟨⟨fun w' hw' => ?_, h.entries, fun u hu => ?_⟩, hcounted.of_same rfl rfl rfl
    fun _ _ => Iff.rfl, h.done, h.kept, h.loose, h.releasing, h.clearing⟩
  · rcases List.mem_or_eq_of_mem_set hw' with hw' | rfl
    · exact h.known w' hw'
    · exact hcreated
  · show Function.update s.reference w.task (s.reference w.task - 1) u =
      (s.own u + s.hooks u + (s.setWakeup k { w with place := place }).pointers u : Int)
    have hu' := hpointers u
    have hcountu := h.count u hu
    by_cases hut : u = w.task
    · subst hut
      rw [Function.update_self]
      omega
    · rw [if_neg (Ne.symm hut)] at hu'
      rw [Function.update_of_ne hut]
      omega

/-! ### `GC` -/

theorem Books.popAll (h : Books s) (hlinks : Links s) {after : AfterGC}
    (hplace : s.place p = .pop after) : Books (s.popAll p after) := by
  have hgarbage : s.queues (.garbage p) = [] := (hlinks.seated p).garbage (by rw [hplace]; rfl)
  have hswap : Swapped s (s.popAll p after) (.garbage p) (.gc p) (s.queues (.gc p)) [] :=
    ⟨rfl, by simp, by rw [hgarbage, List.append_nil, List.nil_append], rfl, rfl⟩
  have hself : (s.popAll p after).place p = .release after (s.queues (.gc p)) := goto_place ..
  have hother : ∀ p' ≠ p, (s.popAll p after).place p' = s.place p' ∧
      (s.popAll p after).queues (.garbage p') = s.queues (.garbage p') := fun p' hp =>
    ⟨Function.update_of_ne hp .., hswap.other (by simpa using hp) (by simp)⟩
  have hlist : (s.popAll p after).queues (.garbage p) = s.queues (.gc p) := by
    rw [hswap.queues, Function.update_of_ne hswap.ne, Function.update_self]
  refine ⟨⟨h.known, h.entries, fun t ht => ?_⟩, h.toCounted.of_same rfl rfl rfl fun _ _ => Iff.rfl,
    h.done, fun q t hq ht => ?_, fun p' t hseat hr => ?_, fun p' after' rest hp' => ?_,
    fun p' after' hp' => ?_⟩
  · rw [hooks_congr (hswap.linked t)]
    exact h.count t ht
  · by_cases hgc : q = .gc p
    · subst hgc
      rw [hswap.queues, Function.update_self] at ht
      cases ht
    · have hne : q ≠ .garbage p := by
        intro he
        rw [he] at hq
        cases hq
      rw [hswap.other hne hgc] at ht
      exact h.kept q t hq ht
  · by_cases hp : p' = p
    · subst hp
      refine h.loose p' t ?_ hr
      rw [hself] at hseat
      rw [hplace]
      exact hseat
    · rw [(hother p' hp).1] at hseat
      exact h.loose p' t hseat hr
  · by_cases hp : p' = p
    · subst hp
      rw [hself] at hp'
      cases hp'
      exact ⟨[], hlist, fun t ht => (by cases ht), fun t ht => h.kept _ t rfl ht⟩
    · rw [(hother p' hp).1] at hp'
      rw [(hother p' hp).2]
      exact h.releasing p' after' rest hp'
  · by_cases hp : p' = p
    · subst hp
      rw [hself] at hp'
      cases hp'
    · rw [(hother p' hp).1] at hp'
      rw [(hother p' hp).2]
      exact h.clearing p' after' hp'

/-- `GC` has come to the end of its list. -/
theorem Books.releaseEnd (h : Books s) {after : AfterGC} (hplace : s.place p = .release after []) :
    Books (s.goto p (.clear after)) := by
  obtain ⟨pre, hlist, hpre, -⟩ := h.releasing p after [] hplace
  have hself : (s.goto p (.clear after)).place p = .clear after := goto_place ..
  have hother : ∀ p' ≠ p, (s.goto p (.clear after)).place p' = s.place p' :=
    fun p' hp => Function.update_of_ne hp ..
  refine ⟨⟨h.known, h.entries, h.count⟩, h.toCounted.of_same rfl rfl rfl fun _ _ => Iff.rfl,
    h.done, h.kept, fun p' t hseat hr => ?_, fun p' after' rest hp' => ?_, fun p' after' hp' => ?_⟩
  · by_cases hp : p' = p
    · subst hp
      refine h.loose p' t ?_ hr
      rw [hself] at hseat
      rw [hplace]
      exact hseat
    · rw [hother p' hp] at hseat
      exact h.loose p' t hseat hr
  · by_cases hp : p' = p
    · subst hp
      rw [hself] at hp'
      cases hp'
    · rw [hother p' hp] at hp'
      exact h.releasing p' after' rest hp'
  · by_cases hp : p' = p
    · subst hp
      intro t ht
      have hmem : t ∈ s.queues (.garbage p') := ht
      rw [hlist, List.append_nil] at hmem
      exact hpre t hmem
    · rw [hother p' hp] at hp'
      exact h.clearing p' after' hp'

/-- `GC` drops the reference that a task has to itself. -/
theorem Books.releaseNext (h : Books s) (hlinks : Links s) {after : AfterGC} {rest : List Nat}
    (hplace : s.place p = .release after (t :: rest)) : Books (s.release p after (t :: rest)) := by
  obtain ⟨pre, hlist, hpre, hrest⟩ := h.releasing p after (t :: rest) hplace
  have hmem : t ∈ s.queues (.garbage p) := by
    rw [hlist]
    exact List.mem_append_right _ List.mem_cons_self
  have hcreated := hlinks.known _ t hmem
  have hnot : s.collected t = false := hrest t List.mem_cons_self
  have hnd := hlinks.apart.nodup (.garbage p)
  rw [hlist, List.nodup_append] at hnd
  have hcount := h.count t hcreated
  rw [hooks_linked (linked_of_mem rfl hmem), State.own, hnot] at hcount
  have hcollect : ∀ u ≠ t, Function.update s.collected t true u = s.collected u :=
    fun u hu => Function.update_of_ne hu ..
  have hreference : ∀ u ≠ t, Function.update s.reference t (s.reference t - 1) u = s.reference u :=
    fun u hu => Function.update_of_ne hu ..
  obtain ⟨D, C, heq, hlive⟩ :=
    exists_decRef_eq { s with collected := Function.update s.collected t true } t
  obtain ⟨rfl, rfl⟩ := hlive (show s.reference t ≠ 1 by simp at hcount; omega)
  rw [State.release, heq]
  have hplaces : ∀ p', p' ≠ p ∧ (s.goto p (.release after rest)).place p' = s.place p' ∨
      p' = p ∧ (s.goto p (.release after rest)).place p' = .release after rest := by
    intro p'
    by_cases hp : p' = p
    · subst hp
      exact .inr ⟨rfl, goto_place ..⟩
    · exact .inl ⟨hp, Function.update_of_ne hp ..⟩
  have hother : ∀ p' ≠ p, ∀ u ∈ s.queues (.garbage p'), u ≠ t := by
    rintro p' hp u hu rfl
    exact hp (Queue.garbage.inj (hlinks.apart.apart _ _ u hu hmem))
  refine ⟨⟨h.known, h.entries, fun u hu => ?_⟩, h.toCounted.of_same rfl rfl rfl fun u hu => ?_,
    fun u hu => ?_, fun q u hq hu => ?_, fun p' u hseat hr => ?_, fun p' after' rest' hp' => ?_,
    fun p' after' hp' u hu => ?_⟩
  · show Function.update s.reference t (s.reference t - 1) u =
      ((if Function.update s.collected t true u then 0 else 1 : Nat) + s.hooks u +
        s.pointers u : Int)
    by_cases hut : u = t
    · subst hut
      rw [Function.update_self, Function.update_self, hooks_linked (linked_of_mem rfl hmem)]
      simp only [if_true, Bool.false_eq_true, if_false] at hcount ⊢
      omega
    · rw [hreference u hut, hcollect u hut]
      exact h.count u hu
  · show Function.update s.reference t (s.reference t - 1) u = 0 ↔ _
    by_cases hut : u = t
    · subst hut
      rw [Function.update_self]
      simp only [Bool.false_eq_true, if_false] at hcount
      omega
    · rw [hreference u hut]
  · by_cases hut : u = t
    · subst hut
      exact hlinks.gone p u (.inr hmem)
    · refine h.done u ?_
      rw [← hcollect u hut]
      exact hu
  · have hut : u ≠ t := by
      rintro rfl
      have hqq := hlinks.apart.apart q _ u hu hmem
      rw [hqq] at hq
      cases hq
    exact (hcollect u hut).trans (h.kept q u hq hu)
  · have hloose : (s.place p').seat = .loose := by
      rcases hplaces p' with ⟨-, hp⟩ | ⟨rfl, hp⟩
      · rw [← hp]
        exact hseat
      · rw [hplace]
        have hseat' : ((s.goto p' (.release after rest)).place p').seat = .loose := hseat
        rw [hp] at hseat'
        exact hseat'
    have hut : u ≠ t := by
      rintro rfl
      have hsits := (hlinks.seated p').sits u hr
      rw [hloose] at hsits
      exact hsits.2 _ hmem
    exact (hcollect u hut).trans (h.loose p' u hloose hr)
  · rcases hplaces p' with ⟨hne, hp⟩ | ⟨rfl, hp⟩
    · obtain ⟨pre', hlist', hpre', hrest'⟩ := h.releasing p' after' rest' (hp ▸ hp')
      refine ⟨pre', hlist', fun u hu => ?_, fun u hu => ?_⟩
      · refine (hcollect u (hother p' hne u ?_)).trans (hpre' u hu)
        rw [hlist']
        exact List.mem_append_left _ hu
      · refine (hcollect u (hother p' hne u ?_)).trans (hrest' u hu)
        rw [hlist']
        exact List.mem_append_right _ hu
    · have hrest' : (s.goto p' (.release after rest)).place p' = .release after' rest' := hp'
      rw [hp] at hrest'
      cases hrest'
      refine ⟨pre ++ [t], by rw [List.append_assoc]; exact hlist, fun u hu => ?_, fun u hu => ?_⟩
      · rcases List.mem_append.1 hu with hu | hu
        · by_cases hut : u = t
          · rw [hut]
            exact Function.update_self ..
          · exact (hcollect u hut).trans (hpre u hu)
        · rw [List.mem_singleton.1 hu]
          exact Function.update_self ..
      · have hut : u ≠ t := by
          rintro rfl
          exact (List.nodup_cons.1 hnd.2.1).1 hu
        exact (hcollect u hut).trans (hrest u (List.mem_cons_of_mem _ hu))
  · rcases hplaces p' with ⟨hne, hp⟩ | ⟨rfl, hp⟩
    · exact (hcollect u (hother p' hne u hu)).trans (h.clearing p' after' (hp ▸ hp') u hu)
    · have hclear : (s.goto p' (.release after rest)).place p' = .clear after' := hp'
      rw [hp] at hclear
      cases hclear

theorem Books.release (h : Books s) (hlinks : Links s) {after : AfterGC} {rest : List Nat}
    (hplace : s.place p = .release after rest) : Books (s.release p after rest) := by
  cases rest with
  | nil => exact h.releaseEnd hplace
  | cons t rest => exact h.releaseNext hlinks hplace

theorem Books.clear (h : Books s) (hlinks : Links s) {after : AfterGC}
    (hplace : s.place p = .clear after) : Books (s.clear p after) := by
  unfold State.clear
  split
  · refine h.goto ?_ fun hseat t hr => h.loose p t ?_ hr
    · cases after <;> rfl
    · rw [hplace]
      cases after with
      | condition => cases hseat
      | push => rfl
  · rename_i t rest hlist
    have hmem : t ∈ s.queues (.garbage p) := by
      rw [hlist]
      exact List.mem_cons_self
    have hnd := hlinks.apart.nodup (.garbage p)
    rw [hlist, List.nodup_cons] at hnd
    have hdrop : Books ((s.setQueue (.garbage p) rest).decRef t) := by
      refine h.drop hlinks.apart (hlinks.known _ t hmem) hmem rfl (fun u => ?_) fun p' hp => ?_
      · rw [hlist, List.mem_cons]
        constructor
        · exact fun hu => ⟨.inr hu, fun he => hnd.1 (he ▸ hu)⟩
        · exact fun hu => hu.1.resolve_left hu.2
      · rw [← Queue.garbage.inj hp]
        exact ⟨after, hplace⟩
    have hsame : ((s.setQueue (.garbage p) rest).decRef t).place = s.place := by
      obtain ⟨D, C, heq, -⟩ := exists_decRef_eq (s.setQueue (.garbage p) rest) t
      rw [heq]
      rfl
    have hgoto : ((s.setQueue (.garbage p) rest).decRef t).goto p (.clear after) =
        (s.setQueue (.garbage p) rest).decRef t := by
      unfold State.goto
      rw [hsame, ← hplace, Function.update_eq_self, ← hsame]
    rw [hgoto]
    exact hdrop

/-! ### `CreateTask` -/

theorem Books.create (h : Books s) (hlinks : Links s) (p : Nat) : Books (s.create p) := by
  have hold : ∀ {α : Type} (f : Nat → α) (a : α), ∀ t < s.created,
      Function.update f s.created a t = f t := fun f a t ht => Function.update_of_ne ht.ne ..
  have hother : ∀ q : Queue, q.hooked = true → (s.create p).queues q = s.queues q := by
    intro q hq
    refine create_other s p fun he => ?_
    rw [he] at hq
    cases hq
  have hlinked : ∀ t, (s.create p).Linked t ↔ s.Linked t := fun t =>
    exists_congr fun q => and_congr_right fun hq => by rw [hother q hq]
  have hnew : ¬ s.Linked s.created := by
    rintro ⟨q, -, ht⟩
    exact Nat.lt_irrefl _ (hlinks.known q _ ht)
  have hpointers : s.pointers s.created = 0 :=
    pointers_eq_zero fun w hw => (h.known w hw).ne
  have hcount : ∀ t < s.created + 1, (s.create p).reference t =
      ((s.create p).own t + (s.create p).hooks t + (s.create p).pointers t : Int) := by
    intro t ht
    show Function.update s.reference s.created 1 t =
      ((if Function.update s.collected s.created false t then 0 else 1 : Nat) +
        (s.create p).hooks t + s.pointers t : Int)
    rw [hooks_congr (hlinked t)]
    rcases Nat.lt_succ_iff_lt_or_eq.1 ht with ht | rfl
    · rw [hold _ _ t ht, hold _ _ t ht]
      exact h.count t ht
    · rw [Function.update_self, Function.update_self, hooks_free hnew, hpointers]
      rfl
  have hundeleted : (s.create p).undeleted = insert s.created s.undeleted := by
    ext t
    simp only [State.undeleted, Finset.mem_insert, Finset.mem_filter, Finset.mem_range]
    show t < s.created + 1 ∧ Function.update s.deletions s.created 0 t = 0 ↔ _
    by_cases ht : t = s.created
    · subst ht
      simp
    · rw [Function.update_of_ne ht]
      simp only [ht, false_or]
      exact and_congr_left fun _ => by omega
  have hcard : (s.create p).undeleted.card = s.undeleted.card + 1 := by
    rw [hundeleted]
    exact Finset.card_insert_of_notMem (by simp [State.undeleted])
  have hgarbage : ∀ p', (s.create p).queues (.garbage p') = s.queues (.garbage p') :=
    fun p' => hother _ rfl
  have hcollected : ∀ q t, t ∈ s.queues q →
      Function.update s.collected s.created false t = s.collected t :=
    fun q t ht => hold _ _ t (hlinks.known q t ht)
  refine ⟨⟨fun w hw => (h.known w hw).trans (Nat.lt_succ_self _), fun e he =>
    (h.entries e he).trans (Nat.lt_succ_self _), hcount⟩, ⟨fun t ht => ?_, ?_⟩, fun t ht => ?_,
    fun q t hq ht => ?_, fun p' t hseat hr => ?_, fun p' after rest hp => ?_,
    fun p' after hp t ht => ?_⟩
  · show Function.update s.deletions s.created 0 t =
      if Function.update s.reference s.created 1 t = 0 then 1 else 0
    rcases Nat.lt_succ_iff_lt_or_eq.1 ht with ht | rfl
    · rw [hold _ _ t ht, hold _ _ t ht]
      exact h.deletions t ht
    · rw [Function.update_self, Function.update_self]
      rfl
  · rw [hcard]
    show (s.taskCount + 1) % 2 ^ 32 = _
    rw [h.taskCount]
    omega
  · have ht' : Function.update s.collected s.created false t = true := ht
    have hne : t ≠ s.created := by
      rintro rfl
      rw [Function.update_self] at ht'
      cases ht'
    rw [Function.update_of_ne hne] at ht'
    exact (Function.update_of_ne hne ..).trans (h.done t ht')
  · show Function.update s.collected s.created false t = false
    by_cases hup : q = .up p
    · subst hup
      have hmem : t ∈ Function.update s.queues (.up p) (s.queues (.up p) ++ [s.created]) (.up p) := ht
      rw [Function.update_self, List.mem_append, List.mem_singleton] at hmem
      rcases hmem with hmem | rfl
      · exact (hcollected _ t hmem).trans (h.kept _ t hq hmem)
      · exact Function.update_self ..
    · rw [create_other s p hup] at ht
      exact (hcollected q t ht).trans (h.kept q t hq ht)
  · exact (hold _ _ t (hlinks.knownRunning p' t hr)).trans (h.loose p' t hseat hr)
  · obtain ⟨pre, hlist, hpre, hrest⟩ := h.releasing p' after rest hp
    refine ⟨pre, (hgarbage p').trans hlist, fun t ht => ?_, fun t ht => ?_⟩
    · refine (hcollected (.garbage p') t ?_).trans (hpre t ht)
      rw [hlist]
      exact List.mem_append_left _ ht
    · refine (hcollected (.garbage p') t ?_).trans (hrest t ht)
      rw [hlist]
      exact List.mem_append_right _ ht
  · rw [hgarbage] at ht
    exact (hcollected _ t ht).trans (h.clearing p' after hp t ht)

end Costream.Scheduler
