import Costream.OrderedMap
import Mathlib.Data.Prod.Lex
import Mathlib.Data.List.Lex
import Mathlib.Order.WithBot
import Mathlib.Order.Fin.Basic

/-!
# The order of source locations

`SourceLocation.lt` is `operator<`.  A file is a pointer, which may be null, and `text` is what a
pointer points to.  `strcmp` compares two of them; `Strcmp` is all that is known about its result,
which is the sign.  `locMap` is the map that `GetAllInfo` makes of the tasks.

* `OneEntryEach` says what the order is for.
* `one_entry_each_iff`: it holds for those `strcmp` that answer -1 whenever the first text is the
  smaller one, as `operator<` tests for -1.
-/

namespace Costream.Debug

open OrderedMap

/-- `α` is the type of the pointers. -/
structure SourceLocation (α : Type*) where
  file_ : Option α := none
  lineno_ : Int32 := 0
  deriving DecidableEq

variable {α : Type*} (text : α → List (Fin 256)) (strcmp : α → α → Int32)

/-- What `strcmp` promises: the sign of the comparison of the texts as lists of `unsigned char`. -/
structure Strcmp : Prop where
  neg : ∀ l r, strcmp l r < 0 ↔ text l < text r
  zero : ∀ l r, strcmp l r = 0 ↔ text l = text r

section Order

variable [DecidableEq α]

/-- `operator<`. -/
def SourceLocation.lt (lhs rhs : SourceLocation α) : Bool :=
  if lhs.lineno_ ≠ rhs.lineno_ then lhs.lineno_ < rhs.lineno_
  else if lhs.file_ = rhs.file_ then false
  else
    match lhs.file_, rhs.file_ with
    | none, _ => true
    | _, none => false
    | some l, some r => strcmp l r = -1

/-- The order of the map. -/
def SourceLocation.Less (a b : SourceLocation α) : Prop := SourceLocation.lt strcmp a b = true

instance : DecidableRel (SourceLocation.Less strcmp) :=
  fun a b => inferInstanceAs (Decidable (SourceLocation.lt strcmp a b = true))

/-- The same line of the same text, or of no file. -/
def SourceLocation.SameText (a b : SourceLocation α) : Prop :=
  a.lineno_ = b.lineno_ ∧ a.file_.map text = b.file_.map text

instance (a b : SourceLocation α) : Decidable (a.SameText text b) := by
  unfold SourceLocation.SameText
  infer_instance

/-! ## The map of the debugger -/

inductive TaskState where
  | runnable
  | block
  | done
  deriving DecidableEq

def TaskState.toNat : TaskState → Nat
  | .runnable => 0
  | .block => 1
  | .done => 2

def TaskState.Less (s s' : TaskState) : Prop := s.toNat < s'.toNat

instance : DecidableRel TaskState.Less :=
  fun s s' => inferInstanceAs (Decidable (s.toNat < s'.toNat))

/-- What the map reads of a task. -/
structure Task (α : Type*) where
  id_ : UInt64
  state_ : TaskState
  location : SourceLocation α
  deriving DecidableEq

/-- `locMap[tk->state_][TaskRefLocation(tk)].push_back(tk)` for each task. -/
def locMap (tasks : List (Task α)) : List (TaskState × List (SourceLocation α × List (Task α))) :=
  collect TaskState.Less Task.state_ []
    (fun tk => alter (SourceLocation.Less strcmp) tk.location [] (· ++ [tk])) tasks

/-! ## What the order is for -/

/-- The map has the tasks by their states, and the tasks of a state by their locations, each
location once. -/
structure Grouped (tasks : List (Task α))
    (m : List (TaskState × List (SourceLocation α × List (Task α)))) : Prop where
  states : m.Pairwise fun d e => d.1 ≠ e.1
  locations : ∀ e ∈ m, e.2.Pairwise fun d e => ¬ d.1.SameText text e.1
  entry : ∀ e ∈ m, ∀ d ∈ e.2, d.2 ≠ [] ∧
    d.2 = tasks.filter fun tk => tk.state_ = e.1 ∧ tk.location.SameText text d.1
  total : ∀ tk ∈ tasks, ∃ e ∈ m, ∃ d ∈ e.2, tk ∈ d.2

structure OneEntryEach : Prop where
  strictWeak : IsStrictWeakOrder (SourceLocation α) (SourceLocation.Less strcmp)
  same : ∀ a b, Same (SourceLocation.Less strcmp) a b ↔ a.SameText text b
  grouped : ∀ tasks : List (Task α), Grouped text tasks (locMap strcmp tasks)

end Order

/-! ## The order of the keys -/

/-- A file in the order: null comes first. -/
def fileKey : Option α → WithBot (List (Fin 256))
  | none => ⊥
  | some p => (text p : WithBot (List (Fin 256)))

/-- The line, and then the file. -/
def SourceLocation.key (a : SourceLocation α) : ℤ ×ₗ WithBot (List (Fin 256)) :=
  toLex (a.lineno_.toInt, fileKey text a.file_)

variable {text strcmp} {a b : SourceLocation α}

theorem fileKey_eq_iff {f g : Option α} :
    fileKey text f = fileKey text g ↔ f.map text = g.map text := by
  cases f with
  | none =>
    cases g with
    | none => exact ⟨fun _ => rfl, fun _ => rfl⟩
    | some r => exact ⟨fun h => absurd h.symm (WithBot.coe_ne_bot), nofun⟩
  | some l =>
    cases g with
    | none => exact ⟨fun h => absurd h (WithBot.coe_ne_bot), nofun⟩
    | some r =>
      unfold fileKey
      rw [WithBot.coe_inj, Option.map_some, Option.map_some, Option.some.injEq]

theorem SourceLocation.key_eq_iff : a.key text = b.key text ↔ a.SameText text b := by
  unfold SourceLocation.key SourceLocation.SameText
  rw [toLex_inj, Prod.mk.injEq, Int32.toInt_inj, fileKey_eq_iff]

/-- Two files that are not the same pointer, in the order of `operator<`. -/
theorem fileKey_lt_iff (h : Strcmp text strcmp)
    (hminus : ∀ l r, text l < text r → strcmp l r = -1) (f g : Option α) : f ≠ g →
    ((match f, g with
      | none, _ => true
      | _, none => false
      | some l, some r => decide (strcmp l r = -1)) = true ↔
        fileKey text f < fileKey text g) := by
  intro hne
  cases f with
  | none =>
    cases g with
    | none => exact absurd rfl hne
    | some r => exact ⟨fun _ => WithBot.bot_lt_coe _, fun _ => rfl⟩
  | some l =>
    cases g with
    | none => exact ⟨nofun, fun hlt => absurd hlt not_lt_bot⟩
    | some r =>
      have htext : strcmp l r = -1 ↔ text l < text r := by
        constructor
        · intro hres
          rw [← h.neg, hres]
          decide
        · exact hminus l r
      exact decide_eq_true_iff.trans (htext.trans WithBot.coe_lt_coe.symm)

variable [DecidableEq α]

/-- Where `strcmp` answers -1, the order is that of the lines and the texts. -/
theorem SourceLocation.less_iff_key (h : Strcmp text strcmp)
    (hminus : ∀ l r, text l < text r → strcmp l r = -1) :
    SourceLocation.Less strcmp a b ↔ a.key text < b.key text := by
  unfold SourceLocation.Less SourceLocation.lt SourceLocation.key
  rw [Prod.Lex.toLex_lt_toLex]
  split
  · rename_i hline
    have hne : a.lineno_.toInt ≠ b.lineno_.toInt := fun heq => hline (Int32.toInt_inj.1 heq)
    rw [decide_eq_true_iff, Int32.lt_iff_toInt_lt]
    simp [hne]
  · rename_i hline
    rw [not_not] at hline
    rw [hline]
    simp only [lt_irrefl, true_and, false_or]
    split
    · rename_i hfile
      rw [hfile]
      simp
    · rename_i hfile
      exact fileKey_lt_iff h hminus _ _ hfile

/-! ## The property -/

/-- Two texts in order that `strcmp` answers with something else than -1 are the same to the map. -/
theorem minus_one_of_same (h : Strcmp text strcmp)
    (hsame : ∀ a b, Same (SourceLocation.Less strcmp) a b ↔ a.SameText text b) (l r : α)
    (hlt : text l < text r) : strcmp l r = -1 := by
  by_contra hres
  have hne : l ≠ r := by
    intro heq
    rw [heq] at hlt
    exact lt_irrefl _ hlt
  have hback : ¬ strcmp r l = -1 := by
    intro hminus
    have hneg : strcmp r l < 0 := by
      rw [hminus]
      decide
    exact lt_asymm hlt ((h.neg r l).1 hneg)
  have hequiv : (⟨some l, 0⟩ : SourceLocation α).SameText text ⟨some r, 0⟩ := by
    rw [← hsame]
    unfold Same SourceLocation.Less SourceLocation.lt
    simp [hne, hne.symm, hres, hback]
  have htext : text l = text r := Option.some.inj hequiv.2
  rw [htext] at hlt
  exact lt_irrefl _ hlt

instance taskState_strictWeak : IsStrictWeakOrder TaskState TaskState.Less :=
  isStrictWeakOrder_of_key (f := TaskState.toNat) fun _ _ => Iff.rfl

/-- Two states are the same to the map only if they are. -/
theorem taskState_same {s s' : TaskState} (h : Same TaskState.Less s s') : s = s' := by
  obtain ⟨hle, hge⟩ := h
  cases s <;> cases s' <;> simp [TaskState.Less, TaskState.toNat] at *

theorem foldl_push {β : Type*} (xs : List β) : xs.foldl (fun ys x => ys ++ [x]) [] = xs := by
  induction xs using List.reverseRecOn with
  | nil => rfl
  | append_singleton xs x ih => rw [List.foldl_append, ih, List.foldl_cons, List.foldl_nil]

/-- The entry of a state is the map of its tasks by their locations. -/
theorem of_mem_locMap {tasks : List (Task α)}
    {e : TaskState × List (SourceLocation α × List (Task α))} (he : e ∈ locMap strcmp tasks) :
    e.2 = collect (SourceLocation.Less strcmp) Task.location [] (fun tk tks => tks ++ [tk])
      (tasks.filter fun tk => tk.state_ = e.1) := by
  have hvalue := (of_mem_collect he).1
  have hfilter : (tasks.filter fun tk => Same TaskState.Less tk.state_ e.1) =
      tasks.filter fun tk => tk.state_ = e.1 := by
    refine List.filter_congr fun tk _ => decide_eq_decide.2 ⟨taskState_same, ?_⟩
    intro heq
    rw [heq]
    exact .refl e.1
  rw [hfilter] at hvalue
  exact hvalue

/-- The map groups the tasks. -/
theorem grouped_locMap
    (hstrict : IsStrictWeakOrder (SourceLocation α) (SourceLocation.Less strcmp))
    (hsame : ∀ a b, Same (SourceLocation.Less strcmp) a b ↔ a.SameText text b)
    (tasks : List (Task α)) : Grouped text tasks (locMap strcmp tasks) := by
  have hentry : ∀ e ∈ locMap strcmp tasks, ∀ d ∈ e.2,
      d.2 = (tasks.filter fun tk => tk.state_ = e.1 ∧ tk.location.SameText text d.1) ∧
        ∃ tk ∈ tasks.filter (fun tk => tk.state_ = e.1), tk.location = d.1 := by
    intro e he d hd
    rw [of_mem_locMap he] at hd
    obtain ⟨hvalue, hkey⟩ := of_mem_collect hd
    refine ⟨?_, hkey⟩
    rw [hvalue, foldl_push, List.filter_filter]
    refine List.filter_congr fun tk _ => ?_
    rw [← Bool.decide_and, decide_eq_decide, and_comm]
    exact and_congr_right fun _ => hsame _ _
  refine ⟨?_, ?_, ?_, ?_⟩
  · refine ordered_collect.not_same.imp ?_
    intro d e hne heq
    rw [heq] at hne
    exact hne (.refl _)
  · intro e he
    rw [of_mem_locMap he]
    exact ordered_collect.not_same.imp fun hne htext => hne ((hsame _ _).2 htext)
  · intro e he d hd
    obtain ⟨hvalue, tk, htk, hlocation⟩ := hentry e he d hd
    refine ⟨?_, hvalue⟩
    obtain ⟨htask, hstate⟩ := List.mem_filter.1 htk
    have hmem : tk ∈ d.2 := by
      rw [hvalue, List.mem_filter, decide_eq_true_iff]
      exact ⟨htask, of_decide_eq_true hstate, by rw [hlocation]; exact ⟨rfl, rfl⟩⟩
    exact List.ne_nil_of_mem hmem
  · intro tk htk
    obtain ⟨e, he, hstate⟩ : ∃ e ∈ locMap strcmp tasks, Same TaskState.Less e.1 tk.state_ :=
      exists_mem_collect htk
    have hmem : tk ∈ tasks.filter fun tk => tk.state_ = e.1 :=
      List.mem_filter.2 ⟨htk, decide_eq_true (taskState_same hstate).symm⟩
    obtain ⟨d, hd, hlocation⟩ : ∃ d ∈ e.2,
        Same (SourceLocation.Less strcmp) d.1 tk.location := by
      rw [of_mem_locMap he]
      exact exists_mem_collect hmem
    refine ⟨e, he, d, hd, ?_⟩
    rw [(hentry e he d hd).1, List.mem_filter, decide_eq_true_iff]
    exact ⟨htk, (taskState_same hstate).symm, (hsame _ _).1 hlocation.symm⟩

/-- The order is what it is to be exactly if `strcmp` answers -1 for all texts that are in order. -/
theorem one_entry_each_iff (h : Strcmp text strcmp) :
    OneEntryEach text strcmp ↔ ∀ l r, text l < text r → strcmp l r = -1 := by
  constructor
  · intro hone
    exact minus_one_of_same h hone.same
  · intro hminus
    have hstrict : IsStrictWeakOrder (SourceLocation α) (SourceLocation.Less strcmp) :=
      isStrictWeakOrder_of_key fun _ _ => SourceLocation.less_iff_key h hminus
    have hsame : ∀ a b, Same (SourceLocation.Less strcmp) a b ↔ a.SameText text b := by
      intro a b
      rw [Same, SourceLocation.less_iff_key h hminus, SourceLocation.less_iff_key h hminus, not_lt,
        not_lt, and_comm, ← le_antisymm_iff, SourceLocation.key_eq_iff]
    exact ⟨hstrict, hsame, grouped_locMap hstrict hsame⟩

/-- Two files, `a` and `c`, and a `strcmp` that answers -1, 0 or 1. -/
theorem one_entry_each_two :
    OneEntryEach (fun p : Bool => [if p then 99 else 97])
      fun l r => if l = r then 0 else if r then -1 else 1 :=
  (one_entry_each_iff ⟨by decide, by decide⟩).2 (by decide)

/-- The same files, and a `strcmp` that answers the difference of the first bytes that differ. -/
theorem same_entry_for_two_files : ¬ ∀ (α : Type) [DecidableEq α] (text : α → List (Fin 256))
    (strcmp : α → α → Int32), Strcmp text strcmp → OneEntryEach text strcmp := by
  intro hclaim
  have hone := hclaim Bool (fun p => [if p then 99 else 97])
    (fun l r => if l = r then 0 else if r then -2 else 2) ⟨by decide, by decide⟩
  have htext := (hone.same ⟨some false, 0⟩ ⟨some true, 0⟩).1 (by decide)
  exact absurd htext.2 (by decide)

end Costream.Debug
