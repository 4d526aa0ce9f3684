import Mathlib.Data.Option.Basic
import Mathlib.Tactic.Common

/-!
# Histories of a bounded queue

What a bounded queue answers when it is asked one thing after the other, and how
to show that an implementation gives the same answers.

* `ask` is the bounded queue itself: a list of at most `capacity` elements.
* `answers` is what an implementation answers to a history.  It has no result when a
  query is never answered.
* `answers_eq_iff` is the rule of simulation: an implementation that answers the good
  queries as the queue does, and no other, gives the right answers to those histories
  all of whose queries are good.
-/

namespace Costream.BoundedQueue

inductive Query (α : Type*) where
  | push (a : α)
  | pop
  | size
  | empty

inductive Answer (α : Type*) where
  | pushed (ok : Bool)
  | popped (a : Option α)
  | size (n : Nat)
  | empty (b : Bool)

variable {α σ : Type*} {capacity : Nat}

/-- The bounded queue. -/
def ask (capacity : Nat) (xs : List α) : Query α → Answer α × List α
  | .push a => if xs.length < capacity then (.pushed true, xs ++ [a]) else (.pushed false, xs)
  | .pop => (.popped xs.head?, xs.tail)
  | .size => (.size xs.length, xs)
  | .empty => (.empty xs.isEmpty, xs)

theorem ask_push_room {xs : List α} (h : xs.length < capacity) (a : α) :
    ask capacity xs (.push a) = (.pushed true, xs ++ [a]) := by
  rw [ask, if_pos h]

theorem ask_push_full {xs : List α} (h : ¬ xs.length < capacity) (a : α) :
    ask capacity xs (.push a) = (.pushed false, xs) := by
  rw [ask, if_neg h]

/-- How many pushes of a history are accepted. -/
def accepted (capacity : Nat) : List α → List (Query α) → Nat
  | _, [] => 0
  | xs, .push a :: rest =>
    (if xs.length < capacity then 1 else 0) + accepted capacity (ask capacity xs (.push a)).2 rest
  | xs, .pop :: rest => accepted capacity xs.tail rest
  | xs, .size :: rest => accepted capacity xs rest
  | xs, .empty :: rest => accepted capacity xs rest

/-- The answers of an implementation to a history. -/
def answers (impl : σ → Query α → Option (Answer α × σ)) : σ → List (Query α) →
    Option (List (Answer α))
  | _, [] => some []
  | s, q :: rest => (impl s q).bind fun r => (answers impl r.2 rest).map (r.1 :: ·)

/-- The right answers. -/
def answersOf (capacity : Nat) (xs : List α) (history : List (Query α)) :
    Option (List (Answer α)) :=
  answers (fun xs q => some (ask capacity xs q)) xs history

/-- Every query of the history is good at the time it is asked. -/
def Throughout (capacity : Nat) (Good : List α → Query α → Prop) : List α → List (Query α) → Prop
  | _, [] => True
  | xs, q :: rest => Good xs q ∧ Throughout capacity Good (ask capacity xs q).2 rest

instance decidableThroughout {Good : List α → Query α → Prop}
    [hgood : ∀ xs q, Decidable (Good xs q)] (xs : List α) (history : List (Query α)) :
    Decidable (Throughout capacity Good xs history) :=
  match history with
  | [] => inferInstanceAs (Decidable True)
  | q :: rest =>
    have : Decidable (Throughout capacity Good (ask capacity xs q).2 rest) :=
      decidableThroughout (ask capacity xs q).2 rest
    inferInstanceAs (Decidable (_ ∧ _))

theorem answers_cons {impl : σ → Query α → Option (Answer α × σ)} {s s' : σ} {q : Query α}
    {a : Answer α} (h : impl s q = some (a, s')) (rest : List (Query α)) :
    answers impl s (q :: rest) = (answers impl s' rest).map (a :: ·) := by
  rw [answers, h, Option.bind_some]

theorem answersOf_cons (xs : List α) (q : Query α) (rest : List (Query α)) :
    answersOf capacity xs (q :: rest) =
      (answersOf capacity (ask capacity xs q).2 rest).map ((ask capacity xs q).1 :: ·) :=
  answers_cons rfl rest

/-- The queue always answers. -/
theorem exists_answersOf (xs : List α) (history : List (Query α)) :
    ∃ as, answersOf capacity xs history = some as := by
  induction history generalizing xs with
  | nil => exact ⟨[], rfl⟩
  | cons q rest ih =>
    obtain ⟨as, has⟩ := ih (ask capacity xs q).2
    refine ⟨(ask capacity xs q).1 :: as, ?_⟩
    rw [answersOf_cons, has]
    rfl

/-- An answer that is not the right one makes the history differ. -/
theorem answers_ne {impl : σ → Query α → Option (Answer α × σ)} {s : σ} {xs : List α}
    {q : Query α} (h : ∀ s', impl s q ≠ some ((ask capacity xs q).1, s')) (rest : List (Query α)) :
    answers impl s (q :: rest) ≠ answersOf capacity xs (q :: rest) := by
  obtain ⟨as, has⟩ : ∃ as, answersOf capacity (ask capacity xs q).2 rest = some as :=
    exists_answersOf (ask capacity xs q).2 rest
  rw [answersOf_cons, has, Option.map_some]
  cases hq : impl s q with
  | none =>
    rw [answers, hq]
    intro hne
    cases hne
  | some r =>
    obtain ⟨a, s'⟩ := r
    rw [answers_cons hq]
    intro heq
    obtain ⟨bs, -, hcons⟩ := Option.map_eq_some_iff.1 heq
    apply h s'
    rw [hq, (List.cons.inj hcons).1]

/-- The rule of simulation.  `R` may speak of the queries that are still to come. -/
theorem answers_eq_iff {impl : σ → Query α → Option (Answer α × σ)}
    {R : List (Query α) → σ → List α → Prop} {Good : List α → Query α → Prop}
    (hgood : ∀ q rest s xs, R (q :: rest) s xs → Good xs q →
      ∃ s', impl s q = some ((ask capacity xs q).1, s') ∧ R rest s' (ask capacity xs q).2)
    (hbad : ∀ q rest s xs, R (q :: rest) s xs → ¬ Good xs q →
      ∀ s', impl s q ≠ some ((ask capacity xs q).1, s'))
    {history : List (Query α)} {s : σ} {xs : List α} (h : R history s xs) :
    answers impl s history = answersOf capacity xs history ↔
      Throughout capacity Good xs history := by
  induction history generalizing s xs with
  | nil => exact ⟨fun _ => trivial, fun _ => rfl⟩
  | cons q rest ih =>
    by_cases hq : Good xs q
    · obtain ⟨s', hs', h'⟩ := hgood q rest s xs h hq
      rw [answers_cons hs', answersOf_cons]
      have hmap : ∀ as bs : Option (List (Answer α)),
          as.map ((ask capacity xs q).1 :: ·) = bs.map ((ask capacity xs q).1 :: ·) ↔ as = bs := by
        intro as bs
        cases as <;> cases bs <;> simp
      rw [hmap, ih h']
      exact ⟨fun hrest => ⟨hq, hrest⟩, fun hall => hall.2⟩
    · constructor
      · intro heq
        exact absurd heq (answers_ne (hbad q rest s xs h hq) rest)
      · intro hall
        exact absurd hall.1 hq

/-- An implementation that answers every query as the queue does. -/
theorem answers_eq {impl : σ → Query α → Option (Answer α × σ)}
    {R : List (Query α) → σ → List α → Prop}
    (hstep : ∀ q rest s xs, R (q :: rest) s xs →
      ∃ s', impl s q = some ((ask capacity xs q).1, s') ∧ R rest s' (ask capacity xs q).2)
    {history : List (Query α)} {s : σ} {xs : List α} (h : R history s xs) :
    answers impl s history = answersOf capacity xs history := by
  induction history generalizing s xs with
  | nil => rfl
  | cons q rest ih =>
    obtain ⟨s', hs', h'⟩ := hstep q rest s xs h
    rw [answers_cons hs', answersOf_cons, ih h']

end Costream.BoundedQueue
