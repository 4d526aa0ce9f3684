import Costream.Lists
import Costream.Signal.Cell

/-!
# The vectors of the asynchronous events

`EventPool::AsyncEvents` keeps its rows in five vectors.  `ofRows` is what they are when
they hold a list of rows, one column each; every operation on the vectors is one on the
list of rows.  An index that is not in a vector is a fault.
-/

namespace Costream.Signal.EventPool

open Costream.Lists

/-- What belongs together; a null pointer is `none`. -/
structure Row where
  signal : Option Nat
  cond : Condition
  value : Value
  handler : Option Nat
  arg : Nat
deriving DecidableEq

structure AsyncEvents where
  signal : List (Option Nat)
  cond : List Condition
  value : List Value
  handler : List (Option Nat)
  arg : List Nat

/-- `v[dst] = v[src]`. -/
def copyElement {α : Type} (v : List α) (dst src : Nat) : Option (List α) :=
  match v[src]? with
  | none => none
  | some a => if dst < v.length then some (v.set dst a) else none

/-- `v.pop_back()`. -/
def popElement {α : Type} (v : List α) : Option (List α) :=
  if v.isEmpty then none else some v.dropLast

namespace AsyncEvents

variable (events : AsyncEvents)

def pushBack (signal : Option Nat) (cond : Condition) (value : Value) (handler : Option Nat)
    (arg : Nat) : AsyncEvents :=
  { signal := events.signal ++ [signal]
    cond := events.cond ++ [cond]
    value := events.value ++ [value]
    handler := events.handler ++ [handler]
    arg := events.arg ++ [arg] }

def copyIndex (dst src : Nat) : Option AsyncEvents := do
  let signal ← copyElement events.signal dst src
  let cond ← copyElement events.cond dst src
  let value ← copyElement events.value dst src
  let handler ← copyElement events.handler dst src
  let arg ← copyElement events.arg dst src
  return { signal, cond, value, handler, arg }

def size : Nat := events.signal.length

def popBack : Option AsyncEvents := do
  let signal ← popElement events.signal
  let cond ← popElement events.cond
  let value ← popElement events.value
  let handler ← popElement events.handler
  let arg ← popElement events.arg
  return { signal, cond, value, handler, arg }

/-- After `Clear`. -/
def clear : AsyncEvents := ⟨[], [], [], [], []⟩

/-- `CopyIndex(index, Size() - 1)` and `PopBack()`. -/
def remove (index : Nat) : Option AsyncEvents :=
  match events.copyIndex index (events.size - 1) with
  | none => none
  | some events => events.popBack

/-- The vectors have one length. -/
def Aligned : Prop :=
  events.cond.length = events.signal.length ∧ events.value.length = events.signal.length ∧
    events.handler.length = events.signal.length ∧ events.arg.length = events.signal.length

/-- The vectors that hold these rows. -/
def ofRows (rows : List Row) : AsyncEvents :=
  { signal := rows.map Row.signal
    cond := rows.map Row.cond
    value := rows.map Row.value
    handler := rows.map Row.handler
    arg := rows.map Row.arg }

end AsyncEvents

open AsyncEvents

variable {rows : List Row} {i : Nat} {r : Row}

theorem aligned_ofRows : (ofRows rows).Aligned := by
  simp [Aligned, ofRows]

@[simp] theorem size_ofRows : (ofRows rows).size = rows.length := List.length_map _

theorem pushBack_ofRows (r : Row) :
    (ofRows rows).pushBack r.signal r.cond r.value r.handler r.arg = ofRows (rows ++ [r]) := by
  simp [pushBack, ofRows]

theorem copyElement_map {α : Type} (f : Row → α) {dst src : Nat} (hsrc : rows[src]? = some r)
    (hdst : dst < rows.length) :
    copyElement (rows.map f) dst src = some ((rows.set dst r).map f) := by
  unfold copyElement
  rw [List.getElem?_map, hsrc]
  simp only [Option.map_some, List.length_map, hdst, if_true, List.map_set]

theorem copyIndex_ofRows {dst src : Nat} (hsrc : rows[src]? = some r) (hdst : dst < rows.length) :
    (ofRows rows).copyIndex dst src = some (ofRows (rows.set dst r)) := by
  unfold copyIndex
  simp only [ofRows, copyElement_map _ hsrc hdst]
  rfl

theorem popElement_map {α : Type} (f : Row → α) (h : rows ≠ []) :
    popElement (rows.map f) = some (rows.dropLast.map f) := by
  unfold popElement
  rw [if_neg (by simpa using h), List.map_dropLast]

theorem popBack_ofRows (h : rows ≠ []) : (ofRows rows).popBack = some (ofRows rows.dropLast) := by
  unfold popBack
  simp only [ofRows, popElement_map _ h]
  rfl

/-- A row is removed in all the vectors. -/
theorem remove_ofRows (h : i < rows.length) :
    (ofRows rows).remove i = some (ofRows (swapRemove rows i)) := by
  have hne : rows ≠ [] := List.ne_nil_of_length_pos (by omega)
  have hlast : rows[rows.length - 1]? = some (rows.getLast hne) := by
    rw [← List.getLast?_eq_getElem?, List.getLast?_eq_some_getLast hne]
  have hset : rows.set i (rows.getLast hne) ≠ [] :=
    List.ne_nil_of_length_pos (by rw [List.length_set]; omega)
  unfold remove
  rw [size_ofRows, copyIndex_ofRows hlast h]
  simp only [popBack_ofRows hset]
  unfold swapRemove
  rw [List.getLast?_eq_some_getLast hne]

end Costream.Signal.EventPool
