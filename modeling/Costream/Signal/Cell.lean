import Mathlib.Data.BitVec

/-!
# The value of a signal

`signal_value_t` has 32 bits, and the field in which a `BusyWaitSignal` stores its value has 64.
What is stored or added is extended with its sign, and what is returned is cut to the lower half.
`Cas` and `WaitRelaxed` compare all 64 bits.

`Cell` is the signal as it should be, with 32 bits everywhere.  The two are compared along a
run of operations, one after the other.  The variants of an operation with other memory orders are
the same here.
-/

namespace Costream.Signal

/-- `signal_value_t`. -/
abbrev Value := BitVec 32

/-- `co_signal_t::value`. -/
abbrev Storage := BitVec 64

/-- `signal_condition_t`. -/
inductive Condition where
  | eq
  | ne
  | lt
  | gte
  deriving DecidableEq

/-- The comparison in the loop of a wait. -/
def Condition.met {w : Nat} (condition : Condition) (value compareValue : BitVec w) : Bool :=
  match condition with
  | .eq => value = compareValue
  | .ne => value ≠ compareValue
  | .lt => value.slt compareValue
  | .gte => compareValue.sle value

/-! ## `BusyWaitSignal` -/

/-- `int64_t(value)`. -/
def extend (value : Value) : Storage := value.signExtend 64

/-- `signal_value_t(value)`. -/
def cut (value : Storage) : Value := value.setWidth 32

def loadRelaxed (s : Storage) : Value := cut s

def storeRelaxed (_ : Storage) (value : Value) : Storage := extend value

def andRelaxed (s : Storage) (value : Value) : Storage := s &&& extend value

def orRelaxed (s : Storage) (value : Value) : Storage := s ||| extend value

def xorRelaxed (s : Storage) (value : Value) : Storage := s ^^^ extend value

def addRelaxed (s : Storage) (value : Value) : Storage := s + extend value

def subRelaxed (s : Storage) (value : Value) : Storage := s - extend value

def exchRelaxed (s : Storage) (value : Value) : Value × Storage := (cut s, extend value)

def casRelaxed (s : Storage) (expected value : Value) : Value × Storage :=
  (cut s, if s = extend expected then extend value else s)

/-- What `WaitRelaxed` returns when nobody else uses the signal, and whether that is because its
condition is met and not because the time is over. -/
def waitRelaxed (s : Storage) (condition : Condition) (compareValue : Value) : Value × Bool :=
  (cut s, condition.met s (extend compareValue))

inductive Op where
  | load
  | store (value : Value)
  | and (value : Value)
  | or (value : Value)
  | xor (value : Value)
  | add (value : Value)
  | sub (value : Value)
  | exch (value : Value)
  | cas (expected value : Value)
  | wait (condition : Condition) (compareValue : Value)
  deriving DecidableEq

/-- The storage after an operation. -/
def after (s : Storage) : Op → Storage
  | .load => s
  | .store value => storeRelaxed s value
  | .and value => andRelaxed s value
  | .or value => orRelaxed s value
  | .xor value => xorRelaxed s value
  | .add value => addRelaxed s value
  | .sub value => subRelaxed s value
  | .exch value => (exchRelaxed s value).2
  | .cas expected value => (casRelaxed s expected value).2
  | .wait _ _ => s

/-- What `Load`, `Exchange` and `Cas` return. -/
def returned (s : Storage) : Op → Option Value
  | .load => some (loadRelaxed s)
  | .exch value => some (exchRelaxed s value).1
  | .cas expected value => some (casRelaxed s expected value).1
  | _ => none

/-! ## The reference -/

namespace Cell

/-- A cell of type `signal_value_t`, with arithmetic that wraps around. -/
def after (r : Value) : Op → Value
  | .load => r
  | .store value => value
  | .and value => r &&& value
  | .or value => r ||| value
  | .xor value => r ^^^ value
  | .add value => r + value
  | .sub value => r - value
  | .exch value => value
  | .cas expected value => if r = expected then value else r
  | .wait _ _ => r

def returned (r : Value) : Op → Option Value
  | .load => some r
  | .exch _ => some r
  | .cas _ _ => some r
  | _ => none

end Cell

/-- The operation is answered as it should be.  A `Cas` that expects what a `Load` would
return stores its value, and a wait that ends since its condition is met returns such a value. -/
structure Answered (s : Storage) (r : Value) (op : Op) : Prop where
  returns : returned s op = Cell.returned r op
  swaps : ∀ expected value, op = .cas expected value → loadRelaxed s = expected →
    (casRelaxed s expected value).2 = extend value
  waits : ∀ condition compareValue, op = .wait condition compareValue →
    (waitRelaxed s condition compareValue).2 = true →
    condition.met (waitRelaxed s condition compareValue).1 compareValue = true

/-- Every operation of a run is answered as it should be. -/
def Agrees : Storage → Value → List Op → Prop
  | _, _, [] => True
  | s, r, op :: ops => Answered s r op ∧ Agrees (after s op) (Cell.after r op) ops

/-! ## When they agree -/

/-- `Cas` does not find the expected value under an upper half that is not its sign, and what a wait
reads meets the condition in its lower half if it does as a whole. -/
def Fits (s : Storage) : Op → Prop
  | .cas expected _ => cut s = expected → s = extend (cut s)
  | .wait condition compareValue =>
    condition.met s (extend compareValue) = true → condition.met (cut s) compareValue = true
  | _ => True

/-- Every operation of a run fits the storage that it finds. -/
def FitsAll : Storage → List Op → Prop
  | _, [] => True
  | s, op :: ops => Fits s op ∧ FitsAll (after s op) ops

instance (s : Storage) : (op : Op) → Decidable (Fits s op)
  | .cas expected _ => inferInstanceAs (Decidable (cut s = expected → s = extend (cut s)))
  | .wait _ _ => inferInstanceAs (Decidable (_ = true → _ = true))
  | .load | .store _ | .and _ | .or _ | .xor _ | .add _ | .sub _ | .exch _ =>
    inferInstanceAs (Decidable True)

theorem cut_extend (value : Value) : cut (extend value) = value := by
  apply BitVec.eq_of_getLsbD_eq
  intro i hi
  rw [cut, extend, BitVec.getLsbD_setWidth, BitVec.getLsbD_signExtend]
  simp [hi, show i < 64 by omega]

theorem cut_add (s : Storage) (value : Value) : cut (s + extend value) = cut s + value := by
  have h := cut_extend value
  unfold cut at h ⊢
  rw [BitVec.setWidth_add _ _ (by decide), h]

theorem cut_sub (s : Storage) (value : Value) : cut (s - extend value) = cut s - value := by
  have hsum := cut_add (s - extend value) value
  rw [BitVec.sub_add_cancel] at hsum
  rw [hsum, BitVec.add_sub_cancel]

/-- The lower half is what the reference has, after each operation that fits. -/
theorem cut_after {s : Storage} {op : Op} (h : Fits s op) :
    cut (after s op) = Cell.after (cut s) op := by
  cases op with
  | load => rfl
  | store value => exact cut_extend value
  | and value =>
    show cut (s &&& extend value) = cut s &&& value
    rw [cut, BitVec.setWidth_and, ← cut, ← cut, cut_extend]
  | or value =>
    show cut (s ||| extend value) = cut s ||| value
    rw [cut, BitVec.setWidth_or, ← cut, ← cut, cut_extend]
  | xor value =>
    show cut (s ^^^ extend value) = cut s ^^^ value
    rw [cut, BitVec.setWidth_xor, ← cut, ← cut, cut_extend]
  | add value => exact cut_add s value
  | sub value => exact cut_sub s value
  | exch value => exact cut_extend value
  | cas expected value =>
    show cut (if s = extend expected then extend value else s) = if cut s = expected then value else cut s
    by_cases hcut : cut s = expected
    · have hs : s = extend (cut s) := h hcut
      rw [hcut] at hs
      rw [if_pos hs, if_pos hcut, cut_extend]
    · rw [if_neg hcut, if_neg]
      rintro rfl
      exact hcut (cut_extend expected)
  | wait condition compareValue => rfl

theorem answered_iff {s : Storage} {op : Op} : Answered s (cut s) op ↔ Fits s op := by
  constructor
  · intro h
    cases op with
    | cas expected value =>
      intro hcut
      have hstored := h.swaps expected value rfl hcut
      unfold casRelaxed at hstored
      by_cases hs : s = extend expected
      · rw [hcut]
        exact hs
      · -- the value has not been stored, so it is there already
        simp only [if_neg hs] at hstored
        have hcut' := congrArg cut hstored
        rw [cut_extend] at hcut'
        rw [hcut', hstored]
    | wait condition compareValue => exact h.waits condition compareValue rfl
    | _ => trivial
  · intro h
    refine ⟨?_, ?_, ?_⟩
    · cases op <;> rfl
    · rintro expected value rfl hcut
      have hs : s = extend (cut s) := h hcut
      rw [show cut s = expected from hcut] at hs
      exact if_pos hs
    · rintro condition compareValue rfl
      exact h

/-- A signal agrees with the reference along a run if and only if every operation fits. -/
theorem agrees_iff (initial : Value) (ops : List Op) :
    Agrees (extend initial) initial ops ↔ FitsAll (extend initial) ops := by
  have hall : ∀ s : Storage, Agrees s (cut s) ops ↔ FitsAll s ops := by
    induction ops with
    | nil => exact fun s => Iff.rfl
    | cons op ops ih =>
      intro s
      show _ ∧ _ ↔ _ ∧ _
      rw [answered_iff]
      refine and_congr_right fun h => ?_
      rw [← cut_after h]
      exact ih _
  have h := hall (extend initial)
  rwa [cut_extend] at h

/-- After an addition that leaves 32 bits, a `Cas` does not succeed with the value just loaded. -/
theorem cas_fails : ¬ ∀ (initial : Value) (ops : List Op), Agrees (extend initial) initial ops := by
  intro hall
  obtain ⟨-, -, hcas, -⟩ := hall 0x7FFFFFFF#32 [.add 1#32, .load, .cas 0x80000000#32 0#32]
  exact absurd (answered_iff.1 hcas) (by decide)

end Costream.Signal
