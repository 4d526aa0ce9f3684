import Costream.Trace
import Costream.Owning

/-!
# `any`

An `any` has a pointer to a holder, which has a value of some type, or a null pointer.  It is meant
to be a value of its own: a copy is independent of the original, and every holder is deleted once.

* `State` has the holders and the pointers of all variables of the type `any`, and `Op` the calls of
  their members.  A temporary that a member swaps with `*this` is the old content when the temporary
  is destroyed.
* `Arg` is what a constructor of a held value is called with.  A reference to the content of a
  variable is bound before the call and read inside of it.
* `Op.run` is what a call does to values.  `any_refines_values` says that the holders and pointers
  do the same.

The assignment of one `any` to another is left out: three overloads are as good as each other for
it, so that it does not compile.
-/

namespace Costream.Any

open Trace Owning

variable {ι τ : Type} {V : τ → Type} [DecidableEq ι]

structure State (ι : Type) {τ : Type} (V : τ → Type) extends Store ι (Sigma V) where
  /-- The variables that have been constructed and not destroyed. -/
  alive : ι → Bool

inductive Arg (ι : Type) {τ : Type} (V : τ → Type) where
  | value (v : Sigma V)
  | content (j : ι)
  | throws

/-- An argument that has been bound. -/
inductive Ref {τ : Type} (V : τ → Type) where
  | value (v : Sigma V)
  | address (b : Nat)
  | throws

/-- The calls.  `a` is the address that `new` returns. -/
inductive Op (ι : Type) {τ : Type} (V : τ → Type) where
  | make (i : ι)
  | init (i : ι) (arg : Arg ι V) (a : Nat)
  | copy (i j : ι) (a : Nat)
  | move (i j : ι)
  | destroy (i : ι)
  | emplace (i : ι) (arg : Arg ι V) (a : Nat)
  | swap (i j : ι)
  | assign (i : ι) (arg : Arg ι V) (a : Nat)
  | clear (i : ι)
  | write (i : ι) (v : Sigma V)

namespace State

def empty : State ι V := { Store.empty with alive := fun _ => false }

variable (s : State ι V)

def setAlive (i : ι) (alive : Bool) : State ι V :=
  { s with alive := Function.update s.alive i alive }

def setStore (t : Store ι (Sigma V)) : State ι V := { s with toStore := t }

omit [DecidableEq ι] in
def bind : Arg ι V → Option (Ref V)
  | .value v => some (.value v)
  | .content j => (s.pointer j).map .address
  | .throws => some .throws

omit [DecidableEq ι] in
/-- The value that is constructed; there is none when the constructor throws. -/
def read : Ref V → Option (Option (Sigma V))
  | .value v => some (some v)
  | .address b => (s.object b).map some
  | .throws => some none

/-- `any()`. -/
def make (i : ι) : State ι V := (s.setStore (s.set i none)).setAlive i true

/-- `any(value)`. -/
def init (i : ι) (arg : Arg ι V) (a : Nat) : Option (State ι V) := do
  match ← s.read (← s.bind arg) with
  | none => return s
  | some v => return (s.setStore (s.put i a v)).setAlive i true

/-- `any(const any &)`, with `clone`. -/
def copy (i j : ι) (a : Nat) : Option (State ι V) :=
  match s.pointer j with
  | none => some (s.make i)
  | some b => (s.object b).map fun v => (s.setStore (s.put i a v)).setAlive i true

/-- `any(any &&)`. -/
def move (i j : ι) : State ι V :=
  (s.setStore ((s.set i (s.pointer j)).set j none)).setAlive i true

/-- `~any()`. -/
def destroy (i : ι) : Option (State ι V) :=
  (s.drop i).map fun t => (s.setStore t).setAlive i false

/-- `any().swap(*this)`. -/
def clear (i : ι) : Option (State ι V) := (s.drop i).map s.setStore

/-- The old content goes first. -/
def emplace (i : ι) (arg : Arg ι V) (a : Nat) : Option (State ι V) := do
  let ref ← s.bind arg
  let s ← s.clear i
  match ← s.read ref with
  | none => return s
  | some v => return s.setStore (s.put i a v)

/-- `any(rhs).swap(*this)`. -/
def assign (i : ι) (arg : Arg ι V) (a : Nat) : Option (State ι V) := do
  match ← s.read (← s.bind arg) with
  | none => return s
  | some v => (s.replace i a v).map s.setStore

end State

/-- A reference to a content comes from a cast that has succeeded. -/
def State.Binds (s : State ι V) : Arg ι V → Prop
  | .content j => s.pointer j ≠ none
  | _ => True

/-- A call is about variables that are alive, or constructs one that is not.  `new` returns an
address that is not in use; `emplace` has deleted the old content by then. -/
def Enabled (s : State ι V) : Op ι V → Prop
  | .make i => s.alive i = false
  | .init i arg a => s.alive i = false ∧ s.Binds arg ∧ s.object a = none
  | .copy i j a => s.alive i = false ∧ s.alive j = true ∧ s.object a = none
  | .move i j => s.alive i = false ∧ s.alive j = true
  | .destroy i => s.alive i = true
  | .emplace i arg a =>
    s.alive i = true ∧ s.Binds arg ∧ (s.object a = none ∨ s.pointer i = some a)
  | .swap i j => s.alive i = true ∧ s.alive j = true
  | .assign i arg a => s.alive i = true ∧ s.Binds arg ∧ s.object a = none
  | .clear i => s.alive i = true
  | .write i v => ∃ w, s.value i = some w ∧ w.1 = v.1

def step (s : State ι V) : Op ι V → Option (State ι V)
  | .make i => some (s.make i)
  | .init i arg a => s.init i arg a
  | .copy i j a => s.copy i j a
  | .move i j => some (s.move i j)
  | .destroy i => s.destroy i
  | .emplace i arg a => s.emplace i arg a
  | .swap i j => some (s.setStore (s.swap i j))
  | .assign i arg a => s.assign i arg a
  | .clear i => s.clear i
  | .write i v => (s.toStore.write i v).map s.setStore

def machine : Machine (State ι V) (Op ι V) where
  enabled := Enabled
  step := step

/-! ## Values -/

/-- What a variable is: nothing, or empty, or a value. -/
abbrev Values (ι : Type) {τ : Type} (V : τ → Type) := ι → Option (Option (Sigma V))

def State.values (s : State ι V) : Values ι V := fun i =>
  if s.alive i then some (s.value i) else none

/-- The value that an argument makes. -/
def Arg.make (x : Values ι V) : Arg ι V → Option (Sigma V)
  | .value v => some v
  | .content j => (x j).join
  | .throws => none

/-- What a call does. -/
def Op.run (x : Values ι V) : Op ι V → Values ι V
  | .make i | .clear i => Function.update x i (some none)
  | .init i arg _ | .assign i arg _ =>
    match arg.make x with
    | none => x
    | some v => Function.update x i (some (some v))
  | .copy i j _ => Function.update x i (x j)
  | .move i j => Function.update (Function.update x i (x j)) j (some none)
  | .destroy i => Function.update x i none
  | .emplace i arg _ => Function.update x i (some (arg.make x))
  | .swap i j => Function.update (Function.update x i (x j)) j (x i)
  | .write i v => Function.update x i (some (some v))

/-- `emplace` is called with a reference to the content that it deletes. -/
def Op.reusesOwn : Op ι V → Bool
  | .emplace i (.content j) _ => i = j
  | _ => false

/-- What is not alive has no content. -/
structure Whole (s : State ι V) : Prop extends Owned s.toStore where
  alive : ∀ i, s.alive i = false → s.pointer i = none

omit [DecidableEq ι] in
theorem whole_empty : Whole (State.empty : State ι V) where
  toOwned := owned_empty
  alive _ _ := rfl

variable {s s' : State ι V} {t : Store ι (Sigma V)} {i j : ι} {a : Nat} {v : Sigma V}
  {w : Option (Sigma V)} {arg : Arg ι V} {op : Op ι V}

omit [DecidableEq ι] in
theorem Whole.value (h : Whole s) (hi : s.alive i = false) : s.value i = none :=
  h.value_eq_none.2 (h.alive i hi)

omit [DecidableEq ι] in
theorem values_alive (hi : s.alive i = true) : s.values i = some (s.value i) := if_pos hi

/-! ## One variable changes -/

/-- A variable that is alive has another content. -/
theorem Whole.assigned (h : Whole s) (ht : Owned t) (hv : t.value = Function.update s.value i w)
    (hi : s.alive i = true) :
    Whole (s.setStore t) ∧ (s.setStore t).values = Function.update s.values i (some w) := by
  refine ⟨⟨ht, fun j hj => ?_⟩, funext fun j => ?_⟩
  · have hji : j ≠ i := by
      rintro rfl
      exact absurd hi (by rw [show s.alive j = false from hj]; decide)
    refine ht.value_eq_none.1 ?_
    rw [hv, Function.update_of_ne hji, h.value hj]
  · show (if s.alive j then some (t.value j) else none) = _
    rw [hv]
    by_cases hji : j = i
    · rw [hji, hi, Function.update_self, Function.update_self]
      rfl
    · rw [Function.update_of_ne hji, Function.update_of_ne hji]
      rfl

/-- A variable is constructed. -/
theorem Whole.constructed (h : Whole s) (ht : Owned t)
    (hv : t.value = Function.update s.value i w) :
    Whole ((s.setStore t).setAlive i true) ∧
      ((s.setStore t).setAlive i true).values = Function.update s.values i (some w) := by
  refine ⟨⟨ht, fun j hj => ?_⟩, funext fun j => ?_⟩
  · change Function.update s.alive i true j = false at hj
    have hji : j ≠ i := by
      rintro rfl
      rw [Function.update_self] at hj
      cases hj
    rw [Function.update_of_ne hji] at hj
    refine ht.value_eq_none.1 ?_
    rw [hv, Function.update_of_ne hji, h.value hj]
  · show (if Function.update s.alive i true j then some (t.value j) else none) = _
    rw [hv]
    by_cases hji : j = i
    · rw [hji, Function.update_self, Function.update_self, Function.update_self]
      rfl
    · rw [Function.update_of_ne hji, Function.update_of_ne hji, Function.update_of_ne hji]
      rfl

/-- A variable is destroyed. -/
theorem Whole.destroyed (h : Whole s) (ht : Owned t)
    (hv : t.value = Function.update s.value i none) :
    Whole ((s.setStore t).setAlive i false) ∧
      ((s.setStore t).setAlive i false).values = Function.update s.values i none := by
  refine ⟨⟨ht, fun j hj => ?_⟩, funext fun j => ?_⟩
  · refine ht.value_eq_none.1 ?_
    rw [hv]
    by_cases hji : j = i
    · rw [hji, Function.update_self]
    · change Function.update s.alive i false j = false at hj
      rw [Function.update_of_ne hji] at hj
      rw [Function.update_of_ne hji, h.value hj]
  · show (if Function.update s.alive i false j then some (t.value j) else none) = _
    rw [hv]
    by_cases hji : j = i
    · rw [hji, Function.update_self, Function.update_self, Function.update_self]
      rfl
    · rw [Function.update_of_ne hji, Function.update_of_ne hji, Function.update_of_ne hji]
      rfl

/-! ## Arguments -/

omit [DecidableEq ι] in
/-- An argument that does not refer to anything, or to another content, is read as it was bound. -/
theorem Whole.read_bind (h : Whole s) (hb : s.Binds arg) {t : State ι V} (ht : Whole t)
    (hkeep : ∀ j, arg = .content j → t.pointer j = s.pointer j ∧ t.value j = s.value j) :
    ∃ ref, s.bind arg = some ref ∧ t.read ref = some (arg.make s.values) := by
  cases arg with
  | value v => exact ⟨_, rfl, rfl⟩
  | throws => exact ⟨_, rfl, rfl⟩
  | content j =>
    obtain ⟨hpointer, hvalue⟩ := hkeep j rfl
    obtain ⟨b, hb⟩ := Option.ne_none_iff_exists'.1 hb
    have halive : s.alive j = true := by
      by_contra hj
      rw [h.alive j (Bool.eq_false_iff.2 hj)] at hb
      cases hb
    refine ⟨.address b, ?_, ?_⟩
    · show (s.pointer j).map Ref.address = _
      rw [hb]
      rfl
    · have hobject : t.object b = s.value j := by
        rw [← hvalue, Store.value, hpointer, hb]
        rfl
      have hne : s.value j ≠ none := by
        rw [← hobject]
        exact ht.live j b (hpointer.trans hb)
      obtain ⟨v, hv⟩ := Option.ne_none_iff_exists'.1 hne
      show (t.object b).map some = some (s.values j).join
      rw [hobject, values_alive halive, hv]
      rfl

/-! ## The calls -/

/-- A call that leads from `s` to `s'` does to the values what `op` says. -/
def Does (s : State ι V) (op : Op ι V) : Prop :=
  ∃ s', step s op = some s' ∧ Whole s' ∧ s'.values = op.run s.values

theorem Whole.make (h : Whole s) (he : s.alive i = false) : Does s (.make i) := by
  have hset := set_null (h.alive i he)
  have hvalue : (s.set i none).value = Function.update s.value i none := by
    rw [hset, ← h.value he, Function.update_eq_self]
  have howned : Owned (s.set i none) := by
    rw [hset]
    exact h.toOwned
  exact ⟨_, rfl, h.constructed howned hvalue⟩

theorem Whole.init (h : Whole s) (he : Enabled s (.init i arg a)) : Does s (.init i arg a) := by
  obtain ⟨hi, hb, ha⟩ := he
  obtain ⟨ref, hbind, hread⟩ := h.read_bind hb h fun _ _ => ⟨rfl, rfl⟩
  unfold Does
  simp only [step, State.init, hbind, hread, Option.bind_eq_bind, Option.bind_some, Op.run]
  cases arg.make s.values with
  | none => exact ⟨s, rfl, h, rfl⟩
  | some v =>
    obtain ⟨howned, hvalue⟩ := h.put (h.alive i hi) ha v
    exact ⟨_, rfl, h.constructed howned hvalue⟩

theorem Whole.copy (h : Whole s) (he : Enabled s (.copy i j a)) : Does s (.copy i j a) := by
  obtain ⟨hi, hj, ha⟩ := he
  unfold Does
  simp only [step, State.copy, Op.run, values_alive hj]
  cases hp : s.pointer j with
  | none =>
    rw [h.value_eq_none.2 hp]
    exact h.make hi
  | some b =>
    obtain ⟨v, hv⟩ := Option.ne_none_iff_exists'.1 (h.live j b hp)
    have hvalue : s.value j = some v := by rw [Store.value, hp, Option.bind_some, hv]
    obtain ⟨howned, hput⟩ := h.put (h.alive i hi) ha v
    refine ⟨_, Option.map_eq_some_iff.2 ⟨v, hv, rfl⟩, ?_⟩
    rw [hvalue]
    exact h.constructed howned hput

theorem Whole.swap (h : Whole s) (he : Enabled s (.swap i j)) : Does s (.swap i j) := by
  obtain ⟨hi, hj⟩ := he
  obtain ⟨howned, hvalue⟩ := Owned.swap h.toOwned i j
  refine ⟨_, rfl, ⟨howned, fun k hk => ?_⟩, funext fun k => ?_⟩
  · change s.alive k = false at hk
    have hki : k ≠ i := by
      rintro rfl
      rw [hi] at hk
      cases hk
    have hkj : k ≠ j := by
      rintro rfl
      rw [hj] at hk
      cases hk
    refine howned.value_eq_none.1 ?_
    rw [hvalue, Function.update_of_ne hkj, Function.update_of_ne hki, h.value hk]
  · show (if s.alive k then some ((s.toStore.swap i j).value k) else none) = _
    rw [hvalue, Op.run, values_alive hi, values_alive hj]
    by_cases hkj : k = j
    · rw [hkj, Function.update_self, Function.update_self, if_pos hj]
    · rw [Function.update_of_ne hkj, Function.update_of_ne hkj]
      by_cases hki : k = i
      · rw [hki, Function.update_self, Function.update_self, if_pos hi]
      · rw [Function.update_of_ne hki, Function.update_of_ne hki]
        rfl

/-- A new variable is empty, so that the two are swapped. -/
theorem Whole.move (h : Whole s) (he : Enabled s (.move i j)) : Does s (.move i j) := by
  obtain ⟨hi, hj⟩ := he
  have hstore : (s.set i (s.pointer j)).set j none = s.toStore.swap i j := by
    unfold Store.swap
    rw [h.alive i hi]
  obtain ⟨howned, hvalue⟩ := Owned.swap h.toOwned i j
  rw [h.value hi] at hvalue
  refine ⟨_, rfl, ⟨?_, fun k hk => ?_⟩, funext fun k => ?_⟩
  · show Owned ((s.set i (s.pointer j)).set j none)
    rw [hstore]
    exact howned
  · change Function.update s.alive i true k = false at hk
    show ((s.set i (s.pointer j)).set j none).pointer k = none
    have hki : k ≠ i := by
      rintro rfl
      rw [Function.update_self] at hk
      cases hk
    rw [Function.update_of_ne hki] at hk
    rw [hstore, ← howned.value_eq_none, hvalue]
    by_cases hkj : k = j
    · rw [hkj, Function.update_self]
    · rw [Function.update_of_ne hkj, Function.update_of_ne hki, h.value hk]
  · show (if Function.update s.alive i true k then
      some (((s.set i (s.pointer j)).set j none).value k) else none) = _
    rw [hstore, hvalue, Op.run, values_alive hj]
    by_cases hkj : k = j
    · have hji : j ≠ i := by
        rintro rfl
        rw [hi] at hj
        cases hj
      rw [hkj, Function.update_self, Function.update_self, Function.update_of_ne hji, if_pos hj]
    · rw [Function.update_of_ne hkj, Function.update_of_ne hkj]
      by_cases hki : k = i
      · rw [hki, Function.update_self, Function.update_self, Function.update_self]
        rfl
      · rw [Function.update_of_ne hki, Function.update_of_ne hki, Function.update_of_ne hki]
        rfl

theorem Whole.destroy (h : Whole s) (i : ι) : Does s (.destroy i) := by
  obtain ⟨t, ht, howned, hvalue⟩ := Owned.drop h.toOwned i
  exact ⟨_, Option.map_eq_some_iff.2 ⟨t, ht, rfl⟩, h.destroyed howned hvalue⟩

theorem Whole.clear (h : Whole s) (he : Enabled s (.clear i)) : Does s (.clear i) := by
  obtain ⟨t, ht, howned, hvalue⟩ := Owned.drop h.toOwned i
  exact ⟨_, Option.map_eq_some_iff.2 ⟨t, ht, rfl⟩, h.assigned howned hvalue he⟩

theorem Whole.assign (h : Whole s) (he : Enabled s (.assign i arg a)) :
    Does s (.assign i arg a) := by
  obtain ⟨hi, hb, ha⟩ := he
  obtain ⟨ref, hbind, hread⟩ := h.read_bind hb h fun _ _ => ⟨rfl, rfl⟩
  unfold Does
  simp only [step, State.assign, hbind, hread, Option.bind_eq_bind, Option.bind_some, Op.run]
  cases arg.make s.values with
  | none => exact ⟨s, rfl, h, rfl⟩
  | some v =>
    obtain ⟨t, ht, howned, hvalue⟩ := Owned.replace h.toOwned ha v (i := i)
    exact ⟨_, Option.map_eq_some_iff.2 ⟨t, ht, rfl⟩, h.assigned howned hvalue hi⟩

theorem Whole.write (h : Whole s) (he : Enabled s (.write i v)) : Does s (.write i v) := by
  obtain ⟨w, hw, -⟩ := he
  have hp : s.pointer i ≠ none := by
    intro hp
    rw [h.value_eq_none.2 hp] at hw
    cases hw
  have hi : s.alive i = true := by
    by_contra hi
    exact hp (h.alive i (Bool.eq_false_iff.2 hi))
  obtain ⟨t, ht, howned, hvalue⟩ := Owned.write h.toOwned hp v
  exact ⟨_, Option.map_eq_some_iff.2 ⟨t, ht, rfl⟩, h.assigned howned hvalue hi⟩

/-- What `clear` has left for the constructor. -/
theorem Whole.emplace (h : Whole s) (he : Enabled s (.emplace i arg a))
    (hown : (Op.emplace i arg a).reusesOwn = false) : Does s (.emplace i arg a) := by
  obtain ⟨hi, hb, ha⟩ := he
  obtain ⟨t, ht, howned, hvalue⟩ := Owned.drop h.toOwned i
  obtain ⟨hpointer, hobject⟩ := drop_eq ht
  obtain ⟨hwhole, hvalues⟩ := h.assigned howned hvalue hi
  have hfree : t.object a = none := by
    rw [hobject]
    split
    · rfl
    · exact ha.resolve_right ‹_›
  obtain ⟨ref, hbind, hread⟩ := h.read_bind hb hwhole fun j hj => by
    have hji : j ≠ i := by
      rintro rfl
      rw [hj] at hown
      exact of_decide_eq_false hown rfl
    exact ⟨(congrFun hpointer j).trans (Function.update_of_ne hji ..),
      (congrFun hvalue j).trans (Function.update_of_ne hji ..)⟩
  have hclear : s.clear i = some (s.setStore t) := Option.map_eq_some_iff.2 ⟨t, ht, rfl⟩
  unfold Does
  simp only [step, State.emplace, hbind, hclear, hread, Option.bind_eq_bind, Option.bind_some, Op.run]
  cases arg.make s.values with
  | none => exact ⟨_, rfl, hwhole, hvalues⟩
  | some v =>
    have hnull : t.pointer i = none := by rw [hpointer, Function.update_self]
    obtain ⟨howned', hvalue'⟩ := howned.put hnull hfree v
    obtain ⟨hwhole', hvalues'⟩ := hwhole.assigned (i := i) (w := some v) howned' hvalue' hi
    refine ⟨_, rfl, hwhole', hvalues'.trans ?_⟩
    rw [hvalues, Function.update_idem]

/-- The reference dangles when it is read. -/
theorem emplace_own (h : Whole s) (he : Enabled s (.emplace i (.content i) a)) :
    step s (.emplace i (.content i) a) = none := by
  obtain ⟨b, hb⟩ := Option.ne_none_iff_exists'.1 he.2.1
  obtain ⟨t, ht, -⟩ := Owned.drop h.toOwned i
  obtain ⟨-, hobject⟩ := drop_eq ht
  have hbind : s.bind (.content i) = some (.address b) := by
    show (s.pointer i).map Ref.address = _
    rw [hb]
    rfl
  have hclear : s.clear i = some (s.setStore t) := Option.map_eq_some_iff.2 ⟨t, ht, rfl⟩
  have hread : (s.setStore t).read (.address b) = none := by
    show (t.object b).map some = none
    rw [hobject, if_pos hb]
    rfl
  simp only [step, State.emplace, hbind, hclear, hread, Option.bind_eq_bind, Option.bind_some,
    Option.bind_none]

theorem Whole.step (h : Whole s) (he : Enabled s op) (hown : op.reusesOwn = false) : Does s op := by
  cases op with
  | make i => exact h.make he
  | init i arg a => exact h.init he
  | copy i j a => exact h.copy he
  | move i j => exact h.move he
  | destroy i => exact h.destroy i
  | emplace i arg a => exact h.emplace he hown
  | swap i j => exact h.swap he
  | assign i arg a => exact h.assign he
  | clear i => exact h.clear he
  | write i v => exact h.write he

theorem step_own (h : Whole s) (he : Enabled s op) (hown : op.reusesOwn = true) :
    Any.step s op = none := by
  cases op with
  | emplace i arg a =>
    cases arg with
    | content j =>
      have hij : i = j := of_decide_eq_true hown
      subst hij
      exact emplace_own h he
    | _ => cases hown
  | _ => cases hown

/-- After every sequence of calls: each holder has one variable, so that none is deleted twice or
lost.  The next call does to the values what it says, and only `emplace` with a reference to its own
content fails: it reads what it has deleted.  No holder is left when no variable is. -/
theorem any_refines_values {s : State ι V} (hr : Run machine anyAction State.empty s) :
    Whole s ∧
    (∀ op, machine.enabled s op →
      if op.reusesOwn then machine.step s op = none
      else ∃ s', machine.step s op = some s' ∧ s'.values = op.run s.values) ∧
    ((∀ i, s.alive i = false) → ∀ a, s.object a = none) := by
  have hwhole : Whole s := by
    refine hr.invariant whole_empty fun t op u ht he _ hs => ?_
    cases hown : op.reusesOwn with
    | true =>
      have hnone := step_own ht he hown
      rw [show Any.step t op = some u from hs] at hnone
      cases hnone
    | false =>
      obtain ⟨u', hu', hwhole, -⟩ := ht.step he hown
      rw [show Any.step t op = some u from hs, Option.some.injEq] at hu'
      rw [hu']
      exact hwhole
  refine ⟨hwhole, fun op he => ?_, fun hdead a => ?_⟩
  · split
    · exact step_own hwhole he ‹_›
    · rename_i hown
      obtain ⟨s', hs', -, hvalues⟩ := hwhole.step he (Bool.eq_false_iff.2 hown)
      exact ⟨s', hs', hvalues⟩
  · by_contra ha
    obtain ⟨i, hi⟩ := hwhole.owned a ha
    rw [hwhole.alive i (hdead i)] at hi
    cases hi

/-- A number and a copy of it.  The copy is assigned to itself, and not built anew from itself. -/
theorem any_refines_values_copy : ∃ s : State Bool (fun _ : Unit => Nat),
    Run machine anyAction State.empty s ∧ Whole s ∧
    machine.step s (.emplace true (.content true) 2) = none ∧
    ∃ s', machine.step s (.assign true (.content true) 2) = some s' ∧
      s'.values true = some (some ⟨(), 7⟩) := by
  have hfirst : Run machine anyAction (State.empty : State Bool fun _ : Unit => Nat) _ :=
    Run.refl.tail (a := .init false (.value ⟨(), 7⟩) 0) ⟨rfl, trivial, rfl⟩ trivial rfl
  have hrun := hfirst.tail (a := Op.copy true false 1) ⟨rfl, rfl, rfl⟩ trivial rfl
  obtain ⟨hwhole, hstep, -⟩ := any_refines_values hrun
  have hemplace := hstep (.emplace true (.content true) 2) ⟨rfl, Option.some_ne_none 1, .inl rfl⟩
  obtain ⟨s', hs', hvalues⟩ := hstep (.assign true (.content true) 2) ⟨rfl, Option.some_ne_none 1, rfl⟩
  refine ⟨_, hrun, hwhole, hemplace, s', hs', ?_⟩
  rw [hvalues]
  rfl

end Costream.Any
