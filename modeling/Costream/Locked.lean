import Costream.Trace

/-!
# Calls that run under a lock

Parties call functions of one object.  A call may look at the object first, without the lock, and
be answered at once by what it sees.  Otherwise it spins until it has the lock, and runs its `Code`
under it, one access after another; between any two of them the other parties may go on.

* `machine` has these steps.  `Spec.machine` has one step for each call, in which all of it is
  done: somewhere between the call and its return.
* `Refines` is what has to be shown of the functions one by one: what they do when nobody
  disturbs them, and that to the looks of the others the code under the lock is one step.
* `Refines.linearizable` is the rule: whatever the machine does, the calls and the returns are
  also those of the machine of the specification.
-/

namespace Costream.Locked

open Trace

variable {P σ κ ρ α : Type*}

/-! ## Code -/

/-- What runs under the lock.  `fail` stands for an assertion that does not hold, or a null
pointer. -/
inductive Code (σ ρ : Type*) where
  | ret (r : ρ)
  | fail
  | read (f : σ → Code σ ρ)
  | write (g : σ → σ) (next : Code σ ρ)

namespace Code

/-- Goes on with what `f` finds. -/
def get {β : Type*} (f : σ → Option β) (k : β → Code σ ρ) : Code σ ρ :=
  .read fun s =>
    match f s with
    | some b => k b
    | none => .fail

/-- `assert`. -/
def assert (p : σ → Bool) (next : Code σ ρ) : Code σ ρ :=
  .read fun s => if p s then next else .fail

/-- The code runs to its end, and nobody disturbs it. -/
def run : Code σ ρ → σ → Option (σ × ρ)
  | .ret r, s => some (s, r)
  | .fail, _ => none
  | .read f, s => (f s).run s
  | .write g next, s => next.run (g s)

section Run

variable {β : Type*} (f : σ → Code σ ρ) (g : σ → σ) (find : σ → Option β) (p : σ → Bool)
  (k : β → Code σ ρ) (next : Code σ ρ) (s : σ) (r : ρ)

@[simp] theorem run_ret : (ret r : Code σ ρ).run s = some (s, r) := rfl
@[simp] theorem run_read : (read f).run s = (f s).run s := rfl
@[simp] theorem run_write : (write g next).run s = next.run (g s) := rfl

@[simp] theorem run_get : (get find k).run s = (find s).bind fun b => (k b).run s := by
  show Code.run (match find s with
    | some b => k b
    | none => .fail) s = _
  cases find s <;> rfl

@[simp] theorem run_assert : (assert p next).run s = if p s then next.run s else none := by
  show Code.run (if p s then next else .fail) s = _
  cases p s <;> rfl

end Run

/-- Every write goes from one state to a state that `R` relates to it. -/
def Steady (R : σ → σ → Prop) : Code σ ρ → σ → Prop
  | .ret _, _ => True
  | .fail, _ => True
  | .read f, s => (f s).Steady R s
  | .write g next, s => R s (g s) ∧ next.Steady R (g s)

/-- Every write does so, but one may go to a state that only `W` relates to it. -/
def Once (R W : σ → σ → Prop) : Code σ ρ → σ → Prop
  | .ret _, _ => True
  | .fail, _ => True
  | .read f, s => (f s).Once R W s
  | .write g next, s => R s (g s) ∧ next.Once R W (g s) ∨ W s (g s) ∧ next.Steady R (g s)

section Rules

variable {R W : σ → σ → Prop} {β : Type*} {f : σ → Code σ ρ} {g : σ → σ} {find : σ → Option β}
  {p : σ → Bool} {k : β → Code σ ρ} {next : Code σ ρ} {s t : σ} {r : ρ}

theorem Steady.write (h : R s (g s)) (hnext : next.Steady R (g s)) :
    (Code.write g next).Steady R s :=
  ⟨h, hnext⟩

theorem Steady.assert (hnext : next.Steady R s) : (Code.assert p next).Steady R s := by
  show Steady R (if p s then next else .fail) s
  cases p s with
  | true => exact hnext
  | false => trivial

theorem Steady.once (h : next.Steady R s) : next.Once R W s := by
  induction next generalizing s with
  | ret r => trivial
  | fail => trivial
  | read f ih => exact ih s h
  | write g next ih => exact .inl ⟨h.1, ih h.2⟩

/-- A run of steady code relates its ends. -/
theorem Steady.run (hrefl : ∀ s, R s s) (htrans : ∀ s t u, R s t → R t u → R s u)
    (h : next.Steady R s) (hrun : next.run s = some (t, r)) : R s t := by
  induction next generalizing s with
  | ret r' =>
    cases hrun
    exact hrefl _
  | fail => cases hrun
  | read f ih => exact ih s h hrun
  | write g next ih => exact htrans s (g s) t h.1 (ih h.2 hrun)

theorem Once.write (h : R s (g s)) (hnext : next.Once R W (g s)) : (Code.write g next).Once R W s :=
  .inl ⟨h, hnext⟩

/-- The one write. -/
theorem Once.last (h : W s (g s)) (hnext : next.Steady R (g s)) : (Code.write g next).Once R W s :=
  .inr ⟨h, hnext⟩

theorem Once.read (h : (f s).Once R W s) : (Code.read f).Once R W s := h

theorem Once.ite {c : Prop} [Decidable c] {k k' : Code σ ρ} (h : k.Once R W s)
    (h' : k'.Once R W s) : (if c then k else k').Once R W s := by
  by_cases hc : c
  · rw [if_pos hc]
    exact h
  · rw [if_neg hc]
    exact h'

theorem Once.get (hk : ∀ b, (k b).Once R W s) : (Code.get find k).Once R W s := by
  show Once R W (match find s with
    | some b => k b
    | none => .fail) s
  cases find s with
  | some b => exact hk b
  | none => trivial

theorem Once.assert (hnext : next.Once R W s) : (Code.assert p next).Once R W s := by
  show Once R W (if p s then next else .fail) s
  cases p s with
  | true => exact hnext
  | false => trivial

end Rules

end Code

/-! ## The calls -/

/-- `ready p c s`: party `p` may make the call `c`. -/
structure Object (P σ κ ρ : Type*) where
  ready : P → κ → σ → Prop
  look : κ → σ → Option ρ
  body : κ → Code σ ρ

inductive Place (σ κ ρ : Type*) where
  | idle
  | called (c : κ)
  /-- The look has not answered the call, and `lock` spins. -/
  | waiting (c : κ)
  | inside (c : κ) (code : Code σ ρ)
  | answered (r : ρ)

inductive Event (P κ ρ : Type*) where
  | call (p : P) (c : κ)
  | ret (p : P) (r : ρ)
deriving DecidableEq

/-- `flag` is that of the lock. -/
structure State (P σ κ ρ : Type*) where
  shared : σ
  flag : Bool
  place : P → Place σ κ ρ
  history : List (Event P κ ρ)

inductive Action (P κ : Type*) where
  | call (p : P) (c : κ)
  /-- The next step of the call of `p`. -/
  | thread (p : P)
  | ret (p : P)

/-- Nobody has called yet. -/
def State.initial (s : σ) : State P σ κ ρ := ⟨s, false, fun _ => .idle, []⟩

section Machine

variable [DecidableEq P]

def State.put (s : State P σ κ ρ) (p : P) (place : Place σ κ ρ) : State P σ κ ρ :=
  { s with place := Function.update s.place p place }

/-- `test_and_set` finds the flag set, or sets it. -/
def State.lock (s : State P σ κ ρ) (p : P) (c : κ) (code : Code σ ρ) : State P σ κ ρ :=
  if s.flag then s else { s.put p (.inside c code) with flag := true }

/-- One step of a call. -/
def State.thread (O : Object P σ κ ρ) (s : State P σ κ ρ) (p : P) : Option (State P σ κ ρ) :=
  match s.place p with
  | .idle => none
  | .called c =>
    match O.look c s.shared with
    | some r => some (s.put p (.answered r))
    | none => some (s.put p (.waiting c))
  | .waiting c => some (s.lock p c (O.body c))
  | .inside _ (.ret r) => some { s.put p (.answered r) with flag := false }
  | .inside _ .fail => none
  | .inside c (.read f) => some (s.put p (.inside c (f s.shared)))
  | .inside c (.write g next) => some { s.put p (.inside c next) with shared := g s.shared }
  | .answered _ => none

def State.next (O : Object P σ κ ρ) (s : State P σ κ ρ) : Action P κ → Option (State P σ κ ρ)
  | .call p c => some { s.put p (.called c) with history := s.history ++ [.call p c] }
  | .thread p => s.thread O p
  | .ret p =>
    match s.place p with
    | .answered r => some { s.put p .idle with history := s.history ++ [.ret p r] }
    | _ => none

/-- The party is in a call that has not been answered. -/
def Place.busy : Place σ κ ρ → Bool
  | .idle | .answered _ => false
  | _ => true

def Place.isAnswered : Place σ κ ρ → Bool
  | .answered _ => true
  | _ => false

def Place.isIdle : Place σ κ ρ → Bool
  | .idle => true
  | _ => false

theorem Place.eq_idle {here : Place σ κ ρ} (h : here.isIdle = true) : here = .idle := by
  cases here with
  | idle => rfl
  | _ => cases h

theorem Place.exists_answered {here : Place σ κ ρ} (h : here.isAnswered = true) :
    ∃ r, here = .answered r := by
  cases here with
  | answered r => exact ⟨r, rfl⟩
  | _ => cases h

def State.enabled (O : Object P σ κ ρ) (s : State P σ κ ρ) : Action P κ → Prop
  | .call p c => (s.place p).isIdle = true ∧ O.ready p c s.shared
  | .thread p => (s.place p).busy = true
  | .ret p => (s.place p).isAnswered = true

def machine (O : Object P σ κ ρ) : Machine (State P σ κ ρ) (Action P κ) where
  enabled := State.enabled O
  step := State.next O

instance (O : Object P σ κ ρ) [∀ p c s, Decidable (O.ready p c s)] (s : State P σ κ ρ)
    (a : Action P κ) : Decidable ((machine O).enabled s a) :=
  match a with
  | .call p c => inferInstanceAs (Decidable ((s.place p).isIdle = true ∧ O.ready p c s.shared))
  | .thread p => inferInstanceAs (Decidable ((s.place p).busy = true))
  | .ret p => inferInstanceAs (Decidable ((s.place p).isAnswered = true))

end Machine

/-! ## The specification -/

/-- A value, what may be done with it, and what that does. -/
structure Spec (α κ ρ : Type*) where
  legal : α → κ → Prop
  apply : α → κ → α × ρ

namespace Spec

inductive Place (κ ρ : Type*) where
  | idle
  | called (c : κ)
  | answered (r : ρ)

structure State (P α κ ρ : Type*) where
  value : α
  place : P → Place κ ρ
  history : List (Event P κ ρ)

def State.initial (a : α) : State P α κ ρ := ⟨a, fun _ => .idle, []⟩

section Machine

variable [DecidableEq P] (S : Spec α κ ρ) (s : State P α κ ρ)

def State.put (p : P) (place : Place κ ρ) : State P α κ ρ :=
  { s with place := Function.update s.place p place }

/-- The call of `p` is done. -/
def State.effect (p : P) (c : κ) : State P α κ ρ :=
  { s.put p (.answered (S.apply s.value c).2) with value := (S.apply s.value c).1 }

/-- `thread` does all of the call. -/
def State.next : Action P κ → Option (State P α κ ρ)
  | .call p c => some { s.put p (.called c) with history := s.history ++ [.call p c] }
  | .thread p =>
    match s.place p with
    | .called c => some (s.effect S p c)
    | _ => none
  | .ret p =>
    match s.place p with
    | .answered r => some { s.put p .idle with history := s.history ++ [.ret p r] }
    | _ => none

def State.enabled : Action P κ → Prop
  | .call p _ => s.place p = .idle
  | .thread p => ∃ c, s.place p = .called c ∧ S.legal s.value c
  | .ret p => ∃ r, s.place p = .answered r

def machine : Machine (State P α κ ρ) (Action P κ) where
  enabled := State.enabled S
  step := State.next S

end Machine

end Spec

/-! ## Refinement -/

variable {O : Object P σ κ ρ} {S : Spec α κ ρ} {Rep : σ → α → Prop}

/-- The others may call what they might call before. -/
def Object.Kept (O : Object P σ κ ρ) (p : P) (s t : σ) : Prop :=
  ∀ q ≠ p, ∀ c, O.ready q c t ↔ O.ready q c s

/-- Their looks find what they found before. -/
def Object.Unseen (O : Object P σ κ ρ) (p : P) (s t : σ) : Prop :=
  ∀ q ≠ p, ∀ c, O.ready q c s → O.look c t = O.look c s

/-- Both. -/
structure Object.Same (O : Object P σ κ ρ) (p : P) (s t : σ) : Prop where
  kept : O.Kept p s t
  unseen : O.Unseen p s t

theorem Object.Same.refl (O : Object P σ κ ρ) (p : P) (s : σ) : O.Same p s s :=
  ⟨fun _ _ _ => Iff.rfl, fun _ _ _ _ => rfl⟩

theorem Object.Same.trans {p : P} {s t u : σ} (h : O.Same p s t) (h' : O.Same p t u) :
    O.Same p s u where
  kept q hq c := (h'.kept q hq c).trans (h.kept q hq c)
  unseen q hq c hready :=
    (h'.unseen q hq c ((h.kept q hq c).2 hready)).trans (h.unseen q hq c hready)

/-- `Rep s a`: the object stands for the value `a`.

A look that answers a call does what the call is to do.  Under the lock a legal call runs to its
end and does that, it leaves the others their calls, and with no more than one write it changes what
the others see when they look. -/
structure Refines (O : Object P σ κ ρ) (S : Spec α κ ρ) (Rep : σ → α → Prop) : Prop where
  look : ∀ {p c s a r}, Rep s a → O.ready p c s → O.look c s = some r →
    S.legal a c ∧ S.apply a c = (a, r)
  run : ∀ {p c s a}, Rep s a → O.ready p c s → S.legal a c →
    ∃ t, (O.body c).run s = some (t, (S.apply a c).2) ∧ Rep t (S.apply a c).1
  once : ∀ {p c s}, O.ready p c s → (O.body c).Once (O.Same p) (O.Kept p) s

/-- The call that gets the lock. -/
def State.gets (s : State P σ κ ρ) : Action P κ → Option κ
  | .thread p =>
    match s.place p with
    | .waiting c => if s.flag then none else some c
    | _ => none
  | _ => none

theorem State.gets_waiting {s : State P σ κ ρ} {p : P} {c : κ} (hp : s.place p = .waiting c)
    (hflag : s.flag = false) : s.gets (.thread p) = some c := by
  simp only [gets, hp, hflag]
  rfl

/-- A call is legal when it gets the lock. -/
def Lawful (S : Spec α κ ρ) (Rep : σ → α → Prop) (s : State P σ κ ρ) (a : Action P κ) : Prop :=
  ∀ c, s.gets a = some c → ∀ v, Rep s.shared v → S.legal v c

/-! ### What the two machines have in common -/

/-- The code of a party that has the lock. -/
def Place.code : Place σ κ ρ → Option (κ × Code σ ρ)
  | .inside c k => some (c, k)
  | _ => none

/-- Outside the lock a party is at the same place in both. -/
def Corresponds (O : Object P σ κ ρ) (p : P) (s : σ) : Place σ κ ρ → Spec.Place κ ρ → Prop
  | .idle, .idle => True
  | .called c, .called c' => c = c' ∧ O.ready p c s
  | .waiting c, .called c' => c = c' ∧ O.ready p c s
  | .inside _ _, _ => True
  | .answered r, .answered r' => r = r'
  | _, _ => False

section Corresponds

variable {p : P} {x : σ} {there : Spec.Place κ ρ} {c : κ} {r : ρ}

theorem Corresponds.idle (h : Corresponds O p x .idle there) : there = .idle := by
  cases there with
  | idle => rfl
  | _ => cases h

theorem Corresponds.called (h : Corresponds O p x (.called c) there) :
    there = .called c ∧ O.ready p c x := by
  cases there with
  | called c' =>
    obtain ⟨rfl, hready⟩ := h
    exact ⟨rfl, hready⟩
  | _ => cases h

theorem Corresponds.waiting (h : Corresponds O p x (.waiting c) there) :
    there = .called c ∧ O.ready p c x := by
  cases there with
  | called c' =>
    obtain ⟨rfl, hready⟩ := h
    exact ⟨rfl, hready⟩
  | _ => cases h

theorem Corresponds.answered (h : Corresponds O p x (.answered r) there) :
    there = .answered r := by
  cases there with
  | answered r' =>
    have heq : r = r' := h
    rw [heq]
  | _ => cases h

end Corresponds

/-- What the code under the lock has done.  The call is done in the specification when the others
can see it, or when the code comes to its end. -/
inductive Held (O : Object P σ κ ρ) (S : Spec α κ ρ) (Rep : σ → α → Prop) (flag : Bool) (s : σ)
    (code : P → Option (κ × Code σ ρ)) (a : α) (place : P → Spec.Place κ ρ) : Prop where
  | free (hflag : flag = false) (hcode : ∀ q, code q = none) (hrep : Rep s a)
  | before (p : P) (c : κ) (k : Code σ ρ) (s₀ t : σ) (hflag : flag = true)
    (hcode : code p = some (c, k)) (hothers : ∀ q ≠ p, code q = none)
    (hplace : place p = .called c) (hlegal : S.legal a c)
    (hrun : k.run s = some (t, (S.apply a c).2)) (hrep : Rep t (S.apply a c).1)
    (honce : k.Once (O.Same p) (O.Kept p) s) (hrep₀ : Rep s₀ a) (hsame₀ : O.Same p s₀ s)
  | after (p : P) (c : κ) (k : Code σ ρ) (t : σ) (r : ρ) (hflag : flag = true)
    (hcode : code p = some (c, k)) (hothers : ∀ q ≠ p, code q = none)
    (hplace : place p = .answered r) (hrun : k.run s = some (t, r)) (hrep : Rep t a)
    (hsteady : k.Steady (O.Same p) s)

structure Sim (O : Object P σ κ ρ) (S : Spec α κ ρ) (Rep : σ → α → Prop) (s : State P σ κ ρ)
    (t : Spec.State P α κ ρ) : Prop where
  history : t.history = s.history
  places : ∀ q, Corresponds O q s.shared (s.place q) (t.place q)
  held : Held O S Rep s.flag s.shared (fun q => (s.place q).code) t.value t.place

variable {flag : Bool} {s s' : State P σ κ ρ} {t : Spec.State P α κ ρ} {p q : P} {c : κ} {r : ρ}
  {a : α}

/-- Nobody has the lock. -/
theorem Held.nobody {x : σ} {code : P → Option (κ × Code σ ρ)} {place : P → Spec.Place κ ρ}
    (h : Held O S Rep flag x code a place) (hflag : flag = false) :
    Rep x a ∧ ∀ q, code q = none := by
  cases h with
  | free _ hnone hrep => exact ⟨hrep, hnone⟩
  | before p c k s₀ t hset =>
    rw [hset] at hflag
    cases hflag
  | after p c k t r hset =>
    rw [hset] at hflag
    cases hflag

/-- A party that runs no code does not have the lock. -/
theorem ne_holder {code : P → Option (κ × Code σ ρ)} {x : κ × Code σ ρ} (hp : code p = some x)
    (hq : code q = none) : q ≠ p := by
  intro heq
  rw [heq, hp] at hq
  cases hq

/-- A look that answers a call does all of it, also while another party has the lock. -/
theorem Held.look {x : σ} {code : P → Option (κ × Code σ ρ)} {place : P → Spec.Place κ ρ}
    (hr : Refines O S Rep) (h : Held O S Rep flag x code a place) (hcode : code q = none)
    (hready : O.ready q c x) (hlook : O.look c x = some r) :
    S.legal a c ∧ S.apply a c = (a, r) := by
  cases h with
  | free hflag hnone hrep => exact hr.look hrep hready hlook
  | before p c' k s₀ t hflag hp hothers hplace hlegal hrun hrep honce hrep₀ hsame₀ =>
    have hne := ne_holder hp hcode
    have hready₀ : O.ready q c s₀ := (hsame₀.kept q hne c).1 hready
    refine hr.look hrep₀ hready₀ ?_
    rw [← hsame₀.unseen q hne c hready₀]
    exact hlook
  | after p c' k t r' hflag hp hothers hplace hrun hrep hsteady =>
    have hne := ne_holder hp hcode
    have hsame := hsteady.run (Object.Same.refl O p) (fun _ _ _ => Object.Same.trans) hrun
    refine hr.look hrep ((hsame.kept q hne c).2 hready) ?_
    rw [hsame.unseen q hne c hready]
    exact hlook

theorem Corresponds.kept {x y : σ} {here : Place σ κ ρ} {there : Spec.Place κ ρ}
    (h : Corresponds O q x here there) (hkept : O.Kept p x y) (hne : q ≠ p) :
    Corresponds O q y here there := by
  cases here <;> cases there <;>
    first
    | exact h
    | exact ⟨h.1, (hkept q hne _).2 h.2⟩

section Step

variable [DecidableEq P]

theorem Held.put {x : σ} {code : P → Option (κ × Code σ ρ)} {place : P → Spec.Place κ ρ}
    (h : Held O S Rep flag x code a place) (hcode : code q = none) (new : Spec.Place κ ρ) :
    Held O S Rep flag x code a (Function.update place q new) := by
  cases h with
  | free hflag hnone hrep => exact .free hflag hnone hrep
  | before p c k s₀ t hflag hp hothers hplace hlegal hrun hrep honce hrep₀ hsame₀ =>
    have hne := (ne_holder hp hcode).symm
    exact .before p c k s₀ t hflag hp hothers (by rw [Function.update_of_ne hne, hplace]) hlegal
      hrun hrep honce hrep₀ hsame₀
  | after p c k t r hflag hp hothers hplace hrun hrep hsteady =>
    have hne := (ne_holder hp hcode).symm
    exact .after p c k t r hflag hp hothers (by rw [Function.update_of_ne hne, hplace]) hrun hrep
      hsteady

/-- A party outside the lock goes from one place to another, in both machines. -/
theorem Sim.put (h : Sim O S Rep s t) (hq : (s.place q).code = none) (here : Place σ κ ρ)
    (hcode : here.code = none) (there : Spec.Place κ ρ)
    (hcorr : Corresponds O q s.shared here there) (events : List (Event P κ ρ)) :
    Sim O S Rep { s.put q here with history := s.history ++ events }
      { t.put q there with history := t.history ++ events } where
  history := by rw [h.history]
  places x := by
    show Corresponds O x s.shared (Function.update s.place q here x)
      (Function.update t.place q there x)
    by_cases hx : x = q
    · subst hx
      rw [Function.update_self, Function.update_self]
      exact hcorr
    · rw [Function.update_of_ne hx, Function.update_of_ne hx]
      exact h.places x
  held := by
    have hsame : (fun x => (Function.update s.place q here x).code) =
        fun x => (s.place x).code := by
      funext x
      by_cases hx : x = q
      · rw [hx, Function.update_self, hcode, hq]
      · rw [Function.update_of_ne hx]
    show Held O S Rep s.flag s.shared (fun x => (Function.update s.place q here x).code) t.value
      (Function.update t.place q there)
    rw [hsame]
    exact h.held.put hq there

theorem code_put (place : P → Place σ κ ρ) (p : P) (new : Place σ κ ρ)
    (hothers : ∀ q ≠ p, (place q).code = none) :
    (Function.update place p new p).code = new.code ∧
      ∀ q ≠ p, (Function.update place p new q).code = none := by
  refine ⟨by rw [Function.update_self], fun q hq => ?_⟩
  rw [Function.update_of_ne hq]
  exact hothers q hq

/-- The party that has the lock goes on, and the specification may do its call. -/
theorem Sim.advance (h : Sim O S Rep s t) {t' : Spec.State P α κ ρ} {y : σ} {flag : Bool}
    {here : Place σ κ ρ} (hkept : O.Kept p s.shared y) (hhistory : t'.history = t.history)
    (hplaces : ∀ q ≠ p, t'.place q = t.place q) (hcorr : Corresponds O p y here (t'.place p))
    (hheld : Held O S Rep flag y (fun q => (Function.update s.place p here q).code) t'.value
      t'.place) :
    Sim O S Rep { s.put p here with shared := y, flag := flag } t' where
  history := by
    rw [hhistory, h.history]
    rfl
  places q := by
    show Corresponds O q y (Function.update s.place p here q) (t'.place q)
    by_cases hq : q = p
    · rw [hq, Function.update_self]
      exact hcorr
    · rw [Function.update_of_ne hq, hplaces q hq]
      exact (h.places q).kept hkept hq
  held := hheld

theorem Spec.State.run_effect (hplace : t.place p = .called c) (hlegal : S.legal t.value c) :
    Run S.machine anyAction t (t.effect S p c) := by
  refine .tail .refl (a := .thread p) ⟨c, hplace, hlegal⟩ trivial ?_
  show Spec.State.next S t (.thread p) = _
  rw [Spec.State.next, hplace]

theorem Spec.State.effect_place (S : Spec α κ ρ) (t : Spec.State P α κ ρ) (p : P) (c : κ) :
    (t.effect S p c).place p = .answered (S.apply t.value c).2 ∧
      ∀ q ≠ p, (t.effect S p c).place q = t.place q :=
  ⟨Function.update_self .., fun _ hq => Function.update_of_ne hq ..⟩

/-- The lock is free again. -/
theorem held_answered {y : σ} {place : P → Spec.Place κ ρ}
    (hothers : ∀ q ≠ p, (s.place q).code = none) (hrep : Rep y a) :
    Held O S Rep false y
      (fun q => (Function.update s.place p (.answered r) q).code) a place := by
  refine .free rfl (fun q => ?_) hrep
  obtain ⟨hself, hrest⟩ := code_put s.place p (.answered r) hothers
  by_cases hq : q = p
  · rw [hq]
    exact hself
  · exact hrest q hq

omit [DecidableEq P] in
/-- There is one party that has the lock. -/
theorem holder_unique {x y : κ × Code σ ρ} (hp : (s.place p).code = some x)
    (hq : (s.place q).code = some y) (hothers : ∀ r ≠ q, (s.place r).code = none) :
    p = q ∧ x = y := by
  have hpq : p = q := by
    by_contra hne
    exact ne_holder hp (hothers p hne) rfl
  rw [hpq, hq] at hp
  exact ⟨hpq, (Option.some.inj hp).symm⟩

/-- The next step of the party that has the lock, before the others can see anything of its call. -/
theorem Sim.before (h : Sim O S Rep s t) {k : Code σ ρ} {x y : σ} (hp : s.place p = .inside c k)
    (hflag : s.flag = true) (hothers : ∀ q ≠ p, (s.place q).code = none)
    (hplace : t.place p = .called c) (hlegal : S.legal t.value c)
    (hrun : k.run s.shared = some (y, (S.apply t.value c).2)) (hrep : Rep y (S.apply t.value c).1)
    (honce : k.Once (O.Same p) (O.Kept p) s.shared) (hrep₀ : Rep x t.value)
    (hsame₀ : O.Same p x s.shared) :
    ∃ s' t', s.thread O p = some s' ∧ Run S.machine anyAction t t' ∧ Sim O S Rep s' t' := by
  have heffect := Spec.State.effect_place S t p c
  unfold State.thread
  rw [hp]
  cases k with
  | ret r =>
    cases hrun
    refine ⟨_, t.effect S p c, rfl, Spec.State.run_effect hplace hlegal,
      h.advance (Object.Same.refl O p _).kept rfl heffect.2 ?_ (held_answered hothers hrep)⟩
    rw [heffect.1]
    rfl
  | fail => cases hrun
  | read f =>
    obtain ⟨hself, hrest⟩ := code_put s.place p (.inside c (f s.shared)) hothers
    exact ⟨_, t, rfl, .refl, h.advance (Object.Same.refl O p _).kept rfl (fun _ _ => rfl) trivial
      (.before p c _ x y hflag hself hrest hplace hlegal hrun hrep honce hrep₀ hsame₀)⟩
  | write g next =>
    obtain ⟨hself, hrest⟩ := code_put s.place p (.inside c next) hothers
    rcases honce with ⟨hsame, honce⟩ | ⟨hkept, hsteady⟩
    · exact ⟨_, t, rfl, .refl, h.advance hsame.kept rfl (fun _ _ => rfl) trivial
        (.before p c _ x y hflag hself hrest hplace hlegal hrun hrep honce hrep₀
          (hsame₀.trans hsame))⟩
    · -- the write that the others can see
      exact ⟨_, t.effect S p c, rfl, Spec.State.run_effect hplace hlegal,
        h.advance hkept rfl heffect.2 trivial
          (.after p c _ y _ hflag hself hrest heffect.1 hrun hrep hsteady)⟩

/-- And after that. -/
theorem Sim.after (h : Sim O S Rep s t) {k : Code σ ρ} {y : σ} (hp : s.place p = .inside c k)
    (hflag : s.flag = true) (hothers : ∀ q ≠ p, (s.place q).code = none)
    (hplace : t.place p = .answered r) (hrun : k.run s.shared = some (y, r)) (hrep : Rep y t.value)
    (hsteady : k.Steady (O.Same p) s.shared) :
    ∃ s', s.thread O p = some s' ∧ Sim O S Rep s' t := by
  unfold State.thread
  rw [hp]
  cases k with
  | ret r =>
    cases hrun
    refine ⟨_, rfl, h.advance (Object.Same.refl O p _).kept rfl (fun _ _ => rfl) ?_
      (held_answered hothers hrep)⟩
    rw [hplace]
    rfl
  | fail => cases hrun
  | read f =>
    obtain ⟨hself, hrest⟩ := code_put s.place p (.inside c (f s.shared)) hothers
    exact ⟨_, rfl, h.advance (Object.Same.refl O p _).kept rfl (fun _ _ => rfl) trivial
      (.after p c _ y r hflag hself hrest hplace hrun hrep hsteady)⟩
  | write g next =>
    obtain ⟨hself, hrest⟩ := code_put s.place p (.inside c next) hothers
    exact ⟨_, rfl, h.advance hsteady.1.kept rfl (fun _ _ => rfl) trivial
      (.after p c _ y r hflag hself hrest hplace hrun hrep hsteady.2)⟩

/-- The next step of the party that has the lock.  It does not fail. -/
theorem Sim.inside (h : Sim O S Rep s t) {k : Code σ ρ} (hp : s.place p = .inside c k) :
    ∃ s' t', s.thread O p = some s' ∧ Run S.machine anyAction t t' ∧ Sim O S Rep s' t' := by
  have hcode : (s.place p).code = some (c, k) := by
    rw [hp]
    rfl
  cases h.held with
  | free hflag hnone hrep =>
    rw [hnone p] at hcode
    cases hcode
  | before p' c' k' x y hflag hcode' hothers hplace hlegal hrun hrep honce hrep₀ hsame₀ =>
    obtain ⟨rfl, heq⟩ := holder_unique hcode hcode' hothers
    cases heq
    exact h.before hp hflag hothers hplace hlegal hrun hrep honce hrep₀ hsame₀
  | after p' c' k' y r' hflag hcode' hothers hplace hrun hrep hsteady =>
    obtain ⟨rfl, heq⟩ := holder_unique hcode hcode' hothers
    cases heq
    obtain ⟨s', hs', hsim⟩ := h.after hp hflag hothers hplace hrun hrep hsteady
    exact ⟨s', t, hs', .refl, hsim⟩

omit [DecidableEq P] in
theorem Sim.corresponds (h : Sim O S Rep s t) {here : Place σ κ ρ} (hp : s.place p = here) :
    Corresponds O p s.shared here (t.place p) := by
  rw [← hp]
  exact h.places p

/-- A call that the look answers is done with it. -/
theorem Sim.look (hr : Refines O S Rep) (h : Sim O S Rep s t) (hp : s.place p = .called c) :
    ∃ s' t', s.thread O p = some s' ∧ Run S.machine anyAction t t' ∧ Sim O S Rep s' t' := by
  obtain ⟨hplace, hready⟩ := (h.corresponds hp).called
  have hcode : (s.place p).code = none := by
    rw [hp]
    rfl
  unfold State.thread
  rw [hp]
  show ∃ s' t', (match O.look c s.shared with
    | some r => some (s.put p (.answered r))
    | none => some (s.put p (.waiting c))) = some s' ∧ _
  cases hlook : O.look c s.shared with
  | none =>
    have hput := h.put hcode (.waiting c) rfl (.called c) ⟨rfl, hready⟩ []
    rw [List.append_nil, List.append_nil] at hput
    have hsame : t.put p (.called c) = t := by
      rw [Spec.State.put, ← hplace, Function.update_eq_self]
    refine ⟨_, t, rfl, .refl, ?_⟩
    rw [← hsame]
    exact hput
  | some r =>
    obtain ⟨hlegal, happly⟩ := h.held.look (q := p) hr hcode hready hlook
    have heffect : t.effect S p c = t.put p (.answered r) := by
      rw [Spec.State.effect, happly]
      rfl
    have hput := h.put hcode (.answered r) rfl (.answered r) rfl []
    rw [List.append_nil, List.append_nil] at hput
    refine ⟨_, t.effect S p c, rfl, Spec.State.run_effect hplace hlegal, ?_⟩
    rw [heffect]
    exact hput

/-- The party that has not got the lock yet. -/
theorem Sim.enter (hr : Refines O S Rep) (h : Sim O S Rep s t) (hp : s.place p = .waiting c)
    (hlegal : s.flag = false → ∀ v, Rep s.shared v → S.legal v c) :
    Sim O S Rep (s.lock p c (O.body c)) t := by
  obtain ⟨hplace, hready⟩ := (h.corresponds hp).waiting
  cases hflag : s.flag with
  | true =>
    rw [State.lock, if_pos hflag]
    exact h
  | false =>
    obtain ⟨hrep, hnone⟩ := h.held.nobody hflag
    have hlegal := hlegal hflag _ hrep
    obtain ⟨y, hrun, hrep'⟩ := hr.run hrep hready hlegal
    obtain ⟨hself, hrest⟩ := code_put s.place p (.inside c (O.body c)) fun q _ => hnone q
    rw [State.lock, hflag]
    exact h.advance (Object.Same.refl O p _).kept rfl (fun _ _ => rfl) trivial
      (.before p c _ s.shared y rfl hself hrest hplace hlegal hrun hrep' (hr.once hready) hrep
        (.refl O p _))

/-- The next step of a call. -/
theorem Sim.thread (hr : Refines O S Rep) (h : Sim O S Rep s t) (he : (s.place p).busy = true)
    (hok : Lawful S Rep s (.thread p)) :
    ∃ s' t', s.thread O p = some s' ∧ Run S.machine anyAction t t' ∧ Sim O S Rep s' t' := by
  cases hp : s.place p with
  | called c => exact h.look hr hp
  | waiting c =>
    have hsim := h.enter hr hp fun hflag => hok c (State.gets_waiting hp hflag)
    refine ⟨_, t, ?_, .refl, hsim⟩
    unfold State.thread
    rw [hp]
  | inside c k => exact h.inside hp
  | _ =>
    rw [hp] at he
    cases he

/-- Every step is one that the specification can follow; and no step fails. -/
theorem Sim.step (hr : Refines O S Rep) (h : Sim O S Rep s t) {b : Action P κ}
    (he : (machine O).enabled s b) (hok : Lawful S Rep s b) :
    ∃ s' t', (machine O).step s b = some s' ∧ Run S.machine anyAction t t' ∧ Sim O S Rep s' t' := by
  cases b with
  | call p c =>
    have hp := Place.eq_idle he.1
    have hplace := (h.corresponds hp).idle
    have hput := h.put (q := p) (by rw [hp]; rfl) (.called c) rfl (.called c) ⟨rfl, he.2⟩
      [.call p c]
    exact ⟨_, _, rfl, .tail .refl (a := .call p c) hplace trivial rfl, hput⟩
  | thread p => exact h.thread hr he hok
  | ret p =>
    obtain ⟨r, hp⟩ := Place.exists_answered he
    have hplace := (h.corresponds hp).answered
    have hput := h.put (q := p) (by rw [hp]; rfl) .idle rfl .idle trivial [.ret p r]
    refine ⟨_, _, ?_, .tail .refl (a := .ret p) ⟨r, hplace⟩ trivial ?_, hput⟩
    · show s.next O (.ret p) = _
      rw [State.next, hp]
    · show t.next S (.ret p) = _
      rw [Spec.State.next, hplace]

omit [DecidableEq P] in
theorem Sim.initial {x : σ} (hrep : Rep x a) :
    Sim O S Rep (.initial x : State P σ κ ρ) (.initial a) where
  history := rfl
  places _ := trivial
  held := .free rfl (fun _ => rfl) hrep

/-- Every run of the machine is one of the specification with the same calls and returns, in the
same order; no step of it fails; and while nobody has the lock the object stands for the value. -/
theorem Refines.linearizable (hr : Refines O S Rep) {x : σ} (hrep : Rep x a)
    (hrun : Run (machine O) (Lawful S Rep) (.initial x : State P σ κ ρ) s) :
    ∃ t : Spec.State P α κ ρ, Run S.machine anyAction (.initial a) t ∧ t.history = s.history ∧
      (s.flag = false → Rep s.shared t.value) ∧
      ∀ b, (machine O).enabled s b → Lawful S Rep s b → (machine O).step s b ≠ none := by
  have hsim : ∃ t : Spec.State P α κ ρ,
      Run S.machine anyAction (.initial a) t ∧ Sim O S Rep s t := by
    induction hrun with
    | refl => exact ⟨_, .refl, .initial hrep⟩
    | tail _ he hok hs ih =>
      obtain ⟨t, ht, hsim⟩ := ih
      obtain ⟨s', t', hs', ht', hsim'⟩ := hsim.step hr he hok
      rw [hs] at hs'
      cases hs'
      exact ⟨t', ht.trans ht', hsim'⟩
  obtain ⟨t, ht, hsim⟩ := hsim
  refine ⟨t, ht, hsim.history, fun hflag => ?_, fun b he hok hnone => ?_⟩
  · exact (hsim.held.nobody hflag).1
  · obtain ⟨s', t', hs', -⟩ := hsim.step hr he hok
    rw [hnone] at hs'
    cases hs'

end Step

end Costream.Locked
