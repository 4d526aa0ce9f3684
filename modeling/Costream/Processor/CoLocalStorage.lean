import Costream.Owning
import Costream.Scheduler.Life

/-!
# Variables of coroutines

`GetSpecific` finds a variable by its location in the map of the current task, or in one of the
thread outside of coroutines.  The current task is what the processor of the thread has in
`runningTask_`, which the dispatcher reads while the coroutine runs.

* `State` has a map for each `Owner`.  The maps are created empty and destroyed with the task or the
  thread.  A content of type `any` is a pointer of its own to a holder.
* `Call` is what a program does about its variables.  Between the two halves of a call of
  `GetSpecific` that makes the variable, the constructor runs, and can do anything that a program
  does.
* `State.call` takes the program that calls apart from the key that the code computes.
* `Alone` is a program with variables of its own and nothing else.  `cls_private` says that in every
  run, each program has the results that it would have alone.

Reading and writing through the references that `GetSpecific` has returned is a call, too: the
program keeps them for as long as it runs.
-/

namespace Costream.CoLocalStorage

open Trace Owning

variable {κ τ : Type} {V : τ → Type} [DecidableEq κ] [DecidableEq τ]

/-- What has a map. -/
inductive Owner where
  | task (t : Nat)
  | processor (p : Nat)
  | thread (i : Nat)
  deriving DecidableEq

/-- `constructed` is the end of a constructor, with a value or with an exception. -/
inductive Call (κ : Type) {τ : Type} (V : τ → Type) where
  | getSpecific (loc : κ) (type : τ)
  | constructed (value : Option (Sigma V))
  | read (loc : κ)
  | assign (loc : κ) (value : Sigma V)

inductive Result {τ : Type} (V : τ → Type) where
  | constructing
  | reference (value : Sigma V)
  | badCast
  | thrown
  | assigned

/-- A variable whose constructor runs. -/
structure Making (κ τ : Type) where
  owner : Owner
  loc : κ
  type : τ

structure State (κ : Type) {τ : Type} (V : τ → Type) where
  scheduler : Scheduler.State
  /-- The contents. -/
  store : Store (Owner × κ) (Sigma V)
  /-- The keys of a map. -/
  keys : Owner → List κ
  /-- The task or thread has been destroyed. -/
  destroyed : Owner → Bool
  /-- The constructors that run on the stack of a program, the innermost first. -/
  making : Owner → List (Making κ τ)
  /-- The references that a program has, with their types. -/
  refs : Owner → κ → Option (Nat × τ)
  /-- The coroutine on whose stack the thread of a processor is. -/
  stack : Nat → Option Nat
  log : Owner → List (Call κ V × Result V)

namespace State

def initial : State κ V where
  scheduler := .initial
  store := .empty
  keys _ := []
  destroyed _ := false
  making _ := []
  refs _ _ := none
  stack _ := none
  log _ := []

variable (s : State κ V)

/-- `GetCurrentTask()`, or else the thread. -/
def current (p : Nat) : Owner :=
  match s.scheduler.runningTask p with
  | some t => .task t
  | none => .processor p

/-- `map_[loc]`. -/
def get (o : Owner) (loc : κ) : State κ V :=
  if loc ∈ s.keys o then s else { s with keys := Function.update s.keys o (loc :: s.keys o) }

def setRef (who : Owner) (loc : κ) (b : Nat) (type : τ) : State κ V :=
  { s with refs := Function.update s.refs who (Function.update (s.refs who) loc (some (b, type))) }

def setMaking (who : Owner) (making : List (Making κ τ)) : State κ V :=
  { s with making := Function.update s.making who making }

/-- A call of the program `who`.  Its key is `key`, and `a` is the address that `new` returns. -/
def call (who key : Owner) (a : Nat) : Call κ V → Option (State κ V × Result V)
  | .getSpecific loc type =>
    let s := s.get key loc
    match s.store.pointer (key, loc) with
    -- `emplace` has nothing to clear.
    | none => some (s.setMaking who (⟨key, loc, type⟩ :: s.making who), .constructing)
    | some b =>
      (s.store.object b).map fun v =>
        if v.1 = type then (s.setRef who loc b type, .reference v) else (s, .badCast)
  | .constructed value =>
    match s.making who with
    | [] => none
    | m :: rest =>
      let s := s.setMaking who rest
      match value with
      | none => some (s, .thrown)
      | some v =>
        some ({ s with store := s.store.put (m.owner, m.loc) a v }.setRef who m.loc a m.type,
          .reference v)
  | .read loc =>
    (s.refs who loc).bind fun r => (s.store.object r.1).map fun v => (s, .reference v)
  | .assign loc v =>
    (s.refs who loc).bind fun r =>
      (s.store.object r.1).map fun _ => ({ s with store := s.store.new r.1 v }, .assigned)

def note (who : Owner) (c : Call κ V) (r : Result V) : State κ V :=
  { s with log := Function.update s.log who (s.log who ++ [(c, r)]) }

/-- `~CLSMap()`. -/
def destroyMap (store : Store (Owner × κ) (Sigma V)) (o : Owner) :
    List κ → Option (Store (Owner × κ) (Sigma V))
  | [] => some store
  | loc :: rest => (store.drop (o, loc)).bind fun store => destroyMap store o rest

/-- A task or a thread is destroyed, and what its program has had. -/
def destroy (o : Owner) : Option (State κ V) :=
  (destroyMap s.store o (s.keys o)).map fun store =>
    { s with
      store := store
      keys := Function.update s.keys o []
      destroyed := Function.update s.destroyed o true
      making := Function.update s.making o []
      refs := Function.update s.refs o fun _ => none }

def destroyAll (s : State κ V) : List Nat → Option (State κ V)
  | [] => some s
  | t :: rest => (s.destroy (.task t)).bind fun s => s.destroyAll rest

/-- The tasks for which `DeleteTask` is called. -/
def deleted (t : Scheduler.State) : List Nat :=
  (List.range t.created).filter fun u => s.scheduler.deletions u < t.deletions u

end State

inductive Action (κ : Type) {τ : Type} (V : τ → Type) where
  | scheduler (a : Scheduler.Action)
  | coroutine (p : Nat) (c : Call κ V) (a : Nat)
  | thread (i : Nat) (c : Call κ V) (a : Nat)
  | exit (i : Nat)

/-- What a program can call: a constructor that runs ends with a value of its type, and a reference
is one that the program has. -/
def Possible (s : State κ V) (who : Owner) (a : Nat) : Call κ V → Prop
  | .getSpecific _ _ => True
  | .constructed value =>
    (s.making who).head?.any (fun m => value.all fun v => v.1 = m.type) = true ∧
      s.store.object a = none
  | .read loc => s.refs who loc ≠ none
  | .assign loc v => ∃ r ∈ s.refs who loc, r.2 = v.1

instance (s : State κ V) (who : Owner) (a : Nat) (c : Call κ V) : Decidable (Possible s who a c) :=
  match c with
  | .getSpecific _ _ => inferInstanceAs (Decidable True)
  | .constructed _ => inferInstanceAs (Decidable (_ ∧ _))
  | .read loc => inferInstanceAs (Decidable (s.refs who loc ≠ none))
  | .assign loc v => inferInstanceAs (Decidable (∃ r ∈ s.refs who loc, r.2 = v.1))

def Enabled (s : State κ V) : Action κ V → Prop
  | .scheduler a => Scheduler.Enabled s.scheduler a = true
  | .coroutine p c a =>
    s.scheduler.place p = .running ∧ ∃ t ∈ s.stack p, Possible s (.task t) a c
  | .thread i c a => s.destroyed (.thread i) = false ∧ Possible s (.thread i) a c
  | .exit i => s.destroyed (.thread i) = false

instance (s : State κ V) (action : Action κ V) : Decidable (Enabled s action) :=
  match action with
  | .scheduler a => inferInstanceAs (Decidable (Scheduler.Enabled s.scheduler a = true))
  | .coroutine p c a =>
    inferInstanceAs (Decidable (_ ∧ ∃ t ∈ s.stack p, Possible s (.task t) a c))
  | .thread i c a =>
    inferInstanceAs (Decidable (s.destroyed (.thread i) = false ∧ Possible s (.thread i) a c))
  | .exit i => inferInstanceAs (Decidable (s.destroyed (.thread i) = false))

def step (s : State κ V) : Action κ V → Option (State κ V)
  | .scheduler a =>
    (Scheduler.step s.scheduler a).bind fun t =>
      { s with scheduler := t, stack := s.scheduler.follow s.stack a }.destroyAll (s.deleted t)
  | .coroutine p c a =>
    (s.stack p).bind fun t =>
      (s.call (.task t) (s.current p) a c).map fun r => r.1.note (.task t) c r.2
  | .thread i c a =>
    (s.call (.thread i) (.thread i) a c).map fun r => r.1.note (.thread i) c r.2
  | .exit i => s.destroy (.thread i)

def machine : Machine (State κ V) (Action κ V) where
  enabled := Enabled
  step := step

instance (s : State κ V) (action : Action κ V) : Decidable (machine.enabled s action) :=
  inferInstanceAs (Decidable (Enabled s action))

/-- The variable that a call asks for. -/
def Call.asks : Call κ V → Option κ
  | .getSpecific loc _ => some loc
  | _ => none

/-- A constructor does not ask for the variable that it makes. -/
def NotRecursive (s : State κ V) : Action κ V → Prop
  | .coroutine p c _ => ∀ t ∈ s.stack p, ∀ m ∈ s.making (.task t), c.asks ≠ some m.loc
  | .thread i c _ => ∀ m ∈ s.making (.thread i), c.asks ≠ some m.loc
  | .scheduler _ | .exit _ => True

instance (s : State κ V) (action : Action κ V) : Decidable (NotRecursive s action) :=
  match action with
  | .coroutine p c _ =>
    inferInstanceAs (Decidable (∀ t ∈ s.stack p, ∀ m ∈ s.making (.task t), c.asks ≠ some m.loc))
  | .thread i c _ =>
    inferInstanceAs (Decidable (∀ m ∈ s.making (.thread i), c.asks ≠ some m.loc))
  | .scheduler _ | .exit _ => inferInstanceAs (Decidable True)

/-! ## A program alone -/

structure Alone (κ : Type) {τ : Type} (V : τ → Type) where
  value : κ → Option (Sigma V)
  making : List (κ × τ)

namespace Alone

def initial : Alone κ V := ⟨fun _ => none, []⟩

/-- A call that is not possible has no meaning here; the result is any. -/
def call (x : Alone κ V) : Call κ V → Alone κ V × Result V
  | .getSpecific loc type =>
    match x.value loc with
    | none => ({ x with making := (loc, type) :: x.making }, .constructing)
    | some v => (x, if v.1 = type then .reference v else .badCast)
  | .constructed value =>
    match x.making, value with
    | [], _ => (x, .thrown)
    | _ :: rest, none => ({ x with making := rest }, .thrown)
    | (loc, _) :: rest, some v => (⟨Function.update x.value loc (some v), rest⟩, .reference v)
  | .read loc => (x, ((x.value loc).map Result.reference).getD .thrown)
  | .assign loc v => ({ x with value := Function.update x.value loc (some v) }, .assigned)

/-- The calls in turn, with their results. -/
def run (calls : List (Call κ V)) : Alone κ V × List (Result V) :=
  calls.foldl (fun x c => ((x.1.call c).1, x.2 ++ [(x.1.call c).2])) (initial, [])

end Alone

theorem Alone.run_concat (calls : List (Call κ V)) (c : Call κ V) :
    Alone.run (calls ++ [c]) = (((Alone.run calls).1.call c).1,
      (Alone.run calls).2 ++ [((Alone.run calls).1.call c).2]) := by
  unfold Alone.run
  rw [List.foldl_append]
  rfl

/-! ## The maps -/

/-- What a program sees of its variables. -/
def State.view (s : State κ V) (o : Owner) : Alone κ V where
  value loc := s.store.value (o, loc)
  making := (s.making o).map fun m => (m.loc, m.type)

structure Shape (s : State κ V) : Prop where
  owned : Owned s.store
  keys : ∀ o loc, s.store.pointer (o, loc) ≠ none → loc ∈ s.keys o
  destroyed : ∀ o, s.destroyed o = true → s.keys o = []
  making : ∀ o, ∀ m ∈ s.making o,
    m.owner = o ∧ m.loc ∈ s.keys o ∧ s.store.pointer (o, m.loc) = none
  nodup : ∀ o, ((s.making o).map Making.loc).Nodup
  refs : ∀ o loc, s.refs o loc =
    (s.store.pointer (o, loc)).bind fun b => (s.store.value (o, loc)).map fun v => (b, v.1)

/-- The programs that go on have done what they would have done alone, and all have had the results
that they would have had. -/
structure Recorded (s : State κ V) : Prop where
  view : ∀ o, s.destroyed o = false → s.view o = (Alone.run ((s.log o).map Prod.fst)).1
  results : ∀ o, (s.log o).map Prod.snd = (Alone.run ((s.log o).map Prod.fst)).2

variable {s s' : State κ V} {who o : Owner} {a b : Nat} {loc : κ} {type : τ} {v : Sigma V}
  {c : Call κ V} {r : Result V}

omit [DecidableEq κ] [DecidableEq τ] in
theorem shape_initial : Shape (State.initial : State κ V) where
  owned := owned_empty
  keys _ _ h := absurd rfl h
  destroyed _ h := by cases h
  making _ _ h := by cases h
  nodup _ := .nil
  refs _ _ := rfl

theorem recorded_initial : Recorded (State.initial : State κ V) where
  view _ _ := rfl
  results _ := rfl

theorem Recorded.note (h : Recorded s) (hlive : s.destroyed who = false) (hlog : s'.log = s.log)
    (hdestroyed : s'.destroyed = s.destroyed) (hother : ∀ o, o ≠ who → s'.view o = s.view o)
    (hwho : s'.view who = ((s.view who).call c).1) (hr : r = ((s.view who).call c).2) :
    Recorded (s'.note who c r) := by
  have hself : (s'.note who c r).log who = s.log who ++ [(c, r)] := by
    show Function.update s'.log who (s'.log who ++ [(c, r)]) who = _
    rw [Function.update_self, hlog]
  have hne : ∀ o, o ≠ who → (s'.note who c r).log o = s.log o := by
    intro o ho
    show Function.update s'.log who (s'.log who ++ [(c, r)]) o = _
    rw [Function.update_of_ne ho, hlog]
  refine ⟨fun o ho => ?_, fun o => ?_⟩
  · change s'.destroyed o = false at ho
    rw [hdestroyed] at ho
    show s'.view o = _
    by_cases how : o = who
    · subst how
      rw [hself, List.map_append, hwho, h.view o ho]
      exact (congrArg Prod.fst (Alone.run_concat _ c)).symm
    · rw [hne o how, hother o how, h.view o ho]
  · by_cases how : o = who
    · subst how
      rw [hself, List.map_append, List.map_append, h.results o, hr, h.view o hlive]
      exact (congrArg Prod.snd (Alone.run_concat _ c)).symm
    · rw [hne o how]
      exact h.results o

/-! ### References -/

omit [DecidableEq κ] [DecidableEq τ] in
/-- A reference of a program is to its variable. -/
theorem Shape.ref (h : Shape s) (hr : s.refs who loc = some (b, type)) :
    s.store.pointer (who, loc) = some b ∧ ∃ v, s.store.object b = some v ∧
      s.store.value (who, loc) = some v ∧ v.1 = type := by
  rw [h.refs] at hr
  obtain ⟨b', hb', hv⟩ := Option.bind_eq_some_iff.1 hr
  obtain ⟨v, hvalue, heq⟩ := Option.map_eq_some_iff.1 hv
  cases heq
  refine ⟨hb', v, ?_, hvalue, rfl⟩
  rw [← hvalue, Store.value, hb']
  rfl

omit [DecidableEq τ] in
/-- A variable has been returned before. -/
theorem Shape.setRef (h : Shape s) (hb : s.store.pointer (who, loc) = some b)
    (hv : s.store.value (who, loc) = some v) : s.setRef who loc b v.1 = s := by
  have hr : s.refs who loc = some (b, v.1) := by
    rw [h.refs, hb, hv]
    rfl
  unfold State.setRef
  rw [← hr, Function.update_eq_self, Function.update_eq_self]

/-! ### The calls -/

/-- A call of a program has a result.  The store keeps its shape, and the result is noted. -/
structure Answers (s : State κ V) (who : Owner) (c : Call κ V) (s' : State κ V) (r : Result V) :
    Prop where
  shape : Shape s'
  recorded : Recorded (s'.note who c r)
  scheduler : s'.scheduler = s.scheduler
  stack : s'.stack = s.stack
  destroyed : s'.destroyed = s.destroyed

omit [DecidableEq τ] in
theorem get_eq (s : State κ V) (o : Owner) (loc : κ) :
    ∃ keys, s.get o loc = { s with keys := keys } ∧ loc ∈ keys o ∧
      (∀ loc', loc' ∈ s.keys o → loc' ∈ keys o) ∧ ∀ o', o' ≠ o → keys o' = s.keys o' := by
  unfold State.get
  split
  · rename_i hmem
    exact ⟨s.keys, rfl, hmem, fun _ h => h, fun _ _ => rfl⟩
  · refine ⟨_, rfl, ?_, fun loc' h => ?_, fun o' ho => Function.update_of_ne ho ..⟩
    · rw [Function.update_self]
      exact List.mem_cons_self
    · rw [Function.update_self]
      exact List.mem_cons_of_mem _ h

omit [DecidableEq τ] in
/-- The map has a node for the variable. -/
theorem Shape.get (h : Shape s) (hlive : s.destroyed who = false) (loc : κ) :
    ∃ keys, s.get who loc = { s with keys := keys } ∧ loc ∈ keys who ∧
      Shape { s with keys := keys } := by
  obtain ⟨keys, hget, hmem, hmore, hother⟩ := get_eq s who loc
  have hsub : ∀ o loc', loc' ∈ s.keys o → loc' ∈ keys o := by
    intro o loc' hloc
    by_cases ho : o = who
    · subst ho
      exact hmore loc' hloc
    · rw [hother o ho]
      exact hloc
  refine ⟨keys, hget, hmem, h.owned, fun o l hl => hsub o l (h.keys o l hl), fun o ho => ?_,
    fun o m hm => ?_, h.nodup, h.refs⟩
  · have hne : o ≠ who := by
      rintro rfl
      rw [show s.destroyed o = true from ho] at hlive
      cases hlive
    exact (hother o hne).trans (h.destroyed o ho)
  · obtain ⟨howner, hloc, hnull⟩ := h.making o m hm
    exact ⟨howner, hsub o _ hloc, hnull⟩

omit [DecidableEq κ] [DecidableEq τ] in
/-- The stack of constructors of a program changes. -/
theorem Shape.setMaking (h : Shape s) {making : List (Making κ τ)}
    (hmaking : ∀ m ∈ making,
      m.owner = who ∧ m.loc ∈ s.keys who ∧ s.store.pointer (who, m.loc) = none)
    (hnodup : (making.map Making.loc).Nodup) : Shape (s.setMaking who making) := by
  refine ⟨h.owned, h.keys, h.destroyed, fun o m hm => ?_, fun o => ?_, h.refs⟩
  · change m ∈ Function.update s.making who making o at hm
    by_cases ho : o = who
    · subst ho
      rw [Function.update_self] at hm
      exact hmaking m hm
    · rw [Function.update_of_ne ho] at hm
      exact h.making o m hm
  · show ((Function.update s.making who making o).map Making.loc).Nodup
    by_cases ho : o = who
    · rw [ho, Function.update_self]
      exact hnodup
    · rw [Function.update_of_ne ho]
      exact h.nodup o

omit [DecidableEq κ] [DecidableEq τ] in
theorem view_setMaking_of_ne (making : List (Making κ τ)) (ho : o ≠ who) :
    (s.setMaking who making).view o = s.view o := by
  show (⟨_, (Function.update s.making who making o).map _⟩ : Alone κ V) = _
  rw [Function.update_of_ne ho]
  rfl

omit [DecidableEq κ] [DecidableEq τ] in
theorem view_setMaking_self (making : List (Making κ τ)) :
    (s.setMaking who making).view who =
      { s.view who with making := making.map fun m => (m.loc, m.type) } := by
  show (⟨_, (Function.update s.making who making who).map _⟩ : Alone κ V) = _
  rw [Function.update_self]
  rfl

theorem Shape.getSpecific (h : Shape s) (hrec : Recorded s) (hlive : s.destroyed who = false)
    (hnot : ∀ m ∈ s.making who, m.loc ≠ loc) (a : Nat) :
    ∃ s' r, s.call who who a (.getSpecific loc type) = some (s', r) ∧
      Answers s who (.getSpecific loc type) s' r := by
  obtain ⟨keys, hget, hmem, hshape⟩ := h.get hlive loc
  cases hp : s.store.pointer (who, loc) with
  | none =>
    have hvalue : (s.view who).value loc = none := h.owned.value_eq_none.2 hp
    refine ⟨State.setMaking { s with keys := keys } who (⟨who, loc, type⟩ :: s.making who),
      .constructing, ?_, ?_, ?_, rfl, rfl, rfl⟩
    · simp only [State.call, hget, hp]
    · refine hshape.setMaking (fun m hm => ?_) ?_
      · rcases List.mem_cons.1 hm with rfl | hm
        · exact ⟨rfl, hmem, hp⟩
        · exact hshape.making who m hm
      · rw [List.map_cons, List.nodup_cons]
        refine ⟨fun hloc => ?_, h.nodup who⟩
        obtain ⟨m, hm, heq⟩ := List.mem_map.1 hloc
        exact hnot m hm heq
    · refine hrec.note hlive rfl rfl (fun o ho => view_setMaking_of_ne _ ho) ?_ ?_
      · rw [view_setMaking_self, Alone.call, hvalue]
        rfl
      · rw [Alone.call, hvalue]
  | some b =>
    obtain ⟨v, hv⟩ := Option.ne_none_iff_exists'.1 (h.owned.live _ b hp)
    have hvalue : (s.view who).value loc = some v := by
      show s.store.value (who, loc) = some v
      rw [Store.value, hp, Option.bind_some, hv]
    refine ⟨{ s with keys := keys }, if v.1 = type then .reference v else .badCast, ?_, hshape, ?_,
      rfl, rfl, rfl⟩
    · simp only [State.call, hget, hp, hv, Option.map_some]
      split
      · rename_i htype
        rw [← htype, hshape.setRef hp hvalue]
      · rfl
    · refine hrec.note hlive rfl rfl (fun o _ => rfl) ?_ ?_
      · rw [Alone.call, hvalue]
        rfl
      · rw [Alone.call, hvalue]

omit [DecidableEq τ] in
/-- The constructor has returned, and its variable has a holder. -/
theorem Shape.construct (h : Shape s) {m : Making κ τ} {rest : List (Making κ τ)}
    (hm : s.making who = m :: rest) (ha : s.store.object a = none) (hv : v.1 = m.type) :
    let t : State κ V := { s.setMaking who rest with store := s.store.put (m.owner, m.loc) a v }
    let t := t.setRef who m.loc a m.type
    Shape t ∧ (∀ o, o ≠ who → t.view o = s.view o) ∧
      t.view who = ⟨Function.update (s.view who).value m.loc (some v),
        rest.map fun m => (m.loc, m.type)⟩ := by
  intro t₁ t
  have hmem : m ∈ s.making who := by
    rw [hm]
    exact List.mem_cons_self
  obtain ⟨howner, hkey, hnull⟩ := h.making who m hmem
  have hnodup := h.nodup who
  rw [hm, List.map_cons, List.nodup_cons] at hnodup
  obtain ⟨howned, hvalue⟩ := h.owned.put (i := (m.owner, m.loc)) (howner ▸ hnull) ha v
  rw [howner] at howned hvalue
  have hstore : t.store = s.store.put (who, m.loc) a v := by
    show s.store.put (m.owner, m.loc) a v = _
    rw [howner]
  have hpointer : t.store.pointer = Function.update s.store.pointer (who, m.loc) (some a) := by
    rw [hstore]
    rfl
  have hmaking : t.making = Function.update s.making who rest := rfl
  have hpair : ∀ (o : Owner) (l : κ), (o, l) ≠ (who, m.loc) →
      t.store.pointer (o, l) = s.store.pointer (o, l) ∧
        t.store.value (o, l) = s.store.value (o, l) := by
    intro o l hne
    rw [hpointer, hstore, hvalue, Function.update_of_ne hne, Function.update_of_ne hne]
    exact ⟨rfl, rfl⟩
  have hself : t.store.pointer (who, m.loc) = some a ∧ t.store.value (who, m.loc) = some v := by
    rw [hpointer, hstore, hvalue, Function.update_self, Function.update_self]
    exact ⟨rfl, rfl⟩
  refine ⟨⟨?_, fun o l hl => ?_, h.destroyed, fun o m' hm' => ?_, fun o => ?_, fun o l => ?_⟩,
    fun o ho => ?_, ?_⟩
  · rw [hstore]
    exact howned
  · show l ∈ s.keys o
    by_cases hne : (o, l) = (who, m.loc)
    · cases hne
      exact hkey
    · rw [(hpair o l hne).1] at hl
      exact h.keys o l hl
  · rw [hmaking] at hm'
    show m'.owner = o ∧ m'.loc ∈ s.keys o ∧ _
    by_cases ho : o = who
    · subst ho
      rw [Function.update_self] at hm'
      have hloc : m'.loc ≠ m.loc := by
        intro heq
        exact hnodup.1 (heq ▸ List.mem_map_of_mem hm')
      obtain ⟨howner', hkey', hnull'⟩ := h.making o m' (hm ▸ List.mem_cons_of_mem m hm')
      refine ⟨howner', hkey', ?_⟩
      rw [(hpair o m'.loc fun heq => hloc (congrArg Prod.snd heq)).1, hnull']
    · rw [Function.update_of_ne ho] at hm'
      obtain ⟨howner', hkey', hnull'⟩ := h.making o m' hm'
      refine ⟨howner', hkey', ?_⟩
      rw [(hpair o m'.loc fun heq => ho (congrArg Prod.fst heq)).1, hnull']
  · rw [hmaking]
    by_cases ho : o = who
    · rw [ho, Function.update_self]
      exact hnodup.2
    · rw [Function.update_of_ne ho]
      exact h.nodup o
  · show Function.update s.refs who (Function.update (s.refs who) m.loc (some (a, m.type))) o l = _
    by_cases hne : (o, l) = (who, m.loc)
    · cases hne
      rw [Function.update_self, Function.update_self, hself.1, hself.2, ← hv]
      rfl
    · rw [(hpair o l hne).1, (hpair o l hne).2, ← h.refs]
      by_cases ho : o = who
      · subst ho
        rw [Function.update_self, Function.update_of_ne fun heq => hne (congrArg (Prod.mk o) heq)]
      · rw [Function.update_of_ne ho]
  · show (⟨fun l => t.store.value (o, l), (t.making o).map _⟩ : Alone κ V) = _
    rw [hmaking, Function.update_of_ne ho]
    unfold State.view
    congr 1
    exact funext fun l => (hpair o l fun heq => ho (congrArg Prod.fst heq)).2
  · show (⟨fun l => t.store.value (who, l), (t.making who).map _⟩ : Alone κ V) = _
    rw [hmaking, Function.update_self]
    congr 1
    funext l
    by_cases hl : l = m.loc
    · rw [hl, Function.update_self, hself.2]
    · rw [Function.update_of_ne hl, (hpair who l fun heq => hl (congrArg Prod.snd heq)).2]
      rfl

theorem Shape.constructed (h : Shape s) (hrec : Recorded s) (hlive : s.destroyed who = false)
    {value : Option (Sigma V)} (hposs : Possible s who a (.constructed value)) :
    ∃ s' r, s.call who who a (.constructed value) = some (s', r) ∧
      Answers s who (.constructed value) s' r := by
  obtain ⟨htype, ha⟩ := hposs
  cases hm : s.making who with
  | nil =>
    rw [hm] at htype
    cases htype
  | cons m rest =>
    have hview : (s.view who).making = (m.loc, m.type) :: rest.map fun m => (m.loc, m.type) := by
      unfold State.view
      rw [hm]
      rfl
    cases value with
    | none =>
      refine ⟨s.setMaking who rest, .thrown, ?_, ?_, ?_, rfl, rfl, rfl⟩
      · simp only [State.call, hm]
      · have hnodup := h.nodup who
        rw [hm] at hnodup
        exact h.setMaking (fun m' hm' => h.making who m' (hm ▸ List.mem_cons_of_mem m hm'))
          hnodup.tail
      · refine hrec.note hlive rfl rfl (fun o ho => view_setMaking_of_ne _ ho) ?_ ?_
        · simp only [view_setMaking_self, Alone.call, hview]
        · simp only [Alone.call, hview]
    | some v =>
      rw [hm] at htype
      have hv : v.1 = m.type := by simpa using htype
      obtain ⟨hshape, hother, hself⟩ := h.construct hm ha hv
      refine ⟨_, .reference v, ?_, hshape, ?_, rfl, rfl, rfl⟩
      · simp only [State.call, hm]
        rfl
      · refine hrec.note hlive rfl rfl hother ?_ ?_
        · simp only [hself, Alone.call, hview]
        · simp only [Alone.call, hview]

theorem Shape.read (h : Shape s) (hrec : Recorded s) (hlive : s.destroyed who = false)
    (hposs : Possible s who a (.read loc)) :
    ∃ s' r, s.call who who a (.read loc) = some (s', r) ∧ Answers s who (.read loc) s' r := by
  obtain ⟨⟨b, type⟩, hr⟩ := Option.ne_none_iff_exists'.1 hposs
  obtain ⟨-, v, hv, hvalue, -⟩ := h.ref hr
  refine ⟨s, .reference v, ?_, h, ?_, rfl, rfl, rfl⟩
  · simp only [State.call, hr, Option.bind_some, hv, Option.map_some]
  · refine hrec.note hlive rfl rfl (fun _ _ => rfl) rfl ?_
    rw [Alone.call, show (s.view who).value loc = some v from hvalue]
    rfl

theorem Shape.assign (h : Shape s) (hrec : Recorded s) (hlive : s.destroyed who = false)
    (hposs : Possible s who a (.assign loc v)) :
    ∃ s' r, s.call who who a (.assign loc v) = some (s', r) ∧ Answers s who (.assign loc v) s' r := by
  obtain ⟨⟨b, type⟩, hr, htype⟩ := hposs
  replace hr : s.refs who loc = some (b, type) := hr
  obtain ⟨hb, w, hw, hvalue, hwtype⟩ := h.ref hr
  obtain ⟨store, hstore, howned, hvalues⟩ := h.owned.write (i := (who, loc)) (by rw [hb]; simp) v
  have hnew : store = s.store.new b v := by
    rw [Store.write, hb, Option.bind_some, hw, Option.map_some, Option.some.injEq] at hstore
    exact hstore.symm
  subst hnew
  have hpointer : (s.store.new b v).pointer = s.store.pointer := rfl
  refine ⟨{ s with store := s.store.new b v }, .assigned, ?_, ?_, ?_, rfl, rfl, rfl⟩
  · simp only [State.call, hr, Option.bind_some, hw, Option.map_some]
  · refine ⟨howned, h.keys, h.destroyed, h.making, h.nodup, fun o l => ?_⟩
    rw [h.refs]
    dsimp only
    rw [hvalues, hpointer]
    by_cases hne : (o, l) = (who, loc)
    · cases hne
      rw [Function.update_self, hvalue, hb]
      simp only [Option.bind_some, Option.map_some, hwtype.trans htype]
    · rw [Function.update_of_ne hne]
  · have hview : ∀ o, (State.view { s with store := s.store.new b v } o).value =
        fun l => Function.update s.store.value (who, loc) (some v) (o, l) := by
      intro o
      rw [← hvalues]
      rfl
    refine hrec.note hlive rfl rfl (fun o ho => ?_) ?_ rfl
    · unfold State.view
      congr 1
      funext l
      dsimp only
      rw [hvalues, Function.update_of_ne fun heq => ho (congrArg Prod.fst heq)]
    · unfold State.view Alone.call
      congr 1
      funext l
      dsimp only
      rw [hvalues]
      by_cases hl : l = loc
      · rw [hl, Function.update_self, Function.update_self]
      · rw [Function.update_of_ne hl, Function.update_of_ne fun heq => hl (congrArg Prod.snd heq)]

/-- A program that goes on has a result, in its own map. -/
theorem Shape.call (h : Shape s) (hrec : Recorded s) (hlive : s.destroyed who = false)
    (hposs : Possible s who a c)
    (hnot : ∀ m ∈ s.making who, c.asks ≠ some m.loc) :
    ∃ s' r, s.call who who a c = some (s', r) ∧ Answers s who c s' r := by
  cases c with
  | getSpecific loc type =>
    exact h.getSpecific hrec hlive (fun m hm heq => hnot m hm (congrArg some heq.symm)) a
  | constructed value => exact h.constructed hrec hlive hposs
  | read loc => exact h.read hrec hlive hposs
  | assign loc v => exact h.assign hrec hlive hposs

/-! ### The ends -/

omit [DecidableEq τ] in
/-- The holders of a map are deleted, and those of the other maps stay. -/
theorem destroyMap_spec {store : Store (Owner × κ) (Sigma V)} (h : Owned store) (o : Owner)
    (keys : List κ) : ∃ store', State.destroyMap store o keys = some store' ∧ Owned store' ∧
      (∀ loc, loc ∈ keys ∨ store.pointer (o, loc) = none → store'.pointer (o, loc) = none) ∧
      ∀ o', o' ≠ o → ∀ loc, store'.pointer (o', loc) = store.pointer (o', loc) ∧
        store'.value (o', loc) = store.value (o', loc) := by
  induction keys generalizing store with
  | nil =>
    refine ⟨store, rfl, h, fun loc hloc => ?_, fun _ _ _ => ⟨rfl, rfl⟩⟩
    exact hloc.resolve_left List.not_mem_nil
  | cons l rest ih =>
    obtain ⟨mid, hmid, howned, hvalue⟩ := h.drop (o, l)
    obtain ⟨hpointer, -⟩ := drop_eq hmid
    obtain ⟨store', hstore', howned', hnull, hother⟩ := ih howned
    refine ⟨store', ?_, howned', fun loc hloc => ?_, fun o' ho loc => ?_⟩
    · rw [State.destroyMap, hmid, Option.bind_some, hstore']
    · refine hnull loc ?_
      rw [hpointer]
      by_cases hl : loc = l
      · rw [hl, Function.update_self]
        exact .inr rfl
      · rw [Function.update_of_ne fun heq => hl (congrArg Prod.snd heq)]
        exact hloc.imp_left fun hmem => (List.mem_cons.1 hmem).resolve_left hl
    · have hne : (o', loc) ≠ (o, l) := fun heq => ho (congrArg Prod.fst heq)
      obtain ⟨hp, hv⟩ := hother o' ho loc
      rw [hp, hv, hpointer, hvalue, Function.update_of_ne hne, Function.update_of_ne hne]
      exact ⟨rfl, rfl⟩

theorem Shape.destroy (h : Shape s) (hrec : Recorded s) (o : Owner) :
    ∃ s', s.destroy o = some s' ∧ Shape s' ∧ Recorded s' ∧ s'.scheduler = s.scheduler ∧
      s'.stack = s.stack ∧ s'.destroyed = Function.update s.destroyed o true := by
  obtain ⟨store, hstore, howned, hnull, hother⟩ := destroyMap_spec h.owned o (s.keys o)
  have hgone : ∀ loc, store.pointer (o, loc) = none := by
    intro loc
    refine hnull loc ?_
    by_cases hp : s.store.pointer (o, loc) = none
    · exact .inr hp
    · exact .inl (h.keys o loc hp)
  refine ⟨_, Option.map_eq_some_iff.2 ⟨store, hstore, rfl⟩, ⟨howned, fun o' loc hp => ?_,
    fun o' ho => ?_, fun o' m hm => ?_, fun o' => ?_, fun o' loc => ?_⟩, ⟨fun o' ho => ?_,
    hrec.results⟩, rfl, rfl, rfl⟩
  · change store.pointer (o', loc) ≠ none at hp
    show loc ∈ Function.update s.keys o [] o'
    by_cases hne : o' = o
    · rw [hne] at hp
      exact absurd (hgone loc) hp
    · rw [Function.update_of_ne hne]
      rw [(hother o' hne loc).1] at hp
      exact h.keys o' loc hp
  · change Function.update s.destroyed o true o' = true at ho
    show Function.update s.keys o [] o' = []
    by_cases hne : o' = o
    · rw [hne, Function.update_self]
    · rw [Function.update_of_ne hne] at ho ⊢
      exact h.destroyed o' ho
  · change m ∈ Function.update s.making o [] o' at hm
    show m.owner = o' ∧ m.loc ∈ Function.update s.keys o [] o' ∧ store.pointer (o', m.loc) = none
    by_cases hne : o' = o
    · rw [hne, Function.update_self] at hm
      cases hm
    · rw [Function.update_of_ne hne] at hm ⊢
      rw [(hother o' hne m.loc).1]
      exact h.making o' m hm
  · show ((Function.update s.making o [] o').map Making.loc).Nodup
    by_cases hne : o' = o
    · rw [hne, Function.update_self]
      exact .nil
    · rw [Function.update_of_ne hne]
      exact h.nodup o'
  · show Function.update s.refs o (fun _ => none) o' loc =
      (store.pointer (o', loc)).bind fun b => (store.value (o', loc)).map fun v => (b, v.1)
    by_cases hne : o' = o
    · rw [hne, Function.update_self, hgone]
      rfl
    · rw [Function.update_of_ne hne, (hother o' hne loc).1, (hother o' hne loc).2]
      exact h.refs o' loc
  · change Function.update s.destroyed o true o' = false at ho
    have hne : o' ≠ o := by
      rintro rfl
      rw [Function.update_self] at ho
      cases ho
    rw [Function.update_of_ne hne] at ho
    show _ = (Alone.run ((s.log o').map Prod.fst)).1
    rw [← hrec.view o' ho]
    show (⟨fun loc => store.value (o', loc), (Function.update s.making o [] o').map _⟩ : Alone κ V) = _
    rw [Function.update_of_ne hne]
    unfold State.view
    congr 1
    exact funext fun loc => (hother o' hne loc).2

theorem Shape.destroyAll (h : Shape s) (hrec : Recorded s) (tasks : List Nat) :
    ∃ s', s.destroyAll tasks = some s' ∧ Shape s' ∧ Recorded s' ∧ s'.scheduler = s.scheduler ∧
      s'.stack = s.stack ∧
      ∀ o, s'.destroyed o = true ↔ s.destroyed o = true ∨ ∃ t ∈ tasks, o = .task t := by
  induction tasks generalizing s with
  | nil => exact ⟨s, rfl, h, hrec, rfl, rfl, fun o => by simp⟩
  | cons t rest ih =>
    obtain ⟨m, hm, hshape, hrecorded, hscheduler, hstack, hdestroyed⟩ := h.destroy hrec (.task t)
    obtain ⟨s', hs', hshape', hrecorded', hscheduler', hstack', hdestroyed'⟩ := ih hshape hrecorded
    refine ⟨s', ?_, hshape', hrecorded', hscheduler'.trans hscheduler, hstack'.trans hstack,
      fun o => ?_⟩
    · rw [State.destroyAll, hm, Option.bind_some, hs']
    · rw [hdestroyed', hdestroyed]
      by_cases ho : o = .task t
      · subst ho
        rw [Function.update_self]
        simp
      · rw [Function.update_of_ne ho]
        simp [ho]

/-! ## Runs -/

structure Private (s : State κ V) : Prop extends Shape s, Recorded s where
  links : Scheduler.Links s.scheduler
  books : Scheduler.Books s.scheduler
  ended : Scheduler.Ended s.scheduler
  stack : Scheduler.OnStack s.stack s.scheduler
  done : ∀ t, s.destroyed (.task t) = true → s.scheduler.taskState t = .done
  gone : ∀ t < s.scheduler.created, s.scheduler.deletions t ≠ 0 → s.destroyed (.task t) = true

theorem private_initial : Private (State.initial : State κ V) where
  toShape := shape_initial
  toRecorded := recorded_initial
  links := Scheduler.links_initial
  books := Scheduler.books_initial
  ended := Scheduler.ended_initial
  stack := Scheduler.onStack_initial
  done _ h := by cases h
  gone _ h := absurd h (Nat.not_lt_zero _)

/-- The coroutine on whose stack a thread is: its map is the current one, and it goes on. -/
theorem Private.current (h : Private s) {p t : Nat} (ht : s.stack p = some t) :
    s.current p = .task t ∧ s.destroyed (.task t) = false := by
  have hin := (h.stack p t).1 ht
  refine ⟨?_, Bool.eq_false_iff.2 fun hdestroyed => ?_⟩
  · unfold State.current
    rw [hin.2]
  · exact h.ended.outside (h.done t hdestroyed) hin

theorem Private.scheduler (h : Private s) {a : Scheduler.Action} {u : Scheduler.State}
    (hen : Scheduler.Enabled s.scheduler a = true)
    (hu : Scheduler.step s.scheduler a = some u) :
    ∃ s', step s (.scheduler a) = some s' ∧ Private s' := by
  have hlinks := h.links.step hen hu
  have hbooks := h.books.step h.links hen hu
  have hended := h.ended.step h.links hen hu
  have hstack := h.stack.step h.links h.ended hen hu
  have hshape : Shape { s with scheduler := u, stack := s.scheduler.follow s.stack a } :=
    ⟨h.owned, h.keys, h.destroyed, h.making, h.nodup, h.refs⟩
  have hrecorded : Recorded { s with scheduler := u, stack := s.scheduler.follow s.stack a } :=
    ⟨h.view, h.results⟩
  obtain ⟨s', hs', hshape', hrecorded', hscheduler, hstack', hdestroyed⟩ :=
    hshape.destroyAll hrecorded (s.deleted u)
  have hdeleted : ∀ t, t ∈ s.deleted u ↔
      t < u.created ∧ s.scheduler.deletions t < u.deletions t := by
    intro t
    unfold State.deleted
    simp
  refine ⟨s', ?_, ⟨hshape', hrecorded', ?_, ?_, ?_, ?_, fun t ht => ?_, fun t ht hdel => ?_⟩⟩
  · show (Scheduler.step s.scheduler a).bind _ = _
    rw [hu, Option.bind_some, hs']
  · rw [hscheduler]
    exact hlinks
  · rw [hscheduler]
    exact hbooks
  · rw [hscheduler]
    exact hended
  · rw [hscheduler, hstack']
    exact hstack
  · rw [hscheduler]
    rcases (hdestroyed _).1 ht with hold | ⟨t', hmem, heq⟩
    · exact h.ended.done_step h.links hen hu (h.done t hold)
    · cases heq
      obtain ⟨hlt, hdel⟩ := (hdeleted t).1 hmem
      have hacc := hbooks.accounted hlinks hlt
      refine hacc.finished (hacc.deleted.2.1 ?_).1
      have hle := hacc.deleted.1
      omega
  · rw [hscheduler] at ht hdel
    refine (hdestroyed _).2 ?_
    by_cases hold : t < s.scheduler.created
    · by_cases hzero : s.scheduler.deletions t = 0
      · exact .inr ⟨t, (hdeleted t).2 ⟨ht, by change u.deletions t ≠ 0 at hdel; omega⟩, rfl⟩
      · exact .inl (h.gone t hold hzero)
    · -- A new task has not been deleted.
      exfalso
      rcases Scheduler.created_step h.links h.ended hen hu with hsame | ⟨p, rfl⟩
      · change t < u.created at ht
        omega
      · cases hu
        change t < s.scheduler.created + 1 at ht
        have hnew : t = s.scheduler.created := by omega
        subst hnew
        exact hdel (Function.update_self ..)

/-- A program calls. -/
theorem Private.call (h : Private s) (hlive : s.destroyed who = false) (hposs : Possible s who a c)
    (hnot : ∀ m ∈ s.making who, c.asks ≠ some m.loc) :
    ∃ s' r, s.call who who a c = some (s', r) ∧ Private (s'.note who c r) := by
  obtain ⟨s', r, hs', hans⟩ := h.toShape.call h.toRecorded hlive hposs hnot
  have hshape := hans.shape
  refine ⟨s', r, hs', ⟨⟨hshape.owned, hshape.keys, hshape.destroyed, hshape.making, hshape.nodup,
    hshape.refs⟩, hans.recorded, ?_, ?_, ?_, ?_, ?_, ?_⟩⟩
  · exact hans.scheduler ▸ h.links
  · exact hans.scheduler ▸ h.books
  · exact hans.scheduler ▸ h.ended
  · show Scheduler.OnStack s'.stack s'.scheduler
    rw [hans.scheduler, hans.stack]
    exact h.stack
  · show ∀ t, s'.destroyed (.task t) = true → s'.scheduler.taskState t = .done
    rw [hans.scheduler, hans.destroyed]
    exact h.done
  · show ∀ t < s'.scheduler.created, s'.scheduler.deletions t ≠ 0 → s'.destroyed (.task t) = true
    rw [hans.scheduler, hans.destroyed]
    exact h.gone

/-- What is enabled has a result, but for a step of the scheduler that has none of its own. -/
theorem Private.step (h : Private s) {action : Action κ V} (hen : Enabled s action)
    (hnot : NotRecursive s action)
    (hsched : ∀ a, action = .scheduler a → Scheduler.step s.scheduler a ≠ none) :
    ∃ s', step s action = some s' ∧ Private s' := by
  cases action with
  | scheduler a =>
    obtain ⟨u, hu⟩ := Option.ne_none_iff_exists'.1 (hsched a rfl)
    exact h.scheduler hen hu
  | coroutine p c a =>
    obtain ⟨-, t, ht, hposs⟩ := hen
    replace ht : s.stack p = some t := ht
    obtain ⟨hcurrent, hlive⟩ := h.current ht
    obtain ⟨s', r, hs', hprivate⟩ := h.call hlive hposs (hnot t ht)
    refine ⟨s'.note (.task t) c r, ?_, hprivate⟩
    show (s.stack p).bind _ = _
    rw [ht, Option.bind_some, hcurrent, hs']
    rfl
  | thread i c a =>
    obtain ⟨hlive, hposs⟩ := hen
    obtain ⟨s', r, hs', hprivate⟩ := h.call hlive hposs hnot
    refine ⟨s'.note (.thread i) c r, ?_, hprivate⟩
    show (s.call (.thread i) (.thread i) a c).map _ = _
    rw [hs']
    rfl
  | exit i =>
    obtain ⟨s', hs', hshape, hrecorded, hscheduler, hstack, hdestroyed⟩ :=
      h.toShape.destroy h.toRecorded (.thread i)
    have htask : ∀ t, s'.destroyed (.task t) = s.destroyed (.task t) := by
      intro t
      rw [hdestroyed, Function.update_of_ne (by simp)]
    refine ⟨s', hs', ⟨hshape, hrecorded, ?_, ?_, ?_, ?_, fun t => ?_, fun t => ?_⟩⟩
    · exact hscheduler ▸ h.links
    · exact hscheduler ▸ h.books
    · exact hscheduler ▸ h.ended
    · rw [hscheduler, hstack]
      exact h.stack
    · rw [hscheduler, htask]
      exact h.done t
    · rw [hscheduler, htask]
      exact h.gone t

theorem private_of_run (hr : Run machine NotRecursive State.initial s) : Private s := by
  refine hr.invariant private_initial fun t action u ht hen hnot hs => ?_
  obtain ⟨u', hu', hprivate⟩ := ht.step hen hnot fun a ha hnone => by
    subst ha
    change (Scheduler.step t.scheduler a).bind _ = some u at hs
    rw [hnone] at hs
    cases hs
  have heq : u' = u := Option.some.inj (hu'.symm.trans hs)
  exact heq ▸ hprivate

/-- In every run, with any number of processors and whatever the dispatcher moves: each coroutine and
each thread has the results that it would have alone.  The key that the code computes is the
coroutine that calls.  Each holder has one variable, and none is left when the task has been deleted
or the thread has ended.  No call fails. -/
theorem cls_private (hr : Run machine NotRecursive (State.initial : State κ V) s) :
    (∀ who, (s.log who).map Prod.snd = (Alone.run ((s.log who).map Prod.fst)).2) ∧
    (∀ p t, s.stack p = some t → s.current p = .task t) ∧
    Owned s.store ∧
    (∀ t < s.scheduler.created, s.scheduler.deletions t ≠ 0 → s.destroyed (.task t) = true) ∧
    (∀ who, s.destroyed who = true → ∀ loc, s.store.pointer (who, loc) = none) ∧
    ∀ action, machine.enabled s action → NotRecursive s action →
      (∀ a, action = .scheduler a → Scheduler.step s.scheduler a ≠ none) →
        machine.step s action ≠ none := by
  have h := private_of_run hr
  refine ⟨h.results, fun p t ht => (h.current ht).1, h.owned, h.gone, fun who hdestroyed loc => ?_,
    fun action hen hnot hsched => ?_⟩
  · by_contra hp
    have hmem := h.keys who loc hp
    rw [h.toShape.destroyed who hdestroyed] at hmem
    cases hmem
  · obtain ⟨s', hs', -⟩ := h.step hen hnot hsched
    rw [show machine.step s action = some s' from hs']
    simp

/-- A coroutine and a thread have a variable at the same location, and the coroutine assigns to its
own. -/
theorem cls_private_two : ∃ s : State Unit (fun _ : Unit => Nat),
    Run machine NotRecursive State.initial s ∧ Owned s.store ∧
    (∀ who, (s.log who).map Prod.snd = (Alone.run ((s.log who).map Prod.fst)).2) ∧
    (s.log (.task 0)).length = 3 ∧
    (s.store.value (.task 0, ())).map Sigma.snd = some 8 ∧
    (s.store.value (.thread 3, ())).map Sigma.snd = some 5 := by
  have hexec : (machine.exec NotRecursive (State.initial : State Unit (fun _ : Unit => Nat))
      (List.flatten [[.scheduler (.create 0)], List.replicate 8 (.scheduler (.thread 0)),
        [.coroutine 0 (.getSpecific () ()) 0, .coroutine 0 (.constructed (some ⟨(), 7⟩)) 0,
          .thread 3 (.getSpecific () ()) 0, .thread 3 (.constructed (some ⟨(), 5⟩)) 1,
          .coroutine 0 (.assign () ⟨(), 8⟩) 0]])).any
      (fun s => decide ((s.log (.task 0)).length = 3 ∧
        (s.store.value (.task 0, ())).map Sigma.snd = some 8 ∧
        (s.store.value (.thread 3, ())).map Sigma.snd = some 5)) := by
    decide +kernel
  obtain ⟨s, hrun, hs⟩ := Run.exists_of_exec hexec
  obtain ⟨hlength, htask, hthread⟩ := of_decide_eq_true hs
  obtain ⟨hresults, -, howned, -⟩ := cls_private hrun
  exact ⟨s, hrun, howned, hresults, hlength, htask, hthread⟩

end Costream.CoLocalStorage
