import Costream.Scheduler.Dispatcher

/-!
# Where a new task is put

`AddTask` puts a task on the processor of the calling thread, or it goes once round the processors
from `lastActive_` on and takes the first one that is active.  Meanwhile the dispatcher may mark
processors as inactive or active, and make new ones.

* `machine` is a scheduler from the end of `Start` on, with a call of `AddTask` that goes on step by
  step.  One call is enough: it changes nothing that another one reads.
* `Handed` is what a call should come to.  A processor is `steady` if it has been active all through
  the call.
* `cycle_run` connects it to the dispatcher: what a cycle does to the marks is a run.
-/

namespace Costream.Scheduler.Placement

open Trace

/-! ## The state -/

/-- The processor of the calling thread, if it has one: one of this scheduler or of another one. -/
inductive Caller where
  | outside
  | own (proc : Nat)
  | other
  deriving DecidableEq

/-- A `Processor*`. -/
inductive Target where
  | null
  | own (proc : Nat)
  | other
  deriving DecidableEq

/-- `GetCurrentProcessor()`. -/
def Caller.proc : Caller → Target
  | .outside => .null
  | .own proc => .own proc
  | .other => .other

/-- What the call does next.  `done` calls `AddTask` of its processor. -/
inductive Place where
  | idle
  | test
  | size
  | index (pcount : Nat)
  | scan (pcount left idx : Nat) (proc : Target)
  | done (proc : Target)
  deriving DecidableEq

/-- `active` has one member for each of `processers_`.  The last three say which processors have
been active since the call began, whether the processor that it has chosen was, when it was looked
at, and how many processors there were when it looked for them. -/
structure State where
  maxThreadNumber : Int
  dispatchThread : Bool
  active : List Bool
  lastActive : Nat
  caller : Caller
  place : Place
  steady : Nat → Bool
  chosen : Bool
  among : Nat

/-- `Start`.  A new processor is active. -/
def start (hardwareConcurrency : Nat) (minThreadNumber maxThreadNumber : Int) : State :=
  let minThreadNumber : Int :=
    if minThreadNumber < 1 then hardwareConcurrency else minThreadNumber
  let maxThreadNumber : Int :=
    if maxThreadNumber = 0 ∨ maxThreadNumber < minThreadNumber then minThreadNumber
    else maxThreadNumber
  { maxThreadNumber := maxThreadNumber
    dispatchThread := 1 < maxThreadNumber
    active := List.replicate (minThreadNumber - 1).toNat true
    lastActive := 0
    caller := .outside
    place := .idle
    steady := fun _ => false
    chosen := false
    among := 0 }

/-! ## The steps -/

namespace State

variable (s : State)

def isActive (p : Nat) : Bool := s.active[p]? = some true

/-- `AddTask` is called. -/
def call (caller : Caller) : State :=
  { s with
    caller := caller, place := .test, steady := s.isActive, chosen := false, among := 0 }

/-- A processor has been chosen. -/
def choose (proc : Nat) : State := { s with place := .done (.own proc), chosen := true }

/-- The processor of the calling thread, if the task may stay there. -/
def self : Option Nat :=
  match s.caller with
  | .own proc => if s.isActive proc then some proc else none
  | _ => none

/-- The next step of the call. -/
def next : Option State :=
  match s.place with
  | .idle | .done _ => none
  | .test =>
    match s.self with
    | some proc => some ({ s with among := s.active.length }.choose proc)
    | none => some { s with place := .size }
  | .size => some { s with place := .index s.active.length, among := s.active.length }
  | .index pcount => some { s with place := .scan pcount pcount s.lastActive s.caller.proc }
  | .scan _ 0 _ proc => some { s with place := .done proc }
  | .scan pcount (left + 1) idx _ =>
    let idx := idx % pcount
    if s.isActive idx then some (s.choose idx)
    else some { s with place := .scan pcount left (idx + 1) (.own idx) }

end State

inductive Action where
  | call (caller : Caller)
  | next
  /-- The dispatcher marks a processor as inactive. -/
  | block (p : Nat)
  /-- The dispatcher marks a processor as active. -/
  | activate (p : Nat)
  /-- The dispatcher makes a processor. -/
  | newProcessThread
  deriving DecidableEq

namespace State

variable (s : State)

def enabled : Action → Bool
  | .call caller =>
    (s.place matches .idle || s.place matches .done _) &&
      match caller with
      | .own proc => proc < s.active.length
      | _ => true
  | .next => s.next.isSome
  | .block p | .activate p => s.dispatchThread && p < s.active.length
  | .newProcessThread => s.dispatchThread && s.active.length < s.maxThreadNumber

def step : Action → Option State
  | .call caller => some (s.call caller)
  | .next => s.next
  | .block p => some { s with
      active := s.active.set p false, steady := Function.update s.steady p false }
  | .activate p => some { s with active := s.active.set p true, lastActive := p }
  | .newProcessThread => some { s with active := s.active ++ [true] }

end State

def machine : Machine State Action where
  enabled s a := s.enabled a = true
  step := State.step

instance (s : State) (a : Action) : Decidable (machine.enabled s a) :=
  inferInstanceAs (Decidable (s.enabled a = true))

/-- The task goes to a processor of this scheduler; and if one has been active all the time, to one
that was active. -/
def State.Handed (s : State) : Prop :=
  ∃ p, s.place = .done (.own p) ∧ p < s.active.length ∧
    ((∃ q, s.steady q = true) → s.chosen = true)

/-! ## The invariant -/

variable {s t u : State} {a : Action} {p q pcount left idx : Nat} {proc : Target}

/-- The processors that the loop has still to look at. -/
def Ahead (pcount left idx q : Nat) : Prop := ∃ j < left, q = (idx + j) % pcount

/-- What the call knows at its place. -/
def State.Knows (s : State) : Place → Prop
  | .idle => True
  | .test | .size => s.chosen = false
  | .index pcount => s.chosen = false ∧ pcount = s.among ∧ pcount ≤ s.active.length ∧
      (∀ q, s.steady q = true → q < pcount) ∧ (∀ p, s.caller = .own p → p < pcount)
  | .scan pcount left idx proc => s.chosen = false ∧ pcount = s.among ∧
      pcount ≤ s.active.length ∧ left ≤ pcount ∧
      (∀ q, s.steady q = true → Ahead pcount left idx q) ∧
      (left < pcount → ∃ p < pcount, proc = .own p) ∧ (pcount = 0 → ∀ p, proc ≠ .own p)
  | .done proc => (s.among ≠ 0 → s.Handed) ∧ (s.among = 0 → ∀ p, proc ≠ .own p)

structure Inv (s : State) : Prop where
  steady : ∀ q, s.steady q = true → s.isActive q = true
  caller : ∀ p, s.caller = .own p → p < s.active.length
  knows : s.Knows s.place

theorem lt_of_isActive (h : s.isActive p = true) : p < s.active.length := by
  unfold State.isActive at h
  by_contra hp
  rw [List.getElem?_eq_none (by omega)] at h
  cases h

theorem isActive_of_self (h : s.self = some p) : s.isActive p = true := by
  unfold State.self at h
  split at h
  · split at h
    · rename_i hactive
      cases h
      exact hactive
    · cases h
  · cases h

theorem inv_start (hardwareConcurrency : Nat) (minThreadNumber maxThreadNumber : Int) :
    Inv (start hardwareConcurrency minThreadNumber maxThreadNumber) where
  steady := by
    intro q hq
    cases hq
  caller := by
    intro p hp
    cases hp
  knows := trivial

/-! ## The loop -/

/-- Once round, from any index. -/
theorem ahead_all (hq : q < pcount) : Ahead pcount pcount idx q := by
  have hmod := Nat.mod_lt idx (Nat.zero_lt_of_lt hq)
  have hidx : idx % pcount + pcount * (idx / pcount) = idx := Nat.mod_add_div idx pcount
  by_cases hle : idx % pcount ≤ q
  · refine ⟨q - idx % pcount, by omega, ?_⟩
    have hsum : idx + (q - idx % pcount) = q + pcount * (idx / pcount) := by omega
    rw [hsum, Nat.add_mul_mod_self_left, Nat.mod_eq_of_lt hq]
  · refine ⟨q + pcount - idx % pcount, by omega, ?_⟩
    have hsum : idx + (q + pcount - idx % pcount) = q + pcount * (idx / pcount + 1) := by
      rw [Nat.mul_succ]
      omega
    rw [hsum, Nat.add_mul_mod_self_left, Nat.mod_eq_of_lt hq]

/-- The one that is looked at, or one of those behind it. -/
theorem ahead_succ (h : Ahead pcount (left + 1) idx q) :
    q = idx % pcount ∨ Ahead pcount left (idx % pcount + 1) q := by
  obtain ⟨j, hj, hq⟩ := h
  cases j with
  | zero => exact .inl hq
  | succ j =>
    refine .inr ⟨j, by omega, ?_⟩
    have hsum : idx % pcount + 1 + j = idx % pcount + (j + 1) := by omega
    rw [hq, hsum, Nat.mod_add_mod]

/-- The call has ended with a processor of this scheduler. -/
theorem knows_done (hplace : s.place = .done (.own p)) (hp : p < s.active.length)
    (hchosen : (∃ q, s.steady q = true) → s.chosen = true) (hamong : s.among ≠ 0) :
    s.Knows (.done (.own p)) :=
  ⟨fun _ => ⟨p, hplace, hp, hchosen⟩, fun hzero => absurd hzero hamong⟩

theorem Inv.choose (h : Inv s) (hp : s.isActive p = true) (hamong : s.among ≠ 0) :
    Inv (s.choose p) :=
  ⟨h.steady, h.caller, knows_done rfl (lt_of_isActive hp) (fun _ => rfl) hamong⟩

/-- A step of the call. -/
theorem Inv.next (h : Inv s) (hs : s.next = some t) : Inv t := by
  have hknows := h.knows
  unfold State.next at hs
  cases hplace : s.place with
  | idle =>
    rw [hplace] at hs
    cases hs
  | done proc =>
    rw [hplace] at hs
    cases hs
  | test =>
    rw [hplace] at hs hknows
    cases hself : s.self with
    | some proc =>
      have hactive := isActive_of_self hself
      rw [hself] at hs
      cases hs
      have hlt : proc < s.active.length := lt_of_isActive hactive
      exact ⟨h.steady, h.caller, knows_done rfl hlt (fun _ => rfl) (Nat.ne_zero_of_lt hlt)⟩
    | none =>
      rw [hself] at hs
      cases hs
      exact ⟨h.steady, h.caller, hknows⟩
  | size =>
    rw [hplace] at hs hknows
    cases hs
    exact ⟨h.steady, h.caller, hknows, rfl, Nat.le_refl _,
      fun q hq => lt_of_isActive (h.steady q hq), h.caller⟩
  | index pcount =>
    rw [hplace] at hs hknows
    cases hs
    obtain ⟨hchosen, hamong, hle, hsteady, hcaller⟩ := hknows
    refine ⟨h.steady, h.caller, hchosen, hamong, hle, Nat.le_refl _,
      fun q hq => ahead_all (hsteady q hq), fun hlt => absurd hlt (Nat.lt_irrefl _), ?_⟩
    intro hzero p hp
    cases hc : s.caller with
    | own proc =>
      have hlt := hcaller proc hc
      omega
    | outside =>
      rw [hc] at hp
      cases hp
    | other =>
      rw [hc] at hp
      cases hp
  | scan pcount left idx proc =>
    rw [hplace] at hs hknows
    obtain ⟨hchosen, hamong, hle, hleft, hsteady, hproc, hnone⟩ := hknows
    cases left with
    | zero =>
      cases hs
      refine ⟨h.steady, h.caller, ?_⟩
      rcases Nat.eq_zero_or_pos pcount with hzero | hpos
      · exact ⟨fun hne => absurd (hamong.symm.trans hzero) hne, fun _ => hnone hzero⟩
      · obtain ⟨p, hp, rfl⟩ := hproc hpos
        have hne : s.among ≠ 0 := by omega
        refine knows_done rfl (Nat.lt_of_lt_of_le hp hle) ?_ hne
        rintro ⟨q, hq⟩
        obtain ⟨j, hj, -⟩ := hsteady q hq
        omega
    | succ left =>
      have hpos : 0 < pcount := by omega
      have hlt : idx % pcount < pcount := Nat.mod_lt _ hpos
      dsimp only at hs
      split at hs
      · rename_i hactive
        cases hs
        exact h.choose hactive (by omega)
      · rename_i hinactive
        cases hs
        refine ⟨h.steady, h.caller, hchosen, hamong, hle, by omega, fun q hq => ?_,
          fun _ => ⟨idx % pcount, hlt, rfl⟩, fun hzero => absurd hzero (by omega)⟩
        rcases ahead_succ (hsteady q hq) with hq' | hq'
        · exact absurd (hq' ▸ h.steady q hq) hinactive
        · exact hq'

/-! ## What the dispatcher does meanwhile -/

/-- It leaves the call where it is, and makes no processor steady. -/
structure Meanwhile (s t : State) : Prop where
  caller : t.caller = s.caller
  place : t.place = s.place
  chosen : t.chosen = s.chosen
  among : t.among = s.among
  length : s.active.length ≤ t.active.length
  steady : ∀ q, t.steady q = true → s.steady q = true ∧ t.isActive q = true

theorem Inv.meanwhile (h : Inv s) (hm : Meanwhile s t) : Inv t := by
  have hknows := h.knows
  refine ⟨fun q hq => (hm.steady q hq).2, fun p hp => ?_, ?_⟩
  · exact Nat.lt_of_lt_of_le (h.caller p (hm.caller ▸ hp)) hm.length
  · rw [hm.place]
    cases hplace : s.place with
    | idle => trivial
    | test =>
      rw [hplace] at hknows
      exact hm.chosen.trans hknows
    | size =>
      rw [hplace] at hknows
      exact hm.chosen.trans hknows
    | index pcount =>
      rw [hplace] at hknows
      obtain ⟨hchosen, hamong, hle, hsteady, hcaller⟩ := hknows
      exact ⟨hm.chosen.trans hchosen, hamong.trans hm.among.symm, Nat.le_trans hle hm.length,
        fun q hq => hsteady q (hm.steady q hq).1, fun p hp => hcaller p (hm.caller ▸ hp)⟩
    | scan pcount left idx proc =>
      rw [hplace] at hknows
      obtain ⟨hchosen, hamong, hle, hleft, hsteady, hproc⟩ := hknows
      exact ⟨hm.chosen.trans hchosen, hamong.trans hm.among.symm, Nat.le_trans hle hm.length, hleft,
        fun q hq => hsteady q (hm.steady q hq).1, hproc⟩
    | done proc =>
      rw [hplace] at hknows
      refine ⟨fun hne => ?_, fun hzero => hknows.2 (hm.among ▸ hzero)⟩
      obtain ⟨p, hp, hlt, hchosen⟩ := hknows.1 (hm.among ▸ hne)
      refine ⟨p, hm.place.trans hp, Nat.lt_of_lt_of_le hlt hm.length, ?_⟩
      rintro ⟨q, hq⟩
      exact hm.chosen.trans (hchosen ⟨q, (hm.steady q hq).1⟩)

theorem Inv.block (h : Inv s) (hs : s.step (.block p) = some t) : Inv t := by
  cases hs
  refine h.meanwhile ⟨rfl, rfl, rfl, rfl, Nat.le_of_eq List.length_set.symm, fun q hq => ?_⟩
  have hupdate : Function.update s.steady p false q = true := hq
  have hne : q ≠ p := by
    intro hqp
    rw [hqp, Function.update_self] at hupdate
    cases hupdate
  rw [Function.update_of_ne hne] at hupdate
  refine ⟨hupdate, ?_⟩
  have hactive := h.steady q hupdate
  unfold State.isActive at hactive ⊢
  rw [List.getElem?_set_ne hne.symm]
  exact hactive

theorem Inv.activate (h : Inv s) (hs : s.step (.activate p) = some t) : Inv t := by
  cases hs
  refine h.meanwhile ⟨rfl, rfl, rfl, rfl, Nat.le_of_eq List.length_set.symm, fun q hq => ?_⟩
  have hactive := h.steady q hq
  refine ⟨hq, ?_⟩
  by_cases hqp : q = p
  · have hlt := lt_of_isActive hactive
    unfold State.isActive
    rw [hqp, List.getElem?_set_self (hqp ▸ hlt)]
    rfl
  · unfold State.isActive at hactive ⊢
    rw [List.getElem?_set_ne (Ne.symm hqp)]
    exact hactive

theorem Inv.newProcessThread (h : Inv s) (hs : s.step .newProcessThread = some t) : Inv t := by
  cases hs
  refine h.meanwhile ⟨rfl, rfl, rfl, rfl, ?_, fun q hq => ?_⟩
  · rw [List.length_append]
    exact Nat.le_add_right _ _
  · have hactive := h.steady q hq
    have hlt := lt_of_isActive hactive
    refine ⟨hq, ?_⟩
    unfold State.isActive at hactive ⊢
    rw [List.getElem?_append_left hlt]
    exact hactive

theorem inv_call {caller : Caller} (he : machine.enabled s (.call caller)) :
    Inv (s.call caller) := by
  refine ⟨fun q hq => hq, fun p hp => ?_, rfl⟩
  have henabled : s.enabled (.call caller) = true := he
  unfold State.enabled at henabled
  have hcaller : caller = .own p := hp
  rw [hcaller, Bool.and_eq_true] at henabled
  exact of_decide_eq_true henabled.2

theorem Inv.step (h : Inv s) (he : machine.enabled s a) (hs : machine.step s a = some t) : Inv t := by
  cases a with
  | call caller =>
    cases hs
    exact inv_call he
  | next => exact h.next hs
  | block p => exact h.block hs
  | activate p => exact h.activate hs
  | newProcessThread => exact h.newProcessThread hs

theorem inv_of_run {hardwareConcurrency : Nat} {minThreadNumber maxThreadNumber : Int}
    (h : Run machine anyAction (start hardwareConcurrency minThreadNumber maxThreadNumber) s) :
    Inv s :=
  h.invariant (inv_start _ _ _) fun _ _ _ ht he _ hs => ht.step he hs

/-! ## The cycles of the dispatcher -/

/-- The processors are marked as the dispatcher has left them. -/
structure Follows (maxThreadNumber : Nat) (s : State) (d : Dispatcher) : Prop where
  thread : s.dispatchThread = true
  max : s.maxThreadNumber = maxThreadNumber
  active : s.active = d.active
  lastActive : s.lastActive = d.lastActive

section Cycle

variable {d : Dispatcher} {g : Gathered} {blocking : Nat → Bool} {maxThreadNumber : Nat}

theorem run_block {l : List Nat} (hthread : s.dispatchThread = true)
    (hl : ∀ p ∈ l, p < s.active.length) :
    ∃ t, Run machine anyAction s t ∧ t.dispatchThread = true ∧
      t.maxThreadNumber = s.maxThreadNumber ∧ t.lastActive = s.lastActive ∧
      ∀ j : Nat, t.active[j]? = if j ∈ l then s.active[j]?.map fun _ => false else s.active[j]? := by
  induction l generalizing s with
  | nil => exact ⟨s, .refl, hthread, rfl, rfl, fun j => by simp⟩
  | cons p l ih =>
    have hp := hl p (by simp)
    have he : machine.enabled s (.block p) := by
      show s.enabled (.block p) = true
      unfold State.enabled
      simp [hthread, hp]
    have hone : Run machine anyAction s _ := .tail .refl he trivial rfl
    obtain ⟨t, hr, hthread', hmax, hlast, hactive⟩ := ih (s := { s with
      active := s.active.set p false, steady := Function.update s.steady p false }) hthread
      fun q hq => by
        rw [List.length_set]
        exact hl q (by simp [hq])
    refine ⟨t, hone.trans hr, hthread', hmax, hlast, fun j => ?_⟩
    rw [hactive j]
    by_cases hj : j = p
    · rw [hj, List.getElem?_set_self hp, List.getElem?_eq_getElem hp]
      simp
    · rw [List.getElem?_set_ne (Ne.symm hj)]
      simp [hj]

theorem run_markBlocked (blocking : Nat → Bool) (h : Follows maxThreadNumber s d) :
    ∃ t, Run machine anyAction s t ∧ Follows maxThreadNumber t (d.markBlocked blocking) := by
  obtain ⟨t, hr, hthread, hmax, hlast, hactive⟩ := run_block
    (l := (List.range d.active.length).filter blocking) h.thread fun p hp => by
      rw [h.active]
      exact List.mem_range.1 (List.mem_filter.1 hp).1
  refine ⟨t, hr, hthread, hmax.trans h.max, ?_, hlast.trans h.lastActive⟩
  refine List.ext_getElem? fun j => ?_
  rw [hactive j, h.active]
  unfold Dispatcher.markBlocked
  rw [List.getElem?_mapIdx]
  by_cases hj : j < d.active.length
  · rw [List.getElem?_eq_getElem hj]
    cases hb : blocking j <;> simp [hj, hb]
  · rw [List.getElem?_eq_none (by omega)]
    simp

/-- The marks that the second loop sets. -/
theorem visit_marks (g : Gathered) (blocking : Nat → Bool) (i : Nat) :
    ((Dispatcher.visit blocking g i).dispatcher.active = g.dispatcher.active ∧
      (Dispatcher.visit blocking g i).dispatcher.lastActive = g.dispatcher.lastActive) ∨
    (g.dispatcher.active[i]? = some false ∧
      (Dispatcher.visit blocking g i).dispatcher.active = g.dispatcher.active.set i true ∧
      (Dispatcher.visit blocking g i).dispatcher.lastActive = i) := by
  unfold Dispatcher.visit
  by_cases hquota : g.dispatcher.active[i]? = some false ∧ 0 < g.activeQuota ∧ blocking i = false
  · refine .inr ⟨hquota.1, ?_⟩
    simp only [if_pos hquota]
    split <;> split <;> exact ⟨rfl, rfl⟩
  · refine .inl ?_
    simp only [if_neg hquota]
    split <;> split <;> exact ⟨rfl, rfl⟩

theorem run_visit (h : Follows maxThreadNumber s g.dispatcher) (i : Nat) :
    ∃ t, Run machine anyAction s t ∧
      Follows maxThreadNumber t (Dispatcher.visit blocking g i).dispatcher := by
  rcases visit_marks g blocking i with ⟨hactive, hlast⟩ | ⟨hinactive, hactive, hlast⟩
  · exact ⟨s, .refl, h.thread, h.max, h.active.trans hactive.symm, h.lastActive.trans hlast.symm⟩
  · have hi : i < s.active.length := by
      rw [h.active]
      exact (List.getElem?_eq_some_iff.1 hinactive).1
    have he : machine.enabled s (.activate i) := by
      show s.enabled (.activate i) = true
      unfold State.enabled
      simp [h.thread, hi]
    refine ⟨_, .tail .refl he trivial rfl, h.thread, h.max, ?_, hlast.symm⟩
    rw [hactive, ← h.active]

theorem run_gather (blocking : Nat → Bool) (h : Follows maxThreadNumber s d) (minThreadNumber : Nat) :
    ∃ t, Run machine anyAction s t ∧
      Follows maxThreadNumber t (d.gather blocking minThreadNumber).dispatcher := by
  have hloop : ∀ (l : List Nat) (g : Gathered) (s : State), Follows maxThreadNumber s g.dispatcher →
      ∃ t, Run machine anyAction s t ∧
        Follows maxThreadNumber t (l.foldl (Dispatcher.visit blocking) g).dispatcher := by
    intro l
    induction l with
    | nil => exact fun g s hs => ⟨s, .refl, hs⟩
    | cons i l ih =>
      intro g s hs
      obtain ⟨t, hr, ht⟩ := run_visit hs i
      obtain ⟨u, hr', hu⟩ := ih _ t ht
      exact ⟨u, hr.trans hr', hu⟩
  obtain ⟨t, hr, ht⟩ := run_markBlocked blocking h
  obtain ⟨u, hr', hu⟩ := hloop _ ⟨d.markBlocked blocking, _, []⟩ t ht
  exact ⟨u, hr.trans hr', hu⟩

theorem run_newProcessThread (h : Follows maxThreadNumber s g.dispatcher) :
    ∃ t, Run machine anyAction s t ∧
      Follows maxThreadNumber t (Dispatcher.newProcessThread maxThreadNumber g).dispatcher := by
  unfold Dispatcher.newProcessThread
  dsimp only
  split
  · rename_i hnew
    have he : machine.enabled s .newProcessThread := by
      show s.enabled .newProcessThread = true
      unfold State.enabled
      rw [h.thread, h.max, h.active]
      simp [hnew.2]
    refine ⟨_, .tail .refl he trivial rfl, h.thread, h.max, ?_, h.lastActive⟩
    rw [h.active]
  · exact ⟨s, .refl, h⟩

/-- What a cycle of the dispatcher does to the marks. -/
theorem cycle_run {c : Cycle} {minThreadNumber : Nat}
    (hc : d.cycle blocking minThreadNumber maxThreadNumber = some c)
    (h : Follows maxThreadNumber s d) :
    ∃ t, Run machine anyAction s t ∧ Follows maxThreadNumber t c.dispatcher := by
  obtain ⟨t, hr, ht⟩ := run_gather blocking h minThreadNumber
  obtain ⟨u, hr', hu⟩ := run_newProcessThread ht
  refine ⟨u, hr.trans hr', ?_⟩
  unfold Dispatcher.cycle at hc
  dsimp only at hc
  split at hc
  · cases hc
    exact hu
  · obtain ⟨r, -, hc⟩ := Option.bind_eq_some_iff.1 hc
    obtain ⟨r', -, rfl⟩ := Option.map_eq_some_iff.1 hc
    exact ⟨hu.thread, hu.max, hu.active, hu.lastActive⟩

end Cycle

/-! ## The call ends -/

/-- How many steps the call has before it at most. -/
def Place.remaining (length : Nat) : Place → Nat
  | .idle | .done _ => 0
  | .test => length + 4
  | .size => length + 3
  | .index pcount => pcount + 2
  | .scan _ left _ _ => left + 1

/-- Each step of the call leaves the processors as they are, and brings it closer to its end. -/
theorem next_remaining (hidle : s.place ≠ .idle) (hdone : ∀ proc, s.place ≠ .done proc) :
    ∃ t, s.next = some t ∧ t.active = s.active ∧ t.place ≠ .idle ∧
      t.place.remaining t.active.length < s.place.remaining s.active.length := by
  unfold State.next
  cases hplace : s.place with
  | idle => exact absurd hplace hidle
  | done proc => exact absurd hplace (hdone proc)
  | test =>
    cases s.self with
    | some proc => exact ⟨_, rfl, rfl, nofun, by simp [State.choose, Place.remaining]⟩
    | none => exact ⟨_, rfl, rfl, nofun, by simp [Place.remaining]⟩
  | size => exact ⟨_, rfl, rfl, nofun, by simp [Place.remaining]⟩
  | index pcount => exact ⟨_, rfl, rfl, nofun, by simp [Place.remaining]⟩
  | scan pcount left idx proc =>
    cases left with
    | zero => exact ⟨_, rfl, rfl, nofun, by simp [Place.remaining]⟩
    | succ left =>
      dsimp only
      split
      · exact ⟨_, rfl, rfl, nofun, by simp [State.choose, Place.remaining]⟩
      · exact ⟨_, rfl, rfl, nofun, by simp [Place.remaining]⟩

/-- A call in progress ends by its own steps. -/
theorem call_ends (hidle : s.place ≠ .idle) :
    ∃ t, Run machine (fun _ a => a = .next) s t ∧ ∃ proc, t.place = .done proc := by
  obtain ⟨t, hr, -, hdone⟩ : ∃ t, Run machine (fun _ a => a = .next) s t ∧ t.place ≠ .idle ∧
      ∃ proc, t.place = .done proc := by
    refine Run.exists_of_wf Nat.lt_wfRel.wf (fun s => s.place.remaining s.active.length) hidle ?_
    intro t ht hnot
    obtain ⟨u, hu, hactive, hidle', hlt⟩ := next_remaining ht fun proc hproc => hnot ⟨proc, hproc⟩
    exact ⟨.next, u, Option.isSome_iff_exists.2 ⟨u, hu⟩, rfl, hu, hidle', .inr hlt⟩
  exact ⟨t, hr, hdone⟩

/-! ## The result -/

/-- The places behind the look at the processors. -/
def Place.looked : Place → Bool
  | .index _ | .scan _ _ _ _ | .done _ => true
  | _ => false

/-- What the state `r` after `Start` says about the number of processors that a call finds. -/
structure Found (r s : State) : Prop where
  thread : s.dispatchThread = r.dispatchThread
  least : r.active.length ≤ s.active.length
  looked : s.place.looked = true → r.active.length ≤ s.among
  most : s.among ≤ s.active.length
  fixed : s.dispatchThread = false → s.active.length = r.active.length

theorem Found.next {r : State} (h : Found r s) (hs : s.next = some t) : Found r t := by
  unfold State.next at hs
  cases hplace : s.place with
  | idle =>
    rw [hplace] at hs
    cases hs
  | done proc =>
    rw [hplace] at hs
    cases hs
  | test =>
    rw [hplace] at hs
    dsimp only at hs
    split at hs
    · cases hs
      exact ⟨h.thread, h.least, fun _ => h.least, Nat.le_refl _, h.fixed⟩
    · cases hs
      exact ⟨h.thread, h.least, nofun, h.most, h.fixed⟩
  | size =>
    rw [hplace] at hs
    cases hs
    exact ⟨h.thread, h.least, fun _ => h.least, Nat.le_refl _, h.fixed⟩
  | index pcount =>
    have hlooked := h.looked
    rw [hplace] at hs hlooked
    cases hs
    exact ⟨h.thread, h.least, hlooked, h.most, h.fixed⟩
  | scan pcount left idx proc =>
    have hlooked := h.looked
    rw [hplace] at hs hlooked
    cases left with
    | zero =>
      cases hs
      exact ⟨h.thread, h.least, hlooked, h.most, h.fixed⟩
    | succ left =>
      dsimp only at hs
      split at hs <;> cases hs
      · exact ⟨h.thread, h.least, hlooked, h.most, h.fixed⟩
      · exact ⟨h.thread, h.least, hlooked, h.most, h.fixed⟩

theorem Found.step {r : State} (h : Found r s) (he : machine.enabled s a)
    (hs : machine.step s a = some t) : Found r t := by
  cases a with
  | call caller =>
    cases hs
    exact ⟨h.thread, h.least, nofun, Nat.zero_le _, h.fixed⟩
  | next => exact h.next hs
  | block p =>
    cases hs
    have hlength : (s.active.set p false).length = s.active.length := List.length_set
    exact ⟨h.thread, hlength ▸ h.least, h.looked, hlength ▸ h.most,
      fun hd => hlength.trans (h.fixed hd)⟩
  | activate p =>
    cases hs
    have hlength : (s.active.set p true).length = s.active.length := List.length_set
    exact ⟨h.thread, hlength ▸ h.least, h.looked, hlength ▸ h.most,
      fun hd => hlength.trans (h.fixed hd)⟩
  | newProcessThread =>
    cases hs
    have henabled : s.enabled .newProcessThread = true := he
    unfold State.enabled at henabled
    rw [Bool.and_eq_true] at henabled
    have hle : s.active.length ≤ (s.active ++ [true]).length := by simp
    refine ⟨h.thread, Nat.le_trans h.least hle, h.looked, Nat.le_trans h.most hle, fun hd => ?_⟩
    have hthread : s.dispatchThread = false := hd
    rw [hthread] at henabled
    cases henabled.1

theorem found_of_run {hardwareConcurrency : Nat} {minThreadNumber maxThreadNumber : Int}
    (h : Run machine anyAction (start hardwareConcurrency minThreadNumber maxThreadNumber) s) :
    Found (start hardwareConcurrency minThreadNumber maxThreadNumber) s :=
  h.invariant ⟨rfl, Nat.le_refl _, nofun, Nat.zero_le _, fun _ => rfl⟩
    fun _ _ _ ht he _ hs => ht.step he hs

theorem handed_iff (h : Inv s) (hdone : s.place = .done proc) : s.Handed ↔ s.among ≠ 0 := by
  have hknows := h.knows
  rw [hdone] at hknows
  refine ⟨fun hhanded hzero => ?_, hknows.1⟩
  obtain ⟨p, hp, -⟩ := hhanded
  rw [hdone, Place.done.injEq] at hp
  exact hknows.2 hzero p hp

/-- For every `Start`, whatever the dispatcher does, and for every caller. -/
theorem task_handed_iff {hardwareConcurrency : Nat} {minThreadNumber maxThreadNumber : Int}
    (h : Run machine anyAction (start hardwareConcurrency minThreadNumber maxThreadNumber) s) :
    (s.place ≠ .idle →
      ∃ t, Run machine (fun _ a => a = .next) s t ∧ ∃ proc, t.place = .done proc) ∧
    ∀ proc, s.place = .done proc → (s.Handed ↔ s.among ≠ 0) ∧
      ((start hardwareConcurrency minThreadNumber maxThreadNumber).active ≠ [] → s.among ≠ 0) ∧
      ((start hardwareConcurrency minThreadNumber maxThreadNumber).active = [] →
        (start hardwareConcurrency minThreadNumber maxThreadNumber).dispatchThread = false →
          s.among = 0) := by
  have hfound := found_of_run h
  refine ⟨call_ends, fun proc hdone => ⟨handed_iff (inv_of_run h) hdone, fun hne => ?_, ?_⟩⟩
  · have hlooked := hfound.looked (by rw [hdone]; rfl)
    have hpos := List.length_pos_iff.2 hne
    omega
  · intro hnil hthread
    have hmost := hfound.most
    rw [hfound.fixed (hfound.thread.trans hthread), hnil, List.length_nil] at hmost
    omega

/-- Two processors of which one is blocked, and a call that begins to look at that one. -/
theorem task_handed_iff_blocked : ∃ s, Run machine anyAction (start 8 3 4) s ∧
    s.place = .done (.own 1) ∧ s.Handed := by
  have hexec : (machine.exec anyAction (start 8 3 4)
      [.block 0, .call .outside, .next, .next, .next, .next, .next]).any
      (fun s => s.place = .done (.own 1) && s.among ≠ 0) = true := by
    decide +kernel
  obtain ⟨s, hr, hs⟩ := Run.exists_of_exec hexec
  simp only [Bool.and_eq_true, decide_eq_true_eq] at hs
  exact ⟨s, hr, hs.1, (((task_handed_iff hr).2 _ hs.1).1).2 hs.2⟩

/-- `Start(1, 1)` makes no processor and no dispatcher. -/
theorem null_processor : ¬ ∀ (hardwareConcurrency : Nat) (minThreadNumber maxThreadNumber : Int)
    (s : State),
    Run machine anyAction (start hardwareConcurrency minThreadNumber maxThreadNumber) s →
      ∀ proc, s.place = .done proc → s.Handed := by
  intro hall
  have hexec : (machine.exec anyAction (start 8 1 1)
      [.call .outside, .next, .next, .next, .next]).any
      (fun s => s.place = .done .null) = true := by
    decide +kernel
  obtain ⟨s, hr, hs⟩ := Run.exists_of_exec hexec
  have hplace := of_decide_eq_true hs
  obtain ⟨p, hp, -⟩ := hall 8 1 1 s hr _ hplace
  rw [hplace] at hp
  cases hp

end Costream.Scheduler.Placement
