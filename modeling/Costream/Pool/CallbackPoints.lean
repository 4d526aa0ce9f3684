import Costream.Tally
import Costream.Trace
import Mathlib.Data.List.Range
import Mathlib.Logic.Function.Basic

/-!
# The callback points of `AsyncCoroutinePool`

`AddCallbackPoint` claims a slot with one counter and publishes it with another one, in a loop of
`compare_exchange_weak` whose expected value is overwritten when it fails.  `Go` reads the second
counter and uses one of the slots below it.

Any number of threads call `AddCallbackPoint`, and any number of coroutines are in `Go`.  An access
to a shared variable is a step.  A step that uses a slot that was never assigned has no result.

* `claims_distinct` is about every run: the calls that return true have slots of their own, at
  most `maxCallbackPoints_` of them.
* The slots are not published in the order in which they are claimed: `slots_assigned` needs that
  no call publishes before the next slot is assigned, and `unassigned_published` is a run in which
  one does.
-/

namespace Costream.CallbackPoints

open Trace Costream.Tally

/-- Where a party stands. -/
inductive Place where
  | idle
  /-- `AddCallbackPoint`: before `writePointsCount_++`. -/
  | add (point : Nat)
  /-- Before `--writePointsCount_`. -/
  | refused
  /-- Before `points_[writeIdx] = point`. -/
  | store (point writeIdx : Nat)
  /-- Before `compare_exchange_weak`; `slot` is where the call has stored. -/
  | publish (slot writeIdx : Nat)
  /-- `Go`: before `pointsCount = pointsCount_`. -/
  | count
  /-- Before `++robin_`. -/
  | robin (pointsCount : Nat)
  /-- Before `points_[idx]->Post`. -/
  | post (idx : Nat)
  /-- Before `points_[idx]->Notify`. -/
  | notify (idx : Nat)
deriving DecidableEq, Repr

structure State where
  writePointsCount : Nat
  pointsCount : Nat
  points : Nat → Option Nat
  robin : Nat
  /-- The slots of the calls that have returned true. -/
  owned : List Nat
  parties : List Place

def State.initial (n : Nat) : State := ⟨0, 0, fun _ => none, 0, [], List.replicate n .idle⟩

inductive Action where
  | addCallbackPoint (i point : Nat)
  /-- A task with a callback has come. -/
  | go (i : Nat)
  /-- `fails` is a spurious failure of `compare_exchange_weak`. -/
  | step (i : Nat) (fails : Bool)
deriving DecidableEq, Repr

namespace State

variable (maxCallbackPoints : Nat) (s : State)

def put (i : Nat) (place : Place) : State := { s with parties := s.parties.set i place }

/-- A step of the party `i`. -/
def advance (i : Nat) (fails : Bool) : Place → Option State
  | .idle => none
  | .add point =>
    let writeIdx := s.writePointsCount
    let place := if maxCallbackPoints ≤ writeIdx then .refused else .store point writeIdx
    some ({ s with writePointsCount := s.writePointsCount + 1 }.put i place)
  | .refused => some ({ s with writePointsCount := s.writePointsCount - 1 }.put i .idle)
  | .store point writeIdx =>
    some ({ s with points := Function.update s.points writeIdx (some point) }.put i
      (.publish writeIdx writeIdx))
  | .publish slot writeIdx =>
    if s.pointsCount = writeIdx ∧ fails = false then
      some ({ s with pointsCount := writeIdx + 1, owned := slot :: s.owned }.put i .idle)
    else
      some (s.put i (.publish slot s.pointsCount))
  | .count => some (s.put i (if s.pointsCount = 0 then .idle else .robin s.pointsCount))
  | .robin pointsCount =>
    let robin := (s.robin + 1) % 2 ^ 64
    some ({ s with robin := robin }.put i (.post (robin % pointsCount)))
  | .post idx => if (s.points idx).isSome then some (s.put i (.notify idx)) else none
  | .notify idx => if (s.points idx).isSome then some (s.put i .idle) else none

def next : Action → Option State
  | .addCallbackPoint i point => some (s.put i (.add point))
  | .go i => some (s.put i .count)
  | .step i fails =>
    match s.parties[i]? with
    | some place => s.advance maxCallbackPoints i fails place
    | none => none

def enabled : Action → Bool
  | .addCallbackPoint i _ => s.parties[i]? = some .idle
  | .go i => s.parties[i]? = some .idle
  | .step i _ => s.parties[i]?.any (· ≠ .idle)

end State

def machine (maxCallbackPoints : Nat) : Machine State Action where
  enabled s a := s.enabled a = true
  step := State.next maxCallbackPoints

instance (m : Nat) (s : State) (a : Action) : Decidable ((machine m).enabled s a) :=
  inferInstanceAs (Decidable (s.enabled a = true))

/-! ## What the counters count -/

namespace Place

@[simp] def refusals : Place → Nat
  | refused => 1
  | _ => 0

/-- The call has a slot that it has not published. -/
@[simp] def claims : Place → Nat
  | store _ _ => 1
  | publish _ _ => 1
  | _ => 0

/-- The call has claimed the slot `k`. -/
@[simp] def has (k : Nat) : Place → Nat
  | store _ writeIdx => if writeIdx = k then 1 else 0
  | publish slot _ => if slot = k then 1 else 0
  | _ => 0

end Place

/-- The slots below `g` are claimed once each. -/
structure State.Inv (m : Nat) (s : State) (g : Nat) : Prop where
  write : s.writePointsCount = g + tally Place.refusals s.parties
  bound : g ≤ m
  full : 1 ≤ tally Place.refusals s.parties → m ≤ g
  total : g = s.owned.length + tally Place.claims s.parties
  count : s.pointsCount = s.owned.length
  once : ∀ k, s.owned.count k + tally (Place.has k) s.parties = if k < g then 1 else 0

variable {m g i : Nat} {s t : State} {p q : Place} {a : Action} {fails : Bool}

/-- One party is replaced. -/
theorem State.Inv.change (h : s.Inv m g) (hp : s.parties[i]? = some p) {w n r g' : Nat}
    {points : Nat → Option Nat} {owned : List Nat}
    (hwrite : w + g + p.refusals = s.writePointsCount + g' + q.refusals) (hbound : g' ≤ m)
    (hfull : 1 ≤ q.refusals → m ≤ g') (hle : g ≤ g')
    (htotal : g' + s.owned.length + p.claims = g + owned.length + q.claims)
    (hcount : n = owned.length)
    (honce : ∀ k, owned.count k + q.has k + (if k < g then 1 else 0) =
      s.owned.count k + p.has k + (if k < g' then 1 else 0)) :
    State.Inv m ⟨w, n, points, r, owned, s.parties.set i q⟩ g' := by
  have hsum : ∀ f : Place → Nat, tally f (s.parties.set i q) + f p = tally f s.parties + f q :=
    fun f => tally_set f hp q
  have hrefusals := hsum Place.refusals
  have hclaims := hsum Place.claims
  have hold := h.write
  have hold' := h.total
  have hold'' := h.full
  refine ⟨?_, hbound, ?_, ?_, hcount, fun k => ?_⟩
  · simp only
    omega
  · simp only
    intro hone
    by_cases hq : 1 ≤ q.refusals
    · exact hfull hq
    · have hm := hold'' (by omega)
      omega
  · simp only
    omega
  · have hk := hsum (Place.has k)
    have hkold := h.once k
    have hknew := honce k
    simp only
    omega

theorem State.Inv.initial (m n : Nat) : (State.initial n).Inv m 0 := by
  have hzero : ∀ f : Place → Nat, f .idle = 0 → tally f (State.initial n).parties = 0 := by
    intro f hidle
    refine tally_eq_zero.2 fun p hmem => ?_
    rw [List.eq_of_mem_replicate hmem, hidle]
  refine ⟨?_, Nat.zero_le m, ?_, ?_, rfl, fun k => ?_⟩
  · rw [hzero Place.refusals rfl]
    rfl
  · rw [hzero Place.refusals rfl]
    omega
  · rw [hzero Place.claims rfl]
    rfl
  · rw [hzero (Place.has k) rfl]
    rfl

/-- A call gets the slot `g`, or none is left. -/
theorem State.Inv.writeIdx (h : s.Inv m g) (hlt : s.writePointsCount < m) :
    s.writePointsCount = g ∧ g < m := by
  have hwrite := h.write
  have hfull := h.full
  omega

/-- One step keeps the counters, and claims at most one slot. -/
theorem State.Inv.step (h : s.Inv m g) (henabled : s.enabled a = true)
    (hnext : s.next m a = some t) : ∃ g', t.Inv m g' := by
  have hkeep : ∀ {i : Nat} {p q : Place} {r : Nat}, s.parties[i]? = some p →
      q.refusals = p.refusals → q.claims = p.claims → (∀ k, q.has k = p.has k) →
      State.Inv m ⟨s.writePointsCount, s.pointsCount, s.points, r, s.owned, s.parties.set i q⟩ g := by
    intro i p q r hp hrefusals hclaims hhas
    refine h.change hp (by omega) h.bound ?_ (Nat.le_refl g) (by omega) h.count fun k => ?_
    · intro hone
      have hle := le_tally Place.refusals (List.mem_of_getElem? hp)
      exact h.full (by omega)
    · rw [hhas k]
  cases a with
  | addCallbackPoint i point =>
    cases hnext
    exact ⟨g, hkeep (of_decide_eq_true henabled) rfl rfl fun k => rfl⟩
  | go i =>
    cases hnext
    exact ⟨g, hkeep (of_decide_eq_true henabled) rfl rfl fun k => rfl⟩
  | step i fails =>
    unfold State.next at hnext
    simp only at hnext
    split at hnext
    case h_2 => cases hnext
    case h_1 p hp =>
    cases p with
    | idle => cases hnext
    | add point =>
      cases hnext
      by_cases hle : m ≤ s.writePointsCount
      · rw [if_pos hle]
        refine ⟨g, h.change hp ?_ h.bound ?_ (Nat.le_refl g) ?_ h.count fun k => rfl⟩
        · simp only [Place.refusals]
          omega
        · intro _
          have hwrite := h.write
          have hfull := h.full
          omega
        · simp only [Place.claims]
      · obtain ⟨hidx, hlt⟩ := h.writeIdx (by omega)
        rw [if_neg hle, hidx]
        refine ⟨g + 1, h.change hp ?_ hlt ?_ (Nat.le_succ g) ?_ h.count fun k => ?_⟩
        · simp only [Place.refusals]
          omega
        · intro hone
          cases hone
        · simp only [Place.claims]
          omega
        · simp only [Place.has]
          split_ifs <;> omega
    | refused =>
      cases hnext
      have hone := le_tally Place.refusals (List.mem_of_getElem? hp)
      have hwrite := h.write
      simp only [Place.refusals] at hone
      refine ⟨g, h.change hp ?_ h.bound ?_ (Nat.le_refl g) ?_ h.count fun k => rfl⟩
      · simp only [Place.refusals]
        omega
      · intro hone
        cases hone
      · simp only [Place.claims]
    | store point writeIdx =>
      cases hnext
      refine ⟨g, h.change hp ?_ h.bound ?_ (Nat.le_refl g) ?_ h.count fun k => rfl⟩
      · simp only [Place.refusals]
      · intro hone
        cases hone
      · simp only [Place.claims]
    | publish slot writeIdx =>
      unfold State.advance at hnext
      simp only at hnext
      split at hnext
      · rename_i hcas
        cases hnext
        refine ⟨g, h.change hp ?_ h.bound ?_ (Nat.le_refl g) ?_ ?_ fun k => ?_⟩
        · simp only [Place.refusals]
        · intro hone
          cases hone
        · simp only [Place.claims, List.length_cons]
          omega
        · rw [List.length_cons, ← h.count, hcas.1]
        · simp only [Place.has, List.count_cons, beq_iff_eq]
          omega
      · cases hnext
        exact ⟨g, hkeep hp rfl rfl fun k => rfl⟩
    | count =>
      cases hnext
      refine ⟨g, hkeep hp ?_ ?_ fun k => ?_⟩ <;> split <;> rfl
    | robin pointsCount =>
      cases hnext
      exact ⟨g, hkeep hp rfl rfl fun k => rfl⟩
    | post idx =>
      unfold State.advance at hnext
      simp only at hnext
      split at hnext
      · cases hnext
        exact ⟨g, hkeep hp rfl rfl fun k => rfl⟩
      · cases hnext
    | notify idx =>
      unfold State.advance at hnext
      simp only at hnext
      split at hnext
      · cases hnext
        exact ⟨g, hkeep hp rfl rfl fun k => rfl⟩
      · cases hnext

theorem Run.counted {ok : State → Action → Prop} {m n : Nat}
    (h : Run (machine m) ok (State.initial n) s) : ∃ g, s.Inv m g := by
  refine h.invariant (P := fun s => ∃ g, s.Inv m g) ⟨0, .initial m n⟩ ?_
  intro s a t ⟨g, hs⟩ henabled _ hnext
  exact hs.step henabled hnext

/-! ## The slots of the calls that return true -/

/-- These calls have slots of their own, and there are slots enough. -/
structure State.Distinct (m : Nat) (s : State) : Prop where
  length_le : s.owned.length ≤ m
  nodup : s.owned.Nodup
  slot_lt : ∀ k ∈ s.owned, k < m

theorem State.Inv.distinct (h : s.Inv m g) : s.Distinct m := by
  have hbound := h.bound
  refine ⟨?_, ?_, ?_⟩
  · have htotal := h.total
    omega
  · refine List.nodup_iff_count.2 fun k => ?_
    have honce := h.once k
    split at honce <;> omega
  · intro k hk
    have hpos := List.count_pos_iff.2 hk
    have honce := h.once k
    split at honce <;> omega

/-- In every run. -/
theorem claims_distinct {ok : State → Action → Prop} {m n : Nat}
    (h : Run (machine m) ok (State.initial n) s) : s.Distinct m := by
  obtain ⟨g, hinv⟩ := Run.counted h
  exact hinv.distinct

/-! ## The slots that are published -/

namespace Place

/-- What the place relies on. -/
def Sound (points : Nat → Option Nat) (pointsCount : Nat) : Place → Prop
  | publish slot _ => (points slot).isSome
  | robin n => 1 ≤ n ∧ n ≤ pointsCount
  | post idx => idx < pointsCount
  | notify idx => idx < pointsCount
  | _ => True

/-- The call stands before the assignment of the slot `k`. -/
def stores (k : Nat) : Place → Bool
  | store _ writeIdx => writeIdx == k
  | _ => false

theorem Sound.mono {points points' : Nat → Option Nat} {n n' : Nat} (h : p.Sound points n)
    (hpoints : ∀ k, (points k).isSome → (points' k).isSome) (hn : n ≤ n') : p.Sound points' n' := by
  cases p with
  | publish slot writeIdx => exact hpoints slot h
  | robin pointsCount => exact ⟨h.1, Nat.le_trans h.2 hn⟩
  | post idx => exact Nat.lt_of_lt_of_le h hn
  | notify idx => exact Nat.lt_of_lt_of_le h hn
  | _ => trivial

end Place

/-- Every slot that is owned or published has been assigned. -/
structure State.Assigned (s : State) : Prop where
  owned : ∀ k ∈ s.owned, (s.points k).isSome
  published : ∀ k < s.pointsCount, (s.points k).isSome
  parties : ∀ p ∈ s.parties, p.Sound s.points s.pointsCount

/-- A call publishes only when the slot that it publishes is not about to be assigned. -/
def State.inOrder (s : State) : Action → Bool
  | .step i fails =>
    match s.parties[i]? with
    | some (.publish _ writeIdx) =>
      s.pointsCount != writeIdx || fails || s.parties.all fun p => !p.stores s.pointsCount
    | _ => true
  | _ => true

def InOrder (s : State) (a : Action) : Prop := s.inOrder a = true

instance (s : State) (a : Action) : Decidable (InOrder s a) :=
  inferInstanceAs (Decidable (s.inOrder a = true))

theorem State.Assigned.initial (n : Nat) : (State.initial n).Assigned := by
  refine ⟨?_, ?_, ?_⟩
  · intro k hk
    cases hk
  · intro k hk
    cases hk
  · intro p hmem
    rw [List.eq_of_mem_replicate hmem]
    trivial

/-- One party is replaced. -/
theorem State.Assigned.change (h : s.Assigned) {w n r : Nat} {points : Nat → Option Nat}
    {owned : List Nat} (hpoints : ∀ k, (s.points k).isSome → (points k).isSome)
    (hn : s.pointsCount ≤ n) (howned : ∀ k ∈ owned, (points k).isSome)
    (hpublished : ∀ k < n, (points k).isSome) (hq : q.Sound points n) :
    State.Assigned ⟨w, n, points, r, owned, s.parties.set i q⟩ := by
  refine ⟨howned, hpublished, fun p hmem => ?_⟩
  rcases List.mem_or_eq_of_mem_set hmem with hold | hnew
  · exact (h.parties p hold).mono hpoints hn
  · rw [hnew]
    exact hq

/-- The slot that a call publishes is assigned: it is claimed, and its call has stored. -/
theorem State.Inv.publishes (h : s.Inv m g) (hassigned : s.Assigned) {slot writeIdx : Nat}
    (hp : s.parties[i]? = some (.publish slot writeIdx))
    (hnone : ∀ p ∈ s.parties, p.stores s.pointsCount = false) :
    (s.points s.pointsCount).isSome := by
  have hclaim := le_tally Place.claims (List.mem_of_getElem? hp)
  have htotal := h.total
  have hcount := h.count
  have honce := h.once s.pointsCount
  simp only [Place.claims] at hclaim
  rw [if_pos (by omega)] at honce
  by_cases hmem : s.pointsCount ∈ s.owned
  · exact hassigned.owned _ hmem
  · rw [List.count_eq_zero_of_not_mem hmem] at honce
    by_contra hunassigned
    have hzero : tally (Place.has s.pointsCount) s.parties = 0 := by
      refine tally_eq_zero.2 fun p hpmem => ?_
      cases p with
      | store point k =>
        have hstores := hnone _ hpmem
        unfold Place.stores at hstores
        rw [beq_eq_false_iff_ne] at hstores
        exact if_neg hstores
      | publish slot k =>
        refine if_neg fun heq => hunassigned ?_
        rw [← heq]
        exact hassigned.parties _ hpmem
      | _ => rfl
    omega

/-- One step in order keeps it. -/
theorem State.Assigned.step (h : s.Assigned) (hinv : s.Inv m g) (horder : InOrder s a)
    (hnext : s.next m a = some t) : t.Assigned := by
  have hkeep : ∀ {i w r : Nat} {q : Place}, q.Sound s.points s.pointsCount →
      State.Assigned ⟨w, s.pointsCount, s.points, r, s.owned, s.parties.set i q⟩ := by
    intro i w r q hq
    exact h.change (fun k hk => hk) (Nat.le_refl _) h.owned h.published hq
  cases a with
  | addCallbackPoint i point =>
    cases hnext
    exact hkeep trivial
  | go i =>
    cases hnext
    exact hkeep trivial
  | step i fails =>
    unfold State.next at hnext
    simp only at hnext
    split at hnext
    case h_2 => cases hnext
    case h_1 p hp =>
    have hsound := h.parties p (List.mem_of_getElem? hp)
    cases p with
    | idle => cases hnext
    | add point =>
      cases hnext
      refine hkeep ?_
      split <;> trivial
    | refused =>
      cases hnext
      exact hkeep trivial
    | store point writeIdx =>
      cases hnext
      have hgrow : ∀ k, (s.points k).isSome →
          (Function.update s.points writeIdx (some point) k).isSome := by
        intro k hk
        by_cases heq : k = writeIdx
        · rw [heq, Function.update_self]
          rfl
        · rw [Function.update_of_ne heq]
          exact hk
      refine h.change hgrow (Nat.le_refl _) (fun k hk => hgrow k (h.owned k hk))
        (fun k hk => hgrow k (h.published k hk)) ?_
      show (Function.update s.points writeIdx (some point) writeIdx).isSome = true
      rw [Function.update_self]
      rfl
    | publish slot writeIdx =>
      unfold State.advance at hnext
      simp only at hnext
      split at hnext
      · rename_i hcas
        cases hnext
        have hnone : ∀ p ∈ s.parties, p.stores s.pointsCount = false := by
          unfold InOrder State.inOrder at horder
          simp only [hp, hcas.1, hcas.2, bne_self_eq_false, Bool.false_or, List.all_eq_true,
            Bool.not_eq_true'] at horder
          rw [hcas.1]
          exact horder
        have hslot := hinv.publishes h hp hnone
        refine h.change (fun k hk => hk) ?_ ?_ ?_ trivial
        · show s.pointsCount ≤ writeIdx + 1
          omega
        · intro k hk
          rcases List.mem_cons.1 hk with heq | hold
          · rw [heq]
            exact hsound
          · exact h.owned k hold
        · show ∀ k < writeIdx + 1, (s.points k).isSome = true
          intro k hk
          by_cases heq : k = s.pointsCount
          · rw [heq]
            exact hslot
          · exact h.published k (by omega)
      · cases hnext
        exact hkeep hsound
    | count =>
      cases hnext
      refine hkeep ?_
      split
      · trivial
      · exact ⟨by omega, Nat.le_refl _⟩
    | robin pointsCount =>
      cases hnext
      refine hkeep ?_
      have hlt := Nat.mod_lt ((s.robin + 1) % 2 ^ 64) hsound.1
      exact Nat.lt_of_lt_of_le hlt hsound.2
    | post idx =>
      unfold State.advance at hnext
      simp only at hnext
      split at hnext
      · cases hnext
        exact hkeep hsound
      · cases hnext
    | notify idx =>
      unfold State.advance at hnext
      simp only at hnext
      split at hnext
      · cases hnext
        exact hkeep trivial
      · cases hnext

/-- No step uses a slot that was never assigned. -/
theorem State.Assigned.next_isSome (h : s.Assigned) (henabled : s.enabled a = true) :
    (s.next m a).isSome := by
  cases a with
  | addCallbackPoint i point => rfl
  | go i => rfl
  | step i fails =>
    cases hp : s.parties[i]? with
    | none =>
      unfold State.enabled at henabled
      simp only [hp] at henabled
      cases henabled
    | some p =>
      have hsound := h.parties p (List.mem_of_getElem? hp)
      unfold State.next
      simp only [hp]
      unfold State.advance
      cases p with
      | idle =>
        unfold State.enabled at henabled
        simp only [hp] at henabled
        cases henabled
      | publish slot writeIdx =>
        simp only
        split <;> rfl
      | post idx =>
        simp only
        rw [if_pos (h.published idx hsound)]
        rfl
      | notify idx =>
        simp only
        rw [if_pos (h.published idx hsound)]
        rfl
      | _ => rfl

/-- When no call publishes out of order, the published slots are assigned, and no `Go` uses
another one. -/
theorem slots_assigned (m n : Nat) (h : Run (machine m) InOrder (State.initial n) s) :
    s.Distinct m ∧ (∀ k < s.pointsCount, (s.points k).isSome) ∧
      (∀ a, s.enabled a = true → (s.next m a).isSome) := by
  have hrun : (∃ g, s.Inv m g) ∧ s.Assigned := by
    refine h.invariant (P := fun s => (∃ g, s.Inv m g) ∧ s.Assigned) ?_ ?_
    · exact ⟨⟨0, .initial m n⟩, .initial n⟩
    · intro s a t ⟨⟨g, hinv⟩, hassigned⟩ henabled horder hnext
      exact ⟨hinv.step henabled hnext, hassigned.step hinv horder hnext⟩
  refine ⟨claims_distinct h, hrun.2.published, ?_⟩
  intro a henabled
  exact hrun.2.next_isSome henabled

/-- Two calls take the slots of one another: the second one to claim is the first to store, and
publishes when both have stored. -/
theorem slots_assigned_crossed : ∃ s, Run (machine 2) InOrder (State.initial 3) s ∧
    (s.Distinct 2 ∧ (∀ k < s.pointsCount, (s.points k).isSome) ∧
      (∀ a, s.enabled a = true → (s.next 2 a).isSome)) ∧
    s.owned = [0, 1] ∧ s.parties = [.idle, .idle, .post 0] := by
  have hexec : ((machine 2).exec InOrder (State.initial 3)
      [.addCallbackPoint 0 7, .addCallbackPoint 1 8, .addCallbackPoint 2 9, .step 0 false,
        .step 1 false, .step 2 false, .step 2 false, .step 1 false, .step 1 false, .step 0 false,
        .step 1 false, .step 0 true, .step 0 false, .go 2, .step 2 false, .step 2 false,
        .step 2 false, .step 2 false, .go 2, .step 2 false, .step 2 false]).any
      (fun s => decide (s.owned = [0, 1] ∧ s.parties = [.idle, .idle, .post 0])) = true := by
    decide +kernel
  obtain ⟨s, hrun, hs⟩ := Run.exists_of_exec hexec
  exact ⟨s, hrun, slots_assigned 2 3 hrun, of_decide_eq_true hs⟩

/-- The second of two calls publishes before the first has stored: its `compare_exchange_weak` fails
once, and then finds what it has read.  A `Go` comes to the slot that is not assigned. -/
theorem unassigned_published : ∃ s, Run (machine 2) anyAction (State.initial 3) s ∧
    s.pointsCount = 1 ∧ s.points 0 = none ∧ s.enabled (.step 2 false) = true ∧
    s.next 2 (.step 2 false) = none := by
  have hexec : ((machine 2).exec anyAction (State.initial 3)
      [.addCallbackPoint 0 7, .addCallbackPoint 1 8, .step 0 false, .step 1 false, .step 1 false,
        .step 1 false, .step 1 false, .go 2, .step 2 false, .step 2 false]).any
      (fun s => decide (s.pointsCount = 1) && (s.points 0).isNone &&
        s.enabled (.step 2 false) && (s.next 2 (.step 2 false)).isNone) = true := by
    decide +kernel
  obtain ⟨s, hrun, hs⟩ := Run.exists_of_exec hexec
  simp only [Bool.and_eq_true, decide_eq_true_eq, Option.isNone_iff_eq_none] at hs
  exact ⟨s, hrun, hs.1.1.1, hs.1.1.2, hs.1.2, hs.2⟩

end Costream.CallbackPoints
