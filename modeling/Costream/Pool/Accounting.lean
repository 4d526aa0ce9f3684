import Costream.Pool.Counters

/-!
# The accounts of the pool

As long as the factory makes a connection whenever it is called, `count_` is the number of the
connections, with one for each call that is about to take its `++count_` back.  So it is right
whenever no call is in progress, and a `Get` that runs alone calls the factory when there is room
for one more connection; with `maxConnection` zero, which stands for no limit, it never does.

* `accounting` is about every run in which the factory makes connections and no `Get` comes to
  `CreateOne` with `maxConnection` zero.
* `count_without_connection` has a run for each of the two exceptions.
-/

namespace Costream.Pool

open Trace Costream.Tally

/-- The connections that there are while no call has one. -/
def State.live (s : State) : Nat := s.channel.length + s.out.length

/-- Every party but `i` is in no call, or waits. -/
def State.Alone (s : State) (i : Nat) : Prop :=
  ∀ j p, j ≠ i → s.parties[j]? = some p → p = .idle ∨ p.waits = true

def Made.isConnection : Made → Bool
  | .connection _ => true
  | _ => false

def State.fits (l : Limits) (s : State) : Action → Bool
  | .step i o =>
    match s.parties[i]? with
    | some (.inCall (.get _) .create) => l.maxConnection ≠ 0
    | some (.inCall _ .factory) => o.made.isConnection
    | _ => true
  | _ => true

/-- The factory makes a connection, and no `Get` is refused by a `maxConnection` of zero. -/
def Fits (l : Limits) (s : State) (a : Action) : Prop := s.fits l a = true

instance (l : Limits) (s : State) (a : Action) : Decidable (Fits l s a) :=
  inferInstanceAs (Decidable (s.fits l a = true))

/-- `Count()` is right while no call is in progress, and a `Get` that has found no idle connection
calls the factory when it should. -/
structure State.Accounted (l : Limits) (s : State) : Prop where
  count : (∀ p ∈ s.parties, p = .idle) →
    s.count = s.live ∧ (l.maxConnection ≠ 0 → s.count ≤ l.maxConnection)
  factory : ∀ i timed o t, s.parties[i]? = some (.inCall (.get timed) .create) → s.Alone i →
    Fits l s (.step i o) → s.next l (.step i o) = some t →
    (t.parties[i]? = some (.inCall (.get timed) .factory) ↔
      l.maxConnection = 0 ∨ s.live < l.maxConnection)

variable {l : Limits} {s t : State} {i n : Nat} {c d : Counters} {label : Label}
  {a : Action}

/-! ## The invariant -/

/-- What `count_` counts. -/
structure Counters.Inv (l : Limits) (c : Counters) : Prop where
  count : c.count = c.channel + c.out + c.held + c.refused
  bound : c.channel + c.out + c.held ≤ l.maxConnection

/-- One step keeps the accounts, if the factory makes a connection. -/
theorem Counters.Inv.step (h : c.Inv l) (hstep : c.Step l label d) (hlabel : label ≠ .noConnection) :
    d.Inv l := by
  obtain ⟨hcount, hbound⟩ := h
  cases hstep with
  | noConnection b hheld => exact absurd rfl hlabel
  | get => exact ⟨hcount, hbound⟩
  | quiet => exact ⟨hcount, hbound⟩
  | loop => exact ⟨hcount, hbound⟩
  | lookEmpty hlooking hempty => exact ⟨hcount, hbound⟩
  | sleep hleaving hempty => exact ⟨hcount, hbound⟩
  | give b hheld hwaits => exact ⟨hcount, hbound⟩
  | timeout hwaiting => exact ⟨hcount, hbound⟩
  | put hout => constructor <;> simp only <;> omega
  | look hlooking hfull => constructor <;> simp only <;> omega
  | handOut hheld => constructor <;> simp only <;> omega
  | grant hcreating hroom => constructor <;> simp only <;> omega
  | refuse hcreating hfull => constructor <;> simp only <;> omega
  | takeBack b hrefused => constructor <;> simp only <;> omega
  | store b hheld hwaits hroom => constructor <;> simp only <;> omega
  | take hleaving hfull => constructor <;> simp only <;> omega
  | delete get hheld => constructor <;> simp only <;> omega

theorem counters_initial (n : Nat) : (State.initial n).counters = ⟨0, 0, 0, 0, 0, 0, 0, 0, 0⟩ := by
  have hzero : ∀ f : Party → Nat, f .idle = 0 → tally f (List.replicate n .idle) = 0 := by
    intro f hf
    refine tally_eq_zero.2 fun p hp => ?_
    rw [List.eq_of_mem_replicate hp, hf]
  apply Counters.ext
  · rfl
  · rfl
  · rfl
  · exact hzero Party.held rfl
  · exact hzero Party.refused rfl
  · exact hzero Party.creating rfl
  · exact hzero Party.looking rfl
  · exact hzero Party.leaving rfl
  · exact hzero Party.waiting rfl

theorem Counters.Inv.initial (l : Limits) (n : Nat) : (State.initial n).counters.Inv l := by
  rw [counters_initial]
  exact ⟨rfl, Nat.zero_le _⟩

theorem label_ne (h : Fits l s a) : s.label a ≠ .noConnection := by
  cases a with
  | step i o =>
    unfold Fits at h
    simp only [State.fits] at h
    simp only [State.label]
    split
    · simp
    · rename_i c hp
      have hmade : o.made.isConnection = true := by
        rw [hp] at h
        cases c <;> exact h
      split
      · simp
      · rename_i hnone
        cases hm : o.made with
        | connection x => exact absurd hm (hnone x)
        | null =>
          rw [hm] at hmade
          cases hmade
        | throws =>
          rw [hm] at hmade
          cases hmade
    · simp
  | _ => simp [State.label]

/-! ## The accounts -/

theorem accounted_count (h : s.counters.Inv l) (hidle : ∀ p ∈ s.parties, p = .idle) :
    s.count = s.live ∧ (l.maxConnection ≠ 0 → s.count ≤ l.maxConnection) := by
  have hheld : s.counters.held = 0 := by
    refine tally_eq_zero.2 fun p hp => ?_
    rw [hidle p hp]
    rfl
  have hrefused : s.counters.refused = 0 := by
    refine tally_eq_zero.2 fun p hp => ?_
    rw [hidle p hp]
    rfl
  have hcount : s.count = s.channel.length + s.out.length + s.counters.held + s.counters.refused :=
    h.count
  have hbound : s.channel.length + s.out.length + s.counters.held ≤ l.maxConnection := h.bound
  unfold State.live
  constructor
  · omega
  · intro hmax
    omega

theorem accounted_factory (h : s.counters.Inv l) {timed : Bool} {o : Outside}
    (hp : s.parties[i]? = some (.inCall (.get timed) .create)) (halone : s.Alone i)
    (hfits : Fits l s (.step i o)) (hnext : s.next l (.step i o) = some t) :
    t.parties[i]? = some (.inCall (.get timed) .factory) ↔
      l.maxConnection = 0 ∨ s.live < l.maxConnection := by
  have hmax : l.maxConnection ≠ 0 := by
    simpa only [Fits, State.fits, hp, decide_eq_true_eq] using hfits
  have hshare : ∀ f : Party → Nat, f .idle = 0 → (∀ p : Party, p.waits = true → f p = 0) →
      f (.inCall (.get timed) .create) = 0 → tally f s.parties = 0 := by
    intro f hidle hwaits hcreate
    refine tally_eq_zero.2 fun p hmem => ?_
    obtain ⟨j, hj⟩ := List.mem_iff_getElem?.1 hmem
    by_cases hij : j = i
    · rw [hij, hp] at hj
      cases hj
      exact hcreate
    · rcases halone j p hij hj with hidle' | hwait
      · rw [hidle', hidle]
      · exact hwaits p hwait
  have hheld : s.counters.held = 0 := by
    refine hshare Party.held rfl (fun p hwait => ?_) rfl
    unfold Party.waits at hwait
    split at hwait
    · rfl
    · cases hwait
  have hrefused : s.counters.refused = 0 := by
    refine hshare Party.refused rfl (fun p hwait => ?_) rfl
    unfold Party.waits at hwait
    split at hwait
    · rfl
    · cases hwait
  have hcount : s.count = s.channel.length + s.out.length + s.counters.held + s.counters.refused :=
    h.count
  have hlt := (List.getElem?_eq_some_iff.1 hp).1
  simp only [State.next, hp, State.advance, Option.some.injEq] at hnext
  rw [← hnext]
  unfold State.live
  simp only [State.put]
  rw [List.getElem?_set_self hlt]
  split
  · rename_i hfull
    constructor
    · intro heq
      cases heq
    · intro hroom
      omega
  · rename_i hroom
    constructor
    · intro _
      omega
    · intro _
      rfl

/-- In every run in which the factory makes connections, and no `Get` is refused by a
`maxConnection` of zero. -/
theorem accounting (l : Limits) (n : Nat) (h : Run (machine l) (Fits l) (State.initial n) s) :
    s.Accounted l := by
  have hinv : s.counters.Inv l := by
    refine h.invariant (P := fun s => s.counters.Inv l) (Counters.Inv.initial l n) ?_
    intro t a u ht henabled hfits hnext
    exact ht.step (State.step_refines henabled hnext) (label_ne hfits)
  exact ⟨accounted_count hinv, fun i timed o t hp halone hfits hnext =>
    accounted_factory hinv hp halone hfits hnext⟩

/-- A connection is handed out, and handed to a `Get` that waits for it. -/
theorem accounting_handedOn : ∃ s, Run (machine ⟨1, 0⟩) (Fits ⟨1, 0⟩) (State.initial 3) s ∧
    s.Accounted ⟨1, 0⟩ ∧ s.count = 1 ∧ s.out = [7] := by
  have hexec : ((machine ⟨1, 0⟩).exec (Fits ⟨1, 0⟩) (State.initial 3)
      [.get 0 false, .step 0 ⟨true, .null, 0⟩, .step 0 ⟨true, .null, 0⟩,
        .step 0 ⟨true, .connection 7, 0⟩, .get 1 true, .step 1 ⟨true, .null, 0⟩,
        .step 1 ⟨true, .null, 0⟩, .step 1 ⟨true, .null, 0⟩, .step 1 ⟨true, .null, 0⟩, .put 0 0,
        .step 0 ⟨true, .null, 0⟩, .step 0 ⟨true, .null, 1⟩, .step 1 ⟨true, .null, 0⟩]).any
      (fun s => decide (s.count = 1 ∧ s.out = [7])) = true := by
    decide +kernel
  obtain ⟨s, hrun, hs⟩ := Run.exists_of_exec hexec
  exact ⟨s, hrun, accounting ⟨1, 0⟩ 3 hrun, of_decide_eq_true hs⟩

/-- The factory returns null to `Reserve`, and `count_` stays at one.  With no limit, a `Get` is
refused although there is no connection. -/
theorem count_without_connection :
    (∃ s, Run (machine ⟨2, 0⟩) anyAction (State.initial 1) s ∧ (∀ p ∈ s.parties, p = .idle) ∧
      s.count = 1 ∧ s.live = 0) ∧
    ∃ s, Run (machine ⟨0, 0⟩) anyAction (State.initial 1) s ∧
      s.parties = [.inCall (.get false) .refused] ∧ s.live = 0 := by
  constructor
  · have hexec : ((machine ⟨2, 0⟩).exec anyAction (State.initial 1)
        [.reserve 0, .step 0 ⟨true, .null, 0⟩, .step 0 ⟨true, .null, 0⟩,
          .step 0 ⟨true, .null, 0⟩]).any
        (fun s => decide ((∀ p ∈ s.parties, p = .idle) ∧ s.count = 1 ∧ s.live = 0)) = true := by
      decide +kernel
    obtain ⟨s, hrun, hs⟩ := Run.exists_of_exec hexec
    exact ⟨s, hrun, of_decide_eq_true hs⟩
  · have hexec : ((machine ⟨0, 0⟩).exec anyAction (State.initial 1)
        [.get 0 false, .step 0 ⟨true, .null, 0⟩, .step 0 ⟨true, .null, 0⟩]).any
        (fun s => decide (s.parties = [.inCall (.get false) .refused] ∧ s.live = 0)) = true := by
      decide +kernel
    obtain ⟨s, hrun, hs⟩ := Run.exists_of_exec hexec
    exact ⟨s, hrun, of_decide_eq_true hs⟩

end Costream.Pool
