import Costream.Pool.Accounting

/-!
# What `Reserve` makes

`reserving` is a call of `Reserve` that runs alone, with the answers of the factory given as a
sequence.  It keeps a record of the connections that are made.

* `Counters.Backed` is about every run of the pool: what is in the channel or handed out is counted.
  So the channel has room as long as `count_` is less than `maxIdleConnection_`.
* `Ended` lists the ends of a call: its loop is over, or `CreateOne` was refused, or the factory has
  made no connection, which leaves `count_` one too high.
* `reserve_kept_iff`: the call returns, and `Kept` says what it should have done.  The argument of
  `Reserve` is not used, so `count_` goes up to the limits of the pool.
-/

namespace Costream.Pool

open Trace

/-! ## The call -/

/-- A call of `Reserve` and what it has done. -/
structure Reserving where
  pool : State
  /-- The connections that the factory has made. -/
  created : List Nat
  /-- How often the factory was called. -/
  calls : Nat
  /-- `CreateOne` has returned null, or has thrown. -/
  failed : Bool
deriving DecidableEq

/-- The record of a step from the place `p` of the call to the pool `t`. -/
def Reserving.record (r : Reserving) (m : Made) (p : Option Party) (t : State) : Reserving :=
  match p with
  | some (.inCall _ .factory) =>
    match m with
    | .connection x => { r with pool := t, created := r.created ++ [x], calls := r.calls + 1 }
    | _ => { r with pool := t, calls := r.calls + 1, failed := true }
  | some (.inCall _ .refused) => { r with pool := t, failed := true }
  | _ => { r with pool := t }

/-- The party `i` goes on by itself, and the factory answers in turn what `made` says. -/
def reserving (l : Limits) (i : Nat) (made : Nat → Made) : Machine Reserving Unit where
  enabled r _ := r.pool.enabled (.step i ⟨true, made r.calls, 0⟩) = true
  step r _ := (r.pool.next l (.step i ⟨true, made r.calls, 0⟩)).map
    (r.record (made r.calls) r.pool.parties[i]?)

/-- The call `Reserve(nConnection)` of the party `i`, which does not use its argument, has
returned. -/
def Returns (l : Limits) (_nConnection i : Nat) (made : Nat → Made) (s : State) (r : Reserving) :
    Prop :=
  (∃ t, s.next l (.reserve i) = some t ∧
    Run (reserving l i made) anyAction ⟨t, [], 0, false⟩ r) ∧ r.pool.parties[i]? = some .idle

/-- What `Reserve(nConnection)` is to do. -/
structure Kept (l : Limits) (nConnection : Nat) (s : State) (r : Reserving) : Prop where
  atMost : r.pool.count ≤ max s.count (min nConnection l.maxIdleConnection)
  equal : r.failed = false → r.pool.count = max s.count (min nConnection l.maxIdleConnection)
  idle : r.pool.channel = s.channel ++ r.created

/-! ## The room in the channel -/

/-- What is in the channel or handed out is counted, and what a call holds as well. -/
def Counters.Backed (c : Counters) : Prop := c.channel + c.out + c.held + c.refused ≤ c.count

variable {l : Limits} {s t : State} {i n : Nat} {c d : Counters} {label : Label}
  {made : Nat → Made} {xs : List Nat} {r : Reserving}

theorem Counters.Backed.step (h : c.Backed) (hstep : c.Step l label d) : d.Backed := by
  unfold Counters.Backed at *
  cases hstep with
  | get => exact h
  | quiet => exact h
  | loop => exact h
  | lookEmpty hlooking hempty => exact h
  | sleep hleaving hempty => exact h
  | give b hheld hwaits => exact h
  | timeout hwaiting => exact h
  | put hout => simp only; omega
  | look hlooking hfull => simp only; omega
  | handOut hheld => simp only; omega
  | grant hcreating hroom => simp only; omega
  | refuse hcreating hfull => simp only; omega
  | takeBack b hrefused => simp only; omega
  | noConnection b hheld => simp only; omega
  | store b hheld hwaits hroom => simp only; omega
  | take hleaving hfull => simp only; omega
  | delete get hheld => simp only; omega

theorem backed_of_run (h : Run (machine l) anyAction (State.initial n) s) : s.counters.Backed := by
  refine h.invariant (P := fun s => s.counters.Backed) ?_ ?_
  · rw [counters_initial]
    exact Nat.le_refl 0
  · intro t a u ht he _ hs
    exact ht.step (State.step_refines he hs)

theorem channel_le_count (h : Run (machine l) anyAction (State.initial n) s) :
    s.channel.length ≤ s.count := by
  have hbacked : s.channel.length + s.out.length + s.counters.held + s.counters.refused ≤
      s.count := backed_of_run h
  omega

/-! ## The steps of the call -/

/-- The call has made `xs` and stands at `p`, while `count_` is `count`. -/
def State.during (s : State) (i count : Nat) (xs : List Nat) (p : Party) : State :=
  ⟨count, s.channel ++ xs, s.out, s.parties.set i p⟩

/-- The call before `CreateOne`. -/
def Reserving.atCreate (s : State) (i : Nat) (xs : List Nat) : Reserving :=
  ⟨s.during i (s.count + xs.length) xs (.inCall (.reserve (s.count + xs.length)) .create), xs,
    xs.length, false⟩

/-- The pool in which the call begins. -/
structure Quiet (l : Limits) (s : State) (i : Nat) : Prop where
  idle : ∀ p ∈ s.parties, p = .idle
  party : i < s.parties.length
  room : s.channel.length ≤ s.count

variable {p q : Party} {m : Nat}

theorem getElem?_during (h : i < s.parties.length) :
    (s.during i m xs p).parties[i]? = some p :=
  List.getElem?_set_self h

theorem put_during : (s.during i m xs p).put i q = s.during i m xs q := by
  unfold State.during State.put
  rw [List.set_set]

/-- Nobody waits in the channel. -/
theorem Quiet.not_waits (h : Quiet l s i) (hp : p.waits = false) :
    ¬ (s.during i m xs p).parties.any Party.waits = true := by
  intro hany
  obtain ⟨q, hmem, hq⟩ := List.any_eq_true.1 hany
  rcases List.mem_or_eq_of_mem_set hmem with hmem | heq
  · rw [h.idle q hmem] at hq
    cases hq
  · rw [heq, hp] at hq
    cases hq

/-- The call goes on by itself. -/
theorem run_step {c : Call} {place : Place} {k : Nat} (h : Quiet l s i) (ys : List Nat)
    (failed : Bool)
    (hnext : (s.during i m xs (.inCall c place)).advance l i c ⟨true, made k, 0⟩ place = some t)
    (hplace : place ≠ .waiting) :
    Run (reserving l i made) anyAction ⟨s.during i m xs (.inCall c place), ys, k, failed⟩
      (Reserving.record ⟨s.during i m xs (.inCall c place), ys, k, failed⟩ (made k)
        (some (.inCall c place)) t) := by
  have hp : (s.during i m xs (.inCall c place)).parties[i]? = some (.inCall c place) :=
    getElem?_during h.party
  have hwaits : (Party.inCall c place).waits = false := by
    cases place with
    | waiting => exact absurd rfl hplace
    | _ => rfl
  have hquiet : ¬ (s.during i m xs (.inCall c place)).parties.any Party.waits = true :=
    h.not_waits hwaits
  refine .tail (a := ()) .refl ?_ trivial ?_
  · simp only [reserving, State.enabled, hp]
    cases place with
    | waiting => exact absurd rfl hplace
    | tryPush x => simp [hquiet]
    | _ => rfl
  · simp only [reserving, State.next, hp, hnext, Option.map_some]

/-- The first step: the loop begins at `Count()`. -/
theorem run_count (h : Quiet l s i) : Run (reserving l i made) anyAction
    ⟨s.put i (.inCall (.reserve 0) .count), [], 0, false⟩
    ⟨s.during i s.count [] (l.loop s.count), [], 0, false⟩ := by
  have hbegin : s.put i (.inCall (.reserve 0) .count) =
      s.during i s.count [] (.inCall (.reserve 0) .count) := by
    unfold State.put State.during
    rw [List.append_nil]
  have hnext : (s.during i s.count [] (.inCall (.reserve 0) .count)).advance l i (.reserve 0)
      ⟨true, made 0, 0⟩ .count = some (s.during i s.count [] (l.loop s.count)) := by
    rw [State.advance, put_during]
    rfl
  rw [hbegin]
  exact run_step h [] false hnext (by simp)

theorem advance_create {c : Call} {o : Outside} :
    (s.during i m xs (.inCall c .create)).advance l i c o .create = some (s.during i (m + 1) xs
      (.inCall c (if l.maxConnection < m + 1 then .refused else .factory))) := by
  simp only [State.advance, State.during, State.put, List.set_set]
  rfl

/-- `++count_` leaves more than `maxConnection_`. -/
theorem run_refused (h : Quiet l s i) (hmax : l.maxConnection ≤ s.count + xs.length) :
    Run (reserving l i made) anyAction (.atCreate s i xs)
      ⟨s.during i (s.count + xs.length) xs .idle, xs, xs.length, true⟩ := by
  have hcreate : (s.during i (s.count + xs.length) xs
      (.inCall (.reserve (s.count + xs.length)) .create)).advance l i
        (.reserve (s.count + xs.length)) ⟨true, made xs.length, 0⟩ .create =
      some (s.during i (s.count + xs.length + 1) xs
        (.inCall (.reserve (s.count + xs.length)) .refused)) := by
    rw [advance_create, if_pos (by omega)]
  have hback : (s.during i (s.count + xs.length + 1) xs
      (.inCall (.reserve (s.count + xs.length)) .refused)).advance l i
        (.reserve (s.count + xs.length)) ⟨true, made xs.length, 0⟩ .refused =
      some (s.during i (s.count + xs.length) xs .idle) := by
    simp [State.advance, State.during, State.put, Call.noConnection]
  exact (run_step h xs false hcreate (by simp)).trans (run_step h xs false hback (by simp))

/-- The factory is called. -/
theorem run_factory (h : Quiet l s i) (hmax : s.count + xs.length < l.maxConnection) :
    Run (reserving l i made) anyAction (.atCreate s i xs)
      ⟨s.during i (s.count + xs.length + 1) xs
        (.inCall (.reserve (s.count + xs.length)) .factory), xs, xs.length, false⟩ := by
  have hcreate : (s.during i (s.count + xs.length) xs
      (.inCall (.reserve (s.count + xs.length)) .create)).advance l i
        (.reserve (s.count + xs.length)) ⟨true, made xs.length, 0⟩ .create =
      some (s.during i (s.count + xs.length + 1) xs
        (.inCall (.reserve (s.count + xs.length)) .factory)) := by
    rw [advance_create, if_neg (by omega)]
  exact run_step h xs false hcreate (by simp)

/-- The factory makes no connection. -/
theorem run_null (h : Quiet l s i) (hmax : s.count + xs.length < l.maxConnection)
    (hnull : (made xs.length).isConnection = false) :
    Run (reserving l i made) anyAction (.atCreate s i xs)
      ⟨s.during i (s.count + xs.length + 1) xs .idle, xs, xs.length + 1, true⟩ := by
  refine (run_factory h hmax).trans ?_
  cases hmade : made xs.length with
  | connection x =>
    rw [hmade] at hnull
    cases hnull
  | null =>
    have hnext : (s.during i (s.count + xs.length + 1) xs
        (.inCall (.reserve (s.count + xs.length)) .factory)).advance l i
          (.reserve (s.count + xs.length)) ⟨true, made xs.length, 0⟩ .factory =
        some (s.during i (s.count + xs.length + 1) xs .idle) := by
      simp only [State.advance, hmade, put_during, Call.noConnection]
    have hrun := run_step h xs false hnext (by simp)
    rw [hmade] at hrun
    exact hrun
  | throws =>
    have hnext : (s.during i (s.count + xs.length + 1) xs
        (.inCall (.reserve (s.count + xs.length)) .factory)).advance l i
          (.reserve (s.count + xs.length)) ⟨true, made xs.length, 0⟩ .factory =
        some (s.during i (s.count + xs.length + 1) xs .idle) := by
      simp only [State.advance, hmade, put_during]
    have hrun := run_step h xs false hnext (by simp)
    rw [hmade] at hrun
    exact hrun

/-- One turn of the loop: a connection is made, and there is room for it. -/
theorem run_connection (h : Quiet l s i) (hmax : s.count + xs.length < l.maxConnection)
    (hlt : s.count + xs.length < l.maxIdleConnection) {x : Nat}
    (hmade : made xs.length = .connection x) :
    Run (reserving l i made) anyAction (.atCreate s i xs)
      ⟨s.during i (s.count + (xs ++ [x]).length) (xs ++ [x])
        (l.loop (s.count + (xs ++ [x]).length)), xs ++ [x], (xs ++ [x]).length, false⟩ := by
  have hlength : (xs ++ [x]).length = xs.length + 1 := List.length_append
  have hnext : (s.during i (s.count + xs.length + 1) xs
      (.inCall (.reserve (s.count + xs.length)) .factory)).advance l i
        (.reserve (s.count + xs.length)) ⟨true, made xs.length, 0⟩ .factory =
      some (s.during i (s.count + xs.length + 1) xs
        (.inCall (.reserve (s.count + xs.length)) (.tryPush x))) := by
    simp only [State.advance, hmade, put_during]
  have hfactory := run_step h xs false hnext (by simp)
  rw [hmade] at hfactory
  have hroom := h.room
  have hpush : (s.during i (s.count + xs.length + 1) xs
      (.inCall (.reserve (s.count + xs.length)) (.tryPush x))).advance l i
        (.reserve (s.count + xs.length)) ⟨true, made (xs.length + 1), 0⟩ (.tryPush x) =
      some (s.during i (s.count + xs.length + 1) (xs ++ [x])
        (l.loop (s.count + xs.length + 1))) := by
    have hquiet : ¬ (s.during i (s.count + xs.length + 1) xs
        (.inCall (.reserve (s.count + xs.length)) (.tryPush x))).parties.any Party.waits = true :=
      h.not_waits rfl
    have hspace : (s.during i (s.count + xs.length + 1) xs
        (.inCall (.reserve (s.count + xs.length)) (.tryPush x))).channel.length <
        l.maxIdleConnection := by
      unfold State.during
      rw [List.length_append]
      omega
    rw [State.advance, if_neg hquiet, if_pos hspace]
    simp only [State.during, State.put, List.set_set, List.append_assoc, Limits.pushed]
  rw [hlength]
  exact ((run_factory h hmax).trans hfactory).trans (run_step h (xs ++ [x]) false hpush (by simp))

/-! ## The loop -/

/-- How a call that has made `xs` can end. -/
inductive Ended (l : Limits) (made : Nat → Made) (s : State) (i : Nat) : Reserving → Prop where
  /-- The test of the loop. -/
  | complete (xs : List Nat) (hmade : ∀ k < xs.length, (made k).isConnection = true)
    (hcount : s.count + xs.length = max s.count l.maxIdleConnection)
    (hmax : xs = [] ∨ s.count + xs.length ≤ l.maxConnection) :
    Ended l made s i ⟨s.during i (s.count + xs.length) xs .idle, xs, xs.length, false⟩
  /-- `CreateOne` was refused. -/
  | refused (xs : List Nat) (hmade : ∀ k < xs.length, (made k).isConnection = true)
    (hlt : s.count + xs.length < l.maxIdleConnection)
    (hfull : l.maxConnection ≤ s.count + xs.length)
    (hmax : xs = [] ∨ s.count + xs.length ≤ l.maxConnection) :
    Ended l made s i ⟨s.during i (s.count + xs.length) xs .idle, xs, xs.length, true⟩
  /-- The factory has made no connection, and `count_` stays. -/
  | null (xs : List Nat) (hmade : ∀ k < xs.length, (made k).isConnection = true)
    (hlt : s.count + xs.length < l.maxIdleConnection)
    (hmax : s.count + xs.length < l.maxConnection)
    (hnull : (made xs.length).isConnection = false) :
    Ended l made s i ⟨s.during i (s.count + xs.length + 1) xs .idle, xs, xs.length + 1, true⟩

/-- From the test of the loop on, by induction on the turns that are left. -/
theorem exists_ended (h : Quiet l s i) (hmade : ∀ k < xs.length, (made k).isConnection = true)
    (hlt : s.count + xs.length < l.maxIdleConnection)
    (hmax : xs = [] ∨ s.count + xs.length ≤ l.maxConnection) :
    ∃ r, Run (reserving l i made) anyAction (.atCreate s i xs) r ∧ Ended l made s i r := by
  induction hleft : l.maxIdleConnection - (s.count + xs.length) generalizing xs with
  | zero => omega
  | succ left ih =>
    by_cases hfull : l.maxConnection ≤ s.count + xs.length
    · exact ⟨_, run_refused h hfull, .refused xs hmade hlt hfull hmax⟩
    · rw [Nat.not_le] at hfull
      cases hnext : made xs.length with
      | null =>
        have hnull : (made xs.length).isConnection = false := by rw [hnext]; rfl
        exact ⟨_, run_null h hfull hnull, .null xs hmade hlt hfull hnull⟩
      | throws =>
        have hnull : (made xs.length).isConnection = false := by rw [hnext]; rfl
        exact ⟨_, run_null h hfull hnull, .null xs hmade hlt hfull hnull⟩
      | connection x =>
        have hrun := run_connection h hfull hlt hnext
        have hlength : (xs ++ [x]).length = xs.length + 1 := List.length_append
        have hmade' : ∀ k < (xs ++ [x]).length, (made k).isConnection = true := by
          intro k hk
          rcases Nat.lt_or_ge k xs.length with hk' | hk'
          · exact hmade k hk'
          · have heq : k = xs.length := by omega
            rw [heq, hnext]
            rfl
        have hmax' : xs ++ [x] = [] ∨ s.count + (xs ++ [x]).length ≤ l.maxConnection :=
          .inr (by omega)
        by_cases hmore : s.count + (xs ++ [x]).length < l.maxIdleConnection
        · rw [Limits.loop, if_pos hmore] at hrun
          obtain ⟨r, hrest, hended⟩ := ih hmade' hmore hmax' (by omega)
          exact ⟨r, hrun.trans hrest, hended⟩
        · rw [Limits.loop, if_neg hmore] at hrun
          exact ⟨_, hrun, .complete _ hmade' (by omega) hmax'⟩

/-- The call returns. -/
theorem exists_returns (h : Quiet l s i) (nConnection : Nat) (made : Nat → Made) :
    ∃ r, Returns l nConnection i made s r ∧ Ended l made s i r := by
  have hbegin : Run (reserving l i made) anyAction _ _ := run_count h
  have hended : ∃ r, Run (reserving l i made) anyAction
      ⟨s.put i (.inCall (.reserve 0) .count), [], 0, false⟩ r ∧ Ended l made s i r := by
    by_cases hlt : s.count < l.maxIdleConnection
    · rw [Limits.loop, if_pos hlt] at hbegin
      obtain ⟨r, hrest, hended⟩ : ∃ r, Run (reserving l i made) anyAction (.atCreate s i []) r ∧
          Ended l made s i r := exists_ended h nofun hlt (.inl rfl)
      exact ⟨r, hbegin.trans hrest, hended⟩
    · rw [Limits.loop, if_neg hlt] at hbegin
      refine ⟨_, hbegin, .complete [] nofun ?_ (.inl rfl)⟩
      rw [List.length_nil, Nat.add_zero]
      omega
  obtain ⟨r, hrun, hended⟩ := hended
  refine ⟨r, ⟨⟨_, rfl, hrun⟩, ?_⟩, hended⟩
  cases hended <;> exact getElem?_during h.party

/-- It has no choice. -/
theorem returns_unique {nConnection : Nat} {r' : Reserving}
    (h : Returns l nConnection i made s r) (h' : Returns l nConnection i made s r') : r' = r := by
  obtain ⟨⟨t, ht, hrun⟩, hidle⟩ := h
  obtain ⟨⟨t', ht', hrun'⟩, hidle'⟩ := h'
  rw [ht] at ht'
  cases ht'
  have hstop : ∀ r : Reserving, r.pool.parties[i]? = some .idle → ∀ a : Unit,
      ¬ (reserving l i made).enabled r a := by
    intro r hr _ henabled
    simp only [reserving, State.enabled, hr] at henabled
    cases henabled
  exact Run.unique (fun _ _ _ _ _ => rfl) hrun' hrun (hstop r' hidle') (hstop r hidle)

/-! ## What is kept -/

/-- An answer that is no connection comes after those that are. -/
theorem length_le_of_null (hmade : ∀ k < xs.length, (made k).isConnection = true) {k : Nat}
    (hk : (made k).isConnection = false) : xs.length ≤ k := by
  by_contra hlt
  rw [hmade k (by omega)] at hk
  cases hk

theorem length_pos_of_ne (hmax : xs = [] ∨ n ≤ l.maxConnection) :
    xs.length = 0 ∨ n ≤ l.maxConnection :=
  hmax.imp_left fun hxs => by rw [hxs]; rfl

theorem Ended.kept_iff (h : Ended l made s i r) (nConnection : Nat) :
    Kept l nConnection s r ↔
      min l.maxIdleConnection l.maxConnection ≤
          max s.count (min nConnection l.maxIdleConnection) ∨
        ∃ k, s.count + k < min nConnection l.maxIdleConnection ∧
          (made k).isConnection = false := by
  cases h with
  | complete xs hmade hcount hmax =>
    have hmax := length_pos_of_ne hmax
    constructor
    · intro hkept
      have hmost : s.count + xs.length ≤ max s.count (min nConnection l.maxIdleConnection) :=
        hkept.atMost
      exact .inl (by omega)
    · intro hwhen
      have hlimit : min l.maxIdleConnection l.maxConnection ≤
          max s.count (min nConnection l.maxIdleConnection) := by
        rcases hwhen with hlimit | ⟨k, hk, hnull⟩
        · exact hlimit
        · have hlength := length_le_of_null hmade hnull
          omega
      clear hwhen
      have hequal : s.count + xs.length = max s.count (min nConnection l.maxIdleConnection) := by
        omega
      exact ⟨Nat.le_of_eq hequal, fun _ => hequal, rfl⟩
  | refused xs hmade hlt hfull hmax =>
    have hmax := length_pos_of_ne hmax
    constructor
    · intro hkept
      have hmost : s.count + xs.length ≤ max s.count (min nConnection l.maxIdleConnection) :=
        hkept.atMost
      exact .inl (by omega)
    · intro hwhen
      refine ⟨?_, nofun, rfl⟩
      show s.count + xs.length ≤ max s.count (min nConnection l.maxIdleConnection)
      rcases hwhen with hlimit | ⟨k, hk, hnull⟩
      · omega
      · have hlength := length_le_of_null hmade hnull
        omega
  | null xs hmade hlt hmax hnone =>
    constructor
    · intro hkept
      have hmost : s.count + xs.length + 1 ≤
          max s.count (min nConnection l.maxIdleConnection) := hkept.atMost
      exact .inr ⟨xs.length, by omega, hnone⟩
    · intro hwhen
      refine ⟨?_, nofun, rfl⟩
      show s.count + xs.length + 1 ≤ max s.count (min nConnection l.maxIdleConnection)
      rcases hwhen with hlimit | ⟨k, hk, hnull⟩
      · omega
      · have hlength := length_le_of_null hmade hnull
        omega

/-- With a factory that always makes a connection the limits alone decide. -/
theorem Ended.count_eq (h : Ended l made s i r) (hmade : ∀ k, (made k).isConnection = true) :
    r.pool.count = max s.count (min l.maxIdleConnection l.maxConnection) := by
  cases h with
  | complete xs _ hcount hmax =>
    have hmax := length_pos_of_ne hmax
    show s.count + xs.length = _
    omega
  | refused xs _ hlt hfull hmax =>
    have hmax := length_pos_of_ne hmax
    show s.count + xs.length = _
    omega
  | null xs _ _ _ hnull =>
    rw [hmade xs.length] at hnull
    cases hnull

end Costream.Pool
