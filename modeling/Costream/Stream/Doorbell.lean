import Costream.Tally
import Costream.Trace

/-!
# The legacy doorbell of a `HardQueue`

A producer reserves packets with `AddWriteIndex` and tells the hardware with
`StoreRelaxed`.  In the small machine model, and for a doorbell of type 1, `StoreRelaxed`
ignores the value it is given: under a spinlock it takes the write index, at most a
full queue beyond the read index, and writes it to the doorbell if it is larger than
all values before.

Any number of producers do this while the hardware moves the read index.  An access to
a shared field is a step of its own.

* `Inv` is the invariant.  The producer that is between the two loads and the release of
  the lock is alone there (`Producer.critical`), and a reserved index below which no
  value has been recorded is still owed by a producer (`Inv.covered`).
* `doorbell_complete` is the result: the recorded value stays between the two indices, the
  values of the doorbell increase, and no packet is left without a doorbell.
-/

namespace Costream.Stream.Doorbell

open Trace Costream.Tally

/-! ## The code -/

/-- Where a producer stands. -/
inductive Place where
  | idle
  /-- `StoreRelaxed`: before `Cas(&legacy_doorbell_lock, 1, 0)`. -/
  | cas
  /-- Before the load of `write_dispatch_id`. -/
  | loadWrite
  /-- Before the load of `read_dispatch_id`. -/
  | loadRead (legacyDispatchId : Nat)
  /-- Before the comparison with `max_legacy_doorbell_dispatch_id_plus_1`. -/
  | compare (legacyDispatchId : Nat)
  /-- Before the store to `max_legacy_doorbell_dispatch_id_plus_1`. -/
  | storeMax (legacyDispatchId : Nat)
  /-- Before the store to the doorbell. -/
  | ring (legacyDispatchId : Nat)
  /-- Before the lock is released. -/
  | unlock
deriving DecidableEq, Repr

structure Producer where
  place : Place
  /-- The indices it has reserved, less those that a finished `StoreRelaxed` has covered. -/
  owed : List Nat
  /-- The indices that the running `StoreRelaxed` covers: those that it owed when the call began,
  and that were less than a queue beyond the read index then. -/
  covers : List Nat
deriving DecidableEq, Repr

structure State where
  writeDispatchId : Nat
  readDispatchId : Nat
  /-- `max_legacy_doorbell_dispatch_id_plus_1`. -/
  maxDispatchIdPlus1 : Nat
  legacyDoorbellLock : Nat
  /-- The register of 32 bits. -/
  doorbell : Nat
  /-- The values that have been written to the doorbell, before truncation, the last one first. -/
  rung : List Nat
  producers : List Producer

/-- The constructor has run, and there are `n` producers. -/
def State.initial (n : Nat) : State :=
  ⟨0, 0, 0, 0, 0, [], List.replicate n ⟨.idle, [], []⟩⟩

inductive Action where
  | addWriteIndex (i : Nat) (value : Nat)
  | storeRelaxed (i : Nat)
  | step (i : Nat)
  /-- The hardware has processed the packets below `index`. -/
  | advance (index : Nat)
deriving DecidableEq, Repr

namespace State

variable (size : UInt32) (s : State)

def put (i : Nat) (p : Producer) : State := { s with producers := s.producers.set i p }

def addWriteIndex (i : Nat) (p : Producer) (value : Nat) : State :=
  { s with writeDispatchId := (s.writeDispatchId + value) % 2 ^ 64 }.put i
    { p with owed := p.owed ++ List.range' s.writeDispatchId value }

def storeRelaxed (i : Nat) (p : Producer) : State :=
  s.put i { p with
    place := .cas
    covers := p.owed.filter (· < s.readDispatchId + size.toNat) }

/-- One step of `StoreRelaxed`. -/
def advanceCall (i : Nat) (p : Producer) : State :=
  match p.place with
  | .idle => s
  | .cas =>
    if s.legacyDoorbellLock ≠ 0 then
      s
    else
      { s with legacyDoorbellLock := 1 }.put i { p with place := .loadWrite }
  | .loadWrite => s.put i { p with place := .loadRead s.writeDispatchId }
  | .loadRead id =>
    s.put i { p with place := .compare (min id ((s.readDispatchId + size.toNat) % 2 ^ 64)) }
  | .compare id =>
    s.put i { p with place := if s.maxDispatchIdPlus1 < id then .storeMax id else .unlock }
  | .storeMax id => { s with maxDispatchIdPlus1 := id }.put i { p with place := .ring id }
  | .ring id =>
    { s with doorbell := id % 2 ^ 32, rung := id :: s.rung }.put i { p with place := .unlock }
  | .unlock =>
    { s with legacyDoorbellLock := 0 }.put i
      ⟨.idle, p.owed.filter (· ∉ p.covers), []⟩

/-- The last value of the doorbell, before truncation. -/
def lastDoorbell : Nat := s.rung.headD 0

def next : Action → Option State
  | .addWriteIndex i value => s.producers[i]?.map fun p => s.addWriteIndex i p value
  | .storeRelaxed i => s.producers[i]?.map fun p => s.storeRelaxed size i p
  | .step i => s.producers[i]?.map fun p => s.advanceCall size i p
  | .advance index => some { s with readDispatchId := index }

def enabled : Action → Bool
  | .addWriteIndex i _ => s.producers[i]?.any fun p => p.place = .idle
  | .storeRelaxed i => s.producers[i]?.any fun p => p.place = .idle
  | .step i => s.producers[i]?.any fun p => p.place ≠ .idle
  | .advance index => s.readDispatchId ≤ index ∧ index ≤ s.lastDoorbell

/-- The index that the action makes, and the one a full queue beyond it, are numbers of 64 bits. -/
def below : Action → Bool
  | .addWriteIndex _ value => s.writeDispatchId + value < 2 ^ 64
  | .advance index => index + size.toNat < 2 ^ 64
  | _ => true

end State

def machine (size : UInt32) : Machine State Action where
  enabled s a := s.enabled a = true
  step s a := s.next size a

instance (size : UInt32) (s : State) (a : Action) : Decidable ((machine size).enabled s a) :=
  inferInstanceAs (Decidable (s.enabled a = true))

/-- The indices stay below `2 ^ 64`. -/
def Below (size : UInt32) (s : State) (a : Action) : Prop := s.below size a = true

instance (size : UInt32) (s : State) (a : Action) : Decidable (Below size s a) :=
  inferInstanceAs (Decidable (s.below size a = true))

/-! ## The invariant -/

variable {size : UInt32} {s t : State} {i n : Nat} {p p' : Producer}

/-- The producer holds the lock. -/
def Producer.critical (p : Producer) : Nat :=
  match p.place with
  | .idle => 0
  | .cas => 0
  | _ => 1

/-- What the place of a producer says about the shared fields. -/
def Producer.At (size : UInt32) (s : State) (p : Producer) : Prop :=
  match p.place with
  | .idle => True
  | .cas | .loadWrite =>
    ∀ i ∈ p.covers, i < s.writeDispatchId ∧ i < s.readDispatchId + size.toNat
  | .loadRead id =>
    id ≤ s.writeDispatchId ∧ ∀ i ∈ p.covers, i < id ∧ i < s.readDispatchId + size.toNat
  | .compare id =>
    id ≤ s.writeDispatchId ∧ id ≤ s.readDispatchId + size.toNat ∧ ∀ i ∈ p.covers, i < id
  | .storeMax id =>
    id ≤ s.writeDispatchId ∧ id ≤ s.readDispatchId + size.toNat ∧ (∀ i ∈ p.covers, i < id) ∧
      s.maxDispatchIdPlus1 < id
  | .ring id =>
    (∀ i ∈ p.covers, i < id) ∧ id = s.maxDispatchIdPlus1 ∧ ∀ j ∈ s.rung, j < id
  | .unlock => ∀ i ∈ p.covers, i < s.maxDispatchIdPlus1

structure Inv (size : UInt32) (s : State) : Prop where
  read_le : s.readDispatchId ≤ s.lastDoorbell
  rung_le : ∀ j ∈ s.rung, j ≤ s.maxDispatchIdPlus1
  le_write : s.maxDispatchIdPlus1 ≤ s.writeDispatchId
  le_read : s.maxDispatchIdPlus1 ≤ s.readDispatchId + size.toNat
  below : s.readDispatchId + size.toNat < 2 ^ 64
  sorted : s.rung.Pairwise (· > ·)
  lock : tally Producer.critical s.producers = s.legacyDoorbellLock
  lock_le : s.legacyDoorbellLock ≤ 1
  places : ∀ (i : Nat) (p : Producer), s.producers[i]? = some p → p.At size s
  owed : ∀ p ∈ s.producers, ∀ i ∈ p.owed, i < s.writeDispatchId
  /-- Every index is below the recorded value, or a producer owes it. -/
  covered : ∀ i < s.writeDispatchId, i < s.maxDispatchIdPlus1 ∨ ∃ p ∈ s.producers, i ∈ p.owed

theorem Inv.initial (size : UInt32) (n : Nat) : Inv size (State.initial n) where
  read_le := Nat.le_refl 0
  rung_le := by simp [State.initial]
  le_write := Nat.le_refl 0
  le_read := Nat.zero_le _
  below := by
    have hsize := size.toNat_lt
    show 0 + size.toNat < 2 ^ 64
    omega
  sorted := List.Pairwise.nil
  lock := by
    apply tally_eq_zero.2
    intro p hp
    rw [List.eq_of_mem_replicate hp]
    rfl
  lock_le := Nat.zero_le 1
  places := by
    intro i p hp
    rw [List.eq_of_mem_replicate (List.mem_of_getElem? hp)]
    trivial
  owed := by
    intro p hp i hi
    rw [List.eq_of_mem_replicate hp] at hi
    cases hi
  covered := by
    intro i hi
    cases hi

theorem Inv.read_le_max (h : Inv size s) : s.readDispatchId ≤ s.maxDispatchIdPlus1 := by
  have hread := h.read_le
  have hrung := h.rung_le
  unfold State.lastDoorbell at hread
  cases hlast : s.rung with
  | nil =>
    rw [hlast] at hread
    exact Nat.le_trans hread (Nat.zero_le _)
  | cons j rest =>
    rw [hlast] at hread hrung
    exact Nat.le_trans hread (hrung j List.mem_cons_self)

/-! ## Steps -/

/-- The indices grow.  If the recorded value or the doorbell changes, the producer does not hold the
lock. -/
theorem Producer.At.mono (h : p.At size s) (hwrite : s.writeDispatchId ≤ t.writeDispatchId)
    (hread : s.readDispatchId ≤ t.readDispatchId)
    (hsame : (t.maxDispatchIdPlus1 = s.maxDispatchIdPlus1 ∧ t.rung = s.rung) ∨ p.critical = 0) :
    p.At size t := by
  have hcovers : ∀ {i : Nat}, i < s.writeDispatchId ∧ i < s.readDispatchId + size.toNat →
      i < t.writeDispatchId ∧ i < t.readDispatchId + size.toNat := by
    intro i hi
    omega
  unfold Producer.At at h ⊢
  unfold Producer.critical at hsame
  cases hp : p.place with
  | idle => trivial
  | cas | loadWrite =>
    simp only [hp] at h
    exact fun i hi => hcovers (h i hi)
  | loadRead id =>
    simp only [hp] at h
    refine ⟨by omega, fun i hi => ?_⟩
    have hlt := h.2 i hi
    omega
  | compare id =>
    simp only [hp] at h
    exact ⟨by omega, by omega, h.2.2⟩
  | storeMax id =>
    simp only [hp, Nat.one_ne_zero, or_false] at h hsame
    rw [hsame.1]
    exact ⟨by omega, by omega, h.2.2⟩
  | ring id =>
    simp only [hp, Nat.one_ne_zero, or_false] at h hsame
    rw [hsame.1, hsame.2]
    exact h
  | unlock =>
    simp only [hp, Nat.one_ne_zero, or_false] at h hsame
    rw [hsame.1]
    exact h

/-- The producer at `i` changes, and with it the lock, the recorded value and the doorbell. -/
theorem Inv.change (h : Inv size s) (hp : s.producers[i]? = some p)
    {lock max doorbell : Nat} {rung : List Nat}
    (ht : t = ⟨s.writeDispatchId, s.readDispatchId, max, lock, doorbell, rung,
      s.producers.set i p'⟩)
    (hread : s.readDispatchId ≤ t.lastDoorbell) (hrung : ∀ j ∈ rung, j ≤ max)
    (hgrow : s.maxDispatchIdPlus1 ≤ max)
    (hmax : max ≤ s.writeDispatchId ∧ max ≤ s.readDispatchId + size.toNat)
    (hsorted : rung.Pairwise (· > ·))
    (hlock : lock + p.critical = s.legacyDoorbellLock + p'.critical) (hlock_le : lock ≤ 1)
    (hself : p'.At size t)
    (hothers : (max = s.maxDispatchIdPlus1 ∧ rung = s.rung) ∨ p.critical = 1)
    (howed : ∀ i ∈ p'.owed, i ∈ p.owed) (hpaid : ∀ i ∈ p.owed, i ∈ p'.owed ∨ i < max) :
    Inv size t := by
  have hi := (List.getElem?_eq_some_iff.1 hp).1
  subst ht
  refine ⟨hread, hrung, hmax.1, hmax.2, h.below, hsorted, ?_, hlock_le, fun j q hq => ?_,
    fun q hq k hk => ?_, fun k hk => ?_⟩
  · have hset := tally_set Producer.critical hp p'
    have hsum := h.lock
    show tally Producer.critical (s.producers.set i p') = lock
    omega
  · replace hq : (s.producers.set i p')[j]? = some q := hq
    by_cases hij : i = j
    · rw [← hij, List.getElem?_set_self hi, Option.some.injEq] at hq
      exact hq ▸ hself
    · rw [List.getElem?_set_ne hij] at hq
      refine (h.places j q hq).mono (Nat.le_refl _) (Nat.le_refl _) ?_
      rcases hothers with hsame | hcritical
      · exact .inl hsame
      · -- the lock has one holder
        have htwo := add_le_tally Producer.critical hp hq hij
        have hsum := h.lock
        have hone := h.lock_le
        exact .inr (by omega)
  · rcases List.mem_or_eq_of_mem_set hq with hq | hq
    · exact h.owed q hq k hk
    · rw [hq] at hk
      exact h.owed p (List.mem_of_getElem? hp) k (howed k hk)
  · have hself' : p' ∈ s.producers.set i p' := List.mem_set hi p'
    rcases h.covered k hk with hlt | ⟨q, hq, howes⟩
    · exact .inl (Nat.lt_of_lt_of_le hlt hgrow)
    · obtain ⟨j, hj⟩ := List.getElem?_of_mem hq
      by_cases hij : i = j
      · rw [← hij, hp, Option.some.injEq] at hj
        rcases hpaid k (hj ▸ howes) with hstill | hlt
        · exact .inr ⟨p', hself', hstill⟩
        · exact .inl hlt
      · refine .inr ⟨q, ?_, howes⟩
        apply List.mem_of_getElem? (i := j)
        rw [List.getElem?_set_ne hij]
        exact hj

/-- Only the place of the producer changes, and what its call covers. -/
theorem Inv.goto (h : Inv size s) (hp : s.producers[i]? = some p)
    (hlock : p'.critical = p.critical) (howed : p'.owed = p.owed) (hself : p'.At size s) :
    Inv size (s.put i p') := by
  refine h.change hp rfl h.read_le h.rung_le (Nat.le_refl _) ⟨h.le_write, h.le_read⟩ h.sorted ?_
    h.lock_le (hself.mono (Nat.le_refl _) (Nat.le_refl _) (.inl ⟨rfl, rfl⟩)) (.inl ⟨rfl, rfl⟩) ?_ ?_
  · rw [hlock]
  · rw [howed]
    exact fun _ hk => hk
  · rw [howed]
    exact fun _ hk => .inl hk

theorem Inv.addWriteIndex (h : Inv size s) (hp : s.producers[i]? = some p) (hplace : p.place = .idle)
    {value : Nat} (hbelow : s.writeDispatchId + value < 2 ^ 64) :
    Inv size (s.addWriteIndex i p value) := by
  have hi := (List.getElem?_eq_some_iff.1 hp).1
  have hwrite : (s.addWriteIndex i p value).writeDispatchId = s.writeDispatchId + value :=
    Nat.mod_eq_of_lt hbelow
  have hle := h.le_write
  refine ⟨h.read_le, h.rung_le, ?_, h.le_read, h.below, h.sorted, ?_, h.lock_le, fun j q hq => ?_,
    fun q hq k hk => ?_, fun k hk => ?_⟩
  · rw [hwrite]
    exact Nat.le_add_right_of_le hle
  · have hset := tally_set Producer.critical hp
      { p with owed := p.owed ++ List.range' s.writeDispatchId value }
    have hsum := h.lock
    show tally Producer.critical (s.producers.set i _) = s.legacyDoorbellLock
    have hcritical : Producer.critical
      { p with owed := p.owed ++ List.range' s.writeDispatchId value } = p.critical := rfl
    omega
  · replace hq : (s.producers.set i _)[j]? = some q := hq
    by_cases hij : i = j
    · rw [← hij, List.getElem?_set_self hi, Option.some.injEq] at hq
      rw [← hq, Producer.At, hplace]
      trivial
    · rw [List.getElem?_set_ne hij] at hq
      refine (h.places j q hq).mono ?_ (Nat.le_refl _) (.inl ⟨rfl, rfl⟩)
      rw [hwrite]
      exact Nat.le_add_right _ _
  · rw [hwrite]
    rcases List.mem_or_eq_of_mem_set hq with hq | hq
    · exact Nat.lt_add_right _ (h.owed q hq k hk)
    · rw [hq, List.mem_append, List.mem_range'_1] at hk
      rcases hk with hk | hk
      · exact Nat.lt_add_right _ (h.owed p (List.mem_of_getElem? hp) k hk)
      · exact hk.2
  · rw [hwrite] at hk
    by_cases hnew : s.writeDispatchId ≤ k
    · exact .inr ⟨_, List.mem_set hi _, List.mem_append_right _ (List.mem_range'_1.2 ⟨hnew, hk⟩)⟩
    · rcases h.covered k (by omega) with hlt | ⟨q, hq, howes⟩
      · exact .inl hlt
      · obtain ⟨j, hj⟩ := List.getElem?_of_mem hq
        by_cases hij : i = j
        · rw [← hij, hp, Option.some.injEq] at hj
          exact .inr ⟨_, List.mem_set hi _, List.mem_append_left _ (hj ▸ howes)⟩
        · refine .inr ⟨q, ?_, howes⟩
          apply List.mem_of_getElem? (i := j)
          show (s.producers.set i _)[j]? = some q
          rw [List.getElem?_set_ne hij]
          exact hj

theorem Inv.storeRelaxed (h : Inv size s) (hp : s.producers[i]? = some p)
    (hplace : p.place = .idle) : Inv size (s.storeRelaxed size i p) := by
  refine h.goto hp ?_ rfl ?_
  · unfold Producer.critical
    rw [hplace]
  · show ∀ k ∈ p.owed.filter (· < s.readDispatchId + size.toNat),
      k < s.writeDispatchId ∧ k < s.readDispatchId + size.toNat
    intro k hk
    rw [List.mem_filter, decide_eq_true_eq] at hk
    exact ⟨h.owed p (List.mem_of_getElem? hp) k hk.1, hk.2⟩

/-- A step of `StoreRelaxed` keeps the invariant: one case for each place. -/
theorem Inv.advanceCall (h : Inv size s) (hp : s.producers[i]? = some p) :
    Inv size (s.advanceCall size i p) := by
  have hat := h.places i p hp
  unfold Producer.At at hat
  unfold State.advanceCall
  cases hplace : p.place with
  | idle => exact h
  | cas =>
    simp only [hplace] at hat
    by_cases hlock : s.legacyDoorbellLock ≠ 0
    · simp only [if_pos hlock]
      exact h
    · simp only [if_neg hlock]
      refine h.change hp rfl h.read_le h.rung_le (Nat.le_refl _) ⟨h.le_write, h.le_read⟩ h.sorted
        ?_ (Nat.le_refl 1) hat (.inl ⟨rfl, rfl⟩) (fun _ hk => hk) (fun _ hk => .inl hk)
      have hfree : p.critical = 0 := by rw [Producer.critical, hplace]
      rw [hfree]
      show 1 + 0 = s.legacyDoorbellLock + 1
      omega
  | loadWrite =>
    simp only [hplace] at hat
    refine h.goto hp ?_ rfl ⟨Nat.le_refl _, hat⟩
    rw [Producer.critical, Producer.critical, hplace]
  | loadRead id =>
    simp only [hplace] at hat
    obtain ⟨hid, hcovers⟩ := hat
    have hbelow : (s.readDispatchId + size.toNat) % 2 ^ 64 = s.readDispatchId + size.toNat :=
      Nat.mod_eq_of_lt h.below
    simp only [hbelow]
    refine h.goto hp ?_ rfl ⟨?_, Nat.min_le_right _ _, fun k hk => ?_⟩
    · rw [Producer.critical, Producer.critical, hplace]
    · exact Nat.le_trans (Nat.min_le_left _ _) hid
    · exact Nat.lt_min.2 (hcovers k hk)
  | compare id =>
    simp only [hplace] at hat
    obtain ⟨hid, hle, hcovers⟩ := hat
    have hcritical : p.critical = 1 := by rw [Producer.critical, hplace]
    by_cases hmore : s.maxDispatchIdPlus1 < id
    · simp only [if_pos hmore]
      exact h.goto hp hcritical.symm rfl ⟨hid, hle, hcovers, hmore⟩
    · -- the doorbell has been rung for these packets already
      simp only [if_neg hmore]
      refine h.goto hp hcritical.symm rfl fun k hk => ?_
      have hlt := hcovers k hk
      omega
  | storeMax id =>
    simp only [hplace] at hat
    obtain ⟨hid, hle, hcovers, hmore⟩ := hat
    have hcritical : p.critical = 1 := by rw [Producer.critical, hplace]
    have hrung : ∀ j ∈ s.rung, j < id := fun j hj => Nat.lt_of_le_of_lt (h.rung_le j hj) hmore
    exact h.change hp rfl h.read_le (fun j hj => Nat.le_of_lt (hrung j hj)) (Nat.le_of_lt hmore)
      ⟨hid, hle⟩ h.sorted (by rw [hcritical]; rfl) h.lock_le ⟨hcovers, rfl, hrung⟩ (.inr hcritical)
      (fun _ hk => hk) (fun _ hk => .inl hk)
  | ring id =>
    simp only [hplace] at hat
    obtain ⟨hcovers, hid, hrung⟩ := hat
    have hcritical : p.critical = 1 := by rw [Producer.critical, hplace]
    refine h.change hp rfl ?_ ?_ (Nat.le_refl _) ⟨h.le_write, h.le_read⟩
      (List.pairwise_cons.2 ⟨hrung, h.sorted⟩) (by rw [hcritical]; rfl) h.lock_le ?_
      (.inr hcritical) (fun _ hk => hk) (fun _ hk => .inl hk)
    · show s.readDispatchId ≤ id
      exact hid ▸ h.read_le_max
    · show ∀ j ∈ id :: s.rung, j ≤ s.maxDispatchIdPlus1
      intro j hj
      rcases List.mem_cons.1 hj with hj | hj
      · omega
      · exact h.rung_le j hj
    · show ∀ k ∈ p.covers, k < s.maxDispatchIdPlus1
      exact hid ▸ hcovers
  | unlock =>
    simp only [hplace] at hat
    have hcritical : p.critical = 1 := by rw [Producer.critical, hplace]
    have hheld := le_tally Producer.critical (List.mem_of_getElem? hp)
    have hsum := h.lock
    have hone := h.lock_le
    refine h.change hp rfl h.read_le h.rung_le (Nat.le_refl _) ⟨h.le_write, h.le_read⟩ h.sorted
      ?_ (Nat.zero_le 1) trivial (.inl ⟨rfl, rfl⟩) (fun k hk => (List.mem_filter.1 hk).1) ?_
    · show 0 + p.critical = s.legacyDoorbellLock + 0
      omega
    · intro k hk
      by_cases hcovers : k ∈ p.covers
      · exact .inr (hat k hcovers)
      · exact .inl (List.mem_filter.2 ⟨hk, by simpa using hcovers⟩)

theorem Inv.advance (h : Inv size s) {index : Nat}
    (henabled : s.readDispatchId ≤ index ∧ index ≤ s.lastDoorbell)
    (hbelow : index + size.toNat < 2 ^ 64) : Inv size { s with readDispatchId := index } := by
  have hle := h.le_read
  refine ⟨henabled.2, h.rung_le, h.le_write, ?_, hbelow, h.sorted, h.lock, h.lock_le,
    fun j q hq => ?_, h.owed, h.covered⟩
  · show s.maxDispatchIdPlus1 ≤ index + size.toNat
    omega
  · exact (h.places j q hq).mono (Nat.le_refl _) henabled.1 (.inl ⟨rfl, rfl⟩)

theorem State.idle_of_any (h : (s.producers[i]?.any fun p => p.place = .idle) = true) :
    ∃ p, s.producers[i]? = some p ∧ p.place = .idle := by
  cases hp : s.producers[i]? with
  | none => simp [hp] at h
  | some p => exact ⟨p, rfl, by simpa [hp] using h⟩

theorem Inv.next (h : Inv size s) {a : Action} (henabled : s.enabled a = true)
    (hbelow : s.below size a = true) (hnext : s.next size a = some t) : Inv size t := by
  cases a with
  | addWriteIndex i value =>
    obtain ⟨p, hp, hplace⟩ := State.idle_of_any henabled
    simp only [State.next, hp, Option.map_some, Option.some.injEq] at hnext
    subst hnext
    exact h.addWriteIndex hp hplace (of_decide_eq_true hbelow)
  | storeRelaxed i =>
    obtain ⟨p, hp, hplace⟩ := State.idle_of_any henabled
    simp only [State.next, hp, Option.map_some, Option.some.injEq] at hnext
    subst hnext
    exact h.storeRelaxed hp hplace
  | step i =>
    obtain ⟨p, hp, rfl⟩ := Option.map_eq_some_iff.1 hnext
    exact h.advanceCall hp
  | advance index =>
    cases hnext
    exact h.advance (of_decide_eq_true henabled) (of_decide_eq_true hbelow)

theorem Inv.of_run (hr : Run (machine size) (Below size) (State.initial n) s) : Inv size s :=
  hr.invariant (Inv.initial size n) fun _ _ _ h henabled hbelow hnext =>
    h.next henabled hbelow hnext

/-- If nothing is owed, the recorded value is the write index. -/
theorem Inv.complete (h : Inv size s) (howed : ∀ p ∈ s.producers, p.owed = []) :
    s.maxDispatchIdPlus1 = s.writeDispatchId := by
  have hle := h.le_write
  by_contra hne
  rcases h.covered s.maxDispatchIdPlus1 (by omega) with hlt | ⟨p, hp, howes⟩
  · exact Nat.lt_irrefl _ hlt
  · rw [howed p hp] at howes
    cases howes

/-- The recorded value lies between the indices, the values of the doorbell increase, and when every
producer has had a `StoreRelaxed` for each of its indices the recorded value is the write index. -/
theorem doorbell_complete (hr : Run (machine size) (Below size) (State.initial n) s) :
    s.readDispatchId ≤ s.maxDispatchIdPlus1 ∧
      s.maxDispatchIdPlus1 ≤ min s.writeDispatchId (s.readDispatchId + size.toNat) ∧
      s.rung.Pairwise (· > ·) ∧
      ((∀ p ∈ s.producers, p.owed = []) → s.maxDispatchIdPlus1 = s.writeDispatchId) := by
  have h := Inv.of_run hr
  exact ⟨h.read_le_max, Nat.le_min.2 ⟨h.le_write, h.le_read⟩, h.sorted, h.complete⟩

/-- A queue of two packets: the doorbell for the third packet waits until the hardware has moved. -/
theorem doorbell_complete_clamped :
    ∃ s, Run (machine 2) (Below 2) (State.initial 2) s ∧
      (s.rung = [3, 2] ∧ ∀ p ∈ s.producers, p.owed = []) ∧
      s.readDispatchId ≤ s.maxDispatchIdPlus1 ∧
      s.maxDispatchIdPlus1 ≤ min s.writeDispatchId (s.readDispatchId + (2 : UInt32).toNat) ∧
      s.rung.Pairwise (· > ·) ∧
      ((∀ p ∈ s.producers, p.owed = []) → s.maxDispatchIdPlus1 = s.writeDispatchId) := by
  have hexec : ((machine 2).exec (Below 2) (State.initial 2)
      ([.addWriteIndex 0 1, .addWriteIndex 1 2, .storeRelaxed 0, .storeRelaxed 1] ++
        List.replicate 7 (.step 0) ++ List.replicate 5 (.step 1) ++
        [.advance 1, .storeRelaxed 1] ++ List.replicate 7 (.step 1))).any
      (fun s => decide (s.rung = [3, 2] ∧ ∀ p ∈ s.producers, p.owed = [])) = true := by
    decide +kernel
  obtain ⟨s, hr, hs⟩ := Run.exists_of_exec hexec
  exact ⟨s, hr, of_decide_eq_true hs, doorbell_complete hr⟩

end Costream.Stream.Doorbell
