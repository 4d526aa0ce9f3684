import Costream.Tally
import Costream.Trace

/-!
# The lifetime of an IPC signal

`ISignal` counts the handles of a signal in `refcount_` and its users in
`retained_`; a handle is a user as well.  The `Release` that brings `retained_` to
zero asks the pool to take the signal out of `ipcMap_`, which it does only while
`refcount_` is zero, and then deletes the signal.

Any number of parties own handles and retains of one registered signal, pass them
on, and call `Retain`, `Release`, `DuplicateSignalHandle` and `DestroySignal`.  An
access to a counter is a step of its own; so is a critical section of `ipcLock_`.
A step that uses the memory of the deleted signal, or fails an assertion, has no
result.

The two counters have 32 bits each: that the signal outlives its users needs a
bound on the number of handles and retains (`ipc_lifetime`, `destroyed_in_use`).
-/

namespace Costream.Signal.Ipc

open Trace Costream.Tally

/-! ## The code -/

/-- Where a party stands. -/
inductive Place where
  | idle
  /-- `Retain`: before `retained_++`. -/
  | retain
  /-- `DuplicateSignalHandle`: before `shared->IsIPC()`. -/
  | isIPC
  /-- Before the critical section of `duplicateIpc`. -/
  | duplicateIpc
  /-- `DestroySignal`: before `--refcount_`. -/
  | destroy
  /-- `refcount_` is zero: before `CasRelaxed(0, 0)`. -/
  | cas
  /-- `Release`: before `--retained_`. -/
  | release
  /-- `retained_` is zero: before `isIPC()`. -/
  | released
  /-- Before the critical section of `DeRegisterIpc`. -/
  | deregisterIpc
  /-- Before `doDestroySignal`. -/
  | doDestroySignal
  /-- In `~ISignal`, with a handle left: before `deregisterIpc`. -/
  | destructor
deriving DecidableEq, Repr

structure Party where
  handles : Nat
  retains : Nat
  place : Place
deriving DecidableEq, Repr

structure State where
  refcount : Nat
  retained : Nat
  /-- `ipcMap_` has the signal. -/
  registered : Bool
  /-- How often the signal has been deleted. -/
  destroyed : Nat
  parties : List Party

/-- The constructor with `enableIPC`; one party has the handle. -/
def State.initial : State :=
  { refcount := 1, retained := 1, registered := true, destroyed := 0, parties := [⟨1, 0, .idle⟩] }

inductive Call where
  | retain
  | duplicateSignalHandle
  | destroySignal
  | release
deriving DecidableEq, Repr

inductive Action where
  /-- A party comes that owns nothing. -/
  | join
  | giveHandle (i j : Nat)
  | giveRetain (i j : Nat)
  | call (i : Nat) (c : Call)
  | step (i : Nat)
deriving DecidableEq, Repr

namespace Party

/-- It can use the signal. -/
def owns (p : Party) : Bool := 0 < p.handles + p.retains

/-- A call uses what the party owns, or takes it away from the party. -/
def may (p : Party) : Call → Bool
  | .retain => p.owns
  | .duplicateSignalHandle => p.owns
  | .destroySignal => 0 < p.handles
  | .release => 0 < p.retains

def start (p : Party) : Call → Party
  | .retain => { p with place := .retain }
  | .duplicateSignalHandle => { p with place := .isIPC }
  | .destroySignal => { p with handles := p.handles - 1, place := .destroy }
  | .release => { p with retains := p.retains - 1, place := .release }

def goto (p : Party) (place : Place) : Party := { p with place := place }

end Party

namespace State

variable (s : State)

def put (i : Nat) (p : Party) : State := { s with parties := s.parties.set i p }

/-- A step from this place uses the memory of the signal.  `duplicateIpc` does not, if the map
has no such handle. -/
def uses : Place → Bool
  | .idle => false
  | .duplicateIpc => s.registered
  | _ => true

/-- `StreamPool::DeRegisterIpc`: the state, and what it returns; it asserts that the map has the
signal. -/
def deRegisterIpc : Option (State × Bool) :=
  if s.refcount ≠ 0 then
    some (s, false)
  else if s.registered then
    some ({ s with registered := false }, true)
  else
    none

/-- A step of the party `p` at index `i`, in memory that is there. -/
def advance (i : Nat) (p : Party) : Option State :=
  match p.place with
  | .idle => none
  | .retain =>
    some ({ s with retained := increment s.retained }.put i
      { p with retains := p.retains + 1, place := .idle })
  | .isIPC => some (s.put i (p.goto .duplicateIpc))
  | .duplicateIpc =>
    if s.registered then
      some ({ s with refcount := increment s.refcount, retained := increment s.retained }.put i
        { p with handles := p.handles + 1, place := .idle })
    else
      some (s.put i (p.goto .idle))
  | .destroy =>
    let n := decrement s.refcount
    some ({ s with refcount := n }.put i (p.goto (if n = 0 then .cas else .release)))
  | .cas => some (s.put i (p.goto .release))
  | .release =>
    let n := decrement s.retained
    some ({ s with retained := n }.put i (p.goto (if n = 0 then .released else .idle)))
  | .released => some (s.put i (p.goto .deregisterIpc))
  | .deregisterIpc =>
    match s.deRegisterIpc with
    | none => none
    | some (s, true) => some (s.put i (p.goto .doDestroySignal))
    | some (s, false) => some (s.put i (p.goto .idle))
  | .doDestroySignal =>
    if s.refcount = 1 then
      some ({ s with refcount := 0 }.put i (p.goto .destructor))
    else
      some ({ s with destroyed := s.destroyed + 1 }.put i (p.goto .idle))
  | .destructor =>
    match s.deRegisterIpc with
    | none => none
    | some (s, _) => some ({ s with destroyed := s.destroyed + 1 }.put i (p.goto .idle))

def next : Action → Option State
  | .join => some { s with parties := s.parties ++ [⟨0, 0, .idle⟩] }
  | .giveHandle i j =>
    match s.parties[i]? with
    | none => none
    | some p =>
      let s := s.put i { p with handles := p.handles - 1 }
      match s.parties[j]? with
      | none => none
      | some q => some (s.put j { q with handles := q.handles + 1 })
  | .giveRetain i j =>
    match s.parties[i]? with
    | none => none
    | some p =>
      let s := s.put i { p with retains := p.retains - 1 }
      match s.parties[j]? with
      | none => none
      | some q => some (s.put j { q with retains := q.retains + 1 })
  | .call i c =>
    match s.parties[i]? with
    | none => none
    | some p => some (s.put i (p.start c))
  | .step i =>
    match s.parties[i]? with
    | none => none
    | some p => if s.uses p.place ∧ s.destroyed ≠ 0 then none else s.advance i p

/-- A party gives and calls while it is not in a call, and only what it owns. -/
def enabled : Action → Bool
  | .join => true
  | .giveHandle i j =>
    (s.parties[i]?.any fun p => p.place = .idle ∧ 0 < p.handles) && j < s.parties.length
  | .giveRetain i j =>
    (s.parties[i]?.any fun p => p.place = .idle ∧ 0 < p.retains) && j < s.parties.length
  | .call i c => s.parties[i]?.any fun p => p.place = .idle ∧ p.may c
  | .step i => s.parties[i]?.any fun p => p.place ≠ .idle

end State

def machine : Machine State Action where
  enabled s a := s.enabled a = true
  step := State.next

instance (s : State) (a : Action) : Decidable (machine.enabled s a) :=
  inferInstanceAs (Decidable (s.enabled a = true))

/-! ## What the counters count -/

namespace Place

/-- The call at this place is still counted in `refcount_`. -/
def counted : Place → Nat
  | .destroy => 1
  | _ => 0

/-- The call at this place is still counted in `retained_`. -/
def held : Place → Nat
  | .destroy => 1
  | .cas => 1
  | .release => 1
  | _ => 0

/-- The call at this place has brought `retained_` to zero. -/
def last : Place → Nat
  | .released => 1
  | .deregisterIpc => 1
  | .doDestroySignal => 1
  | .destructor => 1
  | _ => 0

/-- The call at this place has taken the signal out of the map. -/
def deregistered : Place → Nat
  | .doDestroySignal => 1
  | _ => 0

/-- The call at this place uses what its party owns. -/
def borrows : Place → Bool
  | .retain => true
  | .isIPC => true
  | .duplicateIpc => true
  | _ => false

end Place

/-- The handles of a party, with the one it is destroying. -/
def Party.counted (p : Party) : Nat := p.handles + p.place.counted

/-- The handles and retains of a party, with the one it is giving up. -/
def Party.held (p : Party) : Nat := p.handles + p.retains + p.place.held

/-- The handles and retains there are, with those that are being given up. -/
def State.held (s : State) : Nat := tally Party.held s.parties

/-- Nobody owns the signal, and all calls have returned. -/
def State.Finished (s : State) : Prop :=
  ∀ p ∈ s.parties, p = ⟨0, 0, .idle⟩

/-- The next step makes one more handle or retain. -/
def State.grows (s : State) : Action → Bool
  | .step i => s.parties[i]?.any fun p => p.place = .retain ∨ p.place = .duplicateIpc
  | _ => false

/-- At most `2 ^ 32 - 1` handles and retains are held at a time. -/
def Few (s : State) (a : Action) : Prop := s.grows a → s.held + 1 < 2 ^ 32

instance (s : State) (a : Action) : Decidable (Few s a) :=
  inferInstanceAs (Decidable (s.grows a = true → s.held + 1 < 2 ^ 32))

/-- The signal has been deleted once if nobody has it any more, and not at all before; and no
step fails. -/
structure Outlives (s : State) : Prop where
  once : s.destroyed ≤ 1
  iff_finished : s.destroyed = 1 ↔ s.Finished
  works : ∀ a, s.enabled a = true → (s.next a).isSome = true

/-! ## The invariant -/

variable {s t : State} {i j : Nat} {p p' : Party}

/-- What the counters say, and that exactly one of three things is true: the signal is held, one
call has found that nobody holds it, it has been deleted. -/
structure Inv (s : State) : Prop where
  refcount : s.refcount = tally Party.counted s.parties
  retained : s.retained = s.held
  small : s.held < 2 ^ 32
  once : min s.held 1 + tally (fun p => p.place.last) s.parties + s.destroyed = 1
  registered :
    s.registered.toNat + tally (fun p => p.place.deregistered) s.parties + s.destroyed = 1
  owns : ∀ p ∈ s.parties, p.place.borrows = true → p.owns = true
  handleGone : ∀ p ∈ s.parties, p.place ≠ .destructor

theorem inv_initial : Inv State.initial where
  refcount := rfl
  retained := rfl
  small := by decide
  once := rfl
  registered := rfl
  owns := by decide
  handleGone := by decide

/-- The party at `i` changes, and the counters move with its shares. -/
theorem Inv.change (h : Inv s) {n m : Nat} {place : Place}
    (hp : s.parties[i]? = some ⟨n, m, place⟩) {refcount retained destroyed n' m' : Nat}
    {registered : Bool} {place' : Place} (howns : place'.borrows = true → 0 < n' + m')
    (hgone : place' ≠ .destructor)
    (hrefcount : refcount + n + place.counted = s.refcount + n' + place'.counted)
    (hretained : retained + n + m + place.held = s.retained + n' + m' + place'.held)
    (hsmall : retained < 2 ^ 32)
    (honce : min retained 1 + place'.last + destroyed =
      min s.retained 1 + place.last + s.destroyed)
    (hregistered : registered.toNat + place'.deregistered + destroyed =
      s.registered.toNat + place.deregistered + s.destroyed) :
    Inv ⟨refcount, retained, registered, destroyed, s.parties.set i ⟨n', m', place'⟩⟩ := by
  have hcounted : _ + (n + place.counted) = _ + (n' + place'.counted) :=
    tally_set Party.counted hp ⟨n', m', place'⟩
  have hheld : _ + (n + m + place.held) = _ + (n' + m' + place'.held) :=
    tally_set Party.held hp ⟨n', m', place'⟩
  have hlast : _ + place.last = _ + place'.last :=
    tally_set (fun p => p.place.last) hp ⟨n', m', place'⟩
  have hderegistered : _ + place.deregistered = _ + place'.deregistered :=
    tally_set (fun p => p.place.deregistered) hp ⟨n', m', place'⟩
  have hrefcount' := h.refcount
  have hretained' := h.retained
  have honce' := h.once
  have hregistered' := h.registered
  unfold State.held at hretained' honce'
  have hall : ∀ q ∈ s.parties.set i ⟨n', m', place'⟩, q ∈ s.parties ∨ q = ⟨n', m', place'⟩ :=
    fun q hq => List.mem_or_eq_of_mem_set hq
  have hnew : retained = tally Party.held (s.parties.set i ⟨n', m', place'⟩) := by
    omega
  refine ⟨?_, hnew, ?_, ?_, ?_, ?_, ?_⟩
  · show refcount = tally Party.counted (s.parties.set i ⟨n', m', place'⟩)
    omega
  · exact hnew.symm.trans_lt hsmall
  · unfold State.held
    rw [← hnew]
    show _ + tally _ (s.parties.set i ⟨n', m', place'⟩) + destroyed = 1
    omega
  · show registered.toNat + tally _ (s.parties.set i ⟨n', m', place'⟩) + destroyed = 1
    omega
  · intro q hq
    rcases hall q hq with hq | hq
    · exact h.owns q hq
    · rw [hq]
      exact fun hb => decide_eq_true (howns hb)
  · intro q hq
    rcases hall q hq with hq | hq
    · exact h.handleGone q hq
    · rw [hq]
      exact hgone

theorem held_le (h : s.parties[i]? = some p) : p.held ≤ s.held :=
  le_tally Party.held (List.mem_of_getElem? h)

/-- A party that is in a call has its share in one of the three cases. -/
theorem Inv.destroyed_eq_zero (h : Inv s) (hp : s.parties[i]? = some p) (hplace : p.place ≠ .idle) :
    s.destroyed = 0 := by
  have hmem := List.mem_of_getElem? hp
  have honce := h.once
  have hheld := held_le hp
  have hlast : p.place.last ≤ tally (fun p => p.place.last) s.parties :=
    le_tally (fun p => p.place.last) hmem
  have howns := h.owns p hmem
  have hshare : 0 < p.held + p.place.last := by
    unfold Party.held
    unfold Party.owns at howns
    cases hp' : p.place <;> rw [hp'] at howns hplace <;>
      simp only [Place.borrows, Place.held, Place.last, decide_eq_true_eq, forall_const,
        ne_eq, not_true_eq_false] at howns hplace ⊢ <;> omega
  omega

/-! ## What a step does -/

/-- Handles are held. -/
theorem Inv.refcount_le (h : Inv s) : s.refcount ≤ s.retained := by
  rw [h.refcount, h.retained]
  refine tally_le fun p _ => ?_
  unfold Party.counted Party.held
  cases p.place <;> simp only [Place.counted, Place.held] <;> omega

/-- While the signal is held, the map has it. -/
theorem Inv.registered_of_held (h : Inv s) (hheld : 0 < s.held) : s.registered = true := by
  have honce := h.once
  have hregistered := h.registered
  have hle : tally (fun p => p.place.deregistered) s.parties ≤
      tally (fun p => p.place.last) s.parties := by
    refine tally_le fun p _ => ?_
    cases p.place <;> simp [Place.deregistered, Place.last]
  cases hr : s.registered
  · rw [hr, Bool.toNat_false] at hregistered
    omega
  · rfl

/-- A step that changes neither the counters nor the shares. -/
theorem Inv.quiet (h : Inv s) {n m n' m' : Nat} {place place' : Place}
    (hp : s.parties[i]? = some ⟨n, m, place⟩) (howns : place'.borrows = true → 0 < n' + m')
    (hgone : place' ≠ .destructor) (hcounted : n + place.counted = n' + place'.counted)
    (hheld : n + m + place.held = n' + m' + place'.held) (hlast : place.last = place'.last)
    (hderegistered : place.deregistered = place'.deregistered) :
    Inv (s.put i ⟨n', m', place'⟩) := by
  have hsmall : s.retained < 2 ^ 32 := by
    rw [h.retained]
    exact h.small
  exact h.change hp howns hgone (by omega) (by omega) hsmall (by omega) (by omega)

section

variable {n m : Nat}

theorem Inv.retain (h : Inv s) (hp : s.parties[i]? = some ⟨n, m, .retain⟩)
    (hfew : s.held + 1 < 2 ^ 32) :
    Inv ({ s with retained := increment s.retained }.put i ⟨n, m + 1, .idle⟩) := by
  have hretained := h.retained
  have hincrement := increment_eq (hretained.symm ▸ hfew)
  have hheld := held_le hp
  have hown : 0 < n + m := of_decide_eq_true (h.owns _ (List.mem_of_getElem? hp) rfl)
  simp only [Party.held, Place.held] at hheld
  rw [hincrement]
  show Inv ⟨s.refcount, s.retained + 1, s.registered, s.destroyed, s.parties.set i _⟩
  refine h.change hp (fun hb => by cases hb) (by simp) ?_ ?_ ?_ ?_ ?_
  · rfl
  · simp only [Place.held]
    omega
  · omega
  · simp only [Place.last]
    omega
  · rfl

theorem Inv.duplicateIpc (h : Inv s) (hp : s.parties[i]? = some ⟨n, m, .duplicateIpc⟩)
    (hfew : s.held + 1 < 2 ^ 32) :
    Inv ({ s with refcount := increment s.refcount, retained := increment s.retained }.put i
      ⟨n + 1, m, .idle⟩) := by
  have hretained := h.retained
  have hle := h.refcount_le
  have hincrement := increment_eq (hretained.symm ▸ hfew)
  have hincrement' : increment s.refcount = s.refcount + 1 := increment_eq (by omega)
  have hheld := held_le hp
  have hown : 0 < n + m := of_decide_eq_true (h.owns _ (List.mem_of_getElem? hp) rfl)
  simp only [Party.held, Place.held] at hheld
  rw [hincrement, hincrement']
  show Inv ⟨s.refcount + 1, s.retained + 1, s.registered, s.destroyed, s.parties.set i _⟩
  refine h.change hp (fun hb => by cases hb) (by simp) ?_ ?_ ?_ ?_ ?_
  · simp only [Place.counted]
    omega
  · simp only [Place.held]
    omega
  · omega
  · simp only [Place.last]
    omega
  · rfl

theorem Inv.destroy (h : Inv s) (hp : s.parties[i]? = some ⟨n, m, .destroy⟩) {place : Place}
    (hplace : place = .cas ∨ place = .release) :
    Inv ({ s with refcount := decrement s.refcount }.put i ⟨n, m, place⟩) := by
  have hcount : n + 1 ≤ s.refcount := by
    rw [h.refcount]
    exact le_tally Party.counted (List.mem_of_getElem? hp)
  have hle := h.refcount_le
  have hsmall := h.small
  have hretained := h.retained
  have hdecrement := decrement_eq (show 0 < s.refcount by omega)
  rw [hdecrement]
  have hshares : place.counted = 0 ∧ place.held = 1 ∧ place.last = 0 ∧ place.deregistered = 0 ∧
      place.borrows = false ∧ place ≠ .destructor := by
    rcases hplace with hplace | hplace <;> rw [hplace] <;> decide
  obtain ⟨hcounted, hheld, hlast, hderegistered, hborrows, hgone⟩ := hshares
  show Inv ⟨s.refcount - 1, s.retained, s.registered, s.destroyed, s.parties.set i _⟩
  refine h.change hp (fun hb => by cases hborrows.symm.trans hb) hgone ?_ ?_ ?_ ?_ ?_
  · rw [hcounted]
    show s.refcount - 1 + n + 1 = _
    omega
  · rw [hheld]
    rfl
  · omega
  · rw [hlast]
    rfl
  · rw [hderegistered]
    rfl

theorem Inv.release (h : Inv s) (hp : s.parties[i]? = some ⟨n, m, .release⟩) :
    Inv ({ s with retained := decrement s.retained }.put i
      ⟨n, m, if decrement s.retained = 0 then .released else .idle⟩) := by
  have hheld := held_le hp
  have hsmall := h.small
  have hretained := h.retained
  simp only [Party.held, Place.held] at hheld
  have hdecrement := decrement_eq (show 0 < s.retained by omega)
  rw [hdecrement]
  have hshares : ∀ place : Place, place.counted = 0 → place.held = 0 → place.borrows = false →
      place.deregistered = 0 → place ≠ .destructor →
      min (s.retained - 1) 1 + place.last = min s.retained 1 →
      Inv ⟨s.refcount, s.retained - 1, s.registered, s.destroyed, s.parties.set i ⟨n, m, place⟩⟩ := by
    intro place hcounted hheld' hborrows hderegistered hgone hlast
    refine h.change hp (fun hb => by cases hborrows.symm.trans hb) hgone ?_ ?_ ?_ ?_ ?_
    · rw [hcounted]
      rfl
    · rw [hheld']
      show s.retained - 1 + n + m + 1 = _
      omega
    · omega
    · rw [hlast]
      rfl
    · rw [hderegistered]
      rfl
  by_cases hzero : s.retained - 1 = 0
  · rw [if_pos hzero]
    exact hshares .released rfl rfl rfl rfl (by simp) (by simp only [Place.last]; omega)
  · rw [if_neg hzero]
    exact hshares .idle rfl rfl rfl rfl (by simp) (by simp only [Place.last]; omega)

/-- The call that has brought `retained_` to zero finds nobody that holds the signal. -/
theorem Inv.held_of_last (h : Inv s) {place : Place} (hp : s.parties[i]? = some ⟨n, m, place⟩)
    (hlast : place.last = 1) : s.held = 0 ∧ s.refcount = 0 := by
  have honce := h.once
  have hle := h.refcount_le
  have hretained := h.retained
  have hshare : place.last ≤ tally (fun p => p.place.last) s.parties :=
    le_tally (fun p => p.place.last) (List.mem_of_getElem? hp)
  omega

theorem Inv.deregisterIpc (h : Inv s) (hp : s.parties[i]? = some ⟨n, m, .deregisterIpc⟩) :
    s.registered = true ∧ Inv ({ s with registered := false }.put i ⟨n, m, .doDestroySignal⟩) := by
  have honce := h.once
  have hregistered := h.registered
  have hsmall := h.small
  have hretained := h.retained
  have hlast : _ + 1 = _ + 0 := tally_set (fun p => p.place.last) hp ⟨n, m, .idle⟩
  have hle : _ + 0 = tally (fun p => p.place.deregistered) s.parties + 0 :=
    tally_set (fun p => p.place.deregistered) hp ⟨n, m, .idle⟩
  have hother : tally (fun p => p.place.deregistered) (s.parties.set i ⟨n, m, .idle⟩) ≤
      tally (fun p => p.place.last) (s.parties.set i ⟨n, m, .idle⟩) := by
    refine tally_le fun p _ => ?_
    cases p.place <;> simp [Place.deregistered, Place.last]
  have htrue : s.registered = true := by
    cases hr : s.registered
    · rw [hr, Bool.toNat_false] at hregistered
      omega
    · rfl
  refine ⟨htrue, ?_⟩
  show Inv ⟨s.refcount, s.retained, false, s.destroyed, s.parties.set i _⟩
  refine h.change hp (fun hb => by cases hb) (by simp) rfl rfl (by omega) rfl ?_
  rw [htrue]
  show 0 + 1 + s.destroyed = 1 + 0 + s.destroyed
  omega

theorem Inv.doDestroySignal (h : Inv s) (hp : s.parties[i]? = some ⟨n, m, .doDestroySignal⟩) :
    Inv ({ s with destroyed := s.destroyed + 1 }.put i ⟨n, m, .idle⟩) := by
  have hsmall := h.small
  have hretained := h.retained
  show Inv ⟨s.refcount, s.retained, s.registered, s.destroyed + 1, s.parties.set i _⟩
  refine h.change hp (fun hb => by cases hb) (by simp) rfl rfl (by omega) ?_ ?_
  · simp only [Place.last]
    omega
  · simp only [Place.deregistered]
    omega

end

/-- A step of a party that is in a call has a result, and keeps the invariant while there is room
in the counters. -/
theorem Inv.advance (h : Inv s) (hp : s.parties[i]? = some p) (hplace : p.place ≠ .idle) :
    ∃ t, s.advance i p = some t ∧
      ((p.place = .retain ∨ p.place = .duplicateIpc → s.held + 1 < 2 ^ 32) → Inv t) := by
  have hmem := List.mem_of_getElem? hp
  have hown := h.owns p hmem
  have hgone := h.handleGone p hmem
  obtain ⟨n, m, place⟩ := p
  cases place with
  | idle => exact absurd rfl hplace
  | retain => exact ⟨_, rfl, fun hfew => h.retain hp (hfew (.inl rfl))⟩
  | isIPC =>
    exact ⟨_, rfl, fun _ =>
      h.quiet hp (fun _ => of_decide_eq_true (hown rfl)) (by simp) rfl rfl rfl rfl⟩
  | duplicateIpc =>
    have hheld : n + m ≤ s.held := held_le hp
    have howns : 0 < n + m := of_decide_eq_true (hown rfl)
    have hregistered := h.registered_of_held (by omega)
    refine ⟨_, ?_, fun hfew => h.duplicateIpc hp (hfew (.inr rfl))⟩
    show (if s.registered = true then _ else _) = _
    rw [if_pos hregistered]
  | destroy =>
    refine ⟨_, rfl, fun _ => h.destroy hp ?_⟩
    split
    · exact .inl rfl
    · exact .inr rfl
  | cas => exact ⟨_, rfl, fun _ =>
      h.quiet hp (fun hb => by cases hb) (by simp) rfl rfl rfl rfl⟩
  | release => exact ⟨_, rfl, fun _ => h.release hp⟩
  | released => exact ⟨_, rfl, fun _ =>
      h.quiet hp (fun hb => by cases hb) (by simp) rfl rfl rfl rfl⟩
  | deregisterIpc =>
    have hzero := (h.held_of_last hp rfl).2
    obtain ⟨hregistered, hinv⟩ := h.deregisterIpc hp
    refine ⟨_, ?_, fun _ => hinv⟩
    simp only [State.advance, State.deRegisterIpc, hzero, hregistered, ne_eq, not_true_eq_false,
      if_false, if_true]
    rfl
  | doDestroySignal =>
    have hzero := (h.held_of_last hp rfl).2
    refine ⟨_, ?_, fun _ => h.doDestroySignal hp⟩
    show (if s.refcount = 1 then _ else _) = _
    rw [if_neg (by omega)]
    rfl
  | destructor => exact absurd rfl hgone

theorem Inv.step (h : Inv s) (henabled : s.enabled (.step i) = true) :
    ∃ t, s.next (.step i) = some t ∧ (Few s (.step i) → Inv t) := by
  cases hp : s.parties[i]? with
  | none => simp [State.enabled, hp] at henabled
  | some p =>
    simp only [State.enabled, hp, Option.any_some, decide_eq_true_eq] at henabled
    obtain ⟨t, ht, hinv⟩ := h.advance hp henabled
    refine ⟨t, ?_, fun hfew => hinv fun hplace => hfew ?_⟩
    · simp only [State.next, hp]
      rw [if_neg fun hfault => hfault.2 (h.destroyed_eq_zero hp henabled)]
      exact ht
    · simp only [State.grows, hp, Option.any_some, decide_eq_true_eq]
      exact hplace

theorem Inv.call {c : Call} (h : Inv s) (henabled : s.enabled (.call i c) = true) :
    ∃ t, s.next (.call i c) = some t ∧ Inv t := by
  cases hp : s.parties[i]? with
  | none => simp [State.enabled, hp] at henabled
  | some p =>
    simp only [State.enabled, hp, Option.any_some, decide_eq_true_eq] at henabled
    obtain ⟨n, m, place⟩ := p
    obtain ⟨hplace, hmay⟩ := henabled
    replace hplace : place = .idle := hplace
    subst hplace
    refine ⟨s.put i (Party.start ⟨n, m, .idle⟩ c), by simp only [State.next, hp], ?_⟩
    cases c with
    | retain => exact h.quiet hp (fun _ => of_decide_eq_true hmay) (by simp) rfl rfl rfl rfl
    | duplicateSignalHandle =>
      exact h.quiet hp (fun _ => of_decide_eq_true hmay) (by simp) rfl rfl rfl rfl
    | destroySignal =>
      have hpos : 0 < n := of_decide_eq_true hmay
      refine h.quiet hp (fun hb => by cases hb) (by simp) ?_ ?_ rfl rfl
      · show n + 0 = n - 1 + 1
        omega
      · show n + m + 0 = n - 1 + m + 1
        omega
    | release =>
      have hpos : 0 < m := of_decide_eq_true hmay
      refine h.quiet hp (fun hb => by cases hb) (by simp) rfl ?_ rfl rfl
      show n + m + 0 = n + (m - 1) + 1
      omega

/-- What one party gives, another one gets. -/
theorem Inv.give {q q' : Party} (h : Inv s) (hp : s.parties[i]? = some p) (hplace : p.place = .idle)
    (hplace' : p'.place = .idle) (hq : (s.parties.set i p')[j]? = some q) (hat : q'.place = q.place)
    (hhandles : p'.handles + q'.handles = p.handles + q.handles)
    (hretains : p'.retains + q'.retains = p.retains + q.retains)
    (hgets : q.handles + q.retains ≤ q'.handles + q'.retains) :
    Inv ((s.put i p').put j q') := by
  have hshares : p'.counted + q'.counted = p.counted + q.counted ∧
      p'.held + q'.held = p.held + q.held := by
    unfold Party.counted Party.held
    rw [hplace, hplace', hat]
    omega
  have hcounted := tally_set Party.counted hp p'
  have hcounted' := tally_set Party.counted hq q'
  have hheld := tally_set Party.held hp p'
  have hheld' := tally_set Party.held hq q'
  have hlast := tally_set (fun p => p.place.last) hp p'
  have hlast' := tally_set (fun p => p.place.last) hq q'
  have hderegistered := tally_set (fun p => p.place.deregistered) hp p'
  have hderegistered' := tally_set (fun p => p.place.deregistered) hq q'
  simp only [hplace, hplace', hat] at hlast hlast' hderegistered hderegistered'
  have hsum : ((s.put i p').put j q').held = s.held := by
    show tally Party.held ((s.parties.set i p').set j q') = tally Party.held s.parties
    omega
  have hold : ∀ r ∈ s.parties.set i p', (r.place.borrows = true → r.owns = true) ∧
      r.place ≠ .destructor := by
    intro r hr
    rcases List.mem_or_eq_of_mem_set hr with hr | hr
    · exact ⟨h.owns r hr, h.handleGone r hr⟩
    · rw [hr, hplace']
      exact ⟨fun hb => (by cases hb), by simp⟩
  have hall : ∀ r ∈ (s.parties.set i p').set j q', (r.place.borrows = true → r.owns = true) ∧
      r.place ≠ .destructor := by
    intro r hr
    rcases List.mem_or_eq_of_mem_set hr with hr | hr
    · exact hold r hr
    · obtain ⟨hown, hgone⟩ := hold q (List.mem_of_getElem? hq)
      rw [hr, hat]
      refine ⟨fun hb => ?_, hgone⟩
      have hpos := of_decide_eq_true (hown hb)
      exact decide_eq_true (by omega)
  refine ⟨?_, ?_, ?_, ?_, ?_, fun r hr => (hall r hr).1, fun r hr => (hall r hr).2⟩
  · show s.refcount = tally Party.counted ((s.parties.set i p').set j q')
    have hrefcount := h.refcount
    omega
  · rw [hsum]
    exact h.retained
  · rw [hsum]
    exact h.small
  · rw [hsum]
    show _ + tally (fun p => p.place.last) ((s.parties.set i p').set j q') + s.destroyed = 1
    have honce := h.once
    omega
  · show s.registered.toNat +
      tally (fun p => p.place.deregistered) ((s.parties.set i p').set j q') + s.destroyed = 1
    have hregistered := h.registered
    omega

theorem Inv.join (h : Inv s) : Inv { s with parties := s.parties ++ [⟨0, 0, .idle⟩] } := by
  have hone : ∀ f : Party → Nat, f ⟨0, 0, .idle⟩ = 0 →
      tally f (s.parties ++ [⟨0, 0, .idle⟩]) = tally f s.parties := by
    intro f hf
    rw [tally_append, tally_cons, hf]
    rfl
  have hheld : tally Party.held (s.parties ++ [⟨0, 0, .idle⟩]) = tally Party.held s.parties :=
    hone _ rfl
  have hall : ∀ p ∈ s.parties ++ [⟨0, 0, .idle⟩], p ∈ s.parties ∨ p = ⟨0, 0, .idle⟩ := by
    intro p hp
    simpa using hp
  refine ⟨?_, ?_, ?_, ?_, ?_, fun p hp hb => ?_, fun p hp => ?_⟩
  · exact h.refcount.trans (hone _ rfl).symm
  · exact h.retained.trans hheld.symm
  · exact hheld.trans_lt h.small
  · unfold State.held
    rw [hheld, hone _ rfl]
    exact h.once
  · rw [hone _ rfl]
    exact h.registered
  · rcases hall p hp with hp | hp
    · exact h.owns p hp hb
    · rw [hp] at hb
      cases hb
  · rcases hall p hp with hp | hp
    · exact h.handleGone p hp
    · rw [hp]
      simp

/-- Every enabled action has a result, and keeps the invariant while there is room in the
counters. -/
theorem Inv.next {a : Action} (h : Inv s) (henabled : s.enabled a = true) :
    ∃ t, s.next a = some t ∧ (Few s a → Inv t) := by
  cases a with
  | join => exact ⟨_, rfl, fun _ => h.join⟩
  | giveHandle i j =>
    cases hp : s.parties[i]? with
    | none => simp [State.enabled, hp] at henabled
    | some p =>
      simp only [State.enabled, hp, Option.any_some, Bool.and_eq_true, decide_eq_true_eq] at henabled
      obtain ⟨⟨hplace, hpos⟩, hj⟩ := henabled
      have hj' : j < (s.parties.set i { p with handles := p.handles - 1 }).length := by
        rwa [List.length_set]
      obtain ⟨q, hq⟩ : ∃ q, (s.parties.set i { p with handles := p.handles - 1 })[j]? = some q :=
        ⟨_, List.getElem?_eq_getElem hj'⟩
      refine ⟨(s.put i { p with handles := p.handles - 1 }).put j
        { q with handles := q.handles + 1 }, ?_, fun _ => ?_⟩
      · simp only [State.next, hp, State.put, hq]
      refine h.give hp hplace hplace hq rfl ?_ rfl ?_
      · show p.handles - 1 + (_ + 1) = _
        omega
      · exact Nat.add_le_add_right (Nat.le_succ q.handles) q.retains
  | giveRetain i j =>
    cases hp : s.parties[i]? with
    | none => simp [State.enabled, hp] at henabled
    | some p =>
      simp only [State.enabled, hp, Option.any_some, Bool.and_eq_true, decide_eq_true_eq] at henabled
      obtain ⟨⟨hplace, hpos⟩, hj⟩ := henabled
      have hj' : j < (s.parties.set i { p with retains := p.retains - 1 }).length := by
        rwa [List.length_set]
      obtain ⟨q, hq⟩ : ∃ q, (s.parties.set i { p with retains := p.retains - 1 })[j]? = some q :=
        ⟨_, List.getElem?_eq_getElem hj'⟩
      refine ⟨(s.put i { p with retains := p.retains - 1 }).put j
        { q with retains := q.retains + 1 }, ?_, fun _ => ?_⟩
      · simp only [State.next, hp, State.put, hq]
      refine h.give hp hplace hplace hq rfl rfl ?_ ?_
      · show p.retains - 1 + (_ + 1) = _
        omega
      · exact Nat.add_le_add_left (Nat.le_succ q.retains) q.handles
  | call i c =>
    obtain ⟨t, ht, hinv⟩ := h.call henabled
    exact ⟨t, ht, fun _ => hinv⟩
  | step i => exact h.step henabled

theorem Inv.finished_iff (h : Inv s) : s.destroyed = 1 ↔ s.Finished := by
  have honce := h.once
  constructor
  · intro hone p hp
    have hheld : p.held ≤ s.held := le_tally Party.held hp
    have hlast : p.place.last ≤ _ := le_tally (fun p => p.place.last) hp
    have hidle : p.place = .idle := by
      by_contra hplace
      obtain ⟨i, hi⟩ := List.getElem?_of_mem hp
      have hzero := h.destroyed_eq_zero hi hplace
      omega
    obtain ⟨n, m, place⟩ := p
    replace hidle : place = .idle := hidle
    replace hheld : n + m + place.held ≤ s.held := hheld
    obtain rfl : n = 0 := by omega
    obtain rfl : m = 0 := by omega
    rw [hidle]
  · intro hfinished
    have hheld : s.held = 0 := tally_eq_zero.2 fun p hp => by rw [hfinished p hp]; rfl
    have hlast : tally (fun p => p.place.last) s.parties = 0 :=
      tally_eq_zero.2 fun p hp => by rw [hfinished p hp]; rfl
    omega

/-! ## The lifetime -/

/-- In a state that can be reached with fewer than `2 ^ 32` handles and retains at a time, no
enabled step uses the signal after it has been deleted, and it has been deleted once if and only if
nobody has it any more. -/
theorem ipc_lifetime (hrun : Run machine Few State.initial s) : Outlives s := by
  have h : Inv s := by
    refine hrun.invariant inv_initial fun t a u ht henabled hfew hstep => ?_
    obtain ⟨v, hv, hinv⟩ := ht.next henabled
    obtain rfl : v = u := Option.some.inj (hv.symm.trans hstep)
    exact hinv hfew
  have honce := h.once
  refine ⟨by omega, h.finished_iff, fun a henabled => ?_⟩
  obtain ⟨t, ht, -⟩ := h.next henabled
  rw [ht]
  rfl

/-- One party hands a duplicate to another one and both destroy their handle: the signal is
deleted, once. -/
theorem ipc_lifetime_shared : ∃ s, Run machine Few State.initial s ∧
    decide (s.destroyed = 1) = true ∧ Outlives s := by
  have hexec : ((machine.exec Few State.initial
      [.join, .call 0 .duplicateSignalHandle, .step 0, .step 0, .giveHandle 0 1,
        .call 0 .destroySignal, .step 0, .call 1 .destroySignal, .step 1, .step 0, .step 1,
        .step 1, .step 1, .step 1, .step 1]).any fun s => decide (s.destroyed = 1)) = true := by
    decide +kernel
  obtain ⟨s, hs, hone⟩ := Run.exists_of_exec hexec
  exact ⟨s, hs, hone, ipc_lifetime hs⟩

/-! ## The counters wrap -/

/-- One party retains again and again. -/
theorem run_retain (n : Nat) : Run machine anyAction State.initial
    ⟨1, (n + 1) % 2 ^ 32, true, 0, [⟨1, n, .idle⟩]⟩ := by
  induction n with
  | zero => exact .refl
  | succ n ih =>
    have hcall : Run machine anyAction State.initial
        ⟨1, (n + 1) % 2 ^ 32, true, 0, [⟨1, n, .retain⟩]⟩ := by
      refine ih.tail (a := Action.call 0 .retain) ?_ trivial rfl
      have howns : 0 < 1 + n := by omega
      exact decide_eq_true ⟨rfl, decide_eq_true howns⟩
    have hstep : Run machine anyAction State.initial
        ⟨1, increment ((n + 1) % 2 ^ 32), true, 0, [⟨1, n + 1, .idle⟩]⟩ :=
      hcall.tail (a := Action.step 0) rfl trivial rfl
    have hcount : increment ((n + 1) % 2 ^ 32) = (n + 1 + 1) % 2 ^ 32 := by
      unfold increment
      omega
    rwa [hcount] at hstep

/-- With `2 ^ 32` retains `retained_` counts the handle only: the signal is deleted with the
handle, and the next `Release` uses it. -/
theorem destroyed_in_use :
    ¬ ∀ s : State, Run machine anyAction State.initial s → Outlives s := by
  intro hall
  have hretained : Run machine anyAction State.initial
      ⟨1, 1, true, 0, [⟨1, 2 ^ 32, .idle⟩]⟩ := run_retain (2 ^ 32)
  have hexec : ((machine.exec anyAction ⟨1, 1, true, 0, [⟨1, 2 ^ 32, .idle⟩]⟩
      [.call 0 .destroySignal, .step 0, .step 0, .step 0, .step 0, .step 0, .step 0]).any fun s =>
        decide (s.destroyed = 1 ∧ s.parties = [⟨0, 2 ^ 32, .idle⟩])) = true := by
    decide +kernel
  obtain ⟨s, hs, hend⟩ := Run.exists_of_exec hexec
  obtain ⟨hone, hparties⟩ := of_decide_eq_true hend
  have hfinished := (hall s (hretained.trans hs)).iff_finished.1 hone
  have howner := hfinished ⟨0, 2 ^ 32, .idle⟩ (by rw [hparties]; exact List.mem_singleton_self _)
  exact absurd (congrArg Party.retains howner) (by decide)

end Costream.Signal.Ipc
