import Costream.Sync.Counter

/-!
# No borrow between the halves of `wait_`

`Halves` is the invariant of the channel: one half is zero, both sides are `Sound`, and a call that
is about to add itself has seen nobody on the other side.

Values in the channel count in the half of the writers.  With `2 ^ 32 - 1` of them, one more
`TryPush` makes that half zero while a `TryPop` has yet to take one off.
-/

namespace Costream.Sync.CAS

open Trace

variable {T : Type*} {s s' : State T} {side : Side} {c : Nat}

/-! ## The invariant -/

/-- In a value of `wait_` that the call has read, nobody was on the other side. -/
def Clear (wait : Nat) : Side → Prop
  | .reader => wait % 2 ^ 32 = 0
  | .writer => wait / 2 ^ 32 = 0

structure Halves (s : State T) : Prop where
  small : s.wait < 2 ^ 64
  one : s.readers = 0 ∨ s.writers = 0
  clear : ∀ c wait, s.placeOf c = some (.cas wait) → Clear wait (s.side c)
  sound : ∀ side, Sound s side

/-- A compare-and-swap that succeeds adds to a half with room in its 32 bits. -/
def Fits (s : State T) : Action T → Prop
  | .step c _ => s.placeOf c = some (.cas s.wait) → s.half (s.side c) + 1 < 2 ^ 32
  | _ => True

theorem halves_initial (capacity : Nat) : Halves (State.initial capacity : State T) := by
  have hnone : ∀ c, (State.initial capacity : State T).placeOf c = none := fun c => rfl
  refine ⟨by simp [State.initial], .inl (by simp [State.initial, State.readers]), fun c wait hp => ?_,
    fun side => ?_⟩
  · rw [hnone] at hp
    cases hp
  · have hcond : ∃ d, (State.initial capacity : State T).cond side = .create d := by
      cases side <;> exact ⟨_, rfl⟩
    obtain ⟨d, hcond⟩ := hcond
    refine ⟨?_, ?_, ?_, fun c i hp => ?_, fun c c' i hp => ?_, fun c i hp => ?_, ?_⟩
    · rw [hcond]
      exact List.nodup_nil
    · rw [hcond]
      intro i hi
      cases hi
    · rw [hcond]
      intro i hi
      cases hi
    · rw [hnone] at hp
      cases hp
    · rw [hnone] at hp
      cases hp
    · rw [hnone] at hp
      cases hp
    · have hempty : (State.initial capacity : State T).due side = ∅ := by
        refine Set.eq_empty_of_forall_notMem fun z hz => ?_
        cases z with
        | call c =>
          rcases hz with ⟨hp, -⟩ | ⟨_, hp⟩ <;> rw [hnone] at hp <;> cases hp
        | entry i =>
          obtain ⟨e, he, -⟩ := hz
          rw [hcond] at he
          simp [Cond.create] at he
      rw [hempty, Set.encard_empty]
      exact bot_le

/-- A step that leaves `wait_` alone. -/
theorem Halves.keep (h : Halves s) (hwait : s'.wait = s.wait)
    (hclear : ∀ c wait, s'.placeOf c = some (.cas wait) → Clear wait (s'.side c))
    (hsound : ∀ side, Sound s' side) : Halves s' := by
  refine ⟨by rw [hwait]; exact h.small, ?_, hclear, hsound⟩
  have := h.one
  unfold State.readers State.writers at this ⊢
  rwa [hwait]

/-- A call goes on. -/
theorem Halves.goto_of (h : Halves s) {s₁ : State T} {place : Place}
    (hwait : s₁.wait = s.wait) (hplaces : ∀ c, s₁.placeOf c = s.placeOf c)
    (hops : ∀ c, s₁.opOf c = s.opOf c)
    (hcas : ∀ wait, place = .cas wait → Clear wait (s.side c))
    (hsound : ∀ side, Sound (s₁.goto c place) side) : Halves (s₁.goto c place) := by
  refine h.keep hwait (fun c' wait hp => ?_) hsound
  rw [side_goto, side_eq_of_opOf (hops c')]
  rcases placeOf_goto_cases hp with ⟨rfl, hplace⟩ | ⟨-, hp⟩
  · exact hcas wait hplace.symm
  · rw [hplaces] at hp
    exact h.clear c' wait hp

theorem Halves.goto (h : Halves s) {place : Place} (hquiet : ∀ side, Quiet s c side place)
    (hcas : ∀ wait, place = .cas wait → Clear wait (s.side c)) : Halves (s.goto c place) :=
  h.goto_of rfl (fun _ => rfl) (fun _ => rfl) hcas fun side => (h.sound side).goto_quiet (hquiet side)

theorem notified_ne_cas (side : Side) (op : Op T) (result : Bool) (wait : Nat) :
    State.notified side op result ≠ .cas wait := by
  unfold State.notified
  split <;> simp

theorem Halves.popStep (h : Halves s) (op : Op T) (side : Side) : Halves (s.popStep c op side) := by
  have hsound := fun side' => (h.sound side').popStep (c := c) op side
  unfold State.popStep at hsound ⊢
  split
  · rename_i hpop
    simp only [hpop] at hsound
    exact h.goto_of rfl (fun _ => rfl) (fun _ => rfl)
      (fun wait hw => absurd hw (notified_ne_cas side op false wait)) hsound
  · rename_i ptr cond hpop
    simp only [hpop] at hsound
    exact h.goto_of (by cases side <;> rfl) (placeOf_setCond s side cond) (opOf_setCond s side cond)
      (fun wait hw => by cases hw) hsound

theorem Halves.notifyStep (h : Halves s) {ptr : Nat} (hp : s.placeOf c = some (.notify side ptr))
    (op : Op T) : Halves (s.notifyStep c op side ptr) := by
  have hsound : ∀ side', Sound (s.notifyStep c op side ptr) side' := by
    intro side'
    by_cases hne : side = side'
    · subst hne
      exact (h.sound side).notifyStep hp op
    · exact (h.sound side').notifyStep_other hne ptr op
  have hcas : ∀ wait, State.notified side op true = .cas wait → Clear wait (s.side c) :=
    fun wait hw => absurd hw (notified_ne_cas side op true wait)
  have hwaitf : ∀ (s : State T) (e : Entry T), (s.functor c op e).wait = s.wait :=
    fun s e => (same_functor s c op e side).wait
  unfold State.notifyStep at hsound ⊢
  cases he : (s.cond side).entries[ptr]? with
  | none => exact h
  | some e =>
    simp only [he] at hsound
    dsimp only
    by_cases hwait : e.isWaiting
    · rw [if_pos hwait] at hsound ⊢
      split
      · rename_i cond heq
        simp only [heq] at hsound
        refine h.goto_of ?_ (fun c' => ?_) (fun c' => ?_) hcas hsound
        · rw [hwaitf]
          cases side <;> rfl
        · rw [placeOf_functor, placeOf_setCond]
        · rw [opOf_functor, opOf_setCond]
      · rename_i cond heq
        simp only [heq] at hsound
        exact h.goto_of (by cases side <;> rfl) (placeOf_setCond s side cond)
          (opOf_setCond s side cond) (fun wait hw => by cases hw) hsound
    · rw [if_neg hwait] at hsound ⊢
      exact h.goto_of (hwaitf s e) (fun c' => placeOf_functor s c c' op e)
        (fun c' => opOf_functor s c c' op e) hcas hsound

theorem Halves.queued (h : Halves s) (hp : s.placeOf c = some .enqueue) (hside : s.side c = side)
    (value : Option T) (needWait : Bool) (verdict : Bool × Bool) :
    Halves (s.queued c side value needWait verdict) := by
  refine h.goto_of (by cases side <;> rfl) (placeOf_setCond s side _) (opOf_setCond s side _)
    (fun wait hw => ?_) fun side' => ?_
  · split at hw <;> cases hw
  · by_cases hne : side = side'
    · subst hne
      exact (h.sound side).queued hp hside value needWait verdict
    · exact (h.sound side').queued_other hne hside value needWait verdict

/-- A call that is refused owes one. -/
theorem Halves.refuse (h : Halves s) (hp : s.placeOf c = some .enqueue) (hside : s.side c = side) :
    Halves (s.goto c (.subtract side false)) := by
  refine h.goto_of rfl (fun _ => rfl) (fun _ => rfl) (fun wait hw => by cases hw) fun side' => ?_
  by_cases hne : side = side'
  · subst hne
    exact (h.sound side).goto_due trivial (.inl ⟨hp, hside⟩)
  · exact (h.sound side').goto_quiet hne

theorem Halves.unpark (h : Halves s) {i : Nat} (hp : s.placeOf c = some (.parked i))
    (hside : s.side c = side) : Halves (s.unpark c side i) := by
  have hsound := fun side' => (h.sound side').unpark hp side hside
  unfold State.unpark at hsound ⊢
  split
  · rename_i hfired
    simp only [hfired] at hsound
    exact h.goto_of rfl (fun _ => rfl) (fun _ => rfl) (fun wait hw => by cases hw) hsound
  · exact h.goto (fun _ => trivial) (fun wait hw => by cases hw)

theorem Halves.subtract (h : Halves s) {result : Bool}
    (hp : s.placeOf c = some (.subtract side result)) :
    Halves ((s.subtract side).goto c (.done result)) := by
  obtain ⟨hne, -⟩ := Sound.subtract h.sound h.small hp side
  have hhalf := fun side' => (half_subtract hne h.small side').1
  refine ⟨(half_subtract hne h.small side).2, ?_, fun c' wait hp' => ?_, fun side' =>
    (Sound.subtract h.sound h.small hp side').2⟩
  · have hreaders := hhalf .reader
    have hwriters := hhalf .writer
    have hone := h.one
    show (s.subtract side).readers = 0 ∨ (s.subtract side).writers = 0
    cases side <;> simp only [State.half, reduceIte, reduceCtorEq] at * <;> omega
  · rw [side_goto, side_eq_of_opOf (opOf_subtract s side c')]
    rcases placeOf_goto_cases hp' with ⟨-, hplace⟩ | ⟨-, hp'⟩
    · cases hplace
    · exact h.clear c' wait hp'

theorem Halves.add (h : Halves s) (hp : s.placeOf c = some (.cas s.wait))
    (hroom : s.half (s.side c) + 1 < 2 ^ 32) :
    Halves ({ s with wait := (s.wait + State.one (s.side c)) % 2 ^ 64 }.goto c .enqueue) := by
  have hhalf := half_add hroom h.small
  have hclear := h.clear c s.wait hp
  refine ⟨Nat.mod_lt _ (by decide), ?_, fun c' wait hp' => ?_, Sound.add h.sound h.small hroom⟩
  · have hreaders := hhalf .reader
    have hwriters := hhalf .writer
    show State.half _ .reader = 0 ∨ State.half _ .writer = 0
    cases hside : s.side c with
    | reader =>
      right
      rw [hside] at hwriters hclear
      exact hwriters.trans hclear
    | writer =>
      left
      rw [hside] at hreaders hclear
      exact hreaders.trans hclear
  · rw [side_goto, side_eq_of_opOf (opOf_setWait s _ c')]
    rcases placeOf_goto_cases hp' with ⟨-, hplace⟩ | ⟨-, hp'⟩
    · cases hplace
    · exact h.clear c' wait hp'

theorem side_of_op {op : Op T} (hop : s.opOf c = some op) :
    s.side c = match op with | .push _ => Side.writer | _ => .reader := by
  unfold State.side
  have hop' : s.calls[c]?.map Call.op = some op := hop
  rw [hop']
  cases op <;> rfl

/-- The compare-and-swap of a call. -/
theorem Halves.cas (h : Halves s) {wait : Nat} (hp : s.placeOf c = some (.cas wait))
    (hside : s.side c = side)
    (hfits : s.placeOf c = some (.cas s.wait) → s.half (s.side c) + 1 < 2 ^ 32) :
    Halves (if s.wait = wait then
      { s with wait := (s.wait + State.one side) % 2 ^ 64 }.goto c .enqueue else s.goto c .load) := by
  subst hside
  split
  · rename_i hw
    subst hw
    exact h.add hp (hfits hp)
  · exact h.goto (fun _ => trivial) (fun wait hw => by cases hw)

theorem Halves.push (h : Halves s) {t : T} (hop : s.opOf c = some (.push t)) {place : Place}
    (hp : s.placeOf c = some place) (bWait : Bool) (verdict : Bool × Bool)
    (hfits : s.placeOf c = some (.cas s.wait) → s.half (s.side c) + 1 < 2 ^ 32) :
    Halves (s.push c t bWait verdict place) := by
  have hside : s.side c = .writer := side_of_op hop
  cases place with
  | start =>
    refine h.goto (fun side => ?_) fun wait hw => ?_
    · split <;> trivial
    · split at hw <;> cases hw
  | load =>
    simp only [State.push]
    split
    · exact h.goto (fun _ => trivial) (fun wait hw => by cases hw)
    · rename_i hreaders
      split
      · exact h.goto (fun _ => trivial) (fun wait hw => by cases hw)
      · refine h.goto (fun _ => trivial) fun wait hw => ?_
        cases hw
        rw [hside]
        exact not_not.1 hreaders
  | pop side => exact h.popStep _ side
  | notify side ptr => exact h.notifyStep hp _
  | again =>
    refine h.goto (fun side => ?_) fun wait hw => ?_
    · split <;> trivial
    · split at hw <;> cases hw
  | subtract side result => exact h.subtract hp
  | cas wait => exact h.cas hp hside hfits
  | enqueue =>
    simp only [State.push, State.enqueuePush]
    split
    · exact h.refuse hp hside
    · split
      · exact h.queued hp hside _ _ _
      · split
        · exact h.queued hp hside _ _ _
        · exact h.refuse hp hside
  | parked i => exact h.unpark hp hside
  | resume => exact h.goto (fun _ => trivial) (fun wait hw => by cases hw)
  | done result => exact h

theorem Halves.pop (h : Halves s) (hop : s.opOf c = some .pop) {place : Place}
    (hp : s.placeOf c = some place) (bWait : Bool) (verdict : Bool × Bool)
    (hfits : s.placeOf c = some (.cas s.wait) → s.half (s.side c) + 1 < 2 ^ 32) :
    Halves (s.pop c bWait verdict place) := by
  have hside : s.side c = .reader := side_of_op hop
  cases place with
  | start => exact h.goto (fun _ => trivial) (fun wait hw => by cases hw)
  | load =>
    simp only [State.pop]
    split
    · exact h.goto (fun _ => trivial) (fun wait hw => by cases hw)
    · rename_i hwriters
      split
      · exact h.goto (fun _ => trivial) (fun wait hw => by cases hw)
      · refine h.goto (fun _ => trivial) fun wait hw => ?_
        cases hw
        rw [hside]
        exact not_not.1 hwriters
  | pop side => exact h.popStep _ side
  | notify side ptr => exact h.notifyStep hp _
  | again =>
    refine h.goto (fun side => ?_) fun wait hw => ?_
    · split <;> trivial
    · split at hw <;> cases hw
  | subtract side result => exact h.subtract hp
  | cas wait => exact h.cas hp hside hfits
  | enqueue =>
    simp only [State.pop, State.enqueuePop]
    split
    · exact h.refuse hp hside
    · exact h.queued hp hside _ _ _
  | parked i => exact h.unpark hp hside
  | resume => exact h.goto (fun _ => trivial) (fun wait hw => by cases hw)
  | done result => exact h

theorem Halves.close (h : Halves s) {place : Place} (hp : s.placeOf c = some place) :
    Halves (s.close c place) := by
  cases place with
  | start =>
    simp only [State.close]
    split
    · exact h.goto (fun _ => trivial) (fun wait hw => by cases hw)
    · have hsame : ∀ side, Same s { s with closed := true } side :=
        fun side => ⟨fun _ => rfl, fun _ => rfl, by cases side <;> rfl, rfl⟩
      refine h.goto_of rfl (fun _ => rfl) (opOf_setClosed s true) (fun wait hw => by cases hw) ?_
      exact fun side => ((h.sound side).of_same (hsame side)).goto_quiet trivial
  | pop side => exact h.popStep _ side
  | notify side ptr => exact h.notifyStep hp _
  | _ => exact h

/-- What one step preserves. -/
theorem Halves.step_call (h : Halves s) (verdict : Bool × Bool)
    (hfits : s.placeOf c = some (.cas s.wait) → s.half (s.side c) + 1 < 2 ^ 32) :
    Halves (s.step c verdict) := by
  unfold State.step
  cases hcall : s.calls[c]? with
  | none => exact h
  | some call =>
    have hp : s.placeOf c = some call.place := by rw [State.placeOf, hcall]; rfl
    have hop : s.opOf c = some call.op := by rw [State.opOf, hcall]; rfl
    dsimp only
    split
    · rename_i t heq
      exact h.push (heq ▸ hop) hp call.bWait verdict hfits
    · rename_i heq
      exact h.pop (heq ▸ hop) hp call.bWait verdict hfits
    · exact h.close hp

/-- A deadline passes. -/
theorem Halves.expire (h : Halves s) {i : Nat}
    (hwaiting : s.stage c = some .waiting) (hp : s.placeOf c = some (.parked i)) :
    Halves (s.setCond (s.side c) ((s.cond (s.side c)).setStage i .fired)) := by
  refine h.keep (by cases s.side c <;> rfl) (fun c' wait hp' => ?_) fun side => ?_
  · rw [placeOf_setCond] at hp'
    rw [side_eq_of_opOf (opOf_setCond s _ _ c')]
    exact h.clear c' wait hp'
  · by_cases hne : s.side c = side
    · subst hne
      refine (h.sound (s.side c)).setStage fun e he _ => ?_
      have hp' : s.calls[c]?.map Call.place = some (.parked i) := hp
      unfold State.stage at hwaiting
      rw [hp'] at hwaiting
      dsimp only at hwaiting
      rw [he] at hwaiting
      exact Option.some.inj hwaiting
    · exact (h.sound side).of_same (same_setCond s _ (Ne.symm hne))

/-! ### A new call -/

theorem placeOf_call {op : Op T} {bWait : Bool} {p : Place}
    (hp : (step s (.call op bWait)).placeOf c = some p) :
    p = .start ∨ s.placeOf c = some p ∧ (step s (.call op bWait)).side c = s.side c := by
  unfold State.placeOf State.side step at *
  dsimp only at *
  rw [List.getElem?_append] at *
  split at hp
  · rename_i hlt
    rw [if_pos hlt] at *
    exact .inr ⟨hp, rfl⟩
  · rename_i hge
    left
    cases hc : c - s.calls.length with
    | zero =>
      rw [hc] at hp
      exact (Option.some.inj hp).symm
    | succ n =>
      rw [hc] at hp
      cases hp

theorem Sound.call (h : Sound s side) (op : Op T) (bWait : Bool) :
    Sound (step s (.call op bWait)) side := by
  have hplace : ∀ {c p}, (step s (.call op bWait)).placeOf c = some p → p ≠ .start →
      s.placeOf c = some p ∧ (step s (.call op bWait)).side c = s.side c :=
    fun hp hne => (placeOf_call hp).resolve_left hne
  have hcond : (step s (.call op bWait)).cond side = s.cond side := by cases side <;> rfl
  refine ⟨?_, ?_, ?_, fun c i hp => ?_, fun c c' i hp hp' => ?_, fun c i hp hside => ?_, ?_⟩
  · rw [hcond]
    exact h.nodup
  · rw [hcond]
    exact h.bound
  · rw [hcond]
    exact h.pos
  · rw [hcond]
    exact h.popped c i (hplace hp (by simp)).1
  · exact h.once c c' i (hplace hp (by simp)).1 (hplace hp' (by simp)).1
  · obtain ⟨hp, hs⟩ := hplace hp (by simp)
    rw [hcond]
    exact h.owner c i hp (hs ▸ hside)
  · refine (Set.encard_le_encard fun z hz => ?_).trans h.budget
    cases z with
    | call c =>
      rcases hz with ⟨hp, hside⟩ | ⟨result, hp⟩
      · obtain ⟨hp, hs⟩ := hplace hp (by simp)
        exact Or.inl ⟨hp, hs ▸ hside⟩
      · exact Or.inr ⟨result, (hplace hp (by simp)).1⟩
    | entry i =>
      obtain ⟨e, he, hdue⟩ := hz
      rw [hcond] at he
      refine ⟨e, he, ?_⟩
      unfold State.entryDue at hdue ⊢
      rw [hcond] at hdue
      split at hdue
      · rw [if_pos (by assumption)]
        refine hdue.imp_right fun ⟨hfired, c, hp, hside⟩ => ⟨hfired, c, ?_⟩
        obtain ⟨hp, hs⟩ := hplace hp (by simp)
        exact ⟨hp, hs ▸ hside⟩
      · rw [if_neg (by assumption)]
        exact hdue.imp_right fun ⟨c, hp⟩ => ⟨c, (hplace hp (by simp)).1⟩

theorem Halves.call (h : Halves s) (op : Op T) (bWait : Bool) :
    Halves (step s (.call op bWait)) := by
  refine h.keep rfl (fun c wait hp => ?_) fun side => (h.sound side).call op bWait
  obtain ⟨hp, hs⟩ := (placeOf_call hp).resolve_left (by simp)
  rw [hs]
  exact h.clear c wait hp

theorem Halves.step (h : Halves s) {a : Action T} (he : Enabled s a = true) (hfits : Fits s a) :
    Halves (CAS.step s a) := by
  cases a with
  | call op bWait => exact h.call op bWait
  | step c verdict => exact h.step_call verdict hfits
  | spurious c => exact h.goto (fun _ => trivial) (fun wait hw => by cases hw)
  | expire c =>
    unfold CAS.step
    dsimp only
    split
    · rename_i i hp
      exact h.expire (by simpa [Enabled] using he) hp
    · exact h

/-! ## The result -/

/-- Nobody is counted while somebody of the other side is, and whoever takes one off finds one. -/
structure Counted (s : State T) : Prop where
  oneSided : s.readers = 0 ∨ s.writers = 0
  noBorrow : ∀ c side result, s.placeOf c = some (.subtract side result) → s.half side ≠ 0

theorem Halves.counted (h : Halves s) : Counted s :=
  ⟨h.one, fun _ side _ hp => (Sound.subtract h.sound h.small hp side).1⟩

instance (s : State T) (a : Action T) : Decidable (Fits s a) :=
  match a with
  | .call _ _ => inferInstanceAs (Decidable True)
  | .step _ _ => inferInstanceAs (Decidable (_ → _))
  | .spurious _ => inferInstanceAs (Decidable True)
  | .expire _ => inferInstanceAs (Decidable True)

/-- As long as no half outgrows its 32 bits, `wait_` counts one side at a time, and every
subtraction finds what it takes off. -/
theorem wait_counted {capacity : Nat}
    (h : Run (machine T) Fits (State.initial capacity) s) : Counted s :=
  Halves.counted (h.invariant (P := Halves) (halves_initial capacity) fun t a u ht he hfits hs => by
    cases hs
    exact ht.step he hfits)

/-- A value is taken off while another push waits for room. -/
theorem wait_counted_pending : ∃ s, Run (machine Nat) Fits (State.initial 1) s ∧
    decide (s.placeOf 2 = some (.subtract .writer true)) = true ∧ Counted s := by
  have hexec : (((machine Nat).exec Fits (State.initial 1) [.call (.push 5) true,
      .step 0 (true, true), .step 0 (true, true), .step 0 (true, true), .step 0 (true, true),
      .call (.push 6) true, .step 1 (true, true), .step 1 (true, true), .step 1 (true, true),
      .step 1 (true, true), .call .pop false, .step 2 (true, true), .step 2 (true, true),
      .step 2 (true, true), .step 2 (true, true)]).any
      fun s => decide (s.placeOf 2 = some (.subtract .writer true))) = true := by
    decide +kernel
  obtain ⟨s, hs, hp⟩ := Run.exists_of_exec hexec
  exact ⟨s, hs, hp, wait_counted hs⟩

/-! ## Values count too

With `2 ^ 32 - 1` values in the channel, a `TryPop` has taken one out and not yet taken it off.
One more `TryPush` makes the half of the writers zero. -/

/-- How many calls have not returned. -/
def State.outstanding (s : State T) : Nat :=
  s.calls.countP fun call => match call.place with
    | .done _ => false
    | _ => true

/-- Fewer than `2 ^ 32` calls are outstanding after the action. -/
def Few (s : State T) (a : Action T) : Prop := (step s a).outstanding < 2 ^ 32

theorem outstanding_alone (s : State T) (call : Call T) :
    (s.alone call).outstanding ≤ s.outstanding + 1 := by
  unfold State.outstanding State.alone
  rw [List.countP_append, List.countP_singleton]
  gcongr
  split <;> simp

theorem outstanding_done (s : State T) (t : T) (r : Bool) :
    (s.alone (pushing t (.done r))).outstanding = s.outstanding := by
  unfold State.outstanding State.alone pushing
  simp

/-- A step of the last call. -/
theorem run_alone {s₀ : State T} {call call' : Call T}
    (hrun : Run (machine T) Few s₀ (s.alone call))
    (henabled : Enabled (s.alone call) (.step s.calls.length (true, true)) = true)
    (hstep : (s.alone call).step s.calls.length (true, true) = s'.alone call')
    (hfew : s'.outstanding ≤ 1) : Run (machine T) Few s₀ (s'.alone call') := by
  refine hrun.tail (a := .step s.calls.length (true, true)) henabled ?_ (congrArg some hstep)
  show ((s.alone call).step s.calls.length (true, true)).outstanding < 2 ^ 32
  rw [hstep]
  have := outstanding_alone s' call'
  omega

/-- A place from which a call can go on by itself. -/
def Place.going : Place → Bool
  | .parked _ => false
  | .enqueue => false
  | .done _ => false
  | _ => true

theorem enabled_going {call : Call T} (h : call.place.going = true) :
    Enabled (s.alone call) (.step s.calls.length (true, true)) = true := by
  have hp : (s.alone call).calls[s.calls.length]?.map Call.place = some call.place :=
    alone_placeOf s call
  simp only [Enabled, hp]
  cases hplace : call.place with
  | parked i =>
    rw [hplace] at h
    cases h
  | enqueue =>
    rw [hplace] at h
    cases h
  | done r =>
    rw [hplace] at h
    cases h
  | _ => rfl

theorem enabled_enqueue (t : T) (h : s.wq.queue.nodes.length + 1 < 2 ^ 64) :
    Enabled (s.alone (pushing t .enqueue)) (.step s.calls.length (true, true)) = true := by
  have hp : (s.alone (pushing t .enqueue)).calls[s.calls.length]?.map Call.place = some .enqueue :=
    alone_placeOf s _
  have hside : (s.alone (pushing t .enqueue)).side s.calls.length = .writer :=
    @side_of_op _ _ _ (.push t) (by rw [State.opOf, alone_get]; rfl)
  simp only [Enabled, hp, hside]
  exact decide_eq_true h

theorem PushStep.step_eq {t : T} {place place' : Place} (h : PushStep s t place s' place') :
    (s.alone (pushing t place)).step s.calls.length (true, true) = s'.alone (pushing t place') := by
  rw [State.step, alone_get]
  exact h.1

theorem PopStep.step_eq {place place' : Place} {got got' : Option T}
    (h : PopStep s place got s' place' got') :
    (s.alone (popping place got)).step s.calls.length (true, true) =
      s'.alone (popping place' got') := by
  rw [State.step, alone_get]
  exact h.1

/-- A new call. -/
theorem run_call {s₀ : State T} (hrun : Run (machine T) Few s₀ s) (hfew : s.outstanding ≤ 1)
    (op : Op T) : Run (machine T) Few s₀ (s.alone ⟨op, false, .start, none⟩) := by
  refine hrun.tail (a := .call op false) rfl ?_ rfl
  show (s.alone _).outstanding < 2 ^ 32
  have := outstanding_alone s ⟨op, false, .start, none⟩
  omega

variable {capacity : Nat} {xs : List T}

theorem Stores.nodes_lt (h : Stores s capacity xs) (hlt : xs.length < 2 ^ 32)
    (hroom : xs.length < capacity) : s.wq.queue.nodes.length + 1 < 2 ^ 64 := by
  obtain ⟨buffered, hshape, hvalues⟩ := (h.wq.resolve_left fun h0 => by omega).2
  have := h.count
  rw [← hshape.count]
  omega

/-- One value more. -/
theorem run_tryPush {s₀ : State T} (hrun : Run (machine T) Few s₀ s) (hnone : s.outstanding = 0)
    (h : Stores s capacity xs) (hcap : capacity < 2 ^ 64) (hlt : xs.length < 2 ^ 32)
    (hroom : xs.length < capacity) (t : T) :
    ∃ s', Run (machine T) Few s₀ s' ∧ s'.outstanding = 0 ∧ Stores s' capacity (xs ++ [t]) := by
  have hstores := h.accept hcap hlt hroom t
  have hcalls : (s.accepting xs t).outstanding = 0 := hnone
  have hcapacity : s.capacity ≠ 0 := by
    rw [h.capacity_eq]
    omega
  have hstart : Run (machine T) Few _ (s.alone (pushing t .start)) :=
    run_call hrun (by omega) (.push t)
  have hload := run_alone hstart (enabled_going rfl)
    (push_start h.opened t).step_eq (by omega)
  have hcas := run_alone hload (enabled_going rfl) (push_load (h.readers hlt) hcapacity t).step_eq
    (by omega)
  have henqueue := run_alone hcas (enabled_going rfl) (h.push_cas hlt t).step_eq
    (by show s.outstanding ≤ 1; omega)
  have hresume := run_alone (s := { s with wait := xs.length + 1 }) henqueue
    (enabled_enqueue t (h.nodes_lt hlt hroom)) (h.push_accept hroom t).step_eq (by omega)
  have hdone := run_alone hresume (enabled_going rfl) (push_resume hstores.opened t).step_eq
    (by omega)
  exact ⟨_, hdone, (outstanding_done _ t true).trans hcalls, hstores.alone _⟩

/-- As many values as the half of the writers can count. -/
theorem run_filled (n : Nat) (hn : n < 2 ^ 32) :
    ∃ s, Run (machine Nat) Few (State.initial (2 ^ 32)) s ∧ s.outstanding = 0 ∧
      Stores s (2 ^ 32) (List.replicate n 0) := by
  induction n with
  | zero => exact ⟨_, .refl, rfl, stores_initial (2 ^ 32)⟩
  | succ n ih =>
    obtain ⟨s, hrun, hnone, hstores⟩ := ih (by omega)
    have hlen : (List.replicate n 0).length = n := List.length_replicate
    rw [List.replicate_succ']
    exact run_tryPush hrun hnone hstores (by decide) (by omega) (by omega) 0

/-- A `TryPop` stops where it is about to subtract. -/
theorem run_taken {s₀ : State T} {a : T} (hrun : Run (machine T) Few s₀ s)
    (hnone : s.outstanding = 0) (h : Stores s capacity (a :: xs))
    (hlt : (a :: xs).length < 2 ^ 32) :
    ∃ s' : State T, Run (machine T) Few s₀ (s'.alone (popping (.subtract .writer true) (some a))) ∧
      s'.outstanding = 0 ∧ s'.closed = false ∧ s'.capacity = capacity ∧
      s'.wait = (a :: xs).length := by
  obtain ⟨ptr, c, e, hpop, he, haccepted, hvalue, -⟩ := h.popped
  have hwriters : s.writers ≠ 0 := by
    rw [State.writers, h.wait, Nat.mod_eq_of_lt hlt]
    simp
  have hnotify : PopStep (s.setCond .writer c) (.notify .writer ptr) none (s.setCond .writer c)
      (.subtract .writer true) (e.value <|> none) :=
    pop_notify (s := s.setCond .writer c) he haccepted
  rw [hvalue] at hnotify
  have hcalls : (s.setCond .writer c).outstanding = 0 := hnone
  have hstart : Run (machine T) Few _ (s.alone (popping .start none)) :=
    run_call hrun (by omega) .pop
  have hload := run_alone hstart (enabled_going rfl)
    (pop_start s none).step_eq (by omega)
  have hlook := run_alone hload (enabled_going rfl) (pop_load hwriters).step_eq (by omega)
  have htake := run_alone hlook (enabled_going rfl) (pop_pop hpop).step_eq (by omega)
  have htaken := run_alone htake (enabled_going rfl) hnotify.step_eq (by omega)
  exact ⟨_, htaken, hcalls, h.opened, h.capacity_eq, h.wait⟩

/-- One `TryPop` and one `TryPush` are outstanding, and the `TryPop` will borrow from the half of
the readers. -/
theorem borrows_when_full : ¬ ∀ s, Run (machine Nat) Few (State.initial (2 ^ 32)) s → Counted s := by
  intro hall
  obtain ⟨s, hrun, hnone, hstores⟩ := run_filled (2 ^ 32 - 1) (by decide)
  obtain ⟨n, hn⟩ : ∃ n, 2 ^ 32 - 1 = n + 1 := ⟨2 ^ 32 - 2, by decide⟩
  rw [hn, List.replicate_succ] at hstores
  have hlen : (0 :: List.replicate n 0).length = n + 1 := by simp
  obtain ⟨s₁, hrun₁, hnone₁, hopen, hcapacity, hwait⟩ := run_taken hrun hnone hstores (by omega)
  rw [hlen, ← hn] at hwait
  obtain ⟨call, hcall⟩ : ∃ call, call = popping (.subtract .writer true) (some 0) := ⟨_, rfl⟩
  rw [← hcall] at hrun₁
  have hone := outstanding_alone s₁ call
  have hreaders : (s₁.alone call).readers = 0 := by
    show s₁.wait / 2 ^ 32 = 0
    rw [hwait]
    decide
  have hcap : (s₁.alone call).capacity ≠ 0 := by
    show s₁.capacity ≠ 0
    rw [hcapacity]
    decide
  have hstart : Run (machine Nat) Few _ ((s₁.alone call).alone (pushing 0 .start)) :=
    run_call hrun₁ (by omega) (.push 0)
  have hload := run_alone hstart (enabled_going rfl)
    (push_start (s := s₁.alone call) hopen 0).step_eq (by omega)
  have hcas := run_alone hload (enabled_going rfl) (push_load hreaders hcap 0).step_eq (by omega)
  have henqueue := run_alone hcas (enabled_going rfl) (push_cas 0).step_eq
    (by show (s₁.alone call).outstanding ≤ 1; omega)
  have hsub := (hall _ henqueue).noBorrow s₁.calls.length .writer true ?_
  · refine hsub ?_
    show (s₁.wait + State.one .writer) % 2 ^ 64 % 2 ^ 32 = 0
    rw [hwait]
    decide
  · rw [State.placeOf, State.alone, List.getElem?_append_left]
    · show (s₁.alone call).calls[s₁.calls.length]?.map Call.place = _
      rw [alone_get, hcall]
      rfl
    · show s₁.calls.length < (s₁.calls ++ [call]).length
      simp

end Costream.Sync.CAS
