import Costream.Timer.Shared

/-!
# No timer is stranded

`RunOnce` moves `point_` and then empties the slots it passes, each under its
lock.  `StartTimer` takes the lock of a slot and looks at `point_` again before
it pushes.  So a timer that has been pushed by the old `point_` is there when
the slot is emptied.  `Inv` is the invariant that carries this argument, and
`no_timer_stranded` is the result.

It needs two conditions (`InsertOk`).

* `pop_all` looks whether the slot is empty before it takes the lock.  A
  `StartTimer` may have looked at `point_` and not have pushed yet: then
  `RunOnce` passes the slot by, and the timer is stranded in it
  (`timer_stranded`).
* The loop leaves out slots of level 4 when `RunOnce` is very late, as without
  threads.
-/

namespace Costream.Timer.Shared

open Trace

variable {T : Type*} {cfg : Config}

/-! ## The conditions -/

/-- The timer is in slot `r`, or a call is about to push it there. -/
def Placed (cfg : Config) (queue : QueueRef → List Entry)
    (inserting : Option T → Option (Entry × Insert)) (r : SlotRef) (x : Entry) : Prop :=
  x ∈ queue (.slot r) ∨
    ∃ w last, inserting w = some (x, .push last) ∧ target cfg w x last = .slot r

/-- `RunOnce` is between two lists, at stage `stage`. -/
def State.Between (s : State T) (stage : Stage) : Prop :=
  s.control = some ⟨stage, none⟩ ∧ s.inserting none = none ∧ s.queue .slist = []

/-- The sweep that is about to begin leaves out no slot with a timer in it. -/
def State.StoreInReach (cfg : Config) (s : State T) : Prop :=
  ∀ f, s.Between (.store f) → ∀ r x, Placed cfg s.queue s.inserting r x → 4 ≤ r.level →
    InReach f.last f.dest r

/-- When `pop_all` finds a slot empty, no call is about to push by an older
`point_` there. -/
def State.TestInTime (cfg : Config) (s : State T) : Prop :=
  ∀ stage r dst next, s.Between stage → stage.source = some (.slot r, dst, next) →
    s.queue (.slot r) = [] → ∀ w x last, s.inserting w = some (x, .push last) →
      target cfg w x last = .slot r → last = s.point

/-- The step of `RunOnce` comes in time. -/
def InsertOk (cfg : Config) (s : State T) (a : Act T) : Prop :=
  match a with
  | .loop => s.StoreInReach cfg ∧ s.TestInTime cfg
  | _ => True

/-! ## The invariant -/

/-- The tick that a call has loaded. -/
def Insert.loaded : Insert → Option Nat
  | .load => none
  | .enter last | .recheck last | .push last | .leave last _ => some last

/-- The call holds the lock of its queue. -/
def Insert.holds : Insert → Bool
  | .load | .enter _ => false
  | .recheck _ | .push _ | .leave _ _ => true

/-- The call has not pushed its timer yet. -/
def Insert.pending : Insert → Bool
  | .leave _ again => again
  | _ => true

/-- The call of thread `w` for timer `x` stands at `i`. -/
structure CallOk (cfg : Config) (point : Nat) (owner : QueueRef → Option (Option T))
    (control : Option Control) (w : Option T) (x : Entry) (i : Insert) : Prop where
  tp_lt : x.tp < 2 ^ 63
  loaded : ∀ last, i.loaded = some last → last ≤ point
  holds : i.holds → ∀ last, i.loaded = some last → owner (target cfg w x last) = some w
  main : w = none → ∃ f, control = some ⟨.final f, none⟩ ∧ f.now < x.tp

/-- The reading of the clock has been right. -/
structure ReadOk (cfg : Config) (clock : Int) (f : Frame) : Prop where
  tick_eq : (f.dest : Int) = cfg.tick f.now
  now_le : f.now ≤ clock

/-- What the local variables of `RunOnce` say about `point_`. -/
def Stage.Ok (cfg : Config) (point : Nat) (clock : Int) : Stage → Prop
  | .complete | .read => True
  | .store f => f.last = point ∧ ReadOk cfg clock f
  | .sweep f _ σ => f.dest = point ∧ ReadOk cfg clock f ∧ SweepInv f.last σ
  | .final f => f.dest = point ∧ ReadOk cfg clock f

/-- The lock that `pop_all` holds. -/
def Control.lock (c : Control) : Option QueueRef :=
  match c.pop with
  | some .take => c.stage.source.map Prod.fst
  | some (.unlock q) => some q
  | _ => none

/-- A timer in slot `r` is properly filed, or the sweep has still to visit the
slot. -/
def FiledAt (point : Nat) (stage : Option Stage) (due : Nat) (r : SlotRef) : Prop :=
  Filed point due r ∨ ∃ f turned σ, stage = some (.sweep f turned σ) ∧
    Filed f.last due r ∧ InReach f.last f.dest r ∧ Ahead f.last f.dest turned σ r

/-- The invariant. -/
structure Inv (cfg : Config) (s : State T) : Prop where
  last_le : cfg.lastTime s.point ≤ s.clock
  clock_lt : s.clock < 2 ^ 63
  tp_lt : ∀ q, ∀ x ∈ s.queue q, x.tp < 2 ^ 63
  calls : ∀ w x i, s.inserting w = some (x, i) → CallOk cfg s.point s.owner s.control w x i
  stage : ∀ c, s.control = some c → c.stage.Ok cfg s.point s.clock
  lock : ∀ c q, s.control = some c → c.lock = some q → s.owner q = some none
  filed : ∀ r x, Placed cfg s.queue s.inserting r x →
    FiledAt s.point (s.control.map Control.stage) (cfg.due x.tp) r
  begun : ∀ r x, Placed cfg s.queue s.inserting r x → (cfg.begin_ : Int) ≤ x.tp
  kept : ∀ x ∈ s.timers, x ∈ s.fired ∨ (∃ q, x ∈ s.queue q) ∨
    ∃ w i, s.inserting w = some (x, i) ∧ i.pending
  pool : s.queue .pool = []
  dispatchers : (∀ f turned σ pop, s.control ≠ some ⟨.sweep f turned σ, pop⟩) →
    s.queue .dispatchers = []
  slist : s.control = none → s.queue .slist = []

section Inv

variable {s : State T} {w : Option T} {x : Entry} {i : Insert}

theorem target_eq_slot {last : Nat} {r : SlotRef} (h : target cfg w x last = .slot r) :
    r = place cfg last x.tp ∧ (w.isSome → cfg.lastTime last < x.tp) := by
  rw [target] at h
  split at h
  · cases h
  · rename_i hne
    cases h
    exact ⟨rfl, fun hw => Int.not_le.1 fun hle => hne ⟨hw, hle⟩⟩

theorem target_cases (cfg : Config) (w : Option T) (x : Entry) (last : Nat) :
    target cfg w x last = .complete ∨ ∃ r, target cfg w x last = .slot r := by
  rw [target]
  split
  · exact Or.inl rfl
  · exact Or.inr ⟨_, rfl⟩

theorem ReadOk.lastTime_le {f : Frame} {clock : Int} (h : ReadOk cfg clock f) :
    cfg.lastTime f.dest ≤ f.now := by
  rw [cfg.lastTime_le_iff, h.tick_eq]

/-- The tick that a call has loaded is not after the deadline when it chooses a
slot. -/
theorem Inv.lastTime_le (h : Inv cfg s) (hi : s.inserting w = some (x, i)) {last : Nat}
    (hl : i.loaded = some last) {r : SlotRef} (ht : target cfg w x last = .slot r) :
    cfg.lastTime last ≤ x.tp := by
  have hc := h.calls w x i hi
  cases w with
  | some t => exact ((target_eq_slot ht).2 rfl).le
  | none =>
    obtain ⟨f, hf, hlt⟩ := hc.main rfl
    obtain ⟨hd, hread⟩ : f.dest = s.point ∧ ReadOk cfg s.clock f := h.stage _ hf
    have h1 := cfg.lastTime_mono (hc.loaded last hl)
    have h2 := hread.lastTime_le
    rw [hd] at h2
    exact h1.trans (h2.trans hlt.le)

/-- A call that pushes by the current `point_` files its timer properly. -/
theorem Inv.filed_of_target (h : Inv cfg s) (hi : s.inserting w = some (x, i)) {last : Nat}
    (hl : i.loaded = some last) {r : SlotRef} (ht : target cfg w x last = .slot r) :
    Filed last (cfg.due x.tp) r ∧ (cfg.begin_ : Int) ≤ x.tp := by
  have hle := h.lastTime_le hi hl ht
  refine ⟨?_, (cfg.begin_le_lastTime last).trans hle⟩
  rw [(target_eq_slot ht).1]
  exact place_filed cfg hle (h.calls w x i hi).tp_lt

theorem placed_update {queue : QueueRef → List Entry}
    {inserting : Option T → Option (Entry × Insert)} [DecidableEq T]
    {new : Option (Entry × Insert)} {r : SlotRef} {y : Entry}
    (h : Placed cfg queue (Function.update inserting w new) r y) :
    Placed cfg queue inserting r y ∨
      ∃ last, new = some (y, .push last) ∧ target cfg w y last = .slot r := by
  rcases h with h | ⟨w', last, hi, ht⟩
  · exact Or.inl (Or.inl h)
  · by_cases hw : w' = w
    · subst hw
      rw [Function.update_self] at hi
      exact Or.inr ⟨last, hi, ht⟩
    · rw [Function.update_of_ne hw] at hi
      exact Or.inl (Or.inr ⟨w', last, hi, ht⟩)

theorem CallOk.owner {point : Nat} {owner owner' : QueueRef → Option (Option T)}
    {control : Option Control} (h : CallOk cfg point owner control w x i)
    (ho : ∀ q, owner q = some w → owner' q = some w) :
    CallOk cfg point owner' control w x i :=
  ⟨h.tp_lt, h.loaded, fun hh last hl => ho _ (h.holds hh last hl), h.main⟩

/-- A step of thread `w` leaves the locks of the other threads alone. -/
theorem Inv.calls_update [DecidableEq T] (h : Inv cfg s)
    {owner' : QueueRef → Option (Option T)} {new : Option (Entry × Insert)}
    (ho : ∀ w', w' ≠ w → ∀ q, s.owner q = some w' → owner' q = some w')
    (hn : ∀ x i, new = some (x, i) → CallOk cfg s.point owner' s.control w x i) :
    ∀ w' x i, Function.update s.inserting w new w' = some (x, i) →
      CallOk cfg s.point owner' s.control w' x i := by
  intro w' x i hi
  by_cases hw : w' = w
  · subst hw
    rw [Function.update_self] at hi
    exact hn x i hi
  · rw [Function.update_of_ne hw] at hi
    exact (h.calls w' x i hi).owner (ho w' hw)

/-- A call that stays pending keeps its timer. -/
theorem Inv.kept_update [DecidableEq T] (h : Inv cfg s) (hi : s.inserting w = some (x, i))
    {new : Option (Entry × Insert)}
    (hn : i.pending → ∃ i', new = some (x, i') ∧ i'.pending) :
    ∀ y ∈ s.timers, y ∈ s.fired ∨ (∃ q, y ∈ s.queue q) ∨
      ∃ w' i', Function.update s.inserting w new w' = some (y, i') ∧ i'.pending := by
  intro y hy
  rcases h.kept y hy with hf | hq | ⟨w', i', hi', hp⟩
  · exact Or.inl hf
  · exact Or.inr (Or.inl hq)
  · by_cases hw : w' = w
    · subst hw
      rw [hi] at hi'
      cases hi'
      obtain ⟨i', he, hp'⟩ := hn hp
      exact Or.inr (Or.inr ⟨w', i', by rw [Function.update_self, he], hp'⟩)
    · exact Or.inr (Or.inr ⟨w', i', by rw [Function.update_of_ne hw, hi'], hp⟩)

end Inv

/-! ## `Dispatch(Element*, bool)` -/

section Insert

variable [DecidableEq T] {s : State T} {w : Option T} {x : Entry} {last : Nat}

theorem Inv.insert_load (h : Inv cfg s) (hi : s.inserting w = some (x, .load)) :
    Inv cfg (s.insertStep cfg w x .load) := by
  have hc := h.calls w x _ hi
  refine { h with calls := ?_, filed := ?_, begun := ?_, kept := ?_ }
  · refine h.calls_update (fun _ _ _ ho => ho) fun y i he => ?_
    cases he
    exact ⟨hc.tp_lt, fun l hl => by cases hl; exact Nat.le_refl _, nofun, hc.main⟩
  · intro r y hy
    rcases placed_update hy with hy | ⟨l, he, -⟩
    · exact h.filed r y hy
    · cases he
  · intro r y hy
    rcases placed_update hy with hy | ⟨l, he, -⟩
    · exact h.begun r y hy
    · cases he
  · exact h.kept_update hi fun _ => ⟨_, rfl, rfl⟩

theorem Inv.insert_enter (h : Inv cfg s) (hi : s.inserting w = some (x, .enter last))
    (hfree : s.owner (target cfg w x last) = none) :
    Inv cfg (s.insertStep cfg w x (.enter last)) := by
  have hc := h.calls w x _ hi
  have hother : ∀ q v, s.owner q = some v →
      Function.update s.owner (target cfg w x last) (some w) q = some v := by
    intro q v ho
    have hq : q ≠ target cfg w x last := by
      rintro rfl
      rw [hfree] at ho
      cases ho
    rwa [Function.update_of_ne hq]
  have hnew : ∀ y i, some (x, if target cfg w x last = .complete then Insert.push last
      else .recheck last) = some (y, i) → y = x ∧ (i = .push last ∧
        target cfg w x last = .complete ∨ i = .recheck last) := by
    intro y i he
    split at he <;> cases he
    · exact ⟨rfl, Or.inl ⟨rfl, ‹_›⟩⟩
    · exact ⟨rfl, Or.inr rfl⟩
  have hno : ∀ r y l, some (x, if target cfg w x last = .complete then Insert.push last
      else .recheck last) = some (y, .push l) → target cfg w y l ≠ .slot r := by
    intro r y l he ht
    obtain ⟨rfl, ⟨hl, hcomp⟩ | hl⟩ := hnew _ _ he
    · cases hl
      rw [hcomp] at ht
      cases ht
    · cases hl
  refine { h with calls := ?_, lock := ?_, filed := ?_, begun := ?_, kept := ?_ }
  · refine h.calls_update (fun w' _ q ho => hother q w' ho) fun y i he => ?_
    obtain ⟨rfl, hy⟩ := hnew y i he
    have hl : i.loaded = some last := by rcases hy with ⟨rfl, -⟩ | rfl <;> rfl
    refine ⟨hc.tp_lt, fun l hl' => ?_, fun _ l hl' => ?_, hc.main⟩
    · rw [hl] at hl'
      cases hl'
      exact hc.loaded last rfl
    · rw [hl] at hl'
      cases hl'
      exact Function.update_self ..
  · exact fun c q hcl hq => hother q none (h.lock c q hcl hq)
  · intro r y hy
    rcases placed_update hy with hy | ⟨l, he, ht⟩
    · exact h.filed r y hy
    · exact absurd ht (hno r y l he)
  · intro r y hy
    rcases placed_update hy with hy | ⟨l, he, ht⟩
    · exact h.begun r y hy
    · exact absurd ht (hno r y l he)
  · refine h.kept_update hi fun _ => ⟨_, rfl, ?_⟩
    split <;> rfl

theorem Inv.insert_recheck (h : Inv cfg s) (hi : s.inserting w = some (x, .recheck last)) :
    Inv cfg (s.insertStep cfg w x (.recheck last)) := by
  have hc := h.calls w x _ hi
  have hnew : ∀ y i, some (x, if last ≠ s.point then Insert.leave last true
      else .push last) = some (y, i) → y = x ∧ i.loaded = some last ∧
        (∀ l, i = .push l → l = last ∧ last = s.point) := by
    intro y i he
    split at he <;> cases he
    · exact ⟨rfl, rfl, nofun⟩
    · exact ⟨rfl, rfl, fun l hl => by cases hl; exact ⟨rfl, not_not.1 ‹_›⟩⟩
  refine { h with calls := ?_, filed := ?_, begun := ?_, kept := ?_ }
  · refine h.calls_update (fun _ _ _ ho => ho) fun y i he => ?_
    obtain ⟨rfl, hl, -⟩ := hnew y i he
    refine ⟨hc.tp_lt, fun l hl' => ?_, fun _ l hl' => ?_, hc.main⟩
    · rw [hl] at hl'
      cases hl'
      exact hc.loaded last rfl
    · rw [hl] at hl'
      cases hl'
      exact hc.holds rfl last rfl
  · intro r y hy
    rcases placed_update hy with hy | ⟨l, he, ht⟩
    · exact h.filed r y hy
    · -- the timer is filed by the current `point_`
      obtain ⟨rfl, -, hl⟩ := hnew _ _ he
      obtain ⟨rfl, hp⟩ := hl l rfl
      have := (h.filed_of_target hi rfl ht).1
      rw [hp] at this
      exact Or.inl this
  · intro r y hy
    rcases placed_update hy with hy | ⟨l, he, ht⟩
    · exact h.begun r y hy
    · obtain ⟨rfl, -, hl⟩ := hnew _ _ he
      obtain ⟨rfl, -⟩ := hl l rfl
      exact (h.filed_of_target hi rfl ht).2
  · refine h.kept_update hi fun _ => ⟨_, rfl, ?_⟩
    split <;> rfl

theorem Inv.insert_push (h : Inv cfg s) (hi : s.inserting w = some (x, .push last)) :
    Inv cfg (s.insertStep cfg w x (.push last)) := by
  have hc := h.calls w x _ hi
  have hmem : ∀ q y, y ∈ Function.update s.queue (target cfg w x last)
      (s.queue (target cfg w x last) ++ [x]) q ↔
        y ∈ s.queue q ∨ (q = target cfg w x last ∧ y = x) := by
    intro q y
    by_cases hq : q = target cfg w x last
    · subst hq
      simp
    · simp [hq]
  have hsame : ∀ q, q ≠ .complete → (∀ r, q ≠ .slot r) →
      Function.update s.queue (target cfg w x last)
        (s.queue (target cfg w x last) ++ [x]) q = s.queue q := by
    intro q h1 h2
    rcases target_cases cfg w x last with ht | ⟨r, ht⟩
    · rw [ht, Function.update_of_ne h1]
    · rw [ht, Function.update_of_ne (h2 r)]
  -- the timer has been about to get into the slot, and now is in it
  have hplaced : ∀ r y, Placed cfg (Function.update s.queue (target cfg w x last)
      (s.queue (target cfg w x last) ++ [x]))
      (Function.update s.inserting w (some (x, .leave last false))) r y →
      Placed cfg s.queue s.inserting r y := by
    intro r y hy
    rcases placed_update hy with (hy | hy) | ⟨l, he, -⟩
    · rcases (hmem _ y).1 hy with hy | ⟨ht, rfl⟩
      · exact Or.inl hy
      · exact Or.inr ⟨w, last, hi, ht.symm⟩
    · exact Or.inr hy
    · cases he
  refine { h with
    tp_lt := ?_, calls := ?_, filed := ?_, begun := ?_, kept := ?_, pool := ?_
    dispatchers := ?_, slist := ?_ }
  · intro q y hy
    rcases (hmem q y).1 hy with hy | ⟨-, rfl⟩
    · exact h.tp_lt q y hy
    · exact hc.tp_lt
  · refine h.calls_update (fun _ _ _ ho => ho) fun y i he => ?_
    cases he
    exact ⟨hc.tp_lt, hc.loaded, fun _ => hc.holds rfl, hc.main⟩
  · exact fun r y hy => h.filed r y (hplaced r y hy)
  · exact fun r y hy => h.begun r y (hplaced r y hy)
  · intro y hy
    rcases h.kept y hy with hf | ⟨q, hq⟩ | ⟨w', i', hi', hp⟩
    · exact Or.inl hf
    · exact Or.inr (Or.inl ⟨q, (hmem q y).2 (Or.inl hq)⟩)
    · by_cases hw : w' = w
      · subst hw
        rw [hi] at hi'
        cases hi'
        exact Or.inr (Or.inl ⟨_, (hmem _ x).2 (Or.inr ⟨rfl, rfl⟩)⟩)
      · refine Or.inr (Or.inr ⟨w', i', ?_, hp⟩)
        change Function.update s.inserting w _ w' = _
        rw [Function.update_of_ne hw, hi']
  · exact (hsame .pool (by simp) (by simp)).trans h.pool
  · exact fun hno => (hsame .dispatchers (by simp) (by simp)).trans (h.dispatchers hno)
  · exact fun hno => (hsame .slist (by simp) (by simp)).trans (h.slist hno)

theorem Inv.insert_leave (h : Inv cfg s) {again : Bool}
    (hi : s.inserting w = some (x, .leave last again)) :
    Inv cfg (s.insertStep cfg w x (.leave last again)) := by
  have hc := h.calls w x _ hi
  have hown : s.owner (target cfg w x last) = some w := hc.holds rfl last rfl
  have hother : ∀ q v, v ≠ w → s.owner q = some v →
      Function.update s.owner (target cfg w x last) none q = some v := by
    intro q v hv ho
    have hq : q ≠ target cfg w x last := by
      rintro rfl
      rw [hown] at ho
      cases ho
      exact hv rfl
    rwa [Function.update_of_ne hq]
  have hnew : ∀ y i, (if again then some (x, Insert.load) else none) = some (y, i) →
      y = x ∧ i = .load := by
    intro y i he
    split at he <;> cases he
    exact ⟨rfl, rfl⟩
  refine { h with calls := ?_, lock := ?_, filed := ?_, begun := ?_, kept := ?_ }
  · refine h.calls_update (fun w' hw q ho => hother q w' hw ho) fun y i he => ?_
    obtain ⟨rfl, rfl⟩ := hnew y i he
    exact ⟨hc.tp_lt, nofun, nofun, hc.main⟩
  · intro c q hcl hq
    refine hother q none ?_ (h.lock c q hcl hq)
    -- `RunOnce` does not pop a queue while it pushes
    rintro rfl
    obtain ⟨f, hf, -⟩ := hc.main rfl
    rw [show s.control = some c from hcl] at hf
    cases hf
    cases hq
  · intro r y hy
    rcases placed_update hy with hy | ⟨l, he, -⟩
    · exact h.filed r y hy
    · cases (hnew _ _ he).2
  · intro r y hy
    rcases placed_update hy with hy | ⟨l, he, -⟩
    · exact h.begun r y hy
    · cases (hnew _ _ he).2
  · exact h.kept_update hi fun hp => ⟨.load, if_pos (show again = true from hp), rfl⟩

/-- The invariant is kept by every step of `Dispatch(Element*, bool)`. -/
theorem Inv.insert (h : Inv cfg s) {i : Insert} (hi : s.inserting w = some (x, i))
    (hc : canInsert cfg s w) : Inv cfg (s.insertStep cfg w x i) := by
  cases i with
  | load => exact h.insert_load hi
  | enter last =>
    rw [canInsert, hi] at hc
    exact h.insert_enter hi (Option.isNone_iff_eq_none.1 hc)
  | recheck last => exact h.insert_recheck hi
  | push last => exact h.insert_push hi
  | leave last again => exact h.insert_leave hi

end Insert

/-! ## `pop_all` -/

section Pop

variable {stage after : Stage} {q dst : QueueRef} {point due : Nat} {clock : Int} {r : SlotRef}

/-- What is popped at a stage. -/
theorem Stage.source_cases (h : stage.source = some (q, dst, after)) :
    (stage = .complete ∧ q = .complete ∧ dst = .slist ∧ after = .read) ∨
      (∃ f r rest σ, stage = .sweep f (r :: rest) σ ∧ q = .slot r ∧
        dst = .dispatchers ∧ after = .sweep f rest σ) ∨
      (∃ f σ, stage = .sweep f [] σ ∧ σ.i < f.delta ∧ q = .slot (σ.triggered f.last) ∧
        dst = .slist ∧ after = .sweep f (σ.turned f.last) (σ.next f.last)) := by
  cases stage with
  | complete => cases h; exact Or.inl ⟨rfl, rfl, rfl, rfl⟩
  | read | store | final => cases h
  | sweep f turned σ =>
    cases turned with
    | cons r rest => cases h; exact Or.inr (Or.inl ⟨f, r, rest, σ, rfl, rfl, rfl, rfl⟩)
    | nil =>
      rw [Stage.source] at h
      split at h
      · cases h; exact Or.inr (Or.inr ⟨f, σ, rfl, ‹_›, rfl, rfl, rfl⟩)
      · cases h

theorem ReadOk.dest_lt {f : Frame} (h : ReadOk cfg clock f) (hclock : clock < 2 ^ 63) :
    f.last + f.delta < 2 ^ 47 := by
  have h1 := cfg.tick_mono h.now_le
  have h2 := cfg.tick_lt hclock
  have h3 := h.tick_eq
  rw [Frame.dest] at h3
  omega

theorem Stage.Ok.pass (h : stage.Ok cfg point clock) (hclock : clock < 2 ^ 63)
    (hs : stage.source = some (q, dst, after)) : after.Ok cfg point clock := by
  rcases Stage.source_cases hs with ⟨rfl, -, -, rfl⟩ | ⟨f, r, rest, σ, rfl, -, -, rfl⟩ |
    ⟨f, σ, rfl, hi, -, -, rfl⟩
  · trivial
  · exact h
  · obtain ⟨hd, hread, hinv⟩ := h
    have := hread.dest_lt hclock
    exact ⟨hd, hread, (hinv.next (by omega)).1⟩

/-- A timer in another slot than the one that is popped stays properly filed, or
its slot has still to be visited. -/
theorem FiledAt.pass (h : FiledAt point (some stage) due r) (hok : stage.Ok cfg point clock)
    (hclock : clock < 2 ^ 63) (hs : stage.source = some (q, dst, after)) (hne : q ≠ .slot r) :
    FiledAt point (some after) due r := by
  rcases h with h | ⟨f, turned, σ, he, hf, hreach, ha⟩
  · exact Or.inl h
  · cases he
    refine Or.inr ?_
    rcases Stage.source_cases hs with ⟨he, -⟩ | ⟨f, r', rest, σ, he, rfl, -, rfl⟩ |
      ⟨f, σ, he, hi, rfl, -, rfl⟩
    · cases he
    · cases he
      exact ⟨f, rest, _, rfl, hf, hreach, ha.turn fun he => hne (by rw [he])⟩
    · cases he
      obtain ⟨-, hread, hinv⟩ := hok
      have := hread.dest_lt hclock
      refine ⟨f, _, _, rfl, hf, hreach, ?_⟩
      rcases ha.iterate hinv (by omega) hf.offset_lt hf.high hreach with he | ha
      · exact absurd (congrArg QueueRef.slot he.symm) hne
      · exact ha

variable {s : State T}

/-- While `RunOnce` does not push, its steps leave the calls of the other threads
alone. -/
theorem Inv.calls_control (h : Inv cfg s) (hn : s.inserting none = none)
    {owner' : QueueRef → Option (Option T)} {control' : Option Control}
    (ho : ∀ t q, s.owner q = some (some t) → owner' q = some (some t))
    (hp : s.point ≤ point) : ∀ w x i, s.inserting w = some (x, i) →
      CallOk cfg point owner' control' w x i := by
  intro w x i hi
  cases w with
  | none =>
    rw [hn] at hi
    cases hi
  | some t =>
    have hc := h.calls _ x i hi
    exact ⟨hc.tp_lt, fun l hl => (hc.loaded l hl).trans hp,
      fun hh l hl => ho t _ (hc.holds hh l hl), nofun⟩

theorem Inv.pop_lock (h : Inv cfg s) (hc : s.control = some ⟨stage, some .lock⟩)
    (hn : s.inserting none = none) (hs : stage.source = some (q, dst, after))
    (hfree : s.owner q = none) : Inv cfg (s.popStep stage .lock) := by
  have hstep : s.popStep stage .lock = (s.setOwner q (some none)).setControl stage
      (some .take) := by simp only [State.popStep, hs]
  have hmap : s.control.map Control.stage = some stage := by rw [hc]; rfl
  rw [hstep]
  refine { h with calls := ?_, stage := ?_, lock := ?_, filed := ?_, dispatchers := ?_
                  slist := nofun }
  · refine h.calls_control hn (fun t q' ho => ?_) (Nat.le_refl _)
    have hq : q' ≠ q := by
      rintro rfl
      rw [hfree] at ho
      cases ho
    exact (Function.update_of_ne hq _ _).trans ho
  · rintro c hcl
    cases hcl
    exact (h.stage _ hc : stage.Ok cfg s.point s.clock)
  · rintro c q' hcl hq
    cases hcl
    have hq' : some q = some q' := by simpa [Control.lock, hs] using hq
    cases hq'
    exact Function.update_self ..
  · intro r x hx
    have := h.filed r x hx
    rwa [hmap] at this
  · intro hno
    refine h.dispatchers fun f turned σ pop he => ?_
    rw [hc] at he
    cases he
    exact hno f turned σ _ rfl

theorem Inv.pop_unlock (h : Inv cfg s) (hc : s.control = some ⟨stage, some (.unlock q)⟩)
    (hn : s.inserting none = none) : Inv cfg (s.popStep stage (.unlock q)) := by
  have hmap : s.control.map Control.stage = some stage := by rw [hc]; rfl
  refine { h with calls := ?_, stage := ?_, lock := ?_, filed := ?_, dispatchers := ?_
                  slist := nofun }
  · refine h.calls_control hn (fun t q' ho => ?_) (Nat.le_refl _)
    have hq : q' ≠ q := by
      rintro rfl
      rw [h.lock _ q' hc rfl] at ho
      cases ho
    exact (Function.update_of_ne hq _ _).trans ho
  · rintro c hcl
    cases hcl
    exact (h.stage _ hc : stage.Ok cfg s.point s.clock)
  · rintro c q' hcl hq
    cases hcl
    cases hq
  · intro r x hx
    have := h.filed r x hx
    rwa [hmap] at this
  · intro hno
    refine h.dispatchers fun f turned σ pop he => ?_
    rw [hc] at he
    cases he
    exact hno f turned σ _ rfl

theorem Inv.pop_take (h : Inv cfg s) (hc : s.control = some ⟨stage, some .take⟩)
    (hn : s.inserting none = none) (hs : stage.source = some (q, dst, after)) :
    Inv cfg (s.popStep stage .take) := by
  have hstep : s.popStep stage .take = ((s.setQueue q []).setQueue dst
      (s.queue dst ++ s.queue q)).setControl after (some (.unlock q)) := by
    simp only [State.popStep, hs]
  have hmap : s.control.map Control.stage = some stage := by rw [hc]; rfl
  have hown : s.owner q = some none := h.lock _ q hc (by simp [Control.lock, hs])
  have hok : stage.Ok cfg s.point s.clock := h.stage _ hc
  have hdst : q ≠ dst ∧ dst ≠ .pool ∧ q ≠ .pool ∧ (∀ r, dst ≠ .slot r) := by
    rcases Stage.source_cases hs with ⟨-, rfl, rfl, -⟩ | ⟨_, r, _, _, -, rfl, rfl, -⟩ |
      ⟨_, _, -, -, rfl, rfl, -⟩ <;> simp
  let queue' := Function.update (Function.update s.queue q []) dst (s.queue dst ++ s.queue q)
  have hmem : ∀ p y, y ∈ queue' p ↔ (p ≠ q ∧ y ∈ s.queue p) ∨ (p = dst ∧ y ∈ s.queue q) := by
    intro p y
    by_cases hp : p = dst
    · subst hp
      simp [queue', hdst.1.symm]
    · by_cases hq : p = q
      · subst hq
        simp [queue', hp]
      · simp [queue', hp, hq]
  -- no call is about to push into the queue: `RunOnce` has its lock
  have hother : ∀ r y, Placed cfg queue' s.inserting r y →
      q ≠ .slot r ∧ Placed cfg s.queue s.inserting r y := by
    rintro r y (hy | ⟨w, last, hi, ht⟩)
    · rcases (hmem _ y).1 hy with ⟨hne, hy⟩ | ⟨he, -⟩
      · exact ⟨hne.symm, Or.inl hy⟩
      · exact absurd he.symm (hdst.2.2.2 r)
    · refine ⟨?_, Or.inr ⟨w, last, hi, ht⟩⟩
      rintro rfl
      have hw := (h.calls w y _ hi).holds rfl last rfl
      rw [ht, hown] at hw
      cases hw
      rw [hn] at hi
      cases hi
  rw [hstep]
  refine { h with
    tp_lt := ?_, calls := ?_, stage := ?_, lock := ?_, filed := ?_, begun := ?_, kept := ?_
    pool := ?_, dispatchers := ?_, slist := nofun }
  · intro p y hy
    rcases (hmem p y).1 hy with ⟨-, hy⟩ | ⟨-, hy⟩
    · exact h.tp_lt p y hy
    · exact h.tp_lt q y hy
  · exact h.calls_control hn (fun _ _ ho => ho) (Nat.le_refl _)
  · rintro c hcl
    cases hcl
    exact hok.pass h.clock_lt hs
  · rintro c q' hcl hq
    cases hcl
    cases hq
    exact hown
  · intro r y hy
    obtain ⟨hne, hy⟩ := hother r y hy
    have hf := h.filed r y hy
    rw [hmap] at hf
    exact hf.pass hok h.clock_lt hs hne
  · exact fun r y hy => h.begun r y (hother r y hy).2
  · intro y hy
    rcases h.kept y hy with hf | ⟨p, hp⟩ | hi
    · exact Or.inl hf
    · by_cases hq : p = q
      · subst hq
        exact Or.inr (Or.inl ⟨dst, (hmem dst y).2 (Or.inr ⟨rfl, hp⟩)⟩)
      · exact Or.inr (Or.inl ⟨p, (hmem p y).2 (Or.inl ⟨hq, hp⟩)⟩)
    · exact Or.inr (Or.inr hi)
  · have hp : queue' .pool = s.queue .pool := by
      simp [queue', hdst.2.1.symm, hdst.2.2.1.symm]
    exact hp.trans h.pool
  · intro hno
    rcases Stage.source_cases hs with ⟨rfl, rfl, rfl, rfl⟩ | ⟨f, r, rest, σ, -, -, -, rfl⟩ |
      ⟨f, σ, -, -, -, -, rfl⟩
    · have hd : queue' .dispatchers = s.queue .dispatchers := by simp [queue']
      refine hd.trans (h.dispatchers fun f turned σ pop he => ?_)
      rw [hc] at he
      cases he
    · exact absurd rfl (hno f rest σ _)
    · exact absurd rfl (hno f _ _ _)

/-- The queue has been found empty, and `RunOnce` passes it by. -/
theorem Inv.pass (h : Inv cfg s) (hb : s.Between stage) (ht : s.TestInTime cfg)
    (hs : stage.source = some (q, dst, after)) (hq : s.queue q = []) :
    Inv cfg (s.setControl after none) := by
  obtain ⟨hc, hn, -⟩ := id hb
  have hmap : s.control.map Control.stage = some stage := by rw [hc]; rfl
  have hok : stage.Ok cfg s.point s.clock := h.stage _ hc
  refine { h with calls := ?_, stage := ?_, lock := ?_, filed := ?_, dispatchers := ?_
                  slist := nofun }
  · exact h.calls_control hn (fun _ _ ho => ho) (Nat.le_refl _)
  · rintro c hcl
    cases hcl
    exact hok.pass h.clock_lt hs
  · rintro c q' hcl hq
    cases hcl
    cases hq
  · intro r y hy
    have hf := h.filed r y hy
    rw [hmap] at hf
    by_cases hne : q = .slot r
    · -- only a call by the current `point_` can be about to push there
      subst hne
      rcases hy with hy | ⟨w, last, hi, htar⟩
      · have hy' : y ∈ s.queue (.slot r) := hy
        rw [hq] at hy'
        exact absurd hy' List.not_mem_nil
      · have hl := ht stage r dst after hb hs hq w y last hi htar
        have := (h.filed_of_target hi rfl htar).1
        rw [hl] at this
        exact Or.inl this
    · exact hf.pass hok h.clock_lt hs hne
  · intro hno
    rcases Stage.source_cases hs with ⟨rfl, -, -, rfl⟩ | ⟨f, r, rest, σ, -, -, -, rfl⟩ |
      ⟨f, σ, -, -, -, -, rfl⟩
    · refine h.dispatchers fun f turned σ pop he => ?_
      rw [hc] at he
      cases he
    · exact absurd rfl (hno f rest σ _)
    · exact absurd rfl (hno f _ _ _)

end Pop

/-! ## `RunOnce` -/

section RunOnce

variable {s : State T} {stage : Stage} {x : Entry} {rest : List Entry}

/-- `RunOnce` is not in the loop. -/
def State.OutOfSweep (s : State T) : Prop :=
  ∀ f turned σ pop, s.control ≠ some ⟨.sweep f turned σ, pop⟩

theorem State.OutOfSweep.of_control {pop : Option Pop} (hc : s.control = some ⟨stage, pop⟩)
    (hno : ∀ f turned σ, stage ≠ .sweep f turned σ) : s.OutOfSweep := by
  rintro f turned σ pop' he
  rw [hc] at he
  cases he
  exact hno f turned σ rfl

theorem Inv.filed_point (h : Inv cfg s) (hno : s.OutOfSweep) {r : SlotRef}
    (hx : Placed cfg s.queue s.inserting r x) : Filed s.point (cfg.due x.tp) r := by
  refine (h.filed r x hx).resolve_right ?_
  rintro ⟨f, turned, σ, he, -⟩
  obtain ⟨⟨stage, pop⟩, hc, rfl⟩ := Option.map_eq_some_iff.1 he
  exact hno f turned σ pop hc

/-- `RunOnce` goes on, and the slots do not matter. -/
theorem Inv.control (h : Inv cfg s) (hn : s.inserting none = none) (hno : s.OutOfSweep)
    (hok : stage.Ok cfg s.point s.clock) : Inv cfg (s.setControl stage none) := by
  refine { h with calls := ?_, stage := ?_, lock := ?_, filed := ?_, dispatchers := ?_
                  slist := nofun }
  · exact h.calls_control hn (fun _ _ ho => ho) (Nat.le_refl _)
  · rintro c hcl
    cases hcl
    exact hok
  · rintro c q hcl hq
    cases hcl
    cases hq
  · exact fun r y hy => Or.inl (h.filed_point hno hy)
  · exact fun _ => h.dispatchers hno

/-- `RunOnce` returns. -/
theorem Inv.done (h : Inv cfg s) (hb : s.Between stage) (hno : s.OutOfSweep) :
    Inv cfg { s with control := none } := by
  obtain ⟨-, hn, hslist⟩ := hb
  refine { h with calls := ?_, stage := nofun, lock := nofun, filed := ?_, dispatchers := ?_
                  slist := fun _ => hslist }
  · exact h.calls_control hn (fun _ _ ho => ho) (Nat.le_refl _)
  · exact fun r y hy => Or.inl (h.filed_point hno hy)
  · exact fun _ => h.dispatchers hno

/-- `point_` is moved, and the sweep begins. -/
theorem Inv.store (h : Inv cfg s) {f : Frame} (hb : s.Between (.store f))
    (hr : s.StoreInReach cfg) :
    Inv cfg ({ s with point := f.dest }.setControl (.sweep f [] .init) none) := by
  obtain ⟨hc, hn, -⟩ := id hb
  obtain ⟨hlast, hread⟩ : f.last = s.point ∧ ReadOk cfg s.clock f := h.stage _ hc
  have hno : s.OutOfSweep := .of_control hc nofun
  refine { h with last_le := ?_, calls := ?_, stage := ?_, lock := ?_, filed := ?_
                  dispatchers := ?_, slist := nofun }
  · exact hread.lastTime_le.trans hread.now_le
  · refine h.calls_control hn (fun _ _ ho => ho) ?_
    change s.point ≤ f.last + f.delta
    omega
  · rintro c hcl
    cases hcl
    exact ⟨rfl, hread, SweepInv.init f.last⟩
  · rintro c q hcl hq
    cases hcl
    cases hq
  · intro r y hy
    have hf := h.filed_point hno hy
    rw [← hlast] at hf
    refine Or.inr ⟨f, [], .init, rfl, hf, ?_, Ahead.init _ _ _⟩
    rcases Nat.lt_or_ge r.level 4 with h4 | h4
    · exact inReach_of_level_le (by omega)
    · exact hr f hb r y hy h4
  · exact fun hno' => absurd rfl (hno' f [] .init none)

/-- The loop ends. -/
theorem Inv.swept (h : Inv cfg s) {f : Frame} {σ : Sweep} (hb : s.Between (.sweep f [] σ))
    (hi : f.delta ≤ σ.i) :
    Inv cfg (((s.setQueue .dispatchers []).setQueue .slist
      (s.queue .dispatchers)).setControl (.final f) none) := by
  obtain ⟨hc, hn, hslist⟩ := hb
  have hmap : s.control.map Control.stage = some (.sweep f [] σ) := by rw [hc]; rfl
  obtain ⟨hdest, hread, -⟩ : f.dest = s.point ∧ ReadOk cfg s.clock f ∧ SweepInv f.last σ :=
    h.stage _ hc
  let queue' := Function.update (Function.update s.queue .dispatchers []) .slist
    (s.queue .dispatchers)
  have hq : ∀ q, q ≠ .slist → q ≠ .dispatchers → queue' q = s.queue q := by
    intro q h1 h2
    simp [queue', h1, h2]
  refine { h with
    tp_lt := ?_, calls := ?_, stage := ?_, lock := ?_, filed := ?_, kept := ?_, pool := ?_
    dispatchers := fun _ => ?_, slist := nofun }
  · intro q y hy
    by_cases h1 : q = .slist
    · subst h1
      exact h.tp_lt .dispatchers y hy
    · by_cases h2 : q = .dispatchers
      · subst h2
        exact absurd hy List.not_mem_nil
      · exact h.tp_lt q y (hq q h1 h2 ▸ hy)
  · exact h.calls_control hn (fun _ _ ho => ho) (Nat.le_refl _)
  · rintro c hcl
    cases hcl
    exact ⟨hdest, hread⟩
  · rintro c q hcl hq
    cases hcl
    cases hq
  · intro r y hy
    have hf := h.filed r y hy
    rw [hmap] at hf
    rcases hf with hf | ⟨f', turned, σ', he, hf, -, ha⟩
    · exact Or.inl hf
    · cases he
      refine Or.inl ?_
      have hlast : f.last ≤ s.point := by
        rw [← hdest]
        exact Nat.le_add_right _ _
      refine hf.advance hlast ?_
      have hfin : f.dest ≤ r.next f.last := ha.finish (by rw [Frame.dest]; omega)
      rwa [hdest] at hfin
  · intro y hy
    rcases h.kept y hy with hf | ⟨q, hmem⟩ | hi
    · exact Or.inl hf
    · by_cases h1 : q = .slist
      · subst h1
        rw [hslist] at hmem
        exact absurd hmem List.not_mem_nil
      · by_cases h2 : q = .dispatchers
        · subst h2
          exact Or.inr (Or.inl ⟨.slist, hmem⟩)
        · have hmem' : y ∈ queue' q := by rwa [hq q h1 h2]
          exact Or.inr (Or.inl ⟨q, hmem'⟩)
    · exact Or.inr (Or.inr hi)
  · exact (hq .pool (by simp) (by simp)).trans h.pool
  · simp [State.setControl, State.setQueue]

/-- `RunOnce` between two lists. -/
theorem Inv.advance (h : Inv cfg s) (hb : s.Between stage)
    (hok : InsertOk cfg s (.loop : Act T)) : Inv cfg (s.advance cfg stage) := by
  obtain ⟨hc, hn, hslist⟩ := id hb
  obtain ⟨hr, ht⟩ := hok
  cases hs : stage.source with
  | some src =>
    obtain ⟨q, dst, after⟩ := src
    simp only [State.advance, hs]
    split
    · exact h.pass hb ht hs ‹_›
    · -- the lock is to be taken: nothing has changed but the control
      have hmap : s.control.map Control.stage = some stage := by rw [hc]; rfl
      refine { h with calls := ?_, stage := ?_, lock := ?_, filed := ?_, dispatchers := ?_
                      slist := fun hcl => by cases hcl }
      · exact h.calls_control hn (fun _ _ ho => ho) (Nat.le_refl _)
      · rintro c hcl
        cases hcl
        exact (h.stage _ hc : stage.Ok cfg s.point s.clock)
      · rintro c q hcl hq
        cases hcl
        cases hq
      · intro r y hy
        have hf := h.filed r y hy
        rwa [hmap] at hf
      · intro hno
        refine h.dispatchers fun f turned σ pop he => ?_
        rw [hc] at he
        cases he
        exact hno f turned σ _ rfl
  | none =>
    cases stage with
    | complete => cases hs
    | read =>
      have hno : s.OutOfSweep := .of_control hc (by simp)
      simp only [State.advance, Stage.source]
      split
      · exact h.done hb hno
      · rename_i hlt
        have hdest : (cfg.destVal s.clock : Int) = cfg.tick s.clock :=
          cfg.destVal_eq ((cfg.begin_le_lastTime _).trans h.last_le) h.clock_lt
        refine h.control hn hno ⟨rfl, ?_, Int.le_refl _⟩
        rw [Frame.dest]
        change ((s.point + (cfg.destVal s.clock - s.point) : Nat) : Int) = cfg.tick s.clock
        omega
    | store f => exact h.store hb hr
    | sweep f turned σ =>
      cases turned with
      | cons r rest => cases hs
      | nil =>
        have hi : f.delta ≤ σ.i := Nat.not_lt.1 fun hi => by
          rw [Stage.source, if_pos hi] at hs
          cases hs
        have hadv : s.advance cfg (.sweep f [] σ) = ((s.setQueue .dispatchers []).setQueue
            .slist (s.queue .dispatchers)).setControl (.final f) none := by
          simp only [State.advance, hs]
        rw [hadv]
        exact h.swept hb hi
    | final f => exact h.done hb (.of_control hc (by simp))

/-- `RunOnce` takes one timer in hand. -/
theorem Inv.handle [DecidableEq T] (h : Inv cfg s) (hc : s.control = some ⟨stage, none⟩)
    (hn : s.inserting none = none) (hq : s.queue .slist = x :: rest) :
    Inv cfg (s.handle stage x rest) := by
  have hx : x ∈ s.queue .slist := by rw [hq]; exact List.mem_cons_self
  have hmem : ∀ q y, y ∈ Function.update s.queue .slist rest q → y ∈ s.queue q := by
    intro q y hy
    by_cases he : q = .slist
    · subst he
      rw [Function.update_self] at hy
      rw [hq]
      exact List.mem_cons_of_mem _ hy
    · rwa [Function.update_of_ne he] at hy
  have hleft : ∀ q y, y ∈ s.queue q → y = x ∨ y ∈ Function.update s.queue .slist rest q := by
    intro q y hy
    by_cases he : q = .slist
    · subst he
      rw [hq] at hy
      rw [Function.update_self]
      exact List.mem_cons.1 hy
    · exact Or.inr (by rwa [Function.update_of_ne he])
  have hplaced : ∀ r y, Placed cfg (Function.update s.queue .slist rest) s.inserting r y →
      Placed cfg s.queue s.inserting r y := by
    rintro r y (hy | hy)
    · exact Or.inl (hmem _ y hy)
    · exact Or.inr hy
  have hsl : s.control ≠ none := by simp [hc]
  have hfire : Inv cfg { s.setQueue .slist rest with fired := x :: s.fired } := by
    refine { h with
      tp_lt := fun q y hy => h.tp_lt q y (hmem q y hy)
      filed := fun r y hy => h.filed r y (hplaced r y hy)
      begun := fun r y hy => h.begun r y (hplaced r y hy)
      kept := ?_, slist := fun hno => absurd hno hsl }
    intro y hy
    rcases h.kept y hy with hf | ⟨q, hyq⟩ | hi
    · exact Or.inl (List.mem_cons_of_mem _ hf)
    · rcases hleft q y hyq with rfl | hyq
      · exact Or.inl List.mem_cons_self
      · exact Or.inr (Or.inl ⟨q, hyq⟩)
    · exact Or.inr (Or.inr hi)
  cases stage with
  | complete | read | store | sweep => exact hfire
  | final f =>
    simp only [State.handle]
    split
    · exact hfire
    · -- the timer is not due: it goes through `Dispatch` again
      rename_i hlt
      refine { h with
        tp_lt := fun q y hy => h.tp_lt q y (hmem q y hy)
        calls := ?_, filed := ?_, begun := ?_, kept := ?_, slist := fun hno => absurd hno hsl }
      · refine h.calls_update (fun _ _ _ ho => ho) fun y i he => ?_
        cases he
        exact ⟨h.tp_lt _ x hx, nofun, nofun, fun _ => ⟨f, hc, Int.not_le.1 hlt⟩⟩
      · intro r y hy
        rcases placed_update hy with hy | ⟨l, he, -⟩
        · exact h.filed r y (hplaced r y hy)
        · cases he
      · intro r y hy
        rcases placed_update hy with hy | ⟨l, he, -⟩
        · exact h.begun r y (hplaced r y hy)
        · cases he
      · intro y hy
        rcases h.kept y hy with hf | ⟨q, hyq⟩ | ⟨w, i, hi, hp⟩
        · exact Or.inl hf
        · rcases hleft q y hyq with rfl | hyq
          · exact Or.inr (Or.inr ⟨none, .load, by simp [State.setInserting], rfl⟩)
          · exact Or.inr (Or.inl ⟨q, hyq⟩)
        · have hw : w ≠ none := by
            rintro rfl
            rw [hn] at hi
            cases hi
          exact Or.inr (Or.inr ⟨w, i, (Function.update_of_ne hw _ _).trans hi, hp⟩)

/-- The invariant is kept by every step of `RunOnce`. -/
theorem Inv.loop [DecidableEq T] (h : Inv cfg s) {c : Control} (hc : s.control = some c)
    (hcan : canInsert cfg s none ∧ canPop s c) (hok : InsertOk cfg s (.loop : Act T)) :
    Inv cfg (s.loopStep cfg c) := by
  obtain ⟨stage, pop⟩ := c
  rw [State.loopStep]
  cases hn : s.inserting none with
  | some p => exact h.insert hn hcan.1
  | none =>
    cases pop with
    | some pop =>
      cases pop with
      | lock =>
        cases hs : stage.source with
        | none =>
          have hstep : s.popStep stage .lock = s := by simp only [State.popStep, hs]
          change Inv cfg (s.popStep stage .lock)
          rwa [hstep]
        | some src =>
          have hfree := hcan.2
          simp only [canPop, hs] at hfree
          exact h.pop_lock hc hn hs (Option.isNone_iff_eq_none.1 hfree)
      | take =>
        cases hs : stage.source with
        | none =>
          have hstep : s.popStep stage .take = s := by simp only [State.popStep, hs]
          change Inv cfg (s.popStep stage .take)
          rwa [hstep]
        | some src => exact h.pop_take hc hn hs
      | unlock q => exact h.pop_unlock hc hn
    | none =>
      cases hq : s.queue .slist with
      | nil => exact h.advance ⟨hc, hn, hq⟩ hok
      | cons x rest => exact h.handle hc hn hq

end RunOnce

/-! ## The result -/

section Result

variable {s : State T}

theorem Inv.initial : Inv cfg (State.initial cfg : State T) where
  last_le := by simp [State.initial, Config.lastTime]
  clock_lt := by
    have := cfg.begin_lt
    simp only [State.initial]
    omega
  tp_lt q x hx := absurd hx List.not_mem_nil
  calls := nofun
  stage := nofun
  lock := nofun
  filed := by rintro r x (hx | ⟨w, last, hi, -⟩) <;> simp [State.initial] at *
  begun := by rintro r x (hx | ⟨w, last, hi, -⟩) <;> simp [State.initial] at *
  kept x hx := absurd hx List.not_mem_nil
  pool := rfl
  dispatchers _ := rfl
  slist _ := rfl

theorem Inv.tick (h : Inv cfg s) {d : Nat} (hd : s.clock + d < 2 ^ 63) :
    Inv cfg { s with clock := s.clock + d } := by
  have hle : s.clock ≤ s.clock + d := Int.le_add_of_nonneg_right (Int.natCast_nonneg d)
  refine { h with last_le := h.last_le.trans hle, clock_lt := hd, stage := ?_ }
  rintro ⟨stage, pop⟩ hc
  have hok : stage.Ok cfg s.point s.clock := h.stage _ hc
  cases stage with
  | complete | read => trivial
  | store f | final f => exact ⟨hok.1, hok.2.tick_eq, hok.2.now_le.trans hle⟩
  | sweep f turned σ => exact ⟨hok.1, ⟨hok.2.1.tick_eq, hok.2.1.now_le.trans hle⟩, hok.2.2⟩

variable [DecidableEq T]

theorem Inv.startTimer (h : Inv cfg s) {t : T} {tp : Int} (htp : tp < 2 ^ 63)
    (ht : s.inserting (some t) = none) (n : Nat) :
    Inv cfg ({ s with timers := ⟨n, tp⟩ :: s.timers }.setInserting (some t)
      (some (⟨n, tp⟩, .load))) := by
  refine { h with calls := ?_, filed := ?_, begun := ?_, kept := ?_ }
  · refine h.calls_update (fun _ _ _ ho => ho) fun y i he => ?_
    cases he
    exact ⟨htp, nofun, nofun, nofun⟩
  · intro r y hy
    rcases placed_update hy with hy | ⟨l, he, -⟩
    · exact h.filed r y hy
    · cases he
  · intro r y hy
    rcases placed_update hy with hy | ⟨l, he, -⟩
    · exact h.begun r y hy
    · cases he
  · intro y hy
    rcases List.mem_cons.1 hy with rfl | hy
    · exact Or.inr (Or.inr ⟨some t, .load, Function.update_self .., rfl⟩)
    · rcases h.kept y hy with hf | hq | ⟨w, i, hi, hp⟩
      · exact Or.inl hf
      · exact Or.inr (Or.inl hq)
      · have hw : w ≠ some t := by
          rintro rfl
          rw [ht] at hi
          cases hi
        exact Or.inr (Or.inr ⟨w, i, (Function.update_of_ne hw _ _).trans hi, hp⟩)

theorem Inv.step (h : Inv cfg s) {a : Act T} {s' : State T} (he : Enabled cfg s a)
    (hok : InsertOk cfg s a) (hs : (machine T cfg).step s a = some s') : Inv cfg s' := by
  cases a with
  | startTimer t tp =>
    cases hs
    exact h.startTimer he.2 he.1 _
  | insert t =>
    obtain ⟨hne, hcan⟩ := he
    obtain ⟨⟨x, i⟩, hi⟩ := Option.ne_none_iff_exists'.1 hne
    simp only [machine, hi, Option.map_some, Option.some.injEq] at hs
    subst hs
    exact h.insert hi hcan
  | runOnce =>
    cases hs
    have hc : s.control = none := Option.isNone_iff_eq_none.1 he
    have hn : s.inserting none = none := by
      cases hi : s.inserting none with
      | none => rfl
      | some p =>
        obtain ⟨f, hf, -⟩ := (h.calls none p.1 p.2 hi).main rfl
        rw [hc] at hf
        cases hf
    exact h.control hn (fun _ _ _ _ hcl => by rw [hc] at hcl; cases hcl) trivial
  | loop =>
    obtain ⟨c, hc⟩ : ∃ c, s.control = some c := by
      cases hc : s.control with
      | none => simp [Enabled, hc] at he
      | some c => exact ⟨c, rfl⟩
    simp only [Enabled, hc, Option.any_some, Bool.and_eq_true] at he
    simp only [machine, hc, Option.map_some, Option.some.injEq] at hs
    subst hs
    exact h.loop hc he hok
  | tick d =>
    cases hs
    exact h.tick he

/-- No call is in progress. -/
def State.Quiet (s : State T) : Prop := s.control = none ∧ ∀ w, s.inserting w = none

/-- The timer has been fired, or it is where the next `RunOnce` finds it in
time. -/
def State.Found (cfg : Config) (s : State T) (x : Entry) : Prop :=
  x ∈ s.fired ∨ x ∈ s.queue .complete ∨
    ∃ r, x ∈ s.queue (.slot r) ∧ s.point ≤ r.next s.point ∧
      (r.next s.point : Int) ≤ cfg.tick x.tp

/-- In every run whose steps come in time, no timer is stranded when all calls
have returned. -/
theorem no_timer_stranded (h : Run (machine T cfg) (InsertOk cfg) (State.initial cfg) s)
    (hq : s.Quiet) : ∀ x ∈ s.timers, s.Found cfg x := by
  have hinv : Inv cfg s := h.invariant Inv.initial fun t a u ht he hok hs => ht.step he hok hs
  obtain ⟨hc, hi⟩ := hq
  have hno : s.OutOfSweep := fun _ _ _ _ hcl => by rw [hc] at hcl; cases hcl
  intro x hx
  rcases hinv.kept x hx with hf | ⟨q, hmem⟩ | ⟨w, i, hw, -⟩
  · exact Or.inl hf
  · cases q with
    | slot r =>
      have hplaced : Placed cfg s.queue s.inserting r x := Or.inl hmem
      have hfiled := (hinv.filed_point hno hplaced).next_le
      have h0 : 0 ≤ cfg.tick x.tp := Int.ediv_nonneg
        (Int.sub_nonneg.2 (hinv.begun r x hplaced)) (Int.natCast_nonneg _)
      rw [Config.due] at hfiled
      exact Or.inr (Or.inr ⟨r, hmem, r.le_next _, by omega⟩)
    | complete => exact Or.inr (Or.inl hmem)
    | pool =>
      rw [hinv.pool] at hmem
      exact absurd hmem List.not_mem_nil
    | slist =>
      rw [hinv.slist hc] at hmem
      exact absurd hmem List.not_mem_nil
    | dispatchers =>
      rw [hinv.dispatchers hno] at hmem
      exact absurd hmem List.not_mem_nil
  · rw [hi w] at hw
    cases hw

end Result

/-- A `StartTimer` has looked at `point_` for the second time and has not pushed
yet, when `RunOnce` moves `point_` and finds the slot empty.  The timer of tick
1 is pushed then, and its slot comes up at tick 257. -/
theorem timer_stranded : ∃ s : State Unit,
    Run (machine Unit Config.zero) anyAction (State.initial Config.zero) s ∧ s.Quiet ∧
      ⟨0, 100000⟩ ∈ s.timers ∧ ¬ s.Found Config.zero ⟨0, 100000⟩ := by
  have hrun : ((machine Unit Config.zero).exec anyAction (State.initial Config.zero)
      [.startTimer () 100000, .insert (), .insert (), .insert (), .tick 200000, .runOnce,
        .loop, .loop, .loop, .loop, .loop, .loop, .loop, .insert (), .insert ()]).any
      (fun s => decide (s.control.isNone ∧ s.inserting none = none ∧
        s.inserting (some ()) = none ∧ s.timers = [⟨0, 100000⟩] ∧ s.fired = [] ∧
        s.queue .complete = [] ∧ s.queue (.slot ⟨0, 1⟩) = [⟨0, 100000⟩] ∧ s.point = 2)) := by
    decide +kernel
  obtain ⟨s, hs, hdec⟩ := Run.exists_of_exec hrun
  obtain ⟨hc, h1, h2, htimers, hfired, hcomp, hslot, hpoint⟩ := of_decide_eq_true hdec
  refine ⟨s, hs, ⟨Option.isNone_iff_eq_none.1 hc, fun w => ?_⟩, by simp [htimers], ?_⟩
  · cases w with
    | none => exact h1
    | some t => exact h2
  · rintro (hx | hx | ⟨r, hx, -, hle⟩)
    · simp [hfired] at hx
    · simp [hcomp] at hx
    · have hlow := r.le_next s.point
      have hdue : Config.zero.tick 100000 = 1 := by decide
      rw [hdue] at hle
      omega

/-- A `RunOnce` that is not too late leaves out no slot. -/
theorem State.storeInReach_of_le {s : State T}
    (h : ∀ f, s.Between (.store f) → f.dest ≤ catchUpStart f.last 4) : s.StoreInReach cfg :=
  fun f hb _ _ _ _ hlt => hlt.trans_le (h f hb)

def Stage.onTime : Stage → Bool
  | .store f => f.dest ≤ catchUpStart f.last 4
  | _ => true

/-- A step of `RunOnce` that is not too late and finds no call under way. -/
def insertCheck (s : State Unit) : Act Unit → Bool
  | .loop => (s.inserting (some ())).isNone && s.control.all fun c => c.stage.onTime
  | _ => true

theorem insertOk_of_check {s : State Unit} {a : Act Unit} (h : insertCheck s a = true) :
    InsertOk cfg s a := by
  cases a with
  | loop =>
    obtain ⟨hnone, htime⟩ := Bool.and_eq_true_iff.1 h
    rw [Option.isNone_iff_eq_none] at hnone
    refine ⟨State.storeInReach_of_le fun f hb => ?_, ?_⟩
    · rw [hb.1] at htime
      exact of_decide_eq_true htime
    · intro stage r dst next hb _ _ w x last hi
      cases w with
      | none => exact absurd (hb.2.1.symm.trans hi) (by simp)
      | some t => exact absurd (hnone.symm.trans hi) (by simp)
  | startTimer | insert | runOnce | tick => trivial

/-- The same timer is pushed in time, and `RunOnce` fires it. -/
theorem no_timer_stranded_once : ∃ s : State Unit, s.fired = [⟨0, 100000⟩] ∧
    ∀ x ∈ s.timers, s.Found Config.zero x := by
  have hrun : ((machine Unit Config.zero).exec (fun s a => insertCheck s a = true)
      (State.initial Config.zero)
      (.startTimer () 100000 :: List.replicate 5 (.insert ()) ++
        .tick 200000 :: .runOnce :: List.replicate 11 .loop)).any
      (fun s => decide (s.control.isNone ∧ s.inserting none = none ∧
        s.inserting (some ()) = none ∧ s.fired = [⟨0, 100000⟩])) := by
    decide +kernel
  obtain ⟨s, hs, hdec⟩ := Run.exists_of_exec hrun
  obtain ⟨hc, h1, h2, hfired⟩ := of_decide_eq_true hdec
  have hquiet : s.Quiet := by
    refine ⟨Option.isNone_iff_eq_none.1 hc, fun w => ?_⟩
    cases w with
    | none => exact h1
    | some t => exact h2
  exact ⟨s, hfired, no_timer_stranded (hs.mono fun _ _ => insertOk_of_check) hquiet⟩

end Costream.Timer.Shared
