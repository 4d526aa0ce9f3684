import Costream.BoundedQueue
import Costream.Sync.Admission
import Costream.Sync.Fifo

/-!
# The three implementations of a channel

`Channel` picks one of three implementations by its capacity.  On an open channel that is
used by one call of `TryPush` or `TryPop` after the other, with questions for
`size()` and `empty()` in between, each of them is a bounded queue, up to a point.

* `ConditionVariableAnyT::size` returns a `bool`, so `CASChannelImpl::Size` is at most one.
* `wait_` has 32 bits for the writers, and every buffered value counts there.  With `2 ^ 32`
  of them the channel seems to have a reader and no writer: `TryPush` looks for the reader
  for ever, and `TryPop` fails.
-/

namespace Costream.Sync.CAS

variable {T : Type*}

/-! ## `CASChannelImpl` -/

/-- `ConditionVariableAnyT::size`, which returns a `bool`. -/
def Cond.size (c : Cond T) : Bool := c.queue.count ≠ 0

/-- `Size()`. -/
def State.size (s : State T) : Nat := min s.capacity s.wq.size.toNat

/-- `Empty()`. -/
def State.empty (s : State T) : Bool := s.wq.queue.count = 0

/-- The call `c` runs alone, for at most `fuel` steps, until it returns. -/
def State.run (c : Nat) : Nat → State T → Option (State T)
  | 0, _ => none
  | fuel + 1, s =>
    match s.placeOf c with
    | some (.done _) => some s
    | _ => State.run c fuel (s.step c (true, true))

/-- The channel with one more call. -/
def State.alone (s : State T) (call : Call T) : State T := { s with calls := s.calls ++ [call] }

open BoundedQueue in
/-- What a call alone answers within `fuel` steps. -/
def State.ask (fuel : Nat) (s : State T) : Query T → Option (Answer T × State T)
  | .push t =>
    (State.run s.calls.length fuel (s.alone ⟨.push t, false, .start, none⟩)).map fun s' =>
      (.pushed (s'.placeOf s.calls.length = some (.done true)), s')
  | .pop =>
    (State.run s.calls.length fuel (s.alone ⟨.pop, false, .start, none⟩)).map fun s' =>
      (.popped (if s'.placeOf s.calls.length = some (.done true) then
        s'.calls[s.calls.length]?.bind Call.got else none), s')
  | .size => some (.size s.size, s)
  | .empty => some (.empty s.empty, s)

variable {s : State T} {call : Call T} {fuel : Nat}

theorem alone_get (s : State T) (call : Call T) :
    (s.alone call).calls[s.calls.length]? = some call := by
  simp [State.alone]

theorem alone_placeOf (s : State T) (call : Call T) :
    (s.alone call).placeOf s.calls.length = some call.place := by
  rw [State.placeOf, alone_get]
  rfl

theorem modify_concat {α : Type*} (l : List α) (a : α) (f : α → α) :
    (l ++ [a]).modify l.length f = l ++ [f a] := by
  induction l with
  | nil => rfl
  | cons x l ih => simp [ih]

theorem alone_goto (s : State T) (call : Call T) (place : Place) :
    (s.alone call).goto s.calls.length place = s.alone { call with place := place } := by
  unfold State.alone State.goto
  rw [modify_concat]

theorem alone_give (s : State T) (call : Call T) (t : Option T) :
    (s.alone call).give s.calls.length t = s.alone { call with got := t <|> call.got } := by
  unfold State.alone State.give
  rw [modify_concat]

theorem run_done {c : Nat} {r : Bool} (h : s.placeOf c = some (.done r)) (fuel : Nat) :
    State.run c (fuel + 1) s = some s := by
  rw [State.run, h]

theorem run_push {t : T} {got : Option T} {place : Place} (hne : ∀ r, place ≠ .done r)
    (fuel : Nat) :
    State.run s.calls.length (fuel + 1) (s.alone ⟨.push t, false, place, got⟩) =
      State.run s.calls.length fuel
        ((s.alone ⟨.push t, false, place, got⟩).push s.calls.length t false (true, true) place) := by
  rw [State.run, alone_placeOf]
  split
  · rename_i r hr
    exact absurd (Option.some.inj hr) (hne r)
  · rw [State.step, alone_get]

theorem run_pop {got : Option T} {place : Place} (hne : ∀ r, place ≠ .done r) (fuel : Nat) :
    State.run s.calls.length (fuel + 1) (s.alone ⟨.pop, false, place, got⟩) =
      State.run s.calls.length fuel
        ((s.alone ⟨.pop, false, place, got⟩).pop s.calls.length false (true, true) place) := by
  rw [State.run, alone_placeOf]
  split
  · rename_i r hr
    exact absurd (Option.some.inj hr) (hne r)
  · rw [State.step, alone_get]

/-! ### The state between two calls -/

/-- The entries `buffered` have the values `xs`. -/
def Values (c : Cond T) (buffered : List Nat) (xs : List T) : Prop :=
  buffered.map (fun i => c.entries[i]?.bind Entry.value) = xs.map some

/-- The channel stores the values `xs`, and no call is going on. -/
structure Stores (s : State T) (capacity : Nat) (xs : List T) : Prop where
  capacity_eq : s.capacity = capacity
  opened : s.closed = false
  wait : s.wait = xs.length
  few : xs.length ≤ 2 ^ 32
  rq : s.rq.queue.nodes = []
  wq : capacity = 0 ∧ xs = [] ∧ s.wq.queue.count = 0 ∨
    capacity ≠ 0 ∧ ∃ buffered, s.wq.Shape capacity buffered [] ∧ Values s.wq buffered xs

theorem stores_initial (capacity : Nat) : Stores (State.initial capacity : State T) capacity [] := by
  refine ⟨rfl, rfl, rfl, by simp, rfl, ?_⟩
  by_cases hcap : capacity = 0
  · exact .inl ⟨hcap, rfl, rfl⟩
  · exact .inr ⟨hcap, [], Cond.shape_create hcap, rfl⟩

variable {capacity : Nat} {xs : List T}

theorem Values.length_eq {c : Cond T} {buffered : List Nat} (h : Values c buffered xs) :
    buffered.length = xs.length := by
  have := congrArg List.length h
  simpa using this

theorem Stores.count (h : Stores s capacity xs) : s.wq.queue.count = xs.length := by
  rcases h.wq with ⟨-, rfl, hcount⟩ | ⟨-, buffered, hshape, hvalues⟩
  · exact hcount
  · rw [hshape.count, hshape.nodes, List.append_nil, hvalues.length_eq]

theorem Stores.length_le (h : Stores s capacity xs) : xs.length ≤ capacity := by
  rcases h.wq with ⟨-, rfl, -⟩ | ⟨-, buffered, hshape, hvalues⟩
  · exact Nat.zero_le _
  · have := hshape.room
    rwa [hvalues.length_eq] at this

/-- Between two calls it does not matter which calls there have been. -/
theorem Stores.alone (h : Stores s capacity xs) (call : Call T) :
    Stores (s.alone call) capacity xs :=
  ⟨h.capacity_eq, h.opened, h.wait, h.few, h.rq, h.wq⟩

/-! ### `TryPush` -/

/-- A `TryPush` that runs alone. -/
def pushing (t : T) (place : Place) : Call T := ⟨.push t, false, place, none⟩

/-- Where a `TryPush` that runs alone goes in one step. -/
def PushStep (s : State T) (t : T) (place : Place) (s' : State T) (place' : Place) : Prop :=
  (s.alone (pushing t place)).push s.calls.length t false (true, true) place =
    s'.alone (pushing t place') ∧ s'.calls.length = s.calls.length

theorem PushStep.run {t : T} {place place' : Place} {s' : State T}
    (h : PushStep s t place s' place') (hne : ∀ r, place ≠ .done r) (fuel : Nat) :
    State.run s.calls.length (fuel + 1) (s.alone (pushing t place)) =
      State.run s'.calls.length fuel (s'.alone (pushing t place')) := by
  unfold pushing at *
  rw [run_push hne, h.2]
  exact congrArg _ h.1

theorem push_start (hopen : s.closed = false) (t : T) : PushStep s t .start s .load := by
  have hopen' : (s.alone (pushing t .start)).closed = false := hopen
  refine ⟨?_, rfl⟩
  rw [State.push, hopen', alone_goto]
  rfl

theorem push_load (hreaders : s.readers = 0) (hcap : s.capacity ≠ 0) (t : T) :
    PushStep s t .load s (.cas s.wait) := by
  have hreaders' : (s.alone (pushing t .load)).readers = 0 := hreaders
  have hcap' : (s.alone (pushing t .load)).capacity ≠ 0 := hcap
  refine ⟨?_, rfl⟩
  rw [State.push, if_neg (not_not.2 hreaders'), if_neg (fun h => hcap' h.1), alone_goto]
  rfl

/-- Without capacity, a `TryPush` fails at once. -/
theorem push_load_zero (hreaders : s.readers = 0) (hcap : s.capacity = 0) (t : T) :
    PushStep s t .load s (.done false) := by
  have hreaders' : (s.alone (pushing t .load)).readers = 0 := hreaders
  have hcap' : (s.alone (pushing t .load)).capacity = 0 := hcap
  refine ⟨?_, rfl⟩
  rw [State.push, if_neg (not_not.2 hreaders'), if_pos ⟨hcap', .inr (by simp)⟩, alone_goto]
  rfl

theorem push_cas (t : T) : PushStep s t (.cas s.wait)
    { s with wait := (s.wait + State.one .writer) % 2 ^ 64 } .enqueue := by
  have hwait : (s.alone (pushing t (.cas s.wait))).wait = s.wait := rfl
  refine ⟨?_, rfl⟩
  rw [State.push, if_pos hwait]
  exact alone_goto { s with wait := (s.wait + State.one .writer) % 2 ^ 64 } _ _

theorem push_accept (hopen : s.closed = false) (hlt : s.wq.queue.count < s.capacity) (t : T) :
    PushStep s t .enqueue (s.setCond .writer
      (s.wq.push ⟨s.calls.length, some t, false, .waiting⟩ (true, true))) .resume := by
  have hopen' : (s.alone (pushing t .enqueue)).closed = false := hopen
  have hlt' : (s.alone (pushing t .enqueue)).wq.queue.count <
      (s.alone (pushing t .enqueue)).capacity := hlt
  refine ⟨?_, rfl⟩
  rw [State.push, State.enqueuePush, hopen', if_neg (by simp), if_pos hlt', State.queued]
  exact alone_goto (s.setCond .writer
    (s.wq.push ⟨s.calls.length, some t, false, .waiting⟩ (true, true))) _ _

theorem push_refuse (hopen : s.closed = false) (hge : ¬ s.wq.queue.count < s.capacity) (t : T) :
    PushStep s t .enqueue s (.subtract .writer false) := by
  have hopen' : (s.alone (pushing t .enqueue)).closed = false := hopen
  have hge' : ¬ (s.alone (pushing t .enqueue)).wq.queue.count <
      (s.alone (pushing t .enqueue)).capacity := hge
  refine ⟨?_, rfl⟩
  rw [State.push, State.enqueuePush, hopen', if_neg (by simp), if_neg hge', if_neg (by simp),
    alone_goto]
  rfl

theorem push_resume (hopen : s.closed = false) (t : T) : PushStep s t .resume s (.done true) := by
  have hopen' : (s.alone (pushing t .resume)).closed = false := hopen
  refine ⟨?_, rfl⟩
  rw [State.push, hopen', alone_goto]
  rfl

theorem push_subtract (t : T) (r : Bool) :
    PushStep s t (.subtract .writer r) (s.subtract .writer) (.done r) := by
  refine ⟨?_, rfl⟩
  rw [State.push]
  exact alone_goto (s.subtract .writer) _ _

/-! ### A `TryPush` that returns -/

/-- With fewer than `2 ^ 32` values, nobody seems to read. -/
theorem Stores.readers (h : Stores s capacity xs) (hlt : xs.length < 2 ^ 32) : s.readers = 0 := by
  unfold State.readers
  rw [h.wait]
  exact Nat.div_eq_of_lt hlt

/-- A call that has run alone has become `call'`, and the channel stores `xs`. -/
def Leaves (s : State T) (fuel capacity : Nat) (call call' : Call T) (xs : List T) : Prop :=
  ∃ s', State.run s.calls.length fuel (s.alone call) = some (s'.alone call') ∧
    s'.calls.length = s.calls.length ∧ Stores s' capacity xs

theorem Stores.tryPush_zero (h : Stores s 0 xs) (hlt : xs.length < 2 ^ 32) (t : T) (n : Nat) :
    Leaves s (n + 6) 0 (pushing t .start) (pushing t (.done false)) xs := by
  refine ⟨s, ?_, rfl, h⟩
  rw [(push_start h.opened t).run (by simp),
    (push_load_zero (h.readers hlt) h.capacity_eq t).run (by simp)]
  exact run_done (alone_placeOf s _) _

/-- A writer has counted itself. -/
theorem Stores.push_cas (h : Stores s capacity xs) (hlt : xs.length < 2 ^ 32) (t : T) :
    PushStep s t (.cas s.wait) { s with wait := xs.length + 1 } .enqueue := by
  have hcas := CAS.push_cas (s := s) t
  have hwait : (s.wait + State.one .writer) % 2 ^ 64 = xs.length + 1 := by
    rw [h.wait, State.one]
    omega
  rwa [hwait] at hcas

/-- Until a `TryPush` is in the section under the lock of the queue. -/
theorem Stores.run_push (h : Stores s capacity xs) (hcap : capacity ≠ 0)
    (hlt : xs.length < 2 ^ 32) (t : T) (n : Nat) :
    State.run s.calls.length (n + 3) (s.alone (pushing t .start)) =
      State.run s.calls.length n
        (State.alone { s with wait := xs.length + 1 } (pushing t .enqueue)) := by
  rw [(push_start h.opened t).run (by simp),
    (push_load (h.readers hlt) (h.capacity_eq ▸ hcap) t).run (by simp),
    (h.push_cas hlt t).run (by simp)]

theorem Stores.tryPush_full (h : Stores s capacity xs) (hcap : capacity ≠ 0)
    (hlt : xs.length < 2 ^ 32) (hfull : ¬ xs.length < capacity) (t : T) (n : Nat) :
    Leaves s (n + 6) capacity (pushing t .start) (pushing t (.done false)) xs := by
  obtain ⟨s₁, hs₁⟩ : ∃ s₁, s₁ = { s with wait := xs.length + 1 } := ⟨_, rfl⟩
  have hge : ¬ s₁.wq.queue.count < s₁.capacity := by
    rw [hs₁]
    show ¬ s.wq.queue.count < s.capacity
    rw [h.count, h.capacity_eq]
    exact hfull
  have hopen : s₁.closed = false := hs₁ ▸ h.opened
  have hlen : s₁.calls.length = s.calls.length := by rw [hs₁]
  have hsub : s₁.subtract .writer = { s with wait := xs.length } := by
    rw [State.subtract, State.one, hs₁]
    dsimp only
    rw [if_pos (by omega), Nat.add_sub_cancel]
  have hrun := h.run_push hcap hlt t (n + 3)
  rw [← hs₁] at hrun
  have hstores : Stores { s with wait := xs.length } capacity xs :=
    ⟨h.capacity_eq, h.opened, rfl, h.few, h.rq, h.wq⟩
  refine ⟨{ s with wait := xs.length }, ?_, rfl, hstores⟩
  rw [hrun, ← hlen, (push_refuse hopen hge t).run (by simp), (push_subtract t false).run (by simp),
    hsub]
  exact run_done (alone_placeOf _ _) _

theorem Values.accept {c : Cond T} {buffered : List Nat} (h : Values c buffered xs)
    (hbound : ∀ i ∈ buffered, i < c.entries.length) {e : Entry T} {t : T} (he : e.value = some t) :
    Values (c.push e (true, true)) (buffered ++ [c.entries.length]) (xs ++ [t]) := by
  unfold Values at h ⊢
  rw [(Cond.push_valid e).1, List.map_append, List.map_append, ← h]
  congr 1
  · apply List.map_congr_left
    intro i hi
    rw [Cond.getElem?_append_of_mem (hbound i hi)]
  · simp [he]

/-- The channel after a writer has counted itself and been let in. -/
def State.accepting (s : State T) (xs : List T) (t : T) : State T :=
  ({ s with wait := xs.length + 1 } : State T).setCond .writer
    (s.wq.push ⟨s.calls.length, some t, false, .waiting⟩ (true, true))

theorem Stores.accept (h : Stores s capacity xs) (hcap : capacity < 2 ^ 64)
    (hlt : xs.length < 2 ^ 32) (hroom : xs.length < capacity) (t : T) :
    Stores (s.accepting xs t) capacity (xs ++ [t]) := by
  have hne : capacity ≠ 0 := by omega
  obtain ⟨buffered, hshape, hvalues⟩ := (h.wq.resolve_left fun h0 => hne h0.1).2
  have hcount : s.wq.queue.count < capacity := by
    rw [h.count]
    exact hroom
  have hnodes : s.wq.queue.nodes.length + 1 < 2 ^ 64 := by
    rw [← hshape.count, h.count]
    omega
  obtain ⟨e, he⟩ : ∃ e : Entry T, e = ⟨s.calls.length, some t, false, .waiting⟩ := ⟨_, rfl⟩
  have hshape' := hshape.accept hcount hcap hnodes e (by rw [he])
  have hvalues' := hvalues.accept (e := e) (t := t)
    (fun i hi => hshape.bound i (by simp [hshape.nodes, hi])) (by rw [he])
  rw [he] at hshape' hvalues'
  refine ⟨h.capacity_eq, h.opened, ?_, ?_, h.rq, .inr ⟨hne, _, hshape', hvalues'⟩⟩
  · rw [List.length_append]
    rfl
  · rw [List.length_append]
    exact hlt

/-- The section under the lock of the queue. -/
theorem Stores.push_accept (h : Stores s capacity xs) (hroom : xs.length < capacity) (t : T) :
    PushStep { s with wait := xs.length + 1 } t .enqueue (s.accepting xs t) .resume := by
  have hroom' : s.wq.queue.count < s.capacity := by
    rw [h.count, h.capacity_eq]
    exact hroom
  exact CAS.push_accept (s := { s with wait := xs.length + 1 }) h.opened hroom' t

theorem Stores.tryPush_accept (h : Stores s capacity xs) (hcap : capacity < 2 ^ 64)
    (hlt : xs.length < 2 ^ 32) (hroom : xs.length < capacity) (t : T) (n : Nat) :
    Leaves s (n + 6) capacity (pushing t .start) (pushing t (.done true)) (xs ++ [t]) := by
  have hrun := h.run_push (by omega) hlt t (n + 3)
  have haccept := h.push_accept hroom t
  have hstores := h.accept hcap hlt hroom t
  generalize s.accepting xs t = s₂ at haccept hstores
  obtain ⟨s₁, hs₁⟩ : ∃ s₁, s₁ = { s with wait := xs.length + 1 } := ⟨_, rfl⟩
  rw [← hs₁] at hrun haccept
  have hlen : s₁.calls.length = s.calls.length := by rw [hs₁]
  refine ⟨s₂, ?_, haccept.2.trans hlen, hstores⟩
  rw [hrun, ← hlen, haccept.run (by simp), (push_resume hstores.opened t).run (by simp)]
  exact run_done (alone_placeOf _ _) _

/-! ### A `TryPush` that does not return -/

theorem push_load_reader (hreaders : s.readers ≠ 0) (t : T) :
    PushStep s t .load s (.pop .reader) := by
  have hreaders' : (s.alone (pushing t .load)).readers ≠ 0 := hreaders
  refine ⟨?_, rfl⟩
  rw [State.push, if_pos hreaders', alone_goto]
  rfl

theorem push_pop_reader (hrq : s.rq.queue.nodes = []) (t : T) :
    PushStep s t (.pop .reader) s .again := by
  have hnone : ((s.alone (pushing t (.pop .reader))).cond .reader).pop = none := by
    show s.rq.pop = none
    rw [Cond.pop, hrq]
  refine ⟨?_, rfl⟩
  rw [State.push, State.popStep, hnone]
  exact alone_goto s _ _

theorem push_again (hcap : s.capacity ≠ 0) (t : T) : PushStep s t .again s .load := by
  have hcap' : (s.alone (pushing t .again)).capacity ≠ 0 := hcap
  refine ⟨?_, rfl⟩
  rw [State.push, if_neg (fun h => hcap' h.1), alone_goto]
  rfl

theorem run_zero (c : Nat) (s : State T) : State.run c 0 s = none := by rw [State.run]

/-- `TryPush` looks for a reader that is not there. -/
theorem run_looking (hreaders : s.readers ≠ 0) (hcap : s.capacity ≠ 0)
    (hrq : s.rq.queue.nodes = []) (t : T) (fuel : Nat) :
    State.run s.calls.length fuel (s.alone (pushing t .load)) = none := by
  induction fuel using Nat.strongRecOn with
  | ind fuel ih =>
    match fuel with
    | 0 => exact run_zero _ _
    | 1 =>
      rw [(push_load_reader hreaders t).run (by simp)]
      exact run_zero _ _
    | 2 =>
      rw [(push_load_reader hreaders t).run (by simp), (push_pop_reader hrq t).run (by simp)]
      exact run_zero _ _
    | n + 3 =>
      rw [(push_load_reader hreaders t).run (by simp), (push_pop_reader hrq t).run (by simp),
        (push_again hcap t).run (by simp)]
      exact ih n (by omega)

theorem Stores.tryPush_looking (h : Stores s capacity xs) (hall : xs.length = 2 ^ 32) (t : T)
    (fuel : Nat) : State.run s.calls.length fuel (s.alone (pushing t .start)) = none := by
  have hlen := h.length_le
  have hreaders : s.readers ≠ 0 := by
    rw [State.readers, h.wait, hall]
    decide
  have hcap : s.capacity ≠ 0 := by
    rw [h.capacity_eq]
    omega
  cases fuel with
  | zero => exact run_zero _ _
  | succ n =>
    rw [(push_start h.opened t).run (by simp)]
    exact run_looking hreaders hcap h.rq t n

/-! ### `TryPop` -/

/-- A `TryPop` that runs alone. -/
def popping (place : Place) (got : Option T) : Call T := ⟨.pop, false, place, got⟩

/-- Where a `TryPop` that runs alone goes in one step. -/
def PopStep (s : State T) (place : Place) (got : Option T) (s' : State T) (place' : Place)
    (got' : Option T) : Prop :=
  (s.alone (popping place got)).pop s.calls.length false (true, true) place =
    s'.alone (popping place' got') ∧ s'.calls.length = s.calls.length

theorem PopStep.run {place place' : Place} {got got' : Option T} {s' : State T}
    (h : PopStep s place got s' place' got') (hne : ∀ r, place ≠ .done r) (fuel : Nat) :
    State.run s.calls.length (fuel + 1) (s.alone (popping place got)) =
      State.run s'.calls.length fuel (s'.alone (popping place' got')) := by
  unfold popping at *
  rw [run_pop hne, h.2]
  exact congrArg _ h.1

variable {got : Option T}

theorem pop_start (s : State T) (got : Option T) : PopStep s .start got s .load got := by
  refine ⟨?_, rfl⟩
  rw [State.pop, alone_goto]
  rfl

theorem pop_load (hwriters : s.writers ≠ 0) : PopStep s .load got s (.pop .writer) got := by
  have hwriters' : (s.alone (popping .load got)).writers ≠ 0 := hwriters
  refine ⟨?_, rfl⟩
  rw [State.pop, if_pos hwriters', alone_goto]
  rfl

/-- A `TryPop` that sees no writer fails. -/
theorem pop_load_none (hwriters : s.writers = 0) : PopStep s .load got s (.done false) got := by
  have hwriters' : (s.alone (popping .load got)).writers = 0 := hwriters
  refine ⟨?_, rfl⟩
  rw [State.pop, if_neg (not_not.2 hwriters'), if_pos (.inr (by simp)), alone_goto]
  rfl

theorem pop_pop {ptr : Nat} {c : Cond T} (hpop : s.wq.pop = some (ptr, c)) :
    PopStep s (.pop .writer) got (s.setCond .writer c) (.notify .writer ptr) got := by
  have hpop' : ((s.alone (popping (.pop .writer) got)).cond .writer).pop = some (ptr, c) := hpop
  refine ⟨?_, rfl⟩
  rw [State.pop, State.popStep, hpop']
  exact alone_goto (s.setCond .writer c) _ _

theorem pop_notify {ptr : Nat} {e : Entry T} (he : s.wq.entries[ptr]? = some e)
    (haccepted : e.isWaiting = false) :
    PopStep s (.notify .writer ptr) got s (.subtract .writer true) (e.value <|> got) := by
  have he' : ((s.alone (popping (.notify .writer ptr) got)).cond .writer).entries[ptr]? = some e :=
    he
  refine ⟨?_, rfl⟩
  rw [State.pop, State.notifyStep, he']
  dsimp only
  rw [haccepted, if_neg (by simp), State.functor, alone_give, alone_goto]
  rfl

theorem pop_subtract (r : Bool) :
    PopStep s (.subtract .writer r) got (s.subtract .writer) (.done r) got := by
  refine ⟨?_, rfl⟩
  rw [State.pop]
  exact alone_goto (s.subtract .writer) _ _

/-- A `TryPop` on a channel without values fails, and so it does with `2 ^ 32` of them. -/
theorem Stores.tryPop_none (h : Stores s capacity xs) (hnone : xs.length % 2 ^ 32 = 0) (n : Nat) :
    Leaves s (n + 6) capacity (popping .start none) (popping (.done false) none) xs := by
  have hwriters : s.writers = 0 := by
    rw [State.writers, h.wait]
    exact hnone
  refine ⟨s, ?_, rfl, h⟩
  rw [(pop_start s none).run (by simp), (pop_load_none hwriters).run (by simp)]
  exact run_done (alone_placeOf s _) _

/-- The oldest value has been popped. -/
theorem Stores.popped {a : T} (h : Stores s capacity (a :: xs)) :
    ∃ ptr c e, s.wq.pop = some (ptr, c) ∧ c.entries[ptr]? = some e ∧ e.isWaiting = false ∧
      e.value = some a ∧ ∃ buffered, c.Shape capacity buffered [] ∧ Values c buffered xs := by
  obtain ⟨-, buffered, hshape, hvalues⟩ := h.wq.resolve_left fun h0 => by
    have := h0.2.1
    cases this
  cases buffered with
  | nil =>
    have := hvalues.length_eq
    cases this
  | cons ptr buffered =>
    obtain ⟨hpop, hshape'⟩ := hshape.pop_last
    obtain ⟨hvalue, hvalues'⟩ := List.cons.inj hvalues
    obtain ⟨e, he, hevalue⟩ := Option.bind_eq_some_iff.1 hvalue
    exact ⟨ptr, _, e, hpop, he, hshape.accepted ptr (by simp) e he, hevalue, buffered, hshape',
      hvalues'⟩

theorem Stores.tryPop_some {a : T} (h : Stores s capacity (a :: xs))
    (hlt : (a :: xs).length < 2 ^ 32) (n : Nat) :
    Leaves s (n + 6) capacity (popping .start none) (popping (.done true) (some a)) xs := by
  obtain ⟨ptr, c, e, hpop, he, haccepted, hvalue, buffered, hshape, hvalues⟩ := h.popped
  have hlength := hlt
  rw [List.length_cons] at hlength
  have hwriters : s.writers ≠ 0 := by
    rw [State.writers, h.wait, List.length_cons]
    omega
  have hcap : capacity ≠ 0 := by
    have := h.length_le
    rw [List.length_cons] at this
    omega
  obtain ⟨s₁, hs₁⟩ : ∃ s₁, s₁ = s.setCond .writer c := ⟨_, rfl⟩
  have hpopStep : PopStep s (.pop .writer) none (s.setCond .writer c) (.notify .writer ptr) none :=
    pop_pop hpop
  rw [← hs₁] at hpopStep
  have hentry : s₁.wq.entries[ptr]? = some e := by
    rw [hs₁]
    exact he
  have hnotify : PopStep s₁ (.notify .writer ptr) none s₁ (.subtract .writer true)
      (e.value <|> none) := pop_notify hentry haccepted
  have hgot : (some a <|> none) = some a := rfl
  rw [hvalue, hgot] at hnotify
  have hsub : s₁.subtract .writer = { s₁ with wait := xs.length } := by
    have hwait : s₁.wait = xs.length + 1 := by
      rw [hs₁]
      exact h.wait
    rw [State.subtract, State.one, hwait]
    rw [if_pos (by omega), Nat.add_sub_cancel]
  have hsubtract : PopStep s₁ (.subtract .writer true) (some a) (s₁.subtract .writer) (.done true)
      (some a) := pop_subtract true
  rw [hsub] at hsubtract
  have hlen : s₁.calls.length = s.calls.length := hpopStep.2
  have hstores : Stores { s₁ with wait := xs.length } capacity xs := by
    rw [hs₁]
    refine ⟨h.capacity_eq, h.opened, rfl, ?_, h.rq, .inr ⟨hcap, buffered, hshape, hvalues⟩⟩
    omega
  refine ⟨{ s₁ with wait := xs.length }, ?_, hsubtract.2.trans hlen, hstores⟩
  rw [(pop_start s none).run (by simp), (pop_load hwriters).run (by simp),
    hpopStep.run (by simp), hnotify.run (by simp), hsubtract.run (by simp)]
  exact run_done (alone_placeOf _ _) _

/-! ### The answers -/

/-- What `CASChannelImpl` answers as a bounded queue does, when the values `xs` are stored. -/
def Good (xs : List T) : BoundedQueue.Query T → Prop
  | .push _ => xs.length < 2 ^ 32
  | .pop => xs.length < 2 ^ 32
  | .size => xs.length ≤ 1
  | .empty => True

instance (xs : List T) : (q : BoundedQueue.Query T) → Decidable (Good xs q)
  | .push _ => inferInstanceAs (Decidable (_ < _))
  | .pop => inferInstanceAs (Decidable (_ < _))
  | .size => inferInstanceAs (Decidable (_ ≤ _))
  | .empty => inferInstanceAs (Decidable True)

theorem ask_push {t : T} {r : Bool} {ys : List T}
    (hl : Leaves s fuel capacity (pushing t .start) (pushing t (.done r)) ys) :
    ∃ s', s.ask fuel (.push t) = some (.pushed r, s') ∧ Stores s' capacity ys := by
  obtain ⟨s', hrun, hlen, hstores⟩ := hl
  refine ⟨s'.alone (pushing t (.done r)), ?_, hstores.alone _⟩
  unfold pushing at hrun
  have hplace : (s'.alone (pushing t (.done r))).placeOf s.calls.length = some (.done r) := by
    rw [← hlen, alone_placeOf]
    rfl
  unfold pushing at hplace
  rw [State.ask, hrun, Option.map_some, hplace]
  cases r <;> rfl

theorem ask_pop {got : Option T} {r : Bool} {ys : List T}
    (hl : Leaves s fuel capacity (popping .start none) (popping (.done r) got) ys) :
    ∃ s', s.ask fuel .pop = some (.popped (if r = true then got else none), s') ∧
      Stores s' capacity ys := by
  obtain ⟨s', hrun, hlen, hstores⟩ := hl
  refine ⟨s'.alone (popping (.done r) got), ?_, hstores.alone _⟩
  have hplace : (s'.alone (popping (.done r) got)).placeOf s.calls.length = some (.done r) := by
    rw [← hlen, alone_placeOf]
    rfl
  have hcall : (s'.alone (popping (.done r) got)).calls[s.calls.length]? =
      some (popping (.done r) got) := by
    rw [← hlen, alone_get]
  unfold popping at hrun hplace hcall
  rw [State.ask, hrun, Option.map_some, hplace, hcall]
  cases r <;> rfl

theorem Stores.size_eq (h : Stores s capacity xs) : s.size = min xs.length 1 := by
  have hle := h.length_le
  unfold State.size Cond.size
  rw [h.capacity_eq, h.count]
  cases hxs : xs.length with
  | zero => simp
  | succ n =>
    have : (decide (n + 1 ≠ 0)).toNat = 1 := by simp
    rw [this]
    omega

theorem Stores.empty_eq (h : Stores s capacity xs) : s.empty = xs.isEmpty := by
  unfold State.empty
  rw [h.count]
  cases xs <;> simp

theorem Stores.ask_good (h : Stores s capacity xs) (hcap : capacity < 2 ^ 64) (n : Nat)
    (q : BoundedQueue.Query T) (hq : Good xs q) :
    ∃ s', s.ask (n + 6) q = some ((BoundedQueue.ask capacity xs q).1, s') ∧
      Stores s' capacity (BoundedQueue.ask capacity xs q).2 := by
  cases q with
  | push t =>
    by_cases hroom : xs.length < capacity
    · rw [BoundedQueue.ask_push_room hroom]
      exact ask_push (h.tryPush_accept hcap hq hroom t n)
    · rw [BoundedQueue.ask_push_full hroom]
      by_cases hzero : capacity = 0
      · subst hzero
        exact ask_push (h.tryPush_zero hq t n)
      · exact ask_push (h.tryPush_full hzero hq hroom t n)
  | pop =>
    cases xs with
    | nil => exact ask_pop (h.tryPop_none rfl n)
    | cons a xs => exact ask_pop (h.tryPop_some hq n)
  | size =>
    refine ⟨s, ?_, h⟩
    have hlen : xs.length ≤ 1 := hq
    rw [State.ask, h.size_eq, min_eq_left hlen]
    rfl
  | empty =>
    refine ⟨s, ?_, h⟩
    rw [State.ask, h.empty_eq]
    rfl

theorem Stores.ask_bad (h : Stores s capacity xs) (n : Nat) (q : BoundedQueue.Query T)
    (hq : ¬ Good xs q) (s' : State T) :
    s.ask (n + 6) q ≠ some ((BoundedQueue.ask capacity xs q).1, s') := by
  have hfew := h.few
  intro heq
  cases q with
  | push t =>
    have hall : xs.length = 2 ^ 32 := le_antisymm hfew (Nat.not_lt.1 hq)
    have hnone := h.tryPush_looking hall t (n + 6)
    unfold pushing at hnone
    rw [State.ask, hnone] at heq
    cases heq
  | pop =>
    have hall : xs.length = 2 ^ 32 := le_antisymm hfew (Nat.not_lt.1 hq)
    obtain ⟨s₁, hpop, -⟩ := ask_pop (h.tryPop_none (by rw [hall, Nat.mod_self]) n)
    rw [hpop] at heq
    cases xs with
    | nil => cases hall
    | cons a xs => cases heq
  | size =>
    have hlen : ¬ xs.length ≤ 1 := hq
    rw [State.ask, h.size_eq, Option.some.injEq, Prod.mk.injEq, BoundedQueue.ask] at heq
    have hsize := BoundedQueue.Answer.size.inj heq.1
    omega
  | empty => exact hq trivial

/-- `CASChannelImpl` answers a history as a bounded queue does, if and only if it meets none of the
three exceptions. -/
theorem answers_iff (capacity : Nat) (hcap : capacity < 2 ^ 64) (n : Nat)
    (history : List (BoundedQueue.Query T)) :
    BoundedQueue.answers (State.ask (n + 6)) (State.initial capacity) history =
        BoundedQueue.answersOf capacity [] history ↔
      BoundedQueue.Throughout capacity Good [] history := by
  apply BoundedQueue.answers_eq_iff (R := fun _ s xs => Stores s capacity xs)
  · exact fun q _ s xs h hq => h.ask_good hcap n q hq
  · exact fun q _ s xs h hq => h.ask_bad n q hq
  · exact stores_initial capacity

end Costream.Sync.CAS

/-! ## `LockedChannelImpl` -/

namespace Costream.Sync

variable {T : Type*}

open BoundedQueue in
/-- What a call answers. -/
def State.ask (s : State T) : Query T → Option (Answer T × State T)
  | .push t =>
    (step s (.push t false)).map fun s' =>
      (.pushed (s'.pushStage s.pushes.length = .returned true), s')
  | .pop =>
    (step s (.pop false)).map fun s' =>
      (.popped (if s'.popStage s.pops = .returned true then
        (s'.got s.pops).map Item.value else none), s')
  | .size => some (.size s.store.size, s)
  | .empty => some (.empty (s.store.size = 0), s)

/-- The channel is open, stores the values `xs`, and nobody waits.  The counter of the ring buffer
stands `pushes` more pushes. -/
structure Stores (s : State T) (capacity pushes : Nat) (xs : List T) : Prop where
  opened : s.closed = false
  capacity_eq : s.store.capacity = capacity
  rq : s.rq = []
  wq : s.wq = []
  items : ∃ items, s.store.Holds items ∧ items.map Item.value = xs
  wraps : s.store.useRingBuffer = true →
    capacity + 1 ∣ 2 ^ 64 ∨ s.store.q.write + pushes < 2 ^ 64

variable {s : State T} {capacity pushes : Nat} {xs : List T}

theorem keeps_initial {useRingBuffer : Bool} (hcap : capacity + 1 < 2 ^ 64)
    (hw : capacity + 1 ∣ 2 ^ 64 ∨ pushes < 2 ^ 64) :
    Stores (State.initial capacity useRingBuffer : State T) capacity pushes [] where
  opened := rfl
  capacity_eq := rfl
  rq := rfl
  wq := rfl
  items := ⟨[], Store.holds_create fun _ => hcap, rfl⟩
  wraps _ := hw.imp_right fun h => by simpa [State.initial, Store.create, RingBuffer.create] using h

theorem Stores.length_le (h : Stores s capacity pushes xs) : xs.length ≤ capacity := by
  obtain ⟨items, hitems, rfl⟩ := h.items
  rw [List.length_map, ← h.capacity_eq]
  exact hitems.length_le

theorem Stores.size_eq (h : Stores s capacity pushes xs) : s.store.size = xs.length := by
  obtain ⟨items, hitems, rfl⟩ := h.items
  rw [List.length_map]
  exact hitems.size_eq

/-- Nobody changes the mode of a store. -/
theorem Store.push_mode {E : Type*} {store store' : Store E} {t : E} {ok : Bool}
    (h : store.push t = some (ok, store')) : store'.useRingBuffer = store.useRingBuffer := by
  unfold Store.push at h
  split at h
  · obtain ⟨r, -, hr⟩ := Option.map_eq_some_iff.1 h
    cases hr
    rfl
  · split at h <;> cases h <;> rfl

theorem Store.pop_mode {E : Type*} {store store' : Store E} {t : Option E}
    (h : store.pop = some (t, store')) : store'.useRingBuffer = store.useRingBuffer := by
  unfold Store.pop at h
  split at h
  · obtain ⟨r, -, hr⟩ := Option.map_eq_some_iff.1 h
    cases hr
    rfl
  · split at h <;> cases h <;> rfl

/-! ### `TryPush` and `TryPop` -/

theorem State.ask_push {t : T} {s' : State T} {r : Bool}
    (hpush : ({ s with pushes := s.pushes ++ [t] } : State T).push s.pushes.length t false =
      some (s'.returnPush s.pushes.length r)) :
    s.ask (.push t) = some (.pushed r, s'.returnPush s.pushes.length r) := by
  rw [State.ask, Sync.step, hpush, Option.map_some]
  cases r <;> simp [State.returnPush]

/-- `TryPush` without room. -/
theorem Stores.push_full (h : Stores s capacity pushes xs) (hfull : ¬ xs.length < capacity) (t : T) :
    ({ s with pushes := s.pushes ++ [t] } : State T).push s.pushes.length t false =
      some (({ s with pushes := s.pushes ++ [t] } : State T).returnPush s.pushes.length false) := by
  obtain ⟨items, hitems, hvalues⟩ := h.items
  have hlen : items.length = xs.length := by rw [← hvalues, List.length_map]
  have hle := h.length_le
  unfold State.push
  rw [if_neg (by simp [h.opened])]
  split
  · rw [notifyReader_nil (s := { s with pushes := s.pushes ++ [t] }) h.rq]
    rfl
  · rw [Store.push_full hitems (by rw [hlen, h.capacity_eq]; omega)]
    rfl

theorem Stores.ask_push_room (h : Stores s capacity (pushes + 1) xs) (hroom : xs.length < capacity)
    (t : T) : ∃ s', s.ask (.push t) = some (.pushed true, s') ∧
      Stores s' capacity pushes (xs ++ [t]) := by
  obtain ⟨items, hitems, hvalues⟩ := h.items
  have hlen : items.length = xs.length := by rw [← hvalues, List.length_map]
  have hcap := h.capacity_eq
  have hwraps : s.store.Wraps := by
    intro hr
    have hring := (hitems.ring hr).1
    rcases h.wraps hr with hdvd | hlt
    · right
      rwa [hring, hcap]
    · left
      omega
  obtain ⟨store, hpush, hstore, hcapacity, hwrite⟩ :=
    Store.push_spec hitems (a := ⟨s.pushes.length, t⟩) (by omega) hwraps
  have hmode := Store.push_mode hpush
  refine ⟨_, State.ask_push (push_stored h.opened (by omega) h.rq hpush), h.opened,
    hcapacity.trans hcap, h.rq, h.wq, ⟨_, hstore, ?_⟩, fun hr => ?_⟩
  · simp [hvalues]
  · have hr' : s.store.useRingBuffer = true := hmode.symm.trans hr
    rcases h.wraps hr' with hdvd | hlt
    · exact .inl hdvd
    · right
      have := (hwrite hr' (by omega)).2
      show store.q.write + pushes < 2 ^ 64
      omega

theorem State.ask_pop {s' : State T} {x : Option (Item T)} {r : Bool}
    (hpop : ({ s with pops := s.pops + 1 } : State T).pop s.pops false =
      some (s'.returnPop s.pops r)) (hgot : r = true → s'.got s.pops = x) :
    s.ask .pop = some (.popped (if r = true then x.map Item.value else none),
      s'.returnPop s.pops r) := by
  rw [State.ask, Sync.step, hpop, Option.map_some]
  cases r with
  | false => simp [State.returnPop]
  | true => simp [State.returnPop, hgot rfl]

/-- `TryPop` without values. -/
theorem Stores.pop_nil (h : Stores s capacity pushes []) :
    ({ s with pops := s.pops + 1 } : State T).pop s.pops false =
      some (({ s with pops := s.pops + 1 } : State T).returnPop s.pops false) := by
  obtain ⟨items, hitems, hvalues⟩ := h.items
  have hnil : items = [] := List.map_eq_nil_iff.1 hvalues
  subst hnil
  unfold State.pop
  rw [if_neg (by simp [h.opened])]
  split
  · rw [notifyWriter_nil (s := { s with pops := s.pops + 1 }) h.wq]
    rfl
  · rw [Store.pop_nil hitems]
    rfl

theorem Stores.ask_pop_cons {a : T} (h : Stores s capacity pushes (a :: xs)) :
    ∃ s', s.ask .pop = some (.popped (some a), s') ∧ Stores s' capacity pushes xs := by
  obtain ⟨items, hitems, hvalues⟩ := h.items
  have hle := h.length_le
  have hcap := h.capacity_eq
  rw [List.length_cons] at hle
  obtain ⟨x, items, rfl⟩ : ∃ x rest, items = x :: rest := by
    cases items with
    | nil => cases hvalues
    | cons x rest => exact ⟨x, rest, rfl⟩
  obtain ⟨hvalue, hvalues⟩ := List.cons.inj hvalues
  obtain ⟨store, hpop, hstore, hcapacity, -, hwrite⟩ := Store.pop_spec hitems
  have hmode := Store.pop_mode hpop
  have hstored : ({ s with pops := s.pops + 1 } : State T).pop s.pops false =
      some ((({ s with pops := s.pops + 1, store := store } : State T).give s.pops
        (some x)).returnPop s.pops true) := pop_stored h.opened (by omega) h.wq hpop
  have hask := State.ask_pop (x := some x) hstored fun _ => by simp [State.give]
  rw [if_pos rfl, Option.map_some, hvalue] at hask
  refine ⟨_, hask, h.opened, hcapacity.trans hcap, h.rq, h.wq, ⟨_, hstore, hvalues⟩, fun hr => ?_⟩
  have hr' : s.store.useRingBuffer = true := hmode.symm.trans hr
  rcases h.wraps hr' with hdvd | hlt
  · exact .inl hdvd
  · right
    show store.q.write + pushes < 2 ^ 64
    rwa [(hwrite hr').2]

/-- `LockedChannelImpl` answers a query as a bounded queue does. -/
theorem Stores.ask (q : BoundedQueue.Query T) (rest : List (BoundedQueue.Query T))
    (h : Stores s capacity (BoundedQueue.accepted capacity xs (q :: rest)) xs) :
    ∃ s', s.ask q = some ((BoundedQueue.ask capacity xs q).1, s') ∧
      Stores s' capacity (BoundedQueue.accepted capacity (BoundedQueue.ask capacity xs q).2 rest)
        (BoundedQueue.ask capacity xs q).2 := by
  cases q with
  | push t =>
    rw [BoundedQueue.accepted] at h
    by_cases hroom : xs.length < capacity
    · rw [if_pos hroom, Nat.add_comm] at h
      obtain ⟨s', hask, hkeeps⟩ := h.ask_push_room hroom t
      rw [BoundedQueue.ask_push_room hroom] at hkeeps ⊢
      exact ⟨s', hask, hkeeps⟩
    · rw [if_neg hroom, Nat.zero_add] at h
      have hask := State.ask_push (h.push_full hroom t)
      rw [BoundedQueue.ask_push_full hroom] at h ⊢
      exact ⟨_, hask, h.opened, h.capacity_eq, h.rq, h.wq, h.items, h.wraps⟩
  | pop =>
    cases xs with
    | nil =>
      refine ⟨_, State.ask_pop (x := none) h.pop_nil (fun hr => by cases hr), ?_⟩
      exact ⟨h.opened, h.capacity_eq, h.rq, h.wq, h.items, h.wraps⟩
    | cons a xs => exact h.ask_pop_cons
  | size => exact ⟨s, by rw [State.ask, h.size_eq]; rfl, h⟩
  | empty =>
    refine ⟨s, ?_, h⟩
    rw [State.ask, h.size_eq]
    cases xs <;> rfl

/-- `LockedChannelImpl` answers a history as a bounded queue does. -/
theorem answers_eq {useRingBuffer : Bool} (hcap : capacity + 1 < 2 ^ 64)
    (history : List (BoundedQueue.Query T))
    (hw : capacity + 1 ∣ 2 ^ 64 ∨ BoundedQueue.accepted capacity [] history < 2 ^ 64) :
    BoundedQueue.answers State.ask (State.initial capacity useRingBuffer) history =
      BoundedQueue.answersOf capacity [] history := by
  apply BoundedQueue.answers_eq
    (R := fun rest s xs => Stores s capacity (BoundedQueue.accepted capacity xs rest) xs)
  · exact fun q rest s xs h => h.ask
  · exact keeps_initial hcap hw

/-! ## The choice -/

/-- The three implementations give the same answers.  A call of `CASChannelImpl` has `fuel` steps
to return. -/
def Agree (fuel capacity : Nat) (history : List (BoundedQueue.Query T)) : Prop :=
  BoundedQueue.answers (CAS.State.ask fuel) (CAS.State.initial capacity) history =
      BoundedQueue.answers State.ask (State.initial capacity true) history ∧
    BoundedQueue.answers State.ask (State.initial capacity true) history =
      BoundedQueue.answers State.ask (State.initial capacity false) history

/-- As long as the ring buffer finds its slots, the choice is invisible if and only if nobody asks
for the size of more than one value, and nobody pushes or pops when there are `2 ^ 32`. -/
theorem agree_iff (fuel capacity : Nat) (hfuel : 6 ≤ fuel) (hcap : capacity + 1 < 2 ^ 64)
    (history : List (BoundedQueue.Query T))
    (hw : capacity + 1 ∣ 2 ^ 64 ∨ BoundedQueue.accepted capacity [] history < 2 ^ 64) :
    Agree fuel capacity history ↔ BoundedQueue.Throughout capacity CAS.Good [] history := by
  obtain ⟨n, rfl⟩ := Nat.exists_eq_add_of_le' hfuel
  unfold Agree
  rw [answers_eq hcap history hw, answers_eq hcap history hw, ← CAS.answers_iff capacity (by omega) n]
  exact and_iff_left rfl

/-- Two values go through a channel of capacity one. -/
theorem agree_one : Agree 6 1 [.push 5, .size, .push 6, .pop, .empty, .pop, .push (7 : Nat)] :=
  (agree_iff 6 1 (by decide) (by decide) _ (by decide)).2 (by decide)

/-- With two values in it, `CASChannelImpl` has the size one. -/
theorem size_differs : ¬ ∀ (fuel capacity : Nat) (history : List (BoundedQueue.Query Nat)),
    6 ≤ fuel → capacity < 2 ^ 64 → Agree fuel capacity history := by
  intro hall
  have hagree := (hall 6 2 [.push 5, .push 6, .size] (by decide) (by decide)).1
  rw [answers_eq (by decide) _ (by decide)] at hagree
  exact absurd ((CAS.answers_iff 2 (by decide) 0 _).1 hagree) (by decide)

end Costream.Sync
