import Costream.Sync.LockedChannel
import Mathlib.Data.List.Range
import Mathlib.Tactic.Common

/-!
# The locked channel is a bounded queue

`channel_fifo` is about every run of `Push`, `Pop`, `TryPush` and `TryPop` in
which no counter of the ring buffer overflows at the wrong moment (see
`RingBuffer.Wraps`).  The values that pops get, in the order in which the pops
take the lock, are a prefix of the values of the pushes in the order in which
these take the lock; and a party waits only if it has to.

* `Inv` is the invariant.  What has been offered is what has been delivered,
  then what is stored, then what the waiting writers bring.
* `ReadersOk` and `WritersOk` say where the calls in `rq_` and `wq_` stand.
-/

namespace Costream.Sync

open Trace

variable {T : Type*}

/-! ## The values in order -/

/-- The values of the pushes that have not failed, in the order of the lock. -/
def offered (pushes : List T) (stage : Nat → Stage) : List (Item T) :=
  pushes.zipIdx.filterMap fun (t, i) =>
    if stage i = .returned false then none else some ⟨i, t⟩

/-- The values that the pops have got, in the order of the lock. -/
def delivered (pops : Nat) (got : Nat → Option (Item T)) : List (Item T) :=
  (List.range pops).filterMap got

theorem offered_congr {pushes : List T} {stage stage' : Nat → Stage}
    (h : ∀ i < pushes.length, stage' i = .returned false ↔ stage i = .returned false) :
    offered pushes stage' = offered pushes stage := by
  unfold offered
  refine List.filterMap_congr fun p hp => ?_
  have hlt : p.2 < pushes.length := List.snd_lt_of_mem_zipIdx hp
  simp only [h p.2 hlt]

theorem offered_concat (pushes : List T) (stage : Nat → Stage) (t : T) (st : Stage) :
    offered (pushes ++ [t]) (Function.update stage pushes.length st) =
      offered pushes stage ++ if st = .returned false then [] else [⟨pushes.length, t⟩] := by
  have hold : offered pushes (Function.update stage pushes.length st) = offered pushes stage :=
    offered_congr fun i hi => by rw [Function.update_of_ne (by omega)]
  rw [← hold, offered, offered, List.zipIdx_append, List.filterMap_append]
  congr 1
  by_cases hst : st = .returned false
  · simp [hst]
  · simp [hst]

theorem offered_update {pushes : List T} {stage : Nat → Stage} {i : Nat} {st : Stage}
    (hold : stage i ≠ .returned false) (hnew : st ≠ .returned false) :
    offered pushes (Function.update stage i st) = offered pushes stage := by
  refine offered_congr fun k _ => ?_
  by_cases hk : k = i
  · rw [hk, Function.update_self]
    exact iff_of_false hnew hold
  · rw [Function.update_of_ne hk]

theorem delivered_succ {pops : Nat} {got : Nat → Option (Item T)} (h : got pops = none) :
    delivered (pops + 1) got = delivered pops got := by
  rw [delivered, List.range_succ, List.filterMap_append]
  simp [delivered, h]

theorem delivered_update {pops j : Nat} {got : Nat → Option (Item T)} {t : Item T}
    (hj : j < pops) (h : ∀ k, j ≤ k → got k = none) :
    delivered pops (Function.update got j (some t)) = delivered pops got ++ [t] := by
  induction pops with
  | zero => omega
  | succ n ih =>
    have hn : got n = none := h n (by omega)
    rcases Nat.lt_or_eq_of_le (Nat.le_of_lt_succ hj) with hlt | rfl
    · have hupd : Function.update got j (some t) n = none := by
        rw [Function.update_of_ne (by omega), hn]
      rw [delivered_succ hupd, delivered_succ hn, ih hlt]
    · have hold : delivered j (Function.update got j (some t)) = delivered j got := by
        refine List.filterMap_congr fun k hk => ?_
        rw [List.mem_range] at hk
        rw [Function.update_of_ne (by omega)]
      rw [delivered_succ hn, delivered, List.range_succ, List.filterMap_append]
      change delivered j (Function.update got j (some t)) ++ _ = _
      rw [hold]
      simp

/-! ## The queues -/

theorem notifyOne_nil {E : Type*} (call : E → Nat) (stage : Nat → Stage) :
    notifyOne call stage [] = (none, [], stage) := rfl

theorem notifyOne_waiting {E : Type*} {call : E → Nat} {stage : Nat → Stage} {e : E}
    {rest : List E} (h : stage (call e) = .waiting) :
    notifyOne call stage (e :: rest) =
      (some e, rest, Function.update stage (call e) .woken) := by
  rw [notifyOne, h]

/-- Without deadlines a party that waits is only ever woken. -/
def Quiet (stage : Nat → Stage) : Prop := ∀ i, stage i ≠ .fired ∧ stage i ≠ .lost

theorem Quiet.update {stage : Nat → Stage} (h : Quiet stage) (i : Nat) {st : Stage}
    (hst : st ≠ .fired ∧ st ≠ .lost) : Quiet (Function.update stage i st) := by
  intro k
  by_cases hk : k = i
  · rw [hk, Function.update_self]
    exact hst
  · rw [Function.update_of_ne hk]
    exact h k

/-- The readers in `rq_` are waiting, and no later pop has got a value. -/
structure ReadersOk (pops : Nat) (stage : Nat → Stage) (got : Nat → Option (Item T))
    (rq : List Nat) : Prop where
  quiet : Quiet stage
  sorted : rq.Pairwise (· < ·)
  waiting : ∀ j ∈ rq, j < pops ∧ stage j = .waiting ∧ ∀ k, j ≤ k → got k = none
  fresh : ∀ k, pops ≤ k → got k = none
  served : ∀ j < pops, (stage j = .woken ∨ stage j = .returned true) ↔ (got j).isSome

/-- The writers in `wq_` are waiting. -/
structure WritersOk (pushes : Nat) (stage : Nat → Stage) (wq : List (Item T)) : Prop where
  quiet : Quiet stage
  sorted : wq.Pairwise fun e e' => e.call < e'.call
  waiting : ∀ e ∈ wq, e.call < pushes ∧ stage e.call = .waiting

namespace ReadersOk

variable {pops j : Nat} {stage : Nat → Stage} {got : Nat → Option (Item T)} {rq : List Nat}

theorem wake (h : ReadersOk pops stage got (j :: rq)) (t : Item T) :
    ReadersOk pops (Function.update stage j .woken) (Function.update got j (some t)) rq := by
  have hsorted := List.pairwise_cons.1 h.sorted
  obtain ⟨hj, -, hnone⟩ := h.waiting j List.mem_cons_self
  refine ⟨h.quiet.update j (by decide), hsorted.2, fun k hk => ?_, fun k hk => ?_, fun k hk => ?_⟩
  · have hlt := hsorted.1 k hk
    obtain ⟨hk', hst, hgot⟩ := h.waiting k (List.mem_cons_of_mem _ hk)
    refine ⟨hk', by rwa [Function.update_of_ne (by omega)], fun l hl => ?_⟩
    rw [Function.update_of_ne (by omega)]
    exact hgot l hl
  · rw [Function.update_of_ne (by omega)]
    exact h.fresh k hk
  · by_cases hkj : k = j
    · subst hkj
      simp
    · rw [Function.update_of_ne hkj, Function.update_of_ne hkj]
      exact h.served k hk

theorem return_of_served (h : ReadersOk pops stage got []) (t : Item T) :
    ReadersOk (pops + 1) (Function.update stage pops (.returned true))
      (Function.update got pops (some t)) [] := by
  refine ⟨h.quiet.update pops (by decide), .nil, by simp, fun k hk => ?_, fun k hk => ?_⟩
  · rw [Function.update_of_ne (by omega)]
    exact h.fresh k (by omega)
  · by_cases hkp : k = pops
    · subst hkp
      simp
    · rw [Function.update_of_ne hkp, Function.update_of_ne hkp]
      exact h.served k (by omega)

theorem park (h : ReadersOk pops stage got rq) :
    ReadersOk (pops + 1) (Function.update stage pops .waiting) got (rq ++ [pops]) := by
  refine ⟨h.quiet.update pops (by decide), ?_, fun k hk => ?_, fun k hk => h.fresh k (by omega),
    fun k hk => ?_⟩
  · refine List.pairwise_append.2 ⟨h.sorted, List.pairwise_singleton _ _, fun k hk l hl => ?_⟩
    rw [List.mem_singleton.1 hl]
    exact (h.waiting k hk).1
  · rcases List.mem_append.1 hk with hk | hk
    · obtain ⟨hlt, hst, hgot⟩ := h.waiting k hk
      exact ⟨by omega, by rwa [Function.update_of_ne (by omega)], hgot⟩
    · obtain rfl := List.mem_singleton.1 hk
      exact ⟨by omega, Function.update_self .., h.fresh⟩
  · by_cases hkp : k = pops
    · subst hkp
      simp [h.fresh k (Nat.le_refl k)]
    · rw [Function.update_of_ne hkp]
      exact h.served k (by omega)

theorem refuse (h : ReadersOk pops stage got rq) :
    ReadersOk (pops + 1) (Function.update stage pops (.returned false)) got rq := by
  refine ⟨h.quiet.update pops (by decide), h.sorted, fun k hk => ?_,
    fun k hk => h.fresh k (by omega), fun k hk => ?_⟩
  · obtain ⟨hlt, hst, hgot⟩ := h.waiting k hk
    exact ⟨by omega, by rwa [Function.update_of_ne (by omega)], hgot⟩
  · by_cases hkp : k = pops
    · subst hkp
      simp [h.fresh k (Nat.le_refl k)]
    · rw [Function.update_of_ne hkp]
      exact h.served k (by omega)

theorem resume (h : ReadersOk pops stage got rq) (hj : stage j = .woken) :
    ReadersOk pops (Function.update stage j (.returned true)) got rq := by
  refine ⟨h.quiet.update j (by decide), h.sorted, fun k hk => ?_, h.fresh, fun k hk => ?_⟩
  · obtain ⟨hlt, hst, hgot⟩ := h.waiting k hk
    have hkj : k ≠ j := fun heq => by
      rw [heq, hj] at hst
      cases hst
    exact ⟨hlt, by rwa [Function.update_of_ne hkj], hgot⟩
  · by_cases hkj : k = j
    · subst hkj
      rw [Function.update_self, ← h.served k hk]
      simp [hj]
    · rw [Function.update_of_ne hkj]
      exact h.served k hk

end ReadersOk

namespace WritersOk

variable {pushes i : Nat} {stage : Nat → Stage} {wq : List (Item T)} {e : Item T}

theorem wake (h : WritersOk pushes stage (e :: wq)) :
    WritersOk pushes (Function.update stage e.call .woken) wq := by
  have hsorted := List.pairwise_cons.1 h.sorted
  refine ⟨h.quiet.update _ (by decide), hsorted.2, fun k hk => ?_⟩
  have hlt := hsorted.1 k hk
  obtain ⟨hk', hst⟩ := h.waiting k (List.mem_cons_of_mem _ hk)
  exact ⟨hk', by rwa [Function.update_of_ne (by omega)]⟩

theorem done (h : WritersOk pushes stage wq) (b : Bool) :
    WritersOk (pushes + 1) (Function.update stage pushes (.returned b)) wq := by
  refine ⟨h.quiet.update pushes (by simp), h.sorted, fun k hk => ?_⟩
  obtain ⟨hlt, hst⟩ := h.waiting k hk
  exact ⟨by omega, by rwa [Function.update_of_ne (by omega)]⟩

theorem park (h : WritersOk pushes stage wq) (t : T) :
    WritersOk (pushes + 1) (Function.update stage pushes .waiting) (wq ++ [⟨pushes, t⟩]) := by
  refine ⟨h.quiet.update pushes (by decide), ?_, fun k hk => ?_⟩
  · refine List.pairwise_append.2 ⟨h.sorted, List.pairwise_singleton _ _, fun k hk l hl => ?_⟩
    rw [List.mem_singleton.1 hl]
    exact (h.waiting k hk).1
  · rcases List.mem_append.1 hk with hk | hk
    · obtain ⟨hlt, hst⟩ := h.waiting k hk
      exact ⟨by omega, by rwa [Function.update_of_ne (by omega)]⟩
    · rw [List.mem_singleton.1 hk]
      exact ⟨Nat.lt_succ_self _, Function.update_self ..⟩

theorem resume (h : WritersOk pushes stage wq) (hi : stage i = .woken) :
    WritersOk pushes (Function.update stage i (.returned true)) wq := by
  refine ⟨h.quiet.update i (by decide), h.sorted, fun k hk => ?_⟩
  obtain ⟨hlt, hst⟩ := h.waiting k hk
  have hki : k.call ≠ i := fun heq => by
    rw [heq, hi] at hst
    cases hst
  exact ⟨hlt, by rwa [Function.update_of_ne hki]⟩

end WritersOk

/-! ## The invariant -/

/-- The invariant of an open channel that stores `xs`. -/
structure Inv (s : State T) (xs : List (Item T)) : Prop where
  opened : s.closed = false
  holds : s.store.Holds xs
  order : offered s.pushes s.pushStage = delivered s.pops s.got ++ xs ++ s.wq
  reader : s.rq ≠ [] → xs = []
  writer : s.wq ≠ [] → xs.length = s.store.capacity
  alone : s.rq = [] ∨ s.wq = []
  readers : ReadersOk s.pops s.popStage s.got s.rq
  writers : WritersOk s.pushes.length s.pushStage s.wq

variable {s s' : State T} {xs : List (Item T)} {t : T} {bWait : Bool} {i j : Nat}

theorem Inv.initial {capacity : Nat} {useRingBuffer : Bool}
    (h : useRingBuffer = true → capacity + 1 < 2 ^ 64) :
    Inv (State.initial capacity useRingBuffer : State T) [] where
  opened := rfl
  holds := Store.holds_create h
  order := rfl
  reader h := absurd rfl h
  writer h := absurd rfl h
  alone := .inl rfl
  readers := ⟨by simp [Quiet, State.initial], .nil, by simp [State.initial], fun _ _ => rfl,
    fun _ h => absurd h (Nat.not_lt_zero _)⟩
  writers := ⟨by simp [Quiet, State.initial], .nil, by simp [State.initial]⟩

/-- A push that is neither handed over nor stored. -/
theorem Inv.parkPush (h : Inv s xs) (hrq : s.rq = []) (hfull : xs.length = s.store.capacity) :
    Inv (({ s with pushes := s.pushes ++ [t] } : State T).parkPush s.pushes.length t bWait)
      xs := by
  unfold State.parkPush
  split
  · refine ⟨h.opened, h.holds, ?_, fun hne => absurd hrq hne, fun _ => hfull, .inl hrq,
      h.readers, ?_⟩
    · simp only [offered_concat, h.order]
      simp
    · simpa using h.writers.park t
  · refine ⟨h.opened, h.holds, ?_, h.reader, h.writer, h.alone, h.readers, ?_⟩
    · simp only [State.returnPush, offered_concat, h.order]
      simp
    · simpa [State.returnPush] using h.writers.done false

/-- A push that is handed over to a reader. -/
theorem Inv.handPush {rest : List Nat} (h : Inv s []) (hrq : s.rq = j :: rest)
    (hwq : s.wq = []) {store : Store (Item T)} (hstore : store.Holds [])
    {st : Nat → Stage} (hst : st = Function.update s.popStage j .woken) :
    Inv (((({ s with pushes := s.pushes ++ [t], store := store, rq := rest, popStage := st } :
      State T)).give j (some ⟨s.pushes.length, t⟩)).returnPush s.pushes.length true) [] := by
  subst hst
  have hr := h.readers
  rw [hrq] at hr
  obtain ⟨hj, -, hnone⟩ := hr.waiting j List.mem_cons_self
  refine ⟨h.opened, hstore, ?_, fun _ => rfl, fun hne => absurd hwq hne, .inr hwq, ?_, ?_⟩
  · have horder := h.order
    simp only [State.returnPush, State.give, offered_concat]
    rw [horder, hwq]
    simp [delivered_update hj hnone]
  · exact hr.wake _
  · simpa [State.returnPush, State.give, hwq] using h.writers.done true

theorem notifyReader_nil (h : s.rq = []) : s.notifyReader = (none, s) := by
  unfold State.notifyReader
  rw [h, notifyOne_nil]
  cases s
  simp_all

theorem notifyReader_cons {rest : List Nat} (h : s.rq = j :: rest) (hj : s.popStage j = .waiting) :
    s.notifyReader = (some j,
      { s with rq := rest, popStage := Function.update s.popStage j .woken }) := by
  unfold State.notifyReader
  rw [h, notifyOne_waiting hj]
  rfl

theorem notifyWriter_nil (h : s.wq = []) : s.notifyWriter = (none, s) := by
  unfold State.notifyWriter
  rw [h, notifyOne_nil]
  cases s
  simp_all

theorem notifyWriter_cons {e : Item T} {rest : List (Item T)} (h : s.wq = e :: rest)
    (he : s.pushStage e.call = .waiting) :
    s.notifyWriter = (some e,
      { s with wq := rest, pushStage := Function.update s.pushStage e.call .woken }) := by
  unfold State.notifyWriter
  rw [h, notifyOne_waiting he]

theorem Inv.head_waiting (h : Inv s xs) {rest : List Nat} (hrq : s.rq = j :: rest) :
    s.popStage j = .waiting :=
  (h.readers.waiting j (hrq ▸ List.mem_cons_self)).2.1

theorem handOut_nil {pushes : List T} {store : Store (Item T)} (hrq : s.rq = []) :
    State.handOut ({ s with pushes := pushes, store := store } : State T) =
      some { s with pushes := pushes, store := store } := by
  have hnotify := notifyReader_nil (s := { s with pushes := pushes, store := store }) hrq
  rw [State.handOut, hnotify]

/-- A push whose value stays in the storage. -/
theorem Inv.storePush (h : Inv s xs) (hrq : s.rq = []) (hwq : s.wq = [])
    {store : Store (Item T)} (hstore : store.Holds (xs ++ [⟨s.pushes.length, t⟩])) :
    Inv (({ s with pushes := s.pushes ++ [t], store := store } : State T).returnPush
      s.pushes.length true) (xs ++ [⟨s.pushes.length, t⟩]) := by
  refine ⟨h.opened, hstore, ?_, fun hne => absurd hrq hne, fun hne => absurd hwq hne, .inl hrq,
    h.readers, ?_⟩
  · simp only [State.returnPush, offered_concat, h.order, hwq]
    simp
  · simpa [State.returnPush] using h.writers.done true

/-- A push keeps the invariant. -/
theorem Inv.push (h : Inv s xs) (hw : xs.length < s.store.capacity → s.store.Wraps) :
    ∃ s' xs', ({ s with pushes := s.pushes ++ [t] } : State T).push s.pushes.length t bWait =
      some s' ∧ Inv s' xs' := by
  have hle := h.holds.length_le
  unfold State.push
  rw [if_neg (by simp [h.opened])]
  split
  · rename_i hcap
    simp only at hcap
    obtain rfl : xs = [] := List.eq_nil_of_length_eq_zero (by omega)
    by_cases hrq : s.rq = []
    · have hnotify := notifyReader_nil (s := { s with pushes := s.pushes ++ [t] }) hrq
      rw [hnotify]
      exact ⟨_, [], rfl, h.parkPush hrq hcap.symm⟩
    · have hwq : s.wq = [] := h.alone.resolve_left hrq
      obtain ⟨j, rest, hrq⟩ := List.exists_cons_of_ne_nil hrq
      have hnotify := notifyReader_cons (s := { s with pushes := s.pushes ++ [t] }) hrq
        (h.head_waiting hrq)
      rw [hnotify]
      exact ⟨_, [], rfl, h.handPush hrq hwq h.holds rfl⟩
  · rename_i hcap
    simp only at hcap
    by_cases hlen : xs.length = s.store.capacity
    · have hrq : s.rq = [] := by
        by_contra hne
        have := h.reader hne
        subst this
        exact hcap hlen.symm
      rw [Store.push_full h.holds hlen]
      exact ⟨_, xs, rfl, h.parkPush hrq hlen⟩
    · have hlt : xs.length < s.store.capacity := by omega
      have hwq : s.wq = [] := by
        by_contra hne
        exact hlen (h.writer hne)
      obtain ⟨store, hpush, hstore, hcapacity, -⟩ :=
        Store.push_spec h.holds (a := ⟨s.pushes.length, t⟩) hlt (hw hlt)
      rw [hpush]
      simp only [Option.bind_eq_bind, Option.bind_some, if_true]
      unfold State.pushed
      have hsize := hstore.size_eq
      rw [List.length_append, List.length_singleton] at hsize
      simp only [hsize]
      by_cases hone : xs = [] ∧ s.rq ≠ []
      · obtain ⟨rfl, hne⟩ := hone
        obtain ⟨j, rest, hrq⟩ := List.exists_cons_of_ne_nil hne
        obtain ⟨store', hpop, hstore', -⟩ := Store.pop_spec hstore
        have hnotify := notifyReader_cons
          (s := { s with pushes := s.pushes ++ [t], store := store }) hrq (h.head_waiting hrq)
        rw [if_pos (by simp), State.handOut, hnotify]
        simp only [hpop, Option.map_some]
        exact ⟨_, [], rfl, h.handPush hrq hwq hstore' rfl⟩
      · have hrq : s.rq = [] := by
          by_contra hne
          exact hone ⟨h.reader hne, hne⟩
        rw [handOut_nil hrq, ite_self, Option.map_some]
        exact ⟨_, _, rfl, h.storePush hrq hwq hstore⟩

theorem refill_nil (hwq : s.wq = []) : s.refill = some s := by
  have hnotify := notifyWriter_nil hwq
  rw [State.refill, hnotify]

/-- A pop that finds nothing. -/
theorem Inv.parkPop (h : Inv s []) (hwq : s.wq = []) :
    Inv (({ s with pops := s.pops + 1 } : State T).parkPop s.pops bWait) [] := by
  have hnone := h.readers.fresh s.pops (Nat.le_refl _)
  unfold State.parkPop
  split
  · refine ⟨h.opened, h.holds, ?_, fun _ => rfl, fun hne => absurd hwq hne, .inr hwq,
      h.readers.park, h.writers⟩
    simp only [delivered_succ hnone, h.order]
  · refine ⟨h.opened, h.holds, ?_, h.reader, h.writer, h.alone, h.readers.refuse, h.writers⟩
    simp only [State.returnPop, delivered_succ hnone, h.order]

/-- A pop that is served, with the writers that are left. -/
theorem Inv.servePop {x : Item T} {ys : List (Item T)} {wq : List (Item T)} {store : Store (Item T)}
    {st : Nat → Stage} {taken : Nat → Bool} (h : Inv s xs) (hrq : s.rq = [])
    (hstore : store.Holds ys) (horder : xs ++ s.wq = x :: (ys ++ wq))
    (hfull : wq ≠ [] → ys.length = store.capacity)
    (hst : offered s.pushes st = offered s.pushes s.pushStage)
    (hwriters : WritersOk s.pushes.length st wq) :
    Inv ({ s with
      pops := s.pops + 1, store := store, wq := wq, pushStage := st, taken := taken
      got := Function.update s.got s.pops (some x)
      popStage := Function.update s.popStage s.pops (.returned true) } : State T) ys := by
  have hr := h.readers
  rw [hrq] at hr
  refine ⟨h.opened, hstore, ?_, fun hne => absurd hrq hne, hfull, .inl hrq, ?_, hwriters⟩
  · have hgot : delivered (s.pops + 1) (Function.update s.got s.pops (some x)) =
        delivered s.pops s.got ++ [x] := by
      rw [delivered_update (Nat.lt_succ_self _) hr.fresh,
        delivered_succ (hr.fresh _ (Nat.le_refl _))]
    simp only [hst, hgot, h.order, List.append_assoc, horder]
    simp
  · simp only [hrq]
    exact hr.return_of_served x

/-- A pop keeps the invariant. -/
theorem Inv.pop (h : Inv s xs) (hw : s.wq ≠ [] → s.store.Wraps) :
    ∃ s' xs', ({ s with pops := s.pops + 1 } : State T).pop s.pops bWait = some s' ∧
      Inv s' xs' := by
  have hle := h.holds.length_le
  have hnone := h.readers.fresh s.pops (Nat.le_refl _)
  have hwake : ∀ {e rest}, s.wq = e :: rest →
      s.pushStage e.call = .waiting ∧
      WritersOk s.pushes.length (Function.update s.pushStage e.call .woken) rest ∧
      offered s.pushes (Function.update s.pushStage e.call .woken) =
        offered s.pushes s.pushStage := by
    intro e rest hwq
    have hwriters := h.writers
    rw [hwq] at hwriters
    have hst := (hwriters.waiting e List.mem_cons_self).2
    exact ⟨hst, hwriters.wake, offered_update (by simp [hst]) (by decide)⟩
  unfold State.pop
  rw [if_neg (by simp [h.opened])]
  split
  · rename_i hcap
    simp only at hcap
    obtain rfl : xs = [] := List.eq_nil_of_length_eq_zero (by omega)
    by_cases hwq : s.wq = []
    · have hnotify := notifyWriter_nil (s := { s with pops := s.pops + 1 }) hwq
      rw [hnotify]
      exact ⟨_, [], rfl, h.parkPop hwq⟩
    · have hrq : s.rq = [] := h.alone.resolve_right hwq
      obtain ⟨e, rest, hwq⟩ := List.exists_cons_of_ne_nil hwq
      obtain ⟨hst, hwriters, hoff⟩ := hwake hwq
      have hnotify := notifyWriter_cons (s := { s with pops := s.pops + 1 }) hwq hst
      have horder : [] ++ s.wq = e :: ([] ++ rest) := hwq
      rw [hnotify]
      exact ⟨_, [], rfl, h.servePop hrq h.holds horder (fun _ => hcap.symm) hoff hwriters⟩
  · rename_i hcap
    simp only at hcap
    cases xs with
    | nil =>
      have hwq : s.wq = [] := by
        by_contra hne
        exact hcap (h.writer hne).symm
      rw [Store.pop_nil h.holds]
      exact ⟨_, [], rfl, h.parkPop hwq⟩
    | cons x ys =>
      rw [List.length_cons] at hle
      have hrq : s.rq = [] := by
        by_contra hne
        exact List.cons_ne_nil x ys (h.reader hne)
      obtain ⟨store, hpop, hstore, hcapacity, hwraps, -⟩ := Store.pop_spec h.holds
      rw [hpop]
      simp only [Option.bind_eq_bind, Option.bind_some]
      unfold State.popped
      let s₁ : State T := ({ s with pops := s.pops + 1, store := store } : State T).give s.pops
        (some x)
      change ∃ s' xs', Option.map _ (if s₁.store.size = s₁.store.capacity - 1 then s₁.refill
        else some s₁) = some s' ∧ Inv s' xs'
      have hsize : s₁.store.size = ys.length := hstore.size_eq
      have hcap' : s₁.store.capacity = s.store.capacity := hcapacity
      rw [hsize, hcap']
      by_cases hfull : ys.length = s.store.capacity - 1 ∧ s.wq ≠ []
      · obtain ⟨hlen, hne⟩ := hfull
        obtain ⟨e, rest, hwq⟩ := List.exists_cons_of_ne_nil hne
        obtain ⟨hst, hwriters, hoff⟩ := hwake hwq
        obtain ⟨store', hpush, hstore', hcapacity', -⟩ :=
          Store.push_spec hstore (a := e) (by omega) (hwraps (hw hne))
        have hnotify := notifyWriter_cons (s := s₁) hwq hst
        have hpush' : s₁.store.push e = some (true, store') := hpush
        rw [if_pos hlen, State.refill, hnotify]
        simp only [hpush', Option.map_some]
        have horder : x :: ys ++ s.wq = x :: (ys ++ [e] ++ rest) := by simp [hwq]
        have hfull : (ys ++ [e]).length = store'.capacity := by
          rw [List.length_append, List.length_singleton]
          omega
        exact ⟨_, ys ++ [e], rfl, h.servePop hrq hstore' horder (fun _ => hfull) hoff hwriters⟩
      · have hwq : s.wq = [] := by
          by_contra hne
          have hlen := h.writer hne
          rw [List.length_cons] at hlen
          exact hfull ⟨by omega, hne⟩
        have horder : x :: ys ++ s.wq = x :: (ys ++ s.wq) := rfl
        rw [refill_nil (s := s₁) hwq, ite_self, Option.map_some]
        exact ⟨_, ys, rfl, h.servePop hrq hstore horder (fun hne => absurd hwq hne) rfl h.writers⟩

/-! ## Runs -/

/-- Nothing is closed, and no wait ends before its party is notified. -/
def Untimed : Action T → Prop
  | .close => False
  | .expirePush _ => False
  | .expirePop _ => False
  | _ => True

/-- A push that the storage takes, or the refill after a pop, finds the ring
buffer's counter in order. -/
def CountersOk (s : State T) : Action T → Prop
  | .push _ _ => s.store.size = s.store.capacity ∨ s.store.Wraps
  | .pop _ => s.wq.isEmpty = true ∨ s.store.Wraps
  | _ => True

def FifoOk (s : State T) (a : Action T) : Prop := Untimed a ∧ CountersOk s a

instance (a : Action T) : Decidable (Untimed a) := by
  cases a <;> simp only [Untimed] <;> infer_instance

instance (s : State T) (a : Action T) : Decidable (CountersOk s a) := by
  cases a <;> simp only [CountersOk] <;> infer_instance

instance (s : State T) (a : Action T) : Decidable (FifoOk s a) :=
  inferInstanceAs (Decidable (_ ∧ _))

/-- Every action keeps the invariant and has a result. -/
theorem Inv.step (h : Inv s xs) {a : Action T} (he : (machine T).enabled s a)
    (hok : FifoOk s a) : ∃ s' xs', (machine T).step s a = some s' ∧ Inv s' xs' := by
  obtain ⟨huntimed, hcounters⟩ := hok
  cases a with
  | push t bWait =>
    refine h.push fun hlt => hcounters.resolve_left ?_
    rw [h.holds.size_eq]
    omega
  | pop bWait =>
    refine h.pop fun hne => hcounters.resolve_left ?_
    rw [List.isEmpty_iff]
    exact hne
  | close => exact huntimed.elim
  | expirePush i => exact huntimed.elim
  | expirePop j => exact huntimed.elim
  | resumePush i =>
    have hquiet := h.writers.quiet i
    have hen : i < s.pushes.length ∧
        (State.result s.closed (s.pushStage i)).isSome = true := by
      simpa [machine, Enabled] using he
    have hst : s.pushStage i = .woken := by
      have := hen.2
      cases hs : s.pushStage i <;> simp_all [State.result]
    refine ⟨s.returnPush i true, xs, by simp [machine, Sync.step, hst, State.result, h.opened],
      h.opened, h.holds, ?_, h.reader, h.writer, h.alone, h.readers, h.writers.resume hst⟩
    simp only [State.returnPush]
    rw [offered_update (by simp [hst]) (by decide), h.order]
  | resumePop j =>
    have hquiet := h.readers.quiet j
    have hen : j < s.pops ∧ (State.result s.closed (s.popStage j)).isSome = true := by
      simpa [machine, Enabled] using he
    have hst : s.popStage j = .woken := by
      have := hen.2
      cases hs : s.popStage j <;> simp_all [State.result]
    exact ⟨s.returnPop j true, xs, by simp [machine, Sync.step, hst, State.result, h.opened],
      h.opened, h.holds, h.order, h.reader, h.writer, h.alone, h.readers.resume hst, h.writers⟩

/-- What a bounded queue promises in a state with `lock_` free. -/
structure Fifo (s : State T) : Prop where
  values : (delivered s.pops s.got).map Item.value <+:
    (offered s.pushes s.pushStage).map Item.value
  served : ∀ j < s.pops, (s.popStage j = .woken ∨ s.popStage j = .returned true) ↔
    (s.got j).isSome
  stored : s.store.size ≤ s.store.capacity
  reader : s.rq ≠ [] → s.store.size = 0
  writer : s.wq ≠ [] → s.store.size = s.store.capacity
  alone : s.rq = [] ∨ s.wq = []

theorem Inv.fifo (h : Inv s xs) : Fifo s where
  values := by
    refine List.IsPrefix.map _ ⟨xs ++ s.wq, ?_⟩
    rw [h.order, List.append_assoc]
  served := h.readers.served
  stored := h.holds.size_eq ▸ h.holds.length_le
  reader hne := by rw [h.holds.size_eq, h.reader hne, List.length_nil]
  writer hne := by rw [h.holds.size_eq, h.writer hne]
  alone := h.alone

/-- In every run in which the counters of the ring buffer are in order, the
channel is a bounded queue and no action is without a result. -/
theorem channel_fifo {capacity : Nat} {useRingBuffer : Bool}
    (hcap : useRingBuffer = true → capacity + 1 < 2 ^ 64) {s : State T}
    (hr : Run (machine T) FifoOk (State.initial capacity useRingBuffer) s) :
    Fifo s ∧ ∀ a, (machine T).enabled s a → FifoOk s a → (machine T).step s a ≠ none := by
  have hinv : ∃ xs, Inv s xs := by
    refine hr.invariant (P := fun s => ∃ xs, Inv s xs) ⟨[], .initial hcap⟩ ?_
    rintro t a u ⟨xs, h⟩ he hok hs
    obtain ⟨u', xs', hs', h'⟩ := h.step he hok
    obtain rfl : u' = u := Option.some.inj (hs'.symm.trans hs)
    exact ⟨xs', h'⟩
  obtain ⟨xs, h⟩ := hinv
  refine ⟨h.fifo, fun a he hok hnone => ?_⟩
  obtain ⟨s', xs', hs, -⟩ := h.step he hok
  rw [hnone] at hs
  cases hs


/-- A reader that waits gets the value of the push. -/
theorem channel_fifo_handOver :
    ∃ s, Run (machine Nat) FifoOk (State.initial 1 true) s ∧ s.got 0 = some ⟨0, 5⟩ ∧ Fifo s := by
  have hexec : ((machine Nat).exec FifoOk (State.initial 1 true) [.pop true, .push 5 true]).any
      (fun s => s.got 0 = some ⟨0, 5⟩) = true := by decide +kernel
  obtain ⟨s, hr, hgot⟩ := Run.exists_of_exec hexec
  exact ⟨s, hr, of_decide_eq_true hgot, (channel_fifo (fun _ => by decide) hr).1⟩

/-! ## A counter that overflows -/

theorem push_stored {store : Store (Item T)} (hopen : s.closed = false)
    (hcap : s.store.capacity ≠ 0) (hrq : s.rq = [])
    (hpush : s.store.push ⟨s.pushes.length, t⟩ = some (true, store)) :
    ({ s with pushes := s.pushes ++ [t] } : State T).push s.pushes.length t bWait =
      some (({ s with pushes := s.pushes ++ [t], store := store } : State T).returnPush
        s.pushes.length true) := by
  unfold State.push
  rw [if_neg (by simp [hopen]), if_neg hcap, hpush]
  simp only [Option.bind_eq_bind, Option.bind_some, if_true]
  rw [State.pushed, handOut_nil hrq, ite_self, Option.map_some]

theorem pop_stored {store : Store (Item T)} {x : Item T} (hopen : s.closed = false)
    (hcap : s.store.capacity ≠ 0) (hwq : s.wq = [])
    (hpop : s.store.pop = some (some x, store)) :
    ({ s with pops := s.pops + 1 } : State T).pop s.pops bWait =
      some ((({ s with pops := s.pops + 1, store := store } : State T).give s.pops
        (some x)).returnPop s.pops true) := by
  unfold State.pop
  rw [if_neg (by simp [hopen]), if_neg hcap, hpop]
  simp only [Option.bind_eq_bind, Option.bind_some]
  rw [State.popped, refill_nil (by exact hwq), ite_self, Option.map_some]

/-- No party waits in a ring buffer of five slots and a spare one, which stores
`xs` and has taken `n` values. -/
structure Idle (s : State Nat) (xs : List (Item Nat)) (n : Nat) : Prop where
  inv : Inv s xs
  rq : s.rq = []
  wq : s.wq = []
  capacity : s.store.capacity = 5
  ring : s.store.useRingBuffer = true
  write : s.store.q.write = n

/-- `TryPush` to an idle channel. -/
theorem Idle.push {s : State Nat} {xs : List (Item Nat)} {n : Nat} (h : Idle s xs n)
    (hlen : xs.length < 5) (hn : n + 1 < 2 ^ 64) (v : Nat) :
    ∃ s', (machine Nat).step s (.push v false) = some s' ∧
      Idle s' (xs ++ [⟨s.pushes.length, v⟩]) (n + 1) ∧ s'.pushes = s.pushes ++ [v] := by
  have hcap := h.capacity
  obtain ⟨store, hpush, hstore, hcapacity, hwrite⟩ :=
    Store.push_spec h.inv.holds (a := ⟨s.pushes.length, v⟩) (by omega)
      fun _ => .inl (by rw [h.write]; exact hn)
  obtain ⟨hring, hwrite⟩ := hwrite h.ring (by rw [h.write]; exact hn)
  refine ⟨_, push_stored h.inv.opened (by omega) h.rq hpush, ⟨?_, h.rq, h.wq, ?_, hring, ?_⟩, rfl⟩
  · exact h.inv.storePush h.rq h.wq hstore
  · exact hcapacity.trans hcap
  · exact hwrite.trans (by rw [h.write])

/-- `TryPop` from an idle channel. -/
theorem Idle.pop {s : State Nat} {x : Item Nat} {xs : List (Item Nat)} {n : Nat}
    (h : Idle s (x :: xs) n) :
    ∃ s', (machine Nat).step s (.pop false) = some s' ∧ Idle s' xs n := by
  have hcap := h.capacity
  obtain ⟨store, hpop, hstore, hcapacity, -, hwrite⟩ := Store.pop_spec h.inv.holds
  obtain ⟨hring, hwrite⟩ := hwrite h.ring
  refine ⟨_, pop_stored h.inv.opened (by omega) h.wq hpop,
    ⟨?_, h.rq, h.wq, hcapacity.trans hcap, hring, hwrite.trans h.write⟩⟩
  refine h.inv.servePop h.rq hstore rfl (fun hne => absurd h.wq hne) rfl h.inv.writers

theorem run_push {s₀ s s' : State Nat} {v : Nat} {bWait : Bool}
    (hr : Run (machine Nat) (fun _ => Untimed) s₀ s)
    (hs : (machine Nat).step s (.push v bWait) = some s') :
    Run (machine Nat) (fun _ => Untimed) s₀ s' :=
  Run.tail (a := .push v bWait) hr rfl trivial hs

theorem run_pop {s₀ s s' : State Nat} {bWait : Bool}
    (hr : Run (machine Nat) (fun _ => Untimed) s₀ s)
    (hs : (machine Nat).step s (.pop bWait) = some s') :
    Run (machine Nat) (fun _ => Untimed) s₀ s' :=
  Run.tail (a := .pop bWait) hr rfl trivial hs

/-- `n` values have gone through the channel one by one. -/
theorem idle_after {n : Nat} (hn : n < 2 ^ 64) :
    ∃ s, Run (machine Nat) (fun _ => Untimed) (State.initial 5 true) s ∧ Idle s [] n := by
  induction n with
  | zero =>
    refine ⟨_, .refl, Inv.initial fun _ => by decide, rfl, rfl, rfl, rfl, rfl⟩
  | succ n ih =>
    obtain ⟨s, hr, h⟩ := ih (by omega)
    obtain ⟨s₁, hs₁, h₁, -⟩ := h.push (by decide) hn 0
    obtain ⟨s₂, hs₂, h₂⟩ := Idle.pop h₁
    exact ⟨s₂, run_pop (run_push hr hs₁) hs₂, h₂⟩

/-- The fifth value finds `write_` at its greatest, and the next pop reads the
slot of the third. -/
theorem overflow_pop {q : RingBuffer 64 (Item Nat)} {a b c d e : Item Nat}
    (h : q.Holds [a, b, c, d]) (hcap : q.capacity = 5) (hw : q.write = 2 ^ 64 - 1) :
    ∃ q' q'', q.push e = some (true, q') ∧ q'.pop = some (some c, q'') := by
  have hread : q.read = 2 ^ 64 - 5 := by
    have := h.write_eq
    simp only [List.length_cons, List.length_nil] at this
    omega
  have hslot : ∀ i, q.slot i = (2 ^ 64 - 5 + i) % 6 := fun i => by
    rw [RingBuffer.slot, hread, hcap]
  have hthird : q.buf 1 = some c := by
    have := h.stored 2 (by simp)
    rwa [hslot, show (2 ^ 64 - 5 + 2) % 6 = 1 by omega] at this
  have hfifth : q.slot [a, b, c, d].length = 3 := by
    rw [hslot]
    simp only [List.length_cons, List.length_nil]
    omega
  have hpush : q.push e = some (true, { q with
      buf := Function.update q.buf 3 (some e), write := 6, read := 1 }) := by
    rw [RingBuffer.push_overflow h (by simp [hcap]) (by omega), hfifth, hcap]
    rfl
  refine ⟨_, _, hpush, RingBuffer.pop_eq ?_ ?_ ?_⟩
  · simp only [RingBuffer.size]
    omega
  · simp only [RingBuffer.slots, hcap]
    omega
  · simp only [RingBuffer.pread, RingBuffer.slots, hcap]
    rw [show 1 % ((5 + 1) % 2 ^ 64) = 1 by decide, Function.update_of_ne (by decide), hthird]

/-- The fifth `TryPush` overflows the counter, and the next `TryPop` gets the
third value. -/
theorem Idle.overflow {s : State Nat} {a b c d : Item Nat}
    (h : Idle s [a, b, c, d] (2 ^ 64 - 1)) (v : Nat) :
    ∃ s' s'', (machine Nat).step s (.push v false) = some s' ∧
      (machine Nat).step s' (.pop false) = some s'' ∧
      delivered s''.pops s''.got = delivered s.pops s.got ++ [c] ∧
      offered s''.pushes s''.pushStage =
        offered s.pushes s.pushStage ++ [⟨s.pushes.length, v⟩] := by
  have hcap : s.store.capacity ≠ 0 := by
    rw [h.capacity]
    decide
  obtain ⟨hcapq, hq⟩ := h.inv.holds.ring h.ring
  obtain ⟨q, q', hpush, hpop⟩ :=
    overflow_pop (e := ⟨s.pushes.length, v⟩) hq (hcapq.trans h.capacity) h.write
  let store : Store (Item Nat) := { s.store with q := q }
  let store' : Store (Item Nat) := { s.store with q := q' }
  have hstore : s.store.push ⟨s.pushes.length, v⟩ = some (true, store) := by
    rw [Store.push, if_pos h.ring, hpush]
    rfl
  have hstore' : store.pop = some (some c, store') := by
    rw [Store.pop, if_pos (by exact h.ring), hpop]
    rfl
  let s₁ : State Nat := ({ s with pushes := s.pushes ++ [v], store := store } : State Nat).returnPush
    s.pushes.length true
  refine ⟨s₁, _, push_stored h.inv.opened hcap h.rq hstore,
    pop_stored (s := s₁) h.inv.opened hcap h.wq hstore', ?_, ?_⟩
  · have hfresh := h.inv.readers.fresh
    change delivered (s.pops + 1) (Function.update s.got s.pops (some c)) = _
    rw [delivered_update (Nat.lt_succ_self _) hfresh, delivered_succ (hfresh _ (Nat.le_refl _))]
  · exact offered_concat s.pushes s.pushStage v (.returned true)

/-- Six slots do not divide the range of the counters.  After `2 ^ 64 - 5` values
the channel stores five more, and the first pop gets the third of them. -/
theorem channel_reorders :
    ¬ ∀ s, Run (machine Nat) (fun _ => Untimed) (State.initial 5 true) s →
      (delivered s.pops s.got).map Item.value <+:
        (offered s.pushes s.pushStage).map Item.value := by
  intro hall
  obtain ⟨n, hn⟩ : ∃ n, n + 4 = 2 ^ 64 - 1 := ⟨2 ^ 64 - 5, by omega⟩
  obtain ⟨s, hr, h⟩ := idle_after (n := n) (by omega)
  obtain ⟨s₁, hs₁, h₁, -⟩ := h.push (by simp) (by omega) 1
  obtain ⟨s₂, hs₂, h₂, -⟩ := h₁.push (by simp) (by omega) 2
  obtain ⟨s₃, hs₃, h₃, -⟩ := h₂.push (by simp) (by omega) 3
  obtain ⟨s₄, hs₄, h₄, -⟩ := h₃.push (by simp) (by omega) 4
  rw [show n + 1 + 1 + 1 + 1 = 2 ^ 64 - 1 from hn] at h₄
  obtain ⟨s₅, s₆, hs₅, hs₆, hdelivered, hoffered⟩ := h₄.overflow 5
  have hr₄ := run_push (run_push (run_push (run_push hr hs₁) hs₂) hs₃) hs₄
  have hprefix := hall s₆ (run_pop (run_push hr₄ hs₅) hs₆)
  rw [hdelivered, hoffered, h₄.inv.order, h₄.wq] at hprefix
  simp only [List.map_append, List.append_assoc, List.prefix_append_right_inj] at hprefix
  simp at hprefix

end Costream.Sync
