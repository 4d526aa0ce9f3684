import Mathlib.Data.Set.Card
import Costream.Lists
import Costream.Sync.Choice

/-!
# The two halves of `wait_`

A call that finds nobody on the other side adds itself to its half of `wait_` and queues an entry.
Whoever ends the wait takes it off again: the peer that notifies the entry, or the call itself when
it is refused or its deadline passes.  `Close` takes nobody off, and neither does a `notify` that
comes when the wait is over.

`due` are those who will still take off one: calls that are about to do so, or that may, and entries
whose `notify` or deadline is yet to come.  There are never more of them than the half counts.
-/

namespace Costream.Sync.CAS

open Trace

variable {T : Type*}

/-- `readMask` and `writeMask` applied to `wait_`. -/
def State.half (s : State T) : Side → Nat
  | .reader => s.readers
  | .writer => s.writers

/-- What stands for one subtraction. -/
inductive Token where
  | call (c : Nat)
  | entry (i : Nat)
  deriving DecidableEq

/-- The entry `i` is to be taken off: it has been let in and nobody has popped it yet, or its
wait can be ended by a `notify`, or it has ended and its call has not gone on. -/
def State.entryDue (s : State T) (side : Side) (i : Nat) (e : Entry T) : Prop :=
  if e.isWaiting then
    e.stage = .waiting ∨ e.stage = .fired ∧ ∃ c, s.placeOf c = some (.parked i) ∧ s.side c = side
  else i ∈ (s.cond side).queue.nodes ∨ ∃ c, s.placeOf c = some (.notify side i)

/-- What will still be subtracted from a half. -/
def State.due (s : State T) (side : Side) : Set Token
  | .call c => s.placeOf c = some .enqueue ∧ s.side c = side ∨
      ∃ result, s.placeOf c = some (.subtract side result)
  | .entry i => ∃ e, (s.cond side).entries[i]? = some e ∧ s.entryDue side i e

/-- The queue of a side, with the calls that work on it. -/
structure Sound (s : State T) (side : Side) : Prop where
  nodup : (s.cond side).queue.nodes.Nodup
  bound : ∀ i ∈ (s.cond side).queue.nodes, i < (s.cond side).entries.length
  pos : ∀ i, (s.cond side).queue.pos = some i → i ∈ (s.cond side).queue.nodes
  popped : ∀ c i, s.placeOf c = some (.notify side i) →
    i ∉ (s.cond side).queue.nodes ∧ i < (s.cond side).entries.length
  once : ∀ c c' i, s.placeOf c = some (.notify side i) → s.placeOf c' = some (.notify side i) →
    c = c'
  owner : ∀ c i, s.placeOf c = some (.parked i) → s.side c = side →
    ∃ e, (s.cond side).entries[i]? = some e ∧ e.call = c ∧
      (e.stage = .waiting ∨ e.stage = .fired → e.isWaiting = true)
  budget : (s.due side).encard ≤ s.half side

variable {s s' : State T} {side : Side} {c : Nat}

/-! ## Counting -/

/-- One token takes the place of another. -/
theorem encard_replace {α : Type*} {P P' : Set α} {x y : α} {n : ℕ∞} (h : P.encard ≤ n)
    (hy : y ∈ P) (hsub : ∀ z ∈ P', z = x ∨ z ∈ P ∧ z ≠ y) : P'.encard ≤ n := by
  have hsub' : P' ⊆ insert x (P \ {y}) := fun z hz => hsub z hz
  calc P'.encard ≤ (insert x (P \ {y})).encard := Set.encard_le_encard hsub'
    _ ≤ (P \ {y}).encard + 1 := Set.encard_insert_le _ _
    _ = P.encard := Set.encard_sdiff_singleton_add_one hy
    _ ≤ n := h

/-- A token comes in. -/
theorem encard_add {α : Type*} {P P' : Set α} {x : α} {n : Nat} (h : P.encard ≤ n)
    (hsub : ∀ z ∈ P', z = x ∨ z ∈ P) : P'.encard ≤ (n + 1 : Nat) := by
  have hsub' : P' ⊆ insert x P := fun z hz => hsub z hz
  calc P'.encard ≤ (insert x P).encard := Set.encard_le_encard hsub'
    _ ≤ P.encard + 1 := Set.encard_insert_le _ _
    _ ≤ (n : ℕ∞) + 1 := by gcongr
    _ = (n + 1 : Nat) := by push_cast; rfl

/-- A token goes. -/
theorem encard_remove {α : Type*} {P P' : Set α} {x : α} {n : Nat} (h : P.encard ≤ n) (hx : x ∈ P)
    (hsub : ∀ z ∈ P', z ∈ P ∧ z ≠ x) : n ≠ 0 ∧ P'.encard ≤ (n - 1 : Nat) := by
  have hsub' : P' ⊆ P \ {x} := fun z hz => hsub z hz
  have hone : P'.encard + 1 ≤ n := by
    calc P'.encard + 1 ≤ (P \ {x}).encard + 1 := by gcongr
      _ = P.encard := Set.encard_sdiff_singleton_add_one hx
      _ ≤ n := h
  cases n with
  | zero => simp at hone
  | succ n =>
    refine ⟨by omega, ?_⟩
    push_cast at hone
    exact (ENat.add_le_add_iff_right (by simp)).1 hone

/-! ## Steps that leave the queue alone -/

theorem half_eq_of_wait (hwait : s'.wait = s.wait) (side : Side) : s'.half side = s.half side := by
  cases side with
  | reader => rw [State.half, State.half, State.readers, State.readers, hwait]
  | writer => rw [State.half, State.half, State.writers, State.writers, hwait]

theorem side_eq_of_opOf (hop : s'.opOf c = s.opOf c) : s'.side c = s.side c := by
  unfold State.opOf at hop
  rw [State.side, State.side, hop]

/-- The calls are where they were, and so is the queue. -/
structure Same (s s' : State T) (side : Side) : Prop where
  places : ∀ c, s'.placeOf c = s.placeOf c
  ops : ∀ c, s'.opOf c = s.opOf c
  cond : s'.cond side = s.cond side
  wait : s'.wait = s.wait

theorem Same.sides (h : Same s s' side) (c : Nat) : s'.side c = s.side c :=
  side_eq_of_opOf (h.ops c)

theorem Same.due_eq (h : Same s s' side) : s'.due side = s.due side := by
  ext z
  cases z with
  | call c =>
    show (_ ∨ _) ↔ (_ ∨ _)
    rw [h.places, h.sides]
  | entry i =>
    show (∃ e, _ ∧ _) ↔ (∃ e, _ ∧ _)
    unfold State.entryDue
    simp only [h.cond, h.places, h.sides]

theorem Sound.of_same (h : Sound s side) (hs : Same s s' side) : Sound s' side := by
  refine ⟨?_, ?_, ?_, fun c i hp => ?_, fun c c' i hp hp' => ?_, fun c i hp hside => ?_, ?_⟩
  · rw [hs.cond]
    exact h.nodup
  · rw [hs.cond]
    exact h.bound
  · rw [hs.cond]
    exact h.pos
  · rw [hs.places] at hp
    rw [hs.cond]
    exact h.popped c i hp
  · rw [hs.places] at hp hp'
    exact h.once c c' i hp hp'
  · rw [hs.places] at hp
    rw [hs.sides] at hside
    rw [hs.cond]
    exact h.owner c i hp hside
  · rw [hs.due_eq, half_eq_of_wait hs.wait]
    exact h.budget

theorem same_functor (s : State T) (c : Nat) (op : Op T) (e : Entry T) (side : Side) :
    Same s (s.functor c op e) side := by
  refine ⟨fun c' => placeOf_functor s c c' op e, fun c' => opOf_functor s c c' op e, ?_, ?_⟩
  · unfold State.functor
    cases side <;> split <;> rfl
  · unfold State.functor
    split <;> rfl

theorem same_setCond (s : State T) {side' : Side} (cond : Cond T) (hne : side ≠ side') :
    Same s (s.setCond side' cond) side := by
  refine ⟨fun c => placeOf_setCond s side' cond c, fun c => opOf_setCond s side' cond c, ?_, ?_⟩
  · cases side <;> cases side' <;> first | exact absurd rfl hne | rfl
  · cases side' <;> rfl

/-! ## A call goes on -/

/-- Where the calls are after one of them has gone on. -/
theorem placeOf_goto_cases {c' : Nat} {place p : Place} (h : (s.goto c place).placeOf c' = some p) :
    c' = c ∧ p = place ∨ c' ≠ c ∧ s.placeOf c' = some p := by
  rw [placeOf_goto] at h
  split at h
  · rename_i hc
    obtain ⟨q, -, hq⟩ := Option.map_eq_some_iff.1 h
    exact .inl ⟨hc.symm, hq.symm⟩
  · rename_i hc
    exact .inr ⟨Ne.symm hc, h⟩

theorem side_goto (s : State T) (c c' : Nat) (place : Place) :
    (s.goto c place).side c' = s.side c' := side_eq_of_opOf (opOf_goto s c c' place)

/-- A call that goes to this place neither notifies an entry of the side nor waits there. -/
def Free (s : State T) (c : Nat) (side : Side) : Place → Prop
  | .notify side' _ => side' ≠ side
  | .parked _ => s.side c ≠ side
  | _ => True

/-- What is due after `c` has gone on. -/
theorem due_goto {place : Place} (hfree : Free s c side place) {z : Token}
    (hz : z ∈ (s.goto c place).due side) :
    z ≠ .call c ∧ z ∈ s.due side ∨
      z = .call c ∧ (place = .enqueue ∧ s.side c = side ∨ ∃ result, place = .subtract side result) := by
  cases z with
  | call c' =>
    rcases hz with ⟨hp, hside⟩ | ⟨result, hp⟩
    · rw [side_goto] at hside
      rcases placeOf_goto_cases hp with ⟨rfl, hplace⟩ | ⟨hne, hp⟩
      · exact .inr ⟨rfl, .inl ⟨hplace.symm, hside⟩⟩
      · exact .inl ⟨by simpa using hne, .inl ⟨hp, hside⟩⟩
    · rcases placeOf_goto_cases hp with ⟨rfl, hplace⟩ | ⟨hne, hp⟩
      · exact .inr ⟨rfl, .inr ⟨result, hplace.symm⟩⟩
      · exact .inl ⟨by simpa using hne, .inr ⟨result, hp⟩⟩
  | entry i =>
    obtain ⟨e, he, hdue⟩ := hz
    refine .inl ⟨by simp, e, he, ?_⟩
    unfold State.entryDue at hdue ⊢
    split at hdue
    · rw [if_pos (by assumption)]
      refine hdue.imp_right fun ⟨hfired, c', hp, hside⟩ => ⟨hfired, c', ?_⟩
      rw [side_goto] at hside
      rcases placeOf_goto_cases hp with ⟨rfl, hplace⟩ | ⟨-, hp⟩
      · rw [← hplace] at hfree
        exact absurd hside hfree
      · exact ⟨hp, hside⟩
    · rw [if_neg (by assumption)]
      refine hdue.imp_right fun ⟨c', hp⟩ => ⟨c', ?_⟩
      rcases placeOf_goto_cases hp with ⟨-, hplace⟩ | ⟨-, hp⟩
      · rw [← hplace] at hfree
        exact absurd rfl hfree
      · exact hp

theorem Sound.goto (h : Sound s side) {place : Place} (hfree : Free s c side place)
    (hbudget : ((s.goto c place).due side).encard ≤ s.half side) : Sound (s.goto c place) side := by
  have hnotify : ∀ {c' i}, (s.goto c place).placeOf c' = some (.notify side i) →
      s.placeOf c' = some (.notify side i) := by
    intro c' i hp
    rcases placeOf_goto_cases hp with ⟨-, hplace⟩ | ⟨-, hp⟩
    · rw [← hplace] at hfree
      exact absurd rfl hfree
    · exact hp
  refine ⟨h.nodup, h.bound, h.pos, fun c' i hp => h.popped c' i (hnotify hp),
    fun c₁ c₂ i hp hp' => h.once c₁ c₂ i (hnotify hp) (hnotify hp'), fun c' i hp hside => ?_, hbudget⟩
  rw [side_goto] at hside
  rcases placeOf_goto_cases hp with ⟨rfl, hplace⟩ | ⟨-, hp⟩
  · rw [← hplace] at hfree
    exact absurd hside hfree
  · exact h.owner c' i hp hside

/-- The place has nothing to do with the queue of the side, or with its half. -/
def Quiet (s : State T) (c : Nat) (side : Side) : Place → Prop
  | .notify side' _ => side' ≠ side
  | .subtract side' _ => side' ≠ side
  | .parked _ => s.side c ≠ side
  | .enqueue => s.side c ≠ side
  | _ => True

theorem free_of_quiet {place : Place} (h : Quiet s c side place) : Free s c side place := by
  cases place with
  | notify side' i => exact h
  | parked i => exact h
  | _ => trivial

theorem Sound.goto_quiet (h : Sound s side) {place : Place} (hquiet : Quiet s c side place) :
    Sound (s.goto c place) side := by
  refine h.goto (free_of_quiet hquiet) ((Set.encard_le_encard fun z hz => ?_).trans h.budget)
  rcases due_goto (free_of_quiet hquiet) hz with ⟨-, hz⟩ | ⟨-, hplace⟩
  · exact hz
  · rcases hplace with ⟨rfl, hside⟩ | ⟨result, rfl⟩
    · exact absurd hside hquiet
    · exact absurd rfl hquiet

/-- The call has been counted already. -/
theorem Sound.goto_due (h : Sound s side) {place : Place} (hfree : Free s c side place)
    (hdue : .call c ∈ s.due side) : Sound (s.goto c place) side := by
  refine h.goto hfree ((Set.encard_le_encard fun z hz => ?_).trans h.budget)
  rcases due_goto hfree hz with ⟨-, hz⟩ | ⟨rfl, -⟩
  · exact hz
  · exact hdue

/-- The call takes the place of an entry. -/
theorem Sound.goto_instead (h : Sound s side) {i : Nat} {s₀ : State T} {place : Place}
    (hfree : Free s c side place) (h₀ : Sound s₀ side) (hhalf : s.half side = s₀.half side)
    (hdue : .entry i ∈ s₀.due side) (hsub : ∀ z ∈ s.due side, z ∈ s₀.due side)
    (hgone : .entry i ∉ (s.goto c place).due side) : Sound (s.goto c place) side := by
  refine h.goto hfree ?_
  rw [hhalf]
  refine encard_replace (x := .call c) h₀.budget hdue fun z hz => ?_
  rcases due_goto hfree hz with ⟨-, hz'⟩ | ⟨rfl, -⟩
  · exact .inr ⟨hsub z hz', fun he => hgone (he ▸ hz)⟩
  · exact .inl rfl

/-! ## `pop` -/

/-- What `posFunctor_` makes of an entry. -/
def Entry.Passed (e e' : Entry T) : Prop :=
  e' = e ∨ e.stage = .waiting ∧ e' = { e with stage := .woken, isWaiting := false } ∨
    e.stage = .fired ∧ e' = { e with stage := .lost }

theorem Entry.Passed.trans {e e' e'' : Entry T} (h : e.Passed e') (h' : e'.Passed e'') :
    e.Passed e'' := by
  rcases h with rfl | ⟨hstage, rfl⟩ | ⟨hstage, rfl⟩
  · exact h'
  · rcases h' with rfl | ⟨hs, -⟩ | ⟨hs, -⟩
    · exact .inr (.inl ⟨hstage, rfl⟩)
    · cases hs
    · cases hs
  · rcases h' with rfl | ⟨hs, -⟩ | ⟨hs, -⟩
    · exact .inr (.inr ⟨hstage, rfl⟩)
    · cases hs
    · cases hs

/-- What a `pop` makes of a condition variable: entries of the list `nodes` may be passed. -/
structure Cond.Pass (c c' : Cond T) (nodes : List Nat) : Prop where
  length : c'.entries.length = c.entries.length
  entries : ∀ i e', c'.entries[i]? = some e' →
    ∃ e, c.entries[i]? = some e ∧ e.Passed e' ∧ (e' = e ∨ i ∈ nodes)

namespace Cond

variable {d d' d'' : Cond T} {nodes : List Nat} {i : Nat}

theorem Pass.refl (d : Cond T) (nodes : List Nat) : Pass d d nodes :=
  ⟨rfl, fun _ e he => ⟨e, he, .inl rfl, .inl rfl⟩⟩

theorem Pass.trans (h : Pass d d' nodes) (h' : Pass d' d'' nodes) : Pass d d'' nodes := by
  refine ⟨h'.length.trans h.length, fun i e'' he'' => ?_⟩
  obtain ⟨e', he', hpass', hmem'⟩ := h'.entries i e'' he''
  obtain ⟨e, he, hpass, hmem⟩ := h.entries i e' he'
  refine ⟨e, he, hpass.trans hpass', ?_⟩
  rcases hmem' with rfl | hmem'
  · exact hmem
  · exact .inr hmem'

/-- One entry is changed. -/
theorem Pass.modify {entries : List (Entry T)} {queue : WaitQueue} {f : Entry T → Entry T}
    (hentries : entries = d.entries.modify i f) (hi : i ∈ nodes)
    (hf : ∀ e, d.entries[i]? = some e → e.Passed (f e)) : Pass d ⟨queue, entries⟩ nodes := by
  subst hentries
  refine ⟨by simp, fun j e' he' => ?_⟩
  simp only [List.getElem?_modify] at he'
  split at he'
  · rename_i hij
    subst hij
    obtain ⟨e, he, rfl⟩ := Option.map_eq_some_iff.1 he'
    exact ⟨e, he, hf e he, .inr hi⟩
  · exact ⟨e', by simpa using he', .inl rfl, .inl rfl⟩

/-- The three results of a `notify`. -/
theorem notify_cases (d : Cond T) (i : Nat) :
    (∃ e, d.entries[i]? = some e ∧ e.stage = .waiting ∧ d.notify i = (true, d.setStage i .woken)) ∨
      (∃ e, d.entries[i]? = some e ∧ e.stage = .fired ∧ d.notify i = (false, d.setStage i .lost)) ∨
        d.notify i = (false, d) ∧
          ∀ e, d.entries[i]? = some e → e.stage ≠ .waiting ∧ e.stage ≠ .fired := by
  unfold notify
  cases he : d.entries[i]? with
  | none => exact .inr (.inr ⟨rfl, fun e h => by cases h⟩)
  | some e =>
    cases hstage : e.stage with
    | waiting => exact .inl ⟨e, rfl, hstage, by simp [hstage]⟩
    | fired => exact .inr (.inl ⟨e, rfl, hstage, by simp [hstage]⟩)
    | _ =>
      refine .inr (.inr ⟨by simp [hstage], fun e' h => ?_⟩)
      cases h
      simp [hstage]

theorem convert_pass (d : Cond T) (hi : i ∈ nodes) : Pass d (d.convert i).2 nodes := by
  unfold convert
  rcases notify_cases d i with ⟨e, he, hstage, heq⟩ | ⟨e, he, hstage, heq⟩ | ⟨heq, -⟩
  · rw [heq]
    refine Pass.modify (f := fun e => { e with stage := .woken, isWaiting := false }) ?_ hi ?_
    · rw [if_pos rfl, setStage, List.modify_modify_eq]
      rfl
    · intro e₁ he₁
      rw [he, Option.some.injEq] at he₁
      exact .inr (.inl ⟨he₁ ▸ hstage, rfl⟩)
  · rw [heq]
    refine Pass.modify (f := fun e => { e with stage := .lost }) rfl hi ?_
    intro e₁ he₁
    rw [he, Option.some.injEq] at he₁
    exact .inr (.inr ⟨he₁ ▸ hstage, rfl⟩)
  · rw [heq]
    exact ⟨rfl, (Pass.refl d nodes).entries⟩

theorem convert_queue (d : Cond T) (i : Nat) : (d.convert i).2.queue = d.queue.passed := by
  unfold convert
  rcases notify_cases d i with ⟨_, -, -, heq⟩ | ⟨_, -, -, heq⟩ | ⟨heq, -⟩ <;> rw [heq] <;> rfl

/-- The loop of `pop`: `pos_` stays in the queue, and everything it has passed was there. -/
theorem passAll_pass (fuel : Nat) (d : Cond T) (hsub : ∀ i ∈ d.queue.nodes, i ∈ nodes)
    (hpos : ∀ i, d.queue.pos = some i → i ∈ nodes) :
    Pass d (passAll fuel d) nodes ∧ (passAll fuel d).queue.nodes = d.queue.nodes ∧
      ((∀ i, d.queue.pos = some i → i ∈ d.queue.nodes) ∨ fuel ≠ 0 →
        ∀ i, (passAll fuel d).queue.pos = some i → i ∈ d.queue.nodes) := by
  induction fuel generalizing d with
  | zero => exact ⟨.refl d nodes, rfl, fun h => h.resolve_right (by simp)⟩
  | succ n ih =>
    unfold passAll
    split
    · rename_i hnone
      refine ⟨.refl d nodes, rfl, fun _ i hi => ?_⟩
      rw [hnone] at hi
      cases hi
    · rename_i i hi
      have hpass := convert_pass d (hpos i hi)
      have hqueue := convert_queue d i
      have hnodes : (d.convert i).2.queue.nodes = d.queue.nodes := by rw [hqueue]; rfl
      have hpos' : ∀ j, (d.convert i).2.queue.pos = some j → j ∈ d.queue.nodes := by
        intro j hj
        rw [hqueue] at hj
        have hnext : (d.queue.pos.bind (WaitQueue.next d.queue.nodes)) = some j := hj
        rw [hi, Option.bind_some] at hnext
        exact WaitQueue.mem_of_next hnext
      split
      · rename_i d' heq
        rw [heq] at hpass hnodes hpos'
        exact ⟨hpass, hnodes, fun _ => hpos'⟩
      · rename_i d' heq
        rw [heq] at hpass hnodes hpos'
        dsimp only at hpass hnodes hpos'
        obtain ⟨hpass', hnodes', hend⟩ := ih d' (by rwa [hnodes])
          fun j hj => hsub j (hpos' j hj)
        refine ⟨hpass.trans hpass', hnodes'.trans hnodes, fun _ j hj => ?_⟩
        rw [← hnodes]
        exact hend (.inl (by rwa [hnodes])) j hj

/-- What `pop` does. -/
theorem pop_pass {ptr : Nat} (hpos : ∀ i, d.queue.pos = some i → i ∈ d.queue.nodes)
    (hpop : d.pop = some (ptr, d')) :
    d.queue.nodes = ptr :: d'.queue.nodes ∧ Pass d d' d.queue.nodes ∧
      ∀ i, d'.queue.pos = some i → i ∈ d'.queue.nodes := by
  unfold pop at hpop
  split at hpop
  · cases hpop
  · rename_i x rest hnodes
    cases hpop
    obtain ⟨hpass, hnodes', hend⟩ := @passAll_pass _ d.queue.nodes (rest.length + 1)
      { d with queue := d.queue.popHead ptr } (fun i hi => List.mem_of_mem_tail hi) hpos
    have htail : (passAll (rest.length + 1) { d with queue := d.queue.popHead ptr }).queue.nodes =
        rest := by
      rw [hnodes']
      simp [hnodes]
    refine ⟨?_, ⟨hpass.length, hpass.entries⟩, fun i hi => ?_⟩
    · rw [hnodes, WaitQueue.uncount_nodes, htail]
    · rw [WaitQueue.uncount_nodes, htail]
      have := hend (.inr (by omega)) i hi
      simpa [hnodes] using this

end Cond

theorem Entry.Passed.call_eq {e e' : Entry T} (h : e.Passed e') : e'.call = e.call := by
  rcases h with rfl | ⟨-, rfl⟩ | ⟨-, rfl⟩ <;> rfl

theorem Entry.Passed.waits {e e' : Entry T} (h : e.Passed e')
    (hwaits : e.stage = .waiting ∨ e.stage = .fired → e.isWaiting = true)
    (hstage : e'.stage = .waiting ∨ e'.stage = .fired) : e'.isWaiting = true := by
  rcases h with rfl | ⟨-, rfl⟩ | ⟨-, rfl⟩
  · exact hwaits hstage
  · rcases hstage with hstage | hstage <;> cases hstage
  · rcases hstage with hstage | hstage <;> cases hstage

@[simp] theorem setCond_cond (s : State T) (side : Side) (cond : Cond T) :
    (s.setCond side cond).cond side = cond := by
  cases side <;> rfl

@[simp] theorem goto_cond (s : State T) (c : Nat) (place : Place) (side : Side) :
    (s.goto c place).cond side = s.cond side := by
  cases side <;> rfl

theorem half_setCond_goto (s : State T) (side side' : Side) (cond : Cond T) (c : Nat)
    (place : Place) : ((s.setCond side' cond).goto c place).half side = s.half side := by
  apply half_eq_of_wait
  cases side' <;> rfl

theorem side_setCond_goto (s : State T) (side' : Side) (cond : Cond T) (c c' : Nat)
    (place : Place) : ((s.setCond side' cond).goto c place).side c' = s.side c' := by
  apply side_eq_of_opOf
  rw [opOf_goto, opOf_setCond]

/-- Where the calls are after one of them has changed a queue. -/
theorem placeOf_setCond_goto {side' : Side} {cond : Cond T} {c' : Nat} {place p : Place}
    (h : ((s.setCond side' cond).goto c place).placeOf c' = some p) :
    c' = c ∧ p = place ∨ c' ≠ c ∧ s.placeOf c' = some p := by
  have := placeOf_goto_cases h
  rwa [placeOf_setCond] at this

/-- A call takes an entry out of the queue. -/
theorem Sound.pop (h : Sound s side) {ptr : Nat} {cond : Cond T}
    (hpop : (s.cond side).pop = some (ptr, cond)) :
    Sound ((s.setCond side cond).goto c (.notify side ptr)) side := by
  obtain ⟨hnodes, hpass, hpos⟩ := Cond.pop_pass h.pos hpop
  have hnd := h.nodup
  rw [hnodes] at hnd
  obtain ⟨hptr, hnd'⟩ := List.nodup_cons.1 hnd
  have hmem : ptr ∈ (s.cond side).queue.nodes := by simp [hnodes]
  have hold : ∀ i ∈ cond.queue.nodes, i ∈ (s.cond side).queue.nodes := by
    intro i hi
    simp [hnodes, hi]
  refine ⟨?_, ?_, ?_, fun c' i hp => ?_, fun c₁ c₂ i hp hp' => ?_, fun c' i hp hside => ?_, ?_⟩
  · simpa using hnd'
  · simp only [goto_cond, setCond_cond]
    intro i hi
    rw [hpass.length]
    exact h.bound i (hold i hi)
  · simpa using hpos
  · simp only [goto_cond, setCond_cond]
    rw [hpass.length]
    rcases placeOf_setCond_goto hp with ⟨-, hplace⟩ | ⟨-, hp⟩
    · cases hplace
      exact ⟨hptr, h.bound ptr hmem⟩
    · obtain ⟨hi, hlt⟩ := h.popped c' i hp
      exact ⟨fun hi' => hi (hold i hi'), hlt⟩
  · rcases placeOf_setCond_goto hp with ⟨rfl, hplace⟩ | ⟨hne, hp⟩
    · rcases placeOf_setCond_goto hp' with ⟨rfl, -⟩ | ⟨-, hp'⟩
      · rfl
      · cases hplace
        exact absurd hmem (h.popped c₂ ptr hp').1
    · rcases placeOf_setCond_goto hp' with ⟨-, hplace⟩ | ⟨-, hp'⟩
      · cases hplace
        exact absurd hmem (h.popped c₁ ptr hp).1
      · exact h.once c₁ c₂ i hp hp'
  · rw [side_setCond_goto] at hside
    simp only [goto_cond, setCond_cond]
    rcases placeOf_setCond_goto hp with ⟨-, hplace⟩ | ⟨-, hp⟩
    · cases hplace
    · obtain ⟨e, he, hcall, hwaits⟩ := h.owner c' i hp hside
      have hlt : i < cond.entries.length := by
        rw [hpass.length]
        exact (List.getElem?_eq_some_iff.1 he).1
      obtain ⟨e₁, he₁, hpassed, -⟩ := hpass.entries i _ (List.getElem?_eq_getElem hlt)
      rw [he, Option.some.injEq] at he₁
      subst he₁
      exact ⟨_, List.getElem?_eq_getElem hlt, by rw [hpassed.call_eq, hcall], hpassed.waits hwaits⟩
  · rw [half_setCond_goto]
    refine (Set.encard_le_encard fun z hz => ?_).trans h.budget
    cases z with
    | call c' =>
      rcases hz with ⟨hp, hside⟩ | ⟨result, hp⟩
      · rw [side_setCond_goto] at hside
        rcases placeOf_setCond_goto hp with ⟨-, hplace⟩ | ⟨-, hp⟩
        · cases hplace
        · exact .inl ⟨hp, hside⟩
      · rcases placeOf_setCond_goto hp with ⟨-, hplace⟩ | ⟨-, hp⟩
        · cases hplace
        · exact .inr ⟨result, hp⟩
    | entry i =>
      obtain ⟨e', he', hdue⟩ := hz
      rw [goto_cond, setCond_cond] at he'
      obtain ⟨e, he, hpassed, hmem'⟩ := hpass.entries i e' he'
      refine ⟨e, he, ?_⟩
      -- an entry that has been let in was in the queue or is being notified
      have haccepted : (i ∈ cond.queue.nodes ∨
          ∃ c', ((s.setCond side cond).goto c (.notify side ptr)).placeOf c' =
            some (.notify side i)) →
          i ∈ (s.cond side).queue.nodes ∨ ∃ c', s.placeOf c' = some (.notify side i) := by
        rintro (hi | ⟨c', hp⟩)
        · exact .inl (hold i hi)
        · rcases placeOf_setCond_goto hp with ⟨-, hplace⟩ | ⟨-, hp⟩
          · cases hplace
            exact .inl hmem
          · exact .inr ⟨c', hp⟩
      unfold State.entryDue at hdue ⊢
      rw [goto_cond, setCond_cond] at hdue
      rcases hpassed with rfl | ⟨hwaiting, rfl⟩ | ⟨hfired, rfl⟩
      · split at hdue
        · rw [if_pos (by assumption)]
          refine hdue.imp_right fun ⟨hfired, c', hp, hside⟩ => ⟨hfired, c', ?_, ?_⟩
          · rcases placeOf_setCond_goto hp with ⟨-, hplace⟩ | ⟨-, hp⟩
            · cases hplace
            · exact hp
          · rwa [side_setCond_goto] at hside
        · rw [if_neg (by assumption)]
          exact haccepted hdue
      · rw [if_neg (by simp)] at hdue
        split
        · exact .inl hwaiting
        · exact haccepted hdue
      · split at hdue
        · rcases hdue with hdue | ⟨hdue, -⟩ <;> cases hdue
        · rw [if_neg (by assumption)]
          exact haccepted hdue

/-! ## `notify` -/

/-- The stage of an entry changes, and no wait begins by that. -/
theorem due_setStage {i : Nat} {stage : Stage}
    (hstage : ∀ e, (s.cond side).entries[i]? = some e → stage = .waiting ∨ stage = .fired →
      e.stage = .waiting) {z : Token}
    (hz : z ∈ (s.setCond side ((s.cond side).setStage i stage)).due side) : z ∈ s.due side := by
  have hside : ∀ c, (s.setCond side ((s.cond side).setStage i stage)).side c = s.side c :=
    fun c => side_eq_of_opOf (opOf_setCond s side _ c)
  cases z with
  | call c =>
    rcases hz with ⟨hp, hs⟩ | ⟨result, hp⟩
    · rw [placeOf_setCond] at hp
      rw [hside] at hs
      exact .inl ⟨hp, hs⟩
    · rw [placeOf_setCond] at hp
      exact .inr ⟨result, hp⟩
  | entry j =>
    obtain ⟨e', he', hdue⟩ := hz
    unfold State.entryDue at hdue
    simp only [setCond_cond, placeOf_setCond, hside] at he' hdue
    simp only [Cond.setStage, List.getElem?_modify] at he'
    split at he'
    · rename_i hij
      subst hij
      obtain ⟨e, he, rfl⟩ := Option.map_eq_some_iff.1 he'
      refine ⟨e, he, ?_⟩
      unfold State.entryDue
      split at hdue
      · rw [if_pos (by assumption)]
        exact .inl (hstage e he (hdue.imp_right fun h => h.1))
      · rw [if_neg (by assumption)]
        exact hdue
    · exact ⟨e', by simpa using he', hdue⟩

theorem Sound.setStage (h : Sound s side) {i : Nat} {stage : Stage}
    (hstage : ∀ e, (s.cond side).entries[i]? = some e → stage = .waiting ∨ stage = .fired →
      e.stage = .waiting) : Sound (s.setCond side ((s.cond side).setStage i stage)) side := by
  have hlen : ((s.cond side).setStage i stage).entries.length = (s.cond side).entries.length := by
    simp [Cond.setStage]
  refine ⟨?_, ?_, ?_, fun c i hp => ?_, fun c c' i hp hp' => ?_, fun c j hp hside => ?_, ?_⟩
  · rw [setCond_cond]
    exact h.nodup
  · rw [setCond_cond, hlen]
    exact h.bound
  · rw [setCond_cond]
    exact h.pos
  · rw [placeOf_setCond] at hp
    rw [setCond_cond, hlen]
    exact h.popped c i hp
  · rw [placeOf_setCond] at hp hp'
    exact h.once c c' i hp hp'
  · rw [placeOf_setCond] at hp
    rw [side_eq_of_opOf (opOf_setCond s side _ c)] at hside
    obtain ⟨e, he, hcall, hwaits⟩ := h.owner c j hp hside
    rw [setCond_cond]
    simp only [Cond.setStage, List.getElem?_modify]
    split
    · rename_i hij
      subst hij
      exact ⟨{ e with stage := stage }, by rw [he]; rfl, hcall,
        fun hs => hwaits (.inl (hstage e he hs))⟩
    · exact ⟨e, by simpa using he, hcall, hwaits⟩
  · rw [half_eq_of_wait (s := s) (by cases side <;> rfl)]
    exact (Set.encard_le_encard fun z hz => due_setStage hstage hz).trans h.budget

/-- Another call has been told to go on, or has not; what the queue is like stays. -/
theorem quiet_notified (s : State T) (c : Nat) (op : Op T) {side' : Side} (hne : side' ≠ side)
    (result : Bool) : Quiet s c side (State.notified side' op result) := by
  unfold State.notified
  split
  · trivial
  · trivial
  · trivial
  · exact hne
  · trivial

theorem quiet_notified_false (s : State T) (c : Nat) (op : Op T) (side side' : Side) :
    Quiet s c side (State.notified side' op false) := by
  unfold State.notified
  split <;> trivial

theorem setCond_self (s : State T) (side : Side) : s.setCond side (s.cond side) = s := by
  cases side <;> rfl

/-- The wait of the entry `i` is over, and the call `c` takes its place. -/
theorem Sound.settle (h : Sound s side) {i : Nat} {s₁ : State T} (hs₁ : Sound s₁ side)
    (hhalf : s₁.half side = s.half side) (hdue : .entry i ∈ s.due side)
    (hsub : ∀ z ∈ s₁.due side, z ∈ s.due side) (op : Op T)
    (hgone : ∀ place, Free s₁ c side place → .entry i ∉ (s₁.goto c place).due side) :
    Sound (s₁.goto c (State.notified side op true)) side := by
  unfold State.notified
  split
  · exact hs₁.goto_quiet trivial
  · contradiction
  · contradiction
  · exact hs₁.goto_instead trivial h hhalf hdue hsub (hgone _ trivial)
  · contradiction

theorem Sound.notifyStep (h : Sound s side) {ptr : Nat}
    (hp : s.placeOf c = some (.notify side ptr)) (op : Op T) :
    Sound (s.notifyStep c op side ptr) side := by
  obtain ⟨hnot, hlt⟩ := h.popped c ptr hp
  unfold State.notifyStep
  rw [List.getElem?_eq_getElem hlt]
  have he := List.getElem?_eq_getElem hlt
  generalize (s.cond side).entries[ptr] = e at he
  dsimp only
  by_cases hwait : e.isWaiting
  · rw [if_pos hwait]
    rcases Cond.notify_cases (s.cond side) ptr with ⟨e', he', hstage, heq⟩ | ⟨e', he', hstage, heq⟩ |
      ⟨heq, -⟩
    · rw [heq]
      rw [he, Option.some.injEq] at he'
      subst he'
      have hwoken : ∀ e, (s.cond side).entries[ptr]? = some e →
          Stage.woken = .waiting ∨ Stage.woken = .fired → e.stage = .waiting := by
        rintro e - (hw | hw) <;> cases hw
      -- the call is due in place of the entry it has woken
      have hset := h.setStage hwoken
      have hsame := same_functor (s.setCond side ((s.cond side).setStage ptr .woken)) c op e side
      refine h.settle (i := ptr) (hset.of_same hsame) ?_ ⟨e, he, ?_⟩ (fun z hz => ?_) op ?_
      · rw [half_eq_of_wait hsame.wait]
        exact half_eq_of_wait (by cases side <;> rfl) side
      · unfold State.entryDue
        rw [if_pos hwait]
        exact .inl hstage
      · rw [hsame.due_eq] at hz
        exact due_setStage hwoken hz
      · rintro place hfree ⟨e', he', hdue⟩
        rw [goto_cond, hsame.cond, setCond_cond, Cond.setStage] at he'
        rw [List.getElem?_modify_eq, he] at he'
        cases he'
        unfold State.entryDue at hdue
        rw [if_pos hwait] at hdue
        rcases hdue with hdue | ⟨hdue, -⟩ <;> cases hdue
    · rw [heq]
      refine (h.setStage ?_).goto_quiet trivial
      rintro e - (hw | hw) <;> cases hw
    · rw [heq]
      dsimp only
      rw [setCond_self]
      exact h.goto_quiet trivial
  · rw [if_neg hwait]
    -- the value of the entry has been taken
    have hsame := same_functor s c op e side
    refine h.settle (i := ptr) (h.of_same hsame) (half_eq_of_wait hsame.wait side) ⟨e, he, ?_⟩
      (fun z hz => hsame.due_eq ▸ hz) op ?_
    · unfold State.entryDue
      rw [if_neg hwait]
      exact .inr ⟨c, hp⟩
    · rintro place hfree ⟨e', he', hdue⟩
      rw [goto_cond, hsame.cond, he, Option.some.injEq] at he'
      subst he'
      unfold State.entryDue at hdue
      rw [if_neg hwait, goto_cond, hsame.cond] at hdue
      rcases hdue with hmem | ⟨c', hp'⟩
      · exact hnot hmem
      · rcases placeOf_goto_cases hp' with ⟨-, hplace⟩ | ⟨hne, hp'⟩
        · rw [← hplace] at hfree
          exact hfree rfl
        · rw [hsame.places] at hp'
          exact hne (h.once c' c ptr hp' hp)

/-- The queue of the other side is left alone. -/
theorem Sound.notifyStep_other (h : Sound s side) {side' : Side} (hne : side' ≠ side) (ptr : Nat)
    (op : Op T) : Sound (s.notifyStep c op side' ptr) side := by
  unfold State.notifyStep
  split
  · exact h
  · split
    · split
      · refine Sound.goto_quiet ?_ (quiet_notified _ c op hne true)
        exact (h.of_same (same_setCond s _ hne.symm)).of_same (same_functor _ c op _ side)
      · exact (h.of_same (same_setCond s _ hne.symm)).goto_quiet trivial
    · exact (h.of_same (same_functor s c op _ side)).goto_quiet (quiet_notified _ c op hne true)

theorem Sound.popStep (h : Sound s side) (op : Op T) (side' : Side) :
    Sound (s.popStep c op side') side := by
  unfold State.popStep
  split
  · exact h.goto_quiet (quiet_notified_false s c op side side')
  · rename_i ptr cond hpop
    by_cases hne : side' = side
    · subst hne
      exact h.pop hpop
    · exact (h.of_same (same_setCond s cond (Ne.symm hne))).goto_quiet hne

/-! ## A new entry -/

namespace Cond

variable {d : Cond T}

theorem unlink_pos {queue : WaitQueue} {i : Nat} (hnd : queue.nodes.Nodup)
    (hpos : ∀ j, queue.pos = some j → j ∈ queue.nodes) :
    ∀ j, (queue.unlink i).pos = some j → j ∈ (queue.unlink i).nodes := by
  intro j hj
  unfold WaitQueue.unlink at hj ⊢
  dsimp only at hj ⊢
  split at hj
  · exact (List.mem_erase_of_ne (Lists.next_ne hnd hj)).2 (WaitQueue.mem_of_next hj)
  · rename_i hne
    exact (List.mem_erase_of_ne fun hji => hne (by rw [hj, hji])).2 (hpos j hj)

theorem cleanUp_spec (d : Cond T) (verdicts : List Bool) (queue : WaitQueue)
    (hnd : queue.nodes.Nodup) (hpos : ∀ j, queue.pos = some j → j ∈ queue.nodes) :
    (d.cleanUp verdicts queue).nodes.Sublist queue.nodes ∧
      ∀ j, (d.cleanUp verdicts queue).pos = some j → j ∈ (d.cleanUp verdicts queue).nodes := by
  induction verdicts generalizing queue with
  | nil => exact ⟨List.Sublist.refl _, hpos⟩
  | cons verdict rest ih =>
    unfold cleanUp
    split
    · exact ⟨List.Sublist.refl _, hpos⟩
    · rename_i i hi
      split
      · exact ih (queue.advance i) hnd hpos
      · have hsub : (queue.unlink i).nodes.Sublist queue.nodes := List.erase_sublist
        obtain ⟨hrest, hend⟩ := ih (queue.unlink i) (hsub.nodup hnd) (unlink_pos hnd hpos)
        exact ⟨hrest.trans hsub, hend⟩

/-- What `push` does. -/
theorem push_spec (d : Cond T) (e : Entry T) (verdict : Bool × Bool)
    (hnd : d.queue.nodes.Nodup) (hbound : ∀ i ∈ d.queue.nodes, i < d.entries.length)
    (hpos : ∀ j, d.queue.pos = some j → j ∈ d.queue.nodes) :
    (d.push e verdict).entries = d.entries ++ [e] ∧
      (d.push e verdict).queue.nodes.Sublist (d.queue.nodes ++ [d.entries.length]) ∧
      ∀ j, (d.push e verdict).queue.pos = some j → j ∈ (d.push e verdict).queue.nodes := by
  have hnd' : (d.queue.link d.entries.length).nodes.Nodup := by
    rw [WaitQueue.link_nodes]
    refine List.nodup_append.2 ⟨hnd, by simp, fun i hi j hj hij => ?_⟩
    rw [List.mem_singleton] at hj
    exact absurd (hbound i hi) (by omega)
  have hpos' : ∀ j, (d.queue.link d.entries.length).pos = some j →
      j ∈ (d.queue.link d.entries.length).nodes := by
    intro j hj
    unfold WaitQueue.link at hj ⊢
    dsimp only at hj ⊢
    split at hj
    · simp [Option.some.inj hj.symm]
    · exact List.mem_append_left _ (hpos j hj)
  unfold push
  dsimp only
  split
  · exact ⟨rfl, List.Sublist.refl _, hpos'⟩
  · obtain ⟨hsub, hend⟩ := cleanUp_spec ⟨d.queue.link d.entries.length, d.entries ++ [e]⟩
      [verdict.1, verdict.2] (d.queue.link d.entries.length).startCheck
      (by rwa [WaitQueue.startCheck_nodes])
      (by rwa [WaitQueue.startCheck_nodes, WaitQueue.startCheck_pos])
    rw [WaitQueue.startCheck_nodes] at hsub
    exact ⟨rfl, hsub, hend⟩

end Cond

/-- The call has queued its entry, which is due in its place. -/
theorem Sound.queued (h : Sound s side) (hp : s.placeOf c = some .enqueue) (hside : s.side c = side)
    (value : Option T) (needWait : Bool) (verdict : Bool × Bool) :
    Sound (s.queued c side value needWait verdict) side := by
  obtain ⟨hentries, hsub, hpos⟩ := Cond.push_spec (s.cond side) ⟨c, value, needWait, .waiting⟩ verdict
    h.nodup h.bound h.pos
  unfold State.queued
  dsimp only
  generalize hcond : (s.cond side).push ⟨c, value, needWait, .waiting⟩ verdict = cond at *
  generalize hplace : (if needWait then Place.parked (s.cond side).entries.length else .resume) = place
  have hplaces : ∀ {c' p}, ((s.setCond side cond).goto c place).placeOf c' = some p →
      (∀ i, p ≠ .parked i) → p ≠ .resume → c' ≠ c ∧ s.placeOf c' = some p := by
    intro c' p hp' hparked hresume
    rcases placeOf_setCond_goto hp' with ⟨-, rfl⟩ | hold
    · rw [← hplace] at hparked hresume
      split at hparked
      · exact absurd rfl (hparked _)
      · rw [if_neg (by assumption)] at hresume
        exact absurd rfl hresume
    · exact hold
  have hold : ∀ i ∈ cond.queue.nodes, i < (s.cond side).entries.length →
      i ∈ (s.cond side).queue.nodes := by
    intro i hi hlt
    have := hsub.subset hi
    rw [List.mem_append, List.mem_singleton] at this
    exact this.resolve_right (by omega)
  have hget : ∀ {i : Nat} {e : Entry T}, (s.cond side).entries[i]? = some e →
      cond.entries[i]? = some e := by
    intro i e he
    rw [hentries, List.getElem?_append_left (List.getElem?_eq_some_iff.1 he).1, he]
  refine ⟨?_, ?_, ?_, fun c' i hp' => ?_, fun c₁ c₂ i hp₁ hp₂ => ?_, fun c' i hp' hs => ?_, ?_⟩
  · rw [goto_cond, setCond_cond]
    refine hsub.nodup (List.nodup_append.2 ⟨h.nodup, by simp, fun i hi j hj hij => ?_⟩)
    rw [List.mem_singleton] at hj
    exact absurd (h.bound i hi) (by omega)
  · rw [goto_cond, setCond_cond, hentries, List.length_append, List.length_singleton]
    intro i hi
    have := hsub.subset hi
    rw [List.mem_append, List.mem_singleton] at this
    rcases this with hi | hi
    · exact Nat.lt_succ_of_lt (h.bound i hi)
    · omega
  · rw [goto_cond, setCond_cond]
    exact hpos
  · obtain ⟨-, hp'⟩ := hplaces hp' (by simp) (by simp)
    obtain ⟨hnot, hlt⟩ := h.popped c' i hp'
    rw [goto_cond, setCond_cond]
    refine ⟨fun hi => hnot (hold i hi hlt), ?_⟩
    rw [hentries, List.length_append]
    omega
  · exact h.once c₁ c₂ i (hplaces hp₁ (by simp) (by simp)).2 (hplaces hp₂ (by simp) (by simp)).2
  · rw [side_setCond_goto] at hs
    rw [goto_cond, setCond_cond]
    rcases placeOf_setCond_goto hp' with ⟨rfl, hnew⟩ | ⟨-, hp'⟩
    · rw [← hplace] at hnew
      split at hnew
      · cases hnew
        exact ⟨⟨c', value, needWait, .waiting⟩, by rw [hentries]; simp, rfl, fun _ => by assumption⟩
      · cases hnew
    · obtain ⟨e, he, hcall, hwaits⟩ := h.owner c' i hp' hs
      exact ⟨e, hget he, hcall, hwaits⟩
  · rw [half_setCond_goto]
    have hdue : .call c ∈ s.due side := Or.inl ⟨hp, hside⟩
    refine encard_replace (x := .entry (s.cond side).entries.length) h.budget hdue fun z hz => ?_
    cases z with
    | call c' =>
      right
      rcases hz with ⟨hp', hs⟩ | ⟨result, hp'⟩
      · obtain ⟨hne, hp'⟩ := hplaces hp' (by simp) (by simp)
        rw [side_setCond_goto] at hs
        exact ⟨Or.inl ⟨hp', hs⟩, by simpa using hne⟩
      · obtain ⟨hne, hp'⟩ := hplaces hp' (by simp) (by simp)
        exact ⟨Or.inr ⟨result, hp'⟩, by simpa using hne⟩
    | entry i =>
      obtain ⟨e, he, hdue⟩ := hz
      rw [goto_cond, setCond_cond, hentries] at he
      by_cases hi : i = (s.cond side).entries.length
      · exact .inl (by rw [hi])
      · have hlt : i < (s.cond side).entries.length := by
          have := (List.getElem?_eq_some_iff.1 he).1
          rw [List.length_append, List.length_singleton] at this
          omega
        rw [List.getElem?_append_left hlt] at he
        refine .inr ⟨⟨e, he, ?_⟩, by simp⟩
        unfold State.entryDue at hdue ⊢
        rw [goto_cond, setCond_cond] at hdue
        split at hdue
        · rw [if_pos (by assumption)]
          refine hdue.imp_right fun ⟨hfired, c', hp', hs⟩ => ⟨hfired, c', ?_⟩
          rw [side_setCond_goto] at hs
          rcases placeOf_setCond_goto hp' with ⟨-, hnew⟩ | ⟨-, hp'⟩
          · rw [← hplace] at hnew
            split at hnew
            · exact absurd (Place.parked.inj hnew) hi
            · cases hnew
          · exact ⟨hp', hs⟩
        · rw [if_neg (by assumption)]
          refine hdue.imp (fun hi => hold i hi hlt) fun ⟨c', hp'⟩ => ⟨c', ?_⟩
          exact (hplaces hp' (by simp) (by simp)).2

/-- The queue of the other side is left alone. -/
theorem Sound.queued_other (h : Sound s side) {side' : Side} (hne : side' ≠ side)
    (hside : s.side c = side') (value : Option T) (needWait : Bool) (verdict : Bool × Bool) :
    Sound (s.queued c side' value needWait verdict) side := by
  unfold State.queued
  dsimp only
  refine (h.of_same (same_setCond s _ hne.symm)).goto_quiet ?_
  split
  · show State.side _ c ≠ side
    rw [side_eq_of_opOf (opOf_setCond s side' _ c), hside]
    exact hne
  · trivial

/-! ## The counter -/

theorem Sound.setWait (h : Sound s side) (wait : Nat)
    (hbudget : (s.due side).encard ≤ ({ s with wait := wait } : State T).half side) :
    Sound { s with wait := wait } side :=
  ⟨h.nodup, h.bound, h.pos, h.popped, h.once, h.owner, hbudget⟩

/-- One is taken off a half that is not zero. -/
theorem half_subtract (hne : s.half side ≠ 0) (hsmall : s.wait < 2 ^ 64) (side' : Side) :
    (s.subtract side).half side' = (if side' = side then s.half side - 1 else s.half side') ∧
      (s.subtract side).wait < 2 ^ 64 := by
  have hone : State.one side ≤ s.wait := by
    cases side <;> simp only [State.half, State.readers, State.writers, State.one] at * <;> omega
  have hwait : (s.subtract side).wait = s.wait - State.one side := by
    rw [State.subtract]
    exact if_pos hone
  refine ⟨?_, by omega⟩
  cases side <;> cases side' <;>
    simp only [State.half, State.readers, State.writers, State.one, hwait, reduceIte,
      reduceCtorEq] at * <;> omega

/-- One is added to a half that has room. -/
theorem half_add (hroom : s.half side + 1 < 2 ^ 32) (hsmall : s.wait < 2 ^ 64) (side' : Side) :
    ({ s with wait := (s.wait + State.one side) % 2 ^ 64 } : State T).half side' =
      if side' = side then s.half side + 1 else s.half side' := by
  cases side <;> cases side' <;>
    simp only [State.half, State.readers, State.writers, State.one, reduceIte, reduceCtorEq] at * <;>
      omega

/-- The call takes off what it owes. -/
theorem Sound.subtract (h : ∀ side, Sound s side) (hsmall : s.wait < 2 ^ 64) {result : Bool}
    (hp : s.placeOf c = some (.subtract side result)) (side' : Side) :
    s.half side ≠ 0 ∧ Sound ((s.subtract side).goto c (.done result)) side' := by
  have hdue : .call c ∈ s.due side := Or.inr ⟨result, hp⟩
  have hless : ∀ side', ∀ z ∈ (s.goto c (.done result)).due side', z ∈ s.due side' ∧ z ≠ .call c := by
    intro side' z hz
    rcases @due_goto _ _ _ _ (.done result) trivial _ hz with ⟨hne, hz⟩ | ⟨-, hplace⟩
    · exact ⟨hz, hne⟩
    · rcases hplace with ⟨hplace, -⟩ | ⟨_, hplace⟩ <;> cases hplace
  obtain ⟨hne, hle⟩ := encard_remove (h side).budget hdue (hless side)
  refine ⟨hne, (@Sound.goto_quiet _ _ _ _ (h side') (.done result) trivial).setWait
    (s.subtract side).wait ?_⟩
  have hhalf := (half_subtract hne hsmall side').1
  show _ ≤ (((s.subtract side).half side' : Nat) : ℕ∞)
  rw [hhalf]
  split
  · rename_i heq
    subst heq
    exact hle
  · exact (Set.encard_le_encard fun z hz => (hless side' z hz).1).trans (h side').budget

/-- The call counts itself. -/
theorem Sound.add (h : ∀ side, Sound s side) (hsmall : s.wait < 2 ^ 64)
    (hroom : s.half (s.side c) + 1 < 2 ^ 32) (side : Side) :
    Sound ({ s with wait := (s.wait + State.one (s.side c)) % 2 ^ 64 }.goto c .enqueue) side := by
  have hhalf := half_add hroom hsmall side
  by_cases hside : s.side c = side
  · rw [if_pos hside.symm, hside] at hhalf
    rw [hside] at *
    have hset : Sound { s with wait := (s.wait + State.one side) % 2 ^ 64 } side := by
      refine (h side).setWait _ ?_
      rw [hhalf]
      exact (h side).budget.trans (by norm_cast; omega)
    refine hset.goto trivial ?_
    rw [hhalf]
    refine encard_add (x := .call c) (h side).budget fun z hz => ?_
    rcases @due_goto _ _ _ _ .enqueue trivial _ hz with ⟨-, hz⟩ | ⟨rfl, -⟩
    · exact .inr hz
    · exact .inl rfl
  · rw [if_neg (Ne.symm hside)] at hhalf
    refine ((h side).setWait _ ?_).goto_quiet hside
    rw [hhalf]
    exact (h side).budget

/-- A wait that has ended by itself is settled by the call. -/
theorem Sound.unpark (h : Sound s side) {i : Nat} (hp : s.placeOf c = some (.parked i))
    (side' : Side) (hside : s.side c = side') : Sound (s.unpark c side' i) side := by
  unfold State.unpark
  split
  · rename_i hfired
    by_cases hne : side' = side
    · subst hne
      obtain ⟨e, he, hcall, hwaits⟩ := h.owner c i hp hside
      rw [he, Option.map_some, Option.some.injEq] at hfired
      have hwait := hwaits (.inr hfired)
      refine h.goto_instead (i := i) trivial h rfl ⟨e, he, ?_⟩ (fun _ hz => hz) ?_
      · unfold State.entryDue
        rw [if_pos hwait]
        exact .inr ⟨hfired, c, hp, hside⟩
      · rintro ⟨e', he', hdue⟩
        rw [goto_cond, he, Option.some.injEq] at he'
        subst he'
        unfold State.entryDue at hdue
        rw [if_pos hwait, hfired] at hdue
        obtain ⟨-, c', hp', hs⟩ := hdue.resolve_left (by simp)
        rw [side_goto] at hs
        rcases placeOf_goto_cases hp' with ⟨-, hplace⟩ | ⟨hne, hp'⟩
        · cases hplace
        · obtain ⟨e', he', hcall', -⟩ := h.owner c' i hp' hs
          rw [he, Option.some.injEq] at he'
          exact hne (by rw [← hcall', ← he', hcall])
    · exact h.goto_quiet hne
  · exact h.goto_quiet trivial

end Costream.Sync.CAS
