import Costream.Pool.ConnectionPool
import Costream.Tally
import Mathlib.Tactic.Common

/-!
# The pool as counters

For the accounts of the pool it does not matter which connection is where and which party stands
where, but how many of them there are.  `Counters` are these numbers, and `Counters.Step` says how
they can change; `step_refines` is the connection: every step of the pool is one of the counters.
-/

namespace Costream.Pool

open Costream.Tally

/-- `count` is `count_`, and the others are numbers of connections and of parties. -/
@[ext] structure Counters where
  count : Nat
  channel : Nat
  out : Nat
  /-- Calls that have a connection, or let the factory make one. -/
  held : Nat
  /-- Calls that take their `++count_` back. -/
  refused : Nat
  /-- Calls before `++count_`. -/
  creating : Nat
  /-- Calls of `Get` that will look into the channel. -/
  looking : Nat
  /-- Calls of `Get` that were refused, before the wait in the channel. -/
  leaving : Nat
  waiting : Nat

/-- What a step is about. -/
inductive Label where
  /-- A connection is deleted, by `Get` or by another call. -/
  | delete (get : Bool)
  /-- The factory makes no connection. -/
  | noConnection
  | other
deriving DecidableEq

/-- How the numbers can change.  Where a step ends a call or lets it go on, `b` says which. -/
inductive Counters.Step (l : Limits) (c : Counters) : Label → Counters → Prop where
  | get : Step l c .other { c with looking := c.looking + 1 }
  | quiet : Step l c .other c
  | put (h : 1 ≤ c.out) : Step l c .other { c with out := c.out - 1, held := c.held + 1 }
  | loop : Step l c .other { c with creating := c.creating + 1 }
  | lookEmpty (h : 1 ≤ c.looking) (hempty : c.channel = 0) :
    Step l c .other { c with looking := c.looking - 1, creating := c.creating + 1 }
  | look (h : 1 ≤ c.looking) (hfull : 1 ≤ c.channel) :
    Step l c .other
      { c with looking := c.looking - 1, channel := c.channel - 1, held := c.held + 1 }
  | handOut (h : 1 ≤ c.held) : Step l c .other { c with held := c.held - 1, out := c.out + 1 }
  | grant (h : 1 ≤ c.creating) (hroom : c.count < l.maxConnection) :
    Step l c .other
      { c with count := c.count + 1, creating := c.creating - 1, held := c.held + 1 }
  | refuse (h : 1 ≤ c.creating) (hfull : l.maxConnection ≤ c.count) :
    Step l c .other
      { c with count := c.count + 1, creating := c.creating - 1, refused := c.refused + 1 }
  | takeBack (b : Bool) (h : 1 ≤ c.refused) :
    Step l c .other
      { c with count := c.count - 1, refused := c.refused - 1, leaving := c.leaving + b.toNat }
  | noConnection (b : Bool) (h : 1 ≤ c.held) :
    Step l c .noConnection { c with held := c.held - 1, leaving := c.leaving + b.toNat }
  | give (b : Bool) (h : 1 ≤ c.held) (hwaits : 1 ≤ c.waiting) :
    Step l c .other { c with waiting := c.waiting - 1, creating := c.creating + b.toNat }
  | store (b : Bool) (h : 1 ≤ c.held) (hwaits : c.waiting = 0)
    (hroom : c.channel < l.maxIdleConnection) :
    Step l c .other
      { c with held := c.held - 1, channel := c.channel + 1, creating := c.creating + b.toNat }
  | sleep (h : 1 ≤ c.leaving) (hempty : c.channel = 0) :
    Step l c .other { c with leaving := c.leaving - 1, waiting := c.waiting + 1 }
  | take (h : 1 ≤ c.leaving) (hfull : 1 ≤ c.channel) :
    Step l c .other
      { c with leaving := c.leaving - 1, channel := c.channel - 1, held := c.held + 1 }
  | delete (get : Bool) (h : 1 ≤ c.held) :
    Step l c (.delete get)
      { c with count := c.count - 1, held := c.held - 1, looking := c.looking + get.toNat }
  | timeout (h : 1 ≤ c.waiting) : Step l c .other { c with waiting := c.waiting - 1 }

/-! ## What is counted -/

def Call.isGet : Call → Bool
  | .get _ => true
  | _ => false

namespace Party

@[simp] def held : Party → Nat
  | .inCall _ (.check _) => 1
  | .inCall _ .factory => 1
  | .inCall _ (.tryPush _) => 1
  | .inCall _ (.delete _) => 1
  | _ => 0

@[simp] def refused : Party → Nat
  | .inCall _ .refused => 1
  | _ => 0

@[simp] def creating : Party → Nat
  | .inCall _ .create => 1
  | _ => 0

@[simp] def looking : Party → Nat
  | .inCall _ .tryPop => 1
  | .inCall c (.deleter _) => c.isGet.toNat
  | _ => 0

@[simp] def leaving : Party → Nat
  | .inCall _ .pop => 1
  | _ => 0

@[simp] def waiting (p : Party) : Nat := p.waits.toNat

end Party

def State.counters (s : State) : Counters where
  count := s.count
  channel := s.channel.length
  out := s.out.length
  held := tally Party.held s.parties
  refused := tally Party.refused s.parties
  creating := tally Party.creating s.parties
  looking := tally Party.looking s.parties
  leaving := tally Party.leaving s.parties
  waiting := tally Party.waiting s.parties

/-- What the action is about in the state. -/
def State.label (s : State) : Action → Label
  | .step i o =>
    match s.parties[i]? with
    | some (.inCall c (.delete _)) => .delete c.isGet
    | some (.inCall _ .factory) =>
      match o.made with
      | .connection _ => .other
      | _ => .noConnection
    | _ => .other
  | _ => .other

variable {l : Limits} {s t : State} {i r n : Nat} {channel out : List Nat} {p q : Party} {c : Call}
  {place : Place} {o : Outside} {d : Counters}

/-- One party is replaced: the numbers change by its shares. -/
theorem counters_set (hp : s.parties[i]? = some p) (hcount : d.count = n)
    (hchannel : d.channel = channel.length) (hout : d.out = out.length)
    (hheld : d.held + p.held = s.counters.held + q.held)
    (hrefused : d.refused + p.refused = s.counters.refused + q.refused)
    (hcreating : d.creating + p.creating = s.counters.creating + q.creating)
    (hlooking : d.looking + p.looking = s.counters.looking + q.looking)
    (hleaving : d.leaving + p.leaving = s.counters.leaving + q.leaving)
    (hwaiting : d.waiting + p.waiting = s.counters.waiting + q.waiting) :
    (⟨n, channel, out, s.parties.set i q⟩ : State).counters = d := by
  have hsum : ∀ f : Party → Nat, tally f (s.parties.set i q) + f p = tally f s.parties + f q :=
    fun f => tally_set f hp q
  have h1 := hsum Party.held
  have h2 := hsum Party.refused
  have h3 := hsum Party.creating
  have h4 := hsum Party.looking
  have h5 := hsum Party.leaving
  have h6 := hsum Party.waiting
  simp only [State.counters] at hheld hrefused hcreating hlooking hleaving hwaiting
  apply Counters.ext <;> simp only [State.counters] <;> omega

theorem le_counters (hp : s.parties[i]? = some p) :
    p.held ≤ s.counters.held ∧ p.refused ≤ s.counters.refused ∧
      p.creating ≤ s.counters.creating ∧ p.looking ≤ s.counters.looking ∧
      p.leaving ≤ s.counters.leaving ∧ p.waiting ≤ s.counters.waiting := by
  have hmem := List.mem_of_getElem? hp
  exact ⟨le_tally _ hmem, le_tally _ hmem, le_tally _ hmem, le_tally _ hmem, le_tally _ hmem,
    le_tally _ hmem⟩

/-- A step that leaves the numbers alone. -/
theorem Counters.Step.same (hp : s.parties[i]? = some p) (hheld : q.held = p.held)
    (hrefused : q.refused = p.refused) (hcreating : q.creating = p.creating)
    (hlooking : q.looking = p.looking) (hleaving : q.leaving = p.leaving)
    (hwaiting : q.waiting = p.waiting) : Step l s.counters .other (s.put i q).counters := by
  have heq : (s.put i q).counters = s.counters := by
    refine counters_set (s := s) hp rfl rfl rfl ?_ ?_ ?_ ?_ ?_ ?_ <;> omega
  rw [heq]
  exact .quiet

/-! ## Every step of the pool is one of the counters -/

/-- The party has no share but `leaving` and `looking`, or `creating`. -/
structure Party.Free (p : Party) (creating looking leaving : Nat) : Prop where
  held : p.held = 0
  refused : p.refused = 0
  creating : p.creating = creating
  looking : p.looking = looking
  leaving : p.leaving = leaving
  waiting : p.waiting = 0

theorem Call.noConnection_free (c : Call) : c.noConnection.Free 0 0 c.isGet.toNat := by
  cases c <;> exact ⟨rfl, rfl, rfl, rfl, rfl, rfl⟩

theorem Call.deleted_free (c : Call) : c.deleted.Free 0 c.isGet.toNat 0 := by
  cases c <;> exact ⟨rfl, rfl, rfl, rfl, rfl, rfl⟩

theorem Limits.loop_free (l : Limits) (n : Nat) : ∃ b : Bool, (l.loop n).Free b.toNat 0 0 := by
  unfold Limits.loop
  split
  · exact ⟨true, rfl, rfl, rfl, rfl, rfl, rfl⟩
  · exact ⟨false, rfl, rfl, rfl, rfl, rfl, rfl⟩

theorem Limits.pushed_free (l : Limits) (c : Call) : ∃ b : Bool, (l.pushed c).Free b.toNat 0 0 := by
  cases c with
  | reserve n => exact l.loop_free (n + 1)
  | get timed => exact ⟨false, rfl, rfl, rfl, rfl, rfl, rfl⟩
  | put => exact ⟨false, rfl, rfl, rfl, rfl, rfl, rfl⟩

/-- Whoever waits has a share. -/
theorem waits_pos (h : s.parties.any Party.waits = true) : 1 ≤ s.counters.waiting := by
  obtain ⟨p, hmem, hp⟩ := List.any_eq_true.1 h
  have hle : p.waiting ≤ tally Party.waiting s.parties := le_tally Party.waiting hmem
  have hone : p.waiting = 1 := by
    simp [Party.waiting, hp]
  show 1 ≤ tally Party.waiting s.parties
  omega

theorem waits_zero (h : ¬ s.parties.any Party.waits = true) : s.counters.waiting = 0 := by
  refine tally_eq_zero.2 fun p hmem => ?_
  have hp : p.waits = false := by
    rw [Bool.eq_false_iff]
    exact fun hp => h (List.any_eq_true.2 ⟨p, hmem, hp⟩)
  simp [Party.waiting, hp]

namespace State

theorem tryPop_refines (hp : s.parties[i]? = some (.inCall c .tryPop))
    (hnext : s.advance l i c o .tryPop = some t) : s.counters.Step l .other t.counters := by
  have hlooking : 1 ≤ s.counters.looking := (le_counters hp).2.2.2.1
  simp only [advance] at hnext
  split at hnext
  · rename_i hchannel
    cases hnext
    have heq : (s.put i (.inCall c .create)).counters = { s.counters with
        looking := s.counters.looking - 1, creating := s.counters.creating + 1 } := by
      refine counters_set (s := s) hp rfl rfl rfl ?_ ?_ ?_ ?_ ?_ ?_ <;> simp [Party.waits]
      omega
    rw [heq]
    refine .lookEmpty hlooking ?_
    simp [State.counters, hchannel]
  · rename_i x rest hchannel
    cases hnext
    have hlen : s.counters.channel = rest.length + 1 := by
      simp [State.counters, hchannel]
    have heq : ({ s with channel := rest }.put i (.inCall c (.check x))).counters =
        { s.counters with
          looking := s.counters.looking - 1
          channel := s.counters.channel - 1
          held := s.counters.held + 1 } := by
      refine counters_set (s := s) hp rfl ?_ rfl ?_ ?_ ?_ ?_ ?_ ?_ <;> simp [Party.waits] <;> omega
    rw [heq]
    exact .look hlooking (by omega)

theorem pop_refines (hp : s.parties[i]? = some (.inCall c .pop))
    (hnext : s.advance l i c o .pop = some t) : s.counters.Step l .other t.counters := by
  have hleaving : 1 ≤ s.counters.leaving := (le_counters hp).2.2.2.2.1
  simp only [advance] at hnext
  split at hnext
  · rename_i hchannel
    cases hnext
    have heq : (s.put i (.inCall c .waiting)).counters = { s.counters with
        leaving := s.counters.leaving - 1, waiting := s.counters.waiting + 1 } := by
      refine counters_set (s := s) hp rfl rfl rfl ?_ ?_ ?_ ?_ ?_ ?_ <;> simp [Party.waits]
      omega
    rw [heq]
    refine .sleep hleaving ?_
    simp [State.counters, hchannel]
  · rename_i x rest hchannel
    cases hnext
    have hlen : s.counters.channel = rest.length + 1 := by
      simp [State.counters, hchannel]
    have heq : ({ s with channel := rest }.put i (.inCall c (.check x))).counters =
        { s.counters with
          leaving := s.counters.leaving - 1
          channel := s.counters.channel - 1
          held := s.counters.held + 1 } := by
      refine counters_set (s := s) hp rfl ?_ rfl ?_ ?_ ?_ ?_ ?_ ?_ <;> simp [Party.waits] <;> omega
    rw [heq]
    exact .take hleaving (by omega)

/-- A connection is handed out. -/
theorem handOut_refines (hp : s.parties[i]? = some p) (hheld : p.held = 1) (hrefused : p.refused = 0)
    (hcreating : p.creating = 0) (hlooking : p.looking = 0) (hleaving : p.leaving = 0)
    (hwaiting : p.waiting = 0) (x : Nat) :
    s.counters.Step l .other ({ s with out := x :: s.out }.put i .idle).counters := by
  have hpos : 1 ≤ s.counters.held := hheld ▸ (le_counters hp).1
  have heq : ({ s with out := x :: s.out }.put i .idle).counters =
      { s.counters with held := s.counters.held - 1, out := s.counters.out + 1 } := by
    refine counters_set (s := s) hp rfl rfl rfl ?_ ?_ ?_ ?_ ?_ ?_
    · rw [hheld]
      simp
      omega
    · rw [hrefused]
      simp
    · rw [hcreating]
      simp
    · rw [hlooking]
      simp
    · rw [hleaving]
      simp
    · rw [hwaiting]
      simp [Party.waits]
  rw [heq]
  exact .handOut hpos

theorem check_refines {x : Nat} (hp : s.parties[i]? = some (.inCall c (.check x)))
    (hnext : s.advance l i c o (.check x) = some t) : s.counters.Step l .other t.counters := by
  simp only [advance] at hnext
  split at hnext
  · cases c with
    | get timed =>
      cases hnext
      exact handOut_refines hp rfl rfl rfl rfl rfl rfl x
    | put =>
      cases hnext
      exact .same hp rfl rfl rfl rfl rfl rfl
    | reserve n => cases hnext
  · cases hnext
    exact .same hp rfl rfl rfl rfl rfl rfl

theorem create_refines (hp : s.parties[i]? = some (.inCall c .create))
    (hnext : s.advance l i c o .create = some t) : s.counters.Step l .other t.counters := by
  have hcreating : 1 ≤ s.counters.creating := (le_counters hp).2.2.1
  simp only [advance] at hnext
  split at hnext
  · rename_i hfull
    cases hnext
    have heq : ({ s with count := s.count + 1 }.put i (.inCall c .refused)).counters =
        { s.counters with
          count := s.counters.count + 1
          creating := s.counters.creating - 1
          refused := s.counters.refused + 1 } := by
      refine counters_set (s := s) hp rfl rfl rfl ?_ ?_ ?_ ?_ ?_ ?_ <;> simp [Party.waits]
      omega
    rw [heq]
    exact .refuse hcreating (by simp only [State.counters]; omega)
  · rename_i hroom
    cases hnext
    have heq : ({ s with count := s.count + 1 }.put i (.inCall c .factory)).counters =
        { s.counters with
          count := s.counters.count + 1
          creating := s.counters.creating - 1
          held := s.counters.held + 1 } := by
      refine counters_set (s := s) hp rfl rfl rfl ?_ ?_ ?_ ?_ ?_ ?_ <;> simp [Party.waits]
      omega
    rw [heq]
    exact .grant hcreating (by simp only [State.counters]; omega)

theorem refused_refines (hp : s.parties[i]? = some (.inCall c .refused)) :
    s.counters.Step l .other ({ s with count := s.count - 1 }.put i c.noConnection).counters := by
  have hrefused : 1 ≤ s.counters.refused := (le_counters hp).2.1
  obtain ⟨h1, h2, h3, h4, h5, h6⟩ := c.noConnection_free
  have heq : ({ s with count := s.count - 1 }.put i c.noConnection).counters =
      { s.counters with
        count := s.counters.count - 1
        refused := s.counters.refused - 1
        leaving := s.counters.leaving + c.isGet.toNat } := by
    refine counters_set (s := s) hp rfl rfl rfl ?_ ?_ ?_ ?_ ?_ ?_ <;>
      simp only [h1, h2, h3, h4, h5, h6] <;> simp [Party.waits]
    omega
  rw [heq]
  exact .takeBack c.isGet hrefused

theorem factory_refines (hp : s.parties[i]? = some (.inCall c .factory))
    (hnext : s.advance l i c o .factory = some t) :
    s.counters.Step l (s.label (.step i o)) t.counters := by
  have hheld : 1 ≤ s.counters.held := (le_counters hp).1
  have hfail : ∀ p : Party, ∀ b : Bool, p.Free 0 0 b.toNat →
      s.counters.Step l .noConnection (s.put i p).counters := by
    intro p b hfree
    obtain ⟨h1, h2, h3, h4, h5, h6⟩ := hfree
    have heq : (s.put i p).counters = { s.counters with
        held := s.counters.held - 1, leaving := s.counters.leaving + b.toNat } := by
      refine counters_set (s := s) hp rfl rfl rfl ?_ ?_ ?_ ?_ ?_ ?_ <;>
        simp only [h1, h2, h3, h4, h5, h6] <;> simp [Party.waits]
      omega
    rw [heq]
    exact .noConnection b hheld
  simp only [label, hp]
  simp only [advance] at hnext
  cases hmade : o.made with
  | connection x =>
    rw [hmade] at hnext
    cases c with
    | get timed =>
      cases hnext
      exact handOut_refines hp rfl rfl rfl rfl rfl rfl x
    | reserve n =>
      cases hnext
      exact .same hp rfl rfl rfl rfl rfl rfl
    | put => cases hnext
  | null =>
    rw [hmade] at hnext
    cases hnext
    exact hfail _ c.isGet c.noConnection_free
  | throws =>
    rw [hmade] at hnext
    cases hnext
    exact hfail .idle false ⟨rfl, rfl, rfl, rfl, rfl, rfl⟩

theorem delete_refines {x : Nat} (hp : s.parties[i]? = some (.inCall c (.delete x))) :
    s.counters.Step l (.delete c.isGet)
      ({ s with count := s.count - 1 }.put i (.inCall c (.deleter x))).counters := by
  have hheld : 1 ≤ s.counters.held := (le_counters hp).1
  have heq : ({ s with count := s.count - 1 }.put i (.inCall c (.deleter x))).counters =
      { s.counters with
        count := s.counters.count - 1
        held := s.counters.held - 1
        looking := s.counters.looking + c.isGet.toNat } := by
    refine counters_set (s := s) hp rfl rfl rfl ?_ ?_ ?_ ?_ ?_ ?_ <;> simp [Party.waits]
    omega
  rw [heq]
  exact .delete c.isGet hheld

theorem deleter_refines {x : Nat} (hp : s.parties[i]? = some (.inCall c (.deleter x))) :
    s.counters.Step l .other (s.put i c.deleted).counters := by
  obtain ⟨h1, h2, h3, h4, h5, h6⟩ := c.deleted_free
  exact .same hp h1 h2 h3 h4 h5 h6

theorem count_refines (hp : s.parties[i]? = some (.inCall c .count)) (n : Nat) :
    s.counters.Step l .other (s.put i (l.loop n)).counters := by
  obtain ⟨b, h1, h2, h3, h4, h5, h6⟩ := l.loop_free n
  have heq : (s.put i (l.loop n)).counters =
      { s.counters with creating := s.counters.creating + b.toNat } := by
    refine counters_set (s := s) hp rfl rfl rfl ?_ ?_ ?_ ?_ ?_ ?_ <;>
      simp only [h1, h2, h3, h4, h5, h6] <;> simp [Party.waits]
  rw [heq]
  cases b with
  | true => exact .loop
  | false => exact .quiet

/-- What is pushed goes to a party that waits. -/
theorem give_refines {x : Nat} {s' : State} (hp : s.parties[i]? = some (.inCall c (.tryPush x)))
    (hgive : s.give r x = some s') :
    s.counters.Step l .other (s'.put i (l.pushed c)).counters := by
  have hheld : 1 ≤ s.counters.held := (le_counters hp).1
  unfold give at hgive
  split at hgive
  · rename_i c' hr
    cases hgive
    have hwaiting : 1 ≤ s.counters.waiting := (le_counters hr).2.2.2.2.2
    have hne : r ≠ i := by
      intro heq
      rw [heq, hp] at hr
      cases hr
    have hreader : (s.put r (.inCall c' (.check x))).counters = { s.counters with
        waiting := s.counters.waiting - 1, held := s.counters.held + 1 } := by
      refine counters_set (s := s) hr rfl rfl rfl ?_ ?_ ?_ ?_ ?_ ?_ <;> simp [Party.waits]
      omega
    have hp' : (s.put r (.inCall c' (.check x))).parties[i]? = some (.inCall c (.tryPush x)) := by
      simp only [State.put]
      rw [List.getElem?_set_ne hne, hp]
    obtain ⟨b, h1, h2, h3, h4, h5, h6⟩ := l.pushed_free c
    have heq : ((s.put r (.inCall c' (.check x))).put i (l.pushed c)).counters =
        { s.counters with
          waiting := s.counters.waiting - 1
          creating := s.counters.creating + b.toNat } := by
      refine counters_set (s := s.put r (.inCall c' (.check x))) hp' rfl rfl rfl
        ?_ ?_ ?_ ?_ ?_ ?_ <;> rw [hreader] <;> simp only [h1, h2, h3, h4, h5, h6] <;>
        simp [Party.waits]
    rw [heq]
    exact .give b hheld hwaiting
  · cases hgive

theorem tryPush_refines {x : Nat} (hp : s.parties[i]? = some (.inCall c (.tryPush x)))
    (hnext : s.advance l i c o (.tryPush x) = some t) : s.counters.Step l .other t.counters := by
  have hheld : 1 ≤ s.counters.held := (le_counters hp).1
  simp only [advance] at hnext
  split at hnext
  · obtain ⟨s', hgive, rfl⟩ := Option.map_eq_some_iff.1 hnext
    exact give_refines hp hgive
  · rename_i hwaits
    split at hnext
    · rename_i hroom
      cases hnext
      obtain ⟨b, h1, h2, h3, h4, h5, h6⟩ := l.pushed_free c
      have heq : ({ s with channel := s.channel ++ [x] }.put i (l.pushed c)).counters =
          { s.counters with
            held := s.counters.held - 1
            channel := s.counters.channel + 1
            creating := s.counters.creating + b.toNat } := by
        refine counters_set (s := s) hp rfl ?_ rfl ?_ ?_ ?_ ?_ ?_ ?_
        · rw [List.length_append]
          rfl
        all_goals simp only [h1, h2, h3, h4, h5, h6] ; simp [Party.waits]
        omega
      rw [heq]
      exact .store b hheld (waits_zero hwaits) hroom
    · cases hnext
      exact .same hp rfl rfl rfl rfl rfl rfl

/-- Every step of the pool is a step of the counters. -/
theorem step_refines {a : Action} (henabled : s.enabled a = true) (hnext : s.next l a = some t) :
    s.counters.Step l (s.label a) t.counters := by
  cases a with
  | get i timed =>
    have hp : s.parties[i]? = some .idle := of_decide_eq_true henabled
    cases hnext
    have heq : (s.put i (.inCall (.get timed) .tryPop)).counters =
        { s.counters with looking := s.counters.looking + 1 } := by
      refine counters_set (s := s) hp rfl rfl rfl ?_ ?_ ?_ ?_ ?_ ?_ <;> simp [Party.waits]
    rw [heq]
    exact .get
  | reserve i =>
    have hp : s.parties[i]? = some .idle := of_decide_eq_true henabled
    cases hnext
    exact .same hp rfl rfl rfl rfl rfl rfl
  | put i k =>
    obtain ⟨hidle, hk⟩ := Bool.and_eq_true_iff.1 henabled
    have hp : s.parties[i]? = some .idle := of_decide_eq_true hidle
    have hk : k < s.out.length := of_decide_eq_true hk
    simp only [next, List.getElem?_eq_getElem hk] at hnext
    cases hnext
    have heq : ({ s with out := s.out.eraseIdx k }.put i (.inCall .put (.check s.out[k]))).counters =
        { s.counters with out := s.counters.out - 1, held := s.counters.held + 1 } := by
      refine counters_set (s := s) hp rfl rfl ?_ ?_ ?_ ?_ ?_ ?_ ?_
      · rw [List.length_eraseIdx_of_lt hk]
        rfl
      all_goals simp [Party.waits]
    rw [heq]
    exact .put (Nat.lt_of_le_of_lt (Nat.zero_le k) hk)
  | step i o =>
    simp only [next] at hnext
    split at hnext
    · rename_i c place hp
      cases place with
      | factory => exact factory_refines hp hnext
      | delete x =>
        cases hnext
        simp only [label, hp]
        exact delete_refines hp
      | count =>
        simp only [label, hp]
        cases c with
        | reserve n =>
          cases hnext
          exact count_refines hp s.count
        | get timed => cases hnext
        | put => cases hnext
      | tryPop =>
        simp only [label, hp]
        exact tryPop_refines hp hnext
      | check x =>
        simp only [label, hp]
        exact check_refines hp hnext
      | create =>
        simp only [label, hp]
        exact create_refines hp hnext
      | refused =>
        simp only [label, hp]
        cases hnext
        exact refused_refines hp
      | tryPush x =>
        simp only [label, hp]
        exact tryPush_refines hp hnext
      | pop =>
        simp only [label, hp]
        exact pop_refines hp hnext
      | waiting => cases hnext
      | deleter x =>
        simp only [label, hp]
        cases hnext
        exact deleter_refines hp
    · cases hnext
  | timeout i =>
    have hp : s.parties[i]? = some (.inCall (.get true) .waiting) := of_decide_eq_true henabled
    have hwaiting : 1 ≤ s.counters.waiting := (le_counters hp).2.2.2.2.2
    cases hnext
    have heq : (s.put i .idle).counters =
        { s.counters with waiting := s.counters.waiting - 1 } := by
      refine counters_set (s := s) hp rfl rfl rfl ?_ ?_ ?_ ?_ ?_ ?_ <;> simp [Party.waits]
      omega
    rw [heq]
    exact .timeout hwaiting

end State

end Costream.Pool
