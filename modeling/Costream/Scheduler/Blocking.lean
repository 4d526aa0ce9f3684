import Costream.Scheduler.Life

/-!
# Blocked processors

The thread of a processor counts its switches to coroutines.  `Mark` keeps the count and the time,
and `IsBlocking` says that the count is still the same after `cycle_timeout_us`.  Both are called by
the dispatcher, in any order, while the threads go on.

A turn starts with a switch to a coroutine and lasts until the next one.  It goes on when the
coroutine has been left and the thread waits for another.

* `Clocked` is the scheduler with a clock and the fields of each processor.  A read of another
  thread's variable is a step, and so is a read of the clock.
* `turns`, `entered`, `marked` and `answers` are not in the code: how many turns a processor has had,
  when the present one started, when it was marked, and what `IsBlocking` has answered.
* `Clocked.Exact` relates them to the fields, as long as the count of switches does not wrap around.
-/

namespace Costream.Scheduler

open Trace

/-- Where the dispatcher is. -/
inductive Watcher where
  | idle
  /-- `Mark`: before `markSwitch_ = switchCount_`. -/
  | store (p : Nat)
  /-- Before `markTick_ = NowMicrosecond()`; `turn` is the turn of the count. -/
  | stamp (p turn : Nat)
  /-- `IsBlocking`: before `NowMicrosecond()`. -/
  | clock (p : Nat) (marked inside : Option Nat) (entered : Nat)
  deriving DecidableEq

/-- An answer of `IsBlocking`, with what it is about: since when the turn was marked, the coroutine
that was inside and the start of the turn, all when the counts were compared, and the time at the
end. -/
structure Answer where
  proc : Nat
  result : Bool
  marked : Option Nat
  inside : Option Nat
  entered : Nat
  now : Nat

structure Clocked where
  scheduler : State
  now : Nat
  switchCount : Nat → Nat
  markSwitch : Nat → Nat
  markTick : Nat → Nat
  watcher : Watcher
  stack : Nat → Option Nat
  turns : Nat → Nat
  entered : Nat → Nat
  marked : Nat → Option Nat
  answers : List Answer

namespace Clocked

def initial : Clocked where
  scheduler := .initial
  now := 0
  switchCount _ := 0
  markSwitch _ := 0
  markTick _ := 0
  watcher := .idle
  stack _ := none
  turns _ := 0
  entered _ := 0
  marked _ := none
  answers := []

inductive Action where
  | scheduler (a : Scheduler.Action)
  | tick (n : Nat)
  | mark (p : Nat)
  | isBlocking (p : Nat)
  | watcher

variable (c : Clocked)

/-- A thread is about to switch to a coroutine. -/
def switches : Scheduler.Action → Option Nat
  | .thread p => if c.scheduler.place p = .swapIn then some p else none
  | _ => none

/-- `++switchCount_`. -/
def count : Option Nat → Clocked
  | none => c
  | some p =>
    { c with
      switchCount := Function.update c.switchCount p ((c.switchCount p + 1) % 2 ^ 64)
      turns := Function.update c.turns p (c.turns p + 1)
      entered := Function.update c.entered p c.now
      marked := Function.update c.marked p none }

/-- `Mark`, up to its comparison. -/
def mark (p : Nat) : Clocked :=
  if c.scheduler.runningTask p ≠ none ∧ c.markSwitch p ≠ c.switchCount p then
    { c with watcher := .store p }
  else c

def answer (p : Nat) (result : Bool) (marked inside : Option Nat) (entered : Nat) : Clocked :=
  { c with answers := c.answers ++ [⟨p, result, marked, inside, entered, c.now⟩] }

/-- `IsBlocking`, up to its comparisons. -/
def isBlocking (p : Nat) : Clocked :=
  if c.markSwitch p = 0 ∨ c.markSwitch p ≠ c.switchCount p then
    c.answer p false (c.marked p) (c.stack p) (c.entered p)
  else { c with watcher := .clock p (c.marked p) (c.stack p) (c.entered p) }

/-- The next step of the dispatcher. -/
def watch (timeout : Nat) : Clocked :=
  match c.watcher with
  | .idle => c
  | .store p =>
    { c with
      markSwitch := Function.update c.markSwitch p (c.switchCount p)
      watcher := .stamp p (c.turns p) }
  | .stamp p turn =>
    { c with
      markTick := Function.update c.markTick p c.now
      watcher := .idle
      -- The turn has been marked, when it has not ended meanwhile.
      marked := if c.turns p = turn then Function.update c.marked p (some c.now) else c.marked }
  | .clock p marked inside entered =>
    { c with watcher := .idle }.answer p (c.markTick p + timeout < c.now) marked inside entered

def Enabled : Action → Prop
  | .scheduler a => Scheduler.Enabled c.scheduler a = true
  | .tick _ => True
  | .mark _ | .isBlocking _ => c.watcher = .idle
  | .watcher => c.watcher ≠ .idle

instance (a : Action) : Decidable (c.Enabled a) :=
  match a with
  | .scheduler a => inferInstanceAs (Decidable (Scheduler.Enabled c.scheduler a = true))
  | .tick _ => inferInstanceAs (Decidable True)
  | .mark _ | .isBlocking _ => inferInstanceAs (Decidable (c.watcher = .idle))
  | .watcher => inferInstanceAs (Decidable (c.watcher ≠ .idle))

def step (timeout : Nat) : Action → Option Clocked
  | .scheduler a =>
    (Scheduler.step c.scheduler a).map fun s =>
      { c.count (c.switches a) with scheduler := s, stack := c.scheduler.follow c.stack a }
  | .tick n => some { c with now := c.now + n }
  | .mark p => some (c.mark p)
  | .isBlocking p => some (c.isBlocking p)
  | .watcher => some (c.watch timeout)

/-- The count of switches does not wrap around. -/
def FewSwitches (c : Clocked) : Action → Prop
  | .scheduler a => ∀ p ∈ c.switches a, c.turns p + 1 < 2 ^ 64
  | _ => True

instance (a : Action) : Decidable (FewSwitches c a) :=
  match a with
  | .scheduler a => inferInstanceAs (Decidable (∀ p ∈ c.switches a, c.turns p + 1 < 2 ^ 64))
  | .tick _ | .mark _ | .isBlocking _ | .watcher => inferInstanceAs (Decidable True)

end Clocked

def clocked (timeout : Nat) : Machine Clocked Clocked.Action where
  enabled := Clocked.Enabled
  step c a := c.step timeout a

instance (timeout : Nat) (c : Clocked) (a : Clocked.Action) :
    Decidable ((clocked timeout).enabled c a) :=
  inferInstanceAs (Decidable (c.Enabled a))

/-! ## The invariant -/

/-- The answer says whether the turn was marked longer ago than the timeout.  It had started by
then. -/
structure Answer.Correct (timeout : Nat) (r : Answer) : Prop where
  result : r.result = true ↔ ∃ tick, r.marked = some tick ∧ tick + timeout < r.now
  entered : ∀ tick, r.marked = some tick → r.entered ≤ tick

/-- What the dispatcher knows of the processor that it is at. -/
def Clocked.Knows (c : Clocked) : Watcher → Prop
  | .idle => True
  | .store p => c.markSwitch p ≠ c.turns p
  | .stamp p turn => c.markSwitch p = turn ∧ turn ≠ 0 ∧ turn ≤ c.turns p ∧ c.marked p = none
  | .clock p marked _ entered => marked = some (c.markTick p) ∧ entered ≤ c.markTick p

structure Clocked.Exact (timeout : Nat) (c : Clocked) : Prop where
  links : Links c.scheduler
  ended : Ended c.scheduler
  stack : OnStack c.stack c.scheduler
  count : ∀ p, c.switchCount p = c.turns p ∧ c.turns p < 2 ^ 64
  mark : ∀ p, c.markSwitch p ≤ c.turns p
  entered : ∀ p, c.entered p ≤ c.now
  /-- The present turn is the one that has been marked. -/
  marked : ∀ p tick, c.marked p = some tick → c.markSwitch p = c.turns p ∧ c.turns p ≠ 0 ∧
    c.markTick p = tick ∧ c.entered p ≤ tick ∧ tick ≤ c.now
  /-- The count of the present turn is kept for as long as the turn is not marked only by `Mark`. -/
  kept : ∀ p, c.markSwitch p = c.turns p → c.turns p ≠ 0 → c.marked p = none →
    c.watcher = .stamp p (c.turns p)
  knows : c.Knows c.watcher
  answers : ∀ r ∈ c.answers, r.Correct timeout

variable {timeout : Nat} {c c' : Clocked} {p : Nat}

theorem exact_initial : Clocked.initial.Exact timeout where
  links := links_initial
  ended := ended_initial
  stack := onStack_initial
  count _ := ⟨rfl, Nat.two_pow_pos 64⟩
  mark _ := Nat.le_refl 0
  entered _ := Nat.le_refl 0
  marked _ _ h := by cases h
  kept _ _ h := absurd rfl h
  knows := trivial
  answers _ h := by cases h

/-- A new turn of `p`. -/
theorem Clocked.Exact.count_some (h : c.Exact timeout) (hfew : c.turns p + 1 < 2 ^ 64) {s : State}
    {stack : Nat → Option Nat} (hlinks : Links s) (hended : Ended s) (hstack : OnStack stack s) :
    ({ c.count (some p) with scheduler := s, stack := stack } : Clocked).Exact timeout := by
  have hturns : ∀ r, (c.count (some p)).turns r = if r = p then c.turns p + 1 else c.turns r :=
    fun r => Function.update_apply ..
  have hcount : ∀ r, (c.count (some p)).switchCount r =
      if r = p then (c.switchCount p + 1) % 2 ^ 64 else c.switchCount r :=
    fun r => Function.update_apply ..
  have hentered : ∀ r, (c.count (some p)).entered r = if r = p then c.now else c.entered r :=
    fun r => Function.update_apply ..
  have hmarked : ∀ r, (c.count (some p)).marked r = if r = p then none else c.marked r :=
    fun r => Function.update_apply ..
  refine ⟨hlinks, hended, hstack, fun r => ?_, fun r => ?_, fun r => ?_, fun r tick ht => ?_,
    fun r hm hne hnone => ?_, ?_, h.answers⟩
  · show (c.count (some p)).switchCount r = (c.count (some p)).turns r ∧ _
    rw [hcount, hturns]
    split
    · rw [(h.count p).1, Nat.mod_eq_of_lt hfew]
      exact ⟨rfl, hfew⟩
    · exact h.count r
  · show c.markSwitch r ≤ (c.count (some p)).turns r
    rw [hturns]
    have hle := h.mark r
    split
    · rename_i heq
      subst heq
      omega
    · exact hle
  · show (c.count (some p)).entered r ≤ c.now
    rw [hentered]
    split
    · exact Nat.le_refl _
    · exact h.entered r
  · change (c.count (some p)).marked r = some tick at ht
    rw [hmarked] at ht
    split at ht
    · cases ht
    · rename_i hne
      show c.markSwitch r = (c.count (some p)).turns r ∧ _
      rw [hturns, if_neg hne]
      show _ ∧ _ ∧ _ ∧ (c.count (some p)).entered r ≤ tick ∧ _
      rw [hentered, if_neg hne]
      exact h.marked r tick ht
  · change c.markSwitch r = (c.count (some p)).turns r at hm
    change (c.count (some p)).turns r ≠ 0 at hne
    change (c.count (some p)).marked r = none at hnone
    show c.watcher = .stamp r ((c.count (some p)).turns r)
    rw [hturns] at hm hne ⊢
    rw [hmarked] at hnone
    split at hm
    · rename_i heq
      have hle := h.mark r
      rw [heq] at hm hle
      omega
    · rename_i hrp
      rw [if_neg hrp] at hne hnone ⊢
      exact h.kept r hm hne hnone
  · have hknows := h.knows
    show Clocked.Knows _ c.watcher
    cases hw : c.watcher with
    | idle => exact trivial
    | store r =>
      rw [hw] at hknows
      replace hknows : c.markSwitch r ≠ c.turns r := hknows
      have hle := h.mark r
      show c.markSwitch r ≠ (c.count (some p)).turns r
      rw [hturns]
      split
      · rename_i heq
        subst heq
        omega
      · exact hknows
    | stamp r turn =>
      rw [hw] at hknows
      obtain ⟨hswitch, hne, hle, hnone⟩ := hknows
      refine ⟨hswitch, hne, ?_, ?_⟩
      · show turn ≤ (c.count (some p)).turns r
        rw [hturns]
        split
        · rename_i heq
          subst heq
          omega
        · exact hle
      · show (c.count (some p)).marked r = none
        rw [hmarked]
        split
        · rfl
        · exact hnone
    | clock r marked inside entered =>
      rw [hw] at hknows
      exact hknows

/-- The dispatcher stands still, and time goes on. -/
theorem Clocked.Exact.tick (h : c.Exact timeout) (n : Nat) :
    ({ c with now := c.now + n } : Clocked).Exact timeout := by
  refine ⟨h.links, h.ended, h.stack, h.count, h.mark, fun r => ?_, fun r tick ht => ?_, h.kept, ?_,
    h.answers⟩
  · exact Nat.le_trans (h.entered r) (Nat.le_add_right ..)
  · obtain ⟨hswitch, hne, htick, hentered, hle⟩ := h.marked r tick ht
    exact ⟨hswitch, hne, htick, hentered, Nat.le_trans hle (Nat.le_add_right ..)⟩
  · have hknows := h.knows
    show Clocked.Knows _ c.watcher
    cases hw : c.watcher <;> rw [hw] at hknows <;> exact hknows

theorem Clocked.Exact.mark_step (h : c.Exact timeout) (hidle : c.watcher = .idle) (p : Nat) :
    (c.mark p).Exact timeout := by
  unfold Clocked.mark
  split
  · rename_i htest
    refine ⟨h.links, h.ended, h.stack, h.count, h.mark, h.entered, h.marked,
      fun r hm hne hnone => ?_, ?_, h.answers⟩
    · have hkept := h.kept r hm hne hnone
      rw [hidle] at hkept
      cases hkept
    · show c.markSwitch p ≠ c.turns p
      rw [← (h.count p).1]
      exact htest.2
  · exact h

/-- A turn that is not the one that has been marked. -/
theorem Clocked.Exact.unmarked (h : c.Exact timeout)
    (htest : c.markSwitch p = 0 ∨ c.markSwitch p ≠ c.switchCount p) : c.marked p = none := by
  cases hm : c.marked p with
  | none => rfl
  | some tick =>
    obtain ⟨hswitch, hne, -⟩ := h.marked p tick hm
    rw [(h.count p).1] at htest
    rcases htest with hzero | hother
    · exact absurd (hswitch.symm.trans hzero) hne
    · exact absurd hswitch hother

theorem Clocked.Exact.answer (h : c.Exact timeout) {result : Bool} {marked inside : Option Nat}
    {entered : Nat} (hr : Answer.Correct timeout ⟨p, result, marked, inside, entered, c.now⟩) :
    (c.answer p result marked inside entered).Exact timeout := by
  refine ⟨h.links, h.ended, h.stack, h.count, h.mark, h.entered, h.marked, h.kept, ?_, fun r hmem => ?_⟩
  · have hknows := h.knows
    show Clocked.Knows _ c.watcher
    cases hw : c.watcher <;> rw [hw] at hknows <;> exact hknows
  · rcases List.mem_append.1 hmem with hold | hnew
    · exact h.answers r hold
    · rw [List.mem_singleton.1 hnew]
      exact hr

theorem Clocked.Exact.isBlocking_step (h : c.Exact timeout) (hidle : c.watcher = .idle) (p : Nat) :
    (c.isBlocking p).Exact timeout := by
  unfold Clocked.isBlocking
  split
  · rename_i htest
    rw [h.unmarked htest]
    exact h.answer ⟨by simp, fun tick ht => by cases ht⟩
  · rename_i htest
    rw [not_or, Classical.not_not, (h.count p).1] at htest
    obtain ⟨hpos, hswitch⟩ := htest
    have hne : c.turns p ≠ 0 := hswitch ▸ hpos
    have hmarked : ∃ tick, c.marked p = some tick := by
      refine Option.ne_none_iff_exists'.1 fun hnone => ?_
      have hkept := h.kept p hswitch hne hnone
      rw [hidle] at hkept
      cases hkept
    obtain ⟨tick, htick⟩ := hmarked
    obtain ⟨-, -, hmark, hentered, -⟩ := h.marked p tick htick
    refine ⟨h.links, h.ended, h.stack, h.count, h.mark, h.entered, h.marked,
      fun r hm hne hnone => ?_, ?_, h.answers⟩
    · have hkept := h.kept r hm hne hnone
      rw [hidle] at hkept
      cases hkept
    · show c.marked p = some (c.markTick p) ∧ c.entered p ≤ c.markTick p
      rw [htick, hmark]
      exact ⟨rfl, hentered⟩

/-- `Mark` keeps the count. -/
theorem Clocked.Exact.store (h : c.Exact timeout) (hw : c.watcher = .store p) :
    (c.watch timeout).Exact timeout := by
  have hknows := h.knows
  rw [hw] at hknows
  replace hknows : c.markSwitch p ≠ c.turns p := hknows
  have hpos : c.turns p ≠ 0 := by
    have hle := h.mark p
    omega
  have hnone : c.marked p = none := by
    refine h.unmarked (.inr ?_)
    rw [(h.count p).1]
    exact hknows
  have hswitch : ∀ r, Function.update c.markSwitch p (c.switchCount p) r =
      if r = p then c.turns p else c.markSwitch r := by
    intro r
    rw [Function.update_apply, (h.count p).1]
  unfold Clocked.watch
  rw [hw]
  refine ⟨h.links, h.ended, h.stack, h.count, fun r => ?_, h.entered, fun r tick ht => ?_,
    fun r hm hne hnone' => ?_, ?_, h.answers⟩
  · show Function.update c.markSwitch p (c.switchCount p) r ≤ c.turns r
    rw [hswitch]
    split
    · rename_i heq
      rw [heq]
    · exact h.mark r
  · show Function.update c.markSwitch p (c.switchCount p) r = c.turns r ∧ _
    have hrp : r ≠ p := by
      rintro rfl
      rw [hnone] at ht
      cases ht
    rw [hswitch, if_neg hrp]
    exact h.marked r tick ht
  · change Function.update c.markSwitch p (c.switchCount p) r = c.turns r at hm
    show Watcher.stamp p (c.turns p) = .stamp r (c.turns r)
    rw [hswitch] at hm
    split at hm
    · rename_i heq
      rw [heq]
    · have hkept := h.kept r hm hne hnone'
      rw [hw] at hkept
      cases hkept
  · show Function.update c.markSwitch p (c.switchCount p) p = c.turns p ∧ _
    rw [hswitch, if_pos rfl]
    exact ⟨rfl, hpos, Nat.le_refl _, hnone⟩

/-- `Mark` keeps the time. -/
theorem Clocked.Exact.stamp (h : c.Exact timeout) {turn : Nat} (hw : c.watcher = .stamp p turn) :
    (c.watch timeout).Exact timeout := by
  have hknows := h.knows
  rw [hw] at hknows
  obtain ⟨hswitch, hpos, hle, hnone⟩ := hknows
  have htick : ∀ r, Function.update c.markTick p c.now r = if r = p then c.now else c.markTick r :=
    fun r => Function.update_apply ..
  have hmarked : ∀ r, (if c.turns p = turn then Function.update c.marked p (some c.now)
      else c.marked) r = if r = p ∧ c.turns p = turn then some c.now else c.marked r := by
    intro r
    by_cases heq : c.turns p = turn
    · rw [if_pos heq, Function.update_apply]
      simp only [heq, and_true]
    · rw [if_neg heq, if_neg fun hboth => heq hboth.2]
  unfold Clocked.watch
  rw [hw]
  refine ⟨h.links, h.ended, h.stack, h.count, h.mark, h.entered, fun r tick ht => ?_,
    fun r hm hne hnone' => ?_, trivial, h.answers⟩
  · change (if c.turns p = turn then _ else c.marked) r = some tick at ht
    show _ ∧ _ ∧ Function.update c.markTick p c.now r = tick ∧ _
    rw [hmarked] at ht
    rw [htick]
    split at ht
    · rename_i hboth
      obtain ⟨rfl, hturn⟩ := hboth
      cases ht
      rw [if_pos rfl]
      exact ⟨hswitch.trans hturn.symm, hturn ▸ hpos, rfl, h.entered r, Nat.le_refl _⟩
    · have hrp : r ≠ p := by
        rintro rfl
        rw [hnone] at ht
        cases ht
      rw [if_neg hrp]
      exact h.marked r tick ht
  · exfalso
    change (if c.turns p = turn then _ else c.marked) r = none at hnone'
    rw [hmarked] at hnone'
    split at hnone'
    · cases hnone'
    · rename_i hboth
      have hkept := h.kept r hm hne hnone'
      rw [hw] at hkept
      cases hkept
      exact hboth ⟨rfl, rfl⟩

/-- `IsBlocking` reads the clock. -/
theorem Clocked.Exact.clock (h : c.Exact timeout) {marked inside : Option Nat} {entered : Nat}
    (hw : c.watcher = .clock p marked inside entered) : (c.watch timeout).Exact timeout := by
  have hknows := h.knows
  rw [hw] at hknows
  obtain ⟨hmarked, hentered⟩ := hknows
  have hidle : ({ c with watcher := .idle } : Clocked).Exact timeout := by
    refine ⟨h.links, h.ended, h.stack, h.count, h.mark, h.entered, h.marked,
      fun r hm hne hnone => ?_, trivial, h.answers⟩
    have hkept := h.kept r hm hne hnone
    rw [hw] at hkept
    cases hkept
  unfold Clocked.watch
  rw [hw]
  refine hidle.answer ⟨?_, fun tick ht => ?_⟩
  · rw [hmarked]
    simp
  · rw [hmarked, Option.some.injEq] at ht
    rw [← ht]
    exact hentered

theorem Clocked.Exact.step (h : c.Exact timeout) {a : Clocked.Action} (hen : c.Enabled a)
    (hfew : c.FewSwitches a) (hs : c.step timeout a = some c') : c'.Exact timeout := by
  cases a with
  | scheduler a =>
    obtain ⟨s, hs', rfl⟩ := Option.map_eq_some_iff.1 hs
    have hlinks := h.links.step hen hs'
    have hended := h.ended.step h.links hen hs'
    have hstack := h.stack.step h.links h.ended hen hs'
    cases hsw : c.switches a with
    | some p => exact h.count_some (hfew p hsw) hlinks hended hstack
    | none => exact ⟨hlinks, hended, hstack, h.count, h.mark, h.entered, h.marked, h.kept, h.knows,
        h.answers⟩
  | tick n =>
    cases hs
    exact h.tick n
  | mark p =>
    cases hs
    exact h.mark_step hen p
  | isBlocking p =>
    cases hs
    exact h.isBlocking_step hen p
  | watcher =>
    cases hs
    cases hw : c.watcher with
    | idle => exact absurd hw hen
    | store p => exact h.store hw
    | stamp p turn => exact h.stamp hw
    | clock p marked inside entered => exact h.clock hw

/-- In every run: `IsBlocking` answers true exactly when the present turn was marked longer ago than
the timeout.  Then the turn has lasted longer than that, and so has the stay of the coroutine that
is inside, if one is: no coroutine of a later turn is blamed. -/
theorem isBlocking_exact (hr : Run (clocked timeout) Clocked.FewSwitches .initial c) :
    (∀ r ∈ c.answers, r.Correct timeout ∧ (r.result = true → r.entered + timeout < r.now)) ∧
    (∀ p tick, c.marked p = some tick → c.markTick p = tick ∧ c.entered p ≤ tick ∧ tick ≤ c.now) ∧
    ∀ p t, c.stack p = some t ↔ c.scheduler.Inside p t := by
  have h : c.Exact timeout := hr.invariant exact_initial fun _ _ _ hc hen hfew hs =>
    hc.step hen hfew hs
  refine ⟨fun r hmem => ?_, fun p tick ht => (h.marked p tick ht).2.2, h.stack⟩
  have hcorrect := h.answers r hmem
  refine ⟨hcorrect, fun htrue => ?_⟩
  obtain ⟨tick, hmarked, hlt⟩ := hcorrect.result.1 htrue
  have hle := hcorrect.entered tick hmarked
  omega

/-- A coroutine that stays inside for too long, and is done after that.  The processor waits for
another one, and is found blocked all the same. -/
theorem isBlocking_exact_waiting : ∃ c, Run (clocked 100000) Clocked.FewSwitches .initial c ∧
    (∀ r ∈ c.answers,
      r.Correct 100000 ∧ (r.result = true → r.entered + 100000 < r.now)) ∧
    c.answers.map (fun r => (r.result, r.inside)) = [(true, some 0), (true, none)] ∧
    c.scheduler.place 0 = .blocked := by
  have hexec : ((clocked 100000).exec Clocked.FewSwitches Clocked.initial
      (List.flatten [[.scheduler (.create 0)], List.replicate 8 (.scheduler (.thread 0)),
        [.mark 0, .watcher, .watcher, .tick 100001, .isBlocking 0, .watcher,
          .scheduler (.finish 0)],
        List.replicate 19 (.scheduler (.thread 0)), [.isBlocking 0, .watcher]])).any
      (fun c => decide (c.answers.map (fun r => (r.result, r.inside)) =
        [(true, some 0), (true, none)] ∧ c.scheduler.place 0 = .blocked)) := by
    decide +kernel
  obtain ⟨c, hrun, hc⟩ := Run.exists_of_exec hexec
  obtain ⟨hanswers, hplace⟩ := of_decide_eq_true hc
  exact ⟨c, hrun, (isBlocking_exact hrun).1, hanswers, hplace⟩

end Costream.Scheduler
