import Costream.Sync.ConditionVariable

/-!
# What `do_wait` returns

A coroutine should return `no_timeout` exactly when a call of `notify` on its entry
has returned true.  `noTimeoutLock` decides between a notifier and the waiter, but the
suspend id decides between a notifier and the timer: when the timer's `Wakeup` is
first and the notifier still gets `noTimeoutLock` before the waiter does, `notify`
returns false and the waiter returns `no_timeout`.

`Undisputed` rules out this order: the timer does not wake up a waiter whose
`noTimeoutLock` a notifier has taken, and a notifier does not take that of a waiter
which the timer has woken.
-/

namespace Costream.Sync.Entry

open Trace

/-- A call of `notify` returns true, or has returned true. -/
def Told (s : State) : Prop :=
  s.told = true ∨ ∃ caller, s.notifier = some (caller, .done true)

instance (s : State) : Decidable (Told s) :=
  decidable_of_iff (s.told = true ∨ s.notifier = some (.popper, .done true) ∨
    s.notifier = some (.posFunctor, .done true)) <| by
      refine or_congr Iff.rfl ⟨?_, ?_⟩
      · rintro (h | h)
        · exact ⟨_, h⟩
        · exact ⟨_, h⟩
      · rintro ⟨caller, h⟩
        cases caller
        · exact .inr h
        · exact .inl h

/-- The waiter returns `no_timeout` if it has been notified, and only then. -/
def Outcome (s : State) : Prop :=
  ∀ status, s.waiter = .done status → (status = .noTimeout ↔ Told s)

/-- The timer and a notifier do not both try to wake up the waiter. -/
def Undisputed (s : State) : Action → Prop
  | .fire => s.noTimeoutLock = false
  | .notifier => s.suspension = .ended → s.noTimeoutLock = false →
      s.notifier ≠ some (.popper, .lock) ∧ s.notifier ≠ some (.posFunctor, .lock)
  | _ => True

instance (s : State) (a : Action) : Decidable (Undisputed s a) := by
  cases a <;> simp only [Undisputed] <;> infer_instance

/-! ## The invariant -/

variable {s : State}

structure Judged (s : State) : Prop where
  kind : s.kind = .coroutine
  waiting : s.isWaiting = false → s.told = true
  told : Told s → s.noTimeoutLock = true
  woken : s.flags = .woken → Told s
  locked : s.flags = .suspended → s.noTimeoutLock = true →
    Told s ∨ (∃ caller, s.notifier = some (caller, .wakeup)) ∨ s.waiter = .done .timeout
  wakeup : ∀ caller, s.notifier = some (caller, .wakeup) → s.suspension = .pending
  timeout : s.waiter = .done .timeout → ¬ Told s
  noTimeout : s.waiter = .done .noTimeout → Told s

theorem Judged.outcome (h : Judged s) : Outcome s := by
  intro status hw
  cases status with
  | noTimeout => simp [h.noTimeout hw]
  | timeout => simp [h.timeout hw]

theorem Judged.initial (deadline : Bool) : Judged (Entry.initial .coroutine deadline) := by
  constructor <;> simp [Entry.initial, Told, Flags.woken, Flags.suspended]

/-- Before the waiter has suspended and while nobody wakes it, `noTimeoutLock` is
free. -/
theorem Inv.lock_free (h : Inv s) (hf : s.flags = .zero ∨ s.flags = .suspending) :
    s.noTimeoutLock = false := by
  cases hn : s.notifier with
  | none => exact (h.rest hn).1.2.2.2 hf
  | some n =>
    obtain ⟨caller, pc⟩ := n
    have hok := h.notifier caller pc hn
    cases pc <;> simp only [NotifyOk, Rest] at hok <;>
      grind [Flags.zero, Flags.suspending, Flags.waking, Flags.suspended]

/-- A step of the waiter that is not its last one. -/
theorem Judged.waiter_step (h : Judged s) {s' : State} (hkind : s'.kind = s.kind)
    (hwaiting : s'.isWaiting = s.isWaiting) (htold : s'.told = s.told)
    (hnotifier : s'.notifier = s.notifier) (hlock : s'.noTimeoutLock = s.noTimeoutLock)
    (hwoken : s'.flags = .woken → s.flags = .woken)
    (hsuspended : s'.flags = .suspended → s'.noTimeoutLock = true →
      s.flags = .suspended ∧ ∀ status, s.waiter ≠ .done status)
    (hwakeup : ∀ caller, s.notifier = some (caller, .wakeup) → s'.suspension = .pending)
    (hw : ∀ status, s'.waiter ≠ .done status) : Judged s' := by
  have hiff : Told s' ↔ Told s := by simp only [Told, htold, hnotifier]
  refine ⟨hkind.trans h.kind, ?_, ?_, ?_, ?_, ?_, ?_, ?_⟩
  · rw [hwaiting, htold]
    exact h.waiting
  · rw [hiff, hlock]
    exact h.told
  · rw [hiff]
    exact fun hf => h.woken (hwoken hf)
  · intro hf hl
    obtain ⟨hf', hw'⟩ := hsuspended hf hl
    rw [hlock] at hl
    rw [hiff, hnotifier]
    rcases h.locked hf' hl with ht | hn | hd
    · exact .inl ht
    · exact .inr (.inl hn)
    · exact absurd hd (hw' _)
  · rw [hnotifier]
    exact hwakeup
  · exact fun hd => absurd hd (hw _)
  · exact fun hd => absurd hd (hw _)

theorem Judged.waiterStep (h : Judged s) (hi : Inv s) (he : WaiterEnabled s = true) :
    Judged (waiterStep s) := by
  have hw := hi.waiter
  unfold WaiterOk at hw
  unfold WaiterEnabled at he
  unfold Entry.waiterStep
  cases hpc : s.waiter with
  | load =>
    dsimp only
    split <;> exact h.waiter_step rfl rfl rfl rfl rfl id (fun hf _ => ⟨hf, by simp [hpc]⟩) h.wakeup
      (by simp)
  | announce flag =>
    simp only [hpc] at hw ⊢
    obtain ⟨rfl, -⟩ := hw
    split
    · rename_i hf
      refine h.waiter_step rfl rfl rfl rfl rfl ?_ ?_ h.wakeup (by simp)
      · simp [hf, Flags.zero, Flags.woken]
      · simp [hf, Flags.zero, Flags.suspended]
    · exact h.waiter_step rfl rfl rfl rfl rfl id (fun hf _ => ⟨hf, by simp [hpc]⟩) h.wakeup
        (by simp)
  | spin =>
    simp only [hpc] at hw he ⊢
    have hwoken : s.flags = .woken := by
      rcases hw.1 with hf | hf | hf
      · simp [hf, Flags.zero] at he
      · simp [hf, Flags.waking] at he
      · exact hf
    have ht := h.woken hwoken
    exact ⟨h.kind, h.waiting, h.told, h.woken, fun _ _ => .inl ht, h.wakeup, by simp, fun _ => ht⟩
  | suspend flag =>
    simp only [hpc, h.kind] at hw ⊢
    obtain ⟨-, hf, -⟩ := hw
    refine h.waiter_step h.kind.symm rfl rfl rfl rfl id ?_ (fun _ _ => rfl) (by simp)
    simp [hf, flags_ne]
  | assign flag =>
    simp only [hpc] at hw ⊢
    exact h.waiter_step rfl rfl rfl rfl rfl id (fun hf _ => ⟨hf, by simp [hpc]⟩) h.wakeup (by simp)
  | publish flag =>
    simp only [hpc, h.kind] at hw ⊢
    obtain ⟨rfl, hf, -⟩ := hw
    refine h.waiter_step h.kind.symm rfl rfl rfl rfl ?_ ?_ h.wakeup (by simp)
    · simp [Flags.zero, Flags.woken]
    · simp [hi.lock_free (.inr hf)]
  | block =>
    simp only [hpc, h.kind] at hw
    cases hw.1
  | sleep =>
    simp only [h.kind]
    exact h.waiter_step h.kind.symm rfl rfl rfl rfl id (fun hf _ => ⟨hf, by simp [hpc]⟩) h.wakeup
      (by simp)
  | settle =>
    simp only [hpc] at hw ⊢
    obtain ⟨hf, -, hover, -⟩ := hw
    have hover := hover h.kind
    have hnone : ∀ caller, s.notifier ≠ some (caller, .wakeup) := fun caller hn => by
      have hp := h.wakeup caller hn
      rw [hover] at hp
      cases hp
    have hdone : ∀ status, s.waiter ≠ .done status := by simp [hpc]
    cases hl : s.noTimeoutLock with
    | true =>
      have ht : Told s := (h.locked hf hl).resolve_right fun hor => by
        rcases hor with ⟨caller, hn⟩ | hd
        · exact hnone caller hn
        · exact hdone _ hd
      exact ⟨h.kind, h.waiting, fun _ => rfl, fun _ => ht, fun _ _ => .inl ht, h.wakeup, by simp,
        fun _ => ht⟩
    | false =>
      have ht : ¬ Told s := fun ht => by simp [h.told ht] at hl
      exact ⟨h.kind, h.waiting, fun _ => rfl, h.woken, fun _ _ => .inr (.inr rfl), h.wakeup,
        fun _ => ht, by simp⟩
  | done status => simp [hpc] at he

/-- A step of the notifier after which it does not return true. -/
theorem Judged.notify_step (h : Judged s) {caller : Caller} {pc pc' : Notify}
    (hn : s.notifier = some (caller, pc)) (hpc : pc ≠ .done true) (hwakeup : pc ≠ .wakeup)
    (hpc' : pc' ≠ .done true) (hwakeup' : pc' ≠ .wakeup) {flags : Flags} {noTimeoutLock : Bool}
    (hlock : s.noTimeoutLock = true → noTimeoutLock = true)
    (hwoken : flags = .woken → s.flags = .woken)
    (hsuspended : flags = .suspended → noTimeoutLock = true →
      s.flags = .suspended ∧ s.noTimeoutLock = true) :
    Judged { s with
      flags := flags, noTimeoutLock := noTimeoutLock, notifier := some (caller, pc') } := by
  have hiff : Told { s with
      flags := flags, noTimeoutLock := noTimeoutLock, notifier := some (caller, pc') } ↔
      Told s := by
    simp [Told, hn, hpc, hpc']
  refine ⟨h.kind, h.waiting, ?_, ?_, ?_, ?_, ?_, ?_⟩
  · rw [hiff]
    exact fun ht => hlock (h.told ht)
  · rw [hiff]
    exact fun hf => h.woken (hwoken hf)
  · intro hf hl
    obtain ⟨hf', hl'⟩ := hsuspended hf hl
    rw [hiff]
    rcases h.locked hf' hl' with ht | ⟨c, hc⟩ | hd
    · exact .inl ht
    · rw [hn] at hc
      cases hc
      exact absurd rfl hwakeup
    · exact .inr (.inr hd)
  · intro c hc
    cases hc
    exact absurd rfl hwakeup'
  · rw [hiff]
    exact h.timeout
  · rw [hiff]
    exact h.noTimeout

/-- A step after which the notifier returns true. -/
theorem Judged.notified (h : Judged s) {caller : Caller}
    {flags : Flags} {suspension : Suspension} {applied : Nat} {late : Bool}
    (hlock : s.noTimeoutLock = true) (ht : s.waiter = .done .timeout → False) :
    Judged { s with
      flags := flags, suspension := suspension, applied := applied, late := late
      notifier := some (caller, .done true) } :=
  ⟨h.kind, h.waiting, fun _ => hlock, fun _ => .inr ⟨_, rfl⟩, fun _ _ => .inl (.inr ⟨_, rfl⟩),
    by simp, fun hd => absurd hd ht, fun _ => .inr ⟨_, rfl⟩⟩

theorem Judged.notifierStep (h : Judged s) (hi : Inv s) {caller : Caller} {pc : Notify}
    (hn : s.notifier = some (caller, pc)) (he : NotifierEnabled s pc = true)
    (hok : Undisputed s .notifier) : Judged (notifierStep s caller pc) := by
  have hpc := hi.notifier caller pc hn
  have hw := hi.waiter
  unfold Entry.notifierStep
  cases pc with
  | check =>
    dsimp only
    split
    · exact h.notify_step hn (by simp) (by simp) (by simp) (by simp) id id fun hf hl => ⟨hf, hl⟩
    · rename_i hwaiting
      have ht : Told s := .inl (h.waiting (by simpa using hwaiting))
      exact h.notified (h.told ht) fun hd => h.timeout hd ht
  | load =>
    dsimp only
    split <;>
    exact h.notify_step hn (by simp) (by simp) (by simp) (by simp) id id fun hf hl => ⟨hf, hl⟩
  | announce flag =>
    obtain ⟨rfl, -, -, -⟩ := hpc
    dsimp only
    split
    · rename_i hf
      refine h.notify_step hn (by simp) (by simp) (by simp) (by simp) id ?_ ?_
      · simp [hf, Flags.zero, Flags.woken]
      · simp [hf, Flags.zero, Flags.suspended]
    · exact h.notify_step hn (by simp) (by simp) (by simp) (by simp) id id fun hf hl => ⟨hf, hl⟩
  | lockDirect flag =>
    obtain ⟨rfl, hwaking, hlock, -⟩ := hpc
    dsimp only
    rw [if_neg (by simp [hlock])]
    refine h.notify_step hn (by simp) (by simp) (by simp) (by simp) (fun _ => rfl) id ?_
    simp [hwaking, Flags.waking, Flags.suspended]
  | applyDirect flag =>
    have hs : Judged { s with notifier := some (caller, .storeDirect flag) } :=
      h.notify_step hn (by simp) (by simp) (by simp) (by simp) id id fun hf hl => ⟨hf, hl⟩
    exact ⟨hs.kind, hs.waiting, hs.told, hs.woken, hs.locked, hs.wakeup, hs.timeout, hs.noTimeout⟩
  | storeDirect flag =>
    obtain ⟨rfl, hwaking, hlock, -⟩ := hpc
    refine h.notified hlock fun hd => ?_
    unfold WaiterOk at hw
    rw [hd] at hw
    rcases hw with ⟨hf, -⟩ | ⟨hf, -⟩ <;> rw [hwaking] at hf <;> cases hf
  | spin =>
    dsimp only
    split <;>
    exact h.notify_step hn (by simp) (by simp) (by simp) (by simp) id id fun hf hl => ⟨hf, hl⟩
  | lock =>
    obtain ⟨-, -, hf, -⟩ := hpc
    dsimp only
    split
    · exact h.notify_step hn (by simp) (by simp) (by simp) (by simp) id id fun hf hl => ⟨hf, hl⟩
    · rename_i hlock
      have hlock : s.noTimeoutLock = false := by simpa using hlock
      have hpending : s.suspension = .pending := by
        cases hs : s.suspension with
        | none => exact absurd hs ((hw.known hf).1 h.kind).1
        | pending => rfl
        | ended =>
          obtain ⟨hp, hq⟩ := hok hs hlock
          cases caller with
          | popper => exact absurd hn hp
          | posFunctor => exact absurd hn hq
      have ht : ¬ Told s := fun ht => by simp [h.told ht] at hlock
      have ht' : ¬ Told { s with noTimeoutLock := true, notifier := some (caller, .wakeup) } := by
        intro ht'
        rcases ht' with ht' | ⟨c, hc⟩
        · exact ht (.inl ht')
        · cases hc
      have hdone := hw.not_done_of_pending hf h.kind hpending
      exact ⟨h.kind, h.waiting, fun _ => rfl, fun hf' => absurd (hf.symm.trans hf') flags_ne.2.2.1,
        fun _ _ => .inr (.inl ⟨_, rfl⟩), fun _ _ => hpending, fun _ => ht',
        fun hd => absurd hd (hdone _)⟩
  | wakeup =>
    obtain ⟨hf, hk, hlock, -⟩ := hpc
    have hpending := h.wakeup caller hn
    dsimp only
    rw [if_pos (by simp [hpending, ((hw.known hf).1 hk).2.1])]
    exact h.notified hlock fun hd => hw.not_done_of_pending hf hk hpending _ hd
  | mutex => exact absurd hpc.2.2.2 (by simp [h.kind])
  | lockMutex => exact absurd hpc.2.2.2 (by simp [h.kind])
  | applyMutex => exact absurd hpc.2.1 (by simp [h.kind])
  | unlock result => exact absurd hpc.2.2.2 (by simp [h.kind])
  | done result => cases he

/-- A notifier comes to the entry. -/
theorem Judged.come (h : Judged s) (hn : s.notifier = none) {s' : State}
    (hiff : Told s' ↔ Told s) (hwakeup : ∀ caller, s'.notifier ≠ some (caller, .wakeup))
    (hkind : s'.kind = s.kind) (hwaiting : s'.isWaiting = s.isWaiting) (htold : s'.told = s.told)
    (hlock : s'.noTimeoutLock = s.noTimeoutLock) (hflags : s'.flags = s.flags)
    (hw : s'.waiter = s.waiter) : Judged s' := by
  refine ⟨hkind.trans h.kind, ?_, ?_, ?_, ?_, fun c hc => absurd hc (hwakeup c), ?_, ?_⟩
  · rw [hwaiting, htold]
    exact h.waiting
  · rw [hiff, hlock]
    exact h.told
  · rw [hiff, hflags]
    exact h.woken
  · rw [hiff, hflags, hlock, hw]
    intro hf hl
    rcases h.locked hf hl with ht | ⟨c, hc⟩ | hd
    · exact .inl ht
    · simp [hn] at hc
    · exact .inr (.inr hd)
  · rw [hiff, hw]
    exact h.timeout
  · rw [hiff, hw]
    exact h.noTimeout

/-- The notifier returns. -/
theorem Judged.leave (h : Judged s) {caller : Caller} {result : Bool}
    (hn : s.notifier = some (caller, .done result)) :
    Judged { s with
      isWaiting := s.isWaiting && !(caller = .posFunctor && result)
      told := s.told || result
      notifier := none } := by
  have hiff : Told { s with
      isWaiting := s.isWaiting && !(caller = .posFunctor && result)
      told := s.told || result
      notifier := none } ↔ Told s := by
    simp [Told, hn]
  refine ⟨h.kind, ?_, ?_, ?_, ?_, by simp, ?_, ?_⟩
  · intro hwaiting
    cases result with
    | true => simp
    | false => simpa using h.waiting (by simpa using hwaiting)
  · rw [hiff]
    exact h.told
  · rw [hiff]
    exact h.woken
  · rw [hiff]
    intro hf hl
    rcases h.locked hf hl with ht | ⟨c, hc⟩ | hd
    · exact .inl ht
    · simp [hn] at hc
    · exact .inr (.inr hd)
  · rw [hiff]
    exact h.timeout
  · rw [hiff]
    exact h.noTimeout

theorem Judged.step (h : Judged s) (hi : Inv s) {a : Action} (he : Enabled s a = true)
    (hok : Undisputed s a) : Judged (step s a) := by
  cases a with
  | waiter => exact h.waiterStep hi he
  | waiterAgain =>
    have hdone : ∀ status, s.waiter ≠ .done status := fun status hd => by simp [Enabled, hd] at he
    exact h.waiter_step rfl rfl rfl rfl rfl id (fun hf _ => ⟨hf, hdone⟩) h.wakeup
      (by simp [Entry.step])
  | fire =>
    have hnone : ∀ caller, s.notifier ≠ some (caller, .wakeup) := fun caller hn => by
      have hl : s.noTimeoutLock = true := (hi.notifier caller _ hn).2.2.1
      rw [show s.noTimeoutLock = false from hok] at hl
      cases hl
    exact ⟨h.kind, h.waiting, h.told, h.woken, h.locked, fun c hc => absurd hc (hnone c),
      h.timeout, h.noTimeout⟩
  | pass =>
    simp only [Enabled, Bool.and_eq_true, Option.isNone_iff_eq_none] at he
    have hiff : Told { s with passed := true, notifier := some (.posFunctor, .load) } ↔ Told s := by
      simp [Told, he.2]
    exact h.come he.2 hiff (by simp [Entry.step]) rfl rfl rfl rfl rfl rfl
  | pop =>
    simp only [Enabled, Bool.and_eq_true, Option.isNone_iff_eq_none] at he
    have hiff : Told { s with queued := false, notifier := some (.popper, .check) } ↔ Told s := by
      simp [Told, he.2]
    exact h.come he.2 hiff (by simp [Entry.step]) rfl rfl rfl rfl rfl rfl
  | evict => exact ⟨h.kind, h.waiting, h.told, h.woken, h.locked, h.wakeup, h.timeout, h.noTimeout⟩
  | notifier =>
    cases hn : s.notifier with
    | none => simp [Enabled, hn] at he
    | some n =>
      simp only [Enabled, hn] at he
      simp only [Entry.step, hn]
      exact h.notifierStep hi hn he hok
  | notifierAgain =>
    cases hn : s.notifier with
    | none => simp [Enabled, hn] at he
    | some n =>
      obtain ⟨caller, pc⟩ := n
      simp only [Entry.step, hn]
      cases pc with
      | announce flag =>
        exact h.notify_step hn (by simp) (by simp) (by simp) (by simp) id id fun hf hl => ⟨hf, hl⟩
      | _ => simp [Enabled, hn] at he
  | leave =>
    cases hn : s.notifier with
    | none => simp [Enabled, hn] at he
    | some n =>
      obtain ⟨caller, pc⟩ := n
      cases pc with
      | done result =>
        simp only [Entry.step, hn]
        exact h.leave hn
      | _ => simp [Enabled, hn] at he

theorem Judged.of_run {deadline : Bool}
    (hr : Run machine Undisputed (Entry.initial .coroutine deadline) s) : Judged s := by
  have hall : Judged s ∧ Inv s := by
    refine hr.invariant (P := fun s => Judged s ∧ Inv s)
      ⟨Judged.initial deadline, Inv.initial .coroutine deadline⟩ ?_
    rintro t a u ⟨h, hi⟩ he hok hs
    cases hs
    exact ⟨h.step hi he hok, hi.step he⟩
  exact hall.1

theorem kind_step (s : State) (a : Action) : (step s a).kind = s.kind := by
  cases a with
  | waiter =>
    simp only [step]
    unfold waiterStep
    split <;> (try split) <;> rfl
  | notifier =>
    simp only [step]
    split
    · unfold notifierStep
      split <;> (try split) <;> rfl
    · rfl
  | notifierAgain | leave =>
    simp only [step]
    split <;> rfl
  | _ => rfl

theorem kind_of_run {kind : Kind} {deadline : Bool} {ok : State → Action → Prop}
    (hr : Run machine ok (Entry.initial kind deadline) s) : s.kind = kind := by
  refine hr.invariant (P := fun s => s.kind = kind) rfl fun t a u h _ _ hs => ?_
  cases hs
  exact (kind_step t a).trans h

end Costream.Sync.Entry

namespace Costream.Sync.CondVar

open Trace

variable {s : State}

/-- In no entry do the timer and a notifier both try to wake up the waiter. -/
def Undisputed (s : State) : Action → Prop
  | .entry i a => (s.entry i).all fun e => decide (Entry.Undisputed e a)
  | _ => True

instance (s : State) (a : Action) : Decidable (Undisputed s a) := by
  cases a <;> simp only [Undisputed] <;> infer_instance

/-- In every run in which the timer and a notifier do not both try to wake up a waiter,
`do_wait` returns `no_timeout` exactly if a call of `notify` has returned true. -/
theorem wait_outcome {posDistance : Nat} (hr : Run machine Undisputed (initial posDistance) s)
    {i : Nat} {e : Entry.State} (he : s.entry i = some e) (hk : e.kind = .coroutine) :
    Entry.Outcome e := by
  obtain ⟨kind, deadline, hre⟩ := entry_run Entry.Undisputed
    (fun s i e b he hok => by simpa [Undisputed, he] using hok)
    (fun e b hb => by rcases hb with rfl | rfl | rfl | rfl <;> trivial) hr he
  obtain rfl : kind = .coroutine := (Entry.kind_of_run hre).symm.trans hk
  exact (Entry.Judged.of_run hre).outcome

/-- The timer wakes up the waiter, and nobody comes. -/
theorem wait_outcome_timeout : ∃ s e, Run machine Undisputed (initial 0) s ∧
    (s.entry 0 = some e ∧ e.kind = .coroutine) ∧ e.waiter = .done .timeout ∧
      Entry.Outcome e := by
  have hexec : (machine.exec Undisputed (initial 0)
      [.push .coroutine true true, .entry 0 .waiter, .entry 0 .waiter, .entry 0 .waiter,
        .entry 0 .waiter, .entry 0 .waiter, .entry 0 .fire, .entry 0 .waiter,
        .entry 0 .waiter]).any
      (fun s => (s.entry 0).any fun e => e.kind = .coroutine && e.waiter = .done .timeout) =
        true := by decide +kernel
  obtain ⟨s, hr, hs⟩ := Run.exists_of_exec hexec
  obtain ⟨e, he, hdone⟩ := Option.any_eq_true _ _ |>.1 hs
  have hdone : e.kind = .coroutine ∧ e.waiter = .done .timeout := by simpa using hdone
  exact ⟨s, e, hr, ⟨he, hdone.1⟩, hdone.2, wait_outcome hr he hdone.1⟩

/-- The timer is first, but a notifier has taken `noTimeoutLock` before the waiter
resumes. -/
theorem woken_by_nobody : ¬ ∀ s, Run machine anyAction (initial 0) s → ∀ i e,
    s.entry i = some e → e.kind = .coroutine → Entry.Outcome e := by
  intro hall
  have hexec : (machine.exec anyAction (initial 0)
      [.push .coroutine true true, .entry 0 .waiter, .entry 0 .waiter, .entry 0 .waiter,
        .entry 0 .waiter, .entry 0 .waiter, .entry 0 .fire, .pop, .pass, .pass,
        .entry 0 .notifier, .entry 0 .notifier, .entry 0 .notifier, .entry 0 .notifier,
        .entry 0 .notifier, .entry 0 .leave, .entry 0 .waiter, .entry 0 .waiter]).any
      (fun s => (s.entry 0).any fun e => e.kind = .coroutine && e.waiter = .done .noTimeout &&
        !decide (Entry.Told e)) = true := by decide +kernel
  obtain ⟨s, hr, hs⟩ := Run.exists_of_exec hexec
  obtain ⟨e, he, hdone⟩ := Option.any_eq_true _ _ |>.1 hs
  have hdone : (e.kind = .coroutine ∧ e.waiter = .done .noTimeout) ∧ ¬ Entry.Told e := by
    simpa using hdone
  exact hdone.2 ((hall s hr 0 e he hdone.1.1 .noTimeout hdone.1.2).1 rfl)

end Costream.Sync.CondVar
