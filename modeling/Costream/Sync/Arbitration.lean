import Costream.Sync.Entry
import Mathlib.Tactic.Common

/-!
# A functor is applied at most once, and never too late

The channels give `do_wait` a pointer into the frame of the waiter, so a functor must
not be applied to it when the waiter has returned, even though the entry of a waiter
that has timed out stays in the queue.

* A notifier that comes before the waiter has announced its suspension sets
  `wakeup_begin`; the waiter then stays in `do_wait` until it sees `wakeup_end`, and
  the functor is applied in between.
* A notifier that comes later takes `noTimeoutLock` first.  A waiter that has returned
  from a suspension has tried to take it too, so nobody gets it afterwards.  One who
  has it before wakes the coroutine in the step that applies the functor, or keeps the
  waiter out of its mutex.

`Inv` says this of every place the waiter and the notifier can be at.
-/

namespace Costream.Sync.Entry

open Trace

/-! ## The invariant -/

/-- No flag is set. -/
def Flags.zero : Flags := ⟨false, false, false, false⟩

/-- The waiter has suspended and published it. -/
def Flags.suspended : Flags := ⟨true, true, false, false⟩

/-- The waiter is suspending. -/
def Flags.suspending : Flags := ⟨true, false, false, false⟩

/-- A notifier is waking the waiter, which has not suspended. -/
def Flags.waking : Flags := ⟨false, false, true, false⟩

/-- A notifier has woken the waiter, which has not suspended. -/
def Flags.woken : Flags := ⟨false, false, true, true⟩

/-- The waiter has not begun to suspend. -/
def Awake (s : State) : Prop :=
  (s.flags = .zero ∨ s.flags = .waking ∨ s.flags = .woken) ∧ s.suspension = .none ∧
    s.coroEntry = false ∧ s.nativeThreadEntry = false ∧ s.mtx = .nobody

/-- The waiter has made itself known to those who notify. -/
def Known (s : State) : Prop :=
  (s.kind = .coroutine → s.suspension ≠ .none ∧ s.coroEntry = true ∧
    s.nativeThreadEntry = false ∧ s.mtx = .nobody) ∧
  (s.kind = .thread → s.suspension = .none ∧ s.nativeThreadEntry = true)

/-- What the place of the waiter says about the entry. -/
def WaiterOk (s : State) : Prop :=
  match s.waiter with
  | .load | .spin => Awake s
  | .announce flag => flag = .zero ∧ Awake s
  | .suspend flag => flag = .zero ∧ s.flags = .suspending ∧ s.suspension = .none ∧
      s.coroEntry = false ∧ s.nativeThreadEntry = false ∧ s.mtx = .nobody
  | .assign flag => flag = .zero ∧ s.flags = .suspending ∧ s.kind = .coroutine ∧
      s.suspension ≠ .none ∧ s.nativeThreadEntry = false ∧ s.mtx = .nobody
  | .publish flag => flag = .zero ∧ s.flags = .suspending ∧ Known s ∧
      (s.kind = .thread → s.mtx = .waiter)
  | .block => s.kind = .thread ∧ s.flags = .suspended ∧ Known s ∧ s.mtx = .waiter
  | .sleep => s.flags = .suspended ∧ Known s ∧ s.mtx ≠ .waiter
  | .settle => s.flags = .suspended ∧ Known s ∧ (s.kind = .coroutine → s.suspension = .ended) ∧
      (s.kind = .thread → s.mtx = .waiter)
  | .done status => s.flags = .woken ∧ status = .noTimeout ∧ Awake s ∨
      s.flags = .suspended ∧ Known s ∧ (s.kind = .coroutine → s.suspension = .ended) ∧
        s.mtx ≠ .waiter ∧ s.noTimeoutLock = true ∧
        ∀ caller, s.notifier ≠ some (caller, .applyMutex)

/-- No functor is being applied. -/
def Rest (s : State) : Prop :=
  s.applied ≤ 1 ∧ (s.noTimeoutLock = false → s.applied = 0 ∧ s.flags.wakeupBegin = false) ∧
    s.flags ≠ .waking ∧ (s.flags = .zero ∨ s.flags = .suspending → s.noTimeoutLock = false)

/-- What the place of a notifier says about the entry. -/
def NotifyOk (s : State) (caller : Caller) : Notify → Prop
  | .check => Rest s ∧ s.mtx ≠ .notifier ∧ caller = .popper ∧
      (s.flags = .woken → s.isWaiting = false)
  | .load => Rest s ∧ s.mtx ≠ .notifier ∧ s.flags ≠ .woken
  | .announce flag => flag = .zero ∧ Rest s ∧ s.mtx ≠ .notifier ∧ s.flags ≠ .woken
  | .lockDirect flag => flag = .zero ∧ s.flags = .waking ∧ s.noTimeoutLock = false ∧ s.applied = 0
  | .applyDirect flag => flag = .zero ∧ s.flags = .waking ∧ s.noTimeoutLock = true ∧
      s.applied = 0
  | .storeDirect flag => flag = .zero ∧ s.flags = .waking ∧ s.noTimeoutLock = true ∧
      s.applied = 1
  | .spin => Rest s ∧ s.mtx ≠ .notifier ∧ s.flags.suspendBegin = true
  | .lock => Rest s ∧ s.mtx ≠ .notifier ∧ s.flags = .suspended ∧ s.kind = .coroutine
  | .wakeup => s.flags = .suspended ∧ s.kind = .coroutine ∧ s.noTimeoutLock = true ∧
      s.applied = 0 ∧ s.mtx ≠ .notifier
  | .mutex => Rest s ∧ s.mtx ≠ .notifier ∧ s.flags = .suspended ∧ s.kind = .thread
  | .lockMutex => Rest s ∧ s.mtx = .notifier ∧ s.flags = .suspended ∧ s.kind = .thread
  | .applyMutex => s.flags = .suspended ∧ s.kind = .thread ∧ s.mtx = .notifier ∧
      s.noTimeoutLock = true ∧ s.applied = 0
  | .unlock _ => Rest s ∧ s.mtx = .notifier ∧ s.flags = .suspended ∧ s.kind = .thread
  | .done result => Rest s ∧ s.mtx ≠ .notifier ∧ (s.flags = .woken → result = true)

/-- The invariant of the entry. -/
structure Inv (s : State) : Prop where
  waiter : WaiterOk s
  notifier : ∀ caller pc, s.notifier = some (caller, pc) → NotifyOk s caller pc
  popper : ∀ pc, s.notifier = some (.popper, pc) → s.queued = false
  posFunctor : ∀ pc, s.notifier = some (.posFunctor, pc) → s.passed = true
  rest : s.notifier = none → Rest s ∧ s.mtx ≠ .notifier ∧
    (s.flags = .woken → s.queued = false ∨ s.passed = true ∧ s.isWaiting = false)
  late : s.late = false

theorem Inv.initial (kind : Kind) (deadline : Bool) : Inv (Entry.initial kind deadline) := by
  constructor <;> simp [Entry.initial, WaiterOk, Awake, Rest, Flags.zero, Flags.waking, Flags.woken]

variable {s : State}

/-- A step of the waiter that nobody else can see. -/
theorem Inv.private_step (h : Inv s) {suspension : Suspension} {coroEntry : Bool} {waiter : Waiter}
    (hw : WaiterOk { s with suspension := suspension, coroEntry := coroEntry, waiter := waiter }) :
    Inv { s with suspension := suspension, coroEntry := coroEntry, waiter := waiter } :=
  ⟨hw, h.notifier, h.popper, h.posFunctor, h.rest, h.late⟩

/-- A step of the waiter that changes the flags or the mutex, but takes nothing from
a notifier. -/
theorem Inv.public_step (h : Inv s) {s' : State} (hw : WaiterOk s')
    (hnotifier : s'.notifier = s.notifier) (hqueued : s'.queued = s.queued)
    (hpassed : s'.passed = s.passed) (hwaiting : s'.isWaiting = s.isWaiting)
    (hlate : s'.late = s.late)
    (hok : ∀ caller pc, s.notifier = some (caller, pc) → NotifyOk s caller pc →
      NotifyOk s' caller pc)
    (hrest : Rest s → s.mtx ≠ .notifier → Rest s' ∧ s'.mtx ≠ .notifier ∧
      (s'.flags = .woken → s.flags = .woken)) : Inv s' := by
  refine ⟨hw, fun caller pc hn => ?_, fun pc hn => ?_, fun pc hn => ?_, fun hn => ?_,
    hlate.trans h.late⟩
  · rw [hnotifier] at hn
    exact hok caller pc hn (h.notifier caller pc hn)
  · rw [hnotifier] at hn
    exact hqueued.trans (h.popper pc hn)
  · rw [hnotifier] at hn
    exact hpassed.trans (h.posFunctor pc hn)
  · rw [hnotifier] at hn
    obtain ⟨hr, hmtx, hwoken⟩ := h.rest hn
    obtain ⟨hr', hmtx', hwoken'⟩ := hrest hr hmtx
    refine ⟨hr', hmtx', fun hf => ?_⟩
    rw [hqueued, hpassed, hwaiting]
    exact hwoken (hwoken' hf)

/-- What the flags are good for: no two of them are the same. -/
theorem flags_ne : Flags.suspending ≠ .woken ∧ Flags.suspending ≠ .waking ∧
    Flags.suspended ≠ .woken ∧ Flags.suspended ≠ .waking ∧ Flags.suspending ≠ .suspended ∧
    Flags.zero ≠ .waking ∧ Flags.zero ≠ .woken ∧ Flags.zero ≠ .suspended ∧
    Flags.suspended ≠ .zero ∧ Flags.suspended ≠ .suspending := by
  decide

theorem Inv.waiterStep (h : Inv s) (he : WaiterEnabled s = true) : Inv (waiterStep s) := by
  have hw := h.waiter
  unfold WaiterOk at hw
  unfold WaiterEnabled at he
  unfold Entry.waiterStep
  cases hpc : s.waiter with
  | load =>
    simp only [hpc] at hw ⊢
    split
    · exact h.private_step hw
    · rename_i hflag
      refine h.private_step ⟨?_, hw⟩
      rcases hw.1 with hf | hf | hf
      · exact hf
      · exact absurd (congrArg Flags.wakeupBegin hf) hflag
      · exact absurd (congrArg Flags.wakeupBegin hf) hflag
  | announce flag =>
    simp only [hpc] at hw ⊢
    obtain ⟨rfl, hawake⟩ := hw
    split
    · rename_i hflag
      obtain ⟨-, hsusp, hcoro, hnative, hmtx⟩ := hawake
      refine h.public_step ⟨rfl, by rw [hflag]; rfl, hsusp, hcoro, hnative, hmtx⟩ rfl rfl rfl rfl
        rfl (fun caller pc _ hok => ?_) fun hr hm => ?_
      · cases pc <;>
          simp_all [NotifyOk, Rest, Flags.zero, Flags.waking, Flags.woken, Flags.suspended]
      · simp_all [Rest, Flags.zero, Flags.waking, Flags.woken]
    · exact h.private_step hawake
  | spin =>
    simp only [hpc] at hw he ⊢
    have hwoken : s.flags = .woken := by
      rcases hw.1 with hf | hf | hf
      · exact absurd (congrArg Flags.wakeupEnd hf) (by simp [he, Flags.zero])
      · exact absurd (congrArg Flags.wakeupEnd hf) (by simp [he, Flags.waking])
      · exact hf
    have hw' : WaiterOk { s with waiter := .done .noTimeout } := .inl ⟨hwoken, rfl, hw⟩
    exact h.private_step hw'
  | suspend flag =>
    simp only [hpc] at hw ⊢
    obtain ⟨rfl, hflags, hsusp, hcoro, hnative, hmtx⟩ := hw
    split
    · rename_i hk
      have hw' : WaiterOk { s with suspension := .pending, waiter := .assign .zero } :=
        ⟨rfl, hflags, hk, by simp, hnative, hmtx⟩
      exact h.private_step hw'
    · rename_i hk
      have hw' : WaiterOk { s with
          nativeThreadEntry := true, mtx := .waiter, waiter := .publish .zero } :=
        ⟨rfl, hflags, ⟨by simp [hk], fun _ => ⟨hsusp, rfl⟩⟩, fun _ => rfl⟩
      refine h.public_step hw' rfl rfl rfl rfl rfl (fun caller pc _ hok => ?_) fun hr hm =>
        ⟨hr, by simp, id⟩
      cases pc <;>
        simp_all [NotifyOk, Rest, Flags.suspending, Flags.waking, Flags.woken, Flags.suspended]
  | assign flag =>
    simp only [hpc] at hw ⊢
    obtain ⟨rfl, hflags, hk, hsusp, hnative, hmtx⟩ := hw
    have hw' : WaiterOk { s with coroEntry := true, waiter := .publish .zero } :=
      ⟨rfl, hflags, ⟨fun _ => ⟨hsusp, rfl, hnative, hmtx⟩, by simp [hk]⟩, by simp [hk]⟩
    exact h.private_step hw'
  | publish flag =>
    simp only [hpc] at hw ⊢
    obtain ⟨rfl, hflags, hknown, hmtx⟩ := hw
    refine h.public_step ?_ rfl rfl rfl rfl rfl (fun caller pc _ hok => ?_) fun hr hm => ?_
    · split
      · rename_i hk
        exact ⟨rfl, hknown, by simp [(hknown.1 hk).2.2.2]⟩
      · rename_i hk
        exact ⟨hk, rfl, hknown, hmtx hk⟩
    · cases pc <;>
        simp_all [NotifyOk, Rest, Flags.zero, Flags.suspending, Flags.waking, Flags.woken,
          Flags.suspended]
    · simp_all [Rest, Flags.suspending, Flags.waking, Flags.woken, Flags.zero]
  | block =>
    simp only [hpc] at hw ⊢
    obtain ⟨hk, hflags, hknown, hmtx⟩ := hw
    have hw' : WaiterOk { s with mtx := .nobody, waiter := .sleep } :=
      ⟨hflags, ⟨by simp [hk], hknown.2⟩, by simp⟩
    refine h.public_step hw' rfl rfl rfl rfl rfl (fun caller pc _ hok => ?_) fun hr hm =>
      ⟨hr, by simp, id⟩
    cases pc <;> simp_all [NotifyOk, Rest]
  | sleep =>
    simp only [hpc] at hw he ⊢
    obtain ⟨hflags, hknown, hmtx⟩ := hw
    split
    · rename_i hk
      simp only [hk, decide_eq_true_eq] at he
      have hw' : WaiterOk { s with waiter := .settle } :=
        ⟨hflags, hknown, fun _ => he, by simp [hk]⟩
      exact h.private_step hw'
    · rename_i hk
      simp only [hk, decide_eq_true_eq] at he
      have hw' : WaiterOk { s with mtx := .waiter, waiter := .settle } :=
        ⟨hflags, ⟨by simp [hk], hknown.2⟩, by simp [hk], fun _ => rfl⟩
      refine h.public_step hw' rfl rfl rfl rfl rfl (fun caller pc _ hok => ?_) fun hr hm =>
        ⟨hr, by simp, id⟩
      cases pc <;> simp_all [NotifyOk, Rest]
  | settle =>
    simp only [hpc] at hw ⊢
    obtain ⟨hflags, hknown, hover, hmtx⟩ := hw
    have hne : s.mtx ≠ .notifier := by
      cases hk : s.kind with
      | coroutine => simp [(hknown.1 hk).2.2.2]
      | thread => simp [hmtx hk]
    have hfunctor : ∀ caller, s.notifier ≠ some (caller, .applyMutex) := fun caller hn =>
      hne (h.notifier caller _ hn).2.2.1
    have hmtx' : unlocked s = .nobody := by
      unfold unlocked
      split
      · rename_i hk
        exact (hknown.1 hk).2.2.2
      · rfl
    rw [hmtx']
    have hw' : WaiterOk { s with
        noTimeoutLock := true, mtx := .nobody
        waiter := .done (if s.noTimeoutLock then .noTimeout else .timeout) } :=
      .inr ⟨hflags, ⟨fun hk => ⟨(hknown.1 hk).1, (hknown.1 hk).2.1, (hknown.1 hk).2.2.1, rfl⟩,
        hknown.2⟩, hover, by simp, rfl, hfunctor⟩
    refine h.public_step hw' rfl rfl rfl rfl rfl (fun caller pc _ hok => ?_) fun hr hm => ?_
    · cases pc <;> simp_all [NotifyOk, Rest, flags_ne]
    · simp_all [Rest, flags_ne]
  | done status => simp [hpc] at he

/-- The flags are in one of five states, which the place of the waiter narrows
down. -/
theorem WaiterOk.flags (h : WaiterOk s) : s.flags = .zero ∨ s.flags = .waking ∨
    s.flags = .woken ∨ s.flags = .suspending ∨ s.flags = .suspended := by
  unfold WaiterOk at h
  cases hpc : s.waiter <;> simp only [hpc] at h <;> grind [Awake]

/-- A waiter that has not announced its suspension. -/
theorem WaiterOk.awake (h : WaiterOk s) (hf : s.flags = .zero ∨ s.flags = .waking) {flags : Flags}
    (hflags : flags = .zero ∨ flags = .waking ∨ flags = .woken)
    {noTimeoutLock : Bool} {notifier : Option (Caller × Notify)} :
    WaiterOk { s with
      flags := flags, noTimeoutLock := noTimeoutLock, notifier := notifier } := by
  have hne : s.flags ≠ .suspending ∧ s.flags ≠ .suspended ∧ s.flags ≠ .woken := by
    rcases hf with hf | hf <;> simp [hf, Flags.zero, Flags.waking, Flags.suspending,
      Flags.suspended, Flags.woken]
  unfold WaiterOk at h ⊢
  cases hpc : s.waiter <;> simp_all [Awake]

/-- A waiter that has published its suspension. -/
theorem WaiterOk.known (h : WaiterOk s) (hf : s.flags = .suspended) : Known s := by
  unfold WaiterOk at h
  cases hpc : s.waiter <;> simp_all [Awake, flags_ne]

/-- A step of a notifier that the waiter cannot see. -/
theorem WaiterOk.frame (h : WaiterOk s) {noTimeoutLock : Bool} {notifier : Option (Caller × Notify)}
    (hlock : s.noTimeoutLock = true → noTimeoutLock = true)
    (hpc : ∀ caller, notifier ≠ some (caller, .applyMutex)) :
    WaiterOk { s with noTimeoutLock := noTimeoutLock, notifier := notifier } := by
  unfold WaiterOk at h ⊢
  cases hw : s.waiter with
  | done status =>
    simp only [hw] at h ⊢
    rcases h with h | ⟨hflags, hknown, hover, hmtx, hl, -⟩
    · exact .inl h
    · exact .inr ⟨hflags, hknown, hover, hmtx, hlock hl, hpc⟩
  | _ =>
    simp only [hw] at h ⊢
    exact h

/-- A suspension that is not over is the one the waiter is in. -/
theorem WaiterOk.ended (h : WaiterOk s) (hs : s.suspension = .pending) :
    WaiterOk { s with suspension := .ended } := by
  unfold WaiterOk at h ⊢
  cases hw : s.waiter <;> simp only [hw] at h ⊢ <;> grind [Awake, Known]

/-- Whoever waits on the suspension has not returned. -/
theorem WaiterOk.not_done_of_pending (h : WaiterOk s) (hf : s.flags = .suspended)
    (hk : s.kind = .coroutine) (hs : s.suspension = .pending) (status : Status) :
    s.waiter ≠ .done status := by
  intro hw
  unfold WaiterOk at h
  simp_all [flags_ne]

/-- While it is being woken early, the waiter has not locked anything. -/
theorem WaiterOk.mtx_of_waking (h : WaiterOk s) (hf : s.flags = .waking) : s.mtx = .nobody := by
  unfold WaiterOk at h
  cases hw : s.waiter <;> simp only [hw] at h <;>
    grind [Awake, Flags.waking, Flags.woken, Flags.suspending, Flags.suspended]

/-- While the waiter sleeps or is gone, its mutex is free for others. -/
theorem WaiterOk.mutex (h : WaiterOk s) (hf : s.flags = .suspended) (hk : s.kind = .thread)
    (hm : s.mtx ≠ .waiter) {mtx : Holder} (hm' : mtx ≠ .waiter)
    {notifier : Option (Caller × Notify)}
    (hpc : ∀ caller, notifier ≠ some (caller, .applyMutex)) :
    WaiterOk { s with mtx := mtx, notifier := notifier } := by
  unfold WaiterOk at h ⊢
  cases hw : s.waiter <;> simp_all [Awake, Known, flags_ne]

/-! ## The steps of a notifier -/

/-- A step of a notifier that stays at the entry. -/
theorem Inv.notify_step (h : Inv s) {caller : Caller} {pc pc' : Notify}
    (hn : s.notifier = some (caller, pc)) {s' : State} (hn' : s'.notifier = some (caller, pc'))
    (hqueued : s'.queued = s.queued) (hpassed : s'.passed = s.passed) (hw : WaiterOk s')
    (hok : NotifyOk s' caller pc') (hlate : s'.late = false) : Inv s' := by
  refine ⟨hw, fun c p hc => ?_, fun p hc => ?_, fun p hc => ?_, fun hc => ?_, hlate⟩
  · rw [hn'] at hc
    cases hc
    exact hok
  · rw [hn'] at hc
    cases hc
    exact hqueued.trans (h.popper pc hn)
  · rw [hn'] at hc
    cases hc
    exact hpassed.trans (h.posFunctor pc hn)
  · rw [hn'] at hc
    cases hc

/-- A functor is applied while the waiter is in `do_wait`. -/
theorem late_apply (hl : s.late = false) (hw : ∀ status, s.waiter ≠ .done status) :
    (apply s).late = false := by
  unfold apply
  cases hpc : s.waiter with
  | done status => exact absurd hpc (hw status)
  | _ => simp [hl]

section Places

variable {caller : Caller}

/-- A step to another place that changes nothing else. -/
theorem Inv.move (h : Inv s) {pc pc' : Notify} (hn : s.notifier = some (caller, pc))
    (hpc : pc' ≠ .applyMutex)
    (hok : NotifyOk { s with notifier := some (caller, pc') } caller pc') :
    Inv { s with notifier := some (caller, pc') } := by
  have hw : WaiterOk { s with notifier := some (caller, pc') } := by
    refine h.waiter.frame id fun caller' heq => ?_
    cases heq
    exact hpc rfl
  exact h.notify_step hn rfl rfl rfl hw hok h.late

/-- The flags before a suspension begins, if nobody wakes the waiter. -/
theorem WaiterOk.zero (h : WaiterOk s) (hrest : Rest s) (hwoken : s.flags ≠ .woken)
    (hbegin : ¬ s.flags.suspendBegin = true) : s.flags = .zero := by
  rcases h.flags with hf | hf | hf | hf | hf
  · exact hf
  · exact absurd hf hrest.2.2.1
  · exact absurd hf hwoken
  · exact absurd (congrArg Flags.suspendBegin hf) hbegin
  · exact absurd (congrArg Flags.suspendBegin hf) hbegin

theorem WaiterOk.suspended (h : WaiterOk s) (hbegin : s.flags.suspendBegin = true)
    (hend : s.flags.suspendEnd = true) : s.flags = .suspended := by
  rcases h.flags with hf | hf | hf | hf | hf
  · simp [hf, Flags.zero] at hbegin
  · simp [hf, Flags.waking] at hbegin
  · simp [hf, Flags.woken] at hbegin
  · simp [hf, Flags.suspending] at hend
  · exact hf

/-- While it is being woken early, the waiter has not returned. -/
theorem WaiterOk.not_done_of_waking (h : WaiterOk s) (hf : s.flags = .waking) (status : Status) :
    s.waiter ≠ .done status := by
  intro hdone
  unfold WaiterOk at h
  rw [hdone] at h
  rcases h with ⟨hwoken, -⟩ | ⟨hsuspended, -⟩
  · rw [hf] at hwoken
    cases hwoken
  · rw [hf] at hsuspended
    cases hsuspended

/-- A waiter that is a thread does not return while a functor is applied under its mutex. -/
theorem WaiterOk.not_done_of_applying (h : WaiterOk s) (hf : s.flags = .suspended)
    (hn : s.notifier = some (caller, .applyMutex)) (status : Status) :
    s.waiter ≠ .done status := by
  intro hdone
  unfold WaiterOk at h
  rw [hdone] at h
  rcases h with ⟨hwoken, -⟩ | ⟨-, -, -, -, -, hfunctor⟩
  · rw [hf] at hwoken
    cases hwoken
  · exact hfunctor caller hn

/-- What `apply` leaves when no functor was applied before. -/
theorem rest_apply (happlied : s.applied = 0) (hlock : s.noTimeoutLock = true)
    (hf : s.flags = .suspended) : Rest (apply s) :=
  ⟨by simp [apply, happlied], by simp [apply, hlock], by simp [apply, hf, flags_ne],
    by simp [apply, hf, flags_ne]⟩

/-- The places of a wakeup that comes before the suspension. -/
theorem Inv.announce (h : Inv s) {flag : Flags} (hn : s.notifier = some (caller, .announce flag)) :
    Inv (Entry.notifierStep s caller (.announce flag)) := by
  obtain ⟨rfl, hrest, hmtx, hwoken⟩ := h.notifier caller _ hn
  unfold Entry.notifierStep
  dsimp only
  split
  · rename_i hzero
    have hlock : s.noTimeoutLock = false := hrest.2.2.2 (.inl hzero)
    have hwaking : { s.flags with wakeupBegin := true } = Flags.waking := by
      rw [hzero]
      rfl
    rw [hwaking]
    have hnext : NotifyOk { s with flags := .waking, notifier := some (caller, .lockDirect .zero) }
        caller (.lockDirect .zero) := ⟨rfl, rfl, hlock, (hrest.2.1 hlock).1⟩
    exact h.notify_step hn rfl rfl rfl (h.waiter.awake (.inl hzero) (.inr (.inl rfl))) hnext h.late
  · exact h.move hn (by simp) ⟨hrest, hmtx, hwoken⟩

theorem Inv.applyDirect (h : Inv s) {flag : Flags}
    (hn : s.notifier = some (caller, .applyDirect flag)) :
    Inv (Entry.notifierStep s caller (.applyDirect flag)) := by
  obtain ⟨rfl, hwaking, hlock, happlied⟩ := h.notifier caller _ hn
  have hlate : (apply s).late = false := late_apply h.late (h.waiter.not_done_of_waking hwaking)
  have hnext : NotifyOk { apply s with notifier := some (caller, .storeDirect .zero) }
      caller (.storeDirect .zero) := ⟨rfl, hwaking, hlock, by simp [apply, happlied]⟩
  have hw' : WaiterOk { apply s with notifier := some (caller, .storeDirect .zero) } :=
    h.waiter.frame id (by simp)
  exact h.notify_step hn rfl rfl rfl hw' hnext hlate

theorem Inv.storeDirect (h : Inv s) {flag : Flags}
    (hn : s.notifier = some (caller, .storeDirect flag)) :
    Inv (Entry.notifierStep s caller (.storeDirect flag)) := by
  obtain ⟨rfl, hwaking, hlock, happlied⟩ := h.notifier caller _ hn
  have hmtx : s.mtx = .nobody := h.waiter.mtx_of_waking hwaking
  have hnext : NotifyOk { s with flags := .woken, notifier := some (caller, .done true) } caller
      (.done true) :=
    ⟨⟨by simp [happlied], by simp [hlock], by simp [Flags.woken, Flags.waking],
      by simp [Flags.woken, Flags.zero, Flags.suspending]⟩, by simp [hmtx], fun _ => rfl⟩
  exact h.notify_step hn rfl rfl rfl (h.waiter.awake (.inr hwaking) (.inr (.inr rfl))) hnext h.late

/-- The suspension has been published: the entry is that of a thread or of a task. -/
theorem Inv.spin (h : Inv s) (hn : s.notifier = some (caller, .spin))
    (he : NotifierEnabled s .spin = true) : Inv (Entry.notifierStep s caller .spin) := by
  obtain ⟨hrest, hmtx, hbegin⟩ := h.notifier caller _ hn
  have hflags : s.flags = .suspended := h.waiter.suspended hbegin he
  have hknown := h.waiter.known hflags
  unfold Entry.notifierStep
  dsimp only
  split
  · rename_i hnative
    have hk : s.kind = .thread := by
      cases hk : s.kind with
      | coroutine => simp [(hknown.1 hk).2.2.1] at hnative
      | thread => rfl
    exact h.move hn (by simp) ⟨hrest, hmtx, hflags, hk⟩
  · rename_i hnative
    have hk : s.kind = .coroutine := by
      cases hk : s.kind with
      | coroutine => rfl
      | thread => exact absurd (hknown.2 hk).2 hnative
    exact h.move hn (by simp) ⟨hrest, hmtx, hflags, hk⟩

/-- The places of a wakeup of a task. -/
theorem Inv.lock (h : Inv s) (hn : s.notifier = some (caller, .lock)) :
    Inv (Entry.notifierStep s caller .lock) := by
  obtain ⟨hrest, hmtx, hflags, hk⟩ := h.notifier caller _ hn
  unfold Entry.notifierStep
  dsimp only
  split
  · exact h.move hn (by simp)
      ⟨hrest, hmtx, fun hf => absurd (hflags.symm.trans hf) flags_ne.2.2.1⟩
  · rename_i hlock
    have happlied := (hrest.2.1 (by simpa using hlock)).1
    have hnext : NotifyOk { s with noTimeoutLock := true, notifier := some (caller, .wakeup) }
        caller .wakeup := ⟨hflags, hk, rfl, happlied, hmtx⟩
    exact h.notify_step hn rfl rfl rfl (h.waiter.frame (fun _ => rfl) (by simp)) hnext h.late

theorem Inv.wakeup (h : Inv s) (hn : s.notifier = some (caller, .wakeup)) :
    Inv (Entry.notifierStep s caller .wakeup) := by
  obtain ⟨hflags, hk, hlock, happlied, hmtx⟩ := h.notifier caller _ hn
  unfold Entry.notifierStep
  dsimp only
  split
  · rename_i hpending
    simp only [Bool.and_eq_true, decide_eq_true_eq] at hpending
    have hlate : (apply s).late = false :=
      late_apply h.late (h.waiter.not_done_of_pending hflags hk hpending.2)
    have hnext : NotifyOk { apply s with
        suspension := .ended, notifier := some (caller, .done true) } caller (.done true) :=
      ⟨rest_apply happlied hlock hflags, hmtx, fun _ => rfl⟩
    have hw' : WaiterOk { apply s with
        suspension := .ended, notifier := some (caller, .done true) } :=
      (h.waiter.ended hpending.2).frame id (by simp)
    exact h.notify_step hn rfl rfl rfl hw' hnext hlate
  · have hrest : Rest s :=
      ⟨by simp [happlied], by simp [hlock], by simp [hflags, flags_ne], by simp [hflags, flags_ne]⟩
    exact h.move hn (by simp)
      ⟨hrest, hmtx, fun hf => absurd (hflags.symm.trans hf) flags_ne.2.2.1⟩

/-- The places of a wakeup of a thread. -/
theorem Inv.lockMutex (h : Inv s) (hn : s.notifier = some (caller, .lockMutex)) :
    Inv (Entry.notifierStep s caller .lockMutex) := by
  obtain ⟨hrest, hmtx, hflags, hk⟩ := h.notifier caller _ hn
  unfold Entry.notifierStep
  dsimp only
  split
  · exact h.move hn (by simp) ⟨hrest, hmtx, hflags, hk⟩
  · rename_i hlock
    have hlock : s.noTimeoutLock = false := by simpa using hlock
    have hnext : NotifyOk { s with noTimeoutLock := true, notifier := some (caller, .applyMutex) }
        caller .applyMutex := ⟨hflags, hk, hmtx, rfl, (hrest.2.1 hlock).1⟩
    have hw := h.waiter
    have hw' : WaiterOk { s with
        noTimeoutLock := true, notifier := some (caller, .applyMutex) } := by
      unfold WaiterOk at hw ⊢
      cases hpc : s.waiter <;> simp_all [Awake, Known, flags_ne]
    exact h.notify_step hn rfl rfl rfl hw' hnext h.late

theorem Inv.applyMutex (h : Inv s) (hn : s.notifier = some (caller, .applyMutex)) :
    Inv (Entry.notifierStep s caller .applyMutex) := by
  obtain ⟨hflags, hk, hmtx, hlock, happlied⟩ := h.notifier caller _ hn
  have hlate : (apply s).late = false :=
    late_apply h.late (h.waiter.not_done_of_applying hflags hn)
  have hnext : NotifyOk { apply s with notifier := some (caller, .unlock true) } caller
      (.unlock true) := ⟨rest_apply happlied hlock hflags, hmtx, hflags, hk⟩
  have hw' : WaiterOk { apply s with notifier := some (caller, .unlock true) } :=
    h.waiter.frame id (by simp)
  exact h.notify_step hn rfl rfl rfl hw' hnext hlate

theorem Inv.notifierStep (h : Inv s) {pc : Notify} (hn : s.notifier = some (caller, pc))
    (he : NotifierEnabled s pc = true) : Inv (notifierStep s caller pc) := by
  have hok := h.notifier caller pc hn
  cases pc with
  | check =>
    obtain ⟨hrest, hmtx, -, hwoken⟩ := hok
    unfold Entry.notifierStep
    dsimp only
    split
    · rename_i hwaiting
      exact h.move hn (by simp)
        ⟨hrest, hmtx, fun hf => by simp [hwaiting] at hwoken; exact hwoken hf⟩
    · exact h.move hn (by simp) ⟨hrest, hmtx, fun _ => rfl⟩
  | load =>
    obtain ⟨hrest, hmtx, hwoken⟩ := hok
    unfold Entry.notifierStep
    dsimp only
    split
    · rename_i hbegin
      exact h.move hn (by simp) ⟨hrest, hmtx, hbegin⟩
    · rename_i hbegin
      exact h.move hn (by simp) ⟨h.waiter.zero hrest hwoken hbegin, hrest, hmtx, hwoken⟩
  | announce flag => exact h.announce hn
  | lockDirect flag =>
    obtain ⟨rfl, hwaking, hlock, happlied⟩ := hok
    unfold Entry.notifierStep
    dsimp only
    rw [if_neg (by simp [hlock])]
    have hnext : NotifyOk { s with
        noTimeoutLock := true, notifier := some (caller, .applyDirect .zero) }
        caller (.applyDirect .zero) := ⟨rfl, hwaking, rfl, happlied⟩
    exact h.notify_step hn rfl rfl rfl (h.waiter.frame (fun _ => rfl) (by simp)) hnext h.late
  | applyDirect flag => exact h.applyDirect hn
  | storeDirect flag => exact h.storeDirect hn
  | spin => exact h.spin hn he
  | lock => exact h.lock hn
  | wakeup => exact h.wakeup hn
  | mutex =>
    obtain ⟨hrest, hmtx, hflags, hk⟩ := hok
    have hfree : s.mtx = .nobody := by simpa [NotifierEnabled] using he
    have hnext : NotifyOk { s with mtx := .notifier, notifier := some (caller, .lockMutex) } caller
        .lockMutex := ⟨hrest, rfl, hflags, hk⟩
    exact h.notify_step hn rfl rfl rfl
      (h.waiter.mutex hflags hk (by simp [hfree]) (by simp) (by simp)) hnext h.late
  | lockMutex => exact h.lockMutex hn
  | applyMutex => exact h.applyMutex hn
  | unlock result =>
    obtain ⟨hrest, hmtx, hflags, hk⟩ := hok
    have hnext : NotifyOk { s with mtx := .nobody, notifier := some (caller, .done result) } caller
        (.done result) :=
      ⟨hrest, by simp, fun hf => absurd (hflags.symm.trans hf) flags_ne.2.2.1⟩
    exact h.notify_step hn rfl rfl rfl
      (h.waiter.mutex hflags hk (by simp [hmtx]) (by simp) (by simp)) hnext h.late
  | done result => cases he

end Places

/-! ## Every step -/

/-- The notifier has left, or another one comes. -/
theorem Inv.step (h : Inv s) {a : Action} (he : Enabled s a = true) : Inv (step s a) := by
  cases a with
  | waiter => exact h.waiterStep he
  | waiterAgain =>
    have hw := h.waiter
    unfold WaiterOk at hw
    cases hpc : s.waiter with
    | announce flag =>
      rw [hpc] at hw
      have hw' : WaiterOk { s with waiter := .load } := hw.2
      exact h.private_step hw'
    | _ => simp [Enabled, hpc] at he
  | fire =>
    simp only [Enabled, Bool.and_eq_true, decide_eq_true_eq] at he
    exact h.private_step (h.waiter.ended he.2)
  | pass =>
    simp only [Enabled, Bool.and_eq_true, Bool.not_eq_true', Option.isNone_iff_eq_none] at he
    obtain ⟨⟨hqueued, hpassed⟩, hnone⟩ := he
    obtain ⟨hrest, hmtx, hwoken⟩ := h.rest hnone
    have hload : s.flags ≠ .woken := by
      intro hf
      rcases hwoken hf with hq | ⟨hp, -⟩
      · simp [hqueued] at hq
      · simp [hpassed] at hp
    have hw' : WaiterOk { s with passed := true, notifier := some (.posFunctor, .load) } :=
      h.waiter.frame id (by simp)
    refine ⟨hw', fun c p hc => ?_, fun p hc => ?_, fun _ _ => rfl, fun hc => ?_, h.late⟩
    · cases hc
      exact ⟨hrest, hmtx, hload⟩
    · cases hc
    · cases hc
  | pop =>
    simp only [Enabled, Bool.and_eq_true, Option.isNone_iff_eq_none] at he
    obtain ⟨hqueued, hnone⟩ := he
    obtain ⟨hrest, hmtx, hwoken⟩ := h.rest hnone
    have hw' : WaiterOk { s with queued := false, notifier := some (.popper, .check) } :=
      h.waiter.frame id (by simp)
    refine ⟨hw', fun c p hc => ?_, fun _ _ => rfl, fun p hc => ?_, fun hc => ?_, h.late⟩
    · cases hc
      refine ⟨hrest, hmtx, rfl, fun hf => ?_⟩
      rcases hwoken hf with hq | ⟨-, hw⟩
      · simp [hqueued] at hq
      · exact hw
    · cases hc
    · cases hc
  | evict =>
    simp only [Enabled, Bool.and_eq_true, Option.isNone_iff_eq_none] at he
    obtain ⟨hrest, hmtx, -⟩ := h.rest he.2
    exact ⟨h.waiter, h.notifier, fun _ _ => rfl, h.posFunctor,
      fun _ => ⟨hrest, hmtx, fun _ => .inl rfl⟩, h.late⟩
  | notifier =>
    cases hn : s.notifier with
    | none => simp [Enabled, hn] at he
    | some n =>
      simp only [Enabled, hn] at he
      simp only [Entry.step, hn]
      exact h.notifierStep hn he
  | notifierAgain =>
    cases hn : s.notifier with
    | none => simp [Enabled, hn] at he
    | some n =>
      obtain ⟨caller, pc⟩ := n
      simp only [Entry.step, hn]
      cases pc with
      | announce flag =>
        obtain ⟨-, hrest, hmtx, hwoken⟩ := h.notifier caller _ hn
        have hload : NotifyOk { s with notifier := some (caller, .load) } caller .load :=
          ⟨hrest, hmtx, hwoken⟩
        exact h.notify_step hn rfl rfl rfl (h.waiter.frame id (by simp)) hload h.late
      | _ => simp [Enabled, hn] at he
  | leave =>
    cases hn : s.notifier with
    | none => simp [Enabled, hn] at he
    | some n =>
      obtain ⟨caller, pc⟩ := n
      cases pc with
      | done result =>
        obtain ⟨hrest, hmtx, hresult⟩ := h.notifier caller _ hn
        simp only [Entry.step, hn]
        refine ⟨h.waiter.frame id (by simp), fun c p hc => ?_, fun p hc => ?_, fun p hc => ?_,
          fun _ => ⟨hrest, hmtx, fun hf => ?_⟩, h.late⟩
        · cases hc
        · cases hc
        · cases hc
        · cases caller with
          | popper => exact .inl (h.popper _ hn)
          | posFunctor => exact .inr ⟨h.posFunctor _ hn, by simp [hresult hf]⟩
      | _ => simp [Enabled, hn] at he

theorem Inv.of_run {kind : Kind} {deadline : Bool}
    (hr : Run machine anyAction (Entry.initial kind deadline) s) : Inv s := by
  refine hr.invariant (Inv.initial kind deadline) fun t a u h he _ hs => ?_
  cases hs
  exact h.step he

/-- The functor has been applied at most once, whatever the notifier is doing. -/
theorem Inv.applied_le (h : Inv s) : s.applied ≤ 1 := by
  cases hn : s.notifier with
  | none => exact (h.rest hn).1.1
  | some n =>
    obtain ⟨caller, pc⟩ := n
    have hok := h.notifier caller pc hn
    cases pc <;> simp_all [NotifyOk, Rest]

end Costream.Sync.Entry
