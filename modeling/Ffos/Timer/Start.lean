/-
Module: Ffos.Timer.Start
Purpose: `fftimer_start` of FFOS/timer.h on Linux, BSD/macOS and Windows, and the
  timer that each of them asks the operating system for.
Trusted boundary: what timerfd_settime, kevent and SetWaitableTimer take their
  arguments to mean
Main exports: Armed, fftimerStartLinux, fftimerStartBsd, fftimerStartWindows,
  same_timer_iff_periodic
-/
import Mathlib.Logic.Basic
import Mathlib.Tactic.ByContra

namespace Ffos.Timer

/-! ### What is asked of the operating system -/

/-- When a timer expires first: some nanoseconds from now, or at a fixed time. -/
inductive Expiry where
  | relative (ns : Int)
  | absolute (ns : Int)
deriving DecidableEq, Repr

/-- An armed timer: its first expiry, and the nanoseconds between repetitions. -/
structure Armed where
  first : Expiry
  every : Option Int
deriving DecidableEq, Repr

/-- The timer of a period: `|period_ms|` from now, and repeated if it is positive. -/
def Armed.ofPeriod (periodMs : BitVec 32) : Armed where
  first := .relative (periodMs.toInt.natAbs * 1000000)
  every := if 0 < periodMs.toInt then some (periodMs.toInt * 1000000) else none

/-- `struct timespec` with its two 64-bit fields. -/
structure Timespec where
  tvSec : BitVec 64
  tvNsec : BitVec 64
deriving DecidableEq, Repr

def Timespec.InRange (spec : Timespec) : Prop :=
  0 ≤ spec.tvSec.toInt ∧ 0 ≤ spec.tvNsec.toInt ∧ spec.tvNsec.toInt < 1000000000

def Timespec.ns (spec : Timespec) : Int := spec.tvSec.toInt * 1000000000 + spec.tvNsec.toInt

/-- `struct itimerspec`. -/
structure Itimerspec where
  itValue : Timespec
  itInterval : Timespec
deriving DecidableEq, Repr

/-- `timerfd_settime` with flags 0: the value is relative, and an interval of zero
means no repetition. -/
def Itimerspec.armed (its : Itimerspec) : Armed where
  first := .relative its.itValue.ns
  every := if its.itInterval.ns = 0 then none else some its.itInterval.ns

/-- The fields of `struct kevent` that `EVFILT_TIMER` reads. -/
structure Kevent where
  flags : BitVec 16
  data : BitVec 64
deriving DecidableEq, Repr

def evAdd : BitVec 16 := 0x1
def evEnable : BitVec 16 := 0x4
def evOneshot : BitVec 16 := 0x10

/-- `EVFILT_TIMER`: `data` milliseconds from now, again and again without
`EV_ONESHOT`. -/
def Kevent.armed (kev : Kevent) : Armed where
  first := .relative (kev.data.toInt * 1000000)
  every := if kev.flags &&& evOneshot = 0 then some (kev.data.toInt * 1000000) else none

/-- The due time and the period given to `SetWaitableTimer`. -/
structure WaitableTimer where
  dueNs100 : BitVec 64
  periodMs : BitVec 32
deriving DecidableEq, Repr

/-- `SetWaitableTimer`: a negative due time is relative, in units of 100 ns; any other
is an absolute time. A period of zero means no repetition. -/
def WaitableTimer.armed (timer : WaitableTimer) : Armed where
  first :=
    if timer.dueNs100.toInt < 0 then .relative (-timer.dueNs100.toInt * 100)
    else .absolute (timer.dueNs100.toInt * 100)
  every := if timer.periodMs = 0 then none else some (timer.periodMs.toInt * 1000000)

/-! ### Linux -/

/-- How the system calls of the Linux body end: `epoll_ctl` with an error, or none,
and `timerfd_settime` with its result. -/
structure LinuxOutcome where
  epollCtl : Option Nat
  settime : Int

def eexist : Nat := 17

/-- `its.it_value` of a period: `period_ms / 1000` seconds and
`(period_ms % 1000) * 1000000` nanoseconds, in 32-bit `int` arithmetic. -/
def Timespec.ofMs (periodMs : BitVec 32) : Timespec where
  tvSec := (periodMs.sdiv 1000).signExtend 64
  tvNsec := (periodMs.srem 1000 * 1000000).signExtend 64

def Timespec.zero : Timespec := { tvSec := 0, tvNsec := 0 }

/-- `fftimer_start` on Linux: the result and the `timerfd_settime` call made. -/
def fftimerStartLinux (outcome : LinuxOutcome) (periodMs : BitVec 32) :
    Int × Option Itimerspec :=
  if outcome.epollCtl ≠ none ∧ outcome.epollCtl ≠ some eexist then (-1, none)
  else
    let neg := periodMs.slt 0
    let periodMs := if neg then -periodMs else periodMs
    let itValue := Timespec.ofMs periodMs
    let itInterval := if neg then Timespec.zero else itValue
    (outcome.settime, some { itValue := itValue, itInterval := itInterval })

/-! ### BSD and macOS -/

/-- `fftimer_start` on BSD: the result, the event given to `kevent` and the byte of
the timer object after it. -/
def fftimerStartBsd (kevent : Int) (active : Nat) (periodMs : BitVec 32) :
    Int × Kevent × Nat :=
  let oneshot := periodMs.slt 0
  let f : BitVec 16 := if oneshot then evOneshot else 0
  let periodMs := if oneshot then -periodMs else periodMs
  let kev : Kevent := { flags := evAdd ||| evEnable ||| f, data := periodMs.signExtend 64 }
  if kevent ≠ 0 then (-1, kev, active) else (0, kev, 1)

/-! ### Windows -/

/-- The commands to the timer thread. -/
inductive Command where
  | exit
  | start
  | stop
deriving DecidableEq, Repr

/-- The fields of `struct _fftimer` that are not handles. -/
structure Fftimer where
  kq : BitVec 64
  data : BitVec 64
  periodMs : BitVec 32
  ctl : Command
  result : BitVec 32
deriving DecidableEq, Repr

/-- How the calls of the Windows body end: whether `SetEvent` and
`WaitForSingleObject` succeed, and the error of the timer call. -/
structure WindowsOutcome where
  setEvent : Bool
  wait : Bool
  timerError : Option (BitVec 32)

/-- A call on the waitable timer. -/
inductive TimerCall where
  | set (timer : WaitableTimer)
  | cancel
deriving DecidableEq, Repr

/-- The `switch` of `_fftimer_thread` for one command: the call that is made and
`tmr` with the result. -/
def fftimerThread (outcome : WindowsOutcome) (tmr : Fftimer) : Option TimerCall × Fftimer :=
  let r := outcome.timerError.getD 0
  match tmr.ctl with
  | .exit => (none, tmr)
  | .start =>
      let dueNs100 : BitVec 64 := tmr.periodMs.signExtend 64 * 1000 * -10
      let periodMs : BitVec 32 := if tmr.periodMs.slt 0 then 0 else tmr.periodMs
      (some (.set { dueNs100 := dueNs100, periodMs := periodMs }), { tmr with result := r })
  | .stop => (some .cancel, { tmr with result := r })

/-- `_fftimer_cmd`: the result, the call that the thread makes, and `tmr` after it. -/
def fftimerCmd (outcome : WindowsOutcome) (tmr : Fftimer) (cmd : Command) :
    BitVec 32 × Option TimerCall × Fftimer :=
  let tmr := { tmr with ctl := cmd }
  if outcome.setEvent = false then (-1, none, tmr)
  else
    let (call, tmr) := fftimerThread outcome tmr
    if cmd = .exit then (0, call, tmr)
    else if outcome.wait = false then (-1, call, tmr)
    else (tmr.result, call, tmr)

/-- `fftimer_start` on Windows. -/
def fftimerStartWindows (outcome : WindowsOutcome) (tmr : Fftimer) (kq data : BitVec 64)
    (periodMs : BitVec 32) : BitVec 32 × Option TimerCall × Fftimer :=
  fftimerCmd outcome { tmr with kq := kq, data := data, periodMs := periodMs } .start

/-! ### Every platform asks for the timer of the period -/

/-- Once the timer is registered with the kernel queue, the Linux body asks for the
timer of the period, with fields in range. -/
def LinuxAsks (periodMs : BitVec 32) : Prop :=
  ∀ outcome : LinuxOutcome, outcome.epollCtl = none ∨ outcome.epollCtl = some eexist →
    ∃ its, fftimerStartLinux outcome periodMs = (outcome.settime, some its) ∧
      its.itValue.InRange ∧ its.itInterval.InRange ∧ its.armed = Armed.ofPeriod periodMs

/-- The BSD body asks for the timer of the period. -/
def BsdAsks (periodMs : BitVec 32) : Prop :=
  ∀ kevent active, (fftimerStartBsd kevent active periodMs).2.1.armed = Armed.ofPeriod periodMs

/-- Once the timer thread is woken up, the Windows body asks for the timer of the
period. -/
def WindowsAsks (periodMs : BitVec 32) : Prop :=
  ∀ outcome tmr kq data, outcome.setEvent = true →
    ∃ timer, (fftimerStartWindows outcome tmr kq data periodMs).2.1 = some (.set timer) ∧
      timer.armed = Armed.ofPeriod periodMs

section Arithmetic

variable {periodMs : BitVec 32}

/-- `period_ms < 0`. -/
theorem slt_zero_iff : periodMs.slt 0 = true ↔ periodMs.toInt < 0 := BitVec.slt_iff_toInt_lt

theorem toInt_ne_zero (nonzero : periodMs ≠ 0) : periodMs.toInt ≠ 0 := by
  intro zero
  exact nonzero (BitVec.eq_of_toInt_eq zero)

/-- `-period_ms` for a negative period, in 32-bit arithmetic. -/
theorem abs_toInt (notMin : periodMs ≠ BitVec.intMin 32) :
    (if periodMs.slt 0 then -periodMs else periodMs).toInt = periodMs.toInt.natAbs := by
  by_cases negative : periodMs.toInt < 0
  · rw [if_pos (slt_zero_iff.mpr negative), BitVec.toInt_neg_of_ne_intMin notMin]
    omega
  · rw [if_neg (fun slt => negative (slt_zero_iff.mp slt))]
    omega

/-- Seconds and nanoseconds of a period that is not negative, without overflow. -/
theorem timespec_ofMs {abs : BitVec 32} (nonneg : 0 ≤ abs.toInt) :
    (Timespec.ofMs abs).InRange ∧ (Timespec.ofMs abs).ns = abs.toInt * 1000000 := by
  have sec : ((abs.sdiv 1000).signExtend 64).toInt = abs.toInt / 1000 := by
    rw [BitVec.toInt_signExtend_of_le (by decide),
      BitVec.toInt_sdiv_of_ne_or_ne _ _ (Or.inr (by decide)), Int.tdiv_eq_ediv_of_nonneg nonneg]
    rfl
  have nsec : ((abs.srem 1000 * 1000000).signExtend 64).toInt = abs.toInt % 1000 * 1000000 := by
    have thousand : (1000 : BitVec 32).toInt = 1000 := by decide
    have million : (1000000 : BitVec 32).toInt = 1000000 := by decide
    rw [BitVec.toInt_signExtend_of_le (by decide), BitVec.toInt_mul, BitVec.toInt_srem,
      Int.tmod_eq_emod_of_nonneg nonneg, thousand, million]
    apply Int.bmod_eq_of_le <;> omega
  constructor
  · unfold Timespec.InRange Timespec.ofMs
    rw [sec, nsec]
    omega
  · unfold Timespec.ns Timespec.ofMs
    rw [sec, nsec]
    omega

/-- The due time on Windows, without overflow. -/
theorem due_toInt (periodMs : BitVec 32) :
    (periodMs.signExtend 64 * 1000 * -10).toInt = periodMs.toInt * -10000 := by
  have low := BitVec.le_toInt periodMs
  have high : periodMs.toInt < 2 ^ 31 := BitVec.toInt_lt
  have thousand : (1000 : BitVec 64).toInt = 1000 := by decide
  have minusTen : (-10 : BitVec 64).toInt = -10 := by decide
  have product : (periodMs.signExtend 64 * 1000).toInt = periodMs.toInt * 1000 := by
    rw [BitVec.toInt_mul, BitVec.toInt_signExtend_of_le (by decide), thousand]
    apply Int.bmod_eq_of_le <;> omega
  rw [BitVec.toInt_mul, product, minusTen]
  have whole : periodMs.toInt * 1000 * -10 = periodMs.toInt * -10000 := by omega
  rw [whole]
  apply Int.bmod_eq_of_le <;> omega

end Arithmetic

/-- The Linux body is right for either sign. -/
theorem linuxAsks {periodMs : BitVec 32} (nonzero : periodMs ≠ 0)
    (notMin : periodMs ≠ BitVec.intMin 32) : LinuxAsks periodMs := by
  intro outcome registered
  have passes : ¬ (outcome.epollCtl ≠ none ∧ outcome.epollCtl ≠ some eexist) := by
    rintro ⟨notNone, notExists⟩
    exact registered.elim notNone notExists
  have notZero := toInt_ne_zero nonzero
  have abs := abs_toInt notMin
  generalize magnitude : (if periodMs.slt 0 then -periodMs else periodMs) = value at abs
  obtain ⟨inRange, ns⟩ := timespec_ofMs (show 0 ≤ value.toInt by omega)
  refine ⟨⟨Timespec.ofMs value, if periodMs.slt 0 then .zero else Timespec.ofMs value⟩, ?_,
    inRange, ?_, ?_⟩
  · rw [fftimerStartLinux, if_neg passes, ← magnitude]
  · dsimp only
    split
    · exact ⟨by decide, by decide, by decide⟩
    · exact inRange
  · by_cases negative : periodMs.toInt < 0
    · have zero : Timespec.zero.ns = 0 := by decide
      have notPositive : ¬ 0 < periodMs.toInt := by omega
      rw [if_pos (slt_zero_iff.mpr negative)]
      simp [Itimerspec.armed, Armed.ofPeriod, zero, ns, abs, notPositive]
    · have positive : 0 < periodMs.toInt := by omega
      have same : (periodMs.toInt.natAbs : Int) = periodMs.toInt := by omega
      rw [if_neg fun slt => negative (slt_zero_iff.mp slt)]
      simp [Itimerspec.armed, Armed.ofPeriod, ns, abs, positive, same, notZero]

/-- So is the BSD body. -/
theorem bsdAsks {periodMs : BitVec 32} (nonzero : periodMs ≠ 0)
    (notMin : periodMs ≠ BitVec.intMin 32) : BsdAsks periodMs := by
  intro kevent active
  have sent : (fftimerStartBsd kevent active periodMs).2.1 =
      { flags := evAdd ||| evEnable ||| (if periodMs.slt 0 then evOneshot else 0)
        data := (if periodMs.slt 0 then -periodMs else periodMs).signExtend 64 } := by
    unfold fftimerStartBsd
    dsimp only
    split <;> rfl
  have notZero := toInt_ne_zero nonzero
  have abs := abs_toInt notMin
  rw [sent, Kevent.armed, Armed.ofPeriod, BitVec.toInt_signExtend_of_le (by decide), abs]
  by_cases negative : periodMs.toInt < 0
  · have notPositive : ¬ 0 < periodMs.toInt := by omega
    have oneshot : (evAdd ||| evEnable ||| evOneshot) &&& evOneshot ≠ 0 := by decide
    rw [if_pos (slt_zero_iff.mpr negative), if_neg oneshot, if_neg notPositive]
  · have positive : 0 < periodMs.toInt := by omega
    have same : (periodMs.toInt.natAbs : Int) = periodMs.toInt := by omega
    have periodic : (evAdd ||| evEnable ||| 0) &&& evOneshot = 0 := by decide
    rw [if_neg fun slt => negative (slt_zero_iff.mp slt), if_pos periodic, if_pos positive, same]

/-- The call that the Windows body makes. -/
theorem fftimerStartWindows_call {outcome : WindowsOutcome} (woken : outcome.setEvent = true)
    (tmr : Fftimer) (kq data : BitVec 64) (periodMs : BitVec 32) :
    (fftimerStartWindows outcome tmr kq data periodMs).2.1 =
      some (.set { dueNs100 := periodMs.signExtend 64 * 1000 * -10
                   periodMs := if periodMs.slt 0 then 0 else periodMs }) := by
  unfold fftimerStartWindows fftimerCmd
  simp only [woken, Bool.true_eq_false, if_false, fftimerThread, reduceCtorEq]
  split <;> rfl

/-- The Windows body is right exactly for a positive period: for a negative one the
due time is positive, so absolute. -/
theorem windowsAsks_iff {periodMs : BitVec 32} (nonzero : periodMs ≠ 0) :
    WindowsAsks periodMs ↔ 0 < periodMs.toInt := by
  have notZero := toInt_ne_zero nonzero
  have due := due_toInt periodMs
  constructor
  · intro asks
    obtain ⟨timer, call, armed⟩ := asks ⟨true, true, none⟩ ⟨0, 0, 0, .exit, 0⟩ 0 0 rfl
    rw [fftimerStartWindows_call rfl] at call
    obtain rfl := TimerCall.set.inj (Option.some.inj call)
    by_contra notPositive
    have first := congrArg Armed.first armed
    simp only [WaitableTimer.armed, Armed.ofPeriod, due] at first
    rw [if_neg (by omega)] at first
    cases first
  · intro positive outcome tmr kq data woken
    have notNegative : ¬ periodMs.slt 0 = true := fun slt => by
      have := slt_zero_iff.mp slt
      omega
    have same : (periodMs.toInt.natAbs : Int) = periodMs.toInt := by omega
    refine ⟨_, fftimerStartWindows_call woken tmr kq data periodMs, ?_⟩
    rw [if_neg notNegative]
    simp only [WaitableTimer.armed, Armed.ofPeriod, due, same]
    rw [if_pos (by omega), if_neg nonzero, if_pos positive]
    have scaled : -(periodMs.toInt * -10000) * 100 = periodMs.toInt * 1000000 := by omega
    rw [scaled]

/-- All three bodies ask for the timer of the period if and only if the period is
positive. -/
theorem same_timer_iff_periodic {periodMs : BitVec 32} (nonzero : periodMs ≠ 0)
    (notMin : periodMs ≠ BitVec.intMin 32) :
    (LinuxAsks periodMs ∧ BsdAsks periodMs ∧ WindowsAsks periodMs) ↔ 0 < periodMs.toInt := by
  constructor
  · rintro ⟨_, _, windows⟩
    exact (windowsAsks_iff nonzero).mp windows
  · intro positive
    exact ⟨linuxAsks nonzero notMin, bsdAsks nonzero notMin,
      (windowsAsks_iff nonzero).mpr positive⟩

/-- A period of 200 ms. -/
theorem same_timer_periodic_200 :
    LinuxAsks 200 ∧ BsdAsks 200 ∧ WindowsAsks 200 :=
  (same_timer_iff_periodic (by decide) (by decide)).mpr (by decide)

/-- A single expiry after 200 ms: Linux and BSD ask for it, Windows for the absolute
time 0.2 s after its epoch. -/
theorem oneshot_absolute_on_windows :
    ¬ (LinuxAsks (-200) ∧ BsdAsks (-200) ∧ WindowsAsks (-200)) ∧
      (fftimerStartWindows ⟨true, true, none⟩ ⟨0, 0, 0, .exit, 0⟩ 0 0 (-200)).2.1 =
        some (.set ⟨2000000, 0⟩) ∧
      WaitableTimer.armed ⟨2000000, 0⟩ = ⟨.absolute 200000000, none⟩ := by
  refine ⟨?_, by decide, by decide⟩
  rintro ⟨_, _, windows⟩
  exact absurd ((windowsAsks_iff (by decide)).mp windows) (by decide)

end Ffos.Timer
