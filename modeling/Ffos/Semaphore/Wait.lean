/-
Module: Ffos.Semaphore.Wait
Purpose: `ffsem_wait` of FFOS/semaphore.h on Linux/BSD and `ffthread_join` of
  FFOS/thread.h, with the deadlines that they compute.
Trusted boundary: the results of sem_trywait, sem_wait, sem_timedwait, the pthread
  calls and clock_gettime are inputs
Main exports: ffsemWait, fftimespecAddms, ffthreadJoin, ffsemWait_deadline_iff
-/
import Ffos.Timer.Start
import Mathlib.Algebra.Group.Int.Defs
import Mathlib.Algebra.Group.Nat.Defs

namespace Ffos.Semaphore

open Timer (Timespec)

/-! ### Calls and their results -/

/-- The values of `errno` that the code tells apart. -/
inductive Errno where
  | einval
  | eagain
  | eintr
  | etimedout
  | ebusy
  | other (code : Nat)
deriving DecidableEq, Repr

/-- `struct _ffsem`: a named semaphore has `psem`, an unnamed one is at `sem`. -/
structure Ffsem where
  psem : Option (BitVec 64)
  sem : BitVec 64
deriving DecidableEq, Repr

/-- `(sem->psem != NULL) ? sem->psem : &sem->sem`. -/
def Ffsem.target (sem : Ffsem) : BitVec 64 := sem.psem.getD sem.sem

inductive Call where
  | trywait (s : BitVec 64)
  | wait (s : BitVec 64)
  | timedwait (s : BitVec 64) (deadline : Timespec)
deriving DecidableEq, Repr

/-- How a call ends: with 0, or with -1 and `errno`. -/
abbrev Outcome := Option Errno

/-- The body `do { r = call } while (r != 0 && errno == EINTR)`: the calls made, and
the outcome of the last one unless it has not returned yet. -/
def untilNotInterrupted (call : Call) : List Outcome → List Call × Option Outcome
  | [] => ([call], none)
  | outcome :: rest =>
      if outcome = some .eintr then
        let (calls, last) := untilNotInterrupted call rest
        (call :: calls, last)
      else ([call], some outcome)

/-! ### The deadlines -/

/-- `ts` of `ffsem_wait` after the two additions. -/
def semDeadline (ts : Timespec) (timeMs : BitVec 32) : Timespec where
  tvSec := ts.tvSec + (timeMs / 1000).zeroExtend 64
  tvNsec := ts.tvNsec + (timeMs % 1000 * 1000 * 1000).zeroExtend 64

/-- `_fftimespec_addms`. -/
def fftimespecAddms (ts : Timespec) (ms : BitVec 64) : Timespec :=
  let ts : Timespec :=
    { tvSec := ts.tvSec + ms / 1000, tvNsec := ts.tvNsec + ms % 1000 * 1000 * 1000 }
  if BitVec.sle 1000000000 ts.tvNsec then
    { tvSec := ts.tvSec + 1, tvNsec := ts.tvNsec - 1000000000 }
  else ts

/-- `ffsem_wait` on Linux/BSD, at the time `clock` and with the given outcomes of the
calls. -/
def ffsemWait (sem : Option Ffsem) (timeMs : BitVec 32) (clock : Timespec)
    (outcomes : List Outcome) : List Call × Option Outcome :=
  match sem with
  | none => ([], some (some .einval))
  | some sem =>
      let s := sem.target
      if timeMs = 0 then
        ([.trywait s], outcomes.head?.map fun outcome =>
          if outcome = some .eagain then some .etimedout else outcome)
      else if timeMs = -1 then untilNotInterrupted (.wait s) outcomes
      else untilNotInterrupted (.timedwait s (semDeadline clock timeMs)) outcomes

/-- The call that `ffthread_join` makes. -/
inductive JoinCall where
  | join (t : BitVec 64)
  | tryjoin (t : BitVec 64)
  | timedjoin (t : BitVec 64) (deadline : Timespec)
deriving DecidableEq, Repr

/-- `ffthread_join` where `pthread_timedjoin_np` exists; `linux` has
`pthread_tryjoin_np` too. The call returns an error, or the result of the thread. -/
def ffthreadJoin (linux : Bool) (t : BitVec 64) (timeoutMs : BitVec 32) (clock : Timespec)
    (outcome : Except Errno (BitVec 64)) : JoinCall × Except Errno (BitVec 32) :=
  let exitCode := outcome.map fun result => result.setWidth 32
  if timeoutMs = -1 then (.join t, exitCode)
  else if linux ∧ timeoutMs = 0 then
    (.tryjoin t, exitCode.mapError fun error => if error = .ebusy then .etimedout else error)
  else (.timedjoin t (fftimespecAddms clock (timeoutMs.zeroExtend 64)), exitCode)

/-! ### The deadline that is due -/

/-- `tv_nsec` as `sem_timedwait` wants it; any other value is EINVAL. -/
def NsecInRange (ts : Timespec) : Prop :=
  0 ≤ ts.tvNsec.toInt ∧ ts.tvNsec.toInt < 1000000000

/-- A deadline that is accepted, is `timeMs` after the clock, and is the one of
`_fftimespec_addms`. -/
structure DeadlineRight (clock : Timespec) (timeMs : BitVec 32) (deadline : Timespec) : Prop where
  accepted : NsecInRange deadline
  exact : deadline.ns = clock.ns + timeMs.toNat * 1000000
  sameAsJoin : deadline = fftimespecAddms clock (timeMs.zeroExtend 64)

/-- The sub-second parts do not carry, and the seconds fit in `time_t`. -/
structure NoCarry (clock : Timespec) (timeMs : BitVec 32) : Prop where
  nsec : clock.tvNsec.toInt + timeMs.toNat % 1000 * 1000000 < 1000000000
  sec : clock.tvSec.toInt + timeMs.toNat / 1000 < 2 ^ 63

section Arithmetic

/-- A signed 64-bit sum with a small unsigned number is exact if it fits. -/
theorem add_toInt_iff (x : BitVec 64) {y : BitVec 64} {k : Nat} (value : y.toNat = k)
    (small : k < 2 ^ 62) :
    (x + y).toInt = x.toInt + k ↔ x.toInt + k < 2 ^ 63 := by
  have low := BitVec.le_toInt x
  have high : (x + y).toInt < 2 ^ 63 := BitVec.toInt_lt
  have exact : y.toInt = k := by
    rw [BitVec.toInt_eq_toNat_of_lt (by omega), value]
  constructor
  · intro equal
    omega
  · intro fits
    rw [BitVec.toInt_add, exact]
    apply Int.bmod_eq_of_le <;> omega

variable (timeMs : BitVec 32)

/-- `time_ms / 1000`, in 32 and in 64 bits. -/
theorem seconds_toNat :
    ((timeMs / 1000).zeroExtend 64).toNat = timeMs.toNat / 1000 ∧
      (timeMs.zeroExtend 64 / 1000).toNat = timeMs.toNat / 1000 := by
  have bound := timeMs.isLt
  have narrow : (1000 : BitVec 32).toNat = 1000 := by decide
  have wide : (1000 : BitVec 64).toNat = 1000 := by decide
  simp only [BitVec.truncate_eq_setWidth, BitVec.toNat_setWidth, BitVec.toNat_udiv, narrow, wide]
  omega

/-- `(time_ms % 1000) * 1000 * 1000` does not overflow, in 32 or in 64 bits. -/
theorem subseconds_toNat :
    ((timeMs % 1000 * 1000 * 1000).zeroExtend 64).toNat = timeMs.toNat % 1000 * 1000000 ∧
      (timeMs.zeroExtend 64 % 1000 * 1000 * 1000).toNat = timeMs.toNat % 1000 * 1000000 := by
  have bound := timeMs.isLt
  have narrow : (1000 : BitVec 32).toNat = 1000 := by decide
  have wide : (1000 : BitVec 64).toNat = 1000 := by decide
  simp only [BitVec.truncate_eq_setWidth, BitVec.toNat_setWidth, BitVec.toNat_mul,
    BitVec.toNat_umod, narrow, wide, Nat.mod_eq_of_lt (show timeMs.toNat < 2 ^ 64 by omega)]
  have rest : timeMs.toNat % 1000 < 1000 := Nat.mod_lt _ (by decide)
  generalize timeMs.toNat % 1000 = ms at rest
  have product : ms * 1000 * 1000 = ms * 1000000 := by omega
  constructor
  · rw [Nat.mod_eq_of_lt (show ms * 1000 < 2 ^ 32 by omega), product,
      Nat.mod_eq_of_lt (by omega), Nat.mod_eq_of_lt (by omega)]
  · rw [Nat.mod_eq_of_lt (show ms * 1000 < 2 ^ 64 by omega), product,
      Nat.mod_eq_of_lt (by omega)]

end Arithmetic

variable {clock : Timespec} {timeMs : BitVec 32}

/-- The nanoseconds of the deadline are the plain sum, in range or not. -/
theorem semDeadline_nsec (inRange : NsecInRange clock) :
    (semDeadline clock timeMs).tvNsec.toInt =
      clock.tvNsec.toInt + (timeMs.toNat % 1000 * 1000000 : Nat) := by
  obtain ⟨_, high⟩ := inRange
  apply (add_toInt_iff clock.tvNsec (subseconds_toNat timeMs).1 (by omega)).mpr
  omega

theorem semDeadline_sec_iff :
    (semDeadline clock timeMs).tvSec.toInt = clock.tvSec.toInt + (timeMs.toNat / 1000 : Nat) ↔
      clock.tvSec.toInt + (timeMs.toNat / 1000 : Nat) < 2 ^ 63 :=
  add_toInt_iff clock.tvSec (seconds_toNat timeMs).1 (by have := timeMs.isLt; omega)

/-- `_fftimespec_addms` makes the same two additions before it carries. -/
theorem fftimespecAddms_eq (clock : Timespec) (timeMs : BitVec 32) :
    fftimespecAddms clock (timeMs.zeroExtend 64) =
      if BitVec.sle 1000000000 (semDeadline clock timeMs).tvNsec then
        { tvSec := (semDeadline clock timeMs).tvSec + 1
          tvNsec := (semDeadline clock timeMs).tvNsec - 1000000000 }
      else semDeadline clock timeMs := by
  have sec : timeMs.zeroExtend 64 / 1000 = (timeMs / 1000).zeroExtend 64 :=
    BitVec.eq_of_toNat_eq ((seconds_toNat timeMs).2.trans (seconds_toNat timeMs).1.symm)
  have nsec : timeMs.zeroExtend 64 % 1000 * 1000 * 1000 =
      (timeMs % 1000 * 1000 * 1000).zeroExtend 64 :=
    BitVec.eq_of_toNat_eq ((subseconds_toNat timeMs).2.trans (subseconds_toNat timeMs).1.symm)
  unfold fftimespecAddms semDeadline
  rw [sec, nsec]

/-- Without a carry both compute the deadline that is due. -/
theorem semDeadline_right (inRange : NsecInRange clock) (noCarry : NoCarry clock timeMs) :
    DeadlineRight clock timeMs (semDeadline clock timeMs) := by
  have nsec := @semDeadline_nsec clock timeMs inRange
  have sec := semDeadline_sec_iff.mpr noCarry.sec
  have fits := noCarry.nsec
  obtain ⟨low, _⟩ := inRange
  have billion : (1000000000 : BitVec 64).toInt = 1000000000 := by decide
  refine ⟨⟨by omega, by omega⟩, ?_, ?_⟩
  · unfold Timespec.ns
    rw [sec, nsec]
    omega
  · have below : ¬ BitVec.sle 1000000000 (semDeadline clock timeMs).tvNsec = true := by
      rw [BitVec.sle_iff_toInt_le, billion]
      omega
    rw [fftimespecAddms_eq, if_neg below]

/-- With a carry, or past the end of `time_t`, `ffsem_wait` is wrong. -/
theorem noCarry_of_right (inRange : NsecInRange clock)
    (right : DeadlineRight clock timeMs (semDeadline clock timeMs)) : NoCarry clock timeMs := by
  have nsec := @semDeadline_nsec clock timeMs inRange
  obtain ⟨_, accepted⟩ := right.accepted
  have exact := right.exact
  unfold Timespec.ns at exact
  have sec : (semDeadline clock timeMs).tvSec.toInt =
      clock.tvSec.toInt + (timeMs.toNat / 1000 : Nat) := by
    omega
  exact ⟨by omega, semDeadline_sec_iff.mp sec⟩

/-! ### Every call of one wait -/

/-- A retried call is the same call. -/
theorem untilNotInterrupted_calls (call : Call) (outcomes : List Outcome) :
    (untilNotInterrupted call outcomes).1 ≠ [] ∧
      ∀ made ∈ (untilNotInterrupted call outcomes).1, made = call := by
  induction outcomes with
  | nil => simp [untilNotInterrupted]
  | cons outcome rest inductionHypothesis =>
    unfold untilNotInterrupted
    split
    · refine ⟨List.cons_ne_nil _ _, ?_⟩
      intro made member
      rcases List.mem_cons.mp member with first | later
      · exact first
      · exact inductionHypothesis.2 made later
    · simp

/-- `ffthread_join` hands the deadline of `_fftimespec_addms` to
`pthread_timedjoin_np`. -/
theorem ffthreadJoin_deadline (linux : Bool) (t : BitVec 64) (outcome : Except Errno (BitVec 64))
    (notZero : timeMs ≠ 0) (notInfinite : timeMs ≠ -1) :
    (ffthreadJoin linux t timeMs clock outcome).1 =
      .timedjoin t (fftimespecAddms clock (timeMs.zeroExtend 64)) := by
  unfold ffthreadJoin
  rw [if_neg notInfinite, if_neg fun both => notZero both.2]

/-- Every deadline that a wait passes to `sem_timedwait` is accepted, exact and the
one of `_fftimespec_addms` if and only if there is no carry. -/
theorem ffsemWait_deadline_iff (sem : Ffsem) (outcomes : List Outcome)
    (inRange : NsecInRange clock) (notZero : timeMs ≠ 0) (notInfinite : timeMs ≠ -1) :
    ((ffsemWait (some sem) timeMs clock outcomes).1 ≠ [] ∧
      ∀ call ∈ (ffsemWait (some sem) timeMs clock outcomes).1,
        ∃ deadline, call = .timedwait sem.target deadline ∧
          DeadlineRight clock timeMs deadline) ↔
      NoCarry clock timeMs := by
  have wait : ffsemWait (some sem) timeMs clock outcomes =
      untilNotInterrupted (.timedwait sem.target (semDeadline clock timeMs)) outcomes := by
    simp only [ffsemWait, if_neg notZero, if_neg notInfinite]
  obtain ⟨nonempty, same⟩ :=
    untilNotInterrupted_calls (.timedwait sem.target (semDeadline clock timeMs)) outcomes
  rw [wait]
  constructor
  · rintro ⟨_, everyCall⟩
    obtain ⟨call, member⟩ := List.exists_mem_of_ne_nil _ nonempty
    obtain ⟨deadline, shape, right⟩ := everyCall call member
    have passed := (same call member).symm.trans shape
    obtain ⟨_, rfl⟩ := Call.timedwait.inj passed
    exact noCarry_of_right inRange right
  · intro noCarry
    refine ⟨nonempty, ?_⟩
    intro call member
    exact ⟨_, same call member, semDeadline_right inRange noCarry⟩

/-- Half a second past a full second, and a timeout of 1499 ms that is interrupted
once. -/
theorem ffsemWait_deadline_half :
    (ffsemWait (some ⟨none, 64⟩) 1499 ⟨1700000000, 500000000⟩ [some .eintr, none]).1 ≠ [] ∧
      ∀ call ∈ (ffsemWait (some ⟨none, 64⟩) 1499 ⟨1700000000, 500000000⟩
          [some .eintr, none]).1,
        ∃ deadline, call = .timedwait 64 deadline ∧
          DeadlineRight ⟨1700000000, 500000000⟩ 1499 deadline :=
  (ffsemWait_deadline_iff ⟨none, 64⟩ [some .eintr, none] ⟨by decide, by decide⟩
    (by decide) (by decide)).mpr ⟨by decide, by decide⟩

/-- One nanosecond before a full second, a timeout of 1 ms is passed with
`tv_nsec` = 1000999999. -/
theorem ffsemWait_deadline_carry :
    (ffsemWait (some ⟨none, 64⟩) 1 ⟨1700000000, 999999999⟩ [some .einval]) =
        ([.timedwait 64 ⟨1700000000, 1000999999⟩], some (some .einval)) ∧
      ¬ NsecInRange ⟨1700000000, 1000999999⟩ ∧
      fftimespecAddms ⟨1700000000, 999999999⟩ 1 = ⟨1700000001, 999999⟩ ∧
      ¬ (∀ call ∈ (ffsemWait (some ⟨none, 64⟩) 1 ⟨1700000000, 999999999⟩ [some .einval]).1,
        ∃ deadline, call = .timedwait 64 deadline ∧
          DeadlineRight ⟨1700000000, 999999999⟩ 1 deadline) := by
  refine ⟨by decide, fun inRange => absurd inRange.2 (by decide), by decide, ?_⟩
  intro everyCall
  obtain ⟨deadline, shape, right⟩ :=
    everyCall (.timedwait 64 ⟨1700000000, 1000999999⟩) (by decide)
  obtain ⟨_, rfl⟩ := Call.timedwait.inj shape
  exact absurd right.accepted.2 (by decide)

end Ffos.Semaphore
