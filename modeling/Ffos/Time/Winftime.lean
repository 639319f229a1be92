/-
Module: Ffos.Time.Winftime
Purpose: `fftime_from_winftime` and `fftime_to_winftime` of FFOS/time.h with their machine
  integers, and the two times of FFOS/file.h that pass through them on Windows. The
  conversions undo each other up to 100 ns, and no signed number overflows.
Trusted boundary: `fftime` is a signed 64-bit `sec` and an unsigned 32-bit `nsec`
Main exports: Fftime, FftimeWinftime, fftimeFromWinftime, fftimeToWinftime, Fftime.Convertible,
  winftime_exact, fffileSetMtime_fffileinfoMtime
-/
import Mathlib.Algebra.Order.Ring.Int
import Mathlib.Data.Nat.Bitwise

namespace Ffos.Time

/-! ### The two times -/

/-- `fftime` of ffbase. -/
structure Fftime where
  sec : BitVec 64
  nsec : BitVec 32
deriving DecidableEq, Repr

/-- The nanoseconds since 1970. -/
def Fftime.ns (t : Fftime) : Int := t.sec.toInt * 1000000000 + t.nsec.toNat

/-- `fftime_winftime`. -/
structure FftimeWinftime where
  lo : BitVec 32
  hi : BitVec 32
deriving DecidableEq, Repr

/-- The number of 100-ns intervals since 1600 that the two halves make. -/
def FftimeWinftime.value (ft : FftimeWinftime) : Nat := ft.hi.toNat * 2 ^ 32 + ft.lo.toNat

/-- `FFTIME_100NS`: the 100-ns intervals within 1600..1970. -/
def fftime100ns : Nat := 116444736000000000

/-! ### The conversions -/

/-- The two halves as one unsigned number. -/
def FftimeWinftime.joined (ft : FftimeWinftime) : BitVec 64 :=
  (ft.hi.setWidth 64 <<< 32) ||| ft.lo.setWidth 64

/-- `fftime_from_winftime`. All of its arithmetic is unsigned. -/
def fftimeFromWinftime (ft : FftimeWinftime) : Fftime :=
  let i := ft.joined
  if BitVec.ofNat 64 fftime100ns < i then
    let i := i - BitVec.ofNat 64 fftime100ns
    { sec := i / 10000000#64, nsec := (i % 10000000#64 * 100#64).setWidth 32 }
  else { sec := 0, nsec := 0 }

/-- A signed 64-bit result, or nothing if it does not fit. -/
def signed64 (value : Int) : Option (BitVec 64) :=
  if -2 ^ 63 ≤ value ∧ value < 2 ^ 63 then some (BitVec.ofInt 64 value) else none

/-- `fftime_to_winftime`. `sec * 1000000 * 10 + nsec / 100` is computed in signed numbers,
and nothing is the result if one of them overflows. -/
def fftimeToWinftime (t : Fftime) : Option FftimeWinftime := do
  let micros ← signed64 (t.sec.toInt * 1000000)
  let intervals ← signed64 (micros.toInt * 10)
  let sinceEpoch ← signed64 (intervals.toInt + ((t.nsec / 100#32).toNat : Int))
  let d := sinceEpoch + BitVec.ofNat 64 fftime100ns
  some { lo := d.setWidth 32, hi := (d >>> 32).setWidth 32 }

/-- A time whose conversion fits into 63 bits. -/
structure Fftime.Convertible (t : Fftime) : Prop where
  sec_nonneg : 0 ≤ t.sec.toInt
  nsec_lt : t.nsec.toNat < 1000000000
  fits : t.sec.toInt * 10000000 + (t.nsec.toNat / 100 : Nat) + fftime100ns < 2 ^ 63

/-! ### What they compute -/

theorem FftimeWinftime.value_lt (ft : FftimeWinftime) : ft.value < 2 ^ 64 := by
  have lowBound := ft.lo.isLt
  have highBound := ft.hi.isLt
  unfold FftimeWinftime.value
  omega

/-- The halves do not overlap, so joining them adds them. -/
theorem FftimeWinftime.toNat_joined (ft : FftimeWinftime) : ft.joined.toNat = ft.value := by
  have lowBound := ft.lo.isLt
  have highBound := ft.hi.isLt
  have lowWidth : ft.lo.toNat % 2 ^ 64 = ft.lo.toNat := Nat.mod_eq_of_lt (by omega)
  have highWidth : ft.hi.toNat % 2 ^ 64 = ft.hi.toNat := Nat.mod_eq_of_lt (by omega)
  have shifted : (ft.hi.toNat <<< 32) % 2 ^ 64 = ft.hi.toNat <<< 32 := by
    apply Nat.mod_eq_of_lt
    rw [Nat.shiftLeft_eq]
    omega
  rw [FftimeWinftime.joined, BitVec.toNat_or, BitVec.toNat_shiftLeft, BitVec.toNat_setWidth,
    BitVec.toNat_setWidth, lowWidth, highWidth, shifted,
    ← Nat.shiftLeft_add_eq_or_of_lt lowBound, Nat.shiftLeft_eq, FftimeWinftime.value]

/-- The halves are those of their value. -/
theorem FftimeWinftime.eq_of_value {ft other : FftimeWinftime} (same : ft.value = other.value) :
    ft = other := by
  have lowBound := ft.lo.isLt
  have otherLowBound := other.lo.isLt
  unfold FftimeWinftime.value at same
  have lowSame : ft.lo = other.lo := BitVec.eq_of_toNat_eq (by omega)
  have highSame : ft.hi = other.hi := BitVec.eq_of_toNat_eq (by omega)
  cases ft
  cases other
  cases lowSame
  cases highSame
  rfl

/-- The halves of a 64-bit number have its value. -/
theorem FftimeWinftime.value_split (d : BitVec 64) :
    FftimeWinftime.value { lo := d.setWidth 32, hi := (d >>> 32).setWidth 32 } = d.toNat := by
  have bound := d.isLt
  simp only [FftimeWinftime.value, BitVec.toNat_setWidth, BitVec.toNat_ushiftRight,
    Nat.shiftRight_eq_div_pow]
  omega

/-- `fftime_from_winftime` in numbers. A time up to 1970 gives zero, as the difference of
natural numbers does. -/
theorem toNat_fftimeFromWinftime (ft : FftimeWinftime) :
    (fftimeFromWinftime ft).sec.toNat = (ft.value - fftime100ns) / 10000000 ∧
      (fftimeFromWinftime ft).nsec.toNat = (ft.value - fftime100ns) % 10000000 * 100 := by
  have bound := ft.value_lt
  have epoch : (BitVec.ofNat 64 fftime100ns).toNat = fftime100ns := rfl
  unfold fftimeFromWinftime
  by_cases later : BitVec.ofNat 64 fftime100ns < ft.joined
  · have difference : (ft.joined - BitVec.ofNat 64 fftime100ns).toNat =
        ft.value - fftime100ns := by
      rw [BitVec.toNat_sub_of_le (BitVec.le_of_lt later), ft.toNat_joined, epoch]
    have perSecond : (10000000#64).toNat = 10000000 := rfl
    have perInterval : (100#64).toNat = 100 := rfl
    simp only [if_pos later, BitVec.toNat_udiv, BitVec.toNat_setWidth, BitVec.toNat_mul,
      BitVec.toNat_umod, difference, perSecond, perInterval, true_and]
    -- the remainder is below one second, so neither product nor its lower half wraps
    have remainder : (ft.value - fftime100ns) % 10000000 < 10000000 := Nat.mod_lt _ (by decide)
    have product : (ft.value - fftime100ns) % 10000000 * 100 < 2 ^ 32 := by omega
    rw [Nat.mod_eq_of_lt (Nat.lt_trans product (by decide)), Nat.mod_eq_of_lt product]
  · have early : ft.value ≤ fftime100ns := by
      rw [← ft.toNat_joined, ← epoch]
      exact BitVec.le_def.mp (BitVec.not_lt.mp later)
    have nothing : ft.value - fftime100ns = 0 := Nat.sub_eq_zero_of_le early
    rw [if_neg later, nothing]
    exact ⟨rfl, rfl⟩

theorem signed64_of_fits {value : Int} (nonneg : 0 ≤ value) (fits : value < 2 ^ 63) :
    ∃ result, signed64 value = some result ∧ result.toInt = value ∧
      (result.toNat : Int) = value := by
  refine ⟨BitVec.ofInt 64 value, if_pos ⟨by omega, fits⟩, ?_, ?_⟩
  · rw [BitVec.toInt_ofInt, Int.bmod_eq_of_le] <;> omega
  · rw [BitVec.toNat_ofInt]
    omega

/-- `fftime_to_winftime` in numbers: in its range no step overflows. -/
theorem Fftime.Convertible.value {t : Fftime} (convertible : t.Convertible) :
    ∃ ft, fftimeToWinftime t = some ft ∧
      (ft.value : Int) = t.sec.toInt * 10000000 + (t.nsec.toNat / 100 : Nat) + fftime100ns := by
  obtain ⟨nonneg, normal, fits⟩ := convertible
  have epoch : (BitVec.ofNat 64 fftime100ns).toNat = fftime100ns := rfl
  have nsecIntervals : (t.nsec / 100#32).toNat = t.nsec.toNat / 100 := BitVec.toNat_udiv
  obtain ⟨micros, microsEq, microsValue, -⟩ :=
    @signed64_of_fits (t.sec.toInt * 1000000) (by omega) (by omega)
  obtain ⟨intervals, intervalsEq, intervalsValue, -⟩ :=
    @signed64_of_fits (micros.toInt * 10) (by omega) (by omega)
  obtain ⟨sinceEpoch, sinceEpochEq, -, sinceEpochValue⟩ :=
    @signed64_of_fits (intervals.toInt + (t.nsec.toNat / 100 : Nat)) (by omega) (by omega)
  have computed : fftimeToWinftime t = some
      { lo := (sinceEpoch + BitVec.ofNat 64 fftime100ns).setWidth 32
        hi := ((sinceEpoch + BitVec.ofNat 64 fftime100ns) >>> 32).setWidth 32 } := by
    simp only [fftimeToWinftime, microsEq, intervalsEq, nsecIntervals, sinceEpochEq,
      Option.bind_eq_bind, Option.bind_some]
  refine ⟨_, computed, ?_⟩
  rw [FftimeWinftime.value_split, BitVec.toNat_add, epoch]
  omega

theorem toInt_sec_fftimeFromWinftime (ft : FftimeWinftime) :
    (fftimeFromWinftime ft).sec.toInt = ((ft.value - fftime100ns) / 10000000 : Nat) := by
  have bound := ft.value_lt
  have seconds := (toNat_fftimeFromWinftime ft).1
  rw [BitVec.toInt_eq_toNat_of_lt (by omega), seconds]

/-- The time in nanoseconds. -/
theorem ns_fftimeFromWinftime (ft : FftimeWinftime) :
    (fftimeFromWinftime ft).ns = ((ft.value - fftime100ns) * 100 : Nat) := by
  rw [Fftime.ns, toInt_sec_fftimeFromWinftime, (toNat_fftimeFromWinftime ft).2]
  have parts := Nat.div_add_mod (ft.value - fftime100ns) 10000000
  omega

/-- Every FILETIME from 1970 on that is below 2^63 has a convertible time. -/
theorem convertible_fftimeFromWinftime {ft : FftimeWinftime} (since : fftime100ns ≤ ft.value)
    (below : ft.value < 2 ^ 63) : (fftimeFromWinftime ft).Convertible := by
  have nanoseconds := (toNat_fftimeFromWinftime ft).2
  have parts := Nat.div_add_mod (ft.value - fftime100ns) 10000000
  constructor
  · rw [toInt_sec_fftimeFromWinftime]
    exact Int.natCast_nonneg _
  · omega
  · rw [toInt_sec_fftimeFromWinftime, nanoseconds]
    omega

/-! ### There and back -/

theorem fftimeToWinftime_fftimeFromWinftime {ft : FftimeWinftime}
    (since : fftime100ns ≤ ft.value) (below : ft.value < 2 ^ 63) :
    fftimeToWinftime (fftimeFromWinftime ft) = some ft := by
  obtain ⟨back, backEq, backValue⟩ := (convertible_fftimeFromWinftime since below).value
  have parts := Nat.div_add_mod (ft.value - fftime100ns) 10000000
  rw [toInt_sec_fftimeFromWinftime, (toNat_fftimeFromWinftime ft).2] at backValue
  have sameValue : back.value = ft.value := by omega
  rw [backEq, FftimeWinftime.eq_of_value sameValue]

/-- The way back loses what is below 100 ns. -/
theorem fftimeFromWinftime_fftimeToWinftime {t : Fftime} (convertible : t.Convertible) :
    ∃ ft, fftimeToWinftime t = some ft ∧
      fftimeFromWinftime ft = { sec := t.sec, nsec := t.nsec / 100#32 * 100#32 } := by
  obtain ⟨ft, ftEq, ftValue⟩ := convertible.value
  obtain ⟨nonneg, normal, fits⟩ := convertible
  obtain ⟨seconds, nanoseconds⟩ := toNat_fftimeFromWinftime ft
  have secNat : t.sec.toInt = t.sec.toNat := by
    rw [BitVec.toInt_eq_toNat_cond] at nonneg ⊢
    have bound := t.sec.isLt
    split at nonneg <;> omega
  have sameSec : (fftimeFromWinftime ft).sec = t.sec := by
    apply BitVec.eq_of_toNat_eq
    rw [seconds]
    omega
  have rounded : (t.nsec / 100#32 * 100#32).toNat = t.nsec.toNat / 100 * 100 := by
    have perInterval : (100#32).toNat = 100 := rfl
    rw [BitVec.toNat_mul, BitVec.toNat_udiv, perInterval]
    omega
  have sameNsec : (fftimeFromWinftime ft).nsec = t.nsec / 100#32 * 100#32 := by
    apply BitVec.eq_of_toNat_eq
    rw [nanoseconds, rounded]
    omega
  refine ⟨ft, ftEq, ?_⟩
  rw [← sameSec, ← sameNsec]

/-- The Windows conversions are exact: there and back, back and there up to 100 ns, zero for
what is before 1970, and monotone. A result of `fftime_to_winftime` says that no signed
number has overflowed. -/
theorem winftime_exact :
    (∀ ft : FftimeWinftime, fftime100ns ≤ ft.value → ft.value < 2 ^ 63 →
      fftimeToWinftime (fftimeFromWinftime ft) = some ft ∧
        (fftimeFromWinftime ft).nsec.toNat < 10 ^ 9) ∧
      (∀ t : Fftime, t.Convertible →
        ∃ ft, fftimeToWinftime t = some ft ∧
          fftimeFromWinftime ft = { sec := t.sec, nsec := t.nsec / 100#32 * 100#32 }) ∧
      (∀ ft : FftimeWinftime, ft.value < fftime100ns →
        fftimeFromWinftime ft = { sec := 0, nsec := 0 }) ∧
      (∀ ft later : FftimeWinftime, ft.value ≤ later.value →
        (fftimeFromWinftime ft).ns ≤ (fftimeFromWinftime later).ns) ∧
      ∀ t later : Fftime, t.Convertible → later.Convertible → t.ns ≤ later.ns →
        ∃ ft laterFt, fftimeToWinftime t = some ft ∧ fftimeToWinftime later = some laterFt ∧
          ft.value ≤ laterFt.value := by
  refine ⟨?_, ?_, ?_, ?_, ?_⟩
  · intro ft since below
    exact ⟨fftimeToWinftime_fftimeFromWinftime since below,
      (convertible_fftimeFromWinftime since below).nsec_lt⟩
  · intro t convertible
    exact fftimeFromWinftime_fftimeToWinftime convertible
  · intro ft before
    have early : ¬BitVec.ofNat 64 fftime100ns < ft.joined := by
      rw [BitVec.lt_def, ft.toNat_joined]
      exact Nat.not_lt_of_le (Nat.le_of_lt before)
    rw [fftimeFromWinftime, if_neg early]
  · intro ft later ordered
    rw [ns_fftimeFromWinftime, ns_fftimeFromWinftime]
    omega
  · intro t later convertible laterConvertible ordered
    obtain ⟨ft, ftEq, ftValue⟩ := convertible.value
    obtain ⟨laterFt, laterEq, laterValue⟩ := laterConvertible.value
    refine ⟨ft, laterFt, ftEq, laterEq, ?_⟩
    unfold Fftime.ns at ordered
    have normal := convertible.nsec_lt
    have laterNormal := laterConvertible.nsec_lt
    omega

/-- One second after 1970 there and back, and 250 ns more that come back as 200 ns. -/
theorem winftime_exact_second :
    fftimeToWinftime (fftimeFromWinftime ⟨0xD5D71680, 0x19DB1DE⟩) =
        some ⟨0xD5D71680, 0x19DB1DE⟩ ∧
      ∃ ft, fftimeToWinftime { sec := 1, nsec := 250 } = some ft ∧
        fftimeFromWinftime ft = { sec := 1, nsec := 200 } :=
  ⟨(winftime_exact.1 ⟨0xD5D71680, 0x19DB1DE⟩ (by decide) (by decide)).1,
    winftime_exact.2.1 { sec := 1, nsec := 250 } ⟨by decide, by decide, by decide⟩⟩

/-! ### Modification times on Windows -/

/-- The field of `BY_HANDLE_FILE_INFORMATION` that carries the modification time. -/
structure Fffileinfo where
  ftLastWriteTime : FftimeWinftime
deriving DecidableEq, Repr

/-- `fffileinfo_mtime`. -/
def fffileinfoMtime (fi : Fffileinfo) : Fftime := fftimeFromWinftime fi.ftLastWriteTime

/-- `fffile_set_mtime`, where `SetFileTime` succeeds. -/
def fffileSetMtime (fi : Fffileinfo) (lastWrite : Fftime) : Option Fffileinfo := do
  let ft ← fftimeToWinftime lastWrite
  some { fi with ftLastWriteTime := ft }

/-- Copying the modification time of a file from 1970 on copies it whole. -/
theorem fffileSetMtime_fffileinfoMtime {fi : Fffileinfo} (other : Fffileinfo)
    (since : fftime100ns ≤ fi.ftLastWriteTime.value) (below : fi.ftLastWriteTime.value < 2 ^ 63) :
    fffileSetMtime other (fffileinfoMtime fi) = some fi := by
  rw [fffileSetMtime, fffileinfoMtime, fftimeToWinftime_fftimeFromWinftime since below]
  rfl

end Ffos.Time
