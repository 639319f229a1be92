/-
Module: Ffos.File.ReadWhole
Purpose: `fffile_readwhole` of FFOS/file.h on a 64-bit machine, with the answers of the system
  calls under it. Its errors are compared as unsigned numbers, and two of them can hide each
  other.
Trusted boundary: `ffvec_reallocT` of ffbase gives at least the capacity it is asked for, or
  NULL; a read gives at most the number of bytes it is asked for
Main exports: Answer, System, fffileSize, fffileRead, fffileReadwhole, ReportsComplete,
  reportsComplete_iff
-/
import Mathlib.Algebra.Group.Nat.Defs
import Mathlib.Logic.Basic
import Mathlib.Tactic.ByContra

namespace Ffos.File.ReadWhole

/-! ### The system -/

/-- The answer of a system call: a count that a signed 64-bit number holds, or an error. -/
abbrev Answer := Option (Fin (2 ^ 63))

/-- An answer as a signed 64-bit number, with -1 for an error. -/
def Answer.toSigned : Answer → BitVec 64
  | some count => BitVec.ofNat 64 count.val
  | none => -1

/-- The length and the capacity of `ffvec`. -/
structure Ffvec where
  len : BitVec 64
  cap : BitVec 64
deriving DecidableEq, Repr

/-- The answers of the system during one call. -/
structure System where
  opens : Bool
  fstat : Answer
  ffvecRealloc : Ffvec → BitVec 64 → Option Ffvec
  read : BitVec 64 → Answer
  realloc_room : ∀ {dst grown : Ffvec} {n : BitVec 64},
    ffvecRealloc dst n = some grown → n ≤ grown.cap
  read_within : ∀ {size : BitVec 64} {count : Fin (2 ^ 63)},
    read size = some count → count.val ≤ size.toNat

/-! ### The functions -/

/-- `fffile_size`. -/
def fffileSize (system : System) : BitVec 64 := system.fstat.toSigned

/-- `fffile_read`. -/
def fffileRead (system : System) (size : BitVec 64) : BitVec 64 := (system.read size).toSigned

/-- `fffile_readwhole` with `FF_64`: the result and `dst` after it. -/
def fffileReadwhole (system : System) (dst : Ffvec) (limit : BitVec 64) : Int × Ffvec :=
  if system.opens = false then (-1, dst)
  else
    let sz := fffileSize system
    if limit < sz then (-1, dst)
    else
      match system.ffvecRealloc dst (sz + 1) with
      | none => (-1, dst)
      | some dst =>
          if sz ≠ fffileRead system sz then (-1, dst)
          else (0, { dst with len := sz })

/-! ### Complete reads -/

/-- Success is reported for a complete read only: the size is known and in the limit, all of
it was read, and `dst` has room for one more byte. -/
def ReportsComplete (system : System) (dst : Ffvec) (limit : BitVec 64) : Prop :=
  (fffileReadwhole system dst limit).1 = 0 →
    ∃ size : Fin (2 ^ 63), system.fstat = some size ∧ size.val ≤ limit.toNat ∧
      system.read (BitVec.ofNat 64 size.val) = some size ∧
      (fffileReadwhole system dst limit).2.len.toNat = size.val ∧
      (fffileReadwhole system dst limit).2.len.toNat + 1 ≤
        (fffileReadwhole system dst limit).2.cap.toNat

theorem Answer.toNat_toSigned_some (count : Fin (2 ^ 63)) :
    (Answer.toSigned (some count)).toNat = count.val := by
  rw [Answer.toSigned, BitVec.toNat_ofNat]
  exact Nat.mod_eq_of_lt (Nat.lt_trans count.isLt (by decide))

/-- No count is the number of an error. -/
theorem Answer.toSigned_injective : Function.Injective Answer.toSigned := by
  have error : (Answer.toSigned none).toNat = 2 ^ 64 - 1 := rfl
  intro first second same
  have sameNat := congrArg BitVec.toNat same
  cases first with
  | none =>
      cases second with
      | none => rfl
      | some count =>
          rw [error, Answer.toNat_toSigned_some] at sameNat
          exact absurd count.isLt (by omega)
  | some count =>
      cases second with
      | none =>
          rw [error, Answer.toNat_toSigned_some] at sameNat
          exact absurd count.isLt (by omega)
      | some other =>
          rw [Answer.toNat_toSigned_some, Answer.toNat_toSigned_some] at sameNat
          rw [Fin.ext sameNat]

/-- What happened in a call that reports success. -/
theorem fffileReadwhole_eq_zero {system : System} {dst : Ffvec} {limit : BitVec 64}
    (success : (fffileReadwhole system dst limit).1 = 0) :
    system.opens = true ∧ fffileSize system ≤ limit ∧
      ∃ grown, system.ffvecRealloc dst (fffileSize system + 1) = some grown ∧
        system.read (fffileSize system) = system.fstat ∧
        (fffileReadwhole system dst limit).2 = { grown with len := fffileSize system } := by
  unfold fffileReadwhole at success ⊢
  by_cases opened : system.opens = false
  · rw [if_pos opened] at success
    cases success
  · rw [if_neg opened] at success ⊢
    by_cases tooLarge : limit < fffileSize system
    · rw [if_pos tooLarge] at success
      cases success
    · rw [if_neg tooLarge] at success ⊢
      cases grown : system.ffvecRealloc dst (fffileSize system + 1) with
      | none =>
          rw [grown] at success
          cases success
      | some room =>
          simp only [grown] at success ⊢
          by_cases short : fffileSize system ≠ fffileRead system (fffileSize system)
          · rw [if_pos short] at success
            cases success
          · rw [if_neg short] at success ⊢
            refine ⟨(Bool.not_eq_false _).mp opened, BitVec.not_lt.mp tooLarge, room, rfl, ?_, rfl⟩
            exact Answer.toSigned_injective (not_not.mp short).symm

/-- Both the size and the read fail, under the largest limit, while the vector has room for
nothing: `sz + 1` has wrapped to zero. -/
structure System.HidesErrors (system : System) (dst : Ffvec) (limit : BitVec 64) : Prop where
  largestLimit : limit = BitVec.allOnes 64
  opened : system.opens = true
  sizeFails : system.fstat = none
  room : ∃ grown, system.ffvecRealloc dst 0 = some grown
  readFails : system.read (BitVec.allOnes 64) = none

theorem fffileSize_of_fails {system : System} (sizeFails : system.fstat = none) :
    fffileSize system = BitVec.allOnes 64 := by
  rw [fffileSize, sizeFails]
  rfl

/-- The two errors are equal as numbers, which is reported as success. -/
theorem System.HidesErrors.success {system : System} {dst : Ffvec} {limit : BitVec 64}
    (hides : system.HidesErrors dst limit) : (fffileReadwhole system dst limit).1 = 0 := by
  obtain ⟨rfl, opened, sizeFails, ⟨grown, room⟩, readFails⟩ := hides
  have size := fffileSize_of_fails sizeFails
  have wrapped : BitVec.allOnes 64 + 1 = 0 := by decide
  have sameError : fffileRead system (BitVec.allOnes 64) = BitVec.allOnes 64 := by
    rw [fffileRead, readFails]
    rfl
  unfold fffileReadwhole
  simp only [opened, size, wrapped, room, sameError, reduceCtorEq, if_false, ne_eq,
    not_true_eq_false, BitVec.lt_irrefl]

/-- With the size known, success is that of a complete read. -/
theorem complete_of_success {system : System} {dst : Ffvec} {limit : BitVec 64}
    {size : Fin (2 ^ 63)} (sizeKnown : system.fstat = some size) :
    ReportsComplete system dst limit := by
  intro success
  obtain ⟨opened, within, grown, room, whole, final⟩ := fffileReadwhole_eq_zero success
  have bound := size.isLt
  have sizeNat : (fffileSize system).toNat = size.val := by
    rw [fffileSize, sizeKnown, Answer.toNat_toSigned_some]
  have sizeBits : fffileSize system = BitVec.ofNat 64 size.val := by
    rw [fffileSize, sizeKnown, Answer.toSigned]
  have oneMore : (fffileSize system + 1).toNat = size.val + 1 := by
    have one : (1 : BitVec 64).toNat = 1 := rfl
    rw [BitVec.toNat_add, sizeNat, one]
    omega
  have enough := BitVec.le_def.mp (system.realloc_room room)
  rw [final]
  refine ⟨size, sizeKnown, ?_, ?_, sizeNat, ?_⟩
  · rw [← sizeNat]
    exact BitVec.le_def.mp within
  · rw [← sizeBits, whole, sizeKnown]
  · rw [sizeNat, ← oneMore]
    exact enough

/-- `fffile_readwhole` reports success for a complete read only, except where the errors of
the size query and of the read hide each other. -/
theorem reportsComplete_iff (system : System) (dst : Ffvec) (limit : BitVec 64) :
    ReportsComplete system dst limit ↔ ¬system.HidesErrors dst limit := by
  constructor
  · intro complete hides
    obtain ⟨size, sizeKnown, _⟩ := complete hides.success
    rw [hides.sizeFails] at sizeKnown
    cases sizeKnown
  · intro shows
    cases sizeEq : system.fstat with
    | some size => exact complete_of_success sizeEq
    | none =>
        intro success
        obtain ⟨opened, within, grown, room, whole, _⟩ := fffileReadwhole_eq_zero success
        have size := fffileSize_of_fails sizeEq
        rw [size] at within room whole
        have largest : limit = BitVec.allOnes 64 := BitVec.allOnes_le_iff.mp within
        exact absurd ⟨largest, opened, sizeEq, ⟨grown, room⟩, whole.trans sizeEq⟩ shows

/-- A file that opens and on which `fstat` and `read` then fail, with a vector that keeps its
buffer. -/
def brokenFile : System where
  opens := true
  fstat := none
  ffvecRealloc dst n := if n ≤ dst.cap then some dst else none
  read _ := none
  realloc_room grown := by
    split at grown
    · obtain rfl := Option.some.inj grown
      assumption
    · cases grown
  read_within read := by cases read

/-- Nothing was read, and the length of `dst` is 2^64 - 1. -/
theorem brokenFile_reports_success :
    fffileReadwhole brokenFile ⟨0, 16⟩ (-1) = (0, ⟨-1, 16⟩) ∧
      ¬ReportsComplete brokenFile ⟨0, 16⟩ (-1) := by
  have result : fffileReadwhole brokenFile ⟨0, 16⟩ (-1) = (0, ⟨-1, 16⟩) := by decide
  refine ⟨result, ?_⟩
  intro complete
  obtain ⟨size, sizeKnown, _⟩ := complete (by rw [result])
  cases sizeKnown

end Ffos.File.ReadWhole
