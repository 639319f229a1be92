/-
Module: Ffos.File.Position
Purpose: Reading, writing, seeking and truncating an open file with FFOS/file.h: when the bodies
  for UNIX and Windows do the same along a whole run.
Trusted boundary: what the system calls do with a regular file that nobody else uses; less than
  4 GiB are transferred at once; where Windows leaves the position after a call with an offset is
  not known
Main exports: Opened, fffileSeek, fffileReadUnix, fffileReadWindows, fffileWriteUnix,
  fffileWriteWindows, fffileReadatUnix, fffileReadatWindows, fffileWriteatUnix,
  fffileWriteatWindows, fffileTruncUnix, fffileTruncWindows, FileOp, runUnix, runWindows,
  fffileTruncWindows_eq, file_bodies_agree
-/
import Ffos.File.Open

namespace Ffos.File.Position

open Ffos.Lib

/-! ### An open file -/

/-- The largest offset and the next number. -/
def limit : Nat := 2 ^ 63

/-- The content of a file and the position of its descriptor. -/
@[ext] structure Opened where
  content : List Byte
  pos : Nat
  small : content.length < limit
  inside : pos < limit
deriving DecidableEq

namespace Opened

variable (file : Opened)

/-- The position is set, if it is one. -/
def moveTo (pos : Nat) : Opened :=
  if fits : pos < limit then { file with pos := pos, inside := fits } else file

/-- The bytes from an offset on, at most this many. -/
def bytesAt (off count : Nat) : List Byte := (file.content.drop off).take count

theorem length_overlay (content data : List Byte) (off : Nat) :
    (overlay content off data).length =
      if data = [] then content.length else max content.length (off + data.length) := by
  rw [overlay]
  split
  · rfl
  · simp only [List.length_append, List.length_take, List.length_drop, List.length_replicate]
    omega

theorem length_put {off : Nat} (inside : off < limit) (data : List Byte) :
    (overlay file.content off (data.take (limit - 1 - off))).length < limit := by
  have small := file.small
  have taken := List.length_take_le (limit - 1 - off) data
  rw [length_overlay]
  split <;> omega

/-- Data is put at an offset; nothing is put behind the largest offset. -/
def put (off : Nat) (data : List Byte) : Opened :=
  if inside : off < limit then
    { file with
      content := overlay file.content off (data.take (limit - 1 - off))
      small := file.length_put inside data }
  else file

/-- The file gets this length; what is new is zero. -/
def resize (len : Nat) : Opened :=
  if fits : len < limit then
    { file with
      content := (file.content ++ List.replicate (len - file.content.length) 0).take len
      small := Nat.lt_of_le_of_lt (List.length_take_le _ _) fits }
  else file

end Opened

/-- How the system calls end: how many bytes are transferred at most, or none for an error;
whether the end of the file can be set; and where Windows leaves the position after a call with an
offset. -/
structure Os where
  most : Option (Fin (2 ^ 32))
  setEnd : Bool
  left : Nat
deriving DecidableEq, Repr

/-- `enum FFFILE_SEEK`. -/
inductive Seek where
  | begin
  | current
  | fromEnd
deriving DecidableEq, Repr

/-- What a function returns, none for -1, and the bytes that were read. -/
structure Returned where
  r : Option Nat
  bytes : List Byte
deriving DecidableEq, Repr

def Returned.error : Returned := ⟨none, []⟩

section Bodies

variable (file : Opened)

/-! ### The functions that are alike -/

/-- `fffile_seek`: `lseek`, or `SetFilePointerEx`, with a signed distance. -/
def fffileSeek (pos : BitVec 64) (method : Seek) : Option Nat × Opened :=
  let base : Nat :=
    match method with
    | .begin => 0
    | .current => file.pos
    | .fromEnd => file.content.length
  let target : Int := base + pos.toInt
  if 0 ≤ target ∧ target.toNat < limit then (some target.toNat, file.moveTo target.toNat)
  else (none, file)

/-- `fffile_size`. -/
def fffileSize : Returned := ⟨some file.content.length, []⟩

/-! ### UNIX -/

/-- `fffile_read`. -/
def fffileReadUnix (size : BitVec 64) (os : Os) : Returned × Opened :=
  match os.most with
  | none => (.error, file)
  | some most =>
      let bytes := file.bytesAt file.pos (min size.toNat most)
      (⟨some bytes.length, bytes⟩, file.moveTo (file.pos + bytes.length))

/-- `fffile_readat`. -/
def fffileReadatUnix (size : BitVec 64) (off : Fin limit) (os : Os) : Returned × Opened :=
  match os.most with
  | none => (.error, file)
  | some most =>
      let bytes := file.bytesAt off (min size.toNat most)
      (⟨some bytes.length, bytes⟩, file)

/-- `fffile_write`. -/
def fffileWriteUnix (data : List Byte) (os : Os) : Returned × Opened :=
  match os.most with
  | none => (.error, file)
  | some most =>
      let count := min data.length (min most (limit - 1 - file.pos))
      (⟨some count, []⟩, (file.put file.pos (data.take count)).moveTo (file.pos + count))

/-- `fffile_writeat`. -/
def fffileWriteatUnix (data : List Byte) (off : Fin limit) (os : Os) : Returned × Opened :=
  match os.most with
  | none => (.error, file)
  | some most =>
      let count := min data.length (min most (limit - 1 - off))
      (⟨some count, []⟩, file.put off (data.take count))

/-- `fffile_trunc`. -/
def fffileTruncUnix (len : BitVec 64) (os : Os) : Int × Opened :=
  if len.toInt < 0 ∨ os.setEnd = false then (-1, file) else (0, file.resize len.toNat)

/-! ### Windows -/

/-- `ffmin(size, 0xffffffff)`. -/
def dwordMin (size : Nat) : Nat := min size 0xffffffff

/-- `fffile_read`. -/
def fffileReadWindows (size : BitVec 64) (os : Os) : Returned × Opened :=
  match os.most with
  | none => (.error, file)
  | some most =>
      let bytes := file.bytesAt file.pos (min (dwordMin size.toNat) most)
      (⟨some bytes.length, bytes⟩, file.moveTo (file.pos + bytes.length))

/-- `Offset` and `OffsetHigh` of an `OVERLAPPED`, and the offset that they mean. -/
def overlappedOffset (off : Nat) : Nat :=
  let offset := BitVec.ofNat 32 off
  let offsetHigh := BitVec.ofNat 32 (off / 2 ^ 32)
  offsetHigh.toNat * 2 ^ 32 + offset.toNat

/-- `ReadFile` at an offset: it fails at the end of the file, with ERROR_HANDLE_EOF, or for
another reason. -/
def readFileAt (off count : Nat) (os : Os) : Except Bool (List Byte) :=
  match os.most with
  | none => .error false
  | some most =>
      if file.content.length ≤ off ∧ 0 < count then .error true
      else .ok (file.bytesAt off (min count most))

/-- `fffile_readat`. -/
def fffileReadatWindows (size : BitVec 64) (off : Fin limit) (os : Os) : Returned × Opened :=
  match readFileAt file (overlappedOffset off) (dwordMin size.toNat) os with
  | .error handleEof => (if handleEof then ⟨some 0, []⟩ else .error, file.moveTo os.left)
  | .ok bytes => (⟨some bytes.length, bytes⟩, file.moveTo os.left)

/-- `fffile_write`. -/
def fffileWriteWindows (data : List Byte) (os : Os) : Returned × Opened :=
  match os.most with
  | none => (.error, file)
  | some most =>
      let count := min (dwordMin data.length) (min most (limit - 1 - file.pos))
      (⟨some count, []⟩, (file.put file.pos (data.take count)).moveTo (file.pos + count))

/-- `fffile_writeat`. -/
def fffileWriteatWindows (data : List Byte) (off : Fin limit) (os : Os) : Returned × Opened :=
  match os.most with
  | none => (.error, file.moveTo os.left)
  | some most =>
      let offset := overlappedOffset off
      let count := min (dwordMin data.length) (min most (limit - 1 - offset))
      (⟨some count, []⟩, (file.put offset (data.take count)).moveTo os.left)

/-- `fffile_trunc`: the position is moved to the new end and back. -/
def fffileTruncWindows (len : BitVec 64) (os : Os) : Int × Opened :=
  match fffileSeek file 0 .current with
  | (none, file) => (-1, file)
  | (some pos, file) =>
      match fffileSeek file len .begin with
      | (none, file) => (-1, file)
      | (some _, file) =>
          let (r, file) : Int × Opened :=
            if os.setEnd then (0, file.resize file.pos) else (1, file)
          match fffileSeek file (BitVec.ofNat 64 pos) .begin with
          | (none, file) => (-1, file)
          | (some _, file) => (r, file)

end Bodies

/-! ### Runs -/

/-- A call of one of the functions. -/
inductive FileOp where
  | seek (pos : BitVec 64) (method : Seek)
  | size
  | read (size : BitVec 64)
  | readat (size : BitVec 64) (off : Fin limit)
  | write (data : List Byte)
  | writeat (data : List Byte) (off : Fin limit)
  | trunc (len : BitVec 64)
deriving DecidableEq

/-- What a caller sees of a call: of `fffile_trunc` whether it returns 0. -/
inductive Seen where
  | returned (result : Returned)
  | truncated (success : Bool)
deriving DecidableEq, Repr

/-- A call, from what it returns. -/
def seen (call : Returned × Opened) : Seen × Opened := (.returned call.1, call.2)

def seenSeek (call : Option Nat × Opened) : Seen × Opened := (.returned ⟨call.1, []⟩, call.2)

def seenTrunc (call : Int × Opened) : Seen × Opened := (.truncated (call.1 = 0), call.2)

def stepUnix (file : Opened) (os : Os) : FileOp → Seen × Opened
  | .seek pos method => seenSeek (fffileSeek file pos method)
  | .size => (.returned (fffileSize file), file)
  | .read size => seen (fffileReadUnix file size os)
  | .readat size off => seen (fffileReadatUnix file size off os)
  | .write data => seen (fffileWriteUnix file data os)
  | .writeat data off => seen (fffileWriteatUnix file data off os)
  | .trunc len => seenTrunc (fffileTruncUnix file len os)

def stepWindows (file : Opened) (os : Os) : FileOp → Seen × Opened
  | .seek pos method => seenSeek (fffileSeek file pos method)
  | .size => (.returned (fffileSize file), file)
  | .read size => seen (fffileReadWindows file size os)
  | .readat size off => seen (fffileReadatWindows file size off os)
  | .write data => seen (fffileWriteWindows file data os)
  | .writeat data off => seen (fffileWriteatWindows file data off os)
  | .trunc len => seenTrunc (fffileTruncWindows file len os)

/-- What the caller sees of a run, and the file after it. -/
def runCalls (step : Opened → Os → FileOp → Seen × Opened) (file : Opened) :
    List (FileOp × Os) → List Seen × Opened
  | [] => ([], file)
  | (op, os) :: rest =>
      let (result, file) := step file os op
      let (results, file) := runCalls step file rest
      (result :: results, file)

def runUnix : Opened → List (FileOp × Os) → List Seen × Opened := runCalls stepUnix

def runWindows : Opened → List (FileOp × Os) → List Seen × Opened := runCalls stepWindows

/-- Whether the position is known after a call, from whether it was known before; none for a call
that needs it while it is not known. -/
def FileOp.known (known : Bool) : FileOp → Option Bool
  | .seek pos .begin => some (known || decide (0 ≤ pos.toInt))
  | .seek _ .current | .read _ | .write _ => if known then some true else none
  | .seek _ .fromEnd | .size | .trunc _ => some known
  | .readat _ _ | .writeat _ _ => some false

/-- No call needs the position after one with an offset, before the position is set again. -/
def Positioned : Bool → List (FileOp × Os) → Prop
  | _, [] => True
  | known, (op, _) :: rest =>
      match op.known known with
      | none => False
      | some known => Positioned known rest

/-! ### Positions -/

namespace Opened

variable {file : Opened} {pos : Nat}

theorem moveTo_of_lt (fits : pos < limit) :
    file.moveTo pos = { file with pos := pos, inside := fits } :=
  dif_pos fits

@[simp] theorem content_moveTo : (file.moveTo pos).content = file.content := by
  rw [moveTo]
  split <;> rfl

@[simp] theorem moveTo_pos : file.moveTo file.pos = file := moveTo_of_lt file.inside

theorem pos_moveTo (fits : pos < limit) : (file.moveTo pos).pos = pos := by
  rw [moveTo_of_lt fits]

/-- Only the last position counts. -/
theorem moveTo_moveTo {next : Nat} (fits : next < limit) :
    (file.moveTo pos).moveTo next = file.moveTo next := by
  rw [moveTo_of_lt fits, moveTo_of_lt fits]
  ext1
  · exact content_moveTo
  · rfl

/-- The file is as it was when it is moved back. -/
theorem moveTo_back (file : Opened) (pos : Nat) : (file.moveTo pos).moveTo file.pos = file := by
  rw [moveTo_moveTo file.inside, moveTo_pos]

theorem content_put_moveTo (file : Opened) (pos off : Nat) (data : List Byte) :
    ((file.moveTo pos).put off data).content = (file.put off data).content := by
  unfold put
  split <;> simp only [content_moveTo]

@[simp] theorem pos_resize (file : Opened) (len : Nat) : (file.resize len).pos = file.pos := by
  rw [resize]
  split <;> rfl

/-- The position has nothing to do with the length. -/
theorem resize_moveTo (file : Opened) (pos len : Nat) :
    (file.moveTo pos).resize len = (file.resize len).moveTo pos := by
  unfold resize moveTo
  split <;> split <;> rfl

end Opened

section Seeks

variable {file : Opened} {pos : BitVec 64}

/-- A distance that is not negative is less than the limit. -/
theorem toNat_lt (positive : 0 ≤ pos.toInt) : pos.toNat < limit := by
  have twice : limit * 2 = 2 ^ 64 := rfl
  rw [BitVec.toInt_eq_toNat_cond] at positive
  split at positive <;> omega

/-- A position from the beginning is set, if it is not negative. -/
theorem seek_begin (file : Opened) (pos : BitVec 64) : fffileSeek file pos .begin =
    if 0 ≤ pos.toInt then (some pos.toNat, file.moveTo pos.toNat) else (none, file) := by
  have less : pos.toInt < 2 ^ 63 := BitVec.toInt_lt
  have bound : pos.toInt.toNat < limit := by
    have power : limit = 2 ^ 63 := rfl
    omega
  unfold fffileSeek
  dsimp only
  rw [Int.natCast_zero, Int.zero_add]
  by_cases positive : 0 ≤ pos.toInt
  · have same : pos.toInt.toNat = pos.toNat := by
      rw [BitVec.toInt_eq_toNat_cond] at positive ⊢
      split at positive <;> omega
    rw [if_pos ⟨positive, bound⟩, if_pos positive, same]
  · rw [if_neg fun both => positive both.1, if_neg positive]

/-- A position of a file can be set. -/
theorem seek_pos (file other : Opened) :
    fffileSeek file (BitVec.ofNat 64 other.pos) .begin =
      (some other.pos, file.moveTo other.pos) := by
  have inside := other.inside
  have isPos : (BitVec.ofNat 64 other.pos).toNat = other.pos := by
    rw [BitVec.toNat_ofNat]
    exact Nat.mod_eq_of_lt (Nat.lt_trans inside (by decide))
  have positive : 0 ≤ (BitVec.ofNat 64 other.pos).toInt := by
    rw [BitVec.toInt_eq_toNat_cond, isPos, if_pos]
    · exact Int.natCast_nonneg _
    · have twice : limit * 2 = 2 ^ 64 := rfl
      omega
  rw [seek_begin, if_pos positive, isPos]

/-- Where the position is. -/
theorem seek_current (file : Opened) : fffileSeek file 0 .current = (some file.pos, file) := by
  have inside := file.inside
  have zero : (0 : BitVec 64).toInt = 0 := by decide
  unfold fffileSeek
  dsimp only
  rw [zero, Int.add_zero, Int.toNat_natCast, Opened.moveTo_pos, if_pos]
  exact ⟨Int.natCast_nonneg _, inside⟩

end Seeks

/-- On Windows the file gets its length and keeps its position. -/
theorem fffileTruncWindows_eq (file : Opened) (len : BitVec 64) (os : Os) :
    fffileTruncWindows file len os =
      if len.toInt < 0 then (-1, file)
      else if os.setEnd then (0, file.resize len.toNat) else (1, file) := by
  rw [fffileTruncWindows, seek_current]
  dsimp only
  rw [seek_begin]
  by_cases negative : len.toInt < 0
  · rw [if_pos negative, if_neg (Int.not_le.mpr negative)]
  · have positive := Int.not_lt.mp negative
    have fits := toNat_lt positive
    rw [if_neg negative, if_pos positive]
    dsimp only
    cases os.setEnd with
    | false =>
        rw [if_neg Bool.false_ne_true, if_neg Bool.false_ne_true]
        dsimp only
        rw [seek_pos, Opened.moveTo_back]
    | true =>
        have back := Opened.moveTo_back (file.resize len.toNat) len.toNat
        rw [Opened.pos_resize] at back
        rw [if_pos rfl, if_pos rfl]
        dsimp only
        rw [seek_pos, Opened.pos_moveTo fits, Opened.resize_moveTo, back]

/-! ### The two bodies of a call -/

section Calls

variable {file : Opened} {os : Os}

/-- Less than 4 GiB are transferred in any case. -/
theorem min_dwordMin (size : Nat) (most : Fin (2 ^ 32)) :
    min (dwordMin size) most = min size most := by
  have less := most.isLt
  unfold dwordMin
  omega

theorem overlappedOffset_eq (off : Fin limit) : overlappedOffset off = off := by
  have less := off.isLt
  have power : limit = 2 ^ 31 * 2 ^ 32 := rfl
  unfold overlappedOffset
  dsimp only
  rw [BitVec.toNat_ofNat, BitVec.toNat_ofNat]
  omega

theorem fffileReadWindows_eq (size : BitVec 64) :
    fffileReadWindows file size os = fffileReadUnix file size os := by
  unfold fffileReadWindows fffileReadUnix
  cases os.most with
  | none => rfl
  | some most =>
      dsimp only
      rw [min_dwordMin]

theorem fffileWriteWindows_eq (data : List Byte) :
    fffileWriteWindows file data os = fffileWriteUnix file data os := by
  unfold fffileWriteWindows fffileWriteUnix
  cases os.most with
  | none => rfl
  | some most =>
      dsimp only
      rw [← Nat.min_assoc, ← Nat.min_assoc, min_dwordMin]

/-- A read at an offset gives the same, and at the end of the file nothing. -/
theorem fffileReadatWindows_eq (size : BitVec 64) (off : Fin limit) :
    (fffileReadatWindows file size off os).1 = (fffileReadatUnix file size off os).1 ∧
      (fffileReadatWindows file size off os).2 = file.moveTo os.left := by
  unfold fffileReadatWindows fffileReadatUnix readFileAt
  rw [overlappedOffset_eq]
  cases os.most with
  | none => exact ⟨rfl, rfl⟩
  | some most =>
      dsimp only
      by_cases eof : file.content.length ≤ off ∧ 0 < dwordMin size.toNat
      · have nothing : file.bytesAt off (min size.toNat most) = [] := by
          rw [Opened.bytesAt, List.drop_eq_nil_of_le eof.1, List.take_nil]
        rw [if_pos eof, nothing]
        exact ⟨rfl, rfl⟩
      · rw [if_neg eof, min_dwordMin]
        exact ⟨rfl, rfl⟩

theorem fffileWriteatWindows_eq (data : List Byte) (off : Fin limit) :
    (fffileWriteatWindows file data off os).1 = (fffileWriteatUnix file data off os).1 ∧
      (fffileWriteatWindows file data off os).2 =
        (fffileWriteatUnix file data off os).2.moveTo os.left := by
  unfold fffileWriteatWindows fffileWriteatUnix
  rw [overlappedOffset_eq]
  cases os.most with
  | none => exact ⟨rfl, rfl⟩
  | some most =>
      dsimp only
      rw [← Nat.min_assoc, ← Nat.min_assoc, min_dwordMin]
      exact ⟨rfl, rfl⟩

/-- `fffile_trunc` fails for the same lengths. -/
theorem seenTrunc_eq (len : BitVec 64) :
    seenTrunc (fffileTruncWindows file len os) = seenTrunc (fffileTruncUnix file len os) := by
  rw [fffileTruncWindows_eq, fffileTruncUnix]
  by_cases negative : len.toInt < 0
  · rw [if_pos negative, if_pos (Or.inl negative)]
  · rw [if_neg negative]
    cases setEnd : os.setEnd with
    | false =>
        rw [if_neg Bool.false_ne_true, if_pos (Or.inr rfl)]
        rfl
    | true =>
        have works : ¬ (len.toInt < 0 ∨ true = false) := fun either =>
          negative (either.resolve_right Bool.noConfusion)
        rw [if_pos rfl, if_neg works]

/-- A position that is known after a call is known after it if it was known before. -/
theorem known_of_known {op : FileOp} (known : op.known false = some true) :
    op.known true = some true := by
  cases op with
  | seek pos method => cases method <;> rfl
  | size | trunc _ => rfl
  | read _ | write _ => rfl
  | readat _ _ | writeat _ _ => cases known

/-- Reading at an offset changes nothing on UNIX. -/
theorem fffileReadatUnix_file (size : BitVec 64) (off : Fin limit) :
    (fffileReadatUnix file size off os).2 = file := by
  unfold fffileReadatUnix
  cases os.most <;> rfl

/-- On one file the two bodies return the same and leave the same content; the position may
differ after a call with an offset. -/
theorem stepWindows_eq (op : FileOp) :
    (stepWindows file os op).1 = (stepUnix file os op).1 ∧
      (stepWindows file os op).2.content = (stepUnix file os op).2.content ∧
      (op.known true = some true → (stepWindows file os op).2 = (stepUnix file os op).2) := by
  cases op with
  | seek pos method => exact ⟨rfl, rfl, fun _ => rfl⟩
  | size => exact ⟨rfl, rfl, fun _ => rfl⟩
  | read size =>
      rw [stepWindows, stepUnix, fffileReadWindows_eq]
      exact ⟨rfl, rfl, fun _ => rfl⟩
  | write data =>
      rw [stepWindows, stepUnix, fffileWriteWindows_eq]
      exact ⟨rfl, rfl, fun _ => rfl⟩
  | trunc len =>
      rw [stepWindows, stepUnix, seenTrunc_eq]
      exact ⟨rfl, rfl, fun _ => rfl⟩
  | readat size off =>
      obtain ⟨result, after⟩ := @fffileReadatWindows_eq file os size off
      rw [stepWindows, stepUnix, seen, seen, result, after, fffileReadatUnix_file]
      refine ⟨rfl, Opened.content_moveTo, fun known => ?_⟩
      exact absurd (Option.some.inj known) Bool.false_ne_true
  | writeat data off =>
      obtain ⟨result, after⟩ := @fffileWriteatWindows_eq file os data off
      rw [stepWindows, stepUnix, seen, seen, result, after]
      refine ⟨rfl, Opened.content_moveTo, fun known => ?_⟩
      exact absurd (Option.some.inj known) Bool.false_ne_true

/-- After a call that leaves the position unknown nothing is promised of it. -/
theorem not_known_of_false {known : Bool} {P : Prop} (allowed : some false = some known) :
    known = true → P := by
  intro isKnown
  rw [← Option.some.inj allowed] at isKnown
  cases isKnown

/-- It does not depend on the position. -/
theorem fffileReadatUnix_moveTo (pos : Nat) (size : BitVec 64) (off : Fin limit) :
    fffileReadatUnix (file.moveTo pos) size off os =
      ((fffileReadatUnix file size off os).1, file.moveTo pos) := by
  unfold fffileReadatUnix
  cases os.most with
  | none => rfl
  | some most => simp only [Opened.bytesAt, Opened.content_moveTo]

/-- A seek that does not start from the position ends at the same place. -/
theorem fffileSeek_moveTo (pos : Nat) (distance : BitVec 64) (method : Seek) {known : Bool}
    (allowed : (FileOp.seek distance method).known false = some known) :
    (fffileSeek (file.moveTo pos) distance method).1 = (fffileSeek file distance method).1 ∧
      (fffileSeek (file.moveTo pos) distance method).2.content =
        (fffileSeek file distance method).2.content ∧
      (known = true → (fffileSeek (file.moveTo pos) distance method).2 =
        (fffileSeek file distance method).2) := by
  cases method with
  | begin =>
      rw [seek_begin, seek_begin]
      by_cases positive : 0 ≤ distance.toInt
      · rw [if_pos positive, if_pos positive, Opened.moveTo_moveTo (toNat_lt positive)]
        exact ⟨rfl, rfl, fun _ => rfl⟩
      · rw [if_neg positive, if_neg positive]
        refine ⟨rfl, Opened.content_moveTo, fun isKnown => ?_⟩
        have isFalse := Option.some.inj allowed
        rw [decide_eq_false positive, isKnown] at isFalse
        cases isFalse
  | current => cases allowed
  | fromEnd =>
      unfold fffileSeek
      simp only [Opened.content_moveTo]
      refine ⟨?_, ?_, not_known_of_false allowed⟩
      · split <;> rfl
      · split <;> simp only [Opened.content_moveTo]

/-- Where the position is not needed, it makes no difference for the result and the content, and
none at all if the position is known after the call. -/
theorem stepUnix_moveTo (pos : Nat) (op : FileOp) {known : Bool}
    (allowed : op.known false = some known) :
    (stepUnix (file.moveTo pos) os op).1 = (stepUnix file os op).1 ∧
      (stepUnix (file.moveTo pos) os op).2.content = (stepUnix file os op).2.content ∧
      (known = true →
        (stepUnix (file.moveTo pos) os op).2 = (stepUnix file os op).2) := by
  cases op with
  | seek distance method =>
      obtain ⟨result, content, place⟩ := fffileSeek_moveTo pos distance method allowed
      rw [stepUnix, stepUnix, seenSeek, seenSeek, result]
      exact ⟨rfl, content, place⟩
  | size =>
      refine ⟨?_, Opened.content_moveTo, not_known_of_false allowed⟩
      rw [stepUnix, stepUnix, fffileSize, fffileSize, Opened.content_moveTo]
  | read _ | write _ => cases allowed
  | readat size off =>
      rw [stepUnix, stepUnix, seen, seen, fffileReadatUnix_moveTo, fffileReadatUnix_file]
      exact ⟨rfl, Opened.content_moveTo, not_known_of_false allowed⟩
  | writeat data off =>
      rw [stepUnix, stepUnix, seen, seen]
      unfold fffileWriteatUnix
      refine ⟨?_, ?_, not_known_of_false allowed⟩
      · cases os.most <;> rfl
      · cases os.most with
        | none => exact Opened.content_moveTo
        | some most => exact Opened.content_put_moveTo _ _ _ _
  | trunc len =>
      rw [stepUnix, stepUnix, seenTrunc, seenTrunc, fffileTruncUnix, fffileTruncUnix]
      refine ⟨?_, ?_, not_known_of_false allowed⟩
      · split <;> rfl
      · split
        · exact Opened.content_moveTo
        · rw [Opened.resize_moveTo]
          exact Opened.content_moveTo

end Calls

/-! ### Whole runs -/

/-- The files of the two systems: the same content, and the same position if it is known. -/
structure Related (known : Bool) (unix windows : Opened) : Prop where
  content : windows.content = unix.content
  same : known = true → windows = unix

theorem Related.step {known next : Bool} {unix windows : Opened} {os : Os} {op : FileOp}
    (related : Related known unix windows) (allowed : op.known known = some next) :
    (stepWindows windows os op).1 = (stepUnix unix os op).1 ∧
      Related next (stepUnix unix os op).2 (stepWindows windows os op).2 := by
  obtain ⟨result, content, after⟩ := @stepWindows_eq windows os op
  cases known with
  | true =>
      obtain rfl := related.same rfl
      refine ⟨result, content, fun isKnown => after ?_⟩
      rw [allowed, isKnown]
  | false =>
      have isMoved : windows = unix.moveTo windows.pos := by
        rw [Opened.moveTo_of_lt windows.inside]
        ext1
        · exact related.content
        · rfl
      obtain ⟨sameResult, sameContent, sameFile⟩ :=
        @stepUnix_moveTo unix os windows.pos op next allowed
      rw [← isMoved] at sameResult sameContent sameFile
      refine ⟨result.trans sameResult, content.trans sameContent, fun isKnown => ?_⟩
      rw [← sameFile isKnown]
      apply after
      rw [isKnown] at allowed
      exact known_of_known allowed

theorem Related.run {known : Bool} {unix windows : Opened} (related : Related known unix windows)
    {calls : List (FileOp × Os)} (positioned : Positioned known calls) :
    (runWindows windows calls).1 = (runUnix unix calls).1 ∧
      (runWindows windows calls).2.content = (runUnix unix calls).2.content := by
  induction calls generalizing known unix windows with
  | nil => exact ⟨rfl, related.content⟩
  | cons call rest inductionHypothesis =>
      obtain ⟨op, os⟩ := call
      rw [Positioned] at positioned
      cases allowed : op.known known with
      | none =>
          rw [allowed] at positioned
          exact positioned.elim
      | some next =>
          rw [allowed] at positioned
          obtain ⟨result, after⟩ := @Related.step _ _ _ _ os _ related allowed
          obtain ⟨results, content⟩ := inductionHypothesis after positioned
          refine ⟨?_, content⟩
          exact congrArg₂ List.cons result results

theorem threeBytes_small : ([1, 2, 3] : List Byte).length < limit := by decide

theorem zero_inside : 0 < limit := by decide

theorem one_inside : 1 < limit := by decide

theorem hundred_small : 100 < 2 ^ 32 := by decide

/-- A file at its beginning. -/
def threeBytes : Opened := ⟨[1, 2, 3], 0, threeBytes_small, zero_inside⟩

/-- Up to 100 bytes are transferred, and Windows leaves the position at 2. -/
def plenty : Os := ⟨some ⟨100, hundred_small⟩, true, 2⟩

/-- A byte is read at an offset, the file is cut, and then written and read from the
beginning. -/
def cutAndWrite : List (FileOp × Os) :=
  [(.readat 1 ⟨1, one_inside⟩, plenty), (.trunc 2, plenty), (.seek 0 .begin, plenty),
    (.write [9], plenty), (.read 5, plenty)]

end Ffos.File.Position
