/-
Module: Ffos.Winreg.Read
Purpose: Which values `ffwinreg_read` gives whole, in a buffer of its own or in one of the
  caller, and how many queries it needs.
Trusted boundary: none
Main exports: Stored, Ffbase.Converts, readLoop_total, readText_eq, GivesWhole, ReadsWhole,
  Manageable, ffwinregRead_whole_iff
-/
import Ffos.Winreg.Query

namespace Ffos.Winreg

open Ffos.Lib

/-! ### Numbers and units -/

theorem unitsOf_unitBytes (units : List Wchar) : unitsOf (unitBytes units) = units := by
  induction units with
  | nil => rfl
  | cons unit units inductionHypothesis =>
      have whole : (unit >>> 8).setWidth 8 ++ unit.setWidth 8 = unit := by
        apply BitVec.eq_of_getLsbD_eq
        intro i inside
        rw [BitVec.getLsbD_append]
        split
        · simp; omega
        · simp; grind
      rw [unitBytes, List.flatMap_cons]
      exact congr (congrArg List.cons whole) inductionHypothesis

theorem length_unitBytes (units : List Wchar) : (unitBytes units).length = 2 * units.length := by
  induction units with
  | nil => rfl
  | cons unit units inductionHypothesis =>
      rw [unitBytes, List.flatMap_cons, List.length_append, ← unitBytes, inductionHypothesis,
        List.length_cons]
      simp only [List.length_cons, List.length_nil]
      omega

theorem toInt32_of_range {r : Int} (low : -2 ^ 31 ≤ r) (high : r < 2 ^ 31) : toInt32 r = r := by
  rw [toInt32, BitVec.toInt_ofInt]
  exact Int.bmod_eq_of_le (by omega) (by omega)

theorem toNat_toInt32_lt (r : Int) : (toInt32 r).toNat < 2 ^ 31 := by
  have bound : toInt32 r < 2 ^ 31 := BitVec.toInt_lt
  omega

theorem toSize_ofNat {n : Nat} (small : n < 2 ^ 64) : toSize n = n := by
  rw [toSize, BitVec.ofInt_natCast, BitVec.toNat_ofNat, Nat.mod_eq_of_lt small]

/-! ### What is stored -/

/-- A text without one terminator. -/
def withoutTerminator (text : List Char) : List Char :=
  if text.getLast? = some '\x00' then text.dropLast else text

/-- A value of the registry: a well-formed text, which may have a terminator, or the bytes of
another type. -/
inductive Stored where
  | text (type : RegType) (chars : List Char) (isText : type.isText = true)
      (small : (unitBytes (utf16 chars)).length < 2 ^ 32)
  | binary (type : RegType) (bytes : List Byte) (other : type.isText = false)
      (small : bytes.length < 2 ^ 32)

def Stored.value : Stored → RegValue
  | .text type chars _ small => ⟨type, unitBytes (utf16 chars), small⟩
  | .binary type bytes _ small => ⟨type, bytes, small⟩

/-- What a read has to give: the bytes, or the UTF-8 form of a text. -/
def Stored.contents : Stored → List Byte
  | .text _ chars _ _ => utf8 (withoutTerminator chars)
  | .binary _ bytes _ _ => bytes

theorem utf16_withoutTerminator (text : List Char) :
    (if (utf16 text).getLast? = some 0 then (utf16 text).dropLast else utf16 text) =
      utf16 (withoutTerminator text) := by
  have last : (utf16 text).getLast? = some 0 ↔ text.getLast? = some '\x00' :=
    @getLast?_utf16_iff '\x00' (by decide) text
  rw [withoutTerminator]
  by_cases terminated : text.getLast? = some '\x00'
  · rw [if_pos (last.mpr terminated), if_pos terminated]
    obtain ⟨front, rfl⟩ := List.getLast?_eq_some_iff.mp terminated
    have unit : utf16Char '\x00' = [0] := rfl
    rw [utf16_concat, unit, List.dropLast_concat, List.dropLast_concat]
  · rw [if_neg (last.not.mpr terminated), if_neg terminated]

/-- The size that is reported for a text that does not fit is enough for it. -/
theorem length_contents_le (text : List Char) :
    (utf8 (withoutTerminator text)).length ≤ (unitBytes (utf16 text)).length / 2 * 4 := by
  have shorter : (utf16 (withoutTerminator text)).length ≤ (utf16 text).length := by
    rw [← utf16_withoutTerminator]
    split
    · rw [List.length_dropLast]
      omega
    · exact Nat.le_refl _
  have bytes := (length_utf8 (withoutTerminator text)).2
  rw [length_unitBytes]
  omega

/-! ### What is assumed of ffbase -/

/-- What ffbase says of `ffs_wtou` for the units of a text: without a buffer it returns the
number of bytes needed, with one it succeeds if and only if they fit. A failure is a negative
`int`. -/
structure Ffbase.ConvertsText (lib : Ffbase) (text : List Char) : Prop where
  measures : (lib.wtou none (utf16 text)).1 = (utf8 text).length
  fits : ∀ cap, (utf8 text).length ≤ cap →
    lib.wtou (some cap) (utf16 text) = (((utf8 text).length : Int), utf8 text)
  fails : ∀ cap, cap < (utf8 text).length →
    -2 ^ 31 ≤ (lib.wtou (some cap) (utf16 text)).1 ∧ (lib.wtou (some cap) (utf16 text)).1 < 0

/-- The conversion of what is stored. -/
def Ffbase.Converts (lib : Ffbase) : Stored → Prop
  | .text _ chars _ _ => lib.ConvertsText (withoutTerminator chars)
  | .binary _ _ _ _ => True

/-- What ffbase says of `ffsz_utow` for the bytes of a name: it returns the number of units
with the terminator, or a negative number if they do not fit. -/
structure Ffbase.ConvertsName (lib : Ffbase) (name : List Char) : Prop where
  short : (utf8 name).length < 2 ^ 61
  fits : ∀ cap, (utf16 name).length < cap →
    lib.szUtow cap (utf8 name) = (((utf16 name).length : Int) + 1, utf16 name)
  fails : ∀ cap, cap ≤ (utf16 name).length → (lib.szUtow cap (utf8 name)).1 < 0

/-- `ffmem_alloc` succeeds, for every size that is not a negative number. -/
def Ffbase.Allocates (lib : Ffbase) : Prop := ∀ size < 2 ^ 63, ∃ block, lib.alloc size = some block

section Name

variable {lib : Ffbase} {name : List Char}

theorem ffUtow_fits (converts : lib.ConvertsName name) {cap : Nat}
    (room : (utf16 name).length < cap) :
    ffUtow lib cap (utf8 name) = ((utf16 name).length + 1, utf16 name) := by
  rw [ffUtow, converts.fits cap room]
  simp only
  rw [if_pos (by omega)]
  rfl

/-- The name of a value is converted, on the stack or on the heap. -/
theorem ffsUtow_eq (converts : lib.ConvertsName name) (allocates : lib.Allocates) :
    ffsUtow lib wnameCount (utf8 name) = some (utf16 name) := by
  rw [ffsUtow]
  rcases Nat.lt_or_ge (utf16 name).length wnameCount with short | long
  · rw [ffUtow_fits converts short, if_pos (Nat.succ_ne_zero _)]
  · have failed : (ffUtow lib wnameCount (utf8 name)).1 = 0 := by
      have negative := converts.fails wnameCount long
      rw [ffUtow]
      exact if_neg (Int.not_le.mpr negative)
    have room : (utf16 name).length < (utf8 name).length + 1 :=
      Nat.lt_succ_of_le (length_utf8 name).1
    have bounded := converts.short
    obtain ⟨block, allocated⟩ := allocates (((utf8 name).length + 1) * 2) (by omega)
    rw [if_neg (not_not.mpr failed), allocated]
    simp only [ffUtow_fits converts room]
    rfl

end Name

/-! ### The buffers -/

/-- The variables fit together: the buffer at `valptr` has room for `size` bytes, and that of
the caller has the size that it says. -/
structure Ready (st : Reading) : Prop where
  room : st.size ≤ st.memory.length
  capacity : ∀ data ∈ st.val.data, data.length = st.val.datalen
  user : st.valptr = .user → st.val.data ≠ none
  heap : st.valptr = .heap ↔ st.outbuf ≠ none
  stack : st.valptr = .stack → st.val.data = none

/-- A value has been written to `valptr`. -/
structure Holds (before : Reading) (bytes : List Byte) (st : Reading) : Prop where
  memory : st.memory.take st.size = bytes
  size : st.size = bytes.length
  datalen : st.val.datalen = before.val.datalen
  data : st.val.data.map List.length = before.val.data.map List.length
  valptr : st.valptr = before.valptr
  heap : st.valptr = .heap ↔ st.outbuf ≠ none

section Buffers

variable {st : Reading} {bytes : List Byte}

theorem storeAll_front {buffer values : List Byte} (room : values.length ≤ buffer.length) :
    storeAll buffer 0 values = some (values ++ buffer.drop values.length) := by
  rw [storeAll, if_pos (by omega), List.take_zero, List.nil_append, Nat.zero_add]

theorem length_front {buffer values : List Byte} (room : values.length ≤ buffer.length) :
    (values ++ buffer.drop values.length).length = buffer.length := by
  rw [List.length_append, List.length_drop]
  omega

/-- A value that is not larger than `size` can be written. -/
theorem fill_holds (ready : Ready st) (fits : bytes.length ≤ st.size) :
    ∃ filled, st.fill bytes = some filled ∧ Holds st bytes filled := by
  have room : bytes.length ≤ st.memory.length := Nat.le_trans fits ready.room
  have sameLength := length_front room
  refine ⟨_, by rw [Reading.fill, storeAll_front room, Option.map_some], ?_⟩
  obtain ⟨val, stack, outbuf, valptr, size⟩ := st
  cases valptr with
  | stack =>
      exact ⟨List.take_left, rfl, rfl, rfl, rfl, ready.heap⟩
  | user =>
      obtain ⟨data, isData⟩ : ∃ data, val.data = some data :=
        Option.ne_none_iff_exists'.mp (ready.user rfl)
      refine ⟨List.take_left, rfl, rfl, ?_, rfl, ready.heap⟩
      simp only [Reading.memory, isData, Option.getD_some] at sameLength
      simp only [Reading.overwrite, Reading.memory, isData, Option.getD_some, Option.map_some,
        sameLength]
  | heap =>
      exact ⟨List.take_left, rfl, rfl, rfl, rfl, iff_of_true rfl (Option.some_ne_none _)⟩

theorem Holds.capacity {filled : Reading} (holds : Holds st bytes filled) (ready : Ready st) :
    ∀ data ∈ filled.val.data, data.length = filled.val.datalen := by
  intro data isData
  have lengths := holds.data
  rw [isData, Option.map_some] at lengths
  obtain ⟨old, isOld, same⟩ := Option.map_eq_some_iff.mp lengths.symm
  rw [holds.datalen, ← ready.capacity old isOld, same]

end Buffers

/-! ### Two queries are enough -/

section Total

variable {lib : Ffbase} {type : RegType} {st : Reading}

theorem convertText_total {units : List Wchar} {size : Nat} {val : ReadVal} {data : List Byte}
    (isData : val.data = some data) (capacity : data.length = val.datalen) :
    ∃ r after, convertText lib type units size val = some (.done r after) := by
  have room := lib.wtou_within val.datalen units
  rw [← capacity] at room
  simp only [convertText, isData, Option.bind_eq_bind, Option.bind_some, ← capacity,
    storeAll_front room]
  split
  · exact ⟨_, _, rfl⟩
  · exact ⟨_, _, rfl⟩

/-- What is at `valptr` can be copied to a new block of its size. -/
theorem copy_total {outbuf : List Byte} (allocated : lib.alloc st.size = some outbuf) :
    ∃ copied, storeAll outbuf 0 (st.memory.take st.size) = some copied := by
  have room : (st.memory.take st.size).length ≤ outbuf.length := by
    rw [lib.alloc_size _ _ allocated, List.length_take]
    exact Nat.min_le_left _ _
  exact ⟨_, storeAll_front room⟩

theorem readText_total (capacity : ∀ data ∈ st.val.data, data.length = st.val.datalen) :
    ∃ r after, readText lib type st = some (.done r after) := by
  unfold readText
  dsimp only
  split
  · split
    · exact ⟨_, _, rfl⟩
    · next block allocated => exact convertText_total rfl (lib.alloc_size _ _ allocated)
  · next data isData =>
    split
    · split
      · exact ⟨_, _, rfl⟩
      · next outbuf allocated =>
        obtain ⟨copied, isCopied⟩ := copy_total allocated
        rw [isCopied]
        exact convertText_total isData (capacity data isData)
    · exact convertText_total isData (capacity data isData)

theorem readBinary_total : ∃ r after, readBinary lib type st = some (.done r after) := by
  unfold readBinary
  split
  · exact ⟨_, _, rfl⟩
  · split
    · exact ⟨_, _, rfl⟩
    · split
      · exact ⟨_, _, rfl⟩
      · next outbuf allocated =>
        obtain ⟨copied, isCopied⟩ := copy_total allocated
        rw [isCopied]
        exact ⟨_, _, rfl⟩

/-- After a value that did not fit, the variables fit together again. -/
theorem ready_of_again {needed : Nat} {after : Reading} (ready : Ready st)
    (goesOn : readMore lib type { st with size := needed } = .again after) : Ready after := by
  obtain ⟨_, outbuf, allocated, rfl⟩ := readMore_again goesOn
  refine ⟨Nat.le_of_eq (lib.alloc_size _ _ allocated).symm, ready.capacity, ?_, ?_, ?_⟩
  · exact fun other => nomatch other
  · exact iff_of_true rfl (Option.some_ne_none outbuf)
  · exact fun other => nomatch other

/-- An iteration stays inside of the buffers. -/
theorem readIteration_total (ready : Ready st) (value : Option RegValue) :
    (∃ r after, readIteration lib (regQueryValue value st.size) st = some (.done r after)) ∨
      ∃ after, readIteration lib (regQueryValue value st.size) st = some (.again after) ∧
        Ready after := by
  cases value with
  | none => exact Or.inl ⟨_, _, rfl⟩
  | some value =>
      rw [regQueryValue]
      split
      · next fits =>
        obtain ⟨filled, isFilled, holds⟩ := fill_holds ready fits
        simp only [readIteration, isFilled, Option.bind_eq_bind, Option.bind_some]
        left
        split
        · exact readText_total (holds.capacity ready)
        · exact readBinary_total
      · rw [readIteration]
        cases next : readMore lib value.type { st with size := value.bytes.length } with
        | done r after => exact Or.inl ⟨r, after, rfl⟩
        | again after => exact Or.inr ⟨after, rfl, ready_of_again ready next⟩

theorem readLoop_none {values : Nat → Option RegValue} {queries : Nat}
    (fails : readIteration lib (regQueryValue (values queries) st.size) st = none) :
    readLoop lib values queries st = none := by
  rw [readLoop]
  split
  · rfl
  · next same => rw [fails] at same; cases same
  · next same => rw [fails] at same; cases same

theorem readLoop_done {values : Nat → Option RegValue} {queries : Nat} {r : Int} {after : ReadVal}
    (ends : readIteration lib (regQueryValue (values queries) st.size) st = some (.done r after)) :
    readLoop lib values queries st = some (r, after, queries + 1) := by
  rw [readLoop]
  split
  · next nothing => rw [ends] at nothing; cases nothing
  · next same => rw [ends] at same; cases same; rfl
  · next same => rw [ends] at same; cases same

theorem readLoop_again {values : Nat → Option RegValue} {queries : Nat} {after : Reading}
    (goesOn : readIteration lib (regQueryValue (values queries) st.size) st = some (.again after)) :
    readLoop lib values queries st = readLoop lib values (queries + 1) after := by
  rw [readLoop]
  split
  · next nothing => rw [goesOn] at nothing; cases nothing
  · next same => rw [goesOn] at same; cases same
  · next same => rw [goesOn] at same; cases same; rfl

/-- The loop ends after at most two queries, and after one if there is a buffer on the heap. -/
theorem readLoop_total {values : Nat → Option RegValue} {queries : Nat} (ready : Ready st) :
    ∃ r after count, readLoop lib values queries st = some (r, after, count) ∧
      count ≤ queries + if st.outbuf = none then 2 else 1 := by
  rcases readIteration_total ready (values queries) with ⟨r, after, ends⟩ | ⟨after, goesOn, readyAfter⟩
  · refine ⟨r, after, queries + 1, readLoop_done ends, ?_⟩
    split <;> omega
  · obtain ⟨nothing, isHeap⟩ := outbuf_of_again goesOn
    rw [readLoop_again goesOn, if_pos nothing]
    -- The second query is the last one.
    rcases readIteration_total readyAfter (values (queries + 1)) with
      ⟨r, last, ends⟩ | ⟨last, goesOn, _⟩
    · exact ⟨r, last, queries + 2, readLoop_done ends, Nat.le_refl _⟩
    · exact absurd (outbuf_of_again goesOn).1 isHeap

end Total

/-! ### Texts -/

section Text

variable {lib : Ffbase} {type : RegType} {st : Reading} {text : List Char}

/-- A text that fits is converted. -/
theorem convertText_fits (converts : lib.ConvertsText text) (short : (utf8 text).length < 2 ^ 31)
    {val : ReadVal} {data : List Byte} (isData : val.data = some data)
    (capacity : data.length = val.datalen) (room : (utf8 text).length ≤ data.length) (size : Nat) :
    convertText lib type (utf16 text) size val =
      some (.done 1 ⟨type, some (utf8 text ++ data.drop (utf8 text).length),
        (utf8 text).length⟩) := by
  have same : toInt32 ((utf8 text).length : Int) = (utf8 text).length :=
    toInt32_of_range (by omega) (by omega)
  rw [convertText, isData, ← capacity]
  simp only [Option.bind_eq_bind, Option.bind_some, converts.fits _ room, storeAll_front room, same]
  rw [if_neg (by omega), Int.toNat_natCast]

/-- A text that does not fit is reported with a size. -/
theorem convertText_small (converts : lib.ConvertsText text) {val : ReadVal} {data : List Byte}
    (isData : val.data = some data) (capacity : data.length = val.datalen)
    (small : data.length < (utf8 text).length) (size : Nat) :
    ∃ written, convertText lib type (utf16 text) size val =
      some (.done 0 ⟨type, some written, size / 2 * 4⟩) := by
  have room := lib.wtou_within data.length (utf16 text)
  obtain ⟨low, negative⟩ := converts.fails _ small
  have same := toInt32_of_range low (by omega)
  rw [convertText, isData, ← capacity]
  simp only [Option.bind_eq_bind, Option.bind_some, storeAll_front room, same, if_pos negative]
  exact ⟨_, rfl⟩

/-- Nothing that is converted is longer than an `int` says. -/
theorem convertText_lt {units : List Wchar} {size : Nat} {val after : ReadVal}
    (converted : convertText lib type units size val = some (.done 1 after)) :
    after.datalen < 2 ^ 31 := by
  obtain ⟨data, _, converted⟩ := Option.bind_eq_some_iff.mp converted
  obtain ⟨written, _, converted⟩ := Option.bind_eq_some_iff.mp converted
  split at converted
  · cases converted
  · cases converted
    exact toNat_toInt32_lt _

theorem readUnits_eq (memory : st.memory.take st.size = unitBytes (utf16 text)) :
    readUnits st = utf16 (withoutTerminator text) := by
  simp only [readUnits, memory, unitsOf_unitBytes]
  exact utf16_withoutTerminator text

/-- A text in the buffer of the caller or on the heap is converted into the buffer of the
caller. -/
theorem readText_user (allocates : lib.Allocates) (small : st.size < 2 ^ 32)
    (memory : st.memory.take st.size = unitBytes (utf16 text))
    (size : st.size = (unitBytes (utf16 text)).length) (isData : st.val.data ≠ none) :
    readText lib type st =
      convertText lib type (utf16 (withoutTerminator text)) st.size st.val := by
  obtain ⟨data, isData⟩ := Option.ne_none_iff_exists'.mp isData
  obtain ⟨outbuf, allocated⟩ := allocates st.size (by omega)
  have same : (unitBytes (utf16 text)).length = outbuf.length := by
    rw [lib.alloc_size _ _ allocated, size]
  have copied : storeAll outbuf 0 (unitBytes (utf16 text)) = some (unitBytes (utf16 text)) := by
    rw [storeAll_front (Nat.le_of_eq same), same, List.drop_length, List.append_nil]
  rw [readText, isData]
  simp only [readUnits_eq memory, allocated, memory, copied, Option.bind_eq_bind, Option.bind_some]
  split
  · rw [readUnits_eq]
    rw [size]
    exact List.take_length
  · rfl

/-- A text is converted into a new buffer of its size. -/
theorem readText_null (allocates : lib.Allocates)
    (converts : lib.ConvertsText (withoutTerminator text))
    (short : (utf8 (withoutTerminator text)).length < 2 ^ 31)
    (memory : st.memory.take st.size = unitBytes (utf16 text)) (isNull : st.val.data = none) :
    readText lib type st =
      some (.done 1 ⟨type, some (utf8 (withoutTerminator text)),
        (utf8 (withoutTerminator text)).length⟩) := by
  have measured : toInt32 (lib.wtou none (utf16 (withoutTerminator text))).1 =
      (utf8 (withoutTerminator text)).length := by
    rw [converts.measures]
    exact toInt32_of_range (by omega) (by omega)
  obtain ⟨block, allocated⟩ := allocates (utf8 (withoutTerminator text)).length (by omega)
  have size := lib.alloc_size _ _ allocated
  rw [readText, isNull]
  simp only [readUnits_eq memory, measured, toSize_ofNat (Nat.lt_trans short (by decide)), allocated]
  rw [convertText_fits converts short rfl size (Nat.le_of_eq size.symm), ← size, List.drop_length,
    List.append_nil, size]

/-- No read of texts gives more than an `int` says. -/
theorem readText_lt {after : ReadVal} (read : readText lib type st = some (.done 1 after)) :
    after.datalen < 2 ^ 31 := by
  unfold readText at read
  dsimp only at read
  split at read
  · split at read
    · cases read
    · exact convertText_lt read
  · split at read
    · split at read
      · cases read
      · obtain ⟨outbuf, _, read⟩ := Option.bind_eq_some_iff.mp read
        exact convertText_lt read
    · exact convertText_lt read

end Text

/-! ### Other values -/

section Binary

variable {lib : Ffbase} {type : RegType} {st : Reading} {bytes : List Byte}

/-- A value is given in a buffer on the heap. -/
theorem readBinary_null (allocates : lib.Allocates) (small : bytes.length < 2 ^ 32)
    (memory : st.memory.take st.size = bytes) (size : st.size = bytes.length)
    (heap : st.valptr = .heap ↔ st.outbuf ≠ none) (isNull : st.val.data = none) :
    ∃ buffer, readBinary lib type st = some (.done 1 ⟨type, some buffer, bytes.length⟩) ∧
      buffer.take bytes.length = bytes := by
  rw [readBinary, isNull, ← size]
  cases isOutbuf : st.outbuf with
  | some outbuf =>
      have isHeap := heap.mpr (by rw [isOutbuf]; exact Option.some_ne_none outbuf)
      refine ⟨outbuf, rfl, ?_⟩
      rw [Reading.memory, isHeap, isOutbuf] at memory
      exact memory
  | none =>
      obtain ⟨block, allocated⟩ := allocates st.size (by omega)
      have room : bytes.length ≤ block.length :=
        Nat.le_of_eq (by rw [lib.alloc_size _ _ allocated, size])
      simp only [allocated, memory, storeAll_front room, Option.bind_eq_bind, Option.bind_some]
      refine ⟨_, rfl, ?_⟩
      rw [size]
      exact List.take_left

end Binary

/-! ### The loop -/

section Loop

variable {lib : Ffbase} {st : Reading} {values : Nat → Option RegValue} {value : RegValue}

/-- The part for a value that was read. -/
def readFound (lib : Ffbase) (type : RegType) (st : Reading) : Option Next :=
  if type.isText then readText lib type st else readBinary lib type st

/-- A value that fits is read with the first query. -/
theorem readLoop_found (unchanged : ∀ i, values i = some value) (queries : Nat) (ready : Ready st)
    (fits : value.bytes.length ≤ st.size) :
    ∃ filled, Holds st value.bytes filled ∧ ∀ r after,
      readFound lib value.type filled = some (.done r after) →
        readLoop lib values queries st = some (r, after, queries + 1) := by
  obtain ⟨filled, isFilled, holds⟩ := fill_holds ready fits
  refine ⟨filled, holds, fun r after ends => readLoop_done ?_⟩
  rw [unchanged, regQueryValue, if_pos fits, readIteration, isFilled]
  exact ends

/-- A text, or a value for which the caller has no buffer, is read with one query or two. -/
theorem readLoop_reads (unchanged : ∀ i, values i = some value) (allocates : lib.Allocates)
    (ready : Ready st) (fresh : st.outbuf = none)
    (goesOn : value.type.isText = true ∨ st.val.data = none) :
    ∃ before filled count, before.val = st.val ∧ Ready before ∧ Holds before value.bytes filled ∧
      ∀ r after, readFound lib value.type filled = some (.done r after) →
        readLoop lib values 0 st = some (r, after, count) := by
  by_cases fits : value.bytes.length ≤ st.size
  · obtain ⟨filled, holds, ends⟩ := readLoop_found unchanged 0 ready fits
    exact ⟨st, filled, 1, rfl, ready, holds, ends⟩
  · obtain ⟨outbuf, allocated⟩ := allocates value.bytes.length
      (Nat.lt_trans value.small (by decide))
    have more : readMore lib value.type { st with size := value.bytes.length } =
        .again { st with size := value.bytes.length, outbuf := some outbuf, valptr := .heap } := by
      rw [readMore, if_neg (by simp [fresh]), if_neg, allocated]
      rintro ⟨isBinary, present⟩
      rcases goesOn with isText | isNull
      · exact isBinary isText
      · simp [isNull, fresh] at present
    have step : readIteration lib (regQueryValue (values 0) st.size) st = some (.again
        { st with size := value.bytes.length, outbuf := some outbuf, valptr := .heap }) := by
      rw [unchanged, regQueryValue, if_neg fits, readIteration, more]
    have readyAgain := ready_of_again ready more
    obtain ⟨filled, holds, ends⟩ := @readLoop_found lib _ values value unchanged 1 readyAgain
      (Nat.le_refl _)
    refine ⟨{ st with size := value.bytes.length, outbuf := some outbuf, valptr := .heap }, filled,
      2, rfl, readyAgain, holds, fun r after read => ?_⟩
    rw [readLoop_again step]
    exact ends r after read

theorem readMore_ne_one {type : RegType} {after : ReadVal} :
    readMore lib type st ≠ .done 1 after := by
  intro ends
  unfold readMore at ends
  split at ends
  · cases ends
  · split at ends
    · cases ends
    · split at ends <;> cases ends

theorem readIteration_text_lt (isText : value.type.isText = true) {cap : Nat} {after : ReadVal}
    (ends : readIteration lib (regQueryValue (some value) cap) st = some (.done 1 after)) :
    after.datalen < 2 ^ 31 := by
  rw [regQueryValue] at ends
  split at ends
  · obtain ⟨filled, _, ends⟩ := Option.bind_eq_some_iff.mp ends
    rw [if_pos isText] at ends
    exact readText_lt ends
  · exact absurd (Option.some.inj ends) readMore_ne_one

/-- A read of texts that returns 1 gives no more than an `int` says. -/
theorem readLoop_text_lt (unchanged : ∀ i, values i = some value)
    (isText : value.type.isText = true) {queries count : Nat} {after : ReadVal}
    (read : readLoop lib values queries st = some (1, after, count)) : after.datalen < 2 ^ 31 := by
  induction queries, st using readLoop.induct lib values with
  | case1 queries st fails =>
      rw [readLoop_none fails] at read
      cases read
  | case2 queries st r val ends =>
      rw [readLoop_done ends] at read
      cases read
      exact readIteration_text_lt isText (unchanged queries ▸ ends)
  | case3 queries st next goesOn inductionHypothesis =>
      rw [readLoop_again goesOn] at read
      exact inductionHypothesis read

end Loop

/-! ### The contract -/

/-- The variables before the first query. -/
def startOf (val : ReadVal) : Reading :=
  match val.data with
  | none => ⟨val, List.replicate valSize 0, none, .stack, valSize⟩
  | some _ => ⟨val, List.replicate valSize 0, none, .user, val.datalen % 2 ^ 32⟩

/-- The loop begins with these variables. -/
theorem ffwinregRead_eq {lib : Ffbase} {registry : List Wchar → Nat → Option RegValue}
    {type : RegType} {name : List Byte} {wname : List Wchar} {val : ReadVal}
    (converted : ffsUtow lib wnameCount name = some wname) :
    ffwinregRead lib registry type name val =
      readLoop lib (registry wname) 0 (startOf val) := by
  rw [ffwinregRead, converted, startOf]
  cases val.data with
  | none => rfl
  | some data => rfl

/-- The buffer of the caller has the size that it says. -/
def ReadVal.Sound (val : ReadVal) : Prop := ∀ data ∈ val.data, data.length = val.datalen

theorem sound_of_null {val : ReadVal} (isNull : val.data = none) : val.Sound := by
  intro data isData
  rw [isNull] at isData
  cases isData

theorem sound_of_length {type : RegType} {buffer : List Byte} {datalen : Nat}
    (size : buffer.length = datalen) : (⟨type, some buffer, datalen⟩ : ReadVal).Sound := by
  intro data isData
  cases isData
  exact size

theorem startOf_ready {val : ReadVal} (sound : val.Sound) :
    Ready (startOf val) ∧ (startOf val).outbuf = none ∧ (startOf val).val = val := by
  rw [startOf]
  split
  · next isNull =>
    refine ⟨⟨?_, sound, ?_, ?_, fun _ => isNull⟩, rfl, rfl⟩
    · exact Nat.le_of_eq List.length_replicate.symm
    · exact fun other => nomatch other
    · exact iff_of_false (fun other => nomatch other) (fun other => other rfl)
  · next data isData =>
    refine ⟨⟨?_, sound, ?_, ?_, ?_⟩, rfl, rfl⟩
    · rw [Reading.memory, isData, Option.getD_some, sound data isData]
      exact Nat.mod_le _ _
    · rw [isData]
      exact fun _ => Option.some_ne_none data
    · exact iff_of_false (fun other => nomatch other) (fun other => other rfl)
    · exact fun other => nomatch other

theorem startOf_user {val : ReadVal} (sound : val.Sound) {buffer : List Byte}
    (isBuffer : val.data = some buffer) :
    startOf val = ⟨val, List.replicate valSize 0, none, .user, buffer.length % 2 ^ 32⟩ := by
  rw [startOf, isBuffer, sound buffer isBuffer]

/-- What a read that returns 1 gives: the type and the whole value, in the buffer of the caller
if there is one. -/
structure Gives (stored : Stored) (val after : ReadVal) : Prop where
  type : after.type = stored.value.type
  datalen : after.datalen = stored.contents.length
  data : ∃ buffer, after.data = some buffer ∧ buffer.take after.datalen = stored.contents ∧
    ∀ old ∈ val.data, buffer.length = old.length

/-- A call of `ffwinreg_read`: the registry, the name, and what `type` holds before. -/
structure Call where
  lib : Ffbase
  registry : List Wchar → Nat → Option RegValue
  name : List Char
  type : RegType

def Call.read (call : Call) (val : ReadVal) : Option (Int × ReadVal × Nat) :=
  ffwinregRead call.lib call.registry call.type (utf8 call.name) val

/-- The value has this name during all queries, the strings of ffbase do what they say, and
memory can be allocated. -/
structure Call.Regular (call : Call) (stored : Stored) : Prop where
  name : call.lib.ConvertsName call.name
  unchanged : ∀ i, call.registry (utf16 call.name) i = some stored.value
  converts : call.lib.Converts stored
  allocates : call.lib.Allocates

def Call.GivesWhole (call : Call) (stored : Stored) (val : ReadVal) : Prop :=
  ∃ after queries, call.read val = some (1, after, queries) ∧ Gives stored val after

/-- Without a buffer the value is given whole. With one it is given whole if it fits; otherwise 0
is returned with a size, and a buffer of this size is enough. -/
def Call.ReadsWhole (call : Call) (stored : Stored) (val : ReadVal) : Prop :=
  match val.data with
  | none => call.GivesWhole stored val
  | some buffer =>
      (stored.contents.length ≤ buffer.length → call.GivesWhole stored val) ∧
        (buffer.length < stored.contents.length →
          ∃ after queries, call.read val = some (0, after, queries) ∧
            ∀ type second, second.length = after.datalen →
              call.GivesWhole stored ⟨type, some second, after.datalen⟩)

/-- A text has fewer than 2 GiB; the size of the buffer for another value, as a `DWORD`, is not
too small where the buffer is not. -/
def Manageable (stored : Stored) (val : ReadVal) : Prop :=
  match stored with
  | .text _ chars _ _ => (utf8 (withoutTerminator chars)).length < 2 ^ 31
  | .binary _ bytes _ _ => ∀ buffer ∈ val.data, bytes.length ≤ buffer.length →
      bytes.length ≤ buffer.length % 2 ^ 32

section Contract

variable {call : Call} {val : ReadVal} {stored : Stored}

theorem read_eq (regular : call.Regular stored) :
    call.read val =
      readLoop call.lib (call.registry (utf16 call.name)) 0 (startOf val) := by
  exact ffwinregRead_eq (ffsUtow_eq regular.name regular.allocates)

/-- A call returns after at most two queries. -/
theorem read_total (call : Call) (sound : val.Sound) :
    ∃ r after queries, call.read val = some (r, after, queries) ∧ queries ≤ 2 := by
  obtain ⟨ready, fresh, _⟩ := startOf_ready sound
  rw [Call.read]
  cases converted : ffsUtow call.lib wnameCount (utf8 call.name) with
  | none =>
      rw [ffwinregRead, converted]
      exact ⟨0, _, 0, rfl, Nat.zero_le 2⟩
  | some wname =>
      rw [ffwinregRead_eq converted]
      obtain ⟨r, after, queries, read, few⟩ := @readLoop_total call.lib (startOf val)
        (call.registry wname) 0 ready
      rw [if_pos fresh, Nat.zero_add] at few
      exact ⟨r, after, queries, read, few⟩

section Text

variable {type : RegType} {chars : List Char} {isText : type.isText = true}
  {small : (unitBytes (utf16 chars)).length < 2 ^ 32}

/-- What is converted is the text that was read. -/
theorem text_reads (regular : call.Regular (.text type chars isText small)) (sound : val.Sound) :
    ∃ filled queries, filled.memory.take filled.size = unitBytes (utf16 chars) ∧
      filled.size = (unitBytes (utf16 chars)).length ∧ filled.val.datalen = val.datalen ∧
      filled.val.data.map List.length = val.data.map List.length ∧
      ∀ r after, readText call.lib type filled = some (.done r after) →
        call.read val = some (r, after, queries) := by
  obtain ⟨ready, fresh, same⟩ := startOf_ready sound
  obtain ⟨before, filled, queries, isVal, readyBefore, holds, ends⟩ :=
    readLoop_reads regular.unchanged regular.allocates ready fresh (Or.inl isText)
  rw [same] at isVal
  refine ⟨filled, queries, holds.memory, holds.size, ?_, ?_, fun r after read => ?_⟩
  · rw [holds.datalen, isVal]
  · rw [holds.data, isVal]
  · rw [read_eq regular]
    exact ends r after (by rw [readFound, Stored.value, if_pos isText]; exact read)

theorem text_null (regular : call.Regular (.text type chars isText small)) (isNull : val.data = none)
    (short : (utf8 (withoutTerminator chars)).length < 2 ^ 31) :
    call.GivesWhole (.text type chars isText small) val := by
  have sound := sound_of_null isNull
  obtain ⟨filled, queries, memory, _, _, data, ends⟩ := text_reads regular sound
  rw [isNull, Option.map_none, Option.map_eq_none_iff] at data
  have read := @readText_null call.lib type filled chars regular.allocates regular.converts short
    memory data
  refine ⟨_, queries, ends _ _ read, rfl, rfl, _, rfl, List.take_length, ?_⟩
  intro old isOld
  rw [isNull] at isOld
  cases isOld

/-- With a buffer the text is converted into it, or its size is reported. -/
theorem text_user (regular : call.Regular (.text type chars isText small)) (sound : val.Sound)
    {buffer : List Byte} (isBuffer : val.data = some buffer) :
    ∃ data queries val', data.length = buffer.length ∧ val'.data = some data ∧
      data.length = val'.datalen ∧ ∀ r after,
      convertText call.lib type (utf16 (withoutTerminator chars))
        (unitBytes (utf16 chars)).length val' = some (.done r after) →
      call.read val = some (r, after, queries) := by
  obtain ⟨filled, queries, memory, size, datalen, data, ends⟩ := text_reads regular sound
  rw [isBuffer, Option.map_some] at data
  obtain ⟨written, isWritten, sameLength⟩ := Option.map_eq_some_iff.mp data
  refine ⟨written, queries, filled.val, sameLength, isWritten, ?_, fun r after read => ?_⟩
  · rw [datalen, ← sound buffer isBuffer, sameLength]
  · apply ends
    rw [readText_user regular.allocates (size ▸ small) memory size
      (by rw [isWritten]; exact Option.some_ne_none written), size]
    exact read

theorem text_fits (regular : call.Regular (.text type chars isText small)) (sound : val.Sound)
    {buffer : List Byte} (isBuffer : val.data = some buffer)
    (short : (utf8 (withoutTerminator chars)).length < 2 ^ 31)
    (fits : (utf8 (withoutTerminator chars)).length ≤ buffer.length) :
    call.GivesWhole (.text type chars isText small) val := by
  obtain ⟨data, queries, val', sameLength, isData, capacity, ends⟩ :=
    text_user regular sound isBuffer
  have room : (utf8 (withoutTerminator chars)).length ≤ data.length := by omega
  have converted := @convertText_fits call.lib type _ regular.converts short val' data isData
    capacity room (unitBytes (utf16 chars)).length
  refine ⟨_, queries, ends _ _ converted, rfl, rfl, _, rfl, List.take_left, ?_⟩
  intro old isOld
  rw [isBuffer] at isOld
  cases isOld
  rw [length_front room, sameLength]

theorem text_small (regular : call.Regular (.text type chars isText small)) (sound : val.Sound)
    {buffer : List Byte} (isBuffer : val.data = some buffer)
    (short : buffer.length < (utf8 (withoutTerminator chars)).length) :
    ∃ after queries, call.read val = some (0, after, queries) ∧
      after.datalen = (unitBytes (utf16 chars)).length / 2 * 4 := by
  obtain ⟨data, queries, val', sameLength, isData, capacity, ends⟩ :=
    text_user regular sound isBuffer
  obtain ⟨written, converted⟩ := @convertText_small call.lib type _ regular.converts val' data
    isData capacity (by omega) (unitBytes (utf16 chars)).length
  exact ⟨_, queries, ends _ _ converted, rfl⟩

/-- A text of 2 GiB or more is never given whole. -/
theorem text_long (regular : call.Regular (.text type chars isText small))
    (long : ¬ (utf8 (withoutTerminator chars)).length < 2 ^ 31) :
    ¬ call.GivesWhole (.text type chars isText small) val := by
  rintro ⟨after, queries, read, gives⟩
  rw [read_eq regular] at read
  have bound := readLoop_text_lt regular.unchanged isText read
  rw [gives.datalen] at bound
  exact long bound

/-- Texts are read whole exactly if they have fewer than 2 GiB. -/
theorem text_readsWhole_iff (regular : call.Regular (.text type chars isText small))
    (sound : val.Sound) :
    call.ReadsWhole (.text type chars isText small) val ↔
      (utf8 (withoutTerminator chars)).length < 2 ^ 31 := by
  rw [Call.ReadsWhole]
  cases isData : val.data with
  | none => exact ⟨fun whole => by_contra fun long => text_long regular long whole,
      text_null regular isData⟩
  | some buffer =>
      constructor
      · rintro ⟨fitting, other⟩
        by_contra long
        rcases Nat.lt_or_ge buffer.length (utf8 (withoutTerminator chars)).length with few | fits
        · obtain ⟨after, queries, _, again⟩ := other few
          exact text_long regular long
            (again type (List.replicate after.datalen 0) List.length_replicate)
        · exact text_long regular long (fitting fits)
      · intro short
        refine ⟨text_fits regular sound isData short, fun few => ?_⟩
        obtain ⟨after, queries, read, datalen⟩ := text_small regular sound isData few
        refine ⟨after, queries, read, fun type second isSize => ?_⟩
        apply text_fits regular (sound_of_length isSize) rfl short
        rw [isSize, datalen]
        exact length_contents_le chars

end Text

section Binary

variable {type : RegType} {bytes : List Byte} {other : type.isText = false}
  {small : bytes.length < 2 ^ 32}

theorem binary_null (regular : call.Regular (.binary type bytes other small))
    (isNull : val.data = none) : call.GivesWhole (.binary type bytes other small) val := by
  have sound := sound_of_null isNull
  obtain ⟨ready, fresh, same⟩ := startOf_ready sound
  obtain ⟨before, filled, queries, isVal, readyBefore, holds, ends⟩ :=
    readLoop_reads regular.unchanged regular.allocates ready fresh
      (Or.inr (by rw [same]; exact isNull))
  have data := holds.data
  rw [isVal, same, isNull, Option.map_none, Option.map_eq_none_iff] at data
  obtain ⟨buffer, read, whole⟩ := @readBinary_null call.lib type filled bytes regular.allocates
    small holds.memory holds.size holds.heap data
  refine ⟨⟨type, some buffer, bytes.length⟩, queries, ?_, rfl, rfl, buffer, rfl, whole, ?_⟩
  · rw [read_eq regular]
    apply ends
    rw [readFound, Stored.value, other]
    exact read
  · intro old isOld
    rw [isNull] at isOld
    cases isOld

theorem binary_fits (regular : call.Regular (.binary type bytes other small)) (sound : val.Sound)
    {buffer : List Byte} (isBuffer : val.data = some buffer)
    (fits : bytes.length ≤ buffer.length % 2 ^ 32) :
    call.GivesWhole (.binary type bytes other small) val := by
  obtain ⟨ready, fresh, same⟩ := startOf_ready sound
  have start := startOf_user sound isBuffer
  obtain ⟨filled, holds, ends⟩ := @readLoop_found call.lib _ _ _ regular.unchanged 0 ready
    (by rw [start]; exact fits)
  have data := holds.data
  rw [same, isBuffer, Option.map_some] at data
  obtain ⟨written, isWritten, sameLength⟩ := Option.map_eq_some_iff.mp data
  have memory := holds.memory
  rw [Reading.memory, holds.valptr, start, isWritten, Option.getD_some, holds.size] at memory
  refine ⟨⟨type, some written, bytes.length⟩, 1, ?_, rfl, rfl, written, rfl, memory, ?_⟩
  · rw [read_eq regular]
    apply ends
    rw [readFound, Stored.value, other, readBinary, isWritten, holds.size]
    rfl
  · intro old isOld
    rw [isBuffer] at isOld
    cases isOld
    exact sameLength

/-- A value that is larger than `size` is not read. -/
theorem binary_small (regular : call.Regular (.binary type bytes other small)) (sound : val.Sound)
    {buffer : List Byte} (isBuffer : val.data = some buffer)
    (few : buffer.length % 2 ^ 32 < bytes.length) :
    call.read val = some (0, ⟨type, some buffer, bytes.length⟩, 1) := by
  have answer : regQueryValue (some (Stored.binary type bytes other small).value)
      (buffer.length % 2 ^ 32) = .more type bytes.length := if_neg (Nat.not_le.mpr few)
  rw [read_eq regular, startOf_user sound isBuffer]
  apply readLoop_done
  rw [regular.unchanged, answer, readIteration, readMore, if_neg (by simp [other]),
    if_pos (by simp [other, isBuffer]), isBuffer]

/-- Other values are read whole exactly if the `DWORD` is not too small where the buffer is not. -/
theorem binary_readsWhole_iff (regular : call.Regular (.binary type bytes other small))
    (sound : val.Sound) :
    call.ReadsWhole (.binary type bytes other small) val ↔
      ∀ buffer ∈ val.data, bytes.length ≤ buffer.length →
        bytes.length ≤ buffer.length % 2 ^ 32 := by
  rw [Call.ReadsWhole]
  cases isData : val.data with
  | none =>
      refine iff_of_true (binary_null regular isData) ?_
      intro buffer isBuffer
      cases isBuffer
  | some buffer =>
      constructor
      · rintro ⟨fitting, _⟩ buffer' isBuffer fits
        cases isBuffer
        by_contra few
        obtain ⟨after, queries, read, _⟩ := fitting fits
        rw [binary_small regular sound isData (Nat.not_le.mp few)] at read
        cases read
      · intro within
        refine ⟨fun fits => binary_fits regular sound isData (within buffer rfl fits), fun few => ?_⟩
        have smaller : buffer.length % 2 ^ 32 < bytes.length :=
          Nat.lt_of_le_of_lt (Nat.mod_le _ _) few
        refine ⟨_, 1, binary_small regular sound isData smaller, fun type' second isSize => ?_⟩
        apply binary_fits regular (sound_of_length isSize) rfl
        exact Nat.le_of_eq (by rw [isSize, Nat.mod_eq_of_lt small])

end Binary

end Contract

/-- A value is given whole, or the size that is returned is enough for it, if and only if it is
manageable; and whatever happens to the values between the queries, there are at most two. -/
theorem ffwinregRead_whole_iff (call : Call) (stored : Stored) (val : ReadVal)
    (regular : call.Regular stored) (sound : val.Sound) :
    (call.ReadsWhole stored val ↔ Manageable stored val) ∧
      ∀ registry, ∃ r after queries,
        { call with registry := registry }.read val = some (r, after, queries) ∧ queries ≤ 2 := by
  constructor
  · cases stored with
    | text type chars isText small => exact text_readsWhole_iff regular sound
    | binary type bytes other small => exact binary_readsWhole_iff regular sound
  · exact fun registry => read_total { call with registry := registry } sound

/-- ffbase on ASCII texts, with memory for every size that is not a negative number. -/
def asciiFfbase : Ffbase where
  szUtow cap s :=
    if s.length < cap then (s.length + 1, s.map (BitVec.setWidth 16)) else (-1, [])
  wtou cap units :=
    match cap with
    | none => (units.length, [])
    | some cap =>
        if units.length ≤ cap then (units.length, units.map (BitVec.setWidth 8)) else (-1, [])
  alloc size := if size < 2 ^ 63 then some (List.replicate size 0) else none
  wtou_within cap units := by
    dsimp only
    split
    · rwa [List.length_map]
    · exact Nat.zero_le cap
  alloc_size size block allocated := by
    split at allocated
    · cases allocated
      exact List.length_replicate
    · cases allocated

theorem asciiFfbase_name : asciiFfbase.ConvertsName ['a'] where
  short := by decide
  fits cap room := by
    have fits : (utf8 ['a']).length < cap := room
    exact if_pos fits
  fails cap full := by
    have notFits : ¬ (utf8 ['a']).length < cap := Nat.not_lt.mpr full
    simp [asciiFfbase, notFits]

theorem asciiFfbase_text : asciiFfbase.ConvertsText ['a'] where
  measures := by decide
  fits cap room := by
    have fits : (utf16 ['a']).length ≤ cap := room
    exact if_pos fits
  fails cap few := by
    have notFits : ¬ (utf16 ['a']).length ≤ cap := Nat.not_le.mpr few
    simp [asciiFfbase, notFits]

theorem asciiFfbase_allocates : asciiFfbase.Allocates := fun _ small => ⟨_, if_pos small⟩

/-- The text "a" with its terminator. -/
def textA : Stored := .text .sz ['a', '\x00'] rfl (by decide)

/-- One byte of type REG_BINARY. -/
def byteSeven : Stored := .binary (.other 3) [7] rfl (by decide)

/-- A call for the value "a" of a key where every value is this one. -/
def callFor (stored : Stored) : Call := ⟨asciiFfbase, fun _ _ => some stored.value, ['a'], .sz⟩

theorem callFor_regular {stored : Stored} (converts : asciiFfbase.Converts stored) :
    (callFor stored).Regular stored :=
  ⟨asciiFfbase_name, fun _ => rfl, converts, asciiFfbase_allocates⟩

/-- One byte is enough for the text, though its units have four. -/
theorem ffwinregRead_whole_iff_one_byte :
    (callFor textA).Regular textA ∧ (⟨.sz, some [0], 1⟩ : ReadVal).Sound ∧
      ((callFor textA).ReadsWhole textA ⟨.sz, some [0], 1⟩ ↔ Manageable textA ⟨.sz, some [0], 1⟩) ∧
      ∀ registry, ∃ r after queries,
        { callFor textA with registry := registry }.read ⟨.sz, some [0], 1⟩ =
          some (r, after, queries) ∧ queries ≤ 2 := by
  have regular : (callFor textA).Regular textA := callFor_regular asciiFfbase_text
  have sound : (⟨.sz, some [0], 1⟩ : ReadVal).Sound := sound_of_length rfl
  exact ⟨regular, sound, ffwinregRead_whole_iff (callFor textA) textA _ regular sound⟩

/-- A buffer of 4 GiB. -/
def hugeBuffer : List Byte := List.replicate (2 ^ 32) 0

theorem length_hugeBuffer : hugeBuffer.length = 2 ^ 32 := List.length_replicate

/-- The size of the buffer is 0 as a `DWORD`: the byte does not fit. -/
theorem ffwinregRead_huge_buffer :
    byteSeven.contents.length ≤ hugeBuffer.length ∧
      (callFor byteSeven).read ⟨.sz, some hugeBuffer, 2 ^ 32⟩ =
        some (0, ⟨.other 3, some hugeBuffer, 1⟩, 1) ∧
      ¬ (callFor byteSeven).ReadsWhole byteSeven ⟨.sz, some hugeBuffer, 2 ^ 32⟩ := by
  have sound : (⟨.sz, some hugeBuffer, 2 ^ 32⟩ : ReadVal).Sound := sound_of_length length_hugeBuffer
  have fits : byteSeven.contents.length ≤ hugeBuffer.length := by
    rw [length_hugeBuffer]
    decide
  have read : (callFor byteSeven).read ⟨.sz, some hugeBuffer, 2 ^ 32⟩ =
      some (0, ⟨.other 3, some hugeBuffer, 1⟩, 1) := by
    apply binary_small (callFor_regular trivial) sound rfl
    rw [length_hugeBuffer]
    decide
  refine ⟨fits, read, ?_⟩
  rintro ⟨fitting, _⟩
  obtain ⟨after, queries, whole, _⟩ := fitting fits
  rw [read] at whole
  cases whole

end Ffos.Winreg
