/-
Module: Ffos.Winreg.Query
Purpose: `ffwinreg_read` of FFOS/winreg.h with `ffs_utow` of FFOS/string.h: the queries, the
  buffers on the stack, of the caller and on the heap, and the conversion of texts.
Trusted boundary: `ffsz_utow` and `ffs_wtou` of ffbase and ffmem_alloc, taken as the parameter
  `Ffbase`; RegQueryValueExW gives the value if it fits, else its size; a 64-bit machine
Main exports: Ffbase, ffsUtow, RegValue, regQueryValue, ReadVal, Reading, readIteration,
  readLoop, ffwinregRead
-/
import Ffos.Lib.OutputBuffer
import Ffos.Winreg.Write

namespace Ffos.Winreg

open Ffos.Lib

/-! ### ffbase and the system -/

/-- What `ffwinreg_read` uses of ffbase: `ffsz_utow` from the capacity and the source to the
value returned and the units written, without the terminator; `ffs_wtou` from the capacity, or
none for NULL, and the source to the value returned and the bytes written; `ffmem_alloc`. -/
structure Ffbase where
  szUtow : Nat → List Byte → Int × List Wchar
  wtou : Option Nat → List Wchar → Int × List Byte
  alloc : Nat → Option (List Byte)
  wtou_within : ∀ cap units, (wtou (some cap) units).2.length ≤ cap
  alloc_size : ∀ size block, alloc size = some block → block.length = size

/-- A value of the registry. Its size is a `DWORD`. -/
structure RegValue where
  type : RegType
  bytes : List Byte
  small : bytes.length < 2 ^ 32

/-- What `RegQueryValueExW` answers: an error, the value, or ERROR_MORE_DATA with the size of
the value. -/
inductive Answer where
  | failed
  | found (type : RegType) (bytes : List Byte)
  | more (type : RegType) (needed : Nat)

def regQueryValue (value : Option RegValue) (cap : Nat) : Answer :=
  match value with
  | none => .failed
  | some value =>
      if value.bytes.length ≤ cap then .found value.type value.bytes
      else .more value.type value.bytes.length

/-! ### The name -/

/-- `ff_utow` of a NUL-terminated string. -/
def ffUtow (lib : Ffbase) (capWchars : Nat) (src : List Byte) : Nat × List Wchar :=
  let (r, units) := lib.szUtow capWchars src
  (if r ≥ 0 then r.toNat else 0, units)

/-- `ffs_utow` of a NUL-terminated string, with a buffer. -/
def ffsUtow (lib : Ffbase) (dstlen : Nat) (s : List Byte) : Option (List Wchar) :=
  if (ffUtow lib dstlen s).1 ≠ 0 then some (ffUtow lib dstlen s).2
  else
    -- not enough space in the provided buffer
    match lib.alloc ((s.length + 1) * 2) with
    | none => none
    | some _ =>
        if (ffUtow lib (s.length + 1) s).1 = 0 then none
        else some (ffUtow lib (s.length + 1) s).2

/-! ### The buffers -/

/-- `ffwinreg_val`: the bytes that `data` points to, if it is not NULL. -/
structure ReadVal where
  type : RegType
  data : Option (List Byte)
  datalen : Nat

/-- What `valptr` points to: `val_s`, `val->data` or `outbuf`. -/
inductive Place where
  | stack
  | user
  | heap
deriving DecidableEq, Repr

/-- The variables of the loop. -/
structure Reading where
  val : ReadVal
  stack : List Byte
  outbuf : Option (List Byte)
  valptr : Place
  size : Nat

/-- The bytes at `valptr`. -/
def Reading.memory (st : Reading) : List Byte :=
  match st.valptr with
  | .stack => st.stack
  | .user => st.val.data.getD []
  | .heap => st.outbuf.getD []

/-- The bytes at `valptr` are overwritten. -/
def Reading.overwrite (st : Reading) (memory : List Byte) : Reading :=
  match st.valptr with
  | .stack => { st with stack := memory }
  | .user => { st with val := { st.val with data := some memory } }
  | .heap => { st with outbuf := some memory }

/-- The system has written a value to `valptr` and its size to `size`. None is a store outside
of the buffer. -/
def Reading.fill (st : Reading) (bytes : List Byte) : Option Reading :=
  (storeAll st.memory 0 bytes).map fun memory =>
    { st.overwrite memory with size := bytes.length }

/-- UTF-16LE. A last byte without another one is no unit. -/
def unitsOf : List Byte → List Wchar
  | low :: high :: rest => (high ++ low) :: unitsOf rest
  | _ => []

/-- A value converted to `int`. -/
def toInt32 (r : Int) : Int := (BitVec.ofInt 32 r).toInt

/-- An `int` converted to `ffsize`. -/
def toSize (r : Int) : Nat := (BitVec.ofInt 64 r).toNat

/-! ### The loop -/

/-- How an iteration ends: the function returns, or the loop goes on. -/
inductive Next where
  | done (r : Int) (val : ReadVal)
  | again (st : Reading)

/-- The conversion of a text into `val->data`. None is a store outside of it, or NULL. -/
def convertText (lib : Ffbase) (type : RegType) (units : List Wchar) (size : Nat) (val : ReadVal) :
    Option Next := do
  let data ← val.data
  let (r, bytes) := lib.wtou (some val.datalen) units
  let data ← storeAll data 0 bytes
  if toInt32 r < 0 then
    some (.done 0 ⟨type, some data, size / 2 * 4⟩)  -- user buffer is too small
  else some (.done 1 ⟨type, some data, (toInt32 r).toNat⟩)

/-- The units of a text, without one terminator. -/
def readUnits (st : Reading) : List Wchar :=
  let units := unitsOf (st.memory.take st.size)
  if units.getLast? = some 0 then units.dropLast else units

/-- The part for a text that was read. -/
def readText (lib : Ffbase) (type : RegType) (st : Reading) : Option Next :=
  let units := readUnits st
  match st.val.data with
  | none =>
      -- temp buffer contains wchar data; allocate user buffer
      let r := toInt32 (lib.wtou none units).1
      match lib.alloc (toSize r) with
      | none => some (.done (-1) st.val)
      | some block => convertText lib type units st.size ⟨st.val.type, some block, toSize r⟩
  | some _ =>
      if st.valptr = .user then
        -- user buffer contains wchar data; copy it to temp buffer
        match lib.alloc st.size with
        | none => some (.done (-1) st.val)
        | some outbuf => do
            let outbuf ← storeAll outbuf 0 (st.memory.take st.size)
            let st := { st with outbuf := some outbuf, valptr := .heap }
            convertText lib type (readUnits st) st.size st.val
      else convertText lib type units st.size st.val

/-- The part for another value that was read. -/
def readBinary (lib : Ffbase) (type : RegType) (st : Reading) : Option Next :=
  match st.val.data with
  | some data => some (.done 1 ⟨type, some data, st.size⟩)
  | none =>
      match st.outbuf with
      | some outbuf => some (.done 1 ⟨type, some outbuf, st.size⟩)
      | none =>
          -- temp stack buffer contains data; allocate user buffer
          match lib.alloc st.size with
          | none => some (.done (-1) st.val)
          | some outbuf => do
              let outbuf ← storeAll outbuf 0 (st.memory.take st.size)
              some (.done 1 ⟨type, some outbuf, st.size⟩)

/-- The part for a value that did not fit. -/
def readMore (lib : Ffbase) (type : RegType) (st : Reading) : Next :=
  if type.isText ∧ st.outbuf.isSome then
    .done 0 ⟨type, st.val.data, st.size / 2 * 4⟩  -- value is growing
  else if ¬ type.isText ∧ (st.val.data.isSome ∨ st.outbuf.isSome) then
    .done 0 ⟨type, st.val.data, st.size⟩  -- user buffer is too small OR value is growing
  else
    match lib.alloc st.size with
    | none => .done (-1) st.val
    | some outbuf => .again { st with outbuf := some outbuf, valptr := .heap }

/-- One iteration, with the answer to its query. -/
def readIteration (lib : Ffbase) (answer : Answer) (st : Reading) : Option Next :=
  match answer with
  | .failed => some (.done (-1) st.val)
  | .found type bytes => do
      let st ← st.fill bytes
      if type.isText then readText lib type st else readBinary lib type st
  | .more type needed => some (readMore lib type { st with size := needed })

section Again

variable {lib : Ffbase} {type : RegType} {st after : Reading}

theorem convertText_ne_again {units : List Wchar} {size : Nat} {val : ReadVal} :
    convertText lib type units size val ≠ some (.again after) := by
  intro goesOn
  obtain ⟨data, _, goesOn⟩ := Option.bind_eq_some_iff.mp goesOn
  obtain ⟨written, _, goesOn⟩ := Option.bind_eq_some_iff.mp goesOn
  split at goesOn
  · cases goesOn
  · cases goesOn

theorem readText_ne_again : readText lib type st ≠ some (.again after) := by
  intro goesOn
  unfold readText at goesOn
  dsimp only at goesOn
  split at goesOn
  · split at goesOn
    · cases goesOn
    · exact convertText_ne_again goesOn
  · split at goesOn
    · split at goesOn
      · cases goesOn
      · obtain ⟨outbuf, _, goesOn⟩ := Option.bind_eq_some_iff.mp goesOn
        exact convertText_ne_again goesOn
    · exact convertText_ne_again goesOn

theorem readBinary_ne_again : readBinary lib type st ≠ some (.again after) := by
  intro goesOn
  unfold readBinary at goesOn
  split at goesOn
  · cases goesOn
  · split at goesOn
    · cases goesOn
    · split at goesOn
      · cases goesOn
      · obtain ⟨outbuf, _, goesOn⟩ := Option.bind_eq_some_iff.mp goesOn
        cases goesOn

/-- After a value that did not fit, the loop goes on only without `outbuf`, and then with a new
one of the size of the value. -/
theorem readMore_again (goesOn : readMore lib type st = .again after) :
    st.outbuf = none ∧ ∃ outbuf, lib.alloc st.size = some outbuf ∧
      after = { st with outbuf := some outbuf, valptr := .heap } := by
  unfold readMore at goesOn
  split at goesOn
  · cases goesOn
  · next notText =>
    split at goesOn
    · cases goesOn
    · next notBinary =>
      have nothing : st.outbuf = none := by
        cases isText : type.isText with
        | true => simpa [isText] using notText
        | false => exact (by simpa [isText] using notBinary : _ ∧ st.outbuf = none).2
      split at goesOn
      · cases goesOn
      · next outbuf allocated =>
        cases goesOn
        exact ⟨nothing, outbuf, allocated, rfl⟩

/-- The loop goes on only after the first query. -/
theorem outbuf_of_again {answer : Answer} (goesOn : readIteration lib answer st = some (.again after)) :
    st.outbuf = none ∧ after.outbuf ≠ none := by
  cases answer with
  | failed => cases goesOn
  | found type bytes =>
      obtain ⟨filled, _, goesOn⟩ := Option.bind_eq_some_iff.mp goesOn
      split at goesOn
      · exact absurd goesOn readText_ne_again
      · exact absurd goesOn readBinary_ne_again
  | more type needed =>
      obtain ⟨nothing, outbuf, _, rfl⟩ := readMore_again (Option.some.inj goesOn)
      exact ⟨nothing, Option.some_ne_none outbuf⟩

end Again

/-- The loop: the result, `*val`, and the number of queries. `values` are the values at the
times of the queries. -/
def readLoop (lib : Ffbase) (values : Nat → Option RegValue) (queries : Nat) (st : Reading) :
    Option (Int × ReadVal × Nat) :=
  match goesOn : readIteration lib (regQueryValue (values queries) st.size) st with
  | none => none
  | some (.done r val) => some (r, val, queries + 1)
  | some (.again after) => readLoop lib values (queries + 1) after
termination_by if st.outbuf = none then 1 else 0
decreasing_by
  obtain ⟨before, later⟩ := outbuf_of_again goesOn
  rw [if_pos before, if_neg later]
  exact Nat.one_pos

/-- `FF_COUNT(wname_s)` -/
def wnameCount : Nat := 256

/-- `sizeof(val_s)` -/
def valSize : Nat := 256

/-- `ffwinreg_read`: the result, `*val`, and the number of queries. `registry` are the values of
the key at the times of the queries, `type` is what the variable holds before the first one. -/
def ffwinregRead (lib : Ffbase) (registry : List Wchar → Nat → Option RegValue) (type : RegType)
    (name : List Byte) (val : ReadVal) : Option (Int × ReadVal × Nat) :=
  match ffsUtow lib wnameCount name with
  | none => some (0, { val with type := type }, 0)
  | some wname =>
      match val.data with
      | none => readLoop lib (registry wname) 0 ⟨val, List.replicate valSize 0, none, .stack, valSize⟩
      | some _ =>
          readLoop lib (registry wname) 0
            ⟨val, List.replicate valSize 0, none, .user, val.datalen % 2 ^ 32⟩

end Ffos.Winreg
