/-
Module: Ffos.Winreg.Write
Purpose: `ffwinreg_write` of FFOS/winreg.h with `ffs_alloc_buf_utow` of
  FFOS/string.h, and the place where it stores the terminator of a string.
Trusted boundary: `ffutf8_to_utf16` and `ffsz_alloc_buf_utow` of ffbase, ffmem_alloc and
  RegSetValueExW are inputs
Main exports: ffsAllocBufUtow, ffwinregWrite, ffwinregWrite_in_range_iff
-/
import Ffos.Lib.Unicode

namespace Ffos.Winreg

open Ffos.Lib

/-! ### Conversion into a buffer -/

/-- `ffutf8_to_utf16` with FFUNICODE_UTF16LE: from the capacity in bytes, or none for
NULL, and the source to the value returned and the units written. -/
abbrev Utf8ToUtf16 := Option Nat → List Byte → Int × List Wchar

/-- What ffbase says of it for the bytes of a text: without a buffer it returns the
number of bytes needed, with one it succeeds if and only if they fit. -/
structure Converts (ffutf8ToUtf16 : Utf8ToUtf16) (text : List Char) : Prop where
  measures : (ffutf8ToUtf16 none (utf8 text)).1 = 2 * (utf16 text).length
  fits : ∀ cap, 2 * (utf16 text).length ≤ cap →
    ffutf8ToUtf16 (some cap) (utf8 text) = (2 * ((utf16 text).length : Int), utf16 text)
  fails : ∀ cap, cap < 2 * (utf16 text).length → (ffutf8ToUtf16 (some cap) (utf8 text)).1 < 0

/-- A buffer of `capacity` units, on the stack of the caller or on the heap, with the
units that were written and their number `*cap_wchars`. -/
structure Wbuf where
  onHeap : Bool
  capacity : Nat
  units : List Wchar
  count : Nat
deriving DecidableEq, Repr

/-- `ffs_alloc_buf_utow`: `dst` is the capacity of the caller's buffer, if there is one,
and `alloc` says which requests `ffmem_alloc` grants. -/
def ffsAllocBufUtow (ffutf8ToUtf16 : Utf8ToUtf16) (alloc : Int → Bool) (dst : Option Nat)
    (s : List Byte) : Option Wbuf :=
  let supplied : Option Wbuf :=
    dst.bind fun capWchars =>
      let (r, units) := ffutf8ToUtf16 (some (capWchars * 2)) s
      if r ≥ 0 then some ⟨false, capWchars, units, r.toNat / 2⟩ else none
  match supplied with
  | some buffer => some buffer
  | none =>
      let bytes := (ffutf8ToUtf16 none s).1
      if alloc bytes then
        let (r, units) := ffutf8ToUtf16 (some bytes.toNat) s
        if r < 0 then none else some ⟨true, bytes.toNat / 2, units, r.toNat / 2⟩
      else none

/-! ### Writing a value -/

/-- The types of registry values that the code tells apart. -/
inductive RegType where
  | sz
  | expandSz
  | other (code : Nat)
deriving DecidableEq, Repr

/-- `val->type == REG_SZ || val->type == REG_EXPAND_SZ`. -/
def RegType.isText : RegType → Bool
  | .sz => true
  | .expandSz => true
  | .other _ => false

/-- `ffwinreg_val`. -/
structure FfwinregVal where
  type : RegType
  data : List Byte
deriving DecidableEq, Repr

/-- The arguments of `RegSetValueExW`. -/
structure RegSetValue where
  name : List Wchar
  type : RegType
  data : List Byte
deriving DecidableEq, Repr

/-- How the calls of one write end: the name in wide characters if
`ffsz_alloc_buf_utow` succeeds, the requests that `ffmem_alloc` grants, and the result
of `RegSetValueExW`. -/
structure Outcome where
  wname : Option (List Wchar)
  alloc : Int → Bool
  regSetValue : Int

/-- The store `wval[n] = 0`: its index, and the capacity of the buffer. -/
structure Store where
  index : Nat
  capacity : Nat
deriving DecidableEq, Repr

/-- The result of a write, the store of the terminator and the call made. -/
structure Written where
  r : Int
  store : Option Store
  call : Option RegSetValue
deriving DecidableEq, Repr

/-- UTF-16LE. -/
def unitBytes (units : List Wchar) : List Byte :=
  units.flatMap fun (unit : Wchar) => [unit.setWidth 8, (unit >>> 8).setWidth 8]

/-- `FF_COUNT(wval_s)`. -/
def wvalCount : Nat := 256

/-- `ffwinreg_write`. -/
def ffwinregWrite (ffutf8ToUtf16 : Utf8ToUtf16) (outcome : Outcome) (val : FfwinregVal) :
    Written :=
  match outcome.wname with
  | none => ⟨-1, none, none⟩
  | some wname =>
      let set (store : Option Store) (data : List Byte) : Written :=
        ⟨if outcome.regSetValue ≠ 0 then -1 else 0, store, some ⟨wname, val.type, data⟩⟩
      if val.type.isText then
        match ffsAllocBufUtow ffutf8ToUtf16 outcome.alloc (some wvalCount) val.data with
        | none => ⟨-1, none, none⟩
        | some wval => set (some ⟨wval.count, wval.capacity⟩) (unitBytes (wval.units ++ [0]))
      else set none val.data

/-! ### Where the terminator goes -/

section Terminator

variable {ffutf8ToUtf16 : Utf8ToUtf16} {text : List Char}

/-- Up to 256 units stay in the buffer on the stack. -/
theorem ffsAllocBufUtow_stack (converts : Converts ffutf8ToUtf16 text) (alloc : Int → Bool)
    (short : (utf16 text).length ≤ wvalCount) :
    ffsAllocBufUtow ffutf8ToUtf16 alloc (some wvalCount) (utf8 text) =
      some ⟨false, wvalCount, utf16 text, (utf16 text).length⟩ := by
  have fits := converts.fits (wvalCount * 2) (by omega)
  have nonneg : (2 * ((utf16 text).length : Int)) ≥ 0 := by omega
  have half : (2 * ((utf16 text).length : Int)).toNat / 2 = (utf16 text).length := by omega
  simp only [ffsAllocBufUtow, Option.bind_some, fits, if_pos nonneg, half]

/-- More of them get an allocation of exactly their number. -/
theorem ffsAllocBufUtow_heap (converts : Converts ffutf8ToUtf16 text) (alloc : Int → Bool)
    (long : wvalCount < (utf16 text).length) :
    ffsAllocBufUtow ffutf8ToUtf16 alloc (some wvalCount) (utf8 text) =
      if alloc (2 * (utf16 text).length) then
        some ⟨true, (utf16 text).length, utf16 text, (utf16 text).length⟩
      else none := by
  have fails := converts.fails (wvalCount * 2) (by omega)
  have rejected : ¬ (ffutf8ToUtf16 (some (wvalCount * 2)) (utf8 text)).1 ≥ 0 := by omega
  have bytes : (2 * ((utf16 text).length : Int)).toNat = 2 * (utf16 text).length := by omega
  have fits := converts.fits (2 * (utf16 text).length) (Nat.le_refl _)
  have nonneg : ¬ (2 * ((utf16 text).length : Int)) < 0 := by omega
  have half : 2 * (utf16 text).length / 2 = (utf16 text).length := by omega
  simp only [ffsAllocBufUtow, Option.bind_some, if_neg rejected, converts.measures, bytes, fits,
    if_neg nonneg, half]

/-- The terminator of a text is stored inside of its buffer if and only if the text
has fewer than 256 units, or there is no store because a call before it failed. -/
theorem ffwinregWrite_in_range_iff (converts : Converts ffutf8ToUtf16 text) (outcome : Outcome)
    {type : RegType} (isText : type.isText = true) :
    (∀ store, (ffwinregWrite ffutf8ToUtf16 outcome ⟨type, utf8 text⟩).store = some store →
      store.index < store.capacity) ↔
      (utf16 text).length < 256 ∨ outcome.wname = none ∨
        256 < (utf16 text).length ∧ outcome.alloc (2 * (utf16 text).length) = false := by
  cases name : outcome.wname with
  | none => simp [ffwinregWrite, name]
  | some wname =>
    rcases Nat.lt_or_ge wvalCount (utf16 text).length with long | short
    · have exact : ¬ (utf16 text).length < 256 := by unfold wvalCount at long; omega
      have above : 256 < (utf16 text).length := long
      simp only [ffwinregWrite, name, isText, if_true, ffsAllocBufUtow_heap converts _ long]
      cases granted : outcome.alloc (2 * (utf16 text).length) with
      | true => simp [exact]
      | false => simp [above]
    · have notAbove : ¬ 256 < (utf16 text).length := by unfold wvalCount at short; omega
      simp only [ffwinregWrite, name, isText, if_true, ffsAllocBufUtow_stack converts _ short]
      simp [wvalCount, notAbove]

end Terminator

/-- `ffutf8_to_utf16` on ASCII bytes. -/
def asciiToUtf16 : Utf8ToUtf16
  | none, s => (2 * s.length, [])
  | some cap, s =>
      if 2 * s.length ≤ cap then (2 * s.length, s.map (BitVec.setWidth 16)) else (-1, [])

theorem utf16_replicate (n : Nat) : utf16 (List.replicate n 'a') = List.replicate n 97 := by
  have one : utf16Char 'a' = [97] := by decide
  rw [utf16, List.flatMap_replicate, one, List.flatten_replicate_singleton]

theorem asciiToUtf16_converts (n : Nat) : Converts asciiToUtf16 (List.replicate n 'a') := by
  have units := utf16_replicate n
  have bytes : utf8 (List.replicate n 'a') = List.replicate n 97 := by
    have one : utf8Char 'a' = [97] := by decide
    rw [utf8, List.flatMap_replicate, one, List.flatten_replicate_singleton]
  constructor
  · simp [asciiToUtf16, bytes, units]
  · intro cap fits
    rw [units, List.length_replicate] at fits
    simp [asciiToUtf16, bytes, units, fits]
  · intro cap full
    rw [units, List.length_replicate] at full
    have notFits : ¬ 2 * n ≤ cap := by omega
    simp [asciiToUtf16, bytes, notFits]

/-- A value of 255 units. -/
theorem ffwinregWrite_in_range_255 :
    (utf16 (List.replicate 255 'a')).length < 256 ∧
      ∀ store, (ffwinregWrite asciiToUtf16 ⟨some [107], fun _ => true, 0⟩
          ⟨.sz, utf8 (List.replicate 255 'a')⟩).store = some store →
        store.index < store.capacity := by
  have short : (utf16 (List.replicate 255 'a')).length < 256 := by
    rw [utf16_replicate, List.length_replicate]
    decide
  exact ⟨short,
    (ffwinregWrite_in_range_iff (asciiToUtf16_converts 255) _ rfl).mpr (Or.inl short)⟩

/-- One unit more fills the buffer on the stack, and the terminator is stored behind
it. -/
theorem ffwinregWrite_past_stack_buffer :
    ¬ (∀ store, (ffwinregWrite asciiToUtf16 ⟨some [107], fun _ => true, 0⟩
        ⟨.sz, utf8 (List.replicate 256 'a')⟩).store = some store →
      store.index < store.capacity) := by
  have converts := asciiToUtf16_converts 256
  have length : (utf16 (List.replicate 256 'a')).length = wvalCount := by
    rw [utf16_replicate, List.length_replicate, wvalCount]
  intro inRange
  have stored : (ffwinregWrite asciiToUtf16 ⟨some [107], fun _ => true, 0⟩
      ⟨.sz, utf8 (List.replicate 256 'a')⟩).store = some ⟨256, 256⟩ := by
    simp only [ffwinregWrite, RegType.isText, if_true,
      ffsAllocBufUtow_stack converts _ (Nat.le_of_eq length), length]
    rfl
  exact absurd (inRange ⟨256, 256⟩ stored) (by decide)

end Ffos.Winreg
