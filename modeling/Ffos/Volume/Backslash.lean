/-
Module: Ffos.Volume.Backslash
Purpose: `_ffs_utow_bslash` of FFOS/volume.h with `ffs_alloc_utow_addcap` of FFOS/string.h. The
  number of wide characters is used as an index into the bytes, and the result is right where
  the byte found there is a backslash exactly if the last one is.
Trusted boundary: `ffutf8_to_utf16` of ffbase and ffmem_alloc are inputs
Main exports: ffsUtow, ffsAllocUtowAddcap, ffsUtowBslash, AddsMissing, SeesLast, addsMissing_iff
-/
import Ffos.Lib.OutputBuffer
import Ffos.Winreg.Write

namespace Ffos.Volume

open Ffos.Lib
open Ffos.Winreg (Utf8ToUtf16 Converts)

/-! ### The functions -/

/-- A text without NUL. In memory it is its UTF-8 bytes and a NUL. -/
structure Name where
  text : List Char
  noNul : '\x00' ∉ text

def Name.z (s : Name) : List Byte := utf8 s.text ++ [0]

def backslash : Wchar := 0x5c

/-- `_ffs_utow`. -/
def ffsUtow (ffutf8ToUtf16 : Utf8ToUtf16) (capWchars : Option Nat) (src : List Byte) :
    Int × List Wchar :=
  let (r, units) := ffutf8ToUtf16 (capWchars.map (· * 2)) src
  if r ≤ 0 then (r, units) else (r / 2, units)

/-- `ffs_alloc_utow_addcap`: the buffer and `*add_chars`, or `some none` for NULL; none is a
store outside of the buffer. `alloc` gives a buffer of that many characters, with any
contents. -/
def ffsAllocUtowAddcap (ffutf8ToUtf16 : Utf8ToUtf16) (alloc : Nat → Option (List Wchar))
    (s : List Byte) (addChars : Nat) : Option (Option (List Wchar × Nat)) :=
  let n := (ffsUtow ffutf8ToUtf16 none s).1
  if n < 0 then some none
  else
    let n := n.toNat + addChars
    match alloc n with
    | none => some none
    | some w =>
        let (written, units) := ffsUtow ffutf8ToUtf16 (some n) s
        (storeAll w 0 units).map fun w => some (w, written.toNat)

/-- `n == 0 || s[n - 1] != '\\'`, where the read must be inside of the string and its NUL. -/
def lacksBackslash (s : List Byte) (n : Nat) : Option Bool :=
  if n = 0 then some true else s[n - 1]?.map fun byte => byte ≠ 0x5c

/-- `_ffs_utow_bslash`: the buffer returned, or `some none` for NULL; none is a read or a store
out of bounds. -/
def ffsUtowBslash (ffutf8ToUtf16 : Utf8ToUtf16) (alloc : Nat → Option (List Wchar))
    (s : List Byte) : Option (Option (List Wchar)) :=
  match ffsAllocUtowAddcap ffutf8ToUtf16 alloc (s.take (cLength s)) 2 with
  | none => none
  | some none => some none
  | some (some (w, n)) => do
      let lacks ← lacksBackslash s n
      let (w, n) ← if lacks then (store w n backslash).map (·, n + 1) else some (w, n)
      (store w n 0).map some

/-! ### What is asked of it -/

/-- The wide characters of a text that ends in a backslash, or of it and one more. -/
def withBackslash (s : Name) : List Wchar :=
  if s.text.getLast? = some '\\' then utf16 s.text else utf16 s.text ++ [backslash]

/-- The result is this string with its terminator, inside of the buffer that was allocated. -/
def AddsMissing (ffutf8ToUtf16 : Utf8ToUtf16) (alloc : Nat → Option (List Wchar)) (s : Name) :
    Prop :=
  ∃ w, ffsUtowBslash ffutf8ToUtf16 alloc s.z = some (some w) ∧ withBackslash s ++ [0] <+: w

/-- The byte whose index is that of the last wide character is a backslash if and only if the
text ends in one. -/
def SeesLast (s : Name) : Prop :=
  (utf8 s.text)[(utf16 s.text).length - 1]? = some 0x5c ↔ s.text.getLast? = some '\\'

/-! ### The conversion -/

section Conversion

variable {ffutf8ToUtf16 : Utf8ToUtf16} {s : Name}

theorem ffsUtow_measures (converts : Converts ffutf8ToUtf16 s.text) :
    (ffsUtow ffutf8ToUtf16 none (utf8 s.text)).1 = (utf16 s.text).length := by
  have measured := converts.measures
  unfold ffsUtow
  rw [Option.map_none]
  dsimp only
  split <;> dsimp only <;> omega

theorem ffsUtow_fits (converts : Converts ffutf8ToUtf16 s.text) {n : Nat}
    (room : (utf16 s.text).length ≤ n) :
    ffsUtow ffutf8ToUtf16 (some n) (utf8 s.text) =
      (((utf16 s.text).length : Int), utf16 s.text) := by
  have fits := converts.fits (n * 2) (by omega)
  simp only [ffsUtow, Option.map_some, fits]
  split
  · rw [Prod.mk.injEq]
    exact ⟨by omega, rfl⟩
  · rw [Prod.mk.injEq]
    exact ⟨by omega, rfl⟩

theorem zero_not_mem_utf8 (s : Name) : (0 : Byte) ∉ utf8 s.text := fun member =>
  s.noNul ((@mem_utf8_iff '\x00' (by decide) s.text).mp member)

/-- The string without its NUL. -/
theorem take_cLength (s : Name) : s.z.take (cLength s.z) = utf8 s.text := by
  rw [Name.z, cLength_terminated (zero_not_mem_utf8 s), List.take_left]

/-- The buffer has the text and two more characters. -/
theorem ffsAllocUtowAddcap_eq (converts : Converts ffutf8ToUtf16 s.text)
    {alloc : Nat → Option (List Wchar)} {buffer : List Wchar}
    (allocated : alloc ((utf16 s.text).length + 2) = some buffer)
    (size : buffer.length = (utf16 s.text).length + 2) :
    ∃ first second, ffsAllocUtowAddcap ffutf8ToUtf16 alloc (utf8 s.text) 2 =
      some (some (utf16 s.text ++ [first, second], (utf16 s.text).length)) := by
  have nonneg : ¬((utf16 s.text).length : Int) < 0 := Int.not_lt.mpr (Int.natCast_nonneg _)
  have fits : (utf16 s.text).length ≤ buffer.length := by omega
  have left : (buffer.drop (utf16 s.text).length).length = 2 := by
    rw [List.length_drop]
    omega
  obtain ⟨first, second, rest⟩ := List.length_eq_two.mp left
  refine ⟨first, second, ?_⟩
  simp only [ffsAllocUtowAddcap, ffsUtow_measures converts, if_neg nonneg, Int.toNat_natCast,
    allocated, ffsUtow_fits converts (Nat.le_add_right _ 2), storeAll, if_pos fits,
    Option.map_some, List.take_zero, List.nil_append, Nat.zero_add, rest]

/-! ### The last backslash -/

/-- The text has not more characters than bytes, so the read is inside of it. -/
theorem lacksBackslash_eq (s : Name) :
    lacksBackslash s.z (utf16 s.text).length =
      some (decide ((utf8 s.text)[(utf16 s.text).length - 1]? ≠ some 0x5c)) := by
  have bound := (length_utf8 s.text).1
  by_cases empty : (utf16 s.text).length = 0
  · have noText : s.text = [] :=
      (utf16_eq_nil_iff s.text).mp (List.length_eq_zero_iff.mp empty)
    have noBytes : utf8 s.text = [] := by rw [noText]; rfl
    rw [lacksBackslash, if_pos empty, noBytes]
    simp
  · have inside : (utf16 s.text).length - 1 < (utf8 s.text).length := by omega
    rw [lacksBackslash, if_neg empty, Name.z, List.getElem?_append_left inside,
      List.getElem?_eq_getElem inside]
    simp

/-- The string that is returned, by the byte that is looked at. -/
theorem ffsUtowBslash_eq (converts : Converts ffutf8ToUtf16 s.text)
    {alloc : Nat → Option (List Wchar)}
    (allocates : ∀ n, ∃ buffer, alloc n = some buffer ∧ buffer.length = n) :
    ∃ rest, ffsUtowBslash ffutf8ToUtf16 alloc s.z = some (some
      (if (utf8 s.text)[(utf16 s.text).length - 1]? = some 0x5c then utf16 s.text ++ 0 :: rest
      else utf16 s.text ++ [backslash] ++ 0 :: rest)) := by
  obtain ⟨buffer, allocated, size⟩ := allocates ((utf16 s.text).length + 2)
  obtain ⟨first, second, converted⟩ := ffsAllocUtowAddcap_eq converts allocated size
  unfold ffsUtowBslash
  rw [take_cLength, converted]
  by_cases seen : (utf8 s.text)[(utf16 s.text).length - 1]? = some 0x5c
  · refine ⟨[second], ?_⟩
    simp only [lacksBackslash_eq, seen, ne_eq, not_true_eq_false, decide_false, Bool.false_eq_true,
      if_false, if_true, Option.bind_eq_bind, Option.bind_some]
    rw [store_middle]
    rfl
  · refine ⟨[], ?_⟩
    have more : (utf16 s.text).length + 1 = (utf16 s.text ++ [backslash]).length := by simp
    have regrouped : utf16 s.text ++ backslash :: [second] =
        (utf16 s.text ++ [backslash]) ++ second :: [] := by simp
    simp only [lacksBackslash_eq, seen, ne_eq, not_false_eq_true, decide_true, if_true, if_false,
      Option.bind_eq_bind, Option.bind_some]
    rw [store_middle, Option.map_some, Option.bind_some]
    simp only [more, regrouped]
    rw [store_middle]
    rfl

/-- `_ffs_utow_bslash` adds a backslash exactly when one is missing, if and only if the byte at
the index of the last wide character is a backslash exactly if the last byte is. -/
theorem addsMissing_iff (converts : Converts ffutf8ToUtf16 s.text)
    {alloc : Nat → Option (List Wchar)}
    (allocates : ∀ n, ∃ buffer, alloc n = some buffer ∧ buffer.length = n) :
    AddsMissing ffutf8ToUtf16 alloc s ↔ SeesLast s := by
  obtain ⟨rest, result⟩ := ffsUtowBslash_eq converts allocates
  have returned : AddsMissing ffutf8ToUtf16 alloc s ↔ withBackslash s ++ [0] <+:
      (if (utf8 s.text)[(utf16 s.text).length - 1]? = some 0x5c then utf16 s.text ++ 0 :: rest
        else utf16 s.text ++ [backslash] ++ 0 :: rest) := by
    rw [AddsMissing, result]
    constructor
    · rintro ⟨w, same, leads⟩
      rw [Option.some.inj (Option.some.inj same)]
      exact leads
    · intro leads
      exact ⟨_, rfl, leads⟩
  have different : backslash ≠ 0 := by decide
  rw [returned, SeesLast, withBackslash]
  by_cases ends : s.text.getLast? = some '\\'
  · rw [if_pos ends, iff_true_right ends]
    by_cases seen : (utf8 s.text)[(utf16 s.text).length - 1]? = some 0x5c
    · rw [if_pos seen, iff_true_right seen, List.prefix_append_right_inj]
      exact List.cons_prefix_cons.mpr ⟨rfl, List.nil_prefix⟩
    · rw [if_neg seen, iff_false_right seen, List.append_assoc, List.prefix_append_right_inj]
      intro leads
      exact different (List.cons_prefix_cons.mp leads).1.symm
  · rw [if_neg ends, iff_false_right ends]
    by_cases seen : (utf8 s.text)[(utf16 s.text).length - 1]? = some 0x5c
    · rw [if_pos seen, List.append_assoc, List.prefix_append_right_inj]
      refine iff_of_false ?_ (not_not.mpr seen)
      intro leads
      exact different (List.cons_prefix_cons.mp leads).1
    · rw [if_neg seen, iff_true_right seen, List.append_assoc, List.append_assoc,
        List.prefix_append_right_inj, List.singleton_append, List.singleton_append]
      exact List.cons_prefix_cons.mpr ⟨rfl, List.cons_prefix_cons.mpr ⟨rfl, List.nil_prefix⟩⟩

end Conversion

/-- `ffutf8_to_utf16` on the bytes of one text. -/
def convertText (text : List Char) : Utf8ToUtf16
  | none, s => if s = utf8 text then (2 * (utf16 text).length, []) else (-1, [])
  | some cap, s =>
      if s = utf8 text ∧ 2 * (utf16 text).length ≤ cap then (2 * (utf16 text).length, utf16 text)
      else (-1, [])

theorem convertText_converts (text : List Char) : Converts (convertText text) text := by
  constructor
  · rw [convertText, if_pos rfl]
  · intro cap fits
    rw [convertText, if_pos ⟨rfl, fits⟩]
  · intro cap full
    rw [convertText, if_neg fun both => absurd both.2 (Nat.not_le_of_lt full)]
    decide

/-- A buffer of any size. -/
def anyBuffer (n : Nat) : Option (List Wchar) := some (List.replicate n 1)

theorem anyBuffer_allocates (n : Nat) : ∃ buffer, anyBuffer n = some buffer ∧ buffer.length = n :=
  ⟨_, rfl, List.length_replicate⟩

/-- "C:", where bytes and characters are the same. -/
def drive : Name := ⟨['C', ':'], by decide⟩

theorem addsMissing_drive : AddsMissing (convertText drive.text) anyBuffer drive :=
  (addsMissing_iff (convertText_converts _) anyBuffer_allocates).mpr
    ⟨fun seen => absurd seen (by decide), fun ends => absurd ends (by decide)⟩

/-- "é\\" ends in a backslash, but the second of its bytes is not one. -/
def accented : Name := ⟨['é', '\\'], by decide⟩

/-- "é\\a" does not end in a backslash, but the third of its bytes is one. -/
def accentedPath : Name := ⟨['é', '\\', 'a'], by decide⟩

/-- The first gets a second backslash, the second gets none. -/
theorem not_addsMissing_accented :
    ffsUtowBslash (convertText accented.text) anyBuffer accented.z =
        some (some [0xe9, 0x5c, 0x5c, 0]) ∧
      ¬AddsMissing (convertText accented.text) anyBuffer accented ∧
      ffsUtowBslash (convertText accentedPath.text) anyBuffer accentedPath.z =
        some (some [0xe9, 0x5c, 0x61, 0, 1]) ∧
      ¬AddsMissing (convertText accentedPath.text) anyBuffer accentedPath := by
  have twice : ffsUtowBslash (convertText accented.text) anyBuffer accented.z =
      some (some [0xe9, 0x5c, 0x5c, 0]) := by decide
  have never : ffsUtowBslash (convertText accentedPath.text) anyBuffer accentedPath.z =
      some (some [0xe9, 0x5c, 0x61, 0, 1]) := by decide
  refine ⟨twice, ?_, never, ?_⟩
  · rintro ⟨w, returned, leads⟩
    rw [twice] at returned
    obtain rfl := Option.some.inj (Option.some.inj returned)
    exact absurd leads (by decide)
  · rintro ⟨w, returned, leads⟩
    rw [never] at returned
    obtain rfl := Option.some.inj (Option.some.inj returned)
    exact absurd leads (by decide)

end Ffos.Volume
