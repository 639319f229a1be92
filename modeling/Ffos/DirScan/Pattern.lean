/-
Module: Ffos.DirScan.Pattern
Purpose: The pattern that `ffdirscan_open` of FFOS/dirscan.h passes to `FindFirstFileW` on
  Windows: the path without its last slash, a backslash and the wildcard, inside of the buffer
  that is allocated for it.
Trusted boundary: `ffutf8_to_utf16` of ffbase and ffmem_alloc are inputs
Main exports: scanPattern, withoutSlash, patternOf, scanPattern_eq
-/
import Ffos.Volume.Backslash

namespace Ffos.DirScan

open Ffos.Lib
open Ffos.Winreg (Utf8ToUtf16 Converts)
open Ffos.Volume (ffsUtow ffsAllocUtowAddcap ffsUtow_measures ffsUtow_fits backslash)

/-- `c == '/' || c == '\\'` -/
def isSlash (c : Wchar) : Bool := c = 0x2f || c = backslash

/-- The pattern for `FindFirstFileW`, up to its terminator, or `some none` without memory; none is
a read or a store outside of `wpath`. `wildcard` is there with FFDIRSCAN_USEWILDCARD. -/
def scanPattern (ffutf8ToUtf16 : Utf8ToUtf16) (alloc : Nat → Option (List Wchar))
    (path : List Byte) (wildcard : Option (List Byte)) : Option (Option (List Wchar)) :=
  let addChars :=
    match wildcard with
    | some wildcard => 2 + wildcard.length
    | none => 3
  match ffsAllocUtowAddcap ffutf8ToUtf16 alloc path addChars with
  | none => none
  | some none => some none
  | some (some (wpath, n)) => do
      let last ← if n = 0 then none else wpath[n - 1]?
      let n := if isSlash last then n - 1 else n  -- "dir/" -> "dir"
      let wpath ← store wpath n backslash
      let n := n + 1
      let (wpath, n) ←
        match wildcard with
        | some wildcard =>
            let (r, units) := ffsUtow ffutf8ToUtf16 (some wildcard.length) wildcard
            (storeAll wpath n units).map (·, (n + r).toNat)
        | none => (store wpath n 0x2a).map (·, n + 1)
      let wpath ← store wpath n 0
      some (some (wpath.takeWhile (· ≠ 0)))

/-! ### The text of the pattern -/

/-- "dir/" is "dir". -/
def withoutSlash (path : List Char) : List Char :=
  if path.getLast? = some '/' ∨ path.getLast? = some '\\' then path.dropLast else path

/-- What is searched for: the names of a directory that match, or all. -/
def patternOf (path : List Char) (wildcard : Option (List Char)) : List Char :=
  withoutSlash path ++ '\\' :: wildcard.getD ['*']

section Pattern

variable {ffutf8ToUtf16 : Utf8ToUtf16} {alloc : Nat → Option (List Wchar)} {path : Volume.Name}

/-- The buffer has the text and as many more characters as were asked for. -/
theorem ffsAllocUtowAddcap_filled (converts : Converts ffutf8ToUtf16 path.text)
    (allocates : ∀ n, ∃ buffer, alloc n = some buffer ∧ buffer.length = n) (addChars : Nat) :
    ∃ w, ffsAllocUtowAddcap ffutf8ToUtf16 alloc (utf8 path.text) addChars =
        some (some (w, (utf16 path.text).length)) ∧
      Filled w (utf16 path.text).length (utf16 path.text) ∧
      w.length = (utf16 path.text).length + addChars := by
  obtain ⟨buffer, allocated, size⟩ := allocates ((utf16 path.text).length + addChars)
  have nonneg : ¬((utf16 path.text).length : Int) < 0 := Int.not_lt.mpr (Int.natCast_nonneg _)
  obtain ⟨w, stored, filled, same⟩ := (Filled.empty buffer).storeAll (utf16 path.text) []
    (by rw [List.append_nil]; omega)
  rw [List.append_nil] at stored
  rw [List.nil_append, Nat.zero_add] at filled
  refine ⟨w, ?_, filled, same.trans size⟩
  simp only [ffsAllocUtowAddcap, ffsUtow_measures converts, if_neg nonneg, Int.toNat_natCast,
    allocated, ffsUtow_fits converts (Nat.le_add_right _ addChars), stored, Option.map_some]

/-- The last character is a slash if the last unit is one. -/
theorem isSlash_last {text : List Char} {last : Wchar}
    (isLast : (utf16 text).getLast? = some last) :
    isSlash last = true ↔ text.getLast? = some '/' ∨ text.getLast? = some '\\' := by
  have slash := @getLast?_utf16_iff '/' (by decide) text
  have bslash := @getLast?_utf16_iff '\\' (by decide) text
  rw [isLast, Option.some.injEq] at slash bslash
  rw [isSlash, Bool.or_eq_true, decide_eq_true_eq, decide_eq_true_eq]
  exact or_congr slash bslash

/-- Without a slash there is one character less. -/
theorem utf16_withoutSlash {text : List Char} {last : Wchar}
    (isLast : (utf16 text).getLast? = some last) :
    utf16 (withoutSlash text) = (utf16 text).take
      (if isSlash last then (utf16 text).length - 1 else (utf16 text).length) := by
  rw [withoutSlash]
  by_cases slash : isSlash last = true
  · rw [if_pos slash, if_pos ((isSlash_last isLast).mp slash), ← List.dropLast_eq_take]
    have oneUnit : ∃ front c, text = front ++ [c] ∧ (utf16Char c).length = 1 := by
      rcases (isSlash_last isLast).mp slash with ends | ends
      · obtain ⟨front, rfl⟩ := List.getLast?_eq_some_iff.mp ends
        exact ⟨front, _, rfl, rfl⟩
      · obtain ⟨front, rfl⟩ := List.getLast?_eq_some_iff.mp ends
        exact ⟨front, _, rfl, rfl⟩
    obtain ⟨front, c, rfl, single⟩ := oneUnit
    obtain ⟨unit, isUnit⟩ := List.length_eq_one_iff.mp single
    rw [List.dropLast_concat, utf16_concat, isUnit, List.dropLast_concat]
  · rw [if_neg slash, if_neg fun ends => slash ((isSlash_last isLast).mpr ends), List.take_length]

/-- A terminated string in a buffer. -/
theorem takeWhile_filled {w content : List Wchar} {k : Nat} (filled : Filled w k (content ++ [0]))
    (noNul : 0 ∉ content) : w.takeWhile (· ≠ 0) = content := by
  obtain ⟨rest, rfl⟩ := filled.leads
  rw [List.append_assoc, List.singleton_append]
  exact takeWhile_terminated noNul rest

theorem nul_not_mem_utf16 {text : List Char} (noNul : '\x00' ∉ text) : (0 : Wchar) ∉ utf16 text :=
  fun member => noNul ((@mem_utf16_iff '\x00' (by decide) text).mp member)

theorem nul_not_mem_patternOf (path : Volume.Name) (wildcard : Option Volume.Name) :
    '\x00' ∉ patternOf path.text (wildcard.map Volume.Name.text) := by
  intro member
  rcases List.mem_append.mp member with inPath | inRest
  · apply path.noNul
    rw [withoutSlash] at inPath
    split at inPath
    · exact List.dropLast_subset _ inPath
    · exact inPath
  · rcases List.mem_cons.mp inRest with isNul | inWildcard
    · exact absurd isNul (by decide)
    · cases wildcard with
      | none => exact absurd inWildcard (by decide)
      | some name => exact name.noNul inWildcard

/-- The pattern is what is to be searched for, and the buffer is large enough for it. -/
theorem scanPattern_eq (nonempty : path.text ≠ [])
    (converts : Converts ffutf8ToUtf16 path.text)
    (allocates : ∀ n, ∃ buffer, alloc n = some buffer ∧ buffer.length = n)
    (wildcard : Option Volume.Name)
    (convertsToo : ∀ name ∈ wildcard, Converts ffutf8ToUtf16 name.text) :
    scanPattern ffutf8ToUtf16 alloc (utf8 path.text) (wildcard.map fun name => utf8 name.text) =
      some (some (utf16 (patternOf path.text (wildcard.map Volume.Name.text)))) := by
  have units : utf16 path.text ≠ [] := (utf16_eq_nil_iff path.text).not.mpr nonempty
  have positive := List.length_pos_of_ne_nil units
  have isLast := List.getLast?_eq_some_getLast units
  generalize (utf16 path.text).getLast units = last at isLast
  obtain ⟨w, allocated, filled, size⟩ := ffsAllocUtowAddcap_filled converts allocates
    (match wildcard.map fun name => utf8 name.text with
    | some wildcard => 2 + wildcard.length
    | none => 3)
  have read : w[(utf16 path.text).length - 1]? = some last := by
    obtain ⟨rest, rfl⟩ := filled.leads
    rw [List.getElem?_append_left (by omega), ← List.getLast?_eq_getElem?]
    exact isLast
  have shorter : (if isSlash last then (utf16 path.text).length - 1 else
      (utf16 path.text).length) ≤ (utf16 path.text).length := by
    split <;> omega
  have begun := filled.truncate shorter
  rw [← utf16_withoutSlash isLast] at begun
  unfold scanPattern
  simp only [allocated, if_neg (Nat.ne_of_gt positive), read, Option.bind_eq_bind, Option.bind_some]
  generalize (if isSlash last then (utf16 path.text).length - 1 else (utf16 path.text).length) = n
    at shorter begun
  have noNul := nul_not_mem_utf16 (nul_not_mem_patternOf path wildcard)
  cases wildcard with
  | none =>
      dsimp only [Option.map_none] at size
      obtain ⟨w1, stored1, begun1, size1⟩ := begun.store backslash (by omega)
      obtain ⟨w2, stored2, begun2, size2⟩ := begun1.store 0x2a (by omega)
      obtain ⟨w3, stored3, begun3, _⟩ := begun2.store 0 (by omega)
      have whole : utf16 (withoutSlash path.text) ++ [backslash] ++ [0x2a] =
          utf16 (patternOf path.text none) := by
        rw [patternOf, utf16, utf16, List.flatMap_append, List.append_assoc]
        rfl
      rw [whole] at begun3
      simp only [stored1, stored2, stored3, Option.map_none, Option.map_some, Option.bind_some,
        takeWhile_filled begun3 noNul]
  | some name =>
      dsimp only [Option.map_some] at size
      have convertsName := convertsToo name rfl
      have narrow := (length_utf8 name.text).1
      obtain ⟨w1, stored1, begun1, size1⟩ := begun.store backslash (by omega)
      obtain ⟨w2, stored2, begun2, size2⟩ := begun1.storeAll (utf16 name.text) []
        (by rw [List.append_nil]; omega)
      rw [List.append_nil] at stored2
      obtain ⟨w3, stored3, begun3, _⟩ := begun2.store 0 (by omega)
      have whole : utf16 (withoutSlash path.text) ++ [backslash] ++ utf16 name.text =
          utf16 (patternOf path.text (some name.text)) := by
        rw [patternOf, utf16, utf16, utf16, List.flatMap_append, List.append_assoc]
        rfl
      rw [whole] at begun3
      have moved : ((n + 1 : Nat) + ((utf16 name.text).length : Int)).toNat =
          n + 1 + (utf16 name.text).length := by omega
      simp only [stored1, Option.map_some, Option.bind_some, ffsUtow_fits convertsName narrow,
        stored2, moved, stored3, takeWhile_filled begun3 noNul]

end Pattern

end Ffos.DirScan
