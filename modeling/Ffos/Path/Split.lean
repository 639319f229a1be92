/-
Module: Ffos.Path.Split
Purpose: `ffpath_splitpath_unix`, `ffpath_splitpath_win` and `ffpath_splitname` of FFOS/path.h.
Trusted boundary: `ffs_rfindany` of ffbase; `ffs_rfindchar` is the same for one character, and
  `ffs_split` leaves the character out
Main exports: ffpathSplitpath, ffpathSplitpathUnix, ffpathSplitpathWin, ffpathSplitname,
  splitpath_cases, splitpathUnix_eq_splitpathWin, splitname_cases
-/
import Ffos.Path.Model

namespace Ffos.Path

open Ffos.Lib

/-- What `ffpath_splitpath_unix` and `ffpath_splitpath_win` have in common: the value returned,
`dir` and `name`. -/
def ffpathSplitpath (str : Ffstr) (slashes fn : List Byte) : Int × List Byte × List Byte :=
  match str.rfindany fn slashes with
  | none => (-1, [], fn)
  | some at_ => (at_, fn.take at_, fn.drop (at_ + 1))

def ffpathSplitpathUnix (str : Ffstr) (fn : List Byte) : Int × List Byte × List Byte :=
  ffpathSplitpath str [slash] fn

def ffpathSplitpathWin (str : Ffstr) (fn : List Byte) : Int × List Byte × List Byte :=
  ffpathSplitpath str [slash, backslash] fn

/-- `ffpath_splitname`: the value returned, `name` and `ext`. -/
def ffpathSplitname (str : Ffstr) (fn : List Byte) : Int × List Byte × List Byte :=
  match str.rfindany fn dot with
  | none => (0, fn, [])
  | some at_ => if at_ = 0 then (0, fn, []) else (at_, fn.take at_, fn.drop (at_ + 1))

/-- A path without a separator is a name; any other one is split at the last separator. -/
theorem splitpath_cases (str : Ffstr) (slashes fn : List Byte) :
    Clean slashes fn ∧ ffpathSplitpath str slashes fn = (-1, [], fn) ∨
      ∃ dir c name, fn = dir ++ c :: name ∧ c ∈ slashes ∧ Clean slashes name ∧
        ffpathSplitpath str slashes fn = (dir.length, dir, name) := by
  by_cases clean : Clean slashes fn
  · refine Or.inl ⟨clean, ?_⟩
    rw [ffpathSplitpath, str.rfindany_none fn slashes clean]
  · obtain ⟨dir, c, name, rfl, member, cleanName⟩ := exists_last_separator slashes clean
    refine Or.inr ⟨dir, c, name, rfl, member, cleanName, ?_⟩
    rw [ffpathSplitpath, str.rfindany_found dir c name slashes member cleanName]
    dsimp only
    rw [List.take_left]
    simp

/-- The name has no separator in it. -/
theorem clean_splitpath (str : Ffstr) (slashes fn : List Byte) :
    Clean slashes (ffpathSplitpath str slashes fn).2.2 := by
  rcases splitpath_cases str slashes fn with ⟨clean, split⟩ | ⟨dir, c, name, _, _, clean, split⟩
  · rw [split]
    exact clean
  · rw [split]
    exact clean

/-- A path without backslashes is split alike on both systems. -/
theorem splitpathUnix_eq_splitpathWin (str : Ffstr) {fn : List Byte} (plain : 0x5c ∉ fn) :
    ffpathSplitpathUnix str fn = ffpathSplitpathWin str fn := by
  have both : ∀ {text : List Byte}, 0x5c ∉ text → Clean [slash] text →
      Clean [slash, backslash] text := by
    intro text absent clean c member separator
    rcases List.mem_cons.mp separator with isSlash | isBackslash
    · exact clean c member (List.mem_singleton.mpr isSlash)
    · rw [List.mem_singleton.mp isBackslash] at member
      exact absent member
  rcases splitpath_cases str [slash] fn with ⟨clean, split⟩ | ⟨dir, c, name, rfl, at_, clean, split⟩
  · rw [ffpathSplitpathUnix, split, ffpathSplitpathWin, ffpathSplitpath,
      str.rfindany_none fn _ (both plain clean)]
  · have member : c ∈ [slash, backslash] := List.mem_cons.mpr (Or.inl (List.mem_singleton.mp at_))
    have plainName : 0x5c ∉ name := fun inName =>
      plain (List.mem_append_right _ (List.mem_cons_of_mem _ inName))
    rw [ffpathSplitpathUnix, split, ffpathSplitpathWin, ffpathSplitpath,
      str.rfindany_found dir c name _ member (both plainName clean)]
    simp

/-- A name is split at the last dot, unless there is none or it is the first character. -/
theorem splitname_cases (str : Ffstr) (fn : List Byte) :
    ((Clean dot fn ∨ ∃ rest, fn = 0x2e :: rest ∧ Clean dot rest) ∧
        ffpathSplitname str fn = (0, fn, [])) ∨
      ∃ name ext, name ≠ [] ∧ fn = name ++ 0x2e :: ext ∧ Clean dot ext ∧
        ffpathSplitname str fn = ((name.length : Int), name, ext) := by
  by_cases clean : Clean dot fn
  · refine Or.inl ⟨Or.inl clean, ?_⟩
    rw [ffpathSplitname, str.rfindany_none fn dot clean]
  · obtain ⟨name, c, ext, rfl, member, cleanExt⟩ := exists_last_separator dot clean
    obtain rfl : c = 0x2e := List.mem_singleton.mp member
    rw [ffpathSplitname, str.rfindany_found name _ ext dot member cleanExt]
    dsimp only
    cases name with
    | nil => exact Or.inl ⟨Or.inr ⟨ext, rfl, cleanExt⟩, rfl⟩
    | cons first rest =>
        refine Or.inr ⟨first :: rest, ext, List.cons_ne_nil _ _, rfl, cleanExt, ?_⟩
        have nonempty : (first :: rest).length ≠ 0 := Nat.succ_ne_zero _
        rw [if_neg nonempty, List.take_left]
        simp

end Ffos.Path
