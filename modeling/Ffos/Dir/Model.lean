/-
Module: Ffos.Dir.Model
Purpose: `ffdir_make_all` and `ffdir_make_path` of FFOS/dir.h, on UNIX and on Windows,
  over a tree of directories and files.
Trusted boundary: `mkdir` and `CreateDirectoryW` look names up exactly as they are
  written, with no links, no `.` or `..`, and no limits or permissions;
  `ffsz_alloc_buf_utow` of ffbase is a parameter
Main exports: Text, Naming, unix, windows, makeAllLoop, Utow, ffdirMakeAllUnix,
  ffdirMakeAllWindows, ffdirMakePathUnix, ffdirMakePathWindows
-/
import Ffos.Lib.ByteMemory
import Ffos.Lib.FileTree
import Mathlib.Data.List.TakeWhile

namespace Ffos.Dir

open Ffos.Lib

/-- `wchar_t` on Windows. -/
abbrev Wchar := BitVec 16

variable {w : Nat}

/-! ### Strings -/

/-- A C string: characters other than NUL. -/
structure Text (w : Nat) where
  chars : List (BitVec w)
  noNul : 0 ∉ chars

@[ext] theorem Text.ext {first second : Text w} (same : first.chars = second.chars) :
    first = second := by
  cases first
  cases second
  cases same
  rfl

/-- The string at the start of a piece of memory. -/
def cString (memory : List (BitVec w)) : Text w where
  chars := memory.takeWhile (· ≠ 0)
  noNul := by
    intro member
    have passes := List.mem_takeWhile_imp member
    simp at passes

/-- The last place of a character, or -1: `ffs_rfindchar` and `ffs_rfindany`. -/
def rfind (wanted : BitVec w → Bool) (chars : List (BitVec w)) : Int :=
  match chars.reverse.findIdx? wanted with
  | none => -1
  | some place => (chars.length : Int) - 1 - place

/-! ### How a path leads through the tree -/

/-- The names between separators. -/
def components (isSep : BitVec w → Bool) (text : List (BitVec w)) : List (List (BitVec w)) :=
  (text.splitOnP isSep).filter (· ≠ [])

/-- How the system reads a path: its separators, and the directory where the path
starts. Cutting a path at a separator leaves its start. -/
structure Naming (w : Nat) where
  isSep : BitVec w → Bool
  start : List (BitVec w) → List (List (BitVec w))
  nulNotSep : isSep 0 = false
  start_cut : ∀ part sep rest, part ≠ [] → isSep sep = true →
    start (part ++ sep :: rest) = start part

/-- The place in the tree that a path names. -/
def Naming.resolve (naming : Naming w) (text : List (BitVec w)) : List (List (BitVec w)) :=
  naming.start text ++ components naming.isSep text

/-- `'/'`. -/
def isSlash (c : BitVec w) : Bool := c = 47

/-- `'/'` or `'\\'`. -/
def isAnySlash (c : BitVec w) : Bool := c = 47 ∨ c = 92

/-- A path that begins with a slash starts at the root, another one in the working
directory. -/
def unix (cwd : List (List Byte)) : Naming 8 where
  isSep := isSlash
  start text := if (text.head?.map isSlash).getD false then [] else cwd
  nulNotSep := by decide
  start_cut part sep rest notEmpty isSep := by
    cases part with
    | nil => exact absurd rfl notEmpty
    | cons first part => rfl

/-- `first = w[0] | 0x20; first >= 'a' && first <= 'z' && w[1] == ':'`. -/
def hasDrive : List Wchar → Bool
  | first :: second :: _ => 97 ≤ first ||| 0x20 ∧ first ||| 0x20 ≤ 122 ∧ second = 58
  | _ => false

/-- A path that begins with a drive starts above the drives, one that begins with a
slash at the current drive, another one in the working directory. -/
def windows (cwd : List (List Wchar)) : Naming 16 where
  isSep := isAnySlash
  start text :=
    if (text.head?.map isAnySlash).getD false then cwd.take 1
    else if hasDrive text then [] else cwd
  nulNotSep := by decide
  start_cut part sep rest notEmpty isSep := by
    cases part with
    | nil => exact absurd rfl notEmpty
    | cons first part =>
        cases part with
        | nil =>
            -- a separator in the second place is not the colon of a drive
            have notDrive : hasDrive (first :: sep :: rest) = false := by
              have notColon : sep ≠ 58#16 := by
                rintro rfl
                exact absurd isSep (by decide)
              simp [hasDrive, notColon]
            simp only [List.cons_append, List.nil_append, List.head?_cons, notDrive]
            rfl
        | cons second part => rfl

/-! ### `ffdir_make_all` -/

/-- The loop of `ffdir_make_all` on the memory of its string: every leading part that
ends before a separator or at the end is cut off, made, and put together again. It fails
when it reads behind the memory. -/
def makeAllLoop (naming : Naming w) : Nat → FileTree (List (BitVec w)) → List (BitVec w) → Nat →
    Option (Made × FileTree (List (BitVec w)) × List (BitVec w))
  | 0, _, _, _ => none
  | fuel + 1, tree, path, off =>
      match path[off]? with
      | none => none
      | some c =>
          if naming.isSep c ∨ c = 0 then
            let cut := path.set off 0
            let (made, tree) := tree.makeDir (naming.resolve (cString cut).chars)
            let path := cut.set off c
            -- r != 0 && errno != EEXIST
            if made = .failed then some (made, tree, path)
            else if c = 0 then some (made, tree, path)
            else makeAllLoop naming fuel tree path (off + 1)
          else makeAllLoop naming fuel tree path (off + 1)

/-- The loop after the separator at `off`, if there is one: don't try to make
directory "/". -/
def makeAllFrom (naming : Naming w) (tree : FileTree (List (BitVec w))) (path : List (BitVec w))
    (off : Nat) : Option (Made × FileTree (List (BitVec w)) × List (BitVec w)) :=
  match path[off]? with
  | none => none
  | some c =>
      let off := if naming.isSep c then off + 1 else off
      makeAllLoop naming (path.length - off) tree path off

/-- What a call leaves: the result, the file system and the memory of its string. -/
structure Outcome (Name : Type) where
  ret : Int
  tree : FileTree Name
  path : List Byte

/-- `ffdir_make_all` on UNIX. -/
def ffdirMakeAllUnix (cwd : List (List Byte)) (off : Nat) (tree : FileTree (List Byte))
    (path : List Byte) : Option (Outcome (List Byte)) :=
  match makeAllFrom (unix cwd) tree path off with
  | none => none
  | some (made, tree, path) => some ⟨if made = .failed then -1 else 0, tree, path⟩

/-- `ffsz_alloc_buf_utow`: a string in wide characters, if it can be converted. -/
structure Utow where
  convert : Text 8 → Option (Text 16)
  notEmpty : ∀ text wide, convert text = some wide → text.chars ≠ [] → wide.chars ≠ []

/-- `off = FFS_LEN("c:")`: don't try to make directory "drive:". -/
def skipDrive (wide : List Wchar) (off : Nat) : Nat :=
  if off = 0 ∧ hasDrive wide then 2 else off

/-- `ffdir_make_all` on Windows: the loop runs on a copy of the string. -/
def ffdirMakeAllWindows (utow : Utow) (cwd : List (List Wchar)) (off : Nat)
    (tree : FileTree (List Wchar)) (path : List Byte) : Option (Outcome (List Wchar)) :=
  match utow.convert (cString path) with
  | none => some ⟨-1, tree, path⟩
  | some wide =>
      let copy := wide.chars ++ [0]
      match makeAllFrom (windows cwd) tree copy (skipDrive copy off) with
      | none => none
      | some (made, tree, _) => some ⟨if made = .created then 0 else 1, tree, path⟩

/-! ### `ffdir_make_path` -/

/-- `ffdir_make_path` over the separators and the `ffdir_make_all` of the system. -/
def ffdirMakePath {Name : Type} (isSep : Byte → Bool)
    (makeAll : FileTree Name → List Byte → Option (Outcome Name)) (tree : FileTree Name)
    (name : List Byte) : Option (Outcome Name) :=
  let slash := rfind isSep (cString name).chars
  if slash ≤ 0 then some ⟨0, tree, name⟩
  else
    match name[slash.toNat]? with
    | none => none
    | some c =>
        match makeAll tree (name.set slash.toNat 0) with
        | none => none
        | some outcome => some { outcome with path := outcome.path.set slash.toNat c }

def ffdirMakePathUnix (cwd : List (List Byte)) (off : Nat) :
    FileTree (List Byte) → List Byte → Option (Outcome (List Byte)) :=
  ffdirMakePath isSlash (ffdirMakeAllUnix cwd off)

def ffdirMakePathWindows (utow : Utow) (cwd : List (List Wchar)) (off : Nat) :
    FileTree (List Wchar) → List Byte → Option (Outcome (List Wchar)) :=
  ffdirMakePath isAnySlash (ffdirMakeAllWindows utow cwd off)

end Ffos.Dir
