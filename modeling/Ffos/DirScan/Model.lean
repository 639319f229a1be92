/-
Module: Ffos.DirScan.Model
Purpose: The directory scan of FFOS/dirscan.h on UNIX: names packed one after the
  other, a table of their 32-bit offsets behind them, and the iteration over it.
Trusted boundary: ffsort and ffs_wildcard of ffbase, taken as parameters; memory is
  never short; a little-endian machine
Main exports: Ffsort, Host, Directory, Ffdirscan, ffdirscanOpen, ffdirscanNext,
  ffdirscanReset
-/
import Ffos.DirScan.FilenameOrder
import Mathlib.Data.List.Sort

namespace Ffos.DirScan

open Ffos.Lib

/-! ### What is used of ffbase -/

/-- The comparator is a total order on the elements of a list, in the convention of
`qsort`. -/
structure TotalOn {α : Type} (compare : α → α → Option Int) (elements : List α) : Prop where
  defined : ∀ first ∈ elements, ∀ second ∈ elements, ∃ result, compare first second = some result
  swap : ∀ first ∈ elements, ∀ second ∈ elements, ∀ result,
    compare first second = some result → compare second first = some (-result)
  trans : ∀ first ∈ elements, ∀ second ∈ elements, ∀ third ∈ elements, ∀ r s t,
    compare first second = some r → compare second third = some s →
      compare first third = some t → r ≤ 0 → s ≤ 0 → t ≤ 0

/-- `ffsort` on an array of 32-bit numbers: when the comparator is a total order on
them, the result is a permutation that it sorts. A comparator that fails has read
outside of its memory. -/
structure Ffsort where
  sort : (BitVec 32 → BitVec 32 → Option Int) → List (BitVec 32) → Option (List (BitVec 32))
  sorts : ∀ compare elements, TotalOn compare elements → ∃ sorted,
    sort compare elements = some sorted ∧ sorted.Perm elements ∧
      sorted.Pairwise fun first second => ∃ result, compare first second = some result ∧ result ≤ 0

/-- What the functions take from the machine and from ffbase: whether `char` is signed,
whether `ffs_wildcard` finds a match, and `ffsort`. -/
structure Host where
  signedChar : Bool
  wildcardMatches : List Byte → List Byte → Bool
  ffsort : Ffsort

/-! ### The functions -/

/-- What `opendir` or `fdopendir`, and then `readdir`, give. -/
structure Directory where
  opened : Bool
  names : List Name
  readFails : Bool

/-- `ffdirscan`. `names` is the memory behind the pointer. -/
structure Ffdirscan where
  names : List Byte
  len : Nat
  index : Nat
  cur : Nat
  wildcard : List Byte
  fd : Int

/-- `enum FFDIRSCAN_F`. -/
def nosort : BitVec 32 := 1
def dot : BitVec 32 := 2
def useWildcard : BitVec 32 := 0x10
def useFd : BitVec 32 := 0x20

def hasFlag (flags flag : BitVec 32) : Bool := flags &&& flag ≠ 0

/-- `name[0] == '.' && (name[1] == '\0' || (name[1] == '.' && name[2] == '\0'))`. -/
def isDots : List Byte → Bool
  | 46 :: 0 :: _ => true
  | 46 :: 46 :: 0 :: _ => true
  | _ => false

/-- The name passes the two tests of the loop. -/
def keeps (host : Host) (wildcard : List Byte) (flags : BitVec 32) (name : Name) : Bool :=
  !(!hasFlag flags dot && isDots name.z) &&
    !(hasFlag flags useWildcard && !host.wildcardMatches wildcard name.bytes)

/-- The loop over `readdir`: the offsets, each cut to 32 bits, and the packed names. -/
def packNames (keep : Name → Bool) :
    List Name → List (BitVec 32) → List Byte → List (BitVec 32) × List Byte
  | [], offsets, buf => (offsets, buf)
  | name :: rest, offsets, buf =>
      if keep name then
        packNames keep rest (offsets ++ [.ofNat 32 buf.length]) (buf ++ name.z)
      else packNames keep rest offsets buf

/-- `_ffdirscan_cmpname`; `FFPATH_ICASE` is 0. -/
def ffdirscanCmpname (signedChar : Bool) (buf : List Byte) (first second : BitVec 32) :
    Option Int :=
  ffdirscanFilenameCmpz signedChar (buf.drop first.toNat) (buf.drop second.toNat)

/-- The table behind the names. -/
def offsetTable (offsets : List (BitVec 32)) : List Byte :=
  offsets.flatMap fun offset => leBytes 4 offset.toNat

/-- `ffdirscan_open`: the result and the object after it. -/
def ffdirscanOpen (host : Host) (dir : Directory) (d : Ffdirscan) (flags : BitVec 32) :
    Option (Int × Ffdirscan) :=
  let d := if hasFlag flags useFd then { d with fd := -1 } else d
  if dir.opened = false then some (-1, d)
  else
    let (offsets, buf) := packNames (keeps host d.wildcard flags) dir.names [] []
    if dir.readFails then some (-1, d)
    else
      let sorted :=
        if hasFlag flags nosort then some offsets
        else host.ffsort.sort (ffdirscanCmpname host.signedChar buf) offsets
      match sorted with
      | none => none
      | some offsets =>
          let names := buf ++ offsetTable offsets
          some (0, { d with
            names := names
            index := buf.length
            len := names.length
            cur := buf.length })

/-- `ffdirscan_next`: the offset of the next name in `names`, or NULL. -/
def ffdirscanNext (d : Ffdirscan) : Option (Option (Nat × Ffdirscan)) :=
  if d.cur = d.len then some none
  else
    match readLe d.names d.cur 4 with
    | none => none
    | some off => some (some (off, { d with cur := d.cur + 4 }))

/-- `ffdirscan_reset`. -/
def ffdirscanReset (d : Ffdirscan) : Ffdirscan := { d with cur := d.index }

/-! ### What a caller reads -/

/-- The bytes up to the terminator. -/
def cString : List Byte → Option (List Byte)
  | [] => none
  | byte :: rest => if byte = 0 then some [] else (cString rest).map (byte :: ·)

/-- The name that `ffdirscan_next` points to. -/
def nextName (d : Ffdirscan) : Option (Option (List Byte × Ffdirscan)) :=
  match ffdirscanNext d with
  | none => none
  | some none => some none
  | some (some (off, after)) => (cString (d.names.drop off)).map fun name => some (name, after)

/-! ### An instance of the parameter -/

/-- The order of a comparator that never fails on the elements. -/
def leOn (compare : BitVec 32 → BitVec 32 → Option Int) (elements : List (BitVec 32))
    (first second : { element // element ∈ elements }) : Bool :=
  decide ((compare first.val second.val).getD 0 ≤ 0)

/-- The elements sorted by merging. -/
def mergeSorted (compare : BitVec 32 → BitVec 32 → Option Int) (elements : List (BitVec 32)) :
    List (BitVec 32) :=
  (elements.attach.mergeSort (leOn compare elements)).map (·.val)

theorem mergeSorted_perm (compare : BitVec 32 → BitVec 32 → Option Int)
    (elements : List (BitVec 32)) : (mergeSorted compare elements).Perm elements := by
  have perm := (List.mergeSort_perm elements.attach (leOn compare elements)).map (·.val)
  simpa [mergeSorted] using perm

/-- Merge sort is an `ffsort`. -/
def Ffsort.merge : Ffsort where
  sort compare elements := some (mergeSorted compare elements)
  sorts := by
    intro compare elements total
    have transitive : ∀ first second third, leOn compare elements first second →
        leOn compare elements second third → leOn compare elements first third := by
      rintro ⟨first, firstMem⟩ ⟨second, secondMem⟩ ⟨third, thirdMem⟩ firstLe secondLe
      obtain ⟨r, rEq⟩ := total.defined first firstMem second secondMem
      obtain ⟨s, sEq⟩ := total.defined second secondMem third thirdMem
      obtain ⟨t, tEq⟩ := total.defined first firstMem third thirdMem
      simp only [leOn, rEq, sEq, tEq, Option.getD_some, decide_eq_true_eq] at firstLe secondLe ⊢
      exact total.trans first firstMem second secondMem third thirdMem r s t rEq sEq tEq firstLe
        secondLe
    have totality : ∀ first second, leOn compare elements first second ||
        leOn compare elements second first := by
      rintro ⟨first, firstMem⟩ ⟨second, secondMem⟩
      obtain ⟨r, rEq⟩ := total.defined first firstMem second secondMem
      have swapped := total.swap first firstMem second secondMem r rEq
      simp only [leOn, rEq, swapped, Option.getD_some, Bool.or_eq_true, decide_eq_true_eq]
      omega
    refine ⟨_, rfl, mergeSorted_perm compare elements, ?_⟩
    rw [mergeSorted, List.pairwise_map]
    refine (List.pairwise_mergeSort transitive totality elements.attach).imp ?_
    rintro ⟨first, firstMem⟩ ⟨second, secondMem⟩ le
    obtain ⟨r, rEq⟩ := total.defined first firstMem second secondMem
    exact ⟨r, rEq, by simpa [leOn, rEq] using le⟩

end Ffos.DirScan
