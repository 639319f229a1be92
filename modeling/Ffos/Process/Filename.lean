/-
Module: Ffos.Process.Filename
Purpose: `ffps_filename` of FFOS/process.h on Linux with its two ways to find the path of the
  executable, and when it stays in its buffer with the whole path.
Trusted boundary: `readlink` copies what fits of the path and no terminator, and fails for a
  buffer of no bytes; `realpath` fails for a path that does not fit into PATH_MAX bytes
Main exports: ExePath, Os, ffpathReal, ffpsFilename, FilenameSound, FilenameFits,
  filenameSound_iff
-/
import Ffos.Lib.ByteMemory
import Ffos.Lib.OutputBuffer

namespace Ffos.Process

open Ffos.Lib

/-! ### The two ways -/

/-- `PATH_MAX` on Linux. -/
def pathMax : Nat := 4096

/-- The path of the executable: bytes without a NUL. -/
structure ExePath where
  bytes : List Byte
  noNul : 0 ∉ bytes

/-- Which of the system calls succeed. -/
structure Os where
  readlinkWorks : Bool
  realpathWorks : Bool
deriving DecidableEq, Repr

/-- `readlink("/proc/self/exe", name, cap)`: the bytes copied. -/
def readlink (os : Os) (path : ExePath) (cap : Nat) : Option (List Byte) :=
  if os.readlinkWorks ∧ cap ≠ 0 then some (path.bytes.take cap) else none

/-- `realpath`: the path and its NUL. -/
def realpath (os : Os) (path : ExePath) : Option (List Byte) :=
  if os.realpathWorks ∧ path.bytes.length < pathMax then some (path.bytes ++ [0]) else none

/-- `_ffpath_real` on a buffer `name` of `cap` bytes: whether the result is `name`, not NULL,
and the buffer after it. None is a store outside of the buffer. -/
def ffpathReal (os : Os) (path : ExePath) (name : List Byte) : Option (Bool × List Byte) :=
  match realpath os path with
  | none => some (false, name)
  | some real =>
      let n := (cLength real + 1) % 2 ^ 32
      if name.length < n then some (false, name)
      else (storeAll name 0 (real.take n)).map (true, ·)

/-- `ffps_filename` with `FF_LINUX`. The count of `readlink` is cut to an `int`. -/
def ffpsFilename (os : Os) (path : ExePath) (name : List Byte) : Option (Bool × List Byte) :=
  match readlink os path name.length with
  | none => ffpathReal os path name
  | some link => do
      let name ← storeAll name 0 link
      let n := (BitVec.ofNat 32 link.length).toInt
      if 0 ≤ n then (store name n.toNat 0).map (true, ·)
      else ffpathReal os path name

/-! ### What is asked of it -/

/-- The result is NULL. -/
def ReturnsNull (result : Option (Bool × List Byte)) : Prop :=
  ∃ after, result = some (false, after)

/-- For either outcome of `readlink` and of `realpath`: nothing is stored outside of the
buffer, a result other than NULL is the whole path with its NUL, and the two ways agree on
when the buffer is too small. -/
structure FilenameSound (path : ExePath) (name : List Byte) : Prop where
  inside : ∀ os, ffpsFilename os path name ≠ none
  whole : ∀ os after, ffpsFilename os path name = some (true, after) →
    path.bytes ++ [0] <+: after
  agree : path.bytes.length < pathMax →
    (ReturnsNull (ffpsFilename ⟨true, true⟩ path name) ↔
      ReturnsNull (ffpsFilename ⟨false, true⟩ path name))

/-- The path is shorter than the buffer, and than 2^31 bytes. Or the count of `readlink` is
negative as an `int`, and neither way gives a path. -/
def FilenameFits (path : ExePath) (cap : Nat) : Prop :=
  path.bytes.length < cap ∧ path.bytes.length < 2 ^ 31 ∨
    2 ^ 31 ≤ min path.bytes.length cap % 2 ^ 32

/-! ### The way over `realpath` -/

/-- The path is found and copied if it and its NUL fit. -/
theorem ffpathReal_of_found {os : Os} {path : ExePath} (works : os.realpathWorks = true)
    (short : path.bytes.length < pathMax) (name : List Byte) :
    ffpathReal os path name =
      if name.length < path.bytes.length + 1 then some (false, name)
      else some (true, path.bytes ++ [0] ++ name.drop (path.bytes.length + 1)) := by
  have found : realpath os path = some (path.bytes ++ [0]) := if_pos ⟨works, short⟩
  have noWrap : (cLength (path.bytes ++ [0]) + 1) % 2 ^ 32 = path.bytes.length + 1 := by
    rw [cLength_terminated path.noNul]
    apply Nat.mod_eq_of_lt
    unfold pathMax at short
    omega
  have whole : (path.bytes ++ [0]).take (path.bytes.length + 1) = path.bytes ++ [0] :=
    List.take_of_length_le (by simp)
  unfold ffpathReal
  simp only [found, noWrap, whole]
  by_cases small : name.length < path.bytes.length + 1
  · rw [if_pos small, if_pos small]
  · have fits : 0 + (path.bytes ++ [0]).length ≤ name.length := by
      rw [List.length_append, List.length_singleton]
      omega
    rw [if_neg small, if_neg small, storeAll, if_pos fits]
    simp

/-- Otherwise the result is NULL. -/
theorem ffpathReal_of_not_found {os : Os} {path : ExePath}
    (fails : ¬(os.realpathWorks = true ∧ path.bytes.length < pathMax)) (name : List Byte) :
    ffpathReal os path name = some (false, name) := by
  have notFound : realpath os path = none := if_neg fails
  simp only [ffpathReal, notFound]

/-! ### The way over `readlink` -/

/-- The `int` that `name[n] = '\0'` is stored at. -/
theorem toInt_ofNat_count (count : Nat) :
    (BitVec.ofNat 32 count).toInt =
      if count % 2 ^ 32 < 2 ^ 31 then ((count % 2 ^ 32 : Nat) : Int)
      else ((count % 2 ^ 32 : Nat) : Int) - 2 ^ 32 := by
  rw [BitVec.toInt_eq_toNat_cond, BitVec.toNat_ofNat]
  by_cases small : count % 2 ^ 32 < 2 ^ 31
  · rw [if_pos small, if_pos (by omega)]
  · rw [if_neg small, if_neg (by omega)]
    rfl

section Readlink

variable {os : Os} {path : ExePath} {name : List Byte}

theorem ffpsFilename_of_fails (fails : os.readlinkWorks = false) :
    ffpsFilename os path name = ffpathReal os path name := by
  have notRead : readlink os path name.length = none := by
    rw [readlink, fails]
    exact if_neg fun both => absurd both.1 (by decide)
  simp only [ffpsFilename, notRead]

/-- The count as an `int` is an index: a NUL is stored there. -/
theorem ffpsFilename_of_index (works : os.readlinkWorks = true) (room : name ≠ [])
    (index : min path.bytes.length name.length % 2 ^ 32 < 2 ^ 31) :
    ffpsFilename os path name =
      (store (path.bytes.take name.length ++ name.drop path.bytes.length)
        (min path.bytes.length name.length % 2 ^ 32) 0).map (true, ·) := by
  have read : readlink os path name.length = some (path.bytes.take name.length) :=
    if_pos ⟨works, fun none => room (List.length_eq_zero_iff.mp none)⟩
  have length : (path.bytes.take name.length).length = min path.bytes.length name.length := by
    rw [List.length_take, Nat.min_comm]
  have copied : storeAll name 0 (path.bytes.take name.length) =
      some (path.bytes.take name.length ++ name.drop path.bytes.length) := by
    have fits : 0 + (path.bytes.take name.length).length ≤ name.length := by
      rw [length]
      omega
    rw [storeAll, if_pos fits, length, List.take_zero, List.nil_append, Nat.zero_add]
    cases Nat.le_total path.bytes.length name.length with
    | inl whole => rw [Nat.min_eq_left whole]
    | inr part => rw [Nat.min_eq_right part, List.drop_length, List.drop_of_length_le part]
  simp only [ffpsFilename, read, copied, length, toInt_ofNat_count, if_pos index,
    Option.bind_eq_bind, Option.bind_some, Int.natCast_nonneg, if_true, Int.toNat_natCast]

/-- A negative count sends the path that is too long for `realpath` to it. -/
theorem ffpsFilename_of_negative
    (negative : 2 ^ 31 ≤ min path.bytes.length name.length % 2 ^ 32) :
    ∃ after, ffpsFilename os path name = some (false, after) := by
  have long : ¬(os.realpathWorks = true ∧ path.bytes.length < pathMax) := by
    have atMost := Nat.mod_le (min path.bytes.length name.length) (2 ^ 32)
    unfold pathMax
    omega
  cases read : readlink os path name.length with
  | none => exact ⟨name, by simp only [ffpsFilename, read, ffpathReal_of_not_found long]⟩
  | some link =>
      have linkEq : link = path.bytes.take name.length := by
        unfold readlink at read
        split at read
        · exact (Option.some.inj read).symm
        · cases read
      have length : link.length = min path.bytes.length name.length := by
        rw [linkEq, List.length_take, Nat.min_comm]
      have fits : 0 + link.length ≤ name.length := by
        rw [length]
        omega
      have below : ¬(0 : Int) ≤ (BitVec.ofNat 32 link.length).toInt := by
        rw [length, toInt_ofNat_count, if_neg (Nat.not_lt_of_le negative)]
        omega
      simp only [ffpsFilename, read, storeAll, if_pos fits, Option.bind_eq_bind, Option.bind_some,
        if_neg below, ffpathReal_of_not_found long]
      exact ⟨_, rfl⟩

end Readlink

/-! ### Both ways -/

section Filename

variable {path : ExePath} {name : List Byte}

/-- The way over `realpath` stays in the buffer, and gives the whole path or NULL. -/
theorem ffpathReal_cases (os : Os) (path : ExePath) (name : List Byte) :
    ReturnsNull (ffpathReal os path name) ∨
      ∃ rest, ffpathReal os path name = some (true, path.bytes ++ [0] ++ rest) := by
  by_cases found : os.realpathWorks = true ∧ path.bytes.length < pathMax
  · rw [ffpathReal_of_found found.1 found.2]
    by_cases small : name.length < path.bytes.length + 1
    · rw [if_pos small]
      exact Or.inl ⟨name, rfl⟩
    · rw [if_neg small]
      exact Or.inr ⟨_, rfl⟩
  · exact Or.inl ⟨name, ffpathReal_of_not_found found name⟩

/-- A path that fits is copied whole by `readlink` too. -/
theorem ffpsFilename_of_shorter {os : Os} (works : os.readlinkWorks = true)
    (shorter : path.bytes.length < name.length) (short : path.bytes.length < 2 ^ 31) :
    ∃ rest, ffpsFilename os path name = some (true, path.bytes ++ [0] ++ rest) := by
  have room : name ≠ [] := List.ne_nil_of_length_pos (Nat.lt_of_le_of_lt (Nat.zero_le _) shorter)
  have count : min path.bytes.length name.length % 2 ^ 32 = path.bytes.length := by
    rw [Nat.min_eq_left (Nat.le_of_lt shorter)]
    exact Nat.mod_eq_of_lt (Nat.lt_trans short (by decide))
  obtain ⟨byte, rest, left⟩ : ∃ byte rest, name.drop path.bytes.length = byte :: rest := by
    apply List.exists_cons_of_ne_nil
    intro nothing
    exact Nat.not_le_of_lt shorter (List.drop_eq_nil_iff.mp nothing)
  refine ⟨rest, ?_⟩
  rw [ffpsFilename_of_index works room (by rw [count]; exact short), count, left,
    List.take_of_length_le (Nat.le_of_lt shorter), store_middle]
  simp

theorem filenameSound_of_fits (fits : FilenameFits path name.length) :
    FilenameSound path name := by
  have cases : ∀ os, ReturnsNull (ffpsFilename os path name) ∨
      ∃ rest, ffpsFilename os path name = some (true, path.bytes ++ [0] ++ rest) := by
    intro os
    rcases fits with ⟨shorter, short⟩ | negative
    · cases works : os.readlinkWorks with
      | true => exact Or.inr (ffpsFilename_of_shorter works shorter short)
      | false =>
          rw [ffpsFilename_of_fails works]
          exact ffpathReal_cases os path name
    · exact Or.inl (ffpsFilename_of_negative negative)
  constructor
  · intro os outside
    rcases cases os with ⟨after, result⟩ | ⟨rest, result⟩
    · rw [outside] at result
      cases result
    · rw [outside] at result
      cases result
  · intro os after returned
    rcases cases os with ⟨other, result⟩ | ⟨rest, result⟩
    · rw [returned] at result
      cases result
    · obtain ⟨-, rfl⟩ := Prod.mk.inj (Option.some.inj (returned.symm.trans result))
      exact ⟨rest, rfl⟩
  · intro short
    rcases fits with ⟨shorter, small⟩ | negative
    · obtain ⟨first, firstResult⟩ := @ffpsFilename_of_shorter path name ⟨true, true⟩ rfl shorter small
      rw [firstResult, ffpsFilename_of_fails rfl, ffpathReal_of_found rfl short,
        if_neg (Nat.not_lt_of_le shorter)]
      constructor
      · rintro ⟨after, null⟩
        cases null
      · rintro ⟨after, null⟩
        cases null
    · -- such a path is too long for `realpath`
      have atMost := Nat.mod_le (min path.bytes.length name.length) (2 ^ 32)
      unfold pathMax at short
      omega

/-- A path that does not fit: the NUL is stored outside of the buffer, or inside the path. -/
theorem fits_of_filenameSound (room : name ≠ []) (sound : FilenameSound path name) :
    FilenameFits path name.length := by
  by_contra misfit
  obtain ⟨notShorter, notNegative⟩ := not_or.mp misfit
  have index : min path.bytes.length name.length % 2 ^ 32 < 2 ^ 31 := Nat.lt_of_not_le notNegative
  have result := @ffpsFilename_of_index ⟨true, true⟩ path name rfl room index
  cases written : store (path.bytes.take name.length ++ name.drop path.bytes.length)
      (min path.bytes.length name.length % 2 ^ 32) 0 with
  | none =>
      rw [written] at result
      exact sound.inside _ result
  | some after =>
      rw [written, Option.map_some] at result
      have whole := sound.whole _ _ result
      have afterEq : after = (path.bytes.take name.length ++ name.drop path.bytes.length).set
          (min path.bytes.length name.length % 2 ^ 32) 0 := by
        unfold store at written
        split at written
        · exact (Option.some.inj written).symm
        · cases written
      have enough := whole.length_le
      rw [afterEq, List.length_set] at enough
      simp only [List.length_append, List.length_take, List.length_drop,
        List.length_singleton] at enough
      -- the path is shorter than the buffer, but its length is cut to a smaller `int`
      have inPath : path.bytes.length % 2 ^ 32 < path.bytes.length := by omega
      have cut : min path.bytes.length name.length = path.bytes.length := by omega
      have nul : after[path.bytes.length % 2 ^ 32]? = some 0 := by
        rw [afterEq, cut, List.getElem?_set_self]
        simp only [List.length_append, List.length_take, List.length_drop]
        omega
      obtain ⟨rest, afterParts⟩ := whole
      rw [← afterParts, List.append_assoc, List.getElem?_append_left inPath] at nul
      exact path.noNul (List.mem_of_getElem? nul)

/-- `ffps_filename` stays in its buffer and returns the whole path or NULL if and only if the
path is shorter than the buffer, but for lengths that an `int` does not hold. -/
theorem filenameSound_iff (path : ExePath) (name : List Byte) (room : name ≠ []) :
    FilenameSound path name ↔ FilenameFits path name.length :=
  ⟨fits_of_filenameSound room, filenameSound_of_fits⟩

end Filename

/-- "/a". -/
def shortPath : ExePath := ⟨[0x2f, 0x61], by decide⟩

theorem filenameSound_three_bytes : FilenameSound shortPath [1, 1, 1] :=
  (filenameSound_iff shortPath [1, 1, 1] (by decide)).mpr (Or.inl (by decide))

/-- The NUL of "/a" is stored behind a buffer of two bytes. Over `realpath` the result is
NULL. -/
theorem not_filenameSound_two_bytes :
    ffpsFilename ⟨true, true⟩ shortPath [1, 1] = none ∧
      ffpsFilename ⟨false, true⟩ shortPath [1, 1] = some (false, [1, 1]) ∧
      ¬FilenameSound shortPath [1, 1] := by
  have outside : ffpsFilename ⟨true, true⟩ shortPath [1, 1] = none := by decide
  refine ⟨outside, by decide, ?_⟩
  intro sound
  exact sound.inside _ outside

end Ffos.Process
