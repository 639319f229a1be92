/-
Module: Ffos.DirScan.Listing
Purpose: A scan of a directory gives each name that it should list once, from inside of its
  buffer, and gives all of them again after a reset.
Trusted boundary: none
Main exports: listed, keeps_eq_listed, exists_arranged, InBuffer, ffdirscanReset_visited,
  ffdirscanOpen_lists
-/
import Ffos.DirScan.Sorted

namespace Ffos.DirScan

open Ffos.Lib

/-! ### The names that are listed -/

/-- A name is listed unless it is "." or ".." without FFDIRSCAN_DOT, and with
FFDIRSCAN_USEWILDCARD if it matches. -/
def listed (host : Host) (wildcard : List Byte) (flags : BitVec 32) (name : Name) : Bool :=
  (hasFlag flags dot || (name.bytes ≠ [46] && name.bytes ≠ [46, 46])) &&
    (!hasFlag flags useWildcard || host.wildcardMatches wildcard name.bytes)

/-- A name without NUL ends where the terminator stands. -/
theorem eq_nil_of_nul_first {bytes tail : List Byte} (noNul : 0 ∉ bytes)
    (terminated : bytes ++ [0] = 0 :: tail) : bytes = [] := by
  cases bytes with
  | nil => rfl
  | cons first rest =>
      have isNul : first = 0 := (List.cons.inj terminated).1
      exact absurd (isNul ▸ List.mem_cons_self) noNul

/-- It begins with a character that is not the terminator. -/
theorem exists_rest_of_first {bytes tail : List Byte} {first : Byte} (notNul : first ≠ 0)
    (begins : bytes ++ [0] = first :: tail) :
    ∃ rest, bytes = first :: rest ∧ rest ++ [0] = tail := by
  cases bytes with
  | nil => exact absurd (List.cons.inj begins).1.symm notNul
  | cons other rest =>
      obtain ⟨rfl, more⟩ := List.cons.inj begins
      exact ⟨rest, rfl, more⟩

/-- The test on the characters finds "." and "..", and nothing else. -/
theorem isDots_iff (name : Name) :
    isDots name.z = true ↔ name.bytes = [46] ∨ name.bytes = [46, 46] := by
  obtain ⟨bytes, noNul⟩ := name
  constructor
  · intro dots
    unfold isDots at dots
    split at dots
    next tail found =>
      obtain ⟨rest, rfl, more⟩ := exists_rest_of_first (by decide) found
      have ends := eq_nil_of_nul_first (fun nul => noNul (List.mem_cons_of_mem _ nul)) more
      exact .inl (congrArg (List.cons 46) ends)
    next tail found =>
      obtain ⟨rest, rfl, more⟩ := exists_rest_of_first (by decide) found
      obtain ⟨after, rfl, last⟩ := exists_rest_of_first (by decide) more
      have ends := eq_nil_of_nul_first
        (fun nul => noNul (List.mem_cons_of_mem _ (List.mem_cons_of_mem _ nul))) last
      exact .inr (congrArg (fun rest => 46 :: 46 :: rest) ends)
    next => exact absurd dots Bool.false_ne_true
  · rintro (one | two)
    · obtain rfl : bytes = [46] := one
      rfl
    · obtain rfl : bytes = [46, 46] := two
      rfl

theorem keeps_eq_listed (host : Host) (wildcard : List Byte) (flags : BitVec 32) :
    keeps host wildcard flags = listed host wildcard flags := by
  funext name
  have dots : isDots name.z = !(name.bytes ≠ [46] && name.bytes ≠ [46, 46]) := by
    rw [Bool.eq_iff_iff, isDots_iff]
    simp [or_iff_not_imp_left]
  rw [keeps, listed, dots]
  cases hasFlag flags dot <;> cases hasFlag flags useWildcard <;> simp

/-! ### The order in which they are stored -/

/-- The offsets are stored in some order, with FFDIRSCAN_NOSORT in that of `readdir`. -/
theorem exists_arranged (host : Host) (flags : BitVec 32) {buf : List Byte}
    {offsets : List (BitVec 32)} {names : List Name}
    (points : List.Forall₂ (Points buf) offsets names) :
    ∃ stored sequence, arranged host flags buf offsets = some stored ∧
      List.Forall₂ (Points buf) stored sequence ∧ sequence.Perm names ∧
      (hasFlag flags nosort = true → sequence = names) := by
  rw [arranged]
  split
  next => exact ⟨offsets, names, rfl, points, .refl _, fun _ => rfl⟩
  next sorting =>
    obtain ⟨stored, sorted, perm, _⟩ := host.ffsort.sorts (ffdirscanCmpname host.signedChar buf)
      offsets (totalOn_of_points points)
    obtain ⟨sequence, storedPoints, sequencePerm⟩ := List.perm_comp_forall₂ perm points
    exact ⟨stored, sequence, sorted, storedPoints, sequencePerm,
      fun unsorted => absurd unsorted sorting⟩

/-! ### Iterating and starting again -/

/-- `ffdirscan_next` moves only the cursor. -/
theorem reset_of_nextName {d after : Ffdirscan} {name : List Byte}
    (found : nextName d = some (some (name, after))) : ffdirscanReset after = ffdirscanReset d := by
  unfold nextName at found
  split at found
  · cases found
  · cases found
  next off next stepped =>
    obtain ⟨_, _, isNext⟩ := Option.map_eq_some_iff.mp found
    obtain ⟨_, rfl⟩ := Prod.mk.inj (Option.some.inj isNext)
    unfold ffdirscanNext at stepped
    split at stepped
    · cases stepped
    · split at stepped
      · cases stepped
      · obtain ⟨_, rfl⟩ := Prod.mk.inj (Option.some.inj (Option.some.inj stepped))
        rfl

/-- A reset leads back to the beginning from everywhere. -/
theorem ffdirscanReset_visited {scanned cursor : Ffdirscan}
    (visited : Visits nextName scanned cursor) :
    ffdirscanReset cursor = ffdirscanReset scanned := by
  induction visited with
  | start => rfl
  | call _ found inductionHypothesis => exact (reset_of_nextName found).trans inductionHypothesis

/-- A call of `ffdirscan_next` reads the table inside of the buffer, and what it returns
points to a string inside of the buffer. -/
def InBuffer (d : Ffdirscan) : Prop :=
  ∃ result, ffdirscanNext d = some result ∧
    ∀ off after, result = some (off, after) → d.cur + 4 ≤ d.names.length ∧
      ∃ name, cString (d.names.drop off) = some name ∧ off + name.length < d.names.length

theorem length_of_cString {memory name : List Byte} (found : cString memory = some name) :
    name.length < memory.length := by
  induction memory generalizing name with
  | nil => cases found
  | cons byte rest inductionHypothesis =>
      rw [cString] at found
      split at found
      · obtain rfl := Option.some.inj found
        exact Nat.succ_pos _
      · obtain ⟨tail, foundTail, rfl⟩ := Option.map_eq_some_iff.mp found
        exact Nat.succ_lt_succ (inductionHypothesis foundTail)

theorem inBuffer_of_yields {d : Ffdirscan} {items : List (List Byte)}
    (yields : Yields nextName d items) : InBuffer d := by
  have called : ∃ result, nextName d = some result := by
    cases items with
    | nil => exact ⟨none, yields⟩
    | cons item items =>
        obtain ⟨after, found, _⟩ := yields
        exact ⟨_, found⟩
  obtain ⟨result, found⟩ := called
  unfold nextName at found
  split at found
  · cases found
  next stopped => exact ⟨none, stopped, fun off after isSome => absurd isSome (by simp)⟩
  next off after stepped =>
    obtain ⟨name, pointed, _⟩ := Option.map_eq_some_iff.mp found
    refine ⟨_, stepped, ?_⟩
    intro other next isPair
    obtain ⟨rfl, rfl⟩ := Prod.mk.inj (Option.some.inj isPair)
    have size := length_of_cString pointed
    rw [List.length_drop] at size
    refine ⟨?_, name, pointed, by omega⟩
    unfold ffdirscanNext at stepped
    split at stepped
    · cases stepped
    · split at stepped
      · cases stepped
      next read =>
        obtain ⟨bytes, readable, _⟩ := Option.map_eq_some_iff.mp read
        unfold readBytes at readable
        split at readable
        next inside => exact inside
        next => cases readable

/-! ### The contract -/

/-- `ffdirscan_open` reads nothing outside of its buffer, and it succeeds if the directory can
be opened and read. Then the scan gives the names that are listed, each as often as `readdir`
gave it, with FFDIRSCAN_NOSORT in its order; all reads stay inside of the buffer, and after a
reset at any point the scan gives the same again. -/
theorem ffdirscanOpen_lists (host : Host) (dir : Directory) (d : Ffdirscan) (flags : BitVec 32)
    (small : ((dir.names.filter (listed host d.wildcard flags)).flatMap Name.z).length < 2 ^ 32) :
    ∃ code scanned, ffdirscanOpen host dir d flags = some (code, scanned) ∧
      (code = 0 ↔ dir.opened = true ∧ dir.readFails = false) ∧
      (code = 0 → ∃ sequence : List Name,
        sequence.Perm (dir.names.filter (listed host d.wildcard flags)) ∧
        (hasFlag flags nosort = true →
          sequence = dir.names.filter (listed host d.wildcard flags)) ∧
        Yields nextName scanned (sequence.map Name.bytes) ∧
        ∀ cursor, Visits nextName scanned cursor →
          InBuffer cursor ∧ Yields nextName (ffdirscanReset cursor) (sequence.map Name.bytes)) := by
  obtain ⟨opened, names, readFails⟩ := dir
  cases opened with
  | false => exact ⟨-1, _, rfl, by simp, fun success => absurd success (by decide)⟩
  | true =>
      cases readFails with
      | true => exact ⟨-1, _, rfl, by simp, fun success => absurd success (by decide)⟩
      | false =>
          have points := points_offsetsFrom [] (names.filter (listed host d.wildcard flags))
            (Nat.le_of_lt small)
          obtain ⟨stored, sequence, isStored, storedPoints, perm, unsorted⟩ :=
            exists_arranged host flags points
          have opened := ffdirscanOpen_eq host d flags names
          simp only [keeps_eq_listed] at opened
          simp only [List.nil_append, List.length_nil] at isStored
          rw [isStored, Option.map_some] at opened
          refine ⟨0, _, opened, by simp, fun _ => ⟨sequence, perm, unsorted, ?_, ?_⟩⟩
          · exact yields_of_points _ storedPoints
          · intro cursor visited
            have yields := yields_of_points
              (if hasFlag flags useFd then { d with fd := -1 } else d) storedPoints
            obtain ⟨rest, more⟩ := visited.yields yields
            refine ⟨inBuffer_of_yields more, ?_⟩
            rw [ffdirscanReset_visited visited]
            exact yields

/-- "b", "..", "a" and "b" again, in the order of `readdir`. -/
theorem ffdirscanOpen_lists_unsorted :
    ∃ code scanned, ffdirscanOpen plainHost ⟨true, [⟨[98], by decide⟩, ⟨[46, 46], by decide⟩,
        ⟨[97], by decide⟩, ⟨[98], by decide⟩], false⟩ emptyScan nosort = some (code, scanned) ∧
      (code = 0 → Yields nextName scanned [[98], [97], [98]]) := by
  obtain ⟨code, scanned, opened, _, lists⟩ := ffdirscanOpen_lists plainHost
    ⟨true, [⟨[98], by decide⟩, ⟨[46, 46], by decide⟩, ⟨[97], by decide⟩, ⟨[98], by decide⟩], false⟩
    emptyScan nosort (by decide)
  refine ⟨code, scanned, opened, fun success => ?_⟩
  obtain ⟨sequence, _, unsorted, yields, _⟩ := lists success
  rw [unsorted (by decide)] at yields
  exact yields

end Ffos.DirScan
