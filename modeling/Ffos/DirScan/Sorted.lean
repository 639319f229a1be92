/-
Module: Ffos.DirScan.Sorted
Purpose: A sorted scan gives the names of the directory in their order, whatever the
  order in which they were read, as long as their offsets fit in 32 bits.
Trusted boundary: none
Main exports: StrictOrder, Points, packNames_eq, yields_scan_iff,
  sorted_scan_by_set
-/
import Ffos.DirScan.Model
import Mathlib.Data.List.Perm.Basic

namespace Ffos.DirScan

open Ffos.Lib

/-! ### The comparison is a strict total order -/

/-- The comparison of NUL-terminated names, wherever they are in memory: it is 0 only
between equal names, swapping negates it, and it is transitive. -/
structure StrictOrder (signedChar : Bool) : Prop where
  total : ∀ (first second : Name) (x y : List Byte), ∃ result,
    ffdirscanFilenameCmpz signedChar (first.z ++ x) (second.z ++ y) = some result ∧
      (result = 0 ↔ first = second) ∧
      ffdirscanFilenameCmpz signedChar (second.z ++ y) (first.z ++ x) = some (-result)
  trans : ∀ (first second third : Name) (x y z : List Byte) (r s t : Int),
    ffdirscanFilenameCmpz signedChar (first.z ++ x) (second.z ++ y) = some r →
      ffdirscanFilenameCmpz signedChar (second.z ++ y) (third.z ++ z) = some s →
        ffdirscanFilenameCmpz signedChar (first.z ++ x) (third.z ++ z) = some t →
          r < 0 → s < 0 → t < 0

theorem Name.order_eq_zero_iff {first second : Name} : first.order second = 0 ↔ first = second :=
  sign_eq_zero_iff.trans Name.key_injective.eq_iff

theorem strictOrder (signedChar : Bool) : StrictOrder signedChar := by
  constructor
  · intro first second x y
    refine ⟨first.order second, ffdirscanFilenameCmpz_eq .., Name.order_eq_zero_iff, ?_⟩
    rw [ffdirscanFilenameCmpz_eq]
    exact congrArg some (sign_swap first.key second.key)
  · intro first second third x y z r s t rEq sEq tEq rNeg sNeg
    rw [ffdirscanFilenameCmpz_eq] at rEq sEq tEq
    obtain rfl := Option.some.inj rEq
    obtain rfl := Option.some.inj sEq
    obtain rfl := Option.some.inj tEq
    exact sign_neg_iff.mpr ((sign_neg_iff.mp rNeg).trans (sign_neg_iff.mp sNeg))

/-- The first name is before the second one. -/
def Before (signedChar : Bool) (first second : Name) : Prop :=
  ∃ result, ffdirscanFilenameCmpz signedChar first.z second.z = some result ∧ result < 0

theorem before_iff {signedChar : Bool} {first second : Name} :
    Before signedChar first second ↔ first.key < second.key := by
  have compared := ffdirscanFilenameCmpz_eq signedChar first second [] []
  rw [List.append_nil, List.append_nil] at compared
  simp [Before, compared, Name.order, sign_neg_iff]

/-! ### Packing -/

/-- The offsets of names that are packed from an offset on, as they are stored. -/
def offsetsFrom : Nat → List Name → List (BitVec 32)
  | _, [] => []
  | offset, name :: rest => .ofNat 32 offset :: offsetsFrom (offset + name.z.length) rest

theorem packNames_eq (keep : Name → Bool) (names : List Name) (offsets : List (BitVec 32))
    (buf : List Byte) :
    packNames keep names offsets buf =
      (offsets ++ offsetsFrom buf.length (names.filter keep),
        buf ++ (names.filter keep).flatMap Name.z) := by
  induction names generalizing offsets buf with
  | nil => simp [packNames, offsetsFrom]
  | cons name rest inductionHypothesis =>
      by_cases kept : keep name = true
      · simp [packNames, kept, inductionHypothesis, offsetsFrom, List.append_assoc]
      · simp [packNames, kept, inductionHypothesis]

/-- The name stands in the memory at the offset. -/
def Points (memory : List Byte) (offset : BitVec 32) (name : Name) : Prop :=
  ∃ rest, memory.drop offset.toNat = name.z ++ rest

theorem Points.append {memory : List Byte} {offset : BitVec 32} {name : Name}
    (points : Points memory offset name) (after : List Byte) :
    Points (memory ++ after) offset name := by
  obtain ⟨rest, found⟩ := points
  refine ⟨rest ++ after, ?_⟩
  have inside : offset.toNat ≤ memory.length := by
    by_contra outside
    have nothing : memory.drop offset.toNat = [] := List.drop_eq_nil_of_le (by omega)
    rw [nothing] at found
    have lengths := congrArg List.length found
    simp only [List.length_nil, List.length_append, Name.length_z] at lengths
    omega
  rw [List.drop_append_of_le_length inside, found, List.append_assoc]

/-- If the packed names end within 32 bits, every offset points to its name. -/
theorem points_offsetsFrom (before : List Byte) (names : List Name)
    (small : (before ++ names.flatMap Name.z).length ≤ 2 ^ 32) :
    List.Forall₂ (Points (before ++ names.flatMap Name.z))
      (offsetsFrom before.length names) names := by
  induction names generalizing before with
  | nil => exact .nil
  | cons name rest inductionHypothesis =>
      have layout : before ++ (name :: rest).flatMap Name.z =
          (before ++ name.z) ++ rest.flatMap Name.z := by simp
      have length : before.length < 2 ^ 32 := by
        simp only [List.flatMap_cons, List.length_append, Name.length_z] at small
        omega
      have exact : (BitVec.ofNat 32 before.length).toNat = before.length := by
        rw [BitVec.toNat_ofNat, Nat.mod_eq_of_lt length]
      refine .cons ⟨rest.flatMap Name.z, ?_⟩ ?_
      · rw [exact]
        simp
      · rw [layout, ← List.length_append]
        apply inductionHypothesis
        simpa using small

/-! ### Lists in relation -/

section Related

variable {α β : Type} {Related : α → β → Prop} {firsts : List α} {seconds : List β}

theorem exists_related (related : List.Forall₂ Related firsts seconds) {first : α}
    (member : first ∈ firsts) : ∃ second ∈ seconds, Related first second := by
  induction related with
  | nil => cases member
  | cons here _ inductionHypothesis =>
      rcases List.mem_cons.mp member with rfl | later
      · exact ⟨_, List.mem_cons_self, here⟩
      · obtain ⟨second, there, found⟩ := inductionHypothesis later
        exact ⟨second, List.mem_cons_of_mem _ there, found⟩

/-- A relation along one list goes over to the other. -/
theorem pairwise_of_related {R : α → α → Prop} {S : β → β → Prop}
    (related : List.Forall₂ Related firsts seconds)
    (transfer : ∀ {a a' b b'}, Related a b → Related a' b' → R a a' → S b b')
    (pairwise : firsts.Pairwise R) : seconds.Pairwise S := by
  induction related with
  | nil => exact .nil
  | cons here rest inductionHypothesis =>
      obtain ⟨all, tail⟩ := List.pairwise_cons.mp pairwise
      refine .cons ?_ (inductionHypothesis tail)
      intro second member
      obtain ⟨first, there, found⟩ := exists_related rest.flip member
      exact transfer here found (all first there)

end Related

/-! ### Comparing through offsets -/

theorem cmpname_of_points {signedChar : Bool} {buf : List Byte} {first second : BitVec 32}
    {firstName secondName : Name} (firstPoints : Points buf first firstName)
    (secondPoints : Points buf second secondName) :
    ffdirscanCmpname signedChar buf first second = some (firstName.order secondName) := by
  obtain ⟨x, firstDrop⟩ := firstPoints
  obtain ⟨y, secondDrop⟩ := secondPoints
  rw [ffdirscanCmpname, firstDrop, secondDrop, ffdirscanFilenameCmpz_eq]

/-- Offsets that point to names are totally ordered by the comparator. -/
theorem totalOn_of_points {signedChar : Bool} {buf : List Byte} {offsets : List (BitVec 32)}
    {names : List Name} (points : List.Forall₂ (Points buf) offsets names) :
    TotalOn (ffdirscanCmpname signedChar buf) offsets := by
  constructor
  · intro first firstMem second secondMem
    obtain ⟨_, _, firstPoints⟩ := exists_related points firstMem
    obtain ⟨_, _, secondPoints⟩ := exists_related points secondMem
    exact ⟨_, cmpname_of_points firstPoints secondPoints⟩
  · intro first firstMem second secondMem result compared
    obtain ⟨_, _, firstPoints⟩ := exists_related points firstMem
    obtain ⟨_, _, secondPoints⟩ := exists_related points secondMem
    rw [cmpname_of_points firstPoints secondPoints] at compared
    obtain rfl := Option.some.inj compared
    rw [cmpname_of_points secondPoints firstPoints]
    exact congrArg some (sign_swap _ _)
  · intro first firstMem second secondMem third thirdMem r s t rEq sEq tEq rLe sLe
    obtain ⟨_, _, firstPoints⟩ := exists_related points firstMem
    obtain ⟨_, _, secondPoints⟩ := exists_related points secondMem
    obtain ⟨_, _, thirdPoints⟩ := exists_related points thirdMem
    rw [cmpname_of_points firstPoints secondPoints] at rEq
    rw [cmpname_of_points secondPoints thirdPoints] at sEq
    rw [cmpname_of_points firstPoints thirdPoints] at tEq
    obtain rfl := Option.some.inj rEq
    obtain rfl := Option.some.inj sEq
    obtain rfl := Option.some.inj tEq
    exact sign_nonpos_iff.mpr ((sign_nonpos_iff.mp rLe).trans (sign_nonpos_iff.mp sLe))

/-! ### Iterating -/

theorem cString_z (name : Name) (rest : List Byte) :
    cString (name.z ++ rest) = some name.bytes := by
  obtain ⟨bytes, noNul⟩ := name
  unfold Name.z
  induction bytes with
  | nil => rfl
  | cons byte bytes inductionHypothesis =>
      obtain ⟨notNul, restNoNul⟩ := not_or.mp (mt List.mem_cons.mpr noNul)
      have tail := inductionHypothesis restNoNul
      rw [List.cons_append, List.cons_append, cString, if_neg (Ne.symm notNul), tail]
      rfl

/-- The object with the cursor at an offset of the table. -/
def scanAt (d : Ffdirscan) (memory : List Byte) (index offset length : Nat) : Ffdirscan :=
  { d with names := memory, index := index, len := offset + length, cur := offset }

/-- One step over a table of offsets. -/
theorem nextName_scanAt (d : Ffdirscan) (index : Nat) (before after tail : List Byte)
    (offset : BitVec 32) :
    let memory := before ++ (leBytes 4 offset.toNat ++ tail) ++ after
    nextName (scanAt d memory index before.length (leBytes 4 offset.toNat ++ tail).length) =
      (cString (memory.drop offset.toNat)).map fun name =>
        some (name, scanAt d memory index (before.length + (leBytes 4 offset.toNat).length)
          tail.length) := by
  have read := readLe_middle before (tail ++ after)
    (show offset.toNat < 256 ^ 4 from offset.isLt)
  have layout : before ++ leBytes 4 offset.toNat ++ (tail ++ after) =
      before ++ (leBytes 4 offset.toNat ++ tail) ++ after := by simp only [List.append_assoc]
  rw [layout] at read
  intro memory
  generalize here : scanAt d memory index before.length
    (leBytes 4 offset.toNat ++ tail).length = current
  have more : ¬ current.cur = current.len := by
    rw [← here]
    simp [scanAt]
  have readHere : readLe current.names current.cur 4 = some offset.toNat := by
    rw [← here]
    exact read
  have stepped : ffdirscanNext current = some (some (offset.toNat,
      scanAt d memory index (before.length + (leBytes 4 offset.toNat).length) tail.length)) := by
    rw [ffdirscanNext, if_neg more, readHere, ← here]
    simp [scanAt, Nat.add_assoc]
  have names : current.names = memory := by rw [← here]; rfl
  simp only [nextName, stepped, names]

/-- A scan over a table of offsets yields exactly the strings they point to. -/
theorem yields_scan_iff (d : Ffdirscan) (buf : List Byte) (offsets : List (BitVec 32))
    (items : List (List Byte)) :
    Yields nextName
        (scanAt d (buf ++ offsetTable offsets) buf.length buf.length (offsetTable offsets).length)
        items ↔
      List.Forall₂ (fun offset item =>
        cString ((buf ++ offsetTable offsets).drop offset.toNat) = some item) offsets items := by
  refine yields_iff_decoded nextName (fun offset : BitVec 32 => leBytes 4 offset.toNat)
    (fun offset => cString ((buf ++ offsetTable offsets).drop offset.toNat))
    (scanAt d (buf ++ offsetTable offsets) buf.length) ?_ ?_ offsets buf []
    (List.append_nil _).symm items
  · intro offset
    simp [nextName, ffdirscanNext, scanAt]
  · intro before after offset rest layout
    change buf ++ offsetTable offsets = _ at layout
    rw [layout]
    exact nextName_scanAt d buf.length before after _ offset

/-- The offsets in the order in which they are stored. -/
def arranged (host : Host) (flags : BitVec 32) (buf : List Byte) (offsets : List (BitVec 32)) :
    Option (List (BitVec 32)) :=
  if hasFlag flags nosort then some offsets
  else host.ffsort.sort (ffdirscanCmpname host.signedChar buf) offsets

/-- What a successful `ffdirscan_open` leaves. -/
theorem ffdirscanOpen_eq (host : Host) (d : Ffdirscan) (flags : BitVec 32) (names : List Name) :
    let kept := names.filter (keeps host d.wildcard flags)
    let buf := kept.flatMap Name.z
    ffdirscanOpen host ⟨true, names, false⟩ d flags =
      (arranged host flags buf (offsetsFrom 0 kept)).map fun offsets => (0,
        scanAt (if hasFlag flags useFd then { d with fd := -1 } else d)
          (buf ++ offsetTable offsets) buf.length buf.length (offsetTable offsets).length) := by
  intro kept buf
  have sameWildcard : (if hasFlag flags useFd then { d with fd := -1 } else d).wildcard =
      d.wildcard := by
    split <;> rfl
  have packed := packNames_eq (keeps host d.wildcard flags) names [] []
  simp only [List.nil_append, List.length_nil] at packed
  unfold ffdirscanOpen
  simp only [Bool.true_eq_false, if_false, sameWildcard, packed, Bool.false_eq_true]
  cases isArranged : arranged host flags buf (offsetsFrom 0 kept) with
  | none =>
      rw [arranged] at isArranged
      simp only [kept, buf] at isArranged
      simp only [isArranged, Option.map_none]
  | some offsets =>
      rw [arranged] at isArranged
      simp only [kept, buf] at isArranged
      simp only [isArranged, Option.map_some, scanAt, List.length_append, sameWildcard]
      rfl

theorem arranged_sorted {host : Host} {flags : BitVec 32} (sorting : hasFlag flags nosort = false)
    (buf : List Byte) (offsets : List (BitVec 32)) :
    arranged host flags buf offsets =
      host.ffsort.sort (ffdirscanCmpname host.signedChar buf) offsets := by
  rw [arranged, sorting]
  rfl

/-- A table of offsets that point to names yields these names. -/
theorem yields_of_points (d : Ffdirscan) {buf : List Byte} {offsets : List (BitVec 32)}
    {sequence : List Name} (points : List.Forall₂ (Points buf) offsets sequence) :
    Yields nextName
      (scanAt d (buf ++ offsetTable offsets) buf.length buf.length (offsetTable offsets).length)
      (sequence.map Name.bytes) := by
  rw [yields_scan_iff, List.forall₂_map_right_iff]
  refine points.imp ?_
  intro offset name found
  obtain ⟨rest, there⟩ := found.append (offsetTable offsets)
  rw [there, cString_z]

/-! ### A sorted scan -/

/-- With offsets in 32 bits, a sorted scan yields the names that are kept, each one
before the next. -/
theorem sorted_scan (host : Host) (d : Ffdirscan) {flags : BitVec 32} {names : List Name}
    (sorting : hasFlag flags nosort = false) (distinct : names.Nodup)
    (small : ((names.filter (keeps host d.wildcard flags)).flatMap Name.z).length ≤ 2 ^ 32) :
    ∃ (scanned : Ffdirscan) (sequence : List Name),
      ffdirscanOpen host ⟨true, names, false⟩ d flags = some (0, scanned) ∧
      Yields nextName scanned (sequence.map Name.bytes) ∧
      sequence.Perm (names.filter (keeps host d.wildcard flags)) ∧
      sequence.Pairwise (Before host.signedChar) := by
  have keptDistinct := distinct.filter (keeps host d.wildcard flags)
  generalize keptEq : names.filter (keeps host d.wildcard flags) = kept at small keptDistinct ⊢
  have points : List.Forall₂ (Points (kept.flatMap Name.z)) (offsetsFrom 0 kept) kept :=
    points_offsetsFrom [] kept small
  obtain ⟨offsets, sorted, perm, ordered⟩ :=
    host.ffsort.sorts (ffdirscanCmpname host.signedChar (kept.flatMap Name.z))
      (offsetsFrom 0 kept) (totalOn_of_points points)
  -- sorting moves the names along with their offsets
  obtain ⟨sequence, sortedPoints, sequencePerm⟩ := List.perm_comp_forall₂ perm points
  have opened := ffdirscanOpen_eq host d flags names
  simp only [keptEq, arranged_sorted sorting, sorted, Option.map_some] at opened
  refine ⟨_, sequence, opened, yields_of_points _ sortedPoints, sequencePerm, ?_⟩
  have upTo : sequence.Pairwise fun first second => first.key ≤ second.key := by
    refine pairwise_of_related sortedPoints ?_ ordered
    intro first second firstName secondName firstPoints secondPoints compared
    obtain ⟨result, compared, nonpos⟩ := compared
    rw [cmpname_of_points firstPoints secondPoints] at compared
    obtain rfl := Option.some.inj compared
    exact sign_nonpos_iff.mp nonpos
  have apart : sequence.Pairwise fun first second => first ≠ second :=
    sequencePerm.nodup_iff.mpr keptDistinct
  refine (upTo.and apart).imp ?_
  rintro first second ⟨le, different⟩
  exact before_iff.mpr (lt_of_le_of_ne le fun same => different (Name.key_injective same))

/-- Names in order are determined by their set. -/
theorem eq_of_perm_of_before {signedChar : Bool} {first second : List Name}
    (perm : first.Perm second) (firstOrdered : first.Pairwise (Before signedChar))
    (secondOrdered : second.Pairwise (Before signedChar)) : first = second := by
  refine perm.eq_of_pairwise ?_ firstOrdered secondOrdered
  intro a b _ _ ab ba
  exact absurd (before_iff.mp ba) (before_iff.mp ab).not_gt

/-- The comparison is a strict total order; and in whatever order `readdir` gives the
same distinct names, if the packed names that are kept take at most 2^32 bytes, a
sorted scan yields the same names, each one before the next. -/
theorem sorted_scan_by_set (host : Host) (d : Ffdirscan) {flags : BitVec 32}
    (sorting : hasFlag flags nosort = false) {first second : List Name}
    (same : first.Perm second) (distinct : first.Nodup)
    (small : ((first.filter (keeps host d.wildcard flags)).flatMap Name.z).length ≤ 2 ^ 32) :
    StrictOrder host.signedChar ∧
      ∃ (firstScan secondScan : Ffdirscan) (sequence : List Name),
        ffdirscanOpen host ⟨true, first, false⟩ d flags = some (0, firstScan) ∧
        ffdirscanOpen host ⟨true, second, false⟩ d flags = some (0, secondScan) ∧
        Yields nextName firstScan (sequence.map Name.bytes) ∧
        Yields nextName secondScan (sequence.map Name.bytes) ∧
        sequence.Pairwise (Before host.signedChar) := by
  refine ⟨strictOrder host.signedChar, ?_⟩
  have keptPerm := same.filter (keeps host d.wildcard flags)
  have secondSmall :
      ((second.filter (keeps host d.wildcard flags)).flatMap Name.z).length ≤ 2 ^ 32 := by
    rw [← (keptPerm.flatMap_right Name.z).length_eq]
    exact small
  obtain ⟨firstScan, sequence, firstOpened, firstYields, firstPerm, firstOrdered⟩ :=
    sorted_scan host d sorting distinct small
  obtain ⟨secondScan, other, secondOpened, secondYields, secondPerm, secondOrdered⟩ :=
    sorted_scan host d sorting (same.nodup_iff.mp distinct) secondSmall
  obtain rfl := eq_of_perm_of_before
    (firstPerm.trans (keptPerm.trans secondPerm.symm)) firstOrdered secondOrdered
  exact ⟨firstScan, secondScan, sequence, firstOpened, secondOpened, firstYields, secondYields,
    firstOrdered⟩

/-- A machine with signed `char`, where every name matches. -/
def plainHost : Host := { signedChar := true, wildcardMatches := fun _ _ => true, ffsort := .merge }

def emptyScan : Ffdirscan :=
  { names := [], len := 0, index := 0, cur := 0, wildcard := [], fd := 0 }

/-- "b", "B" and "." read in two orders. -/
theorem sorted_scan_by_set_letters :
    ∃ (firstScan secondScan : Ffdirscan) (sequence : List Name),
      ffdirscanOpen plainHost ⟨true, [⟨[66], by decide⟩, ⟨[46], by decide⟩, ⟨[98], by decide⟩],
        false⟩ emptyScan 0 = some (0, firstScan) ∧
      ffdirscanOpen plainHost ⟨true, [⟨[98], by decide⟩, ⟨[66], by decide⟩, ⟨[46], by decide⟩],
        false⟩ emptyScan 0 = some (0, secondScan) ∧
      Yields nextName firstScan (sequence.map Name.bytes) ∧
      Yields nextName secondScan (sequence.map Name.bytes) ∧
      sequence.Pairwise (Before true) :=
  (sorted_scan_by_set plainHost emptyScan (by decide) (by decide) (by decide) (by decide)).2

/-! ### Names past 2^32 bytes -/

theorem offsetsFrom_append (offset : Nat) (first second : List Name) :
    offsetsFrom offset (first ++ second) =
      offsetsFrom offset first ++ offsetsFrom (offset + (first.flatMap Name.z).length) second := by
  induction first generalizing offset with
  | nil => simp [offsetsFrom]
  | cons name rest inductionHypothesis =>
      simp [offsetsFrom, inductionHypothesis, Nat.add_assoc]

/-- A name of 127 letters that spells a number in bits. -/
def bitName (number : Nat) : Name where
  bytes := (List.range 127).map fun bit => if number.testBit bit then 98 else 97
  noNul := by
    intro member
    obtain ⟨bit, _, isNul⟩ := List.mem_map.mp member
    split at isNul <;> simp at isNul

theorem bitName_injective {first second : Nat} (firstSmall : first < 2 ^ 127)
    (secondSmall : second < 2 ^ 127) (same : bitName first = bitName second) : first = second := by
  apply Nat.eq_of_testBit_eq
  intro bit
  by_cases low : bit < 127
  · have letters := congrArg Name.bytes same
    simp only [bitName, List.map_inj_left, List.mem_range] at letters
    have letter := letters bit low
    cases firstBit : first.testBit bit <;> cases secondBit : second.testBit bit <;>
      simp [firstBit, secondBit] at letter ⊢
  · have high : 2 ^ 127 ≤ 2 ^ bit := Nat.pow_le_pow_right (by decide) (by omega)
    rw [Nat.testBit_lt_two_pow (by omega), Nat.testBit_lt_two_pow (by omega)]

/-- The names of the numbers below a bound. -/
def longNames (count : Nat) : List Name := (List.range count).map bitName

theorem longNames_succ (count : Nat) : longNames (count + 1) = longNames count ++ [bitName count] := by
  simp [longNames, List.range_succ]

theorem longNames_length (count : Nat) :
    ((longNames count).flatMap Name.z).length = 128 * count := by
  induction count with
  | zero => rfl
  | succ count inductionHypothesis =>
      rw [longNames_succ, List.flatMap_append, List.length_append, inductionHypothesis]
      simp [bitName]
      omega

theorem longNames_nodup {count : Nat} (small : count ≤ 2 ^ 127) : (longNames count).Nodup := by
  refine List.Nodup.map_on ?_ List.nodup_range
  intro first firstMem second secondMem same
  rw [List.mem_range] at firstMem secondMem
  exact bitName_injective (by omega) (by omega) same

theorem dot_mem_of_isDots {bytes : List Byte} (dots : isDots bytes = true) : 46 ∈ bytes := by
  unfold isDots at dots
  split at dots
  · exact List.mem_cons_self
  · exact List.mem_cons_self
  · cases dots

/-- No long name is "." or "..". -/
theorem longNames_kept (count : Nat) :
    (longNames count).filter (keeps plainHost emptyScan.wildcard 0) = longNames count := by
  rw [List.filter_eq_self]
  intro name member
  obtain ⟨number, _, rfl⟩ := List.mem_map.mp member
  have noDot : isDots (bitName number).z = false := by
    rw [Bool.eq_false_iff]
    intro dots
    have dot := dot_mem_of_isDots dots
    simp only [Name.z, bitName, List.mem_append, List.mem_map, List.mem_singleton] at dot
    rcases dot with ⟨bit, _, isDot⟩ | isDot
    · split at isDot <;> simp at isDot
    · simp at isDot
  simp [keeps, noDot, hasFlag]

/-- The name after the first 2^25 long names has the offset of the first one. -/
theorem offsets_not_nodup : ¬ (offsetsFrom 0 (longNames (2 ^ 25 + 1))).Nodup := by
  intro nodup
  rw [longNames_succ, offsetsFrom_append, longNames_length] at nodup
  have first : ∀ count, 0 < count → (0 : BitVec 32) ∈ offsetsFrom 0 (longNames count) := by
    intro count positive
    obtain ⟨count, rfl⟩ := Nat.exists_eq_succ_of_ne_zero (by omega : count ≠ 0)
    simp [longNames, List.range_succ_eq_map, offsetsFrom]
  have last : (0 : BitVec 32) ∈ offsetsFrom (0 + 128 * 2 ^ 25) [bitName (2 ^ 25)] := by
    simp [offsetsFrom]
  exact (List.nodup_append.mp nodup).2.2 0 (first _ (by decide)) 0 last rfl

/-- If two names have one offset, what the scan yields is not in strict order. -/
theorem not_ordered_of_repeated {names : List Name}
    (kept : names.filter (keeps plainHost emptyScan.wildcard 0) = names)
    (repeated : ¬ (offsetsFrom 0 names).Nodup) :
    ∃ scanned, ffdirscanOpen plainHost ⟨true, names, false⟩ emptyScan 0 = some (0, scanned) ∧
      ∀ sequence : List Name, Yields nextName scanned (sequence.map Name.bytes) →
        ¬ sequence.Pairwise (Before true) := by
  have opened := ffdirscanOpen_eq plainHost emptyScan 0 names
  simp only [kept] at opened
  refine ⟨_, opened, ?_⟩
  intro sequence yields ordered
  rw [yields_scan_iff, List.forall₂_map_right_iff] at yields
  have apart : (mergeSorted (ffdirscanCmpname true (names.flatMap Name.z))
      (offsetsFrom 0 names)).Pairwise (· ≠ ·) := by
    refine pairwise_of_related yields.flip ?_ ordered
    rintro first second offset other firstFound secondFound before rfl
    have same : first.bytes = second.bytes := Option.some.inj (firstFound.symm.trans secondFound)
    rw [Name.ext same] at before
    exact absurd (before_iff.mp before) (lt_irrefl _)
  exact repeated ((mergeSorted_perm _ _).nodup_iff.mp apart)

/-- 2^25 + 1 names of 127 bytes take more than 2^32 bytes with their terminators. The
offset of the last one wraps to 0, so what the scan yields is not in strict order. -/
theorem offset_wrap_breaks_order :
    (longNames (2 ^ 25 + 1)).Nodup ∧
      ∃ scanned, ffdirscanOpen plainHost ⟨true, longNames (2 ^ 25 + 1), false⟩ emptyScan 0 =
        some (0, scanned) ∧
      ∀ sequence : List Name, Yields nextName scanned (sequence.map Name.bytes) →
        ¬ sequence.Pairwise (Before true) :=
  ⟨longNames_nodup (by decide), not_ordered_of_repeated (longNames_kept _) offsets_not_nodup⟩

end Ffos.DirScan
