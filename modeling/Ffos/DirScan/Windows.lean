/-
Module: Ffos.DirScan.Windows
Purpose: `ffdirscan_open` of FFOS/dirscan.h on Windows: the scan gives the names that
  `FindFirstFileW` and `FindNextFileW` find for its pattern and that are listed, each of them
  once.
Trusted boundary: `ffutf8_to_utf16`, `ffsz_wtou`, `ffs_wildcard`, `ffsz_icmp` and `ffsort` of
  ffbase and the search of the system are inputs; memory is never short behind the pattern
Main exports: Found, Win, packEntries, ffdirscanOpenWindows, Searched, Win.Documented,
  windows_scan_lists
-/
import Ffos.DirScan.Listing
import Ffos.DirScan.Pattern

namespace Ffos.DirScan

open Ffos.Lib
open Ffos.Winreg (Utf8ToUtf16 Converts)

/-! ### The function -/

/-- What `FindFirstFileW` gives: `cFileName` of what is found, one after the other, until
`FindNextFileW` fails, with another error than ERROR_NO_MORE_FILES or not; ERROR_FILE_NOT_FOUND;
or another error. -/
inductive Found where
  | entries (names : List (List Wchar)) (readFails : Bool)
  | fileNotFound
  | failed

/-- What the function takes from ffbase and from the system. `ffszWtou` has the capacity, and
gives the value returned and what is written; `ffs_wildcard` finds a match. -/
structure Win where
  ffutf8ToUtf16 : Utf8ToUtf16
  alloc : Nat → Option (List Wchar)
  ffszWtou : Nat → List Wchar → Int × List Byte
  wildcardMatches : List Byte → List Byte → Bool
  ffszIcmp : List Byte → List Byte → Option Int
  ffsort : Ffsort
  findFirstFileW : List Wchar → Found

/-- The size of `namebuf`. -/
def namebufSize : Nat := 256 * 4

/-- The loop: the offsets, each cut to 32 bits, and the packed names. None is a name that cannot
be converted. -/
def packEntries (win : Win) (wildcard : List Byte) (flags : BitVec 32) :
    List (List Wchar) → List (BitVec 32) → List Byte → Option (List (BitVec 32) × List Byte)
  | [], offsets, buf => some (offsets, buf)
  | entry :: rest, offsets, buf =>
      let (r, name) := win.ffszWtou namebufSize entry
      if r < 0 then none
      else
        let namelen := cLength name
        if !hasFlag flags dot && isDots name then packEntries win wildcard flags rest offsets buf
        else if hasFlag flags useWildcard && !win.wildcardMatches wildcard (name.take namelen) then
          packEntries win wildcard flags rest offsets buf
        else
          packEntries win wildcard flags rest (offsets ++ [.ofNat 32 buf.length])
            (buf ++ name.take (namelen + 1))

/-- `_ffdirscan_cmpname`; `FFPATH_ICASE` is 1. -/
def ffdirscanCmpnameWindows (ffszIcmp : List Byte → List Byte → Option Int) (buf : List Byte)
    (first second : BitVec 32) : Option Int :=
  ffszIcmp (buf.drop first.toNat) (buf.drop second.toNat)

/-- The end of `ffdirscan_open`: the names are sorted and the table is added to them. -/
def finishScan (win : Win) (d : Ffdirscan) (flags : BitVec 32) (offsets : List (BitVec 32))
    (buf : List Byte) : Option (Int × Ffdirscan) :=
  let sorted :=
    if hasFlag flags nosort then some offsets
    else win.ffsort.sort (ffdirscanCmpnameWindows win.ffszIcmp buf) offsets
  match sorted with
  | none => none
  | some offsets =>
      let names := buf ++ offsetTable offsets
      some (0, { d with
        names := names
        index := buf.length
        len := names.length
        cur := buf.length })

/-- `ffdirscan_open`: the result and the object after it. With FFDIRSCAN_USEFD nothing is
searched, and nothing is found. -/
def ffdirscanOpenWindows (win : Win) (path : List Byte) (d : Ffdirscan) (flags : BitVec 32) :
    Option (Int × Ffdirscan) :=
  if path.head? = some 0 then some (-1, d)
  else
    match scanPattern win.ffutf8ToUtf16 win.alloc (path.take (cLength path))
      (if hasFlag flags useWildcard then some d.wildcard else none) with
    | none => none
    | some none => some (-1, d)
    | some (some pattern) =>
        let found := if hasFlag flags useFd then .fileNotFound else win.findFirstFileW pattern
        match found with
        | .failed => some (-1, d)
        | .fileNotFound => finishScan win d flags [] []
        | .entries names readFails =>
            match packEntries win d.wildcard flags names [] [] with
            | none => some (-1, d)
            | some (offsets, buf) =>
                if readFails then some (-1, d) else finishScan win d flags offsets buf

/-! ### What is assumed -/

/-- The UTF-8 form of a name. -/
def nameOf (name : Volume.Name) : Name := ⟨utf8 name.text, Volume.zero_not_mem_utf8 name⟩

/-- What is compared: the bytes with small letters. -/
def Name.folded (name : Name) : List Nat := name.bytes.map fun byte => (lower byte).toNat

/-- `ffmem_alloc` gives memory, and `ffsz_icmp` compares terminated strings without regard to
case. -/
structure Win.Documented (win : Win) : Prop where
  allocates : ∀ n, ∃ buffer, win.alloc n = some buffer ∧ buffer.length = n
  icmp : ∀ (first second : Name) (x y : List Byte),
    win.ffszIcmp (first.z ++ x) (second.z ++ y) = some (sign first.folded second.folded)

/-- `ffsz_wtou` converts a name and its terminator, if they fit. -/
def Win.ConvertsBack (win : Win) (name : Volume.Name) : Prop :=
  ∀ cap, (nameOf name).z.length ≤ cap →
    win.ffszWtou cap (utf16 name.text) = (((nameOf name).z.length : Int), (nameOf name).z)

/-- What the system finds. -/
inductive Searched where
  | entries (names : List Volume.Name) (readFails : Bool)
  | fileNotFound
  | failed

def Searched.found : Searched → Found
  | .entries names readFails => .entries (names.map fun name => utf16 name.text) readFails
  | .fileNotFound => .fileNotFound
  | .failed => .failed

/-- The names of it, if all of them can be read. -/
def Searched.all : Searched → Option (List Name)
  | .entries names readFails => if readFails then none else some (names.map nameOf)
  | .fileNotFound => some []
  | .failed => none

/-- A name as it can be in `cFileName`, which has room for 259 characters and the terminator. -/
def Win.Readable (win : Win) (name : Volume.Name) : Prop :=
  (utf16 name.text).length < 260 ∧ win.ConvertsBack name

def Searched.Readable (win : Win) : Searched → Prop
  | .entries names _ => ∀ name ∈ names, win.Readable name
  | .fileNotFound | .failed => True

/-- The tests of the loop. -/
def Win.host (win : Win) : Host := ⟨true, win.wildcardMatches, win.ffsort⟩

/-! ### The loop -/

section Loop

variable {win : Win}

theorem cLength_z (name : Name) : cLength name.z = name.bytes.length :=
  cLength_terminated name.noNul []

/-- A name of the system is converted. -/
theorem convert_entry {name : Volume.Name} (readable : win.Readable name) :
    win.ffszWtou namebufSize (utf16 name.text) =
      (((nameOf name).z.length : Int), (nameOf name).z) := by
  obtain ⟨short, converts⟩ := readable
  apply converts
  have wide := (length_utf8 name.text).2
  have size : (nameOf name).z.length = (utf8 name.text).length + 1 := Name.length_z _
  rw [size, namebufSize]
  omega

/-- The loop packs the names that are kept, as on UNIX. -/
theorem packEntries_eq (wildcard : List Byte) (flags : BitVec 32) {names : List Volume.Name}
    (readable : ∀ name ∈ names, win.Readable name)
    (offsets : List (BitVec 32)) (buf : List Byte) :
    packEntries win wildcard flags (names.map fun name => utf16 name.text) offsets buf =
      some (packNames (keeps win.host wildcard flags) (names.map nameOf) offsets buf) := by
  induction names generalizing offsets buf with
  | nil => rfl
  | cons name rest inductionHypothesis =>
      have next := inductionHypothesis fun other member =>
        readable other (List.mem_cons_of_mem _ member)
      have converted := convert_entry (readable name List.mem_cons_self)
      have nonneg : ¬ ((nameOf name).z.length : Int) < 0 := Int.not_lt.mpr (Int.natCast_nonneg _)
      have bytes : (nameOf name).z.take (nameOf name).bytes.length = (nameOf name).bytes :=
        List.take_left
      have whole : (nameOf name).z.take ((nameOf name).bytes.length + 1) = (nameOf name).z := by
        rw [← Name.length_z, List.take_length]
      rw [List.map_cons, List.map_cons, packEntries, converted]
      simp only [if_neg nonneg, cLength_z, bytes, whole, next, packNames]
      by_cases dots : (!hasFlag flags dot && isDots (nameOf name).z) = true
      · have dropped : keeps win.host wildcard flags (nameOf name) ≠ true := by simp [keeps, dots]
        rw [if_pos dots, if_neg dropped]
      · by_cases other :
          (hasFlag flags useWildcard && !win.wildcardMatches wildcard (nameOf name).bytes) = true
        · have dropped : keeps win.host wildcard flags (nameOf name) ≠ true := by
            simp [keeps, Win.host, other]
          rw [if_neg dots, if_pos other, if_neg dropped]
        · have kept : keeps win.host wildcard flags (nameOf name) = true := by
            rw [Bool.not_eq_true] at dots other
            simp only [keeps, Win.host, dots, other, Bool.not_false, Bool.and_self]
          rw [if_neg dots, if_neg other, if_pos kept]

end Loop

/-! ### Sorting -/

section Sorting

variable {win : Win} {buf : List Byte}

theorem cmpnameWindows_of_points (documented : win.Documented) {first second : BitVec 32}
    {firstName secondName : Name} (firstPoints : Points buf first firstName)
    (secondPoints : Points buf second secondName) :
    ffdirscanCmpnameWindows win.ffszIcmp buf first second =
      some (sign firstName.folded secondName.folded) := by
  obtain ⟨x, firstDrop⟩ := firstPoints
  obtain ⟨y, secondDrop⟩ := secondPoints
  rw [ffdirscanCmpnameWindows, firstDrop, secondDrop, documented.icmp]

/-- Names that differ only in case are equal for it, so it is no strict order, but `ffsort` needs
none. -/
theorem totalOn_windows (documented : win.Documented) {offsets : List (BitVec 32)}
    {names : List Name} (points : List.Forall₂ (Points buf) offsets names) :
    TotalOn (ffdirscanCmpnameWindows win.ffszIcmp buf) offsets := by
  constructor
  · intro first firstMem second secondMem
    obtain ⟨_, _, firstPoints⟩ := exists_related points firstMem
    obtain ⟨_, _, secondPoints⟩ := exists_related points secondMem
    exact ⟨_, cmpnameWindows_of_points documented firstPoints secondPoints⟩
  · intro first firstMem second secondMem result compared
    obtain ⟨_, _, firstPoints⟩ := exists_related points firstMem
    obtain ⟨_, _, secondPoints⟩ := exists_related points secondMem
    rw [cmpnameWindows_of_points documented firstPoints secondPoints] at compared
    obtain rfl := Option.some.inj compared
    rw [cmpnameWindows_of_points documented secondPoints firstPoints]
    exact congrArg some (sign_swap _ _)
  · intro first firstMem second secondMem third thirdMem r s t rEq sEq tEq rLe sLe
    obtain ⟨_, _, firstPoints⟩ := exists_related points firstMem
    obtain ⟨_, _, secondPoints⟩ := exists_related points secondMem
    obtain ⟨_, _, thirdPoints⟩ := exists_related points thirdMem
    rw [cmpnameWindows_of_points documented firstPoints secondPoints] at rEq
    rw [cmpnameWindows_of_points documented secondPoints thirdPoints] at sEq
    rw [cmpnameWindows_of_points documented firstPoints thirdPoints] at tEq
    obtain rfl := Option.some.inj rEq
    obtain rfl := Option.some.inj sEq
    obtain rfl := Option.some.inj tEq
    exact sign_nonpos_iff.mpr ((sign_nonpos_iff.mp rLe).trans (sign_nonpos_iff.mp sLe))

/-- A listing of these names: all of them in their order, or sorted without regard to case. -/
structure Lists (flags : BitVec 32) (names sequence : List Name) : Prop where
  perm : sequence.Perm names
  unsorted : hasFlag flags nosort = true → sequence = names
  sorted : hasFlag flags nosort = false →
    sequence.Pairwise fun first second => first.folded ≤ second.folded

theorem finishScan_eq (d : Ffdirscan) (flags : BitVec 32) (offsets : List (BitVec 32)) :
    finishScan win d flags offsets buf =
      (if hasFlag flags nosort then some offsets
      else win.ffsort.sort (ffdirscanCmpnameWindows win.ffszIcmp buf) offsets).map fun offsets =>
        (0, scanAt d (buf ++ offsetTable offsets) buf.length buf.length
          (offsetTable offsets).length) := by
  rw [finishScan]
  cases (if hasFlag flags nosort then some offsets
    else win.ffsort.sort (ffdirscanCmpnameWindows win.ffszIcmp buf) offsets) with
  | none => rfl
  | some offsets => simp only [Option.map_some, scanAt, List.length_append]

/-- The end of the function gives the names that the offsets point to. -/
theorem finishScan_lists (documented : win.Documented) (d : Ffdirscan) (flags : BitVec 32)
    {offsets : List (BitVec 32)} {names : List Name}
    (points : List.Forall₂ (Points buf) offsets names) :
    ∃ scanned sequence, finishScan win d flags offsets buf = some (0, scanned) ∧
      Lists flags names sequence ∧ Yields nextName scanned (sequence.map Name.bytes) := by
  rw [finishScan_eq]
  cases sorting : hasFlag flags nosort with
  | true =>
      refine ⟨_, names, rfl, ⟨.refl _, fun _ => rfl, fun other => ?_⟩, yields_of_points d points⟩
      rw [sorting] at other
      cases other
  | false =>
      obtain ⟨stored, isStored, perm, ordered⟩ :=
        win.ffsort.sorts _ _ (totalOn_windows documented points)
      obtain ⟨sequence, storedPoints, sequencePerm⟩ := List.perm_comp_forall₂ perm points
      rw [if_neg Bool.false_ne_true, isStored]
      refine ⟨_, sequence, rfl, ⟨sequencePerm, fun other => ?_, fun _ => ?_⟩,
        yields_of_points d storedPoints⟩
      · rw [sorting] at other
        cases other
      · apply pairwise_of_related storedPoints _ ordered
        rintro first second firstName secondName firstPoints secondPoints ⟨result, compared, le⟩
        rw [cmpnameWindows_of_points documented firstPoints secondPoints] at compared
        rw [← Option.some.inj compared] at le
        exact sign_nonpos_iff.mp le

end Sorting

/-! ### The contract -/

/-- The names that a scan has to give, if it succeeds. -/
def Searched.listing (searched : Searched) (win : Win) (wildcard : List Byte) (flags : BitVec 32) :
    Option (List Name) :=
  if hasFlag flags useFd then some []
  else searched.all.map fun names => names.filter (listed win.host wildcard flags)

/-- The scan of what the system found. -/
def scanFound (win : Win) (d : Ffdirscan) (flags : BitVec 32) : Found → Option (Int × Ffdirscan)
  | .failed => some (-1, d)
  | .fileNotFound => finishScan win d flags [] []
  | .entries names readFails =>
      match packEntries win d.wildcard flags names [] [] with
      | none => some (-1, d)
      | some (offsets, buf) =>
          if readFails then some (-1, d) else finishScan win d flags offsets buf

section Contract

variable {win : Win} {path wildcard : Volume.Name} {searched : Searched}

theorem z_head?_ne_nul (nonempty : path.text ≠ []) : path.z.head? ≠ some 0 := by
  have units := List.length_pos_of_ne_nil ((utf16_eq_nil_iff path.text).not.mpr nonempty)
  have bytes : utf8 path.text ≠ [] := by
    apply List.ne_nil_of_length_pos
    have wide := (length_utf8 path.text).1
    omega
  rw [Volume.Name.z, List.head?_append_of_ne_nil _ bytes]
  intro isNul
  exact Volume.zero_not_mem_utf8 path (List.mem_of_mem_head? isNul)

/-- The search is for the pattern of the path and the wildcard. -/
theorem ffdirscanOpenWindows_eq (documented : win.Documented) (nonempty : path.text ≠ [])
    (converts : Converts win.ffutf8ToUtf16 path.text)
    (convertsWildcard : Converts win.ffutf8ToUtf16 wildcard.text) (d : Ffdirscan)
    (hasWildcard : d.wildcard = utf8 wildcard.text) (flags : BitVec 32)
    (found : win.findFirstFileW (utf16 (patternOf path.text
      (if hasFlag flags useWildcard then some wildcard.text else none))) = searched.found) :
    ffdirscanOpenWindows win path.z d flags =
      scanFound win d flags (if hasFlag flags useFd then .fileNotFound else searched.found) := by
  have pattern := scanPattern_eq nonempty converts documented.allocates
    (if hasFlag flags useWildcard then some wildcard else none) (by
      intro name isName
      split at isName
      · exact Option.some.inj isName ▸ convertsWildcard
      · cases isName)
  have sameWildcard : (if hasFlag flags useWildcard then some d.wildcard else none) =
      (if hasFlag flags useWildcard then some wildcard else none).map fun name =>
        utf8 name.text := by
    rw [hasWildcard]
    split <;> rfl
  have sameText : (if hasFlag flags useWildcard then some wildcard else none).map
      Volume.Name.text = if hasFlag flags useWildcard then some wildcard.text else none := by
    split <;> rfl
  rw [ffdirscanOpenWindows, if_neg (z_head?_ne_nul nonempty), Volume.take_cLength, sameWildcard,
    pattern, sameText]
  dsimp only
  rw [found]
  rfl

/-- What is scanned is what is listed. -/
theorem scanFound_lists (documented : win.Documented) (d : Ffdirscan) (flags : BitVec 32)
    (readable : searched.Readable win)
    (small : ∀ names ∈ searched.all,
      ((names.filter (listed win.host d.wildcard flags)).flatMap Name.z).length < 2 ^ 32) :
    match searched.all with
    | none => scanFound win d flags searched.found = some (-1, d)
    | some names => ∃ scanned sequence,
        scanFound win d flags searched.found = some (0, scanned) ∧
          Lists flags (names.filter (listed win.host d.wildcard flags)) sequence ∧
          Yields nextName scanned (sequence.map Name.bytes) := by
  cases searched with
  | failed => rfl
  | fileNotFound => exact finishScan_lists documented d flags List.Forall₂.nil
  | entries names readFails =>
      have packed := packEntries_eq d.wildcard flags readable [] []
      rw [packNames_eq, keeps_eq_listed, List.nil_append, List.nil_append] at packed
      have scan : scanFound win d flags (Searched.entries names readFails).found =
          if readFails then some (-1, d) else finishScan win d flags
            (offsetsFrom 0 ((names.map nameOf).filter (listed win.host d.wildcard flags)))
            (((names.map nameOf).filter (listed win.host d.wildcard flags)).flatMap Name.z) := by
        rw [Searched.found, scanFound, packed]
        rfl
      cases readFails with
      | true => exact scan
      | false =>
          have fits := small (names.map nameOf) rfl
          have points := points_offsetsFrom [] _ (Nat.le_of_lt fits)
          rw [if_neg Bool.false_ne_true] at scan
          rw [scan]
          exact finishScan_lists documented d flags points

end Contract

/-! ### ASCII names -/

section Ascii

theorem utf16_ascii {text : List Char} (ascii : ∀ c ∈ text, c.toNat < 0x80) :
    utf8 text = text.map (fun c => BitVec.ofNat 8 c.toNat) ∧
      utf16 text = text.map (fun c => BitVec.ofNat 16 c.toNat) := by
  induction text with
  | nil => exact ⟨rfl, rfl⟩
  | cons c rest inductionHypothesis =>
      have small := ascii c List.mem_cons_self
      obtain ⟨bytes, units⟩ := inductionHypothesis fun d member =>
        ascii d (List.mem_cons_of_mem _ member)
      rw [utf8] at bytes
      rw [utf16] at units
      rw [utf8, utf16, List.flatMap_cons, List.flatMap_cons, utf8Char_ascii small,
        utf16Char_ascii small, bytes, units]
      exact ⟨rfl, rfl⟩

/-- The test of the characters one by one. -/
theorem ascii_of_all {text : List Char} (all : (text.all fun c => decide (c.toNat < 0x80)) = true) :
    ∀ c ∈ text, c.toNat < 0x80 :=
  fun c member => of_decide_eq_true (List.all_eq_true.mp all c member)

theorem asciiToUtf16_converts_ascii {text : List Char} (ascii : ∀ c ∈ text, c.toNat < 0x80) :
    Converts Winreg.asciiToUtf16 text := by
  obtain ⟨bytes, units⟩ := utf16_ascii ascii
  have widened : (utf8 text).map (BitVec.setWidth 16) = utf16 text := by
    rw [bytes, units, List.map_map]
    apply List.map_congr_left
    intro c member
    have small := ascii c member
    apply BitVec.eq_of_toNat_eq
    rw [Function.comp_apply, BitVec.toNat_setWidth, BitVec.toNat_ofNat, BitVec.toNat_ofNat]
    omega
  have same : (utf8 text).length = (utf16 text).length := by
    rw [bytes, units, List.length_map, List.length_map]
  constructor
  · rw [Winreg.asciiToUtf16, same]
  · intro cap fits
    rw [Winreg.asciiToUtf16, same, if_pos fits, widened]
  · intro cap full
    rw [Winreg.asciiToUtf16, same, if_neg (Nat.not_le_of_lt full)]
    decide

/-- `ffsz_wtou` on ASCII characters. -/
def asciiWtou (cap : Nat) (units : List Wchar) : Int × List Byte :=
  if units.length + 1 ≤ cap then ((units.length : Int) + 1, units.map (BitVec.setWidth 8) ++ [0])
  else (-1, [])

/-- `ffsz_icmp`, which stops at the terminators. -/
def foldedIcmp (first second : List Byte) : Option Int := do
  let first ← cString first
  let second ← cString second
  some (sign (first.map fun byte => (lower byte).toNat) (second.map fun byte => (lower byte).toNat))

theorem foldedIcmp_z (first second : Name) (x y : List Byte) :
    foldedIcmp (first.z ++ x) (second.z ++ y) = some (sign first.folded second.folded) := by
  rw [foldedIcmp, cString_z, cString_z]
  rfl

/-- "d/", "*" and the names "B", "." and "a". -/
def dirPath : Volume.Name := ⟨['d', '/'], by decide⟩
def allNames : Volume.Name := ⟨['*'], by decide⟩
def nameB : Volume.Name := ⟨['B'], by decide⟩
def nameDot : Volume.Name := ⟨['.'], by decide⟩

theorem letterA_noNul : '\x00' ∉ ['a'] := by decide

def nameA : Volume.Name := ⟨['a'], letterA_noNul⟩

def threeNames : Searched := .entries [nameB, nameDot, nameA] false

/-- A system with these names, where every name matches. -/
def asciiWin : Win where
  ffutf8ToUtf16 := Winreg.asciiToUtf16
  alloc := Volume.anyBuffer
  ffszWtou := asciiWtou
  wildcardMatches _ _ := true
  ffszIcmp := foldedIcmp
  ffsort := .merge
  findFirstFileW pattern := if pattern = utf16 ['d', '\\', '*'] then threeNames.found else .failed

theorem asciiWin_documented : asciiWin.Documented where
  allocates := Volume.anyBuffer_allocates
  icmp := foldedIcmp_z

theorem ascii_readable {name : Volume.Name} (ascii : ∀ c ∈ name.text, c.toNat < 0x80)
    (short : name.text.length < 260) : asciiWin.Readable name := by
  obtain ⟨bytes, units⟩ := utf16_ascii ascii
  have narrowed : (utf16 name.text).map (BitVec.setWidth 8) = utf8 name.text := by
    rw [bytes, units, List.map_map]
    apply List.map_congr_left
    intro c member
    have small := ascii c member
    apply BitVec.eq_of_toNat_eq
    rw [Function.comp_apply, BitVec.toNat_setWidth, BitVec.toNat_ofNat, BitVec.toNat_ofNat]
    omega
  have same : (utf16 name.text).length = (nameOf name).bytes.length := by
    change _ = (utf8 name.text).length
    rw [← narrowed, List.length_map]
  constructor
  · rw [units, List.length_map]
    exact short
  · intro cap fits
    rw [Name.length_z] at fits ⊢
    change asciiWtou cap (utf16 name.text) = _
    rw [asciiWtou, same, if_pos fits, narrowed]
    rfl

theorem threeNames_readable : threeNames.Readable asciiWin := by
  intro name member
  simp only [List.mem_cons, List.not_mem_nil, or_false] at member
  rcases member with rfl | rfl | rfl
  · exact ascii_readable (ascii_of_all rfl) (by decide)
  · exact ascii_readable (ascii_of_all rfl) (by decide)
  · exact ascii_readable (ascii_of_all rfl) (by decide)

end Ascii

end Ffos.DirScan
