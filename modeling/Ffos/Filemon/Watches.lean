/-
Module: Ffos.Filemon.Watches
Purpose: FFOS/filemon.h on Windows: the watch list with its additions, and `fffilemon_next` with
  `_fffilemon_next1` over what ReadDirectoryChangesW has written.
Trusted boundary: `ffs_wtou`, `ffstr_grow` and `ffs_rfindany` of ffbase, ffmem_alloc and the system
  calls are inputs; a 64-bit machine; fewer than 2^31 watches
Main exports: Watch, AddOutcome, fffilemonAddDir, fffilemonAddFile, fffilemonNext1, fffilemonNext,
  Reports, Notification, chain, chain_reported
-/
import Ffos.Path.Split
import Ffos.Winreg.Read
import Mathlib.Data.List.Induction

namespace Ffos.Filemon.Windows

open Ffos.Lib
open Ffos.Winreg (unitsOf unitBytes toInt32 unitsOf_unitBytes length_unitBytes)

/-! ### The watch list -/

/-- `struct _fffilemon_watch`. `d` is the handle of the directory. -/
structure Watch where
  d : Nat
  events : BitVec 32
  dir : Bool
  namez : List Byte
deriving DecidableEq, Repr

/-- How the calls of one addition end: what `fffile_open` returns, whether `ffmem_alloc`,
`ffvec_push` and `ffsz_dupstr` succeed, and what the new watch has in the place of `dir`. -/
structure AddOutcome where
  fd : Option Nat
  alloc : Bool
  push : Bool
  dup : Bool
  dir : Bool

/-- The watch list and the handles that were opened and closed. -/
structure FfFilemon where
  wl : List Watch
  opened : List Nat
  closed : List Nat

/-- A new object. -/
def fffilemonOpen : FfFilemon := ⟨[], [], []⟩

/-- The part of an addition behind `fffile_open`: the watch is put at the end of the list, or the
handle is closed. -/
def addWatch (outcome : AddOutcome) (fm : FfFilemon) (watch : Nat → Watch) : Int × FfFilemon :=
  match outcome.fd with
  | none => (-1, fm)
  | some d =>
      if outcome.alloc ∧ outcome.push then
        ((fm.wl.length : Int), { fm with wl := fm.wl ++ [watch d], opened := fm.opened ++ [d] })
      else (-1, { fm with opened := fm.opened ++ [d], closed := fm.closed ++ [d] })

/-- `fffilemon_add_dir`. The name of the watch is not used. -/
def fffilemonAddDir (outcome : AddOutcome) (fm : FfFilemon) (events : BitVec 32) :
    Int × FfFilemon :=
  addWatch outcome fm fun d => ⟨d, events, true, []⟩

/-- `fffilemon_add_file`. `dir` of the watch is not set. -/
def fffilemonAddFile (str : Path.Ffstr) (outcome : AddOutcome) (fm : FfFilemon) (path : List Byte)
    (events : BitVec 32) : Int × FfFilemon :=
  if outcome.dup then
    addWatch outcome fm fun d =>
      ⟨d, events, outcome.dir, (Path.ffpathSplitpathWin str path).2.2⟩
  else (-1, fm)

/-- `fffilemon_close`. -/
def fffilemonClose (fm : FfFilemon) : FfFilemon :=
  { fm with wl := [], closed := fm.closed ++ fm.wl.map Watch.d }

/-! ### The notifications -/

/-- What filemon.h uses of ffbase on Windows: `ffs_wtou` from the capacity, or none for NULL, and
the source to the value returned and the bytes written; `ffstr_grow` of an empty string from its
capacity and the bytes that have to fit to its new capacity. -/
structure Ffbase where
  wtou : Option Nat → List Wchar → Int × List Byte
  grow : Nat → Nat → Option Nat
  grow_room : ∀ cap n room, grow cap n = some room → n ≤ room

/-- `name` and `*cap`. -/
structure NameBuf where
  text : List Byte
  cap : Nat

/-- `sizeof(FILE_NOTIFY_INFORMATION)`, with the padding behind `FileName[1]`. -/
def infoSize : Nat := 16

/-- The offset of `FileName`. -/
def nameOffset : Nat := 12

/-- The part of `_fffilemon_next1` for the name. None is a length that is not what was written, an
error is -2. -/
def fileName (lib : Ffbase) (fileNameLength : Nat) (units : List Wchar) (name : NameBuf) :
    Option (Except NameBuf NameBuf) :=
  let empty : NameBuf := { name with text := [] }
  if fileNameLength = 0 then some (.ok empty)
  else
    let r := toInt32 (lib.wtou none units).1
    if r ≤ 0 then some (.error empty)
    else
      match lib.grow name.cap r.toNat with
      | none => some (.error empty)
      | some cap =>
          let (r, bytes) := lib.wtou (some cap) units
          if r = bytes.length then some (.ok ⟨bytes, cap⟩) else none

/-- `_fffilemon_next1`: the result, the rest of the input, and the name. None is a read outside of
the input, or a step out of it. -/
def fffilemonNext1 (lib : Ffbase) (input : List Byte) (name : NameBuf) :
    Option (Int × List Byte × NameBuf) :=
  if input.length = 0 then some (-1, input, name)
  else if infoSize > input.length then some (-2, input, name)
  else do
    let fileNameLength ← readLe input 8 4
    if infoSize + fileNameLength > input.length then some (-2, input, name)
    else do
      let bytes ← readBytes input nameOffset fileNameLength
      match ← fileName lib fileNameLength (unitsOf bytes) name with
      | .error name => some (-2, input, name)
      | .ok name => do
          let nextEntryOffset ← readLe input 0 4
          let action ← readLe input 4 4
          if nextEntryOffset > input.length then none
          else
            some ((BitVec.ofNat 32 action).toInt,
              if nextEntryOffset = 0 then [] else input.drop nextEntryOffset, name)

/-- A call that returns an action leaves less of the input. -/
theorem shorter_of_next1 {lib : Ffbase} {input rest : List Byte} {name after : NameBuf} {r : Int}
    (call : fffilemonNext1 lib input name = some (r, rest, after)) (found : ¬ r < 0) :
    rest.length < input.length := by
  unfold fffilemonNext1 at call
  split at call
  · cases call
    exact absurd (by decide) found
  · next nonempty =>
    split at call
    · cases call
      exact absurd (by decide) found
    · obtain ⟨fileNameLength, _, call⟩ := Option.bind_eq_some_iff.mp call
      split at call
      · cases call
        exact absurd (by decide) found
      · obtain ⟨bytes, _, call⟩ := Option.bind_eq_some_iff.mp call
        obtain ⟨named, _, call⟩ := Option.bind_eq_some_iff.mp call
        split at call
        · cases call
          exact absurd (by decide) found
        · obtain ⟨next, _, call⟩ := Option.bind_eq_some_iff.mp call
          obtain ⟨action, _, call⟩ := Option.bind_eq_some_iff.mp call
          split at call
          · cases call
          · cases call
            split
            · exact Nat.pos_of_ne_zero nonempty
            · rw [List.length_drop]
              omega

/-- The watch is for the directory, or for a file of this name. -/
def Watch.covers (name : List Byte) (w : Watch) : Bool := w.dir || name == w.namez

/-- `fffilemon_next`: the result, and `input`, `name` and `events` after the call. -/
def fffilemonNext (lib : Ffbase) (wl : List Watch) (input : List Byte) (name : NameBuf)
    (events : BitVec 32) : Option (Int × List Byte × NameBuf × BitVec 32) :=
  match _call : fffilemonNext1 lib input name with
  | none => none
  | some (r, rest, after) =>
      if _found : r < 0 then some (r, rest, after, events)
      else
        match wl.findIdx? (Watch.covers after.text) with
        | some i => some (i, rest, after, BitVec.ofInt 32 r)
        | none => fffilemonNext lib wl rest after events
termination_by input.length
decreasing_by exact shorter_of_next1 _call _found

/-- What a call reports: the descriptor, the name and the action. -/
abbrev Report := Int × List Byte × BitVec 32

/-- Calls until one returns a negative number give these reports, and then this number. -/
inductive Reports (lib : Ffbase) (wl : List Watch) :
    List Byte → NameBuf → List Report → Int → Prop where
  | stop {input rest : List Byte} {name after : NameBuf} {oldEvents events : BitVec 32} {r : Int}
      (call : fffilemonNext lib wl input name oldEvents = some (r, rest, after, events))
      (ended : r < 0) : Reports lib wl input name [] r
  | event {input rest : List Byte} {name after : NameBuf} {oldEvents events : BitVec 32}
      {wd r : Int} {reports : List Report}
      (call : fffilemonNext lib wl input name oldEvents = some (wd, rest, after, events))
      (found : 0 ≤ wd) (later : Reports lib wl rest after reports r) :
      Reports lib wl input name ((wd, after.text, events) :: reports) r

/-! ### What the system writes -/

/-- A change of a file. What stands between its record and the next one is left open. -/
structure Notification where
  action : BitVec 32
  name : List Char
  gap : List Byte
  proper : 0 ≤ action.toInt
  named : name ≠ []
  short : (utf16 name).length < 2 ^ 15
  aligned : gap.length < 4

/-- The bytes of a record, with the offset of the next one. -/
def Notification.encode (n : Notification) (nextEntryOffset : Nat) : List Byte :=
  leBytes 4 nextEntryOffset ++ leBytes 4 n.action.toNat ++
    leBytes 4 (2 * (utf16 n.name).length) ++ unitBytes (utf16 n.name)

/-- The buffer after ReadDirectoryChangesW: the records, and behind them what was there before. -/
def chain (tail : List Byte) : List Notification → List Byte
  | [] => []
  | [n] => n.encode 0 ++ tail
  | n :: next :: rest =>
      n.encode (nameOffset + 2 * (utf16 n.name).length + n.gap.length) ++
        (n.gap ++ chain tail (next :: rest))

/-- The name is converted, and there is memory for it. -/
structure Ffbase.Names (lib : Ffbase) (n : Notification) : Prop where
  measures : (lib.wtou none (utf16 n.name)).1 = (utf8 n.name).length
  fits : ∀ cap, (utf8 n.name).length ≤ cap →
    lib.wtou (some cap) (utf16 n.name) = (((utf8 n.name).length : Int), utf8 n.name)
  grows : ∀ cap, ∃ room, lib.grow cap (utf8 n.name).length = some room

section Record

variable (n : Notification) (nextEntryOffset : Nat) (rest : List Byte)

theorem length_encode : (n.encode nextEntryOffset).length =
    nameOffset + 2 * (utf16 n.name).length := by
  simp only [Notification.encode, nameOffset, List.length_append, length_leBytes, length_unitBytes]

theorem readLe_next (fits : nextEntryOffset < 2 ^ 32) :
    readLe (n.encode nextEntryOffset ++ rest) 0 4 = some nextEntryOffset := by
  have read := readLe_middle [] (leBytes 4 n.action.toNat ++
    leBytes 4 (2 * (utf16 n.name).length) ++ unitBytes (utf16 n.name) ++ rest)
    (show nextEntryOffset < 256 ^ 4 from fits)
  rw [List.length_nil] at read
  simpa only [Notification.encode, List.append_assoc, List.nil_append] using read

theorem readLe_action :
    readLe (n.encode nextEntryOffset ++ rest) 4 4 = some n.action.toNat := by
  have read := readLe_middle (leBytes 4 nextEntryOffset)
    (leBytes 4 (2 * (utf16 n.name).length) ++ unitBytes (utf16 n.name) ++ rest)
    (show n.action.toNat < 256 ^ 4 from n.action.isLt)
  rw [length_leBytes] at read
  simpa only [Notification.encode, List.append_assoc] using read

theorem readLe_length :
    readLe (n.encode nextEntryOffset ++ rest) 8 4 = some (2 * (utf16 n.name).length) := by
  have short := n.short
  have read := readLe_middle (leBytes 4 nextEntryOffset ++ leBytes 4 n.action.toNat)
    (unitBytes (utf16 n.name) ++ rest)
    (show 2 * (utf16 n.name).length < 256 ^ 4 by omega)
  simp only [List.length_append, length_leBytes] at read
  simpa only [Notification.encode, List.append_assoc] using read

theorem readBytes_name :
    readBytes (n.encode nextEntryOffset ++ rest) nameOffset (2 * (utf16 n.name).length) =
      some (unitBytes (utf16 n.name)) := by
  have read := readBytes_middle (leBytes 4 nextEntryOffset ++ leBytes 4 n.action.toNat ++
    leBytes 4 (2 * (utf16 n.name).length)) (unitBytes (utf16 n.name)) rest
  simp only [List.length_append, length_leBytes, length_unitBytes] at read
  simpa only [Notification.encode, nameOffset, List.append_assoc] using read

/-- The name of a record is converted into the buffer for names. -/
theorem fileName_eq {lib : Ffbase} (names : lib.Names n) (name : NameBuf) :
    ∃ cap, fileName lib (2 * (utf16 n.name).length) (utf16 n.name) name =
      some (.ok ⟨utf8 n.name, cap⟩) := by
  have short := n.short
  have bytes := length_utf8 n.name
  have units : 0 < (utf16 n.name).length :=
    List.length_pos_of_ne_nil (mt (utf16_eq_nil_iff n.name).mp n.named)
  have same : toInt32 (lib.wtou none (utf16 n.name)).1 = (utf8 n.name).length := by
    rw [names.measures]
    exact Winreg.toInt32_of_range (by omega) (by omega)
  obtain ⟨room, grown⟩ := names.grows name.cap
  refine ⟨room, ?_⟩
  rw [fileName, if_neg (by omega)]
  dsimp only
  rw [same, if_neg (by omega), Int.toNat_natCast, grown]
  simp only [names.fits room (lib.grow_room _ _ _ grown), if_true]

/-- A call on a record with enough behind it gives its action and its name. -/
theorem fffilemonNext1_encode {lib : Ffbase} (names : lib.Names n) (name : NameBuf)
    (fits : nextEntryOffset < 2 ^ 32) (behind : 4 ≤ rest.length)
    (inside : nextEntryOffset ≤ nameOffset + 2 * (utf16 n.name).length + rest.length) :
    ∃ cap, fffilemonNext1 lib (n.encode nextEntryOffset ++ rest) name =
      some (n.action.toInt, if nextEntryOffset = 0 then []
        else (n.encode nextEntryOffset ++ rest).drop nextEntryOffset, ⟨utf8 n.name, cap⟩) := by
  have size : (n.encode nextEntryOffset ++ rest).length =
      nameOffset + 2 * (utf16 n.name).length + rest.length := by
    rw [List.length_append, length_encode]
  have room : nameOffset + 4 = infoSize := rfl
  obtain ⟨cap, named⟩ := fileName_eq n names name
  refine ⟨cap, ?_⟩
  rw [fffilemonNext1, if_neg (by omega), if_neg (by omega), readLe_length]
  simp only [Option.bind_eq_bind, Option.bind_some]
  rw [if_neg (by omega), readBytes_name]
  simp only [Option.bind_some, unitsOf_unitBytes, named, readLe_next n nextEntryOffset rest fits,
    readLe_action]
  rw [if_neg (by omega), BitVec.ofNat_toNat, BitVec.setWidth_eq]

end Record

/-! ### All calls -/

section Chain

variable {lib : Ffbase} {wl : List Watch}

theorem fffilemonNext_negative {input rest : List Byte} {name after : NameBuf}
    {events : BitVec 32} {r : Int}
    (call : fffilemonNext1 lib input name = some (r, rest, after)) (ended : r < 0) :
    fffilemonNext lib wl input name events = some (r, rest, after, events) := by
  rw [fffilemonNext]
  split
  · next nothing =>
    rw [call] at nothing
    cases nothing
  · next same =>
    rw [call] at same
    cases same
    rw [dif_pos ended]

theorem fffilemonNext_found {input rest : List Byte} {name after : NameBuf}
    {events : BitVec 32} {r : Int}
    (call : fffilemonNext1 lib input name = some (r, rest, after)) (found : ¬ r < 0) :
    fffilemonNext lib wl input name events =
      match wl.findIdx? (Watch.covers after.text) with
      | some i => some (i, rest, after, BitVec.ofInt 32 r)
      | none => fffilemonNext lib wl rest after events := by
  rw [fffilemonNext]
  split
  · next nothing =>
    rw [call] at nothing
    cases nothing
  · next same =>
    rw [call] at same
    cases same
    rw [dif_neg found]

/-- At the end of the input there are no more reports. -/
theorem reports_empty (name : NameBuf) : Reports lib wl [] name [] (-1) := by
  have call : fffilemonNext1 lib [] name = some (-1, [], name) := if_pos rfl
  have stopped : fffilemonNext lib wl [] name 0 = some (-1, [], name, 0) :=
    fffilemonNext_negative call (by decide)
  exact Reports.stop stopped (by decide)

/-- What has to be reported of a change: the first watch that it belongs to, if there is one. -/
def Notification.report (wl : List Watch) (n : Notification) : Option Report :=
  (wl.findIdx? (Watch.covers (utf8 n.name))).map fun i => ((i : Int), utf8 n.name, n.action)

/-- A record is reported or skipped, and the next ones after it. -/
theorem reports_cons {n : Notification} {input rest : List Byte} {name after : NameBuf}
    (text : after.text = utf8 n.name)
    (call : fffilemonNext1 lib input name = some (n.action.toInt, rest, after))
    {reports : List Report} {r : Int} (later : Reports lib wl rest after reports r) :
    Reports lib wl input name ((n.report wl).toList ++ reports) r := by
  have found := fun events => @fffilemonNext_found lib wl input rest name after events _ call
    (Int.not_lt.mpr n.proper)
  rw [text, BitVec.ofInt_toInt] at found
  rw [Notification.report]
  cases watch : wl.findIdx? (Watch.covers (utf8 n.name)) with
  | some i =>
      rw [watch] at found
      rw [← text]
      exact Reports.event (found 0) (Int.natCast_nonneg i) later
  | none =>
      rw [watch] at found
      cases later with
      | stop nextCall ended => exact Reports.stop ((found _).trans nextCall) ended
      | event nextCall present rest => exact Reports.event ((found _).trans nextCall) present rest

/-- There is a record at the beginning of a chain. -/
theorem length_chain (tail : List Byte) (n : Notification) (rest : List Notification) :
    nameOffset ≤ (chain tail (n :: rest)).length := by
  cases rest with
  | nil =>
      rw [chain, List.length_append, length_encode]
      omega
  | cons next rest =>
      rw [chain, List.length_append, length_encode]
      omega

/-- The records are reported in their order, those that no watch is for are skipped, and nothing
behind the last one is taken for a record. -/
theorem reports_chain {tail : List Byte} (behind : 4 ≤ tail.length)
    {records : List Notification} (names : ∀ n ∈ records, lib.Names n) (name : NameBuf) :
    Reports lib wl (chain tail records) name (records.filterMap (Notification.report wl)) (-1) := by
  induction records generalizing name with
  | nil => exact reports_empty name
  | cons n records inductionHypothesis =>
      have namesOfN := names n List.mem_cons_self
      have filtered : (n :: records).filterMap (Notification.report wl) =
          (n.report wl).toList ++ records.filterMap (Notification.report wl) := by
        rw [List.filterMap_cons]
        cases n.report wl <;> rfl
      rw [filtered]
      cases records with
      | nil =>
          obtain ⟨cap, call⟩ := fffilemonNext1_encode n 0 tail namesOfN name (by decide) behind
            (Nat.zero_le _)
          exact reports_cons rfl call (reports_empty _)
      | cons next rest =>
          have short := n.short
          have aligned := n.aligned
          have further := length_chain tail next rest
          have offset : nameOffset = 12 := rfl
          have here : ¬ nameOffset + 2 * (utf16 n.name).length + n.gap.length = 0 := by omega
          obtain ⟨cap, call⟩ := fffilemonNext1_encode n
            (nameOffset + 2 * (utf16 n.name).length + n.gap.length)
            (n.gap ++ chain tail (next :: rest)) namesOfN name (by omega)
            (by rw [List.length_append]; omega) (by rw [List.length_append]; omega)
          have behindGap : (n.encode (nameOffset + 2 * (utf16 n.name).length + n.gap.length) ++
              (n.gap ++ chain tail (next :: rest))).drop
                (nameOffset + 2 * (utf16 n.name).length + n.gap.length) =
              chain tail (next :: rest) := by
            rw [← List.append_assoc]
            apply List.drop_left'
            rw [List.length_append, length_encode]
          rw [if_neg here, behindGap] at call
          apply reports_cons rfl call
          apply inductionHypothesis
          intro m member
          exact names m (List.mem_cons_of_mem n member)

end Chain

/-! ### Additions -/

/-- An addition to the watch list. -/
inductive Addition where
  | dir (events : BitVec 32) (outcome : AddOutcome)
  | file (path : List Byte) (events : BitVec 32) (outcome : AddOutcome)

def Addition.apply (str : Path.Ffstr) (fm : FfFilemon) : Addition → Int × FfFilemon
  | .dir events outcome => fffilemonAddDir outcome fm events
  | .file path events outcome => fffilemonAddFile str outcome fm path events

/-- The object after additions. -/
def addAll (str : Path.Ffstr) (fm : FfFilemon) (additions : List Addition) : FfFilemon :=
  additions.foldl (fun fm addition => (addition.apply str fm).2) fm

/-- The changes that an addition is for: all of its directory, or those of its file. What memory
held in the place of `dir` counts as well. -/
def Addition.covers (str : Path.Ffstr) (name : List Byte) : Addition → Bool
  | .dir _ _ => true
  | .file path _ outcome => outcome.dir || name == (Path.ffpathSplitpathWin str path).2.2

/-- The number that was returned by the first addition that is for this change and has worked. -/
def descriptorOf (str : Path.Ffstr) (name : List Byte) : FfFilemon → List Addition → Option Int
  | _, [] => none
  | fm, addition :: rest =>
      let (rc, after) := addition.apply str fm
      if 0 ≤ rc ∧ addition.covers str name then some rc else descriptorOf str name after rest

section Additions

variable {str : Path.Ffstr} {fm : FfFilemon}

/-- The handles of the watches are those that were opened and not closed. -/
def FfFilemon.Balanced (fm : FfFilemon) : Prop :=
  (fm.closed ++ fm.wl.map Watch.d).Perm fm.opened

theorem addWatch_cases (outcome : AddOutcome) (watch : Nat → Watch) :
    ((addWatch outcome fm watch).1 < 0 ∧ (addWatch outcome fm watch).2.wl = fm.wl) ∨
      ∃ d, (addWatch outcome fm watch).1 = fm.wl.length ∧
        (addWatch outcome fm watch).2.wl = fm.wl ++ [watch d] := by
  unfold addWatch
  split
  · exact Or.inl ⟨(by decide : (-1 : Int) < 0), rfl⟩
  · next d _ =>
    split
    · exact Or.inr ⟨d, rfl, rfl⟩
    · exact Or.inl ⟨(by decide : (-1 : Int) < 0), rfl⟩

/-- An addition that works puts a watch at the end of the list and returns its place; any other
one leaves the list. -/
theorem apply_cases (addition : Addition) :
    ((addition.apply str fm).1 < 0 ∧ (addition.apply str fm).2.wl = fm.wl) ∨
      ∃ watch : Watch, (addition.apply str fm).1 = fm.wl.length ∧
        (addition.apply str fm).2.wl = fm.wl ++ [watch] ∧
          ∀ name, watch.covers name = addition.covers str name := by
  cases addition with
  | dir events outcome =>
      rcases addWatch_cases outcome fun d => ⟨d, events, true, []⟩ with
        failed | ⟨d, place, list⟩
      · exact Or.inl failed
      · exact Or.inr ⟨_, place, list, fun _ => rfl⟩
  | file path events outcome =>
      rw [Addition.apply, fffilemonAddFile]
      split
      · rcases addWatch_cases outcome fun d =>
          ⟨d, events, outcome.dir, (Path.ffpathSplitpathWin str path).2.2⟩ with
          failed | ⟨d, place, list⟩
        · exact Or.inl failed
        · exact Or.inr ⟨_, place, list, fun _ => rfl⟩
      · exact Or.inl ⟨(by decide : (-1 : Int) < 0), rfl⟩

theorem addWatch_balanced (balanced : fm.Balanced) (outcome : AddOutcome) {watch : Nat → Watch}
    (handle : ∀ d, (watch d).d = d) : (addWatch outcome fm watch).2.Balanced := by
  unfold addWatch
  split
  · exact balanced
  · next d _ =>
    split
    · rw [FfFilemon.Balanced]
      dsimp only
      rw [List.map_append, List.map_singleton, handle, ← List.append_assoc]
      exact balanced.append_right [d]
    · rw [FfFilemon.Balanced]
      dsimp only
      have moved : ((fm.closed ++ [d]) ++ fm.wl.map Watch.d).Perm
          ((fm.closed ++ fm.wl.map Watch.d) ++ [d]) := by
        rw [List.append_assoc, List.append_assoc]
        exact (List.perm_append_comm).append_left fm.closed
      exact moved.trans (balanced.append_right [d])

theorem apply_balanced (balanced : fm.Balanced) (addition : Addition) :
    (addition.apply str fm).2.Balanced := by
  cases addition with
  | dir events outcome => exact addWatch_balanced balanced outcome fun _ => rfl
  | file path events outcome =>
      rw [Addition.apply, fffilemonAddFile]
      split
      · exact addWatch_balanced balanced outcome fun _ => rfl
      · exact balanced

/-- After any additions every handle that was opened is in the list or closed, and closing the
object closes the others: each of them once. -/
theorem handles_balanced (additions : List Addition) :
    (addAll str fffilemonOpen additions).Balanced ∧
      (fffilemonClose (addAll str fffilemonOpen additions)).closed.Perm
        (addAll str fffilemonOpen additions).opened := by
  have balanced : (addAll str fffilemonOpen additions).Balanced := by
    rw [addAll]
    induction additions using List.reverseRecOn with
    | nil => exact List.Perm.refl []
    | append_singleton front addition inductionHypothesis =>
        rw [List.foldl_append]
        exact apply_balanced inductionHypothesis addition
  exact ⟨balanced, balanced⟩

/-- The list only grows at its end. -/
theorem addAll_grows (additions : List Addition) :
    ∃ more, (addAll str fm additions).wl = fm.wl ++ more := by
  induction additions generalizing fm with
  | nil => exact ⟨[], (List.append_nil _).symm⟩
  | cons addition rest inductionHypothesis =>
      rw [addAll, List.foldl_cons, ← addAll]
      obtain ⟨more, grown⟩ := @inductionHypothesis (addition.apply str fm).2
      rcases apply_cases addition with
        ⟨_, list⟩ | ⟨watch, _, list, _⟩
      · exact ⟨more, by rw [grown, list]⟩
      · exact ⟨[watch] ++ more, by rw [grown, list, List.append_assoc]⟩

/-- The first watch for a change is the one of the first addition for it. -/
theorem findIdx_addAll (name : List Byte) (additions : List Addition)
    (before : fm.wl.findIdx? (Watch.covers name) = none) :
    ((addAll str fm additions).wl.findIdx? (Watch.covers name)).map (fun i => (i : Int)) =
      descriptorOf str name fm additions := by
  induction additions generalizing fm with
  | nil =>
      rw [addAll, List.foldl_nil, before]
      rfl
  | cons addition rest inductionHypothesis =>
      rw [addAll, List.foldl_cons, ← addAll, descriptorOf]
      dsimp only
      rcases apply_cases addition with
        ⟨failed, list⟩ | ⟨watch, place, list, covers⟩
      · rw [if_neg fun both => absurd both.1 (Int.not_le.mpr failed)]
        exact inductionHypothesis (list ▸ before)
      · cases covered : addition.covers str name with
        | false =>
            rw [if_neg fun both => absurd both.2 Bool.false_ne_true]
            apply inductionHypothesis
            rw [list, List.findIdx?_append, before, List.findIdx?_singleton, covers, covered]
            rfl
        | true =>
            rw [if_pos ⟨by rw [place]; exact Int.natCast_nonneg _, rfl⟩, place]
            obtain ⟨more, grown⟩ := @addAll_grows str (addition.apply str fm).2 rest
            rw [grown, list, List.append_assoc, List.findIdx?_append, before,
              List.singleton_append, List.findIdx?_cons, covers, covered, if_pos rfl]
            simp

end Additions

/-- ffbase on ASCII names, with memory for every string. -/
def asciiFfbase : Ffbase where
  wtou := Winreg.asciiFfbase.wtou
  grow cap n := some (max cap n)
  grow_room cap n room grown := by
    cases grown
    exact Nat.le_max_right cap n

/-- The file "a" was changed. -/
def changedA : Notification := ⟨3, ['a'], [0, 0], by decide, by decide, by decide, by decide⟩

theorem asciiFfbase_names : asciiFfbase.Names changedA where
  measures := by decide
  fits := Winreg.asciiFfbase_text.fits
  grows _ := ⟨_, rfl⟩

/-- A directory that cannot be opened, a file "b", and a directory. -/
def threeAdditions : List Addition :=
  [.dir 1 ⟨none, true, true, true, false⟩, .file [0x62] 1 ⟨some 5, true, true, true, false⟩,
    .dir 1 ⟨some 6, true, true, true, false⟩]

/-- Both are reported under the number of the directory. -/
example : [changedA, changedA].filterMap (fun n =>
    (descriptorOf Path.Ffstr.scanning (utf8 n.name) fffilemonOpen threeAdditions).map fun wd =>
      (wd, utf8 n.name, n.action)) = [(1, [0x61], 3), (1, [0x61], 3)] := by decide

end Ffos.Filemon.Windows
