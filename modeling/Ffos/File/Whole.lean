/-
Module: Ffos.File.Whole
Purpose: The files of a directory that are written with `fffile_writewhole` of FFOS/file.h, where
  any system call may fail: `fffile_readwhole` gives what was last written, never a part of it
  that was reported as success.
Trusted boundary: a write puts the beginning of its data into the file; nobody else uses the
  directory
Main exports: Opener, Opener.unix, Opener.windows, fffileWritewhole, fffileRemove,
  fffileReadwhole, FileEvent, Step, lastWrite, files_show, readwhole_gives_last_write
-/
import Ffos.File.Agreement
import Ffos.File.ReadWhole
import Ffos.Lib.NamedStore
import Ffos.Lib.Transition

namespace Ffos.File.Whole

open Ffos.Lib
open ReadWhole (Answer System Ffvec)

/-! ### Opening and removing -/

/-- `fffile_open` of one system with its flags: what is promised of a mode that writes, and of
FFFILE_READONLY. A file is known by its key, the name that the system has for it. `removes` says
how `fffile_remove` ends, from how its system calls end. -/
structure Opener (Name Key : Type) [DecidableEq Key] where
  key : Name → Option Key
  Removal : Type
  removes : Removal → Bool
  create : BitVec 32
  truncate : BitVec 32
  writeonly : BitVec 32
  readonly : BitVec 32
  flags : Mode → BitVec 32
  fffileOpen : Files Key → Name → BitVec 32 → Option Key × Files Key
  default : create ||| truncate ||| writeonly = flags ⟨.create, .writeonly, true⟩
  writes : ∀ files name mode, mode.Portable →
    fffileOpen files name (flags mode) =
      match key name with
      | none => (none, files)
      | some key => contract files key mode
  reads : ∀ files name, fffileOpen files name readonly =
    match key name with
    | none => (none, files)
    | some key => ((files key).map fun _ => key, files)

section Openers

variable {Name Wide : Type} [DecidableEq Wide]

/-- With O_RDONLY a file is opened that exists. -/
theorem fffileOpenUnix_readonly [DecidableEq Name] (unix : Unix) (files : Files Name)
    (name : Name) :
    fffileOpenUnix unix files name 0 = ((files name).map fun _ => name, files) := by
  have noBits : oLargefile &&& oNoatime = 0 ∧ oLargefile &&& oCreat .linux = 0 ∧
      oLargefile &&& oTrunc .linux = 0 := by decide
  obtain ⟨noatime, creat, trunc⟩ := noBits
  cases unix with
  | linux =>
      cases present : files name with
      | none => simp [fffileOpenUnix, openUnix, creat, noatime, present]
      | some content => simp [fffileOpenUnix, openUnix, creat, trunc, present]
  | bsd =>
      cases present : files name with
      | none => simp [fffileOpenUnix, openUnix, present, Except.toOption]
      | some content => simp [fffileOpenUnix, openUnix, present, Except.toOption]

def Opener.unix [DecidableEq Name] (unix : Unix) : Opener Name Name where
  key := some
  Removal := Bool
  removes := id
  create := oCreat unix
  truncate := oTrunc unix
  writeonly := oWronly
  readonly := 0
  flags := Mode.unixFlags unix
  fffileOpen := fffileOpenUnix unix
  default := by cases unix <;> decide
  writes files name mode _ := fffileOpenUnix_contract unix files name mode
  reads := fffileOpenUnix_readonly unix

theorem fffileOpenWindows_readonly (utow : Name → Option Wide) (longName : Wide → Bool)
    (files : Files Wide) (name : Name) :
    fffileOpenWindows utow longName files name winReadonly =
      match utow name with
      | none => (none, files)
      | some wide => ((files wide).map fun _ => wide, files) := by
  have bits : winReadonly &&& winNodosname = 0 ∧ winCreation winReadonly = openExisting ∧
      ¬ winReadonly &&& (winTruncate ||| 0xf0#32) = winTruncate ||| winCreate := by decide
  obtain ⟨nodosname, disposition, noRetry⟩ := bits
  cases converted : utow name with
  | none => simp only [fffileOpenWindows, converted]
  | some wide =>
      have call := @createFileW_openExisting _ _ ⟨wide, winAccess winReadonly, winShare,
        winCreation winReadonly, winAttr winReadonly⟩ files disposition
      cases present : files wide with
      | none =>
          rw [present, if_pos rfl] at call
          simp [fffileOpenWindows, converted, nodosname, call, noRetry, present]
      | some content =>
          rw [present, if_neg (Option.some_ne_none content)] at call
          simp [fffileOpenWindows, converted, nodosname, call, present]

/-- How the system calls of `fffile_remove` on Windows end: the errors of `DeleteFileW`, the
attributes of the file, and whether they can be set. -/
structure Deletion where
  first : Option (BitVec 32)
  attr : Option (BitVec 32)
  setAttr : Bool
  second : Option (BitVec 32)
deriving DecidableEq, Repr

def errorAccessDenied : BitVec 32 := 5

def ffFileWinReadonly : BitVec 32 := 1

/-- `fffile_remove` on Windows: a read-only file is deleted without this attribute. -/
def Deletion.removes (deletion : Deletion) : Bool :=
  match deletion.first with
  | none => true
  | some error =>
      if error ≠ errorAccessDenied then false
      else
        match deletion.attr with
        | none => false
        | some attr =>
            if attr &&& ffFileWinReadonly = 0 ∨ deletion.setAttr = false then false
            else deletion.second.isNone

def Opener.windows (utow : Name → Option Wide) (longName : Wide → Bool) : Opener Name Wide where
  key := utow
  Removal := Deletion
  removes := Deletion.removes
  create := winCreate
  truncate := winTruncate
  writeonly := winWriteonly
  readonly := winReadonly
  flags := Mode.winFlags
  fffileOpen := fffileOpenWindows utow longName
  default := by decide
  writes files name mode portable := by
    cases converted : utow name with
    | none => simp only [fffileOpenWindows, converted]
    | some wide => exact fffileOpenWindows_contract converted longName files portable
  reads := fffileOpenWindows_readonly utow longName

end Openers

section Functions

variable {Name Key : Type} [DecidableEq Key] (opener : Opener Name Key)

/-! ### Writing -/

/-- How the system calls of one `fffile_writewhole` end: whether the file can be opened, what
`fffile_write` returns (none for -1) and how many bytes are in the file then, what `fffile_close`
returns, and how `fffile_remove` ends. -/
structure WriteOutcome (Removal : Type) where
  opens : Bool
  write : Option Nat
  stored : Nat
  close : BitVec 32
  removal : Removal
deriving DecidableEq, Repr

/-- The number that is returned is the number of bytes that were written. -/
structure WriteOutcome.Possible {Removal : Type} (outcome : WriteOutcome Removal)
    (d : List Byte) : Prop where
  stored : outcome.stored ≤ d.length
  returned : ∀ count ∈ outcome.write, outcome.stored = count

/-- The flags that `fffile_writewhole` passes on. -/
def Opener.openFlags (flags : BitVec 32) : BitVec 32 :=
  (if flags = 0 then opener.create ||| opener.truncate else flags) ||| opener.writeonly

/-- The file that a call opens. -/
def Opener.opened (files : Files Key) (fn : Name) (flags : BitVec 32)
    (outcome : WriteOutcome opener.Removal) : Option Key :=
  if outcome.opens = false then none
  else (opener.fffileOpen files fn (opener.openFlags flags)).1

/-- `fffile_writewhole`: the result, and the files after it. -/
def fffileWritewhole (files : Files Key) (fn : Name) (d : List Byte) (flags : BitVec 32)
    (outcome : WriteOutcome opener.Removal) : BitVec 32 × Files Key :=
  if outcome.opens = false then (-1, files)
  else
    match opener.fffileOpen files fn (opener.openFlags flags) with
    | (none, files) => (-1, files)
    | (some f, files) =>
        let written := (files f).map fun content => overlay content 0 (d.take outcome.stored)
        let files := Function.update files f written
        let rc : BitVec 32 := if outcome.write = some d.length then 0 else -1
        let rc := rc ||| outcome.close
        if rc ≠ 0 then
          (rc, if opener.removes outcome.removal then Function.update files f none else files)
        else (rc, files)

/-- `fffile_remove`. -/
def fffileRemove (files : Files Key) (fn : Name) (removal : opener.Removal) :
    BitVec 32 × Files Key :=
  match opener.key fn with
  | none => (-1, files)
  | some key =>
      if opener.removes removal then (0, Function.update files key none) else (-1, files)

/-- The flags of a call that replaces the file: those of a mode with FFFILE_TRUNCATE or
FFFILE_CREATENEW, or none. -/
def Opener.Replaces (flags : BitVec 32) : Prop :=
  ∃ mode : Mode, mode.Portable ∧ (mode.truncate = true ∨ mode.creation = .createnew) ∧
    opener.openFlags flags = opener.flags mode

theorem Opener.replaces_zero : opener.Replaces 0 :=
  ⟨⟨.create, .writeonly, true⟩, by decide, Or.inl rfl, opener.default⟩

/-! ### Reading -/

/-- How the calls of one `fffile_readwhole` end; `read` bytes at most are read at once, or the
call fails. -/
structure ReadOutcome where
  opens : Bool
  fstat : Bool
  read : Option Nat
  ffvecRealloc : Ffvec → BitVec 64 → Option Ffvec
  room : ∀ {dst grown : Ffvec} {n : BitVec 64}, ffvecRealloc dst n = some grown → n ≤ grown.cap

/-- A count that fits into the answer of a system call. -/
def answer (count : Nat) : Answer :=
  if fits : count < 2 ^ 63 then some ⟨count, fits⟩ else none

/-- The answers for a file with this content. -/
def ReadOutcome.system (outcome : ReadOutcome) (content : Option (List Byte)) : System where
  opens := outcome.opens && content.isSome
  fstat := if outcome.fstat then answer (content.getD []).length else none
  ffvecRealloc := outcome.ffvecRealloc
  read size :=
    match outcome.read with
    | none => none
    | some most => answer (min most (min size.toNat (content.getD []).length))
  realloc_room := outcome.room
  read_within := by
    intro size count isAnswer
    cases most : outcome.read with
    | none =>
        rw [most] at isAnswer
        cases isAnswer
    | some most' =>
        rw [most] at isAnswer
        simp only [answer] at isAnswer
        split at isAnswer
        · obtain rfl := Option.some.inj isAnswer
          exact Nat.le_trans (Nat.min_le_right _ _) (Nat.min_le_left _ _)
        · cases isAnswer

/-- What a call of `fffile_readwhole` leaves: its result, `dst`, and the bytes that were read. -/
structure WholeRead where
  r : Int
  dst : Ffvec
  bytes : List Byte

/-- `fffile_readwhole` of a file in the directory. -/
def fffileReadwhole (files : Files Key) (fn : Name) (outcome : ReadOutcome) (dst : Ffvec)
    (limit : BitVec 64) : WholeRead :=
  let content := (opener.fffileOpen files fn opener.readonly).1.bind files
  let system := outcome.system content
  let result := ReadWhole.fffileReadwhole system dst limit
  let count := (system.read (ReadWhole.fffileSize system)).map Fin.val
  ⟨result.1, result.2, (content.getD []).take (count.getD 0)⟩

/-! ### Runs -/

/-- Data in memory. -/
structure Buffer where
  bytes : List Byte
  small : bytes.length < 2 ^ 63
deriving DecidableEq, Repr

/-- What is known of a call: the file that was opened with the data, the result, and whether a
file that could not be written was removed. -/
inductive FileEvent (Key : Type) where
  | writewhole (opened : Option Key) (d : Buffer) (rc : BitVec 32) (removes : Bool)
  | remove (key : Option Key) (rc : BitVec 32)

inductive Step : Files Key → FileEvent Key → Files Key → Prop where
  | writewhole {files : Files Key} {fn : Name} {d : Buffer} {flags : BitVec 32}
      {outcome : WriteOutcome opener.Removal} (possible : outcome.Possible d.bytes)
      (replaces : opener.Replaces flags) :
      Step files
        (.writewhole (opener.opened files fn flags outcome) d
          (fffileWritewhole opener files fn d.bytes flags outcome).1
          (opener.removes outcome.removal))
        (fffileWritewhole opener files fn d.bytes flags outcome).2
  | remove {files : Files Key} {fn : Name} {removal : opener.Removal} :
      Step files (.remove (opener.key fn) (fffileRemove opener files fn removal).1)
        (fffileRemove opener files fn removal).2

/-- What was written, and whether success was reported. -/
structure Write where
  data : Buffer
  complete : Bool
deriving DecidableEq, Repr

/-- What a call makes of a file: it is written, or it is gone. -/
def FileEvent.change : FileEvent Key → Option (Change Key Write)
  | .writewhole none _ _ _ => none
  | .writewhole (some key) d rc removes =>
      some ⟨key, if rc = 0 then some ⟨d, true⟩ else if removes then none else some ⟨d, false⟩⟩
  | .remove none _ => none
  | .remove (some key) rc => if rc = 0 then some ⟨key, none⟩ else none

/-- The last write to a file that was opened for it, if the file was not removed since. -/
def lastWrite (trace : List (FileEvent Key)) (key : Key) : Option Write :=
  latest id key (trace.filterMap FileEvent.change)

/-- The content that a write leaves. -/
inductive Shows : Option Write → Option (List Byte) → Prop where
  | absent : Shows none none
  | complete (d : Buffer) : Shows (some ⟨d, true⟩) (some d.bytes)
  | torn (d : Buffer) (stored : Nat) : Shows (some ⟨d, false⟩) (some (d.bytes.take stored))

end Functions

section Results

variable {Name Key : Type} [DecidableEq Key] {opener : Opener Name Key} {files : Files Key}

theorem overlay_nil (data : List Byte) : overlay [] 0 data = data := by
  rw [overlay]
  split
  · next nothing => exact nothing.symm
  · simp

/-- An opened file is empty when a call that replaces it begins to write. -/
theorem opened_empty {mode : Mode} (replaces : mode.truncate = true ∨ mode.creation = .createnew)
    (key : Key) :
    contract files key mode = (none, files) ∨
      contract files key mode = (some key, Function.update files key (some [])) := by
  rw [contract]
  cases present : files key with
  | none =>
      rw [Mode.opens]
      by_cases existing : mode.creation = .existing
      · rw [if_pos existing]
        exact Or.inl rfl
      · rw [if_neg existing]
        exact Or.inr rfl
  | some content =>
      rw [Mode.opens]
      by_cases createnew : mode.creation = .createnew
      · rw [if_pos createnew]
        exact Or.inl rfl
      · have truncate := replaces.resolve_right createnew
        rw [if_neg createnew, if_pos truncate]
        exact Or.inr rfl

/-- What a call can do: nothing, or it writes the data, leaves a part of it, or removes the
file; only a call that has written the data returns 0. -/
theorem fffileWritewhole_cases {fn : Name} {d : List Byte} {flags : BitVec 32}
    {outcome : WriteOutcome opener.Removal} (possible : outcome.Possible d)
    (replaces : opener.Replaces flags) :
    (opener.opened files fn flags outcome = none ∧
        (fffileWritewhole opener files fn d flags outcome).2 = files) ∨
      ∃ key, opener.opened files fn flags outcome = some key ∧
        let rc := (fffileWritewhole opener files fn d flags outcome).1
        (fffileWritewhole opener files fn d flags outcome).2 =
          Function.update files key
            (if rc = 0 then some d
            else if opener.removes outcome.removal then none
            else some (d.take outcome.stored)) := by
  obtain ⟨mode, portable, replaced, sameFlags⟩ := replaces
  unfold fffileWritewhole Opener.opened
  by_cases fails : outcome.opens = false
  · rw [if_pos fails, if_pos fails]
    exact Or.inl ⟨rfl, rfl⟩
  · rw [if_neg fails, if_neg fails, sameFlags, opener.writes files fn mode portable]
    cases opener.key fn with
    | none => exact Or.inl ⟨rfl, rfl⟩
    | some key =>
        dsimp only
        rcases opened_empty replaced key with failed | opened
        · rw [failed]
          exact Or.inl ⟨rfl, rfl⟩
        · rw [opened]
          dsimp only
          refine Or.inr ⟨key, rfl, ?_⟩
          simp only [Function.update_self, Option.map_some, overlay_nil, Function.update_idem]
          by_cases whole : outcome.write = some d.length
          · have all : d.take outcome.stored = d := by
              rw [possible.returned d.length whole, List.take_length]
            rw [if_pos whole, all]
            by_cases closed : (0 : BitVec 32) ||| outcome.close = 0
            · rw [closed, if_neg (not_not.mpr rfl), if_pos rfl]
            · rw [if_pos closed]
              dsimp only
              rw [if_neg closed]
              split <;> rfl
          · have notZero : (-1 : BitVec 32) ||| outcome.close ≠ 0 := by
              have allOnes : (-1 : BitVec 32) = BitVec.allOnes 32 := by decide
              rw [allOnes, BitVec.allOnes_or]
              decide
            rw [if_neg whole, if_pos notZero]
            dsimp only
            rw [if_neg notZero]
            split <;> rfl

/-- One call changes what is shown as its event says. -/
theorem Step.shows {before after : Files Key} {event : FileEvent Key}
    (next : Step opener before event after) {key : Key} {last : Option Write}
    (shows_ : Shows last (before key)) :
    Shows (match event.change with
      | none => last
      | some change => if change.name = key then change.value else last) (after key) := by
  cases next with
  | @writewhole fn d flags outcome possible replaces =>
      rcases @fffileWritewhole_cases _ _ _ _ before fn _ _ _ possible replaces with
        ⟨notOpened, same⟩ | ⟨opened, isOpened, changed⟩
      · rw [notOpened, same]
        exact shows_
      · rw [isOpened, changed]
        dsimp only [FileEvent.change]
        by_cases isKey : opened = key
        · rw [if_pos isKey, isKey, Function.update_self]
          split
          · exact .complete d
          · split
            · exact .absent
            · exact .torn d outcome.stored
        · rw [if_neg isKey, Function.update_of_ne (Ne.symm isKey)]
          exact shows_
  | @remove fn removal =>
      unfold fffileRemove
      cases opener.key fn with
      | none => exact shows_
      | some other =>
          cases opener.removes removal with
          | false => exact shows_
          | true =>
              dsimp only [FileEvent.change]
              rw [if_pos rfl, if_pos rfl]
              dsimp only
              by_cases isKey : other = key
              · rw [if_pos isKey, isKey, Function.update_self]
                exact .absent
              · rw [if_neg isKey, Function.update_of_ne (Ne.symm isKey)]
                exact shows_

/-- After any calls each file shows its last write. -/
theorem files_show {trace : List (FileEvent Key)}
    (run : Run (Step opener) (fun _ => none) trace files) (key : Key) :
    Shows (lastWrite trace key) (files key) := by
  induction run with
  | refl => exact .absent
  | @snoc past before event after _ next inductionHypothesis =>
      have shown := next.shows inductionHypothesis
      rw [lastWrite, List.filterMap_append]
      cases isChange : event.change with
      | none =>
          rw [isChange] at shown
          rw [List.filterMap_cons_none isChange, List.filterMap_nil, List.append_nil]
          exact shown
      | some change =>
          rw [isChange] at shown
          rw [List.filterMap_cons_some isChange, List.filterMap_nil, latest_concat]
          exact shown

/-! ### What is read -/

/-- What is left of a write is the beginning of its data. -/
theorem Shows.begins {last : Option Write} {content : List Byte}
    (shows_ : Shows last (some content)) :
    ∃ write, last = some write ∧ content <+: write.data.bytes ∧
      (write.complete = true → content = write.data.bytes) := by
  cases shows_ with
  | complete d => exact ⟨⟨d, true⟩, rfl, List.prefix_refl _, fun _ => rfl⟩
  | torn d stored =>
      refine ⟨⟨d, false⟩, rfl, List.take_prefix _ _, fun complete => ?_⟩
      exact absurd complete Bool.false_ne_true

theorem answer_of_lt {count : Nat} (fits : count < 2 ^ 63) :
    answer count = some ⟨count, fits⟩ :=
  dif_pos fits

variable {fn : Name} {key : Key} {outcome : ReadOutcome} {dst : Ffvec} {limit : BitVec 64}

theorem content_read (converted : opener.key fn = some key) :
    (opener.fffileOpen files fn opener.readonly).1.bind files = files key := by
  rw [opener.reads, converted]
  cases present : files key with
  | none => simp [present]
  | some content => simp [present]

/-- A call that returns 0 has read the whole file, and has room for one more byte. -/
theorem read_success (known : outcome.fstat = true)
    (small : ∀ content ∈ files key, content.length < 2 ^ 63)
    (converted : opener.key fn = some key)
    (success : (fffileReadwhole opener files fn outcome dst limit).r = 0) :
    files key = some (fffileReadwhole opener files fn outcome dst limit).bytes ∧
      (fffileReadwhole opener files fn outcome dst limit).dst.len.toNat =
        (fffileReadwhole opener files fn outcome dst limit).bytes.length ∧
      (fffileReadwhole opener files fn outcome dst limit).dst.len.toNat <
        (fffileReadwhole opener files fn outcome dst limit).dst.cap.toNat := by
  unfold fffileReadwhole at success ⊢
  rw [content_read converted] at success ⊢
  dsimp only at success ⊢
  cases present : files key with
  | none =>
      rw [present] at success
      have opened := (ReadWhole.fffileReadwhole_eq_zero success).1
      rw [ReadOutcome.system, Option.isSome_none, Bool.and_false] at opened
      cases opened
  | some content =>
      rw [present] at success
      have fits := small content present
      have size : (outcome.system (some content)).fstat = some ⟨content.length, fits⟩ := by
        simp only [ReadOutcome.system, known, if_true, Option.getD_some, answer_of_lt fits]
      have asked : ReadWhole.fffileSize (outcome.system (some content)) =
          BitVec.ofNat 64 content.length := by
        rw [ReadWhole.fffileSize, size, Answer.toSigned]
      obtain ⟨whole, isWhole, _, isRead, len, room⟩ := ReadWhole.complete_of_success size success
      obtain rfl := Option.some.inj (size.symm.trans isWhole)
      have bytes : content.take content.length = content := List.take_length
      rw [asked, isRead]
      simp only [Option.map_some, Option.getD_some, bytes]
      exact ⟨trivial, len, room⟩

/-- Every call of a read works, for a file of this size. -/
structure ReadOutcome.Works (outcome : ReadOutcome) (dst : Ffvec) (limit : BitVec 64)
    (size : Nat) : Prop where
  opens : outcome.opens = true
  fstat : outcome.fstat = true
  within : size ≤ limit.toNat
  room : ∃ grown, outcome.ffvecRealloc dst (BitVec.ofNat 64 size + 1) = some grown
  read : ∃ most, outcome.read = some most ∧ size ≤ most

/-- Then it returns 0. -/
theorem read_works {content : List Byte} (converted : opener.key fn = some key)
    (present : files key = some content) (fits : content.length < 2 ^ 63)
    (works : outcome.Works dst limit content.length) :
    (fffileReadwhole opener files fn outcome dst limit).r = 0 := by
  obtain ⟨opens, known, within, ⟨grown, room⟩, most, reads, enough⟩ := works
  unfold fffileReadwhole
  rw [content_read converted, present]
  dsimp only
  have size : (outcome.system (some content)).fstat = some ⟨content.length, fits⟩ := by
    simp only [ReadOutcome.system, known, if_true, Option.getD_some, answer_of_lt fits]
  have asked : ReadWhole.fffileSize (outcome.system (some content)) =
      BitVec.ofNat 64 content.length := by
    rw [ReadWhole.fffileSize, size, Answer.toSigned]
  have sizeNat : (BitVec.ofNat 64 content.length).toNat = content.length := by
    rw [BitVec.toNat_ofNat]
    exact Nat.mod_eq_of_lt (Nat.lt_trans fits (by decide))
  have got : (outcome.system (some content)).read (BitVec.ofNat 64 content.length) =
      some ⟨content.length, fits⟩ := by
    simp only [ReadOutcome.system, reads, Option.getD_some, sizeNat, Nat.min_self,
      Nat.min_eq_right enough, answer_of_lt fits]
  have notTooLarge : ¬ limit < BitVec.ofNat 64 content.length := by
    rw [BitVec.lt_def, sizeNat]
    exact Nat.not_lt.mpr within
  have opened : (outcome.system (some content)).opens = true := by
    rw [ReadOutcome.system, opens, Option.isSome_some, Bool.and_true]
  have grows : (outcome.system (some content)).ffvecRealloc dst
      (BitVec.ofNat 64 content.length + 1) = some grown := room
  rw [ReadWhole.fffileReadwhole, if_neg (by rw [opened]; decide)]
  simp only [asked, if_neg notTooLarge, grows, ReadWhole.fffileRead, got, Answer.toSigned, ne_eq,
    not_true, if_false]

/-- A read of up to 100 bytes into a new vector. -/
def smallRead : ReadOutcome where
  opens := true
  fstat := true
  read := some 100
  ffvecRealloc dst n := some { dst with cap := n }
  room grown := by
    obtain rfl := Option.some.inj grown
    exact BitVec.le_refl _

theorem threeBytes_small : ([7, 8, 9] : List Byte).length < 2 ^ 63 := by decide

def threeBytes : Buffer := ⟨[7, 8, 9], threeBytes_small⟩

def onWindows : Opener Nat Nat := Opener.windows some fun _ => true

/-- Everything works. -/
def works : WriteOutcome Deletion := ⟨true, some 3, 3, 0, ⟨none, none, false, none⟩⟩

/-- One byte is written, and the file, which is read-only then, is removed. -/
def fails : WriteOutcome Deletion := ⟨true, some 1, 1, 0, ⟨some 5, some 0x21, true, none⟩⟩

theorem twoWrites_run : ∃ trace files, Run (Step onWindows) (fun _ => none) trace files ∧
    files 1 = none ∧ lastWrite trace 0 = some ⟨threeBytes, true⟩ := by
  have possible : works.Possible threeBytes.bytes ∧ fails.Possible threeBytes.bytes :=
    ⟨⟨by decide, by decide⟩, by decide, by decide⟩
  have replaces := onWindows.replaces_zero
  have first := @Step.writewhole _ _ _ onWindows (fun _ => none) 0 threeBytes 0 works possible.1
    replaces
  have second := @Step.writewhole _ _ _ onWindows
    (fffileWritewhole onWindows (fun _ => none) 0 threeBytes.bytes 0 works).2 1 threeBytes 0 fails
    possible.2 replaces
  exact ⟨_, _, .snoc (.single first) second, by decide, by decide⟩

end Results

end Ffos.File.Whole
