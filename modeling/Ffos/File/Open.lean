/-
Module: Ffos.File.Open
Purpose: `fffile_open` of FFOS/file.h on Windows and on UNIX, over the files of one
  directory, and the handles that writes go through.
Trusted boundary: what CreateFileW and open do with their arguments, where nobody else
  uses the directory; `ffsz_alloc_buf_utow` of ffbase is a parameter
Main exports: Mode, createFileW, fffileOpenWindows, openUnix, fffileOpenUnix, Disk, Event
-/
import Ffos.Lib.ByteMemory
import Mathlib.Logic.Function.Basic

namespace Ffos.File

open Ffos.Lib

/-! ### Modes -/

inductive Creation where
  | existing
  | create
  | createnew
deriving DecidableEq, Repr

inductive Access where
  | writeonly
  | readwrite
deriving DecidableEq, Repr

/-- The flags of a call that opens a file for writing, without FFFILE_APPEND. -/
structure Mode where
  creation : Creation
  access : Access
  truncate : Bool
deriving DecidableEq, Repr

/-- The contents of the files of one directory. -/
abbrev Files (Name : Type) := Name → Option (List Byte)

/-! ### Windows -/

def genericRead : BitVec 32 := 0x80000000
def genericWrite : BitVec 32 := 0x40000000
def fileGenericRead : BitVec 32 := 0x120089
def fileGenericWrite : BitVec 32 := 0x120116
def fileWriteData : BitVec 32 := 0x2

def createNew : BitVec 32 := 1
def createAlways : BitVec 32 := 2
def openExisting : BitVec 32 := 3
def openAlways : BitVec 32 := 4
def truncateExisting : BitVec 32 := 5

/-- `enum FFFILE_OPEN` on Windows. -/
def winCreate : BitVec 32 := openAlways <<< 4
def winCreatenew : BitVec 32 := createNew <<< 4
def winReadonly : BitVec 32 := genericRead >>> 20
def winWriteonly : BitVec 32 := genericWrite >>> 20
def winReadwrite : BitVec 32 := (genericRead ||| genericWrite) >>> 20
def winTruncate : BitVec 32 := 0x1000
def winNodosname : BitVec 32 := 0x2000
def winAppend : BitVec 32 := 0x4000

/-- The value of a mode on Windows. -/
def Mode.winFlags (mode : Mode) : BitVec 32 :=
  (match mode.creation with
    | .existing => 0
    | .create => winCreate
    | .createnew => winCreatenew) |||
  (match mode.access with
    | .writeonly => winWriteonly
    | .readwrite => winReadwrite) |||
  (if mode.truncate then winTruncate else 0)

inductive WinError where
  | fileNotFound
  | fileExists
  | invalidParameter
deriving DecidableEq, Repr

section Windows

variable {Wide : Type} [DecidableEq Wide]

/-- The arguments of `CreateFileW` that are not NULL. -/
structure CreateArgs (Wide : Type) where
  name : Wide
  access : BitVec 32
  share : BitVec 32
  creation : BitVec 32
  flags : BitVec 32

/-- `CreateFileW`: a handle to the file, and the files after the call.
TRUNCATE_EXISTING asks for write access. -/
def createFileW (files : Files Wide) (args : CreateArgs Wide) :
    Except WinError Wide × Files Wide :=
  let emptied := Function.update files args.name (some [])
  if args.creation = createNew then
    match files args.name with
    | none => (.ok args.name, emptied)
    | some _ => (.error .fileExists, files)
  else if args.creation = createAlways then (.ok args.name, emptied)
  else if args.creation = openExisting then
    match files args.name with
    | none => (.error .fileNotFound, files)
    | some _ => (.ok args.name, files)
  else if args.creation = openAlways then
    match files args.name with
    | none => (.ok args.name, emptied)
    | some _ => (.ok args.name, files)
  else if args.creation = truncateExisting then
    if args.access &&& genericWrite = 0 then (.error .invalidParameter, files)
    else
      match files args.name with
      | none => (.error .fileNotFound, files)
      | some _ => (.ok args.name, emptied)
  else (.error .invalidParameter, files)

section Dispositions

variable {args : CreateArgs Wide} (files : Files Wide)

theorem createFileW_createNew (disposition : args.creation = createNew) :
    createFileW files args =
      if files args.name = none then (.ok args.name, Function.update files args.name (some []))
      else (.error .fileExists, files) := by
  rw [createFileW, if_pos disposition]
  cases files args.name <;> rfl

theorem createFileW_openExisting (disposition : args.creation = openExisting) :
    createFileW files args =
      if files args.name = none then (.error .fileNotFound, files) else (.ok args.name, files) := by
  have others : openExisting ≠ createNew ∧ openExisting ≠ createAlways := by decide
  rw [createFileW, disposition, if_neg others.1, if_neg others.2, if_pos rfl]
  cases files args.name <;> rfl

theorem createFileW_openAlways (disposition : args.creation = openAlways) :
    createFileW files args =
      if files args.name = none then (.ok args.name, Function.update files args.name (some []))
      else (.ok args.name, files) := by
  have others : openAlways ≠ createNew ∧ openAlways ≠ createAlways ∧ openAlways ≠ openExisting := by
    decide
  rw [createFileW, disposition, if_neg others.1, if_neg others.2.1, if_neg others.2.2, if_pos rfl]
  cases files args.name <;> rfl

theorem createFileW_truncateExisting (disposition : args.creation = truncateExisting)
    (access : args.access &&& genericWrite ≠ 0) :
    createFileW files args =
      if files args.name = none then (.error .fileNotFound, files)
      else (.ok args.name, Function.update files args.name (some [])) := by
  have others : truncateExisting ≠ createNew ∧ truncateExisting ≠ createAlways ∧
      truncateExisting ≠ openExisting ∧ truncateExisting ≠ openAlways := by decide
  rw [createFileW, disposition, if_neg others.1, if_neg others.2.1, if_neg others.2.2.1,
    if_neg others.2.2.2, if_pos rfl, if_neg access]
  cases files args.name <;> rfl

end Dispositions

/-- `creation` as the Windows body computes it. -/
def winCreation (flags : BitVec 32) : BitVec 32 :=
  let creation := (flags &&& 0xf0) >>> 4
  if flags &&& winTruncate ≠ 0 ∧ creation ≠ winCreatenew then truncateExisting
  else if creation = 0 then openExisting
  else creation

/-- `access` as the Windows body computes it. -/
def winAccess (flags : BitVec 32) : BitVec 32 :=
  if flags &&& winAppend ≠ 0 then
    (if flags &&& winReadonly ≠ 0 then fileGenericRead else 0) |||
      (if flags &&& winWriteonly ≠ 0 then fileGenericWrite &&& ~~~fileWriteData else 0)
  else (flags &&& 0x0f00) <<< 20

/-- FILE_SHARE_READ | FILE_SHARE_WRITE | FILE_SHARE_DELETE. -/
def winShare : BitVec 32 := 0x7

/-- FILE_ATTRIBUTE_NORMAL, the flags of the caller and FILE_FLAG_BACKUP_SEMANTICS. -/
def winAttr (flags : BitVec 32) : BitVec 32 :=
  0x80 ||| (flags &&& 0x0f) ||| (flags &&& 0xffff0000) ||| 0x02000000

/-- `fffile_open` on Windows: the file of the handle, or none for FFFILE_NULL.
`longName` says for which names `GetLongPathNameW` returns the same name. -/
def fffileOpenWindows {Name : Type} (utow : Name → Option Wide) (longName : Wide → Bool)
    (files : Files Wide) (name : Name) (flags : BitVec 32) : Option Wide × Files Wide :=
  match utow name with
  | none => (none, files)
  | some w =>
      if flags &&& winNodosname ≠ 0 ∧ longName w = false then (none, files)
      else
        let args : CreateArgs Wide :=
          ⟨w, winAccess flags, winShare, winCreation flags, winAttr flags⟩
        match createFileW files args with
        | (.ok fd, files) => (some fd, files)
        | (.error error, files) =>
            if error = .fileNotFound ∧
                flags &&& (winTruncate ||| 0xf0) = winTruncate ||| winCreate then
              let (fd, files) := createFileW files { args with creation := createNew }
              (fd.toOption, files)
            else (none, files)

end Windows

/-! ### UNIX -/

/-- The values of `O_...` differ from one UNIX to the other. -/
inductive Unix where
  | linux
  | bsd
deriving DecidableEq, Repr

def oWronly : BitVec 32 := 0x1
def oRdwr : BitVec 32 := 0x2

def oCreat : Unix → BitVec 32
  | .linux => 0x40
  | .bsd => 0x200

def oExcl : Unix → BitVec 32
  | .linux => 0x80
  | .bsd => 0x800

def oTrunc : Unix → BitVec 32
  | .linux => 0x200
  | .bsd => 0x400

/-- Linux only. -/
def oLargefile : BitVec 32 := 0x8000
def oNoatime : BitVec 32 := 0x40000

/-- The value of a mode on UNIX. -/
def Mode.unixFlags (unix : Unix) (mode : Mode) : BitVec 32 :=
  (match mode.creation with
    | .existing => 0
    | .create => oCreat unix
    | .createnew => oCreat unix ||| oExcl unix) |||
  (match mode.access with
    | .writeonly => oWronly
    | .readwrite => oRdwr) |||
  (if mode.truncate then oTrunc unix else 0)

inductive Errno where
  | enoent
  | eexist
  | eperm
deriving DecidableEq, Repr

section Unix

variable {Name : Type} [DecidableEq Name]

/-- `open`: a descriptor of the file, and the files after the call. -/
def openUnix (unix : Unix) (files : Files Name) (name : Name) (flags : BitVec 32) :
    Except Errno Name × Files Name :=
  let emptied := Function.update files name (some [])
  match files name with
  | none =>
      if flags &&& oCreat unix ≠ 0 then (.ok name, emptied) else (.error .enoent, files)
  | some _ =>
      if flags &&& oCreat unix ≠ 0 ∧ flags &&& oExcl unix ≠ 0 then (.error .eexist, files)
      else if flags &&& oTrunc unix ≠ 0 then (.ok name, emptied)
      else (.ok name, files)

/-- `fffile_open` on UNIX; Linux adds O_LARGEFILE, and tries again without
O_NOATIME. -/
def fffileOpenUnix (unix : Unix) (files : Files Name) (name : Name) (flags : BitVec 32) :
    Option Name × Files Name :=
  match unix with
  | .linux =>
      let flags := flags ||| oLargefile
      match openUnix .linux files name flags with
      | (.ok fd, files) => (some fd, files)
      | (.error error, files) =>
          if error = .eperm ∧ flags &&& oNoatime ≠ 0 then
            let (fd, files) := openUnix .linux files name (flags &&& ~~~oNoatime)
            (fd.toOption, files)
          else (none, files)
  | .bsd =>
      let (fd, files) := openUnix .bsd files name flags
      (fd.toOption, files)

end Unix

/-! ### Calls and writes -/

/-- The files, and for each call so far the file that its handle is of. -/
structure Disk (Name : Type) where
  files : Files Name
  handles : List (Option Name)

/-- A write of `data` at an offset of a file; a gap before it reads as zeros. -/
def overlay (content : List Byte) (off : Nat) (data : List Byte) : List Byte :=
  if data = [] then content
  else (content ++ List.replicate (off - content.length) 0).take off ++ data ++
    content.drop (off + data.length)

/-- A call of `fffile_open`, or a write through the handle of an earlier call: `data`
goes to the offset `off`, the position of the handle or any other. -/
inductive Event (Name : Type) where
  | openFile (name : Name) (mode : Mode)
  | write (call : Nat) (data : List Byte) (off : Nat)

section Disk

variable {Name Wide : Type} [DecidableEq Name] [DecidableEq Wide]

/-- The disk after a call of `fffile_open` with its result. -/
def Disk.opened (disk : Disk Name) (result : Option Name × Files Name) : Disk Name where
  files := result.2
  handles := disk.handles ++ [result.1]

/-- A write through the handle of a call. A call that failed has none. -/
def Disk.write (disk : Disk Name) (call : Nat) (data : List Byte) (off : Nat) : Disk Name :=
  match disk.handles[call]? with
  | some (some name) =>
      let written := (disk.files name).map fun content => overlay content off data
      { disk with files := Function.update disk.files name written }
  | _ => disk

def stepUnix (unix : Unix) (disk : Disk Name) : Event Name → Disk Name
  | .openFile name mode =>
      disk.opened (fffileOpenUnix unix disk.files name (mode.unixFlags unix))
  | .write call data off => disk.write call data off

def stepWindows (utow : Name → Option Wide) (longName : Wide → Bool) (disk : Disk Wide) :
    Event Name → Disk Wide
  | .openFile name mode =>
      disk.opened (fffileOpenWindows utow longName disk.files name mode.winFlags)
  | .write call data off => disk.write call data off

end Disk

end Ffos.File
