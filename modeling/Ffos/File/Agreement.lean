/-
Module: Ffos.File.Agreement
Purpose: The two bodies of `fffile_open` against the contract of FFOS/file.h, call by
  call, and when they have the same effect in every run.
Trusted boundary: none
Main exports: Mode.opens, contract, fffileOpenUnix_contract, fffileOpenWindows_contract,
  Agree, open_agree_iff
-/
import Ffos.File.Open
import Mathlib.Data.List.Forall2

namespace Ffos.File

open Ffos.Lib

/-! ### The contract -/

/-- What a call makes of the file: its content after a call that succeeds, or none
for a call that fails. -/
def Mode.opens (mode : Mode) : Option (List Byte) → Option (List Byte)
  | none => if mode.creation = .existing then none else some []
  | some content =>
      if mode.creation = .createnew then none
      else if mode.truncate then some [] else some content

/-- The contract of `fffile_open`: the file opened, if any, and the files after it. -/
def contract {Name : Type} [DecidableEq Name] (files : Files Name) (name : Name) (mode : Mode) :
    Option Name × Files Name :=
  match mode.opens (files name) with
  | none => (none, files)
  | some content => (some name, Function.update files name (some content))

section Unix

variable {Name : Type} [DecidableEq Name]

/-- The bits that `open` looks at, with or without O_LARGEFILE. -/
theorem unixFlags_bits (unix : Unix) (mode : Mode) {flags : BitVec 32}
    (shape : flags = mode.unixFlags unix ∨
      unix = .linux ∧ flags = mode.unixFlags unix ||| oLargefile) :
    (flags &&& oCreat unix ≠ 0 ↔ mode.creation ≠ .existing) ∧
      (flags &&& oExcl unix ≠ 0 ↔ mode.creation = .createnew) ∧
      (flags &&& oTrunc unix ≠ 0 ↔ mode.truncate = true) := by
  obtain ⟨creation, access, truncate⟩ := mode
  rcases shape with rfl | ⟨rfl, rfl⟩
  · cases unix <;> cases creation <;> cases access <;> cases truncate <;> decide
  · cases creation <;> cases access <;> cases truncate <;> decide

/-- `open` with these bits does what the contract says, and never fails with EPERM. -/
theorem openUnix_contract (unix : Unix) (files : Files Name) (name : Name) (mode : Mode)
    {flags : BitVec 32}
    (creat : flags &&& oCreat unix ≠ 0 ↔ mode.creation ≠ .existing)
    (excl : flags &&& oExcl unix ≠ 0 ↔ mode.creation = .createnew)
    (trunc : flags &&& oTrunc unix ≠ 0 ↔ mode.truncate = true) :
    (∃ error, error ≠ .eperm ∧ contract files name mode = (none, files) ∧
        openUnix unix files name flags = (.error error, files)) ∨
      (∃ after, contract files name mode = (some name, after) ∧
        openUnix unix files name flags = (.ok name, after)) := by
  cases present : files name with
  | none =>
    by_cases existing : mode.creation = .existing
    · left
      refine ⟨.enoent, by decide, ?_, ?_⟩
      · simp only [contract, present, Mode.opens, if_pos existing]
      · simp only [openUnix, present, if_neg fun bit => creat.mp bit existing]
    · right
      refine ⟨Function.update files name (some []), ?_, ?_⟩
      · simp only [contract, present, Mode.opens, if_neg existing]
      · simp only [openUnix, present, if_pos (creat.mpr existing)]
  | some content =>
    by_cases createnew : mode.creation = .createnew
    · left
      have both : flags &&& oCreat unix ≠ 0 ∧ flags &&& oExcl unix ≠ 0 :=
        ⟨creat.mpr (by rw [createnew]; decide), excl.mpr createnew⟩
      refine ⟨.eexist, by decide, ?_, ?_⟩
      · simp only [contract, present, Mode.opens, if_pos createnew]
      · simp only [openUnix, present, if_pos both]
    · right
      have notBoth : ¬ (flags &&& oCreat unix ≠ 0 ∧ flags &&& oExcl unix ≠ 0) :=
        fun both => createnew (excl.mp both.2)
      by_cases truncate : mode.truncate = true
      · refine ⟨Function.update files name (some []), ?_, ?_⟩
        · simp only [contract, present, Mode.opens, if_neg createnew, if_pos truncate]
        · simp only [openUnix, present, if_neg notBoth, if_pos (trunc.mpr truncate)]
      · refine ⟨files, ?_, ?_⟩
        · simp only [contract, present, Mode.opens, if_neg createnew, if_neg truncate]
          rw [← present, Function.update_eq_self]
        · simp only [openUnix, present, if_neg notBoth, if_neg fun bit => truncate (trunc.mp bit)]

/-- The UNIX body meets the contract. -/
theorem fffileOpenUnix_contract (unix : Unix) (files : Files Name) (name : Name) (mode : Mode) :
    fffileOpenUnix unix files name (mode.unixFlags unix) = contract files name mode := by
  cases unix with
  | linux =>
    obtain ⟨creat, excl, trunc⟩ := unixFlags_bits .linux mode (Or.inr ⟨rfl, rfl⟩)
    rcases openUnix_contract .linux files name mode creat excl trunc with
      ⟨error, notPerm, failed, call⟩ | ⟨after, succeeded, call⟩
    · have noRetry : ¬ (error = .eperm ∧
          (mode.unixFlags .linux ||| oLargefile) &&& oNoatime ≠ 0) := fun both => notPerm both.1
      simp only [fffileOpenUnix, call, failed, if_neg noRetry]
    · simp only [fffileOpenUnix, call, succeeded]
  | bsd =>
    obtain ⟨creat, excl, trunc⟩ := unixFlags_bits .bsd mode (Or.inl rfl)
    rcases openUnix_contract .bsd files name mode creat excl trunc with
      ⟨error, _, failed, call⟩ | ⟨after, succeeded, call⟩
    · simp only [fffileOpenUnix, call, failed, Except.toOption]
    · simp only [fffileOpenUnix, call, succeeded, Except.toOption]

end Unix

/-! ### The Windows body -/

/-- The modes for which the disposition is right: the comparison that should keep
FFFILE_CREATENEW from becoming TRUNCATE_EXISTING never does. -/
def Mode.Portable (mode : Mode) : Prop := ¬ (mode.creation = .createnew ∧ mode.truncate = true)

instance (mode : Mode) : Decidable mode.Portable := by
  unfold Mode.Portable
  infer_instance

/-- The disposition and the bits that decide a call. -/
theorem winFlags_bits (mode : Mode) :
    winCreation mode.winFlags =
        (if mode.truncate then truncateExisting
        else match mode.creation with
          | .existing => openExisting
          | .create => openAlways
          | .createnew => createNew) ∧
      winAccess mode.winFlags &&& genericWrite ≠ 0 ∧
      mode.winFlags &&& winNodosname = 0 ∧
      (mode.winFlags &&& (winTruncate ||| 0xf0) = winTruncate ||| winCreate ↔
        mode.creation = .create ∧ mode.truncate = true) := by
  obtain ⟨creation, access, truncate⟩ := mode
  cases creation <;> cases access <;> cases truncate <;> decide

section Windows

variable {Name Wide : Type} [DecidableEq Wide] {utow : Name → Option Wide} {name : Name}
  {wide : Wide}

/-- With FFFILE_TRUNCATE: an existing file is emptied, whatever the creation mode, and
a missing one is created for FFFILE_CREATE alone. -/
theorem fffileOpenWindows_truncate (converted : utow name = some wide) (longName : Wide → Bool)
    (files : Files Wide) {mode : Mode} (truncate : mode.truncate = true) :
    fffileOpenWindows utow longName files name mode.winFlags =
      if files wide = none ∧ mode.creation ≠ .create then (none, files)
      else (some wide, Function.update files wide (some [])) := by
  obtain ⟨disposition, access, nodosname, retry⟩ := winFlags_bits mode
  rw [if_pos truncate] at disposition
  have longNames : ¬ (mode.winFlags &&& winNodosname ≠ 0 ∧ longName wide = false) :=
    fun both => both.1 nodosname
  have emptied := @createFileW_truncateExisting _ _ ⟨wide, winAccess mode.winFlags, winShare,
    winCreation mode.winFlags, winAttr mode.winFlags⟩ files disposition access
  cases present : files wide with
  | some content =>
    rw [present, if_neg (Option.some_ne_none content)] at emptied
    simp only [fffileOpenWindows, converted, if_neg longNames, emptied, reduceCtorEq, false_and,
      if_false]
  | none =>
    rw [present, if_pos rfl] at emptied
    by_cases create : mode.creation = .create
    · have created := @createFileW_createNew _ _ ⟨wide, winAccess mode.winFlags, winShare,
        createNew, winAttr mode.winFlags⟩ files rfl
      rw [present, if_pos rfl] at created
      simp only [fffileOpenWindows, converted, if_neg longNames, emptied, created, retry, create,
        truncate, and_self, if_true, ne_eq, not_true, and_false, if_false, Except.toOption]
    · simp only [fffileOpenWindows, converted, if_neg longNames, emptied, retry, create, false_and,
        and_false, if_false, ne_eq, not_false_iff, and_self, if_true]

/-- Without it there is one call of `CreateFileW`. -/
theorem fffileOpenWindows_once (converted : utow name = some wide) (longName : Wide → Bool)
    (files : Files Wide) {mode : Mode} (keep : mode.truncate = false) :
    fffileOpenWindows utow longName files name mode.winFlags =
      let call := createFileW files ⟨wide, winAccess mode.winFlags, winShare,
        winCreation mode.winFlags, winAttr mode.winFlags⟩
      (call.1.toOption, call.2) := by
  obtain ⟨_, _, nodosname, retry⟩ := winFlags_bits mode
  have longNames : ¬ (mode.winFlags &&& winNodosname ≠ 0 ∧ longName wide = false) :=
    fun both => both.1 nodosname
  simp only [fffileOpenWindows, converted, if_neg longNames]
  generalize createFileW files _ = call
  obtain ⟨result, after⟩ := call
  cases result with
  | ok fd => rfl
  | error error =>
    have noRetry : ¬ (error = .fileNotFound ∧
        mode.winFlags &&& (winTruncate ||| 0xf0) = winTruncate ||| winCreate) := by
      rintro ⟨_, both⟩
      have truncate := (retry.mp both).2
      rw [keep] at truncate
      cases truncate
    simp only [if_neg noRetry, Except.toOption]

/-- The disposition of the creation mode does what the contract says. -/
theorem fffileOpenWindows_keep (converted : utow name = some wide) (longName : Wide → Bool)
    (files : Files Wide) {mode : Mode} (keep : mode.truncate = false) :
    fffileOpenWindows utow longName files name mode.winFlags = contract files wide mode := by
  obtain ⟨disposition, _⟩ := winFlags_bits mode
  rw [if_neg (by rw [keep]; decide)] at disposition
  rw [fffileOpenWindows_once converted longName files keep]
  have unchanged : ∀ content, files wide = some content →
      Function.update files wide (some content) = files := by
    intro content present
    rw [← present, Function.update_eq_self]
  cases creation : mode.creation with
  | existing =>
    rw [creation] at disposition
    rw [createFileW_openExisting files disposition]
    cases present : files wide with
    | none => simp [present, contract, Mode.opens, creation, Except.toOption]
    | some content => simp [present, contract, Mode.opens, creation, keep,
        unchanged content present, Except.toOption]
  | create =>
    rw [creation] at disposition
    rw [createFileW_openAlways files disposition]
    cases present : files wide with
    | none => simp [present, contract, Mode.opens, creation, Except.toOption]
    | some content => simp [present, contract, Mode.opens, creation, keep,
        unchanged content present, Except.toOption]
  | createnew =>
    rw [creation] at disposition
    rw [createFileW_createNew files disposition]
    cases present : files wide with
    | none => simp [present, contract, Mode.opens, creation, Except.toOption]
    | some content => simp [present, contract, Mode.opens, creation, Except.toOption]

/-- The Windows body meets the contract for every mode but FFFILE_CREATENEW with
FFFILE_TRUNCATE. -/
theorem fffileOpenWindows_contract (converted : utow name = some wide) (longName : Wide → Bool)
    (files : Files Wide) {mode : Mode} (portable : mode.Portable) :
    fffileOpenWindows utow longName files name mode.winFlags = contract files wide mode := by
  cases truncate : mode.truncate with
  | false => exact fffileOpenWindows_keep converted longName files truncate
  | true =>
    have notNew : mode.creation ≠ .createnew := fun createnew => portable ⟨createnew, truncate⟩
    rw [fffileOpenWindows_truncate converted longName files truncate]
    cases present : files wide with
    | some content => simp [contract, present, Mode.opens, notNew, truncate]
    | none =>
      cases creation : mode.creation with
      | existing => simp [contract, present, Mode.opens, creation]
      | create => simp [contract, present, Mode.opens, creation]
      | createnew => exact absurd creation notNew

/-- For that mode it succeeds exactly where the contract fails. -/
theorem fffileOpenWindows_not_contract (converted : utow name = some wide)
    (longName : Wide → Bool) (files : Files Wide) {mode : Mode} (wrong : ¬ mode.Portable) :
    (fffileOpenWindows utow longName files name mode.winFlags).1.isSome ≠
      (contract files wide mode).1.isSome := by
  obtain ⟨createnew, truncate⟩ := Classical.not_not.mp wrong
  rw [fffileOpenWindows_truncate converted longName files truncate]
  cases present : files wide with
  | none => simp [contract, present, Mode.opens, createnew]
  | some content => simp [contract, present, Mode.opens, createnew]

end Windows

/-! ### Whole runs -/

section Runs

variable {Name Wide : Type} [DecidableEq Name] [DecidableEq Wide]

/-- What is asked of `ffsz_alloc_buf_utow`: every name converts, and different names
to different names. -/
structure Converts (utow : Name → Option Wide) : Prop where
  total : ∀ name, ∃ wide, utow name = some wide
  injective : ∀ first second wide, utow first = some wide → utow second = some wide → first = second

/-- The same files exist, with the same contents. -/
def SameFiles (utow : Name → Option Wide) (files : Files Name) (wideFiles : Files Wide) : Prop :=
  ∀ name wide, utow name = some wide → wideFiles wide = files name

/-- The calls so far succeeded or failed alike, and the files are the same. -/
structure SameEffect (utow : Name → Option Wide) (unix : Disk Name) (windows : Disk Wide) :
    Prop where
  results : unix.handles.map Option.isSome = windows.handles.map Option.isSome
  files : SameFiles utow unix.files windows.files

/-- A call with FFFILE_CREATENEW neither opens nor changes a file that exists. -/
def Spares (before after : Disk Name) (name : Name) (mode : Mode) : Prop :=
  mode.creation = .createnew → before.files name ≠ none →
    after.handles = before.handles ++ [none] ∧ after.files = before.files

/-- The two bodies side by side: after each event the effect is the same, and no call
with FFFILE_CREATENEW touches an existing file. -/
def Agree (os : Unix) (utow : Name → Option Wide) (longName : Wide → Bool) :
    Disk Name → Disk Wide → List (Event Name) → Prop
  | _, _, [] => True
  | unix, windows, event :: rest =>
      let unix' := stepUnix os unix event
      let windows' := stepWindows utow longName windows event
      SameEffect utow unix' windows' ∧
        (∀ name mode wide, event = .openFile name mode → utow name = some wide →
          Spares unix unix' name mode ∧ Spares windows windows' wide mode) ∧
        Agree os utow longName unix' windows' rest

/-- No call combines FFFILE_CREATENEW with FFFILE_TRUNCATE. -/
def Event.Portable : Event Name → Prop
  | .openFile _ mode => mode.Portable
  | .write _ _ _ => True

/-- The invariant of a run: the files are the same, and so are the files of the
handles. -/
structure Related (utow : Name → Option Wide) (unix : Disk Name) (windows : Disk Wide) :
    Prop where
  handles : List.Forall₂ (Option.Rel fun name wide => utow name = some wide)
    unix.handles windows.handles
  files : SameFiles utow unix.files windows.files

variable {utow : Name → Option Wide} {unix : Disk Name} {windows : Disk Wide}

omit [DecidableEq Name] [DecidableEq Wide] in
theorem isSome_eq_of_rel {first : Option Name} {second : Option Wide}
    (rel : Option.Rel (fun name wide => utow name = some wide) first second) :
    first.isSome = second.isSome := by
  cases rel with
  | some _ => rfl
  | none => rfl

omit [DecidableEq Name] [DecidableEq Wide] in
theorem Related.sameEffect (related : Related utow unix windows) :
    SameEffect utow unix windows := by
  refine ⟨?_, related.files⟩
  have pointwise : List.Forall₂ Eq (unix.handles.map Option.isSome)
      (windows.handles.map Option.isSome) := by
    rw [List.forall₂_map_left_iff, List.forall₂_map_right_iff]
    exact related.handles.imp fun _ _ => isSome_eq_of_rel
  rwa [List.forall₂_eq_eq_eq] at pointwise

/-- The same content at the same name keeps the files the same. -/
theorem SameFiles.update (converts : Converts utow) {files : Files Name} {wideFiles : Files Wide}
    (same : SameFiles utow files wideFiles) {name : Name} {wide : Wide}
    (converted : utow name = some wide) (content : Option (List Byte)) :
    SameFiles utow (Function.update files name content)
      (Function.update wideFiles wide content) := by
  intro other otherWide otherConverted
  by_cases equal : other = name
  · subst equal
    obtain rfl := Option.some.inj (converted.symm.trans otherConverted)
    rw [Function.update_self, Function.update_self]
  · have wideDiffers : otherWide ≠ wide := by
      rintro rfl
      exact equal (converts.injective other name otherWide otherConverted converted)
    rw [Function.update_of_ne equal, Function.update_of_ne wideDiffers]
    exact same other otherWide otherConverted

/-- The contract means the same for both names of a file. -/
theorem contract_related (converts : Converts utow) {files : Files Name}
    {wideFiles : Files Wide} (same : SameFiles utow files wideFiles) {name : Name} {wide : Wide}
    (converted : utow name = some wide) (mode : Mode) :
    Option.Rel (fun name wide => utow name = some wide) (contract files name mode).1
        (contract wideFiles wide mode).1 ∧
      SameFiles utow (contract files name mode).2 (contract wideFiles wide mode).2 := by
  unfold contract
  rw [same name wide converted]
  cases mode.opens (files name) with
  | none => exact ⟨Option.Rel.none, same⟩
  | some content => exact ⟨Option.Rel.some converted, same.update converts converted _⟩

/-- Both bodies with a portable mode keep the invariant. -/
theorem Related.opened (converts : Converts utow) (related : Related utow unix windows)
    {name : Name} {wide : Wide} (converted : utow name = some wide) (mode : Mode) :
    Related utow (unix.opened (contract unix.files name mode))
      (windows.opened (contract windows.files wide mode)) := by
  obtain ⟨result, files⟩ := contract_related converts related.files converted mode
  exact ⟨List.rel_append related.handles (List.Forall₂.cons result List.Forall₂.nil), files⟩

omit [DecidableEq Name] [DecidableEq Wide] in
/-- Related lists are related at every index. -/
theorem rel_getElem? {first : List (Option Name)} {second : List (Option Wide)}
    {R : Option Name → Option Wide → Prop} (pointwise : List.Forall₂ R first second) (i : Nat) :
    Option.Rel R first[i]? second[i]? := by
  induction pointwise generalizing i with
  | nil => exact Option.Rel.none
  | cons rel _ inductionHypothesis =>
    cases i with
    | zero => exact Option.Rel.some rel
    | succ i => exact inductionHypothesis i

/-- So does a write. -/
theorem Related.write (converts : Converts utow) (related : Related utow unix windows)
    (call : Nat) (data : List Byte) (off : Nat) :
    Related utow (unix.write call data off) (windows.write call data off) := by
  have handle := rel_getElem? related.handles call
  unfold Disk.write
  generalize unix.handles[call]? = first at handle ⊢
  generalize windows.handles[call]? = second at handle ⊢
  cases handle with
  | none => exact related
  | some same =>
    cases same with
    | none => exact related
    | some converted =>
      refine ⟨related.handles, ?_⟩
      dsimp only
      rw [related.files _ _ converted]
      exact related.files.update converts converted _

/-- One event of both bodies. -/
theorem Related.step (converts : Converts utow) (related : Related utow unix windows) (os : Unix)
    (longName : Wide → Bool) {event : Event Name} (portable : event.Portable) :
    Related utow (stepUnix os unix event) (stepWindows utow longName windows event) := by
  cases event with
  | openFile name mode =>
    obtain ⟨wide, converted⟩ := converts.total name
    rw [stepUnix, stepWindows, fffileOpenUnix_contract,
      fffileOpenWindows_contract converted longName _ portable]
    exact related.opened converts converted mode
  | write call data off => exact related.write converts call data off

/-- A call with FFFILE_CREATENEW that meets the contract spares an existing file. -/
theorem contract_spares {Key : Type} [DecidableEq Key] (disk : Disk Key) (name : Key)
    (mode : Mode) : Spares disk (disk.opened (contract disk.files name mode)) name mode := by
  intro createnew exists_
  obtain ⟨content, present⟩ := Option.ne_none_iff_exists'.mp exists_
  simp only [contract, present, Mode.opens, if_pos createnew, Disk.opened, and_self]

/-- The two bodies part at a call that is not portable. -/
theorem not_sameEffect_of_not_portable (converts : Converts utow)
    (related : Related utow unix windows) (os : Unix) (longName : Wide → Bool)
    {event : Event Name} (wrong : ¬ event.Portable) :
    ¬ SameEffect utow (stepUnix os unix event) (stepWindows utow longName windows event) := by
  intro same
  cases event with
  | write call data off => exact wrong trivial
  | openFile name mode =>
    obtain ⟨wide, converted⟩ := converts.total name
    have results := same.results
    rw [stepUnix, stepWindows, fffileOpenUnix_contract, Disk.opened, Disk.opened,
      List.map_append, List.map_append, related.sameEffect.results] at results
    have last := List.append_cancel_left results
    have agreed := (contract_related converts related.files converted mode).1
    apply fffileOpenWindows_not_contract converted longName windows.files wrong
    rw [← isSome_eq_of_rel agreed]
    exact (List.cons.inj last).1.symm

/-- From related disks the bodies agree along a run if and only if every call of it is
portable. -/
theorem agree_iff_of_related (converts : Converts utow) (os : Unix) (longName : Wide → Bool)
    (events : List (Event Name)) (related : Related utow unix windows) :
    Agree os utow longName unix windows events ↔ ∀ event ∈ events, event.Portable := by
  induction events generalizing unix windows with
  | nil => simp [Agree]
  | cons event rest inductionHypothesis =>
    rw [Agree, List.forall_mem_cons]
    by_cases portable : event.Portable
    · have after := related.step converts os longName portable
      rw [inductionHypothesis after]
      constructor
      · rintro ⟨_, _, later⟩
        exact ⟨portable, later⟩
      · rintro ⟨_, later⟩
        refine ⟨after.sameEffect, ?_, later⟩
        rintro name mode wide rfl converted
        rw [stepUnix, stepWindows, fffileOpenUnix_contract,
          fffileOpenWindows_contract converted longName _ portable]
        exact ⟨contract_spares unix name mode, contract_spares windows wide mode⟩
    · constructor
      · rintro ⟨same, _⟩
        exact absurd same (not_sameEffect_of_not_portable converts related os longName portable)
      · rintro ⟨now, _⟩
        exact absurd now portable

/-- On one directory, the two bodies of `fffile_open` have the same effect at every
call of a run if and only if no call combines FFFILE_CREATENEW with FFFILE_TRUNCATE. -/
theorem open_agree_iff (converts : Converts utow) (os : Unix) (longName : Wide → Bool)
    {files : Files Name} {wideFiles : Files Wide} (same : SameFiles utow files wideFiles)
    (events : List (Event Name)) :
    Agree os utow longName ⟨files, []⟩ ⟨wideFiles, []⟩ events ↔
      ∀ event ∈ events, event.Portable :=
  agree_iff_of_related converts os longName events ⟨List.Forall₂.nil, same⟩

/-- A directory with one file, under the same names on both systems. -/
def oneFile : Files Nat := fun name => if name = 0 then some [1, 2] else none

/-- The file is emptied and written to, and another one is created, once. -/
theorem open_agree_overwrite :
    Agree .linux some (fun _ => true) ⟨oneFile, []⟩ ⟨oneFile, []⟩
      [.openFile 0 ⟨.create, .writeonly, true⟩, .write 0 [7, 8] 0,
        .openFile 1 ⟨.createnew, .readwrite, false⟩, .write 1 [9] 4,
        .openFile 1 ⟨.createnew, .readwrite, false⟩] := by
  refine (open_agree_iff ⟨fun name => ⟨name, rfl⟩, ?_⟩ .linux _ ?_ _).mpr ?_
  · intro first second wide one two
    exact Option.some.inj (one.trans two.symm)
  · intro name wide converted
    rw [Option.some.inj converted]
  · simp [Event.Portable, Mode.Portable]

/-- FFFILE_CREATENEW with FFFILE_TRUNCATE on the existing file: Windows opens it and
empties it, UNIX fails and leaves it. -/
theorem createnew_truncate_empties_existing :
    (fffileOpenWindows some (fun _ => true) oneFile 0
        (Mode.winFlags ⟨.createnew, .writeonly, true⟩)).1 = some 0 ∧
      (fffileOpenWindows some (fun _ => true) oneFile 0
        (Mode.winFlags ⟨.createnew, .writeonly, true⟩)).2 0 = some [] ∧
      (fffileOpenUnix .linux oneFile 0
        (Mode.unixFlags .linux ⟨.createnew, .writeonly, true⟩)).1 = none ∧
      ¬ Agree .linux some (fun _ => true) ⟨oneFile, []⟩ ⟨oneFile, []⟩
        [.openFile 0 ⟨.createnew, .writeonly, true⟩] := by
  refine ⟨by decide, by decide, by decide, ?_⟩
  rintro ⟨same, _⟩
  exact absurd same.results (by decide)

end Runs

end Ffos.File
