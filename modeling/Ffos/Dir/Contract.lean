/-
Module: Ffos.Dir.Contract
Purpose: When `ffdir_make_all` returns 0 exactly for a path that is a directory on return,
  on UNIX and on Windows.
Trusted boundary: `ffsz_alloc_buf_utow` keeps a string non-empty
Main exports: Good, Correct, UnixCorrect, WindowsCorrect, make_all_correct_iff
-/
import Ffos.Dir.MakeAll

namespace Ffos.Dir

open Ffos.Lib

/-! ### What is asked of `ffdir_make_all` -/

/-- What one call should leave: 0 exactly if the target is a directory, nothing new but
directories on the way to it, the string as it was, and 0 again from a second call. -/
structure Good {Name : Type} (makeAll : FileTree Name → List Byte → Option (Outcome Name))
    (tree : FileTree Name) (path : List Byte) (target : Option (List Name))
    (outcome : Outcome Name) : Prop where
  result : outcome.ret = 0 ↔ ∃ place ∈ target, outcome.tree.node place = some .dir
  frame : ∀ place, outcome.tree.node place = tree.node place ∨
    (tree.node place = none ∧ outcome.tree.node place = some .dir ∧
      ∃ whole ∈ target, place <+: whole)
  restored : outcome.path = path
  again : outcome.ret = 0 →
    ∃ second, makeAll outcome.tree outcome.path = some second ∧ second.ret = 0

/-- `ffdir_make_all` returns and leaves what it should, and `ffdir_make_path` on the same
string returns and leaves the string as it was. -/
structure Correct {Name : Type} (makeAll makePath : FileTree Name → List Byte →
    Option (Outcome Name)) (tree : FileTree Name) (path : List Byte)
    (target : Option (List Name)) : Prop where
  makeAllGood : ∃ outcome, makeAll tree path = some outcome ∧ Good makeAll tree path target outcome
  makePathRestores : ∃ outcome, makePath tree path = some outcome ∧ outcome.path = path

/-- The two functions do what is asked of them on UNIX, for a path in memory. -/
def UnixCorrect (cwd : List (List Byte)) (tree : FileTree (List Byte)) (path : Text 8)
    (tail : List Byte) (off : Nat) : Prop :=
  Correct (ffdirMakeAllUnix cwd off) (ffdirMakePathUnix cwd off) tree (path.chars ++ 0 :: tail)
    (some ((unix cwd).resolve path.chars))

/-- The two functions do what is asked of them on Windows. A path that cannot be converted
names nothing. -/
def WindowsCorrect (utow : Utow) (cwd : List (List Wchar)) (tree : FileTree (List Wchar))
    (path : Text 8) (tail : List Byte) (off : Nat) : Prop :=
  Correct (ffdirMakeAllWindows utow cwd off) (ffdirMakePathWindows utow cwd off) tree
    (path.chars ++ 0 :: tail)
    ((utow.convert path).map fun wide => (windows cwd).resolve wide.chars)

/-- What is new after a ladder of attempts leads to its target. -/
theorem makeEach_leading {Name : Type} [DecidableEq Name] (tree : FileTree Name)
    {paths : List (List Name)} {target : List Name} (ladder : Ladder paths target)
    (place : List Name) :
    (tree.makeEach .created paths).2.node place = tree.node place ∨
      (tree.node place = none ∧ (tree.makeEach .created paths).2.node place = some .dir ∧
        ∃ whole ∈ some target, place <+: whole) := by
  rcases tree.makeEach_frame .created paths place with same | ⟨free, isDir, member⟩
  · exact .inl same
  · exact .inr ⟨free, isDir, target, rfl, ladder.leads_to_target place member⟩

/-! ### `ffdir_make_path` -/

theorem cString_text {w : Nat} (text : Text w) (tail : List (BitVec w)) :
    cString (text.chars ++ 0 :: tail) = text :=
  Text.ext (cString_cut text.noNul tail)

theorem rfind_lt (wanted : Byte → Bool) (chars : List Byte) :
    rfind wanted chars < chars.length := by
  unfold rfind
  split <;> omega

def Text.take {w : Nat} (text : Text w) (count : Nat) : Text w where
  chars := text.chars.take count
  noNul member := text.noNul (List.mem_of_mem_take member)

/-- The directory part of a name, if `ffdir_make_path` has one to make. -/
def dirPart (isSep : Byte → Bool) (name : Text 8) : Option (Text 8) :=
  if rfind isSep name.chars ≤ 0 then none
  else some (name.take (rfind isSep name.chars).toNat)

/-- `ffdir_make_path` does nothing, or it cuts the name after its directory part. -/
theorem ffdirMakePath_cases {Name : Type} (isSep : Byte → Bool)
    (makeAll : FileTree Name → List Byte → Option (Outcome Name)) (tree : FileTree Name)
    (name : Text 8) (tail : List Byte) :
    (dirPart isSep name = none ∧
      ffdirMakePath isSep makeAll tree (name.chars ++ 0 :: tail) =
        some ⟨0, tree, name.chars ++ 0 :: tail⟩) ∨
    ∃ part c more, dirPart isSep name = some part ∧ part.chars ≠ [] ∧
      name.chars = part.chars ++ c :: more ∧
      ffdirMakePath isSep makeAll tree (name.chars ++ 0 :: tail) =
        (makeAll tree (part.chars ++ 0 :: (more ++ 0 :: tail))).map fun outcome =>
          { outcome with path := outcome.path.set part.chars.length c } := by
  unfold dirPart
  by_cases none : rfind isSep name.chars ≤ 0
  · refine .inl ⟨if_pos none, ?_⟩
    rw [ffdirMakePath, cString_text]
    exact if_pos none
  · right
    have bound := rfind_lt isSep name.chars
    generalize slashAt : (rfind isSep name.chars).toNat = slash
    have inside : slash < name.chars.length := by omega
    have cutAt : name.chars =
        name.chars.take slash ++ name.chars[slash] :: name.chars.drop (slash + 1) := by
      rw [← List.drop_eq_getElem_cons inside, List.take_append_drop]
    have length : (name.chars.take slash).length = slash := List.length_take_of_le (by omega)
    refine ⟨name.take slash, name.chars[slash], name.chars.drop (slash + 1), if_neg none, ?_,
      cutAt, ?_⟩
    · intro empty
      have zero : (name.chars.take slash).length = 0 := congrArg List.length empty
      omega
    · have memory : name.chars ++ 0 :: tail = name.chars.take slash ++
          name.chars[slash] :: (name.chars.drop (slash + 1) ++ 0 :: tail) := by
        conv_lhs => rw [cutAt]
        rw [List.append_assoc, List.cons_append]
      have here : (name.chars ++ 0 :: tail)[slash]? = some name.chars[slash] := by
        rw [List.getElem?_append_left inside, List.getElem?_eq_getElem inside]
      have cut : (name.chars ++ 0 :: tail).set slash 0 =
          name.chars.take slash ++ 0 :: (name.chars.drop (slash + 1) ++ 0 :: tail) := by
        rw [memory, List.set_append_right _ _ (by omega), length, Nat.sub_self, List.set_cons_zero]
      rw [ffdirMakePath, cString_text]
      simp only [if_neg none, slashAt, here, cut, Text.take, length]
      rcases makeAll tree _ with _ | outcome
      · rfl
      · rfl

/-! ### UNIX -/

section Unix

variable (cwd : List (List Byte)) (tree : FileTree (List Byte)) (path : Text 8) (tail : List Byte)

/-- What a call on UNIX comes to. -/
theorem ffdirMakeAllUnix_eq {off : Nat} (inside : off ≤ path.chars.length) :
    ffdirMakeAllUnix cwd off tree (path.chars ++ 0 :: tail) =
      some ⟨if (tree.makeEach .created ((unix cwd).attempts path.chars off)).1 = .failed
          then -1 else 0,
        (tree.makeEach .created ((unix cwd).attempts path.chars off)).2,
        path.chars ++ 0 :: tail⟩ := by
  rw [ffdirMakeAllUnix, makeAllFrom_eq (unix cwd) path tail tree inside]

/-- The call leaves its string as it was if there is a NUL from `off` on. -/
theorem ffdirMakeAllUnix_restores (memory : List Byte) {off nul : Nat}
    (isNul : memory[nul]? = some 0) (before : off ≤ nul) :
    ∃ outcome, ffdirMakeAllUnix cwd off tree memory = some outcome ∧ outcome.path = memory := by
  obtain ⟨nulInside, atNul⟩ := List.getElem?_eq_some_iff.mp isNul
  have inside : off < memory.length := by omega
  have skips : (if (unix cwd).isSep memory[off] then off + 1 else off) ≤ nul := by
    split
    case isTrue isSep =>
      have notNul : off ≠ nul := by
        rintro rfl
        rw [atNul, (unix cwd).nulNotSep] at isSep
        cases isSep
      omega
    case isFalse => exact before
  obtain ⟨made, after, loop⟩ := makeAllLoop_restores (unix cwd) memory nul isNul
    (memory.length - if (unix cwd).isSep memory[off] then off + 1 else off) _ tree skips (by omega)
  refine ⟨⟨if made = .failed then -1 else 0, after, memory⟩, ?_, rfl⟩
  rw [ffdirMakeAllUnix, makeAllFrom, List.getElem?_eq_getElem inside]
  simp only [loop]

theorem ffdirMakePathUnix_restores {off : Nat} (inside : off ≤ path.chars.length) :
    ∃ outcome, ffdirMakePathUnix cwd off tree (path.chars ++ 0 :: tail) = some outcome ∧
      outcome.path = path.chars ++ 0 :: tail := by
  rcases ffdirMakePath_cases isSlash (ffdirMakeAllUnix cwd off) tree path tail with
    ⟨_, call⟩ | ⟨part, c, more, _, _, parts, call⟩
  · exact ⟨_, call, rfl⟩
  · have isNul : (part.chars ++ 0 :: (more ++ 0 :: tail))[path.chars.length]? = some 0 := by
      have place : path.chars.length = (part.chars ++ 0 :: more).length := by simp [parts]
      rw [place, ← List.cons_append, ← List.append_assoc, List.getElem?_append_right le_rfl,
        Nat.sub_self, List.getElem?_cons_zero]
    obtain ⟨outcome, made, left⟩ := ffdirMakeAllUnix_restores cwd tree _ isNul inside
    refine ⟨{ outcome with path := outcome.path.set part.chars.length c }, ?_, ?_⟩
    · rw [ffdirMakePathUnix, call, made, Option.map_some]
    · simp only [left, parts]
      simp

/-- A call on UNIX returns 0 exactly if the path is there afterwards, whatever it is. -/
theorem ffdirMakeAllUnix_zero_iff (notEmpty : path.chars ≠ []) (off : Nat) :
    (if (tree.makeEach .created ((unix cwd).attempts path.chars off)).1 = .failed
        then (-1 : Int) else 0) = 0 ↔
      (tree.makeEach .created ((unix cwd).attempts path.chars off)).2.node
        ((unix cwd).resolve path.chars) ≠ none := by
  rw [FileTree.makeEach_present_iff ((unix cwd).attempts_ladder notEmpty off) .created]
  split
  case isTrue failed => simp [failed]
  case isFalse notFailed => simp [notFailed]

/-- With no file under the path's name, a call on UNIX does what is asked. -/
theorem ffdirMakeAllUnix_good (notEmpty : path.chars ≠ []) {off : Nat}
    (inside : off ≤ path.chars.length)
    (notFile : tree.node ((unix cwd).resolve path.chars) ≠ some .file) :
    ∃ outcome, ffdirMakeAllUnix cwd off tree (path.chars ++ 0 :: tail) = some outcome ∧
      Good (ffdirMakeAllUnix cwd off) tree (path.chars ++ 0 :: tail)
        (some ((unix cwd).resolve path.chars)) outcome := by
  have ladder := (unix cwd).attempts_ladder notEmpty off
  have zeroIff := ffdirMakeAllUnix_zero_iff cwd tree path notEmpty off
  have frame := makeEach_leading tree ladder
  have stillNotFile : (tree.makeEach .created ((unix cwd).attempts path.chars off)).2.node
      ((unix cwd).resolve path.chars) ≠ some .file := by
    rcases frame ((unix cwd).resolve path.chars) with same | ⟨_, isDir, _⟩
    · rwa [same]
    · rw [isDir]
      simp
  refine ⟨_, ffdirMakeAllUnix_eq cwd tree path tail inside, ?_⟩
  constructor
  · rw [zeroIff]
    simp only [Option.mem_some_iff, exists_eq_left']
    constructor
    · intro found
      exact FileTree.dir_of_present found stillNotFile
    · intro isDir
      rw [isDir]
      simp
  · exact frame
  · rfl
  · intro zero
    refine ⟨_, ffdirMakeAllUnix_eq cwd _ path tail inside, ?_⟩
    rw [FileTree.makeEach_existing ladder (zeroIff.mp zero)]
    rfl

/-- On UNIX the one thing in the way is a file under the path's own name, which `EEXIST`
does not tell from a directory. -/
theorem unixCorrect_iff (notEmpty : path.chars ≠ []) {off : Nat}
    (inside : off ≤ path.chars.length) :
    UnixCorrect cwd tree path tail off ↔
      tree.node ((unix cwd).resolve path.chars) ≠ some .file := by
  constructor
  · rintro ⟨⟨outcome, made, good⟩, _⟩ isFile
    rw [ffdirMakeAllUnix_eq cwd tree path tail inside,
      FileTree.makeEach_existing ((unix cwd).attempts_ladder notEmpty off)
        (by rw [isFile]; simp)] at made
    obtain rfl := Option.some.inj made
    obtain ⟨place, isTarget, isDir⟩ := good.result.mp rfl
    obtain rfl := Option.some.inj isTarget
    rw [isFile] at isDir
    cases isDir
  · intro notFile
    exact ⟨ffdirMakeAllUnix_good cwd tree path tail notEmpty inside notFile,
      ffdirMakePathUnix_restores cwd tree path tail inside⟩

end Unix

/-! ### Windows -/

section Windows

variable (utow : Utow) (cwd : List (List Wchar)) (tree : FileTree (List Wchar)) (path : Text 8)
  (tail : List Byte)

/-- The places that the call on Windows tries to make. It takes `off` for a number of wide
characters. -/
def windowsAttempts (cwd : List (List Wchar)) (wide : Text 16) (off : Nat) :
    List (List (List Wchar)) :=
  (windows cwd).attempts wide.chars (skipDrive wide.chars off)

/-- `off` is not behind the end of the wide string. -/
def Utow.Inside (utow : Utow) (text : Text 8) (off : Nat) : Prop :=
  ∀ wide, utow.convert text = some wide → off ≤ wide.chars.length

theorem skipDrive_nul (wide : List Wchar) (off : Nat) :
    skipDrive (wide ++ [0]) off = skipDrive wide off := by
  have same : hasDrive (wide ++ [0]) = hasDrive wide := by
    rcases wide with _ | ⟨first, _ | ⟨second, rest⟩⟩
    · rfl
    · simp [hasDrive]
    · rfl
  rw [skipDrive, skipDrive, same]

theorem skipDrive_le {wide : List Wchar} {off : Nat} (inside : off ≤ wide.length) :
    skipDrive wide off ≤ wide.length := by
  unfold skipDrive
  split
  case isTrue drive =>
    rcases wide with _ | ⟨first, _ | ⟨second, rest⟩⟩
    · exact absurd drive.2 (by simp [hasDrive])
    · exact absurd drive.2 (by simp [hasDrive])
    · simp
  case isFalse => exact inside

/-- What a call on Windows comes to. -/
theorem ffdirMakeAllWindows_eq {wide : Text 16} (converts : utow.convert path = some wide)
    {off : Nat} (inside : off ≤ wide.chars.length) :
    ffdirMakeAllWindows utow cwd off tree (path.chars ++ 0 :: tail) =
      some ⟨if (tree.makeEach .created (windowsAttempts cwd wide off)).1 = .created then 0 else 1,
        (tree.makeEach .created (windowsAttempts cwd wide off)).2, path.chars ++ 0 :: tail⟩ := by
  rw [ffdirMakeAllWindows, cString_text, converts]
  simp only [skipDrive_nul,
    makeAllFrom_eq (windows cwd) wide [] tree (skipDrive_le inside), windowsAttempts]
  rfl

theorem ffdirMakeAllWindows_leaves {memory : List Byte} {off : Nat}
    {outcome : Outcome (List Wchar)}
    (call : ffdirMakeAllWindows utow cwd off tree memory = some outcome) :
    outcome.path = memory := by
  unfold ffdirMakeAllWindows at call
  split at call
  · obtain rfl := Option.some.inj call
    rfl
  · simp only at call
    split at call
    · cases call
    · obtain rfl := Option.some.inj call
      rfl

/-- A call on Windows returns unless it reads behind the wide string. -/
theorem ffdirMakeAllWindows_returns_iff (off : Nat) :
    (∃ outcome, ffdirMakeAllWindows utow cwd off tree (path.chars ++ 0 :: tail) = some outcome) ↔
      utow.Inside path off := by
  constructor
  · rintro ⟨outcome, call⟩ wide converts
    by_contra outside
    have same : skipDrive wide.chars off = off := if_neg (by omega)
    rw [ffdirMakeAllWindows, cString_text, converts] at call
    simp only [skipDrive_nul, same] at call
    rw [makeAllFrom_outside (windows cwd) wide tree (by omega)] at call
    cases call
  · intro inside
    cases converts : utow.convert path with
    | none =>
        refine ⟨⟨-1, tree, path.chars ++ 0 :: tail⟩, ?_⟩
        rw [ffdirMakeAllWindows, cString_text, converts]
    | some wide =>
        exact ⟨_, ffdirMakeAllWindows_eq utow cwd tree path tail converts (inside wide converts)⟩

theorem ffdirMakePathWindows_restores_iff {off : Nat} :
    (∃ outcome, ffdirMakePathWindows utow cwd off tree (path.chars ++ 0 :: tail) = some outcome ∧
      outcome.path = path.chars ++ 0 :: tail) ↔
      ∀ part, dirPart isAnySlash path = some part → utow.Inside part off := by
  rcases ffdirMakePath_cases isAnySlash (ffdirMakeAllWindows utow cwd off) tree path tail with
    ⟨noPart, call⟩ | ⟨part, c, more, isPart, _, parts, call⟩
  · constructor
    · intro _ part isPart
      rw [noPart] at isPart
      cases isPart
    · intro _
      exact ⟨_, call, rfl⟩
  · have returns := ffdirMakeAllWindows_returns_iff utow cwd tree part (more ++ 0 :: tail) off
    constructor
    · rintro ⟨outcome, made, _⟩ other isOther
      obtain rfl : part = other := Option.some.inj (isPart.symm.trans isOther)
      rw [ffdirMakePathWindows, call] at made
      obtain ⟨inner, innerCall, _⟩ := Option.map_eq_some_iff.mp made
      exact returns.mp ⟨inner, innerCall⟩
    · intro inside
      obtain ⟨outcome, made⟩ := returns.mpr (inside part isPart)
      have left := ffdirMakeAllWindows_leaves utow cwd tree made
      refine ⟨{ outcome with path := outcome.path.set part.chars.length c }, ?_, ?_⟩
      · rw [ffdirMakePathWindows, call, made, Option.map_some]
      · simp only [left, parts]
        simp

/-- Where the directory is there or can be made, the contract is broken: if the call
returns 0, the next one finds the directory and does not. -/
theorem ffdirMakeAllWindows_not_good {wide : Text 16} (notEmpty : wide.chars ≠ [])
    (converts : utow.convert path = some wide) {off : Nat} (inside : off ≤ wide.chars.length)
    (makeable : tree.Makeable (windowsAttempts cwd wide off)) {outcome : Outcome (List Wchar)}
    (made : ffdirMakeAllWindows utow cwd off tree (path.chars ++ 0 :: tail) = some outcome) :
    ¬Good (ffdirMakeAllWindows utow cwd off) tree (path.chars ++ 0 :: tail)
      (some ((windows cwd).resolve wide.chars)) outcome := by
  intro good
  have ladder := (windows cwd).attempts_ladder notEmpty (skipDrive wide.chars off)
  have isDir := FileTree.makeEach_makeable ladder .created makeable
  rw [ffdirMakeAllWindows_eq utow cwd tree path tail converts inside] at made
  obtain rfl := Option.some.inj made
  obtain ⟨second, calledAgain, zeroAgain⟩ := good.again (good.result.mpr ⟨_, rfl, isDir⟩)
  rw [ffdirMakeAllWindows_eq utow cwd _ path tail converts inside, windowsAttempts,
    FileTree.makeEach_existing ladder (by rw [isDir]; simp)] at calledAgain
  obtain rfl := Option.some.inj calledAgain
  simp at zeroAgain

/-- Where the directory cannot be made, the call reports a failure, as it should. -/
theorem ffdirMakeAllWindows_good {wide : Text 16} (notEmpty : wide.chars ≠ [])
    (converts : utow.convert path = some wide) {off : Nat} (inside : off ≤ wide.chars.length)
    (notMakeable : ¬tree.Makeable (windowsAttempts cwd wide off)) :
    ∃ outcome, ffdirMakeAllWindows utow cwd off tree (path.chars ++ 0 :: tail) = some outcome ∧
      Good (ffdirMakeAllWindows utow cwd off) tree (path.chars ++ 0 :: tail)
        (some ((windows cwd).resolve wide.chars)) outcome := by
  have ladder := (windows cwd).attempts_ladder notEmpty (skipDrive wide.chars off)
  have notDir := (not_congr (@FileTree.makeEach_dir_iff _ _ tree _ _ ladder .created)).mpr
    notMakeable
  have notCreated : (tree.makeEach .created (windowsAttempts cwd wide off)).1 ≠ .created := by
    intro created
    have tells := @FileTree.makeEach_tells _ _ tree _ _ ladder .created
    rw [windowsAttempts] at created
    rw [created] at tells
    exact notDir tells
  refine ⟨_, ffdirMakeAllWindows_eq utow cwd tree path tail converts inside, ?_⟩
  constructor
  · simp only [if_neg notCreated, Option.mem_some_iff, exists_eq_left']
    constructor
    · intro zero
      cases zero
    · intro isDir
      exact absurd isDir notDir
  · exact makeEach_leading tree ladder
  · rfl
  · simp only [if_neg notCreated]
    intro zero
    cases zero

/-- A path that cannot be converted is reported as a failure. -/
theorem ffdirMakeAllWindows_unconverted (converts : utow.convert path = none) (off : Nat) :
    ∃ outcome, ffdirMakeAllWindows utow cwd off tree (path.chars ++ 0 :: tail) = some outcome ∧
      Good (ffdirMakeAllWindows utow cwd off) tree (path.chars ++ 0 :: tail) none outcome := by
  refine ⟨⟨-1, tree, path.chars ++ 0 :: tail⟩, ?_, ?_⟩
  · rw [ffdirMakeAllWindows, cString_text, converts]
  · constructor
    · simp
    · exact fun place => .inl rfl
    · rfl
    · simp

/-- On Windows a call that should return 0 does not, or does not again: the last
`CreateDirectoryW` decides, and it fails for a directory that is there. -/
theorem windowsCorrect_iff (notEmpty : path.chars ≠ []) (off : Nat) :
    WindowsCorrect utow cwd tree path tail off ↔
      (∀ wide, utow.convert path = some wide →
        off ≤ wide.chars.length ∧ ¬tree.Makeable (windowsAttempts cwd wide off)) ∧
      ∀ part, dirPart isAnySlash path = some part → utow.Inside part off := by
  have pathPart := @ffdirMakePathWindows_restores_iff utow cwd tree path tail off
  constructor
  · rintro ⟨⟨outcome, made, good⟩, restores⟩
    refine ⟨fun wide converts => ?_, pathPart.mp restores⟩
    have inside := (ffdirMakeAllWindows_returns_iff utow cwd tree path tail off).mp
      ⟨outcome, made⟩ wide converts
    rw [converts] at good
    refine ⟨inside, fun makeable => ?_⟩
    exact ffdirMakeAllWindows_not_good utow cwd tree path tail
      (utow.notEmpty path wide converts notEmpty) converts inside makeable made good
  · rintro ⟨condition, inside⟩
    refine ⟨?_, pathPart.mpr inside⟩
    cases converts : utow.convert path with
    | none => exact ffdirMakeAllWindows_unconverted utow cwd tree path tail converts off
    | some wide =>
        obtain ⟨within, notMakeable⟩ := condition wide converts
        exact ffdirMakeAllWindows_good utow cwd tree path tail
          (utow.notEmpty path wide converts notEmpty) converts within notMakeable

end Windows

/-! ### Both systems -/

/-- On UNIX the contract holds unless the path names a file. On Windows it holds only where
no call could have succeeded: no read goes behind a wide string, and some place on the way
is a file or the first one has no directory to be made in. -/
theorem make_all_correct_iff (utow : Utow) (unixCwd : List (List Byte))
    (windowsCwd : List (List Wchar)) (unixTree : FileTree (List Byte))
    (windowsTree : FileTree (List Wchar)) (path : Text 8) (notEmpty : path.chars ≠ [])
    (tail : List Byte) (off : Nat) (inside : off ≤ path.chars.length) :
    (UnixCorrect unixCwd unixTree path tail off ↔
      unixTree.node ((unix unixCwd).resolve path.chars) ≠ some .file) ∧
    (WindowsCorrect utow windowsCwd windowsTree path tail off ↔
      (∀ wide, utow.convert path = some wide →
        off ≤ wide.chars.length ∧ ¬windowsTree.Makeable (windowsAttempts windowsCwd wide off)) ∧
      ∀ part, dirPart isAnySlash path = some part → utow.Inside part off) :=
  ⟨unixCorrect_iff unixCwd unixTree path tail notEmpty inside,
    windowsCorrect_iff utow windowsCwd windowsTree path tail notEmpty off⟩

/-- The conversion of plain ASCII strings. -/
def asciiUtow : Utow where
  convert text :=
    if text.chars.all (· < 128) then
      some ⟨text.chars.map (·.setWidth 16), by
        intro member
        obtain ⟨c, inText, zero⟩ := List.mem_map.mp member
        have isNul : c = 0 := by
          have value := congrArg BitVec.toNat zero
          simp at value
          bv_omega
        exact text.noNul (isNul ▸ inText)⟩
    else none
  notEmpty text wide converts notEmpty empty := by
    split at converts
    · obtain rfl := Option.some.inj converts
      exact notEmpty (List.map_eq_nil_iff.mp empty)
    · cases converts

/-- A root with one thing `d` in it. -/
def oneEntry {w : Nat} (kind : Kind) : FileTree (List (BitVec w)) :=
  FileTree.empty.insert [[100]] kind rfl rfl

def pathD : Text 8 := ⟨[100], by decide⟩

theorem make_all_correct_new_and_blocked :
    UnixCorrect [] FileTree.empty pathD [] 0 ∧
      WindowsCorrect asciiUtow [] (oneEntry .file) pathD [] 0 := by
  have both := make_all_correct_iff asciiUtow [] [] FileTree.empty (oneEntry .file) pathD
    (by decide) [] 0 (by decide)
  refine ⟨both.1.mpr (by decide), both.2.mpr ⟨fun wide converts => ?_, fun part isPart => ?_⟩⟩
  · obtain rfl := Option.some.inj converts
    refine ⟨Nat.zero_le _, fun makeable => makeable.1 [[100]] (by decide) (by decide)⟩
  · exact absurd isPart (by simp [show dirPart isAnySlash pathD = none from rfl])

/-- A file `d` is taken for the directory on UNIX, and a directory `d` for a failure on
Windows. -/
theorem make_all_wrong_result :
    (ffdirMakeAllUnix [] 0 (oneEntry .file) [100, 0]).map (·.ret) = some 0 ∧
      ¬UnixCorrect [] (oneEntry .file) pathD [] 0 ∧
      (ffdirMakeAllWindows asciiUtow [] 0 (oneEntry .dir) [100, 0]).map (·.ret) = some 1 ∧
      ¬WindowsCorrect asciiUtow [] (oneEntry .dir) pathD [] 0 := by
  refine ⟨by decide, ?_, by decide, ?_⟩
  · rw [unixCorrect_iff [] (oneEntry .file) pathD [] (by decide) (by decide)]
    decide
  · rw [windowsCorrect_iff asciiUtow [] (oneEntry .dir) pathD [] (by decide) 0]
    rintro ⟨condition, _⟩
    refine (condition _ rfl).2 ⟨?_, ?_⟩
    · decide
    · decide

end Ffos.Dir
