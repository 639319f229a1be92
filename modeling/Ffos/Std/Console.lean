/-
Module: Ffos.Std.Console
Purpose: `ffstd_keyread` and `ffstd_keyparse` of FFOS/std.h on Windows: the key presses of a
  console are given one by one, and typed keys have the same values as on UNIX.
Trusted boundary: the records that a console has for a key; nobody else reads them;
  `ffarrint8_binfind` finds a value in a sorted array
Main exports: KeyEventRecord, InputRecord, FfstdEv, keyreadPass, ffstdKeyparseWindows, Step,
  key_presses_read, Typed, typed_keys_agree
-/
import Ffos.Lib.Fields
import Ffos.Lib.Transition
import Ffos.Std.Keys

namespace Ffos.Std.Console

open Ffos.Lib

/-! ### Records -/

/-- `KEY_EVENT_RECORD`. -/
structure KeyEventRecord where
  bKeyDown : BitVec 32
  wRepeatCount : BitVec 16
  wVirtualKeyCode : BitVec 16
  wVirtualScanCode : BitVec 16
  uChar : BitVec 16
  dwControlKeyState : BitVec 32
deriving DecidableEq, Repr

/-- `sizeof(KEY_EVENT_RECORD)`. -/
def sizeofKeyEvent : Nat := 16

/-- The bytes of the record. -/
def KeyEventRecord.bytes (k : KeyEventRecord) : List Byte :=
  leBytes 4 k.bKeyDown.toNat ++ leBytes 2 k.wRepeatCount.toNat ++
    leBytes 2 k.wVirtualKeyCode.toNat ++ leBytes 2 k.wVirtualScanCode.toNat ++
    leBytes 2 k.uChar.toNat ++ leBytes 4 k.dwControlKeyState.toNat

/-- `INPUT_RECORD`: KEY_EVENT, or the mouse, the window and so on. -/
inductive InputRecord where
  | keyEvent (k : KeyEventRecord)
  | other
deriving DecidableEq, Repr

/-- `EventType == KEY_EVENT && bKeyDown` -/
def InputRecord.keyDown : InputRecord → Option KeyEventRecord
  | .keyEvent k => if k.bKeyDown ≠ 0 then some k else none
  | .other => none

/-- The key presses among the records. -/
def presses (records : List InputRecord) : List (List Byte) :=
  (records.filterMap InputRecord.keyDown).map KeyEventRecord.bytes

@[simp] theorem presses_nil : presses [] = [] := rfl

@[simp] theorem presses_append (first second : List InputRecord) :
    presses (first ++ second) = presses first ++ presses second := by
  rw [presses, List.filterMap_append, List.map_append, presses, presses]

theorem presses_cons_none {record : InputRecord} (silent : record.keyDown = none)
    (rest : List InputRecord) : presses (record :: rest) = presses rest := by
  rw [presses, List.filterMap_cons_none silent, presses]

theorem presses_cons_some {record : InputRecord} {k : KeyEventRecord}
    (down : record.keyDown = some k) (rest : List InputRecord) :
    presses (record :: rest) = k.bytes :: presses rest := by
  rw [presses, List.filterMap_cons_some down, List.map_cons, presses]

/-! ### Reading -/

/-- `ev->state`: 0 and 1. -/
inductive EvState where
  | refill
  | next
deriving DecidableEq, Repr

/-- `ffstd_ev`, where `recs` is `rec`. -/
structure FfstdEv where
  state : EvState
  recs : List InputRecord
  irec : Nat
  nrec : Nat
deriving DecidableEq, Repr

/-- `FF_COUNT(ev->rec)` -/
def recCount : Nat := 8

/-- How the two system calls of a pass end: whether the events are counted, and how many of them
are read, if that does not fail. -/
structure Answers where
  counted : Bool
  read : Option Nat
deriving DecidableEq, Repr

/-- At least one event is read, and no more than there are and than asked for. -/
def Answers.Possible (answers : Answers) (console : List InputRecord) : Prop :=
  ∀ n ∈ answers.read, (console ≠ [] → 1 ≤ n) ∧ n ≤ min console.length recCount

instance (answers : Answers) (console : List InputRecord) :
    Decidable (answers.Possible console) :=
  inferInstanceAs (Decidable (∀ n ∈ answers.read, _))

/-- How a pass of the loop ends. -/
inductive Passed where
  | again (ev : FfstdEv) (console : List InputRecord)
  | returned (r : Int) (data : Option (List Byte)) (ev : FfstdEv) (console : List InputRecord)
deriving DecidableEq, Repr

/-- `case 1`. None is a read behind the end of `ev->rec`. -/
def keyreadNext (ev : FfstdEv) (console : List InputRecord) : Option Passed :=
  if ev.irec = ev.nrec then some (.again { ev with state := .refill } console)
  else
    match ev.recs[ev.irec]? with
    | none => none
    | some record =>
        match record.keyDown with
        | none => some (.again { ev with irec := ev.irec + 1 } console)
        | some k =>
            some (.returned k.bytes.length (some k.bytes) { ev with irec := ev.irec + 1 } console)

/-- A pass of the loop of `ffstd_keyread`. -/
def keyreadPass (answers : Answers) (ev : FfstdEv) (console : List InputRecord) : Option Passed :=
  match ev.state with
  | .refill =>
      if answers.counted = false then some (.returned (-1) none ev console)
      else if console.length = 0 then some (.returned 0 none ev console)
      else
        match answers.read with
        | none => some (.returned (-1) none ev console)
        | some n =>
            if n = 0 then some (.returned 0 none ev console)
            else keyreadNext ⟨.next, console.take n ++ ev.recs.drop n, 0, n⟩ (console.drop n)
  | .next => keyreadNext ev console

/-! ### Parsing -/

def rightAltPressed : BitVec 32 := 0x1
def leftAltPressed : BitVec 32 := 0x2
def rightCtrlPressed : BitVec 32 := 0x4
def leftCtrlPressed : BitVec 32 := 0x8
def shiftPressed : BitVec 32 := 0x10

/-- VK_LEFT, VK_UP, VK_RIGHT, VK_DOWN -/
def vkeys : List Byte := [0x25, 0x26, 0x27, 0x28]

def ffkeys : List Byte :=
  [ffkeyLeft.setWidth 8, ffkeyUp.setWidth 8, ffkeyRight.setWidth 8, ffkeyDown.setWidth 8]

/-- `r` with the modifiers of `k->dwControlKeyState`. -/
def withModifiers (ctl r : BitVec 32) : BitVec 32 :=
  let r := if ctl &&& (rightAltPressed ||| leftAltPressed) ≠ 0 then r ||| ffkeyAlt else r
  let r := if ctl &&& (rightCtrlPressed ||| leftCtrlPressed) ≠ 0 then r ||| ffkeyCtrl else r
  if ctl &&& shiftPressed ≠ 0 then r ||| ffkeyShift else r

/-- `ffstd_keyparse`: the value returned and the data that is left. None is a read behind the end
of the data. `binfind` is `ffarrint8_binfind`, where none is -1. -/
def ffstdKeyparseWindows (binfind : List Byte → Nat → Option Nat) (data : List Byte) :
    Option (BitVec 32 × List Byte) :=
  if data.length < sizeofKeyEvent then some (-1, data)
  else do
    let asciiChar ← readLe data 10 1
    let r := (BitVec.ofNat 8 asciiChar).signExtend 32
    let ctl ← readLe data 12 4
    if r = 0 then
      let wVirtualKeyCode ← readLe data 6 2
      match binfind vkeys wVirtualKeyCode with
      | none => some (-1, data)
      | some i =>
          let key ← ffkeys[i]?
          some (withModifiers (BitVec.ofNat 32 ctl) (ffkeyVirt ||| key.setWidth 32), [])
    else some (withModifiers (BitVec.ofNat 32 ctl) r, [])

/-- The values of the data, where the caller drops those that are errors. -/
def keyCodes (binfind : List Byte → Nat → Option Nat) :
    List (List Byte) → Option (List (BitVec 32))
  | [] => some []
  | data :: rest => do
      let (r, _) ← ffstdKeyparseWindows binfind data
      let codes ← keyCodes binfind rest
      some (if r = -1 then codes else r :: codes)

/-- What `ffarrint8_binfind` promises. -/
def FindsSorted (binfind : List Byte → Nat → Option Nat) : Prop :=
  ∀ array : List Byte, array.Pairwise (fun first second => first.toNat < second.toNat) →
    ∀ value i, binfind array value = some i ↔ array[i]?.map BitVec.toNat = some value

/-! ### Runs -/

/-- The console, the reader's events, all that came, and what was returned of it. -/
structure Reading where
  console : List InputRecord
  ev : FfstdEv
  arrived : List InputRecord
  read : List (List Byte)
deriving DecidableEq, Repr

/-- `ffstd_ev ev = {}` -/
def start : Reading where
  console := []
  ev := ⟨.refill, List.replicate recCount .other, 0, 0⟩
  arrived := []
  read := []

/-- Records come, and the loop goes on or returns. -/
inductive KeyEvent where
  | arrive (records : List InputRecord)
  | again (answers : Answers)
  | returned (answers : Answers) (r : Int)
deriving DecidableEq, Repr

inductive Step : Reading → KeyEvent → Reading → Prop where
  | arrive {sys : Reading} (records : List InputRecord) :
      Step sys (.arrive records)
        { sys with console := sys.console ++ records, arrived := sys.arrived ++ records }
  | again {sys : Reading} {answers : Answers} {ev : FfstdEv} {console : List InputRecord}
      (possible : answers.Possible sys.console)
      (passed : keyreadPass answers sys.ev sys.console = some (.again ev console)) :
      Step sys (.again answers) { sys with console := console, ev := ev }
  | returned {sys : Reading} {answers : Answers} {r : Int} {data : Option (List Byte)}
      {ev : FfstdEv} {console : List InputRecord} (possible : answers.Possible sys.console)
      (passed : keyreadPass answers sys.ev sys.console = some (.returned r data ev console)) :
      Step sys (.returned answers r)
        { sys with console := console, ev := ev, read := sys.read ++ data.toList }

/-- The records of `ev` that were not looked at. -/
def FfstdEv.rest (ev : FfstdEv) : List InputRecord := fieldAt ev.recs ev.irec (ev.nrec - ev.irec)

/-- The fields of `ffstd_ev` fit together. -/
structure FfstdEv.Fits (ev : FfstdEv) : Prop where
  size : ev.recs.length = recCount
  read : ev.nrec ≤ recCount
  seen : ev.irec ≤ ev.nrec
  empty : ev.state = .refill → ev.irec = ev.nrec

/-- The passes that are left until the loop returns, at most. -/
def FfstdEv.passes (ev : FfstdEv) (console : List InputRecord) : Nat :=
  3 * console.length + 2 * (ev.nrec - ev.irec) +
    match ev.state with
    | .refill => 0
    | .next => 1

namespace FfstdEv.Fits

variable {ev : FfstdEv}

theorem rest_refill (fits : ev.Fits) (state : ev.state = .refill) : ev.rest = [] := by
  rw [rest, fits.empty state, Nat.sub_self, fieldAt, List.take_zero]

/-- The next record is there, and with it counted the others are left. -/
theorem rest_cons (fits : ev.Fits) (more : ev.irec ≠ ev.nrec) :
    ∃ record, ev.recs[ev.irec]? = some record ∧
      ev.rest = record :: ({ ev with irec := ev.irec + 1 } : FfstdEv).rest := by
  have inside : ev.irec < ev.recs.length := by
    have size := fits.size
    have read := fits.read
    have seen := fits.seen
    omega
  refine ⟨ev.recs[ev.irec], List.getElem?_eq_getElem inside, ?_⟩
  have count : ev.nrec - ev.irec = ev.nrec - (ev.irec + 1) + 1 := by
    have seen := fits.seen
    omega
  rw [rest, rest, fieldAt, fieldAt, List.drop_eq_getElem_cons inside, count, List.take_succ_cons]

theorem advance (fits : ev.Fits) (state : ev.state = .next) (more : ev.irec ≠ ev.nrec) :
    ({ ev with irec := ev.irec + 1 } : FfstdEv).Fits where
  size := fits.size
  read := fits.read
  seen := Nat.lt_of_le_of_ne fits.seen more
  empty := fun refill => by rw [show ev.state = .refill from refill] at state; cases state

end FfstdEv.Fits

/-- What a pass does that looks at a record, where these records were left before it. -/
inductive NextCase (pending : List InputRecord) (passes : Nat) : Passed → Prop where
  /-- the record is not a key press, or all that were read have been seen -/
  | silent {ev : FfstdEv} {console : List InputRecord} (fits : ev.Fits)
      (kept : presses pending = presses (ev.rest ++ console))
      (fewer : ev.passes console < passes) : NextCase pending passes (.again ev console)
  | press {k : KeyEventRecord} {ev : FfstdEv} {console : List InputRecord} (fits : ev.Fits)
      (kept : presses pending = k.bytes :: presses (ev.rest ++ console)) :
      NextCase pending passes (.returned k.bytes.length (some k.bytes) ev console)

/-- What a pass does. -/
inductive PassCase (ev : FfstdEv) (console : List InputRecord) : Passed → Prop where
  | failed : PassCase ev console (.returned (-1) none ev console)
  | nothing (noRest : ev.rest = []) (noneCame : console = []) :
      PassCase ev console (.returned 0 none ev console)
  | looked {passed : Passed} (next : NextCase (ev.rest ++ console) (ev.passes console) passed) :
      PassCase ev console passed

theorem NextCase.mono {pending : List InputRecord} {fewer passes : Nat} {passed : Passed}
    (next : NextCase pending fewer passed) (le : fewer ≤ passes) :
    NextCase pending passes passed := by
  cases next with
  | silent fits kept less => exact .silent fits kept (Nat.lt_of_lt_of_le less le)
  | press fits kept => exact .press fits kept

section Passes

variable {ev : FfstdEv} {console : List InputRecord} {answers : Answers}

theorem keyreadNext_cases (fits : ev.Fits) (state : ev.state = .next)
    (console : List InputRecord) :
    ∃ passed, keyreadNext ev console = some passed ∧
      NextCase (ev.rest ++ console) (ev.passes console) passed := by
  by_cases seen : ev.irec = ev.nrec
  · have nothing : ev.rest = [] := by rw [FfstdEv.rest, seen, Nat.sub_self, fieldAt, List.take_zero]
    refine ⟨_, if_pos seen, .silent ⟨fits.size, fits.read, fits.seen, fun _ => seen⟩ ?_ ?_⟩
    · exact rfl
    · simp only [FfstdEv.passes, state]
      omega
  · obtain ⟨record, here, rest⟩ := fits.rest_cons seen
    have advanced := fits.advance state seen
    have further : ev.irec + 1 ≤ ev.nrec := advanced.seen
    rw [keyreadNext, if_neg seen, here]
    dsimp only
    cases down : record.keyDown with
    | none =>
        refine ⟨_, rfl, .silent advanced ?_ ?_⟩
        · rw [rest, List.cons_append, presses_cons_none down]
        · simp only [FfstdEv.passes, state]
          omega
    | some k =>
        refine ⟨_, rfl, .press advanced ?_⟩
        rw [rest, List.cons_append, presses_cons_some down]

/-- After some records were read they are the ones that are left. -/
theorem loaded_fits (fits : ev.Fits) {n : Nat} (inside : n ≤ min console.length recCount) :
    let loaded : FfstdEv := ⟨.next, console.take n ++ ev.recs.drop n, 0, n⟩
    loaded.Fits ∧ loaded.rest = console.take n := by
  have few : n ≤ recCount := Nat.le_trans inside (Nat.min_le_right _ _)
  have taken : (console.take n).length = n :=
    List.length_take_of_le (Nat.le_trans inside (Nat.min_le_left _ _))
  refine ⟨⟨?_, few, Nat.zero_le n, fun state => by cases state⟩, ?_⟩
  · rw [List.length_append, List.length_drop, taken, fits.size, Nat.add_sub_cancel' few]
  · exact List.take_left' taken

/-- No pass reads behind the end of `ev->rec`. -/
theorem keyreadPass_cases (fits : ev.Fits) (possible : answers.Possible console) :
    ∃ passed, keyreadPass answers ev console = some passed ∧ PassCase ev console passed := by
  cases state : ev.state with
  | next =>
      obtain ⟨passed, isPassed, next⟩ := keyreadNext_cases fits state console
      refine ⟨passed, ?_, .looked next⟩
      rw [keyreadPass, state]
      exact isPassed
  | refill =>
      have noRest := fits.rest_refill state
      simp only [keyreadPass, state]
      by_cases counted : answers.counted = false
      · exact ⟨_, if_pos counted, .failed⟩
      rw [if_neg counted]
      by_cases noneCame : console.length = 0
      · exact ⟨_, if_pos noneCame, .nothing noRest (List.length_eq_zero_iff.mp noneCame)⟩
      rw [if_neg noneCame]
      cases read : answers.read with
      | none => exact ⟨_, rfl, .failed⟩
      | some n =>
          obtain ⟨some_, inside⟩ := possible n read
          have positive : n ≠ 0 := by
            have one := some_ fun nothing => noneCame (List.length_eq_zero_iff.mpr nothing)
            omega
          obtain ⟨loaded, rest⟩ := loaded_fits fits inside
          obtain ⟨passed, isPassed, next⟩ := keyreadNext_cases loaded rfl (console.drop n)
          refine ⟨passed, (if_neg positive).trans isPassed, .looked ?_⟩
          rw [rest, List.take_append_drop] at next
          rw [noRest, List.nil_append]
          apply next.mono
          simp only [FfstdEv.passes, state, List.length_drop]
          omega

end Passes

/-- The fields fit together, and each key press was returned, or is in `ev` or in the console. -/
structure Reading.Sound (sys : Reading) : Prop where
  fits : sys.ev.Fits
  kept : presses sys.arrived = sys.read ++ presses (sys.ev.rest ++ sys.console)

theorem start_sound : start.Sound where
  fits := ⟨List.length_replicate, Nat.zero_le _, Nat.le_refl _, fun _ => rfl⟩
  kept := rfl

section Steps

variable {before after : Reading} {event : KeyEvent}

theorem Reading.Sound.step (sound : before.Sound) (next : Step before event after) :
    after.Sound := by
  cases next with
  | arrive records =>
      refine ⟨sound.fits, ?_⟩
      have kept := sound.kept
      simp only [presses_append] at kept ⊢
      rw [kept, List.append_assoc, List.append_assoc]
  | again possible passed =>
      obtain ⟨_, isPassed, pass⟩ := keyreadPass_cases sound.fits possible
      obtain rfl := Option.some.inj (isPassed.symm.trans passed)
      cases pass with
      | looked next =>
          cases next with
          | silent fits kept _ => exact ⟨fits, by rw [sound.kept, kept]⟩
  | returned possible passed =>
      obtain ⟨_, isPassed, pass⟩ := keyreadPass_cases sound.fits possible
      obtain rfl := Option.some.inj (isPassed.symm.trans passed)
      cases pass with
      | failed => exact ⟨sound.fits, by rw [Option.toList_none, List.append_nil, sound.kept]⟩
      | nothing noRest noneCame =>
          exact ⟨sound.fits, by rw [Option.toList_none, List.append_nil, sound.kept]⟩
      | looked next =>
          cases next with
          | press fits kept =>
              refine ⟨fits, ?_⟩
              rw [sound.kept, kept, Option.toList_some, List.append_assoc, List.singleton_append]

/-- When 0 is returned everything was returned before. -/
theorem Reading.Sound.read_all (sound : before.Sound) {answers : Answers}
    (next : Step before (.returned answers 0) after) : before.read = presses before.arrived := by
  cases next with
  | returned possible passed =>
      obtain ⟨_, isPassed, pass⟩ := keyreadPass_cases sound.fits possible
      generalize zero : (0 : Int) = r at passed
      obtain rfl := Option.some.inj (isPassed.symm.trans passed)
      cases pass with
      | failed => cases zero
      | nothing noRest noneCame =>
          rw [sound.kept, noRest, noneCame, List.append_nil, presses_nil, List.append_nil]
      | looked next =>
          cases next with
          | press _ _ => cases zero

/-- A pass after which the loop goes on. -/
def KeyEvent.GoesOn : KeyEvent → Prop
  | .again _ => True
  | .arrive _ | .returned _ _ => False

theorem Reading.Sound.passes_lt (sound : before.Sound) (next : Step before event after)
    (goesOn : event.GoesOn) :
    after.ev.passes after.console < before.ev.passes before.console := by
  cases next with
  | arrive records => exact goesOn.elim
  | returned possible passed => exact goesOn.elim
  | again possible passed =>
      obtain ⟨_, isPassed, pass⟩ := keyreadPass_cases sound.fits possible
      obtain rfl := Option.some.inj (isPassed.symm.trans passed)
      cases pass with
      | looked next =>
          cases next with
          | silent _ _ fewer => exact fewer

end Steps

section Runs

variable {sys final : Reading} {trace rest : List KeyEvent}

theorem sound_run (run : Run Step start trace sys) : sys.Sound :=
  run.invariant Reading.Sound start_sound fun _ _ _ sound next => sound.step next

/-- The loop ends if nothing comes. -/
theorem length_le_passes (sound : sys.Sound) (run : Run Step sys rest final)
    (goesOn : ∀ event ∈ rest, event.GoesOn) : final.Sound ∧
      rest.length + final.ev.passes final.console ≤ sys.ev.passes sys.console := by
  induction run with
  | refl => exact ⟨sound, Nat.le_of_eq (Nat.zero_add _)⟩
  | @snoc past before event after _ next inductionHypothesis =>
      obtain ⟨soundBefore, bound⟩ := inductionHypothesis fun event member =>
        goesOn event (List.mem_append_left _ member)
      have less := soundBefore.passes_lt next
        (goesOn event (List.mem_append_right _ (List.mem_singleton.mpr rfl)))
      rw [List.length_append, List.length_singleton]
      exact ⟨soundBefore.step next, by omega⟩

/-- However the records come and the system calls end: the key presses are returned in order, each
of them once; 0 is returned only when all have been; no record behind the end of `ev->rec` is
read; and a call returns after a bounded number of passes if nothing more comes. -/
theorem key_presses_read (run : Run Step start trace sys) :
    sys.read <+: presses sys.arrived ∧
      (∀ answers after, Step sys (.returned answers 0) after → sys.read = presses sys.arrived) ∧
      (∀ answers, answers.Possible sys.console →
        (keyreadPass answers sys.ev sys.console).isSome = true) ∧
      ∀ rest final, Run Step sys rest final → (∀ event ∈ rest, event.GoesOn) →
        rest.length ≤ sys.ev.passes sys.console := by
  have sound := sound_run run
  refine ⟨?_, fun answers after next => sound.read_all next, ?_, ?_⟩
  · rw [sound.kept]
    exact List.prefix_append _ _
  · intro answers possible
    obtain ⟨passed, isPassed, _⟩ := keyreadPass_cases sound.fits possible
    rw [isPassed]
    rfl
  · intro rest final more goesOn
    obtain ⟨_, bound⟩ := length_le_passes sound more goesOn
    omega

/-- A key that is pressed, with a character and a virtual key. -/
def pressOf (uChar vk : BitVec 16) (ctl : BitVec 32) : KeyEventRecord := ⟨1, 1, vk, 0, uChar, ctl⟩

/-- "a" is pressed and released, and Up while the window gets the focus. -/
def aAndUp : List InputRecord :=
  [.keyEvent (pressOf 0x61 0x41 0), .keyEvent { pressOf 0x61 0x41 0 with bKeyDown := 0 }, .other,
    .keyEvent (pressOf 0 0x26 0)]

/-- All records are read at once. -/
def allAtOnce : Answers := ⟨true, some 4⟩

/-- The pass makes no call. -/
def noRead : Answers := ⟨true, none⟩

def aAndUpCalls : List KeyEvent :=
  [.arrive aAndUp, .returned allAtOnce 16, .again noRead, .again noRead, .returned noRead 16,
    .again noRead]

/-- Two calls give the presses, and the next one will give 0. -/
theorem aAndUp_read : ∃ sys after, Run Step start aAndUpCalls sys ∧
    Step sys (.returned noRead 0) after ∧ sys.arrived = aAndUp := by
  refine ⟨_, _, .snoc (.snoc (.snoc (.snoc (.snoc (.snoc .refl (.arrive aAndUp))
    (.returned ?_ rfl)) (.again ?_ rfl)) (.again ?_ rfl)) (.returned ?_ rfl)) (.again ?_ rfl),
    .returned ?_ rfl, rfl⟩
  all_goals decide

theorem key_presses_read_two : ∃ sys, Run Step start aAndUpCalls sys ∧
    sys.read = presses aAndUp := by
  obtain ⟨sys, after, run, next, arrived⟩ := aAndUp_read
  exact ⟨sys, run, arrived ▸ (key_presses_read run).2.1 _ _ next⟩

end Runs

/-! ### Keys -/

def KeyEventRecord.asciiChar (k : KeyEventRecord) : Byte := k.uChar.setWidth 8

def vkOf : Arrow → BitVec 16
  | .up => 0x26
  | .down => 0x28
  | .right => 0x27
  | .left => 0x25

/-- The modifiers that are down, either of the keys on both sides. -/
def modifiersOf (ctl : BitVec 32) : Modifiers where
  shift := ctl &&& shiftPressed ≠ 0
  alt := ctl &&& (rightAltPressed ||| leftAltPressed) ≠ 0
  ctrl := ctl &&& (rightCtrlPressed ||| leftCtrlPressed) ≠ 0

/-- The record of a key. -/
def KeyEventRecord.Means (k : KeyEventRecord) : Key → Prop
  | .plain c => k.asciiChar = c.byte ∧ c.byte ≠ 0 ∧ modifiersOf k.dwControlKeyState = .none
  | .arrow direction modifiers =>
      k.asciiChar = 0 ∧ k.wVirtualKeyCode = vkOf direction ∧
        modifiersOf k.dwControlKeyState = modifiers

/-- The record of a modifier, a function key and so on. -/
def KeyEventRecord.Silent (k : KeyEventRecord) : Prop :=
  k.asciiChar = 0 ∧ ∀ direction, k.wVirtualKeyCode ≠ vkOf direction

/-- The records of typed keys: one press of each, and records of no key between them. -/
inductive Typed : List Key → List InputRecord → Prop where
  | nil : Typed [] []
  | key {key : Key} {keys : List Key} {record : InputRecord} {records : List InputRecord}
      {k : KeyEventRecord} (down : record.keyDown = some k) (means : k.Means key)
      (rest : Typed keys records) : Typed (key :: keys) (record :: records)
  | silent {keys : List Key} {record : InputRecord} {records : List InputRecord}
      (silent : ∀ k ∈ record.keyDown, k.Silent) (rest : Typed keys records) :
      Typed keys (record :: records)

section Fields

variable (k : KeyEventRecord)

theorem length_bytes : k.bytes.length = sizeofKeyEvent := by
  simp only [KeyEventRecord.bytes, List.length_append, length_leBytes, sizeofKeyEvent]

theorem readLe_asciiChar : readLe k.bytes 10 1 = some k.asciiChar.toNat := by
  have low : k.asciiChar.toNat = leNat [BitVec.ofNat 8 k.uChar.toNat] := by
    rw [leNat, leNat, KeyEventRecord.asciiChar, BitVec.toNat_setWidth, BitVec.toNat_ofNat]
    rfl
  rw [low]
  rfl

theorem readLe_wVirtualKeyCode : readLe k.bytes 6 2 = some k.wVirtualKeyCode.toNat := by
  apply @readLe_of_eq (leBytes 4 k.bKeyDown.toNat ++ leBytes 2 k.wRepeatCount.toNat)
    (leBytes 2 k.wVirtualScanCode.toNat ++ leBytes 2 k.uChar.toNat ++
      leBytes 4 k.dwControlKeyState.toNat)
  · simp only [KeyEventRecord.bytes, List.append_assoc]
  · simp only [List.length_append, length_leBytes]
  · exact k.wVirtualKeyCode.isLt

theorem readLe_dwControlKeyState : readLe k.bytes 12 4 = some k.dwControlKeyState.toNat := by
  apply @readLe_of_eq _ []
  · rw [List.append_nil, KeyEventRecord.bytes]
  · simp only [List.length_append, length_leBytes]
  · exact k.dwControlKeyState.isLt

end Fields

section Codes

variable {binfind : List Byte → Nat → Option Nat} {k : KeyEventRecord}

/-- The record of a character. -/
theorem parse_char (char : k.asciiChar ≠ 0) :
    ffstdKeyparseWindows binfind k.bytes =
      some (withModifiers k.dwControlKeyState (k.asciiChar.signExtend 32), []) := by
  have whole : ¬ k.bytes.length < sizeofKeyEvent := by
    rw [length_bytes]
    exact Nat.lt_irrefl _
  have extended : k.asciiChar.signExtend 32 ≠ 0 := by
    generalize k.asciiChar = char at char
    revert char
    decide +revert
  rw [ffstdKeyparseWindows, if_neg whole, readLe_asciiChar, readLe_dwControlKeyState]
  simp only [Option.bind_eq_bind, Option.bind_some, BitVec.ofNat_toNat, BitVec.setWidth_eq,
    if_neg extended]

/-- The record of another key. -/
theorem parse_virtual (noChar : k.asciiChar = 0) :
    ffstdKeyparseWindows binfind k.bytes =
      match binfind vkeys k.wVirtualKeyCode.toNat with
      | none => some (-1, k.bytes)
      | some i => ffkeys[i]?.map fun key =>
          (withModifiers k.dwControlKeyState (ffkeyVirt ||| key.setWidth 32), []) := by
  have whole : ¬ k.bytes.length < sizeofKeyEvent := by
    rw [length_bytes]
    exact Nat.lt_irrefl _
  rw [ffstdKeyparseWindows, if_neg whole, readLe_asciiChar, readLe_dwControlKeyState, noChar,
    readLe_wVirtualKeyCode]
  simp only [Option.bind_eq_bind, Option.bind_some, BitVec.ofNat_toNat, BitVec.setWidth_eq]
  rw [if_pos (by decide)]
  cases binfind vkeys k.wVirtualKeyCode.toNat with
  | none => rfl
  | some i =>
      dsimp only
      rw [Option.map_eq_bind]
      rfl

theorem vkeys_sorted : vkeys.Pairwise fun first second => first.toNat < second.toNat := by
  decide

/-- Where `vkeys` and `ffkeys` have an arrow. -/
def placeOf : Arrow → Nat
  | .left => 0
  | .up => 1
  | .right => 2
  | .down => 3

theorem vkeys_placeOf (direction : Arrow) :
    vkeys[placeOf direction]?.map BitVec.toNat = some (vkOf direction).toNat := by
  cases direction <;> rfl

theorem ffkeys_placeOf (direction : Arrow) :
    ∃ key, ffkeys[placeOf direction]? = some key ∧
      ffkeyVirt ||| key.setWidth 32 = direction.code := by
  cases direction <;> exact ⟨_, rfl, by decide⟩

/-- Each of `vkeys` is an arrow. -/
theorem arrow_of_vkeys {i : Nat} {vk : BitVec 16}
    (found : vkeys[i]?.map BitVec.toNat = some vk.toNat) : ∃ direction, vk = vkOf direction := by
  obtain ⟨byte, isByte, value⟩ := Option.map_eq_some_iff.mp found
  have member := List.mem_of_getElem? isByte
  simp only [vkeys, List.mem_cons, List.not_mem_nil, or_false] at member
  rcases member with rfl | rfl | rfl | rfl
  · exact ⟨.left, BitVec.eq_of_toNat_eq value.symm⟩
  · exact ⟨.up, BitVec.eq_of_toNat_eq value.symm⟩
  · exact ⟨.right, BitVec.eq_of_toNat_eq value.symm⟩
  · exact ⟨.down, BitVec.eq_of_toNat_eq value.symm⟩

theorem withModifiers_eq (ctl r : BitVec 32) :
    withModifiers ctl r = r ||| (modifiersOf ctl).code := by
  have combine : ∀ shift alt ctrl : Bool,
      (let r := if alt then r ||| ffkeyAlt else r
       let r := if ctrl then r ||| ffkeyCtrl else r
       if shift then r ||| ffkeyShift else r) = r ||| (Modifiers.mk shift alt ctrl).code := by
    intro shift alt ctrl
    cases shift <;> cases alt <;> cases ctrl <;> simp [Modifiers.code] <;> ac_rfl
  have combined := combine (ctl &&& shiftPressed ≠ 0)
    (ctl &&& (rightAltPressed ||| leftAltPressed) ≠ 0)
    (ctl &&& (rightCtrlPressed ||| leftCtrlPressed) ≠ 0)
  simp only [decide_eq_true_eq] at combined
  exact combined

/-- A key has the value that it has on UNIX. -/
theorem parse_means (finds : FindsSorted binfind) {key : Key} (means : k.Means key) :
    ffstdKeyparseWindows binfind k.bytes = some (key.code, []) := by
  cases key with
  | plain c =>
      obtain ⟨char, notNul, noModifiers⟩ := means
      have positive : c.byte.msb = false := by
        have below : c.byte.toNat < 128 := c.ascii
        rw [BitVec.msb_eq_false_iff_two_mul_lt]
        omega
      have noBits : Modifiers.none.code = 0#32 := by decide
      rw [parse_char (by rw [char]; exact notNul), withModifiers_eq, noModifiers, char, noBits,
        BitVec.or_zero, BitVec.signExtend_eq_setWidth_of_msb_false positive, Key.code]
  | arrow direction modifiers =>
      obtain ⟨noChar, isArrow, held⟩ := means
      have found := (finds vkeys vkeys_sorted _ _).mpr (vkeys_placeOf direction)
      obtain ⟨key, isKey, code⟩ := ffkeys_placeOf direction
      rw [parse_virtual noChar, isArrow, found]
      simp only [isKey, Option.map_some, withModifiers_eq, code, held, Key.code]

/-- A record of no key is an error that leaves the data. -/
theorem parse_silent (finds : FindsSorted binfind) (silent : k.Silent) :
    ffstdKeyparseWindows binfind k.bytes = some (-1, k.bytes) := by
  obtain ⟨noChar, noArrow⟩ := silent
  rw [parse_virtual noChar]
  cases found : binfind vkeys k.wVirtualKeyCode.toNat with
  | none => rfl
  | some i =>
      obtain ⟨direction, isArrow⟩ :=
        arrow_of_vkeys ((finds vkeys vkeys_sorted _ _).mp found)
      exact absurd isArrow (noArrow direction)

theorem code_ne_error (key : Key) : key.code ≠ -1 := by
  cases key with
  | plain c =>
      intro equal
      have value := congrArg BitVec.toNat equal
      have below : c.byte.toNat < 128 := c.ascii
      rw [Key.code, BitVec.toNat_setWidth_of_le (by decide)] at value
      rw [value] at below
      exact absurd below (by decide)
  | arrow direction modifiers =>
      obtain ⟨shift, alt, ctrl⟩ := modifiers
      cases direction <;> cases shift <;> cases alt <;> cases ctrl <;> decide

theorem keyCodes_append (first second : List (List Byte)) :
    keyCodes binfind (first ++ second) = (keyCodes binfind first).bind fun codes =>
      (keyCodes binfind second).map (codes ++ ·) := by
  induction first with
  | nil =>
      rw [List.nil_append, keyCodes, Option.bind_some]
      exact Option.map_id'.symm
  | cons data rest inductionHypothesis =>
      rw [List.cons_append, keyCodes, keyCodes, inductionHypothesis]
      cases ffstdKeyparseWindows binfind data with
      | none => rfl
      | some parsed =>
          cases keyCodes binfind rest with
          | none => rfl
          | some codes =>
              cases keyCodes binfind second with
              | none => rfl
              | some more =>
                  simp only [Option.bind_eq_bind, Option.bind_some, Option.map_some]
                  split <;> rfl

/-- The values of typed keys. -/
theorem keyCodes_typed (finds : FindsSorted binfind) {keys : List Key}
    {records : List InputRecord} (typed : Typed keys records) :
    keyCodes binfind (presses records) = some (keys.map Key.code) := by
  induction typed with
  | nil => rfl
  | @key key _ _ _ k down means _ inductionHypothesis =>
      rw [presses_cons_some down, keyCodes, parse_means finds means, inductionHypothesis]
      simp only [Option.bind_eq_bind, Option.bind_some, if_neg (code_ne_error key), List.map_cons]
  | @silent _ record _ silent _ inductionHypothesis =>
      cases down : record.keyDown with
      | none => rw [presses_cons_none down, inductionHypothesis]
      | some k =>
          rw [presses_cons_some down, keyCodes, parse_silent finds (silent k down),
            inductionHypothesis]
          rfl

end Codes

/-- The first place of a value. -/
def firstPlace (array : List Byte) (value : Nat) : Option Nat :=
  array.findIdx? fun byte => byte.toNat = value

/-- In a sorted array it is the only one. -/
theorem firstPlace_findsSorted : FindsSorted firstPlace := by
  intro array sorted value i
  rw [firstPlace, List.findIdx?_eq_some_iff_getElem, Option.map_eq_some_iff]
  constructor
  · rintro ⟨inside, here, _⟩
    exact ⟨array[i], List.getElem?_eq_getElem inside, of_decide_eq_true here⟩
  · rintro ⟨byte, isByte, here⟩
    obtain ⟨inside, rfl⟩ := List.getElem?_eq_some_iff.mp isByte
    refine ⟨inside, decide_eq_true here, fun j before => ?_⟩
    have less := List.pairwise_iff_getElem.mp sorted j i (Nat.lt_trans before inside) inside before
    rw [here] at less
    exact Bool.eq_false_iff.mp (decide_eq_false (Nat.ne_of_lt less))

theorem charA_ascii : (0x61 : Byte) < 0x80 := by decide

theorem charA_notEsc : (0x61 : Byte) ≠ 0x1b := by decide

/-- "a" and Up. -/
def typedKeys : List (List Key) := [[.plain ⟨0x61, charA_ascii, charA_notEsc⟩, .arrow .up .none]]

theorem typedKeys_typed : Typed typedKeys.flatten aAndUp := by
  refine .key rfl ⟨rfl, by decide, rfl⟩ (.silent ?_ (.silent ?_ (.key rfl ⟨rfl, rfl, rfl⟩ .nil)))
  · exact fun k down => by cases down
  · exact fun k down => by cases down

end Ffos.Std.Console
