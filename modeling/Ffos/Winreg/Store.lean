/-
Module: Ffos.Winreg.Store
Purpose: A registry key as a store: after any writes and deletions with FFOS/winreg.h a read
  gives what was last written under the name.
Trusted boundary: RegSetValueExW and RegDeleteKeyValueW change one value or nothing; how names
  are compared (`fold`); a text that is written has fewer than 256 units, and a value fewer than
  4 GiB
Main exports: ffwinregWritestr, ffwinregWriteint, ffwinregDel, Writable, Key, KeyEvent, Step,
  KeyEvent.change, key_holds, read_gives_last_write
-/
import Ffos.Lib.NamedStore
import Ffos.Lib.Transition
import Ffos.Winreg.Enumerate

namespace Ffos.Winreg

open Ffos.Lib

/-! ### The functions -/

/-- `ffwinreg_writestr`. -/
def ffwinregWritestr (ffutf8ToUtf16 : Utf8ToUtf16) (outcome : Outcome) (val : List Byte) :
    Written :=
  ffwinregWrite ffutf8ToUtf16 outcome ⟨.sz, val⟩

/-- `ffwinreg_writeint`. -/
def ffwinregWriteint (ffutf8ToUtf16 : Utf8ToUtf16) (outcome : Outcome) (n : BitVec 32) :
    Written :=
  ffwinregWrite ffutf8ToUtf16 outcome ⟨.other regDword, leBytes 4 n.toNat⟩

/-- `RegDeleteKeyValueW` and `RegDeleteKeyW`. -/
inductive RegDelete where
  | keyValue (subkey name : List Wchar)
  | key (subkey : List Wchar)
deriving DecidableEq, Repr

/-- How the calls of one deletion end: the names in wide characters if
`ffsz_alloc_buf_utow` succeeds, and the result of the system call. -/
structure DelOutcome where
  wsubkey : Option (List Wchar)
  wname : Option (List Wchar)
  regDelete : Int

/-- `ffwinreg_del` of a value, or without a name of a subkey: the result and the call made. -/
def ffwinregDel (outcome : DelOutcome) (hasName : Bool) : Int × Option RegDelete :=
  match outcome.wsubkey with
  | none => (-1, none)
  | some wsubkey =>
      if hasName then
        match outcome.wname with
        | none => (-1, none)
        | some wname => (outcome.regDelete, some (.keyValue wsubkey wname))
      else (outcome.regDelete, some (.key wsubkey))

/-! ### What is written -/

/-- A text whose terminator stays in the buffer on the stack, or the bytes of another type. -/
inductive Writable where
  | text (type : RegType) (chars : List Char) (isText : type.isText = true)
      (short : (utf16 chars).length < wvalCount)
  | binary (type : RegType) (bytes : List Byte) (other : type.isText = false)
      (small : bytes.length < 2 ^ 32)

/-- What is passed to `ffwinreg_write`. -/
def Writable.val : Writable → FfwinregVal
  | .text type chars _ _ => ⟨type, utf8 chars⟩
  | .binary type bytes _ _ => ⟨type, bytes⟩

/-- The bytes of a text in the registry. -/
def textBytes (chars : List Char) : List Byte := unitBytes (utf16 (chars ++ ['\x00']))

theorem textBytes_eq (chars : List Char) : textBytes chars = unitBytes (utf16 chars ++ [0]) := by
  have unit : utf16Char '\x00' = [0] := rfl
  rw [textBytes, utf16_concat, unit]

theorem length_textBytes (chars : List Char) :
    (textBytes chars).length = 2 * ((utf16 chars).length + 1) := by
  rw [textBytes_eq, length_unitBytes, List.length_append, List.length_singleton]

theorem textBytes_small {chars : List Char} (short : (utf16 chars).length < wvalCount) :
    (textBytes chars).length < 2 ^ 32 := by
  rw [length_textBytes]
  unfold wvalCount at short
  omega

/-- What the registry has then: a text with its terminator, or the bytes. -/
def Writable.stored : Writable → Stored
  | .text type chars isText short =>
      .text type (chars ++ ['\x00']) isText (textBytes_small short)
  | .binary type bytes other small => .binary type bytes other small

/-- What a read of it has to give is what was written. -/
theorem Writable.contents_stored (value : Writable) : value.stored.contents = value.val.data := by
  cases value with
  | text type chars isText short =>
      have terminated : (chars ++ ['\x00']).getLast? = some '\x00' := List.getLast?_concat
      have cut : withoutTerminator (chars ++ ['\x00']) = chars := by
        rw [withoutTerminator, if_pos terminated, List.dropLast_concat]
      exact congrArg utf8 cut
  | binary type bytes other small => rfl

theorem regDword_other : (RegType.other regDword).isText = false := rfl

theorem leBytes_four_small (n : Nat) : (leBytes 4 n).length < 2 ^ 32 := by
  rw [length_leBytes]
  decide

/-- A number of 32 bits. -/
def Writable.ofInt (n : BitVec 32) : Writable :=
  .binary (.other regDword) (leBytes 4 n.toNat) regDword_other (leBytes_four_small n.toNat)

/-- The two short forms write a text and a number. -/
theorem ffwinregWritestr_eq (ffutf8ToUtf16 : Utf8ToUtf16) (outcome : Outcome) {chars : List Char}
    (isText : RegType.sz.isText = true) (short : (utf16 chars).length < wvalCount) :
    ffwinregWritestr ffutf8ToUtf16 outcome (utf8 chars) =
      ffwinregWrite ffutf8ToUtf16 outcome (Writable.text .sz chars isText short).val := rfl

theorem ffwinregWriteint_eq (ffutf8ToUtf16 : Utf8ToUtf16) (outcome : Outcome) (n : BitVec 32) :
    ffwinregWriteint ffutf8ToUtf16 outcome n =
      ffwinregWrite ffutf8ToUtf16 outcome (Writable.ofInt n).val := rfl

/-- The number is in what a read has to give. -/
theorem leNat_ofInt (n : BitVec 32) : leNat (Writable.ofInt n).stored.contents = n.toNat := by
  have bytes : (Writable.ofInt n).val.data = leBytes 4 n.toNat := rfl
  rw [Writable.contents_stored, bytes, leNat_leBytes]
  exact Nat.mod_eq_of_lt n.isLt

/-- The conversion of what is written. -/
def Writable.Converts (ffutf8ToUtf16 : Utf8ToUtf16) : Writable → Prop
  | .text _ chars _ _ => Winreg.Converts ffutf8ToUtf16 chars
  | .binary _ _ _ _ => True

/-! ### The key -/

/-- The name of a value has at most 16383 characters. -/
structure ValueName where
  chars : List Char
  short : (utf16 chars).length < 2 ^ 14

section Key

variable (fold : List Wchar → List Wchar)

/-- What tells names apart: `fold` makes capital letters small, for instance. -/
def ValueName.label (name : ValueName) : List Wchar := fold (utf16 name.chars)

/-- The values of a key. -/
abbrev Key := NamedStore (ValueName.label fold) RegValue

/-- The size of the data is a `DWORD`. -/
def RegSetValue.value (call : RegSetValue) : RegValue where
  type := call.type
  bytes := call.data.take (dword call.data.length)
  small := by
    rw [List.length_take]
    exact Nat.lt_of_le_of_lt (Nat.min_le_left _ _) (Nat.mod_lt _ (by decide))

/-- `RegSetValueExW`, if it is called, with this result. -/
inductive Key.SetValue (key : Key fold) : Option RegSetValue → Int → Key fold → Prop where
  | notCalled (result : Int) : SetValue key none result key
  | fails {call : RegSetValue} {result : Int} (error : result ≠ 0) :
      SetValue key (some call) result key
  | sets {call : RegSetValue} {name : ValueName} (named : call.name = utf16 name.chars) :
      SetValue key (some call) 0 (key.set name call.value)

/-- `RegDeleteKeyValueW` or `RegDeleteKeyW`, if it is called, with this result. The empty subkey
is the key. -/
inductive Key.Delete (key : Key fold) : Option RegDelete → Int → Key fold → Prop where
  | notCalled (result : Int) : Delete key none result key
  | fails {call : RegDelete} {result : Int} (error : result ≠ 0) :
      Delete key (some call) result key
  | value {wname : List Wchar} :
      Delete key (some (.keyValue [] wname)) 0 (key.erase (fold wname))
  | ofSubkey {wsubkey wname : List Wchar} (other : wsubkey ≠ []) :
      Delete key (some (.keyValue wsubkey wname)) 0 key
  | subkey {wsubkey : List Wchar} (other : wsubkey ≠ []) : Delete key (some (.key wsubkey)) 0 key

/-- The calls on a key. -/
inductive KeyEvent where
  | write (name : ValueName) (value : Writable) (outcome : Outcome)
  | del (subkey : List Char) (name : Option ValueName) (outcome : DelOutcome)

/-- A call that works or fails. The key itself is not deleted. -/
inductive Step (ffutf8ToUtf16 : Utf8ToUtf16) : Key fold → KeyEvent → Key fold → Prop where
  | write {key after : Key fold} {name : ValueName} {value : Writable} {outcome : Outcome}
      (wname : ∀ wname ∈ outcome.wname, wname = utf16 name.chars)
      (converts : value.Converts ffutf8ToUtf16)
      (set : key.SetValue fold (ffwinregWrite ffutf8ToUtf16 outcome value.val).call
        outcome.regSetValue after) :
      Step ffutf8ToUtf16 key (.write name value outcome) after
  | del {key after : Key fold} {subkey : List Char} {name : Option ValueName}
      {outcome : DelOutcome} (wsubkey : ∀ wsubkey ∈ outcome.wsubkey, wsubkey = utf16 subkey)
      (wname : ∀ wname ∈ outcome.wname, ∀ given ∈ name, wname = utf16 given.chars)
      (deleted : key.Delete fold (ffwinregDel outcome name.isSome).2 outcome.regDelete after) :
      Step ffutf8ToUtf16 key (.del subkey name outcome) after

end Key

/-! ### What is expected -/

/-- What a call that returned 0 has changed. -/
def KeyEvent.change (ffutf8ToUtf16 : Utf8ToUtf16) : KeyEvent → Option (Change ValueName Writable)
  | .write name value outcome =>
      if (ffwinregWrite ffutf8ToUtf16 outcome value.val).r = 0 then some ⟨name, some value⟩
      else none
  | .del subkey name outcome =>
      match name with
      | some name =>
          if subkey = [] ∧ (ffwinregDel outcome true).1 = 0 then some ⟨name, none⟩ else none
      | none => none

/-- What was last written under a name and not deleted since. -/
def lastWritten (ffutf8ToUtf16 : Utf8ToUtf16) (fold : List Wchar → List Wchar)
    (trace : List KeyEvent) (wanted : List Wchar) : Option Writable :=
  latest (ValueName.label fold) wanted (trace.filterMap (KeyEvent.change ffutf8ToUtf16))

/-- What is found after a change, if there was one. -/
def found (fold : List Wchar → List Wchar) (change : Option (Change ValueName Writable))
    (wanted : List Wchar) (before : Option RegValue) : Option RegValue :=
  match change with
  | none => before
  | some change =>
      if change.name.label fold = wanted then change.value.map fun value => value.stored.value
      else before

section Run

variable {ffutf8ToUtf16 : Utf8ToUtf16} {fold : List Wchar → List Wchar}

/-- A write passes on the value as it has to be in the registry. -/
theorem ffwinregWrite_eq {value : Writable} (converts : value.Converts ffutf8ToUtf16)
    {outcome : Outcome} {wname : List Wchar} (converted : outcome.wname = some wname) :
    ∃ call, (ffwinregWrite ffutf8ToUtf16 outcome value.val).call = some call ∧
      (ffwinregWrite ffutf8ToUtf16 outcome value.val).r =
        (if outcome.regSetValue ≠ 0 then -1 else 0) ∧
      call.name = wname ∧ call.value = value.stored.value := by
  have whole : ∀ {data : List Byte}, data.length < 2 ^ 32 →
      data.take (dword data.length) = data := by
    intro data small
    rw [dword_of_lt small, List.take_length]
  cases value with
  | text type chars isText short =>
      refine ⟨⟨wname, type, textBytes chars⟩, ?_, ?_, rfl, ?_⟩
      · simp only [ffwinregWrite, converted, Writable.val, isText, if_true,
          ffsAllocBufUtow_stack converts _ (Nat.le_of_lt short), textBytes_eq]
      · simp only [ffwinregWrite, converted, Writable.val, isText, if_true,
          ffsAllocBufUtow_stack converts _ (Nat.le_of_lt short)]
      · simp only [RegSetValue.value, whole (textBytes_small short)]
        rfl
  | binary type bytes other small =>
      refine ⟨⟨wname, type, bytes⟩, ?_, ?_, rfl, ?_⟩
      · simp [ffwinregWrite, converted, Writable.val, other]
      · simp [ffwinregWrite, converted, Writable.val, other]
      · simp only [RegSetValue.value, whole small]
        rfl

/-- A write that returns 0 has set the value, any other one has changed nothing. -/
theorem get_of_write {key after : Key fold} {name : ValueName} {value : Writable}
    {outcome : Outcome} (wname : ∀ wname ∈ outcome.wname, wname = utf16 name.chars)
    (converts : value.Converts ffutf8ToUtf16)
    (set : key.SetValue fold (ffwinregWrite ffutf8ToUtf16 outcome value.val).call
      outcome.regSetValue after) (wanted : List Wchar) :
    after.get wanted =
      found fold (KeyEvent.change ffutf8ToUtf16 (.write name value outcome)) wanted
        (key.get wanted) := by
  rw [KeyEvent.change]
  cases converted : outcome.wname with
  | none =>
      have notWritten : ffwinregWrite ffutf8ToUtf16 outcome value.val = ⟨-1, none, none⟩ := by
        rw [ffwinregWrite, converted]
      rw [notWritten] at set ⊢
      cases set
      rfl
  | some units =>
      obtain ⟨call, isCall, result, isName, isValue⟩ := ffwinregWrite_eq converts converted
      have unitsEq : units = utf16 name.chars := wname units converted
      rw [isCall] at set
      rw [result]
      generalize outcome.regSetValue = answer at set
      cases set with
      | fails error =>
          rw [if_pos error]
          rfl
      | @sets _ other named =>
          have sameLabel : other.label fold = name.label fold := by
            rw [ValueName.label, ← named, isName, unitsEq]
            rfl
          rw [NamedStore.get_set, sameLabel, isValue]
          rfl

/-- A deletion that returns 0 has taken the value out, any other one has changed nothing. -/
theorem get_of_del {key after : Key fold} {subkey : List Char} {name : Option ValueName}
    {outcome : DelOutcome} (wsubkey : ∀ wsubkey ∈ outcome.wsubkey, wsubkey = utf16 subkey)
    (wname : ∀ wname ∈ outcome.wname, ∀ given ∈ name, wname = utf16 given.chars)
    (deleted : key.Delete fold (ffwinregDel outcome name.isSome).2 outcome.regDelete after)
    (wanted : List Wchar) :
    after.get wanted =
      found fold (KeyEvent.change ffutf8ToUtf16 (.del subkey name outcome)) wanted
        (key.get wanted) := by
  obtain ⟨units, given, answer⟩ := outcome
  cases name with
  | none =>
      cases units with
      | none =>
          cases deleted
          rfl
      | some units =>
          have deleted : key.Delete fold (some (.key units)) answer after := deleted
          cases deleted with
          | fails _ => rfl
          | subkey _ => rfl
  | some name =>
      rw [KeyEvent.change]
      cases units with
      | none =>
          cases deleted
          rw [if_neg (by simp [ffwinregDel])]
          rfl
      | some units =>
          have unitsEq := wsubkey units rfl
          cases given with
          | none =>
              cases deleted
              rw [if_neg (by simp [ffwinregDel])]
              rfl
          | some given =>
              have givenEq := wname given rfl name rfl
              have deleted : key.Delete fold (some (.keyValue units given)) answer after := deleted
              cases deleted with
              | fails error =>
                  rw [if_neg fun both => error both.2]
                  rfl
              | value =>
                  have whole : subkey = [] := (utf16_eq_nil_iff subkey).mp unitsEq.symm
                  rw [if_pos ⟨whole, rfl⟩, NamedStore.get_erase, givenEq]
                  rfl
              | ofSubkey other =>
                  rw [if_neg fun both => other (unitsEq.trans (by rw [both.1]; rfl))]
                  rfl

/-- The values of a key are those that were last written. -/
theorem key_holds {trace : List KeyEvent} {key : Key fold}
    (run : Run (Step fold ffutf8ToUtf16) NamedStore.empty trace key) (wanted : List Wchar) :
    key.get wanted =
      (lastWritten ffutf8ToUtf16 fold trace wanted).map fun value => value.stored.value := by
  induction run with
  | refl => rfl
  | @snoc past before event after earlier next inductionHypothesis =>
      have step : after.get wanted =
          found fold (event.change ffutf8ToUtf16) wanted (before.get wanted) := by
        cases next with
        | write wname converts set => exact get_of_write wname converts set wanted
        | del wsubkey wname deleted => exact get_of_del wsubkey wname deleted wanted
      rw [step, inductionHypothesis, lastWritten, lastWritten, List.filterMap_append]
      cases isChange : event.change ffutf8ToUtf16 with
      | none =>
          rw [List.filterMap_cons_none isChange, List.filterMap_nil, List.append_nil]
          rfl
      | some change =>
          rw [List.filterMap_cons_some isChange, List.filterMap_nil, latest_concat, found]
          split <;> rfl

/-! ### Reading -/

/-- The call reads this key, names are converted, and memory can be allocated. -/
structure Call.Reads (call : Call) (key : Key fold) : Prop where
  registry : ∀ wname query, call.registry wname query = key.get (fold wname)
  name : call.lib.ConvertsName call.name
  allocates : call.lib.Allocates

/-- A name without a value is an error. -/
theorem read_absent {call : Call} {key : Key fold} (reads : call.Reads key)
    (absent : key.get (fold (utf16 call.name)) = none) (val : ReadVal) :
    call.read val = some (-1, val, 1) := by
  have start : (startOf val).val = val := by
    rw [startOf]
    split <;> rfl
  rw [Call.read, ffwinregRead_eq (ffsUtow_eq reads.name reads.allocates)]
  apply readLoop_done
  rw [reads.registry, absent, regQueryValue, readIteration, start]

/-- What can be written can be read with any buffer of less than 4 GiB. -/
theorem Writable.manageable (value : Writable) {val : ReadVal}
    (small : ∀ buffer ∈ val.data, buffer.length < 2 ^ 32) : Manageable value.stored val := by
  cases value with
  | text type chars isText short =>
      have contents := (Writable.text type chars isText short).contents_stored
      have bytes := (length_utf8 chars).2
      unfold wvalCount at short
      have few : (utf8 (withoutTerminator (chars ++ ['\x00']))).length < 2 ^ 31 := by
        rw [show utf8 (withoutTerminator (chars ++ ['\x00'])) = utf8 chars from contents]
        omega
      exact few
  | binary type bytes other fits =>
      intro buffer isBuffer room
      rw [Nat.mod_eq_of_lt (small buffer isBuffer)]
      exact room

/-- A value is read whole, with a buffer or without one. -/
theorem read_present {call : Call} {key : Key fold} (reads : call.Reads key) {value : Writable}
    (present : key.get (fold (utf16 call.name)) = some value.stored.value)
    (converts : call.lib.Converts value.stored) {val : ReadVal} (sound : val.Sound)
    (small : ∀ buffer ∈ val.data, buffer.length < 2 ^ 32) :
    call.ReadsWhole value.stored val := by
  have unchanged : ∀ i, call.registry (utf16 call.name) i = some value.stored.value := by
    intro i
    rw [reads.registry, present]
  have regular : call.Regular value.stored :=
    ⟨reads.name, unchanged, converts, reads.allocates⟩
  have manageable := value.manageable small
  cases value with
  | text type chars isText short => exact (text_readsWhole_iff regular sound).mpr manageable
  | binary type bytes other fits => exact (binary_readsWhole_iff regular sound).mpr manageable

end Run

theorem nameA_short : (utf16 ['a']).length < 2 ^ 14 := by decide

def nameA : ValueName := ⟨['a'], nameA_short⟩

theorem textA_isText : RegType.sz.isText = true := rfl

theorem textA_short : (utf16 ['a']).length < wvalCount := by decide

/-- The text "a", as it is written. -/
def writableA : Writable := .text .sz ['a'] textA_isText textA_short

/-- It is written twice under its name; the second call fails. -/
def writesA : List KeyEvent :=
  [.write nameA writableA ⟨some [97], fun _ => true, 0⟩,
    .write nameA writableA ⟨some [97], fun _ => true, 5⟩]

/-- The key has it then. -/
def keyA : Key id := NamedStore.empty.set nameA writableA.stored.value

theorem writesA_run : Run (Step id asciiToUtf16) NamedStore.empty writesA keyA := by
  have wname : ∀ wname ∈ some [97], wname = utf16 nameA.chars := by
    rintro _ ⟨⟩
    rfl
  have converts : writableA.Converts asciiToUtf16 := asciiToUtf16_converts 1
  exact .snoc (.single (.write wname converts (.sets rfl))) (.write wname converts (.fails nofun))

end Ffos.Winreg
