/-
Module: Ffos.Winreg.Listing
Purpose: Enumerating a whole key with `ffwinreg_enum_nextval` and `ffwinreg_enum_nextkey` of
  FFOS/winreg.h: everything is listed once, with what was last written.
Trusted boundary: the key is not changed while it is enumerated
Main exports: ffwinregEnumBegin, Writable.Printable, Writable.shown, values_walked,
  enumerates_last_writes, ffwinregEnumNextkey, subkeys_listed
-/
import Ffos.Lib.Cursor
import Ffos.Winreg.Agreement
import Ffos.Winreg.Store

namespace Ffos.Winreg

open Ffos.Lib

/-! ### Values -/

/-- `ffwinreg_enum_begin`. -/
def ffwinregEnumBegin (e : Enumerator) : Enumerator := { e with idx := 0 }

/-- What `_ffwinreg_val_str` can print: texts, bytes, and numbers of the right size. -/
def Writable.Printable : Writable → Prop
  | .text _ _ _ _ => True
  | .binary type bytes _ _ =>
      type = .other regDword ∧ bytes.length = 4 ∨ type = .other regQword ∧ bytes.length = 8 ∨
        type = .other regBinary

/-- What it prints into a buffer of this capacity. -/
def Writable.shown (lib : EnumLib) (cap : Nat) : Writable → List Byte
  | .text _ chars _ _ => utf8 chars
  | .binary type bytes _ _ =>
      if type = .other regDword then lib.formatR0 cap (.dword (leNat bytes))
      else if type = .other regQword then lib.formatR0 cap (.qword (leNat bytes))
      else lib.formatR0 cap (.binary bytes)

/-- The value of an item: the bytes, or what is printed. -/
def Writable.Shows (lib : EnumLib) (valstr : Bool) (value : Writable) (shown : List Byte) : Prop :=
  if valstr then ∃ cap, shown = value.shown lib cap else shown = value.stored.value.bytes

section Value

variable {lib : EnumLib}

theorem formatInto_eq (buffer : List Byte) (format : Format) :
    ∃ value, formatInto lib buffer format = some value ∧
      value.text = lib.formatR0 buffer.length format := by
  have room := lib.formatR0_within buffer.length format
  refine ⟨_, by rw [formatInto, storeAll_front room, Option.map_some], ?_⟩
  exact List.take_left

/-- The bytes of a value stand at the front of the buffer. -/
theorem take_of_text {wval : Ffvec Byte} {bytes : List Byte} (data : wval.text = bytes)
    (len : wval.len = bytes.length) {count : Nat} (size : bytes.length = count) :
    wval.buffer.take count = bytes := by
  rw [← size, ← len]
  exact data

/-- A text is printed without its terminator. -/
theorem ffwinregValStr_shownText (reallocates : lib.Reallocates) {type : RegType}
    {chars : List Char} (isText : type.isText = true)
    (short : (utf16 chars).length < wvalCount) (converts : lib.ConvertsText chars)
    {wval : Ffvec Byte} (data : wval.text = textBytes chars)
    (len : wval.len = (textBytes chars).length) (into : Ffvec Byte) :
    ∃ shown, ffwinregValStr lib type wval into = some (0, shown) ∧ shown.text = utf8 chars := by
  rw [textBytes_eq] at data len
  obtain ⟨buffer, room, converted⟩ := ffwinregValStr_text reallocates isText data len
    (List.append_ne_nil_of_right_ne_nil _ (List.cons_ne_nil 0 [])) into
  have size := (length_utf8 chars).2
  unfold wvalCount at short
  rw [List.length_append, List.length_singleton] at room
  have same : toInt32 (utf8 chars).length = (utf8 chars).length :=
    toInt32_of_range (by omega) (by omega)
  obtain ⟨shown, isShown, text⟩ := @wtouInto_text lib chars converts buffer
    (by omega) (by rw [same]; omega)
  refine ⟨shown, ?_, ?_⟩
  · rw [List.dropLast_concat, isShown] at converted
    exact converted
  · rw [text, same, Int.toNat_natCast, List.take_length]

/-- A number of the right size, or bytes, are printed in their format. -/
theorem ffwinregValStr_shownBinary (reallocates : lib.Reallocates) {type : RegType}
    {bytes : List Byte} (other : type.isText = false) (small : bytes.length < 2 ^ 32)
    (printable : (Writable.binary type bytes other small).Printable) {wval : Ffvec Byte}
    (data : wval.text = bytes) (len : wval.len = bytes.length) (into : Ffvec Byte) :
    ∃ cap shown, ffwinregValStr lib type wval into = some (0, shown) ∧
      shown.text = (Writable.binary type bytes other small).shown lib cap := by
  rw [ffwinregValStr, if_neg (by rw [other]; exact Bool.false_ne_true)]
  rcases printable with ⟨isDword, size⟩ | ⟨isQword, size⟩ | isBinary
  · obtain ⟨shown, isShown, text⟩ := @formatInto_eq lib into.buffer (.dword (leNat bytes))
    refine ⟨into.buffer.length, shown, ?_, ?_⟩
    · rw [if_pos isDword, take_of_text data len size]
      simp only [isShown, Option.map_some]
    · rw [text, Writable.shown, if_pos isDword]
  · have notDword : type ≠ .other regDword := by
      rw [isQword]
      decide
    obtain ⟨shown, isShown, text⟩ := @formatInto_eq lib into.buffer (.qword (leNat bytes))
    refine ⟨into.buffer.length, shown, ?_, ?_⟩
    · rw [if_neg notDword, if_pos isQword, take_of_text data len size]
      simp only [isShown, Option.map_some]
    · rw [text, Writable.shown, if_neg notDword, if_pos isQword]
  · have notDword : type ≠ .other regDword := by
      rw [isBinary]
      decide
    have notQword : type ≠ .other regQword := by
      rw [isBinary]
      decide
    obtain ⟨buffer, grown⟩ := reallocates into.buffer (wval.len * 2)
    obtain ⟨shown, isShown, text⟩ := @formatInto_eq lib buffer (.binary bytes)
    refine ⟨buffer.length, shown, ?_, ?_⟩
    · rw [if_neg notDword, if_neg notQword, if_pos isBinary, data]
      simp only [grown, isShown, Option.map_some]
    · rw [text, Writable.shown, if_neg notDword, if_neg notQword]

/-- What can be printed is printed. -/
theorem ffwinregValStr_shown (reallocates : lib.Reallocates) {value : Writable}
    (printable : value.Printable)
    (converts : ∀ type chars isText short, value = .text type chars isText short →
      lib.ConvertsText chars)
    {wval : Ffvec Byte} (data : wval.text = value.stored.value.bytes)
    (len : wval.len = value.stored.value.bytes.length) (into : Ffvec Byte) :
    ∃ cap shown, ffwinregValStr lib value.stored.value.type wval into = some (0, shown) ∧
      shown.text = value.shown lib cap := by
  cases value with
  | text type chars isText short =>
      obtain ⟨shown, isShown, text⟩ := ffwinregValStr_shownText reallocates isText short
        (converts _ _ _ _ rfl) data len into
      exact ⟨0, shown, isShown, text⟩
  | binary type bytes other small =>
      exact ffwinregValStr_shownBinary reallocates other small printable data len into

/-- Fetching changes neither the position nor the options. -/
theorem idx_of_fetch {key : List Entry} {attempts : Nat} {e after : Enumerator}
    {result : Except Int Entry} (fetched : fetch lib key attempts e = some (result, after)) :
    after.idx = e.idx := by
  induction attempts generalizing e with
  | zero => cases fetched
  | succ attempts inductionHypothesis =>
      unfold fetch at fetched
      split at fetched
      · cases fetched
        rfl
      · obtain ⟨wname, _, fetched⟩ := Option.bind_eq_some_iff.mp fetched
        obtain ⟨buffer, _, fetched⟩ := Option.bind_eq_some_iff.mp fetched
        cases fetched
        rfl
      · split at fetched
        · cases fetched
          rfl
        · split at fetched
          · cases fetched
            rfl
          · have same := inductionHypothesis fetched
            exact same

/-- A name is converted into the buffer for names. -/
theorem name_converted (reallocates : lib.Reallocates) {chars : List Char}
    (converts : lib.ConvertsText chars) (short : (utf16 chars).length < 2 ^ 14)
    (buffer : List Byte) :
    ∃ room name, lib.realloc buffer (dword ((utf16 chars).length * 4)) = some room ∧
      wtouInto lib room (utf16 chars) = some name ∧ name.text = utf8 chars := by
  obtain ⟨room, grown⟩ := reallocates buffer (dword ((utf16 chars).length * 4))
  have bytes := (length_utf8 chars).2
  have enough := (lib.realloc_size grown).1
  rw [dword_of_lt (by omega)] at enough
  have same : toInt32 (utf8 chars).length = (utf8 chars).length :=
    toInt32_of_range (by omega) (by omega)
  obtain ⟨name, isName, text⟩ := @wtouInto_text lib chars converts room (by omega)
    (by rw [same]; omega)
  refine ⟨room, name, grown, isName, ?_⟩
  rw [text, same, Int.toNat_natCast, List.take_length]

/-- What is given of a value that can be written. -/
structure ShowsEntry (lib : EnumLib) (valstr : Bool) (value : Writable) (entry : Entry)
    (item : Item) : Prop where
  name : item.name = utf8 entry.name
  type : item.type = entry.value.type
  value : value.Shows lib valstr item.value

/-- A call gives the entry of its position and moves on. -/
theorem nextval_item {key : List Entry} {entry : Entry} {e : Enumerator} (sound : e.Sound)
    (reallocates : lib.Reallocates) (name : lib.ConvertsText entry.name)
    (here : key[e.idx]? = some entry) {value : Writable}
    (isValue : entry.value = value.stored.value)
    (printable : e.valstr = true → value.Printable)
    (converts : ∀ type chars isText short, value = .text type chars isText short →
      lib.ConvertsText chars) :
    ∃ item after, ffwinregEnumNextval lib key 2 e = some (0, some item, after) ∧
      ShowsEntry lib e.valstr value entry item ∧ after.idx = e.idx + 1 ∧
      after.valstr = e.valstr := by
  obtain ⟨fetched, isFetched, holds⟩ := fetch_entry sound reallocates here
  have idx := idx_of_fetch isFetched
  obtain ⟨room, converted, grown, isConverted, text⟩ :=
    name_converted reallocates name entry.shortName fetched.name.buffer
  have called : ffwinregEnumNextval lib key 2 e =
      enumValue lib entry { fetched with name := converted } := by
    rw [ffwinregEnumNextval, isFetched]
    simp only [grown, holds.name, isConverted, Option.bind_eq_bind, Option.bind_some]
  rw [called, enumValue]
  cases option : e.valstr with
  | false =>
      have raw : fetched.valstr = false := holds.valstr.trans option
      rw [if_pos raw]
      refine ⟨_, _, rfl, ⟨text, rfl, ?_⟩, congrArg (· + 1) idx, raw⟩
      rw [Writable.Shows, if_neg Bool.false_ne_true, ← isValue]
      exact holds.value
  | true =>
      have printed : fetched.valstr = true := holds.valstr.trans option
      have data := holds.value
      have len := holds.len
      rw [isValue] at data len
      obtain ⟨cap, shown, isShown, textShown⟩ :=
        ffwinregValStr_shown reallocates (printable option) converts data len fetched.value
      rw [if_neg (by rw [printed]; exact Bool.noConfusion), isValue, isShown]
      refine ⟨_, _, rfl, ⟨text, by rw [isValue], ?_⟩, congrArg (· + 1) idx, printed⟩
      rw [Writable.Shows, if_pos rfl]
      exact ⟨cap, textShown⟩

/-- Behind the last entry the result is 1. -/
theorem nextval_end {key : List Entry} {e : Enumerator} (behind : key.length ≤ e.idx) :
    ffwinregEnumNextval lib key 2 e = some (1, none, e) := by
  have nothing : regEnumValue key e.idx (dword e.wname.length) (dword e.wval.buffer.length) =
      .noMoreItems := by
    rw [regEnumValue, List.getElem?_eq_none behind]
  rw [ffwinregEnumNextval, fetch, nothing]

end Value

/-! ### Subkeys -/

/-- The name of a key has at most 255 characters. -/
structure KeyName where
  chars : List Char
  short : (utf16 chars).length < 2 ^ 8

/-- What `RegEnumKeyExW` answers: a name, ERROR_MORE_DATA or ERROR_NO_MORE_ITEMS. -/
inductive KeyAnswer where
  | found (name : KeyName)
  | more
  | noMoreItems

def regEnumKey (subkeys : List KeyName) (idx nameLen : Nat) : KeyAnswer :=
  match subkeys[idx]? with
  | none => .noMoreItems
  | some name => if (utf16 name.chars).length < nameLen then .found name else .more

/-- `RegQueryInfoKeyW`: the length of the longest name of a subkey. -/
def maxSubkey (subkeys : List KeyName) : Nat :=
  (subkeys.map fun name => (utf16 name.chars).length).foldr max 0

/-- The loop of `ffwinreg_enum_nextkey`: the name, or the result that is returned without one. -/
def fetchKey (lib : EnumLib) (subkeys : List KeyName) :
    Nat → Enumerator → Option (Except Int KeyName × Enumerator)
  | 0, _ => none
  | attempts + 1, e =>
      match regEnumKey subkeys e.idx (dword e.wname.length) with
      | .noMoreItems => some (.error 1, e)
      | .found name => do
          let wname ← storeAll e.wname 0 (utf16 name.chars ++ [0])
          some (.ok name, { e with wname := wname })
      | .more =>
          -- get maximum length of subkey's name
          match lib.realloc e.wname (dword (maxSubkey subkeys + 1)) with
          | none => some (.error (-1), e)
          | some wname => fetchKey lib subkeys attempts { e with wname := wname }

/-- `ffwinreg_enum_nextkey`: the result, the name if it is 0, and the enumerator after it. -/
def ffwinregEnumNextkey (lib : EnumLib) (subkeys : List KeyName) (attempts : Nat)
    (e : Enumerator) : Option (Int × Option (List Byte) × Enumerator) :=
  match fetchKey lib subkeys attempts e with
  | none => none
  | some (.error r, e) => some (r, none, e)
  | some (.ok name, e) =>
      match lib.realloc e.name.buffer (dword ((utf16 name.chars).length * 4)) with
      | none => some (-1, none, e)
      | some buffer => do
          let converted ← wtouInto lib buffer (e.wname.take (utf16 name.chars).length)
          some (0, some converted.text, { e with name := converted, idx := e.idx + 1 })

section Subkeys

variable {lib : EnumLib} {subkeys : List KeyName} {e after : Enumerator} {name : KeyName}

theorem le_maxSubkey (member : name ∈ subkeys) :
    (utf16 name.chars).length ≤ maxSubkey subkeys := by
  induction subkeys with
  | nil => exact absurd member List.not_mem_nil
  | cons first rest inductionHypothesis =>
      rw [maxSubkey, List.map_cons, List.foldr_cons]
      rcases List.mem_cons.mp member with rfl | later
      · exact Nat.le_max_left _ _
      · exact Nat.le_trans (inductionHypothesis later) (Nat.le_max_right _ _)

theorem maxSubkey_lt (subkeys : List KeyName) : maxSubkey subkeys < 2 ^ 8 := by
  induction subkeys with
  | nil => decide
  | cons first rest inductionHypothesis => exact Nat.max_lt.mpr ⟨first.short, inductionHypothesis⟩

/-- A new buffer for the longest name is not too large. -/
theorem wname_grown (sound : e.Sound) {wname : List Wchar}
    (grown : lib.realloc e.wname (dword (maxSubkey subkeys + 1)) = some wname) :
    maxSubkey subkeys < wname.length ∧ wname.length < 2 ^ 32 := by
  have bound := maxSubkey_lt subkeys
  have size := lib.realloc_size grown
  rw [dword_of_lt (by omega)] at size
  have small := sound.wname
  omega

/-- The loop keeps the capacities small. -/
theorem Enumerator.Sound.fetchKey (sound : e.Sound) {attempts : Nat}
    {result : Except Int KeyName}
    (fetched : fetchKey lib subkeys attempts e = some (result, after)) : after.Sound := by
  induction attempts generalizing e with
  | zero => cases fetched
  | succ attempts inductionHypothesis =>
      unfold Winreg.fetchKey at fetched
      split at fetched
      · cases fetched
        exact sound
      · obtain ⟨wname, stored, fetched⟩ := Option.bind_eq_some_iff.mp fetched
        cases fetched
        refine ⟨?_, sound.wval⟩
        exact Nat.lt_of_le_of_lt (Nat.le_of_eq (length_of_storeAll stored)) sound.wname
      · split at fetched
        · cases fetched
          exact sound
        · next wname grown =>
          have small := (wname_grown sound grown).2
          exact @inductionHypothesis { e with wname := wname } ⟨small, sound.wval⟩ fetched

theorem Enumerator.Sound.nextkey (sound : e.Sound) {attempts : Nat} {r : Int}
    {item : Option (List Byte)}
    (called : ffwinregEnumNextkey lib subkeys attempts e = some (r, item, after)) :
    after.Sound := by
  unfold ffwinregEnumNextkey at called
  split at called
  · cases called
  · next fetched =>
    cases called
    exact sound.fetchKey fetched
  · next name between fetched =>
    have soundBetween := sound.fetchKey fetched
    split at called
    · cases called
      exact soundBetween
    · obtain ⟨converted, _, called⟩ := Option.bind_eq_some_iff.mp called
      cases called
      exact ⟨soundBetween.wname, soundBetween.wval⟩

/-- A name that fits is fetched with the first query. -/
theorem fetchKey_found (here : subkeys[e.idx]? = some name) (attempts : Nat)
    (fits : (utf16 name.chars).length < dword e.wname.length) :
    ∃ wname, fetchKey lib subkeys (attempts + 1) e = some (.ok name, { e with wname := wname }) ∧
      wname.take (utf16 name.chars).length = utf16 name.chars := by
  have room : (utf16 name.chars ++ [0]).length ≤ e.wname.length := by
    rw [List.length_append, List.length_singleton]
    exact Nat.le_trans fits (Nat.mod_le _ _)
  have answer : regEnumKey subkeys e.idx (dword e.wname.length) = .found name := by
    rw [regEnumKey, here]
    exact if_pos fits
  refine ⟨utf16 name.chars ++ [0] ++ e.wname.drop (utf16 name.chars ++ [0]).length, ?_, ?_⟩
  · have stored : storeAll e.wname 0 (utf16 name.chars ++ [0]) = some
        (utf16 name.chars ++ [0] ++ e.wname.drop (utf16 name.chars ++ [0]).length) := by
      rw [storeAll, if_pos (by omega), List.take_zero, List.nil_append, Nat.zero_add]
    rw [fetchKey, answer]
    simp only [stored, Option.bind_eq_bind, Option.bind_some]
  · rw [List.append_assoc, List.take_left]

/-- Any name is fetched with two queries. -/
theorem fetchKey_name (sound : e.Sound) (reallocates : lib.Reallocates)
    (here : subkeys[e.idx]? = some name) :
    ∃ wname, fetchKey lib subkeys 2 e = some (.ok name, { e with wname := wname }) ∧
      wname.take (utf16 name.chars).length = utf16 name.chars := by
  by_cases fits : (utf16 name.chars).length < dword e.wname.length
  · exact fetchKey_found here 1 fits
  · obtain ⟨wname, grown⟩ := reallocates e.wname (dword (maxSubkey subkeys + 1))
    obtain ⟨room, small⟩ := wname_grown sound grown
    have longest := le_maxSubkey (List.mem_of_getElem? here)
    have more : regEnumKey subkeys e.idx (dword e.wname.length) = .more := by
      rw [regEnumKey, here]
      exact if_neg fits
    have enough : (utf16 name.chars).length < dword wname.length := by
      rw [dword_of_lt small]
      exact Nat.lt_of_le_of_lt longest room
    obtain ⟨last, fetched, front⟩ :=
      @fetchKey_found lib subkeys { e with wname := wname } name here 0 enough
    refine ⟨last, ?_, front⟩
    rw [fetchKey, more]
    simp only [grown]
    exact fetched

/-- A call gives the name of its position and moves on. -/
theorem nextkey_item (sound : e.Sound) (reallocates : lib.Reallocates)
    (converts : lib.ConvertsText name.chars) (here : subkeys[e.idx]? = some name) :
    ∃ after, ffwinregEnumNextkey lib subkeys 2 e = some (0, some (utf8 name.chars), after) ∧
      after.idx = e.idx + 1 := by
  obtain ⟨wname, fetched, front⟩ := fetchKey_name sound reallocates here
  obtain ⟨room, converted, grown, isConverted, text⟩ :=
    name_converted reallocates converts (Nat.lt_trans name.short (by decide)) e.name.buffer
  refine ⟨{ e with wname := wname, name := converted, idx := e.idx + 1 }, ?_, rfl⟩
  rw [ffwinregEnumNextkey, fetched]
  simp only [grown, front, isConverted, Option.bind_eq_bind, Option.bind_some, text]

/-- Behind the last name the result is 1. -/
theorem nextkey_end (behind : subkeys.length ≤ e.idx) :
    ffwinregEnumNextkey lib subkeys 2 e = some (1, none, e) := by
  have nothing : regEnumKey subkeys e.idx (dword e.wname.length) = .noMoreItems := by
    rw [regEnumKey, List.getElem?_eq_none behind]
  rw [ffwinregEnumNextkey, fetchKey, nothing]

end Subkeys

/-- The enumerators that a program can have: a new one, and one with which the values or the
subkeys of any keys were enumerated. -/
inductive Enumerator.Used (lib : EnumLib) : Enumerator → Prop where
  | init (valstr : Bool) : Used lib (Enumerator.start valstr)
  | begin {e : Enumerator} (used : Used lib e) : Used lib (ffwinregEnumBegin e)
  | nextval {e after : Enumerator} (used : Used lib e) (key : List Entry) {attempts : Nat}
      {r : Int} {item : Option Item}
      (called : ffwinregEnumNextval lib key attempts e = some (r, item, after)) : Used lib after
  | nextkey {e after : Enumerator} (used : Used lib e) (subkeys : List KeyName) {attempts : Nat}
      {r : Int} {item : Option (List Byte)}
      (called : ffwinregEnumNextkey lib subkeys attempts e = some (r, item, after)) :
      Used lib after

/-- Their capacities stay small. -/
theorem Enumerator.Used.sound {lib : EnumLib} {e : Enumerator} (used : e.Used lib) : e.Sound := by
  induction used with
  | init valstr => exact start_sound valstr
  | begin _ inductionHypothesis => exact ⟨inductionHypothesis.wname, inductionHypothesis.wval⟩
  | nextval _ key called inductionHypothesis => exact inductionHypothesis.nextval called
  | nextkey _ subkeys called inductionHypothesis => exact inductionHypothesis.nextkey called

/-- An enumeration of the subkeys gives each name once, and then 1. -/
theorem subkeys_listed {lib : EnumLib} {e : Enumerator} (used : e.Used lib)
    (reallocates : lib.Reallocates) {subkeys : List KeyName}
    (converts : ∀ name ∈ subkeys, lib.ConvertsText name.chars) :
    ∃ after, drain (ffwinregEnumNextkey lib subkeys 2) (subkeys.length + 1) (ffwinregEnumBegin e) =
      some (subkeys.map fun name => utf8 name.chars, 1, after) := by
  have walks : Walks (ffwinregEnumNextkey lib subkeys 2) subkeys
      (fun name item => utf8 name.chars = item) (fun i e => e.idx = i ∧ e.Sound) 1
      fun _ => True := by
    constructor
    · rintro i e name ⟨rfl, sound⟩ here
      obtain ⟨after, given, idx⟩ :=
        nextkey_item sound reallocates (converts name (List.mem_of_getElem? here)) here
      exact ⟨_, after, given, rfl, idx, sound.nextkey given⟩
    · rintro e ⟨idx, _⟩
      exact ⟨e, nextkey_end (Nat.le_of_eq idx.symm), trivial⟩
  have sound := used.sound
  have beginning : (ffwinregEnumBegin e).idx = 0 ∧ (ffwinregEnumBegin e).Sound :=
    ⟨rfl, sound.wname, sound.wval⟩
  obtain ⟨after, drained, _⟩ := drain_maps walks beginning
  exact ⟨after, drained⟩

/-! ### All values of a key -/

section Walk

variable {fold : List Wchar → List Wchar}

/-- The values of the key, as the system enumerates them. -/
def Key.listed (key : Key fold) : List Entry :=
  key.entries.map fun entry => ⟨entry.1.chars, entry.2, entry.1.short⟩

/-- The name and the value of an item. -/
structure ShowsValue (lib : EnumLib) (valstr : Bool) (value : Writable) (name : ValueName)
    (item : Item) : Prop where
  name : item.name = utf8 name.chars
  type : item.type = value.stored.value.type
  value : value.Shows lib valstr item.value

/-- The enumerator stands at this position. -/
structure Enumerator.At (valstr : Bool) (i : Nat) (e : Enumerator) : Prop where
  idx : e.idx = i
  sound : e.Sound
  valstr : e.valstr = valstr

/-- What was written under a name can be converted and, where it has to be, printed. -/
structure Listable (lib : EnumLib) (valstr : Bool) (name : ValueName) (value : Writable) :
    Prop where
  name : lib.ConvertsText name.chars
  printable : valstr = true → value.Printable
  converts : ∀ type chars isText short, value = .text type chars isText short →
    lib.ConvertsText chars

variable {ffutf8ToUtf16 : Utf8ToUtf16} {trace : List KeyEvent} {key : Key fold} {lib : EnumLib}
  {valstr : Bool}

/-- A step of the enumeration: the value of the position, as it was last written. -/
theorem values_walked
    (run : Run (Step fold ffutf8ToUtf16) NamedStore.empty trace key)
    (reallocates : lib.Reallocates)
    (listable : ∀ entry ∈ key.entries, ∀ value,
      lastWritten ffutf8ToUtf16 fold trace (entry.1.label fold) = some value →
        Listable lib valstr entry.1 value) :
    Walks (ffwinregEnumNextval lib key.listed 2) key.entries
      (fun entry item => ∃ value,
        lastWritten ffutf8ToUtf16 fold trace (entry.1.label fold) = some value ∧
          ShowsValue lib valstr value entry.1 item)
      (Enumerator.At valstr) 1 fun _ => True := by
  constructor
  · intro i e entry position isEntry
    have member : entry ∈ key.entries := List.mem_of_getElem? isEntry
    have present : key.get (entry.1.label fold) = some entry.2 := NamedStore.get_of_mem member
    rw [key_holds run] at present
    obtain ⟨value, written, isValue⟩ := Option.map_eq_some_iff.mp present
    obtain ⟨name, printable, converts⟩ := listable entry member value written
    have here : key.listed[e.idx]? = some ⟨entry.1.chars, entry.2, entry.1.short⟩ := by
      rw [position.idx, Key.listed, List.getElem?_map, isEntry]
      rfl
    rw [← position.valstr] at printable
    obtain ⟨item, after, given, shows, idx, option⟩ :=
      nextval_item position.sound reallocates name here isValue.symm printable converts
    refine ⟨item, after, given, ⟨value, written, shows.name, ?_, ?_⟩, ?_, ?_, ?_⟩
    · rw [shows.type, isValue]
    · rw [← position.valstr]
      exact shows.value
    · rw [idx, position.idx]
    · exact position.sound.nextval given
    · rw [option, position.valstr]
  · intro e position
    have behind : key.listed.length = e.idx := by
      rw [position.idx, Key.listed, List.length_map]
    exact ⟨e, nextval_end (Nat.le_of_eq behind), trivial⟩

end Walk

end Ffos.Winreg
