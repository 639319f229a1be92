/-
Module: Ffos.Winreg.Agreement
Purpose: When `ffwinreg_enum_nextval` gives a text as `ffwinreg_read` does. The one counts the
  characters from the length of the data, the other looks at the last one.
Trusted boundary: none
Main exports: Ffbase.ConvertsCut, ReadVal.text, read_text, Listed, TextsAgree, AtText,
  enumerates_text, textsAgree_iff
-/
import Ffos.Winreg.Enumerate

namespace Ffos.Winreg

open Ffos.Lib

/-! ### Numbers -/

theorem toInt32_natCast_le (n : Nat) : toInt32 n ≤ n := by
  rw [toInt32, BitVec.toInt_ofInt, Int.bmod]
  split <;> omega

/-- Lengths that are close to each other are not the same as an `int`. -/
theorem toInt32_ne_of_close {n m : Int} (less : n < m) (close : m ≤ n + 4) :
    toInt32 n ≠ toInt32 m := by
  rw [toInt32, toInt32, BitVec.toInt_ofInt, BitVec.toInt_ofInt, Int.bmod, Int.bmod]
  split <;> split <;> omega

/-! ### Texts without their last unit -/

/-- What ffbase says of `ffs_wtou` for a text without its last unit. This may be a text, or a
text with the first unit of a pair, which fails or has at most three bytes. -/
structure Ffbase.ConvertsCut (lib : Ffbase) (chars : List Char) : Prop where
  text : lib.ConvertsText chars.dropLast
  low : ∀ cap, -2 ^ 31 ≤ (lib.wtou (some cap) (utf16 chars).dropLast).1
  half : ∀ cap, 0 ≤ (lib.wtou (some cap) (utf16 chars).dropLast).1 →
    (utf8 chars.dropLast).length ≤ (lib.wtou (some cap) (utf16 chars).dropLast).1 ∧
      (lib.wtou (some cap) (utf16 chars).dropLast).1 ≤ (utf8 chars.dropLast).length + 3

/-- The first unit of a pair is cut, or a whole character. -/
theorem dropLast_utf16 (front : List Char) (last : Char) :
    (utf16 (front ++ [last])).dropLast = utf16 front ++ (utf16Char last).dropLast := by
  rw [utf16_concat, List.dropLast_append_of_ne_nil (utf16Char_ne_nil last)]

/-- Without its last unit a text has other bytes: fewer than before, but not many. -/
theorem cut_close {lib : Ffbase} {chars : List Char} (converts : lib.ConvertsCut chars)
    (nonempty : chars ≠ []) {cap : Nat} (room : (utf8 chars).length ≤ cap)
    (succeeds : 0 ≤ (lib.wtou (some cap) (utf16 chars).dropLast).1) :
    (lib.wtou (some cap) (utf16 chars).dropLast).1 < (utf8 chars).length ∧
      (utf8 chars).length ≤ (lib.wtou (some cap) (utf16 chars).dropLast).1 + 4 := by
  have range := converts.half cap succeeds
  obtain ⟨front, last, rfl⟩ := (List.eq_nil_or_concat' chars).resolve_left nonempty
  have bytes := length_utf8Char last
  rw [List.dropLast_concat] at range
  rw [utf8_concat, List.length_append] at room ⊢
  rcases utf16Char_cases last with ⟨unit, single⟩ | ⟨high, low, pair, four⟩
  · have whole : (utf16 (front ++ [last])).dropLast = utf16 front := by
      rw [dropLast_utf16, single]
      exact List.append_nil _
    have text := converts.text
    rw [List.dropLast_concat] at text
    rw [single, List.length_singleton] at bytes
    rw [whole, text.fits cap (by omega)]
    dsimp only
    omega
  · omega

/-! ### What is read -/

/-- The bytes that count. -/
def ReadVal.text (val : ReadVal) : List Byte := (val.data.getD []).take val.datalen

section Read

variable {lib : Ffbase} {type : RegType} {text : List Char} {size : Nat} {val after : ReadVal}
  {data : List Byte}

/-- A conversion that succeeds gives the text, up to the length that an `int` says. -/
theorem convertText_gives (converts : lib.ConvertsText text) (isData : val.data = some data)
    (capacity : data.length = val.datalen)
    (converted : convertText lib type (utf16 text) size val = some (.done 1 after)) :
    0 ≤ toInt32 (utf8 text).length ∧
      after.text = (utf8 text).take (toInt32 (utf8 text).length).toNat := by
  rcases Nat.lt_or_ge data.length (utf8 text).length with few | room
  · obtain ⟨written, failed⟩ := convertText_small converts isData capacity few size
    rw [failed] at converted
    cases converted
  · rw [convertText, isData, ← capacity] at converted
    simp only [Option.bind_eq_bind, Option.bind_some, converts.fits _ room,
      storeAll_front room] at converted
    split at converted
    · cases converted
    · next notNegative =>
      cases converted
      refine ⟨Int.not_lt.mp notNegative, ?_⟩
      have within : (toInt32 (utf8 text).length).toNat ≤ (utf8 text).length := by
        have atMost := toInt32_natCast_le (utf8 text).length
        omega
      exact List.take_append_of_le_length within

/-- In a buffer of its length a text is given, if an `int` does not say a negative number. -/
theorem convertText_exact (converts : lib.ConvertsText text) (isData : val.data = some data)
    (capacity : data.length = val.datalen) (room : (utf8 text).length ≤ data.length)
    (positive : 0 ≤ toInt32 (utf8 text).length) :
    ∃ after, convertText lib type (utf16 text) size val = some (.done 1 after) := by
  rw [convertText, isData, ← capacity]
  simp only [Option.bind_eq_bind, Option.bind_some, converts.fits _ room, storeAll_front room]
  rw [if_neg (Int.not_lt.mpr positive)]
  exact ⟨_, rfl⟩

end Read

section Text

variable {call : Call} {val after : ReadVal} {queries : Nat} {type : RegType} {chars : List Char}
  {isText : type.isText = true} {small : (unitBytes (utf16 chars)).length < 2 ^ 32}

/-- Every read that returns 1 ends with a conversion, into a new buffer or that of the caller. -/
theorem converted_of_read (regular : call.Regular (.text type chars isText small))
    (sound : val.Sound) (read : call.read val = some (1, after, queries)) :
    ∃ (into : ReadVal) (data : List Byte) (size : Nat), into.data = some data ∧
      data.length = into.datalen ∧
      convertText call.lib type (utf16 (withoutTerminator chars)) size into =
        some (.done 1 after) := by
  obtain ⟨filled, count, memory, size, datalen, lengths, ends⟩ := text_reads regular sound
  have capacity : ∀ data ∈ filled.val.data, data.length = filled.val.datalen := by
    intro data isData
    rw [isData, Option.map_some] at lengths
    obtain ⟨old, isOld, same⟩ := Option.map_eq_some_iff.mp lengths.symm
    rw [datalen, ← sound old isOld, same]
  obtain ⟨r, last, whole⟩ := @readText_total call.lib type filled capacity
  have result := ends r last whole
  rw [read] at result
  cases result
  cases isData : filled.val.data with
  | some data =>
      refine ⟨filled.val, data, filled.size, isData, capacity data isData, ?_⟩
      rw [← readText_user regular.allocates (size ▸ small) memory size
        (by rw [isData]; exact Option.some_ne_none data)]
      exact whole
  | none =>
      rw [readText, isData, readUnits_eq memory] at whole
      dsimp only at whole
      split at whole
      · cases whole
      · next block allocated =>
        exact ⟨_, block, filled.size, rfl, call.lib.alloc_size _ _ allocated, whole⟩

/-- What a read of a text gives, with a buffer or without one. -/
theorem read_text (regular : call.Regular (.text type chars isText small)) (sound : val.Sound)
    (read : call.read val = some (1, after, queries)) :
    0 ≤ toInt32 (utf8 (withoutTerminator chars)).length ∧
      after.text = (utf8 (withoutTerminator chars)).take
        (toInt32 (utf8 (withoutTerminator chars)).length).toNat := by
  obtain ⟨into, data, size, isData, capacity, converted⟩ := converted_of_read regular sound read
  exact convertText_gives regular.converts isData capacity converted

/-- Such a read exists. -/
theorem read_exists (regular : call.Regular (.text type chars isText small))
    (positive : 0 ≤ toInt32 (utf8 (withoutTerminator chars)).length) :
    ∃ val after queries, val.Sound ∧ call.read val = some (1, after, queries) := by
  have sound : ReadVal.Sound ⟨type, some (List.replicate (utf8 (withoutTerminator chars)).length 0),
      (utf8 (withoutTerminator chars)).length⟩ := sound_of_length List.length_replicate
  obtain ⟨data, queries, into, sameLength, isData, capacity, ends⟩ := text_user regular sound rfl
  rw [List.length_replicate] at sameLength
  obtain ⟨after, converted⟩ := @convertText_exact call.lib type _ (unitBytes (utf16 chars)).length
    into data regular.converts isData capacity (Nat.le_of_eq sameLength.symm) positive
  exact ⟨_, after, queries, sound, ends 1 after converted⟩

end Text

/-! ### What is enumerated -/

section Enumeration

variable {lib : EnumLib} {key : List Entry} {entry : Entry} {e : Enumerator}

/-- A conversion into a buffer has a length that an `int` says. -/
theorem wtouInto_length {buffer : List Byte} {units : List Wchar} {value : Ffvec Byte}
    (converted : wtouInto lib buffer units = some value) :
    0 ≤ toInt32 (lib.wtou (some buffer.length) units).1 ∧
      value.text.length =
        min (toInt32 (lib.wtou (some buffer.length) units).1).toNat buffer.length := by
  obtain ⟨written, stored, converted⟩ := Option.bind_eq_some_iff.mp converted
  split at converted
  · cases converted
  · next notNegative =>
    cases converted
    refine ⟨Int.not_lt.mp notNegative, ?_⟩
    rw [Ffvec.text, List.length_take, length_of_storeAll stored]

/-- A text is converted into a buffer with room for it, up to the length that an `int` says. -/
theorem wtouInto_text {text : List Char} (converts : lib.ConvertsText text) {buffer : List Byte}
    (room : (utf8 text).length ≤ buffer.length) (positive : 0 ≤ toInt32 (utf8 text).length) :
    ∃ value, wtouInto lib buffer (utf16 text) = some value ∧
      value.text = (utf8 text).take (toInt32 (utf8 text).length).toNat := by
  have within : (toInt32 (utf8 text).length).toNat ≤ (utf8 text).length := by
    have atMost := toInt32_natCast_le (utf8 text).length
    omega
  refine ⟨⟨utf8 text ++ buffer.drop (utf8 text).length, (toInt32 (utf8 text).length).toNat⟩, ?_, ?_⟩
  · rw [wtouInto, converts.fits _ room]
    simp only [Option.bind_eq_bind, storeAll_front room, Option.bind_some]
    exact if_neg (Int.not_lt.mpr positive)
  · exact List.take_append_of_le_length within

/-- Every entry is fetched and its name converted. What is left is its value. -/
theorem nextval_fetched (sound : e.Sound) (reallocates : lib.Reallocates)
    (name : lib.ConvertsText entry.name) (here : key[e.idx]? = some entry) :
    ∃ between, ffwinregEnumNextval lib key 2 e = enumValue lib entry between ∧
      between.valstr = e.valstr ∧ between.wval.text = entry.value.bytes ∧
      between.wval.len = entry.value.bytes.length := by
  obtain ⟨fetched, isFetched, holds⟩ := fetch_entry sound reallocates here
  obtain ⟨buffer, grown⟩ :=
    reallocates fetched.name.buffer (dword ((utf16 entry.name).length * 4))
  have short := entry.shortName
  have bytes := (length_utf8 entry.name).2
  have room := (lib.realloc_size grown).1
  rw [dword_of_lt (by omega)] at room
  have same : toInt32 (utf8 entry.name).length = (utf8 entry.name).length :=
    toInt32_of_range (by omega) (by omega)
  obtain ⟨converted, isConverted, _⟩ := @wtouInto_text lib _ name buffer (by omega)
    (by rw [same]; omega)
  refine ⟨{ fetched with name := converted }, ?_, holds.valstr, holds.value, holds.len⟩
  rw [ffwinregEnumNextval, isFetched]
  simp only [grown, holds.name, isConverted, Option.bind_eq_bind, Option.bind_some]

/-- The value is what `_ffwinreg_val_str` makes of it. -/
theorem enumValue_iff (valstr : e.valstr = true) (text : List Byte) :
    (∃ item last, enumValue lib entry e = some (0, some item, last) ∧ item.value = text) ↔
      ∃ value, ffwinregValStr lib entry.value.type e.wval e.value = some (0, value) ∧
        value.text = text := by
  rw [enumValue, if_neg (by rw [valstr]; exact Bool.noConfusion)]
  constructor
  · rintro ⟨item, last, given, isText⟩
    obtain ⟨⟨r, value⟩, converted, same⟩ := Option.map_eq_some_iff.mp given
    dsimp only at same
    split at same
    · cases same
    · next zero =>
      cases same
      obtain rfl := not_not.mp zero
      exact ⟨value, converted, isText⟩
  · rintro ⟨value, converted, isText⟩
    refine ⟨⟨e.name.text, value.text, entry.value.type⟩,
      { e with value := value, idx := e.idx + 1 }, ?_, isText⟩
    rw [converted]
    rfl

/-- Of no data `_ffwinreg_val_str` makes no text. -/
theorem ffwinregValStr_empty {type : RegType} (isText : type.isText = true) {wval : Ffvec Byte}
    (empty : wval.len = 0) (value : Ffvec Byte) :
    ffwinregValStr lib type wval value = some (0, { value with len := 0 }) := by
  rw [ffwinregValStr, if_pos isText, if_pos empty]

/-- Of other data it converts all units but the last one. -/
theorem ffwinregValStr_text (reallocates : lib.Reallocates) {type : RegType}
    (isText : type.isText = true) {units : List Wchar} {wval : Ffvec Byte}
    (data : wval.text = unitBytes units) (len : wval.len = (unitBytes units).length)
    (nonempty : units ≠ []) (value : Ffvec Byte) :
    ∃ buffer : List Byte, units.length * 4 ≤ buffer.length ∧
      ffwinregValStr lib type wval value =
        (wtouInto lib buffer units.dropLast).map (0, ·) := by
  have positive : 0 < units.length := List.length_pos_of_ne_nil nonempty
  rw [length_unitBytes] at len
  obtain ⟨buffer, grown⟩ := reallocates value.buffer (wval.len / 2 * 4)
  have room := (lib.realloc_size grown).1
  refine ⟨buffer, by omega, ?_⟩
  have cut : (unitsOf wval.text).take ((wval.len - 1) / 2) = units.dropLast := by
    have fewer : (wval.len - 1) / 2 = units.length - 1 := by omega
    rw [data, unitsOf_unitBytes, fewer, List.dropLast_eq_take]
  rw [ffwinregValStr, if_pos isText, if_neg (by omega)]
  simp only [grown, cut]

end Enumeration

/-! ### The contract -/

/-- The entry of the key is the value that is read, with the same ffbase. -/
structure Listed (lib : EnumLib) (entry : Entry) (call : Call) (stored : Stored) : Prop where
  lib : call.lib = lib.toFfbase
  name : entry.name = call.name
  value : entry.value = stored.value

/-- Whatever the other entries are, and whatever was enumerated before, the text that is read is
also the text that is enumerated. Two queries are enough for it. -/
def TextsAgree (lib : EnumLib) (entry : Entry) (call : Call) : Prop :=
  ∀ (key : List Entry) (e : Enumerator) (val after : ReadVal) (queries : Nat),
    e.Reached lib → e.valstr = true → key[e.idx]? = some entry → val.Sound →
      call.read val = some (1, after, queries) →
        ∃ item last, ffwinregEnumNextval lib key 2 e = some (0, some item, last) ∧
          item.value = after.text

/-- The enumerator is at an entry with this text, which ffbase converts with its name and without
its last unit. -/
structure AtText (lib : EnumLib) (key : List Entry) (e : Enumerator) (entry : Entry)
    (chars : List Char) : Prop where
  sound : e.Sound
  reallocates : lib.Reallocates
  name : lib.ConvertsText entry.name
  cut : lib.ConvertsCut chars
  here : key[e.idx]? = some entry
  valstr : e.valstr = true
  isText : entry.value.type.isText = true
  data : entry.value.bytes = unitBytes (utf16 chars)

section Contract

variable {lib : EnumLib} {key : List Entry} {entry : Entry} {e : Enumerator} {chars : List Char}

/-- Of an empty value the enumerator gives the empty text. -/
theorem enumerates_empty (atText : AtText lib key e entry []) :
    ∃ item last, ffwinregEnumNextval lib key 2 e = some (0, some item, last) ∧ item.value = [] := by
  obtain ⟨between, called, sameOption, _, len⟩ :=
    nextval_fetched atText.sound atText.reallocates atText.name atText.here
  rw [called]
  apply (enumValue_iff (sameOption.trans atText.valstr) []).mpr
  have empty : between.wval.len = 0 := by
    rw [len, atText.data]
    rfl
  exact ⟨_, ffwinregValStr_empty atText.isText empty between.value, List.take_zero⟩

/-- Of another text it gives what all units but the last one are converted to. -/
theorem enumerates_text (atText : AtText lib key e entry chars) (nonempty : chars ≠ []) :
    ∃ buffer : List Byte, (utf16 chars).length * 4 ≤ buffer.length ∧ ∀ text,
      (∃ item last, ffwinregEnumNextval lib key 2 e = some (0, some item, last) ∧
        item.value = text) ↔
      ∃ value, wtouInto lib buffer (utf16 chars).dropLast = some value ∧ value.text = text := by
  obtain ⟨between, called, sameOption, bytes, len⟩ :=
    nextval_fetched atText.sound atText.reallocates atText.name atText.here
  rw [atText.data] at bytes len
  obtain ⟨buffer, room, converted⟩ := ffwinregValStr_text atText.reallocates atText.isText bytes len
    (mt (utf16_eq_nil_iff chars).mp nonempty) between.value
  refine ⟨buffer, room, fun text => ?_⟩
  rw [called, enumValue_iff (sameOption.trans atText.valstr), converted]
  constructor
  · rintro ⟨value, isValue, isText⟩
    obtain ⟨same, isSame, pair⟩ := Option.map_eq_some_iff.mp isValue
    cases pair
    exact ⟨_, isSame, isText⟩
  · rintro ⟨value, isValue, isText⟩
    exact ⟨value, by rw [isValue]; rfl, isText⟩

/-- A text with a terminator is given without it. -/
theorem agree_terminated (atText : AtText lib key e entry chars)
    (terminated : chars.getLast? = some '\x00')
    (positive : 0 ≤ toInt32 (utf8 chars.dropLast).length) :
    ∃ item last, ffwinregEnumNextval lib key 2 e = some (0, some item, last) ∧
      item.value = (utf8 chars.dropLast).take (toInt32 (utf8 chars.dropLast).length).toNat := by
  have nonempty : chars ≠ [] := by
    rintro rfl
    cases terminated
  obtain ⟨buffer, room, gives⟩ := enumerates_text atText nonempty
  apply (gives _).mpr
  have text := atText.cut.text
  obtain ⟨front, rfl⟩ := List.getLast?_eq_some_iff.mp terminated
  have unit : utf16Char '\x00' = [0] := rfl
  have units : (utf16 (front ++ ['\x00'])).dropLast = utf16 (front ++ ['\x00']).dropLast := by
    rw [utf16_concat, unit, List.dropLast_concat, List.dropLast_concat]
  rw [units]
  apply wtouInto_text text _ positive
  have bytes := (length_utf8 front).2
  rw [utf16_concat, List.length_append] at room
  rw [List.dropLast_concat]
  omega

/-- A text without one loses its last unit. -/
theorem disagree_unterminated (atText : AtText lib key e entry chars) (nonempty : chars ≠ [])
    (positive : 0 ≤ toInt32 (utf8 chars).length) :
    ¬ ∃ item last, ffwinregEnumNextval lib key 2 e = some (0, some item, last) ∧
      item.value = (utf8 chars).take (toInt32 (utf8 chars).length).toNat := by
  obtain ⟨buffer, room, gives⟩ := enumerates_text atText nonempty
  rw [gives]
  rintro ⟨value, converted, same⟩
  obtain ⟨succeeds, length⟩ := wtouInto_length converted
  have bytes := (length_utf8 chars).2
  have notNegative : 0 ≤ (lib.wtou (some buffer.length) (utf16 chars).dropLast).1 := by
    by_contra negative
    rw [toInt32_of_range (atText.cut.low _) (by omega)] at succeeds
    exact negative succeeds
  -- The two lengths are too close to be the same as an `int`.
  obtain ⟨less, close⟩ := cut_close atText.cut nonempty (by omega) notNegative
  have different := toInt32_ne_of_close less close
  have atMost := toInt32_natCast_le (utf8 chars).length
  have within := toInt32_natCast_le
    (lib.wtou (some buffer.length) (utf16 chars).dropLast).1.toNat
  rw [Int.toNat_of_nonneg notNegative] at within
  rw [same, List.length_take, Nat.min_eq_left (by omega), Nat.min_eq_left (by omega)] at length
  omega

/-- The entry of a value that is read is one with the same text. -/
theorem Listed.atText {call : Call} {type : RegType} {isText : type.isText = true}
    {small : (unitBytes (utf16 chars)).length < 2 ^ 32}
    (listed : Listed lib entry call (.text type chars isText small))
    (reallocates : lib.Reallocates) (name : lib.ConvertsText entry.name)
    (cut : lib.ConvertsCut chars) (sound : e.Sound) (here : key[e.idx]? = some entry)
    (valstr : e.valstr = true) : AtText lib key e entry chars where
  sound := sound
  reallocates := reallocates
  name := name
  cut := cut
  here := here
  valstr := valstr
  isText := by
    rw [listed.value]
    exact isText
  data := by
    rw [listed.value]
    rfl

/-- The texts agree if and only if there is no text, or its last unit is a terminator, or it is
so long that no read gives it. -/
theorem textsAgree_iff {type : RegType} {isText : type.isText = true}
    {small : (unitBytes (utf16 chars)).length < 2 ^ 32} (call : Call)
    (regular : call.Regular (.text type chars isText small))
    (listed : Listed lib entry call (.text type chars isText small))
    (reallocates : lib.Reallocates) (name : lib.ConvertsText entry.name)
    (cut : lib.ConvertsCut chars) :
    TextsAgree lib entry call ↔
      chars = [] ∨ chars.getLast? = some '\x00' ∨ toInt32 (utf8 chars).length < 0 := by
  constructor
  · intro agree
    by_contra other
    obtain ⟨nonempty, unterminated, notNegative⟩ : chars ≠ [] ∧ chars.getLast? ≠ some '\x00' ∧
        ¬ toInt32 (utf8 chars).length < 0 := by simpa [not_or] using other
    have whole : withoutTerminator chars = chars := if_neg unterminated
    have positive : 0 ≤ toInt32 (utf8 chars).length := Int.not_lt.mp notNegative
    obtain ⟨val, after, queries, sound, read⟩ := read_exists regular (by rw [whole]; exact positive)
    have given := (read_text regular sound read).2
    rw [whole] at given
    have atText : AtText lib [entry] (Enumerator.start true) entry chars :=
      listed.atText reallocates name cut (Enumerator.start_sound true) rfl rfl
    apply disagree_unterminated atText nonempty positive
    rw [← given]
    exact agree [entry] _ val after queries (.start true) rfl rfl sound read
  · intro condition key e val after queries reached valstr here sound read
    have atText := listed.atText reallocates name cut reached.sound here valstr
    obtain ⟨positive, given⟩ := read_text regular sound read
    rw [given]
    by_cases terminated : chars.getLast? = some '\x00'
    · have front : withoutTerminator chars = chars.dropLast := if_pos terminated
      rw [front] at positive ⊢
      exact agree_terminated atText terminated positive
    · have whole : withoutTerminator chars = chars := if_neg terminated
      rw [whole] at positive ⊢
      obtain rfl : chars = [] := by
        rcases condition with empty | ends | negative
        · exact empty
        · exact absurd ends terminated
        · exact absurd negative (Int.not_lt.mpr positive)
      have empty : utf8 [] = [] := rfl
      rw [empty, List.take_nil]
      exact enumerates_empty atText

end Contract

/-! ### Two values -/

/-- ffbase on ASCII texts, with memory for every vector. -/
def asciiEnum : EnumLib where
  toFfbase := asciiFfbase
  realloc old n := some (old ++ List.replicate (n - old.length) 0)
  formatR0 _ _ := []
  realloc_size := by
    intro width old new n grown
    cases grown
    rw [List.length_append, List.length_replicate]
    omega
  formatR0_within cap _ := Nat.zero_le cap

theorem asciiEnum_reallocates : asciiEnum.Reallocates := fun _ _ => ⟨_, rfl⟩

/-- An entry with the name "a". -/
def entryA (stored : Stored) : Entry := ⟨['a'], stored.value, by decide⟩

theorem entryA_listed (stored : Stored) :
    Listed asciiEnum (entryA stored) (callFor stored) stored := ⟨rfl, rfl, rfl⟩

/-- A conversion of "a" gives one byte or fails. -/
theorem asciiFfbase_cut : asciiFfbase.ConvertsCut ['a', '\x00'] := by
  have units : (utf16 ['a', '\x00']).dropLast = utf16 ['a'] := rfl
  refine ⟨asciiFfbase_text, fun cap => ?_, fun cap succeeds => ?_⟩
  · rw [units]
    rcases Nat.eq_zero_or_pos cap with rfl | room
    · decide
    · rw [asciiFfbase_text.fits cap room]
      decide
  · rw [units] at succeeds ⊢
    rcases Nat.eq_zero_or_pos cap with rfl | room
    · exact absurd succeeds (by decide)
    · rw [asciiFfbase_text.fits cap room]
      decide

/-- The text "a" with its terminator. -/
theorem textsAgree_iff_terminated :
    (callFor textA).Regular textA ∧ Listed asciiEnum (entryA textA) (callFor textA) textA ∧
      (TextsAgree asciiEnum (entryA textA) (callFor textA) ↔
        ['a', '\x00'] = [] ∨ ['a', '\x00'].getLast? = some '\x00' ∨
          toInt32 (utf8 ['a', '\x00']).length < 0) := by
  have regular : (callFor textA).Regular textA := callFor_regular asciiFfbase_text
  have listed := entryA_listed textA
  exact ⟨regular, listed, textsAgree_iff (callFor textA) regular listed asciiEnum_reallocates
    asciiFfbase_text asciiFfbase_cut⟩

theorem isText_sz : RegType.sz.isText = true := rfl

theorem length_bareA : (unitBytes (utf16 ['a'])).length < 2 ^ 32 := by
  rw [length_unitBytes]
  decide

/-- The text "a" without a terminator. -/
def bareA : Stored := .text .sz ['a'] isText_sz length_bareA

theorem asciiFfbase_nil : asciiFfbase.ConvertsText [] where
  measures := rfl
  fits _ _ := rfl
  fails _ few := absurd few (Nat.not_lt_zero _)

/-- Nothing is left of it without its unit. -/
theorem asciiFfbase_cutA : asciiFfbase.ConvertsCut ['a'] where
  text := asciiFfbase_nil
  low _ := (by decide : (-2 ^ 31 : Int) ≤ 0)
  half _ _ := by
    constructor
    · exact Int.le_refl 0
    · exact (by decide : (0 : Int) ≤ 0 + 3)

/-- It is read whole, but the enumerator gives nothing of it. -/
theorem not_textsAgree_bare :
    (callFor bareA).GivesWhole bareA ⟨.sz, none, 0⟩ ∧
      (∃ item last, ffwinregEnumNextval asciiEnum [entryA bareA] 2 (Enumerator.start true) =
        some (0, some item, last) ∧ item.value = []) ∧
      ¬ TextsAgree asciiEnum (entryA bareA) (callFor bareA) := by
  have regular : (callFor bareA).Regular bareA := callFor_regular asciiFfbase_text
  have whole : (callFor bareA).GivesWhole bareA ⟨.sz, none, 0⟩ := text_null regular rfl (by decide)
  have atText : AtText asciiEnum [entryA bareA] (Enumerator.start true) (entryA bareA) ['a'] :=
    (entryA_listed bareA).atText asciiEnum_reallocates asciiFfbase_text asciiFfbase_cutA
      (Enumerator.start_sound true) rfl rfl
  obtain ⟨buffer, _, gives⟩ := enumerates_text atText (List.cons_ne_nil 'a' [])
  have nothing := (gives []).mpr
    (@wtouInto_text asciiEnum [] asciiFfbase_nil buffer (Nat.zero_le _) (by decide))
  refine ⟨whole, nothing, fun agree => ?_⟩
  obtain ⟨after, queries, read, given⟩ := whole
  obtain ⟨item, last, called, same⟩ := agree [entryA bareA] (Enumerator.start true) _ after queries
    (.start true) rfl rfl (sound_of_null rfl) read
  obtain ⟨other, last', called', empty⟩ := nothing
  rw [called'] at called
  cases called
  obtain ⟨data, isData, isText, _⟩ := given.data
  rw [ReadVal.text, isData, Option.getD_some, isText, empty] at same
  cases same

end Ffos.Winreg
