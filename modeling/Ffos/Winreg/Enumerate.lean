/-
Module: Ffos.Winreg.Enumerate
Purpose: `ffwinreg_enum_nextval` of FFOS/winreg.h with `_ffwinreg_val_str`: the buffers that are
  used again for every entry, the queries, and the conversion of names and values.
Trusted boundary: `ffs_wtou`, `ffs_format_r0` and `ffvec_realloc` of ffbase, taken as the
  parameter `EnumLib`; RegEnumValueW gives an entry if it fits, and the system calls do not fail
Main exports: EnumLib, Entry, Ffvec, Enumerator, fetch, ffwinregValStr, ffwinregEnumNextval,
  Enumerator.Sound, Enumerator.start_sound, Enumerator.Sound.nextval
-/
import Ffos.Winreg.Read

namespace Ffos.Winreg

open Ffos.Lib

/-! ### ffbase and the system -/

/-- The formats that values other than texts are printed with. -/
inductive Format where
  | dword (i : Nat)
  | qword (i : Nat)
  | binary (bytes : List Byte)

/-- What the enumerator uses of ffbase: `ffvec_realloc` gives at least the elements it is asked
for, and no more than are needed or were there; what is in them is left open. `ffs_format_r0`
writes into the capacity. -/
structure EnumLib extends Ffbase where
  realloc : {width : Nat} → List (BitVec width) → Nat → Option (List (BitVec width))
  formatR0 : Nat → Format → List Byte
  realloc_size : ∀ {width : Nat} {old new : List (BitVec width)} {n : Nat},
    realloc old n = some new → n ≤ new.length ∧ new.length ≤ max n old.length
  formatR0_within : ∀ cap format, (formatR0 cap format).length ≤ cap

/-- A named value of a key. A name has at most 16383 characters. -/
structure Entry where
  name : List Char
  value : RegValue
  shortName : (utf16 name).length < 2 ^ 14

/-- `RegQueryInfoKeyW`: the length of the longest name, and of the largest value. -/
def maxName (key : List Entry) : Nat :=
  (key.map fun entry => (utf16 entry.name).length).foldr max 0

def maxValue (key : List Entry) : Nat :=
  (key.map fun entry => entry.value.bytes.length).foldr max 0

/-- What `RegEnumValueW` answers: an entry, ERROR_MORE_DATA or ERROR_NO_MORE_ITEMS. -/
inductive EnumAnswer where
  | found (entry : Entry)
  | more
  | noMoreItems

/-- The name needs room for a NUL. -/
def regEnumValue (key : List Entry) (idx nameLen valLen : Nat) : EnumAnswer :=
  match key[idx]? with
  | none => .noMoreItems
  | some entry =>
      if (utf16 entry.name).length < nameLen ∧ entry.value.bytes.length ≤ valLen then .found entry
      else .more

/-! ### The enumerator -/

/-- `ffvec`. The capacity is the length of the buffer. -/
structure Ffvec (α : Type) where
  buffer : List α
  len : Nat

/-- The elements that count. -/
def Ffvec.text {α : Type} (v : Ffvec α) : List α := v.buffer.take v.len

/-- `ffwinreg_enum`. The length of `wname` is never used. -/
structure Enumerator where
  idx : Nat
  valstr : Bool
  name : Ffvec Byte
  value : Ffvec Byte
  wname : List Wchar
  wval : Ffvec Byte

/-- A number as a `DWORD`. -/
def dword (n : Nat) : Nat := n % 2 ^ 32

/-- The loop of `ffwinreg_enum_nextval`: the entry, or the result that is returned without one.
None is a loop that has not ended, or a store outside of a buffer. -/
def fetch (lib : EnumLib) (key : List Entry) :
    Nat → Enumerator → Option (Except Int Entry × Enumerator)
  | 0, _ => none
  | attempts + 1, e =>
      match regEnumValue key e.idx (dword e.wname.length) (dword e.wval.buffer.length) with
      | .noMoreItems => some (.error 1, e)
      | .found entry => do
          let wname ← storeAll e.wname 0 (utf16 entry.name ++ [0])
          let buffer ← storeAll e.wval.buffer 0 entry.value.bytes
          some (.ok entry, { e with wname := wname, wval := ⟨buffer, entry.value.bytes.length⟩ })
      | .more =>
          -- get maximum length of value's name and data
          match lib.realloc e.wname (dword (maxName key + 1)) with
          | none => some (.error (-1), e)
          | some wname =>
              match lib.realloc e.wval.buffer (maxValue key) with
              | none => some (.error (-1), { e with wname := wname })
              | some buffer =>
                  fetch lib key attempts { e with wname := wname, wval := ⟨buffer, e.wval.len⟩ }

/-- A conversion with `ffs_wtou` into a buffer, and `FF_ASSERT(r >= 0)`. -/
def wtouInto (lib : EnumLib) (buffer : List Byte) (units : List Wchar) : Option (Ffvec Byte) := do
  let (r, bytes) := lib.wtou (some buffer.length) units
  let buffer ← storeAll buffer 0 bytes
  if toInt32 r < 0 then none else some ⟨buffer, (toInt32 r).toNat⟩

/-- A value printed with `ffs_format_r0`. -/
def formatInto (lib : EnumLib) (buffer : List Byte) (format : Format) : Option (Ffvec Byte) :=
  let bytes := lib.formatR0 buffer.length format
  (storeAll buffer 0 bytes).map fun buffer => ⟨buffer, bytes.length⟩

def regBinary : Nat := 3
def regDword : Nat := 4
def regQword : Nat := 11

/-- `_ffwinreg_val_str`, where `value` is `&e->value`: the result, and the vector after it. -/
def ffwinregValStr (lib : EnumLib) (type : RegType) (wval value : Ffvec Byte) :
    Option (Int × Ffvec Byte) :=
  let value : Ffvec Byte := { value with len := 0 }
  if type.isText then
    if wval.len = 0 then some (0, value)
    else
      match lib.realloc value.buffer (wval.len / 2 * 4) with
      | none => some (-1, value)
      | some buffer =>
          (wtouInto lib buffer ((unitsOf wval.text).take ((wval.len - 1) / 2))).map (0, ·)
  else if type = .other regDword then
    (formatInto lib value.buffer (.dword (leNat (wval.buffer.take 4)))).map (0, ·)
  else if type = .other regQword then
    (formatInto lib value.buffer (.qword (leNat (wval.buffer.take 8)))).map (0, ·)
  else if type = .other regBinary then
    match lib.realloc value.buffer (wval.len * 2) with
    | none => some (-1, value)
    | some buffer => (formatInto lib buffer (.binary wval.text)).map (0, ·)
  else some (-1, value)

/-- What is given of an entry. -/
structure Item where
  name : List Byte
  value : List Byte
  type : RegType

/-- The value of an entry that was fetched, after its name. -/
def enumValue (lib : EnumLib) (entry : Entry) (e : Enumerator) :
    Option (Int × Option Item × Enumerator) :=
  if e.valstr = false then
    some (0, some ⟨e.name.text, e.wval.text, entry.value.type⟩, { e with idx := e.idx + 1 })
  else
    (ffwinregValStr lib entry.value.type e.wval e.value).map fun (r, value) =>
      if r ≠ 0 then (-1, none, { e with value := value })
      else
        (0, some ⟨e.name.text, value.text, entry.value.type⟩,
          { e with value := value, idx := e.idx + 1 })

/-- `ffwinreg_enum_nextval`: the result, the entry if it is 0, and the enumerator after it. -/
def ffwinregEnumNextval (lib : EnumLib) (key : List Entry) (attempts : Nat) (e : Enumerator) :
    Option (Int × Option Item × Enumerator) :=
  match fetch lib key attempts e with
  | none => none
  | some (.error r, e) => some (r, none, e)
  | some (.ok entry, e) =>
      match lib.realloc e.name.buffer (dword ((utf16 entry.name).length * 4)) with
      | none => some (-1, none, e)
      | some buffer => do
          let name ← wtouInto lib buffer (e.wname.take (utf16 entry.name).length)
          enumValue lib entry { e with name := name }

/-! ### The capacities -/

/-- The capacities that are passed as `DWORD` are not cut. -/
structure Enumerator.Sound (e : Enumerator) : Prop where
  wname : e.wname.length < 2 ^ 32
  wval : e.wval.buffer.length < 2 ^ 32

/-- `ffwinreg_enum_init`. -/
def Enumerator.start (valstr : Bool) : Enumerator where
  idx := 0
  valstr := valstr
  name := ⟨List.replicate 256 0, 0⟩
  value := ⟨List.replicate 256 0, 0⟩
  wname := List.replicate 256 0
  wval := ⟨List.replicate 256 0, 0⟩

theorem Enumerator.start_sound (valstr : Bool) : (Enumerator.start valstr).Sound where
  wname := by
    rw [start, List.length_replicate]
    decide
  wval := by
    rw [start, List.length_replicate]
    decide

theorem le_maximum {measure : Entry → Nat} {key : List Entry} {entry : Entry}
    (member : entry ∈ key) : measure entry ≤ (key.map measure).foldr max 0 := by
  induction key with
  | nil => exact absurd member List.not_mem_nil
  | cons first rest inductionHypothesis =>
      rw [List.map_cons, List.foldr_cons]
      rcases List.mem_cons.mp member with rfl | later
      · exact Nat.le_max_left _ _
      · exact Nat.le_trans (inductionHypothesis later) (Nat.le_max_right _ _)

theorem maximum_lt {measure : Entry → Nat} {key : List Entry} {bound : Nat} (positive : 0 < bound)
    (bounded : ∀ entry ∈ key, measure entry < bound) : (key.map measure).foldr max 0 < bound := by
  induction key with
  | nil => exact positive
  | cons first rest inductionHypothesis =>
      rw [List.map_cons, List.foldr_cons]
      apply Nat.max_lt.mpr
      refine ⟨bounded first List.mem_cons_self, inductionHypothesis ?_⟩
      intro entry member
      exact bounded entry (List.mem_cons_of_mem _ member)

theorem maxName_lt (key : List Entry) : maxName key < 2 ^ 14 :=
  maximum_lt (by decide) fun entry _ => entry.shortName

theorem maxValue_lt (key : List Entry) : maxValue key < 2 ^ 32 :=
  maximum_lt (by decide) fun entry _ => entry.value.small

theorem dword_of_lt {n : Nat} (small : n < 2 ^ 32) : dword n = n := Nat.mod_eq_of_lt small

section Capacities

variable {lib : EnumLib} {key : List Entry} {e after : Enumerator}

/-- A new buffer for the longest name. -/
theorem Enumerator.Sound.growName (sound : e.Sound) {wname : List Wchar}
    (grown : lib.realloc e.wname (dword (maxName key + 1)) = some wname) :
    wname.length < 2 ^ 32 := by
  have nameBound := maxName_lt key
  apply Nat.lt_of_le_of_lt (lib.realloc_size grown).2
  apply Nat.max_lt.mpr
  rw [dword_of_lt (by omega)]
  exact ⟨by omega, sound.wname⟩

/-- New buffers for the longest name and the largest value. -/
theorem Enumerator.Sound.grow (sound : e.Sound) {wname : List Wchar} {buffer : List Byte}
    (wnameGrown : lib.realloc e.wname (dword (maxName key + 1)) = some wname)
    (wvalGrown : lib.realloc e.wval.buffer (maxValue key) = some buffer) :
    Enumerator.Sound { e with wname := wname, wval := ⟨buffer, e.wval.len⟩ } := by
  refine ⟨sound.growName wnameGrown, ?_⟩
  apply Nat.lt_of_le_of_lt (lib.realloc_size wvalGrown).2
  exact Nat.max_lt.mpr ⟨maxValue_lt key, sound.wval⟩

/-- The loop keeps the capacities small. -/
theorem Enumerator.Sound.fetch (sound : e.Sound) {attempts : Nat} {result : Except Int Entry}
    (fetched : fetch lib key attempts e = some (result, after)) : after.Sound := by
  induction attempts generalizing e with
  | zero => cases fetched
  | succ attempts inductionHypothesis =>
      unfold Winreg.fetch at fetched
      split at fetched
      · cases fetched
        exact sound
      · obtain ⟨wname, wnameStored, fetched⟩ := Option.bind_eq_some_iff.mp fetched
        obtain ⟨buffer, wvalStored, fetched⟩ := Option.bind_eq_some_iff.mp fetched
        cases fetched
        constructor
        · exact Nat.lt_of_le_of_lt (Nat.le_of_eq (length_of_storeAll wnameStored)) sound.wname
        · exact Nat.lt_of_le_of_lt (Nat.le_of_eq (length_of_storeAll wvalStored)) sound.wval
      · split at fetched
        · cases fetched
          exact sound
        · next wname wnameGrown =>
          split at fetched
          · cases fetched
            exact ⟨sound.growName wnameGrown, sound.wval⟩
          · next buffer wvalGrown => exact inductionHypothesis (sound.grow wnameGrown wvalGrown) fetched

/-- The rest of a call changes neither of the two buffers. -/
theorem enumValue_sound (sound : e.Sound) {entry : Entry} {r : Int} {item : Option Item}
    (called : enumValue lib entry e = some (r, item, after)) : after.Sound := by
  unfold enumValue at called
  split at called
  · cases called
    exact ⟨sound.wname, sound.wval⟩
  · obtain ⟨⟨result, value⟩, _, same⟩ := Option.map_eq_some_iff.mp called
    dsimp only at same
    split at same
    · cases same
      exact ⟨sound.wname, sound.wval⟩
    · cases same
      exact ⟨sound.wname, sound.wval⟩

theorem Enumerator.Sound.nextval (sound : e.Sound) {attempts : Nat} {r : Int} {item : Option Item}
    (called : ffwinregEnumNextval lib key attempts e = some (r, item, after)) : after.Sound := by
  unfold ffwinregEnumNextval at called
  split at called
  · cases called
  · next fetched =>
    cases called
    exact sound.fetch fetched
  · next entry between fetched =>
    have soundBetween := sound.fetch fetched
    split at called
    · cases called
      exact soundBetween
    · obtain ⟨name, _, called⟩ := Option.bind_eq_some_iff.mp called
      apply enumValue_sound _ called
      exact ⟨soundBetween.wname, soundBetween.wval⟩

/-- The enumerators that a program can have: a new one, and one that enumerates the values of
this key or of another one. -/
inductive Enumerator.Reached (lib : EnumLib) : Enumerator → Prop where
  | start (valstr : Bool) : Reached lib (Enumerator.start valstr)
  | begin {e : Enumerator} (reached : Reached lib e) : Reached lib { e with idx := 0 }
  | nextval {e after : Enumerator} (reached : Reached lib e) (key : List Entry) {attempts : Nat}
      {r : Int} {item : Option Item}
      (called : ffwinregEnumNextval lib key attempts e = some (r, item, after)) : Reached lib after

/-- In a whole run the capacities stay small. -/
theorem Enumerator.Reached.sound (reached : e.Reached lib) : e.Sound := by
  induction reached with
  | start valstr => exact start_sound valstr
  | begin _ inductionHypothesis => exact ⟨inductionHypothesis.wname, inductionHypothesis.wval⟩
  | nextval _ key called inductionHypothesis => exact inductionHypothesis.nextval called

end Capacities

/-! ### One entry -/

/-- `ffvec_realloc` does not run out of memory. -/
def EnumLib.Reallocates (lib : EnumLib) : Prop :=
  ∀ {width : Nat} (old : List (BitVec width)) (n : Nat), ∃ new, lib.realloc old n = some new

section Fetch

variable {lib : EnumLib} {key : List Entry} {e : Enumerator} {entry : Entry}

/-- An entry that was fetched: the name and the value stand at the front of the two buffers, and
nothing else has changed. -/
structure Fetched (before : Enumerator) (entry : Entry) (after : Enumerator) : Prop where
  name : after.wname.take (utf16 entry.name).length = utf16 entry.name
  value : after.wval.text = entry.value.bytes
  len : after.wval.len = entry.value.bytes.length
  valstr : after.valstr = before.valstr

/-- An entry that fits is fetched with the first query. -/
theorem fetch_found (here : key[e.idx]? = some entry) (attempts : Nat)
    (nameFits : (utf16 entry.name).length < dword e.wname.length)
    (valueFits : entry.value.bytes.length ≤ dword e.wval.buffer.length) :
    ∃ after, fetch lib key (attempts + 1) e = some (.ok entry, after) ∧ Fetched e entry after := by
  have nameRoom : (utf16 entry.name ++ [0]).length ≤ e.wname.length := by
    rw [List.length_append, List.length_singleton]
    exact Nat.le_trans nameFits (Nat.mod_le _ _)
  have valueRoom : entry.value.bytes.length ≤ e.wval.buffer.length :=
    Nat.le_trans valueFits (Nat.mod_le _ _)
  have nameStored : storeAll e.wname 0 (utf16 entry.name ++ [0]) = some
      (utf16 entry.name ++ [0] ++ e.wname.drop (utf16 entry.name ++ [0]).length) := by
    rw [storeAll, if_pos (by omega), List.take_zero, List.nil_append, Nat.zero_add]
  have answer : regEnumValue key e.idx (dword e.wname.length) (dword e.wval.buffer.length) =
      .found entry := by
    rw [regEnumValue, here]
    exact if_pos ⟨nameFits, valueFits⟩
  refine ⟨{ e with
      wname := utf16 entry.name ++ [0] ++ e.wname.drop (utf16 entry.name ++ [0]).length
      wval := ⟨entry.value.bytes ++ e.wval.buffer.drop entry.value.bytes.length,
        entry.value.bytes.length⟩ }, ?_, ?_, ?_, rfl, rfl⟩
  · rw [fetch, answer]
    simp only [nameStored, storeAll_front valueRoom, Option.bind_eq_bind, Option.bind_some]
  · dsimp only
    rw [List.append_assoc, List.take_left]
  · exact List.take_left

/-- Any entry is fetched with two queries, whatever the buffers are and hold. -/
theorem fetch_entry (sound : e.Sound) (reallocates : lib.Reallocates)
    (here : key[e.idx]? = some entry) :
    ∃ after, fetch lib key 2 e = some (.ok entry, after) ∧ Fetched e entry after := by
  by_cases fits : (utf16 entry.name).length < dword e.wname.length ∧
      entry.value.bytes.length ≤ dword e.wval.buffer.length
  · exact fetch_found here 1 fits.1 fits.2
  · obtain ⟨wname, wnameGrown⟩ := reallocates e.wname (dword (maxName key + 1))
    obtain ⟨buffer, wvalGrown⟩ := reallocates e.wval.buffer (maxValue key)
    have soundAgain := sound.grow wnameGrown wvalGrown
    have member := List.mem_of_getElem? here
    have longest : (utf16 entry.name).length ≤ maxName key :=
      @le_maximum (fun entry => (utf16 entry.name).length) key entry member
    have largest : entry.value.bytes.length ≤ maxValue key :=
      @le_maximum (fun entry => entry.value.bytes.length) key entry member
    have nameBound := maxName_lt key
    have wnameRoom := (lib.realloc_size wnameGrown).1
    rw [dword_of_lt (by omega)] at wnameRoom
    have wvalRoom := (lib.realloc_size wvalGrown).1
    have more : regEnumValue key e.idx (dword e.wname.length) (dword e.wval.buffer.length) =
        .more := by
      rw [regEnumValue, here]
      exact if_neg fits
    have nameFits : (utf16 entry.name).length < dword wname.length := by
      rw [dword_of_lt soundAgain.wname]
      exact Nat.lt_of_le_of_lt longest (Nat.lt_of_succ_le wnameRoom)
    have valueFits : entry.value.bytes.length ≤ dword buffer.length := by
      rw [dword_of_lt soundAgain.wval]
      exact Nat.le_trans largest wvalRoom
    obtain ⟨after, fetched, holds⟩ := @fetch_found lib key
      { e with wname := wname, wval := ⟨buffer, e.wval.len⟩ } entry here 0 nameFits valueFits
    refine ⟨after, ?_, holds.name, holds.value, holds.len, holds.valstr⟩
    rw [fetch, more]
    simp only [wnameGrown, wvalGrown]
    exact fetched

end Fetch

end Ffos.Winreg
