/-
Module: Ffos.Lib.ByteMemory
Purpose: Memory as a list of bytes: terminated strings, reads at an offset that fail outside of
  it, little-endian numbers, and streams of encoded records.
Trusted boundary: none
Main exports: Byte, takeWhile_terminated, cLength, readBytes, leBytes, readLe, Yields, Visits, yields_of_encoded,
  yields_iff_decoded, cut_flatMap
-/
import Mathlib.Algebra.Group.Int.Defs
import Mathlib.Algebra.Group.Nat.Defs
import Mathlib.Data.List.Forall2

namespace Ffos.Lib

universe u v w

abbrev Byte := BitVec 8

instance : LawfulBEq Byte := inferInstance

/-! ### Terminated strings -/

/-- Reading up to the first terminator gives the values before it. -/
theorem takeWhile_terminated {α : Type u} [DecidableEq α] {stop : α} {values : List α}
    (absent : stop ∉ values) (rest : List α) :
    (values ++ stop :: rest).takeWhile (· ≠ stop) = values := by
  have kept : ∀ value ∈ values, decide (value ≠ stop) = true := by
    intro value member
    apply decide_eq_true
    rintro rfl
    exact absent member
  rw [List.takeWhile_append_of_pos kept, List.takeWhile_cons_of_neg (by simp), List.append_nil]

/-- The length of the string at the start of a piece of memory. -/
def cLength (memory : List Byte) : Nat := (memory.takeWhile (· ≠ 0)).length

theorem cLength_terminated {bytes : List Byte} (noNul : 0 ∉ bytes) (rest : List Byte) :
    cLength (bytes ++ 0 :: rest) = bytes.length := by
  rw [cLength, takeWhile_terminated noNul]

/-! ### Reads -/

/-- The bytes at an offset, or nothing if some of them are outside. -/
def readBytes (memory : List Byte) (offset count : Nat) : Option (List Byte) :=
  if offset + count ≤ memory.length then some ((memory.drop offset).take count) else none

/-- Reading a part that was laid out between others gives that part. -/
theorem readBytes_middle (before part after : List Byte) :
    readBytes (before ++ part ++ after) before.length part.length = some part := by
  unfold readBytes
  rw [if_pos (by simp)]
  simp [List.append_assoc]

theorem length_of_readBytes {memory bytes : List Byte} {offset count : Nat}
    (read : readBytes memory offset count = some bytes) : bytes.length = count := by
  unfold readBytes at read
  split at read
  · obtain rfl := Option.some.inj read
    rw [List.length_take, List.length_drop]
    omega
  · cases read

theorem bounded_of_readBytes {memory bytes : List Byte} {offset count : Nat}
    (read : readBytes memory offset count = some bytes) : offset + count ≤ memory.length := by
  unfold readBytes at read
  split at read
  · assumption
  · cases read

/-- Reading less than a part gives its beginning. -/
theorem prefix_of_readBytes_middle {before part after bytes : List Byte} {count : Nat}
    (read : readBytes (before ++ part ++ after) before.length count = some bytes)
    (within : count ≤ part.length) : bytes <+: part := by
  unfold readBytes at read
  split at read
  · obtain rfl := Option.some.inj read
    rw [List.append_assoc, List.drop_left, List.take_append_of_le_length within]
    exact List.take_prefix count part
  · cases read

/-! ### Little-endian numbers -/

/-- The low `count` bytes of a number, the lowest first. -/
def leBytes : Nat → Nat → List Byte
  | 0, _ => []
  | count + 1, value => BitVec.ofNat 8 value :: leBytes count (value / 256)

/-- The number that the bytes stand for. -/
def leNat : List Byte → Nat
  | [] => 0
  | byte :: rest => byte.toNat + 256 * leNat rest

@[simp] theorem length_leBytes (count value : Nat) : (leBytes count value).length = count := by
  induction count generalizing value with
  | zero => rfl
  | succ count inductionHypothesis => simp [leBytes, inductionHypothesis]

theorem leNat_leBytes (count value : Nat) : leNat (leBytes count value) = value % 256 ^ count := by
  induction count generalizing value with
  | zero => simp [leBytes, leNat, Nat.mod_one]
  | succ count inductionHypothesis =>
      have lowest : (BitVec.ofNat 8 value).toNat = value % 256 := BitVec.toNat_ofNat value 8
      rw [leBytes, leNat, inductionHypothesis, lowest, Nat.pow_succ,
        Nat.mul_comm (256 ^ count), Nat.mod_mul]

/-- Read a little-endian number. -/
def readLe (memory : List Byte) (offset count : Nat) : Option Nat :=
  (readBytes memory offset count).map leNat

theorem leNat_lt (bytes : List Byte) : leNat bytes < 256 ^ bytes.length := by
  induction bytes with
  | nil => exact Nat.one_pos
  | cons byte bytes inductionHypothesis =>
      have low : byte.toNat < 256 := byte.isLt
      rw [leNat, List.length_cons, Nat.pow_succ]
      omega

/-- What is read of a number of bytes fits in them. -/
theorem readLe_lt {memory : List Byte} {offset count value : Nat}
    (read : readLe memory offset count = some value) : value < 256 ^ count := by
  obtain ⟨bytes, found, rfl⟩ := Option.map_eq_some_iff.mp read
  rw [← length_of_readBytes found]
  exact leNat_lt bytes

/-- A number that was laid out between other bytes is read back. -/
theorem readLe_middle (before after : List Byte) {count value : Nat} (fits : value < 256 ^ count) :
    readLe (before ++ leBytes count value ++ after) before.length count = some value := by
  have read := readBytes_middle before (leBytes count value) after
  rw [length_leBytes] at read
  rw [readLe, read, Option.map_some, leNat_leBytes, Nat.mod_eq_of_lt fits]

theorem readLe_of_eq {before after memory : List Byte} {offset count value : Nat}
    (laidOut : memory = before ++ leBytes count value ++ after) (place : before.length = offset)
    (fits : value < 256 ^ count) : readLe memory offset count = some value := by
  rw [laidOut, ← place]
  exact readLe_middle before after fits

/-! ### Streams of records -/

section Stream

variable {Cursor : Type u} {Item : Type v} {Record : Type w}

/-- Calling `next` again and again gives these items and then the end. `next` fails
when it reads outside of the memory. -/
def Yields (next : Cursor → Option (Option (Item × Cursor))) : Cursor → List Item → Prop
  | cursor, [] => next cursor = some none
  | cursor, item :: items =>
      ∃ after, next cursor = some (some (item, after)) ∧ Yields next after items

/-- The cursors that repeated calls of `next` come to. -/
inductive Visits (next : Cursor → Option (Option (Item × Cursor))) (start : Cursor) :
    Cursor → Prop where
  | start : Visits next start start
  | call {cursor after : Cursor} {item : Item} (visited : Visits next start cursor)
      (found : next cursor = some (some (item, after))) : Visits next start after

/-- Calls that come to an end do so from every cursor they come to. -/
theorem Visits.yields {next : Cursor → Option (Option (Item × Cursor))} {start cursor : Cursor}
    (visited : Visits next start cursor) {items : List Item} (ends : Yields next start items) :
    ∃ rest, Yields next cursor rest := by
  induction visited with
  | start => exact ⟨items, ends⟩
  | call _ found inductionHypothesis =>
      obtain ⟨rest, yields⟩ := inductionHypothesis
      cases rest with
      | nil =>
          rw [Yields, found] at yields
          cases yields
      | cons item rest =>
          obtain ⟨after, same, later⟩ := yields
          rw [found] at same
          obtain ⟨_, rfl⟩ := Prod.mk.inj (Option.some.inj (Option.some.inj same))
          exact ⟨rest, later⟩

/-- A cursor that is left as it is never comes to the end. -/
theorem not_yields_of_stuck {next : Cursor → Option (Option (Item × Cursor))} {cursor : Cursor}
    {item : Item} (stuck : next cursor = some (some (item, cursor))) (items : List Item) :
    ¬ Yields next cursor items := by
  induction items with
  | nil =>
      intro yields
      rw [Yields, stuck] at yields
      cases yields
  | cons other items inductionHypothesis =>
      rintro ⟨after, same, later⟩
      rw [stuck] at same
      obtain ⟨_, rfl⟩ := Prod.mk.inj (Option.some.inj (Option.some.inj same))
      exact inductionHypothesis later

/-- The items of records that are laid out one after the other from an offset on. -/
def itemsFrom (encode : Record → List Byte) (item : Nat → Record → Item) :
    Nat → List Record → List Item
  | _, [] => []
  | offset, record :: records =>
      item offset record :: itemsFrom encode item (offset + (encode record).length) records

/-- A decoder that finds every good record at its place and stops at the end yields
all records of an encoded list, as long as the list is shorter than the limit of the
decoder's lengths. -/
theorem yields_of_encoded {memory : List Byte}
    {next : Cursor → Option (Option (Item × Cursor))} {encode : Record → List Byte}
    {item : Nat → Record → Item} {limit : Nat} (cursor : Nat → Nat → Cursor)
    (Good : Record → Prop)
    (stop : ∀ offset, next (cursor offset 0) = some none)
    (step : ∀ (before after : List Byte) (record : Record) (rest : List Record), Good record →
      (encode record ++ rest.flatMap encode).length < limit →
      memory = before ++ (encode record ++ rest.flatMap encode) ++ after →
      next (cursor before.length (encode record ++ rest.flatMap encode).length) =
        some (some (item before.length record,
          cursor (before.length + (encode record).length) (rest.flatMap encode).length)))
    (records : List Record) (good : ∀ record ∈ records, Good record)
    (fits : (records.flatMap encode).length < limit) (before after : List Byte)
    (layout : memory = before ++ records.flatMap encode ++ after) :
    Yields next (cursor before.length (records.flatMap encode).length)
      (itemsFrom encode item before.length records) := by
  induction records generalizing before with
  | nil => exact stop before.length
  | cons record rest inductionHypothesis =>
      rw [List.flatMap_cons] at layout fits ⊢
      refine ⟨_, step before after record rest (good record List.mem_cons_self) fits layout, ?_⟩
      rw [List.length_append] at fits
      have tail := inductionHypothesis (fun other member => good other (List.mem_cons_of_mem _ member))
        (by omega) (before ++ encode record) (by simp [layout])
      rw [List.length_append] at tail
      exact tail

/-- A decoder that makes of every record what `decode` makes of it yields a list of
items exactly if they are the decoded records. -/
theorem yields_iff_decoded {memory : List Byte}
    (next : Cursor → Option (Option (Item × Cursor))) (encode : Record → List Byte)
    (decode : Record → Option Item) (cursor : Nat → Nat → Cursor)
    (stop : ∀ offset, next (cursor offset 0) = some none)
    (step : ∀ (before after : List Byte) (record : Record) (rest : List Record),
      memory = before ++ (encode record ++ rest.flatMap encode) ++ after →
      next (cursor before.length (encode record ++ rest.flatMap encode).length) =
        (decode record).map fun item =>
          some (item,
            cursor (before.length + (encode record).length) (rest.flatMap encode).length))
    (records : List Record) (before after : List Byte)
    (layout : memory = before ++ records.flatMap encode ++ after) (items : List Item) :
    Yields next (cursor before.length (records.flatMap encode).length) items ↔
      List.Forall₂ (fun record item => decode record = some item) records items := by
  induction records generalizing before items with
  | nil =>
      cases items with
      | nil => simpa [Yields] using stop before.length
      | cons item items => simp [Yields, stop before.length]
  | cons record rest inductionHypothesis =>
      rw [List.flatMap_cons] at layout ⊢
      have here := step before after record rest layout
      have tail := inductionHypothesis (before ++ encode record) (by simp [layout])
      rw [List.length_append] at tail
      generalize cursor before.length (encode record ++ rest.flatMap encode).length = current
        at here ⊢
      cases items with
      | nil =>
          cases found : decode record <;> simp [Yields, here, found]
      | cons item items =>
          rw [List.forall₂_cons, ← tail]
          cases found : decode record with
          | none => simp [Yields, here, found]
          | some decoded =>
              simp only [Yields, here, found, Option.map_some, Option.some.injEq, Prod.mk.injEq]
              constructor
              · rintro ⟨after, ⟨rfl, rfl⟩, rest⟩
                exact ⟨rfl, rest⟩
              · rintro ⟨rfl, rest⟩
                exact ⟨_, ⟨rfl, rfl⟩, rest⟩

/-- A cut through a stream falls between two records, or strictly inside of one. -/
theorem cut_flatMap {α : Type u} (encode : Record → List α) (records : List Record)
    (front back : List α) (cut : records.flatMap encode = front ++ back) :
    ∃ before after, records = before ++ after ∧
      (front = before.flatMap encode ∧ back = after.flatMap encode ∨
        ∃ record later first second, after = record :: later ∧ encode record = first ++ second ∧
          first ≠ [] ∧ second ≠ [] ∧ front = before.flatMap encode ++ first) := by
  induction records generalizing front with
  | nil =>
      obtain ⟨rfl, rfl⟩ := List.append_eq_nil_iff.mp cut.symm
      exact ⟨[], [], rfl, Or.inl ⟨rfl, rfl⟩⟩
  | cons record rest inductionHypothesis =>
      rw [List.flatMap_cons] at cut
      rcases List.append_eq_append_iff.mp cut with ⟨more, front_eq, rest_eq⟩ | ⟨second, whole, back_eq⟩
      · obtain ⟨before, after, rest_split, place⟩ := inductionHypothesis more rest_eq
        refine ⟨record :: before, after, by rw [rest_split, List.cons_append], ?_⟩
        rcases place with ⟨more_eq, back_eq⟩ | ⟨inner, later, first, second, shape, split, one, two, more_eq⟩
        · exact Or.inl ⟨by rw [front_eq, more_eq, List.flatMap_cons], back_eq⟩
        · refine Or.inr ⟨inner, later, first, second, shape, split, one, two, ?_⟩
          rw [front_eq, more_eq, List.flatMap_cons, List.append_assoc]
      · -- the cut is inside of the first record, or at one of its ends
        rcases eq_or_ne second [] with rfl | secondNonempty
        · refine ⟨[record], rest, rfl, Or.inl ⟨?_, ?_⟩⟩
          · simpa using whole.symm
          · simpa using back_eq
        · rcases eq_or_ne front [] with rfl | frontNonempty
          · refine ⟨[], record :: rest, rfl, Or.inl ⟨rfl, ?_⟩⟩
            simpa using cut.symm
          · exact ⟨[], record :: rest, rfl, Or.inr
              ⟨record, rest, front, second, rfl, whole, frontNonempty, secondNonempty, rfl⟩⟩

end Stream

end Ffos.Lib
