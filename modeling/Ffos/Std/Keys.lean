/-
Module: Ffos.Std.Keys
Purpose: `ffstd_keyread` and `ffstd_keyparse` of FFOS/std.h on UNIX, and the keys that
  they make of terminal input that arrives in pieces.
Trusted boundary: the bytes that a terminal sends for a key; `read` is an input
Main exports: ffstdKeyread, ffstdKeyparse, Key, keysOfPieces, keysOfPieces_iff
-/
import Ffos.Lib.ByteMemory

namespace Ffos.Std

open Ffos.Lib

/-! ### The code -/

/-- `enum FFKEY`. -/
def ffkeyVirt : BitVec 32 := 1 <<< 31
def ffkeyUp : BitVec 32 := ffkeyVirt + 1
def ffkeyDown : BitVec 32 := ffkeyVirt + 2
def ffkeyRight : BitVec 32 := ffkeyVirt + 3
def ffkeyLeft : BitVec 32 := ffkeyVirt + 4
def ffkeyCtrl : BitVec 32 := 1 <<< 24
def ffkeyShift : BitVec 32 := 2 <<< 24
def ffkeyAlt : BitVec 32 := 4 <<< 24

/-- How `read` ends: with bytes, at the end of the file, or with an error. -/
inductive ReadResult where
  | bytes (piece : List Byte)
  | again
  | failed
deriving DecidableEq, Repr

/-- `ffstd_keyread`: the value returned, `ev->buf` after it and the data set, if any. A
read of nothing is EINVAL. -/
def ffstdKeyread (result : ReadResult) (buf : List Byte) : Int × List Byte × Option (List Byte) :=
  match result with
  | .again => (0, buf, none)
  | .failed => (-1, buf, none)
  | .bytes piece =>
      if piece.length = 0 then (-1, buf, none)
      else
        let buf := piece ++ buf.drop piece.length
        (piece.length, buf, some (buf.take piece.length))

/-- `key_esc1`, from `N == 2` on. -/
def keyEsc1 : List (BitVec 32) :=
  [ffkeyShift, ffkeyAlt, ffkeyShift ||| ffkeyAlt, ffkeyCtrl, ffkeyCtrl ||| ffkeyShift,
    ffkeyCtrl ||| ffkeyAlt, ffkeyCtrl ||| ffkeyShift ||| ffkeyAlt]

/-- The end of an escape sequence: 'A'..'D' at `d[i]`. -/
def arrowAt (data : List Byte) (r : BitVec 32) (i : Nat) : BitVec 32 × List Byte :=
  let c := data.getD i 0
  if 0x41 ≤ c ∧ c ≤ 0x44 then
    (r ||| (ffkeyUp + c.setWidth 32 - 0x41), data.drop (i + 1))
  else (-1, data)

/-- `ffstd_keyparse`: the value returned and the data that is left. -/
def ffstdKeyparse (data : List Byte) : BitVec 32 × List Byte :=
  let d := fun i => data.getD i 0
  if data.length = 0 then (-1, data)
  else if d 0 = 0x1b ∧ data.length ≥ 3 ∧ d 1 = 0x5b then
    if d 2 = 0x31 ∧ data.length > 5 ∧ d 3 = 0x3b then
      match keyEsc1[((d 4).setWidth 32 - 0x32 : BitVec 32).toNat]? with
      | none => (-1, data)
      | some r => arrowAt data r 5
    else arrowAt data 0 2
  else ((d 0).signExtend 32, data.drop 1)

/-- Calls of `ffstd_keyparse` until the data is empty: the values returned, or none if
there is data left after that many calls. -/
def keyparseUntilEmpty : Nat → List Byte → Option (List (BitVec 32))
  | _, [] => some []
  | 0, _ :: _ => none
  | calls + 1, byte :: bytes =>
      let (key, rest) := ffstdKeyparse (byte :: bytes)
      (keyparseUntilEmpty calls rest).map (key :: ·)

/-- Each piece is read into the buffer and parsed until it is empty. -/
def keysOfPieces (calls : Nat) (buf : List Byte) : List (List Byte) → Option (List (BitVec 32))
  | [] => some []
  | piece :: pieces =>
      let (_, buf, data) := ffstdKeyread (.bytes piece) buf
      (data.bind (keyparseUntilEmpty calls)).bind fun keys =>
        (keysOfPieces calls buf pieces).map (keys ++ ·)

/-! ### Keys and what the terminal sends for them -/

inductive Arrow where
  | up
  | down
  | right
  | left
deriving DecidableEq, Repr

structure Modifiers where
  shift : Bool
  alt : Bool
  ctrl : Bool
deriving DecidableEq, Repr

/-- An ASCII character other than ESC. -/
structure Plain where
  byte : Byte
  ascii : byte < 0x80
  notEsc : byte ≠ 0x1b

inductive Key where
  | plain (c : Plain)
  | arrow (direction : Arrow) (modifiers : Modifiers)

/-- 'A' to 'D'. -/
def Arrow.letter : Arrow → Byte
  | .up => 0x41
  | .down => 0x42
  | .right => 0x43
  | .left => 0x44

/-- N of `ESC [ 1 ; N`: '1' and 1 for Shift, 2 for Alt, 4 for Ctrl. -/
def Modifiers.digit (modifiers : Modifiers) : Byte :=
  0x31 + (if modifiers.shift then 1 else 0) + (if modifiers.alt then 2 else 0) +
    (if modifiers.ctrl then 4 else 0)

def Modifiers.none : Modifiers := ⟨false, false, false⟩

/-- The bytes that the terminal sends for a key. -/
def Key.sent : Key → List Byte
  | .plain c => [c.byte]
  | .arrow direction modifiers =>
      if modifiers = .none then [0x1b, 0x5b, direction.letter]
      else [0x1b, 0x5b, 0x31, 0x3b, modifiers.digit, direction.letter]

def Arrow.code : Arrow → BitVec 32
  | .up => ffkeyUp
  | .down => ffkeyDown
  | .right => ffkeyRight
  | .left => ffkeyLeft

def Modifiers.code (modifiers : Modifiers) : BitVec 32 :=
  (if modifiers.shift then ffkeyShift else 0) ||| (if modifiers.alt then ffkeyAlt else 0) |||
    (if modifiers.ctrl then ffkeyCtrl else 0)

/-- The value of a key. -/
def Key.code : Key → BitVec 32
  | .plain c => c.byte.setWidth 32
  | .arrow direction modifiers => direction.code ||| modifiers.code

/-! ### Parsing one key -/

theorem letter_range (direction : Arrow) :
    0x41 ≤ direction.letter ∧ direction.letter ≤ 0x44 := by
  cases direction <;> decide

theorem keyEsc1_digit {modifiers : Modifiers} (some : modifiers ≠ .none) :
    keyEsc1[(modifiers.digit.setWidth 32 - 0x32 : BitVec 32).toNat]? = .some modifiers.code := by
  obtain ⟨shift, alt, ctrl⟩ := modifiers
  cases shift <;> cases alt <;> cases ctrl <;> first | exact absurd rfl some | decide

/-- `r | (FFKEY_UP + d[i] - 'A')`. -/
theorem arrow_code (direction : Arrow) (modifiers : Modifiers) :
    modifiers.code ||| (ffkeyUp + direction.letter.setWidth 32 - 0x41) =
      (Key.arrow direction modifiers).code := by
  obtain ⟨shift, alt, ctrl⟩ := modifiers
  cases direction <;> cases shift <;> cases alt <;> cases ctrl <;> decide

theorem arrowAt_other {data : List Byte} {r : BitVec 32} {i : Nat}
    (other : ¬ (0x41 ≤ data.getD i 0 ∧ data.getD i 0 ≤ 0x44)) : arrowAt data r i = (-1, data) :=
  if_neg other

theorem ffstdKeyparse_plain {c : Byte} (notEsc : c ≠ 0x1b) (rest : List Byte) :
    ffstdKeyparse (c :: rest) = (c.signExtend 32, rest) := by
  unfold ffstdKeyparse
  rw [if_neg (by simp), if_neg fun escape => notEsc escape.1]
  rfl

theorem ffstdKeyparse_escape {c : Byte} (notOne : c ≠ 0x31) (rest : List Byte) :
    ffstdKeyparse (0x1b :: 0x5b :: c :: rest) = arrowAt (0x1b :: 0x5b :: c :: rest) 0 2 := by
  unfold ffstdKeyparse
  rw [if_neg (by simp), if_pos ⟨rfl, by simp, rfl⟩, if_neg fun long => notOne long.1]

theorem ffstdKeyparse_long_escape (m c : Byte) (rest : List Byte) {r : BitVec 32}
    (found : keyEsc1[(m.setWidth 32 - 0x32 : BitVec 32).toNat]? = some r) :
    ffstdKeyparse (0x1b :: 0x5b :: 0x31 :: 0x3b :: m :: c :: rest) =
      arrowAt (0x1b :: 0x5b :: 0x31 :: 0x3b :: m :: c :: rest) r 5 := by
  unfold ffstdKeyparse
  rw [if_neg (by simp), if_pos ⟨rfl, by simp, rfl⟩, if_pos ⟨rfl, by simp, rfl⟩]
  change (match keyEsc1[(m.setWidth 32 - 0x32 : BitVec 32).toNat]? with
    | none => _
    | some r => _) = _
  rw [found]

/-- A key that is there as a whole is parsed, whatever follows. -/
theorem ffstdKeyparse_sent (key : Key) (rest : List Byte) :
    ffstdKeyparse (key.sent ++ rest) = (key.code, rest) := by
  cases key with
  | plain c =>
    obtain ⟨byte, ascii, notEsc⟩ := c
    have positive : byte.msb = false := by
      rw [BitVec.msb_eq_false_iff_two_mul_lt]
      have below : byte.toNat < 128 := ascii
      omega
    have extended : byte.signExtend 32 = byte.setWidth 32 :=
      BitVec.signExtend_eq_setWidth_of_msb_false positive
    rw [Key.sent, List.singleton_append, ffstdKeyparse_plain notEsc, extended, Key.code]
  | arrow direction modifiers =>
    rw [← arrow_code direction modifiers]
    by_cases unmodified : modifiers = .none
    · have notDigit : direction.letter ≠ 0x31 := by cases direction <;> decide
      have sent : (Key.arrow direction modifiers).sent ++ rest =
          0x1b :: 0x5b :: direction.letter :: rest := by
        rw [Key.sent, if_pos unmodified]
        rfl
      rw [sent, ffstdKeyparse_escape notDigit, unmodified]
      exact if_pos (letter_range direction)
    · have sent : (Key.arrow direction modifiers).sent ++ rest =
          0x1b :: 0x5b :: 0x31 :: 0x3b :: modifiers.digit :: direction.letter :: rest := by
        rw [Key.sent, if_neg unmodified]
        rfl
      rw [sent, ffstdKeyparse_long_escape _ _ _ (keyEsc1_digit unmodified)]
      exact if_pos (letter_range direction)

/-! ### A cut inside of a key -/

/-- A part of a key is a part of an escape sequence. -/
theorem incomplete_cases {key : Key} {first second : List Byte} (sent : key.sent = first ++ second)
    (firstNonempty : first ≠ []) (secondNonempty : second ≠ []) :
    first = [0x1b] ∨ first = [0x1b, 0x5b] ∨ first = [0x1b, 0x5b, 0x31] ∨
      first = [0x1b, 0x5b, 0x31, 0x3b] ∨ ∃ m, first = [0x1b, 0x5b, 0x31, 0x3b, m] := by
  have position := List.length_pos_of_ne_nil firstNonempty
  have inside := List.length_pos_of_ne_nil secondNonempty
  have taken : first = key.sent.take first.length := by rw [sent, List.take_left]
  have total := congrArg List.length sent
  rw [List.length_append] at total
  generalize first.length = n at position taken total
  cases key with
  | plain c =>
    rw [Key.sent, List.length_singleton] at total
    omega
  | arrow direction modifiers =>
    by_cases unmodified : modifiers = .none
    · rw [Key.sent, if_pos unmodified] at taken total
      simp only [List.length_cons, List.length_nil] at total
      obtain rfl | rfl : n = 1 ∨ n = 2 := by omega
      · exact Or.inl taken
      · exact Or.inr (Or.inl taken)
    · rw [Key.sent, if_neg unmodified] at taken total
      simp only [List.length_cons, List.length_nil] at total
      obtain rfl | rfl | rfl | rfl | rfl : n = 1 ∨ n = 2 ∨ n = 3 ∨ n = 4 ∨ n = 5 := by omega
      · exact Or.inl taken
      · exact Or.inr (Or.inl taken)
      · exact Or.inr (Or.inr (Or.inl taken))
      · exact Or.inr (Or.inr (Or.inr (Or.inl taken)))
      · exact Or.inr (Or.inr (Or.inr (Or.inr ⟨modifiers.digit, taken⟩)))

/-- It is not parsed as the key: ESC is returned for the first two, and for the others
an error that leaves the data as it is. -/
theorem ffstdKeyparse_incomplete {key : Key} {first second : List Byte}
    (sent : key.sent = first ++ second) (firstNonempty : first ≠ [])
    (secondNonempty : second ≠ []) :
    (ffstdKeyparse first).1 = 0x1b ∨ ffstdKeyparse first = (-1, first) := by
  rcases incomplete_cases sent firstNonempty secondNonempty with rfl | rfl | rfl | rfl | ⟨m, rfl⟩
  · exact Or.inl (by decide)
  · exact Or.inl (by decide)
  · exact Or.inr (by decide)
  · exact Or.inr (by decide)
  · right
    have notLetter : ¬ ((0x41 : Byte) ≤ 0x31 ∧ (0x31 : Byte) ≤ 0x44) := by decide
    unfold ffstdKeyparse
    rw [if_neg (by simp), if_pos ⟨rfl, by simp, rfl⟩, if_neg (by simp)]
    exact arrowAt_other notLetter

/-! ### Parsing a piece -/

theorem keyparseUntilEmpty_succ (calls : Nat) {data : List Byte} (nonempty : data ≠ []) :
    keyparseUntilEmpty (calls + 1) data =
      (keyparseUntilEmpty calls (ffstdKeyparse data).2).map ((ffstdKeyparse data).1 :: ·) := by
  cases data with
  | nil => exact absurd rfl nonempty
  | cons byte bytes => rfl

theorem keyparseUntilEmpty_zero {data : List Byte} (nonempty : data ≠ []) :
    keyparseUntilEmpty 0 data = none := by
  cases data with
  | nil => exact absurd rfl nonempty
  | cons byte bytes => rfl

/-- Data that a call leaves as it is never becomes empty. -/
theorem keyparseUntilEmpty_stuck {data : List Byte} (nonempty : data ≠ [])
    (stuck : (ffstdKeyparse data).2 = data) (calls : Nat) : keyparseUntilEmpty calls data = none := by
  induction calls with
  | zero => exact keyparseUntilEmpty_zero nonempty
  | succ calls inductionHypothesis =>
    rw [keyparseUntilEmpty_succ calls nonempty, stuck, inductionHypothesis, Option.map_none]

/-- The part of a key at the end of a piece gives ESC first, if anything. -/
theorem keyparseUntilEmpty_incomplete {key : Key} {first second : List Byte}
    (sent : key.sent = first ++ second) (firstNonempty : first ≠ []) (secondNonempty : second ≠ [])
    {calls : Nat} {out : List (BitVec 32)} (parsed : keyparseUntilEmpty calls first = some out) :
    out.head? = some 0x1b := by
  rcases ffstdKeyparse_incomplete sent firstNonempty secondNonempty with escape | stuck
  · cases calls with
    | zero =>
      rw [keyparseUntilEmpty_zero firstNonempty] at parsed
      cases parsed
    | succ calls =>
      rw [keyparseUntilEmpty_succ calls firstNonempty, escape] at parsed
      obtain ⟨later, _, rfl⟩ := Option.map_eq_some_iff.mp parsed
      rfl
  · rw [keyparseUntilEmpty_stuck firstNonempty (congrArg Prod.snd stuck)] at parsed
    cases parsed

theorem sent_ne_nil (key : Key) : key.sent ≠ [] := by
  cases key with
  | plain c => exact List.cons_ne_nil _ _
  | arrow direction modifiers =>
    rw [Key.sent]
    split
    · exact List.cons_ne_nil _ _
    · exact List.cons_ne_nil _ _

/-- Whole keys are parsed one by one, and then what follows. -/
theorem keyparseUntilEmpty_sent (keys : List Key) (rest : List Byte) (calls : Nat) :
    keyparseUntilEmpty (keys.length + calls) (keys.flatMap Key.sent ++ rest) =
      (keyparseUntilEmpty calls rest).map (keys.map Key.code ++ ·) := by
  induction keys with
  | nil => simp
  | cons key keys inductionHypothesis =>
    have nonempty : key.sent ++ (keys.flatMap Key.sent ++ rest) ≠ [] :=
      List.append_ne_nil_of_left_ne_nil (sent_ne_nil key) _
    have count : (key :: keys).length + calls = keys.length + calls + 1 := by
      rw [List.length_cons]
      omega
    rw [List.flatMap_cons, List.append_assoc, count, keyparseUntilEmpty_succ _ nonempty,
      ffstdKeyparse_sent, inductionHypothesis, Option.map_map]
    rfl

/-- With too few calls whole keys are not parsed. -/
theorem le_calls_of_parsed {keys : List Key} {rest : List Byte} {calls : Nat}
    {out : List (BitVec 32)}
    (parsed : keyparseUntilEmpty calls (keys.flatMap Key.sent ++ rest) = some out) :
    keys.length ≤ calls := by
  induction keys generalizing calls out with
  | nil => exact Nat.zero_le _
  | cons key keys inductionHypothesis =>
    have nonempty : key.sent ++ (keys.flatMap Key.sent ++ rest) ≠ [] :=
      List.append_ne_nil_of_left_ne_nil (sent_ne_nil key) _
    rw [List.flatMap_cons, List.append_assoc] at parsed
    cases calls with
    | zero =>
      rw [keyparseUntilEmpty_zero nonempty] at parsed
      cases parsed
    | succ calls =>
      rw [keyparseUntilEmpty_succ _ nonempty, ffstdKeyparse_sent] at parsed
      obtain ⟨later, shorter, _⟩ := Option.map_eq_some_iff.mp parsed
      exact Nat.succ_le_succ (inductionHypothesis shorter)

/-- What a piece of whole keys and a rest gives. -/
theorem parsed_split {keys : List Key} {rest : List Byte} {calls : Nat}
    {out : List (BitVec 32)}
    (parsed : keyparseUntilEmpty calls (keys.flatMap Key.sent ++ rest) = some out) :
    ∃ more tail, keyparseUntilEmpty more rest = some tail ∧ out = keys.map Key.code ++ tail := by
  obtain ⟨more, rfl⟩ := Nat.exists_eq_add_of_le (le_calls_of_parsed parsed)
  rw [keyparseUntilEmpty_sent] at parsed
  obtain ⟨tail, rest_parsed, rfl⟩ := Option.map_eq_some_iff.mp parsed
  exact ⟨more, tail, rest_parsed, rfl⟩

/-! ### Input in pieces -/

/-- Every piece is made of the bytes of whole keys: none ends inside of the sequence
of an arrow key. -/
def WholeKeys (keys : List Key) (pieces : List (List Byte)) : Prop :=
  ∃ groups : List (List Key), groups.flatten = keys ∧
    groups.map (fun group => group.flatMap Key.sent) = pieces

/-- The data that is parsed is the piece that was read. -/
theorem ffstdKeyread_data {piece : List Byte} (nonempty : 1 ≤ piece.length) (buf : List Byte) :
    ffstdKeyread (.bytes piece) buf =
      ((piece.length : Int), piece ++ buf.drop piece.length, some piece) := by
  have notEmpty : ¬ piece.length = 0 := by omega
  simp only [ffstdKeyread, if_neg notEmpty, List.take_left]

theorem keysOfPieces_cons {piece : List Byte} (nonempty : 1 ≤ piece.length) (calls : Nat)
    (buf : List Byte) (pieces : List (List Byte)) :
    keysOfPieces calls buf (piece :: pieces) =
      (keyparseUntilEmpty calls piece).bind fun keys =>
        (keysOfPieces calls (piece ++ buf.drop piece.length) pieces).map (keys ++ ·) := by
  simp only [keysOfPieces, ffstdKeyread_data nonempty, Option.bind_some]

/-- No key of the terminal has the value of ESC. -/
theorem code_ne_esc (key : Key) : key.code ≠ 0x1b := by
  cases key with
  | plain c =>
    intro equal
    have value := congrArg BitVec.toNat equal
    rw [Key.code, BitVec.toNat_setWidth_of_le (by decide)] at value
    exact c.notEsc (BitVec.eq_of_toNat_eq value)
  | arrow direction modifiers =>
    obtain ⟨shift, alt, ctrl⟩ := modifiers
    cases direction <;> cases shift <;> cases alt <;> cases ctrl <;> decide

/-- If the keys come out right, no piece ended inside of one. -/
theorem wholeKeys_of_keysOfPieces {keys : List Key} {pieces : List (List Byte)}
    (delivered : keys.flatMap Key.sent = pieces.flatten)
    (sizes : ∀ piece ∈ pieces, 1 ≤ piece.length) {calls : Nat} {buf : List Byte}
    (produced : keysOfPieces calls buf pieces = some (keys.map Key.code)) :
    WholeKeys keys pieces := by
  induction pieces generalizing keys buf with
  | nil =>
    have noKeys := Option.some.inj produced
    obtain rfl := List.map_eq_nil_iff.mp noKeys.symm
    exact ⟨[], rfl, rfl⟩
  | cons piece pieces inductionHypothesis =>
    rw [List.flatten_cons] at delivered
    rw [keysOfPieces_cons (sizes piece List.mem_cons_self)] at produced
    obtain ⟨here, parsed, later⟩ := Option.bind_eq_some_iff.mp produced
    obtain ⟨rest, restProduced, total⟩ := Option.map_eq_some_iff.mp later
    obtain ⟨before, after, rfl, place⟩ := cut_flatMap Key.sent keys piece pieces.flatten delivered
    rcases place with ⟨rfl, restDelivered⟩ | ⟨key, others, first, second, rfl, sent, firstNonempty,
      secondNonempty, rfl⟩
    · rw [← List.append_nil (before.flatMap Key.sent)] at parsed
      obtain ⟨more, tail, nothing, rfl⟩ := parsed_split parsed
      obtain rfl : tail = [] := by
        unfold keyparseUntilEmpty at nothing
        exact (Option.some.inj nothing).symm
      rw [List.append_nil, List.map_append] at total
      obtain rfl := List.append_cancel_left total
      obtain ⟨groups, rfl, rfl⟩ := inductionHypothesis restDelivered.symm
        (fun other member => sizes other (List.mem_cons_of_mem _ member)) restProduced
      exact ⟨before :: groups, rfl, rfl⟩
    · -- the piece ends inside of `key`: its first value there is ESC, not the key's
      obtain ⟨more, tail, tailParsed, rfl⟩ := parsed_split parsed
      have escape := keyparseUntilEmpty_incomplete sent firstNonempty secondNonempty tailParsed
      rw [List.map_append, List.append_assoc] at total
      have tailTotal := List.append_cancel_left total
      cases tail with
      | nil => cases escape
      | cons value tail =>
        obtain rfl := Option.some.inj escape
        exact absurd (List.cons.inj tailTotal).1.symm (code_ne_esc key)

/-- Pieces of whole keys give these keys. -/
theorem keysOfPieces_groups (groups : List (List Key)) {calls : Nat}
    (enough : ∀ group ∈ groups, group.length ≤ calls)
    (sizes : ∀ group ∈ groups, 1 ≤ (group.flatMap Key.sent).length) (buf : List Byte) :
    keysOfPieces calls buf (groups.map fun group => group.flatMap Key.sent) =
      some (groups.flatten.map Key.code) := by
  induction groups generalizing buf with
  | nil => rfl
  | cons group groups inductionHypothesis =>
    obtain ⟨spare, rfl⟩ := Nat.exists_eq_add_of_le (enough group List.mem_cons_self)
    have parsed := keyparseUntilEmpty_sent group [] spare
    have nothing : keyparseUntilEmpty spare [] = some [] := by unfold keyparseUntilEmpty; rfl
    rw [List.append_nil, nothing, Option.map_some, List.append_nil] at parsed
    have rest := inductionHypothesis (fun other member => enough other (List.mem_cons_of_mem _ member))
      (fun other member => sizes other (List.mem_cons_of_mem _ member))
    rw [List.map_cons, keysOfPieces_cons (sizes group List.mem_cons_self), parsed,
      Option.bind_some, rest, Option.map_some, List.flatten_cons, List.map_append]

/-- The keys come out as they were sent if and only if no piece ends inside of the
sequence of an arrow key. -/
theorem keysOfPieces_iff (keys : List Key) (pieces : List (List Byte))
    (delivered : keys.flatMap Key.sent = pieces.flatten)
    (sizes : ∀ piece ∈ pieces, 1 ≤ piece.length ∧ piece.length ≤ 8) (buf : List Byte) :
    (∃ calls, keysOfPieces calls buf pieces = some (keys.map Key.code)) ↔
      WholeKeys keys pieces := by
  constructor
  · rintro ⟨calls, produced⟩
    exact wholeKeys_of_keysOfPieces delivered (fun piece member => (sizes piece member).1) produced
  · rintro ⟨groups, rfl, rfl⟩
    refine ⟨groups.flatten.length, keysOfPieces_groups groups ?_ ?_ buf⟩
    · intro group member
      exact (List.sublist_flatten_of_mem member).length_le
    · intro group member
      exact (sizes _ (List.mem_map_of_mem member)).1

/-- "a" and Ctrl+Right in one piece, and Up in the next. -/
theorem keysOfPieces_ctrl_right :
    ∃ calls, keysOfPieces calls (List.replicate 8 0)
        [[0x61, 0x1b, 0x5b, 0x31, 0x3b, 0x35, 0x43], [0x1b, 0x5b, 0x41]] =
      some ([.plain ⟨0x61, by decide, by decide⟩, .arrow .right ⟨false, false, true⟩,
        .arrow .up .none].map Key.code) := by
  refine (keysOfPieces_iff _ _ (by decide) (by decide) _).mpr ?_
  exact ⟨[[.plain ⟨0x61, by decide, by decide⟩, .arrow .right ⟨false, false, true⟩],
    [.arrow .up .none]], rfl, by decide⟩

/-- Ctrl+Right twice, as a buffer of eight bytes cuts it: "ESC [" is parsed as two
keys. -/
theorem keysOfPieces_cut :
    ¬ ∃ calls, keysOfPieces calls (List.replicate 8 0)
        [[0x1b, 0x5b, 0x31, 0x3b, 0x35, 0x43, 0x1b, 0x5b], [0x31, 0x3b, 0x35, 0x43]] =
      some ([.arrow .right ⟨false, false, true⟩, .arrow .right ⟨false, false, true⟩].map
        Key.code) := by
  rintro ⟨calls, produced⟩
  rw [keysOfPieces_cons (by decide)] at produced
  obtain ⟨here, parsed, later⟩ := Option.bind_eq_some_iff.mp produced
  obtain ⟨rest, _, total⟩ := Option.map_eq_some_iff.mp later
  obtain ⟨more, tail, tailParsed, rfl⟩ :=
    @parsed_split [.arrow .right ⟨false, false, true⟩] [0x1b, 0x5b] calls here parsed
  have escape := @keyparseUntilEmpty_incomplete (.arrow .right ⟨false, false, true⟩) [0x1b, 0x5b]
    [0x31, 0x3b, 0x35, 0x43] rfl (by decide) (by decide) more tail tailParsed
  cases tail with
  | nil => cases escape
  | cons value tail =>
    obtain rfl := Option.some.inj escape
    exact absurd (List.cons.inj (List.cons.inj total).2).1 (by decide)

end Ffos.Std
