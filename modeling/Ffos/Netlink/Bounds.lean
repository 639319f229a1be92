/-
Module: Ffos.Netlink.Bounds
Purpose: Repeated calls of the two decoders of FFOS/netlink.h on arbitrary bytes: when
  they stay inside of the buffer and come to an end.
Trusted boundary: none
Main exports: Format, Contained, Starts, MessagesFit, AttributesFit, contained_iff_fits
-/
import Ffos.Netlink.RoundTrip

namespace Ffos.Netlink

open Ffos.Lib

/-! ### One decoder for both formats -/

/-- An object: the size of its header, the size of the length that the header begins
with, and the length of the body that is returned. -/
structure Format where
  header : Nat
  lenSize : Nat
  bodyLen : Nat → BitVec 64

def messages : Format := ⟨16, 4, fun n => (nlmsgPayload (.ofNat 32 n) 4).setWidth 64⟩

def attributes : Format := ⟨4, 2, fun n => rtaPayload (.ofNat 16 n)⟩

/-- The aligned length in 32 bits. -/
def stride (n : Nat) : Nat := (align (.ofNat 32 n)).toNat

/-- What the two decoders have in common. -/
def Format.next (format : Format) (memory : List Byte) (buf : Ffstr) :
    Option (Option ((Nat × Ffstr) × Ffstr)) :=
  if format.header ≤ buf.len.toNat then
    match readLe memory buf.ptr format.lenSize with
    | none => none
    | some n =>
        if format.header ≤ n ∧ n ≤ buf.len.toNat then
          some (some ((buf.ptr, ⟨buf.ptr + format.header, format.bodyLen n⟩),
            ⟨buf.ptr + stride n, buf.len - .ofNat 64 (stride n)⟩))
        else some none
  else some none

/-- A length read into `w` bits, against the size of the header and against the buffer. -/
theorem length_checks {w header n : Nat} (small : header < 2 ^ w) (bound : n < 2 ^ w) (word : w ≤ 64)
    (len : BitVec 64) :
    (BitVec.ofNat w header ≤ BitVec.ofNat w n ↔ header ≤ n) ∧
      ((BitVec.ofNat w n).setWidth 64 ≤ len ↔ n ≤ len.toNat) := by
  have room : n < 2 ^ 64 := Nat.lt_of_lt_of_le bound (Nat.pow_le_pow_right (by decide) word)
  constructor
  · rw [BitVec.le_def, BitVec.toNat_ofNat, BitVec.toNat_ofNat, Nat.mod_eq_of_lt small,
      Nat.mod_eq_of_lt bound]
  · rw [BitVec.le_def, BitVec.toNat_setWidth, BitVec.toNat_ofNat, Nat.mod_eq_of_lt bound,
      Nat.mod_eq_of_lt room]

theorem align_setWidth (n : Nat) :
    (align (.ofNat 32 n)).setWidth 64 = BitVec.ofNat 64 (stride n) := by
  rw [stride, BitVec.ofNat_toNat]

theorem ffnetlinkNext_eq (memory : List Byte) :
    ffnetlinkNext memory = messages.next memory := by
  funext buf
  unfold ffnetlinkNext Format.next
  have headerFits : (16 : BitVec 64) ≤ buf.len ↔ messages.header ≤ buf.len.toNat := Iff.rfl
  simp only [headerFits]
  split
  · change (match readLe memory buf.ptr 4 with
      | none => none
      | some len => _) = (match readLe memory buf.ptr 4 with
      | none => none
      | some n => _)
    cases read : readLe memory buf.ptr 4 with
    | none => rfl
    | some n =>
      obtain ⟨low, high⟩ : ((16 : BitVec 32) ≤ .ofNat 32 n ↔ messages.header ≤ n) ∧ _ :=
        length_checks (by decide) (readLe_lt read) (by decide) buf.len
      simp only [low, high, align_setWidth]
      rfl
  · rfl

theorem ffnetlinkRtattrNext_eq (memory : List Byte) :
    ffnetlinkRtattrNext memory = attributes.next memory := by
  funext buf
  unfold ffnetlinkRtattrNext Format.next
  have headerFits : (4 : BitVec 64) ≤ buf.len ↔ attributes.header ≤ buf.len.toNat := Iff.rfl
  simp only [headerFits]
  split
  · change (match readLe memory buf.ptr 2 with
      | none => none
      | some len => _) = (match readLe memory buf.ptr 2 with
      | none => none
      | some n => _)
    cases read : readLe memory buf.ptr 2 with
    | none => rfl
    | some n =>
      have bound : n < 2 ^ 16 := readLe_lt read
      obtain ⟨low, high⟩ : ((4 : BitVec 16) ≤ .ofNat 16 n ↔ attributes.header ≤ n) ∧ _ :=
        length_checks (by decide) bound (by decide) buf.len
      have widened : (BitVec.ofNat 16 n).setWidth 32 = BitVec.ofNat 32 n := by
        apply BitVec.eq_of_toNat_eq
        rw [BitVec.toNat_setWidth, BitVec.toNat_ofNat, BitVec.toNat_ofNat, Nat.mod_eq_of_lt bound]
      simp only [low, high, widened, align_setWidth]
      rfl
  · rfl

/-! ### Strides -/

/-- A length rounded up to a multiple of 4. -/
def roundUp (n : Nat) : Nat := (n + 3) / 4 * 4

theorem stride_eq_roundUp {n : Nat} (small : n ≤ 2 ^ 32 - 4) : stride n = roundUp n := by
  have value : (BitVec.ofNat 32 n).toNat = n := by
    rw [BitVec.toNat_ofNat]
    omega
  rw [stride, align_toNat (by omega), value, roundUp]

/-- For the last three lengths the sum overflows, and the stride is zero. -/
theorem stride_eq_zero {n : Nat} (large : 2 ^ 32 - 4 < n) (bound : n < 2 ^ 32) : stride n = 0 := by
  obtain rfl | rfl | rfl : n = 2 ^ 32 - 3 ∨ n = 2 ^ 32 - 2 ∨ n = 2 ^ 32 - 1 := by omega
  · decide
  · decide
  · decide

/-! ### What is asked of the calls, and of the buffer -/

section Bounds

variable (format : Format) (memory : List Byte)

/-- The cursor at an offset: the rest of the buffer. -/
def cursorAt (offset : Nat) : Ffstr := ⟨offset, .ofNat 64 (memory.length - offset)⟩

/-- Repeated calls on a buffer examine and return only what is inside of it, the
length never grows, and NULL is returned in the end. -/
structure Contained (next : Ffstr → Option (Option ((Nat × Ffstr) × Ffstr))) : Prop where
  examined : ∀ cursor, Visits next (cursorAt memory 0) cursor →
    format.header ≤ cursor.len.toNat → cursor.ptr + format.header ≤ memory.length
  returned : ∀ cursor position body rest, Visits next (cursorAt memory 0) cursor →
    next cursor = some (some ((position, body), rest)) →
      position + format.header ≤ memory.length ∧
        body.ptr + body.len.toNat ≤ memory.length ∧ rest.len.toNat ≤ cursor.len.toNat
  ends : ∃ items, Yields next (cursorAt memory 0) items

/-- At an offset there is an object of length `n`, as its header says, and both are
inside of the buffer. -/
structure ObjectAt (offset n : Nat) : Prop where
  header : offset + format.header ≤ memory.length
  length : readLe memory offset format.lenSize = some n
  atLeast : format.header ≤ n
  atMost : offset + n ≤ memory.length

/-- The offsets at which the objects of a buffer start, one after the other at
multiples of 4. -/
inductive Starts : Nat → Prop where
  | first : Starts 0
  | next {offset n : Nat} (starts : Starts offset) (object : ObjectAt format memory offset n) :
      Starts (offset + roundUp n)

/-- The padding and the body of every object are inside of the buffer too, and its
length is not one of the last three. -/
def Fits : Prop :=
  ∀ offset n, Starts format memory offset → ObjectAt format memory offset n →
    offset + roundUp n ≤ memory.length ∧ n ≤ 2 ^ 32 - 4 ∧
      offset + format.header + (format.bodyLen n).toNat ≤ memory.length

end Bounds

section Walk

variable {format : Format} {memory : List Byte}

theorem cursorAt_len {offset : Nat} (small : memory.length < 2 ^ 64) :
    (cursorAt memory offset).len.toNat = memory.length - offset := by
  rw [cursorAt, BitVec.toNat_ofNat]
  omega

theorem next_of_read {buf : Ffstr} {n : Nat} (header : format.header ≤ buf.len.toNat)
    (read : readLe memory buf.ptr format.lenSize = some n) :
    format.next memory buf =
      if format.header ≤ n ∧ n ≤ buf.len.toNat then
        some (some ((buf.ptr, ⟨buf.ptr + format.header, format.bodyLen n⟩),
          ⟨buf.ptr + stride n, buf.len - .ofNat 64 (stride n)⟩))
      else some none := by
  simp only [Format.next, if_pos header, read]

/-- At an offset in the buffer a call finds the object there, or returns NULL. -/
theorem next_cases (lengthInHeader : format.lenSize ≤ format.header)
    (small : memory.length < 2 ^ 64) {offset : Nat} (inside : offset ≤ memory.length) :
    format.next memory (cursorAt memory offset) = some none ∧
        (∀ n, ¬ ObjectAt format memory offset n) ∨
      ∃ n, ObjectAt format memory offset n ∧
        format.next memory (cursorAt memory offset) =
          some (some ((offset, ⟨offset + format.header, format.bodyLen n⟩),
            ⟨offset + stride n, (cursorAt memory offset).len - .ofNat 64 (stride n)⟩)) := by
  have len := @cursorAt_len memory offset small
  by_cases header : format.header ≤ memory.length - offset
  · have read : ∃ n, readLe memory offset format.lenSize = some n := by
      unfold readLe readBytes
      rw [if_pos (by omega)]
      exact ⟨_, rfl⟩
    obtain ⟨n, read⟩ := read
    by_cases whole : format.header ≤ n ∧ n ≤ memory.length - offset
    · right
      refine ⟨n, ⟨by omega, read, whole.1, by omega⟩, ?_⟩
      rw [← len] at header whole
      rw [next_of_read header read, if_pos whole]
      rfl
    · left
      constructor
      · rw [← len] at header whole
        rw [next_of_read header read, if_neg whole]
      · intro m object
        obtain rfl := Option.some.inj (read.symm.trans object.length)
        have atMost := object.atMost
        exact whole ⟨object.atLeast, by omega⟩
  · left
    constructor
    · rw [← len] at header
      exact if_neg header
    · intro n object
      have inBuffer := object.header
      omega

/-- The cursor behind an object is the one at the next offset. -/
theorem cursorAt_roundUp (small : memory.length < 2 ^ 64) {offset n : Nat}
    (inside : offset + roundUp n ≤ memory.length) :
    (⟨offset + roundUp n, (cursorAt memory offset).len - .ofNat 64 (roundUp n)⟩ : Ffstr) =
      cursorAt memory (offset + roundUp n) := by
  have remaining : (cursorAt memory offset).len - .ofNat 64 (roundUp n) =
      BitVec.ofNat 64 (memory.length - (offset + roundUp n)) := by
    apply BitVec.eq_of_toNat_eq
    rw [BitVec.toNat_sub, cursorAt_len small, BitVec.toNat_ofNat, BitVec.toNat_ofNat]
    omega
  rw [remaining, cursorAt]

theorem next_of_object (lengthInHeader : format.lenSize ≤ format.header)
    (small : memory.length < 2 ^ 64) {offset n : Nat} (inside : offset ≤ memory.length)
    (object : ObjectAt format memory offset n) :
    format.next memory (cursorAt memory offset) =
      some (some ((offset, ⟨offset + format.header, format.bodyLen n⟩),
        ⟨offset + stride n, (cursorAt memory offset).len - .ofNat 64 (stride n)⟩)) := by
  rcases next_cases lengthInHeader small inside with ⟨_, noObject⟩ | ⟨m, found, next⟩
  · exact absurd object (noObject n)
  · obtain rfl := Option.some.inj (object.length.symm.trans found.length)
    exact next

/-- Where the padding is inside too, the call goes on to the next offset. -/
theorem next_of_padded (lengthInHeader : format.lenSize ≤ format.header)
    (small : memory.length < 2 ^ 64) {offset n : Nat} (object : ObjectAt format memory offset n)
    (padded : offset + roundUp n ≤ memory.length) (shortEnough : n ≤ 2 ^ 32 - 4) :
    format.next memory (cursorAt memory offset) =
      some (some ((offset, ⟨offset + format.header, format.bodyLen n⟩),
        cursorAt memory (offset + roundUp n))) := by
  rw [next_of_object lengthInHeader small (by omega) object, stride_eq_roundUp shortEnough,
    cursorAt_roundUp small padded]

/-! ### A buffer that fits is iterated safely -/

/-- Every cursor that calls come to is at the start of an object, or at the end. -/
theorem starts_of_visits (lengthInHeader : format.lenSize ≤ format.header)
    (small : memory.length < 2 ^ 64) (fits : Fits format memory) {cursor : Ffstr}
    (visited : Visits (format.next memory) (cursorAt memory 0) cursor) :
    ∃ offset, offset ≤ memory.length ∧ Starts format memory offset ∧
      cursor = cursorAt memory offset := by
  induction visited with
  | start => exact ⟨0, Nat.zero_le _, Starts.first, rfl⟩
  | call _ found inductionHypothesis =>
    obtain ⟨offset, inside, starts, rfl⟩ := inductionHypothesis
    rcases next_cases lengthInHeader small inside with ⟨null, _⟩ | ⟨n, object, _⟩
    · rw [null] at found
      cases found
    · obtain ⟨padded, shortEnough, _⟩ := fits offset n starts object
      rw [next_of_padded lengthInHeader small object padded shortEnough] at found
      obtain ⟨_, rfl⟩ := Prod.mk.inj (Option.some.inj (Option.some.inj found))
      exact ⟨offset + roundUp n, padded, Starts.next starts object, rfl⟩

/-- From every start the calls come to the end, since the rest gets shorter. -/
theorem yields_of_starts (lengthInHeader : format.lenSize ≤ format.header)
    (headerPositive : 0 < format.header) (small : memory.length < 2 ^ 64)
    (fits : Fits format memory) (remaining : Nat) :
    ∀ offset, offset + remaining = memory.length → Starts format memory offset →
      ∃ items, Yields (format.next memory) (cursorAt memory offset) items := by
  induction remaining using Nat.strongRecOn with
  | ind remaining inductionHypothesis =>
    intro offset total starts
    rcases next_cases lengthInHeader small (show offset ≤ memory.length by omega) with
      ⟨null, _⟩ | ⟨n, object, _⟩
    · exact ⟨[], null⟩
    · obtain ⟨padded, shortEnough, _⟩ := fits offset n starts object
      have positive : 0 < roundUp n := by
        have atLeast := object.atLeast
        unfold roundUp
        omega
      have next := next_of_padded lengthInHeader small object padded shortEnough
      obtain ⟨items, later⟩ := inductionHypothesis (memory.length - (offset + roundUp n))
        (by omega) (offset + roundUp n) (by omega) (Starts.next starts object)
      exact ⟨_ :: items, _, next, later⟩

theorem contained_of_fits (lengthInHeader : format.lenSize ≤ format.header)
    (headerPositive : 0 < format.header) (small : memory.length < 2 ^ 64)
    (fits : Fits format memory) : Contained format memory (format.next memory) := by
  constructor
  · intro cursor visited header
    obtain ⟨offset, inside, _, rfl⟩ := starts_of_visits lengthInHeader small fits visited
    rw [cursorAt_len small] at header
    change offset + format.header ≤ memory.length
    omega
  · intro cursor position body rest visited found
    obtain ⟨offset, inside, starts, rfl⟩ := starts_of_visits lengthInHeader small fits visited
    rcases next_cases lengthInHeader small inside with ⟨null, _⟩ | ⟨n, object, _⟩
    · rw [null] at found
      cases found
    · obtain ⟨padded, shortEnough, bodyInside⟩ := fits offset n starts object
      rw [next_of_padded lengthInHeader small object padded shortEnough] at found
      obtain ⟨item, rfl⟩ := Prod.mk.inj (Option.some.inj (Option.some.inj found))
      obtain ⟨rfl, rfl⟩ := Prod.mk.inj item
      refine ⟨object.header, bodyInside, ?_⟩
      rw [cursorAt_len small, cursorAt_len small]
      omega
  · exact yields_of_starts lengthInHeader headerPositive small fits memory.length 0 (by omega)
      Starts.first

/-! ### A buffer that is iterated safely fits -/

/-- What safe calls say of the object at a cursor that they come to. -/
theorem object_fits (lengthInHeader : format.lenSize ≤ format.header)
    (lengthIn32 : format.lenSize ≤ 4) (small : memory.length < 2 ^ 64)
    (contained : Contained format memory (format.next memory)) {offset n : Nat}
    (inside : offset ≤ memory.length)
    (visited : Visits (format.next memory) (cursorAt memory 0) (cursorAt memory offset))
    (object : ObjectAt format memory offset n) :
    offset + roundUp n ≤ memory.length ∧ n ≤ 2 ^ 32 - 4 ∧
      offset + format.header + (format.bodyLen n).toNat ≤ memory.length := by
  have bound : n < 2 ^ 32 := by
    have read := readLe_lt object.length
    have power : 256 ^ format.lenSize ≤ 256 ^ 4 := Nat.pow_le_pow_right (by decide) lengthIn32
    omega
  have next := next_of_object lengthInHeader small inside object
  obtain ⟨_, bodyInside, shrinks⟩ := contained.returned _ _ _ _ visited next
  have shortEnough : n ≤ 2 ^ 32 - 4 := by
    by_contra large
    -- the stride is zero: the same cursor is returned for ever
    rw [stride_eq_zero (by omega) bound] at next
    have same : (⟨offset + 0, (cursorAt memory offset).len - .ofNat 64 0⟩ : Ffstr) =
        cursorAt memory offset := by
      rw [Nat.add_zero, BitVec.sub_zero, cursorAt]
    rw [same] at next
    obtain ⟨items, ends⟩ := contained.ends
    obtain ⟨rest, yields⟩ := visited.yields ends
    exact not_yields_of_stuck next rest yields
  refine ⟨?_, shortEnough, bodyInside⟩
  have roundBound : roundUp n < 2 ^ 64 := by unfold roundUp; omega
  dsimp only at shrinks
  rw [stride_eq_roundUp shortEnough, BitVec.toNat_sub, cursorAt_len small, BitVec.toNat_ofNat,
    Nat.mod_eq_of_lt roundBound] at shrinks
  by_contra outside
  rw [Nat.mod_eq_of_lt (by omega)] at shrinks
  omega

theorem fits_of_contained (lengthInHeader : format.lenSize ≤ format.header)
    (lengthIn32 : format.lenSize ≤ 4) (small : memory.length < 2 ^ 64)
    (contained : Contained format memory (format.next memory)) : Fits format memory := by
  have visitedStarts : ∀ offset, Starts format memory offset → offset ≤ memory.length ∧
      Visits (format.next memory) (cursorAt memory 0) (cursorAt memory offset) := by
    intro offset starts
    induction starts with
    | first => exact ⟨Nat.zero_le _, Visits.start⟩
    | next _ object inductionHypothesis =>
      obtain ⟨inside, visited⟩ := inductionHypothesis
      obtain ⟨padded, shortEnough, _⟩ :=
        object_fits lengthInHeader lengthIn32 small contained inside visited object
      exact ⟨padded, Visits.call visited
        (next_of_padded lengthInHeader small object padded shortEnough)⟩
  intro offset n starts object
  obtain ⟨inside, visited⟩ := visitedStarts offset starts
  exact object_fits lengthInHeader lengthIn32 small contained inside visited object

end Walk

/-! ### The two formats -/

/-- The messages of a buffer: each is padded inside of it, its length is not one of the
last three, and it holds the four bytes that `NLMSG_PAYLOAD` takes off the body. (Below
20 bytes the length of the body wraps, which only a buffer of 4 GiB can hold.) -/
def MessagesFit (memory : List Byte) : Prop :=
  ∀ offset n, Starts messages memory offset → ObjectAt messages memory offset n →
    offset + roundUp n ≤ memory.length ∧ n ≤ 2 ^ 32 - 4 ∧
      (20 ≤ n ∨ offset + (2 ^ 32 + n - 4) ≤ memory.length)

/-- The attributes of a buffer: each is padded inside of it. -/
def AttributesFit (memory : List Byte) : Prop :=
  ∀ offset n, Starts attributes memory offset → ObjectAt attributes memory offset n →
    offset + roundUp n ≤ memory.length

theorem messages_bodyLen {n : Nat} (atLeast : 16 ≤ n) (bound : n < 2 ^ 32) :
    (messages.bodyLen n).toNat = if 20 ≤ n then n - 20 else 2 ^ 32 + n - 20 := by
  have space : nlmsgSpace 4 = 20 := by decide
  have value : (20 : BitVec 32).toNat = 20 := by decide
  change ((nlmsgPayload (.ofNat 32 n) 4).setWidth 64).toNat = _
  rw [nlmsgPayload, space, BitVec.toNat_setWidth, BitVec.toNat_sub, BitVec.toNat_ofNat, value,
    Nat.mod_eq_of_lt bound]
  split <;> omega

theorem attributes_bodyLen {n : Nat} (atLeast : 4 ≤ n) (bound : n < 2 ^ 16) :
    (attributes.bodyLen n).toNat = n - 4 := by
  have value : (4 : BitVec 64).toNat = 4 := by decide
  change (rtaPayload (.ofNat 16 n)).toNat = _
  rw [rtaPayload, BitVec.toNat_sub, BitVec.toNat_setWidth, BitVec.toNat_ofNat, value,
    Nat.mod_eq_of_lt bound]
  omega

theorem fits_messages_iff (memory : List Byte) : Fits messages memory ↔ MessagesFit memory := by
  refine forall_congr' fun offset => forall_congr' fun n => forall_congr' fun _ =>
    forall_congr' fun object => and_congr_right fun padded => and_congr_right fun _ => ?_
  have atLeast : 16 ≤ n := object.atLeast
  have bound : n < 2 ^ 32 := readLe_lt object.length
  have atMost := object.atMost
  rw [messages_bodyLen atLeast bound]
  change offset + 16 + _ ≤ memory.length ↔ _
  split
  · constructor
    · intro _
      exact Or.inl ‹20 ≤ n›
    · intro _
      omega
  · constructor
    · intro inside
      exact Or.inr (by omega)
    · rintro (large | inside)
      · exact absurd large ‹¬ 20 ≤ n›
      · omega

theorem fits_attributes_iff (memory : List Byte) :
    Fits attributes memory ↔ AttributesFit memory := by
  refine forall_congr' fun offset => forall_congr' fun n => forall_congr' fun _ =>
    forall_congr' fun object => ?_
  have atLeast : 4 ≤ n := object.atLeast
  have bound : n < 2 ^ 16 := readLe_lt object.length
  have atMost := object.atMost
  rw [attributes_bodyLen atLeast bound]
  change _ ∧ _ ∧ offset + 4 + (n - 4) ≤ memory.length ↔ _
  constructor
  · rintro ⟨padded, _⟩
    exact padded
  · intro padded
    exact ⟨padded, by omega, by omega⟩

/-- On any buffer, the calls of each decoder stay inside of it, never lengthen it and
come to an end if and only if its objects fit. -/
theorem contained_iff_fits (memory : List Byte) (small : memory.length < 2 ^ 64) :
    (Contained messages memory (ffnetlinkNext memory) ↔ MessagesFit memory) ∧
      (Contained attributes memory (ffnetlinkRtattrNext memory) ↔ AttributesFit memory) := by
  rw [ffnetlinkNext_eq, ffnetlinkRtattrNext_eq, ← fits_messages_iff, ← fits_attributes_iff]
  constructor
  · exact ⟨fits_of_contained (by decide) (by decide) small,
      contained_of_fits (by decide) (by decide) small⟩
  · exact ⟨fits_of_contained (by decide) (by decide) small,
      contained_of_fits (by decide) (by decide) small⟩

/-- Twenty bytes that say so in their first one: one message, or one attribute. -/
def twentyBytes : List Byte := 20 :: List.replicate 19 0

theorem twentyBytes_object {format : Format} (headerPositive : 0 < format.header)
    (read : readLe twentyBytes 0 format.lenSize = some 20) {offset n : Nat}
    (starts : Starts format twentyBytes offset) (object : ObjectAt format twentyBytes offset n) :
    offset = 0 ∧ n = 20 := by
  have places : offset = 0 ∨ offset = 20 := by
    clear object
    induction starts with
    | first => exact Or.inl rfl
    | next _ object inductionHypothesis =>
      rcases inductionHypothesis with rfl | rfl
      · obtain rfl := Option.some.inj (read.symm.trans object.length)
        exact Or.inr (by decide)
      · have header : 20 + format.header ≤ 20 := object.header
        omega
  rcases places with rfl | rfl
  · exact ⟨rfl, (Option.some.inj (read.symm.trans object.length)).symm⟩
  · have header : 20 + format.header ≤ 20 := object.header
    omega

/-- These bytes are safe for both decoders. -/
theorem contained_twentyBytes :
    Contained messages twentyBytes (ffnetlinkNext twentyBytes) ∧
      Contained attributes twentyBytes (ffnetlinkRtattrNext twentyBytes) := by
  obtain ⟨forMessages, forAttributes⟩ := contained_iff_fits twentyBytes (by decide)
  refine ⟨forMessages.mpr ?_, forAttributes.mpr ?_⟩
  · intro offset n starts object
    obtain ⟨rfl, rfl⟩ := twentyBytes_object (by decide) (by decide) starts object
    exact ⟨by decide, by decide, Or.inl (by decide)⟩
  · intro offset n starts object
    obtain ⟨rfl, rfl⟩ := twentyBytes_object (by decide) (by decide) starts object
    decide

/-- A message of 21 bytes without padding: the remaining length wraps around. -/
theorem unpadded_not_contained :
    (∃ item, ffnetlinkNext (21 :: List.replicate 20 0) ⟨0, 21⟩ = some (some (item, ⟨24, -3⟩))) ∧
      ¬ (Contained messages (21 :: List.replicate 20 0)
          (ffnetlinkNext (21 :: List.replicate 20 0)) ∧
        Contained attributes (21 :: List.replicate 20 0)
          (ffnetlinkRtattrNext (21 :: List.replicate 20 0))) := by
  have found : ffnetlinkNext (21 :: List.replicate 20 0) ⟨0, 21⟩ =
      some (some ((0, ⟨16, 1⟩), ⟨24, -3⟩)) := by decide
  refine ⟨⟨_, found⟩, ?_⟩
  rintro ⟨contained, _⟩
  have shrinks := (contained.returned _ _ _ _ Visits.start found).2.2
  exact absurd shrinks (by decide)

end Ffos.Netlink
