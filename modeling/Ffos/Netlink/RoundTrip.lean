/-
Module: Ffos.Netlink.RoundTrip
Purpose: What the decoders give back of encoded messages and attributes. Attributes
  come back as they were; the body of a message comes back four bytes short.
Trusted boundary: none
Main exports: observe, MessagesDecode, AttributesDecode, ffnetlinkNext_yields,
  netlink_roundtrip_iff
-/
import Ffos.Netlink.Model

namespace Ffos.Netlink

open Ffos.Lib

/-! ### Reading back headers -/

theorem Rtattr.read_middle (before after : List Byte) (header : Rtattr) :
    Rtattr.read (before ++ header.bytes ++ after) before.length = some header := by
  have len := readLe_middle before (leBytes 2 header.rtaType.toNat ++ after)
    (show header.rtaLen.toNat < 256 ^ 2 from header.rtaLen.isLt)
  have type := readLe_middle (before ++ leBytes 2 header.rtaLen.toNat) after
    (show header.rtaType.toNat < 256 ^ 2 from header.rtaType.isLt)
  simp only [List.length_append, length_leBytes, List.append_assoc] at len type
  simp [Rtattr.read, Rtattr.bytes, len, type]

theorem Nlmsghdr.read_middle (before after : List Byte) (header : Nlmsghdr) :
    Nlmsghdr.read (before ++ header.bytes ++ after) before.length = some header := by
  obtain ⟨len, type, flags, seq, pid⟩ := header
  have readLen := readLe_middle before
    (leBytes 2 type.toNat ++ (leBytes 2 flags.toNat ++ (leBytes 4 seq.toNat ++
      (leBytes 4 pid.toNat ++ after)))) (show len.toNat < 256 ^ 4 from len.isLt)
  have readType := readLe_middle (before ++ leBytes 4 len.toNat)
    (leBytes 2 flags.toNat ++ (leBytes 4 seq.toNat ++ (leBytes 4 pid.toNat ++ after)))
    (show type.toNat < 256 ^ 2 from type.isLt)
  have readFlags := readLe_middle (before ++ leBytes 4 len.toNat ++ leBytes 2 type.toNat)
    (leBytes 4 seq.toNat ++ (leBytes 4 pid.toNat ++ after))
    (show flags.toNat < 256 ^ 2 from flags.isLt)
  have readSeq := readLe_middle
    (before ++ leBytes 4 len.toNat ++ leBytes 2 type.toNat ++ leBytes 2 flags.toNat)
    (leBytes 4 pid.toNat ++ after) (show seq.toNat < 256 ^ 4 from seq.isLt)
  have readPid := readLe_middle
    (before ++ leBytes 4 len.toNat ++ leBytes 2 type.toNat ++ leBytes 2 flags.toNat ++
      leBytes 4 seq.toNat) after (show pid.toNat < 256 ^ 4 from pid.isLt)
  simp only [List.length_append, length_leBytes, List.append_assoc,
    Nat.reduceAdd] at readLen readType readFlags readSeq readPid
  simp [Nlmsghdr.read, Nlmsghdr.bytes, readLen, readType, readFlags, readSeq, readPid]

/-! ### Alignment -/

theorem mask_getElem (i : Nat) (bound : i < 32) :
    (~~~(4 - 1 : BitVec 32))[i] = decide (2 ≤ i) := by
  revert i
  decide

/-- Clearing the two low bits. -/
theorem and_mask (x : BitVec 32) : x &&& ~~~(4 - 1 : BitVec 32) = (x >>> 2) <<< 2 := by
  ext i bound
  rw [BitVec.getElem_and, mask_getElem i bound, BitVec.getElem_shiftLeft]
  by_cases low : i < 2
  · simp [low]
  · have high : 2 ≤ i := by omega
    have back : 2 + (i - 2) = i := by omega
    simp [low, high, BitVec.getElem_ushiftRight, back, BitVec.getLsbD_eq_getElem bound]

/-- `NLMSG_ALIGN` rounds up to a multiple of 4, if that fits. -/
theorem align_toNat {len : BitVec 32} (small : len.toNat + 3 < 2 ^ 32) :
    (align len).toNat = (len.toNat + 3) / 4 * 4 := by
  have sum : (len + 4 - 1).toNat = len.toNat + 3 := by
    bv_omega
  rw [align, and_mask, BitVec.toNat_shiftLeft, BitVec.toNat_ushiftRight, sum,
    Nat.shiftRight_eq_div_pow, Nat.shiftLeft_eq]
  omega

theorem length_padding (length : Nat) : (padding length).length = (4 - length % 4) % 4 :=
  List.length_replicate

theorem Attribute.length_encode (attr : Attribute) :
    attr.encode.length = (attr.data.length + 4 + 3) / 4 * 4 := by
  simp only [Attribute.encode, Rtattr.bytes, List.length_append, length_leBytes,
    length_padding]
  omega

theorem Message.length_encode (message : Message) :
    message.encode.length = (message.payload.length + 16 + 3) / 4 * 4 := by
  simp only [Message.encode, Nlmsghdr.bytes, List.length_append, length_leBytes,
    length_padding]
  omega

/-! ### What a caller of the decoders sees -/

/-- The header a returned pointer leads to, the start of the body and its bytes.
Fails if any of them is outside of the memory. -/
def observe {Header : Type} (memory : List Byte) (read : List Byte → Nat → Option Header)
    (next : List Byte → Ffstr → Option (Option ((Nat × Ffstr) × Ffstr))) (buf : Ffstr) :
    Option (Option ((Header × Nat × List Byte) × Ffstr)) :=
  match next memory buf with
  | none => none
  | some none => some none
  | some (some ((position, body), rest)) => do
      let header ← read memory position
      let bytes ← readBytes memory body.ptr body.len.toNat
      return some ((header, body.ptr, bytes), rest)

/-- Decoding the encoded messages gives each header, and a body that starts and ends
where the payload does. -/
def MessagesDecode (messages : List Message) : Prop :=
  let memory := messages.flatMap Message.encode
  Yields (observe memory Nlmsghdr.read ffnetlinkNext) ⟨0, .ofNat 64 memory.length⟩
    (itemsFrom Message.encode (fun offset message => (message.header, offset + 16, message.payload))
      0 messages)

/-- Decoding the encoded attributes, anywhere in a memory, gives each header and its
data. -/
def AttributesDecode (before : List Byte) (attrs : List Attribute) (after : List Byte) : Prop :=
  let bytes := attrs.flatMap Attribute.encode
  Yields (observe (before ++ bytes ++ after) Rtattr.read ffnetlinkRtattrNext)
    ⟨before.length, .ofNat 64 bytes.length⟩
    (itemsFrom Attribute.encode (fun offset attr => (attr.header, offset + 4, attr.data))
      before.length attrs)

/-- Attributes whose encoding has a length, an `ffsize`. -/
structure AttributePayload where
  attrs : List Attribute
  fits : (attrs.flatMap Attribute.encode).length < 2 ^ 64

/-! ### Attributes -/

theorem Attribute.rtaLen_toNat (attr : Attribute) :
    attr.header.rtaLen.toNat = attr.data.length + 4 := by
  have small := attr.fits
  simp only [Attribute.header, BitVec.toNat_ofNat]
  omega

/-- The length stands first. -/
theorem Attribute.encode_eq (attr : Attribute) :
    attr.encode = leBytes 2 (attr.data.length + 4) ++
      (leBytes 2 attr.type.toNat ++ attr.data ++ padding attr.data.length) := by
  rw [← attr.rtaLen_toNat]
  simp [Attribute.encode, Rtattr.bytes, Attribute.header]

/-- `ffnetlink_rtattr_next` at an encoded attribute. -/
theorem ffnetlinkRtattrNext_encoded (before after tail : List Byte) (attr : Attribute)
    (fits : (attr.encode ++ tail).length < 2 ^ 64) :
    ffnetlinkRtattrNext (before ++ (attr.encode ++ tail) ++ after)
        ⟨before.length, .ofNat 64 (attr.encode ++ tail).length⟩ =
      some (some ((before.length, ⟨before.length + 4, .ofNat 64 attr.data.length⟩),
        ⟨before.length + attr.encode.length, .ofNat 64 tail.length⟩)) := by
  have small := attr.fits
  have size := attr.length_encode
  rw [List.length_append] at fits ⊢
  have read : readLe (before ++ (attr.encode ++ tail) ++ after) before.length 2 =
      some (attr.data.length + 4) := by
    have found := readLe_middle before (leBytes 2 attr.type.toNat ++ attr.data ++
      padding attr.data.length ++ tail ++ after)
      (show attr.data.length + 4 < 256 ^ 2 from attr.fits)
    rw [← found, attr.encode_eq]
    simp only [List.append_assoc]
  have aligned : (align ((BitVec.ofNat 16 (attr.data.length + 4)).setWidth 32)).toNat =
      attr.encode.length := by
    rw [align_toNat] <;> simp only [BitVec.toNat_setWidth, BitVec.toNat_ofNat] <;> omega
  have room : (4 : BitVec 64) ≤ .ofNat 64 (attr.encode.length + tail.length) := by
    bv_omega
  have valid : (4 : BitVec 16) ≤ .ofNat 16 (attr.data.length + 4) ∧
      (BitVec.ofNat 16 (attr.data.length + 4)).setWidth 64 ≤
        .ofNat 64 (attr.encode.length + tail.length) := by
    constructor <;> bv_omega
  have body : rtaPayload (.ofNat 16 (attr.data.length + 4)) = .ofNat 64 attr.data.length := by
    unfold rtaPayload
    bv_omega
  have rest : BitVec.ofNat 64 (attr.encode.length + tail.length) -
      (align ((BitVec.ofNat 16 (attr.data.length + 4)).setWidth 32)).setWidth 64 =
      .ofNat 64 tail.length := by
    apply BitVec.eq_of_toNat_eq
    rw [BitVec.toNat_sub, BitVec.toNat_setWidth, aligned, BitVec.toNat_ofNat,
      BitVec.toNat_ofNat]
    omega
  simp only [ffnetlinkRtattrNext, room, read, valid, and_self, if_true, body, rest, aligned]

/-- A caller sees the header and the data of the attribute. -/
theorem observe_rtattr_encoded (before after tail : List Byte) (attr : Attribute)
    (fits : (attr.encode ++ tail).length < 2 ^ 64) :
    observe (before ++ (attr.encode ++ tail) ++ after) Rtattr.read ffnetlinkRtattrNext
        ⟨before.length, .ofNat 64 (attr.encode ++ tail).length⟩ =
      some (some ((attr.header, before.length + 4, attr.data),
        ⟨before.length + attr.encode.length, .ofNat 64 tail.length⟩)) := by
  have header := Rtattr.read_middle before
    (attr.data ++ padding attr.data.length ++ tail ++ after) attr.header
  have data := readBytes_middle (before ++ attr.header.bytes) attr.data
    (padding attr.data.length ++ tail ++ after)
  have headerLength : attr.header.bytes.length = 4 := by simp [Rtattr.bytes]
  have length : (BitVec.ofNat 64 attr.data.length).toNat = attr.data.length := by
    have small := attr.fits
    rw [BitVec.toNat_ofNat]
    omega
  have layout : before ++ (attr.encode ++ tail) ++ after =
      before ++ attr.header.bytes ++ attr.data ++ (padding attr.data.length ++ tail ++ after) := by
    simp [Attribute.encode]
  rw [observe, ffnetlinkRtattrNext_encoded before after tail attr fits]
  simp only [List.append_assoc, List.length_append, headerLength] at header data layout
  simp [length, layout, header, data]

/-- All attributes come back. -/
theorem attributesDecode (before : List Byte) (payload : AttributePayload) (after : List Byte) :
    AttributesDecode before payload.attrs after := by
  refine yields_of_encoded (fun offset length => (⟨offset, .ofNat 64 length⟩ : Ffstr))
    (fun _ => True) ?_ ?_ payload.attrs (fun _ _ => trivial) payload.fits before after rfl
  · intro offset
    rfl
  · intro before after attr rest _ fits layout
    rw [layout]
    exact observe_rtattr_encoded before after _ attr fits

/-! ### Messages -/

/-- The aligned length of the message is a 32-bit number. -/
def Message.Encodable (message : Message) : Prop := message.payload.length + 19 < 2 ^ 32

/-- The length of the body that `ffnetlink_next` returns, as it comes out of
`NLMSG_PAYLOAD(nh, 4)`. -/
def shortLength (length : Nat) : BitVec 32 := .ofNat 32 length - 4

/-- `NLMSG_PAYLOAD(nh, 4)` of the header of a payload is four bytes short of it. -/
theorem nlmsgPayload_header (message : Message) :
    nlmsgPayload message.header.nlmsgLen 4 = shortLength message.payload.length := by
  have space : nlmsgSpace 4 = 20 := by decide
  rw [nlmsgPayload, space, shortLength]
  simp only [Message.header, ffnetlinkHdrSet, nlmsgLength]
  bv_omega

/-- The short length is never the length. -/
theorem shortLength_ne (length : Nat) : ((shortLength length).setWidth 64).toNat ≠ length := by
  intro same
  have small : (BitVec.ofNat 32 length).toNat = length % 2 ^ 32 := BitVec.toNat_ofNat length 32
  have short : (shortLength length).toNat = (2 ^ 32 - 4 + length % 2 ^ 32) % 2 ^ 32 := by
    rw [shortLength, BitVec.toNat_sub, small]
    rfl
  rw [BitVec.toNat_setWidth, short] at same
  omega

/-- The header of the message has the length first. -/
theorem Message.encode_eq (message : Message) :
    message.encode = leBytes 4 message.header.nlmsgLen.toNat ++
      (message.encode.drop 4) := by
  simp [Message.encode, Nlmsghdr.bytes, List.append_assoc]

/-- `ffnetlink_next` at an encoded message finds its header and where its payload
starts, goes on to the next one, and gives a body that is four bytes short. -/
theorem ffnetlinkNext_encoded (before after tail : List Byte) (message : Message)
    (encodable : message.Encodable) (fits : (message.encode ++ tail).length < 2 ^ 64) :
    ffnetlinkNext (before ++ (message.encode ++ tail) ++ after)
        ⟨before.length, .ofNat 64 (message.encode ++ tail).length⟩ =
      some (some
        ((before.length,
          ⟨before.length + 16, (shortLength message.payload.length).setWidth 64⟩),
        ⟨before.length + message.encode.length, .ofNat 64 tail.length⟩)) := by
  have size := message.length_encode
  unfold Message.Encodable at encodable
  rw [List.length_append] at fits ⊢
  have lenNat : message.header.nlmsgLen.toNat = message.payload.length + 16 := by
    simp only [Message.header, ffnetlinkHdrSet, nlmsgLength]
    bv_omega
  have lenEq : BitVec.ofNat 32 (message.payload.length + 16) = message.header.nlmsgLen := by
    apply BitVec.eq_of_toNat_eq
    rw [lenNat, BitVec.toNat_ofNat]
    omega
  have read : readLe (before ++ (message.encode ++ tail) ++ after) before.length 4 =
      some (message.payload.length + 16) := by
    have found := readLe_middle before (message.encode.drop 4 ++ tail ++ after)
      (show message.header.nlmsgLen.toNat < 256 ^ 4 from message.header.nlmsgLen.isLt)
    rw [lenNat] at found
    rw [← found, message.encode_eq, lenNat]
    simp [List.append_assoc]
  have aligned : (align message.header.nlmsgLen).toNat = message.encode.length := by
    rw [align_toNat] <;> omega
  have room : (16 : BitVec 64) ≤ .ofNat 64 (message.encode.length + tail.length) := by
    bv_omega
  have valid : (16 : BitVec 32) ≤ message.header.nlmsgLen ∧
      message.header.nlmsgLen.setWidth 64 ≤
        .ofNat 64 (message.encode.length + tail.length) := by
    constructor <;> bv_omega
  have rest : BitVec.ofNat 64 (message.encode.length + tail.length) -
      (align message.header.nlmsgLen).setWidth 64 = .ofNat 64 tail.length := by
    apply BitVec.eq_of_toNat_eq
    rw [BitVec.toNat_sub, BitVec.toNat_setWidth, aligned, BitVec.toNat_ofNat,
      BitVec.toNat_ofNat]
    omega
  simp only [ffnetlinkNext, room, read, lenEq, valid, and_self, if_true,
    nlmsgPayload_header, rest, aligned]

/-- Over a whole buffer: every header in order, every payload's start, then NULL, and
every body short. -/
theorem ffnetlinkNext_yields (messages : List Message)
    (encodable : ∀ message ∈ messages, message.Encodable)
    (fits : (messages.flatMap Message.encode).length < 2 ^ 64) :
    Yields (ffnetlinkNext (messages.flatMap Message.encode))
      ⟨0, .ofNat 64 (messages.flatMap Message.encode).length⟩
      (itemsFrom Message.encode
        (fun offset message =>
          (offset, (⟨offset + 16, (shortLength message.payload.length).setWidth 64⟩ : Ffstr)))
        0 messages) := by
  have layout : messages.flatMap Message.encode = [] ++ messages.flatMap Message.encode ++ [] := by
    simp
  refine yields_of_encoded (fun offset length => (⟨offset, .ofNat 64 length⟩ : Ffstr))
    Message.Encodable ?_ ?_ messages encodable fits [] [] layout
  · intro offset
    rfl
  · intro before after message rest encodable fits layout
    rw [layout]
    exact ffnetlinkNext_encoded before after _ message encodable fits

/-- What `ffnetlink_next` returns comes from the length it read. -/
theorem ffnetlinkNext_found {memory : List Byte} {buf body rest : Ffstr} {position : Nat}
    (found : ffnetlinkNext memory buf = some (some ((position, body), rest))) :
    ∃ len, readLe memory position 4 = some len ∧
      body.len = (nlmsgPayload (.ofNat 32 len) 4).setWidth 64 := by
  unfold ffnetlinkNext at found
  split at found
  · split at found
    · cases found
    · rename_i len read
      dsimp only at found
      split at found
      · simp only [Option.some.injEq, Prod.mk.injEq] at found
        obtain ⟨⟨rfl, rfl⟩, _⟩ := found
        exact ⟨len, read, rfl⟩
      · cases found
  · cases found

theorem Nlmsghdr.nlmsgLen_of_read {memory : List Byte} {offset len : Nat} {header : Nlmsghdr}
    (read : Nlmsghdr.read memory offset = some header) (lenRead : readLe memory offset 4 = some len) :
    header.nlmsgLen = .ofNat 32 len := by
  simp only [Nlmsghdr.read, bind, Option.bind_eq_some_iff, pure, Option.some.injEq] at read
  obtain ⟨other, otherRead, _, _, _, _, _, _, _, _, rfl⟩ := read
  rw [lenRead] at otherRead
  obtain rfl := Option.some.inj otherRead
  rfl

/-- Wherever the decoder finds a header, the body has the short length. -/
theorem observe_message_length {memory payload : List Byte} {buf rest : Ffstr}
    {header : Nlmsghdr} {start : Nat}
    (seen : observe memory Nlmsghdr.read ffnetlinkNext buf =
      some (some ((header, start, payload), rest))) :
    payload.length = ((nlmsgPayload header.nlmsgLen 4).setWidth 64).toNat := by
  unfold observe at seen
  split at seen
  · cases seen
  · cases seen
  · rename_i position body tail found
    simp only [bind, Option.bind_eq_some_iff, pure, Option.some.injEq, Prod.mk.injEq] at seen
    obtain ⟨_, headerRead, bytes, bytesRead, ⟨rfl, _, rfl⟩, _⟩ := seen
    obtain ⟨len, lenRead, bodyLen⟩ := ffnetlinkNext_found found
    rw [length_of_readBytes bytesRead, bodyLen, Nlmsghdr.nlmsgLen_of_read headerRead lenRead]

/-- Messages and attributes both come back exactly as they were encoded if and only
if there are no messages. -/
theorem netlink_roundtrip_iff (messages : List Message) (before after : List Byte)
    (payload : AttributePayload) :
    (MessagesDecode messages ∧ AttributesDecode before payload.attrs after) ↔ messages = [] := by
  constructor
  · rintro ⟨decoded, _⟩
    cases messages with
    | nil => rfl
    | cons message rest =>
        obtain ⟨next, seen, _⟩ := decoded
        have length := observe_message_length seen
        rw [nlmsgPayload_header] at length
        exact absurd length.symm (shortLength_ne message.payload.length)
  · rintro rfl
    exact ⟨rfl, attributesDecode before payload after⟩

/-- One message with a payload of 8 bytes: its body comes back as the first 4. -/
theorem message_body_cut :
    ¬ MessagesDecode [⟨16, 1, [1, 2, 3, 4, 5, 6, 7, 8]⟩] ∧
      Yields (observe (Message.encode ⟨16, 1, [1, 2, 3, 4, 5, 6, 7, 8]⟩) Nlmsghdr.read ffnetlinkNext)
        ⟨0, 24⟩ [(ffnetlinkHdrSet 16 8 1, 16, [1, 2, 3, 4])] := by
  constructor
  · rintro ⟨next, seen, _⟩
    exact absurd (observe_message_length seen) (by decide)
  · exact ⟨⟨24, 0⟩, by decide, rfl⟩

end Ffos.Netlink
