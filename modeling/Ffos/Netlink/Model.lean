/-
Module: Ffos.Netlink.Model
Purpose: The encoder and the two decoders of FFOS/netlink.h over a byte memory, on
  a little-endian 64-bit Linux.
Trusted boundary: the macros of linux/netlink.h and linux/rtnetlink.h, written out
  with the integer types their expansion has
Main exports: Nlmsghdr, ffnetlinkHdrSet, ffnetlinkNext, ffnetlinkRtattrNext
-/
import Ffos.Lib.ByteMemory

namespace Ffos.Netlink

open Ffos.Lib

/-- `ffstr`: a pointer, as an offset into the memory, and an `ffsize` length. -/
structure Ffstr where
  ptr : Nat
  len : BitVec 64
deriving DecidableEq, Repr

/-- `struct nlmsghdr`. -/
structure Nlmsghdr where
  nlmsgLen : BitVec 32
  nlmsgType : BitVec 16
  nlmsgFlags : BitVec 16
  nlmsgSeq : BitVec 32
  nlmsgPid : BitVec 32
deriving DecidableEq, Repr

/-- `struct rtattr`. -/
structure Rtattr where
  rtaLen : BitVec 16
  rtaType : BitVec 16
deriving DecidableEq, Repr

/-! ### Layout in memory -/

def Nlmsghdr.bytes (header : Nlmsghdr) : List Byte :=
  leBytes 4 header.nlmsgLen.toNat ++ leBytes 2 header.nlmsgType.toNat ++
    leBytes 2 header.nlmsgFlags.toNat ++ leBytes 4 header.nlmsgSeq.toNat ++
    leBytes 4 header.nlmsgPid.toNat

/-- The header that stands at an offset. -/
def Nlmsghdr.read (memory : List Byte) (offset : Nat) : Option Nlmsghdr := do
  let len ← readLe memory offset 4
  let type ← readLe memory (offset + 4) 2
  let flags ← readLe memory (offset + 6) 2
  let seq ← readLe memory (offset + 8) 4
  let pid ← readLe memory (offset + 12) 4
  return ⟨.ofNat 32 len, .ofNat 16 type, .ofNat 16 flags, .ofNat 32 seq, .ofNat 32 pid⟩

def Rtattr.bytes (header : Rtattr) : List Byte :=
  leBytes 2 header.rtaLen.toNat ++ leBytes 2 header.rtaType.toNat

def Rtattr.read (memory : List Byte) (offset : Nat) : Option Rtattr := do
  let len ← readLe memory offset 2
  let type ← readLe memory (offset + 2) 2
  return ⟨.ofNat 16 len, .ofNat 16 type⟩

/-! ### The macros -/

/-- `NLMSG_ALIGN` and `RTA_ALIGN` of a 32-bit length. -/
def align (len : BitVec 32) : BitVec 32 := (len + 4 - 1) &&& ~~~(4 - 1)

/-- `NLMSG_LENGTH`. -/
def nlmsgLength (len : BitVec 32) : BitVec 32 := len + 16

/-- `NLMSG_SPACE`. -/
def nlmsgSpace (len : BitVec 32) : BitVec 32 := align (nlmsgLength len)

/-- `NLMSG_PAYLOAD`. -/
def nlmsgPayload (nlmsgLen len : BitVec 32) : BitVec 32 := nlmsgLen - nlmsgSpace len

/-- `RTA_PAYLOAD`: an `int` minus a `size_t`. -/
def rtaPayload (rtaLen : BitVec 16) : BitVec 64 := rtaLen.setWidth 64 - 4

/-! ### The functions -/

/-- `_ffnetlink_hdr_set`: the zeroed header with its four fields set. -/
def ffnetlinkHdrSet (type bodyLen seq : BitVec 32) : Nlmsghdr where
  nlmsgLen := nlmsgLength bodyLen
  nlmsgType := type.setWidth 16
  nlmsgFlags := 0x301  -- NLM_F_REQUEST | NLM_F_DUMP
  nlmsgSeq := seq
  nlmsgPid := 0

/-- `ffnetlink_next`: the position of the header with the body, and the rest of the
buffer. `some none` is NULL; `none` is a read outside of the memory. The second and
third test of `NLMSG_OK` read `nlmsg_len`. -/
def ffnetlinkNext (memory : List Byte) (buf : Ffstr) :
    Option (Option ((Nat × Ffstr) × Ffstr)) :=
  if 16 ≤ buf.len then
    match readLe memory buf.ptr 4 with
    | none => none
    | some len =>
        let nlmsgLen : BitVec 32 := .ofNat 32 len
        if 16 ≤ nlmsgLen ∧ nlmsgLen.setWidth 64 ≤ buf.len then
          let body : Ffstr := ⟨buf.ptr + 16, (nlmsgPayload nlmsgLen 4).setWidth 64⟩
          let rest : Ffstr :=
            ⟨buf.ptr + (align nlmsgLen).toNat, buf.len - (align nlmsgLen).setWidth 64⟩
          some (some ((buf.ptr, body), rest))
        else some none
  else some none

/-- `ffnetlink_rtattr_next`. -/
def ffnetlinkRtattrNext (memory : List Byte) (buf : Ffstr) :
    Option (Option ((Nat × Ffstr) × Ffstr)) :=
  if 4 ≤ buf.len then
    match readLe memory buf.ptr 2 with
    | none => none
    | some len =>
        let rtaLen : BitVec 16 := .ofNat 16 len
        if 4 ≤ rtaLen ∧ rtaLen.setWidth 64 ≤ buf.len then
          let aligned := align (rtaLen.setWidth 32)
          let body : Ffstr := ⟨buf.ptr + 4, rtaPayload rtaLen⟩
          let rest : Ffstr := ⟨buf.ptr + aligned.toNat, buf.len - aligned.setWidth 64⟩
          some (some ((buf.ptr, body), rest))
        else some none
  else some none

/-! ### What is encoded -/

/-- Zero bytes up to a multiple of 4. -/
def padding (length : Nat) : List Byte := List.replicate ((4 - length % 4) % 4) 0

/-- A message to be sent. -/
structure Message where
  type : BitVec 32
  seq : BitVec 32
  payload : List Byte

/-- The header that `_ffnetlink_hdr_set` writes for the message. -/
def Message.header (message : Message) : Nlmsghdr :=
  ffnetlinkHdrSet message.type (.ofNat 32 message.payload.length) message.seq

/-- The header, the payload and the padding. -/
def Message.encode (message : Message) : List Byte :=
  message.header.bytes ++ message.payload ++ padding message.payload.length

/-- An attribute. Its length with the header is kept in 16 bits. -/
structure Attribute where
  type : BitVec 16
  data : List Byte
  fits : data.length + 4 < 2 ^ 16

def Attribute.header (attr : Attribute) : Rtattr where
  rtaLen := .ofNat 16 (attr.data.length + 4)
  rtaType := attr.type

def Attribute.encode (attr : Attribute) : List Byte :=
  attr.header.bytes ++ attr.data ++ padding attr.data.length

end Ffos.Netlink
