/-
Module: Ffos.Socket.Address
Purpose: `ffsockaddr` of FFOS/socket.h as the bytes of its union on a little-endian Linux or
  Windows machine, and which of the bytes that the system receives depend on what was in the
  object before an address was set.
Trusted boundary: the layouts of `sockaddr_in` and `sockaddr_in6`
Main exports: Families, Ffsockaddr, ffsockaddrSetIpv4, ffsockaddrSetIpv6, ffsockaddrIpPort,
  OnlyWhatWasSet, onlyWhatWasSet_iff
-/
import Ffos.Lib.ByteMemory
import Ffos.Lib.Fields

namespace Ffos.Socket.Address

open Ffos.Lib

/-! ### The object -/

/-- `AF_INET` and `AF_INET6` of a system. -/
structure Families where
  inet : BitVec 16
  inet6 : BitVec 16
  different : inet ≠ inet6
deriving DecidableEq, Repr

def linux : Families := ⟨2, 10, by decide⟩
def windows : Families := ⟨2, 23, by decide⟩

def sockaddrInSize : Nat := 16
def sockaddrIn6Size : Nat := 28

/-- `ffsockaddr`: the length, and the bytes of the union of `ip4` and `ip6`.

        0: sin_family   2: sin_port   4: sin_addr        8: sin_zero
        0: sin6_family  2: sin6_port  4: sin6_flowinfo   8: sin6_addr   24: sin6_scope_id -/
structure Ffsockaddr where
  len : Nat
  bytes : List Byte
  size : bytes.length = sockaddrIn6Size
deriving DecidableEq, Repr

/-- A store to fields of the union. -/
def Ffsockaddr.write (a : Ffsockaddr) (offset : Nat) (values : List Byte)
    (inside : offset + values.length ≤ sockaddrIn6Size) : Ffsockaddr where
  len := a.len
  bytes := overwrite a.bytes offset values
  size := by
    rw [length_overwrite (by rw [a.size]; exact inside)]
    exact a.size

/-- What `bind`, `connect` and `sendto` receive: the first `a->len` bytes. -/
def Ffsockaddr.sent (a : Ffsockaddr) : List Byte := a.bytes.take a.len

/-- The bytes of an address. -/
abbrev Ip (count : Nat) := {bytes : List Byte // bytes.length = count}

/-- The address given, or the one of zeros for NULL. -/
def ipOrZeros {count : Nat} (ip : Option (Ip count)) : Ip count :=
  ip.getD ⟨List.replicate count 0, List.length_replicate⟩

/-! ### The functions -/

/-- `ffint_be_cpu16` on a little-endian machine. -/
def ffintBeCpu16 (n : BitVec 16) : BitVec 16 := (n <<< 8) ||| (n >>> 8)

/-- The two bytes of a number in memory. -/
def bytes16 (n : BitVec 16) : List Byte := leBytes 2 n.toNat

/-- Both functions that set an address: the length, the family, the port in network order, and
the address at its place. -/
def Ffsockaddr.setAddress (a : Ffsockaddr) (len : Nat) (family : BitVec 16) (port : BitVec 32)
    (offset : Nat) (ip : List Byte) (inside : offset + ip.length ≤ sockaddrIn6Size) :
    Ffsockaddr :=
  let a := { a with len := len }
  let a := a.write 0 (bytes16 family) (by rw [bytes16, length_leBytes]; decide)
  let a := a.write 2 (bytes16 (ffintBeCpu16 (port.setWidth 16)))
    (by rw [bytes16, length_leBytes]; decide)
  a.write offset ip inside

/-- `ffsockaddr_set_ipv4`. -/
def ffsockaddrSetIpv4 (families : Families) (a : Ffsockaddr) (ipv4 : Option (Ip 4))
    (port : BitVec 32) : Ffsockaddr :=
  a.setAddress sockaddrInSize families.inet port 4 (ipOrZeros ipv4).val
    (by rw [(ipOrZeros ipv4).property]; decide)

/-- `ffsockaddr_set_ipv6`. -/
def ffsockaddrSetIpv6 (families : Families) (a : Ffsockaddr) (ipv6 : Option (Ip 16))
    (port : BitVec 32) : Ffsockaddr :=
  a.setAddress sockaddrIn6Size families.inet6 port 8 (ipOrZeros ipv6).val
    (by rw [(ipOrZeros ipv6).property]; decide)

/-- A 16-bit field of the union. -/
def Ffsockaddr.read16 (a : Ffsockaddr) (offset : Nat) : BitVec 16 :=
  BitVec.ofNat 16 (leNat (fieldAt a.bytes offset 2))

/-- `ffsockaddr_ip_port`: the bytes of the slice, and `*port`, which is left alone if the
family is another one. -/
def ffsockaddrIpPort (families : Families) (a : Ffsockaddr) (port : BitVec 32) :
    List Byte × BitVec 32 :=
  if a.read16 0 = families.inet then
    (fieldAt a.bytes 4 4, (ffintBeCpu16 (a.read16 2)).setWidth 32)
  else if a.read16 0 = families.inet6 then
    (fieldAt a.bytes 8 16, (ffintBeCpu16 (a.read16 2)).setWidth 32)
  else ([], port)

/-! ### What is asked of them -/

/-- The system receives the same bytes, whatever was in the object before, and the address and
the port are read back. -/
structure OnlyWhatWasSet (families : Families) (set : Ffsockaddr → Ffsockaddr) (ip : List Byte)
    (port : BitVec 32) (first second : Ffsockaddr) : Prop where
  same : (set first).sent = (set second).sent
  readBack : ∀ a old, ffsockaddrIpPort families (set a) old = (ip, port)

/-! ### Numbers in memory -/

theorem toNat_ffintBeCpu16 (n : BitVec 16) :
    (ffintBeCpu16 n).toNat = n.toNat % 256 * 256 + n.toNat / 256 := by
  have bound := n.isLt
  have low : n.toNat / 256 < 2 ^ 8 := by omega
  have shifted : (n.toNat <<< 8) % 2 ^ 16 = (n.toNat % 256) <<< 8 := by
    rw [Nat.shiftLeft_eq, Nat.shiftLeft_eq]
    omega
  rw [ffintBeCpu16, BitVec.toNat_or, BitVec.toNat_shiftLeft, BitVec.toNat_ushiftRight, shifted,
    Nat.shiftRight_eq_div_pow, ← Nat.shiftLeft_add_eq_or_of_lt low, Nat.shiftLeft_eq]

/-- Swapping the bytes twice gives them back. -/
theorem ffintBeCpu16_twice (n : BitVec 16) : ffintBeCpu16 (ffintBeCpu16 n) = n := by
  have bound := n.isLt
  apply BitVec.eq_of_toNat_eq
  rw [toNat_ffintBeCpu16, toNat_ffintBeCpu16]
  omega

theorem length_bytes16 (n : BitVec 16) : (bytes16 n).length = 2 := length_leBytes 2 _

theorem ofNat_leNat_bytes16 (n : BitVec 16) : BitVec.ofNat 16 (leNat (bytes16 n)) = n := by
  have bound : n.toNat % 256 ^ 2 = n.toNat := Nat.mod_eq_of_lt n.isLt
  rw [bytes16, leNat_leBytes, bound, BitVec.ofNat_toNat, BitVec.setWidth_eq]

/-- A port below 65536 is not cut by the 16-bit field. -/
theorem port_restored {port : BitVec 32} (port16 : port.toNat < 65536) :
    (ffintBeCpu16 (ffintBeCpu16 (port.setWidth 16))).setWidth 32 = port := by
  rw [ffintBeCpu16_twice]
  apply BitVec.eq_of_toNat_eq
  rw [BitVec.toNat_setWidth, BitVec.toNat_setWidth]
  omega

/-! ### The fields after a call -/

section Fields

variable {a : Ffsockaddr} {len offset other count : Nat} {family : BitVec 16} {port : BitVec 32}
  {ip values : List Byte}

theorem Ffsockaddr.fieldAt_write (inside : offset + values.length ≤ sockaddrIn6Size)
    (size : values.length = count) :
    fieldAt (a.write offset values inside).bytes offset count = values := by
  subst size
  apply fieldAt_overwrite
  rw [a.size]
  exact inside

theorem Ffsockaddr.fieldAt_write_of_disjoint (inside : offset + values.length ≤ sockaddrIn6Size)
    (disjoint : other + count ≤ offset ∨ offset + values.length ≤ other) :
    fieldAt (a.write offset values inside).bytes other count = fieldAt a.bytes other count := by
  apply fieldAt_overwrite_of_disjoint _ disjoint
  rw [a.size]
  exact inside

/-- The family, the port and the address are those that were set. -/
theorem Ffsockaddr.fieldAt_setAddress (behind : 4 ≤ offset)
    (inside : offset + ip.length ≤ sockaddrIn6Size) (size : ip.length = count) :
    fieldAt (a.setAddress len family port offset ip inside).bytes 0 2 = bytes16 family ∧
      fieldAt (a.setAddress len family port offset ip inside).bytes 2 2 =
        bytes16 (ffintBeCpu16 (port.setWidth 16)) ∧
      fieldAt (a.setAddress len family port offset ip inside).bytes offset count = ip := by
  refine ⟨?_, ?_, fieldAt_write inside size⟩
  · rw [setAddress, fieldAt_write_of_disjoint _ (Or.inl (by omega)),
      fieldAt_write_of_disjoint _ (Or.inl (by omega))]
    exact fieldAt_write _ (length_bytes16 family)
  · rw [setAddress, fieldAt_write_of_disjoint _ (Or.inl behind)]
    exact fieldAt_write _ (length_bytes16 _)

/-- Any other field is as it was. -/
theorem Ffsockaddr.fieldAt_setAddress_of_disjoint (behind : 4 ≤ other)
    (inside : offset + ip.length ≤ sockaddrIn6Size)
    (disjoint : other + count ≤ offset ∨ offset + ip.length ≤ other) :
    fieldAt (a.setAddress len family port offset ip inside).bytes other count =
      fieldAt a.bytes other count := by
  rw [setAddress, fieldAt_write_of_disjoint _ disjoint,
    fieldAt_write_of_disjoint _ (Or.inr (by rw [length_bytes16]; exact behind)),
    fieldAt_write_of_disjoint _ (Or.inr (by rw [length_bytes16]; omega))]

theorem Ffsockaddr.read16_eq {n : BitVec 16} (stored : fieldAt a.bytes offset 2 = bytes16 n) :
    a.read16 offset = n := by
  rw [read16, stored, ofNat_leNat_bytes16]

end Fields

/-! ### IPv4 -/

section Ipv4

variable (families : Families) (a : Ffsockaddr) (ipv4 : Option (Ip 4)) (port : BitVec 32)

theorem fields_setIpv4 :
    fieldAt (ffsockaddrSetIpv4 families a ipv4 port).bytes 0 2 = bytes16 families.inet ∧
      fieldAt (ffsockaddrSetIpv4 families a ipv4 port).bytes 2 2 =
        bytes16 (ffintBeCpu16 (port.setWidth 16)) ∧
      fieldAt (ffsockaddrSetIpv4 families a ipv4 port).bytes 4 4 = (ipOrZeros ipv4).val ∧
      fieldAt (ffsockaddrSetIpv4 families a ipv4 port).bytes 8 8 = fieldAt a.bytes 8 8 := by
  have size := (ipOrZeros ipv4).property
  have inside : 4 + (ipOrZeros ipv4).val.length ≤ sockaddrIn6Size := by
    rw [size]
    decide
  obtain ⟨family, portBytes, ip⟩ := @Ffsockaddr.fieldAt_setAddress a sockaddrInSize 4 4
    families.inet port (ipOrZeros ipv4).val (Nat.le_refl 4) inside size
  refine ⟨family, portBytes, ip, ?_⟩
  apply Ffsockaddr.fieldAt_setAddress_of_disjoint (by decide)
  rw [size]
  exact Or.inr (Nat.le_refl 8)

/-- `sin_zero` is sent with whatever was in it. -/
theorem sent_setIpv4 :
    (ffsockaddrSetIpv4 families a ipv4 port).sent =
      bytes16 families.inet ++ bytes16 (ffintBeCpu16 (port.setWidth 16)) ++
        (ipOrZeros ipv4).val ++ fieldAt a.bytes 8 8 := by
  obtain ⟨family, portBytes, ip, rest⟩ := fields_setIpv4 families a ipv4 port
  change fieldAt (ffsockaddrSetIpv4 families a ipv4 port).bytes 0 (2 + 2 + 4 + 8) = _
  rw [fieldAt_append, fieldAt_append, fieldAt_append, family, portBytes, ip, rest]

theorem ffsockaddrIpPort_setIpv4 (port16 : port.toNat < 65536) (old : BitVec 32) :
    ffsockaddrIpPort families (ffsockaddrSetIpv4 families a ipv4 port) old =
      ((ipOrZeros ipv4).val, port) := by
  obtain ⟨family, portBytes, ip, _⟩ := fields_setIpv4 families a ipv4 port
  rw [ffsockaddrIpPort, if_pos (Ffsockaddr.read16_eq family), ip, Ffsockaddr.read16_eq portBytes,
    port_restored port16]

end Ipv4

/-! ### IPv6 -/

section Ipv6

variable (families : Families) (a : Ffsockaddr) (ipv6 : Option (Ip 16)) (port : BitVec 32)

theorem fields_setIpv6 :
    fieldAt (ffsockaddrSetIpv6 families a ipv6 port).bytes 0 2 = bytes16 families.inet6 ∧
      fieldAt (ffsockaddrSetIpv6 families a ipv6 port).bytes 2 2 =
        bytes16 (ffintBeCpu16 (port.setWidth 16)) ∧
      fieldAt (ffsockaddrSetIpv6 families a ipv6 port).bytes 4 4 = fieldAt a.bytes 4 4 ∧
      fieldAt (ffsockaddrSetIpv6 families a ipv6 port).bytes 8 16 = (ipOrZeros ipv6).val ∧
      fieldAt (ffsockaddrSetIpv6 families a ipv6 port).bytes 24 4 = fieldAt a.bytes 24 4 := by
  have size := (ipOrZeros ipv6).property
  have inside : 8 + (ipOrZeros ipv6).val.length ≤ sockaddrIn6Size := by
    rw [size]
    decide
  obtain ⟨family, portBytes, ip⟩ := @Ffsockaddr.fieldAt_setAddress a sockaddrIn6Size 8 16
    families.inet6 port (ipOrZeros ipv6).val (by decide) inside size
  refine ⟨family, portBytes, ?_, ip, ?_⟩
  · apply Ffsockaddr.fieldAt_setAddress_of_disjoint (by decide)
    exact Or.inl (Nat.le_refl 8)
  · apply Ffsockaddr.fieldAt_setAddress_of_disjoint (by decide)
    rw [size]
    exact Or.inr (Nat.le_refl 24)

/-- `sin6_flowinfo` and `sin6_scope_id` are sent with whatever was in them. -/
theorem sent_setIpv6 :
    (ffsockaddrSetIpv6 families a ipv6 port).sent =
      bytes16 families.inet6 ++ bytes16 (ffintBeCpu16 (port.setWidth 16)) ++
        fieldAt a.bytes 4 4 ++ (ipOrZeros ipv6).val ++ fieldAt a.bytes 24 4 := by
  obtain ⟨family, portBytes, flow, ip, scope⟩ := fields_setIpv6 families a ipv6 port
  change fieldAt (ffsockaddrSetIpv6 families a ipv6 port).bytes 0 (2 + 2 + 4 + 16 + 4) = _
  rw [fieldAt_append, fieldAt_append, fieldAt_append, fieldAt_append, family, portBytes, flow, ip,
    scope]

theorem ffsockaddrIpPort_setIpv6 (port16 : port.toNat < 65536) (old : BitVec 32) :
    ffsockaddrIpPort families (ffsockaddrSetIpv6 families a ipv6 port) old =
      ((ipOrZeros ipv6).val, port) := by
  obtain ⟨family, portBytes, _, ip, _⟩ := fields_setIpv6 families a ipv6 port
  have notInet : (ffsockaddrSetIpv6 families a ipv6 port).read16 0 ≠ families.inet := by
    rw [Ffsockaddr.read16_eq family]
    exact families.different.symm
  rw [ffsockaddrIpPort, if_neg notInet, if_pos (Ffsockaddr.read16_eq family), ip,
    Ffsockaddr.read16_eq portBytes, port_restored port16]

end Ipv6

/-! ### Two runs -/

/-- An address depends only on what was set if and only if the two objects had the same bytes
in the fields that the function leaves out: `sin_zero`, or `sin6_flowinfo` and
`sin6_scope_id`. -/
theorem onlyWhatWasSet_iff (families : Families) (first second : Ffsockaddr) {port : BitVec 32}
    (port16 : port.toNat < 65536) :
    (∀ ipv4 : Option (Ip 4),
      OnlyWhatWasSet families (fun a => ffsockaddrSetIpv4 families a ipv4 port)
          (ipOrZeros ipv4).val port first second ↔
        fieldAt first.bytes 8 8 = fieldAt second.bytes 8 8) ∧
      ∀ ipv6 : Option (Ip 16),
        OnlyWhatWasSet families (fun a => ffsockaddrSetIpv6 families a ipv6 port)
            (ipOrZeros ipv6).val port first second ↔
          fieldAt first.bytes 4 4 = fieldAt second.bytes 4 4 ∧
            fieldAt first.bytes 24 4 = fieldAt second.bytes 24 4 := by
  have flowSize : (fieldAt first.bytes 4 4).length = (fieldAt second.bytes 4 4).length := by
    rw [length_fieldAt (by rw [first.size]; decide), length_fieldAt (by rw [second.size]; decide)]
  constructor
  · intro ipv4
    constructor
    · intro only
      have same := only.same
      rw [sent_setIpv4, sent_setIpv4] at same
      exact List.append_cancel_left same
    · intro sameRest
      refine ⟨?_, fun a old => ffsockaddrIpPort_setIpv4 families a ipv4 port port16 old⟩
      rw [sent_setIpv4, sent_setIpv4, sameRest]
  · intro ipv6
    constructor
    · intro only
      have same := only.same
      rw [sent_setIpv6, sent_setIpv6] at same
      simp only [List.append_assoc, List.append_cancel_left_eq] at same
      obtain ⟨sameFlow, later⟩ := List.append_inj same flowSize
      exact ⟨sameFlow, List.append_cancel_left later⟩
    · rintro ⟨sameFlow, sameScope⟩
      refine ⟨?_, fun a old => ffsockaddrIpPort_setIpv6 families a ipv6 port port16 old⟩
      rw [sent_setIpv6, sent_setIpv6, sameFlow, sameScope]

/-- An object with one byte everywhere. -/
def filled (len : Nat) (byte : Byte) : Ffsockaddr :=
  ⟨len, List.replicate sockaddrIn6Size byte, List.length_replicate⟩

/-- Objects of zeros. -/
theorem onlyWhatWasSet_zeroed :
    OnlyWhatWasSet linux (fun a => ffsockaddrSetIpv6 linux a none 80) (List.replicate 16 0) 80
      (filled 0 0) (filled 28 0) :=
  ((onlyWhatWasSet_iff linux (filled 0 0) (filled 28 0) (by decide)).2 none).mpr
    ⟨rfl, rfl⟩

/-- An object that was not zeroed keeps `sin_zero`, and the flow label and the scope. -/
theorem not_onlyWhatWasSet_uninitialised :
    ¬OnlyWhatWasSet linux (fun a => ffsockaddrSetIpv4 linux a none 80) (List.replicate 4 0) 80
        (filled 0 0) (filled 0 0xff) ∧
      ¬OnlyWhatWasSet linux (fun a => ffsockaddrSetIpv6 linux a none 80) (List.replicate 16 0) 80
        (filled 0 0) (filled 0 0xff) := by
  constructor
  · intro only
    exact absurd only.same (by decide)
  · intro only
    exact absurd only.same (by decide)

end Ffos.Socket.Address
