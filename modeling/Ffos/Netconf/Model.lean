/-
Module: Ffos.Netconf.Model
Purpose: `_ffnetconf_dns` of FFOS/netconf.h on UNIX: the lines of resolv.conf are cut into
  words, and the addresses are packed behind a table of pointers.
Trusted boundary: the strings of ffbase, taken as the parameter `Ffstr`; what the system
  answers, taken as the parameter `System`; a little-endian machine
Main exports: Ffstr, System, Ffnetconf, dnsLoop, dnsPack, ffnetconfDns
-/
import Ffos.Lib.ByteMemory
import Ffos.Lib.OutputBuffer
import Ffos.Lib.Separated

namespace Ffos.Netconf

open Ffos.Lib

def space : Byte := 0x20
def tab : Byte := 0x09
def cr : Byte := 0x0d
def lf : Byte := 0x0a

/-- `" \t"` -/
def blanks : List Byte := [space, tab]

/-- `" \t\r"` -/
def whites : List Byte := [space, tab, cr]

/-- `"nameserver"` -/
def nameserver : List Byte := [0x6e, 0x61, 0x6d, 0x65, 0x73, 0x65, 0x72, 0x76, 0x65, 0x72]

/-! ### ffbase -/

/-- What netconf.h uses of the strings of ffbase. `ffstr_splitby` and `ffstr_splitbyany` give
what stands before the first such character and what stands behind it, `ffstr_skipany` drops
the characters at the beginning. -/
structure Ffstr where
  splitby : List Byte → Byte → List Byte × List Byte
  splitbyany : List Byte → List Byte → List Byte × List Byte
  skipany : List Byte → List Byte → List Byte
  splitby_found : ∀ first c second, c ∉ first → splitby (first ++ c :: second) c = (first, second)
  splitby_none : ∀ s c, c ∉ s → splitby s c = (s, [])
  splitbyany_found : ∀ first c second anyof, Clean anyof first → c ∈ anyof →
    splitbyany (first ++ c :: second) anyof = (first, second)
  splitbyany_none : ∀ s anyof, Clean anyof s → splitbyany s anyof = (s, [])
  skipany_lead : ∀ lead rest skip, (∀ c ∈ lead, c ∈ skip) → (∀ c ∈ rest.head?, c ∉ skip) →
    skipany (lead ++ rest) skip = rest

theorem not_mem_iff_clean {c : Byte} {s : List Byte} : c ∉ s ↔ Clean [c] s := by
  constructor
  · intro other d member same
    rw [List.mem_singleton.mp same] at member
    exact other member
  · exact fun clean member => clean c member (List.mem_singleton_self c)

/-- What is left is shorter. -/
theorem Ffstr.rest_lt (str : Ffstr) {s : List Byte} (c : Byte) (nonempty : s ≠ []) :
    (str.splitby s c).2.length < s.length := by
  by_cases member : c ∈ s
  · obtain ⟨first, second, rfl, other⟩ := List.eq_append_cons_of_mem member
    rw [str.splitby_found first c second other]
    simp only [List.length_append, List.length_cons]
    omega
  · rw [str.splitby_none s c member]
    exact List.length_pos_of_ne_nil nonempty

/-- The assumptions on the strings of ffbase are met by scanning. -/
def Ffstr.scanning : Ffstr where
  splitby s c := cut [c] s
  splitbyany s anyof := cut anyof s
  skipany s skip := s.dropWhile (· ∈ skip)
  splitby_found first c second other :=
    cut_found (not_mem_iff_clean.mp other) (List.mem_singleton_self c) second
  splitby_none s c other := cut_clean (not_mem_iff_clean.mp other)
  splitbyany_found first c second anyof clean member := cut_found clean member second
  splitbyany_none s anyof clean := cut_clean clean
  skipany_lead lead rest skip leading next := by
    rw [List.dropWhile_append_of_pos fun c member => decide_eq_true (leading c member)]
    cases rest with
    | nil => rfl
    | cons c rest => simp [next c rfl]

/-! ### The system -/

/-- What the system answers: whether there is memory for the file, whether the file can be
opened, what `read` puts into it, whether there is memory for a further server, and the
address of the block with what is in it. -/
structure System where
  pointerSize : Nat
  fileAllocated : Bool
  opened : Bool
  read : Option (List Byte)
  pushed : Nat → Bool
  alloc : Nat → Option (Nat × List Byte)
  read_le : ∀ data ∈ read, data.length ≤ 4096
  alloc_size : ∀ size address block, alloc size = some (address, block) →
    block.length = size ∧ address + size < 256 ^ pointerSize

/-- `ffnetconf`: the address of the block and what is in it, and the number of addresses. -/
structure Ffnetconf where
  dnsAddrs : Option (Nat × List Byte)
  dnsAddrsNum : BitVec 32

/-- The loop over the lines: the servers and the size of their texts. None is a failure of
`ffvec_pushT`. -/
def dnsLoop (str : Ffstr) (pushed : Nat → Bool) (input : List Byte) (servers : List (List Byte))
    (cap : Nat) : Option (List (List Byte) × Nat) :=
  if input = [] then some (servers, cap)
  else
    let line := str.skipany (str.splitby input lf).1 whites
    let word := str.splitbyany line blanks
    if word.1 = nameserver then
      let address := (str.splitbyany word.2 blanks).1
      if pushed servers.length then
        dnsLoop str pushed (str.splitby input lf).2 (servers ++ [address])
          (cap + (address.length + 1))
      else none
    else dnsLoop str pushed (str.splitby input lf).2 servers cap
termination_by input.length
decreasing_by all_goals exact str.rest_lt lf ‹_›

/-- The loop that fills the block: `ptr` and `data` are offsets in it. None is a store outside
of the block. -/
def dnsPack (pointerSize address : Nat) : List (List Byte) → List Byte → Nat → Nat →
    Option (List Byte)
  | [], block, _, _ => some block
  | el :: servers, block, ptr, data => do
      let block ← storeAll block data el
      let block ← storeAll block ptr (leBytes pointerSize (address + data))
      let block ← store block (data + el.length) 0
      dnsPack pointerSize address servers block (ptr + pointerSize) (data + el.length + 1)

/-- `_ffnetconf_dns`: the result and the object after it. None is a store outside of the
block. -/
def ffnetconfDns (str : Ffstr) (sys : System) (nc : Ffnetconf) : Option (Int × Ffnetconf) :=
  if sys.fileAllocated ∧ sys.opened then
    match sys.read with
    | none => some (-1, nc)
    | some [] => some (-1, nc)
    | some fdata =>
        match dnsLoop str sys.pushed fdata [] 0 with
        | none => some (-1, nc)
        | some (servers, cap) =>
            match sys.alloc (cap + servers.length * sys.pointerSize) with
            | none => some (-1, { nc with dnsAddrs := none })
            | some (address, block) =>
                (dnsPack sys.pointerSize address servers block 0
                  (servers.length * sys.pointerSize)).map fun block =>
                    (0, ⟨some (address, block), .ofNat 32 servers.length⟩)
  else some (-1, nc)

end Ffos.Netconf
