/-
Module: Ffos.Netconf.Dns
Purpose: Which addresses `_ffnetconf_dns` finds and how it stores them: exactly the configured
  ones if and only if every line is read as it is meant.
Trusted boundary: none
Main exports: dnsLoop_eq, dnsPack_eq, Stored, Exact, ffnetconfDns_packed, ffnetconfDns_exact_iff
-/
import Ffos.Netconf.Lines

namespace Ffos.Netconf

open Ffos.Lib

/-! ### The loop over the lines -/

section Loop

variable {str : Ffstr} {pushed : Nat → Bool}

theorem splitbyany_eq (str : Ffstr) (s anyof : List Byte) : str.splitbyany s anyof = cut anyof s := by
  by_cases clean : Clean anyof s
  · rw [str.splitbyany_none s anyof clean, cut_clean clean]
  · obtain ⟨first, c, second, rfl, cleanFirst, member⟩ := exists_first_separator anyof clean
    rw [str.splitbyany_found first c second anyof cleanFirst member, cut_found cleanFirst member]

theorem skipany_eq (str : Ffstr) (s skip : List Byte) :
    str.skipany s skip = s.dropWhile (· ∈ skip) := by
  have whole := @List.takeWhile_append_dropWhile _ (· ∈ skip) s
  have lead : ∀ c ∈ s.takeWhile (· ∈ skip), c ∈ skip := by
    intro c member
    have skipped := List.mem_takeWhile_imp member
    exact of_decide_eq_true skipped
  rw [← str.skipany_lead _ _ skip lead (head?_dropWhile_not_mem skip s), whole]

theorem splitby_render {p : Piece Byte} {rest : List (Piece Byte)}
    (well : WellParted [lf] (p :: rest)) :
    str.splitby (render (p :: rest)) lf = (p.1, render rest) := by
  cases well with
  | @opened name _ clean =>
      rw [render_cons, render_nil, Option.toList_none, List.append_nil, List.append_nil]
      exact str.splitby_none name lf (not_mem_iff_clean.mpr clean)
  | closed first _ =>
      obtain ⟨c, separator, closes⟩ := first.separator
      rw [render_cons, closes, List.mem_singleton.mp separator, Option.toList_some,
        List.append_assoc, List.singleton_append]
      exact str.splitby_found p.1 lf _ (not_mem_iff_clean.mpr first.clean)

/-- One line: its address, if it has one, goes to the servers. -/
theorem dnsLoop_cons {p : Piece Byte} {rest : List (Piece Byte)}
    (well : WellParted [lf] (p :: rest)) (found : List (List Byte)) (cap : Nat) :
    dnsLoop str pushed (render (p :: rest)) found cap =
      (entryOf p.1).elim (dnsLoop str pushed (render rest) found cap) fun address =>
        if pushed found.length then
          dnsLoop str pushed (render rest) (found ++ [address]) (cap + (address.length + 1))
        else none := by
  have nonempty : render (p :: rest) ≠ [] := by
    cases well with
    | opened nonempty _ => simpa using nonempty
    | closed first _ =>
        obtain ⟨c, _, closes⟩ := first.separator
        simp [closes]
  rw [dnsLoop, if_neg nonempty, splitby_render well]
  simp only [skipany_eq, splitbyany_eq, entryOf]
  split
  · rfl
  · rfl

/-- The loop finds the addresses of all lines and counts the size of their texts, if there is
memory for each of them. -/
theorem dnsLoop_parts {ps : List (Piece Byte)} (well : WellParted [lf] ps)
    (found : List (List Byte)) (cap : Nat) :
    dnsLoop str pushed (render ps) found cap =
      if ∀ n < ((ps.map Prod.fst).filterMap entryOf).length, pushed (found.length + n) = true then
        some (found ++ (ps.map Prod.fst).filterMap entryOf,
          cap + (texts ((ps.map Prod.fst).filterMap entryOf)).length)
      else none := by
  induction ps generalizing found cap with
  | nil =>
      rw [render_nil, dnsLoop, if_pos rfl]
      simp [texts]
  | cons p rest inductionHypothesis =>
      have wellRest : WellParted [lf] rest := @WellParted.of_append _ _ [p] rest well
      rw [dnsLoop_cons well, List.map_cons]
      cases entry : entryOf p.1 with
      | none => rw [Option.elim_none, inductionHypothesis wellRest, List.filterMap_cons_none entry]
      | some address =>
          rw [Option.elim_some, inductionHypothesis wellRest, List.filterMap_cons_some entry,
            texts_cons, List.length_cons]
          simp only [Nat.forall_lt_succ_left, List.length_append, List.length_cons,
            List.length_nil, Nat.zero_add, Nat.add_zero, List.append_assoc, List.singleton_append]
          by_cases memory : pushed found.length = true
          · simp only [memory, if_true, true_and, Nat.add_assoc, Nat.add_comm 1]
          · simp only [memory, false_and, if_false, Bool.false_eq_true]

theorem dnsLoop_eq (content : List Byte) :
    dnsLoop str pushed content [] 0 =
      if ∀ n < (entries content).length, pushed n = true then
        some (entries content, (texts (entries content)).length)
      else none := by
  have looped := @dnsLoop_parts str pushed _ (parts_wellParted [lf] content) [] 0
  rw [render_parts, List.nil_append, List.length_nil] at looped
  simp only [Nat.zero_add] at looped
  exact looped

end Loop

/-! ### The block -/

theorem exists_front {xs : List Byte} {n : Nat} (long : n ≤ xs.length) :
    ∃ front back, xs = front ++ back ∧ front.length = n :=
  ⟨xs.take n, xs.drop n, (List.take_append_drop n xs).symm, List.length_take_of_le long⟩

/-- One element: its pointer goes to the next slot, its text and a terminator behind the texts. -/
theorem dnsPack_cons {pointerSize address offset : Nat} {el : List Byte}
    {pointers slot restPointers data oldText restData : List Byte} {nul : Byte}
    (start : (pointers ++ (slot ++ restPointers) ++ data).length = offset)
    (slotSize : slot.length = pointerSize) (textSize : oldText.length = el.length)
    (found : List (List Byte)) :
    dnsPack pointerSize address (el :: found)
        (pointers ++ (slot ++ restPointers) ++ (data ++ (oldText ++ nul :: restData)))
        pointers.length offset =
      dnsPack pointerSize address found
        ((pointers ++ leBytes pointerSize (address + offset)) ++ restPointers ++
          (data ++ (el ++ [0]) ++ restData))
        (pointers.length + pointerSize) (offset + el.length + 1) := by
  have text := storeAll_middle (pointers ++ (slot ++ restPointers) ++ data) oldText
    (nul :: restData) el textSize
  have pointer := storeAll_middle pointers slot
    (restPointers ++ (data ++ (el ++ nul :: restData))) (leBytes pointerSize (address + offset))
    (by rw [slotSize, length_leBytes])
  have terminator := store_middle
    (pointers ++ leBytes pointerSize (address + offset) ++ restPointers ++ data ++ el) restData
    nul 0
  have nulPlace : (pointers ++ leBytes pointerSize (address + offset) ++ restPointers ++ data ++
      el).length = offset + el.length := by
    simp only [List.length_append, length_leBytes] at start ⊢
    omega
  rw [start] at text
  rw [nulPlace] at terminator
  simp only [List.append_assoc, List.cons_append, List.nil_append] at text pointer terminator ⊢
  simp only [dnsPack, text, pointer, terminator, Option.bind_eq_bind, Option.bind_some]

/-- The loop fills the pointers and the texts in, and nothing else. -/
theorem dnsPack_eq (pointerSize address : Nat) (found : List (List Byte))
    (pointers oldPointers data oldData : List Byte)
    (pointersFit : oldPointers.length = found.length * pointerSize)
    (dataFit : oldData.length = (texts found).length) :
    dnsPack pointerSize address found (pointers ++ oldPointers ++ (data ++ oldData))
        pointers.length (pointers ++ oldPointers ++ data).length =
      some (pointers ++
        pointerTable pointerSize address (pointers ++ oldPointers ++ data).length found ++
        (data ++ texts found)) := by
  induction found generalizing pointers oldPointers data oldData with
  | nil =>
      obtain rfl : oldPointers = [] := List.length_eq_zero_iff.mp (by simpa using pointersFit)
      obtain rfl : oldData = [] := List.length_eq_zero_iff.mp dataFit
      rfl
  | cons el found inductionHypothesis =>
      rw [texts_cons, List.length_append, List.length_cons] at dataFit
      rw [List.length_cons, Nat.succ_mul] at pointersFit
      -- The places of this pointer, of this text and of its terminator.
      obtain ⟨slot, restPointers, rfl, slotSize⟩ :=
        @exists_front oldPointers pointerSize (by omega)
      obtain ⟨oldText, behind, rfl, textSize⟩ := @exists_front oldData el.length (by omega)
      rw [List.length_append] at dataFit pointersFit
      obtain ⟨nul, restData, rfl⟩ : ∃ nul rest, behind = nul :: rest :=
        List.exists_cons_of_length_pos (by omega)
      rw [List.length_cons] at dataFit
      generalize start : (pointers ++ (slot ++ restPointers) ++ data).length = offset
      have rest := inductionHypothesis (pointers ++ leBytes pointerSize (address + offset))
        restPointers (data ++ (el ++ [0])) restData (by omega) (by omega)
      have nextPointer : (pointers ++ leBytes pointerSize (address + offset)).length =
          pointers.length + pointerSize := by
        rw [List.length_append, length_leBytes]
      have nextData : (pointers ++ leBytes pointerSize (address + offset) ++ restPointers ++
          (data ++ (el ++ [0]))).length = offset + el.length + 1 := by
        simp only [List.length_append, length_leBytes, List.length_singleton] at start ⊢
        omega
      rw [nextPointer, nextData] at rest
      rw [dnsPack_cons start slotSize textSize, rest, pointerTable, texts_cons]
      simp only [List.append_assoc, List.cons_append, List.nil_append]

/-! ### The contract -/

/-- The object holds these addresses: their number, and one block with the pointers and the
texts they point to. -/
def Stored (pointerSize : Nat) (nc : Ffnetconf) (found : List (List Byte)) : Prop :=
  nc.dnsAddrsNum.toNat = found.length ∧
    ∃ address block, nc.dnsAddrs = some (address, block) ∧ Table pointerSize address block found

/-- The object holds exactly the configured addresses, and these have characters and no white
space. -/
def Exact (pointerSize : Nat) (content : List Byte) (nc : Ffnetconf) : Prop :=
  Stored pointerSize nc (servers content) ∧
    ∀ server ∈ servers content, server ≠ [] ∧ Clean (lf :: whites) server

theorem good_of_mem_servers {content server : List Byte} (member : server ∈ servers content) :
    server ≠ [] ∧ Clean (lf :: whites) server := by
  obtain ⟨line, inLines, found⟩ := List.mem_filterMap.mp member
  obtain ⟨p, inParts, rfl⟩ := List.mem_map.mp inLines
  have inWords := mem_words_of_serverOf found
  obtain ⟨clean, nonempty⟩ := clean_of_mem_words inWords
  have cleanLine := (parts_wellParted [lf] content).clean _ p inParts
  refine ⟨nonempty, fun c inServer white => ?_⟩
  rcases List.mem_cons.mp white with rfl | white
  · exact cleanLine lf (mem_of_mem_words inWords inServer) (List.mem_singleton_self lf)
  · exact clean c inServer white

theorem length_entries_le (content : List Byte) : (entries content).length ≤ content.length := by
  have fewer : (entries content).length ≤ (lines content).length := List.length_filterMap_le _ _
  have short := (parts_wellParted [lf] content).length_le
  rw [render_parts] at short
  rw [lines, List.length_map] at fewer
  omega

section Call

variable {str : Ffstr} {sys : System} {nc : Ffnetconf} {content : List Byte}

/-- A call that has all that it asks for stores what it finds. -/
theorem ffnetconfDns_success {address : Nat} {block : List Byte}
    (file : sys.fileAllocated = true ∧ sys.opened = true) (isContent : sys.read = some content)
    (nonempty : content ≠ []) (memory : ∀ n < (entries content).length, sys.pushed n = true)
    (allocated : sys.alloc ((texts (entries content)).length +
      (entries content).length * sys.pointerSize) = some (address, block)) :
    ffnetconfDns str sys nc = some (0, ⟨some (address,
      packed sys.pointerSize address (entries content)), .ofNat 32 (entries content).length⟩) := by
  obtain ⟨size, _⟩ := sys.alloc_size _ _ _ allocated
  have parted : block.take ((entries content).length * sys.pointerSize) ++
      block.drop ((entries content).length * sys.pointerSize) = block := List.take_append_drop _ _
  have tableSize : (block.take ((entries content).length * sys.pointerSize)).length =
      (entries content).length * sys.pointerSize := by
    rw [List.length_take]
    omega
  have filled := dnsPack_eq sys.pointerSize address (entries content) []
    (block.take ((entries content).length * sys.pointerSize)) []
    (block.drop ((entries content).length * sys.pointerSize)) tableSize
    (by rw [List.length_drop]; omega)
  simp only [List.nil_append, List.append_nil, List.length_nil, parted, tableSize] at filled
  rw [ffnetconfDns, if_pos file, isContent]
  cases content with
  | nil => exact absurd rfl nonempty
  | cons c content =>
      simp only [dnsLoop_eq, if_pos memory, allocated, filled, Option.map_some, packed]

/-- A call returns, and one that succeeds has stored what it finds. -/
theorem ffnetconfDns_packed (str : Ffstr) (nc : Ffnetconf) (isContent : sys.read = some content) :
    ∃ code after, ffnetconfDns str sys nc = some (code, after) ∧
      (code = 0 → ∃ address,
        after.dnsAddrs = some (address, packed sys.pointerSize address (entries content)) ∧
        after.dnsAddrsNum.toNat = (entries content).length ∧
        address + (packed sys.pointerSize address (entries content)).length <
          256 ^ sys.pointerSize) := by
  have failed : (-1 : Int) ≠ 0 := by decide
  by_cases file : sys.fileAllocated = true ∧ sys.opened = true
  · by_cases nonempty : content = []
    · refine ⟨-1, nc, ?_, fun success => absurd success failed⟩
      rw [ffnetconfDns, if_pos file, isContent, nonempty]
    · obtain ⟨c, more, rfl⟩ := List.exists_cons_of_ne_nil nonempty
      by_cases memory : ∀ n < (entries (c :: more)).length, sys.pushed n = true
      · cases allocated : sys.alloc ((texts (entries (c :: more))).length +
            (entries (c :: more)).length * sys.pointerSize) with
        | none =>
            refine ⟨-1, { nc with dnsAddrs := none }, ?_, fun success => absurd success failed⟩
            rw [ffnetconfDns, if_pos file, isContent]
            simp only [dnsLoop_eq, if_pos memory, allocated]
        | some result =>
            obtain ⟨address, block⟩ := result
            obtain ⟨_, inside⟩ := sys.alloc_size _ _ _ allocated
            have few := length_entries_le (c :: more)
            have small := sys.read_le _ isContent
            refine ⟨0, _, ffnetconfDns_success file isContent nonempty memory allocated,
              fun _ => ⟨address, rfl, ?_, ?_⟩⟩
            · rw [BitVec.toNat_ofNat, Nat.mod_eq_of_lt (by omega)]
            · rw [length_packed]
              omega
      · refine ⟨-1, nc, ?_, fun success => absurd success failed⟩
        rw [ffnetconfDns, if_pos file, isContent]
        simp only [dnsLoop_eq, if_neg memory]
  · refine ⟨-1, nc, ?_, fun success => absurd success failed⟩
    rw [ffnetconfDns, if_neg file]

/-- A block of what the code finds holds exactly the configured addresses if and only if every
line is plain. -/
theorem exact_packed_iff {pointerSize address : Nat} {after : Ffnetconf}
    (isBlock : after.dnsAddrs = some (address, packed pointerSize address (entries content)))
    (isCount : after.dnsAddrsNum.toNat = (entries content).length)
    (fits : address + (packed pointerSize address (entries content)).length < 256 ^ pointerSize) :
    Exact pointerSize content after ↔ ∀ line ∈ lines content, Plain line := by
  constructor
  · rintro ⟨⟨count, otherAddress, block, isOther, table⟩, _⟩
    obtain ⟨rfl, rfl⟩ := Prod.mk.inj (Option.some.inj (isBlock.symm.trans isOther))
    apply plain_of_readsAs
    exact readsAs_of_table fits (isCount.symm.trans count) table
  · intro plain
    rw [entries_eq_servers plain] at isBlock isCount fits
    refine ⟨⟨isCount, address, _, isBlock, table_packed fits⟩, ?_⟩
    exact fun server member => good_of_mem_servers member

end Call

/-- `_ffnetconf_dns` returns, and on success the object holds exactly the configured addresses
if and only if every line of the file is plain. -/
theorem ffnetconfDns_exact_iff (str : Ffstr) (sys : System) (nc : Ffnetconf)
    (content : List Byte) (isContent : sys.read = some content) :
    ∃ code after, ffnetconfDns str sys nc = some (code, after) ∧
      (code = 0 → (Exact sys.pointerSize content after ↔ ∀ line ∈ lines content, Plain line)) := by
  obtain ⟨code, after, called, stored⟩ := ffnetconfDns_packed str nc isContent
  refine ⟨code, after, called, fun success => ?_⟩
  obtain ⟨address, isBlock, isCount, fits⟩ := stored success
  exact exact_packed_iff isBlock isCount fits

/-- A file with one line, ended by CR LF: `"nameserver 1\r\n"`. -/
def crlfFile : List Byte := nameserver ++ [space, 0x31, cr, lf]

/-- A system with this file. -/
def crlfSystem : System where
  pointerSize := 8
  fileAllocated := true
  opened := true
  read := some crlfFile
  pushed _ := true
  alloc size := if size ≤ 4096 then some (4096, List.replicate size 0) else none
  read_le := by decide
  alloc_size size address block allocated := by
    split at allocated
    next small =>
      obtain ⟨rfl, rfl⟩ := Prod.mk.inj (Option.some.inj allocated)
      exact ⟨List.length_replicate, by omega⟩
    next => cases allocated

theorem ffnetconfDns_exact_iff_crlf : crlfSystem.read = some crlfFile ∧
    ∃ code after, ffnetconfDns Ffstr.scanning crlfSystem ⟨none, 0⟩ = some (code, after) ∧
      (code = 0 → (Exact 8 crlfFile after ↔ ∀ line ∈ lines crlfFile, Plain line)) :=
  ⟨rfl, ffnetconfDns_exact_iff Ffstr.scanning crlfSystem ⟨none, 0⟩ crlfFile rfl⟩

/-- The CR stays at the end of the address. -/
theorem ffnetconfDns_keeps_cr :
    ∃ after, ffnetconfDns Ffstr.scanning crlfSystem ⟨none, 0⟩ = some (0, after) ∧
      after.dnsAddrs.map Prod.snd = some (leBytes 8 4104 ++ [0x31, cr, 0]) ∧
      servers crlfFile = [[0x31]] ∧ ¬ Exact 8 crlfFile after := by
  have called := @ffnetconfDns_success Ffstr.scanning crlfSystem ⟨none, 0⟩ crlfFile 4096
    (List.replicate 11 0) ⟨rfl, rfl⟩ rfl (by decide) (by simp [crlfSystem]) (by decide)
  refine ⟨_, called, by decide, by decide, ?_⟩
  rw [exact_packed_iff rfl (by decide) (by decide)]
  intro plain
  have read := (entryOf_eq_serverOf_iff _).mpr (plain (nameserver ++ [space, 0x31, cr]) (by decide))
  exact absurd read (by decide)

end Ffos.Netconf
