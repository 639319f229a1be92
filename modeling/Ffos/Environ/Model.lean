/-
Module: Ffos.Environ.Model
Purpose: `ffenv_expand` of FFOS/environ.h on UNIX with the scanner of `$`-variables and the
  search of the environment.
Trusted boundary: the strings of ffbase, taken as the parameter `Ffstr`; the source and the
  environment do not lie in the output
Main exports: Ffstr, CString, ffsvarNext, ffenvValLoop, ffenvVal, Out, appendText,
  ffenvExpandLoop, ffenvExpand
-/
import Ffos.Lib.ByteMemory
import Ffos.Lib.OutputBuffer

namespace Ffos.Environ

open Ffos.Lib

def dollar : Byte := 0x24
def equals : Byte := 0x3d

/-! ### ffbase -/

/-- What environ.h uses of the strings of ffbase. `ffstr_findchar` gives the position of the
first such character, or a negative one. `ffsz_match` tests whether a NUL-terminated string
begins with a text. `ffstr_add2` and `ffstr_addchar` append to the `k` bytes in a memory as
much as fits in it. `ffstr_growtwice` gives a memory with the same content and room for
`by'` more bytes, and `ffstr_growaddchar` one with one more character; they fail if there is
no memory. -/
structure Ffstr where
  findchar : List Byte → Byte → Option Nat
  szMatch : List Byte → List Byte → Bool
  add2 : List Byte → Nat → List Byte → List Byte × Nat
  addchar : List Byte → Nat → Byte → List Byte × Nat
  growtwice : List Byte → Nat → Nat → Option (List Byte)
  growaddchar : List Byte → Nat → Byte → Option (List Byte × Nat)
  findchar_found : ∀ before c after, c ∉ before →
    findchar (before ++ c :: after) c = some before.length
  findchar_none : ∀ s c, c ∉ s → findchar s c = none
  szMatch_iff : ∀ z key, 0 ∉ z → 0 ∉ key → (szMatch (z ++ [0]) key = true ↔ key <+: z)
  add2_filled : ∀ dst k content s, Filled dst k content →
    (add2 dst k s).1.length = dst.length ∧
      Filled (add2 dst k s).1 (add2 dst k s).2 (content ++ s.take (dst.length - k))
  addchar_filled : ∀ dst k content c, Filled dst k content →
    (addchar dst k c).1.length = dst.length ∧
      Filled (addchar dst k c).1 (addchar dst k c).2 (content ++ [c].take (dst.length - k))
  growtwice_filled : ∀ dst k content by' grown, Filled dst k content →
    growtwice dst k by' = some grown → Filled grown k content ∧ k + by' ≤ grown.length
  growaddchar_filled : ∀ dst k content c grown, Filled dst k content →
    growaddchar dst k c = some grown → Filled grown.1 grown.2 (content ++ [c])

/-- Memory is never short. -/
def Ffstr.Allocates (str : Ffstr) : Prop :=
  (∀ dst k by', str.growtwice dst k by' ≠ none) ∧ ∀ dst k c, str.growaddchar dst k c ≠ none

/-! ### Variables -/

/-- The test of a character in `_ffsvar_next`; `char` is signed or not. -/
def isNameChar (signedChar : Bool) (c : Byte) : Bool :=
  let ch : BitVec 32 := if signedChar then c.signExtend 32 else c.setWidth 32
  (0x61 ≤ (ch ||| 0x20).toInt && (ch ||| 0x20).toInt ≤ 0x7a) ||
    (0x30 ≤ ch.toInt && ch.toInt ≤ 0x39) || ch.toInt = 0x5f

/-- The loop over the characters from `s->ptr[i]` on. -/
def nameEnd (signedChar : Bool) : List Byte → Nat → Nat
  | [], i => i
  | c :: rest, i => if isNameChar signedChar c then nameEnd signedChar rest (i + 1) else i

/-- `_ffsvar_next`: the next chunk and what is left. None is a read of an empty text. -/
def ffsvarNext (str : Ffstr) (signedChar : Bool) (s : List Byte) :
    Option (List Byte × List Byte) :=
  match s with
  | [] => none
  | first :: rest =>
      let len :=
        if first ≠ dollar then (str.findchar s dollar).getD s.length
        else nameEnd signedChar rest 1
      some (s.take len, s.drop len)

/-! ### The environment -/

/-- A C string. -/
structure CString where
  bytes : List Byte
  noNul : 0 ∉ bytes

/-- The string with its terminator. -/
def CString.z (s : CString) : List Byte := s.bytes ++ [0]

/-- The bytes up to the terminator. -/
def setz (memory : List Byte) : List Byte := memory.takeWhile (· ≠ 0)

/-- The loop of `_ffenv_val`, whose index has 32 bits: the memory behind the pointer that it
returns, or NULL at the end of the array. None is a loop that is still running. -/
def ffenvValLoop (str : Ffstr) (environ : List CString) (key : List Byte) :
    Nat → BitVec 32 → Option (Option (List Byte))
  | 0, _ => none
  | fuel + 1, i =>
      match environ[i.toNat]? with
      | none => some none
      | some e =>
          if str.szMatch e.z key ∧ e.z[key.length]? = some equals then
            some (some (e.z.drop (key.length + 1)))
          else ffenvValLoop str environ key fuel (i + 1)

/-- `_ffenv_val`. -/
def ffenvVal (str : Ffstr) (environ : List CString) (key : List Byte) (fuel : Nat) :
    Option (Option (List Byte)) :=
  ffenvValLoop str environ key fuel 0

/-! ### Expansion -/

/-- `out` and the memory behind it, whose size is `dst_cap`. -/
structure Out where
  dst : List Byte
  k : Nat

/-- The end of the loop body. None is the return of NULL. -/
def appendText (str : Ffstr) (allocate : Bool) (out : Out) (s : List Byte) : Option Out :=
  if allocate then
    (str.growtwice out.dst out.k s.length).map fun grown =>
      ⟨(str.add2 grown out.k s).1, (str.add2 grown out.k s).2⟩
  else some ⟨(str.add2 out.dst out.k s).1, (str.add2 out.dst out.k s).2⟩

/-- What goes to the output for a chunk: nothing at all for a `$` alone. -/
def chunkText (str : Ffstr) (environ : List CString) (fuel : Nat) (s : List Byte) :
    Option (Option (List Byte)) :=
  match s with
  | [] => none
  | first :: name =>
      if first = dollar then
        if name = [] then some none
        else (ffenvVal str environ name fuel).map fun val => some ((val.map setz).getD [])
      else some (some s)

/-- The loop over the source. `some none` is the return of NULL; None is a loop that is still
running or a read out of range. -/
def ffenvExpandLoop (str : Ffstr) (signedChar : Bool) (environ : List CString) (allocate : Bool) :
    Nat → List Byte → Out → Option (Option Out)
  | 0, _, _ => none
  | fuel + 1, input, out =>
      if input = [] then some (some out)
      else do
        let (s, rest) ← ffsvarNext str signedChar input
        match ← chunkText str environ fuel s with
        | none => ffenvExpandLoop str signedChar environ allocate fuel rest out
        | some s =>
            match appendText str allocate out s with
            | none => some none
            | some out => ffenvExpandLoop str signedChar environ allocate fuel rest out

/-- The terminator. None is the return of NULL. -/
def appendNul (str : Ffstr) (allocate : Bool) (out : Out) : Option Out :=
  if allocate then (str.growaddchar out.dst out.k 0).map fun grown => ⟨grown.1, grown.2⟩
  else some ⟨(str.addchar out.dst out.k 0).1, (str.addchar out.dst out.k 0).2⟩

/-- `ffenv_expand` into a caller's memory or, without one, into a new one. -/
def ffenvExpand (str : Ffstr) (signedChar : Bool) (environ : List CString)
    (dst : Option (List Byte)) (src : CString) (fuel : Nat) : Option (Option Out) :=
  (ffenvExpandLoop str signedChar environ dst.isNone fuel src.bytes ⟨dst.getD [], 0⟩).map
    fun result => result.bind (appendNul str dst.isNone)

/-! ### An instance of the parameter -/

/-- As much of a text as fits behind the content. -/
def addFitting (dst : List Byte) (k : Nat) (s : List Byte) : List Byte × Nat :=
  (dst.take k ++ s.take (dst.length - k) ++ dst.drop (k + (s.take (dst.length - k)).length),
    k + (s.take (dst.length - k)).length)

theorem addFitting_filled (dst : List Byte) (k : Nat) (content s : List Byte)
    (filled : Filled dst k content) :
    (addFitting dst k s).1.length = dst.length ∧
      Filled (addFitting dst k s).1 (addFitting dst k s).2
        (content ++ s.take (dst.length - k)) := by
  have inside := filled.length_le
  refine ⟨?_, ?_, ?_⟩
  · simp only [addFitting, List.length_append, List.length_take, List.length_drop]
    omega
  · rw [addFitting, List.length_append, filled.length]
  · rw [addFitting, filled.take]
    exact List.prefix_append _ _

/-- A memory with more room. -/
def grow (dst : List Byte) (k by' : Nat) : List Byte :=
  dst ++ List.replicate (k + by' - dst.length) 0

theorem grow_filled (dst : List Byte) (k : Nat) (content : List Byte) (by' : Nat)
    (filled : Filled dst k content) :
    Filled (grow dst k by') k content ∧ k + by' ≤ (grow dst k by').length := by
  refine ⟨⟨filled.length, filled.leads.trans (List.prefix_append _ _)⟩, ?_⟩
  rw [grow, List.length_append, List.length_replicate]
  omega

/-- The assumptions on the strings of ffbase are met by copying. -/
def Ffstr.copying : Ffstr where
  findchar s c := s.findIdx? (· = c)
  szMatch z key := key.isPrefixOf z
  add2 := addFitting
  addchar dst k c := addFitting dst k [c]
  growtwice dst k by' := some (grow dst k by')
  growaddchar dst k c := some (addFitting (grow dst k 1) k [c])
  findchar_found before c after other := by
    have nowhere : before.findIdx? (· = c) = none :=
      List.findIdx?_eq_none_iff.mpr fun d member =>
        decide_eq_false fun same => other (same ▸ member)
    rw [List.findIdx?_append, nowhere]
    simp [List.findIdx?_cons]
  findchar_none s c other :=
    List.findIdx?_eq_none_iff.mpr fun d member => decide_eq_false fun same => other (same ▸ member)
  szMatch_iff z key _ noNul := by
    rw [List.isPrefixOf_iff_prefix]
    refine ⟨fun leads => ?_, fun leads => leads.trans (List.prefix_append z [0])⟩
    rcases List.prefix_concat_iff.mp leads with whole | inside
    · exact absurd (whole ▸ List.mem_append_right z (List.mem_singleton_self 0)) noNul
    · exact inside
  add2_filled := addFitting_filled
  addchar_filled dst k content c := addFitting_filled dst k content [c]
  growtwice_filled dst k content by' grown filled isGrown := by
    obtain rfl := Option.some.inj isGrown
    exact grow_filled dst k content by' filled
  growaddchar_filled dst k content c grown filled isGrown := by
    obtain rfl := Option.some.inj isGrown
    obtain ⟨more, room⟩ := grow_filled dst k content 1 filled
    have added := (addFitting_filled _ k content [c] more).2
    rwa [List.take_of_length_le (by rw [List.length_singleton]; omega)] at added

theorem Ffstr.copying_allocates : Ffstr.copying.Allocates :=
  ⟨fun _ _ _ => Option.some_ne_none _, fun _ _ _ => Option.some_ne_none _⟩

end Ffos.Environ
