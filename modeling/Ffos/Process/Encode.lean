/-
Module: Ffos.Process.Encode
Purpose: The string that `_ffargv_to_cmdln` builds: the arguments with one space
  between them, and quotes around those that have a space.
Trusted boundary: none
Main exports: Arg.rendered, cmdline, cStringOf_ffargvToCmdln
-/
import Ffos.Process.CommandLine
import Mathlib.Algebra.GroupWithZero.Nat

namespace Ffos.Process

open Ffos.Lib

/-! ### What is built -/

/-- An argument as it stands in the command line. -/
def Arg.rendered (arg : Arg) : List Wchar :=
  if ' ' ∈ arg.text then quote :: (utf16 arg.text ++ [quote]) else utf16 arg.text

/-- The arguments, each behind a space. -/
def spaced (argv : List Arg) : List Wchar := argv.flatMap fun arg => space :: arg.rendered

/-- The command line. -/
def cmdline : List Arg → List Wchar
  | [] => []
  | arg :: rest => arg.rendered ++ spaced rest

/-- The bytes of the arguments in memory. -/
def bytesOf (argv : List Arg) : List (List Byte) := argv.map fun arg => utf8 arg.text

/-- The command line with the space that is trimmed in the end. -/
theorem cmdline_append_space {argv : List Arg} (nonempty : argv ≠ []) :
    argv.flatMap (fun arg => arg.rendered ++ [space]) = cmdline argv ++ [space] := by
  have moved : ∀ rest : List Arg,
      space :: rest.flatMap (fun arg => arg.rendered ++ [space]) = spaced rest ++ [space] := by
    intro rest
    induction rest with
    | nil => rfl
    | cons arg rest inductionHypothesis =>
      rw [List.flatMap_cons, List.append_assoc, List.singleton_append, inductionHypothesis]
      simp only [spaced, List.flatMap_cons, List.cons_append, List.append_assoc]
  cases argv with
  | nil => exact absurd rfl nonempty
  | cons arg rest =>
    rw [List.flatMap_cons, List.append_assoc, List.singleton_append, moved rest, cmdline,
      List.append_assoc]

theorem length_rendered (arg : Arg) :
    (utf16 arg.text).length ≤ arg.rendered.length ∧
      arg.rendered.length ≤ (utf16 arg.text).length + 2 := by
  unfold Arg.rendered
  split
  · simp only [List.length_cons, List.length_append, List.length_nil]
    omega
  · omega

/-! ### The two loops -/

section Loops

variable {ffszUtow : FfszUtow}

/-- The room that is asked for. -/
def room (argv : List Arg) : Nat := (argv.map fun arg => (utf16 arg.text).length + 4).sum

theorem measureArgs_eq {argv : List Arg} (converts : ∀ arg ∈ argv, Converts ffszUtow arg.text)
    (cap : Nat) : measureArgs ffszUtow (bytesOf argv) cap = some (cap + room argv) := by
  induction argv generalizing cap with
  | nil => rfl
  | cons arg rest inductionHypothesis =>
    have measured := (converts arg List.mem_cons_self).measures
    have positive : ¬ (ffszUtow none (utf8 arg.text)).1 ≤ 0 := by omega
    have later := inductionHypothesis fun other member =>
      converts other (List.mem_cons_of_mem _ member)
    rw [bytesOf, List.map_cons, measureArgs, if_neg positive, ← bytesOf, later, measured]
    simp only [room, List.map_cons, List.sum_cons]
    congr 1
    omega

/-- The conversion copies the text, and the NUL behind it is outside of what counts. -/
theorem convert_eq {text : List Char} (converts : Converts ffszUtow text) {cap k : Nat}
    {args content : List Wchar} (filled : Filled args k content) (size : args.length = cap + 1)
    (enough : k + (utf16 text).length + 1 ≤ cap) :
    ffszUtow (some (cap - k)) (utf8 text) =
        (((utf16 text).length : Int) + 1, utf16 text ++ [0]) ∧
      (k : Int) + (((utf16 text).length : Int) + 1) - 1 = (k + (utf16 text).length : Nat) ∧
      ∃ copied, storeAll args k (utf16 text ++ [0]) = some copied ∧
        Filled copied (k + (utf16 text).length) (content ++ utf16 text) ∧
        copied.length = cap + 1 := by
  refine ⟨converts.fits (cap - k) (by omega), by omega, ?_⟩
  obtain ⟨copied, stored, copyFilled, copySize⟩ := filled.storeAll (utf16 text) [0]
    (by rw [List.length_append, List.length_singleton]; omega)
  exact ⟨copied, stored, copyFilled, copySize.trans size⟩

/-- One round of the second loop adds the rendered argument and a space. -/
theorem storeArg_eq {arg : Arg} (converts : Converts ffszUtow arg.text) {cap k : Nat}
    {args content : List Wchar} (filled : Filled args k content) (size : args.length = cap + 1)
    (enough : k + (utf16 arg.text).length + 4 ≤ cap) :
    ∃ after, storeArg ffszUtow cap (utf8 arg.text) args k =
        some (after, k + (arg.rendered ++ [space]).length) ∧
      Filled after (k + (arg.rendered ++ [space]).length) (content ++ (arg.rendered ++ [space])) ∧
      after.length = cap + 1 := by
  have spaceByte : (0x20 : Byte) ∈ utf8 arg.text ↔ ' ' ∈ arg.text :=
    @mem_utf8_iff ' ' (by decide) arg.text
  have nonneg : ∀ n : Nat, ¬ (n : Int) < 0 := fun n => Int.not_lt.mpr (Int.natCast_nonneg n)
  by_cases hasSpace : ' ' ∈ arg.text
  · have rendered : arg.rendered = quote :: (utf16 arg.text ++ [quote]) := if_pos hasSpace
    obtain ⟨opened, openStore, openFilled, openSize⟩ := filled.store quote (by omega)
    obtain ⟨converted, index, copied, copyStore, copyFilled, copySize⟩ :=
      convert_eq converts openFilled (openSize.trans size) (by omega)
    obtain ⟨closed, closeStore, closeFilled, closeSize⟩ := copyFilled.store quote (by omega)
    obtain ⟨after, lastStore, lastFilled, lastSize⟩ := closeFilled.store space (by omega)
    have total : k + (arg.rendered ++ [space]).length =
        k + 1 + (utf16 arg.text).length + 1 + 1 := by
      simp only [rendered, List.length_append, List.length_cons, List.length_nil]
      omega
    have whole : content ++ (arg.rendered ++ [space]) =
        content ++ [quote] ++ utf16 arg.text ++ [quote] ++ [space] := by
      simp only [rendered, List.append_assoc, List.cons_append, List.nil_append]
    refine ⟨after, ?_, ?_, by omega⟩
    · simp only [storeArg, spaceByte, hasSpace, decide_true, if_true, openStore, Option.map_some,
        Option.bind_eq_bind, Option.bind_some, converted, copyStore, index, if_neg (nonneg _),
        Int.toNat_natCast, closeStore, lastStore, total]
      rfl
    · rw [total, whole]
      exact lastFilled
  · have rendered : arg.rendered = utf16 arg.text := if_neg hasSpace
    obtain ⟨converted, index, copied, copyStore, copyFilled, copySize⟩ :=
      convert_eq converts filled size (by omega)
    obtain ⟨after, lastStore, lastFilled, lastSize⟩ := copyFilled.store space (by omega)
    have total : k + (arg.rendered ++ [space]).length = k + (utf16 arg.text).length + 1 := by
      simp only [rendered, List.length_append, List.length_cons, List.length_nil]
      omega
    have whole : content ++ (arg.rendered ++ [space]) = content ++ utf16 arg.text ++ [space] := by
      rw [rendered, List.append_assoc]
    refine ⟨after, ?_, ?_, by omega⟩
    · simp only [storeArg, spaceByte, hasSpace, decide_false, if_false, Bool.false_eq_true,
        Option.bind_eq_bind, Option.bind_some, converted, copyStore, index, if_neg (nonneg _),
        Int.toNat_natCast, lastStore, total]
      rfl
    · rw [total, whole]
      exact lastFilled

/-- The second loop fills the buffer with all arguments. -/
theorem storeArgs_eq {argv : List Arg} (converts : ∀ arg ∈ argv, Converts ffszUtow arg.text)
    (noQuotes : ∀ arg ∈ argv, '"' ∉ arg.text) {cap k : Nat} {args content : List Wchar}
    (filled : Filled args k content) (size : args.length = cap + 1)
    (enough : k + room argv ≤ cap) :
    ∃ after last, storeArgs ffszUtow cap (bytesOf argv) args k = some (some (after, last)) ∧
      Filled after last (content ++ argv.flatMap fun arg => arg.rendered ++ [space]) ∧
      after.length = cap + 1 := by
  induction argv generalizing args k content with
  | nil =>
    refine ⟨args, k, rfl, ?_, size⟩
    rw [List.flatMap_nil, List.append_nil]
    exact filled
  | cons arg rest inductionHypothesis =>
    have quoteByte : ¬ (0x22 : Byte) ∈ utf8 arg.text := fun member =>
      noQuotes arg List.mem_cons_self ((@mem_utf8_iff '"' (by decide) arg.text).mp member)
    have bound := (length_rendered arg).2
    simp only [room, List.map_cons, List.sum_cons] at enough
    obtain ⟨next, step, nextFilled, nextSize⟩ :=
      storeArg_eq (converts arg List.mem_cons_self) filled size (by omega)
    obtain ⟨after, last, later, lastFilled, lastSize⟩ := inductionHypothesis
      (fun other member => converts other (List.mem_cons_of_mem _ member))
      (fun other member => noQuotes other (List.mem_cons_of_mem _ member)) nextFilled nextSize
      (by
        simp only [room, List.length_append, List.length_singleton]
        omega)
    refine ⟨after, last, ?_, ?_, lastSize⟩
    · rw [bytesOf, List.map_cons, storeArgs, if_neg quoteByte, step]
      exact later
    · rw [List.flatMap_cons, ← List.append_assoc]
      exact lastFilled

end Loops

/-! ### The string returned -/

theorem zero_not_mem_rendered (arg : Arg) : (0 : Wchar) ∉ arg.rendered := by
  have inText : (0 : Wchar) ∉ utf16 arg.text := fun member =>
    arg.noNul ((@mem_utf16_iff '\x00' (by decide) arg.text).mp member)
  have notQuote : (0 : Wchar) ≠ quote := by decide
  unfold Arg.rendered
  split
  · intro member
    rcases List.mem_cons.mp member with first | later
    · exact notQuote first
    · rcases List.mem_append.mp later with inside | last
      · exact inText inside
      · exact notQuote (List.mem_singleton.mp last)
  · exact inText

theorem zero_not_mem_cmdline (argv : List Arg) : (0 : Wchar) ∉ cmdline argv := by
  cases argv with
  | nil => exact List.not_mem_nil
  | cons arg rest =>
    rw [cmdline, List.mem_append, not_or, spaced, List.mem_flatMap]
    refine ⟨zero_not_mem_rendered arg, ?_⟩
    rintro ⟨other, _, member⟩
    rcases List.mem_cons.mp member with zero | inOther
    · exact absurd zero (by decide)
    · exact zero_not_mem_rendered other inOther

/-- A buffer that is returned holds the command line. -/
theorem cStringOf_ffargvToCmdln {ffszUtow : FfszUtow} {alloc : Nat → Option (List Wchar)}
    (sized : ∀ n buffer, alloc n = some buffer → buffer.length = n) {argv : List Arg}
    (nonempty : argv ≠ []) (converts : ∀ arg ∈ argv, Converts ffszUtow arg.text)
    (noQuotes : ∀ arg ∈ argv, '"' ∉ arg.text) {returned : List Wchar}
    (call : ffargvToCmdln ffszUtow alloc (bytesOf argv) = some (some returned)) :
    cStringOf returned = cmdline argv := by
  unfold ffargvToCmdln at call
  rw [measureArgs_eq converts] at call
  cases allocated : alloc (1 + room argv + 1) with
  | none => simp [allocated] at call
  | some buffer =>
    have size := sized _ _ allocated
    obtain ⟨after, last, stored, filled, afterSize⟩ :=
      storeArgs_eq converts noQuotes (Filled.empty buffer) size (by omega)
    rw [List.nil_append, cmdline_append_space nonempty] at filled
    have lastEq := filled.length
    rw [List.length_append, List.length_singleton] at lastEq
    have notZero : last ≠ 0 := by omega
    have back : last - 1 = (cmdline argv).length := by omega
    have trimmed := filled.truncate (show last - 1 ≤ last by omega)
    rw [back, List.take_left] at trimmed
    obtain ⟨final, finalStore, finalFilled, _⟩ := trimmed.store 0 (by
      have bound := filled.leads.length_le
      rw [List.length_append, List.length_singleton] at bound
      omega)
    simp only [allocated, stored, if_pos notZero, back, finalStore, Option.map_some,
      Option.some.injEq] at call
    subst call
    obtain ⟨rest, split⟩ := finalFilled.leads
    rw [cStringOf, ← split, List.append_assoc, List.singleton_append]
    exact takeWhile_terminated (zero_not_mem_cmdline argv) rest

end Ffos.Process
