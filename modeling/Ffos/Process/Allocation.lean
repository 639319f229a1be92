/-
Module: Ffos.Process.Allocation
Purpose: What the first pass of `_ffargv_to_cmdln` measures is enough for every store and for
  every conversion of the second pass.
Trusted boundary: none
Main exports: conversions, storeArgs_inside, ffargvToCmdln_inside
-/
import Ffos.Process.Split

namespace Ffos.Process

open Ffos.Lib

/-! ### The conversions of the second pass -/

/-- The calls of `ffsz_utow` that the second loop makes: the index of each in the buffer and
the argument it converts. -/
def conversions (ffszUtow : FfszUtow) (cap : Nat) :
    List (List Byte) → List Wchar → Nat → List (Nat × List Byte)
  | [], _, _ => []
  | arg :: rest, args, k =>
      if (0x22 : Byte) ∈ arg then []
      else
        (if (0x20 : Byte) ∈ arg then k + 1 else k, arg) ::
          match storeArg ffszUtow cap arg args k with
          | none => []
          | some (args, k) => conversions ffszUtow cap rest args k

/-- A conversion that has room: it begins inside of the capacity, and gives as many characters
as were measured. -/
def HasRoom (ffszUtow : FfszUtow) (cap : Nat) (conversion : Nat × List Byte) : Prop :=
  conversion.1 ≤ cap ∧
    (ffszUtow none conversion.2).1 ≤ ((cap - conversion.1 : Nat) : Int) ∧
    0 < (ffszUtow (some (cap - conversion.1)) conversion.2).1 ∧
    (ffszUtow (some (cap - conversion.1)) conversion.2).1 = (ffszUtow none conversion.2).1

section Passes

variable {ffszUtow : FfszUtow}

theorem hasRoom_of_le {text : List Char} (converts : Converts ffszUtow text) {cap k : Nat}
    (enough : k + (utf16 text).length + 1 ≤ cap) : HasRoom ffszUtow cap (k, utf8 text) := by
  have fits := converts.fits (cap - k) (by omega)
  have measured := converts.measures
  refine ⟨by omega, ?_, ?_, ?_⟩
  · rw [measured]
    omega
  · rw [fits]
    exact Int.lt_add_one_iff.mpr (Int.natCast_nonneg _)
  · rw [fits, measured]

/-- The second loop stays inside of the buffer, also where it stops at a double quote, and
each of its conversions has room. The room that an argument was measured with covers its
quotes, its text and the space behind it. -/
theorem storeArgs_inside {argv : List Arg} (converts : ∀ arg ∈ argv, Converts ffszUtow arg.text)
    {cap k : Nat} {args content : List Wchar} (filled : Filled args k content)
    (size : args.length = cap + 1) (enough : k + room argv ≤ cap) :
    (storeArgs ffszUtow cap (bytesOf argv) args k = some none ∨
      ∃ after last, storeArgs ffszUtow cap (bytesOf argv) args k = some (some (after, last)) ∧
        last ≤ cap ∧ after.length = cap + 1) ∧
      ∀ conversion ∈ conversions ffszUtow cap (bytesOf argv) args k,
        HasRoom ffszUtow cap conversion := by
  induction argv generalizing args k content with
  | nil =>
      refine ⟨Or.inr ⟨args, k, rfl, by omega, size⟩, ?_⟩
      intro conversion member
      exact absurd member List.not_mem_nil
  | cons arg rest inductionHypothesis =>
      rw [bytesOf, List.map_cons, storeArgs, conversions, ← bytesOf]
      by_cases quoted : (0x22 : Byte) ∈ utf8 arg.text
      · rw [if_pos quoted, if_pos quoted]
        refine ⟨Or.inl rfl, ?_⟩
        intro conversion member
        exact absurd member List.not_mem_nil
      · have bound := (length_rendered arg).2
        have convertsArg := converts arg List.mem_cons_self
        simp only [room, List.map_cons, List.sum_cons] at enough
        obtain ⟨next, step, nextFilled, nextSize⟩ :=
          storeArg_eq convertsArg filled size (by omega)
        obtain ⟨stored, roomLater⟩ := inductionHypothesis
          (fun other member => converts other (List.mem_cons_of_mem _ member)) nextFilled nextSize
          (by
            simp only [room, List.length_append, List.length_singleton]
            omega)
        simp only [if_neg quoted, step]
        refine ⟨stored, ?_⟩
        intro conversion member
        rcases List.mem_cons.mp member with rfl | later
        · split
          · exact hasRoom_of_le convertsArg (by omega)
          · exact hasRoom_of_le convertsArg (by omega)
        · exact roomLater conversion later

/-- `_ffargv_to_cmdln` never stores outside of its allocation, whatever the arguments are, and
every conversion is given enough room to succeed. -/
theorem ffargvToCmdln_inside {alloc : Nat → Option (List Wchar)}
    (sized : ∀ n buffer, alloc n = some buffer → buffer.length = n) {argv : List Arg}
    (converts : ∀ arg ∈ argv, Converts ffszUtow arg.text) :
    ∃ cap, measureArgs ffszUtow (bytesOf argv) 1 = some cap ∧
      ffargvToCmdln ffszUtow alloc (bytesOf argv) ≠ none ∧
      ∀ buffer, alloc (cap + 1) = some buffer →
        ∀ conversion ∈ conversions ffszUtow cap (bytesOf argv) buffer 0,
          HasRoom ffszUtow cap conversion := by
  have measured := measureArgs_eq converts 1
  refine ⟨1 + room argv, measured, ?_, ?_⟩
  · unfold ffargvToCmdln
    rw [measured]
    cases allocated : alloc (1 + room argv + 1) with
    | none => simp only [allocated, ne_eq, reduceCtorEq, not_false_eq_true]
    | some buffer =>
        have inside := (storeArgs_inside converts (Filled.empty buffer) (sized _ _ allocated)
          (show 0 + room argv ≤ 1 + room argv by omega)).1
        rcases inside with null | ⟨after, last, stored, lastLe, afterSize⟩
        · simp only [allocated, null, ne_eq, reduceCtorEq, not_false_eq_true]
        · have lastStore : (if last ≠ 0 then last - 1 else last) < after.length := by
            rw [afterSize]
            split <;> omega
          simp only [allocated, stored, store, if_pos lastStore, Option.map_some, ne_eq,
            reduceCtorEq, not_false_eq_true]
  · intro buffer allocated
    exact (storeArgs_inside converts (Filled.empty buffer) (sized _ _ allocated)
      (show 0 + room argv ≤ 1 + room argv by omega)).2

end Passes

/-- "p" and "a b": the capacity is 13, and the texts are stored at 0 and, in quotes, at 3. -/
theorem ffargvToCmdln_inside_two :
    ffargvToCmdln asciiUtow zeros (bytesOf twoArgs) ≠ none ∧
      conversions asciiUtow 13 (bytesOf twoArgs) (List.replicate 14 0) 0 =
        [(0, [0x70]), (3, [0x61, 0x20, 0x62])] := by
  have converts : ∀ arg ∈ twoArgs, Converts asciiUtow arg.text :=
    List.forall_mem_cons.mpr ⟨asciiUtow_converts (by decide),
      List.forall_mem_singleton.mpr (asciiUtow_converts (by decide))⟩
  obtain ⟨cap, _, inside, _⟩ := ffargvToCmdln_inside length_zeros converts
  exact ⟨inside, by decide⟩

end Ffos.Process
