/-
Module: Ffos.Dir.MakeAll
Purpose: The loop of `ffdir_make_all` makes the leading parts of its path one after the
  other, a ladder down the tree, and leaves the string as it was.
Trusted boundary: none
Main exports: leadingParts, Naming.attempts, Naming.attempts_ladder,
  makeAllLoop_restores, makeAllFrom_eq, makeAllFrom_outside
-/
import Ffos.Dir.Model

namespace Ffos.Dir

open Ffos.Lib

variable {w : Nat}

/-! ### The leading parts of a path -/

theorem components_cut {isSep : BitVec w → Bool} {sep : BitVec w} (cuts : isSep sep = true)
    (before after : List (BitVec w)) :
    components isSep (before ++ sep :: after) =
      components isSep before ++ components isSep after := by
  unfold components
  rw [List.splitOnP_append_cons before after cuts, List.filter_append]

theorem components_word {isSep : BitVec w → Bool} {word : List (BitVec w)}
    (whole : ∀ c ∈ word, isSep c = false) :
    components isSep word = [] ∨ components isSep word = [word] := by
  unfold components
  rw [List.splitOnP_eq_singleton whole]
  by_cases empty : word = []
  · exact .inl (by simp [empty])
  · exact .inr (by simp [empty])

/-- What the loop cuts off and makes, with `done` behind it and `rest` before it. -/
def leadingParts (isSep : BitVec w → Bool) :
    List (BitVec w) → List (BitVec w) → List (List (BitVec w))
  | done, [] => [done]
  | done, c :: rest =>
      if isSep c then done :: leadingParts isSep (done ++ [c]) rest
      else leadingParts isSep (done ++ [c]) rest

/-- From one leading part to the next, at most one name is added. -/
theorem Naming.resolve_next (naming : Naming w) {part word : List (BitVec w)} {sep : BitVec w}
    (notEmpty : part ≠ []) (cuts : naming.isSep sep = true)
    (whole : ∀ c ∈ word, naming.isSep c = false) :
    naming.resolve (part ++ sep :: word) = naming.resolve part ∨
      ∃ name, naming.resolve (part ++ sep :: word) = naming.resolve part ++ [name] := by
  unfold Naming.resolve
  rw [naming.start_cut part sep word notEmpty cuts, components_cut cuts]
  rcases components_word whole with none | one
  · exact .inl (by rw [none, List.append_nil])
  · exact .inr ⟨word, by rw [one, List.append_assoc]⟩

/-- The parts after one that was cut off at a separator, with the word since then. -/
theorem Naming.ladder_after (naming : Naming w) (rest : List (BitVec w)) :
    ∀ (part : List (BitVec w)) (sep : BitVec w) (word : List (BitVec w)), part ≠ [] →
      naming.isSep sep = true → (∀ c ∈ word, naming.isSep c = false) →
      Ladder (naming.resolve part ::
          (leadingParts naming.isSep (part ++ sep :: word) rest).map naming.resolve)
        (naming.resolve (part ++ sep :: word ++ rest)) := by
  induction rest with
  | nil =>
      intro part sep word notEmpty cuts whole
      rw [leadingParts, List.append_nil]
      exact .next (naming.resolve_next notEmpty cuts whole) (.last _)
  | cons c rest inductionHypothesis =>
      intro part sep word notEmpty cuts whole
      rw [leadingParts]
      by_cases isSep : naming.isSep c = true
      · rw [if_pos isSep]
        have below := inductionHypothesis (part ++ sep :: word) c [] (by simp) isSep (by simp)
        rw [List.append_assoc (part ++ sep :: word) [c] rest] at below
        exact .next (naming.resolve_next notEmpty cuts whole) below
      · rw [if_neg isSep]
        have longer : ∀ d ∈ word ++ [c], naming.isSep d = false := by
          intro d member
          rcases List.mem_append.mp member with member | member
          · exact whole d member
          · rw [List.mem_singleton.mp member]
            exact Bool.not_eq_true _ ▸ isSep
        have below := inductionHypothesis part sep (word ++ [c]) notEmpty cuts longer
        simpa [List.append_assoc] using below

/-- The leading parts are a ladder down to the path. -/
theorem Naming.ladder (naming : Naming w) (done rest : List (BitVec w))
    (begun : done = [] → ∀ c ∈ rest.head?, naming.isSep c = false) :
    Ladder ((leadingParts naming.isSep done rest).map naming.resolve)
      (naming.resolve (done ++ rest)) := by
  induction rest generalizing done with
  | nil =>
      rw [leadingParts, List.append_nil]
      exact .last _
  | cons c rest inductionHypothesis =>
      rw [leadingParts]
      by_cases isSep : naming.isSep c = true
      · rw [if_pos isSep]
        have notEmpty : done ≠ [] := by
          intro empty
          rw [begun empty c rfl] at isSep
          cases isSep
        have below := naming.ladder_after rest done c [] notEmpty isSep (by simp)
        simpa [List.append_assoc] using below
      · rw [if_neg isSep]
        have below := inductionHypothesis (done ++ [c]) (by simp)
        simpa [List.append_assoc] using below

/-! ### The loop -/

theorem set_back {path : List (BitVec w)} {off : Nat} {c : BitVec w} (here : path[off]? = some c) :
    (path.set off 0).set off c = path := by
  obtain ⟨inside, rfl⟩ := List.getElem?_eq_some_iff.mp here
  rw [List.set_set, List.set_getElem_self]

/-- One round of the loop, with the string together again at its end. -/
theorem makeAllLoop_round (naming : Naming w) (fuel : Nat) (tree : FileTree (List (BitVec w)))
    {path : List (BitVec w)} {off : Nat} {c : BitVec w} (here : path[off]? = some c) :
    makeAllLoop naming (fuel + 1) tree path off =
      if naming.isSep c ∨ c = 0 then
        if (tree.makeDir (naming.resolve (cString (path.set off 0)).chars)).1 = .failed ∨ c = 0 then
          some ((tree.makeDir (naming.resolve (cString (path.set off 0)).chars)).1,
            (tree.makeDir (naming.resolve (cString (path.set off 0)).chars)).2, path)
        else
          makeAllLoop naming fuel
            (tree.makeDir (naming.resolve (cString (path.set off 0)).chars)).2 path (off + 1)
      else makeAllLoop naming fuel tree path (off + 1) := by
  rw [makeAllLoop, here]
  simp only [set_back here]
  by_cases ends : naming.isSep c ∨ c = 0
  · rw [if_pos ends, if_pos ends]
    by_cases failed : (tree.makeDir (naming.resolve (cString (path.set off 0)).chars)).1 = .failed
    · rw [if_pos failed, if_pos (.inl failed)]
    · rw [if_neg failed]
      by_cases nul : c = 0
      · rw [if_pos nul, if_pos (.inr nul)]
      · rw [if_neg nul, if_neg (not_or.mpr ⟨failed, nul⟩)]
  · rw [if_neg ends, if_neg ends]

/-- Up to a NUL the loop comes to an end, and leaves the string as it was. -/
theorem makeAllLoop_restores (naming : Naming w) (path : List (BitVec w)) (nul : Nat)
    (isNul : path[nul]? = some 0) :
    ∀ (fuel off : Nat) (tree : FileTree (List (BitVec w))), off ≤ nul → nul < off + fuel →
      ∃ made after, makeAllLoop naming fuel tree path off = some (made, after, path) := by
  intro fuel
  induction fuel with
  | zero =>
      intro off tree before within
      omega
  | succ fuel inductionHypothesis =>
      intro off tree before within
      have inside : off < path.length := by
        obtain ⟨nulInside, _⟩ := List.getElem?_eq_some_iff.mp isNul
        omega
      rw [makeAllLoop_round naming fuel tree (List.getElem?_eq_getElem inside)]
      by_cases atNul : path[off] = 0
      · rw [if_pos (.inr atNul), if_pos (.inr atNul)]
        exact ⟨_, _, rfl⟩
      · have notNul : off ≠ nul := by
          rintro rfl
          rw [List.getElem?_eq_getElem inside] at isNul
          exact atNul (Option.some.inj isNul)
        split
        · split
          · exact ⟨_, _, rfl⟩
          · exact inductionHypothesis (off + 1) _ (by omega) (by omega)
        · exact inductionHypothesis (off + 1) _ (by omega) (by omega)

theorem cString_cut {part : List (BitVec w)} (noNul : 0 ∉ part) (after : List (BitVec w)) :
    (cString (part ++ 0 :: after)).chars = part :=
  takeWhile_terminated noNul after

/-- The round at a character, with the string before it free of NUL. -/
theorem makeAllLoop_at (naming : Naming w) (fuel : Nat) (tree : FileTree (List (BitVec w)))
    {done : List (BitVec w)} (noNul : 0 ∉ done) (c : BitVec w) (after : List (BitVec w)) :
    makeAllLoop naming (fuel + 1) tree (done ++ c :: after) done.length =
      if naming.isSep c ∨ c = 0 then
        if (tree.makeDir (naming.resolve done)).1 = .failed ∨ c = 0 then
          some ((tree.makeDir (naming.resolve done)).1, (tree.makeDir (naming.resolve done)).2,
            done ++ c :: after)
        else
          makeAllLoop naming fuel (tree.makeDir (naming.resolve done)).2 (done ++ c :: after)
            (done.length + 1)
      else makeAllLoop naming fuel tree (done ++ c :: after) (done.length + 1) := by
  have here : (done ++ c :: after)[done.length]? = some c := by simp
  have cut : (done ++ c :: after).set done.length 0 = done ++ 0 :: after := by simp
  rw [makeAllLoop_round naming fuel tree here, cut, cString_cut noNul]

/-- The loop makes the leading parts of its string one after the other. -/
theorem makeAllLoop_eq (naming : Naming w) (tail rest : List (BitVec w)) :
    ∀ (done : List (BitVec w)) (fuel : Nat) (tree : FileTree (List (BitVec w))) (last : Made),
      0 ∉ done → 0 ∉ rest → rest.length < fuel →
      makeAllLoop naming fuel tree (done ++ (rest ++ 0 :: tail)) done.length =
        some ((tree.makeEach last ((leadingParts naming.isSep done rest).map naming.resolve)).1,
          (tree.makeEach last ((leadingParts naming.isSep done rest).map naming.resolve)).2,
          done ++ (rest ++ 0 :: tail)) := by
  induction rest with
  | nil =>
      intro done fuel tree last noNul _ enough
      obtain ⟨fuel, rfl⟩ : ∃ more, fuel = more + 1 := ⟨fuel - 1, by simp at enough; omega⟩
      rw [List.nil_append, makeAllLoop_at naming fuel tree noNul, if_pos (.inr rfl),
        if_pos (.inr rfl), leadingParts, List.map_singleton, FileTree.makeEach_cons]
      split <;> rfl
  | cons c rest inductionHypothesis =>
      intro done fuel tree last noNul noNulRest enough
      rw [List.length_cons] at enough
      obtain ⟨fuel, rfl⟩ : ∃ more, fuel = more + 1 := ⟨fuel - 1, by omega⟩
      rw [List.mem_cons, not_or] at noNulRest
      obtain ⟨notNul, noNulRest⟩ := noNulRest
      have noNulMore : 0 ∉ done ++ [c] := by
        simp only [List.mem_append, List.mem_singleton, not_or]
        exact ⟨noNul, notNul⟩
      have further := fun (tree : FileTree (List (BitVec w))) (last : Made) =>
        inductionHypothesis (done ++ [c]) fuel tree last noNulMore noNulRest (by omega)
      simp only [List.append_assoc, List.singleton_append, List.length_append,
        List.length_singleton] at further
      rw [List.cons_append, makeAllLoop_at naming fuel tree noNul, leadingParts]
      by_cases isSep : naming.isSep c = true
      · rw [if_pos (.inl isSep), if_pos isSep, List.map_cons, FileTree.makeEach_cons]
        by_cases failed : (tree.makeDir (naming.resolve done)).1 = .failed
        · rw [if_pos (.inl failed), if_pos failed]
        · rw [if_neg (not_or.mpr ⟨failed, Ne.symm notNul⟩), if_neg failed]
          exact further _ _
      · rw [if_neg (not_or.mpr ⟨isSep, Ne.symm notNul⟩), if_neg isSep]
        exact further _ _

/-- Where the loop begins: after the separator at `off`, if there is one. -/
def Naming.skipSep (naming : Naming w) (text : List (BitVec w)) (off : Nat) : Nat :=
  if (text[off]?.map naming.isSep).getD false then off + 1 else off

/-- The places that `ffdir_make_all` tries to make for a path, in this order. -/
def Naming.attempts (naming : Naming w) (text : List (BitVec w)) (off : Nat) :
    List (List (List (BitVec w))) :=
  (leadingParts naming.isSep (text.take (naming.skipSep text off))
    (text.drop (naming.skipSep text off))).map naming.resolve

theorem Naming.skipSep_le (naming : Naming w) {text : List (BitVec w)} {off : Nat}
    (inside : off ≤ text.length) : naming.skipSep text off ≤ text.length := by
  unfold Naming.skipSep
  split
  case isTrue isSep =>
    have within : off < text.length := by
      by_contra outside
      rw [List.getElem?_eq_none (by omega)] at isSep
      simp at isSep
    omega
  case isFalse => exact inside

/-- The attempts go down to the path itself. -/
theorem Naming.attempts_ladder (naming : Naming w) {text : List (BitVec w)}
    (notEmpty : text ≠ []) (off : Nat) :
    Ladder (naming.attempts text off) (naming.resolve text) := by
  have ladder := naming.ladder (text.take (naming.skipSep text off))
    (text.drop (naming.skipSep text off)) (by
      intro atStart c isHead
      -- the loop begins at 0 only if there is no separator
      rcases List.take_eq_nil_iff.mp atStart with zero | empty
      · rw [zero, List.drop_zero] at isHead
        unfold Naming.skipSep at zero
        split at zero
        · omega
        case isFalse noSep =>
          rw [zero, ← List.head?_eq_getElem?, isHead] at noSep
          simpa using noSep
      · exact absurd empty notEmpty)
  rwa [List.take_append_drop] at ladder

theorem getElem?_skipSep (naming : Naming w) (text tail : List (BitVec w)) {off : Nat}
    (inside : off ≤ text.length) :
    ∃ c, (text ++ 0 :: tail)[off]? = some c ∧
      (if naming.isSep c then off + 1 else off) = naming.skipSep text off := by
  by_cases within : off < text.length
  · refine ⟨text[off], ?_, ?_⟩
    · rw [List.getElem?_append_left within, List.getElem?_eq_getElem within]
    · simp [Naming.skipSep, List.getElem?_eq_getElem within]
  · obtain rfl : off = text.length := by omega
    refine ⟨0, by simp, ?_⟩
    simpa [Naming.skipSep] using naming.nulNotSep

/-- `ffdir_make_all` makes its attempts one after the other, and leaves the string as it
was. -/
theorem makeAllFrom_eq (naming : Naming w) (text : Text w) (tail : List (BitVec w))
    (tree : FileTree (List (BitVec w))) {off : Nat} (inside : off ≤ text.chars.length) :
    makeAllFrom naming tree (text.chars ++ 0 :: tail) off =
      some ((tree.makeEach .created (naming.attempts text.chars off)).1,
        (tree.makeEach .created (naming.attempts text.chars off)).2, text.chars ++ 0 :: tail) := by
  obtain ⟨c, here, skipped⟩ := getElem?_skipSep naming text.chars tail inside
  have within := naming.skipSep_le inside
  have noNulDone : 0 ∉ text.chars.take (naming.skipSep text.chars off) := fun member =>
    text.noNul (List.mem_of_mem_take member)
  have noNulRest : 0 ∉ text.chars.drop (naming.skipSep text.chars off) := fun member =>
    text.noNul (List.mem_of_mem_drop member)
  have loop := makeAllLoop_eq naming tail _ _
    ((text.chars ++ 0 :: tail).length - naming.skipSep text.chars off) tree .created
    noNulDone noNulRest (by simp; omega)
  rw [← List.append_assoc, List.take_append_drop, List.length_take_of_le within] at loop
  rw [makeAllFrom, here]
  simp only [skipped]
  exact loop

/-- Behind the end of the string the first read is outside. -/
theorem makeAllFrom_outside (naming : Naming w) (text : Text w)
    (tree : FileTree (List (BitVec w))) {off : Nat} (outside : text.chars.length < off) :
    makeAllFrom naming tree (text.chars ++ [0]) off = none := by
  have noRead : (text.chars ++ [0])[off]? = none := List.getElem?_eq_none (by simp; omega)
  rw [makeAllFrom, noRead]

end Ffos.Dir
