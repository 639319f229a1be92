/-
Module: Ffos.Lib.Marked
Purpose: Texts in which a marker begins names: the runs of plain characters and the marked
  names, each as long as it can be.
Trusted boundary: none
Main exports: Token, source, WellTokened, tokens, source_tokens, tokens_wellTokened
-/
import Mathlib.Data.List.TakeWhile

namespace Ffos.Lib

universe u

/-- A run of plain characters, or a name behind its marker. -/
inductive Token (α : Type u) where
  | text (run : List α)
  | name (run : List α)
deriving DecidableEq

section Marker

variable {α : Type u} (marker : α) (isNameChar : α → Bool)

/-- The characters of a token. -/
def Token.source : Token α → List α
  | text run => run
  | name run => marker :: run

/-- The text of tokens. -/
def source (ts : List (Token α)) : List α := ts.flatMap (Token.source marker)

@[simp] theorem source_nil : source marker ([] : List (Token α)) = [] := rfl

@[simp] theorem source_cons (t : Token α) (ts : List (Token α)) :
    source marker (t :: ts) = t.source marker ++ source marker ts := rfl

/-- No token could be longer: plain characters go on to the next marker, and a name to the
next character that cannot stand in a name. -/
inductive WellTokened : List (Token α) → Prop
  | nil : WellTokened []
  | text {run : List α} {rest : List (Token α)} : run ≠ [] → marker ∉ run →
      (∀ c ∈ (source marker rest).head?, c = marker) → WellTokened rest →
      WellTokened (.text run :: rest)
  | name {run : List α} {rest : List (Token α)} : (∀ c ∈ run, isNameChar c = true) →
      (∀ c ∈ (source marker rest).head?, isNameChar c = false) → WellTokened rest →
      WellTokened (.name run :: rest)

variable [DecidableEq α]

/-- A plain character before other tokens. -/
def plainBefore (c : α) : List (Token α) → List (Token α)
  | .text run :: rest => .text (c :: run) :: rest
  | rest => .text [c] :: rest

/-- A marker before other tokens takes the beginning of the plain characters as its name. -/
def markerBefore : List (Token α) → List (Token α)
  | .text run :: rest =>
      if run.dropWhile isNameChar = [] then .name run :: rest
      else .name (run.takeWhile isNameChar) :: .text (run.dropWhile isNameChar) :: rest
  | rest => .name [] :: rest

/-- The tokens of a text. -/
def tokens : List α → List (Token α)
  | [] => []
  | c :: rest =>
      if c = marker then markerBefore isNameChar (tokens rest) else plainBefore c (tokens rest)

omit [DecidableEq α] in
theorem source_plainBefore (c : α) (ts : List (Token α)) :
    source marker (plainBefore c ts) = c :: source marker ts := by
  match ts with
  | [] => rfl
  | .text run :: rest => rfl
  | .name run :: rest => rfl

omit [DecidableEq α] in
theorem source_markerBefore (ts : List (Token α)) :
    source marker (markerBefore isNameChar ts) = marker :: source marker ts := by
  match ts with
  | [] => rfl
  | .name run :: rest => rfl
  | .text run :: rest =>
      rw [markerBefore]
      split
      · rfl
      · have whole := @List.takeWhile_append_dropWhile _ isNameChar run
        simp only [source_cons, Token.source, List.cons_append]
        rw [← List.append_assoc, whole]

/-- The tokens hold all of the text. -/
theorem source_tokens (text : List α) : source marker (tokens marker isNameChar text) = text := by
  induction text with
  | nil => rfl
  | cons c rest inductionHypothesis =>
      rw [tokens]
      split
      next isMarker => rw [source_markerBefore, inductionHypothesis, isMarker]
      next => rw [source_plainBefore, inductionHypothesis]

variable {marker isNameChar}

omit [DecidableEq α] in
theorem WellTokened.plainBefore {c : α} (plain : c ≠ marker) {ts : List (Token α)}
    (well : WellTokened marker isNameChar ts) :
    WellTokened marker isNameChar (plainBefore c ts) := by
  have alone : marker ∉ [c] := fun member => plain (List.mem_singleton.mp member).symm
  cases well with
  | nil => exact .text (List.cons_ne_nil c []) alone (by simp) .nil
  | @text run rest _ unmarked next well =>
      refine .text (List.cons_ne_nil c run) ?_ next well
      exact List.not_mem_cons_of_ne_of_not_mem (Ne.symm plain) unmarked
  | @name run rest chars next well =>
      exact .text (List.cons_ne_nil c []) alone (by simp [Token.source]) (.name chars next well)

omit [DecidableEq α] in
theorem WellTokened.markerBefore (notName : isNameChar marker = false) {ts : List (Token α)}
    (well : WellTokened marker isNameChar ts) :
    WellTokened marker isNameChar (markerBefore isNameChar ts) := by
  cases well with
  | nil => exact .name (by simp) (by simp) .nil
  | @name run rest chars next well =>
      refine .name (by simp) ?_ (.name chars next well)
      simpa [Token.source] using notName
  | @text run rest nonempty unmarked next well =>
      have chars : ∀ c ∈ run.takeWhile isNameChar, isNameChar c = true := fun c member =>
        List.mem_takeWhile_imp member
      rw [Lib.markerBefore]
      split
      next all =>
        have whole := @List.takeWhile_append_dropWhile _ isNameChar run
        rw [all, List.append_nil] at whole
        rw [whole] at chars
        refine .name chars ?_ well
        intro c first
        rw [next c first]
        exact notName
      next some =>
        have stops : ∀ c ∈ (run.dropWhile isNameChar).head?, isNameChar c = false := by
          intro c first
          have stopped := List.head?_dropWhile_not isNameChar run
          rw [first] at stopped
          exact stopped
        refine .name chars ?_ (.text some ?_ next well)
        · obtain ⟨c, more, first⟩ := List.exists_cons_of_ne_nil some
          simpa [Token.source, first] using stops
        · exact fun member => unmarked ((List.dropWhile_sublist _).subset member)

/-- No token could be longer. -/
theorem tokens_wellTokened (notName : isNameChar marker = false) (text : List α) :
    WellTokened marker isNameChar (tokens marker isNameChar text) := by
  induction text with
  | nil => exact .nil
  | cons c rest inductionHypothesis =>
      rw [tokens]
      split
      next => exact inductionHypothesis.markerBefore notName
      next plain => exact inductionHypothesis.plainBefore plain

end Marker

end Ffos.Lib
