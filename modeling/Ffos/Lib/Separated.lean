/-
Module: Ffos.Lib.Separated
Purpose: Texts as components that separators close.
Trusted boundary: none
Main exports: Piece, exists_first_separator, exists_last_separator, parts, render, WellParted, render_parts,
  parts_wellParted, parts_render, head?_render_mem_iff, words, words_append
-/
import Mathlib.Data.List.TakeWhile

namespace Ffos.Lib

universe u

variable {α : Type u}

/-- A component and the separator that closes it. Only the last component of a text may be
without one. -/
abbrev Piece (α : Type u) := List α × Option α

/-- The text of components. -/
def render (ps : List (Piece α)) : List α := ps.flatMap fun p => p.1 ++ p.2.toList

@[simp] theorem render_nil : render ([] : List (Piece α)) = [] := rfl

@[simp] theorem render_cons (p : Piece α) (ps : List (Piece α)) :
    render (p :: ps) = p.1 ++ p.2.toList ++ render ps := rfl

@[simp] theorem render_append (ps qs : List (Piece α)) :
    render (ps ++ qs) = render ps ++ render qs :=
  List.flatMap_append

section Separators

variable (seps : List α)

/-- A component has no separator in it. -/
def Clean (name : List α) : Prop := ∀ c ∈ name, c ∉ seps

/-- A component that a separator closes. -/
structure Closed (p : Piece α) : Prop where
  clean : Clean seps p.1
  separator : ∃ c ∈ seps, p.2 = some c

/-- A text that is not clean has a first separator. -/
theorem exists_first_separator {text : List α} (dirty : ¬ Clean seps text) :
    ∃ first c second, text = first ++ c :: second ∧ Clean seps first ∧ c ∈ seps := by
  induction text with
  | nil => exact absurd (List.forall_mem_nil _) dirty
  | cons d rest inductionHypothesis =>
      by_cases separator : d ∈ seps
      · exact ⟨[], d, rest, rfl, List.forall_mem_nil _, separator⟩
      · have dirtyRest : ¬ Clean seps rest := fun clean =>
          dirty (List.forall_mem_cons.mpr ⟨separator, clean⟩)
        obtain ⟨first, c, second, rfl, clean, member⟩ := inductionHypothesis dirtyRest
        exact ⟨d :: first, c, second, rfl, List.forall_mem_cons.mpr ⟨separator, clean⟩, member⟩

/-- It has a last one. -/
theorem exists_last_separator {text : List α} (dirty : ¬ Clean seps text) :
    ∃ before c after, text = before ++ c :: after ∧ c ∈ seps ∧ Clean seps after := by
  have dirtyBack : ¬ Clean seps text.reverse := fun clean =>
    dirty fun c member => clean c (List.mem_reverse.mpr member)
  obtain ⟨first, c, second, back, clean, member⟩ := exists_first_separator seps dirtyBack
  refine ⟨second.reverse, c, first.reverse, ?_, member, ?_⟩
  · rw [← List.reverse_reverse text, back, List.reverse_append, List.reverse_cons,
      List.append_assoc, List.singleton_append]
  · exact fun d inside => clean d (List.mem_reverse.mp inside)

/-- The components of a text: an open one is the last one, and it is not empty. -/
inductive WellParted : List (Piece α) → Prop
  | nil : WellParted []
  | opened {name : List α} : name ≠ [] → Clean seps name → WellParted [(name, none)]
  | closed {p : Piece α} {rest : List (Piece α)} :
      Closed seps p → WellParted rest → WellParted (p :: rest)

/-- Components that are all closed may stand before any others. -/
theorem WellParted.append {ps qs : List (Piece α)} (closed : ∀ p ∈ ps, Closed seps p)
    (rest : WellParted seps qs) : WellParted seps (ps ++ qs) := by
  induction ps with
  | nil => exact rest
  | cons p ps inductionHypothesis =>
      have below := inductionHypothesis fun q member => closed q (List.mem_cons_of_mem _ member)
      exact .closed (closed p List.mem_cons_self) below

/-- What stands before another component is closed. -/
theorem WellParted.closed_before {seps : List α} {before after : List (Piece α)} {p : Piece α}
    (well : WellParted seps (before ++ p :: after)) : ∀ q ∈ before, Closed seps q := by
  induction before with
  | nil => exact List.forall_mem_nil _
  | cons q before inductionHypothesis =>
      cases before with
      | nil =>
          cases well with
          | closed first _ => exact List.forall_mem_singleton.mpr first
      | cons r before =>
          cases well with
          | closed first rest => exact List.forall_mem_cons.mpr ⟨first, inductionHypothesis rest⟩

/-- The components up to one of them are those of a text as well. -/
theorem WellParted.of_leads {seps : List α} {ps qs : List (Piece α)}
    (well : WellParted seps qs) (leads : ps <+: qs) : WellParted seps ps := by
  induction well generalizing ps with
  | nil =>
      rw [List.prefix_nil.mp leads]
      exact .nil
  | opened nonempty clean =>
      rcases List.prefix_cons_iff.mp leads with rfl | ⟨rest, rfl, restLeads⟩
      · exact .nil
      · rw [List.prefix_nil.mp restLeads]
        exact .opened nonempty clean
  | closed first _ inductionHypothesis =>
      rcases List.prefix_cons_iff.mp leads with rfl | ⟨rest, rfl, restLeads⟩
      · exact .nil
      · exact .closed first (inductionHypothesis restLeads)

theorem WellParted.of_append {seps : List α} {before after : List (Piece α)}
    (well : WellParted seps (before ++ after)) : WellParted seps after := by
  induction before with
  | nil => exact well
  | cons p before inductionHypothesis =>
      apply inductionHypothesis
      rw [List.cons_append] at well
      generalize before ++ after = rest at well ⊢
      cases well with
      | opened => exact .nil
      | closed _ rest => exact rest

theorem WellParted.clean {ps : List (Piece α)} (well : WellParted seps ps) :
    ∀ p ∈ ps, Clean seps p.1 := by
  induction well with
  | nil => exact List.forall_mem_nil _
  | opened _ clean =>
      intro p member
      rw [List.mem_singleton.mp member]
      exact clean
  | closed first _ inductionHypothesis =>
      exact List.forall_mem_cons.mpr ⟨first.clean, inductionHypothesis⟩

/-- Each component takes a character at least. -/
theorem WellParted.length_le {seps : List α} {ps : List (Piece α)} (well : WellParted seps ps) :
    ps.length ≤ (render ps).length := by
  induction well with
  | nil => exact Nat.le_refl 0
  | opened nonempty _ =>
      have positive := List.length_pos_iff.mpr nonempty
      simpa using Nat.succ_le_of_lt positive
  | @closed p rest first _ inductionHypothesis =>
      obtain ⟨c, _, closes⟩ := first.separator
      rw [render_cons, closes, List.length_append, List.length_append, List.length_cons]
      simp only [Option.toList_some, List.length_singleton]
      omega

/-- What closes a component is a separator. -/
theorem WellParted.separator {seps : List α} {ps : List (Piece α)} (well : WellParted seps ps) :
    ∀ p ∈ ps, ∀ c ∈ p.2, c ∈ seps := by
  induction well with
  | nil => exact List.forall_mem_nil _
  | opened _ _ => exact List.forall_mem_singleton.mpr fun c member => absurd member (by simp)
  | @closed p rest first _ inductionHypothesis =>
      refine List.forall_mem_cons.mpr ⟨fun c member => ?_, inductionHypothesis⟩
      obtain ⟨d, separator, closes⟩ := first.separator
      rw [closes] at member
      rw [← Option.mem_some_iff.mp member]
      exact separator

theorem not_separator_first {c : α} (other : c ∉ seps) (rest : List α) :
    ¬ ∃ d ∈ seps, (c :: rest).head? = some d := by
  rintro ⟨d, member, first⟩
  obtain rfl : c = d := Option.some.inj first
  exact other member

/-- A text begins with a separator if its first component is empty. -/
theorem head?_render_mem_iff {ps : List (Piece α)} (well : WellParted seps ps) :
    (∃ c ∈ seps, (render ps).head? = some c) ↔ (ps.head?.map Prod.fst) = some [] := by
  cases well with
  | nil => simp
  | @opened name nonempty clean =>
      obtain ⟨c, rest, rfl⟩ := List.exists_cons_of_ne_nil nonempty
      have other : c ∉ seps := clean c List.mem_cons_self
      exact iff_of_false (not_separator_first seps other _) (by simp)
  | @closed p rest first _ =>
      obtain ⟨separator, member, closes⟩ := first.separator
      obtain ⟨name, close⟩ := p
      obtain rfl : close = some separator := closes
      cases name with
      | nil => simpa using member
      | cons c name =>
          have other : c ∉ seps := first.clean c List.mem_cons_self
          exact iff_of_false (not_separator_first seps other _) (by simp)

/-! ### Splitting -/

variable [DecidableEq α]

/-- The components of a text. -/
def parts : List α → List (Piece α)
  | [] => []
  | c :: rest =>
      if c ∈ seps then ([], some c) :: parts rest
      else
        match parts rest with
        | [] => [([c], none)]
        | (name, close) :: more => (c :: name, close) :: more

variable {seps}

theorem parts_closed_append {name : List α} (clean : Clean seps name) {c : α}
    (separator : c ∈ seps) (rest : List α) :
    parts seps (name ++ c :: rest) = (name, some c) :: parts seps rest := by
  induction name with
  | nil => exact if_pos separator
  | cons d name inductionHypothesis =>
      obtain ⟨other, cleanTail⟩ := List.forall_mem_cons.mp clean
      rw [List.cons_append, parts, if_neg other, inductionHypothesis cleanTail]

theorem parts_open {name : List α} (clean : Clean seps name) (nonempty : name ≠ []) :
    parts seps name = [(name, none)] := by
  induction name with
  | nil => exact absurd rfl nonempty
  | cons d name inductionHypothesis =>
      obtain ⟨other, cleanTail⟩ := List.forall_mem_cons.mp clean
      rw [parts, if_neg other]
      cases name with
      | nil => rfl
      | cons e name => rw [inductionHypothesis cleanTail (List.cons_ne_nil e name)]

variable (seps)

theorem render_parts (text : List α) : render (parts seps text) = text := by
  induction text with
  | nil => rfl
  | cons c rest inductionHypothesis =>
      rw [parts]
      split
      · rw [render_cons, inductionHypothesis]
        rfl
      · cases inRest : parts seps rest with
        | nil =>
            rw [inRest, render_nil] at inductionHypothesis
            rw [← inductionHypothesis]
            rfl
        | cons p more =>
            rw [inRest] at inductionHypothesis
            rw [← inductionHypothesis]
            rfl

theorem parts_wellParted (text : List α) : WellParted seps (parts seps text) := by
  induction text with
  | nil => exact .nil
  | cons c rest inductionHypothesis =>
      rw [parts]
      split
      next separator =>
        exact .closed ⟨List.forall_mem_nil _, c, separator, rfl⟩
          inductionHypothesis
      next other =>
        -- The character goes to the front of the first component of the rest.
        cases inRest : parts seps rest with
        | nil =>
            refine .opened (List.cons_ne_nil c []) ?_
            intro d member
            rw [List.mem_singleton.mp member]
            exact other
        | cons p more =>
            rw [inRest] at inductionHypothesis
            cases inductionHypothesis with
            | opened _ clean =>
                exact .opened (List.cons_ne_nil c _) (List.forall_mem_cons.mpr ⟨other, clean⟩)
            | closed first well =>
                exact .closed ⟨List.forall_mem_cons.mpr ⟨other, first.clean⟩, first.separator⟩ well

variable {seps}

/-- Only the components of the text are its components. -/
theorem parts_render {ps : List (Piece α)} (well : WellParted seps ps) :
    parts seps (render ps) = ps := by
  induction well with
  | nil => rfl
  | opened nonempty clean =>
      rw [render_cons, render_nil, Option.toList_none, List.append_nil, List.append_nil]
      exact parts_open clean nonempty
  | @closed p rest first _ inductionHypothesis =>
      obtain ⟨separator, member, closes⟩ := first.separator
      rw [render_cons, closes, Option.toList_some, List.append_assoc, List.singleton_append,
        parts_closed_append first.clean member, inductionHypothesis, ← closes]

/-! ### Scanning -/

/-- Scanning along a clean text takes all of it. -/
theorem takeWhile_clean {first : List α} (clean : Clean seps first) (rest : List α) :
    (first ++ rest).takeWhile (· ∉ seps) = first ++ rest.takeWhile (· ∉ seps) ∧
      (first ++ rest).dropWhile (· ∉ seps) = rest.dropWhile (· ∉ seps) := by
  have scanned : ∀ c ∈ first, decide (c ∉ seps) = true := fun c member =>
    decide_eq_true (clean c member)
  exact ⟨List.takeWhile_append_of_pos scanned, List.dropWhile_append_of_pos scanned⟩

/-- It stops at a separator. -/
theorem takeWhile_separator {c : α} (member : c ∈ seps) (rest : List α) :
    (c :: rest).takeWhile (· ∉ seps) = [] ∧ (c :: rest).dropWhile (· ∉ seps) = c :: rest := by
  simp [member]

variable (seps) in
/-- What is scanned is clean, -/
theorem clean_takeWhile (text : List α) : Clean seps (text.takeWhile (· ∉ seps)) := by
  intro c member
  have scanned := List.mem_takeWhile_imp member
  exact of_decide_eq_true scanned

variable (seps) in
/-- and the scan stops at a separator. -/
theorem head?_dropWhile_mem (text : List α) :
    ∀ c ∈ (text.dropWhile (· ∉ seps)).head?, c ∈ seps := by
  intro c first
  have stopped := List.head?_dropWhile_not (· ∉ seps) text
  rw [first] at stopped
  exact not_not.mp (of_decide_eq_false stopped)

variable (seps) in
/-- Skipping separators stops at another character. -/
theorem head?_dropWhile_not_mem (text : List α) :
    ∀ c ∈ (text.dropWhile (· ∈ seps)).head?, c ∉ seps := by
  intro c first
  have stopped := List.head?_dropWhile_not (· ∈ seps) text
  rw [first] at stopped
  exact of_decide_eq_false stopped

variable (seps) in
/-- What stands before the first separator, and what stands behind it. -/
def cut (text : List α) : List α × List α :=
  (text.takeWhile (· ∉ seps), (text.dropWhile (· ∉ seps)).drop 1)

theorem cut_found {first : List α} {c : α} (clean : Clean seps first) (member : c ∈ seps)
    (second : List α) : cut seps (first ++ c :: second) = (first, second) := by
  obtain ⟨taken, dropped⟩ := takeWhile_clean clean (c :: second)
  rw [cut, taken, dropped, (takeWhile_separator member second).1,
    (takeWhile_separator member second).2, List.append_nil]
  rfl

theorem cut_clean {text : List α} (clean : Clean seps text) : cut seps text = (text, []) := by
  obtain ⟨taken, dropped⟩ := takeWhile_clean clean []
  rw [List.append_nil] at taken dropped
  rw [cut, taken, dropped, List.takeWhile_nil, List.append_nil]
  rfl

/-! ### Words -/

variable (seps)

/-- The words of a text: the components that are not empty. -/
def words (text : List α) : List (List α) := ((parts seps text).map Prod.fst).filter (· ≠ [])

variable {seps}

theorem words_nil : words seps [] = [] := rfl

/-- Separators before the first word do not matter. -/
theorem words_cons_separator {c : α} (separator : c ∈ seps) (rest : List α) :
    words seps (c :: rest) = words seps rest := by
  simp [words, parts, separator]

theorem words_append_separators {lead : List α} (separators : ∀ c ∈ lead, c ∈ seps)
    (rest : List α) : words seps (lead ++ rest) = words seps rest := by
  induction lead with
  | nil => rfl
  | cons c lead inductionHypothesis =>
      obtain ⟨first, others⟩ := List.forall_mem_cons.mp separators
      rw [List.cons_append, words_cons_separator first, inductionHypothesis others]

/-- The words are those behind the separators at the beginning. -/
theorem words_dropWhile (text : List α) :
    words seps (text.dropWhile (· ∈ seps)) = words seps text := by
  have lead : ∀ c ∈ text.takeWhile (· ∈ seps), c ∈ seps := by
    intro c member
    have skipped := List.mem_takeWhile_imp member
    exact of_decide_eq_true skipped
  have whole := @List.takeWhile_append_dropWhile _ (· ∈ seps) text
  rw [← words_append_separators lead (text.dropWhile (· ∈ seps)), whole]

/-- A word goes up to the next separator. -/
theorem words_append {word rest : List α} (clean : Clean seps word) (nonempty : word ≠ [])
    (next : ∀ c ∈ rest.head?, c ∈ seps) : words seps (word ++ rest) = word :: words seps rest := by
  cases rest with
  | nil =>
      rw [List.append_nil, words, parts_open clean nonempty]
      simp [nonempty, words_nil]
  | cons c rest =>
      have separator : c ∈ seps := next c rfl
      rw [words, parts_closed_append clean separator, words_cons_separator separator]
      simp [words, nonempty]

/-- A text without words has only separators. -/
theorem words_eq_nil_iff (text : List α) : words seps text = [] ↔ ∀ c ∈ text, c ∈ seps := by
  constructor
  · intro none
    by_contra some
    obtain ⟨c, member, other⟩ : ∃ c ∈ text, c ∉ seps := by simpa using some
    rw [← render_parts seps text] at member
    obtain ⟨p, inParts, inPiece⟩ := List.mem_flatMap.mp member
    have inName : c ∈ p.1 := by
      rcases List.mem_append.mp inPiece with inName | isSeparator
      · exact inName
      · have separator := (parts_wellParted seps text).separator p inParts c
        exact absurd (separator (Option.mem_toList.mp isSeparator)) other
    have inWords : p.1 ∈ words seps text :=
      List.mem_filter.mpr ⟨List.mem_map_of_mem inParts,
        decide_eq_true (List.ne_nil_of_mem inName)⟩
    rw [none] at inWords
    exact List.not_mem_nil inWords
  · intro separators
    rw [← List.append_nil text, words_append_separators separators, words_nil]

theorem clean_of_mem_words {text word : List α} (member : word ∈ words seps text) :
    Clean seps word ∧ word ≠ [] := by
  obtain ⟨inNames, nonempty⟩ := List.mem_filter.mp member
  obtain ⟨p, inParts, rfl⟩ := List.mem_map.mp inNames
  exact ⟨(parts_wellParted seps text).clean seps p inParts, of_decide_eq_true nonempty⟩

theorem mem_of_mem_words {text word : List α} (member : word ∈ words seps text) {c : α}
    (inWord : c ∈ word) : c ∈ text := by
  obtain ⟨p, inParts, rfl⟩ := List.mem_map.mp (List.mem_filter.mp member).1
  rw [← render_parts seps text]
  exact List.mem_flatMap.mpr ⟨p, inParts, List.mem_append_left _ inWord⟩

end Separators

end Ffos.Lib
