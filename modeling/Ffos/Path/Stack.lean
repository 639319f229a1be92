/-
Module: Ffos.Path.Stack
Purpose: `ffpath_normalize` as a walk over the components of the source with a stack of
  the components that stand in the output.
Trusted boundary: none
Main exports: Stack, text, parentStack, push, walk, parent_eq, normalizeIteration_placed,
  Backs, normalizeLoop_walk, normalForm, outputs_of_backs, outputs_of_fits, eq_of_outputs
-/
import Ffos.Path.Model

namespace Ffos.Path

open Ffos.Lib

/-! ### The walk -/

/-- The components that stand in the output, the last one first. -/
abbrev Stack := List (Piece Byte)

/-- The output. -/
def text (stack : Stack) : List Byte := render stack.reverse

@[simp] theorem text_nil : text [] = [] := rfl

@[simp] theorem text_cons (p : Piece Byte) (stack : Stack) :
    text (p :: stack) = text stack ++ (p.1 ++ p.2.toList) := by
  rw [text, List.reverse_cons, render_append, render_cons, render_nil, List.append_nil]
  rfl

/-- What lies lower in the stack stands earlier in the output. -/
theorem text_leads {below stack : Stack} (lower : below <:+ stack) : text below <+: text stack := by
  obtain ⟨above, rfl⟩ := lower
  exact ⟨render above.reverse, by rw [text, text, List.reverse_append, render_append]⟩

namespace Parent

variable {Place Other : Type}

def map (f : Place → Other) : Parent Place → Parent Other
  | append place => append (f place)
  | skip place => skip (f place)

/-- Where the output is left, before the component is appended if it is. -/
def place : Parent Place → Place
  | append place => place
  | skip place => place

end Parent

/-- The stack once the component is dealt with. -/
def Parent.settle (p : Piece Byte) : Parent Stack → Stack
  | append below => p :: below
  | skip below => below

@[simp] theorem Parent.settle_append (p : Piece Byte) (below : Stack) :
    (Parent.append below).settle p = p :: below := rfl

@[simp] theorem Parent.settle_skip (p : Piece Byte) (below : Stack) :
    (Parent.skip below).settle p = below := rfl

/-- The five situations of a `".."`. -/
def parentStack (config : Settings) : Stack → Parent Stack
  | [] => if config.simple then .skip [] else .append []
  | [p] =>
      if p.1 = dot then .append []
      else if p.1 = dotdot then .append [p]
      else if p.1 = [] then .skip [p]
      else if config.disk = true ∧ p.1.getLast? = some colon then .skip [p]
      else .skip []
  | p :: q :: below => if p.1 = dotdot then .append (p :: q :: below) else .skip (q :: below)

/-- A component as it is written. -/
def written (config : Settings) (p : Piece Byte) : Piece Byte :=
  (p.1, p.2.map fun c => config.forced.getD c)

/-- It is as long as in the source. -/
theorem written_length (config : Settings) (p : Piece Byte) :
    ((written config p).1 ++ (written config p).2.toList).length = (p.1 ++ p.2.toList).length := by
  rw [written, List.length_append, List.length_append, Option.toList_map, List.length_map]

/-- Where a component that goes on is put. -/
def placed (config : Settings) (stack : Stack) (p : Piece Byte) : Parent Stack :=
  if p.1 = dotdot then parentStack config stack else .append stack

/-- The stack after a component that goes on. -/
def push (config : Settings) (stack : Stack) (p : Piece Byte) : Stack :=
  (placed config stack p).settle (written config p)

/-- Whether a component goes on, and the mode after it. -/
def admitted (mode : Mode) (part : List Byte) : Bool × Mode :=
  if mode.simplify then
    if part = [] ∨ part = dot then (false, mode)
    else if mode.skipDisk then (part.getLast? ≠ some colon, { mode with skipDisk := false })
    else (true, mode)
  else (true, { mode with simplify := true })

def walkStep (config : Settings) (position : Mode × Stack) (p : Piece Byte) : Mode × Stack :=
  ((admitted position.1 p.1).2,
    if (admitted position.1 p.1).1 then push config position.2 p else position.2)

/-- The loop on the components of the source. -/
def walk (config : Settings) (position : Mode × Stack) (ps : List (Piece Byte)) : Mode × Stack :=
  ps.foldl (walkStep config) position

/-! ### What a component can do to the stack -/

theorem place_parentStack (config : Settings) (stack : Stack) :
    (parentStack config stack).place <:+ stack := by
  match stack with
  | [] =>
      rw [parentStack]
      split <;> exact List.suffix_refl []
  | [p] =>
      rw [parentStack]
      split_ifs <;> first | exact List.suffix_refl _ | exact List.nil_suffix
  | p :: q :: below =>
      rw [parentStack]
      split
      · exact List.suffix_refl _
      · exact List.suffix_cons p (q :: below)

theorem place_placed (config : Settings) (stack : Stack) (p : Piece Byte) :
    (placed config stack p).place <:+ stack := by
  rw [placed]
  split
  · exact place_parentStack config stack
  · exact List.suffix_refl stack

/-- Components are taken off, and then this one may be put on. -/
theorem push_cases (config : Settings) (stack : Stack) (p : Piece Byte) :
    ∃ below, below <:+ stack ∧
      (push config stack p = below ∨ push config stack p = written config p :: below) := by
  have lower := place_placed config stack p
  rw [push]
  cases placement : placed config stack p with
  | skip below =>
      rw [placement] at lower
      exact ⟨below, lower, .inl rfl⟩
  | append below =>
      rw [placement] at lower
      exact ⟨below, lower, .inr rfl⟩

theorem walkStep_cases (config : Settings) (position : Mode × Stack) (p : Piece Byte) :
    ∃ below, below <:+ position.2 ∧ ((walkStep config position p).2 = below ∨
      (walkStep config position p).2 = written config p :: below) := by
  rw [walkStep]
  cases (admitted position.1 p.1).1 with
  | false => exact ⟨position.2, List.suffix_refl _, .inl rfl⟩
  | true => exact push_cases config position.2 p

theorem written_closed {config : Settings} (inSet : config.ForcedInSet) {p : Piece Byte}
    (closed : Closed config.slashes p) : Closed config.slashes (written config p) := by
  obtain ⟨clean, c, member, closes⟩ := closed
  refine ⟨clean, config.forced.getD c, ?_, by rw [written, closes, Option.map_some]⟩
  cases forced : config.forced with
  | none => exact member
  | some separator => exact inSet separator forced

/-- A closed component leaves all of the stack closed. -/
theorem walkStep_closed {config : Settings} (inSet : config.ForcedInSet)
    {position : Mode × Stack} (closed : ∀ p ∈ position.2, Closed config.slashes p)
    {p : Piece Byte} (closedPart : Closed config.slashes p) :
    ∀ q ∈ (walkStep config position p).2, Closed config.slashes q := by
  obtain ⟨below, lower, skipped | appended⟩ := walkStep_cases config position p
  · rw [skipped]
    exact fun q member => closed q (lower.subset member)
  · rw [appended]
    exact List.forall_mem_cons.mpr ⟨written_closed inSet closedPart,
      fun q member => closed q (lower.subset member)⟩

/-- The components of the output are those of the stack. -/
theorem walk_wellParted {config : Settings} (inSet : config.ForcedInSet) {ps : List (Piece Byte)}
    (well : WellParted config.slashes ps) {position : Mode × Stack}
    (closed : ∀ p ∈ position.2, Closed config.slashes p) :
    WellParted config.slashes (walk config position ps).2.reverse := by
  have closedBelow : ∀ {below : Stack}, below <:+ position.2 →
      ∀ p ∈ below.reverse, Closed config.slashes p := fun lower p member =>
    closed p (lower.subset (List.mem_reverse.mp member))
  induction well generalizing position with
  | nil =>
      rw [← List.append_nil (List.reverse _)]
      exact .append _ (closedBelow (List.suffix_refl _)) .nil
  | @opened name nonempty clean =>
      obtain ⟨below, lower, skipped | appended⟩ := walkStep_cases config position (name, none)
      · change WellParted _ (walkStep config position (name, none)).2.reverse
        rw [skipped, ← List.append_nil (List.reverse _)]
        exact .append _ (closedBelow lower) .nil
      · change WellParted _ (walkStep config position (name, none)).2.reverse
        rw [appended, List.reverse_cons]
        exact .append _ (closedBelow lower) (.opened nonempty clean)
  | closed closedPart _ inductionHypothesis =>
      have after := walkStep_closed inSet closed closedPart
      exact inductionHypothesis after fun lower q member =>
        after q (lower.subset (List.mem_reverse.mp member))

/-! ### The loop is the walk -/

theorem admits_eq (mode : Mode) (part : List Byte) :
    admits mode part = some (admitted mode part) := by
  rw [admits, admitted]
  split_ifs with simplify skipped skipDisk
  · rfl
  · -- The component is not empty here, so it has a last character.
    rw [not_or] at skipped
    rw [List.getLast?_eq_some_getLast skipped.1]
    simp
  · rfl
  · rfl

section Buffer

variable {str : Ffstr} {config : Settings} {dst : List Byte} {k : Nat} {stack : Stack}

/-- At the first component the search back finds nothing. -/
theorem parent_first {name : List Byte} {c : Byte} (clean : Clean config.slashes name)
    (filled : Filled dst k (text [(name, some c)])) :
    parent str config dst k =
      some ((parentStack config [(name, some c)]).map fun below => (text below).length) := by
  have content : text [(name, some c)] = [] ++ name ++ [c] := by simp
  have length : (text [(name, some c)]).length = name.length + 1 := by simp
  obtain rfl : name.length + 1 = k := length ▸ filled.length
  rw [content] at filled
  have read := filled.slice
  simp only [List.length_nil, List.nil_append] at read
  rw [parent, if_pos (Nat.succ_ne_zero _), Nat.add_sub_cancel, read, Option.bind_eq_bind,
    Option.bind_some, str.rfindany_none name config.slashes clean, parentStack]
  dsimp only
  by_cases isDot : name = dot
  · rw [if_pos isDot, if_pos isDot]
    rfl
  rw [if_neg isDot, if_neg isDot]
  by_cases isDotdot : name = dotdot
  · rw [if_pos isDotdot, if_pos isDotdot, Parent.map, length]
  rw [if_neg isDotdot, if_neg isDotdot]
  by_cases root : name = []
  · have one : name.length + 1 = 1 := by rw [root, List.length_nil]
    rw [if_pos one, if_pos root, Parent.map, length]
  have longer : ¬ name.length + 1 = 1 := fun one =>
    root (List.length_eq_zero_iff.mp (Nat.succ.inj one))
  rw [if_neg longer, if_neg root, List.getLast?_eq_some_getLast root]
  by_cases drive : name.getLast root = colon
  · cases config.disk <;> simp [drive, Parent.map]
  · cases config.disk <;> simp [drive, Parent.map]

/-- At a later one it finds the separator of the component below. -/
theorem parent_later {name below : List Byte} {c d : Byte} {rest : Stack}
    (clean : Clean config.slashes name) (separator : d ∈ config.slashes)
    (filled : Filled dst k (text ((name, some c) :: (below, some d) :: rest))) :
    parent str config dst k =
      some ((parentStack config ((name, some c) :: (below, some d) :: rest)).map
        fun below => (text below).length) := by
  have lower : text ((below, some d) :: rest) = text rest ++ below ++ [d] := by simp
  have content : text ((name, some c) :: (below, some d) :: rest) =
      text ((below, some d) :: rest) ++ name ++ [c] := by simp
  have length : (text ((name, some c) :: (below, some d) :: rest)).length =
      (text ((below, some d) :: rest) ++ name).length + 1 := by
    rw [content, List.length_append, List.length_singleton]
  have lowerLength : (text rest ++ below).length + 1 =
      (text ((below, some d) :: rest)).length := by
    rw [lower, @List.length_append _ (_ ++ _), List.length_singleton]
  obtain rfl : (text ((below, some d) :: rest) ++ name).length + 1 = k := length ▸ filled.length
  rw [content] at filled
  have readAll : slice dst 0 (text ((below, some d) :: rest) ++ name).length =
      some (text ((below, some d) :: rest) ++ name) := by
    rw [← List.nil_append (_ ++ name)] at filled ⊢
    exact filled.slice
  have found : str.rfindany (text ((below, some d) :: rest) ++ name) config.slashes =
      some (text rest ++ below).length := by
    rw [lower, List.append_assoc, List.singleton_append]
    exact str.rfindany_found _ d name _ separator clean
  have read : slice dst ((text rest ++ below).length + 1)
      (text ((below, some d) :: rest) ++ name).length = some name := by
    rw [lowerLength]
    exact filled.slice
  rw [parent, if_pos (Nat.succ_ne_zero _), Nat.add_sub_cancel, readAll, Option.bind_eq_bind,
    Option.bind_some, found]
  dsimp only
  rw [read, Option.bind_some, parentStack]
  split
  · rw [Parent.map, length]
  · rw [Parent.map, lowerLength]

/-- The search back through the output finds the component on top of the stack. -/
theorem parent_eq (filled : Filled dst k (text stack))
    (closed : ∀ p ∈ stack, Closed config.slashes p) :
    parent str config dst k =
      some ((parentStack config stack).map fun below => (text below).length) := by
  match stack, closed with
  | [], _ =>
      obtain rfl : 0 = k := filled.length
      rw [parent, if_neg (not_not.mpr rfl), parentStack]
      cases config.simple <;> rfl
  | [(name, close)], closed =>
      obtain ⟨clean, c, _, rfl⟩ := closed _ List.mem_cons_self
      exact parent_first clean filled
  | (name, close) :: (below, closeBelow) :: rest, closed =>
      obtain ⟨clean, c, _, rfl⟩ := closed _ List.mem_cons_self
      obtain ⟨_, d, separator, rfl⟩ := closed _ (List.mem_cons_of_mem _ List.mem_cons_self)
      exact parent_later clean separator filled

/-- Appending fails if the component and its separator do not fit. -/
theorem appendPart_tooLong {p : Piece Byte}
    (tooLong : dst.length < k + (p.1 ++ p.2.toList).length) :
    appendPart config dst k p.1 p.2 = some none := by
  obtain ⟨name, close⟩ := p
  refine if_pos ?_
  cases close <;> simpa [Nat.add_assoc] using tooLong

/-- Else the component stands behind the content. -/
theorem appendPart_fits {content : List Byte} (filled : Filled dst k content) {p : Piece Byte}
    (fits : k + (p.1 ++ p.2.toList).length ≤ dst.length) :
    ∃ after, appendPart config dst k p.1 p.2 =
        some (some (after, k + (p.1 ++ p.2.toList).length)) ∧
      Filled after (k + (p.1 ++ p.2.toList).length)
        (content ++ ((written config p).1 ++ (written config p).2.toList)) ∧
      after.length = dst.length := by
  obtain ⟨name, close⟩ := p
  cases close with
  | none =>
      simp only [Option.toList_none, List.append_nil] at fits
      obtain ⟨after, stored, filledAfter, length⟩ := filled.storeAll name [] (by simpa using fits)
      rw [List.append_nil] at stored
      refine ⟨after, ?_, ?_, length⟩
      · simp [appendPart, fits, stored]
      · simpa [written] using filledAfter
  | some c =>
      simp only [Option.toList_some, List.length_append, List.length_singleton] at fits
      obtain ⟨between, stored, filledBetween, lengthBetween⟩ :=
        filled.storeAll name [] (by simp only [List.append_nil]; omega)
      rw [List.append_nil] at stored
      obtain ⟨after, closed, filledAfter, length⟩ :=
        filledBetween.store (config.forced.getD c) (by rw [lengthBetween]; omega)
      refine ⟨after, ?_, ?_, length.trans lengthBetween⟩
      · simp [appendPart, fits, stored, closed, Nat.add_assoc]
      · simpa [written, Nat.add_assoc] using filledAfter

end Buffer

/-- The loop is where the walk is. -/
structure Follows (state : State) (position : Mode × Stack) : Prop where
  mode : state.mode = position.1
  filled : Filled state.dst state.k (text position.2)

section Loop

variable {str : Ffstr} {config : Settings} {state : State} {position : Mode × Stack}

/-- Where the component goes in the buffer, if the search back finds the top of the stack. -/
theorem place_eq_of_parent (follows : Follows state position) (p : Piece Byte)
    (back : p.1 = dotdot → parent str config state.dst state.k =
      some ((parentStack config position.2).map fun below => (text below).length)) :
    place str config state.dst state.k p.1 =
      some ((placed config position.2 p).map fun below => (text below).length) := by
  rw [place, placed]
  split
  next up => exact back up
  next => rw [Parent.map, follows.filled.length]

/-- An iteration is a step of the walk, unless the component does not fit. -/
theorem normalizeIteration_placed (follows : Follows state position) (p : Piece Byte)
    (back : p.1 = dotdot → parent str config state.dst state.k =
      some ((parentStack config position.2).map fun below => (text below).length)) :
    ∃ result, normalizeIteration str config state p.1 p.2 = some result ∧
      ((text position.2).length + (p.1 ++ p.2.toList).length ≤ state.dst.length →
        result ≠ none) ∧
      ∀ next ∈ result, Follows next (walkStep config position p) ∧
        next.dst.length = state.dst.length := by
  rw [normalizeIteration, follows.mode, admits_eq, Option.bind_eq_bind, Option.bind_some, walkStep]
  rcases admitted position.1 p.1 with ⟨goesOn | goesOn, mode⟩
  · refine ⟨_, rfl, fun _ => Option.some_ne_none _, ?_⟩
    intro next member
    rw [← Option.mem_some_iff.mp member]
    exact ⟨⟨rfl, follows.filled⟩, rfl⟩
  · simp only [if_true]
    rw [place_eq_of_parent follows p back, Option.bind_eq_bind, Option.bind_some, push]
    have lower := text_leads (place_placed config position.2 p)
    cases placement : placed config position.2 p with
    | skip below =>
        rw [placement] at lower
        refine ⟨_, rfl, fun _ => Option.some_ne_none _, ?_⟩
        intro next member
        rw [← Option.mem_some_iff.mp member]
        exact ⟨⟨rfl, rfl, lower.trans follows.filled.leads⟩, rfl⟩
    | append below =>
        rw [placement] at lower
        have filledBelow : Filled state.dst (text below).length (text below) :=
          ⟨rfl, lower.trans follows.filled.leads⟩
        simp only [Parent.map]
        by_cases fits : (text below).length + (p.1 ++ p.2.toList).length ≤ state.dst.length
        · obtain ⟨after, appended, filledAfter, length⟩ :=
            @appendPart_fits config _ _ _ filledBelow p fits
          refine ⟨_, by rw [appended]; rfl, fun _ => Option.some_ne_none _, ?_⟩
          intro next member
          rw [← Option.mem_some_iff.mp member]
          refine ⟨⟨rfl, ?_⟩, length⟩
          rw [Parent.settle_append, text_cons]
          exact filledAfter
        · refine ⟨none, by rw [appendPart_tooLong (Nat.lt_of_not_le fits)]; rfl, ?_, ?_⟩
          · intro room
            have shorter := lower.length_le
            rw [Parent.place] at shorter
            omega
          · exact fun next member => absurd member (Option.not_mem_none next)

/-! ### The whole loop -/

theorem normalizeLoop_closed {p : Piece Byte} (closed : Closed config.slashes p)
    (rest : List (Piece Byte)) :
    normalizeLoop str config (render (p :: rest)) state =
      (normalizeIteration str config state p.1 p.2).bind fun result =>
        result.elim (some none) (normalizeLoop str config (render rest)) := by
  obtain ⟨name, close⟩ := p
  obtain ⟨clean, c, separator, closes⟩ := closed
  obtain rfl : close = some c := closes
  have source : render ((name, some c) :: rest) = name ++ c :: render rest := by simp
  have nonempty : name ++ c :: render rest ≠ [] :=
    List.append_ne_nil_of_right_ne_nil name (List.cons_ne_nil c _)
  have read : (name ++ c :: render rest)[name.length]? = some c := by simp
  rw [source, normalizeLoop, if_neg nonempty,
    str.splitbyany_found name c (render rest) _ clean separator]
  simp only [read, Option.map_some, Option.bind_some]
  rcases normalizeIteration str config state name (some c) with _ | _ | next
  · rfl
  · rfl
  · rfl

theorem normalizeLoop_open {name : List Byte} (clean : Clean config.slashes name)
    (nonempty : name ≠ []) :
    normalizeLoop str config name state = normalizeIteration str config state name none := by
  rw [normalizeLoop, if_neg nonempty, str.splitbyany_none name _ clean]
  simp only [Option.bind_some]
  rcases normalizeIteration str config state name none with _ | _ | next
  · rfl
  · rfl
  · simp [normalizeLoop]

/-- The output grows by no more than what is read of the source. -/
theorem text_walkStep_length (config : Settings) (position : Mode × Stack) (p : Piece Byte) :
    (text (walkStep config position p).2).length ≤
      (text position.2).length + (p.1 ++ p.2.toList).length := by
  obtain ⟨below, lower, skipped | appended⟩ := walkStep_cases config position p
  · have shorter := (text_leads lower).length_le
    rw [skipped]
    omega
  · have shorter := (text_leads lower).length_le
    rw [appended, text_cons, List.length_append, written_length]
    omega

/-- Wherever the walk meets a `".."`, the search back through the output finds the component
on top of the stack. -/
def Backs (str : Ffstr) (config : Settings) (position : Mode × Stack)
    (ps : List (Piece Byte)) : Prop :=
  ∀ before p after, ps = before ++ p :: after → p.1 = dotdot →
    ∀ dst k, Filled dst k (text (walk config position before).2) →
      parent str config dst k = some ((parentStack config (walk config position before).2).map
        fun below => (text below).length)

theorem Backs.head {p : Piece Byte} {rest : List (Piece Byte)}
    (backs : Backs str config position (p :: rest)) (follows : Follows state position) :
    p.1 = dotdot → parent str config state.dst state.k =
      some ((parentStack config position.2).map fun below => (text below).length) :=
  fun up => backs [] p rest rfl up state.dst state.k follows.filled

theorem Backs.tail {p : Piece Byte} {rest : List (Piece Byte)}
    (backs : Backs str config position (p :: rest)) :
    Backs str config (walkStep config position p) rest := by
  intro before q after splits
  exact backs (p :: before) q after (by rw [splits, List.cons_append])

/-- The loop is the walk over the components of the source, unless a component does not
fit; with room for the whole source each one does. -/
theorem normalizeLoop_walk {ps : List (Piece Byte)} (well : WellParted config.slashes ps)
    (follows : Follows state position) (backs : Backs str config position ps) :
    ∃ result, normalizeLoop str config (render ps) state = some result ∧
      ((text position.2).length + (render ps).length ≤ state.dst.length → result ≠ none) ∧
      ∀ final ∈ result, Follows final (walk config position ps) ∧
        final.dst.length = state.dst.length := by
  induction well generalizing state position with
  | nil =>
      refine ⟨some state, by simp [normalizeLoop], fun _ => Option.some_ne_none _, ?_⟩
      intro final member
      rw [← Option.mem_some_iff.mp member]
      exact ⟨follows, rfl⟩
  | @opened name nonempty clean =>
      obtain ⟨result, iterated, room, next⟩ :=
        normalizeIteration_placed follows (name, none) (backs.head follows)
      have alone : render [((name, none) : Piece Byte)] = name := by simp
      rw [alone, normalizeLoop_open clean nonempty]
      exact ⟨result, iterated, by simpa using room, next⟩
  | @closed p rest closedPart _ inductionHypothesis =>
      obtain ⟨result, iterated, room, next⟩ :=
        normalizeIteration_placed follows p (backs.head follows)
      have size : (render (p :: rest)).length =
          (p.1 ++ p.2.toList).length + (render rest).length := by
        rw [render_cons, List.length_append]
      rw [normalizeLoop_closed closedPart rest, iterated, Option.bind_some, size]
      cases result with
      | none =>
          refine ⟨none, rfl, fun enough => absurd rfl (room (by omega)), ?_⟩
          exact fun final member => absurd member (Option.not_mem_none final)
      | some after =>
          obtain ⟨followsNext, length⟩ := next after rfl
          have shorter := text_walkStep_length config position p
          obtain ⟨result, looped, roomRest, final⟩ := inductionHypothesis followsNext backs.tail
          refine ⟨result, looped, fun enough => roomRest (by omega), ?_⟩
          intro last member
          obtain ⟨followsLast, lengthLast⟩ := final last member
          exact ⟨followsLast, lengthLast.trans length⟩

/-- With a separator of the splitting set the search back finds the top of the stack. -/
theorem backs_of_inSet (inSet : config.ForcedInSet) {ps : List (Piece Byte)}
    (well : WellParted config.slashes ps)
    (closed : ∀ p ∈ position.2, Closed config.slashes p) : Backs str config position ps := by
  induction well generalizing position with
  | nil => exact fun before p after splits => absurd splits.symm (by simp)
  | opened =>
      intro before p after splits _ dst k filled
      obtain rfl : before = [] := by
        cases before with
        | nil => rfl
        | cons q before => simp at splits
      exact parent_eq filled closed
  | @closed q rest closedPart _ inductionHypothesis =>
      intro before p after splits up dst k filled
      cases before with
      | nil => exact parent_eq filled closed
      | cons r before =>
          obtain ⟨rfl, splitsRest⟩ := List.cons.inj splits
          exact inductionHypothesis (walkStep_closed inSet closed closedPart) before p after
            splitsRest up dst k filled

end Loop

/-! ### The output -/

/-- Where the walk begins. -/
def start (config : Settings) : Mode × Stack := (⟨config.simple, config.disk && config.simple⟩, [])

/-- The stack at the end of the source. -/
def finalStack (config : Settings) (src : List Byte) : Stack :=
  (walk config (start config) (parts config.slashes src)).2

/-- What the function writes, given enough room. -/
def normalForm (config : Settings) (src : List Byte) : List Byte := text (finalStack config src)

section Output

variable {str : Ffstr} {win : Bool} {dst src out : List Byte} {flags : Flags}

theorem normalizeLoop_src
    (backs : Backs str (settings win flags) (start (settings win flags))
      (parts (settings win flags).slashes src)) :
    ∃ result, normalizeLoop str (settings win flags) src
        ⟨dst, 0, (start (settings win flags)).1⟩ = some result ∧
      (src.length ≤ dst.length → result ≠ none) ∧
      ∀ final ∈ result, Filled final.dst final.k (normalForm (settings win flags) src) := by
  have follows : Follows ⟨dst, 0, (start (settings win flags)).1⟩ (start (settings win flags)) :=
    ⟨rfl, .empty dst⟩
  obtain ⟨result, looped, room, final⟩ := normalizeLoop_walk (parts_wellParted _ src) follows backs
  rw [render_parts] at looped room
  refine ⟨result, looped, fun enough => room ?_, fun state member => (final state member).1.filled⟩
  simpa [start] using enough

/-- With room for the source the function writes the normal form. -/
theorem outputs_of_backs
    (backs : Backs str (settings win flags) (start (settings win flags))
      (parts (settings win flags).slashes src)) (fits : src.length ≤ dst.length) :
    Outputs str win dst src flags (normalForm (settings win flags) src) := by
  obtain ⟨result, looped, room, final⟩ := @normalizeLoop_src str win dst src flags backs
  obtain ⟨state, rfl⟩ := Option.ne_none_iff_exists'.mp (room fits)
  have filled := final state rfl
  refine ⟨state.dst, ?_, ?_⟩
  · rw [filled.length]
    exact congrArg (Option.map _) looped
  · rw [filled.length]
    exact filled

theorem backs_src (inSet : (settings win flags).ForcedInSet) :
    Backs str (settings win flags) (start (settings win flags))
      (parts (settings win flags).slashes src) :=
  backs_of_inSet inSet (parts_wellParted _ src) (List.forall_mem_nil _)

theorem outputs_of_fits (inSet : (settings win flags).ForcedInSet)
    (fits : src.length ≤ dst.length) :
    Outputs str win dst src flags (normalForm (settings win flags) src) :=
  outputs_of_backs (backs_src inSet) fits

/-- It never writes anything else. -/
theorem eq_of_outputs (inSet : (settings win flags).ForcedInSet)
    (outputs : Outputs str win dst src flags out) :
    out = normalForm (settings win flags) src := by
  obtain ⟨result, looped, _, final⟩ := @normalizeLoop_src str win dst src flags (backs_src inSet)
  obtain ⟨after, returned, filledOut⟩ := outputs
  have same : result.map (fun state => (state.dst, state.k)) = some (after, out.length) :=
    Option.some.inj ((congrArg (Option.map _) looped).symm.trans returned)
  obtain ⟨state, isState, pair⟩ := Option.map_eq_some_iff.mp same
  obtain ⟨rfl, size⟩ := Prod.mk.inj pair
  have filled := final state isState
  rw [← filledOut.take, ← size, filled.take]

end Output

/-- The components of the output. -/
theorem parts_normalForm {config : Settings} (inSet : config.ForcedInSet) (src : List Byte) :
    parts config.slashes (normalForm config src) = (finalStack config src).reverse :=
  parts_render (walk_wellParted inSet (parts_wellParted _ src) (List.forall_mem_nil _))

/-! ### Components behind the first one -/

/-- A component where empty ones and `"."` are skipped. -/
def component (config : Settings) (stack : Stack) (p : Piece Byte) : Stack :=
  if p.1 = [] ∨ p.1 = dot then stack else push config stack p

theorem walk_simplify (config : Settings) (stack : Stack) (ps : List (Piece Byte)) :
    walk config (⟨true, false⟩, stack) ps = (⟨true, false⟩, ps.foldl (component config) stack) := by
  induction ps generalizing stack with
  | nil => rfl
  | cons p rest inductionHypothesis =>
      have step : walkStep config (⟨true, false⟩, stack) p =
          (⟨true, false⟩, component config stack p) := by
        rw [walkStep, admitted, component]
        by_cases skipped : p.1 = [] ∨ p.1 = dot
        · simp [skipped]
        · simp [skipped]
      rw [walk, List.foldl_cons, step]
      exact inductionHypothesis (component config stack p)

/-- Without FFPATH_SIMPLE the first component goes on whatever it is. -/
theorem finalStack_of_not_simple {config : Settings} (full : config.simple = false)
    {src : List Byte} {p : Piece Byte} {rest : List (Piece Byte)}
    (components : parts config.slashes src = p :: rest) :
    finalStack config src = rest.foldl (component config) [written config p] := by
  have first : walkStep config (start config) p = (⟨true, false⟩, [written config p]) := by
    simp [walkStep, start, admitted, push, placed, parentStack, full]
  rw [finalStack, components, walk, List.foldl_cons, first]
  exact congrArg Prod.snd (walk_simplify config [written config p] rest)

theorem finalStack_of_simple {config : Settings} (simple : config.simple = true)
    (noDisk : config.disk = false) (src : List Byte) :
    finalStack config src = (parts config.slashes src).foldl (component config) [] := by
  have begins : start config = (⟨true, false⟩, []) := by rw [start, simple, noDisk]; rfl
  rw [finalStack, begins, walk_simplify]

end Ffos.Path
