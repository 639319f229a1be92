/-
Module: Ffos.Path.Canonical
Purpose: The outputs of `ffpath_normalize` are the paths of a grammar, and the paths of the
  grammar are its fixed points.
Trusted boundary: none
Main exports: IsName, Canonical, Shape, Shape.component, finalStack_shape,
  normalForm_canonical, normalForm_of_canonical, ffpathNormalize_canonical
-/
import Ffos.Path.Stack

namespace Ffos.Path

open Ffos.Lib

/-- A component that names a file or a directory. -/
structure IsName (name : List Byte) : Prop where
  nonempty : name ≠ []
  notDot : name ≠ dot
  notDotdot : name ≠ dotdot

theorem IsName.kept {name : List Byte} (isName : IsName name) : ¬ (name = [] ∨ name = dot) :=
  not_or.mpr ⟨isName.nonempty, isName.notDot⟩

theorem dotdot_kept : ¬ (dotdot = [] ∨ dotdot = dot) := by decide

/-- The grammar. A component stands here with the separator that closes it, and an empty one
behind the first would be two separators in a row. -/
structure Canonical (config : Settings) (path : List Byte) : Prop where
  later : ∀ p ∈ (parts config.slashes path).tail, p.1 ≠ [] ∧ p.1 ≠ dot
  leadingRun : ∃ count names,
    (parts config.slashes path).map Prod.fst = List.replicate count dotdot ++ names ∧
      dotdot ∉ names
  simple : config.simple = true → ∀ p ∈ parts config.slashes path, IsName p.1
  forced : ∀ c ∈ config.forced, ∀ p ∈ parts config.slashes path, ∀ d ∈ p.2, d = c

/-! ### What ".." does to each kind of stack -/

section Steps

variable {config : Settings} {p q : Piece Byte} {stack : Stack}

theorem component_skip (skipped : p.1 = [] ∨ p.1 = dot) : component config stack p = stack :=
  if_pos skipped

/-- A name goes on top. -/
theorem component_name (name : IsName p.1) :
    component config stack p = written config p :: stack := by
  rw [component, if_neg name.kept, push, placed, if_neg name.notDotdot, Parent.settle_append]

theorem component_dotdot (up : p.1 = dotdot) :
    component config stack p = (parentStack config stack).settle (written config p) := by
  have kept : ¬ (p.1 = [] ∨ p.1 = dot) := up ▸ dotdot_kept
  rw [component, if_neg kept, push, placed, if_pos up]

/-- It takes a name off, unless that is a drive at the bottom. -/
theorem component_dotdot_name (up : p.1 = dotdot) (name : IsName q.1) :
    component config (q :: stack) p =
      if stack = [] ∧ config.disk = true ∧ q.1.getLast? = some colon then [q] else stack := by
  rw [component_dotdot up]
  match stack with
  | [] =>
      rw [parentStack, if_neg name.notDot, if_neg name.notDotdot, if_neg name.nonempty]
      by_cases drive : config.disk = true ∧ q.1.getLast? = some colon
      · simp [drive]
      · simp [drive]
  | below :: rest =>
      have deeper : ¬ (below :: rest = [] ∧ config.disk = true ∧ q.1.getLast? = some colon) :=
        fun bottom => List.cons_ne_nil below rest bottom.1
      rw [parentStack, if_neg name.notDotdot, if_neg deeper, Parent.settle_skip]

/-- Above others it stands with them. -/
theorem component_dotdot_ups (up : p.1 = dotdot) (ups : ∀ q ∈ stack, q.1 = dotdot)
    (grows : stack = [] → config.simple = false) :
    component config stack p = written config p :: stack := by
  rw [component_dotdot up]
  match stack, ups, grows with
  | [], _, grows => simp [parentStack, grows rfl]
  | [q], ups, _ =>
      have isDotdot : q.1 = dotdot := ups q List.mem_cons_self
      have notDot : q.1 ≠ dot := by
        rw [isDotdot]
        decide
      rw [parentStack, if_neg notDot, if_pos isDotdot, Parent.settle_append]
  | q :: below :: rest, ups, _ =>
      rw [parentStack, if_pos (ups q List.mem_cons_self), Parent.settle_append]

/-- It does nothing at the root, -/
theorem component_dotdot_root (up : p.1 = dotdot) (root : q.1 = []) :
    component config [q] p = [q] := by
  have notDot : q.1 ≠ dot := by
    rw [root]
    decide
  have notDotdot : q.1 ≠ dotdot := by
    rw [root]
    decide
  rw [component_dotdot up, parentStack, if_neg notDot, if_neg notDotdot, if_pos root,
    Parent.settle_skip]

/-- it takes the place of a leading ".", -/
theorem component_dotdot_here (up : p.1 = dotdot) (here : q.1 = dot) :
    component config [q] p = [written config p] := by
  rw [component_dotdot up, parentStack, if_pos here, Parent.settle_append]

/-- and FFPATH_SIMPLE drops it at the beginning. -/
theorem component_dotdot_simple (up : p.1 = dotdot) (simple : config.simple = true) :
    component config [] p = [] := by
  simp [component_dotdot up, parentStack, simple]

theorem kinds (name : List Byte) : (name = [] ∨ name = dot) ∨ name = dotdot ∨ IsName name := by
  by_cases skipped : name = [] ∨ name = dot
  · exact .inl skipped
  · by_cases up : name = dotdot
    · exact .inr (.inl up)
    · rw [not_or] at skipped
      exact .inr (.inr ⟨skipped.1, skipped.2, up⟩)

end Steps

/-! ### The shape of the output -/

/-- What the names of an output stand on: the root, a leading ".", or a run of "..". -/
inductive Ground : Bool → Stack → Prop
  | root {p : Piece Byte} : p.1 = [] → Ground true [p]
  | here {p : Piece Byte} : p.1 = dot → Ground false [p]
  | ups {stack : Stack} : (∀ p ∈ stack, p.1 = dotdot) → Ground false stack

/-- The stacks without FFPATH_SIMPLE; `absolute` says that the root is at the bottom. -/
inductive Shape (absolute : Bool) : Stack → Prop
  | ground {stack : Stack} : Ground absolute stack → Shape absolute stack
  | name {p : Piece Byte} {stack : Stack} : IsName p.1 → Shape absolute stack →
      Shape absolute (p :: stack)

/-- The first component gives the shape. -/
theorem Shape.first (p : Piece Byte) : Shape (p.1 = []) [p] := by
  rcases kinds p.1 with (root | here) | up | name
  · rw [decide_eq_true root]
    exact .ground (.root root)
  · rw [decide_eq_false (by rw [here]; decide)]
    exact .ground (.here here)
  · rw [decide_eq_false (by rw [up]; decide)]
    exact .ground (.ups fun q member => List.mem_singleton.mp member ▸ up)
  · rw [decide_eq_false name.nonempty]
    exact .name name (.ground (.ups (List.forall_mem_nil _)))

/-- A component keeps the shape. -/
theorem Shape.component {config : Settings} (full : config.simple = false) {absolute : Bool}
    {stack : Stack} (shape : Shape absolute stack) (p : Piece Byte) :
    Shape absolute (component config stack p) := by
  rcases kinds p.1 with skipped | up | name
  · rw [component_skip skipped]
    exact shape
  · cases shape with
    | ground ground =>
        cases ground with
        | root root =>
            rw [component_dotdot_root up root]
            exact .ground (.root root)
        | here here =>
            rw [component_dotdot_here up here]
            exact .ground (.ups fun q member => List.mem_singleton.mp member ▸ up)
        | ups ups =>
            rw [component_dotdot_ups up ups fun _ => full]
            exact .ground (.ups (List.forall_mem_cons.mpr ⟨up, ups⟩))
    | @name q below isName lower =>
        rw [component_dotdot_name up isName]
        split
        next bottom =>
          rw [bottom.1] at lower
          exact .name isName lower
        next => exact lower
  · rw [component_name name]
    exact .name name shape

/-- With FFPATH_SIMPLE there are only names. -/
theorem names_component {config : Settings} (simple : config.simple = true) {stack : Stack}
    (names : ∀ q ∈ stack, IsName q.1) (p : Piece Byte) :
    ∀ q ∈ component config stack p, IsName q.1 := by
  rcases kinds p.1 with skipped | up | name
  · rw [component_skip skipped]
    exact names
  · cases stack with
    | nil =>
        rw [component_dotdot_simple up simple]
        exact names
    | cons q below =>
        obtain ⟨isName, lower⟩ := List.forall_mem_cons.mp names
        rw [component_dotdot_name up isName]
        split
        · exact fun r member => List.mem_singleton.mp member ▸ isName
        · exact lower
  · rw [component_name name]
    exact List.forall_mem_cons.mpr ⟨name, names⟩

theorem foldl_shape {config : Settings} (full : config.simple = false) {absolute : Bool}
    {stack : Stack} (shape : Shape absolute stack) (ps : List (Piece Byte)) :
    Shape absolute (ps.foldl (component config) stack) :=
  List.foldlRecOn ps _ shape fun _ before p _ => before.component full p

theorem foldl_names {config : Settings} (simple : config.simple = true) {stack : Stack}
    (names : ∀ q ∈ stack, IsName q.1) (ps : List (Piece Byte)) :
    ∀ q ∈ ps.foldl (component config) stack, IsName q.1 :=
  @List.foldlRecOn _ _ (fun stack : Stack => ∀ q ∈ stack, IsName q.1) ps _ _ names
    fun _ before p _ => names_component simple before p

/-! ### Outputs are canonical -/

theorem uniform_finalStack (config : Settings) (src : List Byte) :
    ∀ q ∈ finalStack config src, ∃ p, q = written config p := by
  refine @List.foldlRecOn _ _ (fun position : Mode × Stack =>
    ∀ q ∈ position.2, ∃ p, q = written config p) _ _ _ ?_ ?_
  · exact List.forall_mem_nil _
  · intro position before p _
    obtain ⟨below, lower, skipped | appended⟩ := walkStep_cases config position p
    · rw [skipped]
      exact fun q member => before q (lower.subset member)
    · rw [appended]
      exact List.forall_mem_cons.mpr ⟨⟨p, rfl⟩, fun q member => before q (lower.subset member)⟩

/-- The names of a stack of this shape, from the bottom: a run of "..", and none after it. -/
theorem Shape.names {absolute : Bool} {stack : Stack} (shape : Shape absolute stack) :
    (∀ p ∈ stack.reverse.tail, p.1 ≠ [] ∧ p.1 ≠ dot) ∧
      ∃ count names, stack.reverse.map Prod.fst = List.replicate count dotdot ++ names ∧
        dotdot ∉ names := by
  induction shape with
  | @ground stack ground =>
      cases ground with
      | root root =>
          refine ⟨List.forall_mem_nil _, 0, [[]], ?_, by decide⟩
          simp [root]
      | here here =>
          refine ⟨List.forall_mem_nil _, 0, [dot], ?_, by decide⟩
          simp [here]
      | ups ups =>
          have all : ∀ p ∈ stack.reverse, p.1 = dotdot := fun p member =>
            ups p (List.mem_reverse.mp member)
          refine ⟨?_, stack.length, [], ?_, List.not_mem_nil⟩
          · intro p member
            rw [all p (List.mem_of_mem_tail member)]
            decide
          · rw [List.append_nil, List.eq_replicate_iff]
            refine ⟨by simp, ?_⟩
            intro name member
            obtain ⟨p, inStack, rfl⟩ := List.mem_map.mp member
            exact all p inStack
  | @name p stack name _ inductionHypothesis =>
      obtain ⟨later, count, names, split, noDotdot⟩ := inductionHypothesis
      rw [List.reverse_cons]
      refine ⟨?_, count, names ++ [p.1], ?_, ?_⟩
      · intro q member
        rw [List.tail_append] at member
        split at member
        · exact absurd member List.not_mem_nil
        · rcases List.mem_append.mp member with inTail | isLast
          · exact later q inTail
          · rw [List.mem_singleton.mp isLast]
            exact ⟨name.nonempty, name.notDot⟩
      · rw [List.map_append, split, List.append_assoc]
        rfl
      · intro member
        rcases List.mem_append.mp member with inNames | isLast
        · exact noDotdot inNames
        · exact name.notDotdot (List.mem_singleton.mp isLast).symm

theorem written_uniform {config : Settings} {c : Byte} (forced : config.forced = some c)
    (p : Piece Byte) : ∀ d ∈ (written config p).2, d = c := by
  intro d member
  obtain ⟨_, _, rfl⟩ := Option.map_eq_some_iff.mp member
  rw [forced, Option.getD_some]

/-- The names of an output. -/
theorem finalStack_names {config : Settings} (notBoth : ¬ (config.simple ∧ config.disk))
    (src : List Byte) :
    (∀ p ∈ (finalStack config src).reverse.tail, p.1 ≠ [] ∧ p.1 ≠ dot) ∧
      (∃ count names, (finalStack config src).reverse.map Prod.fst =
        List.replicate count dotdot ++ names ∧ dotdot ∉ names) ∧
      (config.simple = true → ∀ p ∈ finalStack config src, IsName p.1) := by
  cases simple : config.simple with
  | false =>
      have shape : ∃ absolute, Shape absolute (finalStack config src) := by
        cases components : parts config.slashes src with
        | nil =>
            refine ⟨false, .ground (.ups ?_)⟩
            rw [finalStack, components]
            exact List.forall_mem_nil _
        | cons p rest =>
            rw [finalStack_of_not_simple simple components]
            exact ⟨_, foldl_shape simple (Shape.first (written config p)) rest⟩
      obtain ⟨absolute, shape⟩ := shape
      exact ⟨shape.names.1, shape.names.2, fun impossible => absurd impossible Bool.false_ne_true⟩
  | true =>
      have noDisk : config.disk = false := Bool.eq_false_iff.mpr fun disk => notBoth ⟨simple, disk⟩
      have names : ∀ p ∈ finalStack config src, IsName p.1 := by
        rw [finalStack_of_simple simple noDisk]
        exact foldl_names simple (List.forall_mem_nil _) _
      refine ⟨?_, ⟨0, (finalStack config src).reverse.map Prod.fst, rfl, ?_⟩, fun _ => names⟩
      · intro p member
        have name := names p (List.mem_reverse.mp (List.mem_of_mem_tail member))
        exact ⟨name.nonempty, name.notDot⟩
      · intro member
        obtain ⟨p, inStack, isDotdot⟩ := List.mem_map.mp member
        exact (names p (List.mem_reverse.mp inStack)).notDotdot isDotdot

theorem normalForm_canonical {config : Settings} (inSet : config.ForcedInSet)
    (notBoth : ¬ (config.simple ∧ config.disk)) (src : List Byte) :
    Canonical config (normalForm config src) := by
  obtain ⟨later, leadingRun, simple⟩ := finalStack_names notBoth src
  constructor
  · rw [parts_normalForm inSet]
    exact later
  · rw [parts_normalForm inSet]
    exact leadingRun
  · intro isSimple p member
    rw [parts_normalForm inSet, List.mem_reverse] at member
    exact simple isSimple p member
  · intro c forced p member
    rw [parts_normalForm inSet, List.mem_reverse] at member
    obtain ⟨q, rfl⟩ := uniform_finalStack config src p member
    exact written_uniform forced q

/-! ### Canonical paths are left as they are -/

theorem foldl_component_names {config : Settings} {ps : List (Piece Byte)}
    (names : ∀ p ∈ ps, IsName p.1) (uniform : ∀ p ∈ ps, written config p = p) (stack : Stack) :
    ps.foldl (component config) stack = ps.reverse ++ stack := by
  induction ps generalizing stack with
  | nil => rfl
  | cons p rest inductionHypothesis =>
      obtain ⟨name, namesRest⟩ := List.forall_mem_cons.mp names
      obtain ⟨same, sameRest⟩ := List.forall_mem_cons.mp uniform
      rw [List.foldl_cons, component_name name, same, inductionHypothesis namesRest sameRest,
        List.reverse_cons, List.append_assoc]
      rfl

theorem foldl_component_ups {config : Settings} (full : config.simple = false)
    {ps : List (Piece Byte)} (ups : ∀ p ∈ ps, p.1 = dotdot)
    (uniform : ∀ p ∈ ps, written config p = p) {stack : Stack}
    (lower : ∀ q ∈ stack, q.1 = dotdot) :
    ps.foldl (component config) stack = ps.reverse ++ stack := by
  induction ps generalizing stack with
  | nil => rfl
  | cons p rest inductionHypothesis =>
      obtain ⟨up, upsRest⟩ := List.forall_mem_cons.mp ups
      obtain ⟨same, sameRest⟩ := List.forall_mem_cons.mp uniform
      rw [List.foldl_cons, component_dotdot_ups up lower fun _ => full, same,
        inductionHypothesis upsRest sameRest (List.forall_mem_cons.mpr ⟨up, lower⟩),
        List.reverse_cons, List.append_assoc]
      rfl

/-- Behind the first component of a canonical path: more of the run it begins, then names. -/
theorem Canonical.behind {config : Settings} {path : List Byte}
    (canonical : Canonical config path) {p : Piece Byte} {rest : List (Piece Byte)}
    (components : parts config.slashes path = p :: rest) :
    ∃ ups names, rest = ups ++ names ∧ (∀ q ∈ ups, q.1 = dotdot) ∧ (∀ q ∈ names, IsName q.1) ∧
      (ups ≠ [] → p.1 = dotdot) := by
  obtain ⟨count, names, run, noDotdot⟩ := canonical.leadingRun
  have later := canonical.later
  rw [components] at run later
  have isName : ∀ q ∈ rest, q.1 ∈ names → IsName q.1 := fun q member inNames =>
    ⟨(later q member).1, (later q member).2, fun isDotdot => noDotdot (isDotdot ▸ inNames)⟩
  obtain ⟨upParts, nameParts, whole, isRun, isNames⟩ := List.map_eq_append_iff.mp run
  have inNames : ∀ q ∈ nameParts, q.1 ∈ names := fun q member =>
    isNames ▸ List.mem_map_of_mem member
  have up : ∀ q ∈ upParts, q.1 = dotdot := fun q member =>
    List.eq_of_mem_replicate (isRun ▸ List.mem_map_of_mem member)
  cases upParts with
  | nil =>
      refine ⟨[], rest, rfl, List.forall_mem_nil _, ?_,
        fun impossible => absurd rfl impossible⟩
      intro q member
      refine isName q member (inNames q ?_)
      rw [← List.nil_append nameParts, ← whole]
      exact List.mem_cons_of_mem p member
  | cons q ups =>
      obtain ⟨rfl, rfl⟩ := List.cons.inj whole
      obtain ⟨first, others⟩ := List.forall_mem_cons.mp up
      refine ⟨ups, nameParts, rfl, others, ?_, fun _ => first⟩
      exact fun r member => isName r (List.mem_append_right ups member) (inNames r member)

/-- Nothing is written another way than it stands. -/
theorem Canonical.uniform {config : Settings} {path : List Byte}
    (canonical : Canonical config path) :
    ∀ p ∈ parts config.slashes path, written config p = p := by
  intro p member
  obtain ⟨name, close⟩ := p
  cases forced : config.forced with
  | none => simp [written, forced]
  | some c =>
      cases close with
      | none => rfl
      | some d =>
          have same := canonical.forced c forced _ member d rfl
          simp [written, forced, same]

theorem finalStack_of_canonical {config : Settings} (notBoth : ¬ (config.simple ∧ config.disk))
    {path : List Byte} (canonical : Canonical config path) :
    (finalStack config path).reverse = parts config.slashes path := by
  have uniform := canonical.uniform
  cases simple : config.simple with
  | true =>
      have noDisk : config.disk = false := Bool.eq_false_iff.mpr fun disk => notBoth ⟨simple, disk⟩
      rw [finalStack_of_simple simple noDisk,
        foldl_component_names (canonical.simple simple) uniform, List.append_nil,
        List.reverse_reverse]
  | false =>
      cases components : parts config.slashes path with
      | nil => rw [finalStack, components]; rfl
      | cons p rest =>
          obtain ⟨ups, names, rfl, up, isName, runs⟩ := canonical.behind components
          rw [components] at uniform
          obtain ⟨same, sameRest⟩ := List.forall_mem_cons.mp uniform
          have sameUps : ∀ q ∈ ups, written config q = q := fun q member =>
            sameRest q (List.mem_append_left names member)
          have sameNames : ∀ q ∈ names, written config q = q := fun q member =>
            sameRest q (List.mem_append_right ups member)
          have run : ups.foldl (component config) [p] = ups.reverse ++ [p] := by
            cases ups with
            | nil => rfl
            | cons q ups =>
                refine foldl_component_ups simple up sameUps ?_
                exact fun r member => List.mem_singleton.mp member ▸ runs (List.cons_ne_nil q ups)
          rw [finalStack_of_not_simple simple components, same, List.foldl_append, run,
            foldl_component_names isName sameNames]
          simp

theorem normalForm_of_canonical {config : Settings} (notBoth : ¬ (config.simple ∧ config.disk))
    {path : List Byte} (canonical : Canonical config path) : normalForm config path = path := by
  rw [normalForm, text, finalStack_of_canonical notBoth canonical, render_parts]

/-- Where a forced separator belongs to the splitting set and not both FFPATH_SIMPLE and the
drive letters are on, with room for the source: the output is canonical, a canonical source is
returned as it is, and normalizing the output again, in any buffer with room for it, returns
the output. -/
theorem ffpathNormalize_canonical (str : Ffstr) (win : Bool) (dst src : List Byte)
    (flags : Flags) (inSet : (settings win flags).ForcedInSet)
    (notBoth : ¬ ((settings win flags).simple ∧ (settings win flags).disk))
    (fits : src.length ≤ dst.length) :
    ∃ out, Outputs str win dst src flags out ∧ Canonical (settings win flags) out ∧
      (Canonical (settings win flags) src → out = src) ∧
      ∀ again : List Byte, out.length ≤ again.length → Outputs str win again out flags out := by
  have canonical := normalForm_canonical inSet notBoth src
  refine ⟨_, outputs_of_fits inSet fits, canonical, normalForm_of_canonical notBoth, ?_⟩
  intro again room
  have outputs := @outputs_of_fits str _ _ _ _ inSet room
  rw [normalForm_of_canonical notBoth canonical] at outputs
  exact outputs

/-- The path `a//b/../c`. -/
theorem ffpathNormalize_canonical_relative :
    ∃ out, Outputs .scanning false (List.replicate 9 0)
        [0x61, 0x2f, 0x2f, 0x62, 0x2f, 0x2e, 0x2e, 0x2f, 0x63] 0 out ∧
      Canonical (settings false 0) out ∧
      (Canonical (settings false 0) [0x61, 0x2f, 0x2f, 0x62, 0x2f, 0x2e, 0x2e, 0x2f, 0x63] →
        out = [0x61, 0x2f, 0x2f, 0x62, 0x2f, 0x2e, 0x2e, 0x2f, 0x63]) ∧
      ∀ again : List Byte, out.length ≤ again.length →
        Outputs .scanning false again out 0 out :=
  ffpathNormalize_canonical .scanning false _ _ 0 (by decide) (by decide) (by decide)

end Ffos.Path
