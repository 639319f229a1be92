/-
Module: Ffos.Path.Resolution
Purpose: What a path means against a stack of directory names, and that
  `ffpath_normalize` keeps it.
Trusted boundary: none
Main exports: resolveComponent, resolve, BeginsWithSeparator, resolved_component,
  ffpathNormalize_resolve
-/
import Ffos.Path.Canonical

namespace Ffos.Path

open Ffos.Lib

/-! ### Lexical resolution -/

/-- One component on a stack of directory names, the last one first. -/
def resolveComponent (names : List (List Byte)) (name : List Byte) : List (List Byte) :=
  if name = [] ∨ name = dot then names
  else if name = dotdot then names.tail
  else name :: names

def BeginsWithSeparator (slashes path : List Byte) : Prop :=
  ∃ c ∈ slashes, path.head? = some c

instance (slashes path : List Byte) : Decidable (BeginsWithSeparator slashes path) :=
  inferInstanceAs (Decidable (∃ c ∈ slashes, path.head? = some c))

/-- The first component tells. -/
theorem beginsWithSeparator_iff (slashes path : List Byte) :
    BeginsWithSeparator slashes path ↔ (parts slashes path).head?.map Prod.fst = some [] := by
  rw [← head?_render_mem_iff slashes (parts_wellParted slashes path), render_parts]
  rfl

/-- Where a path starts: at the root if it begins with a separator. -/
def origin (slashes : List Byte) (base : List (List Byte)) (path : List Byte) :
    List (List Byte) :=
  if BeginsWithSeparator slashes path then [] else base

/-- The path against a base stack. -/
def resolve (slashes : List Byte) (base : List (List Byte)) (path : List Byte) :
    List (List Byte) :=
  ((parts slashes path).map Prod.fst).foldl resolveComponent (origin slashes base path)

theorem resolveComponent_skip {names : List (List Byte)} {name : List Byte}
    (skipped : name = [] ∨ name = dot) : resolveComponent names name = names :=
  if_pos skipped

theorem resolveComponent_dotdot (names : List (List Byte)) :
    resolveComponent names dotdot = names.tail := by
  rw [resolveComponent, if_neg dotdot_kept, if_pos rfl]

theorem resolveComponent_name {names : List (List Byte)} {name : List Byte}
    (isName : IsName name) : resolveComponent names name = name :: names := by
  rw [resolveComponent, if_neg isName.kept, if_neg isName.notDotdot]

/-! ### The walk keeps the meaning -/

/-- What the components of a stack mean from an origin. -/
def resolved (beginning : List (List Byte)) (stack : Stack) : List (List Byte) :=
  (stack.reverse.map Prod.fst).foldl resolveComponent beginning

theorem resolved_cons (beginning : List (List Byte)) (p : Piece Byte) (stack : Stack) :
    resolved beginning (p :: stack) = resolveComponent (resolved beginning stack) p.1 := by
  rw [resolved, List.reverse_cons, List.map_append, List.foldl_append]
  rfl

/-- A component does to the meaning of the output what it does to the meaning of the source. -/
theorem resolved_component {config : Settings} (full : config.simple = false)
    (noDisk : config.disk = false) {absolute : Bool} {stack : Stack} (shape : Shape absolute stack)
    {beginning : List (List Byte)} (fromRoot : absolute = true → beginning = []) (p : Piece Byte) :
    resolved beginning (component config stack p) =
      resolveComponent (resolved beginning stack) p.1 := by
  rcases kinds p.1 with skipped | up | name
  · rw [component_skip skipped, resolveComponent_skip skipped]
  · rw [up, resolveComponent_dotdot]
    cases shape with
    | ground ground =>
        cases ground with
        | root root =>
            rw [component_dotdot_root up root, resolved_cons, resolveComponent_skip (.inl root)]
            rw [resolved, fromRoot rfl]
            rfl
        | here here =>
            rw [component_dotdot_here up here, resolved_cons, resolved_cons, written, up,
              resolveComponent_dotdot, resolveComponent_skip (.inr here)]
        | ups ups =>
            rw [component_dotdot_ups up ups fun _ => full, resolved_cons, written, up,
              resolveComponent_dotdot]
    | @name q below isName _ =>
        have noDrive : ¬ (below = [] ∧ config.disk = true ∧ q.1.getLast? = some colon) := by
          rintro ⟨-, disk, -⟩
          exact absurd (noDisk.symm.trans disk) Bool.false_ne_true
        rw [component_dotdot_name up isName, if_neg noDrive, resolved_cons,
          resolveComponent_name isName, List.tail_cons]
  · rw [component_name name, resolved_cons, written]

theorem resolved_foldl {config : Settings} (full : config.simple = false)
    (noDisk : config.disk = false) {absolute : Bool} {stack : Stack} (shape : Shape absolute stack)
    {beginning : List (List Byte)} (fromRoot : absolute = true → beginning = [])
    (ps : List (Piece Byte)) :
    resolved beginning (ps.foldl (component config) stack) =
      (ps.map Prod.fst).foldl resolveComponent (resolved beginning stack) := by
  induction ps generalizing stack with
  | nil => rfl
  | cons p rest inductionHypothesis =>
      rw [List.foldl_cons, inductionHypothesis (shape.component full p), List.map_cons,
        List.foldl_cons, resolved_component full noDisk shape fromRoot]

/-- The root is at the bottom of the absolute stacks. -/
theorem Shape.bottom {absolute : Bool} {stack : Stack} (shape : Shape absolute stack) :
    stack.getLast?.map Prod.fst = some [] ↔ absolute = true := by
  induction shape with
  | ground ground =>
      cases ground with
      | root root => simp [root]
      | here here =>
          simp only [List.getLast?_singleton, Option.map_some, here]
          decide
      | ups ups =>
          refine iff_of_false ?_ Bool.false_ne_true
          intro root
          obtain ⟨p, isLast, isRoot⟩ := Option.map_eq_some_iff.mp root
          rw [ups p (List.mem_of_getLast? isLast)] at isRoot
          exact absurd isRoot (by decide)
  | @name p stack name lower inductionHypothesis =>
      cases stack with
      | nil =>
          have relative : absolute ≠ true := fun isAbsolute =>
            absurd (inductionHypothesis.mpr isAbsolute) (by simp)
          exact iff_of_false (fun root => name.nonempty (Option.some.inj root)) relative
      | cons q below =>
          rw [List.getLast?_cons_cons]
          exact inductionHypothesis

section NormalForm

variable {config : Settings} (inSet : config.ForcedInSet) (full : config.simple = false)
  (src : List Byte)

include inSet full

theorem beginsWithSeparator_normalForm :
    BeginsWithSeparator config.slashes (normalForm config src) ↔
      BeginsWithSeparator config.slashes src := by
  rw [beginsWithSeparator_iff, beginsWithSeparator_iff, parts_normalForm inSet,
    List.head?_reverse]
  cases components : parts config.slashes src with
  | nil => rw [finalStack, components]; rfl
  | cons p rest =>
      rw [finalStack_of_not_simple full components,
        (foldl_shape full (Shape.first (written config p)) rest).bottom, decide_eq_true_iff]
      simp [written]

theorem resolve_normalForm (noDisk : config.disk = false) (base : List (List Byte)) :
    resolve config.slashes base (normalForm config src) = resolve config.slashes base src := by
  have sameOrigin := beginsWithSeparator_normalForm inSet full src
  have same : origin config.slashes base (normalForm config src) =
      origin config.slashes base src := if_congr sameOrigin rfl rfl
  rw [resolve, resolve, same, parts_normalForm inSet]
  cases components : parts config.slashes src with
  | nil => rw [finalStack, components]; rfl
  | cons p rest =>
      have fromRoot : decide ((written config p).1 = []) = true →
          origin config.slashes base src = [] := by
        intro root
        refine if_pos ((beginsWithSeparator_iff _ _).mpr ?_)
        rw [components]
        exact congrArg some (of_decide_eq_true root)
      rw [finalStack_of_not_simple full components]
      exact resolved_foldl full noDisk (Shape.first (written config p)) fromRoot rest

end NormalForm

/-- Without FFPATH_SIMPLE and drive letters, with a forced separator of the splitting set and
room for the source, the output means what the source means and is absolute if the source
is. -/
theorem ffpathNormalize_resolve (str : Ffstr) (win : Bool) (dst src : List Byte) (flags : Flags)
    (full : (settings win flags).simple = false) (noDisk : (settings win flags).disk = false)
    (inSet : (settings win flags).ForcedInSet) (fits : src.length ≤ dst.length) :
    ∃ out, Outputs str win dst src flags out ∧
      (∀ base, resolve (settings win flags).slashes base out =
        resolve (settings win flags).slashes base src) ∧
      (BeginsWithSeparator (settings win flags).slashes out ↔
        BeginsWithSeparator (settings win flags).slashes src) :=
  ⟨_, outputs_of_fits inSet fits, resolve_normalForm inSet full src noDisk,
    beginsWithSeparator_normalForm inSet full src⟩

/-- The path `../a/../../b`. -/
theorem ffpathNormalize_resolve_parents :
    ∃ out, Outputs .scanning false (List.replicate 12 0)
        [0x2e, 0x2e, 0x2f, 0x61, 0x2f, 0x2e, 0x2e, 0x2f, 0x2e, 0x2e, 0x2f, 0x62] 0 out ∧
      (∀ base, resolve [slash] base out = resolve [slash] base
        [0x2e, 0x2e, 0x2f, 0x61, 0x2f, 0x2e, 0x2e, 0x2f, 0x2e, 0x2e, 0x2f, 0x62]) ∧
      (BeginsWithSeparator [slash] out ↔ BeginsWithSeparator [slash]
        [0x2e, 0x2e, 0x2f, 0x61, 0x2f, 0x2e, 0x2e, 0x2f, 0x2e, 0x2e, 0x2f, 0x62]) :=
  ffpathNormalize_resolve .scanning false _ _ 0 (by decide) (by decide) (by decide) (by decide)

end Ffos.Path
