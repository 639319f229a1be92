/-
Module: Ffos.Path.Contained
Purpose: When FFPATH_SIMPLE with drive letters gives a path that stays below the directory it
  is appended to.
Trusted boundary: none
Main exports: Contained, dropDrive, frontDrive, finalStack_skipDisk, Sticky,
  getLast?_component_sticky, foldl_bottom, ffpathAbs_render, ffpathNormalize_contained_iff
-/
import Ffos.Path.Resolution

namespace Ffos.Path

open Ffos.Lib

/-- The path is relative, its components are names, and appended to a directory it names
something inside. -/
structure Contained (path : List Byte) : Prop where
  relative : ffpathAbs path = false
  names : ∀ p ∈ parts [slash, backslash] path, IsName p.1
  inside : ∀ base, base <:+ resolve [slash, backslash] base path

/-! ### The drive that is looked for once -/

/-- The components without the drive that FFPATH_SIMPLE skips: the first one that is not
empty or ".", if it ends in ':'. -/
def dropDrive : List (Piece Byte) → List (Piece Byte)
  | [] => []
  | p :: rest =>
      if p.1 = [] ∨ p.1 = dot then dropDrive rest
      else if p.1.getLast? = some colon then rest
      else p :: rest

/-- The first component ending in ':' that is met where the output is empty: `depth` counts
the names, and a ".." takes one off if there is one. -/
def frontDrive : Nat → List (Piece Byte) → Option (List Byte)
  | _, [] => none
  | depth, p :: rest =>
      if p.1 = [] ∨ p.1 = dot then frontDrive depth rest
      else if p.1 = dotdot then frontDrive (depth - 1) rest
      else if depth = 0 ∧ p.1.getLast? = some colon then some p.1
      else frontDrive (depth + 1) rest

theorem walk_skipDisk (config : Settings) (ps : List (Piece Byte)) :
    (walk config (⟨true, true⟩, []) ps).2 = (dropDrive ps).foldl (component config) [] := by
  induction ps with
  | nil => rfl
  | cons p rest inductionHypothesis =>
      rw [walk, List.foldl_cons, walkStep, admitted, dropDrive]
      by_cases skipped : p.1 = [] ∨ p.1 = dot
      · simp only [skipped, if_true]
        exact inductionHypothesis
      · by_cases drive : p.1.getLast? = some colon
        · simp only [skipped, drive, if_true, if_false]
          exact congrArg Prod.snd (walk_simplify config [] rest)
        · have kept : component config [] p = push config [] p := if_neg skipped
          simp only [skipped, drive, if_true, if_false, List.foldl_cons, kept, ne_eq,
            not_false_eq_true, decide_true]
          exact congrArg Prod.snd (walk_simplify config (push config [] p) rest)

theorem finalStack_skipDisk {config : Settings} (simple : config.simple = true)
    (disk : config.disk = true) (src : List Byte) :
    finalStack config src =
      (dropDrive (parts config.slashes src)).foldl (component config) [] := by
  have begins : start config = (⟨true, true⟩, []) := by rw [start, simple, disk]; rfl
  rw [finalStack, begins, walk_skipDisk]

/-! ### What stands first in the output -/

section Bottom

variable {config : Settings} {stack : Stack}

/-- What stands first does not end in ':'. -/
def Free (stack : Stack) : Prop := ∀ bottom ∈ stack.getLast?, bottom.1.getLast? ≠ some colon

theorem Free.nil : Free [] := fun _ member => absurd member (Option.not_mem_none _)

theorem free_cons_cons {p q : Piece Byte} {below : Stack} :
    Free (p :: q :: below) ↔ Free (q :: below) := by
  rw [Free, Free, List.getLast?_cons_cons]

/-- A component that no ".." takes away once it stands first: the root, a ".." and what ends
in ':'. -/
def Sticky (name : List Byte) : Prop := name = [] ∨ name = dotdot ∨ name.getLast? = some colon

/-- It is still there after a ".." . -/
theorem getLast?_parentStack_sticky (disk : config.disk = true)
    {bottom : Piece Byte} (last : stack.getLast? = some bottom)
    (sticky : Sticky bottom.1) (p : Piece Byte) :
    ((parentStack config stack).settle p).getLast? = some bottom := by
  match stack, last with
  | [], last => exact absurd last (by simp)
  | [q], last =>
      obtain rfl : q = bottom := Option.some.inj last
      rcases sticky with root | up | drive
      · simp [parentStack, root, dot, dotdot]
      · simp [parentStack, up, dot, dotdot]
      · have notDot : q.1 ≠ dot := fun same => by simp [same, dot, colon] at drive
        have notDotdot : q.1 ≠ dotdot := fun same => by simp [same, dotdot, colon] at drive
        have notRoot : q.1 ≠ [] := fun same => by simp [same] at drive
        rw [parentStack, if_neg notDot, if_neg notDotdot, if_neg notRoot, if_pos ⟨disk, drive⟩]
        rfl
  | q :: r :: below, last =>
      rw [List.getLast?_cons_cons] at last
      rw [parentStack]
      split
      · rw [Parent.settle_append, List.getLast?_cons_cons, List.getLast?_cons_cons]
        exact last
      · exact last

theorem getLast?_component_sticky (disk : config.disk = true)
    {bottom : Piece Byte} (last : stack.getLast? = some bottom)
    (sticky : Sticky bottom.1) (p : Piece Byte) :
    (component config stack p).getLast? = some bottom := by
  rcases kinds p.1 with skipped | up | name
  · rw [component_skip skipped]
    exact last
  · rw [component_dotdot up]
    exact getLast?_parentStack_sticky disk last sticky _
  · rw [component_name name, List.getLast?_cons, last]
    rfl

theorem getLast?_foldl_sticky (disk : config.disk = true)
    {bottom : Piece Byte} (last : stack.getLast? = some bottom) (sticky : Sticky bottom.1)
    (ps : List (Piece Byte)) : (ps.foldl (component config) stack).getLast? = some bottom := by
  induction ps generalizing stack with
  | nil => exact last
  | cons p rest inductionHypothesis =>
      exact inductionHypothesis (getLast?_component_sticky disk last sticky p)

/-- A ".." takes one name off a stack without a drive. -/
theorem component_dotdot_free (simple : config.simple = true) (names : ∀ q ∈ stack, IsName q.1)
    (free : Free stack) {p : Piece Byte} (up : p.1 = dotdot) :
    component config stack p = stack.tail := by
  cases stack with
  | nil => exact component_dotdot_simple up simple
  | cons q below =>
      refine (component_dotdot_name up (names q List.mem_cons_self)).trans (if_neg ?_)
      rintro ⟨rfl, -, drive⟩
      exact free q rfl drive

theorem Free.tail (free : Free stack) : Free stack.tail := by
  match stack with
  | [] => exact .nil
  | [_] => exact .nil
  | _ :: _ :: _ => exact free_cons_cons.mp free

theorem Free.push (free : Free stack) {p : Piece Byte}
    (inside : ¬ (stack.length = 0 ∧ p.1.getLast? = some colon)) :
    Free (written config p :: stack) := by
  cases stack with
  | nil =>
      intro bottom member
      obtain rfl : written config p = bottom := Option.some.inj member
      exact fun drive => inside ⟨rfl, drive⟩
  | cons q below => exact free_cons_cons.mpr free

/-- What stands first at the end ends in ':' only if it is the component found above. -/
theorem foldl_bottom (simple : config.simple = true) (disk : config.disk = true)
    (names : ∀ q ∈ stack, IsName q.1) (free : Free stack) (ps : List (Piece Byte)) :
    match frontDrive stack.length ps with
    | none => Free (ps.foldl (component config) stack)
    | some name => (ps.foldl (component config) stack).getLast?.map Prod.fst = some name := by
  induction ps generalizing stack with
  | nil => exact free
  | cons p rest inductionHypothesis =>
      have namesNext := @names_component config simple stack names p
      rw [frontDrive, List.foldl_cons]
      rcases kinds p.1 with skipped | up | name
      · rw [if_pos skipped, component_skip skipped]
        exact inductionHypothesis names free
      · have kept : ¬ (p.1 = [] ∨ p.1 = dot) := up ▸ dotdot_kept
        have off := component_dotdot_free simple names free up
        rw [off] at namesNext
        rw [if_neg kept, if_pos up, off, ← List.length_tail]
        exact inductionHypothesis namesNext free.tail
      · rw [if_neg name.kept, if_neg name.notDotdot]
        rw [component_name name] at namesNext ⊢
        by_cases front : stack.length = 0 ∧ p.1.getLast? = some colon
        · have last : (written config p :: stack).getLast? = some (written config p) := by
            rw [List.length_eq_zero_iff.mp front.1]
            rfl
          rw [if_pos front]
          dsimp only
          rw [getLast?_foldl_sticky disk last (.inr (.inr front.2)) rest]
          rfl
        · rw [if_neg front]
          exact inductionHypothesis namesNext (free.push front)

end Bottom

/-! ### Absolute outputs -/

theorem separator_ne_colon {c : Byte} (separator : c ∈ [slash, backslash]) : c ≠ colon := by
  rintro rfl
  revert separator
  decide

/-- Whether a path that begins with a component is absolute depends on that component. -/
theorem ffpathAbs_append {name : List Byte} (nonempty : name ≠ []) {c : Byte}
    (separator : c ∈ [slash, backslash]) (rest : List Byte) :
    ffpathAbs (name ++ c :: rest) = ffpathAbs name := by
  have closes : c = slash ∨ c = backslash := by simpa using separator
  match name, nonempty with
  | [x], _ => simp [ffpathAbs, separator_ne_colon separator]
  | [x, y], _ => simp [ffpathAbs, closes]
  | x :: y :: z :: more, _ => simp [ffpathAbs]

theorem ffpathAbs_render {p : Piece Byte} {rest : List (Piece Byte)}
    (well : WellParted [slash, backslash] (p :: rest)) (nonempty : p.1 ≠ []) :
    ffpathAbs (render (p :: rest)) = ffpathAbs p.1 := by
  cases well with
  | opened _ _ => simp
  | closed first _ =>
      obtain ⟨_, c, separator, closes⟩ := first
      rw [render_cons, closes, Option.toList_some, List.append_assoc, List.singleton_append]
      exact ffpathAbs_append nonempty separator (render rest)

/-- An absolute component is a drive, so it ends in ':'. -/
theorem getLast?_of_ffpathAbs {name : List Byte} (clean : Clean [slash, backslash] name)
    (absolute : ffpathAbs name = true) : name.getLast? = some colon := by
  match name with
  | [] => exact absurd absolute (by decide)
  | [x] =>
      have other : ¬ (x = slash ∨ x = backslash) := by simpa using clean x List.mem_cons_self
      simp [ffpathAbs, other] at absolute
  | [x, y] =>
      have other : ¬ (x = slash ∨ x = backslash) := by simpa using clean x List.mem_cons_self
      simp [ffpathAbs, other] at absolute
      simp [absolute]
  | x :: y :: z :: more =>
      have other : ¬ (x = slash ∨ x = backslash) := by simpa using clean x List.mem_cons_self
      have third : ¬ (z = slash ∨ z = backslash) := by simpa using clean z (by simp)
      simp [ffpathAbs, other, third] at absolute

/-! ### The contract -/

theorem forcedInSet_both {win : Bool} {flags : Flags}
    (both : (settings win flags).slashes = [slash, backslash]) :
    (settings win flags).ForcedInSet := by
  intro c forced
  rw [both]
  simp only [settings] at forced
  generalize (if win ∧ flags &&& (diskLetter ||| noDiskLetter) = 0 then flags ||| diskLetter
    else flags) = adjusted at forced
  split_ifs at forced
  · rw [← Option.some.inj forced]
    exact List.mem_cons_self
  · rw [← Option.some.inj forced]
    exact List.mem_cons_of_mem _ List.mem_cons_self
  · exact absurd forced (Option.not_mem_none c)

section Simple

variable {config : Settings} (both : config.slashes = [slash, backslash])
  (inSet : config.ForcedInSet) (simple : config.simple = true) (disk : config.disk = true)
  (src : List Byte)

include simple disk

theorem finalStack_names_simple : ∀ p ∈ finalStack config src, IsName p.1 := by
  rw [finalStack_skipDisk simple disk]
  exact foldl_names simple (List.forall_mem_nil _) _

include both inSet

theorem normalForm_names : ∀ p ∈ parts [slash, backslash] (normalForm config src), IsName p.1 := by
  intro p member
  rw [← both, parts_normalForm inSet, List.mem_reverse] at member
  exact finalStack_names_simple simple disk src p member

/-- The output is absolute if the component found above is. -/
theorem ffpathAbs_normalForm :
    ffpathAbs (normalForm config src) =
      ((frontDrive 0 (dropDrive (parts [slash, backslash] src))).map ffpathAbs).getD false := by
  have bottom := @foldl_bottom config [] simple disk
    (List.forall_mem_nil _) .nil (dropDrive (parts config.slashes src))
  rw [← finalStack_skipDisk simple disk, both] at bottom
  have well := parts_wellParted [slash, backslash] (normalForm config src)
  have names := normalForm_names both inSet simple disk src
  have front : (finalStack config src).getLast? =
      (parts [slash, backslash] (normalForm config src)).head? := by
    rw [← both, parts_normalForm inSet, List.head?_reverse]
  rw [Free, front] at bottom
  rw [← render_parts [slash, backslash] (normalForm config src)]
  cases components : parts [slash, backslash] (normalForm config src) with
  | nil =>
      rw [components] at bottom
      cases drive : frontDrive 0 (dropDrive (parts [slash, backslash] src)) with
      | none => rfl
      | some name => simp [drive] at bottom
  | cons p rest =>
      rw [components] at bottom well names
      rw [ffpathAbs_render well (names p List.mem_cons_self).nonempty]
      cases drive : frontDrive 0 (dropDrive (parts [slash, backslash] src)) with
      | none =>
          simp only [List.length_nil, drive] at bottom
          refine Bool.eq_false_iff.mpr fun absolute => bottom p rfl ?_
          exact getLast?_of_ffpathAbs (well.clean _ p List.mem_cons_self) absolute
      | some name =>
          simp only [List.length_nil, drive] at bottom
          rw [Option.some.inj bottom]
          rfl

end Simple

/-- Names are put on the base. -/
theorem resolve_suffix {slashes path : List Byte} (names : ∀ p ∈ parts slashes path, IsName p.1)
    (base : List (List Byte)) : base <:+ resolve slashes base path := by
  have relative : ¬ BeginsWithSeparator slashes path := by
    intro begins
    obtain ⟨p, isFirst, empty⟩ :=
      Option.map_eq_some_iff.mp ((beginsWithSeparator_iff slashes path).mp begins)
    exact (names p (List.mem_of_head? isFirst)).nonempty empty
  rw [resolve, origin, if_neg relative]
  refine @List.foldlRecOn _ _ (fun stack => base <:+ stack) _ _ _ (List.suffix_refl base) ?_
  intro stack below name member
  obtain ⟨p, inPath, rfl⟩ := List.mem_map.mp member
  rw [resolveComponent_name (names p inPath)]
  exact below.trans (List.suffix_cons p.1 stack)

/-- With FFPATH_SIMPLE, drive letters and both separators, an output is contained exactly if
the first component ending in ':' that is met with nothing before it, behind the drive that
is skipped, is not a drive. -/
theorem ffpathNormalize_contained_iff (str : Ffstr) (win : Bool) (dst src out : List Byte)
    (flags : Flags) (both : (settings win flags).slashes = [slash, backslash])
    (simple : (settings win flags).simple = true) (disk : (settings win flags).disk = true)
    (outputs : Outputs str win dst src flags out) :
    Contained out ↔ ∀ name ∈ frontDrive 0 (dropDrive (parts [slash, backslash] src)),
      ffpathAbs name = false := by
  have inSet := forcedInSet_both both
  obtain rfl := eq_of_outputs inSet outputs
  have names := normalForm_names both inSet simple disk src
  have absolute := ffpathAbs_normalForm both inSet simple disk src
  have relative : ffpathAbs (normalForm (settings win flags) src) = false ↔
      ∀ name ∈ frontDrive 0 (dropDrive (parts [slash, backslash] src)),
        ffpathAbs name = false := by
    rw [absolute]
    cases frontDrive 0 (dropDrive (parts [slash, backslash] src)) with
    | none => simp
    | some name => simp
  refine ⟨fun contained => relative.mp contained.relative, fun noDrive => ?_⟩
  exact ⟨relative.mpr noDrive, names, resolve_suffix names⟩

/-- `c:/a` becomes `a`. -/
theorem ffpathNormalize_contained_iff_drive :
    Contained [0x61] ↔ ∀ name ∈ frontDrive 0
        (dropDrive (parts [slash, backslash] [0x63, 0x3a, 0x2f, 0x61])), ffpathAbs name = false :=
  ffpathNormalize_contained_iff .scanning true (List.replicate 4 0) [0x63, 0x3a, 0x2f, 0x61]
    [0x61] simplePath (by decide) (by decide) (by decide) (outputs_of_fits (by decide) (by decide))

/-- The path `c:/d:/a`, which becomes the absolute `d:/a`. -/
theorem ffpathNormalize_not_contained :
    settings true simplePath = ⟨[slash, backslash], true, true, none⟩ ∧
      Outputs .scanning true (List.replicate 7 0) [0x63, 0x3a, 0x2f, 0x64, 0x3a, 0x2f, 0x61]
        simplePath [0x64, 0x3a, 0x2f, 0x61] ∧
      ffpathAbs [0x64, 0x3a, 0x2f, 0x61] = true ∧ ¬ Contained [0x64, 0x3a, 0x2f, 0x61] := by
  refine ⟨by decide, outputs_of_fits (by decide) (by decide), by decide, ?_⟩
  exact fun contained => absurd contained.relative (by decide)

end Ffos.Path
