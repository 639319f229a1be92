/-
Module: Ffos.Path.Absolute
Purpose: Whether `ffpath_normalize` with the defaults of Windows keeps a path absolute or
  relative.
Trusted boundary: none
Main exports: componentAbs, ffpathAbs_eq, Relative, reachesDrive, BecomesDrive,
  ffpathNormalize_keeps_abs_iff
-/
import Ffos.Path.Contained

namespace Ffos.Path

open Ffos.Lib

/-! ### The first component decides -/

/-- Whether a path that begins with this component is absolute. -/
def componentAbs (name : List Byte) : Bool := name.isEmpty || ffpathAbs name

theorem ffpathAbs_eq (path : List Byte) :
    ffpathAbs path =
      ((parts [slash, backslash] path).head?.map fun p => componentAbs p.1).getD false := by
  have well := parts_wellParted [slash, backslash] path
  have whole := render_parts [slash, backslash] path
  cases components : parts [slash, backslash] path with
  | nil =>
      rw [components] at whole
      rw [← whole]
      rfl
  | cons p rest =>
      rw [components] at whole well
      rw [← whole]
      by_cases root : p.1 = []
      · -- An empty component stands before a separator.
        cases well with
        | opened nonempty _ => exact absurd root nonempty
        | closed first _ =>
            obtain ⟨c, separator, closes⟩ := first.separator
            have absolute : c = slash ∨ c = backslash := by simpa using separator
            rw [render_cons, root, closes]
            simp [ffpathAbs, componentAbs, root, absolute]
      · rw [ffpathAbs_render well root]
        simp [componentAbs, root]

/-! ### What stands first -/

section Bottom

variable {config : Settings} {stack : Stack} {bottom : Piece Byte}

/-- What stands first is no root and no drive. -/
def Relative (stack : Stack) : Prop :=
  ∀ q ∈ stack.getLast?, q.1 ≠ [] ∧ (q.1.getLast? = some colon → ffpathAbs q.1 = false)

theorem relative_of_last (last : stack.getLast? = some bottom) (nonempty : bottom.1 ≠ [])
    (noDrive : bottom.1.getLast? = some colon → ffpathAbs bottom.1 = false) : Relative stack := by
  intro q member
  obtain rfl : bottom = q := Option.some.inj (last.symm.trans member)
  exact ⟨nonempty, noDrive⟩

theorem relative_of_dots (last : stack.getLast? = some bottom)
    (dots : bottom.1 = dot ∨ bottom.1 = dotdot) : Relative stack := by
  apply relative_of_last last
  · rcases dots with here | up
    · simp [here, dot]
    · simp [up, dotdot]
  · rcases dots with here | up
    · simp [here, dot, colon]
    · simp [up, dotdot, colon]

/-- A leading "." stays, or a ".." takes its place. -/
theorem getLast?_foldl_here (disk : config.disk = true)
    (here : ∃ q, stack.getLast? = some q ∧ (q.1 = dot ∨ q.1 = dotdot))
    (ps : List (Piece Byte)) :
    ∃ q, (ps.foldl (component config) stack).getLast? = some q ∧ (q.1 = dot ∨ q.1 = dotdot) := by
  refine @List.foldlRecOn _ _ (fun stack => ∃ q, stack.getLast? = some q ∧
    (q.1 = dot ∨ q.1 = dotdot)) ps (component config) stack here ?_
  intro stack before p _
  obtain ⟨q, last, isDot | up⟩ := before
  · rcases kinds p.1 with skipped | up | name
    · rw [component_skip skipped]
      exact ⟨q, last, .inl isDot⟩
    · match stack, last with
      | [], last => exact absurd last (by simp)
      | [r], last =>
          obtain rfl : r = q := Option.some.inj last
          rw [component_dotdot_here up isDot]
          exact ⟨_, rfl, .inr up⟩
      | r :: t :: below, last =>
          rw [List.getLast?_cons_cons] at last
          rw [component_dotdot up, parentStack]
          split
          · refine ⟨q, ?_, .inl isDot⟩
            rw [Parent.settle_append, List.getLast?_cons_cons, List.getLast?_cons_cons]
            exact last
          · exact ⟨q, last, .inl isDot⟩
    · refine ⟨q, ?_, .inl isDot⟩
      rw [component_name name, List.getLast?_cons, last]
      rfl
  · exact ⟨q, getLast?_component_sticky disk last (.inr (.inl up)) p, .inr up⟩

end Bottom

/-! ### Names that are taken away -/

/-- Whether the components reach a drive with nothing before it: `depth` counts the names
that stand in the output, a ".." takes one off, and with none left it stays for ever. -/
def reachesDrive : Nat → List (Piece Byte) → Bool
  | _, [] => false
  | depth, p :: rest =>
      if p.1 = [] ∨ p.1 = dot then reachesDrive depth rest
      else if p.1 = dotdot then depth ≠ 0 && reachesDrive (depth - 1) rest
      else if depth = 0 ∧ p.1.getLast? = some colon then ffpathAbs p.1
      else reachesDrive (depth + 1) rest

/-- A relative path whose first name is taken away by a ".." until a drive takes its place. -/
def BecomesDrive (src : List Byte) : Prop :=
  ∃ p rest, parts [slash, backslash] src = p :: rest ∧ IsName p.1 ∧
    p.1.getLast? ≠ some colon ∧ reachesDrive 1 rest = true

section Names

variable {config : Settings} (disk : config.disk = true) (full : config.simple = false)
  {stack : Stack}

include full

/-- A ".." takes one name off, if there is one. -/
theorem component_dotdot_full (names : ∀ q ∈ stack, IsName q.1) (free : Free stack)
    {p : Piece Byte} (up : p.1 = dotdot) :
    component config stack p = if stack = [] then [written config p] else stack.tail := by
  cases stack with
  | nil =>
      rw [if_pos rfl]
      exact component_dotdot_ups up (List.forall_mem_nil _) fun _ => full
  | cons q below =>
      rw [if_neg (List.cons_ne_nil q below)]
      refine (component_dotdot_name up (names q List.mem_cons_self)).trans (if_neg ?_)
      rintro ⟨rfl, -, drive⟩
      exact free q rfl drive

include disk

/-- The names end below a drive exactly if one is reached. -/
theorem foldl_reaches (names : ∀ q ∈ stack, IsName q.1) (free : Free stack)
    (ps : List (Piece Byte)) :
    (reachesDrive stack.length ps = true →
      ∃ q, (ps.foldl (component config) stack).getLast? = some q ∧ ffpathAbs q.1 = true) ∧
    (reachesDrive stack.length ps = false → Relative (ps.foldl (component config) stack)) := by
  induction ps generalizing stack with
  | nil =>
      refine ⟨fun reaches => absurd reaches Bool.false_ne_true, fun _ q member => ?_⟩
      exact ⟨(names q (List.mem_of_getLast? member)).nonempty,
        fun drive => absurd drive (free q member)⟩
  | cons p rest inductionHypothesis =>
      rw [reachesDrive, List.foldl_cons]
      rcases kinds p.1 with skipped | up | name
      · rw [if_pos skipped, component_skip skipped]
        exact inductionHypothesis names free
      · have kept : ¬ (p.1 = [] ∨ p.1 = dot) := up ▸ dotdot_kept
        rw [if_neg kept, if_pos up, component_dotdot_full full names free up]
        by_cases empty : stack = []
        · -- With nothing before it the ".." stays first.
          rw [if_pos empty, empty]
          refine ⟨fun reaches => absurd reaches (by simp), fun _ => ?_⟩
          have last : [written config p].getLast? = some (written config p) := rfl
          exact relative_of_dots
            (getLast?_foldl_sticky disk last (.inr (.inl up)) rest) (.inr up)
        · have depth : stack.length ≠ 0 := fun zero => empty (List.length_eq_zero_iff.mp zero)
          have namesBelow : ∀ q ∈ stack.tail, IsName q.1 := fun q member =>
            names q (List.mem_of_mem_tail member)
          rw [if_neg empty, ← List.length_tail, decide_eq_true depth, Bool.true_and]
          exact inductionHypothesis namesBelow free.tail
      · have namesNext : ∀ q ∈ written config p :: stack, IsName q.1 :=
          List.forall_mem_cons.mpr ⟨name, names⟩
        rw [if_neg name.kept, if_neg name.notDotdot, component_name name]
        by_cases front : stack.length = 0 ∧ p.1.getLast? = some colon
        · have last : (written config p :: stack).getLast? = some (written config p) := by
            rw [List.length_eq_zero_iff.mp front.1]
            rfl
          have stays := getLast?_foldl_sticky disk last (.inr (.inr front.2)) rest
          rw [if_pos front]
          exact ⟨fun absolute => ⟨_, stays, absolute⟩,
            fun relative => relative_of_last stays name.nonempty fun _ => relative⟩
        · rw [if_neg front]
          exact inductionHypothesis namesNext (free.push front)

end Names

/-! ### The contract -/

section Output

variable {config : Settings} (both : config.slashes = [slash, backslash])
  (inSet : config.ForcedInSet) (src : List Byte)

include both inSet

theorem ffpathAbs_finalStack :
    ffpathAbs (normalForm config src) =
      ((finalStack config src).getLast?.map fun q => componentAbs q.1).getD false := by
  rw [ffpathAbs_eq, ← both, parts_normalForm inSet, List.head?_reverse]

theorem ffpathAbs_of_last {bottom : Piece Byte}
    (last : (finalStack config src).getLast? = some bottom) :
    ffpathAbs (normalForm config src) = componentAbs bottom.1 := by
  rw [ffpathAbs_finalStack both inSet, last]
  rfl

theorem ffpathAbs_of_relative (relative : Relative (finalStack config src)) :
    ffpathAbs (normalForm config src) = false := by
  rw [ffpathAbs_finalStack both inSet]
  cases last : (finalStack config src).getLast? with
  | none => rfl
  | some q =>
      obtain ⟨nonempty, noDrive⟩ := relative q last
      have inOutput : q ∈ parts config.slashes (normalForm config src) := by
        rw [parts_normalForm inSet]
        exact List.mem_reverse.mpr (List.mem_of_getLast? last)
      have clean : Clean [slash, backslash] q.1 := by
        rw [both] at inOutput
        exact (parts_wellParted _ _).clean _ q inOutput
      have notAbs : ffpathAbs q.1 = false := by
        by_contra absolute
        rw [Bool.not_eq_false] at absolute
        rw [noDrive (getLast?_of_ffpathAbs clean absolute)] at absolute
        exact Bool.false_ne_true absolute
      simp [componentAbs, nonempty, notAbs]

/-! #### By the kind of the first component -/

variable {src} (full : config.simple = false) (disk : config.disk = true)
  {p : Piece Byte} {rest : List (Piece Byte)}
  (components : parts [slash, backslash] src = p :: rest)

include full disk components

theorem keeps_abs_of_sticky (sticky : Sticky p.1) :
    ffpathAbs (normalForm config src) = ffpathAbs src := by
  have first : [written config p].getLast? = some (written config p) := rfl
  have stays := getLast?_foldl_sticky disk first sticky rest
  rw [← finalStack_of_not_simple full (both ▸ components)] at stays
  rw [ffpathAbs_of_last both inSet src stays, ffpathAbs_eq src, components]
  rfl

omit both inSet full disk in
/-- A path that begins with "." or with a name that is no drive is relative. -/
theorem ffpathAbs_src_of_not_sticky (other : ¬ Sticky p.1) : ffpathAbs src = false := by
  rw [Sticky, not_or, not_or] at other
  have well := parts_wellParted [slash, backslash] src
  rw [components] at well
  have notAbs : ffpathAbs p.1 = false := by
    by_contra absolute
    rw [Bool.not_eq_false] at absolute
    exact other.2.2 (getLast?_of_ffpathAbs (well.clean _ p List.mem_cons_self) absolute)
  rw [ffpathAbs_eq src, components]
  simp [componentAbs, other.1, notAbs]

theorem relative_of_here (here : p.1 = dot) : ffpathAbs (normalForm config src) = false := by
  have first : [written config p].getLast? = some (written config p) := rfl
  obtain ⟨q, last, dots⟩ := getLast?_foldl_here disk ⟨_, first, .inl here⟩ rest
  rw [← finalStack_of_not_simple full (both ▸ components)] at last
  exact ffpathAbs_of_relative both inSet src (relative_of_dots last dots)

theorem ffpathAbs_of_name (name : IsName p.1) (noColon : p.1.getLast? ≠ some colon) :
    ffpathAbs (normalForm config src) = reachesDrive 1 rest := by
  have names : ∀ q ∈ [written config p], IsName q.1 := List.forall_mem_singleton.mpr name
  have free : Free [written config p] := by
    intro bottom member
    obtain rfl := Option.some.inj member
    exact noColon
  obtain ⟨reached, missed⟩ := foldl_reaches disk full names free rest
  rw [← finalStack_of_not_simple full (both ▸ components)] at reached missed
  cases reaches : reachesDrive 1 rest with
  | true =>
      obtain ⟨q, last, absolute⟩ := reached reaches
      rw [ffpathAbs_of_last both inSet src last, componentAbs, absolute, Bool.or_true]
  | false => exact ffpathAbs_of_relative both inSet src (missed reaches)

end Output

/-- With the defaults of Windows a path stays absolute or relative, exactly unless its first
name is taken away by a ".." and a drive comes to stand in its place. -/
theorem ffpathNormalize_keeps_abs_iff (str : Ffstr) (dst src : List Byte)
    (fits : src.length ≤ dst.length) :
    ∃ out, Outputs str true dst src 0 out ∧
      (ffpathAbs out = ffpathAbs src ↔ ¬ BecomesDrive src) := by
  have both : (settings true 0).slashes = [slash, backslash] := by decide
  have full : (settings true 0).simple = false := by decide
  have disk : (settings true 0).disk = true := by decide
  have inSet : (settings true 0).ForcedInSet := by decide
  refine ⟨_, outputs_of_fits inSet fits, ?_⟩
  cases components : parts [slash, backslash] src with
  | nil =>
      have empty : src = [] := by
        rw [← render_parts [slash, backslash] src, components]
        rfl
      refine iff_of_true (by rw [empty]; decide) ?_
      rintro ⟨p, rest, other, _⟩
      exact List.cons_ne_nil p rest (other.symm.trans components)
  | cons p rest =>
      have only : BecomesDrive src →
          IsName p.1 ∧ p.1.getLast? ≠ some colon ∧ reachesDrive 1 rest = true := by
        rintro ⟨q, more, other, conditions⟩
        obtain ⟨rfl, rfl⟩ := List.cons.inj (other.symm.trans components)
        exact conditions
      by_cases sticky : Sticky p.1
      · refine iff_of_true (keeps_abs_of_sticky both inSet full disk components sticky) ?_
        intro becomes
        obtain ⟨name, noColon, _⟩ := only becomes
        rcases sticky with root | up | drive
        · exact name.nonempty root
        · exact name.notDotdot up
        · exact noColon drive
      · rw [ffpathAbs_src_of_not_sticky components sticky]
        rw [Sticky, not_or, not_or] at sticky
        by_cases here : p.1 = dot
        · refine iff_of_true (relative_of_here both inSet full disk components here) ?_
          exact fun becomes => (only becomes).1.notDot here
        · have name : IsName p.1 := ⟨sticky.1, here, sticky.2.1⟩
          rw [ffpathAbs_of_name both inSet full disk components name sticky.2.2,
            ← Bool.not_eq_true]
          refine not_congr ⟨fun reaches => ?_, fun becomes => (only becomes).2.2⟩
          exact ⟨p, rest, components, name, sticky.2.2, reaches⟩

/-- `c:/../a` stays absolute. -/
theorem ffpathNormalize_keeps_abs_iff_drive :
    ∃ out, Outputs .scanning true (List.replicate 7 0) [0x63, 0x3a, 0x2f, 0x2e, 0x2e, 0x2f, 0x61] 0
        out ∧
      (ffpathAbs out = ffpathAbs [0x63, 0x3a, 0x2f, 0x2e, 0x2e, 0x2f, 0x61] ↔
        ¬ BecomesDrive [0x63, 0x3a, 0x2f, 0x2e, 0x2e, 0x2f, 0x61]) :=
  ffpathNormalize_keeps_abs_iff .scanning (List.replicate 7 0) _ (by decide)

/-- The relative path `a/../c:/b`, which becomes the absolute `c:/b`. -/
theorem ffpathNormalize_becomes_drive :
    Outputs .scanning true (List.replicate 9 0)
        [0x61, 0x2f, 0x2e, 0x2e, 0x2f, 0x63, 0x3a, 0x2f, 0x62] 0 [0x63, 0x3a, 0x2f, 0x62] ∧
      ffpathAbs [0x61, 0x2f, 0x2e, 0x2e, 0x2f, 0x63, 0x3a, 0x2f, 0x62] = false ∧
      ffpathAbs [0x63, 0x3a, 0x2f, 0x62] = true :=
  ⟨outputs_of_fits (by decide) (by decide), by decide, by decide⟩

end Ffos.Path
