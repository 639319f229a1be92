/-
Module: Ffos.Path.Forced
Purpose: What FFPATH_FORCE_SLASH and FFPATH_FORCE_BACKSLASH change in the output of
  `ffpath_normalize`, also if the separator that is forced does not split the source.
Trusted boundary: none
Main exports: Force, walk_force, ShallowParents, SameButSeparators,
  sameButSeparators_iff_shallow
-/
import Ffos.Path.Stack
import Mathlib.Data.List.Induction

namespace Ffos.Path

open Ffos.Lib

/-! ### The flags -/

/-- FFPATH_FORCE_SLASH or FFPATH_FORCE_BACKSLASH. -/
inductive Force where
  | slash
  | backslash
deriving DecidableEq

namespace Force

def flag : Force → Flags
  | slash => forceSlash
  | backslash => forceBackslash

def separator : Force → Byte
  | slash => Path.slash
  | backslash => Path.backslash

end Force

/-- The settings with a separator that is forced. -/
def Settings.force (config : Settings) (separator : Byte) : Settings :=
  { config with forced := some separator }

/-- A bit that the mask does not have is not seen through it. -/
theorem or_and_of_disjoint {flags flag mask : Flags} (disjoint : flag &&& mask = 0) :
    (flags ||| flag) &&& mask = flags &&& mask := by
  rw [BitVec.and_or_distrib_right, disjoint]
  exact BitVec.or_zero

/-- The flags once the platform's default for the disk letter is in them. -/
def withDiskDefault (win : Bool) (flags : Flags) : Flags :=
  if win ∧ flags &&& (diskLetter ||| noDiskLetter) = 0 then flags ||| diskLetter else flags

theorem settings_eq (win : Bool) (flags : Flags) :
    settings win flags =
      { slashes := (settings win flags).slashes
        simple := withDiskDefault win flags &&& simplePath ≠ 0
        disk := withDiskDefault win flags &&& diskLetter ≠ 0
        forced :=
          if withDiskDefault win flags &&& forceSlash ≠ 0 then some slash
          else if withDiskDefault win flags &&& forceBackslash ≠ 0 then some backslash
          else none } := rfl

theorem withDiskDefault_force (win : Bool) (flags : Flags) (force : Force) :
    withDiskDefault win (flags ||| force.flag) = withDiskDefault win flags ||| force.flag := by
  have disjoint : force.flag &&& (diskLetter ||| noDiskLetter) = 0 := by cases force <;> decide
  rw [withDiskDefault, withDiskDefault, or_and_of_disjoint disjoint]
  split
  · rw [BitVec.or_assoc, BitVec.or_comm force.flag, BitVec.or_assoc]
  · rfl

theorem slashes_force (win : Bool) (flags : Flags) (force : Force) :
    (settings win (flags ||| force.flag)).slashes = (settings win flags).slashes := by
  have both : force.flag &&& slashBackslash = 0 := by cases force <;> decide
  have any : force.flag &&& (slashBackslash ||| slashOnly) = 0 := by cases force <;> decide
  simp only [settings, or_and_of_disjoint both, or_and_of_disjoint any]

section Flags

variable {flags : Flags} (unforced : flags &&& (forceSlash ||| forceBackslash) = 0)
include unforced

theorem withDiskDefault_unforced (win : Bool) :
    withDiskDefault win flags &&& (forceSlash ||| forceBackslash) = 0 := by
  have disjoint : diskLetter &&& (forceSlash ||| forceBackslash) = 0 := by decide
  rw [withDiskDefault]
  split
  · rw [or_and_of_disjoint disjoint, unforced]
  · exact unforced

theorem force_unset (force : Force) : flags &&& force.flag = 0 := by
  have within : force.flag = (forceSlash ||| forceBackslash) &&& force.flag := by
    cases force <;> decide
  rw [within, ← BitVec.and_assoc, unforced]
  exact BitVec.zero_and

theorem settings_forced (win : Bool) : (settings win flags).forced = none := by
  have noSlash : withDiskDefault win flags &&& forceSlash = 0 :=
    force_unset (withDiskDefault_unforced unforced win) .slash
  have noBackslash : withDiskDefault win flags &&& forceBackslash = 0 :=
    force_unset (withDiskDefault_unforced unforced win) .backslash
  rw [settings_eq, if_neg (not_not.mpr noSlash), if_neg (not_not.mpr noBackslash)]

/-- A FORCE flag changes nothing else in the settings. -/
theorem settings_force (win : Bool) (force : Force) :
    settings win (flags ||| force.flag) = (settings win flags).force force.separator := by
  have noSlash : withDiskDefault win flags &&& forceSlash = 0 :=
    force_unset (withDiskDefault_unforced unforced win) .slash
  have noBackslash : withDiskDefault win flags &&& forceBackslash = 0 :=
    force_unset (withDiskDefault_unforced unforced win) .backslash
  have simple : force.flag &&& simplePath = 0 := by cases force <;> decide
  have disk : force.flag &&& diskLetter = 0 := by cases force <;> decide
  rw [settings_eq win (flags ||| force.flag), withDiskDefault_force, slashes_force,
    or_and_of_disjoint simple, or_and_of_disjoint disk, Settings.force, settings_eq win flags]
  congr 1
  cases force with
  | slash =>
      rw [BitVec.and_or_distrib_right, noSlash]
      rfl
  | backslash =>
      have apart : Force.backslash.flag &&& forceSlash = 0 := by decide
      rw [or_and_of_disjoint apart, BitVec.and_or_distrib_right, noSlash, noBackslash]
      rfl

end Flags

/-! ### The walk with a separator that is forced -/

/-- The separators of a text replaced by the one that is forced. -/
def replaced (slashes : List Byte) (separator c : Byte) : Byte :=
  if c ∈ slashes then separator else c

section Walk

variable {config : Settings} (separator : Byte)

theorem parentStack_force (stack : Stack) :
    parentStack (config.force separator) (stack.map (written (config.force separator))) =
      (parentStack config stack).map (List.map (written (config.force separator))) := by
  match stack with
  | [] =>
      change (if config.simple then _ else _) = _
      rw [parentStack]
      split <;> rfl
  | [p] =>
      change (if p.1 = dot then _ else if p.1 = dotdot then _ else if p.1 = [] then _
        else if config.disk = true ∧ p.1.getLast? = some colon then _ else _) = _
      rw [parentStack]
      split_ifs <;> rfl
  | p :: q :: below =>
      change (if p.1 = dotdot then _ else _) = _
      rw [parentStack]
      split <;> rfl

variable (plain : config.forced = none)
include plain

theorem inSet_plain : config.ForcedInSet := by
  intro c forced
  rw [plain] at forced
  exact absurd forced (Option.not_mem_none c)

theorem written_plain (p : Piece Byte) : written config p = p := by
  obtain ⟨name, close⟩ := p
  cases close <;> simp [written, plain]

theorem push_force (stack : Stack) (p : Piece Byte) :
    push (config.force separator) (stack.map (written (config.force separator))) p =
      (push config stack p).map (written (config.force separator)) := by
  have same : placed (config.force separator) (stack.map (written (config.force separator))) p =
      (placed config stack p).map (List.map (written (config.force separator))) := by
    rw [placed, placed]
    split
    · exact parentStack_force separator stack
    · rfl
  rw [push, push, same, written_plain plain]
  cases placed config stack p <;> rfl

/-- The walk is the same, with the separators replaced. -/
theorem walk_force (position : Mode × Stack) (ps : List (Piece Byte)) :
    walk (config.force separator)
        (position.1, position.2.map (written (config.force separator))) ps =
      ((walk config position ps).1,
        (walk config position ps).2.map (written (config.force separator))) := by
  induction ps generalizing position with
  | nil => rfl
  | cons p rest inductionHypothesis =>
      have step : walkStep (config.force separator)
          (position.1, position.2.map (written (config.force separator))) p =
          ((walkStep config position p).1,
            (walkStep config position p).2.map (written (config.force separator))) := by
        simp only [walkStep]
        cases (admitted position.1 p.1).1 with
        | false => rfl
        | true =>
            simp only [if_true]
            rw [push_force separator plain]
      rw [walk, List.foldl_cons, step]
      exact inductionHypothesis (walkStep config position p)

theorem walk_force_start (ps : List (Piece Byte)) :
    (walk (config.force separator) (start (config.force separator)) ps).2 =
      (walk config (start config) ps).2.map (written (config.force separator)) :=
  congrArg Prod.snd (walk_force separator plain (start config) ps)

omit plain

theorem render_written {ps : List (Piece Byte)} (well : WellParted config.slashes ps) :
    render (ps.map (written (config.force separator))) =
      (render ps).map (replaced config.slashes separator) := by
  have names : ∀ name, Clean config.slashes name →
      name.map (replaced config.slashes separator) = name := by
    intro name clean
    have same : ∀ c ∈ name, replaced config.slashes separator c = id c := fun c member =>
      if_neg (clean c member)
    rw [List.map_congr_left same, List.map_id]
  induction well with
  | nil => rfl
  | opened _ clean =>
      simp [written, names _ clean]
  | @closed p rest first _ inductionHypothesis =>
      obtain ⟨c, member, closes⟩ := first.separator
      rw [List.map_cons, render_cons, render_cons, inductionHypothesis, List.map_append,
        List.map_append, names _ first.clean, written, closes]
      simp [Settings.force, replaced, member]

include plain

/-- What the walk writes is the same, with the separators replaced. -/
theorem normalForm_force (src : List Byte) :
    normalForm (config.force separator) src =
      (normalForm config src).map (replaced config.slashes separator) := by
  have well : WellParted config.slashes (finalStack config src).reverse :=
    walk_wellParted (inSet_plain plain) (parts_wellParted config.slashes src) (List.forall_mem_nil _)
  rw [normalForm, normalForm, text, text, ← render_written separator well, List.map_reverse]
  exact congrArg (fun stack => render (List.reverse stack)) (walk_force_start separator plain _)

end Walk

/-! ### While no `".."` meets two components -/

/-- Every `".."` finds at most one component in the output. -/
def ShallowParents (config : Settings) (ps : List (Piece Byte)) : Prop :=
  ∀ before p after, ps = before ++ p :: after → p.1 = dotdot →
    (walk config (start config) before).2.length ≤ 1

theorem ShallowParents.of_leads {config : Settings} {ps qs : List (Piece Byte)}
    (shallow : ShallowParents config qs) (leads : ps <+: qs) : ShallowParents config ps := by
  obtain ⟨rest, rfl⟩ := leads
  intro before p after splits
  apply shallow before p (after ++ rest)
  rw [splits, List.append_assoc, List.cons_append]

/-- If some `".."` finds more, there is a first one. -/
theorem exists_first_deep {config : Settings} {ps : List (Piece Byte)}
    (deep : ¬ ShallowParents config ps) :
    ∃ before p, before ++ [p] <+: ps ∧ ShallowParents config before ∧ p.1 = dotdot ∧
      2 ≤ (walk config (start config) before).2.length := by
  induction ps using List.reverseRecOn with
  | nil => exact absurd (fun before p after splits => absurd splits.symm (by simp)) deep
  | append_singleton ps last inductionHypothesis =>
      by_cases shallow : ShallowParents config ps
      · refine ⟨ps, last, List.prefix_refl _, shallow, ?_⟩
        by_contra other
        apply deep
        intro before p after splits up
        rcases List.eq_nil_or_concat after with rfl | ⟨inside, q, rfl⟩
        · obtain ⟨rfl, one⟩ := List.append_inj' splits rfl
          obtain rfl : last = p := List.singleton_inj.mp one
          exact Nat.lt_succ_iff.mp (Nat.lt_of_not_le fun two => other ⟨up, two⟩)
        · rw [List.concat_eq_append, ← List.cons_append, ← List.append_assoc] at splits
          exact shallow before p inside (List.append_inj' splits rfl).1 up
      · obtain ⟨before, p, leads, rest⟩ := inductionHypothesis shallow
        exact ⟨before, p, leads.trans (List.prefix_append ps [last]), rest⟩

section Separator

variable {str : Ffstr} {config : Settings} (separator : Byte) (plain : config.forced = none)
include plain

theorem walk_closed {ps : List (Piece Byte)} (closedParts : ∀ p ∈ ps, Closed config.slashes p)
    {position : Mode × Stack} (closed : ∀ p ∈ position.2, Closed config.slashes p) :
    ∀ p ∈ (walk config position ps).2, Closed config.slashes p := by
  induction ps generalizing position with
  | nil => exact closed
  | cons q rest inductionHypothesis =>
      obtain ⟨first, others⟩ := List.forall_mem_cons.mp closedParts
      exact inductionHypothesis others (walkStep_closed (inSet_plain plain) closed first)

/-- One component is found whatever closes it. -/
theorem backs_of_shallow {ps : List (Piece Byte)} (well : WellParted config.slashes ps)
    (shallow : ShallowParents config ps) :
    Backs str (config.force separator) (start (config.force separator)) ps := by
  intro before p after splits up dst k
  have few := shallow before p after splits up
  rw [splits] at well
  have closed := walk_closed plain well.closed_before
    (show ∀ q ∈ (start config).2, Closed config.slashes q from List.forall_mem_nil _)
  rw [walk_force_start separator plain]
  intro filled
  cases stack : (walk config (start config) before).2 with
  | nil =>
      rw [stack] at filled
      exact parent_eq filled (List.forall_mem_nil _)
  | cons q rest =>
    cases rest with
    | nil =>
        rw [stack] at closed filled
        obtain ⟨name, close⟩ := q
        obtain ⟨clean, c, _, rfl⟩ := closed _ List.mem_cons_self
        exact parent_first clean filled
    | cons r below =>
        rw [stack] at few
        simp at few

end Separator

/-! ### At a `".."` that meets two components -/

section Loop

variable {str : Ffstr} {config : Settings} {state between : State}

/-- The loop over components that are all closed goes on behind them. -/
theorem normalizeLoop_append {before : List (Piece Byte)}
    (closed : ∀ p ∈ before, Closed config.slashes p) (rest : List (Piece Byte))
    (looped : normalizeLoop str config (render before) state = some (some between)) :
    normalizeLoop str config (render (before ++ rest)) state =
      normalizeLoop str config (render rest) between := by
  induction before generalizing state with
  | nil =>
      have same : state = between := by simpa [normalizeLoop] using looped
      rw [same]
      rfl
  | cons p before inductionHypothesis =>
      obtain ⟨first, others⟩ := List.forall_mem_cons.mp closed
      rw [List.cons_append, normalizeLoop_closed first]
      rw [normalizeLoop_closed first] at looped
      revert looped
      rcases normalizeIteration str config state p.1 p.2 with _ | _ | next
      · exact fun looped => absurd looped (Option.some_ne_none _).symm
      · exact fun looped => absurd (Option.some.inj looped) (Option.some_ne_none _).symm
      · exact fun looped => inductionHypothesis others looped

/-- The last component takes one iteration. -/
theorem normalizeLoop_last {p : Piece Byte} (well : WellParted config.slashes [p]) :
    normalizeLoop str config (render [p]) state =
      normalizeIteration str config state p.1 p.2 := by
  cases well with
  | opened nonempty clean =>
      rw [render_cons, render_nil, Option.toList_none, List.append_nil, List.append_nil]
      exact normalizeLoop_open clean nonempty
  | closed first _ =>
      rw [normalizeLoop_closed first]
      rcases normalizeIteration str config state p.1 p.2 with _ | _ | next
      · rfl
      · rfl
      · simp [normalizeLoop]

/-- A `".."` always goes on. -/
theorem admitted_dotdot (mode : Mode) : ∃ next, admitted mode dotdot = (true, next) := by
  rcases mode with ⟨_ | _, _ | _⟩ <;> exact ⟨_, rfl⟩

/-- With a separator that does not split, the output is one long component to the search
back: it is dropped as a whole, or kept if it ends like a drive. -/
theorem parent_flat {dst content : List Byte} {k : Nat} {separator : Byte}
    (clean : Clean config.slashes content) (inside : separator ∈ content)
    (other : separator ∉ dot) (filled : Filled dst k (content ++ [separator])) :
    parent str config dst k = some (.skip 0) ∨ parent str config dst k = some (.skip k) := by
  have text : text [(content, some separator)] = content ++ [separator] := by simp
  have notDot : content ≠ dot := fun same => other (same ▸ inside)
  have notDotdot : content ≠ dotdot := fun same => other (by simpa [same, dotdot, dot] using inside)
  have notEmpty : content ≠ [] := List.ne_nil_of_mem inside
  rw [← text] at filled
  have found := @parent_first str _ _ _ _ _ clean filled
  rw [parentStack, if_neg notDot, if_neg notDotdot, if_neg notEmpty] at found
  rw [found]
  split
  · right
    rw [Parent.map, filled.length]
  · exact .inl rfl

end Loop

section Deep

variable {str : Ffstr} {config : Settings} {separator : Byte}

theorem text_force_length (stack : Stack) :
    (text (stack.map (written (config.force separator)))).length = (text stack).length := by
  induction stack with
  | nil => rfl
  | cons p below inductionHypothesis =>
      rw [List.map_cons, text_cons, text_cons, @List.length_append _ (text _),
        @List.length_append _ (text _), inductionHypothesis, written_length]

/-- A separator that does not split leaves nothing to find in the output. -/
theorem clean_text_force (other : separator ∉ config.slashes) {stack : Stack}
    (closed : ∀ p ∈ stack, Closed config.slashes p) :
    Clean config.slashes (text (stack.map (written (config.force separator)))) := by
  induction stack with
  | nil => exact List.forall_mem_nil _
  | cons p below inductionHypothesis =>
      obtain ⟨first, others⟩ := List.forall_mem_cons.mp closed
      obtain ⟨c, _, closes⟩ := first.separator
      have content : (written (config.force separator) p).1 ++
          (written (config.force separator) p).2.toList = p.1 ++ [separator] := by
        rw [written, closes]
        rfl
      rw [List.map_cons, text_cons, content]
      intro d member
      rcases List.mem_append.mp member with inBelow | inTop
      · exact inductionHypothesis others d inBelow
      · rcases List.mem_append.mp inTop with inName | isSeparator
        · exact first.clean d inName
        · rw [List.mem_singleton.mp isSeparator]
          exact other

/-- The output of a closed stack ends in the separator that is forced. -/
theorem text_force_cons {p : Piece Byte} (closed : Closed config.slashes p) (below : Stack) :
    text ((p :: below).map (written (config.force separator))) =
      text (below.map (written (config.force separator))) ++ p.1 ++ [separator] := by
  obtain ⟨c, _, closes⟩ := closed.separator
  rw [List.map_cons, text_cons, written, closes, List.append_assoc]
  rfl

/-- A `".."` at two components or more takes all of them off, or none. -/
theorem normalizeIteration_deep (other : separator ∉ config.slashes) (notDot : separator ∉ dot)
    {state : State} {a b : Piece Byte} {below : Stack}
    (closed : ∀ p ∈ a :: b :: below, Closed config.slashes p)
    (filled : Filled state.dst state.k
      (text ((a :: b :: below).map (written (config.force separator))))) (close : Option Byte) :
    ∃ k mode, normalizeIteration str (config.force separator) state dotdot close =
        some (some ⟨state.dst, k, mode⟩) ∧ (k = 0 ∨ k = state.k) := by
  have closedBelow := (List.forall_mem_cons.mp closed).2
  have cleanBelow := clean_text_force other closedBelow
  have inBelow : separator ∈ text ((b :: below).map (written (config.force separator))) := by
    rw [text_force_cons (closedBelow b List.mem_cons_self)]
    exact List.mem_append_right _ (List.mem_singleton_self separator)
  rw [text_force_cons (closed a List.mem_cons_self)] at filled
  have clean : Clean config.slashes
      (text ((b :: below).map (written (config.force separator))) ++ a.1) := by
    intro d member
    rcases List.mem_append.mp member with lower | inName
    · exact cleanBelow d lower
    · exact (closed a List.mem_cons_self).clean d inName
  have flat := @parent_flat str (config.force separator) _ _ _ _ clean
    (List.mem_append_left _ inBelow) notDot filled
  obtain ⟨mode, goesOn⟩ := admitted_dotdot state.mode
  rw [normalizeIteration, admits_eq, Option.bind_eq_bind, Option.bind_some, goesOn, place,
    if_pos rfl]
  rcases flat with dropped | kept
  · rw [dropped]
    exact ⟨0, mode, rfl, .inl rfl⟩
  · rw [kept]
    exact ⟨state.k, mode, rfl, .inr rfl⟩

/-- One component less, or one more: neither all of them nor none are taken off. -/
theorem text_push_deep {a b p : Piece Byte} {below : Stack} (up : p.1 = dotdot)
    (closed : ∀ q ∈ a :: b :: below, Closed config.slashes q) :
    (text (push config (a :: b :: below) p)).length ≠ 0 ∧
      (text (push config (a :: b :: below) p)).length ≠ (text (a :: b :: below)).length := by
  have size : ∀ q ∈ a :: b :: below, 0 < (q.1 ++ q.2.toList).length := by
    intro q member
    obtain ⟨c, _, closes⟩ := (closed q member).separator
    rw [closes]
    simp
  have sizeA := size a List.mem_cons_self
  have sizeB := size b (List.mem_cons_of_mem _ List.mem_cons_self)
  rw [push, placed, if_pos up, parentStack]
  split
  · have sizeP : ((written config p).1 ++ (written config p).2.toList).length =
        2 + (written config p).2.toList.length := by
      rw [List.length_append, written, up]
      rfl
    rw [Parent.settle_append, text_cons, List.length_append, sizeP]
    omega
  · rw [Parent.settle_skip, text_cons a, List.length_append, text_cons b, List.length_append]
    omega

/-- From there on the two runs have written texts of different lengths. -/
theorem normalizeLoop_deep (plain : config.forced = none) (other : separator ∉ config.slashes)
    (notDot : separator ∉ dot) {before : List (Piece Byte)} {p : Piece Byte}
    (well : WellParted config.slashes (before ++ [p])) (shallow : ShallowParents config before)
    (up : p.1 = dotdot) (deep : 2 ≤ (walk config (start config) before).2.length)
    {dst : List Byte} (fits : (render before).length ≤ dst.length) :
    ∃ final, normalizeLoop str (config.force separator) (render (before ++ [p]))
        ⟨dst, 0, (start (config.force separator)).1⟩ = some (some final) ∧
      final.k ≠ (text (walk config (start config) (before ++ [p])).2).length := by
  have closedParts := well.closed_before
  have closed := walk_closed plain closedParts
    (show ∀ q ∈ (start config).2, Closed config.slashes q from List.forall_mem_nil _)
  have wellBefore := well.of_leads (List.prefix_append before [p])
  have follows : Follows ⟨dst, 0, (start (config.force separator)).1⟩
      (start (config.force separator)) := ⟨rfl, .empty dst⟩
  obtain ⟨result, looped, room, next⟩ := @normalizeLoop_walk str (config.force separator) _ _ _
    wellBefore follows (backs_of_shallow separator plain wellBefore shallow)
  obtain ⟨between, rfl⟩ := Option.ne_none_iff_exists'.mp (room (by simpa [start] using fits))
  have filled := (next between rfl).1.filled
  rw [walk_force_start separator plain] at filled
  have last : (walk config (start config) (before ++ [p])).2 =
      push config (walk config (start config) before).2 p := by
    rw [walk, List.foldl_append, List.foldl_cons, List.foldl_nil]
    change (walkStep config (walk config (start config) before) p).2 = _
    obtain ⟨mode, goesOn⟩ := admitted_dotdot (walk config (start config) before).1
    rw [walkStep, up, goesOn]
    rfl
  obtain ⟨name, close⟩ := p
  obtain rfl : name = dotdot := up
  have wellLast : WellParted config.slashes [((dotdot, close) : Piece Byte)] := well.of_append
  rw [@normalizeLoop_append str (config.force separator) _ _ _ closedParts _ looped,
    @normalizeLoop_last str (config.force separator) _ _ wellLast, last]
  cases stack : (walk config (start config) before).2 with
  | nil => simp [stack] at deep
  | cons a rest =>
    cases rest with
    | nil => simp [stack] at deep
    | cons b below =>
      rw [stack] at closed filled
      obtain ⟨k, mode, iterated, dropped | kept⟩ :=
        @normalizeIteration_deep str _ _ other notDot _ _ _ _ closed filled close
      · refine ⟨_, iterated, ?_⟩
        rw [dropped]
        exact (text_push_deep rfl closed).1.symm
      · refine ⟨_, iterated, ?_⟩
        rw [kept, ← filled.length, text_force_length]
        exact (text_push_deep rfl closed).2.symm

end Deep

/-! ### What a FORCE flag changes -/

/-- The FORCE flag changes only the separators: with room for the source both calls succeed,
and the output of the one is that of the other with its separators replaced. -/
def SameButSeparators (str : Ffstr) (win : Bool) (flags : Flags) (force : Force)
    (src : List Byte) : Prop :=
  ∀ dst forcedDst : List Byte, src.length ≤ dst.length → src.length ≤ forcedDst.length →
    ∃ out, Outputs str win dst src flags out ∧
      Outputs str win forcedDst src (flags ||| force.flag)
        (out.map (replaced (settings win flags).slashes force.separator))

section Contract

variable {str : Ffstr} {win : Bool} {flags : Flags} {force : Force} {src : List Byte}
  (unforced : flags &&& (forceSlash ||| forceBackslash) = 0)
include unforced

/-- It is enough that the search back finds what stands on top of the stack. -/
theorem sameButSeparators_of_backs
    (backs : Backs str ((settings win flags).force force.separator)
      (start ((settings win flags).force force.separator))
      (parts (settings win flags).slashes src)) :
    SameButSeparators str win flags force src := by
  have plain := settings_forced unforced win
  have config := settings_force unforced win force
  intro dst forcedDst fits fitsForced
  refine ⟨normalForm (settings win flags) src, outputs_of_fits (inSet_plain plain) fits, ?_⟩
  rw [← normalForm_force force.separator plain, ← config]
  apply outputs_of_backs _ fitsForced
  rw [config]
  exact backs

theorem sameButSeparators_of_inSet (inSet : force.separator ∈ (settings win flags).slashes) :
    SameButSeparators str win flags force src := by
  have forcedInSet : ((settings win flags).force force.separator).ForcedInSet := by
    intro c forced
    rw [← Option.some.inj forced]
    exact inSet
  apply sameButSeparators_of_backs unforced
  exact backs_of_inSet forcedInSet (parts_wellParted _ src) (List.forall_mem_nil _)

theorem sameButSeparators_of_shallow
    (shallow : ShallowParents (settings win flags) (parts (settings win flags).slashes src)) :
    SameButSeparators str win flags force src := by
  apply sameButSeparators_of_backs unforced
  exact backs_of_shallow force.separator (settings_forced unforced win) (parts_wellParted _ src)
    shallow

/-- With a separator that does not split, the two outputs differ after the first `".."` that
meets two components. -/
theorem not_sameButSeparators_of_deep (other : force.separator ∉ (settings win flags).slashes)
    {before : List (Piece Byte)} {p : Piece Byte}
    (well : WellParted (settings win flags).slashes (before ++ [p]))
    (shallow : ShallowParents (settings win flags) before) (up : p.1 = dotdot)
    (deep : 2 ≤ (walk (settings win flags) (start (settings win flags)) before).2.length) :
    ¬ SameButSeparators str win flags force (render (before ++ [p])) := by
  intro same
  have plain := settings_forced unforced win
  have notDot : force.separator ∉ dot := by cases force <;> decide
  have room : (render (before ++ [p])).length ≤
      (List.replicate (render (before ++ [p])).length (0 : Byte)).length := by simp
  have roomBefore : (render before).length ≤
      (List.replicate (render (before ++ [p])).length (0 : Byte)).length := by simp
  obtain ⟨out, outputs, after, returned, _⟩ := same _ _ room room
  obtain ⟨final, looped, length⟩ := @normalizeLoop_deep str _ _ plain other notDot _ _ well shallow
    up deep _ roomBefore
  apply length
  rw [eq_of_outputs (inSet_plain plain) outputs, List.length_map, normalForm, finalStack,
    parts_render well, ffpathNormalize, settings_force unforced] at returned
  have result := (congrArg (Option.map _) looped).symm.trans returned
  exact congrArg Prod.snd (Option.some.inj (Option.some.inj result))

end Contract

/-- `a/b/..` has a `".."` behind two components, whatever the flags are. -/
theorem deep_example (config : Settings) (slashes : config.slashes = [slash]) :
    ¬ ShallowParents config (parts config.slashes [0x61, slash, 0x62, slash, 0x2e, 0x2e]) := by
  intro shallow
  rw [slashes] at shallow
  have two := shallow [([0x61], some slash), ([0x62], some slash)] (dotdot, none) [] (by decide) rfl
  have stack : (walk config (start config) [([0x61], some slash), ([0x62], some slash)]).2.length =
      2 := by
    obtain ⟨_, simple, disk, forced⟩ := config
    cases simple <;> cases disk <;> rfl
  omega

/-- Without flags on UNIX `a/b/..` becomes `a/`, but with FFPATH_FORCE_BACKSLASH nothing is
left of it. -/
theorem forceBackslash_drops_component :
    ¬ SameButSeparators Ffstr.scanning false 0 .backslash
        [0x61, slash, 0x62, slash, 0x2e, 0x2e] := by
  have source : render [([0x61], some slash), ([0x62], some slash), (dotdot, none)] =
      [0x61, slash, 0x62, slash, 0x2e, 0x2e] := rfl
  have components : parts (settings false 0).slashes [0x61, slash, 0x62, slash, 0x2e, 0x2e] =
      [([0x61], some slash), ([0x62], some slash)] ++ [(dotdot, none)] := by decide
  have well := parts_wellParted (settings false 0).slashes [0x61, slash, 0x62, slash, 0x2e, 0x2e]
  have names : ∀ p ∈ [(([0x61], some slash) : Piece Byte), ([0x62], some slash)],
      p.1 ≠ dotdot := by decide
  rw [components] at well
  rw [← source]
  apply not_sameButSeparators_of_deep (by decide) (by decide) well _ rfl (by decide)
  intro before p after splits up
  exact absurd up (names p (splits ▸ List.mem_append_right before List.mem_cons_self))

/-- A FORCE flag changes only the separators of the output, for a source and for each of its
leading parts, exactly if the separator splits the source or no `".."` in it meets two
components; and for all sources exactly if the separator splits. -/
theorem sameButSeparators_iff_shallow (str : Ffstr) (win : Bool) (flags : Flags)
    (unforced : flags &&& (forceSlash ||| forceBackslash) = 0) (force : Force) :
    (∀ src,
      (force.separator ∈ (settings win flags).slashes ∨
          ShallowParents (settings win flags) (parts (settings win flags).slashes src) →
        SameButSeparators str win flags force src) ∧
      ((∀ leading, leading <+: parts (settings win flags).slashes src →
          SameButSeparators str win flags force (render leading)) ↔
        force.separator ∈ (settings win flags).slashes ∨
          ShallowParents (settings win flags) (parts (settings win flags).slashes src))) ∧
    ((∀ src, SameButSeparators str win flags force src) ↔
      force.separator ∈ (settings win flags).slashes) := by
  have exact : ∀ src, (∀ leading, leading <+: parts (settings win flags).slashes src →
        SameButSeparators str win flags force (render leading)) ↔
      force.separator ∈ (settings win flags).slashes ∨
        ShallowParents (settings win flags) (parts (settings win flags).slashes src) := by
    intro src
    constructor
    · intro same
      by_contra neither
      rw [not_or] at neither
      obtain ⟨before, p, leads, shallow, up, deep⟩ := exists_first_deep neither.2
      have well := (parts_wellParted (settings win flags).slashes src).of_leads leads
      exact not_sameButSeparators_of_deep unforced neither.1 well shallow up deep
        (same (before ++ [p]) leads)
    · intro condition leading leads
      rcases condition with inSet | shallow
      · exact sameButSeparators_of_inSet unforced inSet
      · have well := (parts_wellParted (settings win flags).slashes src).of_leads leads
        apply sameButSeparators_of_shallow unforced
        rw [parts_render well]
        exact shallow.of_leads leads
  refine ⟨fun src => ⟨?_, exact src⟩, ?_, fun inSet src => sameButSeparators_of_inSet unforced inSet⟩
  · intro condition
    have same := (exact src).mpr condition _ (List.prefix_refl _)
    rwa [render_parts] at same
  · intro same
    rcases (exact [0x61, slash, 0x62, slash, 0x2e, 0x2e]).mp fun leading _ => same _ with
      inSet | shallow
    · exact inSet
    · by_contra other
      refine deep_example _ ?_ shallow
      revert other
      simp only [settings]
      cases force <;> split_ifs <;> simp [Force.separator, slash, backslash]

/-- On UNIX FFPATH_FORCE_BACKSLASH does not change only the separators of every source. -/
theorem sameButSeparators_iff_shallow_backslash :
    ((0 : Flags) &&& (forceSlash ||| forceBackslash) = 0) ∧
      ((∀ src, SameButSeparators Ffstr.scanning false 0 .backslash src) ↔
        backslash ∈ (settings false 0).slashes) :=
  ⟨by decide, (sameButSeparators_iff_shallow Ffstr.scanning false 0 (by decide) .backslash).2⟩

end Ffos.Path
