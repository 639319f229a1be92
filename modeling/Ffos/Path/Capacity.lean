/-
Module: Ffos.Path.Capacity
Purpose: `ffpath_normalize` stays inside of its buffer whatever the flags are, and fails
  exactly if the run without a limit outgrows the buffer.
Trusted boundary: none
Main exports: Unlimited, unlimitedRun, normalizeIteration_unlimited, normalizeLoop_unlimited,
  ffpathNormalize_capacity
-/
import Ffos.Path.Stack

namespace Ffos.Path

open Ffos.Lib

/-! ### Reading back the output -/

/-- A position that is found lies in the text. -/
theorem Ffstr.rfindany_lt (str : Ffstr) {s anyof : List Byte} {position : Nat}
    (found : str.rfindany s anyof = some position) : position < s.length := by
  by_cases clean : Clean anyof s
  · rw [str.rfindany_none s anyof clean] at found
    exact absurd found.symm (Option.some_ne_none position)
  · obtain ⟨before, c, after, rfl, member, cleanAfter⟩ := exists_last_separator anyof clean
    rw [str.rfindany_found before c after anyof member cleanAfter] at found
    rw [← Option.some.inj found, List.length_append, List.length_cons]
    omega

section Place

variable {str : Ffstr} {config : Settings} {dst content : List Byte} {k : Nat}

/-- A `".."` reads only what has been written. -/
theorem parent_filled (filled : Filled dst k content) :
    parent str config dst k = parent str config content k := by
  have all : slice dst 0 (k - 1) = slice content 0 (k - 1) := filled.slice_eq 0 (Nat.sub_le k 1)
  have last : ∀ start, slice dst start (k - 1) = slice content start (k - 1) := fun start =>
    filled.slice_eq start (Nat.sub_le k 1)
  rw [parent, parent]
  simp only [last]

/-- All that it reads is there, and it goes back in the output. -/
theorem parent_total (length : content.length = k) :
    ∃ up, parent str config content k = some up ∧ up.place ≤ k := by
  rw [parent]
  split
  next written =>
    have one : 1 ≤ k := Nat.one_le_iff_ne_zero.mpr written
    have read : slice content 0 (k - 1) = some (content.take (k - 1)) := by
      rw [slice, if_pos ⟨Nat.zero_le _, by omega⟩, List.drop_zero]
    have size : (content.take (k - 1)).length = k - 1 := by
      rw [List.length_take]
      omega
    rw [read, Option.bind_eq_bind, Option.bind_some]
    cases found : str.rfindany (content.take (k - 1)) config.slashes with
    | none =>
        dsimp only
        split
        · exact ⟨_, rfl, Nat.zero_le k⟩
        split
        · exact ⟨_, rfl, Nat.le_refl k⟩
        split
        · exact ⟨_, rfl, Nat.le_refl k⟩
        next longer =>
          -- A component that is not the root has a last character.
          have nonempty : content.take (k - 1) ≠ [] := by
            apply List.ne_nil_of_length_pos
            omega
          rw [List.getLast?_eq_some_getLast nonempty]
          split
          · refine ⟨_, rfl, ?_⟩
            dsimp only
            split
            · exact Nat.le_refl k
            · exact Nat.zero_le k
          · exact ⟨_, rfl, Nat.zero_le k⟩
    | some position =>
        have inside := str.rfindany_lt found
        have readLast : slice content (position + 1) (k - 1) =
            some ((content.take (k - 1)).drop (position + 1)) := by
          rw [slice, if_pos ⟨by omega, by omega⟩]
        dsimp only
        rw [readLast, Option.bind_some]
        split
        · exact ⟨_, rfl, Nat.le_refl k⟩
        · exact ⟨_, rfl, by change position + 1 ≤ k; omega⟩
  next =>
    split
    · exact ⟨_, rfl, Nat.le_refl k⟩
    · exact ⟨_, rfl, Nat.le_refl k⟩

theorem place_filled (filled : Filled dst k content) (part : List Byte) :
    place str config dst k part = place str config content content.length part := by
  rw [place, place, filled.length]
  split
  · exact parent_filled filled
  · rfl

theorem place_total (content part : List Byte) :
    ∃ up, place str config content content.length part = some up ∧ up.place ≤ content.length := by
  rw [place]
  split
  · exact parent_total rfl
  · exact ⟨_, rfl, Nat.le_refl _⟩

end Place

/-! ### The run without a limit -/

/-- A run with unlimited capacity: the mode, the output so far, and the length of the output
after each component that was appended, the last one first. -/
structure Unlimited where
  mode : Mode
  output : List Byte
  lengths : List Nat

/-- The loop body of such a run. None is an access out of range. -/
def unlimitedIteration (str : Ffstr) (config : Settings) (run : Unlimited) (p : Piece Byte) :
    Option Unlimited := do
  let (admitted, mode) ← admits run.mode p.1
  if admitted then
    match ← place str config run.output run.output.length p.1 with
    | .skip k => some { run with mode := mode, output := run.output.take k }
    | .append k =>
        let output := run.output.take k ++ ((written config p).1 ++ (written config p).2.toList)
        some ⟨mode, output, output.length :: run.lengths⟩
  else some { run with mode := mode }

def unlimitedLoop (str : Ffstr) (config : Settings) : List (Piece Byte) → Unlimited →
    Option Unlimited
  | [], run => some run
  | p :: rest, run => (unlimitedIteration str config run p).bind (unlimitedLoop str config rest)

/-- `ffpath_normalize` with unlimited capacity. -/
def unlimitedRun (str : Ffstr) (win : Bool) (src : List Byte) (flags : Flags) : Option Unlimited :=
  let config := settings win flags
  unlimitedLoop str config (parts config.slashes src)
    ⟨⟨config.simple, config.disk && config.simple⟩, [], []⟩

/-- The output has grown by no more than `size`, and it was never longer in between. -/
structure Grows (run next : Unlimited) (size : Nat) : Prop where
  output : next.output.length ≤ run.output.length + size
  lengths : ∃ added, next.lengths = added ++ run.lengths ∧
    ∀ n ∈ added, n ≤ run.output.length + size

theorem Grows.trans {run between next : Unlimited} {size more : Nat}
    (first : Grows run between size) (second : Grows between next more) :
    Grows run next (size + more) := by
  obtain ⟨added, lengths, bound⟩ := first.lengths
  obtain ⟨later, lengthsLater, boundLater⟩ := second.lengths
  have output := first.output
  refine ⟨Nat.le_trans second.output (by omega), later ++ added, ?_, ?_⟩
  · rw [lengthsLater, lengths, List.append_assoc]
  · intro n member
    rcases List.mem_append.mp member with inLater | inAdded
    · exact Nat.le_trans (boundLater n inLater) (by omega)
    · exact Nat.le_trans (bound n inAdded) (by omega)

/-- The loop is where the run without a limit is, and nothing was too long so far. -/
structure Tracks (state : State) (run : Unlimited) : Prop where
  mode : state.mode = run.mode
  filled : Filled state.dst state.k run.output
  fits : ∀ n ∈ run.lengths, n ≤ state.dst.length

section Loop

variable {str : Ffstr} {config : Settings} {state : State} {run : Unlimited}

/-- An iteration without a limit always succeeds. -/
theorem unlimitedIteration_total (run : Unlimited) (p : Piece Byte) :
    ∃ next, unlimitedIteration str config run p = some next ∧
      Grows run next (p.1 ++ p.2.toList).length := by
  rw [unlimitedIteration, admits_eq, Option.bind_eq_bind, Option.bind_some]
  rcases admitted run.mode p.1 with ⟨goesOn | goesOn, mode⟩
  · exact ⟨_, rfl, Nat.le_add_right _ _, [], rfl, List.forall_mem_nil _⟩
  · obtain ⟨up, placed, back⟩ := @place_total str config run.output p.1
    simp only [if_true]
    rw [placed, Option.bind_eq_bind, Option.bind_some]
    have shorter : (run.output.take up.place).length ≤ run.output.length :=
      List.length_take_le' _ _
    cases up with
    | skip k => exact ⟨_, rfl, Nat.le_trans shorter (Nat.le_add_right _ _), [], rfl,
        List.forall_mem_nil _⟩
    | append k =>
        have bound : (run.output.take k ++
            ((written config p).1 ++ (written config p).2.toList)).length ≤
              run.output.length + (p.1 ++ p.2.toList).length := by
          rw [List.length_append, written_length]
          exact Nat.add_le_add_right shorter _
        exact ⟨_, rfl, bound, [_], rfl, List.forall_mem_singleton.mpr bound⟩

/-- A state that tracks the run has not failed, and nothing was too long. -/
theorem Tracks.follows {size : Nat} (tracks : Tracks state run) (length : state.dst.length = size) :
    (some state = none ↔ ∃ n ∈ run.lengths, size < n) ∧
      ∀ final ∈ some state, Tracks final run ∧ final.dst.length = size := by
  constructor
  · apply iff_of_false (Option.some_ne_none state)
    rintro ⟨n, member, tooLong⟩
    exact absurd (tracks.fits n member) (Nat.not_le_of_lt (length ▸ tooLong))
  · intro final member
    rw [← Option.mem_some_iff.mp member]
    exact ⟨tracks, length⟩

/-- A failure is one where something was too long. -/
theorem fails_of_tooLong {size n : Nat} (member : n ∈ run.lengths) (tooLong : size < n) :
    ((none : Option State) = none ↔ ∃ n ∈ run.lengths, size < n) ∧
      ∀ final ∈ (none : Option State), Tracks final run ∧ final.dst.length = size := by
  constructor
  · exact iff_of_true rfl ⟨n, member, tooLong⟩
  · intro final inside
    exact absurd inside (Option.not_mem_none final)

/-- An iteration does the same, unless the component does not fit. -/
theorem normalizeIteration_unlimited (tracks : Tracks state run) {p : Piece Byte}
    {next : Unlimited} (stepped : unlimitedIteration str config run p = some next) :
    ∃ result, normalizeIteration str config state p.1 p.2 = some result ∧
      (result = none ↔ ∃ n ∈ next.lengths, state.dst.length < n) ∧
      ∀ after ∈ result, Tracks after next ∧ after.dst.length = state.dst.length := by
  rw [unlimitedIteration, admits_eq, Option.bind_eq_bind, Option.bind_some] at stepped
  rw [normalizeIteration, tracks.mode, admits_eq, Option.bind_eq_bind, Option.bind_some]
  generalize admitted run.mode p.1 = admission at stepped ⊢
  obtain ⟨goesOn | goesOn, mode⟩ := admission
  · obtain rfl := Option.some.inj stepped
    have same : Tracks ⟨state.dst, state.k, mode⟩ ⟨mode, run.output, run.lengths⟩ :=
      ⟨rfl, tracks.filled, tracks.fits⟩
    exact ⟨_, rfl, same.follows rfl⟩
  · obtain ⟨up, placed, back⟩ := @place_total str config run.output p.1
    simp only [if_true] at stepped ⊢
    rw [placed, Option.bind_eq_bind, Option.bind_some] at stepped
    rw [place_filled tracks.filled, placed, Option.bind_eq_bind, Option.bind_some]
    have filled : Filled state.dst up.place (run.output.take up.place) :=
      tracks.filled.truncate (tracks.filled.length ▸ back)
    cases up with
    | skip k =>
        obtain rfl := Option.some.inj stepped
        have back : Tracks ⟨state.dst, k, mode⟩ ⟨mode, run.output.take k, run.lengths⟩ :=
          ⟨rfl, filled, tracks.fits⟩
        exact ⟨_, rfl, back.follows rfl⟩
    | append k =>
        obtain rfl := Option.some.inj stepped
        rw [Parent.place] at filled
        have size : (run.output.take k ++
            ((written config p).1 ++ (written config p).2.toList)).length =
              k + (p.1 ++ p.2.toList).length := by
          rw [List.length_append, filled.length, written_length]
        by_cases fits : k + (p.1 ++ p.2.toList).length ≤ state.dst.length
        · obtain ⟨after, appended, filledAfter, length⟩ :=
            @appendPart_fits config _ _ _ filled p fits
          have allFit : ∀ n ∈ (run.output.take k ++
              ((written config p).1 ++ (written config p).2.toList)).length :: run.lengths,
                n ≤ state.dst.length :=
            List.forall_mem_cons.mpr ⟨size ▸ fits, tracks.fits⟩
          have longer : Tracks ⟨after, _, mode⟩ ⟨mode, _, _ :: run.lengths⟩ :=
            ⟨rfl, filledAfter, fun n inside => length ▸ allFit n inside⟩
          exact ⟨_, by simp only [appended]; rfl, longer.follows length⟩
        · have tooLong := Nat.lt_of_not_le fits
          refine ⟨none, by simp only [appendPart_tooLong tooLong]; rfl, ?_⟩
          exact fails_of_tooLong List.mem_cons_self (size ▸ tooLong)

theorem unlimitedLoop_total (ps : List (Piece Byte)) (run : Unlimited) :
    ∃ last, unlimitedLoop str config ps run = some last ∧ Grows run last (render ps).length := by
  induction ps generalizing run with
  | nil => exact ⟨run, rfl, Nat.le_refl _, [], rfl, List.forall_mem_nil _⟩
  | cons p rest inductionHypothesis =>
      obtain ⟨next, stepped, grows⟩ := @unlimitedIteration_total str config run p
      obtain ⟨last, looped, growsRest⟩ := inductionHypothesis next
      refine ⟨last, ?_, ?_⟩
      · rw [unlimitedLoop, stepped, Option.bind_some, looped]
      · rw [render_cons, List.length_append]
        exact grows.trans growsRest

/-- The loop does what the run without a limit does, unless a component does not fit. -/
theorem normalizeLoop_unlimited {ps : List (Piece Byte)} (well : WellParted config.slashes ps)
    (tracks : Tracks state run) {last : Unlimited}
    (looped : unlimitedLoop str config ps run = some last) :
    ∃ result, normalizeLoop str config (render ps) state = some result ∧
      (result = none ↔ ∃ n ∈ last.lengths, state.dst.length < n) ∧
      ∀ final ∈ result, Tracks final last ∧ final.dst.length = state.dst.length := by
  induction well generalizing state run with
  | nil =>
      obtain rfl := Option.some.inj looped
      exact ⟨some state, by simp [normalizeLoop], tracks.follows rfl⟩
  | @opened name nonempty clean =>
      obtain ⟨next, stepped, _⟩ := @unlimitedIteration_total str config run (name, none)
      rw [unlimitedLoop, stepped] at looped
      obtain rfl : next = last := Option.some.inj looped
      rw [render_cons, render_nil, Option.toList_none, List.append_nil, List.append_nil,
        normalizeLoop_open clean nonempty]
      exact normalizeIteration_unlimited tracks stepped
  | @closed p rest first _ inductionHypothesis =>
      obtain ⟨next, stepped, _⟩ := @unlimitedIteration_total str config run p
      obtain ⟨result, iterated, failed, followed⟩ := normalizeIteration_unlimited tracks stepped
      rw [unlimitedLoop, stepped, Option.bind_some] at looped
      rw [normalizeLoop_closed first, iterated, Option.bind_some]
      cases result with
      | none =>
          -- What was too long stays recorded to the end of the run.
          obtain ⟨n, member, tooLong⟩ := failed.mp rfl
          obtain ⟨other, loopedOther, grows⟩ := @unlimitedLoop_total str config rest next
          obtain rfl : other = last := Option.some.inj (loopedOther.symm.trans looped)
          obtain ⟨added, lengths, _⟩ := grows.lengths
          refine ⟨none, rfl, fails_of_tooLong ?_ tooLong⟩
          rw [lengths]
          exact List.mem_append_right added member
      | some after =>
          obtain ⟨tracksAfter, length⟩ := followed after rfl
          obtain ⟨result, loopedRest, failedRest, final⟩ := inductionHypothesis tracksAfter looped
          rw [length] at failedRest final
          exact ⟨result, loopedRest, failedRest, final⟩

end Loop

/-! ### The contract -/

/-- A run with any capacity follows the one without a limit, or fails where that one is longer
than the capacity. -/
theorem ffpathNormalize_tracks {str : Ffstr} {win : Bool} {src : List Byte} {flags : Flags}
    {last : Unlimited} (looped : unlimitedRun str win src flags = some last) (buffer : List Byte) :
    ∃ result : Option State,
      ffpathNormalize str win buffer src flags =
        some (result.map fun state => (state.dst, state.k)) ∧
      (result = none ↔ ∃ n ∈ last.lengths, buffer.length < n) ∧
      ∀ final ∈ result, Tracks final last ∧ final.dst.length = buffer.length := by
  have tracks : Tracks ⟨buffer, 0, (start (settings win flags)).1⟩
      ⟨(start (settings win flags)).1, [], []⟩ := ⟨rfl, .empty buffer, List.forall_mem_nil _⟩
  obtain ⟨result, loopedSrc, failed, final⟩ :=
    normalizeLoop_unlimited (parts_wellParted _ src) tracks looped
  rw [render_parts] at loopedSrc
  exact ⟨result, congrArg (Option.map _) loopedSrc, failed, final⟩

/-- No access of `ffpath_normalize` is out of range. It returns no more than its capacity and
the length of the source, it fails exactly if the run without a limit is longer than the
capacity after some component, which it is not with room for the source, and with more room
it returns the same. -/
theorem ffpathNormalize_capacity (str : Ffstr) (win : Bool) (dst src : List Byte) (flags : Flags) :
    ∃ result unlimited, ffpathNormalize str win dst src flags = some result ∧
      unlimitedRun str win src flags = some unlimited ∧
      (∀ after n, result = some (after, n) → n ≤ min dst.length src.length ∧
        after.length = dst.length ∧ Filled after n unlimited.output) ∧
      (src.length ≤ dst.length → result ≠ none) ∧
      (result = none ↔ ∃ n ∈ unlimited.lengths, dst.length < n) ∧
      ∀ after n, result = some (after, n) → ∀ larger : List Byte, dst.length ≤ larger.length →
        ∃ again, ffpathNormalize str win larger src flags = some (some (again, n)) ∧
          again.take n = after.take n := by
  obtain ⟨last, looped, grows⟩ := @unlimitedLoop_total str (settings win flags)
    (parts (settings win flags).slashes src) ⟨(start (settings win flags)).1, [], []⟩
  obtain ⟨added, lengths, bound⟩ := grows.lengths
  rw [render_parts] at bound
  rw [List.append_nil] at lengths
  have outputLength := grows.output
  rw [render_parts] at outputLength
  simp only [List.length_nil, Nat.zero_add] at outputLength bound
  obtain ⟨result, returned, failed, final⟩ := ffpathNormalize_tracks looped dst
  have succeeded : ∀ after n, (result.map fun state => (state.dst, state.k)) = some (after, n) →
      ∃ state, result = some state ∧ state.dst = after ∧ state.k = n := by
    intro after n isPair
    obtain ⟨state, isState, pair⟩ := Option.map_eq_some_iff.mp isPair
    exact ⟨state, isState, congrArg Prod.fst pair, congrArg Prod.snd pair⟩
  refine ⟨_, last, returned, looped, ?_, ?_, ?_, ?_⟩
  · intro after n isPair
    obtain ⟨state, rfl, rfl, rfl⟩ := succeeded after n isPair
    obtain ⟨tracks, length⟩ := final state rfl
    have inside := tracks.filled.length_le
    have size := tracks.filled.length
    exact ⟨by omega, length, tracks.filled⟩
  · intro room isNone
    obtain ⟨n, member, tooLong⟩ := failed.mp (Option.map_eq_none_iff.mp isNone)
    rw [lengths] at member
    have short := bound n member
    omega
  · rw [Option.map_eq_none_iff]
    exact failed
  · intro after n isPair larger more
    obtain ⟨state, rfl, rfl, rfl⟩ := succeeded after n isPair
    obtain ⟨again, returnedAgain, failedAgain, finalAgain⟩ := ffpathNormalize_tracks looped larger
    cases again with
    | none =>
        obtain ⟨n, member, tooLong⟩ := failedAgain.mp rfl
        have fails := failed.mpr ⟨n, member, Nat.lt_of_le_of_lt more tooLong⟩
        exact absurd fails (Option.some_ne_none state)
    | some other =>
        have filled := (final state rfl).1.filled
        have filledOther := (finalAgain other rfl).1.filled
        have sameLength : other.k = state.k := filledOther.length.symm.trans filled.length
        refine ⟨other.dst, ?_, ?_⟩
        · rw [returnedAgain, Option.map_some, sameLength]
        · rw [filled.take, ← sameLength, filledOther.take]

end Ffos.Path
