/-
Module: Ffos.Process.Split
Purpose: What the C runtime makes of the command line that `_ffargv_to_cmdln` builds,
  and which arguments come through.
Trusted boundary: none
Main exports: absorb, splitCmdline_head, splitCmdline_cmdline_iff, cmdline_splits_iff
-/
import Ffos.Process.Encode

namespace Ffos.Process

open Ffos.Lib

/-! ### One character -/

section Steps

variable {current : Option (List Wchar)} {quoted : Bool} {pending : Nat} {c : Wchar}
  {rest : List Wchar}

/-- A character that stands for itself: not a quote, and not a separator outside of
quotes. -/
structure Plain (quoted : Bool) (c : Wchar) : Prop where
  notQuote : c ≠ quote
  notSeparator : quoted = false → c ≠ space ∧ c ≠ tab

theorem splitFrom_backslash :
    splitFrom current quoted pending (backslash :: rest) =
      splitFrom (some (current.getD [])) quoted (pending + 1) rest := by
  rw [splitFrom]
  exact if_pos rfl

theorem splitFrom_plain (plain : Plain quoted c) (notBackslash : c ≠ backslash) :
    splitFrom current quoted pending (c :: rest) =
      splitFrom (some (current.getD [] ++ List.replicate pending backslash ++ [c])) quoted 0
        rest := by
  have notSeparator : ¬ ((c = space ∨ c = tab) ∧ quoted = false) := by
    rintro ⟨separator, outside⟩
    obtain ⟨notSpace, notTab⟩ := plain.notSeparator outside
    exact separator.elim notSpace notTab
  rw [splitFrom]
  dsimp only
  rw [if_neg notBackslash, if_neg plain.notQuote, if_neg notSeparator]

theorem splitFrom_separator (separator : c = space ∨ c = tab) :
    splitFrom current false pending (c :: rest) =
      (current.map fun arg => arg ++ List.replicate pending backslash).toList ++
        splitFrom none false 0 rest := by
  have notBackslash : c ≠ backslash := by rcases separator with rfl | rfl <;> decide
  have notQuote : c ≠ quote := by rcases separator with rfl | rfl <;> decide
  rw [splitFrom]
  dsimp only
  rw [if_neg notBackslash, if_neg notQuote, if_pos ⟨separator, rfl⟩]

theorem splitFrom_quote :
    splitFrom current quoted pending (quote :: rest) =
      if pending % 2 = 1 then
        splitFrom (some (current.getD [] ++ List.replicate (pending / 2) backslash ++ [quote]))
          quoted 0 rest
      else splitFrom (some (current.getD [] ++ List.replicate (pending / 2) backslash)) (!quoted) 0
        rest := by
  have notBackslash : quote ≠ backslash := by decide
  rw [splitFrom]
  dsimp only
  rw [if_neg notBackslash, if_pos rfl]

end Steps

/-! ### A run of plain characters -/

/-- The argument and its pending backslashes after plain characters. -/
def absorb : List Wchar × Nat → List Wchar → List Wchar × Nat
  | state, [] => state
  | (arg, pending), c :: rest =>
      if c = backslash then absorb (arg, pending + 1) rest
      else absorb (arg ++ List.replicate pending backslash ++ [c], 0) rest

theorem splitFrom_absorb {quoted : Bool} {run : List Wchar} (plain : ∀ c ∈ run, Plain quoted c)
    (arg : List Wchar) (pending : Nat) (rest : List Wchar) :
    splitFrom (some arg) quoted pending (run ++ rest) =
      splitFrom (some (absorb (arg, pending) run).1) quoted (absorb (arg, pending) run).2 rest := by
  induction run generalizing arg pending with
  | nil => rfl
  | cons c run inductionHypothesis =>
    have later := inductionHypothesis fun other member => plain other (List.mem_cons_of_mem _ member)
    rw [List.cons_append, absorb]
    by_cases isBackslash : c = backslash
    · rw [if_pos isBackslash, isBackslash, splitFrom_backslash, Option.getD_some, later]
    · rw [if_neg isBackslash, splitFrom_plain (plain c List.mem_cons_self) isBackslash,
        Option.getD_some, later]

/-- Nothing is lost. -/
theorem absorb_text (state : List Wchar × Nat) (run : List Wchar) :
    (absorb state run).1 ++ List.replicate (absorb state run).2 backslash =
      state.1 ++ List.replicate state.2 backslash ++ run := by
  induction run generalizing state with
  | nil => simp [absorb]
  | cons c run inductionHypothesis =>
    obtain ⟨arg, pending⟩ := state
    rw [absorb]
    by_cases isBackslash : c = backslash
    · rw [if_pos isBackslash, inductionHypothesis, isBackslash]
      simp [List.replicate_succ', List.append_assoc]
    · rw [if_neg isBackslash, inductionHypothesis]
      simp [List.append_assoc]

theorem absorb_concat (state : List Wchar × Nat) (run : List Wchar) (c : Wchar) :
    absorb state (run ++ [c]) =
      if c = backslash then ((absorb state run).1, (absorb state run).2 + 1)
      else ((absorb state run).1 ++ List.replicate (absorb state run).2 backslash ++ [c], 0) := by
  induction run generalizing state with
  | nil =>
    obtain ⟨arg, pending⟩ := state
    rw [List.nil_append, absorb, absorb, absorb, absorb]
  | cons first run inductionHypothesis =>
    obtain ⟨arg, pending⟩ := state
    rw [List.cons_append, absorb, absorb]
    split
    · exact inductionHypothesis _
    · exact inductionHypothesis _

/-- Backslashes are pending exactly after a run that ends in one. -/
theorem absorb_pending_iff {run : List Wchar} (nonempty : run ≠ []) (state : List Wchar × Nat) :
    0 < (absorb state run).2 ↔ run.getLast? = some backslash := by
  rcases List.eq_nil_or_concat' run with rfl | ⟨front, last, rfl⟩
  · exact absurd rfl nonempty
  · rw [absorb_concat, List.getLast?_concat]
    split
    · simp [*]
    · simp [*]

/-- A character other than a backslash is in the argument at once. -/
theorem mem_absorb {run : List Wchar} {c : Wchar} (member : c ∈ run) (notBackslash : c ≠ backslash)
    (state : List Wchar × Nat) : c ∈ (absorb state run).1 := by
  have inText : c ∈ (absorb state run).1 ++ List.replicate (absorb state run).2 backslash := by
    rw [absorb_text]
    exact List.mem_append_right _ member
  rcases List.mem_append.mp inText with inArg | pending
  · exact inArg
  · exact absurd (List.eq_of_mem_replicate pending) notBackslash

/-! ### One argument -/

/-- Between arguments a space is skipped. -/
theorem splitFrom_spaced (rest : List Arg) :
    splitFrom none false 0 (spaced rest) = splitCmdline (cmdline rest) := by
  cases rest with
  | nil => rfl
  | cons arg rest =>
    rw [spaced, List.flatMap_cons, List.cons_append, splitFrom_separator (Or.inl rfl), ← spaced]
    rfl

/-- An argument ends at a space or at the end of the line. -/
theorem splitFrom_end (arg : List Wchar) (pending : Nat) (rest : List Arg) :
    splitFrom (some arg) false pending (spaced rest) =
      (arg ++ List.replicate pending backslash) :: splitCmdline (cmdline rest) := by
  cases rest with
  | nil => rfl
  | cons next rest =>
    rw [spaced, List.flatMap_cons, List.cons_append, splitFrom_separator (Or.inl rfl), ← spaced]
    rfl

/-- What has begun is the beginning of the next argument. -/
theorem splitFrom_some (arg : List Wchar) (quoted : Bool) (pending : Nat) (rest : List Wchar) :
    ∃ more later, splitFrom (some arg) quoted pending rest = (arg ++ more) :: later := by
  induction rest generalizing arg quoted pending with
  | nil => exact ⟨List.replicate pending backslash, [], rfl⟩
  | cons c rest inductionHypothesis =>
    have extends_ : ∀ (extra : List Wchar) (quoted : Bool) (pending : Nat), ∃ more later,
        splitFrom (some (arg ++ extra)) quoted pending rest = (arg ++ more) :: later := by
      intro extra quoted pending
      obtain ⟨more, later, split⟩ := inductionHypothesis (arg ++ extra) quoted pending
      exact ⟨extra ++ more, later, by rw [split, List.append_assoc]⟩
    by_cases isBackslash : c = backslash
    · rw [isBackslash, splitFrom_backslash]
      exact inductionHypothesis arg quoted (pending + 1)
    · by_cases isQuote : c = quote
      · rw [isQuote, splitFrom_quote]
        split
        · rw [Option.getD_some, List.append_assoc]
          exact extends_ _ quoted 0
        · exact extends_ _ (!quoted) 0
      · by_cases separator : (c = space ∨ c = tab) ∧ quoted = false
        · obtain ⟨separator, rfl⟩ := separator
          rw [splitFrom_separator separator]
          exact ⟨List.replicate pending backslash, splitFrom none false 0 rest, rfl⟩
        · have plain : Plain quoted c := by
            refine ⟨isQuote, ?_⟩
            intro outside
            exact not_or.mp fun either => separator ⟨either, outside⟩
          rw [splitFrom_plain plain isBackslash, Option.getD_some, List.append_assoc]
          exact extends_ _ quoted 0

/-- The characters of an argument that has no quotes. -/
theorem plain_of_quoted {arg : Arg} (noQuotes : '"' ∉ arg.text) :
    ∀ c ∈ utf16 arg.text, Plain true c := by
  intro c member
  refine ⟨?_, ?_⟩
  · rintro rfl
    exact noQuotes ((@mem_utf16_iff '"' (by decide) arg.text).mp member)
  · intro outside
    cases outside

theorem mem_space_iff (arg : Arg) : space ∈ utf16 arg.text ↔ ' ' ∈ arg.text :=
  @mem_utf16_iff ' ' (by decide) arg.text

theorem mem_tab_iff (arg : Arg) : tab ∈ utf16 arg.text ↔ '\t' ∈ arg.text :=
  @mem_utf16_iff '\t' (by decide) arg.text

/-- An argument in quotes: the closing quote sees the backslashes before it. -/
theorem splitCmdline_quoted {arg : Arg} (noQuotes : '"' ∉ arg.text) (hasSpace : ' ' ∈ arg.text)
    (rest : List Arg) :
    splitCmdline (cmdline (arg :: rest)) =
      let (front, pending) := absorb ([], 0) (utf16 arg.text)
      if pending % 2 = 1 then
        splitFrom (some (front ++ List.replicate (pending / 2) backslash ++ [quote])) true 0
          (spaced rest)
      else (front ++ List.replicate (pending / 2) backslash) :: splitCmdline (cmdline rest) := by
  have rendered : arg.rendered = quote :: (utf16 arg.text ++ [quote]) := if_pos hasSpace
  rw [cmdline, rendered, List.cons_append, List.append_assoc, List.singleton_append, splitCmdline,
    splitFrom_quote]
  rw [if_neg (by decide)]
  change splitFrom (some []) true 0 (utf16 arg.text ++ quote :: spaced rest) = _
  rw [splitFrom_absorb (plain_of_quoted noQuotes), splitFrom_quote, Option.getD_some]
  dsimp only
  split
  · rfl
  · rw [Bool.not_true, splitFrom_end, List.replicate_zero, List.append_nil]

/-- An argument without quotes, spaces and tabs is taken as it is. -/
theorem splitCmdline_raw {arg : Arg} (noQuotes : '"' ∉ arg.text) (noSpace : ' ' ∉ arg.text)
    (noTab : '\t' ∉ arg.text) (nonempty : arg.text ≠ []) (rest : List Arg) :
    splitCmdline (cmdline (arg :: rest)) = utf16 arg.text :: splitCmdline (cmdline rest) := by
  have rendered : arg.rendered = utf16 arg.text := if_neg noSpace
  have plain : ∀ c ∈ utf16 arg.text, Plain false c := by
    intro c member
    refine ⟨(plain_of_quoted noQuotes c member).notQuote, fun _ => ⟨?_, ?_⟩⟩
    · rintro rfl
      exact noSpace ((mem_space_iff arg).mp member)
    · rintro rfl
      exact noTab ((mem_tab_iff arg).mp member)
  have begun : splitFrom none false 0 (utf16 arg.text ++ spaced rest) =
      splitFrom (some []) false 0 (utf16 arg.text ++ spaced rest) := by
    cases units : utf16 arg.text with
    | nil => exact absurd ((utf16_eq_nil_iff arg.text).mp units) nonempty
    | cons c run =>
      rw [List.cons_append]
      by_cases isBackslash : c = backslash
      · rw [isBackslash, splitFrom_backslash, splitFrom_backslash]
        rfl
      · have first := plain c (by rw [units]; exact List.mem_cons_self)
        rw [splitFrom_plain first isBackslash, splitFrom_plain first isBackslash]
        rfl
  rw [cmdline, rendered, splitCmdline, begun, splitFrom_absorb plain, splitFrom_end, absorb_text]
  rfl

/-! ### The first argument found -/

/-- What is found first of a line: it is not empty, and a tab in it was in quotes, with
a space. -/
def HeadOk (split : List (List Wchar)) : Prop :=
  ∀ head later, split = head :: later → head ≠ [] ∧ (tab ∈ head → space ∈ head)

/-- Outside of quotes an argument that has begun ends before a tab. -/
theorem headOk_some {run : List Wchar} (noQuote : quote ∉ run) (noSpace : space ∉ run)
    {arg : List Wchar} {pending : Nat} (begun : arg ++ List.replicate pending backslash ≠ [])
    (noTab : tab ∉ arg) (rest : List Arg) :
    HeadOk (splitFrom (some arg) false pending (run ++ spaced rest)) := by
  have found : ∀ (arg : List Wchar) (pending : Nat) (later : List (List Wchar)),
      arg ++ List.replicate pending backslash ≠ [] → tab ∉ arg →
        HeadOk ((arg ++ List.replicate pending backslash) :: later) := by
    intro arg pending later begun noTab head others split
    obtain ⟨rfl, _⟩ := List.cons.inj split
    refine ⟨begun, ?_⟩
    intro member
    rcases List.mem_append.mp member with inArg | inPending
    · exact absurd inArg noTab
    · exact absurd (List.eq_of_mem_replicate inPending) (by decide)
  induction run generalizing arg pending with
  | nil =>
    rw [List.nil_append, splitFrom_end]
    exact found arg pending _ begun noTab
  | cons c run inductionHypothesis =>
    have later := @inductionHypothesis
      (fun member => noQuote (List.mem_cons_of_mem _ member))
      (fun member => noSpace (List.mem_cons_of_mem _ member))
    have notQuote : c ≠ quote := fun equal => noQuote (equal ▸ List.mem_cons_self)
    have notSpace : c ≠ space := fun equal => noSpace (equal ▸ List.mem_cons_self)
    rw [List.cons_append]
    by_cases isBackslash : c = backslash
    · rw [isBackslash, splitFrom_backslash, Option.getD_some]
      refine later ?_ noTab
      rw [List.replicate_succ', ← List.append_assoc]
      exact List.append_ne_nil_of_right_ne_nil _ (List.cons_ne_nil _ _)
    · by_cases isTab : c = tab
      · rw [splitFrom_separator (Or.inr isTab)]
        exact found arg pending _ begun noTab
      · rw [splitFrom_plain ⟨notQuote, fun _ => ⟨notSpace, isTab⟩⟩ isBackslash, Option.getD_some]
        refine later ?_ ?_
        · rw [List.replicate_zero, List.append_nil]
          exact List.append_ne_nil_of_right_ne_nil _ (List.cons_ne_nil _ _)
        · intro member
          rcases List.mem_append.mp member with inFront | last
          · rcases List.mem_append.mp inFront with inArg | inPending
            · exact noTab inArg
            · exact absurd (List.eq_of_mem_replicate inPending) (by decide)
          · exact isTab (List.mem_singleton.mp last).symm

/-- Tabs between arguments are skipped. -/
theorem headOk_none {run : List Wchar} (noQuote : quote ∉ run) (noSpace : space ∉ run)
    (rest : List Arg) (restOk : HeadOk (splitCmdline (cmdline rest))) :
    HeadOk (splitFrom none false 0 (run ++ spaced rest)) := by
  induction run with
  | nil =>
    rw [List.nil_append, splitFrom_spaced]
    exact restOk
  | cons c run inductionHypothesis =>
    have noQuoteLater : quote ∉ run := fun member => noQuote (List.mem_cons_of_mem _ member)
    have noSpaceLater : space ∉ run := fun member => noSpace (List.mem_cons_of_mem _ member)
    have notQuote : c ≠ quote := fun equal => noQuote (equal ▸ List.mem_cons_self)
    have notSpace : c ≠ space := fun equal => noSpace (equal ▸ List.mem_cons_self)
    rw [List.cons_append]
    by_cases isBackslash : c = backslash
    · rw [isBackslash, splitFrom_backslash]
      exact headOk_some noQuoteLater noSpaceLater (List.cons_ne_nil _ _) List.not_mem_nil rest
    · by_cases isTab : c = tab
      · rw [splitFrom_separator (Or.inr isTab)]
        exact inductionHypothesis noQuoteLater noSpaceLater
      · rw [splitFrom_plain ⟨notQuote, fun _ => ⟨notSpace, isTab⟩⟩ isBackslash]
        refine headOk_some noQuoteLater noSpaceLater (List.cons_ne_nil _ _) ?_ rest
        intro member
        exact isTab (List.mem_singleton.mp member).symm

/-- The first argument that is found of any command line. -/
theorem splitCmdline_head {argv : List Arg} (noQuotes : ∀ arg ∈ argv, '"' ∉ arg.text) :
    HeadOk (splitCmdline (cmdline argv)) := by
  induction argv with
  | nil =>
    intro head later split
    cases split
  | cons arg rest inductionHypothesis =>
    have restOk := inductionHypothesis fun other member =>
      noQuotes other (List.mem_cons_of_mem _ member)
    have noQuote := noQuotes arg List.mem_cons_self
    by_cases hasSpace : ' ' ∈ arg.text
    · have inFront : space ∈ (absorb ([], 0) (utf16 arg.text)).1 :=
        mem_absorb ((mem_space_iff arg).mpr hasSpace) (by decide) _
      have withSpace : ∀ head later, splitCmdline (cmdline (arg :: rest)) = head :: later →
          space ∈ head := by
        intro head later split
        rw [splitCmdline_quoted noQuote hasSpace] at split
        dsimp only at split
        split at split
        · obtain ⟨more, others, found⟩ := splitFrom_some
            ((absorb ([], 0) (utf16 arg.text)).1 ++
              List.replicate ((absorb ([], 0) (utf16 arg.text)).2 / 2) backslash ++ [quote])
            true 0 (spaced rest)
          rw [found] at split
          obtain ⟨rfl, _⟩ := List.cons.inj split
          simp [inFront]
        · obtain ⟨rfl, _⟩ := List.cons.inj split
          exact List.mem_append_left _ inFront
      intro head later split
      have member := withSpace head later split
      exact ⟨List.ne_nil_of_mem member, fun _ => member⟩
    · have rendered : arg.rendered = utf16 arg.text := if_neg hasSpace
      rw [cmdline, rendered, splitCmdline]
      refine headOk_none ?_ ?_ rest restOk
      · intro member
        exact noQuote ((@mem_utf16_iff '"' (by decide) arg.text).mp member)
      · intro member
        exact hasSpace ((mem_space_iff arg).mp member)

/-! ### All arguments -/

/-- An argument that survives is found, and then the others. -/
theorem splitCmdline_survives {arg : Arg} (noQuotes : '"' ∉ arg.text) (survives : Survives arg)
    (rest : List Arg) :
    splitCmdline (cmdline (arg :: rest)) = utf16 arg.text :: splitCmdline (cmdline rest) := by
  by_cases hasSpace : ' ' ∈ arg.text
  · have units : utf16 arg.text ≠ [] := fun empty =>
      survives.nonempty ((utf16_eq_nil_iff arg.text).mp empty)
    have noPending : (absorb ([], 0) (utf16 arg.text)).2 = 0 := by
      rcases Nat.eq_zero_or_pos (absorb ([], 0) (utf16 arg.text)).2 with zero | positive
      · exact zero
      · have last := (absorb_pending_iff units _).mp positive
        exact absurd ((@getLast?_utf16_iff '\\' (by decide) arg.text).mp last)
          (survives.quoted hasSpace)
    have front := absorb_text ([], 0) (utf16 arg.text)
    rw [noPending] at front
    simp only [List.replicate_zero, List.append_nil, List.nil_append] at front
    rw [splitCmdline_quoted noQuotes hasSpace]
    dsimp only
    rw [noPending, if_neg (by decide), front]
    simp
  · exact splitCmdline_raw noQuotes hasSpace (fun isTab => hasSpace (survives.tabs isTab))
      survives.nonempty rest

/-- Another argument is not what is found. -/
theorem splitCmdline_not_survives {arg : Arg} {rest : List Arg}
    (noQuotes : ∀ other ∈ arg :: rest, '"' ∉ other.text) (lost : ¬ Survives arg)
    (later : List (List Wchar)) :
    splitCmdline (cmdline (arg :: rest)) ≠ utf16 arg.text :: later := by
  intro split
  have noQuote := noQuotes arg List.mem_cons_self
  obtain ⟨nonempty, tabs⟩ := splitCmdline_head noQuotes _ _ split
  refine lost ⟨?_, ?_, ?_⟩
  · rintro empty
    exact nonempty ((utf16_eq_nil_iff arg.text).mpr empty)
  · intro isTab
    exact (mem_space_iff arg).mp (tabs ((mem_tab_iff arg).mpr isTab))
  · intro hasSpace last
    have text := absorb_text ([], 0) (utf16 arg.text)
    have positive := (absorb_pending_iff nonempty ([], 0)).mpr
      ((@getLast?_utf16_iff '\\' (by decide) arg.text).mpr last)
    rw [splitCmdline_quoted noQuote hasSpace] at split
    dsimp only at split
    generalize absorb ([], 0) (utf16 arg.text) = state at text positive split
    obtain ⟨front, pending⟩ := state
    simp only [List.replicate_zero, List.append_nil, List.nil_append] at text positive split
    split at split
    · -- an odd number: the closing quote becomes part of the argument
      obtain ⟨more, others, found⟩ := splitFrom_some
        (front ++ List.replicate (pending / 2) backslash ++ [quote]) true 0 (spaced rest)
      rw [found] at split
      have inside : quote ∈ utf16 arg.text := by
        rw [← (List.cons.inj split).1]
        simp
      exact noQuote ((@mem_utf16_iff '"' (by decide) arg.text).mp inside)
    · -- an even number: half of the backslashes are gone
      have lengths := congrArg List.length ((List.cons.inj split).1.trans text.symm)
      simp only [List.length_append, List.length_replicate] at lengths
      omega

/-- The runtime finds the arguments if and only if all of them survive. -/
theorem splitCmdline_cmdline_iff {argv : List Arg} (noQuotes : ∀ arg ∈ argv, '"' ∉ arg.text) :
    splitCmdline (cmdline argv) = (argv.map fun arg => utf16 arg.text) ↔
      ∀ arg ∈ argv, Survives arg := by
  induction argv with
  | nil => simp [cmdline, splitCmdline, splitFrom]
  | cons arg rest inductionHypothesis =>
    have restIff := inductionHypothesis fun other member =>
      noQuotes other (List.mem_cons_of_mem _ member)
    rw [List.map_cons, List.forall_mem_cons, ← restIff]
    constructor
    · intro split
      have survives : Survives arg := by
        by_contra lost
        exact splitCmdline_not_survives noQuotes lost _ split
      rw [splitCmdline_survives (noQuotes arg List.mem_cons_self) survives] at split
      exact ⟨survives, (List.cons.inj split).2⟩
    · rintro ⟨survives, later⟩
      rw [splitCmdline_survives (noQuotes arg List.mem_cons_self) survives, later]

/-- The string that `_ffargv_to_cmdln` returns is split into the given arguments if and
only if each of them is not empty, has a tab only together with a space, and does not
end in a backslash if it has a space. -/
theorem cmdline_splits_iff {ffszUtow : FfszUtow} {alloc : Nat → Option (List Wchar)}
    (sized : ∀ n buffer, alloc n = some buffer → buffer.length = n) {argv : List Arg}
    (nonempty : argv ≠ []) (converts : ∀ arg ∈ argv, Converts ffszUtow arg.text)
    (noQuotes : ∀ arg ∈ argv, '"' ∉ arg.text) {returned : List Wchar}
    (call : ffargvToCmdln ffszUtow alloc (bytesOf argv) = some (some returned)) :
    splitCmdline (cStringOf returned) = (argv.map fun arg => utf16 arg.text) ↔
      ∀ arg ∈ argv, Survives arg := by
  rw [cStringOf_ffargvToCmdln sized nonempty converts noQuotes call]
  exact splitCmdline_cmdline_iff noQuotes

/-- `ffsz_utow` on ASCII bytes. -/
def asciiUtow : FfszUtow
  | none, s => ((s.length : Int) + 1, [])
  | some cap, s =>
      if s.length + 1 ≤ cap then ((s.length : Int) + 1, s.map (BitVec.setWidth 16) ++ [0])
      else (-1, [])

theorem asciiUtow_converts {text : List Char}
    (ascii : (utf8 text).map (BitVec.setWidth 16) = utf16 text) : Converts asciiUtow text := by
  have length : (utf8 text).length = (utf16 text).length := by
    rw [← ascii, List.length_map]
  refine ⟨?_, ?_⟩
  · rw [asciiUtow, length]
  · intro cap fits
    rw [asciiUtow, length, if_pos fits, ascii]

/-- A buffer of zeros. -/
def zeros (n : Nat) : Option (List Wchar) := some (List.replicate n 0)

theorem length_zeros (n : Nat) (buffer : List Wchar) (allocated : zeros n = some buffer) :
    buffer.length = n := by
  obtain rfl := Option.some.inj allocated
  exact List.length_replicate

/-- "p" and "a b". -/
def twoArgs : List Arg := [⟨['p'], by decide⟩, ⟨['a', ' ', 'b'], by decide⟩]

theorem cmdline_splits_two :
    ∃ returned, ffargvToCmdln asciiUtow zeros (bytesOf twoArgs) = some (some returned) ∧
      splitCmdline (cStringOf returned) = [utf16 ['p'], utf16 ['a', ' ', 'b']] := by
  have converts : ∀ arg ∈ twoArgs, Converts asciiUtow arg.text :=
    List.forall_mem_cons.mpr ⟨asciiUtow_converts (by decide),
      List.forall_mem_singleton.mpr (asciiUtow_converts (by decide))⟩
  have survive : ∀ arg ∈ twoArgs, Survives arg :=
    List.forall_mem_cons.mpr ⟨⟨by decide, by decide, by decide⟩,
      List.forall_mem_singleton.mpr ⟨by decide, by decide, by decide⟩⟩
  exact ⟨_, rfl, (cmdline_splits_iff length_zeros (by decide) converts (by decide) rfl).mpr
    survive⟩

/-- "p", an empty argument and "x": two arguments are found. -/
theorem empty_argument_lost :
    ∃ returned, ffargvToCmdln asciiUtow zeros
        (bytesOf [⟨['p'], by decide⟩, ⟨[], by decide⟩, ⟨['x'], by decide⟩]) =
          some (some returned) ∧
      splitCmdline (cStringOf returned) = [utf16 ['p'], utf16 ['x']] ∧
      splitCmdline (cStringOf returned) ≠ [utf16 ['p'], utf16 [], utf16 ['x']] := by
  refine ⟨_, rfl, by decide, by decide⟩

end Ffos.Process
