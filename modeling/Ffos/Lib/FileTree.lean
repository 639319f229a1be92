/-
Module: Ffos.Lib.FileTree
Purpose: A tree of directories and files, making one directory in it, and making the
  directories of a ladder of paths one after the other.
Trusted boundary: none
Main exports: FileTree, FileTree.makeDir, Ladder, FileTree.makeEach, FileTree.Makeable,
  makeEach_frame, makeEach_existing, makeEach_tells, makeEach_dir_iff
-/
import Mathlib.Data.List.Infix

namespace Ffos.Lib

universe u

inductive Kind where
  | dir
  | file
deriving DecidableEq, Repr

/-- A file tree by the paths in it, each the list of names from the root. Whatever is
in the tree is in a directory. -/
structure FileTree (Name : Type u) where
  node : List Name → Option Kind
  root : node [] = some .dir
  closed : ∀ path name, node (path ++ [name]) ≠ none → node path = some .dir

/-- What making one directory comes to. -/
inductive Made where
  | created
  | alreadyExists
  | failed
deriving DecidableEq, Repr

/-- What a result says of the place afterwards. -/
def Made.Tells : Made → Option Kind → Prop
  | .created, found => found = some .dir
  | .alreadyExists, found => found ≠ none
  | .failed, found => found = none

variable {Name : Type u}

namespace FileTree

/-- The tree that has only its root. -/
def empty : FileTree Name where
  node path := if path.isEmpty then some .dir else none
  root := rfl
  closed path name present := by simp at present

/-- What is above something in the tree is a directory. -/
theorem dir_of_append (tree : FileTree Name) (path rest : List Name) (notEmpty : rest ≠ [])
    (present : tree.node (path ++ rest) ≠ none) : tree.node path = some .dir := by
  induction rest using List.reverseRecOn with
  | nil => exact absurd rfl notEmpty
  | append_singleton rest name inductionHypothesis =>
      rw [← List.append_assoc] at present
      have parent := tree.closed _ _ present
      by_cases last : rest = []
      · rwa [last, List.append_nil] at parent
      · exact inductionHypothesis last (by rw [parent]; exact Option.some_ne_none _)

theorem present_above (tree : FileTree Name) {path whole : List Name} (leads : path <+: whole)
    (present : tree.node whole ≠ none) : tree.node path ≠ none := by
  obtain ⟨rest, rfl⟩ := leads
  by_cases last : rest = []
  · rwa [last, List.append_nil] at present
  · rw [tree.dir_of_append path rest last present]
    exact Option.some_ne_none _

theorem dir_above (tree : FileTree Name) {path whole : List Name} (leads : path <+: whole)
    (isDir : tree.node whole = some .dir) : tree.node path = some .dir := by
  obtain ⟨rest, rfl⟩ := leads
  by_cases last : rest = []
  · rwa [last, List.append_nil] at isDir
  · exact tree.dir_of_append path rest last (by rw [isDir]; exact Option.some_ne_none _)

variable [DecidableEq Name]

/-- Put something at a free place of a directory. -/
def insert (tree : FileTree Name) (path : List Name) (kind : Kind)
    (free : tree.node path = none) (parent : tree.node path.dropLast = some .dir) :
    FileTree Name where
  node other := if other = path then some kind else tree.node other
  root := by
    have notRoot : [] ≠ path := by
      rintro rfl
      rw [tree.root] at free
      cases free
    rw [if_neg notRoot, tree.root]
  closed other name present := by
    have above : tree.node other = some .dir := by
      by_cases here : other ++ [name] = path
      · rwa [← here, List.dropLast_concat] at parent
      · rw [if_neg here] at present
        exact tree.closed other name present
    have notPath : other ≠ path := by
      rintro rfl
      rw [free] at above
      cases above
    rw [if_neg notPath, above]

/-- Make one directory. -/
def makeDir (tree : FileTree Name) (path : List Name) : Made × FileTree Name :=
  if free : tree.node path = none then
    if parent : tree.node path.dropLast = some .dir then
      (.created, tree.insert path .dir free parent)
    else (.failed, tree)
  else (.alreadyExists, tree)

/-- All that making one directory can do. -/
theorem makeDir_cases (tree : FileTree Name) (path : List Name) :
    (tree.node path ≠ none ∧ tree.makeDir path = (.alreadyExists, tree)) ∨
    (tree.node path = none ∧ tree.node path.dropLast = some .dir ∧
      ∃ after, tree.makeDir path = (.created, after) ∧ after.node path = some .dir ∧
        ∀ other, other ≠ path → after.node other = tree.node other) ∨
    (tree.node path = none ∧ tree.node path.dropLast ≠ some .dir ∧
      tree.makeDir path = (.failed, tree)) := by
  unfold makeDir
  split
  case isTrue free =>
    split
    case isTrue parent =>
      refine .inr (.inl ⟨free, parent, _, rfl, if_pos rfl, ?_⟩)
      intro other notPath
      exact if_neg notPath
    case isFalse noParent => exact .inr (.inr ⟨free, noParent, rfl⟩)
  case isFalse present => exact .inl ⟨present, rfl⟩

/-- Make directories one after the other until one fails, with the last result. -/
def makeEach : Made → FileTree Name → List (List Name) → Made × FileTree Name
  | last, tree, [] => (last, tree)
  | _, tree, path :: rest =>
      match tree.makeDir path with
      | (.failed, after) => (.failed, after)
      | (made, after) => makeEach made after rest

theorem makeEach_cons (last : Made) (tree : FileTree Name) (path : List Name)
    (rest : List (List Name)) :
    tree.makeEach last (path :: rest) =
      if (tree.makeDir path).1 = .failed then tree.makeDir path
      else (tree.makeDir path).2.makeEach (tree.makeDir path).1 rest := by
  rw [makeEach]
  rcases tree.makeDir path with ⟨made, after⟩
  cases made <;> rfl

end FileTree

/-! ### Ladders -/

/-- Paths that each repeat the one before or go down from it by one name, the last of
them being `target`. -/
inductive Ladder : List (List Name) → List Name → Prop where
  | last (target : List Name) : Ladder [target] target
  | next {first second target : List Name} {rest : List (List Name)}
      (down : second = first ∨ ∃ name, second = first ++ [name])
      (below : Ladder (second :: rest) target) : Ladder (first :: second :: rest) target

theorem Ladder.head_leads {first target : List Name} {rest : List (List Name)}
    (ladder : Ladder (first :: rest) target) : first <+: target := by
  induction rest generalizing first with
  | nil =>
      cases ladder
      exact List.prefix_refl _
  | cons second rest inductionHypothesis =>
      cases ladder with
      | next down below =>
          have leads := inductionHypothesis below
          rcases down with rfl | ⟨name, rfl⟩
          · exact leads
          · exact (List.prefix_append _ _).trans leads

theorem Ladder.leads_to_target {paths : List (List Name)} {target : List Name}
    (ladder : Ladder paths target) : ∀ path ∈ paths, path <+: target := by
  induction ladder with
  | last target =>
      intro path member
      rw [List.mem_singleton.mp member]
  | next down below inductionHypothesis =>
      intro path member
      rcases List.mem_cons.mp member with rfl | member
      · exact (Ladder.next down below).head_leads
      · exact inductionHypothesis path member

namespace FileTree

variable [DecidableEq Name]

/-- One round of `makeEach`: the directory is there, is made, or stops the rounds. -/
theorem makeEach_cons_cases (last : Made) (tree : FileTree Name) (path : List Name)
    (rest : List (List Name)) :
    (tree.node path ≠ none ∧
      tree.makeEach last (path :: rest) = tree.makeEach .alreadyExists rest) ∨
    (tree.node path = none ∧ tree.node path.dropLast = some .dir ∧
      ∃ after : FileTree Name, tree.makeEach last (path :: rest) = after.makeEach .created rest ∧
        after.node path = some .dir ∧ ∀ other, other ≠ path → after.node other = tree.node other) ∨
    (tree.node path = none ∧ tree.node path.dropLast ≠ some .dir ∧
      tree.makeEach last (path :: rest) = (.failed, tree)) := by
  rcases tree.makeDir_cases path with
    ⟨present, made⟩ | ⟨free, parent, after, made, isDir, others⟩ | ⟨free, noParent, made⟩
  · exact .inl ⟨present, by rw [makeEach_cons, made, if_neg (by simp)]⟩
  · exact .inr (.inl ⟨free, parent, after, by rw [makeEach_cons, made, if_neg (by simp)],
      isDir, others⟩)
  · exact .inr (.inr ⟨free, noParent, by rw [makeEach_cons, made, if_pos rfl]⟩)

/-- Nothing is lost or changed, and what is new is a directory at one of the paths. -/
theorem makeEach_frame (last : Made) (tree : FileTree Name) (paths : List (List Name)) :
    ∀ place, (tree.makeEach last paths).2.node place = tree.node place ∨
      (tree.node place = none ∧ (tree.makeEach last paths).2.node place = some .dir ∧
        place ∈ paths) := by
  induction paths generalizing last tree with
  | nil =>
      intro place
      exact .inl rfl
  | cons path rest inductionHypothesis =>
      intro place
      rcases tree.makeEach_cons_cases last path rest with
        ⟨_, round⟩ | ⟨free, _, after, round, isDir, others⟩ | ⟨_, _, round⟩
      · rw [round]
        rcases inductionHypothesis .alreadyExists tree place with same | ⟨was, now, member⟩
        · exact .inl same
        · exact .inr ⟨was, now, List.mem_cons_of_mem _ member⟩
      · rw [round]
        rcases inductionHypothesis .created after place with same | ⟨was, now, member⟩
        · by_cases here : place = path
          · subst here
            exact .inr ⟨free, same.trans isDir, List.mem_cons_self⟩
          · exact .inl (same.trans (others place here))
        · have notHere : place ≠ path := by
            rintro rfl
            rw [isDir] at was
            cases was
          rw [others place notHere] at was
          exact .inr ⟨was, now, List.mem_cons_of_mem _ member⟩
      · exact .inl (by rw [round])

/-- With the target there already, every round finds its directory. -/
theorem makeEach_existing {tree : FileTree Name} {paths : List (List Name)} {target : List Name}
    (ladder : Ladder paths target) (present : tree.node target ≠ none) (last : Made) :
    tree.makeEach last paths = (.alreadyExists, tree) := by
  have allPresent : ∀ path ∈ paths, tree.node path ≠ none := fun path member =>
    tree.present_above (ladder.leads_to_target path member) present
  clear present
  induction ladder generalizing last with
  | last target =>
      rcases tree.makeEach_cons_cases last target [] with ⟨_, round⟩ | ⟨free, _⟩ | ⟨free, _⟩
      · rw [round, makeEach]
      · exact absurd free (allPresent target List.mem_cons_self)
      · exact absurd free (allPresent target List.mem_cons_self)
  | @next first second target rest down below inductionHypothesis =>
      rcases tree.makeEach_cons_cases last first (second :: rest) with
        ⟨_, round⟩ | ⟨free, _⟩ | ⟨free, _⟩
      · rw [round]
        exact inductionHypothesis _ fun path member => allPresent path (List.mem_cons_of_mem _ member)
      · exact absurd free (allPresent first List.mem_cons_self)
      · exact absurd free (allPresent first List.mem_cons_self)

/-- The last result says what the target is at the end. -/
theorem makeEach_tells {tree : FileTree Name} {paths : List (List Name)} {target : List Name}
    (ladder : Ladder paths target) (last : Made) :
    (tree.makeEach last paths).1.Tells ((tree.makeEach last paths).2.node target) := by
  induction ladder generalizing last tree with
  | last target =>
      rcases tree.makeEach_cons_cases last target [] with
        ⟨present, round⟩ | ⟨_, _, after, round, isDir, _⟩ | ⟨free, _, round⟩
      · rw [round]
        exact present
      · rw [round]
        exact isDir
      · rw [round]
        exact free
  | @next first second target rest down below inductionHypothesis =>
      rcases tree.makeEach_cons_cases last first (second :: rest) with
        ⟨_, round⟩ | ⟨_, _, after, round, _⟩ | ⟨free, _, round⟩
      · rw [round]
        exact inductionHypothesis _
      · rw [round]
        exact inductionHypothesis _
      · rw [round]
        -- nothing can be below a place that is free
        by_contra present
        exact tree.present_above (Ladder.next down below).head_leads present free

/-- The target is there at the end exactly when no round failed. -/
theorem makeEach_present_iff {tree : FileTree Name} {paths : List (List Name)}
    {target : List Name} (ladder : Ladder paths target) (last : Made) :
    (tree.makeEach last paths).2.node target ≠ none ↔ (tree.makeEach last paths).1 ≠ .failed := by
  have tells := @makeEach_tells _ _ tree paths target ladder last
  cases result : (tree.makeEach last paths).1 with
  | created =>
      rw [result] at tells
      have isDir : (tree.makeEach last paths).2.node target = some .dir := tells
      simp [isDir]
  | alreadyExists =>
      rw [result] at tells
      have present : (tree.makeEach last paths).2.node target ≠ none := tells
      simp [present]
  | failed =>
      rw [result] at tells
      have absent : (tree.makeEach last paths).2.node target = none := tells
      simp [absent]

/-- No path of the ladder is a file, and the first of them is there or can be made. -/
def Makeable (tree : FileTree Name) (paths : List (List Name)) : Prop :=
  (∀ path ∈ paths, tree.node path ≠ some .file) ∧
    ∀ first ∈ paths.head?, tree.node first ≠ none ∨ tree.node first.dropLast = some .dir

omit [DecidableEq Name] in
theorem dir_of_present {tree : FileTree Name} {path : List Name} (present : tree.node path ≠ none)
    (notFile : tree.node path ≠ some .file) : tree.node path = some .dir := by
  cases found : tree.node path with
  | none => exact absurd found present
  | some kind =>
      cases kind with
      | dir => rfl
      | file => exact absurd found notFile

/-- Once the first path is a directory, what is below it can be made as before. -/
theorem Makeable.tail {tree after : FileTree Name} {first second : List Name}
    {rest : List (List Name)} (makeable : tree.Makeable (first :: second :: rest))
    (down : second = first ∨ ∃ name, second = first ++ [name])
    (isDir : after.node first = some .dir)
    (others : ∀ other, other ≠ first → after.node other = tree.node other) :
    after.Makeable (second :: rest) := by
  constructor
  · intro path member
    by_cases here : path = first
    · rw [here, isDir]
      decide
    · rw [others path here]
      exact makeable.1 path (List.mem_cons_of_mem _ member)
  · intro head isHead
    obtain rfl : second = head := by simpa using isHead
    rcases down with rfl | ⟨name, rfl⟩
    · exact .inl (by rw [isDir]; exact Option.some_ne_none _)
    · exact .inr (by rw [List.dropLast_concat, isDir])

theorem makeEach_makeable {tree : FileTree Name} {paths : List (List Name)} {target : List Name}
    (ladder : Ladder paths target) (last : Made) (makeable : tree.Makeable paths) :
    (tree.makeEach last paths).2.node target = some .dir := by
  induction ladder generalizing last tree with
  | last target =>
      rcases tree.makeEach_cons_cases last target [] with
        ⟨present, round⟩ | ⟨_, _, after, round, isDir, _⟩ | ⟨free, noParent, _⟩
      · rw [round]
        exact dir_of_present present (makeable.1 target List.mem_cons_self)
      · rw [round]
        exact isDir
      · rcases makeable.2 target rfl with present | parent
        · exact absurd free present
        · exact absurd parent noParent
  | @next first second target rest down below inductionHypothesis =>
      rcases tree.makeEach_cons_cases last first (second :: rest) with
        ⟨present, round⟩ | ⟨_, _, after, round, isDir, others⟩ | ⟨free, noParent, _⟩
      · rw [round]
        have isDir := dir_of_present present (makeable.1 first List.mem_cons_self)
        exact inductionHypothesis _ (makeable.tail down isDir fun _ _ => rfl)
      · rw [round]
        exact inductionHypothesis _ (makeable.tail down isDir others)
      · rcases makeable.2 first rfl with present | parent
        · exact absurd free present
        · exact absurd parent noParent

/-- The target is a directory at the end exactly when the ladder could be made. -/
theorem makeEach_dir_iff {tree : FileTree Name} {paths : List (List Name)} {target : List Name}
    (ladder : Ladder paths target) (last : Made) :
    (tree.makeEach last paths).2.node target = some .dir ↔ tree.Makeable paths := by
  refine ⟨fun isDir => ⟨?_, ?_⟩, makeEach_makeable ladder last⟩
  · intro path member wasFile
    have nowDir := dir_above _ (ladder.leads_to_target path member) isDir
    rcases makeEach_frame last tree paths path with same | ⟨free, _, _⟩
    · rw [same, wasFile] at nowDir
      cases nowDir
    · rw [wasFile] at free
      cases free
  · intro first isFirst
    cases paths with
    | nil => cases isFirst
    | cons head rest =>
        obtain rfl : head = first := by simpa using isFirst
        rcases tree.makeEach_cons_cases last head rest with
          ⟨present, _⟩ | ⟨_, parent, _⟩ | ⟨_, _, round⟩
        · exact .inl present
        · exact .inr parent
        · have present := (makeEach_present_iff ladder last).mp
            (by rw [isDir]; exact Option.some_ne_none _)
          exact absurd (by rw [round]) present

end FileTree

end Ffos.Lib
