/-
Module: Ffos.Netconf.Lines
Purpose: What a line of resolv.conf configures, what `_ffnetconf_dns` takes from it, and for
  which lines this is the same.
Trusted boundary: none
Main exports: serverOf, servers, entryOf, entries, Plain, entryOf_eq_serverOf_iff,
  entries_eq_servers, plain_of_readsAs
-/
import Ffos.Lib.StringTable
import Ffos.Netconf.Model

namespace Ffos.Netconf

open Ffos.Lib

/-! ### What the file says -/

/-- The address that a line configures: its second word, if the first one is the keyword. -/
def serverOf (line : List Byte) : Option (List Byte) :=
  match words whites line with
  | keyword :: address :: _ => if keyword = nameserver then some address else none
  | _ => none

/-- The lines of a file. -/
def lines (content : List Byte) : List (List Byte) := (parts [lf] content).map Prod.fst

/-- The addresses that a file configures, in order. -/
def servers (content : List Byte) : List (List Byte) := (lines content).filterMap serverOf

/-! ### What the code takes from a line -/

/-- The address that the code finds in a line. -/
def entryOf (line : List Byte) : Option (List Byte) :=
  let word := cut blanks (line.dropWhile (· ∈ whites))
  if word.1 = nameserver then some (cut blanks word.2).1 else none

/-- A line is read as it is meant: behind the keyword there is one space or tab and then at
once a word, up to the next space or tab or to the end; or there is a CR and no word. -/
def Plain (line : List Byte) : Prop :=
  ∀ rest, line.dropWhile (· ∈ whites) = nameserver ++ rest → (∀ c ∈ rest.head?, c ∈ whites) →
    (∃ blank ∈ blanks, ∃ word after, rest = blank :: (word ++ after) ∧ word ≠ [] ∧
      Clean whites word ∧ ∀ c ∈ after.head?, c ∈ blanks) ∨
    rest.head? = some cr ∧ ∀ c ∈ rest, c ∈ whites

theorem whites_of_blanks : ∀ c ∈ blanks, c ∈ whites := by decide

theorem blanks_of_whites : ∀ c ∈ whites, c ≠ cr → c ∈ blanks := by decide

theorem clean_blanks {word : List Byte} (clean : Clean whites word) : Clean blanks word :=
  fun c member blank => clean c member (whites_of_blanks c blank)

theorem clean_nameserver : Clean whites nameserver :=
  show ∀ c ∈ nameserver, c ∉ whites by decide

section Line

variable {line rest : List Byte}

/-- Behind the keyword the next word counts. -/
theorem serverOf_keyword (body : line.dropWhile (· ∈ whites) = nameserver ++ rest)
    (next : ∀ c ∈ rest.head?, c ∈ whites) : serverOf line = (words whites rest).head? := by
  rw [serverOf, ← words_dropWhile, body, words_append clean_nameserver (by decide) next]
  cases words whites rest with
  | nil => rfl
  | cons address _ => exact if_pos rfl

/-- A line with another first word configures nothing. -/
theorem serverOf_other (other : ∀ rest, line.dropWhile (· ∈ whites) = nameserver ++ rest →
    ¬ ∀ c ∈ rest.head?, c ∈ whites) : serverOf line = none := by
  have begins := head?_dropWhile_not_mem whites line
  rw [serverOf, ← words_dropWhile]
  generalize line.dropWhile (· ∈ whites) = body at other begins
  have whole := @List.takeWhile_append_dropWhile _ (· ∉ whites) body
  have clean := clean_takeWhile whites body
  have next := head?_dropWhile_mem whites body
  cases body with
  | nil => rfl
  | cons c more =>
      have nonempty : (c :: more).takeWhile (· ∉ whites) ≠ [] := by
        simp [begins c rfl]
      have different : (c :: more).takeWhile (· ∉ whites) ≠ nameserver := fun same =>
        other _ (by rw [← same, whole]) next
      rw [← whole, words_append clean nonempty next]
      cases words whites ((c :: more).dropWhile (· ∉ whites)) with
      | nil => rfl
      | cons address _ => exact if_neg different

/-- The code finds an address exactly behind the keyword and a space, a tab or nothing. -/
theorem entryOf_eq_some_iff {address : List Byte} :
    entryOf line = some address ↔ ∃ rest, line.dropWhile (· ∈ whites) = nameserver ++ rest ∧
      (∀ c ∈ rest.head?, c ∈ blanks) ∧ address = (cut blanks (rest.drop 1)).1 := by
  have cleanKeyword := clean_blanks clean_nameserver
  rw [entryOf]
  constructor
  · intro found
    split at found
    next keyword =>
      have whole := @List.takeWhile_append_dropWhile _ (· ∉ blanks) (line.dropWhile (· ∈ whites))
      refine ⟨_, by rw [← keyword]; exact whole.symm, head?_dropWhile_mem blanks _, ?_⟩
      exact (Option.some.inj found).symm
    next => cases found
  · rintro ⟨rest, body, next, rfl⟩
    have cutBody : cut blanks (line.dropWhile (· ∈ whites)) = (nameserver, rest.drop 1) := by
      rw [body]
      cases rest with
      | nil => rw [List.append_nil, cut_clean cleanKeyword, List.drop_nil]
      | cons c rest => rw [cut_found cleanKeyword (next c rfl), List.drop_one, List.tail_cons]
    simp only [cutBody, if_true]

theorem entryOf_keyword (body : line.dropWhile (· ∈ whites) = nameserver ++ rest)
    (next : ∀ c ∈ rest.head?, c ∈ blanks) : entryOf line = some (cut blanks (rest.drop 1)).1 :=
  entryOf_eq_some_iff.mpr ⟨rest, body, next, rfl⟩

/-- A CR behind the keyword hides it. -/
theorem entryOf_cr (body : line.dropWhile (· ∈ whites) = nameserver ++ cr :: rest) :
    entryOf line = none := by
  rw [Option.eq_none_iff_forall_not_mem]
  intro address found
  obtain ⟨other, isOther, next, _⟩ := entryOf_eq_some_iff.mp found
  rw [List.append_cancel_left (isOther.symm.trans body)] at next
  exact absurd (next cr rfl) (by decide)

/-- What the code finds begins with the word that is meant, unless it begins with a CR. -/
theorem serverOf_of_entryOf {address : List Byte} (found : entryOf line = some address)
    (nonempty : address.takeWhile (· ∉ whites) ≠ []) :
    serverOf line = some (address.takeWhile (· ∉ whites)) := by
  obtain ⟨rest, body, next, isAddress⟩ := entryOf_eq_some_iff.mp found
  rw [serverOf_keyword body fun c first => whites_of_blanks c (next c first)]
  cases rest with
  | nil => exact absurd (by rw [isAddress]; rfl) nonempty
  | cons blank more =>
      rw [List.drop_one, List.tail_cons] at isAddress
      have whole := @List.takeWhile_append_dropWhile _ (· ∉ blanks) more
      have taken : more.takeWhile (· ∉ blanks) = address := isAddress.symm
      have wholeAddress := @List.takeWhile_append_dropWhile _ (· ∉ whites) address
      have nextBlank := head?_dropWhile_mem blanks more
      have nextWhite := head?_dropWhile_mem whites address
      -- Behind the word there is a CR of the address, or the blank that ends it.
      have ends : ∀ c ∈ (address.dropWhile (· ∉ whites) ++ more.dropWhile (· ∉ blanks)).head?,
          c ∈ whites := by
        intro c first
        cases tail : address.dropWhile (· ∉ whites) with
        | nil =>
            rw [tail, List.nil_append] at first
            exact whites_of_blanks c (nextBlank c first)
        | cons d others =>
            rw [tail] at first nextWhite
            exact nextWhite c first
      rw [taken, ← wholeAddress, List.append_assoc] at whole
      rw [words_cons_separator (whites_of_blanks blank (next blank rfl)), ← whole,
        words_append (clean_takeWhile whites address) nonempty ends]
      rfl

theorem mem_words_of_serverOf {address : List Byte} (found : serverOf line = some address) :
    address ∈ words whites line := by
  rw [serverOf] at found
  split at found
  next keyword word more isWords =>
    split at found
    · rw [← Option.some.inj found, isWords]
      exact List.mem_cons_of_mem keyword List.mem_cons_self
    · cases found
  next => cases found

/-- Behind the keyword, what the code finds is the next word only if the line is plain. -/
theorem plain_of_entryOf (body : line.dropWhile (· ∈ whites) = nameserver ++ rest)
    (next : ∀ c ∈ rest.head?, c ∈ whites) (same : entryOf line = (words whites rest).head?) :
    (∃ blank ∈ blanks, ∃ word after, rest = blank :: (word ++ after) ∧ word ≠ [] ∧
      Clean whites word ∧ ∀ c ∈ after.head?, c ∈ blanks) ∨
    rest.head? = some cr ∧ ∀ c ∈ rest, c ∈ whites := by
  cases rest with
  | nil =>
      -- The keyword alone gives an empty address.
      rw [entryOf_keyword body (by simp)] at same
      cases same
  | cons c more =>
      rw [words_cons_separator (next c rfl)] at same
      by_cases isCr : c = cr
      · right
        rw [entryOf_cr (isCr ▸ body)] at same
        have nothing := (words_eq_nil_iff more).mp (List.head?_eq_none_iff.mp same.symm)
        exact ⟨by rw [isCr]; rfl, List.forall_mem_cons.mpr ⟨next c rfl, nothing⟩⟩
      · left
        have blank := blanks_of_whites c (next c rfl) isCr
        rw [entryOf_keyword body (by simpa using blank), List.drop_one, List.tail_cons] at same
        obtain ⟨clean, nonempty⟩ := clean_of_mem_words (List.mem_of_head? same.symm)
        have whole := @List.takeWhile_append_dropWhile _ (· ∉ blanks) more
        exact ⟨c, blank, _, _, congrArg (List.cons c) whole.symm, nonempty, clean,
          head?_dropWhile_mem blanks more⟩

/-- Behind the keyword and one blank the code finds a word that ends in a blank. -/
theorem entryOf_word {blank : Byte} {word after : List Byte}
    (body : line.dropWhile (· ∈ whites) = nameserver ++ blank :: (word ++ after))
    (isBlank : blank ∈ blanks) (clean : Clean whites word) (ends : ∀ c ∈ after.head?, c ∈ blanks) :
    entryOf line = some word := by
  rw [entryOf_keyword body (by simpa using isBlank), List.drop_one, List.tail_cons]
  cases after with
  | nil => rw [List.append_nil, cut_clean (clean_blanks clean)]
  | cons c after => rw [cut_found (clean_blanks clean) (ends c rfl)]

/-- The code reads a line as it is meant exactly if the line is plain. -/
theorem entryOf_eq_serverOf_iff (line : List Byte) : entryOf line = serverOf line ↔ Plain line := by
  by_cases keyword : ∃ rest, line.dropWhile (· ∈ whites) = nameserver ++ rest ∧
      ∀ c ∈ rest.head?, c ∈ whites
  · obtain ⟨rest, body, next⟩ := keyword
    rw [serverOf_keyword body next]
    constructor
    · intro same other isOther _
      obtain rfl : other = rest := List.append_cancel_left (isOther.symm.trans body)
      exact plain_of_entryOf body next same
    · intro plain
      rcases plain rest body next with ⟨blank, isBlank, word, after, rfl, nonempty, clean, ends⟩ |
        ⟨first, nothing⟩
      · have white : ∀ c ∈ after.head?, c ∈ whites := fun c first =>
          whites_of_blanks c (ends c first)
        rw [entryOf_word body isBlank clean ends,
          words_cons_separator (whites_of_blanks blank isBlank), words_append clean nonempty white]
        rfl
      · obtain ⟨more, rfl⟩ := List.head?_eq_some_iff.mp first
        rw [entryOf_cr body, (words_eq_nil_iff _).mpr nothing]
        rfl
  · have missed : entryOf line = none := by
      rw [Option.eq_none_iff_forall_not_mem]
      intro address found
      obtain ⟨rest, body, next, _⟩ := entryOf_eq_some_iff.mp found
      exact keyword ⟨rest, body, fun c first => whites_of_blanks c (next c first)⟩
    have none := serverOf_other fun rest body next => keyword ⟨rest, body, next⟩
    refine iff_of_true (missed.trans none.symm) ?_
    exact fun rest body next => absurd ⟨rest, body, next⟩ keyword

end Line

/-! ### All lines -/

section Lists

variable {α β : Type} {f g : α → Option β}

theorem length_filterMap_le {xs : List α}
    (agree : ∀ x ∈ xs, ∀ b, f x = some b → ∃ c, g x = some c) :
    (xs.filterMap f).length ≤ (xs.filterMap g).length := by
  induction xs with
  | nil => exact Nat.le_refl 0
  | cons x xs inductionHypothesis =>
      obtain ⟨here, later⟩ := List.forall_mem_cons.mp agree
      have shorter := inductionHypothesis later
      cases found : f x with
      | none =>
          rw [List.filterMap_cons_none found]
          exact Nat.le_trans shorter ((List.sublist_cons_self x xs).filterMap g).length_le
      | some b =>
          obtain ⟨c, other⟩ := here b found
          rw [List.filterMap_cons_some found, List.filterMap_cons_some other]
          simpa using shorter

/-- Where every element that has an image under the one function has one under the other, two
lists of images that are related element by element come from related elements. -/
theorem rel_of_forall₂_filterMap {R : β → β → Prop} {xs : List α}
    (agree : ∀ x ∈ xs, ∀ b, f x = some b → ∃ c, g x = some c)
    (related : List.Forall₂ R (xs.filterMap f) (xs.filterMap g)) :
    ∀ x ∈ xs, Option.Rel R (f x) (g x) := by
  induction xs with
  | nil => exact List.forall_mem_nil _
  | cons x xs inductionHypothesis =>
      obtain ⟨here, later⟩ := List.forall_mem_cons.mp agree
      cases found : f x with
      | some b =>
          obtain ⟨c, other⟩ := here b found
          rw [List.filterMap_cons_some found, List.filterMap_cons_some other,
            List.forall₂_cons] at related
          refine List.forall_mem_cons.mpr ⟨?_, inductionHypothesis later related.2⟩
          rw [found, other]
          exact Option.Rel.some related.1
      | none =>
          rw [List.filterMap_cons_none found] at related
          cases other : g x with
          | none =>
              rw [List.filterMap_cons_none other] at related
              refine List.forall_mem_cons.mpr ⟨?_, inductionHypothesis later related⟩
              rw [found, other]
              exact Option.Rel.none
          | some c =>
              have shorter := length_filterMap_le later
              have same := related.length_eq
              rw [List.filterMap_cons_some other, List.length_cons] at same
              omega

theorem exists_related_of_mem {R : α → β → Prop} {xs : List α} {ys : List β}
    (related : List.Forall₂ R xs ys) {x : α} (member : x ∈ xs) : ∃ y ∈ ys, R x y := by
  induction related with
  | nil => cases member
  | @cons a b xs ys here _ inductionHypothesis =>
      rcases List.mem_cons.mp member with rfl | later
      · exact ⟨b, List.mem_cons_self, here⟩
      · obtain ⟨y, inRest, isRelated⟩ := inductionHypothesis later
        exact ⟨y, List.mem_cons_of_mem b inRest, isRelated⟩

end Lists

/-- The addresses that the code finds in a file. -/
def entries (content : List Byte) : List (List Byte) := (lines content).filterMap entryOf

/-- If every line is plain, they are the configured ones. -/
theorem entries_eq_servers {content : List Byte} (plain : ∀ line ∈ lines content, Plain line) :
    entries content = servers content :=
  List.filterMap_congr fun line member => (entryOf_eq_serverOf_iff line).mpr (plain line member)

/-- What reads as an address begins with a word. -/
theorem takeWhile_ne_nil_of_readsAs {entry server : List Byte} (reads : ReadsAs entry server)
    (nonempty : server ≠ []) (clean : Clean whites server) :
    entry.takeWhile (· ∉ whites) ≠ [] := by
  obtain ⟨c, more, rfl⟩ := List.exists_cons_of_ne_nil nonempty
  have other : c ∉ whites := clean c List.mem_cons_self
  cases entry with
  | nil => simp [ReadsAs] at reads
  | cons d entry =>
      rw [ReadsAs, List.cons_append, List.cons_append, List.cons_prefix_cons] at reads
      rw [← reads.1, List.takeWhile_cons_of_pos (by simpa using other)]
      exact List.cons_ne_nil _ _

/-- What reads as its first word is that word: a CR is no terminator. -/
theorem eq_of_readsAs_takeWhile {entry : List Byte}
    (reads : ReadsAs entry (entry.takeWhile (· ∉ whites))) :
    entry = entry.takeWhile (· ∉ whites) := by
  have whole := @List.takeWhile_append_dropWhile _ (· ∉ whites) entry
  have next := head?_dropWhile_mem whites entry
  cases tail : entry.dropWhile (· ∉ whites) with
  | nil => rw [tail, List.append_nil] at whole; exact whole.symm
  | cons c others =>
      have white : c ∈ whites := next c (by rw [tail]; rfl)
      have zero : (0 : Byte) ∉ whites := by decide
      rw [ReadsAs] at reads
      nth_rewrite 2 [← whole] at reads
      rw [tail, List.append_assoc, List.prefix_append_right_inj, List.cons_append,
        List.cons_prefix_cons] at reads
      rw [← reads.1] at white
      exact absurd white zero

/-- If what is found reads as the configured addresses do, then every line is plain. -/
theorem plain_of_readsAs {content : List Byte}
    (related : List.Forall₂ ReadsAs (entries content) (servers content)) :
    ∀ line ∈ lines content, Plain line := by
  have agree : ∀ line ∈ lines content, ∀ entry, entryOf line = some entry →
      serverOf line = some (entry.takeWhile (· ∉ whites)) := by
    intro line member entry found
    have inEntries : entry ∈ entries content := List.mem_filterMap.mpr ⟨line, member, found⟩
    obtain ⟨server, inServers, reads⟩ := exists_related_of_mem related inEntries
    obtain ⟨_, _, configured⟩ := List.mem_filterMap.mp inServers
    obtain ⟨clean, nonempty⟩ := clean_of_mem_words (mem_words_of_serverOf configured)
    exact serverOf_of_entryOf found (takeWhile_ne_nil_of_readsAs reads nonempty clean)
  intro line member
  have here := rel_of_forall₂_filterMap
    (fun line member entry found => ⟨_, agree line member entry found⟩) related line member
  rw [← entryOf_eq_serverOf_iff]
  cases found : entryOf line with
  | none =>
      rw [found] at here
      cases configured : serverOf line with
      | none => rfl
      | some server =>
          rw [configured] at here
          cases here
  | some entry =>
      rw [found, agree line member entry found] at here
      cases here with
      | some reads =>
          rw [agree line member entry found]
          exact congrArg some (eq_of_readsAs_takeWhile reads)

end Ffos.Netconf
