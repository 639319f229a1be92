/-
Module: Ffos.Environ.Expand
Purpose: `ffenv_expand` writes the expansion of its source, as far as it fits, exactly if
  every search of the environment comes to an end.
Trusted boundary: none
Main exports: expansion, LookupsEnd, ffenvVal_returned, ffsvarNext_token,
  ffenvExpandLoop_returned, ffenvExpand_iff, ffenvExpand_terminated_iff
-/
import Ffos.Environ.Model
import Ffos.Lib.Marked

namespace Ffos.Environ

open Ffos.Lib

/-! ### What an expansion is -/

/-- `[A-Za-z0-9_]`. -/
def wordChar (c : Byte) : Bool :=
  (0x41 ≤ c.toNat && c.toNat ≤ 0x5a) || (0x61 ≤ c.toNat && c.toNat ≤ 0x7a) ||
    (0x30 ≤ c.toNat && c.toNat ≤ 0x39) || c.toNat = 0x5f

/-- The value of an entry `name=value`. -/
def entryValue (name : List Byte) (e : CString) : Option (List Byte) :=
  if (name ++ [equals]).isPrefixOf e.bytes then some (e.bytes.drop (name.length + 1)) else none

/-- The value of the first such entry. -/
def lookup (environ : List CString) (name : List Byte) : Option (List Byte) :=
  environ.findSome? (entryValue name)

/-- What stands for a token: a text for itself, and a name for its value, if it has one. -/
def tokenValue (environ : List CString) : Token Byte → List Byte
  | .text run => run
  | .name run => if run = [] then [] else (lookup environ run).getD []

/-- The expansion of a source. -/
def expansion (environ : List CString) (src : List Byte) : List Byte :=
  (tokens dollar wordChar src).flatMap (tokenValue environ)

/-- A search of the environment ends if the name is found by an index of 32 bits, or if the
end of the array is. -/
def Ends (environ : List CString) (name : List Byte) : Prop :=
  environ.length < 2 ^ 32 ∨ lookup (environ.take (2 ^ 32)) name ≠ none

/-- Every search for a name of the source ends. -/
def LookupsEnd (environ : List CString) (src : List Byte) : Prop :=
  ∀ name, Token.name name ∈ tokens dollar wordChar src → name ≠ [] → Ends environ name

theorem isNameChar_eq (signedChar : Bool) (c : Byte) : isNameChar signedChar c = wordChar c := by
  revert signedChar c
  decide +kernel

/-! ### Searching the environment -/

section Search

variable {str : Ffstr} {environ : List CString} {key : List Byte} (noNul : 0 ∉ key)
include noNul

theorem match_iff (e : CString) :
    (str.szMatch e.z key = true ∧ e.z[key.length]? = some equals) ↔
      (key ++ [equals]).isPrefixOf e.bytes = true := by
  rw [CString.z, str.szMatch_iff e.bytes key e.noNul noNul, List.isPrefixOf_iff_prefix]
  constructor
  · rintro ⟨⟨rest, whole⟩, next⟩
    rw [← whole, List.append_assoc, List.getElem?_append_right (Nat.le_refl _), Nat.sub_self] at next
    cases rest with
    | nil => exact absurd (Option.some.inj next) (by decide)
    | cons c rest =>
        obtain rfl : c = equals := Option.some.inj next
        exact ⟨rest, by rw [← whole, List.append_assoc]; rfl⟩
  · rintro ⟨rest, whole⟩
    rw [← whole]
    refine ⟨⟨[equals] ++ rest, by simp⟩, by simp⟩

omit noNul

/-- The rest of a C string up to its terminator. -/
theorem setz_drop (e : CString) {n : Nat} (inside : n ≤ e.bytes.length) :
    setz (e.z.drop n) = e.bytes.drop n := by
  have plain : 0 ∉ e.bytes.drop n := fun nul => e.noNul (List.mem_of_mem_drop nul)
  rw [setz, CString.z, List.drop_append_of_le_length inside]
  exact takeWhile_terminated plain []

theorem lookup_missed {before : List CString} (missed : ∀ e ∈ before, entryValue key e = none)
    (rest : List CString) : lookup (before ++ rest) key = lookup rest key := by
  rw [lookup, lookup, List.findSome?_append, List.findSome?_eq_none_iff.mpr missed]
  rfl

/-- The entry that the loop is at. -/
theorem getElem?_at {before rest : List CString} {i : BitVec 32}
    (position : before.length = i.toNat) : (before ++ rest)[i.toNat]? = rest.head? := by
  rw [List.getElem?_append_right (Nat.le_of_eq position), position, Nat.sub_self,
    List.head?_eq_getElem?]

/-- The next index, unless it wraps. -/
theorem toNat_next {i : BitVec 32} (low : i.toNat + 1 < 2 ^ 32) : (i + 1).toNat = i.toNat + 1 := by
  rw [BitVec.toNat_add]
  exact Nat.mod_eq_of_lt low

include noNul

/-- What the loop returns is what is looked for, and then the search ends. -/
theorem ffenvValLoop_returned {fuel : Nat} {i : BitVec 32} {before rest : List CString}
    {val : Option (List Byte)} (splits : environ = before ++ rest)
    (position : before.length = i.toNat) (missed : ∀ e ∈ before, entryValue key e = none)
    (returned : ffenvValLoop str environ key fuel i = some val) :
    Ends environ key ∧ val.map setz = lookup environ key := by
  induction fuel generalizing i before rest with
  | zero => exact absurd returned (Option.some_ne_none val).symm
  | succ fuel inductionHypothesis =>
      have low := i.isLt
      rw [ffenvValLoop, splits, getElem?_at position] at returned
      cases rest with
      | nil =>
          obtain rfl : none = val := Option.some.inj returned
          rw [splits, lookup_missed missed]
          refine ⟨.inl ?_, rfl⟩
          rw [List.append_nil, position]
          exact low
      | cons e rest =>
          simp only [List.head?_cons] at returned
          rw [← splits] at returned
          by_cases found : str.szMatch e.z key = true ∧ e.z[key.length]? = some equals
          · have leads := (match_iff noNul e).mp found
            have value : entryValue key e = some (e.bytes.drop (key.length + 1)) := if_pos leads
            have inside : key.length + 1 ≤ e.bytes.length := by
              simpa using (List.isPrefixOf_iff_prefix.mp leads).length_le
            rw [if_pos found] at returned
            obtain rfl := Option.some.inj returned
            refine ⟨.inr ?_, ?_⟩
            · obtain ⟨more, room⟩ := Nat.exists_eq_add_of_lt (position ▸ low)
              rw [splits, room, Nat.add_assoc, List.take_length_add_append, List.take_succ_cons,
                lookup_missed missed, lookup, List.findSome?_cons, value]
              exact Option.some_ne_none _
            · rw [splits, lookup_missed missed, lookup, List.findSome?_cons, value, Option.map_some,
                setz_drop e inside]
          · rw [if_neg found] at returned
            have missedHere : entryValue key e = none :=
              if_neg fun leads => found ((match_iff noNul e).mpr leads)
            have missedNext : ∀ other ∈ before ++ [e], entryValue key other = none := by
              intro other member
              rcases List.mem_append.mp member with earlier | here
              · exact missed other earlier
              · rw [List.mem_singleton.mp here]
                exact missedHere
            by_cases last : i.toNat + 1 < 2 ^ 32
            · apply @inductionHypothesis (i + 1) (before ++ [e]) rest _ _ missedNext returned
              · rw [splits, List.append_assoc, List.singleton_append]
              · rw [List.length_append, List.length_singleton, position, toNat_next last]
            · -- The index wraps, and the loop begins again.
              have again : (i + 1).toNat = 0 := by
                rw [BitVec.toNat_add, show i.toNat = 2 ^ 32 - 1 by omega]
                rfl
              exact @inductionHypothesis (i + 1) [] environ rfl again.symm
                (List.forall_mem_nil _) returned

/-- The loop returns if the search ends. -/
theorem ffenvValLoop_total {fuel : Nat} {i : BitVec 32} {before rest : List CString}
    (splits : environ = before ++ rest) (position : before.length = i.toNat)
    (ends : before.length + rest.length < 2 ^ 32 ∨
      lookup (rest.take (2 ^ 32 - before.length)) key ≠ none)
    (enough : rest.length < fuel) : ffenvValLoop str environ key fuel i ≠ none := by
  induction rest generalizing i before fuel with
  | nil =>
      obtain ⟨fuel, rfl⟩ := Nat.exists_eq_add_of_lt enough
      rw [ffenvValLoop, splits, getElem?_at position]
      exact Option.some_ne_none _
  | cons e rest inductionHypothesis =>
      obtain ⟨fuel, rfl⟩ : ∃ more, fuel = more + 1 := ⟨fuel - 1, by omega⟩
      rw [ffenvValLoop, splits, getElem?_at position, ← splits]
      simp only [List.head?_cons]
      by_cases found : str.szMatch e.z key = true ∧ e.z[key.length]? = some equals
      · rw [if_pos found]
        exact Option.some_ne_none _
      · have missed : entryValue key e = none :=
          if_neg fun leads => found ((match_iff noNul e).mpr leads)
        have low := i.isLt
        rw [List.length_cons] at ends enough
        have more : i.toNat + 1 < 2 ^ 32 ∧ (before.length + 1 + rest.length < 2 ^ 32 ∨
            lookup (rest.take (2 ^ 32 - (before.length + 1))) key ≠ none) := by
          rcases ends with short | there
          · exact ⟨by omega, .inl (by omega)⟩
          · obtain ⟨room, left⟩ : ∃ room, 2 ^ 32 - before.length = room + 1 :=
              ⟨2 ^ 32 - before.length - 1, by omega⟩
            rw [left, List.take_succ_cons, lookup, List.findSome?_cons, missed] at there
            have same : 2 ^ 32 - (before.length + 1) = room := by omega
            refine ⟨?_, .inr (same ▸ there)⟩
            by_contra high
            obtain rfl : room = 0 := by omega
            exact there rfl
        rw [if_neg found]
        apply @inductionHypothesis fuel (i + 1) (before ++ [e]) _ _ _ (by omega)
        · rw [splits, List.append_assoc, List.singleton_append]
        · rw [List.length_append, List.length_singleton, position, toNat_next more.1]
        · rw [List.length_append, List.length_singleton]
          exact more.2

theorem ffenvVal_returned {fuel : Nat} {val : Option (List Byte)}
    (returned : ffenvVal str environ key fuel = some val) :
    Ends environ key ∧ val.map setz = lookup environ key :=
  @ffenvValLoop_returned str environ key noNul fuel 0 [] environ val rfl rfl
    (List.forall_mem_nil _) returned

theorem ffenvVal_total (ends : Ends environ key) {fuel : Nat} (enough : environ.length < fuel) :
    ffenvVal str environ key fuel ≠ none :=
  @ffenvValLoop_total str environ key noNul fuel 0 [] environ rfl rfl
    (by simpa [Ends] using ends) enough

end Search

/-! ### Chunks are tokens -/

theorem wordChar_dollar : wordChar dollar = false := by decide

theorem nul_not_mem_word {run : List Byte} (chars : ∀ c ∈ run, wordChar c = true) : 0 ∉ run :=
  fun nul => absurd (chars 0 nul) (by decide)

/-- The loop over a name stops behind it. -/
theorem nameEnd_append (signedChar : Bool) {run more : List Byte}
    (chars : ∀ c ∈ run, wordChar c = true) (next : ∀ c ∈ more.head?, wordChar c = false)
    (i : Nat) : nameEnd signedChar (run ++ more) i = i + run.length := by
  induction run generalizing i with
  | nil =>
      cases more with
      | nil => rfl
      | cons c more =>
          rw [List.nil_append, nameEnd, isNameChar_eq, next c rfl]
          rfl
  | cons c run inductionHypothesis =>
      obtain ⟨first, others⟩ := List.forall_mem_cons.mp chars
      rw [List.cons_append, nameEnd, isNameChar_eq, first, if_pos rfl, inductionHypothesis others,
        List.length_cons]
      omega

/-- `_ffsvar_next` gives the next token. -/
theorem ffsvarNext_token (str : Ffstr) (signedChar : Bool) {t : Token Byte}
    {rest : List (Token Byte)} (well : WellTokened dollar wordChar (t :: rest)) :
    ffsvarNext str signedChar (source dollar (t :: rest)) =
      some (t.source dollar, source dollar rest) := by
  have cut : ∀ len, len = (t.source dollar).length →
      some ((source dollar (t :: rest)).take len, (source dollar (t :: rest)).drop len) =
        some (t.source dollar, source dollar rest) := by
    rintro _ rfl
    rw [source_cons, List.take_left, List.drop_left]
  cases well with
  | @text run _ nonempty unmarked next _ =>
      obtain ⟨c, more, rfl⟩ := List.exists_cons_of_ne_nil nonempty
      have plain : c ≠ dollar := fun same => unmarked (same ▸ List.mem_cons_self)
      refine Eq.trans ?_ (cut (c :: more).length rfl)
      have found : (str.findchar ((c :: more) ++ source dollar rest) dollar).getD
          ((c :: more) ++ source dollar rest).length = (c :: more).length := by
        cases after : source dollar rest with
        | nil =>
            rw [List.append_nil, str.findchar_none _ _ unmarked]
            rfl
        | cons d later =>
            rw [after] at next
            rw [next d rfl, str.findchar_found _ _ _ unmarked]
            rfl
      simp only [source_cons, Token.source, List.cons_append] at found ⊢
      rw [ffsvarNext, if_pos plain, found]
  | @name run _ chars next _ =>
      refine Eq.trans ?_ (cut (run.length + 1) rfl)
      simp only [source_cons, Token.source, List.cons_append]
      rw [ffsvarNext, if_neg (not_not.mpr rfl), nameEnd_append signedChar chars next,
        Nat.add_comm]

/-! ### One chunk -/

section Chunk

variable {str : Ffstr} {environ : List CString} {fuel : Nat} {t : Token Byte}
  {rest : List (Token Byte)}

/-- What a chunk stands for, if the search for it returns. -/
theorem chunkText_returned (well : WellTokened dollar wordChar (t :: rest))
    {s : Option (List Byte)} (returned : chunkText str environ fuel (t.source dollar) = some s) :
    (∀ name, t = .name name → name ≠ [] → Ends environ name) ∧
      s.getD [] = tokenValue environ t := by
  cases well with
  | @text run _ nonempty unmarked _ _ =>
      obtain ⟨c, more, rfl⟩ := List.exists_cons_of_ne_nil nonempty
      have plain : c ≠ dollar := fun same => unmarked (same ▸ List.mem_cons_self)
      rw [Token.source, chunkText, if_neg plain] at returned
      obtain rfl := Option.some.inj returned
      exact ⟨by rintro name ⟨⟩, rfl⟩
  | @name run _ chars _ _ =>
      rw [Token.source, chunkText, if_pos rfl] at returned
      by_cases empty : run = []
      · rw [if_pos empty] at returned
        obtain rfl := Option.some.inj returned
        refine ⟨?_, by rw [tokenValue, if_pos empty]; rfl⟩
        intro name isName nonempty
        obtain rfl := Token.name.inj isName
        exact absurd empty nonempty
      · rw [if_neg empty] at returned
        obtain ⟨val, searched, rfl⟩ := Option.map_eq_some_iff.mp returned
        obtain ⟨ends, value⟩ := ffenvVal_returned (nul_not_mem_word chars) searched
        refine ⟨?_, by rw [tokenValue, if_neg empty, ← value]; rfl⟩
        intro name isName _
        rw [← Token.name.inj isName]
        exact ends

/-- The search for it returns if it ends. -/
theorem chunkText_total (well : WellTokened dollar wordChar (t :: rest))
    (ends : ∀ name, t = .name name → name ≠ [] → Ends environ name)
    (enough : environ.length < fuel) : chunkText str environ fuel (t.source dollar) ≠ none := by
  cases well with
  | @text run _ nonempty unmarked _ _ =>
      obtain ⟨c, more, rfl⟩ := List.exists_cons_of_ne_nil nonempty
      have plain : c ≠ dollar := fun same => unmarked (same ▸ List.mem_cons_self)
      rw [Token.source, chunkText, if_neg plain]
      exact Option.some_ne_none _
  | @name run _ chars _ _ =>
      rw [Token.source, chunkText, if_pos rfl]
      by_cases empty : run = []
      · rw [if_pos empty]
        exact Option.some_ne_none _
      · rw [if_neg empty]
        have returns := @ffenvVal_total str environ run (nul_not_mem_word chars)
          (ends run rfl empty) fuel enough
        exact fun isNone => returns (Option.map_eq_none_iff.mp isNone)

end Chunk

/-! ### The output -/

/-- What has been written: all of it to a memory that grows, and as much as fits to one of a
fixed size. -/
def Holds (allocate : Bool) (cap : Nat) (out : Out) (written : List Byte) : Prop :=
  if allocate then Filled out.dst out.k written
  else out.dst.length = cap ∧ Filled out.dst out.k (written.take cap)

/-- Adding to what fits is fitting the sum. -/
theorem take_append_fitting (written s : List Byte) (cap : Nat) :
    written.take cap ++ s.take (cap - (written.take cap).length) = (written ++ s).take cap := by
  rw [List.take_append, List.length_take]
  congr 2
  omega

section Output

variable {str : Ffstr} {allocate : Bool} {cap : Nat} {out : Out} {written : List Byte}
  (allocates : allocate = true → str.Allocates) (holds : Holds allocate cap out written)

include allocates holds

theorem appendText_holds (s : List Byte) :
    ∃ after, appendText str allocate out s = some after ∧
      Holds allocate cap after (written ++ s) := by
  cases allocate with
  | false =>
      obtain ⟨size, filled⟩ := holds
      obtain ⟨length, added⟩ := str.add2_filled out.dst out.k _ s filled
      rw [← filled.length, size, take_append_fitting, filled.length] at added
      exact ⟨_, rfl, length.trans size, added⟩
  | true =>
      have filled : Filled out.dst out.k written := holds
      obtain ⟨grown, isGrown⟩ :=
        Option.ne_none_iff_exists'.mp ((allocates rfl).1 out.dst out.k s.length)
      obtain ⟨more, room⟩ := str.growtwice_filled out.dst out.k _ _ _ filled isGrown
      have added := (str.add2_filled grown out.k _ s more).2
      rw [List.take_of_length_le (by omega)] at added
      rw [appendText, if_pos rfl, isGrown]
      exact ⟨_, rfl, added⟩

theorem appendNul_holds :
    ∃ after, appendNul str allocate out = some after ∧
      Holds allocate cap after (written ++ [0]) := by
  cases allocate with
  | false =>
      obtain ⟨size, filled⟩ := holds
      obtain ⟨length, added⟩ := str.addchar_filled out.dst out.k _ 0 filled
      rw [← filled.length, size, take_append_fitting, filled.length] at added
      exact ⟨_, rfl, length.trans size, added⟩
  | true =>
      have filled : Filled out.dst out.k written := holds
      obtain ⟨grown, isGrown⟩ := Option.ne_none_iff_exists'.mp ((allocates rfl).2 out.dst out.k 0)
      have added := str.growaddchar_filled out.dst out.k _ 0 _ filled isGrown
      rw [appendNul, if_pos rfl, isGrown]
      exact ⟨_, rfl, added⟩

end Output

/-! ### The loop -/

section Loop

variable {str : Ffstr} {signedChar : Bool} {environ : List CString} {allocate : Bool} {cap : Nat}

theorem ffenvExpandLoop_nil (fuel : Nat) (out : Out) :
    ffenvExpandLoop str signedChar environ allocate (fuel + 1) [] out = some (some out) := by
  rw [ffenvExpandLoop, if_pos rfl]

theorem source_ne_nil {t : Token Byte} {rest : List (Token Byte)}
    (well : WellTokened dollar wordChar (t :: rest)) : source dollar (t :: rest) ≠ [] := by
  cases well with
  | text nonempty _ _ _ => exact List.append_ne_nil_of_left_ne_nil nonempty _
  | name _ _ _ => exact List.cons_ne_nil _ _

/-- The loop body for a token. -/
theorem ffenvExpandLoop_cons {t : Token Byte} {rest : List (Token Byte)}
    (well : WellTokened dollar wordChar (t :: rest)) (fuel : Nat) (out : Out) :
    ffenvExpandLoop str signedChar environ allocate (fuel + 1) (source dollar (t :: rest)) out =
      (chunkText str environ fuel (t.source dollar)).bind fun s =>
        (s.elim (some out) (appendText str allocate out)).elim (some none)
          (ffenvExpandLoop str signedChar environ allocate fuel (source dollar rest)) := by
  rw [ffenvExpandLoop, if_neg (source_ne_nil well), ffsvarNext_token str signedChar well,
    Option.bind_eq_bind, Option.bind_some]
  dsimp only
  rcases chunkText str environ fuel (t.source dollar) with _ | _ | s
  · rfl
  · rfl
  · dsimp only [Option.bind_eq_bind, Option.bind_some, Option.elim_some]
    cases appendText str allocate out s with
    | none => rfl
    | some after => rfl

/-- If the loop returns, every search has ended and the output holds the expansion. -/
theorem ffenvExpandLoop_returned (allocates : allocate = true → str.Allocates)
    {ts : List (Token Byte)} (well : WellTokened dollar wordChar ts) {fuel : Nat} {out : Out}
    {written : List Byte} (holds : Holds allocate cap out written) {result : Option Out}
    (returned : ffenvExpandLoop str signedChar environ allocate fuel (source dollar ts) out =
      some result) :
    (∀ name, Token.name name ∈ ts → name ≠ [] → Ends environ name) ∧
      ∃ after, result = some after ∧
        Holds allocate cap after (written ++ ts.flatMap (tokenValue environ)) := by
  induction ts generalizing fuel out written with
  | nil =>
      cases fuel with
      | zero => exact absurd returned (Option.some_ne_none result).symm
      | succ fuel =>
          rw [source_nil, ffenvExpandLoop_nil] at returned
          refine ⟨fun name member => absurd member List.not_mem_nil, out, ?_, ?_⟩
          · exact (Option.some.inj returned).symm
          · rw [List.flatMap_nil, List.append_nil]
            exact holds
  | cons t rest inductionHypothesis =>
      cases fuel with
      | zero => exact absurd returned (Option.some_ne_none result).symm
      | succ fuel =>
          have wellRest : WellTokened dollar wordChar rest := by
            cases well with
            | text _ _ _ wellRest => exact wellRest
            | name _ _ wellRest => exact wellRest
          rw [ffenvExpandLoop_cons well] at returned
          obtain ⟨s, chunk, looped⟩ := Option.bind_eq_some_iff.mp returned
          obtain ⟨ends, value⟩ := chunkText_returned well chunk
          have appended : ∃ between, s.elim (some out) (appendText str allocate out) = some between ∧
              Holds allocate cap between (written ++ tokenValue environ t) := by
            rw [← value]
            cases s with
            | none => exact ⟨out, rfl, by simpa using holds⟩
            | some s => exact appendText_holds allocates holds s
          obtain ⟨between, isBetween, holdsBetween⟩ := appended
          rw [isBetween] at looped
          obtain ⟨endsRest, after, isAfter, holdsAfter⟩ :=
            inductionHypothesis wellRest holdsBetween looped
          refine ⟨?_, after, isAfter, ?_⟩
          · intro name member nonempty
            rcases List.mem_cons.mp member with here | later
            · exact ends name here.symm nonempty
            · exact endsRest name later nonempty
          · rw [List.flatMap_cons, ← List.append_assoc]
            exact holdsAfter

/-- The loop returns if every search ends. -/
theorem ffenvExpandLoop_total {ts : List (Token Byte)} (well : WellTokened dollar wordChar ts)
    (ends : ∀ name, Token.name name ∈ ts → name ≠ [] → Ends environ name) {fuel : Nat}
    (enough : environ.length + ts.length < fuel) (out : Out) :
    ffenvExpandLoop str signedChar environ allocate fuel (source dollar ts) out ≠ none := by
  induction ts generalizing fuel out with
  | nil =>
      obtain ⟨fuel, rfl⟩ : ∃ more, fuel = more + 1 := ⟨fuel - 1, by omega⟩
      rw [source_nil, ffenvExpandLoop_nil]
      exact Option.some_ne_none _
  | cons t rest inductionHypothesis =>
      obtain ⟨fuel, rfl⟩ : ∃ more, fuel = more + 1 := ⟨fuel - 1, by omega⟩
      rw [List.length_cons] at enough
      have wellRest : WellTokened dollar wordChar rest := by
        cases well with
        | text _ _ _ wellRest => exact wellRest
        | name _ _ wellRest => exact wellRest
      have endsHere : ∀ name, t = .name name → name ≠ [] → Ends environ name :=
        fun name isName => ends name (isName ▸ List.mem_cons_self)
      obtain ⟨s, chunk⟩ := Option.ne_none_iff_exists'.mp
        (@chunkText_total str environ fuel t rest well endsHere (by omega))
      rw [ffenvExpandLoop_cons well, chunk, Option.bind_some]
      cases s.elim (some out) (appendText str allocate out) with
      | none => exact Option.some_ne_none _
      | some between =>
          apply inductionHypothesis wellRest _ (by omega)
          exact fun name member => ends name (List.mem_cons_of_mem _ member)

end Loop

/-! ### The contract -/

section Contract

variable {str : Ffstr} {signedChar : Bool} {environ : List CString} {src : CString}
  {dst : Option (List Byte)} (allocates : dst.isNone = true → str.Allocates)

include allocates

/-- If the function returns, every search has ended and the output holds the expansion and
its terminator. -/
theorem ffenvExpand_returned {fuel : Nat} {result : Option Out}
    (returned : ffenvExpand str signedChar environ dst src fuel = some result) :
    LookupsEnd environ src.bytes ∧ ∃ out, result = some out ∧
      Holds dst.isNone (dst.getD []).length out (expansion environ src.bytes ++ [0]) := by
  obtain ⟨looped, isLooped, rfl⟩ := Option.map_eq_some_iff.mp returned
  have begins : Holds dst.isNone (dst.getD []).length ⟨dst.getD [], 0⟩ [] := by
    cases dst with
    | none => exact Filled.empty []
    | some dst => exact ⟨rfl, by rw [List.take_nil]; exact Filled.empty dst⟩
  rw [← source_tokens dollar wordChar src.bytes] at isLooped
  obtain ⟨ends, between, rfl, holds⟩ := ffenvExpandLoop_returned allocates
    (tokens_wellTokened wordChar_dollar src.bytes) begins isLooped
  obtain ⟨out, isOut, holdsOut⟩ := appendNul_holds allocates holds
  exact ⟨ends, out, isOut, holdsOut⟩

omit allocates in
/-- It returns if every search ends. -/
theorem ffenvExpand_total (ends : LookupsEnd environ src.bytes) :
    ∃ fuel result, ffenvExpand str signedChar environ dst src fuel = some result := by
  have looped := @ffenvExpandLoop_total str signedChar environ dst.isNone _
    (tokens_wellTokened wordChar_dollar src.bytes) ends _ (Nat.lt_succ_self _) ⟨dst.getD [], 0⟩
  rw [source_tokens] at looped
  obtain ⟨result, isResult⟩ := Option.ne_none_iff_exists'.mp looped
  exact ⟨_, _, congrArg (Option.map _) isResult⟩

end Contract

/-- Both modes return the expansion and a terminator. -/
def Expands (str : Ffstr) (signedChar : Bool) (environ : List CString) (src : CString) : Prop :=
  (∀ dst : List Byte, (expansion environ src.bytes).length < dst.length →
    ∃ fuel out, ffenvExpand str signedChar environ (some dst) src fuel = some (some out) ∧
      out.dst.length = dst.length ∧
      Filled out.dst out.k (expansion environ src.bytes ++ [0])) ∧
  ∃ fuel out, ffenvExpand str signedChar environ none src fuel = some (some out) ∧
    Filled out.dst out.k (expansion environ src.bytes ++ [0])

/-- With memory to allocate, both modes of `ffenv_expand` return the expansion and a
terminator exactly if every search of the environment ends. -/
theorem ffenvExpand_iff (str : Ffstr) (allocates : str.Allocates) (signedChar : Bool)
    (environ : List CString) (src : CString) :
    Expands str signedChar environ src ↔ LookupsEnd environ src.bytes := by
  constructor
  · rintro ⟨_, fuel, out, returned, _⟩
    exact (ffenvExpand_returned (fun _ => allocates) returned).1
  · intro ends
    constructor
    · intro dst room
      obtain ⟨fuel, result, returned⟩ := @ffenvExpand_total str signedChar environ src (some dst) ends
      obtain ⟨_, out, rfl, size, filled⟩ := ffenvExpand_returned (fun _ => allocates) returned
      have whole : (expansion environ src.bytes ++ [0]).length ≤ (Option.getD (some dst) []).length := by
        rw [List.length_append, List.length_singleton]
        exact room
      rw [List.take_of_length_le whole] at filled
      exact ⟨fuel, out, returned, size, filled⟩
    · obtain ⟨fuel, result, returned⟩ := @ffenvExpand_total str signedChar environ src none ends
      obtain ⟨_, out, rfl, filled⟩ := ffenvExpand_returned (fun _ => allocates) returned
      exact ⟨fuel, out, returned, filled⟩

/-- `$KEY` and `$KEY1` next to each other, with a terminator. -/
theorem ffenvExpand_iff_adjacent :
    Expands .copying true [⟨[0x4b, 0x31, 0x3d, 0x61], by decide⟩, ⟨[0x4b, 0x3d, 0x62], by decide⟩]
        ⟨[0x24, 0x4b, 0x24, 0x4b, 0x31], by decide⟩ ∧
      expansion [⟨[0x4b, 0x31, 0x3d, 0x61], by decide⟩, ⟨[0x4b, 0x3d, 0x62], by decide⟩]
        [0x24, 0x4b, 0x24, 0x4b, 0x31] = [0x62, 0x61] :=
  ⟨(ffenvExpand_iff .copying Ffstr.copying_allocates true _ _).mpr
    fun _ _ _ => .inl (by decide), by decide⟩

/-- The entry `B=`. -/
def otherEntry : CString := ⟨[0x42, 0x3d], by decide⟩

/-- In an environment of 2^32 entries `B=` the search for `$A` never returns, because the
index wraps before it comes to the end of the array. -/
theorem ffenvExpand_never_returns :
    ¬ Expands .copying true (List.replicate (2 ^ 32) otherEntry) ⟨[0x24, 0x41], by decide⟩ := by
  rintro ⟨_, fuel, out, returned, _⟩
  have ends := (ffenvExpand_returned (fun _ => Ffstr.copying_allocates) returned).1
  rcases ends [0x41] (by decide) (by decide) with short | found
  · rw [List.length_replicate] at short
    exact Nat.lt_irrefl _ short
  · rw [List.take_replicate, Nat.min_self] at found
    apply found
    refine List.findSome?_eq_none_iff.mpr fun e member => ?_
    rw [List.eq_of_mem_replicate member]
    decide

/-! ### A caller's buffer -/

/-- No value of a variable has a NUL. -/
theorem nul_not_mem_lookup (environ : List CString) (name : List Byte) :
    0 ∉ (lookup environ name).getD [] := by
  cases found : lookup environ name with
  | none => exact List.not_mem_nil
  | some value =>
      obtain ⟨e, _, isValue⟩ := List.exists_of_findSome?_eq_some found
      rw [entryValue] at isValue
      split at isValue
      · obtain rfl := Option.some.inj isValue
        exact fun nul => e.noNul ((List.drop_sublist _ _).subset nul)
      · cases isValue

/-- No expansion has a NUL. -/
theorem nul_not_mem_expansion (environ : List CString) (src : CString) :
    0 ∉ expansion environ src.bytes := by
  intro nul
  obtain ⟨t, member, inValue⟩ := List.mem_flatMap.mp nul
  cases t with
  | text run =>
      apply src.noNul
      rw [← source_tokens dollar wordChar src.bytes]
      exact List.mem_flatMap.mpr ⟨_, member, inValue⟩
  | name run =>
      rw [tokenValue] at inValue
      split at inValue
      · exact absurd inValue List.not_mem_nil
      · exact nul_not_mem_lookup environ run inValue

/-- The call ends, and it returns NULL or leaves a NUL in the caller's buffer. -/
def Terminated (str : Ffstr) (signedChar : Bool) (environ : List CString) (dst : List Byte)
    (src : CString) : Prop :=
  ∃ fuel result, ffenvExpand str signedChar environ (some dst) src fuel = some result ∧
    ∀ out ∈ result, 0 ∈ out.dst

/-- A call that returns has left a NUL exactly if the expansion is shorter than the buffer. -/
theorem nul_mem_iff {str : Ffstr} {signedChar : Bool} {environ : List CString} {dst : List Byte}
    {src : CString} {fuel : Nat} {result : Option Out}
    (returned : ffenvExpand str signedChar environ (some dst) src fuel = some result) :
    ∃ out, result = some out ∧
      (0 ∈ out.dst ↔ (expansion environ src.bytes).length < dst.length) := by
  obtain ⟨_, out, isOut, size, filled⟩ := ffenvExpand_returned (by simp) returned
  rw [Option.getD_some] at size filled
  refine ⟨out, isOut, ?_⟩
  by_cases room : (expansion environ src.bytes).length < dst.length
  · have whole : (expansion environ src.bytes ++ [0]).length ≤ dst.length := by
      rw [List.length_append, List.length_singleton]
      exact room
    rw [List.take_of_length_le whole] at filled
    refine iff_of_true (filled.leads.subset ?_) room
    exact List.mem_append_right _ (List.mem_singleton_self 0)
  · -- The expansion takes all of the buffer.
    rw [List.take_append_of_le_length (Nat.le_of_not_lt room)] at filled
    have full : (expansion environ src.bytes).take dst.length = out.dst := by
      apply filled.leads.eq_of_length
      rw [List.length_take, size]
      omega
    refine iff_of_false ?_ room
    rw [← full]
    exact fun nul => nul_not_mem_expansion environ src ((List.take_sublist _ _).subset nul)

/-- `ffenv_expand` leaves a terminator in a caller's buffer exactly if the expansion is
shorter than the buffer and every search of the environment ends. -/
theorem ffenvExpand_terminated_iff (str : Ffstr) (signedChar : Bool) (environ : List CString)
    (dst : List Byte) (src : CString) :
    Terminated str signedChar environ dst src ↔
      LookupsEnd environ src.bytes ∧ (expansion environ src.bytes).length < dst.length := by
  constructor
  · rintro ⟨fuel, result, returned, terminated⟩
    obtain ⟨out, rfl, nul⟩ := nul_mem_iff returned
    exact ⟨(ffenvExpand_returned (by simp) returned).1, nul.mp (terminated out rfl)⟩
  · rintro ⟨ends, room⟩
    obtain ⟨fuel, result, returned⟩ := @ffenvExpand_total str signedChar environ src (some dst) ends
    obtain ⟨out, rfl, nul⟩ := nul_mem_iff returned
    refine ⟨fuel, some out, returned, ?_⟩
    intro other same
    obtain rfl := Option.some.inj same
    exact nul.mpr room

/-- The text `abc` in a buffer of three bytes. -/
theorem ffenvExpand_not_terminated :
    ¬ Terminated .copying true [] [0xff, 0xff, 0xff] ⟨[0x61, 0x62, 0x63], by decide⟩ := by
  rintro ⟨fuel, result, returned, terminated⟩
  obtain ⟨out, rfl, nul⟩ := nul_mem_iff returned
  exact absurd (nul.mp (terminated out rfl)) (by decide)

end Ffos.Environ
