/-
Module: Ffos.Lib.StringTable
Purpose: A block of memory with a table of pointers and, behind it, the texts that they point
  to, each with a terminator.
Trusted boundary: none
Main exports: texts, pointerTable, packed, ReadsAs, Table, table_packed, readsAs_of_table
-/
import Ffos.Lib.ByteMemory

namespace Ffos.Lib

/-- Texts one after the other, each with its terminator. -/
def texts (found : List (List Byte)) : List Byte := found.flatMap fun el => el ++ [0]

theorem texts_cons (el : List Byte) (found : List (List Byte)) :
    texts (el :: found) = el ++ 0 :: texts found := by
  rw [texts, List.flatMap_cons, List.append_assoc]
  rfl

theorem texts_append (xs ys : List (List Byte)) : texts (xs ++ ys) = texts xs ++ texts ys :=
  List.flatMap_append

/-- The pointers to texts that lie one after the other from an offset on. -/
def pointerTable (pointerSize address : Nat) : Nat → List (List Byte) → List Byte
  | _, [] => []
  | data, el :: found =>
      leBytes pointerSize (address + data) ++
        pointerTable pointerSize address (data + el.length + 1) found

/-- A stored text reads as another one: the other one and its terminator are at its beginning. -/
def ReadsAs (stored other : List Byte) : Prop := other ++ [0] <+: stored ++ [0]

/-- The block at an address holds these texts: pointers and, behind them and without overlap,
the texts they point to. -/
def Table (pointerSize address : Nat) (block : List Byte) (found : List (List Byte)) : Prop :=
  ∃ place : Nat → Nat,
    (∀ i el, found[i]? = some el →
      readLe block (i * pointerSize) pointerSize = some (address + place i) ∧
        readBytes block (place i) (el.length + 1) = some (el ++ [0]) ∧
        found.length * pointerSize ≤ place i) ∧
    ∀ i j el other, found[i]? = some el → found[j]? = some other → i < j →
      place i + el.length < place j ∨ place j + other.length < place i

section Packed

variable {pointerSize address : Nat} {found : List (List Byte)}

theorem length_pointerTable (pointerSize address data : Nat) (found : List (List Byte)) :
    (pointerTable pointerSize address data found).length = found.length * pointerSize := by
  induction found generalizing data with
  | nil => rw [pointerTable, List.length_nil, List.length_nil, Nat.zero_mul]
  | cons el found inductionHypothesis =>
      rw [pointerTable, List.length_append, length_leBytes, inductionHypothesis, List.length_cons,
        Nat.succ_mul, Nat.add_comm]

theorem pointerTable_append (pointerSize address data : Nat) (xs ys : List (List Byte)) :
    pointerTable pointerSize address data (xs ++ ys) =
      pointerTable pointerSize address data xs ++
        pointerTable pointerSize address (data + (texts xs).length) ys := by
  induction xs generalizing data with
  | nil => rfl
  | cons el xs inductionHypothesis =>
      rw [List.cons_append, pointerTable, pointerTable, inductionHypothesis, texts_cons,
        List.length_append, List.length_cons, List.append_assoc]
      congr 3
      omega

/-- The block of these addresses. -/
def packed (pointerSize address : Nat) (found : List (List Byte)) : List Byte :=
  pointerTable pointerSize address (found.length * pointerSize) found ++ texts found

/-- Where a text begins in the block. -/
def placeOf (pointerSize : Nat) (found : List (List Byte)) (i : Nat) : Nat :=
  found.length * pointerSize + (texts (found.take i)).length

theorem length_packed (pointerSize address : Nat) (found : List (List Byte)) :
    (packed pointerSize address found).length =
      found.length * pointerSize + (texts found).length := by
  rw [packed, List.length_append, length_pointerTable]

theorem split_at {i : Nat} {el : List Byte} (isEl : found[i]? = some el) :
    found = found.take i ++ el :: found.drop (i + 1) ∧ (found.take i).length = i := by
  obtain ⟨inside, rfl⟩ := List.getElem?_eq_some_iff.mp isEl
  exact ⟨by simp, by rw [List.length_take]; omega⟩

/-- The texts behind one. -/
theorem placeOf_add {i : Nat} {el : List Byte} (isEl : found[i]? = some el) :
    placeOf pointerSize found (i + 1) = placeOf pointerSize found i + el.length + 1 := by
  rw [placeOf, placeOf, List.take_add_one, isEl, Option.toList_some, texts_append, texts_cons]
  simp [texts]
  omega

theorem placeOf_mono {i j : Nat} (before : i ≤ j) :
    placeOf pointerSize found i ≤ placeOf pointerSize found j := by
  obtain ⟨more, rfl⟩ := Nat.exists_eq_add_of_le before
  rw [placeOf, placeOf, List.take_add, texts_append, List.length_append]
  omega

theorem placeOf_length : placeOf pointerSize found found.length =
    (packed pointerSize address found).length := by
  rw [placeOf, List.take_length, length_packed]

/-- A text of the block, with what stands before and behind it. -/
theorem packed_text {i : Nat} {el : List Byte} (isEl : found[i]? = some el) :
    ∃ before after, packed pointerSize address found = before ++ (el ++ [0]) ++ after ∧
      before.length = placeOf pointerSize found i := by
  obtain ⟨whole, _⟩ := split_at isEl
  refine ⟨pointerTable pointerSize address (found.length * pointerSize) found ++
    texts (found.take i), texts (found.drop (i + 1)), ?_, ?_⟩
  · rw [packed]
    nth_rewrite 3 [whole]
    rw [texts_append, texts_cons]
    simp only [List.append_assoc, List.cons_append, List.nil_append]
  · rw [List.length_append, length_pointerTable, placeOf]

theorem readLe_pointer {i : Nat} {el : List Byte} (isEl : found[i]? = some el)
    (fits : address + (packed pointerSize address found).length < 256 ^ pointerSize) :
    readLe (packed pointerSize address found) (i * pointerSize) pointerSize =
      some (address + placeOf pointerSize found i) := by
  obtain ⟨whole, count⟩ := split_at isEl
  have inside : placeOf pointerSize found i ≤ (packed pointerSize address found).length := by
    obtain ⟨bounded, _⟩ := List.getElem?_eq_some_iff.mp isEl
    rw [← placeOf_length]
    exact placeOf_mono (Nat.le_of_lt bounded)
  have before := length_pointerTable pointerSize address (found.length * pointerSize) (found.take i)
  rw [count] at before
  have table := pointerTable_append pointerSize address (found.length * pointerSize)
    (found.take i) (el :: found.drop (i + 1))
  rw [← whole, pointerTable, ← placeOf] at table
  rw [← before, packed, table, ← List.append_assoc (pointerTable _ _ _ _), List.append_assoc _ _ (texts found)]
  apply readLe_middle
  omega

/-- The block holds the texts. -/
theorem table_packed
    (fits : address + (packed pointerSize address found).length < 256 ^ pointerSize) :
    Table pointerSize address (packed pointerSize address found) found := by
  refine ⟨placeOf pointerSize found, ?_, ?_⟩
  · intro i el isEl
    obtain ⟨before, after, whole, place⟩ := @packed_text pointerSize address found i el isEl
    refine ⟨readLe_pointer isEl fits, ?_, Nat.le_add_right _ _⟩
    rw [whole, ← place, ← List.length_singleton, ← List.length_append]
    exact readBytes_middle before (el ++ [0]) after
  · intro i j el other isEl _ before
    have next := @placeOf_add pointerSize found i el isEl
    have later := @placeOf_mono pointerSize found (i + 1) j before
    omega

/-- Other texts that the block holds too, as many of them, read as the ones that were stored. -/
theorem readsAs_of_table {others : List (List Byte)}
    (fits : address + (packed pointerSize address found).length < 256 ^ pointerSize)
    (same : found.length = others.length)
    (table : Table pointerSize address (packed pointerSize address found) others) :
    List.Forall₂ ReadsAs found others := by
  obtain ⟨place, reads, apart⟩ := table
  have places : ∀ i el other, found[i]? = some el → others[i]? = some other →
      place i = placeOf pointerSize found i := by
    intro i el other isEl isOtherEl
    have pointer := (reads i other isOtherEl).1
    rw [readLe_pointer isEl fits] at pointer
    have equal := Option.some.inj pointer
    omega
  apply List.forall₂_of_length_eq_of_get same
  intro i inFound inOthers
  have isEl := List.getElem?_eq_getElem inFound
  have isOtherEl := List.getElem?_eq_getElem inOthers
  rw [List.get_eq_getElem, List.get_eq_getElem]
  generalize found[i] = el at isEl ⊢
  generalize others[i] = other at isOtherEl ⊢
  obtain ⟨_, text, _⟩ := reads i other isOtherEl
  obtain ⟨before, after, whole, start⟩ := @packed_text pointerSize address found i el isEl
  have next := @placeOf_add pointerSize found i el isEl
  rw [places i el other isEl isOtherEl] at text
  have shorter : other.length + 1 ≤ (el ++ [0]).length := by
    rw [List.length_append, List.length_singleton]
    rcases Nat.lt_or_ge (i + 1) found.length with more | last
    · -- The next text leaves no more room.
      have isNext := List.getElem?_eq_getElem more
      have isOtherNext := List.getElem?_eq_getElem (same ▸ more)
      have order := apart i (i + 1) other _ isOtherEl isOtherNext (Nat.lt_succ_self i)
      rw [places i el other isEl isOtherEl, places (i + 1) _ _ isNext isOtherNext] at order
      omega
    · -- The block ends.
      have inside := bounded_of_readBytes text
      rw [← placeOf_length, show found.length = i + 1 by omega] at inside
      omega
  rw [whole, ← start] at text
  exact prefix_of_readBytes_middle text shorter

end Packed

end Ffos.Lib
