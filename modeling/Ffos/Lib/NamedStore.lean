/-
Module: Ffos.Lib.NamedStore
Purpose: A store of named values. Names with the same label name the same value, which is
  replaced in its place; a new value is put at the end.
Trusted boundary: none
Main exports: NamedStore, NamedStore.get_set, NamedStore.get_erase, NamedStore.get_eq_some_iff,
  Change, latest, latest_concat
-/
import Mathlib.Data.List.Nodup

namespace Ffos.Lib

variable {Name Value Label : Type} {label : Name → Label}

/-- The named values in their order, at most one for a label. -/
structure NamedStore (label : Name → Label) (Value : Type) where
  entries : List (Name × Value)
  distinct : (entries.map fun entry => label entry.1).Nodup

namespace NamedStore

/-- A store without values. -/
def empty : NamedStore label Value := ⟨[], List.nodup_nil⟩

theorem distinct_concat {entries : List (Name × Value)} {name : Name}
    (distinct : (entries.map fun entry => label entry.1).Nodup)
    (fresh : label name ∉ entries.map fun entry => label entry.1) (value : Value) :
    ((entries ++ [(name, value)]).map fun entry => label entry.1).Nodup := by
  rw [List.map_append]
  apply List.Nodup.append distinct (List.nodup_singleton _)
  apply List.disjoint_right.mpr
  intro other member
  rw [List.mem_singleton.mp member]
  exact fresh

variable [DecidableEq Label]

/-- The value with this label. -/
def get (store : NamedStore label Value) (wanted : Label) : Option Value :=
  (store.entries.find? fun entry => label entry.1 = wanted).map Prod.snd

/-- The entries with another value for this label. -/
def replaced (label : Name → Label) (wanted : Label) (value : Value)
    (entries : List (Name × Value)) : List (Name × Value) :=
  entries.map fun entry => if label entry.1 = wanted then (entry.1, value) else entry

theorem labels_replaced (wanted : Label) (value : Value) (entries : List (Name × Value)) :
    (replaced label wanted value entries).map (fun entry => label entry.1) =
      entries.map fun entry => label entry.1 := by
  rw [replaced, List.map_map]
  apply List.map_congr_left
  intro entry _
  rw [Function.comp_apply]
  split <;> rfl

/-- The value of a name is replaced, or put at the end. -/
def set (store : NamedStore label Value) (name : Name) (value : Value) :
    NamedStore label Value :=
  if known : label name ∈ store.entries.map fun entry => label entry.1 then
    ⟨replaced label (label name) value store.entries,
      (labels_replaced (label name) value store.entries).symm ▸ store.distinct⟩
  else ⟨store.entries ++ [(name, value)], distinct_concat store.distinct known value⟩

/-- The value with this label is taken out. -/
def erase (store : NamedStore label Value) (wanted : Label) : NamedStore label Value where
  entries := store.entries.filter fun entry => label entry.1 ≠ wanted
  distinct := (List.filter_sublist.map _).nodup store.distinct

section Lookup

variable {store : NamedStore label Value} {wanted : Label} {name : Name} {value : Value}

/-- What is found is one of the entries. -/
theorem mem_of_get (found : store.get wanted = some value) :
    ∃ name, label name = wanted ∧ (name, value) ∈ store.entries := by
  obtain ⟨⟨name, other⟩, isFound, same⟩ := Option.map_eq_some_iff.mp found
  cases same
  exact ⟨name, of_decide_eq_true (List.find?_some isFound :), List.mem_of_find?_eq_some isFound⟩

/-- Every entry is found. -/
theorem get_of_mem (member : (name, value) ∈ store.entries) :
    store.get (label name) = some value := by
  cases found : store.entries.find? fun entry => label entry.1 = label name with
  | none =>
      have absent := List.find?_eq_none.mp found _ member
      exact absurd (decide_eq_true rfl) absent
  | some entry =>
      have sameLabel : label entry.1 = label name := of_decide_eq_true (List.find?_some found :)
      have same : entry = (name, value) :=
        List.inj_on_of_nodup_map store.distinct (List.mem_of_find?_eq_some found) member sameLabel
      rw [get, found, same]
      rfl

theorem get_eq_some_iff :
    store.get wanted = some value ↔
      ∃ name, label name = wanted ∧ (name, value) ∈ store.entries := by
  constructor
  · exact mem_of_get
  · rintro ⟨name, rfl, member⟩
    exact get_of_mem member

theorem get_eq_none_iff :
    store.get wanted = none ↔ wanted ∉ store.entries.map fun entry => label entry.1 := by
  rw [get, Option.map_eq_none_iff, List.find?_eq_none, List.mem_map]
  constructor
  · rintro absent ⟨entry, member, same⟩
    exact absent entry member (decide_eq_true same)
  · intro absent entry member same
    exact absent ⟨entry, member, of_decide_eq_true same⟩

/-- An entry after a value was set has this value, or was there before. -/
theorem mem_set {entry : Name × Value} (member : entry ∈ (store.set name value).entries) :
    label entry.1 = label name ∧ entry.2 = value ∨
      label entry.1 ≠ label name ∧ entry ∈ store.entries := by
  rw [set] at member
  split at member
  · obtain ⟨old, isOld, same⟩ := List.mem_map.mp member
    split at same
    · next isName =>
      cases same
      exact Or.inl ⟨isName, rfl⟩
    · next other =>
      cases same
      exact Or.inr ⟨other, isOld⟩
  · next fresh =>
    rcases List.mem_append.mp member with old | new
    · refine Or.inr ⟨fun same => fresh ?_, old⟩
      rw [← same]
      exact List.mem_map.mpr ⟨entry, old, rfl⟩
    · cases List.mem_singleton.mp new
      exact Or.inl ⟨rfl, rfl⟩

/-- The value that was set is there, under a name with the same label. -/
theorem mem_set_self (store : NamedStore label Value) (name : Name) (value : Value) :
    ∃ same, label same = label name ∧ (same, value) ∈ (store.set name value).entries := by
  rw [set]
  split
  · next known =>
    obtain ⟨entry, member, isName⟩ := List.mem_map.mp known
    refine ⟨entry.1, isName, List.mem_map.mpr ⟨entry, member, ?_⟩⟩
    rw [if_pos isName]
  · exact ⟨name, rfl, List.mem_append_right _ (List.mem_singleton.mpr rfl)⟩

/-- The other entries are still there. -/
theorem mem_set_of_ne {entry : Name × Value} (other : label entry.1 ≠ label name)
    (member : entry ∈ store.entries) : entry ∈ (store.set name value).entries := by
  rw [set]
  split
  · refine List.mem_map.mpr ⟨entry, member, ?_⟩
    rw [if_neg other]
  · exact List.mem_append_left _ member

/-- A value that is set is found, and nothing else has changed. -/
theorem get_set : (store.set name value).get wanted =
    if label name = wanted then some value else store.get wanted := by
  split
  · next isName =>
    obtain ⟨same, sameLabel, member⟩ := mem_set_self store name value
    rw [← isName, ← sameLabel]
    exact get_of_mem member
  · next other =>
    apply Option.ext
    intro found
    rw [get_eq_some_iff, get_eq_some_iff]
    constructor
    · rintro ⟨same, isWanted, member⟩
      rcases mem_set member with ⟨isName, _⟩ | ⟨_, old⟩
      · exact absurd (isName.symm.trans isWanted) other
      · exact ⟨same, isWanted, old⟩
    · rintro ⟨same, isWanted, member⟩
      refine ⟨same, isWanted, mem_set_of_ne (fun isName => other ?_) member⟩
      exact isName.symm.trans isWanted

/-- A value that is taken out is not found, and nothing else has changed. -/
theorem get_erase {gone : Label} : (store.erase gone).get wanted =
    if gone = wanted then none else store.get wanted := by
  have inside : ∀ entry, entry ∈ (store.erase gone).entries ↔
      entry ∈ store.entries ∧ label entry.1 ≠ gone := by
    intro entry
    rw [erase, List.mem_filter, decide_eq_true_iff]
  split
  · next same =>
    rw [get_eq_none_iff, List.mem_map]
    rintro ⟨entry, member, isWanted⟩
    exact ((inside entry).mp member).2 (isWanted.trans same.symm)
  · next other =>
    apply Option.ext
    intro found
    rw [get_eq_some_iff, get_eq_some_iff]
    constructor
    · rintro ⟨name, isWanted, member⟩
      exact ⟨name, isWanted, ((inside _).mp member).1⟩
    · rintro ⟨name, isWanted, member⟩
      refine ⟨name, isWanted, (inside _).mpr ⟨member, fun same => other ?_⟩⟩
      exact same.symm.trans isWanted

end Lookup

end NamedStore

/-! ### Histories -/

/-- A value was set, or taken out. -/
structure Change (Name Value : Type) where
  name : Name
  value : Option Value

variable [DecidableEq Label]

/-- The value that was last set for this label, if it was not taken out since. -/
def latest (label : Name → Label) (wanted : Label) (changes : List (Change Name Value)) :
    Option Value :=
  changes.foldl
    (fun value change => if label change.name = wanted then change.value else value) none

theorem latest_concat (wanted : Label) (changes : List (Change Name Value))
    (change : Change Name Value) :
    latest label wanted (changes ++ [change]) =
      if label change.name = wanted then change.value else latest label wanted changes := by
  rw [latest, List.foldl_append, List.foldl_cons, List.foldl_nil, ← latest]

end Ffos.Lib
