/-
Module: Ffos.Lib.EdgeChannel
Purpose: A bounded channel between a writer and a reader that wait after they were refused and
  are woken once when there is room, or something to be read. They never both wait for good.
Trusted boundary: none
Main exports: EdgeChannel, EdgeChannel.Wakes, Wakes.put, Wakes.refuse, Wakes.finish, Wakes.take,
  Wakes.refuseReader, Wakes.wakeWriter, Wakes.wakeReader, Wakes.not_both_asleep
-/

namespace Ffos.Lib

variable {Item : Type}

/-- The items under way, whether the writer is done, whether it was refused since it was last
reported that there is room, and the reports that are still to be seen by the two sides. -/
structure EdgeChannel (Item : Type) where
  items : List Item
  ended : Bool
  refused : Bool
  writeEdge : Bool
  readEdge : Bool
deriving DecidableEq, Repr

namespace EdgeChannel

def empty : EdgeChannel Item := ⟨[], false, false, false, false⟩

/-- Items are written. -/
def put (channel : EdgeChannel Item) (items : List Item) : EdgeChannel Item :=
  { channel with items := channel.items ++ items, readEdge := true }

/-- The writer is told to wait. -/
def refuse (channel : EdgeChannel Item) : EdgeChannel Item := { channel with refused := true }

/-- The writer is done. -/
def finish (channel : EdgeChannel Item) : EdgeChannel Item :=
  { channel with ended := true, readEdge := true }

/-- Items are read. It may be reported that there is room. -/
def take (channel : EdgeChannel Item) (count : Nat) (report : Bool) : EdgeChannel Item :=
  { channel with
    items := channel.items.drop count
    refused := channel.refused && !report
    writeEdge := channel.writeEdge || report }

/-- A writer that was refused is told when nothing is left to be read, if not before. -/
def Reports (channel : EdgeChannel Item) (count : Nat) (report : Bool) : Prop :=
  channel.refused = true → channel.items.drop count = [] → report = true

instance [DecidableEq Item] (channel : EdgeChannel Item) (count : Nat) (report : Bool) :
    Decidable (channel.Reports count report) :=
  inferInstanceAs (Decidable (_ → _))

/-- The writer sees its report. -/
def wakeWriter (channel : EdgeChannel Item) : EdgeChannel Item :=
  { channel with writeEdge := false }

/-- The reader sees its report. -/
def wakeReader (channel : EdgeChannel Item) : EdgeChannel Item :=
  { channel with readEdge := false }

/-- A writer that waits will be woken, or was refused and there is something to be read. A
reader that waits will be woken, or there is nothing to be seen. -/
structure Wakes (channel : EdgeChannel Item) (writerWaits readerWaits : Bool) : Prop where
  writer : writerWaits = true →
    channel.writeEdge = true ∨ channel.refused = true ∧ channel.items ≠ []
  reader : readerWaits = true →
    channel.readEdge = true ∨ channel.items = [] ∧ channel.ended = false

namespace Wakes

variable {channel : EdgeChannel Item} {writerWaits readerWaits : Bool}

theorem start : (empty : EdgeChannel Item).Wakes false false where
  writer waits := absurd waits Bool.false_ne_true
  reader waits := absurd waits Bool.false_ne_true

theorem put (wakes : channel.Wakes writerWaits readerWaits) (items : List Item) :
    (channel.put items).Wakes writerWaits readerWaits where
  writer waits := by
    rcases wakes.writer waits with edge | ⟨refused, some⟩
    · exact Or.inl edge
    · refine Or.inr ⟨refused, fun nothing => some ?_⟩
      exact (List.append_eq_nil_iff.mp nothing).1
  reader _ := Or.inl rfl

/-- The writer may wait if there is something to be read. -/
theorem refuse (wakes : channel.Wakes false readerWaits) (some : channel.items ≠ []) :
    channel.refuse.Wakes true readerWaits where
  writer _ := Or.inr ⟨rfl, some⟩
  reader := wakes.reader

theorem finish (wakes : channel.Wakes writerWaits readerWaits) :
    channel.finish.Wakes writerWaits readerWaits where
  writer := wakes.writer
  reader _ := Or.inl rfl

theorem take (wakes : channel.Wakes writerWaits false) {count : Nat} {report : Bool}
    (reports : channel.Reports count report) :
    (channel.take count report).Wakes writerWaits false where
  writer waits := by
    cases report with
    | true => exact Or.inl (Bool.or_true _)
    | false =>
        rcases wakes.writer waits with edge | ⟨refused, _⟩
        · exact Or.inl ((Bool.or_false _).trans edge)
        · refine Or.inr ⟨(Bool.and_true _).trans refused, fun nothing => ?_⟩
          exact absurd (reports refused nothing) Bool.false_ne_true
  reader waits := absurd waits Bool.false_ne_true

/-- The reader may wait if there is nothing to be seen. -/
theorem refuseReader (wakes : channel.Wakes writerWaits false) (nothing : channel.items = [])
    (running : channel.ended = false) : channel.Wakes writerWaits true where
  writer := wakes.writer
  reader _ := Or.inr ⟨nothing, running⟩

theorem wakeWriter (wakes : channel.Wakes writerWaits readerWaits) :
    channel.wakeWriter.Wakes false readerWaits where
  writer waits := absurd waits Bool.false_ne_true
  reader := wakes.reader

theorem wakeReader (wakes : channel.Wakes writerWaits readerWaits) :
    channel.wakeReader.Wakes writerWaits false where
  writer := wakes.writer
  reader waits := absurd waits Bool.false_ne_true

/-- Where both wait, one of them will be woken. -/
theorem not_both_asleep (wakes : channel.Wakes true true) :
    channel.writeEdge = true ∨ channel.readEdge = true := by
  rcases wakes.writer rfl with edge | ⟨_, some⟩
  · exact Or.inl edge
  · rcases wakes.reader rfl with edge | ⟨nothing, _⟩
    · exact Or.inr edge
    · exact absurd nothing some

end Wakes

end EdgeChannel

end Ffos.Lib
