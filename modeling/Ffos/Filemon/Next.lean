/-
Module: Ffos.Filemon.Next
Purpose: `fffilemon_next` of FFOS/filemon.h on Linux: the events of one read are reported one
  by one, and the descriptor that is returned also says that there are no more.
Trusted boundary: `ffstr_rskipchar` of ffbase, taken as the parameter `Ffstr`; a little-endian
  machine
Main exports: Ffstr, fffilemonNext, Reports, InotifyEvent, fffilemonNext_encode,
  fffilemonNext_reports_iff
-/
import Ffos.Lib.ByteMemory
import Mathlib.Data.List.DropRight

namespace Ffos.Filemon

open Ffos.Lib

/-! ### The code -/

/-- What filemon.h uses of the strings of ffbase: `ffstr_rskipchar` drops the characters at the
end. -/
structure Ffstr where
  rskipchar : List Byte → Byte → List Byte
  rskipchar_tail : ∀ (s : List Byte) (c : Byte) (n : Nat), c ∉ s.getLast? →
    rskipchar (s ++ List.replicate n c) c = s

/-- The assumption on the strings of ffbase is met by scanning from the end. -/
def Ffstr.scanning : Ffstr where
  rskipchar s c := s.rdropWhile (· == c)
  rskipchar_tail s c n other := by
    induction n with
    | zero =>
        rw [List.replicate_zero, List.append_nil, List.rdropWhile_eq_self_iff]
        intro nonempty last
        rw [beq_iff_eq] at last
        exact other (last ▸ List.getLast_mem_getLast? nonempty)
    | succ n inductionHypothesis =>
        rw [List.replicate_succ', ← List.append_assoc, List.rdropWhile_concat_pos _ _ _ (by simp)]
        exact inductionHypothesis

/-- `sizeof(struct inotify_event)` -/
def eventSize : Nat := 16

/-- `fffilemon_next`: the result, and `input`, `name` and `events` after the call. `sizeBits` is
the width of `ffsize`. None is a read outside of the input. -/
def fffilemonNext (str : Ffstr) (sizeBits : Nat) (input name : List Byte) (events : BitVec 32) :
    Option (Int × List Byte × List Byte × BitVec 32) :=
  if eventSize > input.length then some (-1, input, name, events)
  else do
    let len ← readLe input 12 4
    let n := (eventSize + len) % 2 ^ sizeBits
    if n > input.length then some (-1, input, name, events)
    else do
      let mask ← readLe input 4 4
      let wd ← readLe input 0 4
      let rest := input.drop n
      if len > 0 then do
        let text ← readBytes input eventSize (len - 1)
        some ((BitVec.ofNat 32 wd).toInt, rest, str.rskipchar text 0, .ofNat 32 mask)
      else some ((BitVec.ofNat 32 wd).toInt, rest, [], .ofNat 32 mask)

/-- What a call reports: the descriptor, the name and the mask. -/
abbrev Report := Int × List Byte × BitVec 32

/-- Calls until one returns -1 give these reports, and then this is left of the input. -/
inductive Reports (str : Ffstr) (sizeBits : Nat) : List Byte → List Report → List Byte → Prop where
  | stop {input rest oldName name : List Byte} {oldEvents events : BitVec 32}
      (call : fffilemonNext str sizeBits input oldName oldEvents = some (-1, rest, name, events)) :
      Reports str sizeBits input [] rest
  | event {input rest left oldName name : List Byte} {oldEvents events : BitVec 32} {wd : Int}
      {reports : List Report}
      (call : fffilemonNext str sizeBits input oldName oldEvents = some (wd, rest, name, events))
      (found : wd ≠ -1) (later : Reports str sizeBits rest reports left) :
      Reports str sizeBits input ((wd, name, events) :: reports) left

/-! ### What the kernel delivers -/

/-- `IN_Q_OVERFLOW` -/
def qOverflow : BitVec 32 := 0x4000

/-- An event as the kernel delivers it: it belongs to a watch, or it says that the queue has
overflowed; a name is followed by at least one NUL. -/
structure InotifyEvent where
  wd : BitVec 32
  mask : BitVec 32
  cookie : BitVec 32
  name : List Byte
  padding : Nat
  origin : 1 ≤ wd.toInt ∨ wd.toInt = -1 ∧ mask = qOverflow
  nulFree : 0 ∉ name
  terminated : name = [] ∨ 0 < padding
  fits : name.length + padding < 2 ^ 32

/-- The event says that the queue has overflowed. -/
def InotifyEvent.Overflow (event : InotifyEvent) : Prop := event.wd.toInt = -1

/-- `len` of an event. -/
def InotifyEvent.len (event : InotifyEvent) : Nat := event.name.length + event.padding

/-- The bytes of an event. -/
def InotifyEvent.encode (event : InotifyEvent) : List Byte :=
  leBytes 4 event.wd.toNat ++ leBytes 4 event.mask.toNat ++ leBytes 4 event.cookie.toNat ++
    leBytes 4 event.len ++ (event.name ++ List.replicate event.padding 0)

/-- What has to be reported of an event. -/
def InotifyEvent.report (event : InotifyEvent) : Report := (event.wd.toInt, event.name, event.mask)

/-! ### One call -/

section Call

variable (event : InotifyEvent) (rest : List Byte)

theorem length_encode : event.encode.length = eventSize + event.len := by
  simp only [InotifyEvent.encode, InotifyEvent.len, eventSize, List.length_append, length_leBytes,
    List.length_replicate]

theorem readLe_wd : readLe (event.encode ++ rest) 0 4 = some event.wd.toNat := by
  have read := readLe_middle [] (leBytes 4 event.mask.toNat ++ leBytes 4 event.cookie.toNat ++
    leBytes 4 event.len ++ (event.name ++ List.replicate event.padding 0) ++ rest)
    (show event.wd.toNat < 256 ^ 4 from event.wd.isLt)
  rw [List.length_nil] at read
  simpa only [InotifyEvent.encode, List.append_assoc, List.nil_append] using read

theorem readLe_mask : readLe (event.encode ++ rest) 4 4 = some event.mask.toNat := by
  have read := readLe_middle (leBytes 4 event.wd.toNat) (leBytes 4 event.cookie.toNat ++
    leBytes 4 event.len ++ (event.name ++ List.replicate event.padding 0) ++ rest)
    (show event.mask.toNat < 256 ^ 4 from event.mask.isLt)
  rw [length_leBytes] at read
  simpa only [InotifyEvent.encode, List.append_assoc] using read

theorem readLe_len : readLe (event.encode ++ rest) 12 4 = some event.len := by
  have read := readLe_middle (leBytes 4 event.wd.toNat ++ leBytes 4 event.mask.toNat ++
    leBytes 4 event.cookie.toNat) ((event.name ++ List.replicate event.padding 0) ++ rest)
    (show event.len < 256 ^ 4 from event.fits)
  simp only [List.length_append, length_leBytes] at read
  simpa only [InotifyEvent.encode, List.append_assoc] using read

/-- The name without its last NUL. -/
theorem readBytes_name (padded : 0 < event.padding) :
    readBytes (event.encode ++ rest) eventSize (event.len - 1) =
      some (event.name ++ List.replicate (event.padding - 1) 0) := by
  have read := readBytes_middle (leBytes 4 event.wd.toNat ++ leBytes 4 event.mask.toNat ++
    leBytes 4 event.cookie.toNat ++ leBytes 4 event.len)
    (event.name ++ List.replicate (event.padding - 1) 0) ([0] ++ rest)
  have size : (event.name ++ List.replicate (event.padding - 1) (0 : Byte)).length =
      event.len - 1 := by
    rw [List.length_append, List.length_replicate, InotifyEvent.len]
    omega
  have nuls : List.replicate event.padding (0 : Byte) =
      List.replicate (event.padding - 1) 0 ++ [0] := by
    rw [← List.replicate_succ', Nat.sub_add_cancel padded]
  rw [size] at read
  simp only [List.length_append, length_leBytes] at read
  simpa only [InotifyEvent.encode, eventSize, nuls, List.append_assoc] using read

/-- A call on the bytes of an event returns its descriptor, its name and its mask, and goes
behind it. -/
theorem fffilemonNext_encode (str : Ffstr) {sizeBits : Nat}
    (fits : (event.encode ++ rest).length < 2 ^ sizeBits) (name : List Byte)
    (events : BitVec 32) :
    fffilemonNext str sizeBits (event.encode ++ rest) name events =
      some (event.wd.toInt, rest, event.name, event.mask) := by
  have size := length_encode event
  have whole : (event.encode ++ rest).length = eventSize + event.len + rest.length := by
    rw [List.length_append, size]
  have noWrap : (eventSize + event.len) % 2 ^ sizeBits = event.encode.length := by
    rw [size]
    exact Nat.mod_eq_of_lt (by omega)
  have header : ¬ eventSize > (event.encode ++ rest).length := by omega
  have inside : ¬ event.encode.length > (event.encode ++ rest).length := by omega
  have noNul : ∀ c ∈ event.name.getLast?, c ≠ 0 := by
    rintro c last rfl
    exact event.nulFree (List.mem_of_getLast? last)
  rw [fffilemonNext, if_neg header, readLe_len]
  simp only [Option.bind_eq_bind, Option.bind_some, noWrap, if_neg inside, readLe_mask, readLe_wd,
    List.drop_left, BitVec.ofNat_toNat, BitVec.setWidth_eq]
  split
  next positive =>
    have padded : 0 < event.padding := by
      rcases event.terminated with empty | padded
      · rw [InotifyEvent.len, empty, List.length_nil, Nat.zero_add] at positive
        exact positive
      · exact padded
    rw [readBytes_name event rest padded, Option.bind_some,
      str.rskipchar_tail _ _ _ fun last => noNul 0 last rfl]
  next zero =>
    have empty : event.name = [] := by
      apply List.length_eq_zero_iff.mp
      rw [InotifyEvent.len] at zero
      omega
    rw [empty]

end Call

/-! ### All calls -/

theorem fffilemonNext_empty (str : Ffstr) (sizeBits : Nat) (name : List Byte)
    (events : BitVec 32) : fffilemonNext str sizeBits [] name events = some (-1, [], name, events) :=
  if_pos (by decide)

/-- Calls on the bytes of events report all of them and use the input up if and only if none of
them says that the queue has overflowed: its descriptor is taken for the end. -/
theorem fffilemonNext_reports_iff (str : Ffstr) (sizeBits : Nat) (events : List InotifyEvent)
    (fits : (events.flatMap InotifyEvent.encode).length < 2 ^ sizeBits) :
    Reports str sizeBits (events.flatMap InotifyEvent.encode) (events.map InotifyEvent.report) [] ↔
      ∀ event ∈ events, ¬ event.Overflow := by
  induction events with
  | nil =>
      refine iff_of_true ?_ (List.forall_mem_nil _)
      exact Reports.stop (fffilemonNext_empty str sizeBits [] 0)
  | cons event events inductionHypothesis =>
      rw [List.flatMap_cons] at fits ⊢
      have next := fffilemonNext_encode event (events.flatMap InotifyEvent.encode) str fits
      have later := inductionHypothesis (by rw [List.length_append] at fits; omega)
      rw [List.forall_mem_cons, ← later]
      constructor
      · intro reports
        cases reports with
        | event call found rest =>
            rw [next] at call
            cases call
            exact ⟨found, rest⟩
      · rintro ⟨watched, rest⟩
        exact Reports.event (next [] 0) watched rest

/-- A file was closed: descriptor 1, `IN_CLOSE_WRITE`, name "a" with padding. -/
def closeWrite : InotifyEvent where
  wd := 1
  mask := 0x8
  cookie := 0
  name := [0x61]
  padding := 15
  origin := by decide
  nulFree := by decide
  terminated := by decide
  fits := by decide

/-- The queue has overflowed. -/
def queueOverflow : InotifyEvent where
  wd := -1
  mask := qOverflow
  cookie := 0
  name := []
  padding := 0
  origin := by decide
  nulFree := by decide
  terminated := by decide
  fits := by decide

theorem fffilemonNext_reports_iff_closed :
    ([closeWrite, closeWrite].flatMap InotifyEvent.encode).length < 2 ^ 64 ∧
      (Reports Ffstr.scanning 64 ([closeWrite, closeWrite].flatMap InotifyEvent.encode)
          ([closeWrite, closeWrite].map InotifyEvent.report) [] ↔
        ∀ event ∈ [closeWrite, closeWrite], ¬ event.Overflow) :=
  ⟨by decide, fffilemonNext_reports_iff Ffstr.scanning 64 [closeWrite, closeWrite] (by decide)⟩

/-- The calls stop at the overflow: it is not reported, and neither is the event behind it. -/
theorem fffilemonNext_stops_at_overflow :
    Reports Ffstr.scanning 64 ([closeWrite, queueOverflow, closeWrite].flatMap InotifyEvent.encode)
        [closeWrite.report] closeWrite.encode ∧
      ¬ Reports Ffstr.scanning 64
        ([closeWrite, queueOverflow, closeWrite].flatMap InotifyEvent.encode)
        ([closeWrite, queueOverflow, closeWrite].map InotifyEvent.report) [] := by
  have first := fffilemonNext_encode closeWrite (queueOverflow.encode ++ closeWrite.encode)
    Ffstr.scanning (show _ < 2 ^ 64 by decide)
  have second := fffilemonNext_encode queueOverflow closeWrite.encode
    Ffstr.scanning (show _ < 2 ^ 64 by decide)
  rw [List.flatMap_cons, List.flatMap_cons, List.flatMap_cons, List.flatMap_nil, List.append_nil]
  constructor
  · exact Reports.event (first [] 0) (by decide) (Reports.stop (second [] 0))
  · intro reports
    cases reports with
    | event call _ later =>
        rw [first] at call
        cases call
        cases later with
        | event call found _ =>
            rw [second] at call
            cases call
            exact found (by decide)

end Ffos.Filemon
