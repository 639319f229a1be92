/-
Module: Ffos.Path.Model
Purpose: `ffpath_normalize` of FFOS/path.h over a buffer of bytes, with the defaults of
  both platforms, and the Windows body of `ffpath_abs`.
Trusted boundary: `ffstr_splitbyany` and `ffs_rfindany` of ffbase, taken as the parameter
  `Ffstr`; the source does not lie in the buffer
Main exports: Ffstr, Settings, settings, ffpathAbs, parent, normalizeIteration,
  normalizeLoop, ffpathNormalize
-/
import Ffos.Lib.ByteMemory
import Ffos.Lib.OutputBuffer
import Ffos.Lib.Separated

namespace Ffos.Path

open Ffos.Lib

def slash : Byte := 0x2f
def backslash : Byte := 0x5c
def colon : Byte := 0x3a

/-- `"."` -/
def dot : List Byte := [0x2e]

/-- `".."` -/
def dotdot : List Byte := [0x2e, 0x2e]

/-! ### ffbase -/

/-- What path.h uses of the strings of ffbase. `ffstr_splitbyany` gives what stands before
the first of the characters, what stands behind it, and its position; `ffs_rfindany` gives
the position of the last one. None is a negative position. -/
structure Ffstr where
  splitbyany : List Byte → List Byte → List Byte × List Byte × Option Nat
  rfindany : List Byte → List Byte → Option Nat
  splitbyany_found : ∀ first c second anyof, Clean anyof first → c ∈ anyof →
    splitbyany (first ++ c :: second) anyof = (first, second, some first.length)
  splitbyany_none : ∀ s anyof, Clean anyof s → splitbyany s anyof = (s, [], none)
  rfindany_found : ∀ before c after anyof, c ∈ anyof → Clean anyof after →
    rfindany (before ++ c :: after) anyof = some before.length
  rfindany_none : ∀ s anyof, Clean anyof s → rfindany s anyof = none

/-- The assumptions on the strings of ffbase are met by scanning from either end. -/
def Ffstr.scanning : Ffstr where
  splitbyany s anyof :=
    match s.dropWhile (· ∉ anyof) with
    | [] => (s.takeWhile (· ∉ anyof), [], none)
    | _ :: second =>
        (s.takeWhile (· ∉ anyof), second, some (s.takeWhile (· ∉ anyof)).length)
  rfindany s anyof :=
    match s.reverse.dropWhile (· ∉ anyof) with
    | [] => none
    | _ :: before => some before.length
  splitbyany_found first c second anyof clean member := by
    obtain ⟨taken, dropped⟩ := takeWhile_clean clean (c :: second)
    rw [dropped, taken, (takeWhile_separator member second).1,
      (takeWhile_separator member second).2, List.append_nil]
  splitbyany_none s anyof clean := by
    obtain ⟨taken, dropped⟩ := takeWhile_clean clean []
    rw [List.append_nil] at taken dropped
    rw [dropped, taken, List.takeWhile_nil, List.append_nil]
    rfl
  rfindany_found before c after anyof member clean := by
    have cleanBack : Clean anyof after.reverse := fun d inAfter =>
      clean d (List.mem_reverse.mp inAfter)
    rw [List.reverse_append, List.reverse_cons, List.append_assoc,
      (takeWhile_clean cleanBack _).2, List.singleton_append,
      (takeWhile_separator member before.reverse).2]
    exact congrArg some List.length_reverse
  rfindany_none s anyof clean := by
    have cleanBack : Clean anyof s.reverse := fun d member => clean d (List.mem_reverse.mp member)
    have dropped := (takeWhile_clean cleanBack []).2
    rw [List.append_nil] at dropped
    rw [dropped]
    rfl

/-- What is left is shorter. -/
theorem Ffstr.rest_lt (str : Ffstr) {s anyof : List Byte} (nonempty : s ≠ []) :
    (str.splitbyany s anyof).2.1.length < s.length := by
  by_cases clean : Clean anyof s
  · rw [str.splitbyany_none s anyof clean]
    exact List.length_pos_of_ne_nil nonempty
  · obtain ⟨first, c, second, rfl, cleanFirst, member⟩ := exists_first_separator anyof clean
    rw [str.splitbyany_found first c second anyof cleanFirst member]
    simp only [List.length_append, List.length_cons]
    omega

/-! ### Flags -/

/-- `enum FFPATH_NORM`. -/
abbrev Flags := BitVec 32

def slashOnly : Flags := 0x1
def slashBackslash : Flags := 0x2
def forceSlash : Flags := 0x4
def forceBackslash : Flags := 0x8
def simplePath : Flags := 0x10
def diskLetter : Flags := 0x20
def noDiskLetter : Flags := 0x40

/-- What `ffpath_normalize` takes from its flags: the splitting set, FFPATH_SIMPLE,
FFPATH_DISK_LETTER and the separator that is forced. -/
structure Settings where
  slashes : List Byte
  simple : Bool
  disk : Bool
  forced : Option Byte
deriving DecidableEq

/-- The beginning of `ffpath_normalize`, with the defaults of Windows if `win` holds. -/
def settings (win : Bool) (flags : Flags) : Settings :=
  let slashes := if flags &&& slashBackslash ≠ 0 then [slash, backslash] else [slash]
  let slashes :=
    if win ∧ flags &&& (slashBackslash ||| slashOnly) = 0 then [slash, backslash] else slashes
  let flags :=
    if win ∧ flags &&& (diskLetter ||| noDiskLetter) = 0 then flags ||| diskLetter else flags
  { slashes := slashes
    simple := flags &&& simplePath ≠ 0
    disk := flags &&& diskLetter ≠ 0
    forced :=
      if flags &&& forceSlash ≠ 0 then some slash
      else if flags &&& forceBackslash ≠ 0 then some backslash
      else none }

/-- A separator that is forced belongs to the splitting set. -/
def Settings.ForcedInSet (config : Settings) : Prop := ∀ c ∈ config.forced, c ∈ config.slashes

instance (config : Settings) : Decidable config.ForcedInSet :=
  inferInstanceAs (Decidable (∀ c ∈ config.forced, c ∈ config.slashes))

/-! ### Absolute paths -/

/-- `ffpath_abs` on Windows; `char` is signed. -/
def ffpathAbs (path : List Byte) : Bool :=
  match path with
  | [] => false
  | first :: _ =>
      if first = slash ∨ first = backslash then true
      else
        let ch : Int := (first ||| 0x20).toInt
        decide (2 ≤ path.length ∧ 0x61 ≤ ch ∧ ch ≤ 0x7a ∧ path[1]? = some colon ∧
          (path.length = 2 ∨ path[2]? = some slash ∨ path[2]? = some backslash))

/-! ### Normalization -/

/-- The two variables of the loop besides the buffer and the source. -/
structure Mode where
  simplify : Bool
  skipDisk : Bool
deriving DecidableEq

/-- The first checks of the loop body: whether the component goes on. None is a read of
the last character of an empty component. -/
def admits (mode : Mode) (part : List Byte) : Option (Bool × Mode) :=
  if mode.simplify then
    if part = [] ∨ part = dot then some (false, mode)  -- merge slashes, skip dots
    else if mode.skipDisk then
      part.getLast?.map fun last => (last ≠ colon, { mode with skipDisk := false })
    else some (true, mode)
  else some (true, { mode with simplify := true })

/-- Where a `".."` leaves the output: it is appended there, or it is done with. -/
inductive Parent (Place : Type) where
  | append (place : Place)
  | skip (place : Place)
deriving DecidableEq

/-- The branch for `".."`: the new `k`. None is an access outside of the buffer or a length
below zero. -/
def parent (str : Ffstr) (config : Settings) (dst : List Byte) (k : Nat) : Option (Parent Nat) :=
  if k ≠ 0 then do
    let written ← slice dst 0 (k - 1)
    match str.rfindany written config.slashes with
    | none =>
        let prev := written
        if prev = dot then some (.append 0)
        else if prev = dotdot then some (.append k)
        else if k = 1 then some (.skip k)
        else if config.disk then
          prev.getLast?.map fun last => if last = colon then .skip k else .skip 0
        else some (.skip 0)
    | some slash => do
        let slash := slash + 1
        let prev ← slice dst slash (k - 1)
        if prev = dotdot then some (.append k) else some (.skip slash)
  else if config.simple then some (.skip k)
  else some (.append k)

/-- The end of the loop body: the component and its separator go to `dst[k]`. `some none`
is the return of -1. -/
def appendPart (config : Settings) (dst : List Byte) (k : Nat) (part : List Byte)
    (close : Option Byte) : Option (Option (List Byte × Nat)) :=
  if k + part.length + (if close.isSome then 1 else 0) > dst.length then some none
  else do
    let dst ← storeAll dst k part
    let k := k + part.length
    match close with
    | none => some (some (dst, k))
    | some c => (store dst k (config.forced.getD c)).map fun dst => some (dst, k + 1)

/-- The variables of the loop besides the source: `dst`, `k` and the mode. -/
structure State where
  dst : List Byte
  k : Nat
  mode : Mode
deriving DecidableEq

/-- Where the component goes. -/
def place (str : Ffstr) (config : Settings) (dst : List Byte) (k : Nat) (part : List Byte) :
    Option (Parent Nat) :=
  if part = dotdot then parent str config dst k else some (.append k)

/-- The loop body for a component and the separator behind it. -/
def normalizeIteration (str : Ffstr) (config : Settings) (state : State) (part : List Byte)
    (close : Option Byte) : Option (Option State) := do
  let (admitted, mode) ← admits state.mode part
  if admitted then
    match ← place str config state.dst state.k part with
    | .skip k => some (some ⟨state.dst, k, mode⟩)
    | .append k =>
        (appendPart config state.dst k part close).map fun result =>
          result.map fun (dst, k) => ⟨dst, k, mode⟩
  else some (some { state with mode := mode })

/-- The loop over the source `s`. The separator is read at the position found; with a
position behind the end that is a read outside of the source. -/
def normalizeLoop (str : Ffstr) (config : Settings) (s : List Byte) (state : State) :
    Option (Option State) :=
  if s = [] then some (some state)
  else
    let split := str.splitbyany s config.slashes
    let close : Option (Option Byte) :=
      match split.2.2 with
      | none => some none
      | some pos => s[pos]?.map some
    match close.bind (normalizeIteration str config state split.1) with
    | none => none
    | some none => some none
    | some (some state) => normalizeLoop str config split.2.1 state
termination_by s.length
decreasing_by exact str.rest_lt ‹_›

/-- `ffpath_normalize` with a buffer of `cap` bytes: the buffer afterwards and the number
of bytes written, or `some none` for -1. None is an access out of range. -/
def ffpathNormalize (str : Ffstr) (win : Bool) (dst src : List Byte) (flags : Flags) :
    Option (Option (List Byte × Nat)) :=
  let config := settings win flags
  (normalizeLoop str config src ⟨dst, 0, config.simple, config.disk && config.simple⟩).map
    fun result => result.map fun state => (state.dst, state.k)

/-- The call succeeds and its output is `out`. -/
def Outputs (str : Ffstr) (win : Bool) (dst src : List Byte) (flags : Flags)
    (out : List Byte) : Prop :=
  ∃ after, ffpathNormalize str win dst src flags = some (some (after, out.length)) ∧
    Filled after out.length out

end Ffos.Path
