/-
Module: Ffos.Process.CommandLine
Purpose: `_ffargv_to_cmdln` of FFOS/process.h on Windows over a buffer of wide
  characters, and the rules by which the C runtime splits a command line.
Trusted boundary: `ffsz_utow` of ffbase and ffmem_alloc are inputs; the splitting rules
  are those of the Microsoft C runtime
Main exports: Arg, ffargvToCmdln, splitCmdline, Survives
-/
import Ffos.Lib.OutputBuffer
import Ffos.Lib.Unicode

namespace Ffos.Process

open Ffos.Lib

/-! ### Arguments -/

/-- An argument: a text without NUL. In memory it is its UTF-8 bytes. -/
structure Arg where
  text : List Char
  noNul : '\x00' ∉ text
deriving DecidableEq

def quote : Wchar := 0x22
def space : Wchar := 0x20
def tab : Wchar := 0x09
def backslash : Wchar := 0x5c

/-! ### The encoder -/

/-- `ffsz_utow`: from the capacity in wide characters, or none for NULL, and the source
to the value returned and the characters written. -/
abbrev FfszUtow := Option Nat → List Byte → Int × List Wchar

/-- What ffbase says of it for a text: the number returned includes the NUL, and a
buffer gets the text and the NUL if it holds that many. -/
structure Converts (ffszUtow : FfszUtow) (text : List Char) : Prop where
  measures : (ffszUtow none (utf8 text)).1 = (utf16 text).length + 1
  fits : ∀ cap, (utf16 text).length + 1 ≤ cap →
    ffszUtow (some cap) (utf8 text) = (((utf16 text).length : Int) + 1, utf16 text ++ [0])

/-- The first loop: the capacity, or none where a conversion fails. -/
def measureArgs (ffszUtow : FfszUtow) : List (List Byte) → Nat → Option Nat
  | [], cap => some cap
  | arg :: rest, cap =>
      let r := (ffszUtow none arg).1
      if r ≤ 0 then none else measureArgs ffszUtow rest (cap + r.toNat + 3)

/-- The body of the second loop for an argument without double quotes: the buffer and
`k` after it, or none for a store outside of the buffer. A negative `k` would wrap to an
index outside of it. -/
def storeArg (ffszUtow : FfszUtow) (cap : Nat) (arg : List Byte) (args : List Wchar) (k : Nat) :
    Option (List Wchar × Nat) := do
  let hasSpace : Bool := (0x20 : Byte) ∈ arg
  let (args, k) ← if hasSpace then (store args k quote).map (·, k + 1) else some (args, k)
  let (r, written) := ffszUtow (some (cap - k)) arg
  let args ← storeAll args k written
  let k : Int := k + r - 1
  if k < 0 then none
  else do
    let k := k.toNat
    let (args, k) ← if hasSpace then (store args k quote).map (·, k + 1) else some (args, k)
    let args ← store args k space
    return (args, k + 1)

/-- The second loop. `some none` is the return of NULL at a double quote. -/
def storeArgs (ffszUtow : FfszUtow) (cap : Nat) :
    List (List Byte) → List Wchar → Nat → Option (Option (List Wchar × Nat))
  | [], args, k => some (some (args, k))
  | arg :: rest, args, k =>
      if (0x22 : Byte) ∈ arg then some none
      else
        match storeArg ffszUtow cap arg args k with
        | none => none
        | some (args, k) => storeArgs ffszUtow cap rest args k

/-- `_ffargv_to_cmdln`: the buffer returned, or `some none` for NULL; none is a store
outside of the buffer. `alloc` gives a buffer of that many characters, with any
contents. -/
def ffargvToCmdln (ffszUtow : FfszUtow) (alloc : Nat → Option (List Wchar))
    (argv : List (List Byte)) : Option (Option (List Wchar)) :=
  match measureArgs ffszUtow argv 1 with
  | none => some none
  | some cap =>
      match alloc (cap + 1) with
      | none => some none
      | some args =>
          match storeArgs ffszUtow cap argv args 0 with
          | none => none
          | some none => some none
          | some (some (args, k)) =>
              let k := if k ≠ 0 then k - 1 else k  -- trim ' '
              (store args k 0).map some

/-- The string that a buffer holds. -/
def cStringOf (args : List Wchar) : List Wchar := args.takeWhile (· ≠ 0)

/-! ### The decoder -/

/-- The rules of the C runtime. `current` is the argument that has begun, without the
`pending` backslashes at its end. -/
def splitFrom (current : Option (List Wchar)) (quoted : Bool) (pending : Nat) :
    List Wchar → List (List Wchar)
  | [] => (current.map fun arg => arg ++ List.replicate pending backslash).toList
  | c :: rest =>
      let arg := current.getD []
      if c = backslash then splitFrom (some arg) quoted (pending + 1) rest
      else if c = quote then
        let arg := arg ++ List.replicate (pending / 2) backslash
        if pending % 2 = 1 then splitFrom (some (arg ++ [quote])) quoted 0 rest
        else splitFrom (some arg) (!quoted) 0 rest
      else if (c = space ∨ c = tab) ∧ quoted = false then
        (current.map fun arg => arg ++ List.replicate pending backslash).toList ++
          splitFrom none false 0 rest
      else splitFrom (some (arg ++ List.replicate pending backslash ++ [c])) quoted 0 rest

/-- The arguments of a command line. -/
def splitCmdline (cmdln : List Wchar) : List (List Wchar) := splitFrom none false 0 cmdln

/-- An argument comes through: it is not empty, it has a space (so that it is quoted) or
no tab, and if it is quoted it does not end in a backslash. -/
structure Survives (arg : Arg) : Prop where
  nonempty : arg.text ≠ []
  tabs : '\t' ∈ arg.text → ' ' ∈ arg.text
  quoted : ' ' ∈ arg.text → arg.text.getLast? ≠ some '\\'

end Ffos.Process
