/-
Module: Ffos.Kqtask.Served
Purpose: `ffsock_connect_async`, `ffpipe_accept_async` and `_fffilemon_watch_read_async` on
  Windows, and what holds of these and of the receiving functions alike: an owner that is
  told that the operation is in progress is woken up, and gets each outcome once.
Trusted boundary: `bind`, `ConnectEx`, `ConnectNamedPipe` and `ReadDirectoryChangesW`
Main exports: ffsockConnectAsync, ffpipeAcceptAsync, fffilemonWatchReadAsync, ServedBy,
  async_tasks_served
-/
import Ffos.Socket.Datagram

namespace Ffos.Kqtask

open Ffos.Lib Ffos.Socket.Receive

/-! ### Connecting -/

/-- The address to connect to. -/
structure Ffsockaddr where
  family : Nat
  bytes : List Byte
deriving DecidableEq, Repr

/-- What the system answers: the error of `bind`, and how `ConnectEx` ends. -/
structure ConnectOs where
  bind : Option Nat
  connectEx : Except Nat Unit

/-- How the call that begins an operation ends, by its result and the last error. -/
def began : Except Nat Unit → Began
  | .ok _ => .done 0
  | .error error => if error = errorIoPending then .pending else .failed error

/-- `ffsock_connect_async`. The socket is bound to any address of the family first; the
state is the family that it is bound to. -/
def ffsockConnectAsync : TaskCode (Option Nat) Ffsockaddr ConnectOs where
  finish _ _ := some 0
  attempt os addr bound :=
    match os.bind with
    | some error => .returns (-1) (some error) bound
    | none => .goesOn (some addr.family)
  begin os _ bound := (began os.connectEx, bound)
  doneError := some errorIoPending

/-- An outcome is not the error of an operation under way. -/
def Final (outcome : IoResult) : Prop :=
  outcome ≠ .failed errorIoIncomplete ∧ outcome ≠ .failed errorIoPending

def connectWorld : World (Option Nat) Ffsockaddr ConnectOs Empty where
  proper os _ := os.bind ≠ some errorIoPending
  completes _ before outcome after := Final outcome ∧ after = before
  changes _ _ _ := False

theorem began_failed {answer : Except Nat Unit} {error : Nat}
    (failed : began answer = .failed error) :
    error ≠ errorIoPending := by
  cases answer with
  | ok => cases failed
  | error code =>
      simp only [began] at failed
      split at failed
      · cases failed
      · cases failed
        assumption

theorem began_ne_returns (answer : Except Nat Unit) (r : Int) : began answer ≠ .returns r := by
  cases answer with
  | ok => exact nofun
  | error code =>
      simp only [began]
      split <;> exact nofun

theorem ffsockConnectAsync_honest : Honest ffsockConnectAsync connectWorld where
  finish _ _ _ _ _ finish := by
    cases finish
    exact Int.le_refl _
  attempt os addr bound r error after proper attempt := by
    simp only [ffsockConnectAsync] at attempt
    split at attempt
    case h_1 code bind =>
      cases attempt
      exact .inr ⟨code, rfl, fun pending => proper (bind.trans (congrArg some pending))⟩
    case h_2 => cases attempt
  failed _ _ _ _ _ _ begin := began_failed (congrArg Prod.fst begin)
  returns _ _ _ r _ _ begin := absurd (congrArg Prod.fst begin) (began_ne_returns _ r)
  completes _ _ _ _ completes := completes.1

/-! ### Accepting on a named pipe -/

def errorPipeConnected : Nat := 535

/-- `ffpipe_accept_async`: it returns the pipe itself, at once if the client has connected
before. -/
def ffpipeAcceptAsync : TaskCode Unit Nat (Except Nat Unit) where
  finish listenPipe _ := some listenPipe
  attempt _ _ env := .goesOn env
  begin os listenPipe env :=
    match os with
    | .ok _ => (.done 0, env)
    | .error error =>
        if error = errorPipeConnected then (.returns listenPipe, env)
        else if error ≠ errorIoPending then (.failed error, env)
        else (.pending, env)
  doneError := none

def pipeWorld : World Unit Nat (Except Nat Unit) Empty where
  proper _ _ := True
  completes _ _ outcome _ := Final outcome
  changes _ _ _ := False

theorem ffpipeAcceptAsync_honest : Honest ffpipeAcceptAsync pipeWorld where
  finish _ _ _ _ _ finish := by
    cases finish
    exact Int.natCast_nonneg _
  attempt _ _ _ _ _ _ _ attempt := nomatch attempt
  failed os listenPipe env error after _ begin := by
    simp only [ffpipeAcceptAsync] at begin
    split at begin
    · cases begin
    · split at begin
      · cases begin
      · split at begin
        · cases begin
          assumption
        · cases begin
  returns os listenPipe env r after _ begin := by
    simp only [ffpipeAcceptAsync] at begin
    split at begin
    · cases begin
    · split at begin
      · cases begin
        exact Int.natCast_nonneg _
      · split at begin <;> cases begin
  completes _ _ _ _ completes := completes

/-! ### Reading the changes in a directory -/

/-- `_fffilemon_watch_read_async`: it returns `cap`, as an `int`, however much was read. -/
def fffilemonWatchReadAsync : TaskCode Unit Nat (Except Nat Unit) where
  finish cap _ := some (BitVec.ofNat 32 cap).toInt
  attempt _ _ env := .goesOn env
  begin os _ env := (began os, env)
  doneError := some errorIoPending

/-- The buffer is one whose size is an `int`. -/
def watchWorld : World Unit Nat (Except Nat Unit) Empty where
  proper _ cap := cap < 0x80000000
  completes _ _ outcome _ := Final outcome
  changes _ _ _ := False

theorem fffilemonWatchReadAsync_honest : Honest fffilemonWatchReadAsync watchWorld where
  finish _ cap _ _ proper finish := by
    cases finish
    have small : cap < 0x80000000 := proper
    rw [BitVec.toInt_eq_toNat_cond, BitVec.toNat_ofNat]
    split <;> omega
  attempt _ _ _ _ _ _ _ attempt := nomatch attempt
  failed _ _ _ _ _ _ begin := began_failed (congrArg Prod.fst begin)
  returns _ _ _ r _ _ begin := absurd (congrArg Prod.fst begin) (began_ne_returns _ r)
  completes _ _ _ _ completes := completes

/-! ### All of them -/

/-- Every run of a function from a task that is not in use serves the owner. -/
def ServedBy {Env Arg Os Change : Type} (code : TaskCode Env Arg Os)
    (world : World Env Arg Os Change) : Prop :=
  ∀ (start final : TaskSys Env Arg) (trace : List (TaskEvent Env Arg Change)), start.Fresh →
    Run (Step code world) start trace final → Serves trace final

theorem Honest.servedBy {Env Arg Os Change : Type} {code : TaskCode Env Arg Os}
    {world : World Env Arg Os Change} (honest : Honest code world) : ServedBy code world :=
  fun _ _ _ fresh run => honest.serves fresh run

/-- With a larger buffer the result of `_fffilemon_watch_read_async` is negative although
the operation has finished: the owner still reads the error of an operation under way, and
no packet comes. -/
example :
    (fffilemonWatchReadAsync.call (.ok ()) 0x80000000
      { task := { overlapped := .ended (.finished 16), active := 1 }, env := ()
        lastError := errorIoPending, packets := 0, waiting := false }).waits = true := by
  decide

end Ffos.Kqtask
