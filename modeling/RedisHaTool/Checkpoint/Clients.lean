import RedisHaTool.Checkpoint.Manager
import RedisHaTool.Lib.Run

/-!
# Clients of one checkpoint

Calls of `save_checkpoint` and `update_offset` on one id by any number of
clients, a command at a time. A save is given what `CheckpointInfo::new` builds.
An update reads the version, adds one, and writes what it has then, whatever has
become of the version since.
-/

namespace RedisHaTool.Checkpoint

open Lib

/-- Where a call stands. -/
inductive ClientCall where
  /-- `save_checkpoint`, with the commands it has still to send. -/
  | saving (left : List Command)
  /-- `update_offset`, before it reads the version. -/
  | reading (newOffset : Int) (now : Rdb.SystemTime)
  /-- `update_offset`, with the commands it has still to send. -/
  | updating (left : List Command)
  | saved
  | updated
  /-- Over with an error, or with a panic. -/
  | failed
  deriving DecidableEq, Repr

structure Clients where
  hashes : Hashes
  calls : List ClientCall

def Clients.init (hashes : Hashes) : Clients := { hashes, calls := [] }

inductive ClientAct where
  | save (offset : Int) (now : Rdb.SystemTime)
  | update (newOffset : Int) (now : Rdb.SystemTime)
  /-- The `HGET` of an update. -/
  | read (i : Nat)
  /-- The next command of a call. -/
  | send (i : Nat)
  /-- The next command of a call fails, executed or not. -/
  | fail (i : Nat) (executed : Bool)
  deriving DecidableEq, Repr

/-- The next command of a call, and where the call then stands. -/
def ClientCall.next : ClientCall → Option (Command × ClientCall)
  | .saving [c] => some (c, .saved)
  | .saving (c :: left) => some (c, .saving left)
  | .updating [c] => some (c, .updated)
  | .updating (c :: left) => some (c, .updating left)
  | _ => none

def Clients.setCall (s : Clients) (i : Nat) (call : ClientCall) : Clients :=
  { s with calls := s.calls.set i call }

def Clients.exec (s : Clients) (c : Command) : Clients :=
  { s with hashes := c.exec s.hashes }

def Clients.step (id : Text) (s : Clients) : ClientAct → Option Clients
  | .save offset now =>
      some { s with calls := s.calls ++ [.saving (saveCheckpoint (.new id offset now))] }
  | .update newOffset now => some { s with calls := s.calls ++ [.reading newOffset now] }
  | .read i =>
      match s.calls[i]? with
      | some (.reading newOffset now) =>
          match updateOffset s.hashes id newOffset now with
          | some left => some (s.setCall i (.updating left))
          | none => some (s.setCall i .failed)
      | _ => none
  | .send i =>
      match s.calls[i]?.bind ClientCall.next with
      | some (c, call) => some ((s.exec c).setCall i call)
      | none => none
  | .fail i executed =>
      match s.calls[i]? with
      | some (.reading _ _) => some (s.setCall i .failed)
      | some call =>
          call.next.map fun (c, _) => (if executed then s.exec c else s).setCall i .failed
      | none => none

def versionField (id : Text) : Text := id ++ "_version".toList

/-- The version of an id, as an update reads it. -/
def storedVersion (h : Hashes) (id : Text) : Nat :=
  ((hget h checkpointKey (versionField id)).bind parseU64).getD 0

/-- How many updates have returned. -/
def Clients.updates (s : Clients) : Nat := s.calls.count .updated

/-- A command on the version leaves it where it is or adds one to it: an update
finds the version it has read, and a save, whose version is 0, finds none or
0. -/
def Clients.Undisturbed (id : Text) (s : Clients) (act : ClientAct) : Prop :=
  ∀ i value left, act = .send i ∨ act = .fail i true →
    (s.calls[i]? = some (.updating (.hset checkpointKey (versionField id) value :: left)) →
      value = natToString (storedVersion s.hashes id + 1)) ∧
    (s.calls[i]? = some (.saving (.hset checkpointKey (versionField id) value :: left)) →
      storedVersion s.hashes id = 0)

end RedisHaTool.Checkpoint
