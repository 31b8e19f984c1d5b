import RedisHaTool.Checkpoint.Manager
import RedisHaTool.Store.Storer

/-!
# The forwarding task

The task `run_leader` spawns in `syncer/syncer.rs`, with the `send_aof_data` of
`syncer/output.rs` that it calls. The loop is cut where it awaits, since
anything may happen to the store in between: a label says which of the possible
things the awaited call did, how much a read answered, where a write broke off,
whether the checkpoint interval had elapsed.

What the target sees is written to a log in the order it sees it. A byte of a
segment is known by its index in the segment's file.
-/

namespace RedisHaTool.Syncer

open Lib Store Checkpoint

/-- What the outside world sees of a run. -/
inductive Event where
  /-- Bytes sent to the source. -/
  | source (bytes : Bytes)
  /-- An RDB file handed to `Output::send`. -/
  | handRdb (r : RdbReader)
  /-- A new connection for commands, and the offset it starts at. -/
  | connected (offset : Int)
  /-- Bytes of a segment, from this index on, that a connection accepted. -/
  | sent (index : Nat) (bytes : Bytes)
  /-- A checkpoint command executed by the target. -/
  | command (c : Command)
  deriving DecidableEq, Repr

/-- Where the loop stands. -/
inductive ForwardPc where
  /-- At the top, before `available_bytes`. -/
  | check
  /-- With nothing available, before it has asked for a notification. -/
  | idle
  /-- Waiting for the notification it asked for. -/
  | waiting
  /-- With something available, before `get_reader`. -/
  | open
  /-- In `Output::send`. -/
  | sendRdb (r : RdbReader)
  /-- In `new_stream`. -/
  | connect (r : AofReader)
  /-- In `send_aof_data`, before a read. -/
  | read (r : AofReader) (sent : Nat)
  /-- In `send_aof_data`, writing what was read. -/
  | write (r : AofReader) (sent : Nat) (chunk : Bytes)
  /-- Saving a checkpoint: what each call has still to send. -/
  | save (calls : List (List Command))
  /-- Cancelled, or ended by a panic. -/
  | done
  deriving DecidableEq, Repr

/-- The variables of the task. -/
structure Forwarder where
  offset : Int
  /-- `persistent_stream.is_some()` -/
  hasStream : Bool
  rdbForwarded : Bool
  /-- `checkpoint_manager.is_some()` -/
  hasManager : Bool
  pc : ForwardPc
  deriving DecidableEq, Repr

/-- The task as it is spawned. -/
def Forwarder.new (initialOffset : Int) (hasManager : Bool) : Forwarder :=
  { offset := initialOffset, hasStream := false, rdbForwarded := false, hasManager,
    pc := .check }

/-- Which of the things that may happen next does happen. -/
inductive ForwardAct where
  | check
  | listen
  | open
  | rdbSent (result : Except SyncError Int) (now : Rdb.SystemTime)
  | connected
  | connectFailed
  | read (n : Nat)
  | readFailed
  /-- The read answered no bytes: `send_aof_data` is over. -/
  | finish (elapsed : Bool) (now : Rdb.SystemTime)
  | wrote
  /-- The write failed after so many bytes of the chunk. -/
  | writeFailed (accepted : Nat)
  | saved
  /-- A checkpoint command failed, whether or not the target had executed it. -/
  | saveFailed (executed : Bool)
  | cancel

/-- The next command to send, once the calls that are through are dropped. -/
def ForwardPc.saving (calls : List (List Command)) : ForwardPc :=
  match calls.filter (· ≠ []) with
  | [] => .check
  | calls => .save calls

/-- The calls that save a checkpoint, if there is a manager and a replication
id. -/
def Forwarder.checkpointing (f : Forwarder) (masterReplid : Text)
    (calls : List (List Command)) : Forwarder :=
  if f.hasManager ∧ masterReplid ≠ [] then { f with pc := .saving calls }
  else { f with pc := .check }

/-- The arm of `match output_clone.send(reader).await`. -/
def Forwarder.afterRdb (f : Forwarder) (masterReplid : Text) (r : RdbReader)
    (now : Rdb.SystemTime) : Except SyncError Int → Forwarder
  | .error _ => { f with pc := .check }
  | .ok _sent =>
      let offset := f.offset + r.size
      if ¬ IsI64 offset then { f with pc := .done }
      else if f.rdbForwarded then { f with offset, pc := .check }
      else
        { f with offset, rdbForwarded := true }.checkpointing masterReplid
          [saveCheckpoint (.new masterReplid offset now), savePsyncInfo masterReplid offset]

/-- The arm of `match output_clone.send_with_stream(..).await` for
`Ok(sent)`. -/
def Forwarder.afterAof (f : Forwarder) (masterReplid : Text) (sent : Nat)
    (elapsed : Bool) (now : Rdb.SystemTime) : Forwarder :=
  let offset := f.offset + sent
  if sent = 0 then { f with pc := .check }
  else if ¬ IsI64 offset then { f with pc := .done }
  else if elapsed then
    { f with offset }.checkpointing masterReplid
      [saveCheckpoint (.new masterReplid offset now)]
  else { f with offset, pc := .check }

/-- The arm of `get_reader`. A reader that cannot be had is waited for. -/
def Forwarder.afterReader (f : Forwarder) :
    Except SyncError Reader → Forwarder × List Event
  | .error _ => ({ f with pc := .idle }, [])
  | .ok (.rdb r) => ({ f with hasStream := false, pc := .sendRdb r }, [.handRdb r])
  | .ok (.aof r) => ({ f with pc := if f.hasStream then .read r 0 else .connect r }, [])

/-- The index in the file of the first byte of a chunk just read. -/
def chunkIndex (r : AofReader) (chunk : Bytes) : Nat := r.filePos - chunk.length

/-- One step of the task: where it then stands, and what is seen of it. -/
def Forwarder.step (storer : FileStorer) (masterReplid : Text) (f : Forwarder)
    (act : ForwardAct) : Option (Forwarder × List Event) :=
  match act, f.pc with
  | .check, .check =>
      let pc := if 0 < storer.availableBytes f.offset then .open else .idle
      some ({ f with pc }, [])
  | .listen, .idle => some ({ f with pc := .waiting }, [])
  | .open, .open => some (f.afterReader (storer.getReader f.offset))
  | .rdbSent result now, .sendRdb r => some (f.afterRdb masterReplid r now result, [])
  | .connected, .connect r =>
      some ({ f with hasStream := true, pc := .read r 0 }, [.connected f.offset])
  | .connectFailed, .connect _ => some ({ f with pc := .check }, [])
  | .read n, .read r sent =>
      if 1 ≤ n ∧ n ≤ 8192 ∧ n ≤ (r.remaining storer.disk).length then
        let chunk := (r.remaining storer.disk).take n
        some ({ f with pc := .write (r.advance n) sent chunk }, [])
      else none
  | .readFailed, .read _ _ => some ({ f with hasStream := false, pc := .check }, [])
  | .finish elapsed now, .read r sent =>
      if r.remaining storer.disk = [] then
        some (f.afterAof masterReplid sent elapsed now, [])
      else none
  | .wrote, .write r sent chunk =>
      some ({ f with pc := .read r (sent + chunk.length) },
        [.sent (chunkIndex r chunk) chunk])
  | .writeFailed accepted, .write r _ chunk =>
      if accepted < chunk.length then
        some ({ f with hasStream := false, pc := .check },
          [.sent (chunkIndex r chunk) (chunk.take accepted)])
      else none
  | .saved, .save ((c :: cs) :: calls) =>
      some ({ f with pc := .saving (cs :: calls) }, [.command c])
  | .saveFailed executed, .save ((c :: _) :: calls) =>
      some ({ f with pc := .saving calls }, if executed then [.command c] else [])
  | .cancel, _ => some ({ f with pc := .done }, [])
  | _, _ => none

/-- `notify_waiters`: only a task that has asked is woken. -/
def Forwarder.notified (f : Forwarder) : Forwarder :=
  match f.pc with
  | .waiting => { f with pc := .check }
  | _ => f

@[simp] theorem Forwarder.notified_offset (f : Forwarder) :
    f.notified.offset = f.offset := by
  unfold Forwarder.notified
  split <;> rfl

end RedisHaTool.Syncer
