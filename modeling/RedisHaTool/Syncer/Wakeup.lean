import RedisHaTool.Lib.Run
import RedisHaTool.Store.AofWriter
import RedisHaTool.Syncer.Forwarder

/-!
# The AOF writer and the forwarding task

The two ends of `store.notify`: `poll_flush` of `store/writer.rs`, which flushes
and then calls `notify_waiters`, and the forwarding loop, which asks
`available_bytes` and then creates the `Notified` it waits for. The two tasks
run on different threads, so either may stand between its two steps while the
other takes one.

Bytes are flushed once a flush has returned; the file may hold more, since the
buffer gives way to what does not fit it.
-/

namespace RedisHaTool.Syncer

open Lib Store

structure Flow where
  storer : FileStorer
  writer : AofWriter
  /-- How long the writer's file was when it was last flushed. -/
  flushed : Nat
  /-- `poll_flush` has flushed and not yet called `notify_waiters`. -/
  toNotify : Bool
  masterReplid : Text
  forwarder : Forwarder

/-- A writer just handed out, over any store, and a forwarding task just
spawned. -/
def Flow.start (s : FileStorer) (runId : Text) (start : Int) (logSize now : Nat)
    (masterReplid : Text) (f : Forwarder) : Flow :=
  let (storer, writer) := s.getAofWriter runId start now
  { storer, writer := .new writer writer.path logSize, flushed := 0, toNotify := false,
    masterReplid, forwarder := f }

inductive FlowAct where
  /-- `poll_write` accepts some bytes. -/
  | append (bs : Bytes)
  /-- The flush of `poll_flush` is through. -/
  | flush
  /-- A call of the writer fails after so many bytes of its buffer. -/
  | failed (reached : Nat)
  /-- The `notify_waiters` of `poll_flush`. -/
  | notify
  | forward (a : ForwardAct)

def Flow.step (s : Flow) : FlowAct → Option Flow
  | .append bs =>
      if s.toNotify then none
      else
        (s.writer.write bs s.storer.disk).map fun (writer, disk) =>
          { s with storer := { s.storer with disk }, writer }
  | .flush =>
      if s.toNotify then none
      else
        let (writer, disk) := s.writer.flush s.storer.disk
        some
          { s with
            storer := { s.storer with disk }
            writer
            flushed := (disk.contents writer.writer.path).length
            toNotify := true }
  | .failed reached =>
      if s.toNotify then none
      else
        let (writer, disk) := s.writer.failed reached s.storer.disk
        some { s with storer := { s.storer with disk }, writer }
  | .notify =>
      if s.toNotify then
        some { s with toNotify := false, forwarder := s.forwarder.notified }
      else none
  | .forward a =>
      (s.forwarder.step s.storer s.masterReplid a).map fun (forwarder, _) =>
        { s with forwarder }

/-- How much of a segment is flushed. Only the writer's own file still grows. -/
def Flow.flushedLength (s : Flow) (path : Path) : Nat :=
  if path = s.writer.writer.path then s.flushed
  else (s.storer.disk.contents path).length

/-- A segment that is found for the forwarder's offset holds flushed bytes
beyond it. -/
def Flow.Unsent (s : Flow) : Prop :=
  ∃ runId aof, s.storer.dataSet.findAof runId s.forwarder.offset = some aof ∧
    s.forwarder.offset < aof.offset + s.flushedLength aof.path

/-- If the forwarder is waiting with flushed bytes beyond its offset, a wake-up
for it is pending. -/
def Flow.WakeupPending (s : Flow) : Prop :=
  s.forwarder.pc = .waiting → s.Unsent → s.toNotify = true

/-- The step is not a notification for a forwarder that is between its check and
its wait with flushed bytes beyond its offset. -/
def Flow.NotifiesInTime (s : Flow) : FlowAct → Prop
  | .notify => s.forwarder.pc = .idle → ¬ s.Unsent
  | _ => True

/-- Nor is it an attempt to open a segment with flushed bytes beyond the offset
that fails. -/
def Flow.Undisturbed (s : Flow) : FlowAct → Prop
  | .notify => s.forwarder.pc = .idle → ¬ s.Unsent
  | .forward .open => s.Unsent → ∃ r, s.storer.getReader s.forwarder.offset = .ok r
  | _ => True

end RedisHaTool.Syncer
