import RedisHaTool.Syncer.Input
import RedisHaTool.Syncer.Forwarder
import RedisHaTool.Lib.Run

/-!
# The leader

`run_leader` of `syncer/syncer.rs` as a machine: the input task, which has a
list of effects before it; the leader itself, which waits for `psync_ready` or
thirty seconds, loads `psync_offset` and spawns the forwarding task; and that
task. They share the store, the offset and the replication id, and take turns in
any order.

`notify_waiters` wakes the tasks that have asked for a notification and leaves
nothing behind for one that asks later.
-/

namespace RedisHaTool.Syncer

open Lib Store Checkpoint

/-- Where `run_leader` stands. -/
inductive LeaderPc where
  /-- The input task is spawned, `psync_ready.notified()` not yet called. -/
  | spawned
  /-- In the `select!` on the notification and the timeout. -/
  | listening
  /-- Past it, before `psync_offset` is loaded. -/
  | ready
  /-- The forwarding task is spawned, with the offset that was loaded. -/
  | forwarding (initialOffset : Int) (f : Forwarder)
  deriving DecidableEq, Repr

structure Sys where
  storer : FileStorer
  rdbWriter : Option BufWriter
  aofWriter : Option BufWriter
  psyncOffset : Int
  masterReplid : Text
  /-- `checkpoint_manager.is_some()` -/
  hasManager : Bool
  /-- What the input task has still to do. -/
  input : List InputOp
  leader : LeaderPc
  log : List Event

/-- A process that has just spawned its input task. -/
def Sys.init (storer : FileStorer) (hasManager : Bool) (input : List InputOp) : Sys :=
  { storer, rdbWriter := none, aofWriter := none, psyncOffset := 0,
    masterReplid := [], hasManager, input, leader := .spawned, log := [] }

inductive Act where
  /-- The next effect of the input task, and the time. -/
  | input (now : Nat)
  | listen
  /-- Thirty seconds have passed. -/
  | timeout
  /-- Load the offset and spawn the forwarding task. -/
  | start
  | forward (a : ForwardAct)

/-- `psync_ready.notify_waiters()`. -/
def LeaderPc.psyncReady : LeaderPc → LeaderPc
  | .listening => .ready
  | pc => pc

/-- `notify_waiters()` of the store's notifier. -/
def LeaderPc.dataReady : LeaderPc → LeaderPc
  | .forwarding o f => .forwarding o f.notified
  | pc => pc

/-- A write to the RDB file. Its writer notifies after every write, flushed or
not. -/
def Sys.writeRdb (s : Sys) (bs : Bytes) : Sys :=
  match s.rdbWriter with
  | none => s
  | some w =>
      let (w, disk) := w.write bs s.storer.disk
      { s with storer := { s.storer with disk }, rdbWriter := some w,
               leader := s.leader.dataReady }

def Sys.flushRdb (s : Sys) : Sys :=
  match s.rdbWriter with
  | none => s
  | some w =>
      let (w, disk) := w.flush s.storer.disk
      { s with storer := { s.storer with disk }, rdbWriter := some w }

def Sys.writeAof (s : Sys) (bs : Bytes) : Sys :=
  match s.aofWriter with
  | none => s
  | some w =>
      let (w, disk) := w.write bs s.storer.disk
      { s with storer := { s.storer with disk }, aofWriter := some w }

/-- The AOF writer notifies after a flush. -/
def Sys.flushAof (s : Sys) : Sys :=
  match s.aofWriter with
  | none => s
  | some w =>
      let (w, disk) := w.flush s.storer.disk
      { s with storer := { s.storer with disk }, aofWriter := some w,
               leader := s.leader.dataReady }

/-- An effect of the input task. -/
def Sys.perform (s : Sys) (now : Nat) : InputOp → Sys
  | .storePsyncOffset offset => { s with psyncOffset := offset }
  | .setMasterReplid masterReplid => { s with masterReplid }
  | .sendSource bytes => { s with log := s.log ++ [.source bytes] }
  | .getRdbWriter runId offset size =>
      let (storer, w) := s.storer.getRdbWriter runId offset size now
      { s with storer, rdbWriter := some w }
  | .writeRdb bytes => s.writeRdb bytes
  | .flushRdb => s.flushRdb
  | .notifyReady => { s with leader := s.leader.psyncReady }
  | .getAofWriter runId offset =>
      let (storer, w) := s.storer.getAofWriter runId offset now
      { s with storer, aofWriter := some w }
  | .writeAof bytes => s.writeAof bytes
  | .flushAof => s.flushAof

def Sys.step (s : Sys) (act : Act) : Option Sys :=
  match act, s.leader with
  | .input now, _ =>
      match s.input with
      | [] => none
      | op :: input => some ({ s with input }.perform now op)
  | .listen, .spawned => some { s with leader := .listening }
  | .timeout, .listening => some { s with leader := .ready }
  | .start, .ready =>
      -- The manager is taken out of the syncer.
      let f := Forwarder.new s.psyncOffset s.hasManager
      some { s with hasManager := false, leader := .forwarding s.psyncOffset f }
  | .forward a, .forwarding o f =>
      (f.step s.storer s.masterReplid a).map fun (f, events) =>
        { s with leader := .forwarding o f, log := s.log ++ events }
  | _, _ => none

/-- A run of the leader whose steps all meet a condition. -/
abbrev Sys.Runs (C : Sys → Act → Prop) (s : Sys) (acts : List Act) (t : Sys) : Prop :=
  Steps Sys.step C s acts t

end RedisHaTool.Syncer
