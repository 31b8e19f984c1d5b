import RedisHaTool.Syncer.Lifecycle

/-!
# Stopping and restarting

The handlers of `cmd/api.rs` that stop a syncer, over the calls of
`Syncer/Lifecycle.lean`, with the two things a run finds and does not put back:
the token `stop` cancels, which nothing renews, and the slot of the checkpoint
manager, which `run_leader` empties. The input, the output and the channel have
been set, so `run_leader` spawns its two tasks and ends when the token is
cancelled or the input task fails.

Every handler's `stop` is two steps, as other tasks run between them, and a
restart goes on to call `run`.
-/

namespace RedisHaTool.Syncer

open Lib

/-- Where a handler that stops the syncer stands. -/
inductive HandlerPc where
  /-- Before it cancels the token. -/
  | stopping (restart : Bool)
  /-- Before it stores `Stop`. -/
  | cancelled (restart : Bool)
  /-- A restart, before it calls `run`. -/
  | stopped
  /-- A restart, with the call of `run` it has made. -/
  | starting (run : Nat)
  | returned
  deriving DecidableEq, Repr

/-- A task `run_leader` has spawned: the run, and what there was for it. -/
inductive Spawned where
  | input (run : Nat) (isCancelled : Bool)
  | forwarding (run : Nat) (isCancelled hasManager : Bool)
  deriving DecidableEq, Repr

def Spawned.run : Spawned → Nat
  | .input run _ => run
  | .forwarding run _ _ => run

/-- The token was cancelled already when the task was spawned. -/
def Spawned.isCancelled : Spawned → Bool
  | .input _ isCancelled => isCancelled
  | .forwarding _ isCancelled _ => isCancelled

def Spawned.isInput : Spawned → Bool
  | .input _ _ => true
  | .forwarding _ _ _ => false

structure Control where
  syncer : SyncerImpl
  /-- `cancel_token.is_cancelled()` -/
  isCancelled : Bool
  /-- `checkpoint_manager.is_some()` -/
  hasManager : Bool
  spawned : List Spawned
  handlers : List HandlerPc
  deriving DecidableEq, Repr

/-- A syncer with everything set, before its first run. -/
def Control.new : Control :=
  { syncer := .new .leader, isCancelled := false, hasManager := true, spawned := [],
    handlers := [] }

def Control.status (s : Control) : SyncState := s.syncer.load

inductive ControlAct where
  /-- The handler of a stop or of a restart is called. -/
  | request (restart : Bool)
  | cancel (j : Nat)
  | storeStop (j : Nat)
  /-- A restart calls `run`. -/
  | start (j : Nat)
  | setCheckpointManager
  | spawnInput (i : Nat)
  | spawnForwarding (i : Nat)
  /-- `run_leader` finds the token cancelled. -/
  | runCancelled (i : Nat)
  /-- The input task has failed, and `run_leader` ends with it. -/
  | inputFailed (i : Nat)
  /-- Any other step of the syncer. -/
  | life (act : LifeAct)
  deriving DecidableEq, Repr

/-- Run `i` has spawned its input task, or its forwarding task. -/
def Control.hasSpawned (s : Control) (isInput : Bool) (i : Nat) : Bool :=
  s.spawned.any fun task => task.isInput == isInput && task.run == i

def Control.setHandler (s : Control) (j : Nat) (pc : HandlerPc) : Control :=
  { s with handlers := s.handlers.set j pc }

def Control.spawn (s : Control) (task : Spawned) : Control :=
  { s with spawned := s.spawned ++ [task] }

/-- The end of `run_leader`, once it waits for its tasks. -/
def Control.endRun (s : Control) (i : Nat) : Option Control :=
  if s.hasSpawned false i then
    (s.syncer.step (.runEnds i)).map fun syncer => { s with syncer }
  else none

def Control.step (s : Control) : ControlAct → Option Control
  | .request restart => some { s with handlers := s.handlers ++ [.stopping restart] }
  | .cancel j =>
      match s.handlers[j]? with
      | some (.stopping restart) =>
          some ({ s with isCancelled := true }.setHandler j (.cancelled restart))
      | _ => none
  | .storeStop j =>
      match s.handlers[j]? with
      | some (.cancelled restart) =>
          some ({ s with syncer := s.syncer.store .stop }.setHandler j
            (if restart then .stopped else .returned))
      | _ => none
  | .start j =>
      if s.handlers[j]? = some .stopped then
        (s.syncer.step .call).map fun syncer =>
          { s with syncer }.setHandler j (.starting s.syncer.runs.length)
      else none
  | .setCheckpointManager => some { s with hasManager := true }
  | .spawnInput i =>
      if s.syncer.runs[i]? = some .leading ∧ ¬ s.hasSpawned true i then
        some (s.spawn (.input i s.isCancelled))
      else none
  | .spawnForwarding i =>
      if s.syncer.runs[i]? = some .leading ∧ s.hasSpawned true i ∧
          ¬ s.hasSpawned false i then
        -- The manager is taken out of its slot.
        some ({ s with hasManager := false }.spawn
          (.forwarding i s.isCancelled s.hasManager))
      else none
  | .runCancelled i => if s.isCancelled then s.endRun i else none
  | .inputFailed i => s.endRun i
  | .life .stop | .life (.runEnds _) => none
  | .life act => (s.syncer.step act).map fun syncer => { s with syncer }

/-- Restart `j` has started a run as a first run is started: the check of the
state let it through, neither task found the token cancelled, and it has a
manager to save checkpoints with. -/
def Control.Restarted (s : Control) (j : Nat) : Prop :=
  ∃ i, s.handlers[j]? = some (.starting i) ∧
    (∀ currentState, s.syncer.runs[i]? ≠ some (.refused currentState)) ∧
    Spawned.input i false ∈ s.spawned ∧ Spawned.forwarding i false true ∈ s.spawned

end RedisHaTool.Syncer
