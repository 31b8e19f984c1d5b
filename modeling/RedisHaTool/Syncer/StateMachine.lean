import RedisHaTool.Syncer.Leader
import RedisHaTool.Syncer.Session

/-!
# The phases of a synchronization

`syncer/state_machine.rs`, and the places where `run_leader` moves it. The
leader stores two phases around the spawning of the input task and two more once
that task has returned `Ok`; in between it waits for the reply, spawns the
forwarding task and waits for the input task or the cancel token, as in
`Syncer/Leader.lean`.

The input task is not part of the leader: it goes on with its effects wherever
the leader stands, and when the leader has returned without waiting for it.
-/

namespace RedisHaTool.Syncer

open Lib Store

/-! ## The state machine -/

inductive SyncPhase where
  | started
  | fullInit
  | fullSyncing
  | fullSynced
  | incrSyncing
  | incrSynced
  deriving DecidableEq, Repr

def SyncPhase.asU8 : SyncPhase → UInt8
  | .started => 0
  | .fullInit => 1
  | .fullSyncing => 2
  | .fullSynced => 3
  | .incrSyncing => 4
  | .incrSynced => 5

/-- `SyncPhase::from`. -/
def SyncPhase.ofU8 (value : UInt8) : SyncPhase :=
  if value = 1 then .fullInit
  else if value = 2 then .fullSyncing
  else if value = 3 then .fullSynced
  else if value = 4 then .incrSyncing
  else if value = 5 then .incrSynced
  else .started

def SyncPhase.isIncrSync : SyncPhase → Bool
  | .incrSyncing | .incrSynced => true
  | .started | .fullInit | .fullSyncing | .fullSynced => false

/-- `SyncFiniteStateMachine`, without the channel that tells others of a change. -/
structure SyncFiniteStateMachine where
  state : UInt8
  deriving DecidableEq, Repr

def SyncFiniteStateMachine.setState (_fsm : SyncFiniteStateMachine) (phase : SyncPhase) :
    SyncFiniteStateMachine := { state := phase.asU8 }

/-- `state()`. -/
def SyncFiniteStateMachine.phase (fsm : SyncFiniteStateMachine) : SyncPhase := .ofU8 fsm.state

def SyncFiniteStateMachine.startFullSync (fsm : SyncFiniteStateMachine) :
    SyncFiniteStateMachine := fsm.setState .fullInit

def SyncFiniteStateMachine.beginFullSync (fsm : SyncFiniteStateMachine) :
    SyncFiniteStateMachine := fsm.setState .fullSyncing

def SyncFiniteStateMachine.finishFullSync (fsm : SyncFiniteStateMachine) :
    SyncFiniteStateMachine := fsm.setState .fullSynced

def SyncFiniteStateMachine.startIncrSync (fsm : SyncFiniteStateMachine) :
    SyncFiniteStateMachine := fsm.setState .incrSyncing

@[simp] theorem phase_setState (fsm : SyncFiniteStateMachine) (phase : SyncPhase) :
    (fsm.setState phase).phase = phase := by
  cases phase <;> rfl

/-! ## The leader and its input task -/

/-- Where `run_leader` stands with the state machine. -/
inductive Stage where
  | called
  /-- Past `start_full_sync`. -/
  | initialised
  /-- The input task is spawned. -/
  | spawned
  /-- Past `begin_full_sync`: waiting for the reply, and then for the input task
  or the cancel token. -/
  | syncing
  /-- The input task has returned `Ok`. -/
  | inputDone
  /-- Past `finish_full_sync`. -/
  | fullSynced
  /-- Past `start_incr_sync`, waiting for the cancel token. -/
  | incremental
  | returned
  deriving DecidableEq, Repr

inductive InputTask where
  | notSpawned
  | running
  /-- Its result is `Ok`, or not. -/
  | ended (ok : Bool)
  deriving DecidableEq, Repr

structure Leading where
  stage : Stage
  fsm : SyncFiniteStateMachine
  sys : Sys
  inputTask : InputTask
  /-- Whether `input.run()` ends with `Ok` when it has no effect left. -/
  runOk : Bool
  /-- The effects the input task has had. -/
  performed : List InputOp

/-- The result is `Ok`. -/
def resultOk {ε σ α : Type} : EStateM.Result ε σ α → Bool
  | .ok _ _ => true
  | .error _ _ => false

/-- `run_leader` is called, on a connection that answers these reads. -/
def Leading.init (self : RedisInput) (incoming : List TcpRead) (sys : Sys)
    (fsm : SyncFiniteStateMachine) : Leading :=
  { stage := .called, fsm
    sys := { sys with input := self.effects sys.psyncOffset incoming, leader := .spawned }
    inputTask := .notSpawned
    runOk := resultOk (self.run
      { reader := { buffer := [], incoming }, psyncOffset := sys.psyncOffset, ops := [] })
    performed := [] }

inductive LeadAct where
  /-- Input or output is not set. -/
  | refuse
  | startFullSync
  | spawnInput
  | beginFullSync
  /-- The channel is not set. -/
  | noChannel
  /-- A step of `Syncer/Leader.lean`. -/
  | sys (act : Act)
  /-- The input task has no effect left. -/
  | inputReturns
  /-- A read or a write of the input task fails, or it is cancelled. -/
  | inputFails
  /-- The `select!` on the input task ends with its result. -/
  | joinInput
  | cancelled
  | finishFullSync
  | startIncrSync

/-- The leader has spawned the forwarding task. -/
def LeaderPc.isForwarding : LeaderPc → Bool
  | .forwarding _ _ => true
  | .spawned | .listening | .ready => false

/-- A step of the system. The input task takes its own once it is spawned, and
the leader its own in the stage that has them; the forwarding task takes steps
until an abort reaches it. -/
def Leading.stepSys (s : Leading) (act : Act) : Option Leading :=
  match act with
  | .input _ =>
      if s.inputTask = .running then
        (s.sys.step act).map fun sys =>
          { s with sys, performed := s.performed ++ s.sys.input.take 1 }
      else none
  | .listen | .timeout | .start =>
      if s.stage = .syncing then (s.sys.step act).map fun sys => { s with sys } else none
  | .forward _ => (s.sys.step act).map fun sys => { s with sys }

def Leading.step (s : Leading) (act : LeadAct) : Option Leading :=
  match act, s.stage with
  | .refuse, .called => some { s with stage := .returned }
  | .startFullSync, .called =>
      some { s with stage := .initialised, fsm := s.fsm.startFullSync }
  | .spawnInput, .initialised => some { s with stage := .spawned, inputTask := .running }
  | .beginFullSync, .spawned => some { s with stage := .syncing, fsm := s.fsm.beginFullSync }
  | .noChannel, .syncing =>
      if s.sys.leader = .spawned then some { s with stage := .returned } else none
  | .sys act, _ => s.stepSys act
  | .inputReturns, _ =>
      if s.inputTask = .running ∧ s.sys.input = [] then
        some { s with inputTask := .ended s.runOk }
      else none
  | .inputFails, _ =>
      if s.inputTask = .running then some { s with inputTask := .ended false } else none
  | .joinInput, .syncing =>
      if s.sys.leader.isForwarding then
        match s.inputTask with
        | .ended true => some { s with stage := .inputDone }
        | .ended false => some { s with stage := .returned }
        | .notSpawned | .running => none
      else none
  | .cancelled, .syncing =>
      if s.sys.leader.isForwarding then some { s with stage := .returned } else none
  | .cancelled, .incremental => some { s with stage := .returned }
  | .finishFullSync, .inputDone =>
      some { s with stage := .fullSynced, fsm := s.fsm.finishFullSync }
  | .startIncrSync, .fullSynced =>
      some { s with stage := .incremental, fsm := s.fsm.startIncrSync }
  | _, _ => none

/-! ## What the phase is to say -/

/-- `receive_aof_stream` has received bytes. -/
def Leading.ReceivedAof (s : Leading) : Prop :=
  ∃ bytes, .writeAof bytes ∈ s.performed ∧ bytes ≠ []

/-- There is no RDB to receive, or it is received and stored. -/
def Leading.LoadOver (s : Leading) : Prop :=
  (∃ runId offset size, .getRdbWriter runId offset size ∈ s.performed) →
    .flushRdb ∈ s.performed

/-- Where the stream has begun and the load is over the phase is an incremental
one. -/
def Leading.PhaseRight (s : Leading) : Prop :=
  s.ReceivedAof → s.LoadOver → s.fsm.phase.isIncrSync = true

/-- The source sends no byte of the stream, or what it sends is never read: the
offset at which the RDB would be filed is no `i64`, and the subtraction panics in a
build with overflow checks. -/
def Answer.Silent : Answer → Prop
  | .fullResync f => f.aof = [] ∨ ¬ IsI64 (f.masterOffset - f.rdb.length)
  | .continues c => c.aof = []

end RedisHaTool.Syncer
