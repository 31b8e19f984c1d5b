import RedisHaTool.Lib.Run
import RedisHaTool.Lib.Text

/-!
# The life of a syncer

`run`, `stop`, `pause` and `resume` of `SyncerImpl` in `syncer/syncer.rs`,
called by any number of tasks at once. They share one atomic byte, the state.
`run` looks at it, sets it, runs for as long as it runs, and sets it again, and
anything may be stored in between; the other three store and are done. What
`run_leader` does is not looked into: it begins and, some time, ends. `stop`
cancels a token as well, which nothing here reads.
-/

namespace RedisHaTool.Syncer

open Lib

inductive SyncState where
  | readyRun
  | run
  | pause
  | stop
  deriving DecidableEq, Repr

def SyncState.asU8 : SyncState → UInt8
  | .readyRun => 0
  | .run => 1
  | .pause => 2
  | .stop => 3

def SyncState.fromU8 (value : UInt8) : SyncState :=
  if value = 0 then .readyRun
  else if value = 1 then .run
  else if value = 2 then .pause
  else if value = 3 then .stop
  else .readyRun

@[simp] theorem SyncState.fromU8_asU8 (s : SyncState) : fromU8 s.asU8 = s := by
  cases s <;> rfl

def SyncState.canRun : SyncState → Bool
  | .readyRun | .pause => true
  | .run | .stop => false

inductive SyncRole where
  | leader
  | follower
  deriving DecidableEq, Repr

def SyncRole.asU8 : SyncRole → UInt8
  | .leader => 0
  | .follower => 1

def SyncRole.fromU8 (value : UInt8) : SyncRole :=
  if value = 0 then .leader else if value = 1 then .follower else .leader

/-- Where a call of `run` stands. -/
inductive RunPc where
  /-- Called, before it loads the state. -/
  | called
  /-- The state it loaded cannot run: it returns `SyncError::Break` with it. -/
  | refused (currentState : SyncState)
  /-- Past the check, before it stores `Run`. -/
  | checked
  /-- Before it loads the role. -/
  | running
  /-- In `run_leader`. -/
  | leading
  /-- In `run_follower`. -/
  | following
  /-- Before its last store. -/
  | ended
  | returned
  deriving DecidableEq, Repr

/-- Past the check, and not at the end of `run_leader` yet. -/
def RunPc.inProgress : RunPc → Bool
  | .checked | .running | .leading => true
  | _ => false

/-- The syncer, and every call of `run` on it there has been. -/
structure SyncerImpl where
  state : UInt8
  role : UInt8
  runs : List RunPc
  deriving DecidableEq, Repr

def SyncerImpl.new (role : SyncRole) : SyncerImpl :=
  { state := SyncState.readyRun.asU8, role := role.asU8, runs := [] }

/-- `state.load`. -/
def SyncerImpl.load (s : SyncerImpl) : SyncState := .fromU8 s.state

/-- `state.store`. -/
def SyncerImpl.store (s : SyncerImpl) (state : SyncState) : SyncerImpl :=
  { s with state := state.asU8 }

def SyncerImpl.setRun (s : SyncerImpl) (i : Nat) (pc : RunPc) : SyncerImpl :=
  { s with runs := s.runs.set i pc }

/-- Which task takes the next step: a call of `run` by its number, or one of the
others, whose only step is its store. -/
inductive LifeAct where
  | call
  | load (i : Nat)
  | storeRun (i : Nat)
  | loadRole (i : Nat)
  /-- `run_leader` or `run_follower` comes to its end. -/
  | runEnds (i : Nat)
  | storeReadyRun (i : Nat)
  | stop
  | pause
  | resume
  deriving DecidableEq, Repr

def SyncerImpl.step (s : SyncerImpl) : LifeAct → Option SyncerImpl
  | .call => some { s with runs := s.runs ++ [.called] }
  | .load i =>
      if s.runs[i]? = some .called then
        let currentState := s.load
        some (s.setRun i (if currentState.canRun then .checked else .refused currentState))
      else none
  | .storeRun i =>
      if s.runs[i]? = some .checked then some ((s.store .run).setRun i .running) else none
  | .loadRole i =>
      if s.runs[i]? = some .running then
        some (s.setRun i (match SyncRole.fromU8 s.role with
          | .leader => .leading
          | .follower => .following))
      else none
  | .runEnds i =>
      if s.runs[i]? = some .leading ∨ s.runs[i]? = some .following then
        some (s.setRun i .ended)
      else none
  | .storeReadyRun i =>
      if s.runs[i]? = some .ended then some ((s.store .readyRun).setRun i .returned) else none
  | .stop => some (s.store .stop)
  | .pause => some (s.store .pause)
  | .resume => some (s.store .readyRun)

/-- No two calls of `run` are in `run_leader` at once. -/
def SyncerImpl.AtMostOneLeader (s : SyncerImpl) : Prop :=
  ∀ i j : Nat, s.runs[i]? = some .leading → s.runs[j]? = some .leading → i = j

/-- The step is not a `run` that finds the state runnable while another is in
progress. -/
def SyncerImpl.NoneInProgress (s : SyncerImpl) (act : LifeAct) : Prop :=
  ∀ i, act = .load i → s.load.canRun = true → ∀ pc ∈ s.runs, pc.inProgress = false

end RedisHaTool.Syncer
