import RedisHaTool.Syncer.StateMachine

/-!
# Who is told of a phase

The other half of `syncer/state_machine.rs`: `set_state` stores the phase and sends
it into a `watch` channel, and `state_notify` and `wait_for_change` give out clones of
the receiver that the machine keeps. The channel holds the newest phase and counts
what was sent. A receiver remembers the count it has seen: `changed()` waits until the
count is another one and then remembers it, `borrow()` reads the phase that is there
by then. The machine's own receiver is never read from, so a clone has seen nothing of
what was sent before.
-/

namespace RedisHaTool.Syncer

open Lib Store

/-- A receiver in the hands of a task that calls `changed()` and `borrow()` in turn. -/
structure PhaseReceiver where
  /-- The count it has seen. -/
  version : Nat
  /-- `changed()` has returned, `borrow()` is next. -/
  told : Bool
  /-- What `borrow()` has answered. -/
  seen : List SyncPhase
  deriving DecidableEq, Repr

/-- A clone of the machine's own receiver. -/
def PhaseReceiver.clone : PhaseReceiver := { version := 0, told := false, seen := [] }

/-- The leader with its input task, and all who watch its phase. -/
structure Watched where
  lead : Leading
  /-- `set_state` has stored this phase, and has not sent it. -/
  unsent : Option SyncPhase
  /-- What was sent into the channel. -/
  sent : List SyncPhase
  receivers : List PhaseReceiver

/-- A machine that is new, before `run_leader` is called. -/
def Watched.init (self : RedisInput) (incoming : List TcpRead) (sys : Sys) : Watched :=
  { lead := .init self incoming sys { state := SyncPhase.asU8 .started }
    unsent := none, sent := [], receivers := [] }

/-- The phase in the channel. -/
def Watched.value (s : Watched) : SyncPhase := s.sent.getLast?.getD .started

/-- `changed()` of a receiver would return at once. -/
def Watched.isChanged (s : Watched) (r : PhaseReceiver) : Bool := r.version != s.sent.length

/-- `wait_for_change()` would return at once. -/
def Watched.changesAtOnce (s : Watched) : Bool := s.isChanged .clone

/-- The phase that the leader stores in this step. -/
def LeadAct.stores : LeadAct → Option SyncPhase
  | .startFullSync => some .fullInit
  | .beginFullSync => some .fullSyncing
  | .finishFullSync => some .fullSynced
  | .startIncrSync => some .incrSyncing
  | _ => none

/-- The step is the leader's own, and comes after what it did before. -/
def LeadAct.isLeaders : LeadAct → Bool
  | .sys (.input _) | .sys (.forward _) | .inputReturns | .inputFails => false
  | _ => true

inductive WatchAct where
  | lead (act : LeadAct)
  /-- `tx.send(phase)`. -/
  | send
  | stateNotify
  | changed (k : Nat)
  | borrow (k : Nat)

def Watched.setReceiver (s : Watched) (k : Nat) (r : PhaseReceiver) : Watched :=
  { s with receivers := s.receivers.set k r }

def Watched.step (s : Watched) : WatchAct → Option Watched
  | .lead act =>
      if act.isLeaders ∧ s.unsent.isSome then none
      else (s.lead.step act).map fun lead =>
        { s with lead, unsent := act.stores.orElse fun _ => s.unsent }
  | .send =>
      s.unsent.map fun phase => { s with unsent := none, sent := s.sent ++ [phase] }
  | .stateNotify => some { s with receivers := s.receivers ++ [.clone] }
  | .changed k =>
      s.receivers[k]?.bind fun r =>
        if !r.told && s.isChanged r then
          some (s.setReceiver k { r with version := s.sent.length, told := true })
        else none
  | .borrow k =>
      s.receivers[k]?.bind fun r =>
        if r.told then
          some (s.setReceiver k { r with told := false, seen := r.seen ++ [s.value] })
        else none

end RedisHaTool.Syncer
