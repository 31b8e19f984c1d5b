import RedisHaTool.Lib.Run
import RedisHaTool.Lib.Text

/-!
# The election

`RedisElection` of `cluster/redis_election.rs`: any number of nodes, each with
its own object on one key, and any number of calls and of renew tasks at once. A
call is cut where it awaits: at each Redis command, which is atomic on the
server, and at each lock. The clock is that of the server, in milliseconds.

`renew` and `resign` keep the read guard on `leader_value` until they return.
`resign` writes to it with the guard still held, so it waits for itself, and
everything that comes to the lock after it waits too.
-/

namespace RedisHaTool.Cluster

open Lib

/-- The value of the election key, and the last moment it has it. -/
structure KeyEntry where
  value : Text
  expiresAt : Nat
  deriving DecidableEq, Repr

/-- An election object, without its connection and its key. -/
structure RedisElection where
  leaderValue : Option Text
  isLeader : Bool
  deriving DecidableEq, Repr

def RedisElection.new : RedisElection := { leaderValue := none, isLeader := false }

/-- `ttl`, in seconds. -/
def ttl : Nat := 10

/-- Where a call stands. -/
inductive CallPc where
  /-- `campaign`, before `SET`. -/
  | campaign (value : Text)
  /-- `SET` has answered that the key was set, `leader_value` is not stored. -/
  | acquired (value : Text)
  /-- `leader_value` is stored, `is_leader` is not. -/
  | elected
  /-- `renew`, before it reads `leader_value`. -/
  | renew
  /-- `renew`, before `GET`. -/
  | renewing (value : Text)
  /-- `renew`, before `EXPIRE`. -/
  | extending
  /-- `renew`, the key is not its own: before it clears `is_leader`. -/
  | lost
  /-- `resign`, before it reads `leader_value`. -/
  | resign
  /-- `resign`, before `GET`. -/
  | resigning (value : Text)
  /-- `resign`, before `DEL`. -/
  | deleting
  /-- `resign`, before it clears `is_leader`. -/
  | deleted
  /-- `resign`, waiting to write `leader_value`. -/
  | cleared
  | returned (ok : Bool)
  deriving DecidableEq, Repr

/-- The calls that hold a read guard on `leader_value`. -/
def CallPc.holdsGuard : CallPc → Bool
  | .renewing _ | .extending | .lost | .resigning _ | .deleting | .deleted | .cleared => true
  | .campaign _ | .acquired _ | .elected | .renew | .resign | .returned _ => false

structure ElectionCall where
  election : Nat
  pc : CallPc
  deriving DecidableEq, Repr

/-- Where a renew task stands. -/
inductive TaskPc where
  /-- Waiting for the tick due then. -/
  | waiting (tick : Nat)
  /-- In the call of `renew` it made after that tick. -/
  | renewing (tick call : Nat)
  | ended
  deriving DecidableEq, Repr

structure RenewTask where
  election : Nat
  pc : TaskPc
  deriving DecidableEq, Repr

/-- The key, the objects (those of the nodes first, then those of the tasks),
and every call and task there has been. -/
structure Elections where
  nodes : Nat
  now : Nat
  key : Option KeyEntry
  elections : List RedisElection
  calls : List ElectionCall
  tasks : List RenewTask
  deriving DecidableEq, Repr

def Elections.init (nodes : Nat) : Elections :=
  { nodes, now := 0, key := none, elections := List.replicate nodes .new, calls := [],
    tasks := [] }

/-- The key as a command finds it. -/
def Elections.lookup (s : Elections) : Option KeyEntry :=
  s.key.filter fun entry => decide (s.now ≤ entry.expiresAt)

/-- When a key that is set or renewed now expires. -/
def Elections.deadline (s : Elections) : Nat := s.now + ttl * 1000

/-- `is_leader()` of an object. -/
def Elections.isLeader (s : Elections) (i : Nat) : Bool :=
  (s.elections[i]?.map RedisElection.isLeader).getD false

/-- Nobody waits to write the object's `leader_value`. -/
def Elections.readable (s : Elections) (i : Nat) : Bool :=
  s.calls.all fun call => call.election != i || call.pc != .cleared

/-- Nobody holds a guard on it. -/
def Elections.writable (s : Elections) (i : Nat) : Bool :=
  s.calls.all fun call => call.election != i || !call.pc.holdsGuard

def Elections.setCall (s : Elections) (c i : Nat) (pc : CallPc) : Elections :=
  { s with calls := s.calls.set c { election := i, pc } }

def Elections.pushCall (s : Elections) (i : Nat) (pc : CallPc) : Elections :=
  { s with calls := s.calls ++ [{ election := i, pc }] }

def Elections.setLeader (s : Elections) (i : Nat) (isLeader : Bool) : Elections :=
  { s with elections := s.elections.modify i fun e => { e with isLeader } }

def Elections.setTask (s : Elections) (k i : Nat) (pc : TaskPc) : Elections :=
  { s with tasks := s.tasks.set k { election := i, pc } }

/-- `SET key value NX EX ttl`. -/
def Elections.set (s : Elections) (value : Text) : Elections :=
  { s with key := some { value, expiresAt := s.deadline } }

/-- `EXPIRE key ttl`. -/
def Elections.expire (s : Elections) : Elections :=
  { s with key := s.lookup.map fun entry => { entry with expiresAt := s.deadline } }

/-- `DEL key`. -/
def Elections.del (s : Elections) : Elections := { s with key := none }

/-- `start_renew_task`, on an object of its own. Its first tick is due at
once. -/
def Elections.startRenewTask (s : Elections) : Elections :=
  { s with
    elections := s.elections ++ [.new]
    tasks := s.tasks ++ [{ election := s.elections.length, pc := .waiting s.now }] }

/-- The next step of call `c`, on object `i`, with the reply the server has for
it. -/
def Elections.proceed (s : Elections) (c i : Nat) : CallPc → Option Elections
  | .campaign value =>
      match s.lookup with
      | none => some ((s.set value).setCall c i (.acquired value))
      | some _ => some (s.setCall c i (.returned false))
  | .acquired value =>
      if s.writable i then
        let elections := s.elections.modify i fun e => { e with leaderValue := some value }
        some ({ s with elections }.setCall c i .elected)
      else none
  | .elected => some ((s.setLeader i true).startRenewTask.setCall c i (.returned true))
  | .renew =>
      if s.readable i then
        match s.elections[i]?.bind RedisElection.leaderValue with
        | none => some (s.setCall c i (.returned false))
        | some value => some (s.setCall c i (.renewing value))
      else none
  | .renewing value =>
      if s.lookup.map KeyEntry.value = some value then some (s.setCall c i .extending)
      else some (s.setCall c i .lost)
  | .extending => some (s.expire.setCall c i (.returned true))
  | .lost => some ((s.setLeader i false).setCall c i (.returned false))
  | .resign =>
      if s.readable i then
        match s.elections[i]?.bind RedisElection.leaderValue with
        | none => some (s.setCall c i (.returned false))
        | some value => some (s.setCall c i (.resigning value))
      else none
  | .resigning value =>
      if s.lookup.map KeyEntry.value = some value then some (s.setCall c i .deleting)
      else some (s.setCall c i (.returned false))
  | .deleting => some (s.del.setCall c i .deleted)
  | .deleted => some ((s.setLeader i false).setCall c i .cleared)
  | .cleared | .returned _ => none

/-- What a command did that has failed. -/
def Elections.failing (s : Elections) (executed : Bool) : CallPc → Option Elections
  | .campaign value => some (if executed ∧ s.lookup = none then s.set value else s)
  | .renewing _ | .resigning _ => some s
  | .extending => some (if executed then s.expire else s)
  | .deleting => some (if executed then s.del else s)
  | .acquired _ | .elected | .renew | .lost | .resign | .deleted | .cleared
  | .returned _ => none

inductive ElectionAct where
  | campaign (i : Nat) (value : Text)
  | renew (i : Nat)
  | resign (i : Nat)
  /-- The next step of a call. -/
  | proceed (c : Nat)
  /-- The next step of a call is a command that fails, executed or not. -/
  | fail (c : Nat) (executed : Bool)
  /-- The next tick of a renew task. -/
  | tick (k : Nat)
  /-- A renew task's call of `renew` is over. -/
  | renewed (k : Nat)
  /-- Time passes. -/
  | elapse (milliseconds : Nat)
  deriving DecidableEq, Repr

/-- A call on the object of a node. -/
def Elections.call (s : Elections) (i : Nat) (pc : CallPc) : Option Elections :=
  if i < s.nodes then some (s.pushCall i pc) else none

def Elections.step (s : Elections) : ElectionAct → Option Elections
  | .campaign i value => s.call i (.campaign value)
  | .renew i => s.call i .renew
  | .resign i => s.call i .resign
  | .proceed c =>
      match s.calls[c]? with
      | some call => s.proceed c call.election call.pc
      | none => none
  | .fail c executed =>
      match s.calls[c]? with
      | some call =>
          (s.failing executed call.pc).map (·.setCall c call.election (.returned false))
      | none => none
  | .tick k =>
      match s.tasks[k]? with
      | some { election := i, pc := .waiting tick } =>
          if s.now < tick then none
          else if s.isLeader i then
            some ((s.pushCall i .renew).setTask k i (.renewing tick s.calls.length))
          else some (s.setTask k i .ended)
      | _ => none
  | .renewed k =>
      match s.tasks[k]? with
      | some { election := i, pc := .renewing tick c } =>
          match s.calls[c]?.map ElectionCall.pc with
          | some (.returned true) => some (s.setTask k i (.waiting (tick + ttl / 2 * 1000)))
          | some (.returned false) => some ((s.setLeader i false).setTask k i .ended)
          | _ => none
      | _ => none
  | .elapse milliseconds => some { s with now := s.now + milliseconds }

/-- The tick a task waits for is not over by then. -/
def TaskPc.onTime (time : Nat) : TaskPc → Bool
  | .waiting tick => decide (time ≤ tick)
  | .renewing _ _ | .ended => true

/-- Time does not pass beyond a tick that is due. -/
def Elections.OnTime (s : Elections) : ElectionAct → Prop
  | .elapse milliseconds =>
      ∀ task ∈ s.tasks, task.pc.onTime (s.now + milliseconds) = true
  | _ => True

/-- Only one node's `is_leader()` is true, if any. -/
def Elections.AtMostOneLeader (s : Elections) : Prop :=
  ∀ i j, s.isLeader i = true → s.isLeader j = true → i = j

end RedisHaTool.Cluster
