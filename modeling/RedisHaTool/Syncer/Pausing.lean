import RedisHaTool.Syncer.Leader
import RedisHaTool.Syncer.Lifecycle

/-!
# Pausing a leader

A running leader, and calls of `pause` and `resume` at any time. The two store a
state in the syncer, the leader and its tasks are those of `Syncer/Leader.lean`,
and neither side has anything of the other's. Beside them stands what the calls
are for: whether the syncer is paused, whether the turn of the forwarding loop
under way was begun so, and what such turns have sent.
-/

namespace RedisHaTool.Syncer

open Lib Store

/-- An RDB file handed on to be sent, or bytes of a segment that were sent. -/
def Event.isData : Event → Bool
  | .handRdb _ => true
  | .sent _ bytes => !bytes.isEmpty
  | .source _ | .connected _ | .command _ => false

structure Pausing where
  sys : Sys
  syncer : SyncerImpl
  /-- `pause` has returned, and `resume` has not been called since. -/
  paused : Bool
  /-- The turn of the loop under way was begun while paused. -/
  begunPaused : Bool
  /-- The data that turns begun while paused have sent. -/
  sentPaused : List Event

/-- A leader at work. -/
def Pausing.init (sys : Sys) : Pausing :=
  { sys, syncer := { state := SyncState.run.asU8, role := SyncRole.leader.asU8,
                     runs := [.leading] },
    paused := false, begunPaused := false, sentPaused := [] }

inductive PausingAct where
  | leader (act : Act)
  | pause
  | resume

/-- A turn of the loop begins where it asks for the available bytes. -/
def Act.beginsTurn : Act → Bool
  | .forward .check => true
  | _ => false

def Pausing.step (s : Pausing) : PausingAct → Option Pausing
  | .leader act =>
      (s.sys.step act).map fun sys =>
        let begunPaused := if act.beginsTurn then s.paused else s.begunPaused
        let data := (sys.log.drop s.sys.log.length).filter Event.isData
        { s with sys, begunPaused,
                 sentPaused := s.sentPaused ++ if begunPaused then data else [] }
  | .pause => (s.syncer.step .pause).map fun syncer => { s with syncer, paused := true }
  | .resume => (s.syncer.step .resume).map fun syncer => { s with syncer, paused := false }

def LeaderPc.task : LeaderPc → Option Forwarder
  | .forwarding _ f => some f
  | .spawned | .listening | .ready => none

/-- What a turn begun while paused finds to send: nothing. -/
def Pausing.FindsNothing (s : Pausing) : PausingAct → Prop
  | .leader act =>
      act.beginsTurn = true → s.paused = true →
        ∀ f ∈ s.sys.leader.task, ¬ 0 < s.sys.storer.availableBytes f.offset
  | .pause | .resume => True

instance (s : Pausing) (act : PausingAct) : Decidable (s.FindsNothing act) :=
  match act with
  | .leader act => inferInstanceAs (Decidable (act.beginsTurn = true → s.paused = true →
      ∀ f ∈ s.sys.leader.task, ¬ 0 < s.sys.storer.availableBytes f.offset))
  | .pause | .resume => .isTrue trivial

end RedisHaTool.Syncer
