import Mathlib.Logic.Function.Basic
import RedisHaTool.Checkpoint.Clients
import RedisHaTool.Lib.Interleave

/-!
# Checkpoints of many sources

Every process that syncs a source keeps its checkpoint on the target, and all of
them in the same two hashes. The calls on one id are those of `Clients`; the
commands of calls on different ids reach the target in any order.
-/

namespace RedisHaTool.Checkpoint

open Lib

/-- The hashes of the target, and the calls on each id. -/
structure Replicas where
  hashes : Hashes
  calls : Text → List ClientCall

def Replicas.init (hashes : Hashes) : Replicas := { hashes, calls := fun _ => [] }

/-- What the clients of one id have before them. -/
def Replicas.clients (s : Replicas) (id : Text) : Clients :=
  { hashes := s.hashes, calls := s.calls id }

/-- An act of a client of one id. -/
def Replicas.step (id : Text) (s : Replicas) (act : ClientAct) : Option Replicas :=
  ((s.clients id).step id act).map fun clients =>
    { hashes := clients.hashes, calls := Function.update s.calls id clients.calls }

end RedisHaTool.Checkpoint
