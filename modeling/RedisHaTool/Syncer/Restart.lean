import RedisHaTool.Syncer.Leader
import RedisHaTool.Syncer.Session

/-!
# Restarts

A process of the tool runs until something stops it, in any state. What it
leaves behind is what the target has executed of its checkpoint commands; the
next process reads the checkpoint there and asks the source for what follows.

The source numbers the bytes of its stream. After `+FULLRESYNC id O` the first
one is `O + 1`; a `PSYNC id N` that is answered by `+CONTINUE` is answered by
the bytes from `N` on.
-/

namespace RedisHaTool.Syncer

open Lib Store Checkpoint

/-- A process from its start to where it was stopped. -/
structure Process where
  self : RedisInput
  answer : Answer
  incoming : List TcpRead
  disk : Disk
  hasManager : Bool
  acts : List Act
  final : Sys
  reply : incoming.flatMap Subtype.val = answer.reply
  run : (Sys.init (.new disk) hasManager (self.effects 0 incoming)).Runs Free acts final

/-- What was seen of it. -/
def Process.log (p : Process) : List Event := p.final.log

/-- The commands the target has executed. -/
def commands (log : List Event) : List Command :=
  log.filterMap fun | .command c => some c | _ => none

/-- The number of the first byte of a process's stream. -/
inductive Process.First (id : Text) (p : Process) : Int → Prop where
  | fullResync (f : FullResync) (hanswer : p.answer = .fullResync f) :
      First id p (f.masterOffset + 1)
  | continues (c : Continue) (hanswer : p.answer = .continues c) (n : Int)
      (hasked : .source (psyncCommand id (intToString n)) ∈ p.log) : First id p n

/-- A full resynchronisation, and restarts that are told to go on, the last
process first; and what the hashes of the target then hold. A source that is
asked for the id `?` never answers `+CONTINUE`. -/
inductive Chain (id : Text) : List Process → Hashes → Prop where
  | fullResync (p : Process) (f : FullResync) (h : Hashes)
      (hanswer : p.answer = .fullResync f) (hid : f.masterReplid = id) :
      Chain id [p] (execAll (commands p.log) h)
  | restart (p : Process) (ps : List Process) (h : Hashes) (runId : Text) (offset : Int)
      (c : Continue) (htail : Chain id ps h)
      (hsaved : getPsyncInfo h id = .ok (some offset)) (hid : id ≠ "?".toList)
      (hself : p.self = .start runId h id) (hanswer : p.answer = .continues c) :
      Chain id (p :: ps) (execAll (commands p.log) h)

/-- A command that saves an offset for the id. -/
def SavesFor (id : Text) (value : Text) : Event :=
  .command (.hset checkpointKey (offsetField id) value)

/-- The offset was saved when a process had shown `pre`, and no other was saved
after that, by this process or a newer one. -/
def LastSave (id : Text) (newer : List Process) (p : Process) (pre : List Event)
    (offset : Int) : Prop :=
  ∃ post, p.log = pre ++ SavesFor id (intToString offset) :: post ∧
    (∀ value, SavesFor id value ∉ post) ∧ ∀ q ∈ newer, ∀ value, SavesFor id value ∉ q.log

end RedisHaTool.Syncer
