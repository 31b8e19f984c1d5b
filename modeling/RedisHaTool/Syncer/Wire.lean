import RedisHaTool.Filter.CommandKeys
import RedisHaTool.Rdb.StreamFormat
import RedisHaTool.Syncer.Output
import RedisHaTool.Syncer.Target

/-!
# What goes over the wire

`send_aof_data` of `syncer/output.rs` on its own, for a reader that is the
outcomes of its reads, and what the target is sent by it and by `send_rdb_data`:
the commands that are whole on the connection, each in the database that the
`SELECT`s before it have chosen.

Neither function is handed the filter of the configuration. What it would keep
back is said here of the commands on the wire, and again of what the two
functions are given to send.
-/

namespace RedisHaTool.Syncer

open Lib Rdb Resp RedisHaTool.Filter

/-! ## Sending commands -/

/-- What becomes of a chunk: `write_all` and `flush` take it, or the connection
breaks after a part of it. -/
inductive ChunkWrite where
  | done
  | failed (accepted : Nat) (kind : IoErrorKind)
  deriving DecidableEq, Repr

/-- What the writes to come are, and what the connection has accepted. -/
structure AofState where
  writes : List ChunkWrite
  bytes : Bytes
  deriving DecidableEq, Repr

abbrev AofM := EStateM (Fault SyncError) AofState

/-- A connection that has no write left is broken. -/
def writeChunk (chunk : Bytes) : AofM Unit := fun s =>
  match s.writes with
  | [] => .error (.err (.io .other)) s
  | .done :: writes => .ok () { writes, bytes := s.bytes ++ chunk }
  | .failed accepted kind :: writes =>
      .error (.err (.io kind)) { writes, bytes := s.bytes ++ chunk.take accepted }

/-- The loop of `send_aof_data`. The answers of the target are logged; neither
they nor the time-out change what is done. -/
def sendAofLoop (sent : Nat) : List (Except IoErrorKind Bytes) → AofM Int
  | [] => pure sent
  | .error kind :: _ => throw (.err (.io kind))
  | .ok chunk :: reads =>
      if chunk = [] then pure sent
      else do
        writeChunk chunk
        sendAofLoop (sent + chunk.length) reads

def sendAofData (reads : List (Except IoErrorKind Bytes)) : AofM Int :=
  sendAofLoop 0 reads

/-- What the reads yield, up to the end or to one that fails. -/
def readBytes : List (Except IoErrorKind Bytes) → Bytes
  | .ok bs :: reads => if bs = [] then [] else bs ++ readBytes reads
  | _ => []

/-! ## Commands on the wire -/

/-- The bytes begin with whole commands, the last of which is this one, and it
is executed in this database if the first is executed in `start`. -/
def Carries (start : Nat) (bytes : Bytes) (db : Nat) (c : ClientCommand) : Prop :=
  ∃ pre, encodeStream (pre ++ [c]) <+: bytes ∧ dbAfter start pre = db

/-- What the target was sent. -/
def OutState.sent (s : OutState) : Bytes := s.exchanges.flatMap Exchange.command

def restoreName : Bytes := asBytes "RESTORE".toList

/-- No key that the filter drops is sent, whatever becomes of the connection. -/
def KeysFiltered (config : FilterConfig) (size : Option Int)
    (reads : List (Except IoErrorKind Bytes)) : Prop :=
  ∀ turns db key args,
    Carries 0 (final (sendRdbData size reads { turns, exchanges := [] })).sent db
      (restoreName :: key :: args) →
    ¬ config.FiltersOut db "RESTORE".toList (some key)

/-- No command that the filter drops for its name, its database or one of its keys is
sent, likewise, of a stream that begins in database `start`. -/
def CommandsFiltered (hasKey : ClientCommand → Bytes → Prop) (config : FilterConfig)
    (start : Nat) (reads : List (Except IoErrorKind Bytes)) : Prop :=
  ∀ writes db c,
    Carries start (final (sendAofData reads { writes, bytes := [] })).bytes db c →
    ¬ config.FiltersCommand hasKey db c

/-! ## What there is to send -/

/-- The entries that the parser delivers of an RDB and that have a payload: all
but the streams. -/
def restorable (reads : List (Except IoErrorKind Bytes)) : List BinEntry :=
  match readAll reads with
  | .error _ => []
  | .ok rdbData =>
      match parseEntries rdbData with
      | .ok _ parser => parser.sink.filter fun entry => !entry.rdbType.isStream
      | .error _ _ => []

/-- The filter drops none of the keys. -/
def KeysPass (config : FilterConfig) (reads : List (Except IoErrorKind Bytes)) : Prop :=
  ∀ entry ∈ restorable reads,
    ¬ config.FiltersOut entry.db "RESTORE".toList (some entry.key)

/-- The filter drops none of the commands. -/
def CommandsPass (hasKey : ClientCommand → Bytes → Prop) (config : FilterConfig) (start : Nat)
    (cmds : List ClientCommand) : Prop :=
  ∀ pre c post, cmds = pre ++ c :: post → ¬ config.FiltersCommand hasKey (dbAfter start pre) c

end RedisHaTool.Syncer
