import RedisHaTool.Syncer.Restart

/-!
# The target's side of a connection

What the target makes of the bytes a connection carries: commands, one after
another, and a database that `SELECT` changes for this connection only.
`new_stream` connects and authenticates, so a new connection is in database 0.
The stream of the source is one sequence of commands, of which each process
forwards a part over as many connections as it needs.
-/

namespace RedisHaTool.Syncer

open Lib Resp

/-! ## Commands -/

/-- A command's name and its arguments. -/
abbrev ClientCommand := List Bytes

def ClientCommand.encode (c : ClientCommand) : Bytes :=
  encodeValue (.array (c.map .bulkString))

def encodeStream (cmds : List ClientCommand) : Bytes := cmds.flatMap ClientCommand.encode

def toLower (bs : Bytes) : Bytes := bs.map fun b => if 65 ≤ b ∧ b ≤ 90 then b + 32 else b

/-- The database a command selects. The target takes the name in any case, and
the number as it would print it. -/
def ClientCommand.selects : ClientCommand → Option Nat
  | [name, arg] =>
      if toLower name = asBytes "select".toList then
        match (fromUtf8 arg).bind parseI64 with
        | some db =>
            if 0 ≤ db ∧ asBytes (intToString db) = arg then some db.toNat else none
        | none => none
      else none
  | _ => none

/-- The database in force after some commands. -/
def dbAfter (db : Nat) : List ClientCommand → Nat
  | [] => db
  | c :: cmds => dbAfter (c.selects.getD db) cmds

/-- The commands that are not a `SELECT`, each with the database it is executed
in. -/
def executed (db : Nat) : List ClientCommand → List (Nat × ClientCommand)
  | [] => []
  | c :: cmds =>
      match c.selects with
      | some n => executed n cmds
      | none => (db, c) :: executed db cmds

/-! ## Connections -/

/-- A connection for commands: the offset it was opened at and the bytes it
accepted. -/
structure Connection where
  offset : Int
  bytes : Bytes
  deriving DecidableEq, Repr

/-- What an event does to the connections, the newest of which comes first. -/
def addEvent (conns : List Connection) : Event → List Connection
  | .connected offset => { offset, bytes := [] } :: conns
  | .sent _ bs =>
      match conns with
      | [] => []
      | c :: conns => { c with bytes := c.bytes ++ bs } :: conns
  | _ => conns

/-- The connections of a process. -/
def connectionsOf (log : List Event) : List Connection := log.foldl addEvent []

/-- The target executes this on a connection. -/
def Connection.Executes (c : Connection) (done : List (Nat × ClientCommand)) : Prop :=
  ∃ cmds, c.bytes = encodeStream cmds ∧ done = executed 0 cmds

/-- A process, and the commands of the source's stream that come before and
after the place where the source has it go on. -/
structure Relay (stream : List ClientCommand) where
  process : Process
  before : List ClientCommand
  after : List ClientCommand
  stream_eq : stream = before ++ after
  received : process.answer.aof <+: encodeStream after

/-- Where the stream of the process starts. -/
def Relay.start {stream : List ClientCommand} (r : Relay stream) : Int :=
  r.process.answer.offset r.process.self

/-- The connection is opened after the commands `pre` of the process's stream,
and dropped after `cmds` more. -/
structure Relay.Cuts {stream : List ClientCommand} (r : Relay stream) (c : Connection)
    (pre cmds : List ClientCommand) : Prop where
  after_eq : ∃ post, r.after = pre ++ cmds ++ post
  opened : c.offset = r.start + (encodeStream pre).length
  dropped : c.bytes.length = (encodeStream cmds).length

/-- On every connection between two places between commands, every command is
executed in the database that the last `SELECT` before it in the stream has
chosen. -/
def Relay.RightDb {stream : List ClientCommand} (r : Relay stream) : Prop :=
  ∀ c ∈ connectionsOf r.process.log, ∀ pre cmds, r.Cuts c pre cmds →
    c.Executes (executed (dbAfter 0 (r.before ++ pre)) cmds)

/-- Every such connection is opened while database 0 is in force, or begins with
a `SELECT`. -/
def Relay.Selects {stream : List ClientCommand} (r : Relay stream) : Prop :=
  ∀ c ∈ connectionsOf r.process.log, ∀ pre cmds, r.Cuts c pre cmds →
    dbAfter 0 (r.before ++ pre) = 0 ∨ ∀ cmd, cmds.head? = some cmd → cmd.selects.isSome = true

end RedisHaTool.Syncer
