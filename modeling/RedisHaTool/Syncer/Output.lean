import Mathlib.Data.List.Infix
import RedisHaTool.Rdb.Dump
import RedisHaTool.Rdb.Parser
import RedisHaTool.Resp.Value

/-!
# Sending an RDB

`send_rdb_data` and `send_restore_command` of `syncer/output.rs`. The connection
to the target is a list of turns, one for each command that is written to it:
the time on the clock then, and how the write and the read of the reply end.
What went over it is kept in the order it went.

The reader is the outcomes of its reads. The commands of a segment are sent by
`send_aof_data`, which is part of the forwarding task's machine.
-/

namespace RedisHaTool.Syncer

open Lib Rdb Resp

/-! ## The connection -/

/-- What a read into the buffer of 1024 bytes answers. -/
abbrev Response := {bs : Bytes // bs.length ≤ 1024}

/-- What becomes of one command. -/
structure Turn where
  now : SystemTime
  /-- `write_all` and `flush`. -/
  write : Except IoErrorKind Unit
  read : Except IoErrorKind Response

/-- A command that was written, and what was read after it. -/
structure Exchange where
  command : Bytes
  reply : Except IoErrorKind Response

structure OutState where
  turns : List Turn
  exchanges : List Exchange

abbrev OutM := EStateM (Fault SyncError) OutState

/-- The clock when the next command is built. -/
def systemTimeNow : OutM SystemTime := fun s =>
  .ok ((s.turns.head?.map Turn.now).getD 0) s

/-- A command is written and one read is made. A connection that has no turn
left is broken. -/
def sendCommand (command : Bytes) : OutM Response := fun s =>
  match s.turns with
  | [] => .error (.err (.io .other)) s
  | turn :: turns =>
      match turn.write with
      | .error kind => .error (.err (.io kind)) { s with turns }
      | .ok () =>
          let exchanges := s.exchanges ++ [{ command, reply := turn.read }]
          match turn.read with
          | .error kind => .error (.err (.io kind)) { turns, exchanges }
          | .ok response => .ok response { turns, exchanges }

/-- `response_str.contains("+OK")`. The lossy decoding keeps ASCII as it is. -/
def containsOk (response : Response) : Bool :=
  decide (asBytes "+OK".toList <:+: response.1)

/-! ## Commands -/

def selectCommand (db : Nat) : Bytes :=
  encodeCommandStr "SELECT".toList [natToString db]

/-- `ttl_ms`: 0 without an expiry, and for one that has passed. -/
def ttlMs (expire : Option SystemTime) (now : SystemTime) : Int :=
  match expire with
  | none => 0
  | some expire =>
      if now < expire then asSigned 64 ((expire - now) / 1000000 % 2 ^ 64) else 0

def restoreCommand (entry : BinEntry) (dumpPayload : Bytes) (now : SystemTime) : Bytes :=
  encodeCommand "RESTORE".toList
    [entry.key, asBytes (intToString (ttlMs entry.expire now)), dumpPayload,
     asBytes "REPLACE".toList]

def selectFailed (response : Response) : SyncError :=
  .protocol [.text "SELECT 失败: ".toList, .lossy response.1]

def restoreFailed (entry : BinEntry) (response : Response) : SyncError :=
  .protocol [.text "RESTORE 失败 for key '".toList, .lossy entry.key,
    .text ("' (type: ".toList ++ entry.rdbType.debugName ++ "): ".toList),
    .lossy response.1]

def sendSelect (db : Nat) : OutM Unit := do
  let response ← sendCommand (selectCommand db)
  if ¬ containsOk response then
    throw (.err (selectFailed response))

/-- `send_restore_command`. An entry without a payload is logged and passed
over. -/
def sendRestoreCommand (entry : BinEntry) (rdbVersion : Nat) : OutM Unit := do
  match generateDumpPayload entry rdbVersion with
  | none => pure ()
  | some dumpPayload =>
    let now ← systemTimeNow
    let response ← sendCommand (restoreCommand entry dumpPayload now)
    if ¬ containsOk response then
      throw (.err (restoreFailed entry response))

/-! ## The RDB -/

/-- The loop that reads all the data. It ends at the first read of no bytes. -/
def readAll : List (Except IoErrorKind Bytes) → Except SyncError Bytes
  | [] => .ok []
  | .error kind :: _ => .error (.io kind)
  | .ok bs :: reads =>
      if bs = [] then .ok [] else (readAll reads).map (bs ++ ·)

/-- The callback of `send_rdb_data`. -/
def pushEntry (entry : BinEntry) : EStateM (Fault SyncError) (List BinEntry) Unit :=
  fun entries => .ok () (entries ++ [entry])

/-- The data parsed, with the entries the callback has collected. -/
def parseEntries (rdbData : Bytes) :
    EStateM.Result (Fault SyncError) (RdbParser (List BinEntry)) (List RdbAuxField) :=
  parse pushEntry (RdbParser.new rdbData [])

/-- The version for the payloads. -/
def dumpVersion (rdbVersion : Nat) : Nat :=
  if 0 < rdbVersion then rdbVersion % 2 ^ 16 else 9

/-- The loop over the entries, from the database the connection is in. -/
def sendEntries (rdbVersion : Nat) : Nat → List BinEntry → OutM Unit
  | _, [] => pure ()
  | currentDb, entry :: entries => do
    if entry.db ≠ currentDb then
      sendSelect entry.db
    sendRestoreCommand entry rdbVersion
    sendEntries rdbVersion entry.db entries

/-- `send_rdb_data`, for a reader of this size. -/
def sendRdbData (size : Option Int) (reads : List (Except IoErrorKind Bytes)) :
    OutM Int := do
  let rdbSize := size.getD 0
  match readAll reads with
  | .error e => throw (.err e)
  | .ok [] => pure 0
  | .ok rdbData =>
    match parseEntries rdbData with
    | .error (.err _) _ =>
      -- So that the offset moves on and the commands start at the right place.
      pure rdbSize
    | .error fault _ => throw fault
    | .ok _ parser => do
      sendEntries (dumpVersion parser.state.version) 0 parser.sink
      pure rdbSize

end RedisHaTool.Syncer
