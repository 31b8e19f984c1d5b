import RedisHaTool.Checkpoint.Manager
import RedisHaTool.Resp.Value

/-!
# The input

`syncer/input.rs`: the replica's side of the connection to the source, from the
`PSYNC` command to the stream of commands that follows the reply.

What the task does depends only on what it reads from the socket and on
`psync_offset`, which nobody else stores to. So it is a computation whose result
is the list of its effects on the rest of the program, in order; the leader then
takes these effects one by one, with everything else that may happen in between.
The effects of a task that fails or panics are the ones it had before.

Connecting and authenticating come before all of this and are left out. The
heartbeat, which only the source sees, is in `Heartbeat.lean`.
-/

namespace RedisHaTool.Syncer

open Lib Store Checkpoint Resp

/-! ## The socket -/

/-- The bytes one read of the socket answers. A `BufReader` reads into its own
buffer or into the caller's, 8192 bytes either way. -/
abbrev TcpRead := {bs : Bytes // bs ≠ [] ∧ bs.length ≤ 8192}

/-- `BufReader<TcpStream>`, over the reads that are still to come; after the
last one the peer has closed the connection. -/
structure BufReader where
  buffer : Bytes
  incoming : List TcpRead

/-- Everything that can still be read. -/
def BufReader.pending (r : BufReader) : Bytes :=
  r.buffer ++ r.incoming.flatMap Subtype.val

/-- `fill_buf`: the socket is read only when the buffer is empty. -/
def BufReader.fillBuf (r : BufReader) : BufReader :=
  match r.buffer, r.incoming with
  | [], bs :: incoming => { buffer := bs.val, incoming }
  | _, _ => r

/-- `read` into a buffer of `max` bytes, no bytes at the end of the stream. -/
def BufReader.read (r : BufReader) (max : Nat) : Bytes × BufReader :=
  let r := r.fillBuf
  (r.buffer.take max, { r with buffer := r.buffer.drop max })

/-- The bytes up to the first line feed, and those after it. -/
def splitLine : Bytes → Option (Bytes × Bytes)
  | [] => none
  | b :: bs =>
      if b = 10 then some ([b], bs)
      else (splitLine bs).map fun (line, rest) => (b :: line, rest)

/-- `read_until(b'\n')`, from what is buffered and then read by read. -/
def readUntilLf (buffer : Bytes) (incoming : List TcpRead) : Bytes × BufReader :=
  match splitLine buffer with
  | some (line, rest) => (line, { buffer := rest, incoming })
  | none =>
      match incoming with
      | [] => (buffer, { buffer := [], incoming := [] })
      | bs :: incoming =>
          let (line, r) := readUntilLf bs.val incoming
          (buffer ++ line, r)

/-! ## Effects -/

/-- What the input task does to the rest of the program. -/
inductive InputOp where
  | storePsyncOffset (offset : Int)
  | setMasterReplid (masterReplid : Text)
  | sendSource (bytes : Bytes)
  | getRdbWriter (runId : Text) (offset size : Int)
  | writeRdb (bytes : Bytes)
  | flushRdb
  | notifyReady
  | getAofWriter (runId : Text) (offset : Int)
  | writeAof (bytes : Bytes)
  | flushAof
  deriving DecidableEq, Repr

structure InputState where
  reader : BufReader
  psyncOffset : Int
  ops : List InputOp

abbrev InputM := EStateM (Fault SyncError) InputState

def emit (op : InputOp) : InputM Unit := fun s => .ok () { s with ops := s.ops ++ [op] }

def storePsyncOffset (offset : Int) : InputM Unit := fun s =>
  .ok () { s with psyncOffset := offset, ops := s.ops ++ [.storePsyncOffset offset] }

def loadPsyncOffset : InputM Int := fun s => .ok s.psyncOffset s

def read (max : Nat) : InputM Bytes := fun s =>
  let (bs, reader) := s.reader.read max
  .ok bs { s with reader }

/-- `read_line` into an empty string. -/
def readLine : InputM Text := fun s =>
  let (bs, reader) := readUntilLf s.reader.buffer s.reader.incoming
  match fromUtf8 bs with
  | some line => .ok line { s with reader }
  | none => .error (.err (.io .other)) { s with reader }

/-- An `i64` sum or difference. -/
def checkedI64 (n : Int) : InputM Int := if IsI64 n then pure n else throw .panic

def failWith {α : Type} (text : Text) : InputM α := throw (.err (.protocolText text))

/-! ## The input -/

/-- `RedisInput`, without the handles it shares with the leader. -/
structure RedisInput where
  runId : Text
  initialMasterReplid : Text
  initialMasterOffset : Int
  deriving DecidableEq, Repr

/-- The `RedisInput` that `main` makes: the checkpoint of the id the source
reports, if there is one, and `PSYNC ? -1` if there is none or it cannot be
read. -/
def RedisInput.start (runId : Text) (checkpoints : Hashes) (sourceReplid : Text) :
    RedisInput :=
  let fullSync : RedisInput :=
    { runId, initialMasterReplid := [], initialMasterOffset := -1 }
  if sourceReplid = [] then fullSync
  else match getPsyncInfo checkpoints sourceReplid with
    | .ok (some offset) =>
        { runId, initialMasterReplid := sourceReplid, initialMasterOffset := offset }
    | .ok none | .error _ => fullSync

def psyncCommand (replid : Text) (offset : Text) : Bytes :=
  encodeCommandStr "PSYNC".toList [replid, offset]

def RedisInput.sendPsyncCommand (self : RedisInput) : InputM Unit := do
  let (cmd, replid, offset) :=
    if self.initialMasterReplid ≠ [] then
      (psyncCommand self.initialMasterReplid (intToString self.initialMasterOffset),
        self.initialMasterReplid, self.initialMasterOffset)
    else (psyncCommand "?".toList "-1".toList, "?".toList, -1)
  if replid ≠ "?".toList then
    emit (.setMasterReplid replid)
    storePsyncOffset offset
  emit (.sendSource cmd)

/-- The text of a `ParseIntError` for a signed type. -/
def parseIntError (t : Text) : Text :=
  if t = [] then "cannot parse integer from empty string".toList
  else match signedValue t with
    | none => "invalid digit found in string".toList
    | some n =>
        if n < 0 then "number too small to fit in target type".toList
        else "number too large to fit in target type".toList

/-- The receiving loop of `receive_rdb_data`. -/
def receiveRdbLoop (rdbSize : Int) : Nat → Int → InputM Unit
  | 0, _ => throw .fuel
  | fuel + 1, received =>
      if received < rdbSize then do
        let bs ← read (min 8192 (rdbSize - received)).toNat
        if bs = [] then
          failWith "连接关闭，RDB 数据接收未完成".toList
        emit (.writeRdb bs)
        receiveRdbLoop rdbSize fuel (received + bs.length)
      else pure ()

/-- Every round of a receiving loop takes a byte or ends it, so what can still
be read is budget enough. -/
def withInputFuel {α : Type} (loop : Nat → InputM α) : InputM α := fun s =>
  loop (s.reader.pending.length + 1) s

def RedisInput.receiveRdbData (self : RedisInput) (masterOffset : Int) : InputM Int := do
  let line ← readLine
  match trim line with
  | '$' :: size =>
    let sizeStr := trim size
    match parseI64 sizeStr with
    | none => failWith ("解析 RDB 大小失败: ".toList ++ parseIntError sizeStr)
    | some rdbSize =>
      if rdbSize ≤ 0 then
        failWith "RDB 大小无效".toList
      let rdbOffset ← checkedI64 (masterOffset - rdbSize)
      emit (.getRdbWriter self.runId rdbOffset rdbSize)
      withInputFuel fun fuel => receiveRdbLoop rdbSize fuel 0
      emit .flushRdb
      pure rdbSize
  | line => failWith ("无效的 RDB 响应头: ".toList ++ line)

def sendReplconfAck (offset : Int) : InputM Unit :=
  emit (.sendSource
    (encodeCommandStr "REPLCONF".toList ["ACK".toList, intToString offset]))

/-- The loop of `receive_aof_stream`. A read that times out changes nothing. -/
def receiveAofLoop (initialOffset : Int) : Nat → Int → InputM Unit
  | 0, _ => throw .fuel
  | fuel + 1, received => do
      let bs ← read 8192
      if bs = [] then
        failWith ("AOF 流连接断开（对端关闭），已接收 ".toList ++ intToString received
          ++ " 字节".toList)
      emit (.writeAof bs)
      emit .flushAof
      let received := received + bs.length
      let currentOffset ← checkedI64 (initialOffset + received)
      storePsyncOffset currentOffset
      receiveAofLoop initialOffset fuel received

def RedisInput.receiveAofStream (self : RedisInput) (initialOffset : Int) :
    InputM Unit := do
  emit (.getAofWriter self.runId initialOffset)
  withInputFuel fun fuel => receiveAofLoop initialOffset fuel 0

/-- What a `+FULLRESYNC` line changes: nothing, unless it has three words and
the third is a number. -/
def acceptFullResync (response : Text) : InputM Unit :=
  match splitWhitespace response with
  | _ :: masterReplid :: offsetStr :: _ =>
      match parseI64 offsetStr with
      | some offset => do
          storePsyncOffset offset
          emit (.setMasterReplid masterReplid)
      | none => pure ()
  | _ => pure ()

def RedisInput.handlePsyncResponse (self : RedisInput) : InputM Unit := do
  let firstLine ← readLine
  let response := trim firstLine
  if "+FULLRESYNC".toList <+: response then
    acceptFullResync response
    let masterOffset ← loadPsyncOffset
    let _rdbSize ← self.receiveRdbData masterOffset
    let aofStartOffset := masterOffset
    sendReplconfAck aofStartOffset
    emit .notifyReady
    self.receiveAofStream aofStartOffset
  else if "+CONTINUE".toList <+: response then
    let offset ← loadPsyncOffset
    emit .notifyReady
    self.receiveAofStream offset
  else failWith ("未知的 PSYNC 响应: ".toList ++ response)

def RedisInput.run (self : RedisInput) : InputM Unit := do
  self.sendPsyncCommand
  self.handlePsyncResponse

/-- The effects of a computation, whichever way it ends. -/
def opsOf {α : Type} : EStateM.Result (Fault SyncError) InputState α → List InputOp
  | .ok _ s => s.ops
  | .error _ s => s.ops

/-- The effects of the task on a connection that answers these reads, started
when `psync_offset` holds this value. -/
def RedisInput.effects (self : RedisInput) (psyncOffset : Int)
    (incoming : List TcpRead) : List InputOp :=
  opsOf (self.run { reader := { buffer := [], incoming }, psyncOffset, ops := [] })

end RedisHaTool.Syncer
