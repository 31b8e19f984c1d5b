import RedisHaTool.Syncer.Input

/-!
# Sessions

What a source sends on the connection a session has with it, and what the input
task then does. The source is told from the code by `Proofs.InputEffects`:
however its bytes are cut into reads, the effects of the task are the ones
listed here, up to where the pieces of the RDB file and of the stream begin and
end.

An offset that leaves the range of an `i64` panics the task, so the effects stop
there.
-/

namespace RedisHaTool.Syncer

open Lib Resp

/-- A replication id: Redis writes forty hexadecimal digits. -/
def IsReplid (id : Text) : Prop := IsWord id ∧ IsAscii id

/-- A session that begins with a full resynchronisation. -/
structure FullResync where
  masterReplid : Text
  masterOffset : Int
  rdb : Bytes
  aof : Bytes
  isReplid : IsReplid masterReplid
  isI64 : IsI64 masterOffset
  rdb_ne : rdb ≠ []
  rdb_length : rdb.length ≤ isizeMax

/-- The reply line, the RDB file as a bulk string without its end, and the
stream. -/
def FullResync.reply (f : FullResync) : Bytes :=
  asBytes ("+FULLRESYNC ".toList ++ f.masterReplid ++ ' ' ::
    intToString f.masterOffset ++ "\r\n".toList)
  ++ asBytes ('$' :: natToString f.rdb.length ++ "\r\n".toList)
  ++ f.rdb ++ f.aof

/-- A session that goes on where another ended. What may follow `+CONTINUE` in
its line is up to the source. -/
structure Continue where
  tail : Text
  aof : Bytes
  isAscii : IsAscii tail
  noLf : '\n' ∉ tail

def Continue.reply (c : Continue) : Bytes :=
  asBytes ("+CONTINUE".toList ++ c.tail ++ "\r\n".toList) ++ c.aof

/-- What a source answers to `PSYNC`. -/
inductive Answer where
  | fullResync (f : FullResync)
  | continues (c : Continue)

def Answer.reply : Answer → Bytes
  | .fullResync f => f.reply
  | .continues c => c.reply

/-- The stream that follows. -/
def Answer.aof : Answer → Bytes
  | .fullResync f => f.aof
  | .continues c => c.aof

/-- What `psync_offset` holds once the command is sent. -/
def RedisInput.requested (self : RedisInput) (psyncOffset : Int) : Int :=
  if self.initialMasterReplid ≠ [] ∧ self.initialMasterReplid ≠ "?".toList then
    self.initialMasterOffset
  else psyncOffset

/-- The offset at which the session's stream starts: the one a `+FULLRESYNC`
names, or else the one that was asked for. -/
def Answer.offset (self : RedisInput) : Answer → Int
  | .fullResync f => f.masterOffset
  | .continues _ => self.requested 0

/-! ## Effects -/

/-- What `send_psync_command` does. -/
def RedisInput.psyncEffects (self : RedisInput) : List InputOp :=
  if self.initialMasterReplid ≠ [] then
    (if self.initialMasterReplid ≠ "?".toList then
      [.setMasterReplid self.initialMasterReplid,
        .storePsyncOffset self.initialMasterOffset]
    else []) ++
    [.sendSource (psyncCommand self.initialMasterReplid
      (intToString self.initialMasterOffset))]
  else [.sendSource (psyncCommand "?".toList "-1".toList)]

/-- What receiving the stream does, piece by piece. -/
def aofEffects (initialOffset : Int) : Int → List Bytes → List InputOp
  | _, [] => []
  | received, piece :: pieces =>
      let received := received + piece.length
      [.writeAof piece, .flushAof] ++
        if IsI64 (initialOffset + received) then
          .storePsyncOffset (initialOffset + received)
            :: aofEffects initialOffset received pieces
        else []

/-- What `receive_aof_stream` does. -/
def streamEffects (runId : Text) (initialOffset : Int) (pieces : List Bytes) :
    List InputOp :=
  .getAofWriter runId initialOffset :: aofEffects initialOffset 0 pieces

def ackCommand (offset : Int) : Bytes :=
  encodeCommandStr "REPLCONF".toList ["ACK".toList, intToString offset]

/-- What follows a `+FULLRESYNC`. -/
def FullResync.effects (f : FullResync) (runId : Text)
    (rdbPieces aofPieces : List Bytes) : List InputOp :=
  [.storePsyncOffset f.masterOffset, .setMasterReplid f.masterReplid] ++
    if IsI64 (f.masterOffset - f.rdb.length) then
      .getRdbWriter runId (f.masterOffset - f.rdb.length) f.rdb.length
        :: rdbPieces.map .writeRdb
        ++ [.flushRdb, .sendSource (ackCommand f.masterOffset), .notifyReady]
        ++ streamEffects runId f.masterOffset aofPieces
    else []

/-- What follows a `+CONTINUE` when `psync_offset` holds this value. -/
def continueEffects (runId : Text) (psyncOffset : Int) (aofPieces : List Bytes) :
    List InputOp :=
  .notifyReady :: streamEffects runId psyncOffset aofPieces

def Answer.effects (self : RedisInput) (rdbPieces aofPieces : List Bytes) :
    Answer → List InputOp
  | .fullResync f => f.effects self.runId rdbPieces aofPieces
  | .continues _ => continueEffects self.runId (self.requested 0) aofPieces

end RedisHaTool.Syncer
