import RedisHaTool.Lib.Run
import RedisHaTool.Syncer.Input

/-!
# The heartbeat

`receive_aof_stream` of `syncer/input.rs` with its clock. Before each read the
loop sends a `REPLCONF ACK` if ten seconds have gone by since the last one, and
the read gives up after a second. What the clock shows, how long things take and
what the socket and the disk answer is told by the round; an instant is a number
of nanoseconds.
-/

namespace RedisHaTool.Syncer

open Lib

/-- `Duration::from_secs`. -/
def fromSecs (secs : Nat) : Nat := secs * 1000000000

def ackInterval : Nat := fromSecs 10

def readTimeout : Nat := fromSecs 1

/-- How storing what was read ends. -/
inductive Storing where
  | stored
  | writeFails (kind : IoErrorKind)
  | flushFails (kind : IoErrorKind)
  deriving DecidableEq, Repr

/-- How a round ends. -/
inductive ReadResult where
  | timedOut
  | closed
  /-- A read that fails, with the text of the error. -/
  | failed (error : Text)
  | bytes (bs : TcpRead) (storing : Storing)

/-- One round of the loop: how long an acknowledgement takes and whether it is
sent, should one be due, and how long the rest takes and what it gives. -/
structure Round where
  ackTook : Nat
  ackSent : Bool
  took : Nat
  result : ReadResult

inductive HeartbeatEvent where
  | op (op : InputOp)
  /-- `send_replconf_ack`, and whether it succeeds. -/
  | ack (now : Nat) (offset : Int) (sent : Bool)

structure Heartbeat where
  initialOffset : Int
  now : Nat
  lastAckTime : Nat
  received : Int
  log : List HeartbeatEvent
  /-- How the loop was left, once it was. -/
  ended : Option (Fault SyncError)

/-- Before the first round. -/
def Heartbeat.start (runId : Text) (initialOffset : Int) (now : Nat) : Heartbeat :=
  { initialOffset, now, lastAckTime := now, received := 0,
    log := [.op (.getAofWriter runId initialOffset)], ended := none }

/-- The check at the head of the loop. The last time is the one it was checked
at, however long sending takes, and whether it succeeds makes no difference. -/
def Heartbeat.checkAck (h : Heartbeat) (took : Nat) (sent : Bool) : Heartbeat :=
  if ackInterval ≤ h.now - h.lastAckTime then
    let currentOffset := h.initialOffset + h.received
    if IsI64 currentOffset then
      { h with
        now := h.now + took, lastAckTime := h.now,
        log := h.log ++ [.ack h.now currentOffset sent] }
    else { h with ended := some .panic }
  else h

/-- What the loop does with what a read gives. -/
def Heartbeat.take (h : Heartbeat) : ReadResult → Heartbeat
  | .timedOut => h
  | .closed =>
      { h with
        ended := some (.err (.protocolText ("AOF 流连接断开（对端关闭），已接收 ".toList
          ++ intToString h.received ++ " 字节".toList))) }
  | .failed error =>
      { h with
        ended := some (.err (.protocolText ("AOF 流读取异常: ".toList ++ error
          ++ "（已接收 ".toList ++ intToString h.received ++ " 字节）".toList))) }
  | .bytes _ (.writeFails kind) => { h with ended := some (.err (.io kind)) }
  | .bytes bs (.flushFails kind) =>
      { h with log := h.log ++ [.op (.writeAof bs.val)], ended := some (.err (.io kind)) }
  | .bytes bs .stored =>
      let received := h.received + bs.val.length
      let log := h.log ++ [.op (.writeAof bs.val), .op .flushAof]
      if IsI64 (h.initialOffset + received) then
        { h with received, log := log ++ [.op (.storePsyncOffset (h.initialOffset + received))] }
      else { h with received, log, ended := some .panic }

/-- One time through the loop, which is left at its head if the offset overflows
there. -/
def Heartbeat.round (h : Heartbeat) (r : Round) : Heartbeat :=
  let h := h.checkAck r.ackTook r.ackSent
  if h.ended.isSome then h else { h with now := h.now + r.took }.take r.result

/-- A read does not give up before its time. -/
def Round.possible (r : Round) : Bool :=
  match r.result with
  | .timedOut => readTimeout ≤ r.took
  | _ => true

def Heartbeat.step (h : Heartbeat) (r : Round) : Option Heartbeat :=
  if h.ended = none ∧ r.possible = true then some (h.round r) else none

end RedisHaTool.Syncer
