import RedisHaTool.Lib.Reader
import RedisHaTool.Resp.Value

/-!
# The RESP decoder

`protocol/resp/decoder.rs`: a buffer that is fed chunks, and `decode`, which
takes one value off its front or answers `Ok(None)` when the buffer does not yet
hold a whole one. The state is the decoder itself, so what a call that answers
`Ok(None)` leaves behind is part of what is modelled: `decode_array` takes the
count line off the buffer before it knows whether the elements are all there.

Slices, `advance`, `usize` sums and `Vec::with_capacity` panic here where they
panic in Rust. The recursion through arrays runs on fuel; a nested array costs
the buffer at least a byte, so the length of the buffer is fuel enough.
-/

namespace RedisHaTool.Resp

open Lib

/-- `RespError`, without the variants nothing in the decoder raises. The text of
`InvalidInteger` is kept as the bytes it is the lossy decoding of. -/
inductive RespError where
  | invalidType (marker : UInt8)
  | invalidInteger (text : Bytes)
  | invalidLength (len : Int)
  | bufferOverflow (max actual : Nat)
  deriving DecidableEq, Repr

structure RespDecoder where
  buf : Bytes
  offset : Nat
  maxBufferSize : Nat
  deriving Repr

abbrev DecM := EStateM (Fault RespError) RespDecoder

/-- `RespDecoder::with_capacity`. The capacity is only a hint to the buffer. -/
def RespDecoder.withCapacity (_capacity maxBufferSize : Nat) : RespDecoder :=
  { buf := [], offset := 0, maxBufferSize }

def RespDecoder.new : RespDecoder :=
  RespDecoder.withCapacity 4096 (100 * 1024 * 1024)

def feed (data : Bytes) : DecM Unit := do
  let d ← get
  if d.buf.length + data.length > d.maxBufferSize then
    throw (.err (.bufferOverflow d.maxBufferSize (d.buf.length + data.length)))
  set { d with buf := d.buf ++ data }

/-- The index of the first CR LF pair. -/
def findCrlf : Bytes → Option Nat
  | a :: b :: bs =>
      if a = 13 ∧ b = 10 then some 0 else (findCrlf (b :: bs)).map (· + 1)
  | _ => none

/-- `find_line_end`: the first CR LF pair from `start` on. -/
def findLineEnd (buf : Bytes) (start : Nat) : Option Nat :=
  (findCrlf (buf.drop start)).map (· + start)

/-- `&buf[start..end]`. -/
def slice (bs : Bytes) (start stop : Nat) : DecM Bytes :=
  if start ≤ stop ∧ stop ≤ bs.length then pure ((bs.take stop).drop start)
  else throw .panic

/-- `offset += counted` and `buf.advance(taken)`. -/
def advance (counted taken : Nat) : DecM Unit := do
  let d ← get
  if d.buf.length < taken then throw .panic
  set { d with offset := d.offset + counted, buf := d.buf.drop taken }

/-- A `usize` sum. -/
def usize (n : Nat) : DecM Nat := if n < 2 ^ 64 then pure n else throw .panic

/-- `from_utf8(..)?.parse()?` as an `i64`, the two errors being one. -/
def parseNum (text : Bytes) : DecM Int :=
  match (fromUtf8 text).bind parseI64 with
  | some n => pure n
  | none => throw (.err (.invalidInteger text))

/-- The body `decode_simple_string` and `decode_error` share. -/
def decodeLine (mk : Bytes → RespValue) : DecM (Option RespValue) := do
  let d ← get
  match findLineEnd d.buf 1 with
  | none => pure none
  | some endPos =>
    let content ← slice d.buf 1 endPos
    -- The marker is counted twice: `endPos` already stands past it.
    advance (endPos + 2 + 1) (endPos + 2)
    pure (some (mk content))

def decodeSimpleString : DecM (Option RespValue) := decodeLine .simpleString

def decodeError : DecM (Option RespValue) := decodeLine .error

def decodeInteger : DecM (Option RespValue) := do
  let d ← get
  match findLineEnd d.buf 1 with
  | none => pure none
  | some endPos =>
    let numStr ← slice d.buf 1 endPos
    let num ← parseNum numStr
    advance (endPos + 2 + 1) (endPos + 2)
    pure (some (.integer num))

def decodeBulkString : DecM (Option RespValue) := do
  let d ← get
  match findLineEnd d.buf 1 with
  | none => pure none
  | some lenEndPos =>
    let lenStr ← slice d.buf 1 lenEndPos
    let len ← parseNum lenStr
    if len = -1 then
      advance (lenEndPos + 2 + 1) (lenEndPos + 2)
      pure (some .null)
    else if len < 0 then throw (.err (.invalidLength len))
    else
      let dataLen := len.toNat
      let totalLen ← usize (lenEndPos + 2 + dataLen + 2)
      if d.buf.length < totalLen then pure none
      else
        let dataStart := lenEndPos + 2
        let content ← slice d.buf dataStart (dataStart + dataLen)
        advance totalLen totalLen
        pure (some (.bulkString content))

/-- The loop of `decode_array`, pushing onto `elements`. -/
def decodeElements (tryDecode : DecM (Option RespValue)) :
    Nat → List RespValue → DecM (Option (List RespValue))
  | 0, elements => pure (some elements)
  | n + 1, elements => do
    match ← tryDecode with
    | some value => decodeElements tryDecode n (elements ++ [value])
    | none => pure none

def decodeArray (tryDecode : DecM (Option RespValue)) :
    DecM (Option RespValue) := do
  let d ← get
  match findLineEnd d.buf 1 with
  | none => pure none
  | some countEndPos =>
    let countStr ← slice d.buf 1 countEndPos
    let count ← parseNum countStr
    if count = -1 then
      advance (countEndPos + 2 + 1) (countEndPos + 2)
      pure (some .null)
    else if count < 0 then throw (.err (.invalidLength count))
    else
      advance (countEndPos + 2 + 1) (countEndPos + 2)
      -- `Vec::with_capacity(element_count)`
      if count.toNat * respValueSize > isizeMax then throw .panic
      match ← decodeElements tryDecode count.toNat [] with
      | some elements => pure (some (.array elements))
      | none => pure none

/-- The match of `try_decode` on the first byte. -/
def decodeMarked (tryDecode : DecM (Option RespValue)) (firstByte : UInt8) :
    DecM (Option RespValue) :=
  if firstByte = '+'.toUInt8 then decodeSimpleString
  else if firstByte = '-'.toUInt8 then decodeError
  else if firstByte = ':'.toUInt8 then decodeInteger
  else if firstByte = '$'.toUInt8 then decodeBulkString
  else if firstByte = '*'.toUInt8 then decodeArray tryDecode
  else throw (.err (.invalidType firstByte))

def tryDecode : Nat → DecM (Option RespValue)
  | 0 => throw .fuel
  | fuel + 1 => do
    let d ← get
    match d.buf with
    | [] => pure none
    | firstByte :: _ => decodeMarked (tryDecode fuel) firstByte

/-- `decode`: an error empties the buffer. -/
def decode : DecM (Option RespValue) := fun d =>
  if d.buf = [] then .ok none d
  else match tryDecode (d.buf.length + 1) d with
    | .error (.err e) d' => .error (.err e) { d' with buf := [] }
    | result => result

/-- Calling `decode` until it answers `Ok(None)`. -/
def drain : Nat → DecM (List RespValue)
  | 0 => throw .fuel
  | fuel + 1 => do
    match ← decode with
    | none => pure []
    | some v => do
      let vs ← drain fuel
      pure (v :: vs)

/-- The same with the fuel it needs: a value takes at least one byte. -/
def decodeAll : DecM (List RespValue) := fun d => drain (d.buf.length + 1) d

/-- Feeding chunks one by one and draining the decoder after each. -/
def feedAll : List Bytes → DecM (List RespValue)
  | [] => pure []
  | chunk :: chunks => do
    feed chunk
    let vs ← decodeAll
    let ws ← feedAll chunks
    pure (vs ++ ws)

end RedisHaTool.Resp
