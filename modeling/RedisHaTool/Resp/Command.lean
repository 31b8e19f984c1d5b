import RedisHaTool.Resp.Value

/-!
# Commands as values

`as_command` of `protocol/resp/value.rs`, which takes an array apart into a
command's name and its arguments. The name is read with `from_utf8_lossy`; of
the other elements those are kept that are bulk strings.
-/

namespace RedisHaTool.Resp

open Lib

/-! ## Lossy text -/

/-- What may follow the first byte of a character: how many bytes, and the least
and the greatest that the first of them may be. -/
def afterLead (lead : UInt8) : Option (Nat × UInt8 × UInt8) :=
  if 0xC2 ≤ lead ∧ lead ≤ 0xDF then some (1, 0x80, 0xBF)
  else if lead = 0xE0 then some (2, 0xA0, 0xBF)
  else if lead = 0xED then some (2, 0x80, 0x9F)
  else if 0xE1 ≤ lead ∧ lead ≤ 0xEF then some (2, 0x80, 0xBF)
  else if lead = 0xF0 then some (3, 0x90, 0xBF)
  else if lead = 0xF4 then some (3, 0x80, 0x8F)
  else if 0xF1 ≤ lead ∧ lead ≤ 0xF3 then some (3, 0x80, 0xBF)
  else none

def isContinuation (b : UInt8) : Bool := 0x80 ≤ b && b ≤ 0xBF

/-- How many of the bytes after a first byte still belong to the character that
breaks off. -/
def brokenTail (lead : UInt8) (bs : Bytes) : Nat :=
  match afterLead lead, bs with
  | some (count, least, greatest), second :: rest =>
      if least ≤ second ∧ second ≤ greatest then
        1 + ((rest.take (count - 1)).takeWhile isContinuation).length
      else 0
  | _, _ => 0

/-- `String::from_utf8_lossy`: each character that breaks off becomes one
replacement character. -/
def fromUtf8Lossy : Bytes → Text
  | [] => []
  | b :: bs =>
      match (ByteArray.mk (b :: bs).toArray).utf8DecodeChar? 0 with
      | some c => c :: fromUtf8Lossy ((b :: bs).drop c.utf8Size)
      | none => Char.ofNat 0xFFFD :: fromUtf8Lossy (bs.drop (brokenTail b bs))
termination_by bs => bs.length
decreasing_by
  · have hpos := c.utf8Size_pos
    simp only [List.length_drop, List.length_cons]
    omega
  · simp only [List.length_drop, List.length_cons]
    omega

/-! ## Taking a command apart -/

def RespValue.asBulkString : RespValue → Option Bytes
  | .bulkString s => some s
  | _ => none

def RespValue.isBulkString (v : RespValue) : Bool := v.asBulkString.isSome

/-- `as_command`. The first element is the name. -/
def RespValue.asCommand : RespValue → Option (Text × List Bytes)
  | .array (name :: elements) =>
      name.asBulkString.map fun cmdName =>
        (fromUtf8Lossy cmdName, elements.filterMap RespValue.asBulkString)
  | _ => none

/-- The first element of an array is UTF-8, if it is a bulk string. -/
def RespValue.NameIsText : RespValue → Prop
  | .array (.bulkString cmdName :: _) => (fromUtf8 cmdName).isSome = true
  | _ => True

/-- The elements after the first. -/
def RespValue.arguments : RespValue → List RespValue
  | .array elements => elements.tail
  | _ => []

end RedisHaTool.Resp
