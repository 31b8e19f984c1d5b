import RedisHaTool.Rdb.Format

/-!
# Two more collections

The values of types 18 and 3 as the format has them, which `Rdb.Format` leaves
out. A node of the one has a number for its container before its string, and a
score of the other is written in characters. The parser reads them with the
methods for types 14 and 5, whose nodes have no container and whose scores have
eight bytes.
-/

namespace RedisHaTool.Rdb

open Lib

/-- A score in characters, or one of three bytes that stand alone. -/
inductive Score where
  | number (chars : Bytes) (fits : chars.length < 253) (ascii : ∀ c ∈ chars, c < 128)
  | nan
  | posInf
  | negInf

def Score.bytes : Score → Bytes
  | .number chars _ _ => UInt8.ofNat chars.length :: chars
  | .nan => [253]
  | .posInf => [254]
  | .negInf => [255]

/-- A counted sequence of any length. -/
structure Sequence (α : Type) where
  count : Len
  items : List α
  counts : count.val = items.length

def Sequence.bytes {α : Type} (enc : α → Bytes) (s : Sequence α) : Bytes :=
  s.count.bytes ++ s.items.flatMap enc

/-- The value of a quicklist with containers, or of a sorted set whose scores are
in characters. -/
inductive Collection where
  | quicklist2 (nodes : Sequence (Len × RdbString))
  | sortedSet (members : Sequence (RdbString × Score))

def nodeBytes (n : Len × RdbString) : Bytes := n.1.bytes ++ n.2.bytes

def scoredBytes (m : RdbString × Score) : Bytes := m.1.bytes ++ m.2.bytes

def Collection.bytes : Collection → Bytes
  | .quicklist2 nodes => nodes.bytes nodeBytes
  | .sortedSet members => members.bytes scoredBytes

def Collection.rdbType : Collection → RdbType
  | .quicklist2 _ => .quicklist2
  | .sortedSet _ => .sortedSet

/-- The type the parser takes it for. -/
def Collection.readAs : Collection → RdbType
  | .quicklist2 _ => .quicklist
  | .sortedSet _ => .sortedSet2

/-- `read_value` takes the bytes of the value, and keeps them. -/
def Collection.ReadWhole (c : Collection) (rest : Bytes) : Prop :=
  ∃ value, readValue c.rdbType (c.bytes ++ rest) = .ok (value, c.bytes) rest

/-- The bytes are those of a value of the type it is taken for as well. -/
def Collection.Ambiguous (c : Collection) : Prop :=
  ∃ v : Value, v.rdbType = c.readAs ∧ v.bytes = c.bytes

end RedisHaTool.Rdb
