import RedisHaTool.Lib.Scans
import RedisHaTool.Rdb.StreamFormat

/-!
# The fields read of a stream

What `read_stream_value` takes for a stream, as a language over fields: lengths,
strings, ids and blocks of bytes. It is not the format of `Rdb.StreamFormat`: there
is no number of entries after the listpacks, and the consumers of the second
version have an active time. A length may be an integer in its place, which counts
nothing.

A field that cannot be read does not make the method fail: it answers there, with
what is before the field taken, and of the field as much as is said here.
-/

namespace RedisHaTool.Rdb

open Lib

/-! ## Fields -/

/-- A length, or an integer in its place: a first byte and as many bytes after it as
`size` says. -/
inductive AnyLen (size : UInt8 → Option Nat) where
  | len (l : Len)
  | int (first : UInt8) (data : Bytes) (h : size first = some data.length)

def AnyLen.bytes {size : UInt8 → Option Nat} : AnyLen size → Bytes
  | .len l => l.bytes
  | .int first data _ => first :: data

/-- Where `read_length` reads there is no integer. -/
def noInt (_ : UInt8) : Option Nat := none

/-- Where `read_length_with_encoding` reads there are these. -/
def encodedInt (first : UInt8) : Option Nat :=
  if first = 0xC0 then some 1
  else if first = 0xC1 then some 2
  else if first = 0xC2 ∨ first = 0x82 then some 4
  else none

/-- The length that `read_length_with_encoding` answers. -/
def AnyLen.counted : AnyLen encodedInt → Nat
  | .len l => l.val
  | .int .. => 0

inductive StreamField where
  | length (l : AnyLen encodedInt)
  | string (s : RdbString)
  /-- The id a listpack is under. -/
  | id (s : {s : RdbString // s.value.length = 16})
  | block (n : Nat) (bs : Block n)

def StreamField.bytes : StreamField → Bytes
  | .length l => l.bytes
  | .string s => s.bytes
  | .id s => s.1.bytes
  | .block _ bs => bs.1

/-! ## Fields that cannot be read -/

/-- There is no length: the input ends in one, or the first byte begins none. -/
inductive NoLength (size : UInt8 → Option Nat) : Bytes → Bytes → Prop where
  | cut (l : AnyLen size) {taken : Bytes} (h : taken <+: l.bytes) (hne : taken ≠ l.bytes) :
      NoLength size taken []
  | first {b : UInt8} (left : Bytes) (h : 0x81 < b) (hint : size b = none) :
      NoLength size [b] left

/-- There is no string: the input ends in one, the first byte begins none, or a
length of a compressed string is none. -/
inductive NoString : Bytes → Bytes → Prop where
  | cut (s : RdbString) {taken : Bytes} (h : taken <+: s.bytes) (hne : taken ≠ s.bytes) :
      NoString taken []
  /-- The input ends in the length, which may be greater than that of any string. -/
  | lengthCut {ds : Bytes} (h : ds.length < 8) : NoString (0x81 :: ds) []
  | first {b : UInt8} (left : Bytes) (h : 0x81 < b ∧ b < 0xC0 ∨ 0xC3 < b) : NoString [b] left
  | compressedLen {taken left : Bytes} (h : NoLength noInt taken left) :
      NoString (0xC3 :: taken) left
  | originalLen (c : Len) {taken left : Bytes} (h : NoLength noInt taken left) :
      NoString (0xC3 :: c.bytes ++ taken) left

/-- The beginning of a string that declares more bytes than a buffer can have. -/
inductive HugeString : Bytes → Prop where
  | plain (l : Len) (h : isizeMax < l.val) : HugeString l.bytes
  | compressed (c o : Len) (h : isizeMax < c.val) : HugeString (0xC3 :: c.bytes ++ o.bytes)

/-- A field like this one cannot be read. A string that is too long for a buffer is
a panic, and an id may be a string of another length. -/
def StreamField.Stops : StreamField → Fault Unit → Bytes → Bytes → Prop
  | .length _, .err _, taken, left => NoLength encodedInt taken left
  | .string _, .err _, taken, left => NoString taken left
  | .string _, .panic, taken, _ => HugeString taken
  | .id _, .err _, taken, left =>
      NoString taken left ∨ ∃ s : RdbString, s.value.length ≠ 16 ∧ taken = s.bytes
  | .id _, .panic, taken, _ => HugeString taken
  | .block n _, .err _, taken, left => left = [] ∧ taken.length < n
  | _, _, _, _ => False

def streamFormat : FieldFormat StreamField where
  bytes := StreamField.bytes
  Stops := StreamField.Stops

/-! ## What is read one after the other -/

def lengthField : Language StreamField := oneOf .length

def stringField : Language StreamField := oneOf .string

def idField : Language StreamField := oneOf .id

def blockField (n : Nat) : Language StreamField := oneOf (.block n)

/-- A count, and what is counted. -/
def countedFields (item : Language StreamField) : Language StreamField :=
  {fs | ∃ l gs, gs ∈ item ^ l.counted ∧ fs = .length l :: gs}

def consumerFields (rdbType : RdbType) : Language StreamField :=
  stringField * blockField 8 * blockField 8 ^ ifSo (hasStreamMetadata rdbType) 1
    * countedFields (blockField 16)

def groupFields (rdbType : RdbType) : Language StreamField :=
  stringField * lengthField ^ 2 * lengthField ^ ifSo (hasStreamMetadata rdbType) 1
    * countedFields (blockField 16 * blockField 8 * lengthField)
    * countedFields (consumerFields rdbType)

def streamFields (rdbType : RdbType) : Language StreamField :=
  countedFields (idField * stringField) * lengthField ^ 2
    * lengthField ^ ifSo (hasStreamMetadata rdbType) 5 * countedFields (groupFields rdbType)

/-- What is taken for a stream if this is left: all of the fields, or those before
one that cannot be read and what is taken of that. -/
def StreamTaken (rdbType : RdbType) (taken left : Bytes) : Prop :=
  (∃ fs ∈ streamFields rdbType, taken = streamFormat.allBytes fs) ∨
    streamFormat.StopsIn (streamFields rdbType) (.err ()) taken left

/-- The fields come to a string that is too long. -/
def StreamTooLong (rdbType : RdbType) (bs : Bytes) : Prop :=
  ∃ taken left, bs = taken ++ left ∧
    streamFormat.StopsIn (streamFields rdbType) .panic taken left

/-- Where a complete stream stands it is just what is taken; and where none does,
there is a string that is too long. -/
structure MeetsStream (rdbType : RdbType) (bs : Bytes) : Prop where
  whole : ∀ (v : StreamValue rdbType) rest, bs = v.bytes ++ rest →
    StreamTaken rdbType v.bytes rest
  only : (∃ rest, BeginsWithStream rdbType bs rest) ∨ StreamTooLong rdbType bs

end RedisHaTool.Rdb
