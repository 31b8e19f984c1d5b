import RedisHaTool.Rdb.Collections

/-!
# Streams in the file

A stream as Redis writes it, for each of the three types: listpacks with the id
of their first entry, the number of entries, ids that the second version has
more of, and the consumer groups.
-/

namespace RedisHaTool.Rdb

open Lib

def RdbType.isStream : RdbType → Bool
  | .streamListpacks | .streamListpacks2 | .streamListpacks3 => true
  | _ => false

/-- So many bytes. -/
abbrev Block (n : Nat) := {bs : Bytes // bs.length = n}

/-- So many lengths, one after the other. -/
abbrev Lens (n : Nat) := {ls : List Len // ls.length = n}

def Lens.bytes {n : Nat} (ls : Lens n) : Bytes := ls.1.flatMap Len.bytes

/-- How many fields there are of a kind that only some types have. -/
def ifSo (c : Bool) (n : Nat) : Nat := if c then n else 0

/-- A consumer: its name, when it was seen and, in the third version, active, and
the ids it has pending. -/
structure StreamConsumer (rdbType : RdbType) where
  name : RdbString
  seenTime : Block 8
  activeTime : Block (ifSo (rdbType = .streamListpacks3) 8)
  pending : Sequence (Block 16)

def StreamConsumer.bytes {rdbType : RdbType} (c : StreamConsumer rdbType) : Bytes :=
  c.name.bytes ++ c.seenTime.1 ++ c.activeTime.1 ++ c.pending.bytes Subtype.val

/-- A pending entry: its id, when it was delivered, and how often. -/
structure StreamPending where
  id : Block 16
  deliveryTime : Block 8
  deliveryCount : Len

def StreamPending.bytes (e : StreamPending) : Bytes :=
  e.id.1 ++ e.deliveryTime.1 ++ e.deliveryCount.bytes

structure StreamGroup (rdbType : RdbType) where
  name : RdbString
  lastId : Lens 2
  entriesRead : Lens (ifSo (hasStreamMetadata rdbType) 1)
  pending : Sequence StreamPending
  consumers : Sequence (StreamConsumer rdbType)

def StreamGroup.bytes {rdbType : RdbType} (g : StreamGroup rdbType) : Bytes :=
  g.name.bytes ++ g.lastId.bytes ++ g.entriesRead.bytes
    ++ g.pending.bytes StreamPending.bytes ++ g.consumers.bytes StreamConsumer.bytes

/-- A listpack, under a string of sixteen bytes. -/
structure StreamListpack where
  key : {s : RdbString // s.value.length = 16}
  listpack : RdbString

def StreamListpack.bytes (l : StreamListpack) : Bytes := l.key.1.bytes ++ l.listpack.bytes

/-- A complete stream. From the second version on the last id is followed by the
first one, the greatest deleted one and the number of entries ever added. -/
structure StreamValue (rdbType : RdbType) where
  listpacks : Sequence StreamListpack
  entries : Len
  lastId : Lens 2
  metadata : Lens (ifSo (hasStreamMetadata rdbType) 5)
  groups : Sequence (StreamGroup rdbType)

def StreamValue.bytes {rdbType : RdbType} (v : StreamValue rdbType) : Bytes :=
  v.listpacks.bytes StreamListpack.bytes ++ v.entries.bytes ++ v.lastId.bytes
    ++ v.metadata.bytes ++ v.groups.bytes StreamGroup.bytes

/-- A complete stream stands before `rest`. -/
def BeginsWithStream (rdbType : RdbType) (bs rest : Bytes) : Prop :=
  ∃ v : StreamValue rdbType, bs = v.bytes ++ rest

/-- `read_stream_value` answers exactly where a complete stream stands, and has
then taken it. -/
structure ReadsStream (rdbType : RdbType) (bs : Bytes) : Prop where
  answers : (∃ value rest, readStreamValue rdbType bs = .ok value rest) ↔
    ∃ rest, BeginsWithStream rdbType bs rest
  takes : ∀ rest, BeginsWithStream rdbType bs rest →
    ∃ value, readStreamValue rdbType bs = .ok value rest

end RedisHaTool.Rdb
