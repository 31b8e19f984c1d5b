import RedisHaTool.Error

/-!
# RDB types

`protocol/rdb/types.rs`: the type byte of a value, the entry the parser hands to
its callback, and the state the parser carries from one record to the next.

A `SystemTime` is the number of nanoseconds since `UNIX_EPOCH`; the parser adds
milliseconds or seconds to the epoch and nothing it can read overflows.
-/

namespace RedisHaTool.Rdb

open Lib

def rdbMagic : Bytes := asBytes "REDIS".toList

inductive RdbType where
  | string
  | list
  | set
  | sortedSet
  | hash
  | sortedSet2
  | hashZipmap
  | listZiplist
  | setIntset
  | sortedSetZiplist
  | hashZiplist
  | quicklist
  | streamListpacks
  | hashListpack
  | sortedSetListpack
  | quicklist2
  | streamListpacks2
  | setListpack
  | streamListpacks3
  | module
  | module2
  deriving DecidableEq, Repr

/-- `rdb_type as u8`. -/
def RdbType.toByte : RdbType → UInt8
  | .string => 0
  | .list => 1
  | .set => 2
  | .sortedSet => 3
  | .hash => 4
  | .sortedSet2 => 5
  | .hashZipmap => 9
  | .listZiplist => 10
  | .setIntset => 11
  | .sortedSetZiplist => 12
  | .hashZiplist => 13
  | .quicklist => 14
  | .streamListpacks => 15
  | .hashListpack => 16
  | .sortedSetListpack => 17
  | .quicklist2 => 18
  | .streamListpacks2 => 19
  | .setListpack => 20
  | .streamListpacks3 => 21
  | .module => 6
  | .module2 => 22

def RdbType.fromByte (byte : UInt8) : Option RdbType :=
  match byte.toNat with
  | 0 => some .string
  | 1 => some .list
  | 2 => some .set
  | 3 => some .sortedSet
  | 4 => some .hash
  | 5 => some .sortedSet2
  | 6 => some .module
  | 9 => some .hashZipmap
  | 10 => some .listZiplist
  | 11 => some .setIntset
  | 12 => some .sortedSetZiplist
  | 13 => some .hashZiplist
  | 14 => some .quicklist
  | 15 => some .streamListpacks
  | 16 => some .hashListpack
  | 17 => some .sortedSetListpack
  | 18 => some .quicklist2
  | 19 => some .streamListpacks2
  | 20 => some .setListpack
  | 21 => some .streamListpacks3
  | 22 => some .module2
  | _ => none

@[simp] theorem RdbType.fromByte_toByte (t : RdbType) :
    RdbType.fromByte t.toByte = some t := by
  cases t <;> rfl

/-- `{:?}` of a type. -/
def RdbType.debugName : RdbType → Text
  | .string => "String".toList
  | .list => "List".toList
  | .set => "Set".toList
  | .sortedSet => "SortedSet".toList
  | .hash => "Hash".toList
  | .sortedSet2 => "SortedSet2".toList
  | .hashZipmap => "HashZipmap".toList
  | .listZiplist => "ListZiplist".toList
  | .setIntset => "SetIntset".toList
  | .sortedSetZiplist => "SortedSetZiplist".toList
  | .hashZiplist => "HashZiplist".toList
  | .quicklist => "Quicklist".toList
  | .streamListpacks => "StreamListpacks".toList
  | .hashListpack => "HashListpack".toList
  | .sortedSetListpack => "SortedSetListpack".toList
  | .quicklist2 => "Quicklist2".toList
  | .streamListpacks2 => "StreamListpacks2".toList
  | .setListpack => "SetListpack".toList
  | .streamListpacks3 => "StreamListpacks3".toList
  | .module => "Module".toList
  | .module2 => "Module2".toList

abbrev SystemTime := Nat

/-- `UNIX_EPOCH + Duration::from_millis(ms)`. -/
def epochPlusMillis (ms : Nat) : SystemTime := ms * 1000000

/-- `UNIX_EPOCH + Duration::from_secs(s)`. -/
def epochPlusSecs (s : Nat) : SystemTime := s * 1000000000

structure BinEntry where
  db : Nat
  key : Bytes
  value : Bytes
  rawValue : Option Bytes
  expire : Option SystemTime
  rdbType : RdbType
  deriving DecidableEq, Repr

structure RdbAuxField where
  key : Bytes
  value : Bytes
  deriving DecidableEq, Repr

/-- `RdbParserState`. The run id is kept as the bytes it is the lossy decoding
of. -/
structure RdbParserState where
  currentDb : Nat
  currentExpire : Option SystemTime
  eofReached : Bool
  version : Nat
  runId : Option Bytes
  deriving DecidableEq, Repr

def RdbParserState.default : RdbParserState :=
  { currentDb := 0, currentExpire := none, eofReached := false, version := 0,
    runId := none }

end RedisHaTool.Rdb
