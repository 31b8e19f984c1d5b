import RedisHaTool.Lib.Endian
import RedisHaTool.Rdb.Crc64
import RedisHaTool.Rdb.Types

/-!
# DUMP payloads

`protocol/rdb/dump.rs`: the serialized value a `RESTORE` command carries. It is
the type byte, the value as the file has it, the version of the file and a
checksum of all that.
-/

namespace RedisHaTool.Rdb

open Lib

/-- The payload before its checksum. -/
def dumpBody (rdbType : RdbType) (rawValue : Bytes) (rdbVersion : Nat) : Bytes :=
  rdbType.toByte :: rawValue ++ toLeBytes 2 rdbVersion

/-- `put_u64_le` of the checksum of what was put so far. -/
def withCrc (dumpData : Bytes) : Bytes :=
  dumpData ++ toLeBytes 8 (crc64 dumpData).toNat

/-- `generate_dump_payload`. There is none for an entry without an encoded
value. -/
def generateDumpPayload (entry : BinEntry) (rdbVersion : Nat) : Option Bytes :=
  match entry.rawValue with
  | none => none
  | some [] => none
  | some rawValue => some (withCrc (dumpBody entry.rdbType rawValue rdbVersion))

theorem generateDumpPayload_eq_none {entry : BinEntry} {rdbVersion : Nat} :
    generateDumpPayload entry rdbVersion = none ↔
      entry.rawValue = none ∨ entry.rawValue = some [] := by
  rw [generateDumpPayload]
  split
  case h_1 h => simp [h]
  case h_2 h => simp [h]
  case h_3 raw hne h => simpa [h] using hne

/-- What the source's test has the server answer to `DUMP` for `"hello"`. -/
example : generateDumpPayload
    { db := 0, key := asBytes "testkey".toList, value := asBytes "hello".toList,
      rawValue := some (5 :: asBytes "hello".toList), expire := none, rdbType := .string } 9
    = some [0, 5, 0x68, 0x65, 0x6c, 0x6c, 0x6f, 9, 0,
      0xb3, 0x80, 0x8e, 0xba, 0x31, 0xb2, 0x43, 0xbb] := by
  decide +kernel

end RedisHaTool.Rdb
