import RedisHaTool.Lib.Panics
import RedisHaTool.Rdb.Format
import RedisHaTool.Rdb.Records

/-!
# Where the parser reads strings

A string is read into a buffer of the length it declares, and no length is too
great for the methods that read one. The definitions here follow the methods of
the parser, each from where it starts to the places where it comes to a string.
-/

namespace RedisHaTool.Rdb

open Lib Place

/-- A string that declares more bytes than a buffer can have: as it is, or for
its compressed bytes. -/
def TooLong (bs : Bytes) : Prop :=
  ∃ (l : Len) (rest : Bytes), isizeMax < l.val ∧
    (bs = l.bytes ++ rest ∨ ∃ o : Len, bs = 0xC3 :: l.bytes ++ o.bytes ++ rest)

def auxStrings : Place Bytes := here.either (past readString here)

/-- A count that is within the limit, and the strings of each element. -/
def elementStrings (element : Rd Bytes) (strings : Place Bytes) : Place Bytes :=
  afterOk readLengthWithRaw fun (count, lenRaw) =>
    onlyIf (count ≤ 100000000) <| inRounds (fun raw => do
      let elemRaw ← element
      pure (raw ++ elemRaw)) count lenRaw strings

/-! ## Streams -/

/-- One listpack of `read_stream_value`: a string for its id, and itself. -/
def skipListpack : Rd Unit := do
  let streamId ← readString
  if streamId.length ≠ 16 then
    fail "Stream listpack stream ID 长度不是 16 字节".toList
  let _listpack ← readString

def listpackStrings : Place Bytes :=
  here.either (afterOk readString fun streamId => onlyIf (streamId.length = 16) here)

/-- The name of a group, and of each of its consumers. -/
def groupStrings (rdbType : RdbType) : Place Bytes :=
  here.either <| past readString <| past skipLength <| past skipLength <|
    pastIf (hasStreamMetadata rdbType) skipLength <|
      afterOk readCount fun globalPelCount =>
        past (repeatCount globalPelCount do
          let _streamId ← readExactly 16
          let _deliveryTime ← readU64
          skipLength) <|
        afterOk readCount fun consumersCount =>
          inRounds (fun _ => skipConsumer rdbType) consumersCount () here

def streamStrings (rdbType : RdbType) : Place Bytes :=
  afterOk readCount fun listpackCount =>
    (inRounds (fun _ => skipListpack) listpackCount () listpackStrings).either <|
      past (repeatCount listpackCount skipListpack) <|
      past skipLength <| past skipLength <|
        pastIf (hasStreamMetadata rdbType) (repeatCount 5 skipLength) <|
          afterOk readCount fun cgroupsCount =>
            inRounds (fun _ => skipConsumerGroup rdbType) cgroupsCount ()
              (groupStrings rdbType)

/-! ## Records -/

def valueStrings : RdbType → Place Bytes
  | .list | .set | .quicklist | .quicklist2 => elementStrings readRawString here
  | .hash =>
    elementStrings (do
      let fieldRaw ← readRawString
      let valueRaw ← readRawString
      pure (fieldRaw ++ valueRaw)) (here.either (past readRawString here))
  | .sortedSet | .sortedSet2 =>
    elementStrings (do
      let memberRaw ← readRawString
      let scoreBuf ← readExactly 8
      pure (memberRaw ++ scoreBuf)) here
  | .module | .module2 => past readU64 here
  | .streamListpacks => streamStrings .streamListpacks
  | .streamListpacks2 => streamStrings .streamListpacks2
  | .streamListpacks3 => streamStrings .streamListpacks3
  | _ => here

/-- The strings among a module's data. -/
def moduleStrings : Place Bytes :=
  inLoop skipModuleItem (afterOk readLength fun opcode => onlyIf (opcode = 5) here)

/-- Those of the record with this first byte. -/
def recordStrings (opcode : UInt8) : Place Bytes :=
  match opcode.toNat with
  | 0xF7 => past readLength moduleStrings
  | 0xFA => auxStrings
  | 0xF8 | 0xF9 | 0xFB | 0xFC | 0xFD | 0xFE => nowhere
  | _ =>
    match RdbType.fromByte opcode with
    | some rdbType => here.either (past readString (valueStrings rdbType))
    | none => nowhere

/-- `parse` comes to a string that begins with `t`. -/
def ComesToString {σ : Type} (callback : BinEntry → EStateM (Fault SyncError) σ Unit) (s : σ)
    (bs t : Bytes) : Prop :=
  ∃ p opcode rest, Reached callback s bs p ∧ p.reader = opcode :: rest ∧
    recordStrings opcode rest t

end RedisHaTool.Rdb
