import RedisHaTool.Lib.Endian
import RedisHaTool.Rdb.Types

/-!
# The RDB parser

`protocol/rdb/parser.rs`. Most of the parser touches only its input, so those
methods are byte readers; `parse` and `read_key_value` also carry the parser
state, and the callback has a state of its own, so that what it was called with
can be observed.

A length in the file is taken as it is: a buffer of more than `isize::MAX` bytes
panics before a byte of it is read. Loops over counts run on the count, the main
loop and the module loop take a byte each round and run on their input.
-/

namespace RedisHaTool.Rdb

open Lib

abbrev Rd := ByteReader SyncError

def fail {α : Type} (text : Text) : Rd α := throw (.err (.corruptedText text))

/-! ## Numbers -/

/-- `{:#x}` of a byte. -/
def hexByte (b : UInt8) : Text := "0x".toList ++ Nat.toDigits 16 b.toNat

def readByte : Rd UInt8 := readU8 .eof

def readExactly (n : Nat) : Rd Bytes := readExact .eof n

def readU16 : Rd Nat := do
  let bs ← readExactly 2
  pure (leNat bs)

def readU32 : Rd Nat := do
  let bs ← readExactly 4
  pure (leNat bs)

def readU32Be : Rd Nat := do
  let bs ← readExactly 4
  pure (beNat bs)

def readU64 : Rd Nat := do
  let bs ← readExactly 8
  pure (leNat bs)

def readU64Be : Rd Nat := do
  let bs ← readExactly 8
  pure (beNat bs)

/-! ## Lengths -/

/-- `first_byte >> 6`. -/
def lengthType (first : UInt8) : Nat := first.toNat >>> 6

/-- `first_byte as usize & 0x3F`. -/
def low6 (first : UInt8) : Nat := first.toNat &&& 0x3F

/-- `((first_byte as usize & 0x3F) << 8) | second_byte as usize`. -/
def low14 (first second : UInt8) : Nat := (low6 first <<< 8) ||| second.toNat

def specialEncoding {α : Type} (first : UInt8) : Rd α :=
  fail ("Special encoding encountered: ".toList ++ natToString first.toNat)

def unknownEncoding {α : Type} (encoding : Nat) : Rd α :=
  fail ("未知的特殊编码类型: ".toList ++ natToString encoding)

def readLength : Rd Nat := do
  let first ← readByte
  match lengthType first with
  | 0 => pure (low6 first)
  | 1 => do
    let second ← readByte
    pure (low14 first second)
  | 2 =>
    if first = 0x80 then readU32Be
    else if first = 0x81 then readU64Be
    else specialEncoding first
  | _ => specialEncoding first

/-- The special encodings of `read_length_with_encoding`. -/
def readEncodedValue (first : UInt8) : Rd (Nat × Bool × Nat) := do
  match low6 first with
  | 0 =>
    let b ← readByte
    pure (0, true, b.toNat)
  | 1 =>
    let v ← readU16
    pure (0, true, v)
  | 2 =>
    let v ← readU32
    pure (0, true, v)
  | encoding => unknownEncoding encoding

def readLengthWithEncoding : Rd (Nat × Bool × Nat) := do
  let first ← readByte
  match lengthType first with
  | 0 => pure (low6 first, false, 0)
  | 1 => do
    let second ← readByte
    pure (low14 first second, false, 0)
  | 2 =>
    if first = 0x80 then do
      let length ← readU32Be
      pure (length, false, 0)
    else if first = 0x81 then do
      let length ← readU64Be
      pure (length, false, 0)
    else readEncodedValue first
  | _ => readEncodedValue first

def readLengthWithRaw : Rd (Nat × Bytes) := do
  let first ← readByte
  match lengthType first with
  | 0 => pure (low6 first, [first])
  | 1 => do
    let second ← readByte
    pure (low14 first second, [first, second])
  | 2 =>
    if first = 0x80 then do
      let len ← readU32Be
      pure (len, first :: toBeBytes 4 len)
    else if first = 0x81 then do
      let len ← readU64Be
      pure (len, first :: toBeBytes 8 len)
    else fail ("read_length_with_raw: 非法的长度编码字节: ".toList ++ hexByte first)
  | _ =>
    match low6 first with
    | 0 => do
      let b ← readByte
      pure (b.toNat, [first, b])
    | 1 => do
      let v ← readU16
      pure (v, first :: toLeBytes 2 v)
    | 2 => do
      let v ← readU32
      pure (v, first :: toLeBytes 4 v)
    | encoding =>
      fail ("read_length_with_raw: 未知的特殊编码类型: ".toList ++ natToString encoding)

/-- `encode_length_to_buf`, the bytes it puts. -/
def encodeLengthToBuf (length : Nat) : Bytes :=
  if length < 64 then [UInt8.ofNat length]
  else if length < 16384 then
    [UInt8.ofNat (length >>> 8) ||| 0x40, UInt8.ofNat (length &&& 0xFF)]
  else 0x80 :: toBeBytes 4 length

/-! ## Strings -/

/-- A zeroed buffer of `length` bytes, filled. -/
def readBuffer (length : Nat) : Rd Bytes := do
  if length > isizeMax then throw .panic
  readExactly length

def readStringRaw (length : Nat) : Rd Bytes :=
  if length = 0 then pure [] else readBuffer length

/-- An integer written as a string is read back as its decimal numeral. -/
def decimal (bits v : Nat) : Bytes := asBytes (intToString (asSigned bits v))

def readString : Rd Bytes := do
  let first ← readByte
  match lengthType first with
  | 0 => readStringRaw (low6 first)
  | 1 => do
    let second ← readByte
    readStringRaw (low14 first second)
  | 2 =>
    if first = 0x80 then do
      let len ← readU32Be
      readStringRaw len
    else if first = 0x81 then do
      let len ← readU64Be
      readStringRaw len
    else fail ("read_string: 非法的长度编码字节: ".toList ++ hexByte first)
  | _ =>
    match low6 first with
    | 0 => do
      let b ← readByte
      pure (decimal 8 b.toNat)
    | 1 => do
      let v ← readU16
      pure (decimal 16 v)
    | 2 => do
      let v ← readU32
      pure (decimal 32 v)
    | 3 => do
      let compressedLen ← readLength
      let _originalLen ← readLength
      let _compressedData ← readBuffer compressedLen
      pure []
    | encoding => unknownEncoding encoding

/-- The value and the bytes it was read from. -/
def readStringWithRawBytes : Rd (Bytes × Bytes) := do
  let first ← readByte
  match lengthType first with
  | 0 => do
    let data ← readStringRaw (low6 first)
    pure (data, first :: data)
  | 1 => do
    let second ← readByte
    let data ← readStringRaw (low14 first second)
    pure (data, first :: second :: data)
  | 2 =>
    if first = 0x80 then do
      let len ← readU32Be
      let data ← readStringRaw len
      pure (data, first :: toBeBytes 4 len ++ data)
    else if first = 0x81 then do
      let len ← readU64Be
      let data ← readStringRaw len
      pure (data, first :: toBeBytes 8 len ++ data)
    else fail ("read_string_with_raw_bytes: 非法的长度编码字节: ".toList
      ++ hexByte first)
  | _ =>
    match low6 first with
    | 0 => do
      let b ← readByte
      pure (decimal 8 b.toNat, [first, b])
    | 1 => do
      let v ← readU16
      pure (decimal 16 v, first :: toLeBytes 2 v)
    | 2 => do
      let v ← readU32
      pure (decimal 32 v, first :: toLeBytes 4 v)
    | 3 => do
      let compressedLen ← readLength
      let originalLen ← readLength
      let compressedData ← readBuffer compressedLen
      pure ([], first :: encodeLengthToBuf compressedLen
        ++ encodeLengthToBuf originalLen ++ compressedData)
    | encoding => unknownEncoding encoding

def readAuxField : Rd RdbAuxField := do
  let key ← readString
  let value ← readString
  pure { key, value }

/-! ## Values -/

/-- The body the four loops over elements share: a count with a limit, and the
bytes of the count and of each element in turn. -/
def readElements (what : Text) (element : Rd Bytes) : Rd (Bytes × Bytes) := do
  let (count, lenRaw) ← readLengthWithRaw
  if count > 100000000 then
    fail (what ++ natToString count)
  let raw ← forCount (fun raw => do
    let elemRaw ← element
    pure (raw ++ elemRaw)) count lenRaw
  pure ([], raw)

/-- One string of a sequence, its bytes only. -/
def readRawString : Rd Bytes := do
  let (_value, raw) ← readStringWithRawBytes
  pure raw

def readListSetRawValue : Rd (Bytes × Bytes) :=
  readElements "List/Set 元素数量异常: ".toList readRawString

def readHashRawValue : Rd (Bytes × Bytes) :=
  readElements "Hash 元素数量异常: ".toList do
    let fieldRaw ← readRawString
    let valueRaw ← readRawString
    pure (fieldRaw ++ valueRaw)

def readZsetRawValue : Rd (Bytes × Bytes) :=
  readElements "ZSet 元素数量异常: ".toList do
    let memberRaw ← readRawString
    let scoreBuf ← readExactly 8
    pure (memberRaw ++ scoreBuf)

def readQuicklistRawValue : Rd (Bytes × Bytes) :=
  readElements "Quicklist 节点数量异常: ".toList readRawString

/-! ## Streams -/

/-- Does something `count` times over. -/
def repeatCount (count : Nat) (body : Rd Unit) : Rd Unit :=
  forCount (fun _ => body) count ()

/-- A length whose value nobody looks at. -/
def skipLength : Rd Unit := do
  let _ ← readLengthWithEncoding
  pure ()

def readCount : Rd Nat := do
  let (len, _, _) ← readLengthWithEncoding
  pure len

/-- The stream types that carry more metadata. -/
def hasStreamMetadata (rdbType : RdbType) : Bool :=
  rdbType = .streamListpacks2 || rdbType = .streamListpacks3

/-- A consumer: its name, its times, and the ids it has pending. -/
def skipConsumer (rdbType : RdbType) : Rd Unit := do
  let _name ← readString
  let _seenTime ← readU64
  if hasStreamMetadata rdbType then
    let _activeTime ← readU64
  let pelCount ← readCount
  repeatCount pelCount do
    let _streamId ← readExactly 16

/-- A consumer group: its name, its ids, its pending entries and consumers. -/
def skipConsumerGroup (rdbType : RdbType) : Rd Unit := do
  let _name ← readString
  skipLength
  skipLength
  if hasStreamMetadata rdbType then
    skipLength
  let globalPelCount ← readCount
  repeatCount globalPelCount do
    let _streamId ← readExactly 16
    let _deliveryTime ← readU64
    skipLength
  let consumersCount ← readCount
  repeatCount consumersCount (skipConsumer rdbType)

/-- The fields `read_stream_value` reads, in the order it reads them. -/
def skipStream (rdbType : RdbType) : Rd Unit := do
  let listpackCount ← readCount
  repeatCount listpackCount do
    let streamId ← readString
    if streamId.length ≠ 16 then
      fail "Stream listpack stream ID 长度不是 16 字节".toList
    let _listpack ← readString
  -- The last id, and from the second version on the first id, the greatest
  -- deleted id and the number of entries added.
  skipLength
  skipLength
  if hasStreamMetadata rdbType then
    repeatCount 5 skipLength
  let cgroupsCount ← readCount
  repeatCount cgroupsCount (skipConsumerGroup rdbType)

/-- `read_stream_value`: whichever read fails, the failure is logged and the
stream is answered as an empty value, from wherever the input then stands. -/
def readStreamValue (rdbType : RdbType) : Rd (Bytes × Bytes) := fun bs =>
  match skipStream rdbType bs with
  | .ok _ rest => .ok ([], []) rest
  | .error (.err _) rest => .ok ([], []) rest
  | .error fault rest => .error fault rest

/-- `read_value`: the value and its encoding in the file. -/
def readValue : RdbType → Rd (Bytes × Bytes)
  | .string => readStringWithRawBytes
  | .hashZipmap | .listZiplist | .setIntset | .sortedSetZiplist | .hashZiplist
  | .hashListpack | .sortedSetListpack | .setListpack => readStringWithRawBytes
  | .list | .set => readListSetRawValue
  | .hash => readHashRawValue
  | .sortedSet | .sortedSet2 => readZsetRawValue
  | .quicklist | .quicklist2 => readQuicklistRawValue
  | .module | .module2 => do
    let _moduleId ← readU64
    let _moduleData ← readString
    pure ([], [])
  | .streamListpacks => readStreamValue .streamListpacks
  | .streamListpacks2 => readStreamValue .streamListpacks2
  | .streamListpacks3 => readStreamValue .streamListpacks3

/-! ## Module data -/

/-- One round of the loop of `skip_module_value`. -/
def skipModuleItem : Rd (Option Unit) := do
  let opcode ← readLength
  match opcode with
  | 0 => pure (some ())
  | 1 | 2 =>
    let _value ← readLength
    pure none
  | 3 =>
    let _float ← readExactly 4
    pure none
  | 4 =>
    let _double ← readExactly 8
    pure none
  | 5 =>
    let _string ← readString
    pure none
  | opcode => fail ("未知的 module opcode: ".toList ++ natToString opcode)

def skipModuleValue : Rd Unit := loopInput skipModuleItem

/-- The sizes of `RESIZEDB` and the number of `SELECTDB` are read inline: a
32-bit one is little endian, whatever the low bits of its first byte. -/
def readInlineLength (unsupported : Text) : Rd Nat := do
  let first ← readByte
  match lengthType first with
  | 0 => pure (low6 first)
  | 1 => do
    let second ← readByte
    pure (low14 first second)
  | 2 => readU32
  | _ => fail unsupported

/-! ## Header -/

def readMagic : Rd Unit := do
  let magic ← readExactly 5
  if magic ≠ rdbMagic then
    throw (.err (.corrupted [.text "无效的 RDB 魔数: ".toList, .lossy magic]))

def readVersion : Rd Nat := do
  let versionBytes ← readExactly 4
  match (fromUtf8 versionBytes).bind parseU32 with
  | some version => pure version
  | none => throw (.err (.corrupted [.text "无效的 RDB 版本: ".toList, .lossy versionBytes]))

/-! ## The file -/

section Parse

variable {σ : Type}

/-- `RdbParser`, and the state of the callback it is called with. -/
structure RdbParser (σ : Type) where
  reader : Bytes
  state : RdbParserState
  sink : σ

abbrev ParseM (σ : Type) := EStateM (Fault SyncError) (RdbParser σ)

def RdbParser.new (reader : Bytes) (sink : σ) : RdbParser σ :=
  { reader, state := .default, sink }

/-- A method that touches only the reader. -/
def onReader {α : Type} (m : Rd α) : ParseM σ α := fun p =>
  match m p.reader with
  | .ok a rest => .ok a { p with reader := rest }
  | .error e rest => .error e { p with reader := rest }

/-- A call of the callback. -/
def onSink {α : Type} (m : EStateM (Fault SyncError) σ α) : ParseM σ α := fun p =>
  match m p.sink with
  | .ok a sink => .ok a { p with sink }
  | .error e sink => .error e { p with sink }

def modifyState (f : RdbParserState → RdbParserState) : ParseM σ Unit := fun p =>
  .ok () { p with state := f p.state }

def readKeyValue (rdbType : RdbType) : ParseM σ BinEntry := do
  let key ← onReader readString
  let (value, rawValue) ← onReader (readValue rdbType)
  let p ← get
  modifyState fun s => { s with currentExpire := none }
  pure { db := p.state.currentDb, key, value, rawValue := some rawValue,
         expire := p.state.currentExpire, rdbType }

/-- The arms of `parse` for the records other than the end of the file. -/
def parseRecord (callback : BinEntry → EStateM (Fault SyncError) σ Unit)
    (opcode : UInt8) : ParseM σ Unit := do
  match opcode.toNat with
  | 0xF7 =>
    let _moduleId ← onReader readLength
    onReader skipModuleValue
  | 0xF8 =>
    let _idle ← onReader readLength
  | 0xF9 =>
    let _freq ← onReader readByte
  | 0xFA =>
    let aux ← onReader readAuxField
    if aux.key = asBytes "repl-id".toList then
      modifyState fun s => { s with runId := some aux.value }
  | 0xFB =>
    let _dbSize ← onReader (readInlineLength "ResizeDB db_size 特殊编码不支持".toList)
    let _expiresSize ←
      onReader (readInlineLength "ResizeDB expires_size 特殊编码不支持".toList)
  | 0xFC =>
    let expireMs ← onReader readU64
    modifyState fun s => { s with currentExpire := some (epochPlusMillis expireMs) }
  | 0xFD =>
    let expireS ← onReader readU32
    modifyState fun s => { s with currentExpire := some (epochPlusSecs expireS) }
  | 0xFE =>
    let db ← onReader (readInlineLength "SelectDB 特殊编码不支持".toList)
    -- `db as u32`
    modifyState fun s => { s with currentDb := db % 2 ^ 32, currentExpire := none }
  | _ =>
    match RdbType.fromByte opcode with
    | some rdbType =>
      let entry ← readKeyValue rdbType
      -- A module's entry is read and dropped.
      if rdbType ≠ .module ∧ rdbType ≠ .module2 then
        onSink (callback entry)
    -- An unknown opcode is logged, and the next byte is taken for an opcode.
    | none => pure ()

/-- One round of the main loop, `some` when it is over. -/
def parseStep (callback : BinEntry → EStateM (Fault SyncError) σ Unit) :
    ParseM σ (Option Unit) := do
  let p ← get
  if p.state.eofReached then pure (some ())
  else
    let opcode ← onReader readByte
    if opcode = 0xFF then
      modifyState fun s => { s with eofReached := true }
      pure (some ())
    else
      parseRecord callback opcode
      pure none

/-- `parse`. Every round takes a byte, so the input is budget enough. -/
def parse (callback : BinEntry → EStateM (Fault SyncError) σ Unit) :
    ParseM σ (List RdbAuxField) := do
  onReader readMagic
  let version ← onReader readVersion
  modifyState fun s => { s with version }
  let p ← get
  loopFuel (parseStep callback) (p.reader.length + 1)
  -- The vector of aux fields is never pushed to.
  pure []

end Parse

end RedisHaTool.Rdb
