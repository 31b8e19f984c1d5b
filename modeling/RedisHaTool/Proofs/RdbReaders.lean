import RedisHaTool.Lib.Plain
import RedisHaTool.Rdb.StreamFormat

/-!
# The parser's readers

Every method of the parser that touches only its input is a plain reader:
whatever goes wrong in it goes through. The one exception is
`read_stream_value`, which answers an empty value for a stream that it could not
read; what it reads, `skipStream`, is plain again.
-/

namespace RedisHaTool.Rdb

open Lib

/-! ## Readers -/

theorem taking_readByte : Taking readByte := Taking.u8 _

theorem plain_readByte : Plain readByte := taking_readByte.plain

theorem plain_readExactly (n : Nat) : Plain (readExactly n) :=
  Plain.exact _ n

theorem plain_fail {α : Type} (text : Text) : Plain (fail text : Rd α) :=
  Plain.throw (by simp)

theorem plain_readU16 : Plain readU16 :=
  (plain_readExactly 2).bind fun _ => Plain.pure _

theorem plain_readU32 : Plain readU32 :=
  (plain_readExactly 4).bind fun _ => Plain.pure _

theorem plain_readU32Be : Plain readU32Be :=
  (plain_readExactly 4).bind fun _ => Plain.pure _

theorem plain_readU64 : Plain readU64 :=
  (plain_readExactly 8).bind fun _ => Plain.pure _

theorem plain_readU64Be : Plain readU64Be :=
  (plain_readExactly 8).bind fun _ => Plain.pure _

theorem taking_readLength : Taking readLength := by
  refine taking_readByte.bind fun first => ?_
  split
  · exact Plain.pure _
  · exact plain_readByte.bind fun _ => Plain.pure _
  · split
    · exact plain_readU32Be
    · split
      · exact plain_readU64Be
      · exact plain_fail _
  · exact plain_fail _

theorem plain_readEncodedValue (first : UInt8) :
    Plain (readEncodedValue first) := by
  rw [readEncodedValue]
  split
  · exact plain_readByte.bind fun _ => Plain.pure _
  · exact plain_readU16.bind fun _ => Plain.pure _
  · exact plain_readU32.bind fun _ => Plain.pure _
  · exact plain_fail _

theorem plain_readLengthWithEncoding : Plain readLengthWithEncoding := by
  refine plain_readByte.bind fun first => ?_
  split
  · exact Plain.pure _
  · exact plain_readByte.bind fun _ => Plain.pure _
  · split
    · exact plain_readU32Be.bind fun _ => Plain.pure _
    · split
      · exact plain_readU64Be.bind fun _ => Plain.pure _
      · exact plain_readEncodedValue first
  · exact plain_readEncodedValue first

theorem plain_readLengthWithRaw : Plain readLengthWithRaw := by
  refine plain_readByte.bind fun first => ?_
  split
  · exact Plain.pure _
  · exact plain_readByte.bind fun _ => Plain.pure _
  · split
    · exact plain_readU32Be.bind fun _ => Plain.pure _
    · split
      · exact plain_readU64Be.bind fun _ => Plain.pure _
      · exact plain_fail _
  · split
    · exact plain_readByte.bind fun _ => Plain.pure _
    · exact plain_readU16.bind fun _ => Plain.pure _
    · exact plain_readU32.bind fun _ => Plain.pure _
    · exact plain_fail _

theorem plain_readBuffer (length : Nat) : Plain (readBuffer length) := by
  rw [readBuffer]
  split
  · exact (Plain.throw (by simp)).bind fun _ => plain_readExactly length
  · exact plain_readExactly length

theorem plain_readStringRaw (length : Nat) : Plain (readStringRaw length) := by
  rw [readStringRaw]
  split
  · exact Plain.pure _
  · exact plain_readBuffer length

theorem plain_readString : Plain readString := by
  refine plain_readByte.bind fun first => ?_
  split
  · exact plain_readStringRaw _
  · exact plain_readByte.bind fun _ => plain_readStringRaw _
  · split
    · exact plain_readU32Be.bind fun len => plain_readStringRaw len
    · split
      · exact plain_readU64Be.bind fun len => plain_readStringRaw len
      · exact plain_fail _
  · split
    · exact plain_readByte.bind fun _ => Plain.pure _
    · exact plain_readU16.bind fun _ => Plain.pure _
    · exact plain_readU32.bind fun _ => Plain.pure _
    · exact taking_readLength.plain.bind fun len => taking_readLength.plain.bind fun _ =>
        (plain_readBuffer len).bind fun _ => Plain.pure _
    · exact plain_fail _

theorem plain_readStringWithRawBytes : Plain readStringWithRawBytes := by
  refine plain_readByte.bind fun first => ?_
  split
  · exact (plain_readStringRaw _).bind fun _ => Plain.pure _
  · exact plain_readByte.bind fun _ =>
      (plain_readStringRaw _).bind fun _ => Plain.pure _
  · split
    · exact plain_readU32Be.bind fun len =>
        (plain_readStringRaw len).bind fun _ => Plain.pure _
    · split
      · exact plain_readU64Be.bind fun len =>
          (plain_readStringRaw len).bind fun _ => Plain.pure _
      · exact plain_fail _
  · split
    · exact plain_readByte.bind fun _ => Plain.pure _
    · exact plain_readU16.bind fun _ => Plain.pure _
    · exact plain_readU32.bind fun _ => Plain.pure _
    · exact taking_readLength.plain.bind fun len => taking_readLength.plain.bind fun _ =>
        (plain_readBuffer len).bind fun _ => Plain.pure _
    · exact plain_fail _

/-! ## Values -/

theorem plain_readElements (what : Text) {element : Rd Bytes}
    (h : Plain element) : Plain (readElements what element) := by
  refine plain_readLengthWithRaw.bind fun (count, lenRaw) => ?_
  have hloop : Plain (do
      let raw ← forCount (fun raw => do let elemRaw ← element; pure (raw ++ elemRaw))
        count lenRaw
      pure (([], raw) : Bytes × Bytes)) :=
    (Plain.forCount (fun _ => h.bind fun _ => Plain.pure _) count lenRaw).bind
      fun _ => Plain.pure _
  dsimp only
  split
  · exact (plain_fail _).bind fun _ => hloop
  · exact hloop

theorem plain_readRawString : Plain readRawString :=
  plain_readStringWithRawBytes.bind fun _ => Plain.pure _

theorem plain_repeatCount (count : Nat) {body : Rd Unit} (h : Plain body) :
    Plain (repeatCount count body) :=
  Plain.forCount (fun _ => h) count ()

theorem plain_skipLength : Plain skipLength :=
  plain_readLengthWithEncoding.bind fun _ => Plain.pure _

theorem plain_readCount : Plain readCount :=
  plain_readLengthWithEncoding.bind fun _ => Plain.pure _

theorem plain_skipConsumer (rdbType : RdbType) :
    Plain (skipConsumer rdbType) := by
  have hpending : Plain (do
      let pelCount ← readCount
      repeatCount pelCount do
        let _streamId ← readExactly 16) :=
    plain_readCount.bind fun count =>
      plain_repeatCount count ((plain_readExactly 16).bind fun _ => Plain.pure _)
  refine plain_readString.bind fun _ => plain_readU64.bind fun _ => ?_
  dsimp only
  split
  · exact plain_readU64.bind fun _ => hpending
  · exact hpending

theorem plain_skipConsumerGroup (rdbType : RdbType) :
    Plain (skipConsumerGroup rdbType) := by
  have hentry : Plain (do
      let _streamId ← readExactly 16
      let _deliveryTime ← readU64
      skipLength) :=
    (plain_readExactly 16).bind fun _ => plain_readU64.bind fun _ => plain_skipLength
  have hrest : Plain (do
      let globalPelCount ← readCount
      repeatCount globalPelCount do
        let _streamId ← readExactly 16
        let _deliveryTime ← readU64
        skipLength
      let consumersCount ← readCount
      repeatCount consumersCount (skipConsumer rdbType)) :=
    plain_readCount.bind fun count => (plain_repeatCount count hentry).bind fun _ =>
      plain_readCount.bind fun consumers =>
        plain_repeatCount consumers (plain_skipConsumer rdbType)
  refine plain_readString.bind fun _ => plain_skipLength.bind fun _ =>
    plain_skipLength.bind fun _ => ?_
  dsimp only
  split
  · exact plain_skipLength.bind fun _ => hrest
  · exact hrest

theorem plain_skipStream (rdbType : RdbType) : Plain (skipStream rdbType) := by
  have hlistpack : Plain (do
      let streamId ← readString
      if streamId.length ≠ 16 then
        fail "Stream listpack stream ID 长度不是 16 字节".toList
      let _listpack ← readString) := by
    refine plain_readString.bind fun streamId => ?_
    dsimp only
    split
    · exact (plain_fail _).bind fun _ => plain_readString.bind fun _ => Plain.pure _
    · exact plain_readString.bind fun _ => Plain.pure _
  have hgroups : Plain (do
      let cgroupsCount ← readCount
      repeatCount cgroupsCount (skipConsumerGroup rdbType)) :=
    plain_readCount.bind fun count =>
      plain_repeatCount count (plain_skipConsumerGroup rdbType)
  refine plain_readCount.bind fun count =>
    (plain_repeatCount count hlistpack).bind fun _ =>
      plain_skipLength.bind fun _ => plain_skipLength.bind fun _ => ?_
  dsimp only
  split
  · exact (plain_repeatCount 5 plain_skipLength).bind fun _ => hgroups
  · exact hgroups

/-- Every value but a stream. -/
theorem plain_readValue {rdbType : RdbType} (h : rdbType.isStream = false) :
    Plain (readValue rdbType) := by
  have hpair : Plain (do
      let fieldRaw ← readRawString
      let valueRaw ← readRawString
      pure (fieldRaw ++ valueRaw)) :=
    plain_readRawString.bind fun _ => plain_readRawString.bind fun _ => Plain.pure _
  have hmember : Plain (do
      let memberRaw ← readRawString
      let scoreBuf ← readExactly 8
      pure (memberRaw ++ scoreBuf)) :=
    plain_readRawString.bind fun _ => (plain_readExactly 8).bind fun _ => Plain.pure _
  cases rdbType with
  | list | set | quicklist | quicklist2 =>
      exact plain_readElements _ plain_readRawString
  | hash => exact plain_readElements _ hpair
  | sortedSet | sortedSet2 => exact plain_readElements _ hmember
  | module | module2 =>
      exact plain_readU64.bind fun _ => plain_readString.bind fun _ => Plain.pure _
  | streamListpacks | streamListpacks2 | streamListpacks3 => cases h
  | _ => exact plain_readStringWithRawBytes

theorem plain_readAuxField : Plain readAuxField :=
  plain_readString.bind fun _ => plain_readString.bind fun _ => Plain.pure _

theorem taking_skipModuleItem : Taking skipModuleItem := by
  refine taking_readLength.bind fun opcode => ?_
  split
  · exact Plain.pure _
  · exact taking_readLength.plain.bind fun _ => Plain.pure _
  · exact taking_readLength.plain.bind fun _ => Plain.pure _
  · exact (plain_readExactly 4).bind fun _ => Plain.pure _
  · exact (plain_readExactly 8).bind fun _ => Plain.pure _
  · exact plain_readString.bind fun _ => Plain.pure _
  · exact plain_fail _

theorem plain_skipModuleValue : Plain skipModuleValue :=
  taking_skipModuleItem.loopInput

theorem plain_readInlineLength (unsupported : Text) :
    Plain (readInlineLength unsupported) := by
  refine plain_readByte.bind fun first => ?_
  split
  · exact Plain.pure _
  · exact plain_readByte.bind fun _ => Plain.pure _
  · exact plain_readU32
  · exact plain_fail _

theorem plain_readMagic : Plain readMagic := by
  refine (plain_readExactly 5).bind fun magic => ?_
  split
  · exact Plain.throw (by simp)
  · exact Plain.pure _

theorem plain_readVersion : Plain readVersion := by
  refine (plain_readExactly 4).bind fun versionBytes => ?_
  split
  · exact Plain.pure _
  · exact Plain.throw (by simp)

/-! ## The value of a stream -/

theorem bounded_readStreamValue (rdbType : RdbType) :
    BoundedReader (readStreamValue rdbType) := by
  have hskip := (plain_skipStream rdbType).bounded
  intro bs
  rw [readStreamValue]
  split
  case h_1 h => exact hskip.of_ok h
  case h_2 h => exact (hskip.of_error h).2
  case h_3 h => exact hskip.of_error h

theorem bounded_readValue (rdbType : RdbType) : BoundedReader (readValue rdbType) := by
  cases h : rdbType.isStream with
  | false => exact (plain_readValue h).bounded
  | true =>
      cases rdbType with
      | streamListpacks | streamListpacks2 | streamListpacks3 =>
          exact bounded_readStreamValue _
      | _ => cases h

end RedisHaTool.Rdb
