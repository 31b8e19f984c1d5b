import RedisHaTool.Proofs.RdbHalts
import RedisHaTool.Proofs.RdbRecords
import RedisHaTool.Rdb.Strings

/-!
# What makes the parser panic

Nothing but a string that is too long for a buffer, and that wherever the parser
comes to one. The other readers are quiet, the counts of elements have a limit
and the other counts are of rounds that each need some input; so it is the two
methods for strings that panic, and every other method has its panics at the
places of its strings.
-/

namespace RedisHaTool.Rdb

open Lib Place

/-! ## Quiet readers -/

theorem quiet_readByte : Quiet readByte := quiet_readU8 _

theorem quiet_readExactly (n : Nat) : Quiet (readExactly n) := quiet_readExact _ n

theorem quiet_fail {α : Type} (text : Text) : Quiet (fail text : Rd α) :=
  Quiet.throw (by simp)

/-- What comes after a failure does not come. -/
theorem quiet_fail_bind {α β : Type} (text : Text) (f : α → Rd β) :
    Quiet (fail text >>= f) := by
  rintro bs ⟨t, ht⟩
  cases ht

/-- A number of `n` bytes, in either order. -/
theorem quiet_number {β : Type} (n : Nat) (dec : Bytes → β) :
    Quiet (do let bs ← readExactly n; pure (dec bs) : Rd β) :=
  (quiet_readExactly n).bind fun _ => Quiet.pure _

theorem quiet_readLength : Quiet readLength := by
  refine quiet_readByte.bind fun first => ?_
  split
  · exact Quiet.pure _
  · exact quiet_readByte.bind fun _ => Quiet.pure _
  · split
    · exact quiet_number 4 _
    · split
      · exact quiet_number 8 _
      · exact quiet_fail _
  · exact quiet_fail _

theorem quiet_readEncodedValue (first : UInt8) : Quiet (readEncodedValue first) := by
  rw [readEncodedValue]
  split
  · exact quiet_readByte.bind fun _ => Quiet.pure _
  · exact (quiet_number 2 _).bind fun _ => Quiet.pure _
  · exact (quiet_number 4 _).bind fun _ => Quiet.pure _
  · exact quiet_fail _

theorem quiet_readLengthWithEncoding : Quiet readLengthWithEncoding := by
  refine quiet_readByte.bind fun first => ?_
  split
  · exact Quiet.pure _
  · exact quiet_readByte.bind fun _ => Quiet.pure _
  · split
    · exact (quiet_number 4 _).bind fun _ => Quiet.pure _
    · split
      · exact (quiet_number 8 _).bind fun _ => Quiet.pure _
      · exact quiet_readEncodedValue first
  · exact quiet_readEncodedValue first

theorem quiet_readLengthWithRaw : Quiet readLengthWithRaw := by
  refine quiet_readByte.bind fun first => ?_
  split
  · exact Quiet.pure _
  · exact quiet_readByte.bind fun _ => Quiet.pure _
  · split
    · exact (quiet_number 4 _).bind fun _ => Quiet.pure _
    · split
      · exact (quiet_number 8 _).bind fun _ => Quiet.pure _
      · exact quiet_fail _
  · split
    · exact quiet_readByte.bind fun _ => Quiet.pure _
    · exact (quiet_number 2 _).bind fun _ => Quiet.pure _
    · exact (quiet_number 4 _).bind fun _ => Quiet.pure _
    · exact quiet_fail _

theorem quiet_readInlineLength (unsupported : Text) : Quiet (readInlineLength unsupported) := by
  refine quiet_readByte.bind fun first => ?_
  split
  · exact Quiet.pure _
  · exact quiet_readByte.bind fun _ => Quiet.pure _
  · exact quiet_number 4 _
  · exact quiet_fail _

theorem quiet_skipLength : Quiet skipLength :=
  quiet_readLengthWithEncoding.bind fun _ => Quiet.pure _

theorem quiet_readCount : Quiet readCount :=
  quiet_readLengthWithEncoding.bind fun _ => Quiet.pure _

theorem quiet_repeatCount (count : Nat) {body : Rd Unit} (h : Quiet body) :
    Quiet (repeatCount count body) :=
  Quiet.forCount (fun _ => h) count ()

theorem quiet_readMagic : Quiet readMagic := by
  refine (quiet_readExactly 5).bind fun magic => ?_
  split
  · exact Quiet.throw (by simp)
  · exact Quiet.pure _

theorem quiet_readVersion : Quiet readVersion := by
  refine (quiet_readExactly 4).bind fun versionBytes => ?_
  split
  · exact Quiet.pure _
  · exact Quiet.throw (by simp)

/-! ## Strings -/

theorem panics_readBuffer {n : Nat} {bs : Bytes} : Panics (readBuffer n) bs ↔ isizeMax < n := by
  rw [readBuffer]
  split
  · next hlarge =>
      constructor
      · intro _
        exact hlarge
      · intro _
        exact ⟨bs, rfl⟩
  · next hheld =>
      constructor
      · intro h
        exact absurd h (quiet_readExactly n bs)
      · intro h
        exact absurd h hheld

theorem panics_readStringRaw {n : Nat} {bs : Bytes} :
    Panics (readStringRaw n) bs ↔ isizeMax < n := by
  rw [readStringRaw]
  split
  · next hzero =>
      constructor
      · intro h
        exact absurd h (Quiet.pure _ bs)
      · intro h
        omega
  · exact panics_readBuffer

theorem tooLong_of_panics {bs : Bytes} (h : Panics readString bs) : TooLong bs := by
  obtain ⟨t, ht⟩ := h
  rcases string_shapes bs with
    ⟨l, bs, rfl⟩ | ⟨first, bs, rfl, rfl | rfl | rfl | rfl⟩ | ⟨⟨e, u, herr⟩, -⟩
  · rw [readString_len] at ht
    exact ⟨l, bs, panics_readStringRaw.1 ⟨t, ht⟩, Or.inl rfl⟩
  · rw [readString_int8] at ht
    exact absurd ⟨t, ht⟩ (quiet_readByte.bind (fun _ => Quiet.pure _) bs)
  · rw [readString_int16] at ht
    exact absurd ⟨t, ht⟩ ((quiet_number 2 _).bind (fun _ => Quiet.pure _) bs)
  · rw [readString_int32] at ht
    exact absurd ⟨t, ht⟩ ((quiet_number 4 _).bind (fun _ => Quiet.pure _) bs)
  · rw [readString_lzf] at ht
    rcases panics_bind.1 ⟨t, ht⟩ with hlength | ⟨n, mid₁, hcompressed, hbody₁⟩
    · exact absurd hlength (quiet_readLength bs)
    rcases panics_bind.1 hbody₁ with hlength | ⟨m, mid₂, horiginal, hbody₂⟩
    · exact absurd hlength (quiet_readLength mid₁)
    obtain ⟨c, rfl, rfl⟩ := readLength_eq_ok hcompressed
    obtain ⟨o, rfl, -⟩ := readLength_eq_ok horiginal
    rw [panics_bind_quiet fun _ => Quiet.pure _, panics_readBuffer] at hbody₂
    refine ⟨c, mid₂, hbody₂, Or.inr ⟨o, ?_⟩⟩
    simp
  · cases herr.symm.trans ht

theorem panics_of_tooLong {bs : Bytes} (h : TooLong bs) : Panics readString bs := by
  obtain ⟨l, rest, hlarge, rfl | ⟨o, rfl⟩⟩ := h
  · obtain ⟨t, ht⟩ : Panics (readStringRaw l.val) rest := panics_readStringRaw.2 hlarge
    exact ⟨t, (readString_len l rest).trans ht⟩
  · have hbody : Panics (do
        let compressedLen ← readLength
        let _originalLen ← readLength
        let _compressedData ← readBuffer compressedLen
        pure [] : Rd Bytes) (l.bytes ++ (o.bytes ++ rest)) := by
      refine panics_bind.2 (Or.inr ⟨l.val, _, reads_readLength l _, ?_⟩)
      refine panics_bind.2 (Or.inr ⟨o.val, _, reads_readLength o _, ?_⟩)
      exact panics_bind.2 (Or.inl (panics_readBuffer.2 hlarge))
    obtain ⟨t, ht⟩ := hbody
    refine ⟨t, ?_⟩
    rw [List.append_assoc]
    exact (readString_lzf (l.bytes ++ (o.bytes ++ rest))).trans ht

theorem panics_readString {bs : Bytes} : Panics readString bs ↔ TooLong bs :=
  ⟨tooLong_of_panics, panics_of_tooLong⟩

/-- Keeping the bytes makes no difference. -/
theorem panics_readStringWithRawBytes {bs : Bytes} :
    Panics readStringWithRawBytes bs ↔ TooLong bs := by
  rw [← panics_readString]
  refine panics_bind_congr fun first mid => ?_
  have hpure : ∀ {m : Rd Bytes} {g : Bytes → Bytes × Bytes} {bs : Bytes},
      Panics (do let data ← m; pure (g data)) bs ↔ Panics m bs :=
    panics_bind_quiet fun _ => Quiet.pure _
  rcases lengthType_cases first with htype | htype | htype | htype
  · simp only [htype]
    exact hpure
  · simp only [htype]
    exact panics_bind_congr fun second mid' => hpure
  · simp only [htype]
    split
    · exact panics_bind_congr fun n mid' => hpure
    · split
      · exact panics_bind_congr fun n mid' => hpure
      · exact iff_of_false (quiet_fail _ mid) (quiet_fail _ mid)
  · simp only [htype]
    generalize low6 first = encoding
    rcases encoding with _ | _ | _ | _ | encoding
    · exact panics_bind_congr fun b mid' => iff_of_false (Quiet.pure _ mid') (Quiet.pure _ mid')
    · exact panics_bind_congr fun n mid' => iff_of_false (Quiet.pure _ mid') (Quiet.pure _ mid')
    · exact panics_bind_congr fun n mid' => iff_of_false (Quiet.pure _ mid') (Quiet.pure _ mid')
    · refine panics_bind_congr fun n mid₁ => panics_bind_congr fun m mid₂ => ?_
      rw [panics_bind_quiet fun _ => Quiet.pure _, panics_bind_quiet fun _ => Quiet.pure _]
    · exact iff_of_false (quiet_fail _ mid) (quiet_fail _ mid)

/-! ## Methods -/

theorem panicsAt_readString : PanicsAt TooLong readString here := by
  intro bs
  rw [panics_readString]
  constructor
  · intro h
    exact ⟨bs, rfl, h⟩
  · rintro ⟨t, rfl, h⟩
    exact h

theorem panicsAt_readStringWithRawBytes : PanicsAt TooLong readStringWithRawBytes here := by
  intro bs
  rw [panics_readStringWithRawBytes, ← panics_readString]
  exact panicsAt_readString bs

theorem panicsAt_readRawString : PanicsAt TooLong readRawString here :=
  panicsAt_readStringWithRawBytes.bind_quiet fun _ => Quiet.pure _

theorem panicsAt_readAuxField : PanicsAt TooLong readAuxField auxStrings :=
  panicsAt_readString.bind fun _ => panicsAt_readString.bind_quiet fun _ => Quiet.pure _

theorem panicsAt_readElements (what : Text) {element : Rd Bytes} {strings : Place Bytes}
    (h : PanicsAt TooLong element strings) :
    PanicsAt TooLong (readElements what element) (elementStrings element strings) := by
  refine quiet_readLengthWithRaw.bind_at fun (count, lenRaw) => ?_
  have hloop : PanicsAt TooLong (do
      let raw ← forCount (fun raw => do let elemRaw ← element; pure (raw ++ elemRaw))
        count lenRaw
      pure (([], raw) : Bytes × Bytes)) (inRounds (fun raw => do
        let elemRaw ← element
        pure (raw ++ elemRaw)) count lenRaw strings) :=
    (PanicsAt.forCount (fun _ => h.bind_quiet fun _ => Quiet.pure _) count lenRaw).bind_quiet
      fun _ => Quiet.pure _
  dsimp only
  split
  · next hmany =>
      exact (quiet_fail_bind _ _).at_onlyIf (by omega)
  · next hfew =>
      exact hloop.onlyIf (by omega)

theorem panicsAt_skipModuleValue : PanicsAt TooLong skipModuleValue moduleStrings := by
  refine PanicsAt.loopInput ?_ fun bs rest h => taking_skipModuleItem.takes bs none rest h
  refine quiet_readLength.bind_at fun opcode => ?_
  split
  · exact (Quiet.pure _).at_onlyIf (by omega)
  · exact (quiet_readLength.bind fun _ => Quiet.pure _).at_onlyIf (by omega)
  · exact (quiet_readLength.bind fun _ => Quiet.pure _).at_onlyIf (by omega)
  · exact ((quiet_readExactly 4).bind fun _ => Quiet.pure _).at_onlyIf (by omega)
  · exact ((quiet_readExactly 8).bind fun _ => Quiet.pure _).at_onlyIf (by omega)
  · exact (panicsAt_readString.bind_quiet fun _ => Quiet.pure _).onlyIf rfl
  · exact (quiet_fail _).at_onlyIf (by omega)

/-! ## Streams -/

theorem panicsAt_repeatCount (count : Nat) {body : Rd Unit} {strings : Place Bytes}
    (h : PanicsAt TooLong body strings) :
    PanicsAt TooLong (repeatCount count body) (inRounds (fun _ => body) count () strings) :=
  PanicsAt.forCount (fun _ => h) count ()

theorem panicsAt_skipListpack : PanicsAt TooLong skipListpack listpackStrings := by
  refine panicsAt_readString.bind fun streamId => ?_
  dsimp only
  split
  · next hlen => exact (quiet_fail_bind _ _).at_onlyIf hlen
  · next hlen =>
      exact (panicsAt_readString.bind_quiet fun _ => Quiet.pure _).onlyIf (not_not.1 hlen)

theorem panicsAt_skipConsumer (rdbType : RdbType) :
    PanicsAt TooLong (skipConsumer rdbType) here := by
  have hpending : Quiet (do
      let pelCount ← readCount
      repeatCount pelCount do
        let _streamId ← readExactly 16) :=
    quiet_readCount.bind fun count =>
      quiet_repeatCount count ((quiet_readExactly 16).bind fun _ => Quiet.pure _)
  refine panicsAt_readString.bind_quiet fun _ => (quiet_number 8 _).bind fun _ => ?_
  dsimp only
  split
  · exact (quiet_number 8 _).bind fun _ => hpending
  · exact hpending

theorem panicsAt_skipConsumerGroup (rdbType : RdbType) :
    PanicsAt TooLong (skipConsumerGroup rdbType) (groupStrings rdbType) := by
  have hentry : Quiet (do
      let _streamId ← readExactly 16
      let _deliveryTime ← readU64
      skipLength) :=
    (quiet_readExactly 16).bind fun _ => (quiet_number 8 _).bind fun _ => quiet_skipLength
  have hrest : PanicsAt TooLong (do
      let globalPelCount ← readCount
      repeatCount globalPelCount do
        let _streamId ← readExactly 16
        let _deliveryTime ← readU64
        skipLength
      let consumersCount ← readCount
      repeatCount consumersCount (skipConsumer rdbType)) _ :=
    quiet_readCount.bind_at fun count => (quiet_repeatCount count hentry).bind_at fun _ =>
      quiet_readCount.bind_at fun consumers =>
        panicsAt_repeatCount consumers (panicsAt_skipConsumer rdbType)
  refine panicsAt_readString.bind fun _ => quiet_skipLength.bind_at fun _ =>
    quiet_skipLength.bind_at fun _ => ?_
  dsimp only
  split
  · next hmeta =>
      rw [pastIf, if_pos hmeta]
      exact quiet_skipLength.bind_at fun _ => hrest
  · next hmeta =>
      rw [pastIf, if_neg hmeta]
      exact hrest

theorem panicsAt_skipStream (rdbType : RdbType) :
    PanicsAt TooLong (skipStream rdbType) (streamStrings rdbType) := by
  have hgroups : PanicsAt TooLong (do
      let cgroupsCount ← readCount
      repeatCount cgroupsCount (skipConsumerGroup rdbType)) _ :=
    quiet_readCount.bind_at fun count =>
      panicsAt_repeatCount count (panicsAt_skipConsumerGroup rdbType)
  refine quiet_readCount.bind_at fun count =>
    (panicsAt_repeatCount count panicsAt_skipListpack).bind fun _ =>
      quiet_skipLength.bind_at fun _ => quiet_skipLength.bind_at fun _ => ?_
  dsimp only
  split
  · next hmeta =>
      rw [pastIf, if_pos hmeta]
      exact (quiet_repeatCount 5 quiet_skipLength).bind_at fun _ => hgroups
  · next hmeta =>
      rw [pastIf, if_neg hmeta]
      exact hgroups

/-- The errors are caught, and a panic is none. -/
theorem panics_readStreamValue {rdbType : RdbType} {bs : Bytes} :
    Panics (readStreamValue rdbType) bs ↔ Panics (skipStream rdbType) bs := by
  constructor
  · rintro ⟨t, ht⟩
    rw [readStreamValue] at ht
    split at ht
    · cases ht
    · cases ht
    · next hskip =>
        cases ht
        exact ⟨t, hskip⟩
  · rintro ⟨t, ht⟩
    refine ⟨t, ?_⟩
    rw [readStreamValue, ht]

/-! ## Records -/

theorem panicsAt_readValue (rdbType : RdbType) :
    PanicsAt TooLong (readValue rdbType) (valueStrings rdbType) := by
  have hstream : ∀ t, PanicsAt TooLong (readStreamValue t) (streamStrings t) := by
    intro t bs
    rw [panics_readStreamValue]
    exact panicsAt_skipStream t bs
  cases rdbType with
  | list | set | quicklist | quicklist2 =>
      exact panicsAt_readElements _ panicsAt_readRawString
  | hash =>
      exact panicsAt_readElements _ (panicsAt_readRawString.bind fun _ =>
        panicsAt_readRawString.bind_quiet fun _ => Quiet.pure _)
  | sortedSet | sortedSet2 =>
      exact panicsAt_readElements _ (panicsAt_readRawString.bind_quiet fun _ =>
        (quiet_readExactly 8).bind fun _ => Quiet.pure _)
  | module | module2 =>
      exact (quiet_number 8 _).bind_at fun _ =>
        panicsAt_readString.bind_quiet fun _ => Quiet.pure _
  | streamListpacks | streamListpacks2 | streamListpacks3 => exact hstream _
  | _ => exact panicsAt_readStringWithRawBytes

section Run

variable {σ α β : Type} {upd : σ → BinEntry → σ} {p q : RdbParser σ} {s : σ} {bs : Bytes}

/-- A place of the input, for a method that carries more than that. -/
def ofReader (P : Place Bytes) : Place (RdbParser σ) := fun p q => P p.reader q.reader

/-- What the reader still holds begins with a string that is too long. -/
def LongString (p : RdbParser σ) : Prop := TooLong p.reader

theorem panics_onReader {m : Rd α} : Panics (onReader m) p ↔ Panics m p.reader := by
  constructor
  · rintro ⟨q, hq⟩
    rw [onReader] at hq
    split at hq
    · cases hq
    · next hm =>
        cases hq
        exact ⟨_, hm⟩
  · rintro ⟨rest, hrest⟩
    refine ⟨{ p with reader := rest }, ?_⟩
    rw [onReader, hrest]

theorem quiet_onReader {m : Rd α} (h : Quiet m) : Quiet (onReader m : ParseM σ α) := by
  intro p
  rw [panics_onReader]
  exact h p.reader

theorem quiet_modifyState (f : RdbParserState → RdbParserState) :
    Quiet (modifyState f : ParseM σ Unit) := by
  rintro p ⟨q, hq⟩
  cases hq

theorem quiet_onSink (entry : BinEntry) : Quiet (onSink (accepting upd entry)) := by
  rintro p ⟨q, hq⟩
  cases hq

theorem panicsAt_onReader {m : Rd α} {P : Place Bytes} (h : PanicsAt TooLong m P) :
    PanicsAt LongString (onReader m : ParseM σ α) (ofReader P) := by
  intro p
  rw [panics_onReader, h p.reader]
  constructor
  · rintro ⟨t, hP, hlong⟩
    exact ⟨{ p with reader := t }, hP, hlong⟩
  · rintro ⟨q, hP, hlong⟩
    exact ⟨q.reader, hP, hlong⟩

theorem after_onReader {m : Rd α} {R : α → Place Bytes} :
    afterOk (onReader m : ParseM σ α) (fun a => ofReader (R a)) = ofReader (afterOk m R) := by
  funext p q
  refine propext ⟨?_, ?_⟩
  · rintro ⟨a, u, ha, hR⟩
    exact ⟨a, u.reader, (onReader_eq_ok.1 ha).1, hR⟩
  · rintro ⟨a, rest, ha, hR⟩
    exact ⟨a, { p with reader := rest }, onReader_eq_ok.2 ⟨ha, rfl⟩, hR⟩

theorem panicsAt_bind_reader {m : Rd α} {f : α → ParseM σ β} {P : Place Bytes}
    {R : α → Place Bytes} (hm : PanicsAt TooLong m P)
    (hf : ∀ a, PanicsAt LongString (f a) (ofReader (R a))) :
    PanicsAt LongString (onReader m >>= f) (ofReader (P.either (afterOk m R))) := by
  have h := (panicsAt_onReader hm).bind hf
  rw [after_onReader] at h
  exact h

theorem panicsAt_quiet_reader {m : Rd α} {f : α → ParseM σ β} {R : α → Place Bytes}
    (hm : Quiet m) (hf : ∀ a, PanicsAt LongString (f a) (ofReader (R a))) :
    PanicsAt LongString (onReader m >>= f) (ofReader (afterOk m R)) := by
  have h := (quiet_onReader hm).bind_at hf
  rw [after_onReader] at h
  exact h

theorem panicsAt_readKeyValue (rdbType : RdbType) :
    PanicsAt LongString (readKeyValue rdbType : ParseM σ BinEntry)
      (ofReader (here.either (past readString (valueStrings rdbType)))) := by
  refine panicsAt_bind_reader panicsAt_readString fun key => ?_
  refine (panicsAt_onReader (panicsAt_readValue rdbType)).bind_quiet fun (value, rawValue) => ?_
  rintro p ⟨q, hq⟩
  cases hq

theorem recordStrings_toByte (rdbType : RdbType) :
    recordStrings rdbType.toByte = here.either (past readString (valueStrings rdbType)) := by
  cases rdbType <;> rfl

/-- The arms of `parse` panic where their records have strings. -/
theorem panicsAt_parseRecord (opcode : UInt8) :
    PanicsAt LongString (parseRecord (accepting upd) opcode)
      (ofReader (recordStrings opcode)) := by
  have hinline : ∀ text, Quiet (onReader (readInlineLength text) : ParseM σ Nat) :=
    fun text => quiet_onReader (quiet_readInlineLength text)
  cases htype : RdbType.fromByte opcode with
  | some rdbType =>
      obtain rfl := eq_toByte_of_fromByte htype
      rw [parseRecord_type, recordStrings_toByte]
      refine (panicsAt_readKeyValue rdbType).bind_quiet fun entry => ?_
      split
      · exact quiet_onSink entry
      · exact Quiet.pure _
  | none =>
      rw [parseRecord, recordStrings]
      split
      case h_1 h =>
          simp only [h]
          exact panicsAt_quiet_reader quiet_readLength fun _ =>
            panicsAt_onReader panicsAt_skipModuleValue
      case h_2 h =>
          simp only [h]
          exact ((quiet_onReader quiet_readLength).bind fun _ => Quiet.pure _).at_nowhere
      case h_3 h =>
          simp only [h]
          exact ((quiet_onReader quiet_readByte).bind fun _ => Quiet.pure _).at_nowhere
      case h_4 h =>
          simp only [h]
          refine (panicsAt_onReader panicsAt_readAuxField).bind_quiet fun aux => ?_
          split
          · exact quiet_modifyState _
          · exact Quiet.pure _
      case h_5 h =>
          simp only [h]
          exact ((hinline _).bind fun _ => (hinline _).bind fun _ => Quiet.pure _).at_nowhere
      case h_6 h =>
          simp only [h]
          exact ((quiet_onReader (quiet_number 8 _)).bind fun _ =>
            quiet_modifyState _).at_nowhere
      case h_7 h =>
          simp only [h]
          exact ((quiet_onReader (quiet_number 4 _)).bind fun _ =>
            quiet_modifyState _).at_nowhere
      case h_8 h =>
          simp only [h]
          exact ((hinline _).bind fun _ => quiet_modifyState _).at_nowhere
      case h_9 =>
          simp only [htype]
          exact (Quiet.pure ()).at_nowhere

/-! ## The file -/

theorem panics_parseStep (hrunning : p.state.eofReached = false) :
    Panics (parseStep (accepting upd)) p ↔
      ∃ opcode rest t, p.reader = opcode :: rest ∧ recordStrings opcode rest t ∧ TooLong t := by
  have hstep : parseStep (accepting upd) p = (do
      let opcode ← onReader readByte
      if opcode = 0xFF then
        modifyState fun s => { s with eofReached := true }
        pure (some ())
      else
        parseRecord (accepting upd) opcode
        pure none) p := by
    rw [parseStep, bind_of_ok (get_apply p), hrunning, if_neg Bool.false_ne_true]
  rw [Panics, hstep]
  constructor
  · intro h
    rcases panics_bind.1 h with hbyte | ⟨opcode, p₁, hbyte, hrest⟩
    · exact absurd hbyte (quiet_onReader quiet_readByte p)
    have hreader := bs_eq_cons_of_readByte (onReader_eq_ok.1 hbyte).1
    split at hrest
    · exact absurd hrest ((quiet_modifyState _).bind (fun _ => Quiet.pure _) p₁)
    · rw [panics_bind_quiet fun _ => Quiet.pure _] at hrest
      obtain ⟨q, hstrings, hlong⟩ := (panicsAt_parseRecord opcode p₁).1 hrest
      exact ⟨opcode, p₁.reader, q.reader, hreader, hstrings, hlong⟩
  · rintro ⟨opcode, rest, t, hreader, hstrings, hlong⟩
    have hop : opcode ≠ 0xFF := by
      rintro rfl
      exact hstrings
    refine panics_bind.2 (Or.inr ⟨opcode, _, onReader_readByte hreader, ?_⟩)
    rw [if_neg hop, panics_bind_quiet fun _ => Quiet.pure _]
    exact (panicsAt_parseRecord opcode { p with reader := rest }).2
      ⟨{ p with reader := t }, hstrings, hlong⟩

/-- Some round panics. -/
theorem panics_parse :
    Panics (parse (accepting upd)) (RdbParser.new bs s) ↔
      ∃ p, Reached (accepting upd) s bs p ∧ Panics (parseStep (accepting upd)) p := by
  constructor
  · rintro ⟨t, ht⟩
    cases hheader : readHeader (RdbParser.new bs s) with
    | error e q =>
        have hquiet : Quiet (readHeader : ParseM σ Unit) :=
          (quiet_onReader quiet_readMagic).bind fun _ =>
            (quiet_onReader quiet_readVersion).bind fun _ => quiet_modifyState _
        rw [parse_of_readHeader_error hheader] at ht
        cases ht
        exact absurd ⟨t, hheader⟩ (hquiet _)
    | ok _ p₀ =>
        rw [parse_of_readHeader hheader] at ht
        have hloop : Panics (loopFuel (parseStep (accepting upd)) (p₀.left + 1)) p₀ :=
          (panics_bind_quiet fun _ => Quiet.pure _).1 ⟨t, ht⟩
        obtain ⟨p, hrounds, hpanics⟩ := (panics_loopFuel (fun _ _ h => Round.takes h)
          (Nat.lt_succ_self p₀.left)).1 hloop
        exact ⟨p, ⟨p₀, hheader, hrounds⟩, hpanics⟩
  · rintro ⟨p, hreached, hpanics⟩
    obtain ⟨fuel, hlt, hparse⟩ := hreached.parse
    have hloop : Panics (loopFuel (parseStep (accepting upd)) fuel) p :=
      (panics_loopFuel (fun _ _ h => Round.takes h) hlt).2 ⟨p, .refl, hpanics⟩
    rw [Panics, hparse]
    exact (panics_bind_quiet fun _ => Quiet.pure _).2 hloop

/-- `parse` answers or fails. -/
def Returns (callback : BinEntry → EStateM (Fault SyncError) σ Unit) (s : σ) (bs : Bytes) :
    Prop :=
  (∃ fields q, parse callback (RdbParser.new bs s) = .ok fields q) ∨
    ∃ e q, parse callback (RdbParser.new bs s) = .error (.err e) q

theorem returns_iff_not_panics : Returns (accepting upd) s bs ↔
    ¬ Panics (parse (accepting upd)) (RdbParser.new bs s) := by
  constructor
  · rintro (⟨fields, q, hok⟩ | ⟨e, q, herr⟩) ⟨t, ht⟩
    · cases hok.symm.trans ht
    · cases herr.symm.trans ht
  · intro hquiet
    cases h : parse (accepting upd) (RdbParser.new bs s) with
    | ok fields q => exact Or.inl ⟨fields, q, h⟩
    | error e q =>
        cases e with
        | err e => exact Or.inr ⟨e, q, h⟩
        | panic => exact absurd ⟨q, h⟩ hquiet
        | fuel =>
            have hhalts : HaltingCallback (accepting upd) := by
              rintro entry s t hentry
              cases hentry
            exact absurd h (parse_halts hhalts _ _)

/-- With a callback that accepts everything, `parse` ends with an answer or an
error, on every input in which it does not come to a string that declares more
bytes than a buffer can have; and on such a string it panics. An allocation of at
most `isize::MAX` bytes is taken to succeed. -/
theorem returns_iff (upd : σ → BinEntry → σ) (s : σ) (bs : Bytes) :
    Returns (accepting upd) s bs ↔
      ∀ t, ComesToString (accepting upd) s bs t → ¬ TooLong t := by
  rw [returns_iff_not_panics, panics_parse]
  constructor
  · rintro hquiet t ⟨p, opcode, rest, hreached, hreader, hstrings⟩ hlong
    exact hquiet ⟨p, hreached, (panics_parseStep hreached.running).2
      ⟨opcode, rest, t, hreader, hstrings, hlong⟩⟩
  · rintro hfits ⟨p, hreached, hpanics⟩
    obtain ⟨opcode, rest, t, hreader, hstrings, hlong⟩ :=
      (panics_parseStep hreached.running).1 hpanics
    exact hfits t ⟨p, opcode, rest, hreached, hreader, hstrings⟩ hlong

end Run

/-- A key with a value that declares `2 ^ 63` bytes. -/
def hugeFile : Bytes :=
  asBytes "REDIS0009".toList ++ [0, 1, 0x6B, 0x81, 0x80, 0, 0, 0, 0, 0, 0, 0]

theorem not_returns : ¬ Returns (accepting keep) [] hugeFile := by
  rw [returns_iff_not_panics, not_not]
  exact ⟨_, rfl⟩

end RedisHaTool.Rdb
