import RedisHaTool.Proofs.RdbStreams
import RedisHaTool.Rdb.Records

/-!
# Bodies as they are taken

The reader of a body, with nothing of what the parser does with it, answers exactly
over what `BodyTaken` says. Each of the methods it is made of answers over a language
of its own: over the things of the format where the method reads by it, and over
another language where it does not. The language of a body is put together as the
methods are.
-/

namespace RedisHaTool.Rdb

open Lib

/-! ## The bytes that begin a record -/

theorem eq_ofNat_of_toNat {b : UInt8} {n : Nat} (h : b.toNat = n) : b = UInt8.ofNat n := by
  rw [← h, UInt8.ofNat_toNat]

theorem eq_toByte_of_fromByte {b : UInt8} {t : RdbType} (h : RdbType.fromByte b = some t) :
    b = t.toByte := by
  rw [RdbType.fromByte] at h
  split at h
  case h_22 => cases h
  all_goals
    next hb =>
      obtain rfl := Option.some.inj h
      exact UInt8.toNat_inj.1 hb

/-! ## Numbers and strings -/

theorem recognizes_readExactly (n : Nat) : RecognizesIn (readExactly n) (blocks n) := by
  refine .of_reads (fun bs : Block n => ⟨bs.1, reads_readExactly bs.2⟩) fun bs a rest h => ?_
  obtain ⟨hlen, hbs⟩ := readExactly_eq_ok h
  exact ⟨⟨a, hlen⟩, hbs⟩

theorem recognizes_readByte : RecognizesIn readByte (blocks 1) := by
  refine .of_reads (fun bs : Block 1 => ?_) fun bs b rest h => ?_
  · obtain ⟨b, hb⟩ := List.length_eq_one_iff.1 bs.2
    exact ⟨b, hb ▸ reads_byte b⟩
  · exact ⟨⟨[b], rfl⟩, bs_eq_cons_of_readByte h⟩

theorem recognizes_readLength : RecognizesIn readLength lens := by
  refine .of_reads (fun l => ⟨l.val, reads_readLength l⟩) fun bs n rest h => ?_
  obtain ⟨l, hbs, -⟩ := readLength_eq_ok h
  exact ⟨l, hbs⟩

theorem recognizes_readString : RecognizesIn readString strings := by
  refine .of_reads (fun s => ⟨s.value, reads_readString s⟩) fun bs v rest h => ?_
  obtain ⟨s, hbs, -⟩ := readString_eq_ok h
  exact ⟨s, hbs⟩

theorem recognizes_readStringWithRawBytes : RecognizesIn readStringWithRawBytes strings := by
  refine .of_reads (fun s => ⟨_, reads_readStringWithRawBytes s⟩) fun bs r rest h => ?_
  obtain ⟨s, hbs, -⟩ := readStringWithRawBytes_eq_ok h
  exact ⟨s, hbs⟩

theorem recognizes_readRawString : RecognizesIn readRawString strings :=
  recognizes_readStringWithRawBytes.bind_pure

/-! ## Lengths that are read in other ways -/

theorem readInlineLength_wide {first : UInt8} (h : isWide first) (unsupported : Text)
    (bs : Bytes) : readInlineLength unsupported (first :: bs) = readU32 bs := by
  have htype : lengthType first = 2 := by
    simp only [isWide, Bool.and_eq_true, decide_eq_true_eq, UInt8.le_iff_toNat_le,
      UInt8.lt_iff_toNat_lt, UInt8.reduceToNat] at h
    rw [lengthType_eq]
    omega
  have hread : readByte (first :: bs) = .ok first bs := rfl
  rw [readInlineLength, bind_of_ok hread]
  simp only [htype]

theorem isWide_of_lengthType {first : UInt8} (htype : lengthType first = 2)
    (hnarrow : first ≠ 0x80) : isWide first := by
  have hlt := first.toNat_lt
  simp only [lengthType_eq, ne_eq, ← UInt8.toNat_inj, isWide, Bool.and_eq_true,
    decide_eq_true_eq, UInt8.le_iff_toNat_le, UInt8.lt_iff_toNat_lt,
    UInt8.reduceToNat] at htype hnarrow ⊢
  omega

theorem recognizes_readInlineLength (unsupported : Text) :
    RecognizesIn (readInlineLength unsupported) inlineLens := by
  intro bs rest
  constructor
  · rintro ⟨n, h⟩
    obtain ⟨first, mid, hfirst, hbody⟩ := bind_eq_ok.1 h
    obtain rfl := bs_eq_cons_of_readByte hfirst
    rcases lengthType_cases first with htype | htype | htype | htype
    · simp only [htype] at hbody
      cases hbody
      obtain ⟨l, hform, hbytes, -⟩ := six_of_lengthType htype
      exact ⟨[first], rfl, .inl ⟨l, by rw [hform]; decide, hbytes.symm⟩⟩
    · simp only [htype] at hbody
      obtain ⟨second, mid', hsecond, hpure⟩ := bind_eq_ok.1 hbody
      obtain rfl := bs_eq_cons_of_readByte hsecond
      cases hpure
      obtain ⟨l, hform, hbytes, -⟩ := fourteen_of_lengthType second htype
      exact ⟨[first, second], rfl, .inl ⟨l, by rw [hform]; decide, hbytes.symm⟩⟩
    · simp only [htype] at hbody
      obtain ⟨ds, hlen, rfl, -⟩ := readNumber_eq_ok hbody
      refine ⟨first :: ds, rfl, ?_⟩
      by_cases h80 : first = 0x80
      · obtain ⟨l, hform, hbytes, -⟩ := len32_of_bytes hlen
        exact .inl ⟨l, by rw [hform]; decide, by rw [hbytes, h80]⟩
      · exact .inr ⟨first, ⟨ds, hlen⟩, isWide_of_lengthType htype h80, rfl⟩
    · simp only [htype] at hbody
      cases hbody
  · rintro ⟨_, rfl, ⟨l, hform, rfl⟩ | ⟨first, ds, hwide, rfl⟩⟩
    · obtain ⟨v, hreads, -⟩ := reads_readInlineLength hform unsupported
      exact ⟨v, hreads rest⟩
    · refine ⟨leNat ds.1, (readInlineLength_wide hwide unsupported (ds.1 ++ rest)).trans ?_⟩
      have hreads : Reads readU32 ds.1 (leNat ds.1) := reads_number ds.2 rfl
      exact hreads rest

/-- From a byte that begins no length on, there are the integers only. -/
theorem readLengthWithRaw_first {b : UInt8} (h : 0x81 < b) (hint : rawInt b = none)
    (left : Bytes) : ∃ e, readLengthWithRaw (b :: left) = .error (.err e) left := by
  obtain ⟨htype, h80, h81⟩ := lengthType_of_gt h
  have hread : readByte (b :: left) = .ok b left := rfl
  rw [readLengthWithRaw, bind_of_ok hread]
  rcases htype with ⟨htype, -⟩ | ⟨htype, hge⟩
  · simp only [htype, if_neg h80, if_neg h81]
    exact ⟨_, rfl⟩
  · have hnone : b ≠ 0xC0 ∧ b ≠ 0xC1 ∧ b ≠ 0xC2 := by
      refine ⟨?_, ?_, ?_⟩ <;>
        · rintro rfl
          revert hint
          decide
    have hlow : low6 b ≠ 0 ∧ low6 b ≠ 1 ∧ low6 b ≠ 2 := by
      have hlt := b.toNat_lt
      simp only [low6_eq, UInt8.le_iff_toNat_le, ne_eq, ← UInt8.toNat_inj,
        UInt8.reduceToNat] at hge hnone ⊢
      omega
    generalize low6 b = encoding at hlow ⊢
    rcases encoding with _ | _ | _ | encoding
    · exact absurd rfl hlow.1
    · exact absurd rfl hlow.2.1
    · exact absurd rfl hlow.2.2
    · simp only [htype]
      exact ⟨_, rfl⟩

theorem reads_rawInt {first : UInt8} {data : Bytes} (h : rawInt first = some data.length) :
    ∃ raw, Reads readLengthWithRaw (first :: data) (leNat data, raw) := by
  rw [rawInt] at h
  split at h
  · next hfirst =>
      subst hfirst
      obtain ⟨b, rfl⟩ := List.length_eq_one_iff.1 (Option.some.inj h).symm
      have hvalue : leNat [b] = b.toNat := by
        rw [leNat, leNat]
        omega
      rw [hvalue]
      exact ⟨[0xC0, b], fun _ => rfl⟩
  · split at h
    · next hfirst =>
        subst hfirst
        have hread : Reads readU16 data (leNat data) :=
          reads_number (Option.some.inj h).symm rfl
        refine ⟨0xC1 :: toLeBytes 2 (leNat data), reads_readByte ?_⟩
        simp only [lengthType_int16]
        exact hread.bind_pure (Reads.pure _)
    · split at h
      · next hfirst =>
          subst hfirst
          have hread : Reads readU32 data (leNat data) :=
            reads_number (Option.some.inj h).symm rfl
          refine ⟨0xC2 :: toLeBytes 4 (leNat data), reads_readByte ?_⟩
          simp only [lengthType_int32]
          exact hread.bind_pure (Reads.pure _)
      · cases h

theorem reads_anyLenWithRaw (l : AnyLen rawInt) :
    ∃ raw, Reads readLengthWithRaw l.bytes (l.rawCount, raw) := by
  cases l with
  | len l => exact ⟨_, reads_readLengthWithRaw l⟩
  | int first data h => exact reads_rawInt h

theorem readLengthWithRaw_eq_ok {bs rest : Bytes} {r : Nat × Bytes}
    (h : readLengthWithRaw bs = .ok r rest) :
    ∃ l : AnyLen rawInt, bs = l.bytes ++ rest ∧ r.1 = l.rawCount := by
  rcases @anyLen_cases rawInt bs with ⟨l, rest', rfl⟩ | ⟨taken, left, rfl, hnone⟩
  · obtain ⟨raw, hreads⟩ := reads_anyLenWithRaw l
    cases (hreads rest').symm.trans h
    exact ⟨l, rfl, rfl⟩
  · have herror : ∃ e, readLengthWithRaw (taken ++ left) = .error (.err e) left := by
      cases hnone with
      | cut l hpre hne =>
          obtain ⟨raw, hreads⟩ := reads_anyLenWithRaw l
          rw [List.append_nil]
          exact ranOut_of_cut plain_readLengthWithRaw hreads hpre hne
      | first left hb hint => exact readLengthWithRaw_first hb hint left
    obtain ⟨e, herror⟩ := herror
    cases herror.symm.trans h

/-! ## Loops -/

theorem recognizes_readElements {ι : Type} {enc : ι → Bytes} {element : Rd Bytes}
    (h : RecognizesIn element (encodings enc)) (what : Text) :
    RecognizesIn (readElements what element) (countedRaw enc) := by
  let round (raw : Bytes) : Rd Bytes := do
    let elemRaw ← element
    pure (raw ++ elemRaw)
  have hrounds : ∀ n raw, RecognizesIn (forCount round n raw)
      {bs | ∃ items : List ι, n = items.length ∧ bs = items.flatMap enc} :=
    fun n raw => RecognizesIn.times (fun _ => h.bind_pure) n raw
  intro bs rest
  constructor
  · rintro ⟨r, h⟩
    obtain ⟨⟨count, lenRaw⟩, mid, hcount, hbody⟩ := bind_eq_ok.1 h
    obtain ⟨l, rfl, rfl⟩ := readLengthWithRaw_eq_ok hcount
    dsimp only at hbody
    split at hbody
    · obtain ⟨_, _, hfail, -⟩ := bind_eq_ok.1 hbody
      cases hfail
    · next hlimit =>
        obtain ⟨raw, mid', hloop, hpure⟩ := bind_eq_ok.1 hbody
        cases hpure
        obtain ⟨_, rfl, items, hlen, rfl⟩ := (hrounds _ _ _ _).1 ⟨raw, hloop⟩
        exact ⟨_, (List.append_assoc ..).symm, l, items, hlen, by omega, rfl⟩
  · rintro ⟨_, rfl, l, items, hlen, hlimit, rfl⟩
    obtain ⟨raw, hreads⟩ := reads_anyLenWithRaw l
    obtain ⟨raw', hloop⟩ := (hrounds l.rawCount raw (items.flatMap enc ++ rest) rest).2
      ⟨_, rfl, items, hlen, rfl⟩
    refine ⟨([], raw'), ?_⟩
    rw [readElements, List.append_assoc, bind_of_ok (hreads _)]
    have hsmall : ¬ l.rawCount > 100000000 := by omega
    dsimp only
    rw [if_neg hsmall]
    exact bind_of_ok hloop

/-- A small number is one in some form. -/
theorem small_of_val {l : Len} {n : Nat} (hval : l.val = n) (h : n < 2 ^ 6) :
    l = Len.small l.form n h := by
  subst hval
  rfl

theorem skipModuleItem_eq_ok {bs rest : Bytes} {r : Option Unit}
    (h : skipModuleItem bs = .ok r rest) :
    (r = none ∧ ∃ item : ModuleItem, bs = item.bytes ++ rest) ∨
      ∃ a form, r = some a ∧ bs = (Len.small form 0 zero_fits).bytes ++ rest := by
  obtain ⟨opcode, mid, hopcode, hbody⟩ := bind_eq_ok.1 h
  obtain ⟨l, rfl, hval⟩ := readLength_eq_ok hopcode
  have hitem : ∀ {n : Nat} (hn : n < 2 ^ 6) (data : Bytes), l.val = n →
      l.bytes ++ (data ++ rest) = (Len.small l.form n hn).bytes ++ data ++ rest := by
    intro n hn data hval
    rw [← small_of_val hval hn, List.append_assoc]
  rcases opcode with _ | _ | _ | _ | _ | _ | opcode
  · cases hbody
    exact .inr ⟨(), l.form, rfl, by rw [← small_of_val hval]⟩
  · obtain ⟨n, mid', hvalue, hpure⟩ := bind_eq_ok.1 hbody
    cases hpure
    obtain ⟨i, rfl, -⟩ := readLength_eq_ok hvalue
    exact .inl ⟨rfl, .sint l.form i, hitem _ _ hval⟩
  · obtain ⟨n, mid', hvalue, hpure⟩ := bind_eq_ok.1 hbody
    cases hpure
    obtain ⟨i, rfl, -⟩ := readLength_eq_ok hvalue
    exact .inl ⟨rfl, .uint l.form i, hitem _ _ hval⟩
  · obtain ⟨ds, mid', hvalue, hpure⟩ := bind_eq_ok.1 hbody
    cases hpure
    obtain ⟨hlen, rfl⟩ := readExactly_eq_ok hvalue
    exact .inl ⟨rfl, .float l.form ⟨ds, hlen⟩, hitem _ _ hval⟩
  · obtain ⟨ds, mid', hvalue, hpure⟩ := bind_eq_ok.1 hbody
    cases hpure
    obtain ⟨hlen, rfl⟩ := readExactly_eq_ok hvalue
    exact .inl ⟨rfl, .double l.form ⟨ds, hlen⟩, hitem _ _ hval⟩
  · obtain ⟨v, mid', hvalue, hpure⟩ := bind_eq_ok.1 hbody
    cases hpure
    obtain ⟨s, rfl, -⟩ := readString_eq_ok hvalue
    exact .inl ⟨rfl, .string l.form s, hitem _ _ hval⟩
  · cases hbody

theorem recognizes_skipModuleValue : RecognizesIn skipModuleValue
    (encodings fun data : List ModuleItem × LenForm =>
      data.1.flatMap ModuleItem.bytes ++ (Len.small data.2 0 zero_fits).bytes) := by
  have hlast : ∀ form, ∃ a, Reads skipModuleItem (Len.small form 0 zero_fits).bytes (some a) :=
    fun form => ⟨(), (reads_readLength _).bind_pure (Reads.pure (some ()))⟩
  refine .loopInput (fun item => ?_) reads_skipModuleItem hlast fun _ _ _ => skipModuleItem_eq_ok
  cases item <;> exact List.append_ne_nil_of_left_ne_nil (len_bytes_ne_nil _) _

/-! ## Values -/

theorem recognizes_readPair : RecognizesIn (do
      let fieldRaw ← readRawString
      let valueRaw ← readRawString
      pure (fieldRaw ++ valueRaw)) (encodings pairBytes) := by
  have hpair : encodings pairBytes = strings * strings := (encodings_mul _ _).symm
  rw [hpair]
  exact recognizes_readRawString.mul fun _ => recognizes_readRawString.bind_pure

theorem recognizes_readMember : RecognizesIn (do
      let memberRaw ← readRawString
      let scoreBuf ← readExactly 8
      pure (memberRaw ++ scoreBuf)) (encodings doubleBytes) := by
  have hpair : encodings doubleBytes = strings * blocks 8 :=
    (encodings_mul RdbString.bytes fun bs : Block 8 => bs.1).symm
  rw [hpair]
  exact recognizes_readRawString.mul fun _ => (recognizes_readExactly 8).bind_pure

theorem recognizes_readStreamValue (rdbType : RdbType) :
    Recognizes (readStreamValue rdbType) (StreamTaken rdbType) := by
  intro bs rest
  constructor
  · rintro ⟨value, h⟩
    exact (readStreamValue_eq_ok.1 h).2
  · exact fun h => ⟨_, readStreamValue_eq_ok.2 ⟨rfl, h⟩⟩

theorem recognizes_readValue (rdbType : RdbType) :
    Recognizes (readValue rdbType) (ValueTaken rdbType) := by
  cases rdbType with
  | list | set | quicklist | quicklist2 => exact recognizes_readElements recognizes_readRawString _
  | hash => exact recognizes_readElements recognizes_readPair _
  | sortedSet | sortedSet2 => exact recognizes_readElements recognizes_readMember _
  | module | module2 =>
      exact RecognizesIn.mul (recognizes_readExactly 8).bind_pure
        fun _ => recognizes_readString.bind_pure
  | streamListpacks | streamListpacks2 | streamListpacks3 => exact recognizes_readStreamValue _
  | _ => exact recognizes_readStringWithRawBytes

/-! ## Bodies -/

/-- The reader of a body, without what is done with it. -/
def readBody (opcode : UInt8) : Rd Unit := do
  match opcode.toNat with
  | 0xF7 =>
    let _moduleId ← readLength
    skipModuleValue
  | 0xF8 =>
    let _idle ← readLength
  | 0xF9 =>
    let _freq ← readByte
  | 0xFA =>
    let _aux ← readAuxField
  | 0xFB =>
    let _dbSize ← readInlineLength "ResizeDB db_size 特殊编码不支持".toList
    let _expiresSize ← readInlineLength "ResizeDB expires_size 特殊编码不支持".toList
  | 0xFC =>
    let _expireMs ← readU64
  | 0xFD =>
    let _expireS ← readU32
  | 0xFE =>
    let _db ← readInlineLength "SelectDB 特殊编码不支持".toList
  | _ =>
    match RdbType.fromByte opcode with
    | some rdbType =>
      let _key ← readString
      let _value ← readValue rdbType
    | none => fail []

/-- A key and a value. -/
theorem recognizes_keyValue (rdbType : RdbType) :
    Recognizes (do
      let _key ← readString
      let _value ← readValue rdbType) (BodyTaken rdbType.toByte) := by
  refine (recognizes_readString.bind fun _ => (recognizes_readValue rdbType).bind_pure).congr
    fun taken left => ?_
  have htaken : BodyTaken rdbType.toByte taken left ↔
      ∃ (key : RdbString) (value : Bytes), taken = key.bytes ++ value ∧
        ValueTaken rdbType value left := by
    cases rdbType <;> exact Iff.rfl
  rw [htaken]
  constructor
  · rintro ⟨_, ⟨key, rfl⟩, value, rfl, h⟩
    exact ⟨key, value, rfl, h⟩
  · rintro ⟨key, value, rfl, h⟩
    exact ⟨key.bytes, mem_encodings _ key, value, rfl, h⟩

theorem recognizes_readBody (opcode : UInt8) : Recognizes (readBody opcode) (BodyTaken opcode) := by
  unfold readBody
  split
  case h_9 =>
    split
    · next rdbType htype =>
        obtain rfl := eq_toByte_of_fromByte htype
        exact recognizes_keyValue rdbType
    · next hnone =>
        refine (Recognizes.never fun bs a rest h => by cases h).congr fun taken left => ?_
        rw [BodyTaken]
        split
        case h_9 => rw [hnone]
        all_goals contradiction
  all_goals
    rename_i hopcode
    obtain rfl := eq_ofNat_of_toNat hopcode
  · exact recognizes_readLength.mul fun _ => recognizes_skipModuleValue
  · exact recognizes_readLength.bind_pure
  · exact recognizes_readByte.bind_pure
  · exact (recognizes_readString.mul fun _ => recognizes_readString.bind_pure).bind_pure
  · exact (recognizes_readInlineLength _).mul fun _ => (recognizes_readInlineLength _).bind_pure
  · exact (recognizes_readExactly 8).bind_pure.bind_pure
  · exact (recognizes_readExactly 4).bind_pure.bind_pure
  · exact (recognizes_readInlineLength _).bind_pure

end RedisHaTool.Rdb
