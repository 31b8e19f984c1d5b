import RedisHaTool.Rdb.Format

/-!
# The parser reads every RDB file

One fact per method of the parser, each of the form "on any input that starts
with this encoding the method takes exactly the encoding and answers that". The
facts compose along the parser's own structure: lengths, strings, counted
sequences, values, records, and at last the main loop, whose invariant is the
cursor: the database and the expiry that the records so far leave for the next
key record.

Nothing here depends on what follows the encoding, which is why a record is read
the same wherever it stands in a file.
-/

namespace RedisHaTool.Rdb

open Lib

/-! ## Bytes and numbers -/

theorem reads_byte (b : UInt8) : Reads readByte [b] b := Reads.u8 SyncError.eof b

theorem reads_readByte {β : Type} {f : UInt8 → Rd β} {b : UInt8} {bs : Bytes} {r : β}
    (h : Reads (f b) bs r) : Reads (readByte >>= f) (b :: bs) r :=
  (reads_byte b).bind h

theorem reads_readExactly {n : Nat} {bs : Bytes} (h : bs.length = n) :
    Reads (readExactly n) bs bs :=
  Reads.exact SyncError.eof h

/-- A number of fixed width, decoded from the bytes it takes. -/
theorem reads_number {n v : Nat} {bs : Bytes} {dec : Bytes → Nat}
    (hlen : bs.length = n) (hdec : dec bs = v) :
    Reads (do let bs ← readExactly n; pure (dec bs)) bs v := by
  have h := (reads_readExactly hlen).bind_pure (f := fun bs => pure (dec bs))
    (Reads.pure (dec bs))
  rwa [hdec] at h

theorem reads_readU16 {v : Nat} (h : v < 2 ^ 16) : Reads readU16 (toLeBytes 2 v) v :=
  reads_number (length_toLeBytes 2 v) (leNat_toLeBytes h)

theorem reads_readU32 {v : Nat} (h : v < 2 ^ 32) : Reads readU32 (toLeBytes 4 v) v :=
  reads_number (length_toLeBytes 4 v) (leNat_toLeBytes h)

theorem reads_readU64 {v : Nat} (h : v < 2 ^ 64) : Reads readU64 (toLeBytes 8 v) v :=
  reads_number (length_toLeBytes 8 v) (leNat_toLeBytes h)

theorem reads_readU32Be {v : Nat} (h : v < 2 ^ 32) :
    Reads readU32Be (toBeBytes 4 v) v :=
  reads_number (length_toBeBytes 4 v) (beNat_toBeBytes h)

theorem reads_readU64Be {v : Nat} (h : v < 2 ^ 64) :
    Reads readU64Be (toBeBytes 8 v) v :=
  reads_number (length_toBeBytes 8 v) (beNat_toBeBytes h)

/-! ## Lengths -/

theorem lengthType_eq (b : UInt8) : lengthType b = b.toNat / 64 := by
  rw [lengthType, Nat.shiftRight_eq_div_pow]

theorem low6_eq (b : UInt8) : low6 b = b.toNat % 64 := by
  rw [low6]
  exact Nat.and_two_pow_sub_one_eq_mod b.toNat 6

theorem low14_eq (b c : UInt8) : low14 b c = b.toNat % 64 * 256 + c.toNat := by
  have hc : c.toNat < 2 ^ 8 := c.toNat_lt
  rw [low14, low6_eq, ← Nat.shiftLeft_add_eq_or_of_lt hc, Nat.shiftLeft_eq]

theorem six_first {v : Nat} (h : v < 2 ^ 6) :
    lengthType (UInt8.ofNat v) = 0 ∧ low6 (UInt8.ofNat v) = v := by
  rw [lengthType_eq, low6_eq, UInt8.toNat_ofNat']
  omega

theorem fourteen_first {v : Nat} (h : v < 2 ^ 14) :
    lengthType (UInt8.ofNat (0x40 + v / 256)) = 1 ∧
      low14 (UInt8.ofNat (0x40 + v / 256)) (UInt8.ofNat v) = v := by
  rw [lengthType_eq, low14_eq, UInt8.toNat_ofNat', UInt8.toNat_ofNat']
  omega

theorem lengthType_len32 : lengthType 0x80 = 2 := by decide

theorem lengthType_len64 : lengthType 0x81 = 2 := by decide

theorem reads_readLength (l : Len) : Reads readLength l.bytes l.val := by
  obtain ⟨form, v, fits⟩ := l
  cases form with
  | six =>
      obtain ⟨htype, hlow⟩ := six_first fits
      refine reads_readByte ?_
      simp only [htype, hlow]
      exact Reads.pure v
  | fourteen =>
      obtain ⟨htype, hlow⟩ := fourteen_first fits
      refine reads_readByte ?_
      simp only [htype]
      refine reads_readByte ?_
      simp only [hlow]
      exact Reads.pure v
  | len32 =>
      refine reads_readByte ?_
      simp only [lengthType_len32, if_true]
      exact reads_readU32Be fits
  | len64 =>
      refine reads_readByte ?_
      simp only [lengthType_len64]
      exact reads_readU64Be fits

theorem reads_readLengthWithRaw (l : Len) :
    Reads readLengthWithRaw l.bytes (l.val, l.bytes) := by
  obtain ⟨form, v, fits⟩ := l
  cases form with
  | six =>
      obtain ⟨htype, hlow⟩ := six_first fits
      refine reads_readByte ?_
      simp only [htype, hlow]
      exact Reads.pure _
  | fourteen =>
      obtain ⟨htype, hlow⟩ := fourteen_first fits
      refine reads_readByte ?_
      simp only [htype]
      refine reads_readByte ?_
      simp only [hlow]
      exact Reads.pure _
  | len32 =>
      refine reads_readByte ?_
      simp only [lengthType_len32, if_true]
      exact (reads_readU32Be fits).bind_pure (Reads.pure _)
  | len64 =>
      refine reads_readByte ?_
      simp only [lengthType_len64]
      exact (reads_readU64Be fits).bind_pure (Reads.pure _)

theorem reads_readInlineLength {l : Len} (h : l.form ≠ .len64) (unsupported : Text) :
    ∃ v, Reads (readInlineLength unsupported) l.bytes v ∧
      (l.form = .six ∨ l.form = .fourteen → v = l.val) := by
  obtain ⟨form, v, fits⟩ := l
  cases form with
  | six =>
      obtain ⟨htype, hlow⟩ := six_first fits
      refine ⟨v, reads_readByte ?_, fun _ => rfl⟩
      simp only [htype, hlow]
      exact Reads.pure v
  | fourteen =>
      obtain ⟨htype, hlow⟩ := fourteen_first fits
      refine ⟨v, reads_readByte ?_, fun _ => rfl⟩
      simp only [htype]
      refine reads_readByte ?_
      simp only [hlow]
      exact Reads.pure v
  | len32 =>
      -- Four bytes are taken, but in the other order.
      refine ⟨leNat (toBeBytes 4 v), reads_readByte ?_, by simp⟩
      simp only [lengthType_len32]
      exact reads_number (length_toBeBytes 4 v) rfl
  | len64 => exact absurd rfl h

theorem encodeLengthToBuf_eq {l : Len} (h : l.Shortest) :
    encodeLengthToBuf l.val = l.bytes := by
  obtain ⟨form, v, fits⟩ := l
  cases form with
  | six => exact if_pos fits
  | fourteen =>
      have hlo : ¬ v < 64 := Nat.not_lt.2 h
      have hhi : v < 16384 := fits
      have hfirst : UInt8.ofNat (v >>> 8) ||| 0x40 = UInt8.ofNat (0x40 + v / 256) := by
        have hsmall : v / 256 < 2 ^ 6 := by omega
        have hor := Nat.shiftLeft_add_eq_or_of_lt hsmall 1
        apply UInt8.toNat_inj.1
        rw [UInt8.toNat_or, UInt8.toNat_ofNat', UInt8.toNat_ofNat',
          Nat.shiftRight_eq_div_pow, Nat.mod_eq_of_lt (by omega : v / 2 ^ 8 < 2 ^ 8),
          Nat.mod_eq_of_lt (by omega : 0x40 + v / 256 < 2 ^ 8), Nat.or_comm]
        exact hor.symm
      have hsecond : UInt8.ofNat (v &&& 0xFF) = UInt8.ofNat v := by
        apply UInt8.toNat_inj.1
        rw [UInt8.toNat_ofNat', UInt8.toNat_ofNat',
          Nat.and_two_pow_sub_one_eq_mod v 8, Nat.mod_mod]
      simp only [encodeLengthToBuf, if_neg hlo, if_pos hhi, hfirst, hsecond, Len.bytes]
  | len32 =>
      have hlo : ¬ v < 16384 := Nat.not_lt.2 h
      have h64 : ¬ v < 64 := by omega
      simp only [encodeLengthToBuf, if_neg hlo, if_neg h64, Len.bytes]
  | len64 => exact h.elim

/-! ## Strings -/

theorem reads_readBuffer {n : Nat} {data : Bytes} (h : n = data.length)
    (held : data.length ≤ isizeMax) : Reads (readBuffer n) data data := by
  subst h
  rw [readBuffer, if_neg (Nat.not_lt.2 held)]
  exact reads_readExactly rfl

theorem reads_readStringRaw {n : Nat} {data : Bytes} (h : n = data.length)
    (held : data.length ≤ isizeMax) : Reads (readStringRaw n) data data := by
  rw [readStringRaw]
  split
  · next hzero =>
      obtain rfl := List.eq_nil_of_length_eq_zero (h.symm.trans hzero)
      exact Reads.pure []
  · exact reads_readBuffer h held

theorem decimal_asUnsigned {bits : Nat} (hbits : 0 < bits) (i : SInt bits) :
    decimal bits (asUnsigned bits i) = asBytes (intToString i) := by
  rw [decimal, asSigned_asUnsigned hbits i.2.1 i.2.2]

/-- The eight bits of a small integer, as the one byte they are. -/
theorem toLeBytes_one {v : Nat} (h : v < 2 ^ 8) :
    toLeBytes 1 v = [UInt8.ofNat v] ∧ (UInt8.ofNat v).toNat = v := by
  refine ⟨rfl, ?_⟩
  rw [UInt8.toNat_ofNat', Nat.mod_eq_of_lt h]

theorem lengthType_int8 : lengthType 0xC0 = 3 ∧ low6 0xC0 = 0 := by decide

theorem lengthType_int16 : lengthType 0xC1 = 3 ∧ low6 0xC1 = 1 := by decide

theorem lengthType_int32 : lengthType 0xC2 = 3 ∧ low6 0xC2 = 2 := by decide

theorem lengthType_lzf : lengthType 0xC3 = 3 ∧ low6 0xC3 = 3 := by decide

/-- A string that begins with a length: the length, and so many bytes. -/
theorem readString_len (l : Len) (bs : Bytes) :
    readString (l.bytes ++ bs) = readStringRaw l.val bs := by
  obtain ⟨form, v, fits⟩ := l
  cases form with
  | six =>
      obtain ⟨htype, hlow⟩ := six_first fits
      refine (bind_of_ok (reads_byte _ bs)).trans ?_
      simp only [htype, hlow]
  | fourteen =>
      obtain ⟨htype, hlow⟩ := fourteen_first fits
      refine (bind_of_ok (reads_byte _ (UInt8.ofNat v :: bs))).trans ?_
      simp only [htype]
      refine (bind_of_ok (reads_byte _ bs)).trans ?_
      rw [hlow]
  | len32 =>
      refine (bind_of_ok (reads_byte _ (toBeBytes 4 v ++ bs))).trans ?_
      simp only [lengthType_len32, if_true]
      exact bind_of_ok (reads_readU32Be fits bs)
  | len64 =>
      refine (bind_of_ok (reads_byte _ (toBeBytes 8 v ++ bs))).trans ?_
      simp only [lengthType_len64]
      exact bind_of_ok (reads_readU64Be fits bs)

theorem readStringWithRawBytes_len (l : Len) (bs : Bytes) :
    readStringWithRawBytes (l.bytes ++ bs) = (do
      let data ← readStringRaw l.val
      pure (data, l.bytes ++ data)) bs := by
  obtain ⟨form, v, fits⟩ := l
  cases form with
  | six =>
      obtain ⟨htype, hlow⟩ := six_first fits
      refine (bind_of_ok (reads_byte _ bs)).trans ?_
      simp only [htype, hlow]
      rfl
  | fourteen =>
      obtain ⟨htype, hlow⟩ := fourteen_first fits
      refine (bind_of_ok (reads_byte _ (UInt8.ofNat v :: bs))).trans ?_
      simp only [htype]
      refine (bind_of_ok (reads_byte _ bs)).trans ?_
      rw [hlow]
      rfl
  | len32 =>
      refine (bind_of_ok (reads_byte _ (toBeBytes 4 v ++ bs))).trans ?_
      simp only [lengthType_len32, if_true]
      exact bind_of_ok (reads_readU32Be fits bs)
  | len64 =>
      refine (bind_of_ok (reads_byte _ (toBeBytes 8 v ++ bs))).trans ?_
      simp only [lengthType_len64]
      exact bind_of_ok (reads_readU64Be fits bs)

theorem reads_readString (s : RdbString) : Reads readString s.bytes s.value := by
  cases s with
  | plain l data h held =>
      intro rest
      show readString (l.bytes ++ data ++ rest) = .ok data rest
      rw [List.append_assoc, readString_len]
      exact reads_readStringRaw h held rest
  | int8 i =>
      obtain ⟨hone, hnat⟩ := toLeBytes_one (asUnsigned_lt 8 i.1)
      refine reads_readByte ?_
      simp only [lengthType_int8]
      rw [hone]
      refine reads_readByte ?_
      rw [hnat, decimal_asUnsigned (by decide)]
      exact Reads.pure _
  | int16 i =>
      refine reads_readByte ?_
      simp only [lengthType_int16]
      refine (reads_readU16 (asUnsigned_lt 16 i.1)).bind_pure ?_
      rw [decimal_asUnsigned (by decide)]
      exact Reads.pure _
  | int32 i =>
      refine reads_readByte ?_
      simp only [lengthType_int32]
      refine (reads_readU32 (asUnsigned_lt 32 i.1)).bind_pure ?_
      rw [decimal_asUnsigned (by decide)]
      exact Reads.pure _
  | lzf compressedLen originalLen data h held =>
      refine reads_readByte ?_
      simp only [lengthType_lzf, List.append_eq, List.append_assoc]
      refine (reads_readLength compressedLen).bind ?_
      refine (reads_readLength originalLen).bind ?_
      exact (reads_readBuffer h held).bind_pure (Reads.pure [])

/-- The bytes that are kept of a string. The lengths of a compressed one are
written anew. -/
def RdbString.kept : RdbString → Bytes
  | .lzf compressedLen originalLen data _ _ =>
      0xC3 :: encodeLengthToBuf compressedLen.val ++ encodeLengthToBuf originalLen.val ++ data
  | s => s.bytes

theorem reads_readStringWithRawBytes (s : RdbString) :
    Reads readStringWithRawBytes s.bytes (s.value, s.kept) := by
  cases s with
  | plain l data h held =>
      intro rest
      show readStringWithRawBytes (l.bytes ++ data ++ rest)
        = .ok (data, l.bytes ++ data) rest
      rw [List.append_assoc, readStringWithRawBytes_len]
      exact bind_of_ok (reads_readStringRaw h held rest)
  | int8 i =>
      obtain ⟨hone, hnat⟩ := toLeBytes_one (asUnsigned_lt 8 i.1)
      refine reads_readByte ?_
      simp only [lengthType_int8]
      rw [hone]
      refine reads_readByte ?_
      rw [hnat, decimal_asUnsigned (by decide)]
      exact Reads.pure _
  | int16 i =>
      refine reads_readByte ?_
      simp only [lengthType_int16]
      refine (reads_readU16 (asUnsigned_lt 16 i.1)).bind_pure ?_
      rw [decimal_asUnsigned (by decide)]
      exact Reads.pure _
  | int32 i =>
      refine reads_readByte ?_
      simp only [lengthType_int32]
      refine (reads_readU32 (asUnsigned_lt 32 i.1)).bind_pure ?_
      rw [decimal_asUnsigned (by decide)]
      exact Reads.pure _
  | lzf compressedLen originalLen data h held =>
      refine reads_readByte ?_
      simp only [lengthType_lzf, List.append_eq, List.append_assoc]
      refine (reads_readLength compressedLen).bind ?_
      refine (reads_readLength originalLen).bind ?_
      refine (reads_readBuffer h held).bind_pure ?_
      simp only [RdbString.kept, List.cons_append, List.append_assoc]
      exact Reads.pure _

/-- The bytes that are kept are the bytes that were read. -/
theorem kept_eq_bytes (s : ValueString) : s.1.kept = s.1.bytes := by
  obtain ⟨s, hs⟩ := s
  cases s with
  | lzf compressedLen originalLen data h held =>
      show 0xC3 :: encodeLengthToBuf compressedLen.val ++ encodeLengthToBuf originalLen.val
        ++ data = 0xC3 :: compressedLen.bytes ++ originalLen.bytes ++ data
      rw [encodeLengthToBuf_eq hs.1, encodeLengthToBuf_eq hs.2]
  | _ => rfl

theorem reads_valueString (s : ValueString) :
    Reads readStringWithRawBytes s.1.bytes (s.1.value, s.1.bytes) := by
  have h := reads_readStringWithRawBytes s.1
  rwa [kept_eq_bytes] at h

/-! ## Values -/

theorem foldl_append_flatMap {α : Type} (enc : α → Bytes) (xs : List α) (b : Bytes) :
    xs.foldl (fun raw x => raw ++ enc x) b = b ++ xs.flatMap enc := by
  induction xs generalizing b with
  | nil => simp
  | cons x xs ih => rw [List.foldl_cons, ih, List.flatMap_cons, List.append_assoc]

theorem reads_readElements {α : Type} {enc : α → Bytes} {element : Rd Bytes}
    (h : ∀ x, Reads element (enc x) (enc x)) (what : Text) (s : Counted α) :
    Reads (readElements what element) (s.bytes enc) ([], s.bytes enc) := by
  have hstep : ∀ x ∈ s.items, ∀ raw : Bytes,
      Reads (do let elemRaw ← element; pure (raw ++ elemRaw)) (enc x) (raw ++ enc x) :=
    fun x _ raw => (h x).bind_pure (Reads.pure _)
  have hloop := Reads.forCount _ enc (fun raw x => raw ++ enc x) hstep s.count.bytes
  rw [foldl_append_flatMap, ← s.counts] at hloop
  have hlimit : ¬ s.count.val > 100000000 := Nat.not_lt.2 (s.counts ▸ s.limit)
  refine (reads_readLengthWithRaw s.count).bind ?_
  simp only [if_neg hlimit]
  exact hloop.bind_pure (Reads.pure _)

theorem reads_readRawString (s : ValueString) :
    Reads readRawString s.1.bytes s.1.bytes :=
  (reads_valueString s).bind_pure (Reads.pure _)

/-- A value is taken whole, decoded as far as it is, and kept byte for byte. -/
theorem reads_readValue (v : Value) :
    Reads (readValue v.rdbType) v.bytes (v.decoded, v.bytes) := by
  cases v with
  | string s => exact reads_valueString s
  | blob t s =>
      obtain ⟨t, ht⟩ := t
      cases t
      case hashZipmap => exact reads_valueString s
      case listZiplist => exact reads_valueString s
      case setIntset => exact reads_valueString s
      case sortedSetZiplist => exact reads_valueString s
      case hashZiplist => exact reads_valueString s
      case hashListpack => exact reads_valueString s
      case sortedSetListpack => exact reads_valueString s
      case setListpack => exact reads_valueString s
      all_goals cases ht
  | list es => exact reads_readElements reads_readRawString _ es
  | set ms => exact reads_readElements reads_readRawString _ ms
  | hash fs =>
      refine reads_readElements (fun f => ?_) _ fs
      exact (reads_readRawString f.1).bind
        ((reads_readRawString f.2).bind_pure (Reads.pure _))
  | sortedSet2 ms =>
      refine reads_readElements (fun m => ?_) _ ms
      exact (reads_readRawString m.1).bind
        ((reads_readExactly m.2.2).bind_pure (Reads.pure _))
  | quicklist ns => exact reads_readElements reads_readRawString _ ns

theorem reads_readAuxField (key value : RdbString) :
    Reads readAuxField (key.bytes ++ value.bytes)
      { key := key.value, value := value.value } :=
  (reads_readString key).bind ((reads_readString value).bind_pure (Reads.pure _))

/-! ## Module data -/

theorem len_bytes_ne_nil (l : Len) : l.bytes ≠ [] := by
  obtain ⟨form, v, fits⟩ := l
  cases form <;> simp [Len.bytes]

theorem reads_skipModuleItem (item : ModuleItem) :
    Reads skipModuleItem item.bytes none := by
  cases item with
  | sint form i =>
      refine (reads_readLength _).bind ?_
      exact (reads_readLength i).bind_pure (Reads.pure none)
  | uint form i =>
      refine (reads_readLength _).bind ?_
      exact (reads_readLength i).bind_pure (Reads.pure none)
  | float form bs =>
      refine (reads_readLength _).bind ?_
      exact (reads_readExactly bs.2).bind_pure (Reads.pure none)
  | double form bs =>
      refine (reads_readLength _).bind ?_
      exact (reads_readExactly bs.2).bind_pure (Reads.pure none)
  | string form s =>
      refine (reads_readLength _).bind ?_
      exact (reads_readString s).bind_pure (Reads.pure none)

theorem reads_skipModuleValue (items : List ModuleItem) (endForm : LenForm) :
    Reads skipModuleValue
      (items.flatMap ModuleItem.bytes ++ (Len.small endForm 0 (by decide)).bytes)
      () := by
  refine Reads.loopInput (fun item _ => ?_) (fun item _ => reads_skipModuleItem item) ?_
  · cases item <;> exact List.append_ne_nil_of_left_ne_nil (len_bytes_ne_nil _) _
  · exact (reads_readLength _).bind_pure (Reads.pure (some ()))

/-! ## Header -/

theorem reads_readMagic : Reads readMagic rdbMagic () := by
  have h : Reads (readExactly 5) rdbMagic rdbMagic := reads_readExactly (by decide)
  refine h.bind_pure ?_
  rw [if_neg (fun hne => hne rfl)]
  exact Reads.pure ()

theorem digits_ascii {t : Text} (h : t.all Char.isDigit = true) : IsAscii t := by
  intro c hc
  have hd := List.all_eq_true.1 h c hc
  simp only [Char.isDigit, Bool.and_eq_true, decide_eq_true_eq] at hd
  have h57 : c.toNat ≤ 57 := hd.2
  omega

/-- Four digits are a version, and nothing a `u32` could not hold. -/
theorem parseU32_digits {t : Text} (hlen : t.length = 4)
    (hall : t.all Char.isDigit = true) : ∃ v, parseU32 t = some v := by
  have hne : t ≠ [] := fun h => by simp [h] at hlen
  have hval : unsignedValue t = some (Nat.ofDigitChars 10 t 0) := by
    rw [unsignedValue.eq_def]
    split
    · next ds =>
        rw [List.all_cons, Bool.and_eq_true] at hall
        exact absurd hall.1 (by decide)
    · exact if_pos ⟨hne, hall⟩
  have hlt := ofDigitChars_lt hall
  rw [hlen] at hlt
  refine ⟨Nat.ofDigitChars 10 t 0, ?_⟩
  rw [parseU32, parseUnsigned, hval, Option.filter_some, if_pos]
  exact decide_eq_true (by omega)

theorem reads_readVersion {t : Text} (hlen : t.length = 4)
    (hall : t.all Char.isDigit = true) :
    ∃ v, Reads readVersion (asBytes t) v := by
  obtain ⟨v, hv⟩ := parseU32_digits hlen hall
  have hbytes : (asBytes t).length = 4 := by
    rw [length_asBytes_ascii (digits_ascii hall), hlen]
  refine ⟨v, (reads_readExactly hbytes).bind_pure ?_⟩
  simp only [fromUtf8_asBytes, Option.bind_some, hv]
  exact Reads.pure v

/-! ## Records -/

section Records

variable {σ : Type} {upd : σ → BinEntry → σ}

/-- A callback that accepts everything. -/
def accepting (upd : σ → BinEntry → σ) (e : BinEntry) :
    EStateM (Fault SyncError) σ Unit := fun s => .ok () (upd s e)

/-- The parser stands at `bs`, with the cursor at `c` and the callback at
`s`. -/
structure At (p : RdbParser σ) (bs : Bytes) (c : Cursor) (s : σ) : Prop where
  reader : p.reader = bs
  db : p.state.currentDb = c.db
  expire : p.state.currentExpire = c.expire
  running : p.state.eofReached = false
  sink : p.sink = s

theorem onReader_reads {α : Type} {m : Rd α} {bs rest : Bytes} {a : α}
    {p : RdbParser σ} (h : Reads m bs a) (hp : p.reader = bs ++ rest) :
    onReader m p = .ok a { p with reader := rest } := by
  rw [onReader, hp, h rest]

variable (upd) {p : RdbParser σ} {bs rest : Bytes} {c : Cursor} {s : σ}

theorem At.read {α : Type} {m : Rd α} {a : α} (h : At p (bs ++ rest) c s)
    (hm : Reads m bs a) : ∃ p', onReader m p = .ok a p' ∧ At p' rest c s :=
  ⟨_, onReader_reads hm h.reader, rfl, h.db, h.expire, h.running, h.sink⟩

theorem At.readByte {b : UInt8} (h : At p (b :: bs) c s) :
    ∃ p', onReader Rdb.readByte p = .ok b p' ∧ At p' bs c s :=
  (show At p ([b] ++ bs) c s from h).read (reads_byte b)

theorem parseRecord_idle (time : Len) (h : At p (time.bytes ++ rest) c s) :
    ∃ p', parseRecord (accepting upd) 0xF8 p = .ok () p' ∧ At p' rest c s := by
  obtain ⟨p1, h1, hat⟩ := h.read (reads_readLength time)
  exact ⟨p1, bind_of_ok h1, hat⟩

theorem parseRecord_freq (counter : UInt8) (h : At p (counter :: rest) c s) :
    ∃ p', parseRecord (accepting upd) 0xF9 p = .ok () p' ∧ At p' rest c s := by
  obtain ⟨p1, h1, hat⟩ := h.readByte
  exact ⟨p1, bind_of_ok h1, hat⟩

theorem parseRecord_aux (key value : RdbString)
    (h : At p (key.bytes ++ value.bytes ++ rest) c s) :
    ∃ p', parseRecord (accepting upd) 0xFA p = .ok () p' ∧ At p' rest c s := by
  obtain ⟨p1, h1, hat⟩ := h.read (reads_readAuxField key value)
  by_cases hid : key.value = asBytes "repl-id".toList
  · refine ⟨_, (bind_of_ok h1).trans (congrFun (if_pos hid) p1), ?_⟩
    exact ⟨hat.reader, hat.db, hat.expire, hat.running, hat.sink⟩
  · exact ⟨p1, (bind_of_ok h1).trans (congrFun (if_neg hid) p1), hat⟩

theorem parseRecord_resizeDb (dbSize expiresSize : {l : Len // l.form ≠ .len64})
    (h : At p (dbSize.1.bytes ++ expiresSize.1.bytes ++ rest) c s) :
    ∃ p', parseRecord (accepting upd) 0xFB p = .ok () p' ∧ At p' rest c s := by
  obtain ⟨v, hv, -⟩ := reads_readInlineLength dbSize.2
    "ResizeDB db_size 特殊编码不支持".toList
  obtain ⟨w, hw, -⟩ := reads_readInlineLength expiresSize.2
    "ResizeDB expires_size 特殊编码不支持".toList
  rw [List.append_assoc] at h
  obtain ⟨p1, h1, hat1⟩ := h.read hv
  obtain ⟨p2, h2, hat2⟩ := hat1.read hw
  exact ⟨p2, (bind_of_ok h1).trans (bind_of_ok h2), hat2⟩

theorem parseRecord_expireMs (ms : {n : Nat // n < 2 ^ 64})
    (h : At p (toLeBytes 8 ms ++ rest) c s) :
    ∃ p', parseRecord (accepting upd) 0xFC p = .ok () p' ∧
      At p' rest { c with expire := some (epochPlusMillis ms) } s := by
  obtain ⟨p1, h1, hat⟩ := h.read (reads_readU64 ms.2)
  exact ⟨_, bind_of_ok h1, hat.reader, hat.db, rfl, hat.running, hat.sink⟩

theorem parseRecord_expireS (secs : {n : Nat // n < 2 ^ 32})
    (h : At p (toLeBytes 4 secs ++ rest) c s) :
    ∃ p', parseRecord (accepting upd) 0xFD p = .ok () p' ∧
      At p' rest { c with expire := some (epochPlusSecs secs) } s := by
  obtain ⟨p1, h1, hat⟩ := h.read (reads_readU32 secs.2)
  exact ⟨_, bind_of_ok h1, hat.reader, hat.db, rfl, hat.running, hat.sink⟩

theorem selectDb_fits (db : {l : Len // l.form = .six ∨ l.form = .fourteen}) :
    db.1.form ≠ .len64 ∧ db.1.val < 2 ^ 32 := by
  obtain ⟨⟨form, v, fits⟩, hform⟩ := db
  cases form with
  | six => exact ⟨by simp, Nat.lt_trans fits (by decide)⟩
  | fourteen => exact ⟨by simp, Nat.lt_trans fits (by decide)⟩
  | len32 => simp at hform
  | len64 => simp at hform

theorem parseRecord_selectDb (db : {l : Len // l.form = .six ∨ l.form = .fourteen})
    (h : At p (db.1.bytes ++ rest) c s) :
    ∃ p', parseRecord (accepting upd) 0xFE p = .ok () p' ∧
      At p' rest { db := db.1.val, expire := none } s := by
  obtain ⟨hform, hsmall⟩ := selectDb_fits db
  obtain ⟨v, hv, hval⟩ := reads_readInlineLength hform "SelectDB 特殊编码不支持".toList
  obtain rfl := hval db.2
  obtain ⟨p1, h1, hat⟩ := h.read hv
  exact ⟨_, bind_of_ok h1, hat.reader, Nat.mod_eq_of_lt hsmall, rfl, hat.running,
    hat.sink⟩

theorem parseRecord_moduleAux (id : Len) (items : List ModuleItem) (endForm : LenForm)
    (h : At p (id.bytes ++ (items.flatMap ModuleItem.bytes
      ++ (Len.small endForm 0 (by decide)).bytes) ++ rest) c s) :
    ∃ p', parseRecord (accepting upd) 0xF7 p = .ok () p' ∧ At p' rest c s := by
  rw [List.append_assoc] at h
  obtain ⟨p1, h1, hat1⟩ := h.read (reads_readLength id)
  obtain ⟨p2, h2, hat2⟩ := hat1.read (reads_skipModuleValue items endForm)
  exact ⟨p2, (bind_of_ok h1).trans h2, hat2⟩

theorem value_rdbType_ne_module (v : Value) :
    v.rdbType ≠ .module ∧ v.rdbType ≠ .module2 := by
  cases v with
  | blob t s =>
      obtain ⟨t, ht⟩ := t
      constructor <;> (rintro rfl; cases ht)
  | _ => simp [Value.rdbType]

/-- The opcode of a key record is its type byte, and that is no other opcode. -/
theorem parseRecord_toByte (callback : BinEntry → EStateM (Fault SyncError) σ Unit)
    {t : RdbType} (ht : t ≠ .module ∧ t ≠ .module2) :
    parseRecord callback t.toByte = (do
      let entry ← readKeyValue t
      onSink (callback entry)) := by
  cases t
  case module => exact absurd rfl ht.1
  case module2 => exact absurd rfl ht.2
  all_goals rfl

theorem parseRecord_keyValue (key : KeyString) (value : Value)
    (h : At p (key.1.bytes ++ value.bytes ++ rest) c s) :
    ∃ p', parseRecord (accepting upd) value.rdbType.toByte p = .ok () p' ∧
      At p' rest { c with expire := none }
        (upd s { db := c.db, key := key.1.value, value := value.decoded,
                 rawValue := some value.bytes, expire := c.expire,
                 rdbType := value.rdbType }) := by
  rw [List.append_assoc] at h
  obtain ⟨p1, h1, hat1⟩ := h.read (reads_readString key.1)
  obtain ⟨p2, h2, hat2⟩ := hat1.read (reads_readValue value)
  have hentry : readKeyValue value.rdbType p = .ok
      { db := c.db, key := key.1.value, value := value.decoded,
        rawValue := some value.bytes, expire := c.expire, rdbType := value.rdbType }
      { p2 with state := { p2.state with currentExpire := none } } := by
    rw [← hat2.db, ← hat2.expire]
    exact (bind_of_ok h1).trans (bind_of_ok h2)
  rw [parseRecord_toByte _ (value_rdbType_ne_module value), bind_of_ok hentry]
  refine ⟨_, rfl, hat2.reader, hat2.db, rfl, hat2.running, ?_⟩
  rw [← hat2.sink]

/-- A round of the main loop over a byte that does not end the file. -/
theorem parseStep_opcode (callback : BinEntry → EStateM (Fault SyncError) σ Unit)
    {opcode : UInt8} (h : At p (opcode :: bs) c s) (hop : opcode ≠ 0xFF) :
    ∃ p1, At p1 bs c s ∧ ∀ p2, parseRecord callback opcode p1 = .ok () p2 →
      parseStep callback p = .ok none p2 := by
  obtain ⟨p1, h1, hat⟩ := h.readByte
  refine ⟨p1, hat, fun p2 h2 => ?_⟩
  rw [parseStep, bind_of_ok (get_apply p), h.running, if_neg Bool.false_ne_true,
    bind_of_ok h1, if_neg hop, bind_of_ok h2]
  rfl

/-- One record, one round: the record is taken, its entry, if it has one, is
handed to the callback, and the cursor is where the record leaves it. -/
theorem parseStep_record (r : Record) (h : At p (r.bytes ++ rest) c s) :
    ∃ p', parseStep (accepting upd) p = .ok none p' ∧
      At p' rest (r.next c) ((r.entry c).toList.foldl upd s) := by
  cases r with
  | aux key value =>
      obtain ⟨p1, hat, hstep⟩ := parseStep_opcode (accepting upd) h (by decide)
      obtain ⟨p2, h2, hat2⟩ := parseRecord_aux upd key value hat
      exact ⟨p2, hstep p2 h2, hat2⟩
  | resizeDb dbSize expiresSize =>
      obtain ⟨p1, hat, hstep⟩ := parseStep_opcode (accepting upd) h (by decide)
      obtain ⟨p2, h2, hat2⟩ := parseRecord_resizeDb upd dbSize expiresSize hat
      exact ⟨p2, hstep p2 h2, hat2⟩
  | selectDb db =>
      obtain ⟨p1, hat, hstep⟩ := parseStep_opcode (accepting upd) h (by decide)
      obtain ⟨p2, h2, hat2⟩ := parseRecord_selectDb upd db hat
      exact ⟨p2, hstep p2 h2, hat2⟩
  | expireMs ms =>
      obtain ⟨p1, hat, hstep⟩ := parseStep_opcode (accepting upd) h (by decide)
      obtain ⟨p2, h2, hat2⟩ := parseRecord_expireMs upd ms hat
      exact ⟨p2, hstep p2 h2, hat2⟩
  | expireS secs =>
      obtain ⟨p1, hat, hstep⟩ := parseStep_opcode (accepting upd) h (by decide)
      obtain ⟨p2, h2, hat2⟩ := parseRecord_expireS upd secs hat
      exact ⟨p2, hstep p2 h2, hat2⟩
  | idle time =>
      obtain ⟨p1, hat, hstep⟩ := parseStep_opcode (accepting upd) h (by decide)
      obtain ⟨p2, h2, hat2⟩ := parseRecord_idle upd time hat
      exact ⟨p2, hstep p2 h2, hat2⟩
  | freq counter =>
      obtain ⟨p1, hat, hstep⟩ := parseStep_opcode (accepting upd) h (by decide)
      obtain ⟨p2, h2, hat2⟩ := parseRecord_freq upd counter hat
      exact ⟨p2, hstep p2 h2, hat2⟩
  | moduleAux id items endForm =>
      obtain ⟨p1, hat, hstep⟩ := parseStep_opcode (accepting upd) h (by decide)
      obtain ⟨p2, h2, hat2⟩ := parseRecord_moduleAux upd id items endForm hat
      exact ⟨p2, hstep p2 h2, hat2⟩
  | keyValue key value =>
      have hop : value.rdbType.toByte ≠ 0xFF := by
        cases value.rdbType <;> decide
      obtain ⟨p1, hat, hstep⟩ := parseStep_opcode (accepting upd) h hop
      obtain ⟨p2, h2, hat2⟩ := parseRecord_keyValue upd key value hat
      exact ⟨p2, hstep p2 h2, hat2⟩

/-! ## Files -/

theorem parseStep_eof (callback : BinEntry → EStateM (Fault SyncError) σ Unit)
    (h : At p (0xFF :: bs) c s) :
    ∃ p', parseStep callback p = .ok (some ()) p' ∧ p'.reader = bs ∧ p'.sink = s := by
  obtain ⟨p1, h1, hat⟩ := h.readByte
  refine ⟨{ p1 with state := { p1.state with eofReached := true } }, ?_, hat.reader,
    hat.sink⟩
  rw [parseStep, bind_of_ok (get_apply p), h.running, if_neg Bool.false_ne_true,
    bind_of_ok h1, if_pos rfl]
  rfl

/-- The main loop over any records: their entries are handed to the callback in
order. The induction is on the records, and the cursor carries it. -/
theorem parseLoop_records (records : List Record)
    (h : At p (records.flatMap Record.bytes ++ 0xFF :: rest) c s) {fuel : Nat}
    (hfuel : records.length < fuel) :
    ∃ p', loopFuel (parseStep (accepting upd)) fuel p = .ok () p' ∧
      p'.reader = rest ∧ p'.sink = (entriesFrom c records).foldl upd s := by
  induction records generalizing p c s fuel with
  | nil =>
      obtain ⟨k, rfl⟩ : ∃ k, fuel = k + 1 := ⟨fuel - 1, by omega⟩
      obtain ⟨p', h', hreader, hsink⟩ := parseStep_eof (accepting upd) h
      refine ⟨p', ?_, hreader, hsink⟩
      rw [loopFuel, bind_of_ok h']
      rfl
  | cons r rs ih =>
      obtain ⟨k, rfl⟩ : ∃ k, fuel = k + 1 := ⟨fuel - 1, by omega⟩
      rw [List.flatMap_cons, List.append_assoc] at h
      obtain ⟨p1, h1, hat⟩ := parseStep_record upd r h
      obtain ⟨p', h', hreader, hsink⟩ := ih hat (by simpa using hfuel)
      refine ⟨p', ?_, hreader, ?_⟩
      · rw [loopFuel, bind_of_ok h1]
        exact h'
      · rw [entriesFrom, List.foldl_append, hsink]

theorem record_bytes_ne_nil (r : Record) : r.bytes ≠ [] := by
  cases r <;> simp [Record.bytes]

/-- The parser over a file, from wherever it stands at the start of one. -/
theorem parse_at (f : RdbFile) (h : At p (f.bytes ++ rest) Cursor.start s) :
    ∃ p', parse (accepting upd) p = .ok [] p' ∧
      p'.reader = rest ∧ p'.sink = f.entries.foldl upd s := by
  obtain ⟨v, hversion⟩ := reads_readVersion f.four f.decimal
  have hbytes : f.bytes ++ rest = rdbMagic
      ++ (asBytes f.digits ++ (f.records.flatMap Record.bytes ++ 0xFF :: rest)) := by
    simp [RdbFile.bytes]
  rw [hbytes] at h
  obtain ⟨p1, h1, hat1⟩ := h.read reads_readMagic
  obtain ⟨p2, h2, hat2⟩ := hat1.read hversion
  have hat3 : At { p2 with state := { p2.state with version := v } }
      (f.records.flatMap Record.bytes ++ 0xFF :: rest) Cursor.start s :=
    ⟨hat2.reader, hat2.db, hat2.expire, hat2.running, hat2.sink⟩
  have hfuel : f.records.length < p2.reader.length + 1 := by
    have hle : f.records.length ≤ (f.records.flatMap Record.bytes).length :=
      length_le_flatMap fun r _ => record_bytes_ne_nil r
    rw [hat2.reader, List.length_append]
    omega
  obtain ⟨p', hloop, hreader, hsink⟩ := parseLoop_records upd f.records hat3 hfuel
  refine ⟨p', ?_, hreader, hsink⟩
  refine (bind_of_ok h1).trans ((bind_of_ok h2).trans ?_)
  exact bind_of_ok hloop

theorem at_new (bs : Bytes) : At (RdbParser.new bs s) bs Cursor.start s :=
  ⟨rfl, rfl, rfl, rfl, rfl⟩

/-- Every RDB file, whatever follows it and whatever the callback does with what
it is called with: the parser answers `Ok` at the end of the file, having called
the callback with the entries of the file, each once and in order. -/
theorem parse_rdbFile (f : RdbFile) (tail : Bytes) (s : σ) :
    ∃ p, parse (accepting upd) (RdbParser.new (f.bytes ++ tail) s) = .ok [] p ∧
      p.reader = tail ∧ p.sink = f.entries.foldl upd s :=
  parse_at upd f (at_new _)

end Records

end RedisHaTool.Rdb
