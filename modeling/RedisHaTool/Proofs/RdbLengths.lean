import RedisHaTool.Proofs.RdbInversion

/-!
# Lengths

The parser has eight decoders of a length. The six behind `read_length` and the
strings know all four forms and read them as the format says. The ones that are
written out in the arms of `RESIZEDB` and `SELECTDB` take four bytes, the lowest
first, wherever the upper two bits of the first byte are `10`.

`encode_length_to_buf` has three forms to write the lengths of a compressed
string again, and none of them holds `2 ^ 32`.
-/

namespace RedisHaTool.Rdb

open Lib

/-! ## Reading -/

theorem reads_readLengthWithEncoding (l : Len) :
    Reads readLengthWithEncoding l.bytes (l.val, false, 0) := by
  obtain ⟨form, v, fits⟩ := l
  cases form with
  | six =>
      obtain ⟨htype, hlow⟩ := six_first fits
      refine reads_readByte ?_
      simp only [htype, hlow]
      exact Reads.pure _
  | fourteen =>
      obtain ⟨htype, hlow⟩ := fourteen_first fits
      refine reads_readByte ?_
      simp only [htype]
      refine reads_readByte ?_
      simp only [hlow]
      exact Reads.pure _
  | len32 =>
      refine reads_readByte ?_
      simp only [lengthType_len32, if_true]
      exact (reads_readU32Be fits).bind_pure (Reads.pure _)
  | len64 =>
      refine reads_readByte ?_
      simp only [lengthType_len64]
      exact (reads_readU64Be fits).bind_pure (Reads.pure _)

/-- The decoders find the length `n` at the front of `bs` and leave `rest`: those
that answer it, those that a string begins with, and the ones written out. -/
structure LengthsAgree (bs : Bytes) (n : Nat) (rest : Bytes) : Prop where
  length : readLength bs = .ok n rest
  withEncoding : readLengthWithEncoding bs = .ok (n, false, 0) rest
  withRaw : ∃ raw, bs = raw ++ rest ∧ readLengthWithRaw bs = .ok (n, raw) rest
  string : readString bs = readStringRaw n rest
  stringWithRawBytes : ∃ raw, bs = raw ++ rest ∧ readStringWithRawBytes bs = (do
    let data ← readStringRaw n
    pure (data, raw ++ data)) rest
  selectDb : readInlineLength "SelectDB 特殊编码不支持".toList bs = .ok n rest
  dbSize : readInlineLength "ResizeDB db_size 特殊编码不支持".toList bs = .ok n rest
  expiresSize : readInlineLength "ResizeDB expires_size 特殊编码不支持".toList bs = .ok n rest

/-- The length is of six or fourteen bits, or its four bytes read the same in
either order. -/
def Len.SameBothWays (l : Len) : Prop :=
  match l.form with
  | .six | .fourteen => True
  | .len32 => toLeBytes 4 l.val = toBeBytes 4 l.val
  | .len64 => False

/-- The four bytes, read in the other order, are the number only if the order
does not matter. -/
theorem leNat_toBeBytes_iff {v : Nat} (h : v < 2 ^ 32) :
    leNat (toBeBytes 4 v) = v ↔ toLeBytes 4 v = toBeBytes 4 v := by
  constructor
  · intro heq
    have hbytes := toLeBytes_leNat (toBeBytes 4 v)
    rwa [length_toBeBytes, heq] at hbytes
  · intro heq
    rw [← heq, leNat_toLeBytes h]

theorem readInlineLength_len (l : Len) (unsupported : Text) (rest : Bytes) :
    readInlineLength unsupported (l.bytes ++ rest) = .ok l.val rest ↔ l.SameBothWays := by
  obtain ⟨form, v, fits⟩ := l
  cases form with
  | six =>
      obtain ⟨w, hread, hval⟩ := reads_readInlineLength (l := ⟨.six, v, fits⟩) (by simp)
        unsupported
      obtain rfl := hval (.inl rfl)
      exact iff_of_true (hread rest) trivial
  | fourteen =>
      obtain ⟨w, hread, hval⟩ := reads_readInlineLength (l := ⟨.fourteen, v, fits⟩) (by simp)
        unsupported
      obtain rfl := hval (.inr rfl)
      exact iff_of_true (hread rest) trivial
  | len32 =>
      have hread : readInlineLength unsupported (0x80 :: (toBeBytes 4 v ++ rest))
          = .ok (leNat (toBeBytes 4 v)) rest := by
        refine (bind_of_ok (reads_byte _ (toBeBytes 4 v ++ rest))).trans ?_
        simp only [lengthType_len32]
        exact reads_number (length_toBeBytes 4 v) rfl rest
      show readInlineLength unsupported (0x80 :: (toBeBytes 4 v ++ rest)) = .ok v rest ↔
        toLeBytes 4 v = toBeBytes 4 v
      rw [hread, ← leNat_toBeBytes_iff fits]
      constructor
      · intro heq
        exact (EStateM.Result.ok.inj heq).1
      · intro heq
        rw [heq]
  | len64 =>
      -- Four of the eight bytes are left.
      refine iff_of_false (fun hread => ?_) id
      obtain ⟨first, mid, hfirst, hbody⟩ := bind_eq_ok.1 hread
      obtain ⟨rfl, rfl⟩ := List.cons.inj (bs_eq_cons_of_readByte hfirst)
      simp only [lengthType_len64] at hbody
      obtain ⟨ds, hlen, hds, -⟩ := readNumber_eq_ok hbody
      have hall : toBeBytes 8 v = ds := List.append_cancel_right hds
      rw [← hall, length_toBeBytes] at hlen
      omega

/-- For every input that begins with a length, whatever follows: the decoders
find one number and take the same bytes if and only if the form has no more than
fourteen bits or the order of its four bytes does not matter. -/
theorem lengthsAgree_iff (l : Len) (rest : Bytes) :
    (∃ n left, LengthsAgree (l.bytes ++ rest) n left) ↔ l.SameBothWays := by
  constructor
  · rintro ⟨n, left, hagree⟩
    have hlength := reads_readLength l rest
    obtain ⟨rfl, rfl⟩ := EStateM.Result.ok.inj (hlength.symm.trans hagree.length)
    exact (readInlineLength_len l _ rest).1 hagree.selectDb
  · intro hsame
    exact ⟨l.val, rest, {
      length := reads_readLength l rest
      withEncoding := reads_readLengthWithEncoding l rest
      withRaw := ⟨l.bytes, rfl, reads_readLengthWithRaw l rest⟩
      string := readString_len l rest
      stringWithRawBytes := ⟨l.bytes, rfl, readStringWithRawBytes_len l rest⟩
      selectDb := (readInlineLength_len l _ rest).2 hsame
      dbSize := (readInlineLength_len l _ rest).2 hsame
      expiresSize := (readInlineLength_len l _ rest).2 hsame }⟩

/-- The length 1 in 32 bits, which the inline decoders take for `2 ^ 24`. -/
def oneWide : Bytes := [0x80, 0, 0, 0, 1]

theorem not_lengthsAgree : ¬ ∃ n left, LengthsAgree oneWide n left := by
  rintro ⟨n, left, hagree⟩
  have hlength : readLength oneWide = .ok 1 [] := by rfl
  have hselect : readInlineLength "SelectDB 特殊编码不支持".toList oneWide
      = .ok (2 ^ 24) [] := by rfl
  obtain ⟨rfl, rfl⟩ := EStateM.Result.ok.inj (hlength.symm.trans hagree.length)
  have heq := (EStateM.Result.ok.inj (hselect.symm.trans hagree.selectDb)).1
  revert heq
  decide

/-! ## Writing again -/

/-- A number below `2 ^ 32` has a shortest form. -/
theorem exists_shortest {n : Nat} (h : n < 2 ^ 32) : ∃ l : Len, l.Shortest ∧ l.val = n := by
  by_cases h6 : n < 2 ^ 6
  · exact ⟨⟨.six, n, h6⟩, trivial, rfl⟩
  · by_cases h14 : n < 2 ^ 14
    · exact ⟨⟨.fourteen, n, h14⟩, Nat.not_lt.1 h6, rfl⟩
    · exact ⟨⟨.len32, n, h⟩, Nat.not_lt.1 h14, rfl⟩

/-- What is written is a length again, of what 32 bits hold of the number. -/
theorem encodeLengthToBuf_len (n : Nat) :
    ∃ l : Len, encodeLengthToBuf n = l.bytes ∧ l.val = n % 2 ^ 32 := by
  by_cases h : n < 2 ^ 32
  · obtain ⟨l, hshort, rfl⟩ := exists_shortest h
    exact ⟨l, encodeLengthToBuf_eq hshort, (Nat.mod_eq_of_lt h).symm⟩
  · refine ⟨⟨.len32, n % 2 ^ 32, Nat.mod_lt n (by decide)⟩, ?_, rfl⟩
    have hmod : toBeBytes 4 (n % 2 ^ 32) = toBeBytes 4 n :=
      congrArg List.reverse (toLeBytes_mod 4 n)
    show encodeLengthToBuf n = 0x80 :: toBeBytes 4 (n % 2 ^ 32)
    rw [hmod, encodeLengthToBuf, if_neg (by omega), if_neg (by omega)]

/-- The LZF branch of the string readers: the two lengths it finds, and the
compressed data. -/
def readLzf : Rd (Nat × Nat × Bytes) := do
  let _first ← readByte
  let compressedLen ← readLength
  let originalLen ← readLength
  let compressedData ← readBuffer compressedLen
  pure (compressedLen, originalLen, compressedData)

/-- `read_string_with_raw_bytes` accepts a compressed string at the front of
`bs`, finds this, and leaves `rest`. -/
structure FindsLzf (bs : Bytes) (found : Nat × Nat × Bytes) (rest : Bytes) : Prop where
  first : bs.head? = some 0xC3
  accepted : ∃ r, readStringWithRawBytes bs = .ok r rest
  found : readLzf bs = .ok found rest

theorem reads_readLzf (c o : Len) {data : Bytes} (h : c.val = data.length)
    (held : data.length ≤ isizeMax) :
    Reads readLzf (0xC3 :: c.bytes ++ o.bytes ++ data) (c.val, o.val, data) := by
  refine reads_readByte ?_
  simp only [List.append_eq, List.append_assoc]
  refine (reads_readLength c).bind ?_
  refine (reads_readLength o).bind ?_
  exact (reads_readBuffer h held).bind_pure (Reads.pure _)

theorem findsLzf_bytes (c o : Len) {data : Bytes} (h : c.val = data.length)
    (held : data.length ≤ isizeMax) (rest : Bytes) :
    FindsLzf ((RdbString.lzf c o data h held).bytes ++ rest) (c.val, o.val, data) rest where
  first := rfl
  accepted := ⟨_, reads_readStringWithRawBytes (.lzf c o data h held) rest⟩
  found := reads_readLzf c o h held rest

/-- Only a compressed string begins with its byte. -/
theorem lzf_of_first {s : RdbString} {rest : Bytes}
    (h : (s.bytes ++ rest).head? = some 0xC3) :
    ∃ c o data hlen held, s = .lzf c o data hlen held := by
  cases s with
  | lzf c o data hlen held => exact ⟨c, o, data, hlen, held, rfl⟩
  | plain l data hlen held =>
      obtain ⟨form, v, fits⟩ := l
      have hfirst : ∀ n, UInt8.ofNat n = 0xC3 → n % 256 = 0xC3 := by
        intro n heq
        have hnat := congrArg UInt8.toNat heq
        rwa [UInt8.toNat_ofNat'] at hnat
      cases form with
      | six =>
          have hv : v < 2 ^ 6 := fits
          have hmod := hfirst v (Option.some.inj h)
          omega
      | fourteen =>
          have hv : v < 2 ^ 14 := fits
          have hmod := hfirst (0x40 + v / 256) (Option.some.inj h)
          omega
      | len32 => exact absurd (Option.some.inj h) (by decide)
      | len64 => exact absurd (Option.some.inj h) (by decide)
  | int8 i => exact absurd (Option.some.inj h) (by decide)
  | int16 i => exact absurd (Option.some.inj h) (by decide)
  | int32 i => exact absurd (Option.some.inj h) (by decide)

/-- What is kept of a compressed string holds the same lengths and data if and
only if 32 bits hold both lengths. -/
theorem findsLzf_kept_iff (c o : Len) {data : Bytes} (h : c.val = data.length)
    (held : data.length ≤ isizeMax) :
    FindsLzf (RdbString.lzf c o data h held).kept (c.val, o.val, data) [] ↔
      c.val < 2 ^ 32 ∧ o.val < 2 ^ 32 := by
  obtain ⟨c', hc', hcval⟩ := encodeLengthToBuf_len c.val
  obtain ⟨o', ho', hoval⟩ := encodeLengthToBuf_len o.val
  have hkept : (RdbString.lzf c o data h held).kept = 0xC3 :: c'.bytes ++ o'.bytes ++ data := by
    rw [← hc', ← ho']
    rfl
  rw [hkept]
  constructor
  · rintro ⟨-, -, hfound⟩
    obtain ⟨first, mid, hfirst, hbody⟩ := bind_eq_ok.1 hfound
    obtain ⟨rfl, rfl⟩ := List.cons.inj (bs_eq_cons_of_readByte hfirst)
    obtain ⟨n, mid₁, hn, hbody₁⟩ := bind_eq_ok.1 hbody
    obtain ⟨m, mid₂, hm, hbody₂⟩ := bind_eq_ok.1 hbody₁
    obtain ⟨data', mid₃, -, hpure⟩ := bind_eq_ok.1 hbody₂
    have hparts := (EStateM.Result.ok.inj hpure).1
    obtain ⟨hnval, hmval, -⟩ : n = c.val ∧ m = o.val ∧ data' = data := by
      simpa using hparts
    simp only [List.append_eq, List.append_assoc] at hn
    obtain ⟨hn', rfl⟩ := EStateM.Result.ok.inj ((reads_readLength c' _).symm.trans hn)
    obtain ⟨hm', -⟩ := EStateM.Result.ok.inj ((reads_readLength o' _).symm.trans hm)
    omega
  · rintro ⟨hc, ho⟩
    rw [Nat.mod_eq_of_lt hc] at hcval
    rw [Nat.mod_eq_of_lt ho] at hoval
    have hlen : c'.val = data.length := hcval.trans h
    have hfinds := findsLzf_bytes c' o' hlen held []
    rw [List.append_nil, hcval, hoval] at hfinds
    exact hfinds

/-- For every compressed string that is accepted, whatever the forms of its
lengths and whatever follows: what was kept of it is read to its end as the same
lengths and the same data if and only if both lengths are below `2 ^ 32`. -/
theorem rereads_iff {bs rest : Bytes} {r : Bytes × Bytes} (hlzf : bs.head? = some 0xC3)
    (h : readStringWithRawBytes bs = .ok r rest) :
    ∃ compressedLen originalLen data,
      FindsLzf bs (compressedLen, originalLen, data) rest ∧
        (FindsLzf r.2 (compressedLen, originalLen, data) [] ↔
          compressedLen < 2 ^ 32 ∧ originalLen < 2 ^ 32) := by
  obtain ⟨s, rfl, rfl⟩ := readStringWithRawBytes_eq_ok h
  obtain ⟨c, o, data, hlen, held, rfl⟩ := lzf_of_first hlzf
  exact ⟨c.val, o.val, data, findsLzf_bytes c o hlen held rest,
    findsLzf_kept_iff c o hlen held⟩

/-- One byte of compressed data, and an original length of `2 ^ 32`. -/
def hugeOriginal : Bytes := [0xC3, 1, 0x81, 0, 0, 0, 1, 0, 0, 0, 0, 0]

theorem rereads_iff_hugeOriginal :
    ∃ compressedLen originalLen data,
      FindsLzf hugeOriginal (compressedLen, originalLen, data) [] ∧
        (FindsLzf [0xC3, 1, 0x80, 0, 0, 0, 0, 0] (compressedLen, originalLen, data) [] ↔
          compressedLen < 2 ^ 32 ∧ originalLen < 2 ^ 32) := by
  have hread : readStringWithRawBytes hugeOriginal
      = .ok ([], [0xC3, 1, 0x80, 0, 0, 0, 0, 0]) [] := by rfl
  exact rereads_iff (by decide) hread

/-- The original length that is found again is 0. -/
theorem not_rereads :
    ¬ ∀ (bs rest : Bytes) (r : Bytes × Bytes) (found : Nat × Nat × Bytes),
      readStringWithRawBytes bs = .ok r rest → FindsLzf bs found rest →
        FindsLzf r.2 found [] := by
  intro h
  have hread : readStringWithRawBytes hugeOriginal
      = .ok ([], [0xC3, 1, 0x80, 0, 0, 0, 0, 0]) [] := by rfl
  have hfinds : FindsLzf hugeOriginal (1, 2 ^ 32, [0]) [] := ⟨by decide, ⟨_, hread⟩, by rfl⟩
  have hfound := (h _ _ _ _ hread hfinds).found
  have hagain : readLzf [0xC3, 1, 0x80, 0, 0, 0, 0, 0] = .ok (1, 0, [0]) [] := by rfl
  have heq := (EStateM.Result.ok.inj (hagain.symm.trans hfound)).1
  revert heq
  decide

end RedisHaTool.Rdb
