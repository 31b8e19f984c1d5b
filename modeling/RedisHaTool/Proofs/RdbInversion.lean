import RedisHaTool.Proofs.RdbReaders
import RedisHaTool.Proofs.RdbRoundTrip

/-!
# What an answer has been read from

The converse of `RdbRoundTrip`. Where a method of the parser that reads a length
or a string has answered, the bytes it took are a length or a string of the
format, and the answer is what the round trip says of it: the method accepts
nothing that the format does not have.
-/

namespace RedisHaTool.Rdb

open Lib

/-! ## Bytes and numbers -/

theorem bs_eq_cons_of_readByte {bs rest : Bytes} {b : UInt8}
    (h : readByte bs = .ok b rest) : bs = b :: rest := by
  cases bs with
  | nil => cases h
  | cons c cs =>
      cases h
      rfl

theorem readExactly_eq_ok {n : Nat} {bs a rest : Bytes}
    (h : readExactly n bs = .ok a rest) : a.length = n ∧ bs = a ++ rest := by
  rw [readExactly, readExact] at h
  split at h
  · cases h
  · cases h
    refine ⟨?_, (List.take_append_drop n bs).symm⟩
    rw [List.length_take]
    omega

theorem readNumber_eq_ok {n v : Nat} {bs rest : Bytes} {dec : Bytes → Nat}
    (h : (do let bs ← readExactly n; pure (dec bs) : Rd Nat) bs = .ok v rest) :
    ∃ ds, ds.length = n ∧ bs = ds ++ rest ∧ v = dec ds := by
  obtain ⟨ds, mid, hread, hpure⟩ := bind_eq_ok.1 h
  cases hpure
  obtain ⟨hlen, rfl⟩ := readExactly_eq_ok hread
  exact ⟨ds, hlen, rfl, rfl⟩

/-! ## Lengths -/

theorem six_of_lengthType {first : UInt8} (h : lengthType first = 0) :
    ∃ l : Len, l.form = .six ∧ l.bytes = [first] ∧ l.val = low6 first := by
  rw [lengthType_eq] at h
  have hlow : low6 first = first.toNat := by
    rw [low6_eq]
    omega
  have hfits : low6 first < 2 ^ 6 := by
    rw [hlow]
    omega
  refine ⟨⟨.six, low6 first, hfits⟩, rfl, ?_, rfl⟩
  show [UInt8.ofNat (low6 first)] = [first]
  rw [hlow, UInt8.ofNat_toNat]

theorem fourteen_of_lengthType {first : UInt8} (second : UInt8) (h : lengthType first = 1) :
    ∃ l : Len, l.form = .fourteen ∧ l.bytes = [first, second] ∧
      l.val = low14 first second := by
  rw [lengthType_eq] at h
  have hsecond : second.toNat < 2 ^ 8 := second.toNat_lt
  have hlow := low14_eq first second
  have hfits : low14 first second < 2 ^ 14 := by omega
  refine ⟨⟨.fourteen, low14 first second, hfits⟩, rfl, ?_, rfl⟩
  have hhigh : UInt8.ofNat (0x40 + low14 first second / 256) = first := by
    apply UInt8.toNat_inj.1
    rw [UInt8.toNat_ofNat']
    omega
  have hrest : UInt8.ofNat (low14 first second) = second := by
    apply UInt8.toNat_inj.1
    rw [UInt8.toNat_ofNat']
    omega
  show [UInt8.ofNat (0x40 + low14 first second / 256), UInt8.ofNat (low14 first second)]
    = [first, second]
  rw [hhigh, hrest]

theorem len32_of_bytes {ds : Bytes} (h : ds.length = 4) :
    ∃ l : Len, l.form = .len32 ∧ l.bytes = 0x80 :: ds ∧ l.val = beNat ds := by
  have hfits := beNat_lt ds
  have hbytes := toBeBytes_beNat ds
  rw [h] at hfits hbytes
  refine ⟨⟨.len32, beNat ds, hfits⟩, rfl, ?_, rfl⟩
  show 0x80 :: toBeBytes 4 (beNat ds) = 0x80 :: ds
  rw [hbytes]

theorem len64_of_bytes {ds : Bytes} (h : ds.length = 8) :
    ∃ l : Len, l.form = .len64 ∧ l.bytes = 0x81 :: ds ∧ l.val = beNat ds := by
  have hfits := beNat_lt ds
  have hbytes := toBeBytes_beNat ds
  rw [h] at hfits hbytes
  refine ⟨⟨.len64, beNat ds, hfits⟩, rfl, ?_, rfl⟩
  show 0x81 :: toBeBytes 8 (beNat ds) = 0x81 :: ds
  rw [hbytes]

theorem lengthType_cases (b : UInt8) :
    lengthType b = 0 ∨ lengthType b = 1 ∨ lengthType b = 2 ∨ lengthType b = 3 := by
  have hlt : b.toNat < 256 := b.toNat_lt
  rw [lengthType_eq]
  omega

theorem readLength_eq_ok {bs rest : Bytes} {n : Nat} (h : readLength bs = .ok n rest) :
    ∃ l : Len, bs = l.bytes ++ rest ∧ l.val = n := by
  obtain ⟨first, mid, hfirst, hbody⟩ := bind_eq_ok.1 h
  obtain rfl := bs_eq_cons_of_readByte hfirst
  rcases lengthType_cases first with htype | htype | htype | htype
  · simp only [htype] at hbody
    cases hbody
    obtain ⟨l, -, hbytes, hval⟩ := six_of_lengthType htype
    exact ⟨l, by rw [hbytes]; rfl, hval⟩
  · simp only [htype] at hbody
    obtain ⟨second, mid', hsecond, hpure⟩ := bind_eq_ok.1 hbody
    obtain rfl := bs_eq_cons_of_readByte hsecond
    cases hpure
    obtain ⟨l, -, hbytes, hval⟩ := fourteen_of_lengthType second htype
    exact ⟨l, by rw [hbytes]; rfl, hval⟩
  · simp only [htype] at hbody
    split at hbody
    · next h80 =>
        obtain ⟨ds, hlen, rfl, rfl⟩ := readNumber_eq_ok hbody
        obtain ⟨l, -, hbytes, hval⟩ := len32_of_bytes hlen
        exact ⟨l, by rw [hbytes, h80]; rfl, hval⟩
    · split at hbody
      · next h81 =>
          obtain ⟨ds, hlen, rfl, rfl⟩ := readNumber_eq_ok hbody
          obtain ⟨l, -, hbytes, hval⟩ := len64_of_bytes hlen
          exact ⟨l, by rw [hbytes, h81]; rfl, hval⟩
      · cases hbody
  · simp only [htype] at hbody
    cases hbody

/-! ## Strings -/

theorem readBuffer_eq_ok {n : Nat} {bs data rest : Bytes}
    (h : readBuffer n bs = .ok data rest) :
    data.length = n ∧ data.length ≤ isizeMax ∧ bs = data ++ rest := by
  rw [readBuffer] at h
  split at h
  · cases h
  · next hle =>
      obtain ⟨hlen, hbs⟩ := readExactly_eq_ok h
      exact ⟨hlen, by omega, hbs⟩

theorem readStringRaw_eq_ok {n : Nat} {bs data rest : Bytes}
    (h : readStringRaw n bs = .ok data rest) :
    data.length = n ∧ data.length ≤ isizeMax ∧ bs = data ++ rest := by
  rw [readStringRaw] at h
  split at h
  · next hzero =>
      cases h
      exact ⟨hzero.symm, Nat.zero_le _, rfl⟩
  · exact readBuffer_eq_ok h

/-- The first bytes of the encodings that are not lengths. -/
theorem special_first {first : UInt8} {encoding : Nat} (htype : lengthType first = 3)
    (hlow : low6 first = encoding) : first = UInt8.ofNat (0xC0 + encoding) := by
  have hlt : first.toNat < 256 := first.toNat_lt
  rw [lengthType_eq] at htype
  rw [low6_eq] at hlow
  apply UInt8.toNat_inj.1
  rw [UInt8.toNat_ofNat']
  omega

theorem int_of_bytes (bits : Nat) {v : Nat} (hbits : 0 < bits) (h : v < 2 ^ bits) :
    ∃ i : SInt bits, asUnsigned bits i = v ∧ asBytes (intToString i) = decimal bits v :=
  ⟨⟨asSigned bits v, asSigned_mem hbits h⟩, asUnsigned_asSigned h, rfl⟩

theorem int8_of_byte (b : UInt8) :
    ∃ s : RdbString, s.bytes = [0xC0, b] ∧ s.value = decimal 8 b.toNat := by
  obtain ⟨i, hi, hvalue⟩ := int_of_bytes 8 (by omega) b.toNat_lt
  have hbytes : (RdbString.int8 i).bytes = [0xC0, b] := by
    show [0xC0, UInt8.ofNat (asUnsigned 8 i)] = [0xC0, b]
    rw [hi, UInt8.ofNat_toNat]
  exact ⟨.int8 i, hbytes, hvalue⟩

theorem int16_of_bytes {ds : Bytes} (h : ds.length = 2) :
    ∃ s : RdbString, s.bytes = 0xC1 :: ds ∧ s.value = decimal 16 (leNat ds) := by
  have hbytes := toLeBytes_leNat ds
  have hlt := leNat_lt ds
  rw [h] at hbytes hlt
  obtain ⟨i, hi, hvalue⟩ := int_of_bytes 16 (by omega) hlt
  have hs : (RdbString.int16 i).bytes = 0xC1 :: ds := by
    show 0xC1 :: toLeBytes 2 (asUnsigned 16 i) = _
    rw [hi, hbytes]
  exact ⟨.int16 i, hs, hvalue⟩

theorem int32_of_bytes {ds : Bytes} (h : ds.length = 4) :
    ∃ s : RdbString, s.bytes = 0xC2 :: ds ∧ s.value = decimal 32 (leNat ds) := by
  have hbytes := toLeBytes_leNat ds
  have hlt := leNat_lt ds
  rw [h] at hbytes hlt
  obtain ⟨i, hi, hvalue⟩ := int_of_bytes 32 (by omega) hlt
  have hs : (RdbString.int32 i).bytes = 0xC2 :: ds := by
    show 0xC2 :: toLeBytes 4 (asUnsigned 32 i) = _
    rw [hi, hbytes]
  exact ⟨.int32 i, hs, hvalue⟩

theorem plain_of_len {l : Len} {bs data rest : Bytes}
    (h : readStringRaw l.val bs = .ok data rest) :
    ∃ s : RdbString, l.bytes ++ bs = s.bytes ++ rest ∧ s.value = data := by
  obtain ⟨hlen, hheld, rfl⟩ := readStringRaw_eq_ok h
  exact ⟨.plain l data hlen.symm hheld, (List.append_assoc ..).symm, rfl⟩

/-- The reader fails on these bytes, with an error of its own. -/
def Refuses {α : Type} (m : Rd α) (bs : Bytes) : Prop := ∃ e t, m bs = .error (.err e) t

section Refuses

variable {α β : Type} {m : Rd α} {f : UInt8 → Rd α} {first : UInt8} {bs : Bytes}

theorem Refuses.bind (h : Refuses m bs) (f : α → Rd β) : Refuses (m >>= f) bs := by
  obtain ⟨e, t, h⟩ := h
  exact ⟨e, t, bind_of_error h⟩

theorem Refuses.cons (h : Refuses (f first) bs) : Refuses (readByte >>= f) (first :: bs) := by
  obtain ⟨e, t, h⟩ := h
  exact ⟨e, t, h⟩

theorem refuses_nil (f : UInt8 → Rd α) : Refuses (readByte >>= f) [] := ⟨_, _, rfl⟩

theorem refuses_fail (text : Text) (bs : Bytes) : Refuses (fail text : Rd α) bs :=
  ⟨_, _, rfl⟩

theorem refuses_number {n : Nat} {dec : Bytes → Nat} (h : bs.length < n) :
    Refuses (do let bs ← readExactly n; pure (dec bs) : Rd Nat) bs :=
  Refuses.bind ⟨_, [], if_pos h⟩ _

end Refuses

/-- What a string begins with: a length, or one of four bytes. Everything else
is refused, with and without its bytes. -/
theorem string_shapes (bs : Bytes) :
    (∃ (l : Len) (rest : Bytes), bs = l.bytes ++ rest) ∨
      (∃ first rest, bs = first :: rest ∧
        (first = 0xC0 ∨ first = 0xC1 ∨ first = 0xC2 ∨ first = 0xC3)) ∨
      Refuses readString bs ∧ Refuses readStringWithRawBytes bs := by
  cases bs with
  | nil => exact Or.inr (Or.inr ⟨refuses_nil _, refuses_nil _⟩)
  | cons first bs =>
      rcases lengthType_cases first with htype | htype | htype | htype
      · obtain ⟨l, -, hbytes, -⟩ := six_of_lengthType htype
        exact Or.inl ⟨l, bs, by rw [hbytes]; rfl⟩
      · cases bs with
        | nil =>
            refine Or.inr (Or.inr ⟨Refuses.cons ?_, Refuses.cons ?_⟩)
            all_goals
              simp only [htype]
              exact refuses_nil _
        | cons second bs =>
            obtain ⟨l, -, hbytes, -⟩ := fourteen_of_lengthType second htype
            exact Or.inl ⟨l, bs, by rw [hbytes]; rfl⟩
      · by_cases h80 : first = 0x80
        · subst h80
          rcases Nat.lt_or_ge bs.length 4 with hshort | hlong
          · refine Or.inr (Or.inr ⟨Refuses.cons ?_, Refuses.cons ?_⟩)
            all_goals
              simp only [htype, if_true]
              exact (refuses_number hshort).bind _
          · obtain ⟨l, -, hbytes, -⟩ := len32_of_bytes (List.length_take_of_le hlong)
            refine Or.inl ⟨l, bs.drop 4, ?_⟩
            rw [hbytes, List.cons_append, List.take_append_drop]
        · by_cases h81 : first = 0x81
          · subst h81
            rcases Nat.lt_or_ge bs.length 8 with hshort | hlong
            · refine Or.inr (Or.inr ⟨Refuses.cons ?_, Refuses.cons ?_⟩)
              all_goals
                simp only [htype, if_neg h80, if_true]
                exact (refuses_number hshort).bind _
            · obtain ⟨l, -, hbytes, -⟩ := len64_of_bytes (List.length_take_of_le hlong)
              refine Or.inl ⟨l, bs.drop 8, ?_⟩
              rw [hbytes, List.cons_append, List.take_append_drop]
          · refine Or.inr (Or.inr ⟨Refuses.cons ?_, Refuses.cons ?_⟩)
            all_goals
              simp only [htype, if_neg h80, if_neg h81]
              exact refuses_fail _ _
      · generalize hlow : low6 first = encoding
        have hfirst := special_first htype hlow
        rcases encoding with _ | _ | _ | _ | encoding
        · exact Or.inr (Or.inl ⟨first, bs, rfl, Or.inl hfirst⟩)
        · exact Or.inr (Or.inl ⟨first, bs, rfl, Or.inr (Or.inl hfirst)⟩)
        · exact Or.inr (Or.inl ⟨first, bs, rfl, Or.inr (Or.inr (Or.inl hfirst))⟩)
        · exact Or.inr (Or.inl ⟨first, bs, rfl, Or.inr (Or.inr (Or.inr hfirst))⟩)
        · refine Or.inr (Or.inr ⟨Refuses.cons ?_, Refuses.cons ?_⟩)
          all_goals
            simp only [htype, hlow]
            exact refuses_fail _ _

section Special

variable (bs : Bytes)

theorem readString_int8 :
    readString (0xC0 :: bs) = (do let b ← readByte; pure (decimal 8 b.toNat) : Rd Bytes) bs :=
  rfl

theorem readString_int16 :
    readString (0xC1 :: bs) = (do let v ← readU16; pure (decimal 16 v) : Rd Bytes) bs := rfl

theorem readString_int32 :
    readString (0xC2 :: bs) = (do let v ← readU32; pure (decimal 32 v) : Rd Bytes) bs := rfl

theorem readString_lzf :
    readString (0xC3 :: bs) = (do
      let compressedLen ← readLength
      let _originalLen ← readLength
      let _compressedData ← readBuffer compressedLen
      pure [] : Rd Bytes) bs := rfl

end Special

theorem readString_eq_ok {bs v rest : Bytes} (h : readString bs = .ok v rest) :
    ∃ s : RdbString, bs = s.bytes ++ rest ∧ s.value = v := by
  rcases string_shapes bs with
    ⟨l, bs, rfl⟩ | ⟨first, bs, rfl, rfl | rfl | rfl | rfl⟩ | ⟨⟨e, t, herr⟩, -⟩
  · rw [readString_len] at h
    exact plain_of_len h
  · rw [readString_int8] at h
    obtain ⟨b, mid, hbyte, hpure⟩ := bind_eq_ok.1 h
    obtain rfl := bs_eq_cons_of_readByte hbyte
    cases hpure
    obtain ⟨s, hbytes, hvalue⟩ := int8_of_byte b
    exact ⟨s, by rw [hbytes]; rfl, hvalue⟩
  · rw [readString_int16] at h
    obtain ⟨n, mid, hnum, hpure⟩ := bind_eq_ok.1 h
    obtain ⟨ds, hlen, rfl, rfl⟩ := readNumber_eq_ok hnum
    cases hpure
    obtain ⟨s, hbytes, hvalue⟩ := int16_of_bytes hlen
    exact ⟨s, by rw [hbytes]; rfl, hvalue⟩
  · rw [readString_int32] at h
    obtain ⟨n, mid, hnum, hpure⟩ := bind_eq_ok.1 h
    obtain ⟨ds, hlen, rfl, rfl⟩ := readNumber_eq_ok hnum
    cases hpure
    obtain ⟨s, hbytes, hvalue⟩ := int32_of_bytes hlen
    exact ⟨s, by rw [hbytes]; rfl, hvalue⟩
  · rw [readString_lzf] at h
    obtain ⟨n, mid₁, hcompressed, hbody₁⟩ := bind_eq_ok.1 h
    obtain ⟨m, mid₂, horiginal, hbody₂⟩ := bind_eq_ok.1 hbody₁
    obtain ⟨data, mid₃, hbuffer, hpure⟩ := bind_eq_ok.1 hbody₂
    cases hpure
    obtain ⟨c, rfl, hc⟩ := readLength_eq_ok hcompressed
    obtain ⟨o, rfl, -⟩ := readLength_eq_ok horiginal
    obtain ⟨hlen, hheld, rfl⟩ := readBuffer_eq_ok hbuffer
    refine ⟨.lzf c o data (hc.trans hlen.symm) hheld, ?_, rfl⟩
    simp [RdbString.bytes]
  · cases herr.symm.trans h

/-- Whatever is read with its bytes is read the same without them. -/
theorem readString_of_withRawBytes {bs rest : Bytes} {r : Bytes × Bytes}
    (h : readStringWithRawBytes bs = .ok r rest) : readString bs = .ok r.1 rest := by
  rcases string_shapes bs with
    ⟨l, bs, rfl⟩ | ⟨first, bs, rfl, hfirst⟩ | ⟨-, e, t, herr⟩
  · rw [readStringWithRawBytes_len] at h
    obtain ⟨data, mid, hdata, hpure⟩ := bind_eq_ok.1 h
    cases hpure
    exact (readString_len l bs).trans hdata
  · obtain ⟨_, mid, hbyte, h⟩ := bind_eq_ok.1 h
    cases hbyte
    rcases hfirst with rfl | rfl | rfl | rfl
    · obtain ⟨b, mid, hbyte, hpure⟩ := bind_eq_ok.1 h
      cases hpure
      exact (readString_int8 bs).trans (bind_of_ok hbyte)
    · obtain ⟨n, mid, hnum, hpure⟩ := bind_eq_ok.1 h
      cases hpure
      exact (readString_int16 bs).trans (bind_of_ok hnum)
    · obtain ⟨n, mid, hnum, hpure⟩ := bind_eq_ok.1 h
      cases hpure
      exact (readString_int32 bs).trans (bind_of_ok hnum)
    · obtain ⟨n, mid₁, hcompressed, hbody₁⟩ := bind_eq_ok.1 h
      obtain ⟨m, mid₂, horiginal, hbody₂⟩ := bind_eq_ok.1 hbody₁
      obtain ⟨data, mid₃, hbuffer, hpure⟩ := bind_eq_ok.1 hbody₂
      cases hpure
      refine (readString_lzf bs).trans ?_
      refine (bind_of_ok hcompressed).trans ((bind_of_ok horiginal).trans ?_)
      exact bind_of_ok hbuffer
  · cases herr.symm.trans h

theorem readStringWithRawBytes_eq_ok {bs rest : Bytes} {r : Bytes × Bytes}
    (h : readStringWithRawBytes bs = .ok r rest) :
    ∃ s : RdbString, bs = s.bytes ++ rest ∧ r = (s.value, s.kept) := by
  obtain ⟨s, rfl, -⟩ := readString_eq_ok (readString_of_withRawBytes h)
  have hs := reads_readStringWithRawBytes s rest
  exact ⟨s, rfl, (EStateM.Result.ok.inj (h.symm.trans hs)).1⟩

end RedisHaTool.Rdb
