import RedisHaTool.Lib.Truncation
import RedisHaTool.Proofs.RdbLengths
import RedisHaTool.Rdb.StreamFields

/-!
# What an input begins with

Every input begins with a length or with what is none, and with a string, a string
that is too long or what is none; this is a matter of the bytes alone. The readers
answer over the first, panic over the second and fail over the third, each leaving
what comes after it.
-/

namespace RedisHaTool.Rdb

open Lib

/-! ## Lengths -/

/-- A part of an encoding that is cut short is padded to a whole one. -/
theorem padded {ds : Bytes} {n : Nat} (h : ds.length < n) :
    ∃ more : Bytes, more ≠ [] ∧ (ds ++ more).length = n := by
  refine ⟨List.replicate (n - ds.length) 0, ?_, ?_⟩
  · exact List.ne_nil_of_length_pos (by rw [List.length_replicate]; omega)
  · rw [List.length_append, List.length_replicate]
    omega

theorem cut_append (ds : Bytes) {more : Bytes} (h : more ≠ []) :
    ds <+: ds ++ more ∧ ds ≠ ds ++ more :=
  ⟨List.prefix_append _ _, fun heq => h (List.append_right_eq_self.1 heq.symm)⟩

/-- A length, a part of one, or a byte beyond those that begin one. -/
theorem len_cases (bs : Bytes) :
    (∃ (l : Len) (rest : Bytes), bs = l.bytes ++ rest) ∨
      (∃ l : Len, bs <+: l.bytes ∧ bs ≠ l.bytes) ∨
      ∃ b rest, bs = b :: rest ∧ 0x81 < b := by
  cases bs with
  | nil =>
      let zero := Len.small .six 0 zero_fits
      exact .inr (.inl ⟨zero, List.nil_prefix, (len_bytes_ne_nil zero).symm⟩)
  | cons first bs =>
      rcases lengthType_cases first with htype | htype | htype | htype
      · obtain ⟨l, -, hbytes, -⟩ := six_of_lengthType htype
        exact .inl ⟨l, bs, by rw [hbytes]; rfl⟩
      · cases bs with
        | nil =>
            obtain ⟨l, -, hbytes, -⟩ := fourteen_of_lengthType 0 htype
            exact .inr (.inl ⟨l, hbytes ▸ cut_append [first] (List.cons_ne_nil 0 [])⟩)
        | cons second bs =>
            obtain ⟨l, -, hbytes, -⟩ := fourteen_of_lengthType second htype
            exact .inl ⟨l, bs, by rw [hbytes]; rfl⟩
      · by_cases h80 : first = 0x80
        · subst h80
          rcases Nat.lt_or_ge bs.length 4 with hshort | hlong
          · obtain ⟨more, hmore, hlen⟩ := padded hshort
            obtain ⟨l, -, hbytes, -⟩ := len32_of_bytes hlen
            exact .inr (.inl ⟨l, hbytes ▸ cut_append (0x80 :: bs) hmore⟩)
          · obtain ⟨l, -, hbytes, -⟩ := len32_of_bytes (List.length_take_of_le hlong)
            refine .inl ⟨l, bs.drop 4, ?_⟩
            rw [hbytes, List.cons_append, List.take_append_drop]
        · by_cases h81 : first = 0x81
          · subst h81
            rcases Nat.lt_or_ge bs.length 8 with hshort | hlong
            · obtain ⟨more, hmore, hlen⟩ := padded hshort
              obtain ⟨l, -, hbytes, -⟩ := len64_of_bytes hlen
              exact .inr (.inl ⟨l, hbytes ▸ cut_append (0x81 :: bs) hmore⟩)
            · obtain ⟨l, -, hbytes, -⟩ := len64_of_bytes (List.length_take_of_le hlong)
              refine .inl ⟨l, bs.drop 8, ?_⟩
              rw [hbytes, List.cons_append, List.take_append_drop]
          · refine .inr (.inr ⟨first, bs, rfl, ?_⟩)
            simp only [lengthType_eq, UInt8.lt_iff_toNat_lt, ← UInt8.toNat_inj,
              UInt8.reduceToNat] at htype h80 h81 ⊢
            omega
      · refine .inr (.inr ⟨first, bs, rfl, ?_⟩)
        simp only [lengthType_eq, UInt8.lt_iff_toNat_lt, UInt8.reduceToNat] at htype ⊢
        omega

/-- A length or an integer, or what is neither. -/
theorem anyLen_cases {size : UInt8 → Option Nat} (bs : Bytes) :
    (∃ (l : AnyLen size) (rest : Bytes), bs = l.bytes ++ rest) ∨
      ∃ taken left, bs = taken ++ left ∧ NoLength size taken left := by
  rcases len_cases bs with ⟨l, rest, rfl⟩ | ⟨l, hpre, hne⟩ | ⟨b, rest, rfl, hb⟩
  · exact .inl ⟨.len l, rest, rfl⟩
  · exact .inr ⟨bs, [], (List.append_nil bs).symm, .cut (.len l) hpre hne⟩
  · cases hsize : size b with
    | none => exact .inr ⟨[b], rest, rfl, .first rest hb hsize⟩
    | some n =>
        rcases Nat.lt_or_ge rest.length n with hshort | hlong
        · obtain ⟨more, hmore, rfl⟩ := padded hshort
          have hcut := cut_append (b :: rest) hmore
          exact .inr ⟨b :: rest, [], (List.append_nil _).symm,
            .cut (.int b (rest ++ more) hsize) hcut.1 hcut.2⟩
        · refine .inl ⟨.int b (rest.take n) ?_, rest.drop n, ?_⟩
          · rw [List.length_take_of_le hlong, hsize]
          · rw [AnyLen.bytes, List.cons_append, List.take_append_drop]

/-- On a part of what it reads, a reader runs out of input. -/
theorem ranOut_of_cut {α : Type} {m : Rd α} (h : Plain m) {bs taken : Bytes} {a : α}
    (hreads : Reads m bs a) (hpre : taken <+: bs) (hne : taken ≠ bs) : RanOut (m taken) := by
  obtain ⟨tail, rfl⟩ := hpre
  have hwhole := hreads []
  rw [List.append_nil] at hwhole
  refine (h.steady.of_ok hwhole).resolve_left ?_
  rintro ⟨left, -, hleft⟩
  obtain ⟨-, rfl⟩ := List.append_eq_nil_iff.1 hleft.symm
  exact hne (List.append_nil taken).symm

/-- The first byte of what is no length has one of the two upper types. -/
theorem lengthType_of_gt {b : UInt8} (h : 0x81 < b) :
    (lengthType b = 2 ∧ b < 0xC0 ∨ lengthType b = 3 ∧ 0xC0 ≤ b) ∧ b ≠ 0x80 ∧ b ≠ 0x81 := by
  have hlt := b.toNat_lt
  simp only [lengthType_eq, UInt8.lt_iff_toNat_lt, UInt8.le_iff_toNat_le, ne_eq,
    ← UInt8.toNat_inj, UInt8.reduceToNat] at h ⊢
  omega

theorem readLength_first {b : UInt8} (h : 0x81 < b) (left : Bytes) :
    ∃ e, readLength (b :: left) = .error (.err e) left := by
  obtain ⟨htype, h80, h81⟩ := lengthType_of_gt h
  have hread : readByte (b :: left) = .ok b left := rfl
  rw [readLength, bind_of_ok hread]
  rcases htype with ⟨htype, -⟩ | ⟨htype, -⟩
  · simp only [htype, if_neg h80, if_neg h81]
    exact ⟨_, rfl⟩
  · simp only [htype]
    exact ⟨_, rfl⟩

theorem NoLength.readLength {taken left : Bytes} (h : NoLength noInt taken left) :
    ∃ e, Rdb.readLength (taken ++ left) = .error (.err e) left := by
  cases h with
  | cut l hpre hne =>
      cases l with
      | len l =>
          rw [List.append_nil]
          exact ranOut_of_cut taking_readLength.plain (reads_readLength l) hpre hne
      | int first data h => cases h
  | first left hb hint => exact readLength_first hb left

/-! ### Integers in the place of a length -/

/-- From a byte that begins no length on, the integers are told apart. -/
theorem readLengthWithEncoding_first {b : UInt8} (h : 0x81 < b) (bs : Bytes) :
    readLengthWithEncoding (b :: bs) = readEncodedValue b bs := by
  obtain ⟨htype, h80, h81⟩ := lengthType_of_gt h
  have hread : readByte (b :: bs) = .ok b bs := rfl
  rw [readLengthWithEncoding, bind_of_ok hread]
  rcases htype with ⟨htype, -⟩ | ⟨htype, -⟩
  · simp only [htype, if_neg h80, if_neg h81]
  · simp only [htype]

theorem reads_encodedInt {first : UInt8} {data : Bytes}
    (h : encodedInt first = some data.length) :
    ∃ v, Reads readLengthWithEncoding (first :: data) (0, true, v) := by
  have of_value : ∀ {r : Nat × Bool × Nat}, 0x81 < first →
      Reads (readEncodedValue first) data r →
      Reads readLengthWithEncoding (first :: data) r := by
    intro r hfirst hvalue rest
    rw [List.cons_append, readLengthWithEncoding_first hfirst]
    exact hvalue rest
  rw [encodedInt] at h
  split at h
  · next hfirst =>
      subst hfirst
      obtain ⟨b, rfl⟩ := List.length_eq_one_iff.1 (Option.some.inj h).symm
      have hvalue : Reads (readEncodedValue 0xC0) [b] (0, true, b.toNat) := fun _ => rfl
      exact ⟨_, of_value (by decide) hvalue⟩
  · split at h
    · next hfirst =>
        subst hfirst
        have hread : Reads readU16 data (leNat data) :=
          reads_number (Option.some.inj h).symm rfl
        have hvalue : Reads (readEncodedValue 0xC1) data (0, true, leNat data) :=
          hread.bind_pure (Reads.pure _)
        exact ⟨_, of_value (by decide) hvalue⟩
    · split at h
      · next hfirst =>
          have hread : Reads readU32 data (leNat data) :=
            reads_number (Option.some.inj h).symm rfl
          have hvalue : Reads (do let v ← readU32; pure (0, true, v) : Rd (Nat × Bool × Nat))
              data (0, true, leNat data) := hread.bind_pure (Reads.pure _)
          rcases hfirst with rfl | rfl
          · exact ⟨_, of_value (by decide) hvalue⟩
          · exact ⟨_, of_value (by decide) hvalue⟩
      · cases h

/-- A length or an integer is read for what it counts. -/
theorem reads_anyLen (l : AnyLen encodedInt) :
    ∃ r, r.1 = l.counted ∧ Reads readLengthWithEncoding l.bytes r := by
  cases l with
  | len l => exact ⟨_, rfl, reads_readLengthWithEncoding l⟩
  | int first data h =>
      obtain ⟨v, hreads⟩ := reads_encodedInt h
      exact ⟨_, rfl, hreads⟩

theorem readEncodedValue_none {b : UInt8} (h : 0x81 < b) (hint : encodedInt b = none)
    (left : Bytes) : ∃ e, readEncodedValue b left = .error (.err e) left := by
  have hnone : b ≠ 0xC0 ∧ b ≠ 0xC1 ∧ b ≠ 0xC2 ∧ b ≠ 0x82 := by
    refine ⟨?_, ?_, ?_, ?_⟩ <;>
      · rintro rfl
        revert hint
        decide
  have hlow : low6 b ≠ 0 ∧ low6 b ≠ 1 ∧ low6 b ≠ 2 := by
    have hlt := b.toNat_lt
    simp only [low6_eq, UInt8.lt_iff_toNat_lt, ne_eq, ← UInt8.toNat_inj,
      UInt8.reduceToNat] at h hnone ⊢
    omega
  generalize hvalue : low6 b = encoding at hlow
  rcases encoding with _ | _ | _ | encoding
  · exact absurd rfl hlow.1
  · exact absurd rfl hlow.2.1
  · exact absurd rfl hlow.2.2
  · simp only [readEncodedValue, hvalue]
    exact ⟨_, rfl⟩

theorem NoLength.withEncoding {taken left : Bytes} (h : NoLength encodedInt taken left) :
    ∃ e, readLengthWithEncoding (taken ++ left) = .error (.err e) left := by
  cases h with
  | cut l hpre hne =>
      obtain ⟨r, -, hreads⟩ := reads_anyLen l
      rw [List.append_nil]
      exact ranOut_of_cut plain_readLengthWithEncoding hreads hpre hne
  | first left hb hint =>
      obtain ⟨e, herror⟩ := readEncodedValue_none hb hint left
      exact ⟨e, (readLengthWithEncoding_first hb left).trans herror⟩

/-! ## Strings -/

/-- What begins with a length is a string of it, unless that is too long or the
bytes are not all there. -/
theorem string_of_len (l : Len) (body : Bytes) :
    (∃ (s : RdbString) (rest : Bytes), l.bytes ++ body = s.bytes ++ rest) ∨
      isizeMax < l.val ∨ NoString (l.bytes ++ body) [] := by
  by_cases hlong : isizeMax < l.val
  · exact .inr (.inl hlong)
  · rcases Nat.lt_or_ge body.length l.val with hshort | henough
    · obtain ⟨more, hmore, hlen⟩ := padded hshort
      have hheld : (body ++ more).length ≤ isizeMax := by omega
      have hcut := cut_append (l.bytes ++ body) hmore
      rw [List.append_assoc] at hcut
      exact .inr (.inr (.cut (.plain l (body ++ more) hlen.symm hheld) hcut.1 hcut.2))
    · have hlen := List.length_take_of_le henough
      refine .inl ⟨.plain l (body.take l.val) hlen.symm (by omega), body.drop l.val, ?_⟩
      rw [RdbString.bytes, List.append_assoc, List.take_append_drop]

/-- A part of a length is a part of a string, or of a length that only a string that
is too long has. -/
theorem noString_of_cut {l : Len} {bs : Bytes} (hpre : bs <+: l.bytes) (hne : bs ≠ l.bytes) :
    NoString bs [] := by
  by_cases hlong : isizeMax < l.val
  · have hform : l.form = .len64 := by
      obtain ⟨form, v, fits⟩ := l
      have hlarge : 2 ^ 63 - 1 < v := hlong
      cases form with
      | len64 => rfl
      | six | fourteen | len32 =>
          simp only [LenForm.bound] at fits
          omega
    obtain ⟨rest, hrest⟩ := hpre
    rw [Len.bytes, hform] at hrest
    cases bs with
    | nil => exact .cut (.int8 ⟨0, by decide⟩) List.nil_prefix (by simp [RdbString.bytes])
    | cons b ds =>
        obtain ⟨rfl, hds⟩ : b = 0x81 ∧ ds ++ rest = toBeBytes 8 l.val := List.cons.inj hrest
        have hlen := congrArg List.length hds
        rw [List.length_append, length_toBeBytes] at hlen
        refine .lengthCut (Nat.lt_of_le_of_ne (by omega) fun heq => hne ?_)
        have hnil : rest = [] := List.eq_nil_of_length_eq_zero (by omega)
        rw [hnil, List.append_nil] at hds
        rw [Len.bytes, hform, ← hds]
  · have hlen : l.val = (List.replicate l.val (0 : UInt8)).length := by simp
    have hheld : (List.replicate l.val (0 : UInt8)).length ≤ isizeMax := by
      rw [List.length_replicate]
      omega
    refine .cut (.plain l _ hlen hheld) (hpre.trans (List.prefix_append _ _)) fun heq => hne ?_
    refine hpre.eq_of_length_le ?_
    rw [heq, RdbString.bytes, List.length_append]
    exact Nat.le_add_right _ _

/-- So many bytes, of which the first are a number. -/
theorem int_string {first : UInt8} {n : Nat} (bs : Bytes)
    (h : ∀ ds : Bytes, ds.length = n → ∃ s : RdbString, s.bytes = first :: ds) :
    (∃ (s : RdbString) (rest : Bytes), first :: bs = s.bytes ++ rest) ∨
      NoString (first :: bs) [] := by
  rcases Nat.lt_or_ge bs.length n with hshort | hlong
  · obtain ⟨more, hmore, hlen⟩ := padded hshort
    obtain ⟨s, hbytes⟩ := h _ hlen
    have hcut := cut_append (first :: bs) hmore
    rw [List.cons_append, ← hbytes] at hcut
    exact .inr (.cut s hcut.1 hcut.2)
  · obtain ⟨s, hbytes⟩ := h _ (List.length_take_of_le hlong)
    refine .inl ⟨s, bs.drop n, ?_⟩
    rw [hbytes, List.cons_append, List.take_append_drop]

/-- After the byte that begins a compressed string. -/
theorem lzf_cases (bs : Bytes) :
    (∃ (s : RdbString) (rest : Bytes), 0xC3 :: bs = s.bytes ++ rest) ∨
      (∃ taken left, 0xC3 :: bs = taken ++ left ∧ HugeString taken) ∨
      ∃ taken left, 0xC3 :: bs = taken ++ left ∧ NoString taken left := by
  rcases @anyLen_cases noInt bs with ⟨c, bs, rfl⟩ | ⟨taken, left, rfl, h⟩
  swap
  · exact .inr (.inr ⟨0xC3 :: taken, left, rfl, .compressedLen h⟩)
  cases c with
  | int first data h => cases h
  | len c =>
      rcases @anyLen_cases noInt bs with ⟨o, bs, rfl⟩ | ⟨taken, left, rfl, h⟩
      swap
      · refine .inr (.inr ⟨0xC3 :: c.bytes ++ taken, left, ?_, .originalLen c h⟩)
        simp only [AnyLen.bytes, List.cons_append, List.append_assoc]
      cases o with
      | int first data h => cases h
      | len o =>
          by_cases hlong : isizeMax < c.val
          · refine .inr (.inl ⟨0xC3 :: c.bytes ++ o.bytes, bs, ?_, .compressed c o hlong⟩)
            simp only [AnyLen.bytes, List.cons_append, List.append_assoc]
          · rcases Nat.lt_or_ge bs.length c.val with hshort | henough
            · obtain ⟨more, hmore, hlen⟩ := padded hshort
              have hcut := cut_append (0xC3 :: c.bytes ++ o.bytes ++ bs) hmore
              rw [List.append_assoc (0xC3 :: c.bytes ++ o.bytes)] at hcut
              refine .inr (.inr ⟨0xC3 :: c.bytes ++ o.bytes ++ bs, [], ?_,
                .cut (.lzf c o (bs ++ more) hlen.symm (by omega)) hcut.1 hcut.2⟩)
              simp only [AnyLen.bytes, List.cons_append, List.append_assoc, List.append_nil]
            · have hlen := List.length_take_of_le henough
              refine .inl ⟨.lzf c o (bs.take c.val) hlen.symm (by omega), bs.drop c.val, ?_⟩
              simp only [AnyLen.bytes, RdbString.bytes, List.cons_append, List.append_assoc,
                List.take_append_drop]

/-- A string, a string that is too long, or what is none. -/
theorem string_cases (bs : Bytes) :
    (∃ (s : RdbString) (rest : Bytes), bs = s.bytes ++ rest) ∨
      (∃ taken left, bs = taken ++ left ∧ HugeString taken) ∨
      ∃ taken left, bs = taken ++ left ∧ NoString taken left := by
  have of_int : (∃ (s : RdbString) (rest : Bytes), bs = s.bytes ++ rest) ∨ NoString bs [] →
      (∃ (s : RdbString) (rest : Bytes), bs = s.bytes ++ rest) ∨
        (∃ taken left, bs = taken ++ left ∧ HugeString taken) ∨
        ∃ taken left, bs = taken ++ left ∧ NoString taken left :=
    Or.imp_right fun h => .inr ⟨bs, [], (List.append_nil bs).symm, h⟩
  rcases len_cases bs with ⟨l, body, rfl⟩ | ⟨l, hpre, hne⟩ | ⟨b, rest, rfl, hb⟩
  · rcases string_of_len l body with h | hlong | h
    · exact .inl h
    · exact .inr (.inl ⟨l.bytes, body, rfl, .plain l hlong⟩)
    · exact of_int (.inr h)
  · exact of_int (.inr (noString_of_cut hpre hne))
  · by_cases hlow : b < 0xC0
    · exact .inr (.inr ⟨[b], rest, rfl, .first rest (.inl ⟨hb, hlow⟩)⟩)
    by_cases hhigh : 0xC3 < b
    · exact .inr (.inr ⟨[b], rest, rfl, .first rest (.inr hhigh)⟩)
    have hfirst : b = 0xC0 ∨ b = 0xC1 ∨ b = 0xC2 ∨ b = 0xC3 := by
      simp only [UInt8.lt_iff_toNat_lt, ← UInt8.toNat_inj, UInt8.reduceToNat] at hlow hhigh ⊢
      omega
    rcases hfirst with rfl | rfl | rfl | rfl
    · refine of_int (int_string (n := 1) rest fun ds hlen => ?_)
      obtain ⟨b, rfl⟩ := List.length_eq_one_iff.1 hlen
      obtain ⟨s, hbytes, -⟩ := int8_of_byte b
      exact ⟨s, hbytes⟩
    · refine of_int (int_string (n := 2) rest fun ds hlen => ?_)
      obtain ⟨s, hbytes, -⟩ := int16_of_bytes hlen
      exact ⟨s, hbytes⟩
    · refine of_int (int_string (n := 4) rest fun ds hlen => ?_)
      obtain ⟨s, hbytes, -⟩ := int32_of_bytes hlen
      exact ⟨s, hbytes⟩
    · exact lzf_cases rest

theorem readExactly_short {n : Nat} {bs : Bytes} (h : bs.length < n) :
    readExactly n bs = .error (.err .eof) [] := if_pos h

theorem readString_first {b : UInt8} (h : 0x81 < b ∧ b < 0xC0 ∨ 0xC3 < b) (left : Bytes) :
    ∃ e, readString (b :: left) = .error (.err e) left := by
  have hgt : 0x81 < b := by
    simp only [UInt8.lt_iff_toNat_lt, UInt8.reduceToNat] at h ⊢
    omega
  obtain ⟨htype, h80, h81⟩ := lengthType_of_gt hgt
  have hread : readByte (b :: left) = .ok b left := rfl
  rw [readString, bind_of_ok hread]
  rcases htype with ⟨htype, -⟩ | ⟨htype, hge⟩
  · simp only [htype, if_neg h80, if_neg h81]
    exact ⟨_, rfl⟩
  · have hlow : 4 ≤ low6 b := by
      have hlt := b.toNat_lt
      simp only [low6_eq, UInt8.lt_iff_toNat_lt, UInt8.le_iff_toNat_le,
        UInt8.reduceToNat] at h hge ⊢
      omega
    generalize low6 b = encoding at hlow ⊢
    rcases encoding with _ | _ | _ | _ | encoding
    any_goals omega
    simp only [htype]
    exact ⟨_, rfl⟩

theorem readString_len64 (bs : Bytes) :
    readString (0x81 :: bs) = (do let len ← readU64Be; readStringRaw len : Rd Bytes) bs := rfl

theorem NoString.readString {taken left : Bytes} (h : NoString taken left) :
    ∃ e, Rdb.readString (taken ++ left) = .error (.err e) left := by
  cases h with
  | cut s hpre hne =>
      rw [List.append_nil]
      exact ranOut_of_cut plain_readString (reads_readString s) hpre hne
  | lengthCut hshort =>
      refine ⟨.eof, ?_⟩
      rw [List.append_nil, readString_len64]
      exact bind_of_error (bind_of_error (readExactly_short hshort))
  | first left hb => exact readString_first hb left
  | compressedLen h =>
      obtain ⟨e, herror⟩ := h.readLength
      exact ⟨e, (readString_lzf _).trans (bind_of_error herror)⟩
  | originalLen c h =>
      obtain ⟨e, herror⟩ := h.readLength
      refine ⟨e, ?_⟩
      rw [List.cons_append, List.cons_append, List.append_assoc, readString_lzf,
        bind_of_ok (reads_readLength c _)]
      exact bind_of_error herror

theorem HugeString.readString {taken : Bytes} (h : HugeString taken) (left : Bytes) :
    Rdb.readString (taken ++ left) = .error .panic left := by
  have hbuffer : ∀ {n : Nat}, isizeMax < n → readBuffer n left = .error .panic left := by
    intro n hn
    rw [readBuffer, if_pos hn]
    rfl
  cases h with
  | plain l hlong =>
      have hpos : l.val ≠ 0 := by omega
      rw [readString_len, readStringRaw, if_neg hpos]
      exact hbuffer hlong
  | compressed c o hlong =>
      rw [List.cons_append, List.cons_append, List.append_assoc, readString_lzf,
        bind_of_ok (reads_readLength c _), bind_of_ok (reads_readLength o _)]
      exact bind_of_error (hbuffer hlong)

end RedisHaTool.Rdb
