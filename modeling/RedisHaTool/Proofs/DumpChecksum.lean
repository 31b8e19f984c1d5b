import RedisHaTool.Rdb.Dump
import RedisHaTool.Lib.ReflectedCrc

/-!
# The checksum of a DUMP payload

The table of `crc64` holds eight shifts of every byte, so its loop is the
register of `Lib/ReflectedCrc.lean` with the reflected Jones polynomial. A
server that restores a payload compares the last eight bytes with the checksum
of the others. Those bytes and the sum have the same width, so the comparison
holds exactly where the register ends clear after the whole payload, and damage
inside eight bytes is found wherever it stands, across the border too.
-/

namespace RedisHaTool.Rdb

open Lib ReflectedCrc

/-- The Jones polynomial, its bits reversed. -/
def jones : BitVec 64 := 0x95ac9329ac4bc9b5

theorem msb_jones : jones.msb = true := by decide

/-! ## The table -/

theorem crc64Tab_eq :
    ∀ index : Fin 256, crc64Tab.getD index.val 0 =
      UInt64.ofBitVec ((shift jones)^[8] (BitVec.ofNat 64 index.val)) := by
  decide +kernel

/-- A round of the loop feeds the bits of a byte. -/
theorem toBitVec_crc64Byte (crc : UInt64) (byte : UInt8) :
    (crc64Byte crc byte).toBitVec = (byteBits byte).foldl (feed jones) crc.toBitVec := by
  have hindex : ((crc ^^^ byte.toUInt64) &&& 0xFF).toNat =
      ((crc.toBitVec ^^^ byte.toBitVec.setWidth 64).setWidth 8).toNat := by
    rw [BitVec.toNat_setWidth]
    exact Nat.and_two_pow_sub_one_eq_mod _ 8
  have hout : (byte.toBitVec.setWidth 64) >>> 8 = 0#64 := by
    apply BitVec.eq_of_toNat_eq
    rw [BitVec.toNat_ushiftRight, BitVec.toNat_setWidth, Nat.shiftRight_eq_div_pow]
    have hlt := byte.toBitVec.isLt
    show byte.toBitVec.toNat % 2 ^ 64 / 2 ^ 8 = 0
    omega
  have hentry := crc64Tab_eq ⟨_, ((crc.toBitVec ^^^ byte.toBitVec.setWidth 64).setWidth 8).isLt⟩
  rw [foldl_byteBits (by omega), iterate_shift_eq, BitVec.ushiftRight_xor_distrib, hout,
    BitVec.xor_zero, crc64Byte, hindex, hentry, BitVec.ofNat_toNat]
  rfl

theorem toBitVec_crc64WithInitial (data : Bytes) (initial : UInt64) :
    (crc64WithInitial data initial).toBitVec =
      (dataBits data).foldl (feed jones) initial.toBitVec := by
  rw [foldl_dataBits]
  exact (List.foldl_hom UInt64.toBitVec fun crc byte => (toBitVec_crc64Byte crc byte).symm).symm

theorem toBitVec_crc64 (data : Bytes) : (crc64 data).toBitVec = crc jones (dataBits data) :=
  toBitVec_crc64WithInitial data 0

/-- `crc64` is the check of the bits of the data, and data may be summed in
parts. -/
theorem crc64_eq_crc_and_parts :
    (∀ data : Bytes, (crc64 data).toBitVec = crc jones (dataBits data)) ∧
      ∀ a b : Bytes, crc64WithInitial b (crc64 a) = crc64 (a ++ b) :=
  ⟨toBitVec_crc64, fun _ _ => List.foldl_append.symm⟩

/-! ## The payload -/

/-- What a server checks of a payload: its last eight bytes, the lowest first,
are the checksum of the rest. -/
def Verifies (payload : Bytes) : Prop :=
  8 ≤ payload.length ∧ leNat (payload.drop (payload.length - 8)) =
    (crc64 (payload.take (payload.length - 8))).toNat

instance : DecidablePred Verifies := fun _ => inferInstanceAs (Decidable (_ ∧ _))

theorem testBit_leNat (bs : Bytes) (i : Nat) :
    (leNat bs).testBit i = (dataBits bs).getD i false := by
  induction bs generalizing i with
  | nil => exact Nat.zero_testBit i
  | cons byte bs ih =>
      have hbyte : byte.toNat < 2 ^ 8 := byte.toNat_lt
      have hsum : leNat (byte :: bs) = 2 ^ 8 * leNat bs + byte.toNat := Nat.add_comm _ _
      rw [hsum, Nat.testBit_two_pow_mul_add _ hbyte, dataBits, List.flatMap_cons]
      split
      · next hi =>
          rw [List.getD_append _ _ _ _ (by simpa using hi),
            List.getD_eq_getElem _ _ (by simpa using hi)]
          simp only [byteBits, List.getElem_map, List.getElem_range]
          rfl
      · next hi =>
          rw [List.getD_append_right _ _ _ _ (by simpa using hi), length_byteBits, ih]
          rfl

/-- Little-endian bytes are a run of bits. -/
theorem word_dataBits (bs : Bytes) :
    (word (dataBits bs) : BitVec 64) = BitVec.ofNat 64 (leNat bs) := by
  apply BitVec.eq_of_getLsbD_eq
  intro i hi
  rw [getLsbD_word hi, BitVec.getLsbD_ofNat, testBit_leNat, decide_eq_true hi, Bool.true_and]

theorem verifies_append {dumpData check : Bytes} (h : check.length = 8) :
    Verifies (dumpData ++ check) ↔ leNat check = (crc64 dumpData).toNat := by
  have hrest : (dumpData ++ check).length - 8 = dumpData.length := by
    rw [List.length_append]
    omega
  have hlong : 8 ≤ (dumpData ++ check).length := by
    rw [List.length_append]
    omega
  rw [Verifies, and_iff_right hlong, hrest, List.drop_left, List.take_left]

/-- The comparison holds where the register ends clear after the whole
payload. -/
theorem verifies_iff_crc_eq_zero {payload : Bytes} (h : 8 ≤ payload.length) :
    Verifies payload ↔ crc jones (dataBits payload) = 0#64 := by
  obtain ⟨dumpData, check, rfl, hcheck⟩ :
      ∃ dumpData check, payload = dumpData ++ check ∧ check.length = 8 :=
    ⟨_, _, (List.take_append_drop (payload.length - 8) payload).symm, by
      rw [List.length_drop]
      omega⟩
  have hbits : (dataBits check).length = 64 := by rw [length_dataBits, hcheck]
  have hlt : leNat check < 2 ^ 64 := by
    have hlt := leNat_lt check
    rwa [hcheck] at hlt
  rw [verifies_append hcheck, dataBits_append, crc_append_eq_zero_iff msb_jones hbits,
    ← toBitVec_crc64, word_dataBits, ← BitVec.toNat_inj, BitVec.toNat_ofNat,
    Nat.mod_eq_of_lt hlt]
  rfl

theorem verifies_withCrc (dumpData : Bytes) : Verifies (withCrc dumpData) := by
  rw [withCrc, verifies_append (length_toLeBytes 8 _)]
  exact leNat_toLeBytes (crc64 dumpData).toBitVec.isLt

/-- Bytes that differ only inside a window are split at its ends. -/
theorem exists_window {p q : Bytes} {k : Nat} (hlen : q.length = p.length)
    (hout : ∀ i, i < k ∨ k + 8 ≤ i → q[i]? = p[i]?) :
    ∃ a u v b, p = a ++ u ++ b ∧ q = a ++ v ++ b ∧ u.length = v.length ∧ u.length ≤ 8 := by
  have hsplit (l : Bytes) : l = l.take k ++ (l.drop k).take 8 ++ l.drop (k + 8) := by
    rw [List.append_assoc, ← List.drop_drop, List.take_append_drop, List.take_append_drop]
  have hleft : q.take k = p.take k := by
    apply List.ext_getElem?
    intro i
    rw [List.getElem?_take, List.getElem?_take]
    split
    · next hi => exact hout i (Or.inl hi)
    · rfl
  have hright : q.drop (k + 8) = p.drop (k + 8) := by
    apply List.ext_getElem?
    intro i
    rw [List.getElem?_drop, List.getElem?_drop]
    exact hout _ (Or.inr (by omega))
  refine ⟨p.take k, (p.drop k).take 8, (q.drop k).take 8, p.drop (k + 8), hsplit p, ?_, ?_, ?_⟩
  · rw [← hleft, ← hright]
    exact hsplit q
  · rw [List.length_take, List.length_take, List.length_drop, List.length_drop, hlen]
  · rw [List.length_take]
    omega

/-- Damage inside eight bytes is found. -/
theorem eq_of_verifies_window {p q : Bytes} {k : Nat} (hp : Verifies p) (hq : Verifies q)
    (hlen : q.length = p.length) (hout : ∀ i, i < k ∨ k + 8 ≤ i → q[i]? = p[i]?) : q = p := by
  rw [verifies_iff_crc_eq_zero hp.1] at hp
  rw [verifies_iff_crc_eq_zero hq.1] at hq
  obtain ⟨a, u, v, b, rfl, rfl, huv, hu⟩ := exists_window hlen hout
  have hbits : (dataBits u).length = (dataBits v).length := by
    rw [length_dataBits, length_dataBits, huv]
  have hfits : (dataBits u).length ≤ 64 := by
    rw [length_dataBits]
    omega
  have hsame : crc jones (dataBits a ++ dataBits u ++ dataBits b) =
      crc jones (dataBits a ++ dataBits v ++ dataBits b) := by
    rw [← dataBits_append, ← dataBits_append, ← dataBits_append, ← dataBits_append, hp, hq]
  rw [dataBits_injective (crc_burst msb_jones hbits hfits hsame)]

/-- A payload verifies, and no string of its length that is damaged inside
eight bytes of it does, be they in the value, the version or the checksum. -/
theorem generateDumpPayload_detects {entry : BinEntry} {rawValue : Bytes} (rdbVersion : Nat)
    (hraw : entry.rawValue = some rawValue) (hne : rawValue ≠ []) :
    ∃ payload, generateDumpPayload entry rdbVersion = some payload ∧ Verifies payload ∧
      ∀ (damaged : Bytes) (k : Nat), damaged.length = payload.length →
        (∀ i, i < k ∨ k + 8 ≤ i → damaged[i]? = payload[i]?) → damaged ≠ payload →
          ¬ Verifies damaged := by
  have hpayload : generateDumpPayload entry rdbVersion =
      some (withCrc (dumpBody entry.rdbType rawValue rdbVersion)) := by
    cases rawValue with
    | nil => exact absurd rfl hne
    | cons b bs => rw [generateDumpPayload, hraw]
  have hverifies := verifies_withCrc (dumpBody entry.rdbType rawValue rdbVersion)
  refine ⟨_, hpayload, hverifies, ?_⟩
  intro damaged k hlen hout hdamaged hcheck
  exact hdamaged (eq_of_verifies_window hverifies hcheck hlen hout)

/-- The value `"hello"` of the source's test. -/
theorem generateDumpPayload_detects_hello :
    ∃ payload, generateDumpPayload
        { db := 0, key := [107], value := [], rawValue := some [5, 104, 101, 108, 108, 111],
          expire := none, rdbType := .string } 9 = some payload ∧ Verifies payload ∧
      ∀ (damaged : Bytes) (k : Nat), damaged.length = payload.length →
        (∀ i, i < k ∨ k + 8 ≤ i → damaged[i]? = payload[i]?) → damaged ≠ payload →
          ¬ Verifies damaged :=
  generateDumpPayload_detects 9 rfl (by simp)

end RedisHaTool.Rdb
