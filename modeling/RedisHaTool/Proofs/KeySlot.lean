import RedisHaTool.Filter.KeyFilter
import Mathlib.Data.List.TakeWhile
import RedisHaTool.Lib.Crc

/-!
# The slot of a key

`key_slot` against the hash slot of Redis Cluster. The register that `crc16`
shifts is one of `Lib/Crc.lean`, so the sum is right for every key. What is
hashed is not: the tag between the braces counts in a cluster only when there is
something in it, and here it counts when it is empty too.
-/

namespace RedisHaTool.Filter

open Lib Polynomial

/-! ## The sum -/

/-- CRC16-XMODEM: the remainder by `X^16 + X^12 + X^5 + 1`. -/
noncomputable def crc16Xmodem (data : Bytes) : Nat :=
  Crc.polyNat 16 ((Crc.dataPoly data * X ^ 16) %ₘ (X ^ 16 + X ^ 12 + X ^ 5 + 1))

theorem divisor_xmodem :
    Crc.divisor (0x1021 : BitVec 16) = X ^ 16 + X ^ 12 + X ^ 5 + 1 := by
  have hbits : (0x1021 : BitVec 16) =
      BitVec.twoPow 16 12 ^^^ BitVec.twoPow 16 5 ^^^ BitVec.twoPow 16 0 := by decide
  rw [Crc.divisor, hbits, Crc.wordPoly_xor, Crc.wordPoly_xor, Crc.wordPoly_twoPow (by omega),
    Crc.wordPoly_twoPow (by omega), Crc.wordPoly_twoPow (by omega), pow_zero]
  ring

theorem crc16Xmodem_eq (data : Bytes) : crc16Xmodem data = Crc.crc (0x1021 : BitVec 16) data := by
  rw [crc16Xmodem, Crc.crc, divisor_xmodem]

/-- The test of the top bit. -/
theorem and_top_eq_zero_iff (crc : UInt16) : crc &&& 0x8000 = 0 ↔ crc.toBitVec.msb = false := by
  have hand : (crc &&& 0x8000).toBitVec = crc.toBitVec &&& BitVec.twoPow 16 15 := rfl
  rw [← UInt16.toBitVec_inj, hand, BitVec.and_twoPow, BitVec.msb_eq_getLsbD_last]
  cases crc.toBitVec.getLsbD 15 <;> decide

theorem toBitVec_crc16Bit (crc : UInt16) :
    (crc16Bit crc).toBitVec = Crc.shift 0x1021 crc.toBitVec := by
  have hshift : (crc <<< 1).toBitVec = crc.toBitVec <<< 1 := rfl
  rw [crc16Bit, Crc.shift]
  by_cases htop : crc &&& 0x8000 = 0
  · rw [if_neg (not_not.2 htop), (and_top_eq_zero_iff crc).1 htop]
    exact hshift
  · have hmsb : crc.toBitVec.msb = true :=
      Bool.not_eq_false _ ▸ fun h => htop ((and_top_eq_zero_iff crc).2 h)
    rw [if_pos htop, hmsb, UInt16.toBitVec_xor, hshift]
    rfl

theorem toBitVec_crc16Byte (crc : UInt16) (byte : UInt8) :
    (crc16Byte crc byte).toBitVec = Crc.shiftByte 0x1021 crc.toBitVec byte := by
  have hbits : Function.Semiconj UInt16.toBitVec crc16Bit (Crc.shift 0x1021) := toBitVec_crc16Bit
  exact hbits.iterate_right 8 _

theorem toBitVec_foldl_crc16Byte (data : Bytes) :
    (data.foldl crc16Byte 0).toBitVec = data.foldl (Crc.shiftByte 0x1021) 0 :=
  (List.foldl_hom UInt16.toBitVec fun crc byte => (toBitVec_crc16Byte crc byte).symm).symm

/-- `crc16` is CRC16-XMODEM, modulo the number of slots. -/
theorem toNat_crc16 (data : Bytes) : (crc16 data).toNat = crc16Xmodem data % 16384 := by
  rw [crc16, UInt16.toNat_mod, crc16Xmodem_eq, ← Crc.foldl_shiftByte (by omega),
    ← toBitVec_foldl_crc16Byte]
  rfl

/-- The register ends with the bits of the remainder. -/
theorem crc16_eq_remainder (data : Bytes) :
    ∃ value : BitVec 16,
      Crc.wordPoly value = (Crc.dataPoly data * X ^ 16) %ₘ (X ^ 16 + X ^ 12 + X ^ 5 + 1) ∧
        (crc16 data).toNat = value.toNat % 16384 := by
  refine ⟨(data.foldl crc16Byte 0).toBitVec, ?_, UInt16.toNat_mod _ _⟩
  rw [toBitVec_foldl_crc16Byte, Crc.wordPoly_foldl_shiftByte (by omega), divisor_xmodem]

/-! ## What is hashed -/

/-- What Redis Cluster hashes: what is between the first `{` and the first `}`
after it, where there is something, and the whole key otherwise. -/
def hashTag (key : Bytes) : Bytes :=
  match key.dropWhile (· != 123) with
  | [] => key
  | _ :: tail =>
      let tag := tail.takeWhile (· != 125)
      if 125 ∈ tail ∧ tag ≠ [] then tag else key

/-- The slot of a key in Redis Cluster. -/
noncomputable def clusterSlot (key : Bytes) : Nat := crc16Xmodem (hashTag key) % 16384

/-- The first `{` has its `}` right after it. -/
def EmptyTag (key : Bytes) : Prop := ∃ post, key.dropWhile (· != 123) = 123 :: 125 :: post

/-! A key has no `{`, or one that no `}` follows, or a tag between the two. -/

theorem key_cases (key : Bytes) :
    123 ∉ key ∨
      (∃ pre tail, key = pre ++ 123 :: tail ∧ 123 ∉ pre ∧ 125 ∉ tail) ∨
      ∃ pre tag post, key = pre ++ 123 :: (tag ++ 125 :: post) ∧ 123 ∉ pre ∧ 125 ∉ tag := by
  by_cases hopen : 123 ∈ key
  · obtain ⟨pre, tail, rfl, hpre⟩ := List.eq_append_cons_of_mem hopen
    by_cases hclose : 125 ∈ tail
    · obtain ⟨tag, post, rfl, htag⟩ := List.eq_append_cons_of_mem hclose
      exact .inr (.inr ⟨pre, tag, post, rfl, hpre, htag⟩)
    · exact .inr (.inl ⟨pre, tail, rfl, hpre, hclose⟩)
  · exact .inl hopen

section Delimiter

variable {d : UInt8} {pre : Bytes}

theorem bne_of_not_mem (hpre : d ∉ pre) : ∀ b ∈ pre, (b != d) = true :=
  fun _ hb => bne_iff_ne.2 fun h => hpre (h ▸ hb)

theorem findIdx_absent (hpre : d ∉ pre) : pre.findIdx? (· == d) = none :=
  List.findIdx?_eq_none_iff.2 fun b hb => by simpa using bne_of_not_mem hpre b hb

theorem findIdx_delim (hpre : d ∉ pre) (post : Bytes) :
    (pre ++ d :: post).findIdx? (· == d) = some pre.length := by
  rw [List.findIdx?_append, findIdx_absent hpre, List.findIdx?_cons]
  simp

theorem dropWhile_absent (hpre : d ∉ pre) : pre.dropWhile (· != d) = [] :=
  List.dropWhile_eq_nil_iff.2 (bne_of_not_mem hpre)

theorem dropWhile_delim (hpre : d ∉ pre) (post : Bytes) :
    (pre ++ d :: post).dropWhile (· != d) = d :: post := by
  rw [List.dropWhile_append_of_pos (bne_of_not_mem hpre), List.dropWhile_cons]
  simp

theorem takeWhile_delim (hpre : d ∉ pre) (post : Bytes) :
    (pre ++ d :: post).takeWhile (· != d) = pre := by
  rw [List.takeWhile_append_of_pos (bne_of_not_mem hpre), List.takeWhile_cons]
  simp

end Delimiter

section Keys

variable {pre tail tag post : Bytes}

theorem hashKey_untagged (h : 123 ∉ pre) : hashKey pre = pre := by
  rw [hashKey, findIdx_absent h]

theorem hashKey_unclosed (hpre : 123 ∉ pre) (htail : 125 ∉ tail) :
    hashKey (pre ++ 123 :: tail) = pre ++ 123 :: tail := by
  have hdrop : (pre ++ 123 :: tail).drop (pre.length + 1) = tail := by
    rw [List.drop_append]
    simp
  rw [hashKey, findIdx_delim hpre]
  simp only [hdrop]
  rw [findIdx_absent htail]

theorem hashKey_tag (hpre : 123 ∉ pre) (htag : 125 ∉ tag) :
    hashKey (pre ++ 123 :: (tag ++ 125 :: post)) = tag := by
  have hdrop : (pre ++ 123 :: (tag ++ 125 :: post)).drop (pre.length + 1) =
      tag ++ 125 :: post := by
    rw [List.drop_append]
    simp
  rw [hashKey, findIdx_delim hpre]
  simp only [hdrop]
  rw [findIdx_delim htag]
  exact List.take_left

theorem hashTag_untagged (h : 123 ∉ pre) : hashTag pre = pre := by
  rw [hashTag, dropWhile_absent h]

theorem hashTag_unclosed (hpre : 123 ∉ pre) (htail : 125 ∉ tail) :
    hashTag (pre ++ 123 :: tail) = pre ++ 123 :: tail := by
  rw [hashTag, dropWhile_delim hpre]
  exact if_neg fun h => htail h.1

theorem hashTag_tag (hpre : 123 ∉ pre) (htag : 125 ∉ tag) :
    hashTag (pre ++ 123 :: (tag ++ 125 :: post)) =
      if tag = [] then pre ++ 123 :: (tag ++ 125 :: post) else tag := by
  have hmem : 125 ∈ tag ++ 125 :: post := by simp
  rw [hashTag, dropWhile_delim hpre]
  simp only [takeWhile_delim htag, hmem, true_and]
  exact ite_not _ _ _

theorem emptyTag_untagged (h : 123 ∉ pre) : ¬ EmptyTag pre := by
  rintro ⟨post, hpost⟩
  rw [dropWhile_absent h] at hpost
  cases hpost

theorem emptyTag_open (hpre : 123 ∉ pre) :
    EmptyTag (pre ++ 123 :: tail) ↔ ∃ post, tail = 125 :: post := by
  rw [EmptyTag, dropWhile_delim hpre]
  simp

end Keys

/-- The part that is hashed is that of a cluster, but for an empty tag. -/
theorem hashKey_eq_hashTag {key : Bytes} (h : ¬ EmptyTag key) : hashKey key = hashTag key := by
  rcases key_cases key with hkey | ⟨pre, tail, rfl, hpre, htail⟩ | ⟨pre, tag, post, rfl, hpre, htag⟩
  · rw [hashKey_untagged hkey, hashTag_untagged hkey]
  · rw [hashKey_unclosed hpre htail, hashTag_unclosed hpre htail]
  · have hne : tag ≠ [] := by
      rintro rfl
      exact h ((emptyTag_open hpre).2 ⟨post, rfl⟩)
    rw [hashKey_tag hpre htag, hashTag_tag hpre htag, if_neg hne]

/-- An empty tag is hashed here, and the whole key in a cluster. -/
theorem hashKey_of_emptyTag {key : Bytes} (h : EmptyTag key) :
    hashKey key = [] ∧ hashTag key = key := by
  rcases key_cases key with hkey | ⟨pre, tail, rfl, hpre, htail⟩ | ⟨pre, tag, post, rfl, hpre, htag⟩
  · exact absurd h (emptyTag_untagged hkey)
  · obtain ⟨post, rfl⟩ := (emptyTag_open hpre).1 h
    exact absurd List.mem_cons_self htail
  · obtain ⟨post', hpost⟩ := (emptyTag_open hpre).1 h
    obtain rfl : tag = [] := by
      cases tag with
      | nil => rfl
      | cons b tag =>
          obtain rfl := List.head_eq_of_cons_eq hpost
          exact absurd List.mem_cons_self htag
    rw [hashKey_tag hpre htag, hashTag_tag hpre htag, if_pos rfl]
    exact ⟨rfl, rfl⟩

/-- The slot is that of a cluster exactly where the first `{` is not followed by
its `}` at once, or the whole key happens to have the slot of nothing. -/
theorem keySlot_eq_clusterSlot_iff (key : Bytes) :
    (RedisKeyFilter.keySlot key).toNat = clusterSlot key ↔
      ¬ EmptyTag key ∨ crc16Xmodem key % 16384 = 0 := by
  rw [RedisKeyFilter.keySlot, toNat_crc16, clusterSlot]
  by_cases h : EmptyTag key
  · obtain ⟨hhash, htag⟩ := hashKey_of_emptyTag h
    have hnil : crc16Xmodem [] % 16384 = 0 := by
      rw [← toNat_crc16]
      rfl
    rw [hhash, htag, hnil]
    simp [h, eq_comm]
  · simp [h, hashKey_eq_hashTag h]

/-- The key `{}a` is put in slot 0. -/
theorem keySlot_empty_tag :
    ¬ ∀ key : Bytes, (RedisKeyFilter.keySlot key).toNat = clusterSlot key := by
  intro h
  have hkey := h [123, 125, 97]
  have htag : hashTag [123, 125, 97] = [123, 125, 97] := by decide
  have hne : (RedisKeyFilter.keySlot [123, 125, 97]).toNat ≠ (crc16 [123, 125, 97]).toNat := by
    decide +kernel
  rw [clusterSlot, htag, ← toNat_crc16] at hkey
  exact hne hkey

end RedisHaTool.Filter
