import Mathlib.Data.BitVec
import Mathlib.Data.List.GetD
import Mathlib.Logic.Function.Iterate

/-!
# Reflected cyclic redundancy checks

The register of a reflected check is shifted towards its low end: a bit of the
data is added there, the register moves down by one place, and where the bit
that fell out was set the polynomial is added. Data are taken bit for bit, each
byte from its lowest bit on.

A shift is linear in exclusive or. So a run of bits that is no longer than the
register may be added at once, ahead of the shifts (`foldl_feed`), and a table
of the shifts of every short word does several at a time (`iterate_shift_eq`).
Where the top bit of the polynomial is set a shift is injective too, and then no
two runs of bits that fit the register leave it alike: the check sees every
error that is confined to such a run (`crc_burst`).
-/

namespace RedisHaTool.Lib.ReflectedCrc

variable {w : Nat}

/-- One shift of the register. -/
def shift (poly c : BitVec w) : BitVec w :=
  if c.getLsbD 0 then (c >>> 1) ^^^ poly else c >>> 1

/-- A bit of the data comes in. -/
def feed (poly c : BitVec w) (bit : Bool) : BitVec w :=
  shift poly (c ^^^ (BitVec.ofBool bit).setWidth w)

/-- The check of a string of bits: the register starts clear, and what it ends
with is not changed. -/
def crc (poly : BitVec w) (bits : List Bool) : BitVec w := bits.foldl (feed poly) 0#w

def byteBits (byte : UInt8) : List Bool := (List.range 8).map byte.toBitVec.getLsbD

/-- The bits of some data, each byte from its lowest bit on. -/
def dataBits (data : List UInt8) : List Bool := data.flatMap byteBits

@[simp] theorem length_byteBits (byte : UInt8) : (byteBits byte).length = 8 := by
  rw [byteBits, List.length_map, List.length_range]

theorem length_dataBits (data : List UInt8) : (dataBits data).length = 8 * data.length := by
  induction data with
  | nil => rfl
  | cons byte data ih =>
      rw [dataBits, List.flatMap_cons, List.length_append, length_byteBits, List.length_cons]
      rw [dataBits] at ih
      omega

theorem dataBits_append (a b : List UInt8) : dataBits (a ++ b) = dataBits a ++ dataBits b :=
  List.flatMap_append

theorem crc_append (poly : BitVec w) (a b : List Bool) :
    crc poly (a ++ b) = b.foldl (feed poly) (crc poly a) := List.foldl_append

/-! ## One shift -/

theorem shift_xor (poly a b : BitVec w) :
    shift poly (a ^^^ b) = shift poly a ^^^ shift poly b := by
  have hboth : (a >>> 1 ^^^ poly) ^^^ (b >>> 1 ^^^ poly) = a >>> 1 ^^^ b >>> 1 := by
    rw [BitVec.xor_assoc, BitVec.xor_comm (b >>> 1), ← BitVec.xor_assoc poly, BitVec.xor_self,
      BitVec.zero_xor]
  rw [shift, shift, shift, BitVec.getLsbD_xor, BitVec.ushiftRight_xor_distrib]
  cases ha : a.getLsbD 0 <;> cases hb : b.getLsbD 0
  · rfl
  · exact BitVec.xor_assoc _ _ _
  · show (a >>> 1 ^^^ b >>> 1) ^^^ poly = (a >>> 1 ^^^ poly) ^^^ b >>> 1
    rw [BitVec.xor_assoc, BitVec.xor_comm (b >>> 1), ← BitVec.xor_assoc]
  · exact hboth.symm

theorem iterate_shift_xor (poly : BitVec w) (n : Nat) (a b : BitVec w) :
    (shift poly)^[n] (a ^^^ b) = (shift poly)^[n] a ^^^ (shift poly)^[n] b := by
  induction n generalizing a b with
  | zero => rfl
  | succ n ih => rw [Function.iterate_succ_apply, shift_xor, ih]; rfl

theorem shift_zero (poly : BitVec w) : shift poly 0#w = 0#w := by
  rw [shift, if_neg (by simp)]
  exact BitVec.zero_ushiftRight

theorem iterate_shift_zero (poly : BitVec w) (n : Nat) : (shift poly)^[n] 0#w = 0#w :=
  Function.iterate_fixed (shift_zero poly) n

/-- A shift moves the register down where its low bit is clear. -/
theorem shift_of_clear {poly c : BitVec w} (h : c.getLsbD 0 = false) : shift poly c = c >>> 1 := by
  rw [shift, if_neg (Bool.eq_false_iff.1 h)]

theorem iterate_shift_of_clear {poly : BitVec w} {n : Nat} {c : BitVec w}
    (h : ∀ i < n, c.getLsbD i = false) : (shift poly)^[n] c = c >>> n := by
  induction n generalizing c with
  | zero => rfl
  | succ n ih =>
      have hnext : ∀ i < n, (c >>> 1).getLsbD i = false := by
        intro i hi
        rw [BitVec.getLsbD_ushiftRight]
        exact h (1 + i) (by omega)
      rw [Function.iterate_succ_apply, shift_of_clear (h 0 (by omega)), ih hnext,
        ← BitVec.shiftRight_add, Nat.add_comm]

/-- The low bits of a word. -/
theorem getLsbD_low (c : BitVec w) (n i : Nat) :
    ((c.setWidth n).setWidth w).getLsbD i = (decide (i < n) && c.getLsbD i) := by
  rw [BitVec.getLsbD_setWidth, BitVec.getLsbD_setWidth]
  rcases Nat.lt_or_ge i w with hi | hi
  · rw [decide_eq_true hi, Bool.true_and]
  · rw [BitVec.getLsbD_of_ge c i hi, Bool.and_false, Bool.and_false]

/-- Several shifts at a time: what is above the low bits only moves down, so a
table of the shifts of every low word is enough. -/
theorem iterate_shift_eq (poly c : BitVec w) (n : Nat) :
    (shift poly)^[n] c = c >>> n ^^^ (shift poly)^[n] ((c.setWidth n).setWidth w) := by
  have hclear : ∀ i < n, (c ^^^ (c.setWidth n).setWidth w).getLsbD i = false := by
    intro i hi
    rw [BitVec.getLsbD_xor, getLsbD_low, decide_eq_true hi, Bool.true_and, Bool.xor_self]
  have hout : ((c.setWidth n).setWidth w) >>> n = 0#w := by
    apply BitVec.eq_of_getLsbD_eq
    intro i hi
    rw [BitVec.getLsbD_ushiftRight, getLsbD_low, decide_eq_false (by omega), Bool.false_and]
    simp
  have hsplit : c = (c ^^^ (c.setWidth n).setWidth w) ^^^ (c.setWidth n).setWidth w := by
    rw [BitVec.xor_assoc, BitVec.xor_self, BitVec.xor_zero]
  calc (shift poly)^[n] c
      = (shift poly)^[n] ((c ^^^ (c.setWidth n).setWidth w) ^^^ (c.setWidth n).setWidth w) := by
        rw [← hsplit]
    _ = (c ^^^ (c.setWidth n).setWidth w) >>> n ^^^
          (shift poly)^[n] ((c.setWidth n).setWidth w) := by
        rw [iterate_shift_xor, iterate_shift_of_clear hclear]
    _ = c >>> n ^^^ (shift poly)^[n] ((c.setWidth n).setWidth w) := by
        rw [BitVec.ushiftRight_xor_distrib, hout, BitVec.xor_zero]

/-! ## A run of bits -/

/-- The bits that are fed next, the first of them lowest. -/
def word : List Bool → BitVec w
  | [] => 0#w
  | bit :: bits => word bits <<< 1 ^^^ (BitVec.ofBool bit).setWidth w

theorem getLsbD_ofBool (bit : Bool) (i : Nat) :
    (BitVec.ofBool bit).getLsbD i = (decide (i = 0) && bit) := by
  rcases Nat.eq_zero_or_pos i with hi | hi
  · rw [hi]
    cases bit <;> rfl
  · rw [BitVec.getLsbD_of_ge _ i hi, decide_eq_false (by omega), Bool.false_and]

theorem getLsbD_word {bits : List Bool} {i : Nat} (hi : i < w) :
    (word bits : BitVec w).getLsbD i = bits.getD i false := by
  induction bits generalizing i with
  | nil => simp [word]
  | cons bit bits ih =>
      rw [word, BitVec.getLsbD_xor, BitVec.getLsbD_shiftLeft, BitVec.getLsbD_setWidth,
        getLsbD_ofBool, decide_eq_true hi, Bool.true_and, Bool.true_and]
      cases i with
      | zero => simp
      | succ i =>
          rw [Nat.add_sub_cancel, ih (by omega), decide_eq_false (by omega),
            decide_eq_false (by omega)]
          simp

/-- The first bit goes in, the others wait one place lower. -/
theorem shift_word (poly c : BitVec w) {bit : Bool} {bits : List Bool}
    (h : (bit :: bits).length ≤ w) :
    shift poly (c ^^^ word (bit :: bits)) = feed poly c bit ^^^ word bits := by
  rw [List.length_cons] at h
  have hclear : ((word bits : BitVec w) <<< 1).getLsbD 0 = false := by
    rw [BitVec.getLsbD_shiftLeft]
    simp
  have hback : (word bits : BitVec w) <<< 1 >>> 1 = word bits := by
    apply BitVec.eq_of_getLsbD_eq
    intro i hi
    rw [BitVec.getLsbD_ushiftRight, BitVec.getLsbD_shiftLeft, getLsbD_word hi]
    rcases Nat.lt_or_ge (1 + i) w with hlt | hge
    · rw [decide_eq_true hlt, decide_eq_false (by omega), Nat.add_sub_cancel_left,
        getLsbD_word hi]
      simp
    · rw [decide_eq_false (by omega), List.getD_eq_default _ _ (by omega)]
      rfl
  rw [word, BitVec.xor_comm (word bits <<< 1), ← BitVec.xor_assoc, shift_xor,
    shift_of_clear hclear, hback]
  rfl

theorem foldl_feed (poly c : BitVec w) {bits : List Bool} (h : bits.length ≤ w) :
    bits.foldl (feed poly) c = (shift poly)^[bits.length] (c ^^^ word bits) := by
  induction bits generalizing c with
  | nil => exact (BitVec.xor_zero).symm
  | cons bit bits ih =>
      have hbits : bits.length ≤ w := by
        rw [List.length_cons] at h
        omega
      rw [List.foldl_cons, ih (feed poly c bit) hbits, ← shift_word poly c h]
      rfl

theorem word_byteBits (byte : UInt8) :
    (word (byteBits byte) : BitVec w) = byte.toBitVec.setWidth w := by
  apply BitVec.eq_of_getLsbD_eq
  intro i hi
  rw [getLsbD_word hi, BitVec.getLsbD_setWidth, decide_eq_true hi, Bool.true_and, byteBits]
  rcases Nat.lt_or_ge i 8 with hlt | hge
  · rw [List.getD_eq_getElem _ _ (by simpa using hlt), List.getElem_map, List.getElem_range]
  · rw [List.getD_eq_default _ _ (by simpa using hge), BitVec.getLsbD_of_ge _ i hge]

theorem byteBits_injective : Function.Injective byteBits := by
  intro a b h
  have hword : (word (byteBits a) : BitVec 8) = word (byteBits b) := by rw [h]
  rw [word_byteBits, word_byteBits, BitVec.setWidth_eq, BitVec.setWidth_eq] at hword
  exact UInt8.toBitVec_inj.1 hword

theorem dataBits_injective : Function.Injective dataBits := by
  intro a
  induction a with
  | nil =>
      intro b h
      have hlen := congrArg List.length h
      rw [length_dataBits, length_dataBits, List.length_nil] at hlen
      exact (List.length_eq_zero_iff.1 (by omega)).symm
  | cons x a ih =>
      intro b h
      cases b with
      | nil =>
          have hlen := congrArg List.length h
          rw [length_dataBits, length_dataBits, List.length_nil, List.length_cons] at hlen
          omega
      | cons y b =>
          have hlen : (byteBits x).length = (byteBits y).length := by
            rw [length_byteBits, length_byteBits]
          obtain ⟨hx, ha⟩ := List.append_inj h hlen
          rw [byteBits_injective hx, ih ha]

/-- A byte at a time: it is added at the low end, and eight bits are shifted
out. -/
theorem foldl_byteBits (hw : 8 ≤ w) (poly c : BitVec w) (byte : UInt8) :
    (byteBits byte).foldl (feed poly) c = (shift poly)^[8] (c ^^^ byte.toBitVec.setWidth w) := by
  rw [foldl_feed poly c (by rw [length_byteBits]; exact hw), length_byteBits, word_byteBits]

theorem foldl_dataBits (poly c : BitVec w) (data : List UInt8) :
    (dataBits data).foldl (feed poly) c =
      data.foldl (fun c byte => (byteBits byte).foldl (feed poly) c) c := by
  rw [dataBits, List.foldl_flatMap]

/-! ## What the check sees -/

section
variable {poly : BitVec w} (hpoly : poly.msb = true)
include hpoly

/-- The top bit of the register tells what fell out, so a shift can be undone. -/
theorem shift_injective : Function.Injective (shift poly) := by
  have hw : 0 < w := by
    rcases Nat.eq_zero_or_pos w with h | h
    · subst h
      rw [BitVec.msb_eq_getLsbD_last] at hpoly
      simp at hpoly
    · exact h
  have htop : ∀ c : BitVec w, (shift poly c).getLsbD (w - 1) = c.getLsbD 0 := by
    intro c
    have hlast : (c >>> 1).getLsbD (w - 1) = false := by
      rw [BitVec.getLsbD_ushiftRight]
      exact BitVec.getLsbD_of_ge c _ (by omega)
    rw [BitVec.msb_eq_getLsbD_last] at hpoly
    rw [shift]
    cases hc : c.getLsbD 0 with
    | false => exact hlast
    | true =>
        show ((c >>> 1) ^^^ poly).getLsbD (w - 1) = true
        rw [BitVec.getLsbD_xor, hlast, hpoly]
        rfl
  intro a b h
  have hlow : a.getLsbD 0 = b.getLsbD 0 := by rw [← htop a, ← htop b, h]
  have hrest : a >>> 1 = b >>> 1 := by
    rw [shift, shift, hlow] at h
    split at h
    · exact BitVec.xor_left_inj poly |>.1 h
    · exact h
  apply BitVec.eq_of_getLsbD_eq
  intro i hi
  cases i with
  | zero => exact hlow
  | succ i =>
      have hbit := congrArg (fun c => BitVec.getLsbD c i) hrest
      simp only [BitVec.getLsbD_ushiftRight] at hbit
      rwa [Nat.add_comm 1 i] at hbit

/-- What comes after never makes two registers alike. -/
theorem foldl_feed_left_injective (bits : List Bool) :
    Function.Injective (fun c => bits.foldl (feed poly) c) := by
  induction bits with
  | nil => exact fun a b h => h
  | cons bit bits ih =>
      intro a b h
      have hfeed : feed poly a bit = feed poly b bit := ih h
      exact BitVec.xor_left_inj _ |>.1 (shift_injective hpoly hfeed)

/-- Two runs of bits that fit the register leave it different. -/
theorem foldl_feed_right_injective (c : BitVec w) {u v : List Bool} (hlen : u.length = v.length)
    (hu : u.length ≤ w) (h : u.foldl (feed poly) c = v.foldl (feed poly) c) : u = v := by
  rw [foldl_feed poly c hu, foldl_feed poly c (hlen ▸ hu), ← hlen] at h
  have hword : (word u : BitVec w) = word v :=
    BitVec.xor_right_inj c |>.1 ((shift_injective hpoly).iterate _ h)
  apply List.ext_getElem hlen
  intro i hi hi'
  have hbit := congrArg (fun c => BitVec.getLsbD c i) hword
  simp only [getLsbD_word (Nat.lt_of_lt_of_le hi hu)] at hbit
  rwa [List.getD_eq_getElem _ _ hi, List.getD_eq_getElem _ _ hi'] at hbit

/-- **Burst errors**: strings of bits that differ only inside a run that fits
the register have different checks. -/
theorem crc_burst {a u v b : List Bool} (hlen : u.length = v.length) (hu : u.length ≤ w)
    (h : crc poly (a ++ u ++ b) = crc poly (a ++ v ++ b)) : u = v := by
  rw [crc_append, crc_append poly (a ++ v), crc_append, crc_append] at h
  exact foldl_feed_right_injective hpoly _ hlen hu (foldl_feed_left_injective hpoly b h)

/-- Data with its own check at the end leave the register clear, and nothing
else at the end does. -/
theorem crc_append_eq_zero_iff {bits check : List Bool} (hcheck : check.length = w) :
    crc poly (bits ++ check) = 0#w ↔ word check = crc poly bits := by
  have hinj := (shift_injective hpoly).iterate check.length
  rw [crc_append, foldl_feed poly _ (Nat.le_of_eq hcheck),
    ← iterate_shift_zero poly check.length, hinj.eq_iff, BitVec.xor_eq_zero_iff]
  exact eq_comm

end

end RedisHaTool.Lib.ReflectedCrc
