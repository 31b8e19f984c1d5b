import Mathlib.Algebra.CharP.Two
import Mathlib.Algebra.Polynomial.OfFn
import Mathlib.RingTheory.AdjoinRoot
import Mathlib.Algebra.Field.ZMod

/-!
# Cyclic redundancy checks

A word is the polynomial over two elements whose coefficients are its bits, and
a byte string the one that is read from its first bit on. A cyclic redundancy
check of `w` bits is the remainder of the data, moved up by `w` places, when it
is divided by a polynomial of degree `w`.

A register that is shifted a bit at a time, and reduced where a bit falls out of
it, computes the remainder: a shift is multiplication by `X`, up to a multiple of
the divisor.
-/

namespace RedisHaTool.Lib.Crc

open Polynomial

variable {w : Nat}

/-- The polynomial whose coefficients are the bits of a word. -/
noncomputable def wordPoly (c : BitVec w) : (ZMod 2)[X] :=
  ofFn w fun i => if c.getLsbD i then 1 else 0

/-- The number whose lowest `w` bits are coefficients of a polynomial. -/
noncomputable def polyNat (w : Nat) (p : (ZMod 2)[X]) : Nat :=
  ∑ i ∈ Finset.range w, if p.coeff i = 1 then 2 ^ i else 0

/-- Data as a polynomial: its first bit stands at the highest power. -/
noncomputable def dataPoly (data : List UInt8) : (ZMod 2)[X] :=
  data.foldl (fun p byte => p * X ^ 8 + wordPoly byte.toBitVec) 0

/-- The divisor of degree `w` whose lower coefficients are given. -/
noncomputable def divisor (poly : BitVec w) : (ZMod 2)[X] := X ^ w + wordPoly poly

/-- The check of some data. -/
noncomputable def crc (poly : BitVec w) (data : List UInt8) : Nat :=
  polyNat w ((dataPoly data * X ^ w) %ₘ divisor poly)

theorem coeff_wordPoly (c : BitVec w) (n : Nat) :
    (wordPoly c).coeff n = if c.getLsbD n then 1 else 0 := by
  rcases Nat.lt_or_ge n w with hn | hn
  · exact ofFn_coeff_eq_val_of_lt _ hn
  · rw [wordPoly, ofFn_coeff_eq_zero_of_ge _ hn, BitVec.getLsbD_of_ge c n hn]
    rfl

theorem degree_wordPoly (c : BitVec w) : (wordPoly c).degree < w := ofFn_degree_lt _

theorem wordPoly_zero : wordPoly (0 : BitVec w) = 0 := by
  ext n
  rw [coeff_wordPoly]
  simp

theorem wordPoly_xor (a b : BitVec w) : wordPoly (a ^^^ b) = wordPoly a + wordPoly b := by
  ext n
  rw [coeff_add, coeff_wordPoly, coeff_wordPoly, coeff_wordPoly, BitVec.getLsbD_xor]
  cases a.getLsbD n <;> cases b.getLsbD n <;> decide

theorem wordPoly_twoPow {i : Nat} (hi : i < w) : wordPoly (BitVec.twoPow w i) = X ^ i := by
  ext n
  rw [coeff_wordPoly, coeff_X_pow, BitVec.getLsbD_twoPow]
  simp [hi, eq_comm]

theorem sum_bits (n w : Nat) :
    (∑ i ∈ Finset.range w, if n.testBit i = true then 2 ^ i else 0) = n % 2 ^ w := by
  induction w with
  | zero => rw [Finset.sum_range_zero, pow_zero, Nat.mod_one]
  | succ w ih =>
      rw [Finset.sum_range_succ, ih, Nat.mod_pow_succ, Nat.testBit_eq_decide_div_mod_eq]
      rcases Nat.mod_two_eq_zero_or_one (n / 2 ^ w) with h | h <;> simp [h]

theorem polyNat_wordPoly (c : BitVec w) : polyNat w (wordPoly c) = c.toNat := by
  have hbit : ∀ i, (wordPoly c).coeff i = 1 ↔ c.toNat.testBit i = true := by
    intro i
    rw [coeff_wordPoly, BitVec.testBit_toNat]
    cases c.getLsbD i <;> decide
  simp only [polyNat, hbit]
  rw [sum_bits, Nat.mod_eq_of_lt c.isLt]

theorem monic_divisor (poly : BitVec w) : (divisor poly).Monic :=
  monic_X_pow_add (degree_wordPoly poly)

theorem degree_divisor (poly : BitVec w) : (divisor poly).degree = w := by
  rw [divisor, degree_add_eq_left_of_degree_lt, degree_X_pow]
  rw [degree_X_pow]
  exact degree_wordPoly poly

/-- A word that agrees with the data up to a multiple of the divisor is the
remainder: there is no other of its degree. -/
theorem modByMonic_eq_of_dvd {poly c : BitVec w} {data : List UInt8}
    (h : divisor poly ∣ dataPoly data * X ^ w - wordPoly c) :
    (dataPoly data * X ^ w) %ₘ divisor poly = wordPoly c := by
  obtain ⟨q, hq⟩ := h
  have hsum : wordPoly c + divisor poly * q = dataPoly data * X ^ w := by
    rw [← hq, add_sub_cancel]
  have hdegree : (wordPoly c).degree < (divisor poly).degree := by
    rw [degree_divisor]
    exact degree_wordPoly c
  exact (div_modByMonic_unique q _ (monic_divisor poly) ⟨hsum, hdegree⟩).2

/-! ## The register -/

/-- One bit: the register is shifted, and reduced where it lost its top bit. -/
def shift (poly c : BitVec w) : BitVec w := if c.msb then (c <<< 1) ^^^ poly else c <<< 1

/-- One byte: it is added at the top, and eight bits are shifted out. -/
def shiftByte (poly c : BitVec w) (byte : UInt8) : BitVec w :=
  Nat.iterate (shift poly) 8 (c ^^^ (byte.toBitVec.setWidth w <<< (w - 8)))

/-- The bit that falls out. -/
theorem coeff_carry (c : BitVec w) (n : Nat) :
    (if c.msb then X ^ w else 0 : (ZMod 2)[X]).coeff n =
      if n = w ∧ c.getLsbD (w - 1) = true then 1 else 0 := by
  rw [BitVec.msb_eq_getLsbD_last]
  cases c.getLsbD (w - 1) with
  | false => simp
  | true => simp [coeff_X_pow]

/-- Shifting left is multiplication by `X`, but for that bit. -/
theorem wordPoly_shiftLeft (hw : 0 < w) (c : BitVec w) :
    wordPoly (c <<< 1) + (if c.msb then X ^ w else 0) = X * wordPoly c := by
  ext n
  rw [coeff_add, coeff_carry, coeff_wordPoly, BitVec.getLsbD_shiftLeft]
  cases n with
  | zero =>
      rw [coeff_X_mul_zero]
      simp [hw.ne]
  | succ n =>
      rw [coeff_X_mul, coeff_wordPoly]
      rcases Nat.lt_trichotomy (n + 1) w with hn | hn | hn
      · simp [hn, hn.ne]
      · have hlast : w - 1 = n := by omega
        simp [hn, hlast]
      · have hout : c.getLsbD n = false := BitVec.getLsbD_of_ge c n (by omega)
        simp [hout, hn.ne']

/-- A byte at the top of the register. -/
theorem wordPoly_byte (hw : 8 ≤ w) (b : BitVec 8) :
    wordPoly (b.setWidth w <<< (w - 8)) = wordPoly b * X ^ (w - 8) := by
  ext n
  rw [coeff_mul_X_pow', coeff_wordPoly, coeff_wordPoly, BitVec.getLsbD_shiftLeft,
    BitVec.getLsbD_setWidth]
  rcases Nat.lt_or_ge n (w - 8) with hn | hn
  · rw [if_neg (Nat.not_le.2 hn)]
    simp [hn]
  · rw [if_pos hn]
    rcases Nat.lt_or_ge n w with hlt | hge
    · have hsub : n - (w - 8) < w := by omega
      simp [hlt, Nat.not_lt.2 hn, hsub]
    · have hout : b.getLsbD (n - (w - 8)) = false := BitVec.getLsbD_of_ge b _ (by omega)
      simp [hout]

/-- Up to a multiple of the divisor, the register is multiplied by `X`. -/
theorem mk_shift (hw : 0 < w) (poly c : BitVec w) :
    AdjoinRoot.mk (divisor poly) (wordPoly (shift poly c)) =
      AdjoinRoot.mk (divisor poly) X * AdjoinRoot.mk (divisor poly) (wordPoly c) := by
  rw [← map_mul, ← wordPoly_shiftLeft hw, shift]
  split
  · rw [wordPoly_xor, AdjoinRoot.mk_eq_mk, add_sub_add_left_eq_sub, CharTwo.sub_eq_add,
      add_comm, divisor]
  · rw [add_zero]

theorem mk_shift_iterate (hw : 0 < w) (poly : BitVec w) (n : Nat) (c : BitVec w) :
    AdjoinRoot.mk (divisor poly) (wordPoly (Nat.iterate (shift poly) n c)) =
      AdjoinRoot.mk (divisor poly) X ^ n * AdjoinRoot.mk (divisor poly) (wordPoly c) := by
  induction n generalizing c with
  | zero => rw [Function.iterate_zero_apply, pow_zero, one_mul]
  | succ n ih => rw [Function.iterate_succ_apply, ih, mk_shift hw, pow_succ, mul_assoc]

/-- After every prefix of the data the register holds its check. -/
theorem mk_foldl_shiftByte (hw : 8 ≤ w) (poly : BitVec w) (data : List UInt8) :
    AdjoinRoot.mk (divisor poly) (wordPoly (data.foldl (shiftByte poly) 0)) =
      AdjoinRoot.mk (divisor poly) (dataPoly data * X ^ w) := by
  induction data using List.reverseRecOn with
  | nil =>
      show AdjoinRoot.mk _ (wordPoly 0) = AdjoinRoot.mk _ (0 * X ^ w)
      rw [wordPoly_zero, zero_mul]
  | append_singleton data byte ih =>
      have hdata : dataPoly (data ++ [byte]) = dataPoly data * X ^ 8 + wordPoly byte.toBitVec := by
        rw [dataPoly, List.foldl_append]
        rfl
      have hpow : (X : (ZMod 2)[X]) ^ w = X ^ (w - 8) * X ^ 8 := by
        rw [← pow_add, Nat.sub_add_cancel hw]
      rw [List.foldl_append, List.foldl_cons, List.foldl_nil, shiftByte,
        mk_shift_iterate (by omega), wordPoly_xor, wordPoly_byte hw, hdata, map_add, ih]
      have hsame : X ^ 8 * (dataPoly data * X ^ w + wordPoly byte.toBitVec * X ^ (w - 8)) =
          (dataPoly data * X ^ 8 + wordPoly byte.toBitVec) * X ^ w := by
        rw [hpow]
        ring
      rw [← map_pow, ← map_add, ← map_mul, hsame]

/-- The register ends with the remainder of the data. -/
theorem wordPoly_foldl_shiftByte (hw : 8 ≤ w) (poly : BitVec w) (data : List UInt8) :
    wordPoly (data.foldl (shiftByte poly) 0) = (dataPoly data * X ^ w) %ₘ divisor poly :=
  (modByMonic_eq_of_dvd (AdjoinRoot.mk_eq_mk.1 (mk_foldl_shiftByte hw poly data).symm)).symm

theorem foldl_shiftByte (hw : 8 ≤ w) (poly : BitVec w) (data : List UInt8) :
    (data.foldl (shiftByte poly) 0).toNat = crc poly data := by
  rw [crc, ← wordPoly_foldl_shiftByte hw, polyNat_wordPoly]

end RedisHaTool.Lib.Crc
