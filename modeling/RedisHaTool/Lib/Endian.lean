import RedisHaTool.Lib.Text

/-!
# Numbers as bytes

Little- and big-endian numbers of a fixed width, and two's complement. A number
that fits its width is read back from the bytes it is written as.
-/

namespace RedisHaTool.Lib

/-- The value of little-endian bytes. -/
def leNat : Bytes → Nat
  | [] => 0
  | b :: bs => b.toNat + 256 * leNat bs

/-- The value of big-endian bytes. -/
def beNat (bs : Bytes) : Nat := leNat bs.reverse

/-- `to_le_bytes` of a number of `width` bytes. -/
def toLeBytes : Nat → Nat → Bytes
  | 0, _ => []
  | width + 1, n => UInt8.ofNat n :: toLeBytes width (n / 256)

/-- `to_be_bytes` of a number of `width` bytes. -/
def toBeBytes (width n : Nat) : Bytes := (toLeBytes width n).reverse

@[simp] theorem length_toLeBytes (width n : Nat) :
    (toLeBytes width n).length = width := by
  induction width generalizing n with
  | zero => rfl
  | succ width ih => simp [toLeBytes, ih]

@[simp] theorem length_toBeBytes (width n : Nat) :
    (toBeBytes width n).length = width := by
  simp [toBeBytes]

theorem leNat_toLeBytes {width n : Nat} (h : n < 256 ^ width) :
    leNat (toLeBytes width n) = n := by
  induction width generalizing n with
  | zero =>
      rw [Nat.pow_zero] at h
      rw [toLeBytes, leNat]
      omega
  | succ width ih =>
      have hdiv : n / 256 < 256 ^ width := by
        rw [Nat.pow_succ] at h
        exact Nat.div_lt_of_lt_mul (by rwa [Nat.mul_comm] at h)
      rw [toLeBytes, leNat, ih hdiv, UInt8.toNat_ofNat']
      omega

theorem beNat_toBeBytes {width n : Nat} (h : n < 256 ^ width) :
    beNat (toBeBytes width n) = n := by
  rw [beNat, toBeBytes, List.reverse_reverse, leNat_toLeBytes h]

/-- What does not fit the width is not written. -/
theorem toLeBytes_mod (width n : Nat) : toLeBytes width (n % 256 ^ width) = toLeBytes width n := by
  induction width generalizing n with
  | zero => rfl
  | succ width ih =>
      have hfirst : UInt8.ofNat (n % 256 ^ (width + 1)) = UInt8.ofNat n := by
        apply UInt8.toNat_inj.1
        rw [UInt8.toNat_ofNat', UInt8.toNat_ofNat', Nat.pow_succ]
        exact Nat.mod_mod_of_dvd n (Nat.dvd_mul_left 256 (256 ^ width))
      have hrest : n % 256 ^ (width + 1) / 256 = n / 256 % 256 ^ width := by
        rw [Nat.pow_succ, Nat.mul_comm]
        exact Nat.mod_mul_right_div_self n 256 (256 ^ width)
      rw [toLeBytes, toLeBytes, hfirst, hrest, ih]

theorem leNat_lt (bs : Bytes) : leNat bs < 256 ^ bs.length := by
  induction bs with
  | nil => decide
  | cons b bs ih =>
      have hb : b.toNat < 256 := b.toNat_lt
      rw [leNat, List.length_cons, Nat.pow_succ]
      omega

theorem beNat_lt (bs : Bytes) : beNat bs < 256 ^ bs.length := by
  have h := leNat_lt bs.reverse
  rwa [List.length_reverse] at h

/-- Bytes are those of the number they hold. -/
theorem toLeBytes_leNat (bs : Bytes) : toLeBytes bs.length (leNat bs) = bs := by
  induction bs with
  | nil => rfl
  | cons b bs ih =>
      have hb : b.toNat < 256 := b.toNat_lt
      have hdiv : (b.toNat + 256 * leNat bs) / 256 = leNat bs := by omega
      have hfirst : UInt8.ofNat (b.toNat + 256 * leNat bs) = b := by
        apply UInt8.toNat_inj.1
        rw [UInt8.toNat_ofNat']
        omega
      rw [leNat, List.length_cons, toLeBytes, hdiv, ih, hfirst]

theorem toBeBytes_beNat (bs : Bytes) : toBeBytes bs.length (beNat bs) = bs := by
  rw [beNat, toBeBytes, ← List.length_reverse, toLeBytes_leNat, List.reverse_reverse]

/-! ## Two's complement -/

/-- `v as i8`, `as i16`, … of an unsigned number of `bits` bits. -/
def asSigned (bits v : Nat) : Int :=
  if v < 2 ^ (bits - 1) then v else v - 2 ^ bits

/-- The bits of a signed number, as an unsigned one. -/
def asUnsigned (bits : Nat) (i : Int) : Nat := (i % 2 ^ bits).toNat

theorem asUnsigned_lt (bits : Nat) (i : Int) : asUnsigned bits i < 2 ^ bits := by
  have hpos : (0 : Int) < 2 ^ bits := Int.pow_pos (by decide)
  have hlt := Int.emod_lt_of_pos i hpos
  have hnn := Int.emod_nonneg i (Int.ne_of_gt hpos)
  have hcast : ((2 ^ bits : Nat) : Int) = 2 ^ bits := by push_cast; rfl
  rw [asUnsigned]
  omega

theorem asSigned_asUnsigned {bits : Nat} {i : Int} (hbits : 0 < bits)
    (hlo : -2 ^ (bits - 1) ≤ i) (hhi : i < 2 ^ (bits - 1)) :
    asSigned bits (asUnsigned bits i) = i := by
  obtain ⟨k, rfl⟩ : ∃ k, bits = k + 1 := ⟨bits - 1, by omega⟩
  rw [Nat.add_sub_cancel] at hlo hhi
  have hpow : (2 : Int) ^ (k + 1) = 2 * 2 ^ k := by ring
  have hcast : ((2 ^ k : Nat) : Int) = 2 ^ k := by push_cast; rfl
  rw [asSigned, asUnsigned, Nat.add_sub_cancel]
  rcases Int.lt_or_le i 0 with hneg | hpos
  · have hmod : i % 2 ^ (k + 1) = i + 2 ^ (k + 1) := by
      rw [← Int.add_emod_right, Int.emod_eq_of_lt (by omega) (by omega)]
    rw [hmod, if_neg (by omega)]
    omega
  · have hmod : i % 2 ^ (k + 1) = i := Int.emod_eq_of_lt hpos (by omega)
    rw [hmod, if_pos (by omega)]
    omega

theorem asSigned_mem {bits v : Nat} (hbits : 0 < bits) (h : v < 2 ^ bits) :
    -2 ^ (bits - 1) ≤ asSigned bits v ∧ asSigned bits v < 2 ^ (bits - 1) := by
  obtain ⟨k, rfl⟩ : ∃ k, bits = k + 1 := ⟨bits - 1, by omega⟩
  have hpow : (2 : Int) ^ (k + 1) = 2 * 2 ^ k := by ring
  have hpow' : 2 ^ (k + 1) = 2 * 2 ^ k := by ring
  have hcast : ((2 ^ k : Nat) : Int) = 2 ^ k := by push_cast; rfl
  rw [asSigned, Nat.add_sub_cancel]
  split <;> omega

/-- `v as i64` of a number that may be longer: it is off by a multiple of what the
bits can say. -/
theorem exists_asSigned_mod (bits v : Nat) :
    ∃ k : Int, (v : Int) = asSigned bits (v % 2 ^ bits) + 2 ^ bits * k := by
  have hcast : ((2 ^ bits : Nat) : Int) = 2 ^ bits := by push_cast; rfl
  have hv : ((v % 2 ^ bits : Nat) : Int) + 2 ^ bits * (v / 2 ^ bits : Nat) = v := by
    rw [← hcast, ← Int.natCast_mul, ← Int.natCast_add, Nat.mod_add_div]
  rw [asSigned]
  split
  · exact ⟨(v / 2 ^ bits : Nat), hv.symm⟩
  · refine ⟨(v / 2 ^ bits : Nat) + 1, ?_⟩
    rw [Int.mul_add, Int.mul_one, ← hv]
    omega

theorem asUnsigned_asSigned {bits v : Nat} (h : v < 2 ^ bits) :
    asUnsigned bits (asSigned bits v) = v := by
  have hcast : ((2 ^ bits : Nat) : Int) = 2 ^ bits := by push_cast; rfl
  have hmod : (v : Int) % 2 ^ bits = v := Int.emod_eq_of_lt (by omega) (by omega)
  rw [asSigned, asUnsigned]
  split
  · rw [hmod, Int.toNat_natCast]
  · rw [Int.sub_emod_right, hmod, Int.toNat_natCast]

end RedisHaTool.Lib
