import Mathlib.Data.List.Basic
import Mathlib.Data.List.Induction
import Mathlib.Tactic.Common
import Mathlib.Tactic.Ring

/-!
# Bytes, text and decimal numerals

A byte string is a list of bytes and a Rust `String` is the list of its
characters; the two meet in UTF-8. What the rest of the development needs of
that is one round trip, and it is the core library's: decoding what was encoded
gives the text back.

Decimal numerals are here because offsets travel as text: into file names, into
command arguments, into hash fields and back. Printing is `Nat.toDigits 10`,
and parsing follows Rust's `from_str`: an optional sign, at least one digit,
and an error on overflow. Every number in range survives the trip.
-/

namespace RedisHaTool.Lib

abbrev Bytes := List UInt8

abbrev Text := List Char

/-- A property of the characters of a text is decided on the text, and not on
all characters there are. -/
instance (priority := 2000) decidableForallChar {p : Char → Prop} [DecidablePred p]
    (t : Text) : Decidable (∀ c ∈ t, p c) := List.decidableBAll p t

/-- `isize::MAX` on a 64-bit target, the size no Rust allocation exceeds. -/
def isizeMax : Nat := 2 ^ 63 - 1

def asBytes (t : Text) : Bytes := t.flatMap String.utf8EncodeChar

/-- `std::str::from_utf8`, `none` for its error. -/
def fromUtf8 (bs : Bytes) : Option Text :=
  (ByteArray.mk bs.toArray).utf8Decode?.map Array.toList

@[simp] theorem asBytes_nil : asBytes [] = [] := rfl

@[simp] theorem asBytes_cons (c : Char) (t : Text) :
    asBytes (c :: t) = String.utf8EncodeChar c ++ asBytes t := by
  simp [asBytes]

@[simp] theorem asBytes_append (s t : Text) :
    asBytes (s ++ t) = asBytes s ++ asBytes t := by
  simp [asBytes]

/-- Decoding reads back exactly what was encoded. -/
theorem fromUtf8_asBytes (t : Text) : fromUtf8 (asBytes t) = some t := by
  have h : ByteArray.mk (asBytes t).toArray = List.utf8Encode t := by
    rw [List.utf8Encode, asBytes]
    apply ByteArray.ext
    simp
  rw [fromUtf8, h, List.utf8Decode?_utf8Encode]
  simp

theorem asBytes_injective {s t : Text} (h : asBytes s = asBytes t) : s = t := by
  have hs := fromUtf8_asBytes s
  rw [h, fromUtf8_asBytes] at hs
  exact (Option.some.inj hs).symm

/-! ## Printing and parsing numbers -/

/-- `to_string` of an unsigned number. -/
def natToString (n : Nat) : Text := Nat.toDigits 10 n

/-- `to_string` of a signed number. -/
def intToString : Int → Text
  | .ofNat n => natToString n
  | .negSucc n => '-' :: natToString (n + 1)

/-- The digits of `from_str`, after the sign: one or more of them. -/
def parseDigits (ds : Text) : Option Nat :=
  if ds ≠ [] ∧ ds.all Char.isDigit then some (Nat.ofDigitChars 10 ds 0) else none

/-- The magnitude and sign of `from_str` for a signed type. -/
def signedValue : Text → Option Int
  | '-' :: ds => (parseDigits ds).map fun (n : Nat) => -(n : Int)
  | '+' :: ds => (parseDigits ds).map fun (n : Nat) => (n : Int)
  | ds => (parseDigits ds).map fun (n : Nat) => (n : Int)

/-- The value of `from_str` for an unsigned type. A minus sign is an invalid
digit to it, not a sign. -/
def unsignedValue : Text → Option Nat
  | '+' :: ds => parseDigits ds
  | ds => parseDigits ds

/-- `str::parse` for a signed type whose values are those from `lo` to `hi`. -/
def parseSigned (lo hi : Int) (t : Text) : Option Int :=
  (signedValue t).filter fun i => lo ≤ i ∧ i ≤ hi

/-- `str::parse` for an unsigned type whose values are those up to `hi`. -/
def parseUnsigned (hi : Nat) (t : Text) : Option Nat :=
  (unsignedValue t).filter fun n => n ≤ hi

def parseI64 : Text → Option Int := parseSigned (-2 ^ 63) (2 ^ 63 - 1)

def parseU32 : Text → Option Nat := parseUnsigned (2 ^ 32 - 1)

def parseU64 : Text → Option Nat := parseUnsigned (2 ^ 64 - 1)

/-- The values of an `i64`. -/
def IsI64 (i : Int) : Prop := -2 ^ 63 ≤ i ∧ i ≤ 2 ^ 63 - 1

instance : DecidablePred IsI64 := fun _ => inferInstanceAs (Decidable (_ ∧ _))

theorem isDigit_of_mem_natToString {n : Nat} {c : Char} (h : c ∈ natToString n) :
    c.isDigit = true :=
  Nat.isDigit_of_mem_toDigits (by decide) (by decide) h

theorem natToString_ne_nil (n : Nat) : natToString n ≠ [] := Nat.toDigits_ne_nil

theorem parseDigits_natToString (n : Nat) :
    parseDigits (natToString n) = some n := by
  have hall : (natToString n).all Char.isDigit = true :=
    List.all_eq_true.2 fun _ hc => isDigit_of_mem_natToString hc
  rw [parseDigits, if_pos ⟨natToString_ne_nil n, hall⟩, natToString,
    Nat.ofDigitChars_ten_toDigits]

/-- A numeral starts with a digit, so it is never mistaken for a sign. -/
theorem natToString_eq_cons (n : Nat) :
    ∃ c ds, natToString n = c :: ds ∧ c.isDigit = true := by
  obtain ⟨c, ds, h⟩ := List.exists_cons_of_ne_nil (natToString_ne_nil n)
  exact ⟨c, ds, h, isDigit_of_mem_natToString (h ▸ List.mem_cons_self)⟩

theorem unsignedValue_natToString (n : Nat) :
    unsignedValue (natToString n) = some n := by
  obtain ⟨c, ds, hcons, hc⟩ := natToString_eq_cons n
  rw [unsignedValue.eq_def]
  split
  · next ds' hplus =>
      obtain rfl : c = '+' := by rw [hcons] at hplus; exact (List.cons.inj hplus).1
      exact absurd hc (by decide)
  · exact parseDigits_natToString n

theorem signedValue_natToString (n : Nat) :
    signedValue (natToString n) = some (n : Int) := by
  obtain ⟨c, ds, hcons, hc⟩ := natToString_eq_cons n
  rw [signedValue.eq_def]
  split
  · next ds' hminus =>
      obtain rfl : c = '-' := by rw [hcons] at hminus; exact (List.cons.inj hminus).1
      exact absurd hc (by decide)
  · next ds' hplus =>
      obtain rfl : c = '+' := by rw [hcons] at hplus; exact (List.cons.inj hplus).1
      exact absurd hc (by decide)
  · rw [parseDigits_natToString]; rfl

theorem signedValue_intToString (i : Int) :
    signedValue (intToString i) = some i := by
  cases i with
  | ofNat n => exact signedValue_natToString n
  | negSucc n =>
      simp only [intToString, signedValue, parseDigits_natToString]
      rfl

theorem parseUnsigned_natToString {hi n : Nat} (h : n ≤ hi) :
    parseUnsigned hi (natToString n) = some n := by
  simp [parseUnsigned, unsignedValue_natToString, h]

theorem parseSigned_intToString {lo hi i : Int} (h : lo ≤ i ∧ i ≤ hi) :
    parseSigned lo hi (intToString i) = some i := by
  simp [parseSigned, signedValue_intToString, h]

/-- An `i64` printed and parsed is the same number. -/
theorem parseI64_intToString {i : Int} (h : IsI64 i) :
    parseI64 (intToString i) = some i :=
  parseSigned_intToString h

theorem eq_of_parseI64_intToString {i j : Int} (h : parseI64 (intToString i) = some j) :
    j = i := by
  rw [parseI64, parseSigned, signedValue_intToString, Option.filter_eq_some_iff] at h
  exact (Option.some.inj h.1).symm

/-- A length printed and parsed as an `i64` is the same number. -/
theorem parseI64_natToString {n : Nat} (h : n ≤ isizeMax) :
    parseI64 (natToString n) = some (n : Int) := by
  have hi : IsI64 (n : Int) := by
    simp only [isizeMax] at h
    constructor <;> omega
  exact parseI64_intToString (i := .ofNat n) hi

theorem intToString_injective : Function.Injective intToString := by
  intro i j h
  have hi := signedValue_intToString i
  rw [h, signedValue_intToString] at hi
  exact (Option.some.inj hi).symm

theorem natToString_injective : Function.Injective natToString := by
  intro m n h
  have hint : intToString (.ofNat m) = intToString (.ofNat n) := h
  exact Int.ofNat.inj (intToString_injective hint)

/-! ## The size of a numeral -/

theorem ofDigitChars_lt {ds : Text} (h : ds.all Char.isDigit = true) :
    Nat.ofDigitChars 10 ds 0 < 10 ^ ds.length := by
  induction ds using List.reverseRecOn with
  | nil => simp
  | append_singleton ds c ih =>
      simp only [List.all_append, Bool.and_eq_true, List.all_cons, List.all_nil,
        Bool.and_true] at h
      have hds := ih h.1
      have hc : c.toNat - '0'.toNat ≤ 9 := by
        have hle : c.toNat ≤ 57 := by
          have := h.2
          simp only [Char.isDigit, Bool.and_eq_true, decide_eq_true_eq] at this
          exact this.2
        have h0 : '0'.toNat = 48 := rfl
        omega
      rw [Nat.ofDigitChars_append, Nat.ofDigitChars_cons, Nat.ofDigitChars_nil,
        List.length_append, List.length_singleton, Nat.pow_succ]
      omega

/-- No numeral of a number is shorter than the one that is printed. -/
theorem length_natToString_le {ds : Text} {n : Nat}
    (h : parseDigits ds = some n) : (natToString n).length ≤ ds.length := by
  rw [parseDigits] at h
  split at h
  · next hds =>
      obtain rfl := Option.some.inj h
      have hpos := List.length_pos_of_ne_nil hds.1
      exact (Nat.length_toDigits_le_iff (by decide) hpos).2 (ofDigitChars_lt hds.2)
  · cases h

theorem length_intToString_le_of_signedValue {t : Text} {i : Int}
    (h : signedValue t = some i) : (intToString i).length ≤ t.length := by
  have hneg : ∀ n : Nat, (intToString (-(n : Int))).length ≤ (natToString n).length + 1 := by
    intro n
    cases n with
    | zero => exact Nat.le_succ _
    | succ n => exact Nat.le_refl _
  rw [signedValue.eq_def] at h
  split at h
  · obtain ⟨n, hn, rfl⟩ := Option.map_eq_some_iff.1 h
    have := length_natToString_le hn
    exact Nat.le_trans (hneg n) (by simpa using this)
  · obtain ⟨n, hn, rfl⟩ := Option.map_eq_some_iff.1 h
    exact Nat.le_trans (length_natToString_le hn) (by simp)
  · obtain ⟨n, hn, rfl⟩ := Option.map_eq_some_iff.1 h
    exact length_natToString_le hn

theorem length_natToString_le_twenty {n : Nat} (h : n ≤ isizeMax) :
    (natToString n).length ≤ 20 :=
  (Nat.length_toDigits_le_iff (by decide) (by decide)).2 (by
    simp only [isizeMax] at h; omega)

/-! ## Numerals as bytes -/

/-- One byte a character. -/
def IsAscii (t : Text) : Prop := ∀ c ∈ t, c.toNat < 128

instance : DecidablePred IsAscii := fun t =>
  inferInstanceAs (Decidable (∀ c ∈ t, c.toNat < 128))

theorem isAscii_natToString (n : Nat) : IsAscii (natToString n) := by
  intro c hc
  have h := isDigit_of_mem_natToString hc
  simp only [Char.isDigit, Bool.and_eq_true, decide_eq_true_eq] at h
  have h57 : c.toNat ≤ 57 := h.2
  omega

theorem isAscii_intToString (i : Int) : IsAscii (intToString i) := by
  cases i with
  | ofNat n => exact isAscii_natToString n
  | negSucc n =>
      intro c hc
      rcases List.mem_cons.1 hc with rfl | hd
      · decide
      · exact isAscii_natToString (n + 1) c hd

theorem utf8EncodeChar_ascii {c : Char} (h : c.toNat < 128) :
    String.utf8EncodeChar c = [c.toUInt8] := by
  have hsize : c.utf8Size = 1 := by
    rw [Char.utf8Size_eq_one_iff]
    exact Nat.le_of_lt_succ h
  exact String.utf8EncodeChar_eq_singleton hsize

theorem asBytes_ascii {t : Text} (h : IsAscii t) :
    asBytes t = t.map Char.toUInt8 := by
  induction t with
  | nil => rfl
  | cons c t ih =>
      rw [asBytes_cons, utf8EncodeChar_ascii (h c List.mem_cons_self),
        ih fun d hd => h d (List.mem_cons_of_mem c hd)]
      rfl

theorem length_asBytes_ascii {t : Text} (h : IsAscii t) :
    (asBytes t).length = t.length := by
  rw [asBytes_ascii h, List.length_map]

theorem length_le_length_asBytes (t : Text) : t.length ≤ (asBytes t).length := by
  induction t with
  | nil => simp
  | cons c t ih =>
      have hc := List.length_pos_of_ne_nil (String.utf8EncodeChar_ne_nil (c := c))
      rw [asBytes_cons, List.length_append, List.length_cons]
      omega

/-- What decodes is the encoding of what it decodes to. -/
theorem asBytes_of_fromUtf8 {bs : Bytes} {t : Text} (h : fromUtf8 bs = some t) :
    bs = asBytes t := by
  obtain ⟨cs, hcs, rfl⟩ := Option.map_eq_some_iff.1 h
  have hsome : (ByteArray.mk bs.toArray).utf8Decode?.isSome = true := by
    rw [hcs]; rfl
  have henc := ByteArray.utf8Encode_get_utf8Decode? (h := hsome)
  have hget : (ByteArray.mk bs.toArray).utf8Decode?.get hsome = cs := by
    simp [hcs]
  rw [hget, List.utf8Encode] at henc
  have hdata := congrArg (fun b => b.data.toList) henc
  simpa [asBytes] using hdata.symm

/-- The byte a digit or a minus sign is printed as is never a line end. -/
theorem not_mem_asBytes_intToString (i : Int) {b : UInt8} (hb : b.toNat < 45) :
    b ∉ asBytes (intToString i) := by
  rw [asBytes_ascii (isAscii_intToString i)]
  intro hmem
  obtain ⟨c, hc, rfl⟩ := List.mem_map.1 hmem
  have hdigit : ∀ n, c ∈ natToString n → 48 ≤ c.toNat := by
    intro n hn
    have h := isDigit_of_mem_natToString hn
    simp only [Char.isDigit, Bool.and_eq_true, decide_eq_true_eq] at h
    exact h.1
  have hlow : 45 ≤ c.toNat := by
    cases i with
    | ofNat n => exact Nat.le_trans (by decide) (hdigit n hc)
    | negSucc n =>
        rcases List.mem_cons.1 hc with rfl | hd
        · decide
        · exact Nat.le_trans (by decide) (hdigit _ hd)
  have hascii : c.toNat < 128 := isAscii_intToString i c hc
  have hval : c.toUInt8.toNat = c.toNat := by
    change c.toNat % 256 = c.toNat
    omega
  omega

/-! ## Whitespace -/

/-- `char::is_whitespace`: the characters with Unicode's White_Space
property. -/
def isWhitespace (c : Char) : Bool :=
  let n := c.toNat
  (9 ≤ n && n ≤ 13) || n == 32 || n == 0x85 || n == 0xA0 || n == 0x1680 ||
    (0x2000 ≤ n && n ≤ 0x200A) || n == 0x2028 || n == 0x2029 || n == 0x202F ||
    n == 0x205F || n == 0x3000

def trim (t : Text) : Text :=
  ((t.dropWhile isWhitespace).reverse.dropWhile isWhitespace).reverse

def splitWhitespace (t : Text) : List Text :=
  (t.splitOnP isWhitespace).filter (· ≠ [])

/-- A text with no whitespace in it, and not empty: one word. -/
def IsWord (t : Text) : Prop := t ≠ [] ∧ ∀ c ∈ t, isWhitespace c = false

theorem isWhitespace_of_isDigit {c : Char} (h : c.isDigit = true) :
    isWhitespace c = false := by
  simp only [Char.isDigit, Bool.and_eq_true, decide_eq_true_eq] at h
  have h1 : 48 ≤ c.toNat := h.1
  have h2 : c.toNat ≤ 57 := h.2
  simp only [isWhitespace, Bool.or_eq_false_iff, Bool.and_eq_false_iff,
    decide_eq_false_iff_not, beq_eq_false_iff_ne]
  omega

theorem isWord_natToString (n : Nat) : IsWord (natToString n) :=
  ⟨natToString_ne_nil n, fun _ hc =>
    isWhitespace_of_isDigit (isDigit_of_mem_natToString hc)⟩

theorem isWord_intToString (i : Int) : IsWord (intToString i) := by
  cases i with
  | ofNat n => exact isWord_natToString n
  | negSucc n =>
      refine ⟨by simp [intToString], fun c hc => ?_⟩
      rcases List.mem_cons.1 hc with rfl | hd
      · decide
      · exact (isWord_natToString (n + 1)).2 c hd

theorem dropWhile_word {t : Text} (rest : Text) (h : IsWord t) :
    (t ++ rest).dropWhile isWhitespace = t ++ rest := by
  obtain ⟨c, ds, rfl⟩ := List.exists_cons_of_ne_nil h.1
  rw [List.cons_append, List.dropWhile_cons, h.2 c List.mem_cons_self]
  rfl

/-- Trimming a line that starts and ends with a word takes the line end off and
leaves the rest alone. -/
theorem trim_line {a z : Text} (mid eol : Text) (ha : IsWord a) (hz : IsWord z)
    (heol : ∀ c ∈ eol, isWhitespace c = true) :
    trim (a ++ mid ++ z ++ eol) = a ++ mid ++ z := by
  have hrev : IsWord z.reverse := ⟨by simpa using hz.1, by simpa using hz.2⟩
  have hall : ∀ c ∈ eol.reverse, isWhitespace c = true := by simpa using heol
  have hdrop : (eol.reverse ++ (a ++ mid ++ z).reverse).dropWhile isWhitespace
      = (a ++ mid ++ z).reverse := by
    rw [List.dropWhile_append_of_pos hall, List.reverse_append]
    exact dropWhile_word _ hrev
  rw [trim, List.append_assoc a, List.append_assoc a, dropWhile_word _ ha,
    ← List.append_assoc a, ← List.append_assoc a, List.reverse_append, hdrop,
    List.reverse_reverse]

theorem trim_word {t : Text} (h : IsWord t) : trim t = t := by
  have hrev : IsWord t.reverse := ⟨by simpa using h.1, by simpa using h.2⟩
  have hdrop := dropWhile_word [] h
  have hdroprev := dropWhile_word [] hrev
  rw [List.append_nil] at hdrop hdroprev
  rw [trim, hdrop, hdroprev, List.reverse_reverse]

/-- Trimming never reaches into a word the text starts with. -/
theorem prefix_trim {t : Text} (rest : Text) (h : IsWord t) : t <+: trim (t ++ rest) := by
  have hrev : IsWord t.reverse := ⟨by simpa using h.1, by simpa using h.2⟩
  have hkeep := dropWhile_word [] hrev
  rw [List.append_nil] at hkeep
  rw [trim, dropWhile_word rest h, List.reverse_append, List.dropWhile_append]
  split
  · rw [hkeep]
    exact (List.reverse_reverse t).symm ▸ List.prefix_rfl
  · rw [List.reverse_append, List.reverse_reverse]
    exact List.prefix_append _ _

theorem splitWhitespace_word {t : Text} (h : IsWord t) :
    splitWhitespace t = [t] := by
  rw [splitWhitespace, List.splitOnP_eq_singleton h.2]
  simp [h.1]

theorem splitWhitespace_cons {t rest : Text} {c : Char} (h : IsWord t)
    (hc : isWhitespace c = true) :
    splitWhitespace (t ++ c :: rest) = t :: splitWhitespace rest := by
  rw [splitWhitespace, List.splitOnP_append_cons_of_forall_mem h.2 c hc]
  simp [splitWhitespace, h.1]

end RedisHaTool.Lib
