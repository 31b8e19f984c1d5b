import RedisHaTool.Proofs.RdbRoundTrip
import RedisHaTool.Rdb.KeyEncoding

/-!
# Keys that were compressed

`read_string` takes a compressed string off the input and answers the empty one
in its place. Of a value nothing is lost by that, since its encoding is sent;
but a key is sent as it was read. So a key arrives as it was encoded unless it
was compressed, and all the compressed ones arrive as one.
-/

namespace RedisHaTool.Rdb

open Lib

/-- Of what is not compressed the parser's string is the string. -/
theorem decode_uncompressed {s : RdbString} (h : s.Uncompressed) : s.decode = some s.value := by
  cases s with
  | lzf compressedLen originalLen data hlen held => exact h.elim
  | plain len data hlen held => rfl
  | int8 i => rfl
  | int16 i => rfl
  | int32 i => rfl

theorem value_compressed {s : RdbString} (h : ¬ s.Uncompressed) : s.value = [] := by
  cases s with
  | lzf compressedLen originalLen data hlen held => rfl
  | plain len data hlen held => exact absurd trivial h
  | int8 i => exact absurd trivial h
  | int16 i => exact absurd trivial h
  | int32 i => exact absurd trivial h

/-- A string has the length it is said to have. -/
theorem length_of_decode {s : RdbString} {key : Bytes} (h : s.decode = some key) :
    key.length = s.declaredLength := by
  cases s with
  | plain len data hlen held =>
      obtain rfl := Option.some.inj h
      exact hlen.symm
  | int8 i =>
      obtain rfl := Option.some.inj h
      exact length_asBytes_ascii (isAscii_intToString i)
  | int16 i =>
      obtain rfl := Option.some.inj h
      exact length_asBytes_ascii (isAscii_intToString i)
  | int32 i =>
      obtain rfl := Option.some.inj h
      exact length_asBytes_ascii (isAscii_intToString i)
  | lzf compressedLen originalLen data hlen held =>
      obtain ⟨-, hdeclared⟩ := Option.filter_eq_some_iff.1 h
      exact of_decide_eq_true hdeclared

namespace KeyEncoding

variable {k k' : KeyEncoding} {key : Bytes}

theorem key_eq_nil_iff : k.key = [] ↔ k.string.declaredLength = 0 := by
  rw [← length_of_decode k.decodes, List.length_eq_zero_iff]

/-- The one key that a record is delivered under. With an empty string behind it
as its value, it is. -/
theorem delivers_iff : k.Delivers key ↔ key = k.string.value := by
  constructor
  · rintro ⟨σ, rdbType, p, q, rest, entry, hp, hread, rfl⟩
    have hkey := onReader_reads (reads_readString k.string) hp
    rw [readKeyValue, bind_of_ok hkey] at hread
    obtain ⟨⟨value, rawValue⟩, p1, -, hread⟩ := bind_eq_ok.1 hread
    cases hread
    rfl
  · rintro rfl
    have hkey : onReader readString
        (RdbParser.new (k.string.bytes ++ [0]) ())
        = .ok k.string.value (RdbParser.new [0] ()) :=
      onReader_reads (reads_readString k.string) rfl
    have hvalue : onReader (readValue .string) (RdbParser.new [0] ())
        = .ok ([], [0]) (RdbParser.new [] ()) := rfl
    exact ⟨Unit, .string, RdbParser.new (k.string.bytes ++ [0]) (), _, [0], _, rfl,
      (bind_of_ok hkey).trans (bind_of_ok hvalue), rfl⟩

theorem value_eq_key_iff : k.string.value = k.key ↔ k.Legible := by
  by_cases h : k.string.Uncompressed
  · have hkey := k.decodes
    rw [decode_uncompressed h] at hkey
    exact iff_of_true (Option.some.inj hkey) (.inl h)
  · rw [value_compressed h, eq_comm, key_eq_nil_iff]
    exact (or_iff_right h).symm

theorem value_eq_nil_iff : k.string.value = [] ↔ k.Blank := by
  by_cases h : k.string.Uncompressed
  · rw [value_eq_key_iff.2 (.inl h), key_eq_nil_iff]
    exact (or_iff_right (not_not_intro h)).symm
  · exact iff_of_true (value_compressed h) (.inl h)

theorem decoded_iff_legible : k.Decoded ↔ k.Legible := by
  rw [← value_eq_key_iff]
  constructor
  · intro h
    exact (h _ (delivers_iff.2 rfl)).1
  · intro h key hkey
    have heq : key = k.key := (delivers_iff.1 hkey).trans h
    exact ⟨heq, heq ▸ length_of_decode k.decodes⟩

/-- Two keys that are not both blank are told apart by what is delivered. -/
theorem keptApart_iff : k.KeptApart k' ↔ (k.Blank → k'.Blank → k.key = k'.key) := by
  constructor
  · intro h hblank hblank'
    have hnil := value_eq_nil_iff.2 hblank
    have hnil' := value_eq_nil_iff.2 hblank'
    exact h [] (delivers_iff.2 hnil.symm) (delivers_iff.2 hnil'.symm)
  · intro h key hkey hkey'
    have heq := delivers_iff.1 hkey
    have heq' := delivers_iff.1 hkey'
    by_cases hnil : key = []
    · subst hnil
      exact h (value_eq_nil_iff.1 heq.symm) (value_eq_nil_iff.1 heq'.symm)
    · have hlegible : ∀ k : KeyEncoding, key = k.string.value → k.key = key := by
        intro k hk
        by_cases hplain : k.string.Uncompressed
        · exact (hk.trans (value_eq_key_iff.2 (.inl hplain))).symm
        · exact absurd (hk.trans (value_compressed hplain)) hnil
      exact (hlegible k heq).trans (hlegible k' heq').symm

end KeyEncoding

/-- For every two keys and encodings of them: the one is delivered as it was
encoded if and only if it is legible, and the two are kept apart if and only if
they are one or not both blank. -/
theorem decoded_and_keptApart_iff (k k' : KeyEncoding) :
    (k.Decoded ↔ k.Legible) ∧
      (k.KeptApart k' ↔ (k.Blank → k'.Blank → k.key = k'.key)) :=
  ⟨KeyEncoding.decoded_iff_legible, KeyEncoding.keptApart_iff⟩

theorem five_le_isizeMax : 5 ≤ isizeMax := by decide

theorem five_lt : 5 < 2 ^ 6 := by decide

theorem twentyFour_lt : 24 < 2 ^ 6 := by decide

theorem decode_repeated (letter : UInt8) :
    (RdbString.lzf (.small .six 5 five_lt) (.small .six 24 twentyFour_lt)
      [0, letter, 0xE0, 14, 0] rfl five_le_isizeMax).decode
      = some (List.replicate 24 letter) := by
  show (Lzf.decompress [0, letter, 0xE0, 14, 0]).filter (fun s => decide (s.length = 24)) = _
  rw [Lzf.decompress_run]
  exact Option.filter_some_pos (decide_eq_true List.length_replicate)

/-- A letter 24 times, compressed to five bytes. -/
def repeated (letter : UInt8) : KeyEncoding :=
  { string := .lzf (.small .six 5 five_lt) (.small .six 24 twentyFour_lt)
      [0, letter, 0xE0, 14, 0] rfl five_le_isizeMax
    key := List.replicate 24 letter
    decodes := decode_repeated letter }

/-- Two keys that are delivered as the empty one. -/
theorem not_decoded :
    ¬ (repeated 97).Decoded ∧ ¬ (repeated 98).Decoded ∧
      ¬ (repeated 97).KeptApart (repeated 98) := by
  have hlegible : ∀ letter, ¬ (repeated letter).Legible := by
    rintro letter (h | h)
    · exact h
    · cases h
  refine ⟨mt KeyEncoding.decoded_iff_legible.1 (hlegible 97),
    mt KeyEncoding.decoded_iff_legible.1 (hlegible 98), fun h => ?_⟩
  have hsame := KeyEncoding.keptApart_iff.1 h (.inl id) (.inl id)
  revert hsame
  decide

end RedisHaTool.Rdb
