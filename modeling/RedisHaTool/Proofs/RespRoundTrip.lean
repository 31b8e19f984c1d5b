import RedisHaTool.Resp.Decoder

/-!
# What the encoder writes, the decoder reads

A value's encoding starts with a line: a marker, a text and CR LF. The decoder
finds the end of that line as the first CR LF pair after the marker, and this is
the right pair because the text before it holds none: a simple string or an
error by assumption, a numeral because it is made of digits and a sign. A CR at
the very end of the text does no harm, the pair that counts starts after it.

The encoding is one way to spell a value, and the decoder takes others too, so
the round trip is proved for all of them. `Takes m bs a` is that of one decoding
step, and the mutual induction over values and lists of values puts the steps
together. The fuel of a value is any number its spelling is shorter than, so a
nested array always has enough.
-/

namespace RedisHaTool.Resp

open Lib

/-! ## Lines -/

theorem noCrlf_of_not_mem {s : Bytes} (h : (13 : UInt8) ∉ s) : NoCrlf s := by
  rintro ⟨l, r, rfl⟩
  exact h (by simp [crlf])

theorem noCrlf_intToString (i : Int) : NoCrlf (asBytes (intToString i)) :=
  noCrlf_of_not_mem (not_mem_asBytes_intToString i (by decide))

theorem noCrlf_natToString (n : Nat) : NoCrlf (asBytes (natToString n)) :=
  noCrlf_intToString (.ofNat n)

theorem NoCrlf.tail {b : UInt8} {s : Bytes} (h : NoCrlf (b :: s)) : NoCrlf s :=
  fun hin => h (hin.trans (List.infix_cons (List.infix_refl s)))

/-- The first pair found after a text with none is the one that ends it. -/
theorem findCrlf_line {s : Bytes} (h : NoCrlf s) (rest : Bytes) :
    findCrlf (s ++ crlf ++ rest) = some s.length := by
  induction s with
  | nil => rfl
  | cons b s ih =>
      have hs := ih h.tail
      cases s with
      | nil =>
          -- A lone CR is followed by the CR of the pair, not by its LF.
          rw [List.nil_append] at hs
          change (if b = 13 ∧ (13 : UInt8) = 10 then some 0
            else (findCrlf (crlf ++ rest)).map (· + 1)) = _
          rw [if_neg fun hlf => absurd hlf.2 (by decide), hs]
          rfl
      | cons c s =>
          have hbc : ¬ (b = 13 ∧ c = 10) := by
            rintro ⟨rfl, rfl⟩
            exact h ⟨[], s, rfl⟩
          change (if b = 13 ∧ c = 10 then some 0
            else (findCrlf (c :: s ++ crlf ++ rest)).map (· + 1)) = _
          rw [if_neg hbc, hs]
          rfl

/-- The first line of an encoding. -/
def line (marker : UInt8) (text : Bytes) : Bytes := marker :: text ++ crlf

@[simp] theorem length_line (m : UInt8) (text : Bytes) :
    (line m text).length = text.length + 3 := by
  simp [line, crlf]

theorem findLineEnd_line {m : UInt8} {text : Bytes} (h : NoCrlf text)
    (rest : Bytes) :
    findLineEnd (line m text ++ rest) 1 = some (text.length + 1) := by
  have hdrop : (line m text ++ rest).drop 1 = text ++ crlf ++ rest := by
    simp [line]
  rw [findLineEnd, hdrop, findCrlf_line h]
  rfl

/-- A line is told from what follows it. -/
theorem line_append_inj {m : UInt8} {s t x y : Bytes} (hs : NoCrlf s) (ht : NoCrlf t)
    (h : line m s ++ x = line m t ++ y) : s = t ∧ x = y := by
  have hs' := findLineEnd_line (m := m) hs x
  rw [h, findLineEnd_line ht y] at hs'
  have hlen : (line m s).length = (line m t).length := by
    simp only [Option.some.injEq] at hs'
    rw [length_line, length_line]
    omega
  obtain ⟨hline, hrest⟩ := List.append_inj h hlen
  exact ⟨List.append_cancel_right (List.cons.inj hline).2, hrest⟩

theorem encodeValue_array (es : List RespValue) :
    encodeValue (.array es)
      = line '*'.toUInt8 (asBytes (natToString es.length)) ++ encodeBatch es := by
  rw [encodeValue, encodeElements_eq, line]

theorem encodeValue_bulkString_inj {s t : Bytes}
    (h : encodeValue (.bulkString s) = encodeValue (.bulkString t)) : s = t := by
  have hline : ∀ u : Bytes, encodeValue (.bulkString u)
      = line '$'.toUInt8 (asBytes (natToString u.length)) ++ (u ++ crlf) := by
    intro u
    rw [encodeValue, line]
    simp only [List.append_assoc, List.cons_append]
  rw [hline, hline] at h
  exact List.append_cancel_right
    (line_append_inj (noCrlf_natToString _) (noCrlf_natToString _) h).2

theorem slice_line (m : UInt8) (text rest : Bytes) (d : RespDecoder) :
    slice (line m text ++ rest) 1 (text.length + 1) d = .ok text d := by
  have hle : 1 ≤ text.length + 1 ∧
      text.length + 1 ≤ (line m text ++ rest).length := by
    rw [List.length_append, length_line]
    omega
  have htext : ((line m text ++ rest).take (text.length + 1)).drop 1 = text := by
    simp [line]
  rw [slice, if_pos hle, htext]
  rfl

/-! ## The cursor -/

theorem advance_ok {d : RespDecoder} {taken : Nat} (counted : Nat)
    (h : taken ≤ d.buf.length) :
    advance counted taken d
      = .ok () { d with offset := d.offset + counted, buf := d.buf.drop taken } := by
  simp only [advance, bind_apply, get_apply, if_neg (Nat.not_lt.2 h), set_apply]

/-- The step takes exactly `bs` off the front of the buffer and answers `a`. -/
def Takes {α : Type} (m : DecM α) (bs : Bytes) (a : α) : Prop :=
  ∀ (d : RespDecoder) (rest : Bytes), d.buf = bs ++ rest →
    ∃ d', m d = .ok a d' ∧ d'.buf = rest ∧ d'.maxBufferSize = d.maxBufferSize

theorem Takes.pure {α : Type} (a : α) : Takes (pure a : DecM α) [] a :=
  fun d _ hd => ⟨d, rfl, hd, rfl⟩

theorem Takes.bind {α β : Type} {m : DecM α} {f : α → DecM β} {bs bs' : Bytes}
    {a : α} {b : β} (hm : Takes m bs a) (hf : Takes (f a) bs' b) :
    Takes (m >>= f) (bs ++ bs') b := by
  intro d rest hd
  rw [List.append_assoc] at hd
  obtain ⟨d1, h1, hbuf1, hmax1⟩ := hm d (bs' ++ rest) hd
  obtain ⟨d2, h2, hbuf2, hmax2⟩ := hf d1 rest hbuf1
  exact ⟨d2, by rw [bind_of_ok h1, h2], hbuf2, hmax2.trans hmax1⟩

theorem Takes.bind_pure {α β : Type} {m : DecM α} {f : α → DecM β} {bs : Bytes}
    {a : α} {b : β} (hm : Takes m bs a) (hf : Takes (f a) [] b) :
    Takes (m >>= f) bs b := by
  simpa using hm.bind hf

theorem advance_takes (counted : Nat) (bs : Bytes) :
    Takes (advance counted bs.length) bs () := by
  intro d rest hd
  refine ⟨_, advance_ok counted ?_, ?_, rfl⟩
  · rw [hd, List.length_append]
    omega
  · simp [hd]

/-- Taking a line off and answering: what is advanced over ends two bytes past
the end that was found. -/
theorem advanceLine_takes {α : Type} (m : UInt8) (text : Bytes) (counted : Nat)
    (a : α) :
    Takes (do advance counted (text.length + 1 + 2); pure a)
      (line m text) a := by
  have h := advance_takes counted (line m text)
  rw [length_line] at h
  exact h.bind_pure (Takes.pure a)

/-- A step that looks at the buffer before it takes anything. -/
theorem takes_get {α : Type} {f : RespDecoder → DecM α} {bs : Bytes} {a : α}
    (h : ∀ d rest, d.buf = bs ++ rest →
      ∃ d', f d d = .ok a d' ∧ d'.buf = rest ∧ d'.maxBufferSize = d.maxBufferSize) :
    Takes (get >>= f) bs a :=
  fun d rest hd => h d rest hd

/-! ## One value -/

theorem decodeLine_takes {mk : Bytes → RespValue} (m : UInt8) {s : Bytes}
    (h : NoCrlf s) : Takes (decodeLine mk) (line m s) (some (mk s)) := by
  refine takes_get fun d rest hd => ?_
  rw [hd, findLineEnd_line h]
  dsimp only
  rw [bind_of_ok (slice_line m s rest d)]
  exact advanceLine_takes m s _ _ d rest hd

/-- The number that a text is read as. -/
abbrev IsNumeral (text : Bytes) (i : Int) : Prop := (fromUtf8 text).bind parseI64 = some i

theorem isNumeral_intToString {i : Int} (h : IsI64 i) : IsNumeral (asBytes (intToString i)) i :=
  Option.bind_eq_some_iff.2 ⟨_, fromUtf8_asBytes _, parseI64_intToString h⟩

theorem isNumeral_natToString {n : Nat} (h : n ≤ isizeMax) :
    IsNumeral (asBytes (natToString n)) n :=
  Option.bind_eq_some_iff.2 ⟨_, fromUtf8_asBytes _, parseI64_natToString h⟩

theorem parseNum_ok {text : Bytes} {i : Int} (h : IsNumeral text i) (d : RespDecoder) :
    parseNum text d = .ok i d := by
  simp only [parseNum, h, pure_apply]

theorem parseNum_natToString {n : Nat} (h : n ≤ isizeMax) (d : RespDecoder) :
    parseNum (asBytes (natToString n)) d = .ok (n : Int) d :=
  parseNum_ok (isNumeral_natToString h) d

section Numeral

variable {text : Bytes} (m : UInt8) (htext : NoCrlf text)
include htext

theorem decodeInteger_takes {i : Int} (h : IsNumeral text i) :
    Takes decodeInteger (line m text) (some (.integer i)) := by
  refine takes_get fun d rest hd => ?_
  rw [hd, findLineEnd_line htext]
  dsimp only
  rw [bind_of_ok (slice_line m text rest d), bind_of_ok (parseNum_ok h d)]
  exact advanceLine_takes m text _ _ d rest hd

theorem decodeBulkString_takes_null (h : IsNumeral text (-1)) :
    Takes decodeBulkString (line m text) (some .null) := by
  refine takes_get fun d rest hd => ?_
  rw [hd, findLineEnd_line htext]
  dsimp only
  rw [bind_of_ok (slice_line m text rest d), bind_of_ok (parseNum_ok h d), if_pos rfl]
  exact advanceLine_takes m text _ _ d rest hd

theorem decodeArray_takes_null (nested : DecM (Option RespValue)) (h : IsNumeral text (-1)) :
    Takes (decodeArray nested) (line m text) (some .null) := by
  refine takes_get fun d rest hd => ?_
  rw [hd, findLineEnd_line htext]
  dsimp only
  rw [bind_of_ok (slice_line m text rest d), bind_of_ok (parseNum_ok h d), if_pos rfl]
  exact advanceLine_takes m text _ _ d rest hd

/-- The two bytes after the data are taken whatever they are. -/
theorem decodeBulkString_takes {s ending : Bytes} (h : IsNumeral text s.length)
    (hending : ending.length = 2) (htotal : text.length + 5 + s.length < 2 ^ 64) :
    Takes decodeBulkString (line m text ++ (s ++ ending)) (some (.bulkString s)) := by
  refine takes_get fun d rest hd => ?_
  have hbuf : d.buf = line m text ++ (s ++ ending ++ rest) := by
    rw [hd, List.append_assoc]
  have hlen : text.length + 1 + 2 + s.length + 2 = (line m text ++ (s ++ ending)).length := by
    simp only [List.length_append, length_line, hending]
    omega
  have htotal : text.length + 1 + 2 + s.length + 2 < 2 ^ 64 := by omega
  have hhave : ¬ d.buf.length < text.length + 1 + 2 + s.length + 2 := by
    rw [hlen, hd]
    simp
  have hslice : slice d.buf (text.length + 1 + 2)
      (text.length + 1 + 2 + s.length) d = .ok s d := by
    have hdrop : (d.buf.take (text.length + 1 + 2 + s.length)).drop
        (text.length + 1 + 2) = s := by
      rw [List.drop_take, hbuf, ← length_line m text, List.drop_left,
        Nat.add_sub_cancel_left, List.append_assoc, List.take_left]
    rw [slice, if_pos (by omega), hdrop]
    rfl
  have hline : findLineEnd d.buf 1 = some (text.length + 1) := by
    rw [hbuf]
    exact findLineEnd_line htext _
  have hword : slice d.buf 1 (text.length + 1) d = .ok text d := by
    rw [hbuf]
    exact slice_line m text _ d
  have hadvance : ∃ d', advance (text.length + 1 + 2 + s.length + 2)
      (text.length + 1 + 2 + s.length + 2) d = .ok () d' ∧ d'.buf = rest ∧
      d'.maxBufferSize = d.maxBufferSize := by
    rw [hlen]
    exact advance_takes _ _ d rest hd
  obtain ⟨d', hd', hrest, hmax⟩ := hadvance
  refine ⟨d', ?_, hrest, hmax⟩
  rw [hline]
  dsimp only
  rw [bind_of_ok hword, bind_of_ok (parseNum_ok h d), if_neg (by omega), if_neg (by omega),
    Int.toNat_natCast]
  simp only [usize, if_pos htotal, bind_apply, pure_apply, if_neg hhave, hslice, hd']

theorem decodeArray_takes {nested : DecM (Option RespValue)} {es : List RespValue}
    {bs : Bytes} (h : IsNumeral text es.length)
    (hcount : es.length * respValueSize ≤ isizeMax)
    (hes : Takes (decodeElements nested es.length []) bs (some es)) :
    Takes (decodeArray nested) (line m text ++ bs) (some (.array es)) := by
  refine takes_get fun d rest hd => ?_
  have hadvance := advance_takes (text.length + 1 + 2 + 1) (line m text)
  rw [length_line] at hadvance
  have hline := hd
  rw [List.append_assoc] at hline
  rw [hline, findLineEnd_line htext]
  dsimp only
  rw [bind_of_ok (slice_line _ _ _ d), bind_of_ok (parseNum_ok h d),
    if_neg (by omega), if_neg (by omega), Int.toNat_natCast,
    if_neg (Nat.not_lt.2 hcount)]
  refine hadvance.bind (hes.bind_pure ?_) d rest hd
  exact Takes.pure _

end Numeral

/-! ## Spellings -/

mutual

/-- What the decoder reads a value from: its numerals may have leading zeros or a
plus sign, a null may be that of an array, and any two bytes end a bulk string. -/
def Spells : RespValue → Bytes → Prop
  | .simpleString s, bs => NoCrlf s ∧ bs = line '+'.toUInt8 s
  | .error e, bs => NoCrlf e ∧ bs = line '-'.toUInt8 e
  | .integer i, bs => ∃ text, NoCrlf text ∧ IsNumeral text i ∧ bs = line ':'.toUInt8 text
  | .bulkString s, bs =>
      ∃ text ending, NoCrlf text ∧ IsNumeral text s.length ∧ ending.length = 2 ∧
        text.length + 5 + s.length < 2 ^ 64 ∧ bs = line '$'.toUInt8 text ++ (s ++ ending)
  | .array es, bs =>
      ∃ text tail, NoCrlf text ∧ IsNumeral text es.length ∧
        es.length * respValueSize ≤ isizeMax ∧ SpellsAll es tail ∧
        bs = line '*'.toUInt8 text ++ tail
  | .null, bs =>
      ∃ m text, (m = '$'.toUInt8 ∨ m = '*'.toUInt8) ∧ NoCrlf text ∧ IsNumeral text (-1) ∧
        bs = line m text

/-- One value after another. -/
def SpellsAll : List RespValue → Bytes → Prop
  | [], bs => bs = []
  | e :: es, bs => ∃ first tail, Spells e first ∧ SpellsAll es tail ∧ bs = first ++ tail

end

mutual

/-- The encoding is one of them. -/
theorem spells_encodeValue (v : RespValue) (hsafe : v.All LineSafe) (hmem : v.All InMemory) :
    Spells v (encodeValue v) := by
  cases v with
  | simpleString s => exact ⟨hsafe, rfl⟩
  | error e => exact ⟨hsafe, rfl⟩
  | integer i => exact ⟨_, noCrlf_intToString i, isNumeral_intToString hmem, rfl⟩
  | bulkString s =>
      have hlen := length_natToString_le_twenty hmem
      have hmax : s.length ≤ isizeMax := hmem
      have htotal : (asBytes (natToString s.length)).length + 5 + s.length < 2 ^ 64 := by
        rw [length_asBytes_ascii (isAscii_natToString _)]
        simp only [isizeMax] at hmax
        omega
      refine ⟨_, crlf, noCrlf_natToString _, isNumeral_natToString hmem, rfl, htotal, ?_⟩
      rw [encodeValue, line]
      simp only [List.append_assoc, List.cons_append]
  | null =>
      exact ⟨_, asBytes (intToString (-1)), .inl rfl, noCrlf_intToString (-1), by decide, rfl⟩
  | array es =>
      have hcount : es.length * respValueSize ≤ isizeMax := hmem.1
      have hlen : es.length ≤ isizeMax :=
        Nat.le_trans (Nat.le_mul_of_pos_right _ (by decide)) hcount
      refine ⟨_, encodeElements es, noCrlf_natToString _, isNumeral_natToString hlen, hcount,
        spellsAll_encodeElements es hsafe.2 hmem.2, ?_⟩
      rw [encodeValue, line]

theorem spellsAll_encodeElements (es : List RespValue) (hsafe : RespValue.AllIn LineSafe es)
    (hmem : RespValue.AllIn InMemory es) : SpellsAll es (encodeElements es) := by
  cases es with
  | nil => rfl
  | cons e es =>
      exact ⟨_, _, spells_encodeValue e hsafe.1 hmem.1,
        spellsAll_encodeElements es hsafe.2 hmem.2, by rw [encodeElements]⟩

end

/-! ## Values inside values -/

/-- Which decoder runs is decided by the marker alone. -/
theorem tryDecode_takes_of_marked {fuel : Nat} {m : UInt8} {bs : Bytes} {a : Option RespValue}
    (h : Takes (decodeMarked (tryDecode fuel) m) (m :: bs) a) :
    Takes (tryDecode (fuel + 1)) (m :: bs) a := by
  refine takes_get fun d rest hd => ?_
  rw [hd, List.cons_append]
  exact h d rest hd

mutual

/-- One value: any fuel above the length of a spelling lets `try_decode` take
exactly that spelling. -/
theorem tryDecode_takes_spelling (v : RespValue) {bs : Bytes} (hv : Spells v bs) (fuel : Nat)
    (hfuel : bs.length < fuel) : Takes (tryDecode fuel) bs (some v) := by
  obtain ⟨fuel, rfl⟩ : ∃ k, fuel = k + 1 := ⟨fuel - 1, by omega⟩
  cases v with
  | simpleString s =>
      obtain ⟨hs, rfl⟩ := hv
      exact tryDecode_takes_of_marked (decodeLine_takes '+'.toUInt8 hs)
  | error e =>
      obtain ⟨he, rfl⟩ := hv
      exact tryDecode_takes_of_marked (decodeLine_takes '-'.toUInt8 he)
  | integer i =>
      obtain ⟨text, htext, hi, rfl⟩ := hv
      exact tryDecode_takes_of_marked (decodeInteger_takes ':'.toUInt8 htext hi)
  | bulkString s =>
      obtain ⟨text, ending, htext, hlen, hending, htotal, rfl⟩ := hv
      exact tryDecode_takes_of_marked
        (decodeBulkString_takes '$'.toUInt8 htext hlen hending htotal)
  | null =>
      obtain ⟨m, text, rfl | rfl, htext, hnull, rfl⟩ := hv
      · exact tryDecode_takes_of_marked (decodeBulkString_takes_null '$'.toUInt8 htext hnull)
      · exact tryDecode_takes_of_marked (decodeArray_takes_null '*'.toUInt8 htext _ hnull)
  | array es =>
      obtain ⟨text, tail, htext, hlen, hcount, hes, rfl⟩ := hv
      rw [List.length_append, length_line] at hfuel
      have helements := decodeElements_takes_spelling es hes fuel (by omega) []
      exact tryDecode_takes_of_marked
        (decodeArray_takes '*'.toUInt8 htext hlen hcount helements)

/-- The elements of an array, pushed onto the ones there already. -/
theorem decodeElements_takes_spelling (es : List RespValue) {bs : Bytes} (hes : SpellsAll es bs)
    (fuel : Nat) (hfuel : bs.length < fuel) (done : List RespValue) :
    Takes (decodeElements (tryDecode fuel) es.length done) bs (some (done ++ es)) := by
  cases es with
  | nil =>
      obtain rfl := hes
      rw [List.append_nil]
      exact Takes.pure _
  | cons e es =>
      obtain ⟨first, tail, he, hes, rfl⟩ := hes
      rw [List.length_append] at hfuel
      rw [List.length_cons, decodeElements]
      refine (tryDecode_takes_spelling e he fuel (by omega)).bind ?_
      have h := decodeElements_takes_spelling es hes fuel (by omega) (done ++ [e])
      rwa [List.append_assoc] at h

end

theorem tryDecode_takes (v : RespValue) (hsafe : v.All LineSafe)
    (hmem : v.All InMemory) (fuel : Nat) (hfuel : (encodeValue v).length < fuel) :
    Takes (tryDecode fuel) (encodeValue v) (some v) :=
  tryDecode_takes_spelling v (spells_encodeValue v hsafe hmem) fuel hfuel

/-! ## A buffer of whole values -/

theorem encodeValue_ne_nil (v : RespValue) : encodeValue v ≠ [] := by
  cases v <;> rw [encodeValue] <;> simp

theorem length_encodeValue_pos (v : RespValue) : 0 < (encodeValue v).length :=
  List.length_pos_of_ne_nil (encodeValue_ne_nil v)

/-- `decode` is `try_decode` unless there is nothing to decode or it fails. -/
theorem decode_of_ok {d d' : RespDecoder} {r : Option RespValue}
    (hne : d.buf ≠ []) (h : tryDecode (d.buf.length + 1) d = .ok r d') :
    decode d = .ok r d' := by
  rw [decode, if_neg hne, h]

theorem decode_nil {d : RespDecoder} (h : d.buf = []) :
    decode d = .ok none d := by
  rw [decode, if_pos h]

theorem decode_takes (v : RespValue) (hsafe : v.All LineSafe)
    (hmem : v.All InMemory) : Takes decode (encodeValue v) (some v) := by
  intro d rest hd
  have hfuel : (encodeValue v).length < d.buf.length + 1 := by
    rw [hd, List.length_append]
    omega
  obtain ⟨d', h, hrest, hmax⟩ := tryDecode_takes v hsafe hmem _ hfuel d rest hd
  refine ⟨d', decode_of_ok ?_ h, hrest, hmax⟩
  rw [hd]
  exact List.append_ne_nil_of_left_ne_nil (encodeValue_ne_nil v) rest

/-- Whole values at the front of the buffer come out one by one, and draining
goes on from what follows them with the fuel that is left. -/
theorem drain_encodeBatch {vs : List RespValue} (hsafe : ∀ v ∈ vs, v.All LineSafe)
    (hmem : ∀ v ∈ vs, v.All InMemory) {d : RespDecoder} {rest : Bytes}
    (hd : d.buf = encodeBatch vs ++ rest) (fuel : Nat) :
    ∃ d', d'.buf = rest ∧ d'.maxBufferSize = d.maxBufferSize ∧
      ∀ ws e, drain fuel d' = .ok ws e →
        drain (vs.length + fuel) d = .ok (vs ++ ws) e := by
  induction vs generalizing d with
  | nil => exact ⟨d, hd, rfl, fun ws e h => by simpa using h⟩
  | cons v vs ih =>
      rw [encodeBatch_cons, List.append_assoc] at hd
      obtain ⟨d1, h1, hbuf1, hmax1⟩ := decode_takes v (hsafe v List.mem_cons_self)
        (hmem v List.mem_cons_self) d _ hd
      obtain ⟨d', hbuf', hmax', hdrain⟩ := ih
        (fun w hw => hsafe w (List.mem_cons_of_mem v hw))
        (fun w hw => hmem w (List.mem_cons_of_mem v hw)) hbuf1
      refine ⟨d', hbuf', hmax'.trans hmax1, fun ws e h => ?_⟩
      rw [List.length_cons, Nat.add_right_comm, drain, bind_of_ok h1]
      dsimp only
      rw [bind_of_ok (hdrain ws e h)]
      rfl

theorem length_le_encodeBatch (vs : List RespValue) :
    vs.length ≤ (encodeBatch vs).length :=
  length_le_flatMap fun v _ => encodeValue_ne_nil v

theorem feed_ok {d : RespDecoder} {data : Bytes}
    (h : d.buf.length + data.length ≤ d.maxBufferSize) :
    feed data d = .ok () { d with buf := d.buf ++ data } := by
  simp only [feed, bind_apply, get_apply, if_neg (Nat.not_lt.2 h), set_apply]

/-- Any values, encoded, fed to a fresh decoder and decoded until it asks for
more: the same values, in order, and nothing left over. -/
theorem decodeAll_encodeBatch (vs : List HeldValue) (capacity maxBufferSize : Nat)
    (hsafe : ∀ v ∈ values vs, v.All LineSafe)
    (hfit : (encodeBatch (values vs)).length ≤ maxBufferSize) :
    ∃ d, (do feed (encodeBatch (values vs)); decodeAll)
        (RespDecoder.withCapacity capacity maxBufferSize) = .ok (values vs) d ∧
      d.buf = [] := by
  have hmem : ∀ v ∈ values vs, v.All InMemory := fun v => inMemory_of_mem_values
  generalize values vs = vs at *
  have hfeed : feed (encodeBatch vs)
      (RespDecoder.withCapacity capacity maxBufferSize) = _ :=
    feed_ok (by simpa [RespDecoder.withCapacity] using hfit)
  generalize hd0 : ({ RespDecoder.withCapacity capacity maxBufferSize with
    buf := _ } : RespDecoder) = d0 at hfeed
  have hbuf0 : d0.buf = encodeBatch vs ++ [] := by
    simp [← hd0, RespDecoder.withCapacity]
  obtain ⟨k, hk⟩ : ∃ k, d0.buf.length + 1 = vs.length + (k + 1) := by
    have := length_le_encodeBatch vs
    rw [hbuf0, List.append_nil]
    exact ⟨(encodeBatch vs).length - vs.length, by omega⟩
  obtain ⟨d, hbuf, -, hdrain⟩ := drain_encodeBatch hsafe hmem hbuf0 (k + 1)
  have hend : drain (k + 1) d = .ok [] d := by
    rw [drain, bind_of_ok (decode_nil hbuf)]
    rfl
  refine ⟨d, ?_, hbuf⟩
  rw [bind_of_ok hfeed, decodeAll, hk, hdrain [] d hend, List.append_nil]

/-- A sample: nesting, a bulk string that holds CR LF, and a null. -/
def sample : List HeldValue :=
  [⟨.array [.bulkString crlf, .array [.integer (-7), .null], .simpleString [13]],
    by decide⟩]

theorem decodeAll_encodeBatch_sample :
    ∃ d, (do feed (encodeBatch (values sample)); decodeAll)
        (RespDecoder.withCapacity 0 64) = .ok (values sample) d ∧ d.buf = [] :=
  decodeAll_encodeBatch sample 0 64 (by decide) (by decide)

end RedisHaTool.Resp
