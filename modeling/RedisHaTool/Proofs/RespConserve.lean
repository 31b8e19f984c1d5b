import RedisHaTool.Proofs.RespRoundTrip

/-!
# No value is longer than what it was read from

The decoder accepts more than the encoder writes (a numeral may carry leading
zeros or a plus sign, an array may say it is null), but never less: the bytes a
call of `decode` takes off the buffer are at least the encoding of the value it
answers. So the encodings of everything that came out, and what is still in the
buffer, never exceed what was fed, and a byte that was taken without a value
being answered is missing from the values for good.
-/

namespace RedisHaTool.Resp

open Lib

/-! ## What a step that answered must have seen -/

theorem findCrlf_bound {bs : Bytes} {k : Nat} (h : findCrlf bs = some k) :
    k + 2 ≤ bs.length := by
  induction bs generalizing k with
  | nil => cases h
  | cons a bs ih =>
      cases bs with
      | nil => cases h
      | cons b bs =>
          rw [findCrlf] at h
          split at h
          · obtain rfl := Option.some.inj h
            simp
          · obtain ⟨j, hj, rfl⟩ := Option.map_eq_some_iff.1 h
            have := ih hj
            simp only [List.length_cons] at *
            omega

theorem findLineEnd_bound {buf : Bytes} {e : Nat}
    (h : findLineEnd buf 1 = some e) : 1 ≤ e ∧ e + 2 ≤ buf.length := by
  obtain ⟨k, hk, rfl⟩ := Option.map_eq_some_iff.1 h
  have := findCrlf_bound hk
  rw [List.length_drop] at this
  omega

section Peel

variable {α : Type} {d d' : RespDecoder} {a : α}

/-! Each lemma peels one step off a sequence that answered: what the step was
given, and that the rest answered from the state the step left. -/

theorem slice_eq {bs : Bytes} {start stop : Nat} {f : Bytes → DecM α}
    (h : (slice bs start stop >>= f) d = .ok a d') :
    (start ≤ stop ∧ stop ≤ bs.length) ∧ f ((bs.take stop).drop start) d = .ok a d' := by
  rw [slice] at h
  split at h
  · next hle => exact ⟨hle, h⟩
  · cases h

theorem slice_bind {bs : Bytes} {start stop : Nat} {f : Bytes → DecM α}
    (h : (slice bs start stop >>= f) d = .ok a d') :
    ∃ s, s.length = stop - start ∧ f s d = .ok a d' := by
  obtain ⟨hle, h⟩ := slice_eq h
  refine ⟨_, ?_, h⟩
  rw [List.length_drop, List.length_take]
  omega

theorem advance_eq {counted taken : Nat} {f : Unit → DecM α}
    (h : (advance counted taken >>= f) d = .ok a d') :
    taken ≤ d.buf.length ∧
      f () { d with offset := d.offset + counted, buf := d.buf.drop taken } = .ok a d' := by
  by_cases hle : taken ≤ d.buf.length
  · rw [bind_of_ok (advance_ok counted hle)] at h
    exact ⟨hle, h⟩
  · simp only [advance, bind_apply, get_apply, if_pos (Nat.not_le.1 hle),
      throw_apply] at h
    cases h

theorem advance_bind {counted taken : Nat} {f : Unit → DecM α}
    (h : (advance counted taken >>= f) d = .ok a d') :
    ∃ d1, d1.buf.length + taken = d.buf.length ∧ f () d1 = .ok a d' := by
  obtain ⟨hle, h⟩ := advance_eq h
  refine ⟨_, ?_, h⟩
  simp only [List.length_drop]
  omega

theorem parseNum_eq {text : Bytes} {f : Int → DecM α}
    (h : (parseNum text >>= f) d = .ok a d') :
    ∃ i, (fromUtf8 text).bind parseI64 = some i ∧ f i d = .ok a d' := by
  rw [parseNum] at h
  cases hi : (fromUtf8 text).bind parseI64 with
  | none => rw [hi] at h; cases h
  | some i =>
      rw [hi] at h
      exact ⟨i, rfl, h⟩

/-- The numeral of the number read is no longer than the text. -/
theorem length_numeral_le {text : Bytes} {i : Int}
    (h : (fromUtf8 text).bind parseI64 = some i) :
    (asBytes (intToString i)).length ≤ text.length := by
  obtain ⟨t, ht, hparse⟩ := Option.bind_eq_some_iff.1 h
  have hval := (Option.filter_eq_some_iff.1 hparse).1
  rw [length_asBytes_ascii (isAscii_intToString i), asBytes_of_fromUtf8 ht]
  exact Nat.le_trans (length_intToString_le_of_signedValue hval)
    (length_le_length_asBytes t)

theorem usize_eq {n : Nat} {f : Nat → DecM α}
    (h : (usize n >>= f) d = .ok a d') : n < 2 ^ 64 ∧ f n d = .ok a d' := by
  rw [usize] at h
  split at h
  · next hlt => exact ⟨hlt, h⟩
  · cases h

end Peel

/-! ## Steps that begin with a line -/

/-- The buffer begins with a line that ends at `e`, and this is its text. -/
structure RespDecoder.HasLine (d : RespDecoder) (e : Nat) (text : Bytes) : Prop where
  found : findLineEnd d.buf 1 = some e
  eq : text = (d.buf.take e).drop 1

namespace RespDecoder.HasLine

variable {d : RespDecoder} {e : Nat} {text : Bytes}

theorem bound (h : d.HasLine e text) : 1 ≤ e ∧ e + 2 ≤ d.buf.length :=
  findLineEnd_bound h.found

theorem length (h : d.HasLine e text) : text.length = e - 1 := by
  have hbound := h.bound
  rw [h.eq, List.length_drop, List.length_take]
  omega

end RespDecoder.HasLine

section Line

variable {d d' : RespDecoder} {r : Option RespValue}

/-- What the steps of all kinds begin with. -/
def withLine (f : RespDecoder → Nat → Bytes → DecM (Option RespValue)) :
    DecM (Option RespValue) := do
  let d ← get
  match findLineEnd d.buf 1 with
  | none => pure none
  | some e =>
    let text ← slice d.buf 1 e
    f d e text

theorem withLine_cases {f : RespDecoder → Nat → Bytes → DecM (Option RespValue)}
    (h : withLine f d = .ok r d') :
    (findLineEnd d.buf 1 = none ∧ r = none ∧ d' = d) ∨
      ∃ e text, d.HasLine e text ∧ f d e text d = .ok r d' := by
  simp only [withLine, bind_apply, get_apply] at h
  cases he : findLineEnd d.buf 1 with
  | none =>
      rw [he] at h
      cases h
      exact Or.inl ⟨rfl, rfl, rfl⟩
  | some e =>
      rw [he] at h
      exact Or.inr ⟨e, _, ⟨he, rfl⟩, (slice_eq h).2⟩

/-- What bulk strings and arrays go on with: the null, or a count. -/
def withCount (f : RespDecoder → Nat → Nat → DecM (Option RespValue)) :
    DecM (Option RespValue) :=
  withLine fun d e text => do
    let count ← parseNum text
    if count = -1 then
      advance (e + 2 + 1) (e + 2)
      pure (some .null)
    else if count < 0 then throw (.err (.invalidLength count))
    else f d e count.toNat

theorem withCount_cases {f : RespDecoder → Nat → Nat → DecM (Option RespValue)}
    (h : withCount f d = .ok r d') :
    (findLineEnd d.buf 1 = none ∧ r = none ∧ d' = d) ∨
      ∃ e text i, d.HasLine e text ∧ (fromUtf8 text).bind parseI64 = some i ∧
        (i = -1 ∧ (do advance (e + 2 + 1) (e + 2)
                      pure (some .null) : DecM (Option RespValue)) d = .ok r d' ∨
          ∃ n : Nat, i = n ∧ f d e n d = .ok r d') := by
  rcases withLine_cases h with hnone | ⟨e, text, hline, h⟩
  · exact Or.inl hnone
  · obtain ⟨i, hi, h⟩ := parseNum_eq h
    refine Or.inr ⟨e, text, i, hline, hi, ?_⟩
    split at h
    · next hnull => exact Or.inl ⟨hnull, h⟩
    · split at h
      · cases h
      · next hpos =>
          obtain ⟨n, rfl⟩ := Int.eq_ofNat_of_zero_le (Int.not_lt.1 hpos)
          exact Or.inr ⟨n, rfl, h⟩

theorem decodeLine_eq (mk : Bytes → RespValue) :
    decodeLine mk = withLine (fun _ e text => do
      advance (e + 2 + 1) (e + 2)
      pure (some (mk text))) := rfl

theorem decodeInteger_eq :
    decodeInteger = withLine (fun _ e text => do
      let num ← parseNum text
      advance (e + 2 + 1) (e + 2)
      pure (some (.integer num))) := rfl

theorem decodeBulkString_eq :
    decodeBulkString = withCount (fun d e n => do
      let totalLen ← usize (e + 2 + n + 2)
      if d.buf.length < totalLen then pure none
      else
        let content ← slice d.buf (e + 2) (e + 2 + n)
        advance totalLen totalLen
        pure (some (.bulkString content))) := rfl

theorem decodeArray_eq (nested : DecM (Option RespValue)) :
    decodeArray nested = withCount (fun _ e n => do
      advance (e + 2 + 1) (e + 2)
      if n * respValueSize > isizeMax then throw .panic
      match ← decodeElements nested n [] with
      | some elements => pure (some (.array elements))
      | none => pure none) := rfl

end Line

/-! ## One call -/

/-- The bytes an answer stands for. -/
def answered : Option RespValue → Bytes
  | some v => encodeValue v
  | none => []

/-- Whatever the step answers, its encoding and the rest of the buffer fit in
what the buffer was. -/
def Conserves (m : DecM (Option RespValue)) : Prop :=
  ∀ d r d', m d = .ok r d' → (answered r).length + d'.buf.length ≤ d.buf.length

theorem decodeLine_conserves {mk : Bytes → RespValue}
    (hmk : ∀ s, (encodeValue (mk s)).length = s.length + 3) :
    Conserves (decodeLine mk) := by
  intro d r d' h
  rw [decodeLine_eq] at h
  rcases withLine_cases h with ⟨-, rfl, rfl⟩ | ⟨e, text, hline, h⟩
  · simp [answered]
  · obtain ⟨d1, hbuf, h⟩ := advance_bind h
    cases h
    have hlen := hline.length
    have hbound := hline.bound
    rw [answered, hmk]
    omega

theorem decodeInteger_conserves : Conserves decodeInteger := by
  intro d r d' h
  rw [decodeInteger_eq] at h
  rcases withLine_cases h with ⟨-, rfl, rfl⟩ | ⟨e, text, hline, h⟩
  · simp [answered]
  · obtain ⟨i, hi, h⟩ := parseNum_eq h
    obtain ⟨d1, hbuf, h⟩ := advance_bind h
    cases h
    have hnum := length_numeral_le hi
    have hencoded : (encodeValue (.integer i)).length
        = (asBytes (intToString i)).length + 3 := length_line _ _
    have hlen := hline.length
    have hbound := hline.bound
    rw [answered, hencoded]
    omega

theorem null_conserves {d d' : RespDecoder} {r : Option RespValue} {e : Nat} {text : Bytes}
    (hline : d.HasLine e text) (hi : (fromUtf8 text).bind parseI64 = some (-1))
    (h : (do advance (e + 2 + 1) (e + 2)
             pure (some .null) : DecM (Option RespValue)) d = .ok r d') :
    (answered r).length + d'.buf.length ≤ d.buf.length := by
  obtain ⟨d1, hbuf, h⟩ := advance_bind h
  cases h
  have hnum := length_numeral_le hi
  have hnull : (answered (some .null)).length
      = (asBytes (intToString (-1))).length + 3 := by decide
  have hlen := hline.length
  have hbound := hline.bound
  omega

theorem decodeBulkString_conserves : Conserves decodeBulkString := by
  intro d r d' h
  rw [decodeBulkString_eq] at h
  rcases withCount_cases h with
    ⟨-, rfl, rfl⟩ | ⟨e, text, i, hline, hi, ⟨rfl, h⟩ | ⟨n, rfl, h⟩⟩
  · simp [answered]
  · exact null_conserves hline hi h
  · have h := (usize_eq h).2
    split at h
    · cases h
      simp [answered]
    · obtain ⟨content, hclen, h⟩ := slice_bind h
      obtain ⟨d1, hbuf, h⟩ := advance_bind h
      cases h
      have hn : content.length = n := by simpa using hclen
      have hnum : (asBytes (natToString n)).length ≤ text.length := length_numeral_le hi
      have henc : (answered (some (.bulkString content))).length
          = (asBytes (natToString n)).length + n + 5 := by
        simp only [answered, encodeValue, crlf, List.length_append,
          List.length_cons, List.length_nil, hn]
        omega
      have hlen := hline.length
      have hbound := hline.bound
      rw [henc]
      omega

/-! ## Elements -/

theorem decodeElements_conserves {nested : DecM (Option RespValue)}
    (hnested : Conserves nested) {n : Nat} {done es : List RespValue}
    {d d' : RespDecoder} (h : decodeElements nested n done d = .ok (some es) d') :
    ∃ new, es = done ++ new ∧ new.length = n ∧
      (encodeBatch new).length + d'.buf.length ≤ d.buf.length := by
  induction n generalizing done d with
  | zero =>
      cases h
      exact ⟨[], by simp, rfl, by simp⟩
  | succ n ih =>
      rw [decodeElements] at h
      obtain ⟨r, d1, hr, h⟩ := bind_eq_ok.1 h
      have hfirst := hnested d r d1 hr
      cases r with
      | none => cases h
      | some v =>
          obtain ⟨new, rfl, hnew, hrest⟩ := ih h
          refine ⟨v :: new, by simp, by simp [hnew], ?_⟩
          rw [encodeBatch_cons, List.length_append]
          simp only [answered] at hfirst
          omega

/-- What every element keeps of the decoder, all of them keep. -/
theorem decodeElements_keeps {R : RespDecoder → RespDecoder → Prop}
    (hrefl : ∀ d, R d d) (htrans : ∀ d d1 d', R d d1 → R d1 d' → R d d')
    {nested : DecM (Option RespValue)} (hnested : ∀ d r d', nested d = .ok r d' → R d d')
    {n : Nat} {done : List RespValue} {r : Option (List RespValue)} {d d' : RespDecoder}
    (h : decodeElements nested n done d = .ok r d') : R d d' := by
  induction n generalizing done d with
  | zero => cases h; exact hrefl _
  | succ n ih =>
      rw [decodeElements] at h
      obtain ⟨r1, d1, hr, h⟩ := bind_eq_ok.1 h
      have hfirst := hnested d r1 d1 hr
      cases r1 with
      | none => cases h; exact hfirst
      | some v => exact htrans d d1 d' hfirst (ih h)

theorem decodeElements_length_le {nested : DecM (Option RespValue)}
    (hnested : Conserves nested) {n : Nat} {done : List RespValue}
    {r : Option (List RespValue)} {d d' : RespDecoder}
    (h : decodeElements nested n done d = .ok r d') :
    d'.buf.length ≤ d.buf.length :=
  decodeElements_keeps (R := fun d d' => d'.buf.length ≤ d.buf.length)
    (fun _ => Nat.le_refl _) (fun _ _ _ h h' => Nat.le_trans h' h)
    (fun d r d' hd => Nat.le_of_add_left_le (hnested d r d' hd)) h

theorem decodeArray_conserves {nested : DecM (Option RespValue)}
    (hnested : Conserves nested) : Conserves (decodeArray nested) := by
  intro d r d' h
  rw [decodeArray_eq] at h
  rcases withCount_cases h with
    ⟨-, rfl, rfl⟩ | ⟨e, text, i, hline, hi, ⟨rfl, h⟩ | ⟨n, rfl, h⟩⟩
  · simp [answered]
  · exact null_conserves hline hi h
  · obtain ⟨d1, hbuf, h⟩ := advance_bind h
    split at h
    · obtain ⟨u, d3, hpanic, -⟩ := bind_eq_ok.1 h
      cases hpanic
    · obtain ⟨r1, d3, hes, h⟩ := bind_eq_ok.1 h
      have hshrink := decodeElements_length_le hnested hes
      cases r1 with
      | none =>
          cases h
          simp only [answered, List.length_nil]
          omega
      | some es =>
          cases h
          obtain ⟨new, heq, hnew, hall⟩ := decodeElements_conserves hnested hes
          obtain rfl : es = new := heq
          have hnum : (asBytes (natToString n)).length ≤ text.length := length_numeral_le hi
          have henc : (answered (some (.array es))).length
              = (asBytes (natToString n)).length + 3 + (encodeBatch es).length := by
            rw [answered, encodeValue, encodeElements_eq, hnew, List.length_append]
            simp only [crlf, List.length_append, List.length_cons, List.length_nil]
          have hlen := hline.length
          have hbound := hline.bound
          rw [henc]
          omega

theorem decodeMarked_conserves {nested : DecM (Option RespValue)}
    (hnested : Conserves nested) (m : UInt8) :
    Conserves (decodeMarked nested m) := by
  rw [decodeMarked]
  split
  · exact decodeLine_conserves fun s => length_line _ s
  split
  · exact decodeLine_conserves fun s => length_line _ s
  split
  · exact decodeInteger_conserves
  split
  · exact decodeBulkString_conserves
  split
  · exact decodeArray_conserves hnested
  · intro d r d' h
    cases h

theorem tryDecode_conserves (fuel : Nat) : Conserves (tryDecode fuel) := by
  induction fuel with
  | zero => intro d r d' h; cases h
  | succ fuel ih =>
      intro d r d' h
      simp only [tryDecode, bind_apply, get_apply] at h
      cases hbuf : d.buf with
      | nil =>
          rw [hbuf] at h
          cases h
          simp [answered, hbuf]
      | cons b bs =>
          rw [← hbuf]
          rw [hbuf] at h
          exact decodeMarked_conserves ih b d r d' h

theorem decode_conserves : Conserves decode := by
  intro d r d' h
  rw [decode] at h
  split at h
  · cases h
    simp [answered]
  · split at h
    · cases h
    · exact tryDecode_conserves _ d r d' h

/-! ## Draining and feeding -/

theorem drain_conserves {fuel : Nat} {d d' : RespDecoder} {vs : List RespValue}
    (h : drain fuel d = .ok vs d') :
    (encodeBatch vs).length + d'.buf.length ≤ d.buf.length := by
  induction fuel generalizing d vs with
  | zero => cases h
  | succ fuel ih =>
      rw [drain] at h
      obtain ⟨r, d1, hr, h⟩ := bind_eq_ok.1 h
      have hfirst := decode_conserves d r d1 hr
      cases r with
      | none => cases h; simpa [answered] using hfirst
      | some v =>
          obtain ⟨ws, d2, hws, h⟩ := bind_eq_ok.1 h
          cases h
          have hrest := ih hws
          rw [encodeBatch_cons, List.length_append]
          simp only [answered] at hfirst
          omega

theorem feed_eq_ok {data : Bytes} {d d' : RespDecoder}
    (h : feed data d = .ok () d') : d'.buf.length = d.buf.length + data.length := by
  by_cases hle : d.buf.length + data.length ≤ d.maxBufferSize
  · rw [feed_ok hle] at h
    cases h
    exact List.length_append
  · simp only [feed, bind_apply, get_apply, if_pos (Nat.not_le.1 hle),
      throw_apply] at h
    cases h

theorem feedAll_conserves {chunks : List Bytes} {d d' : RespDecoder}
    {vs : List RespValue} (h : feedAll chunks d = .ok vs d') :
    (encodeBatch vs).length + d'.buf.length
      ≤ d.buf.length + chunks.flatten.length := by
  induction chunks generalizing d vs with
  | nil => cases h; simp
  | cons c cs ih =>
      rw [feedAll] at h
      obtain ⟨u, d1, hfeed, h⟩ := bind_eq_ok.1 h
      obtain ⟨vs1, d2, hdrain, h⟩ := bind_eq_ok.1 h
      obtain ⟨ws, d3, hrest, h⟩ := bind_eq_ok.1 h
      cases h
      have h1 := feed_eq_ok hfeed
      have h2 := drain_conserves hdrain
      have h3 := ih hrest
      rw [encodeBatch_append, List.length_append, List.flatten_cons,
        List.length_append]
      omega

end RedisHaTool.Resp
