import RedisHaTool.Proofs.RespConserve

/-!
# Feeding a stream in chunks

Between two chunks the buffer holds the start of the next value. Draining must
then answer nothing and leave those bytes where they are, so that the next chunk
completes them, and for every value but an array it does: a line that has not
ended and a bulk string that is not all there are left alone. `decode_array`
advances past its count line first and looks for the elements afterwards, so
once the count line is in the buffer an array that is cut short loses it.

That is the only way to lose anything, and it cannot be made up for later: the
bytes of the count line were taken and no value answered for them, and no value
is longer than what it was read from. So feeding in chunks answers the values
exactly when no cut falls inside a top-level array after its count line.
-/

namespace RedisHaTool.Resp

open Lib

/-! ## A line that has not ended -/

theorem findCrlf_append {bs : Bytes} {k : Nat} (h : findCrlf bs = some k)
    (rest : Bytes) : findCrlf (bs ++ rest) = some k := by
  induction bs generalizing k with
  | nil => cases h
  | cons a bs ih =>
      cases bs with
      | nil => cases h
      | cons b bs =>
          rw [findCrlf] at h
          rw [List.cons_append, List.cons_append, findCrlf]
          split at h
          · next hpair => rw [if_pos hpair, h]
          · next hpair =>
              obtain ⟨j, hj, rfl⟩ := Option.map_eq_some_iff.1 h
              have := ih hj
              rw [List.cons_append] at this
              rw [if_neg hpair, this]
              rfl

/-- A first line that is not all there has no end to be found. -/
theorem findLineEnd_short {m : UInt8} {text p t rest : Bytes} (h : NoCrlf text)
    (hp : p ++ t = line m text ++ rest) (hlen : p.length < text.length + 3) :
    findLineEnd p 1 = none := by
  cases p with
  | nil => rfl
  | cons b p =>
      have hp' : p ++ t = text ++ crlf ++ rest := by
        have := (List.cons.inj hp).2
        simpa using this
      cases hk : findCrlf p with
      | none => simp [findLineEnd, hk]
      | some k =>
          have hfull := findCrlf_append hk t
          rw [hp', findCrlf_line h] at hfull
          obtain rfl := Option.some.inj hfull
          have := findCrlf_bound hk
          simp only [List.length_cons] at hlen
          omega

/-! ## A value that is not all there -/

/-- On a buffer that holds just `p` the step answers nothing and changes
nothing. -/
def Waits {α : Type} (m : DecM (Option α)) (p : Bytes) : Prop :=
  ∀ d : RespDecoder, d.buf = p → m d = .ok none d

/-- On a buffer that holds just `p` the step answers nothing, and what it leaves
in the buffer is no longer than `p`. -/
def Starves {α : Type} (m : DecM (Option α)) (p : Bytes) : Prop :=
  ∀ d : RespDecoder, d.buf = p →
    ∃ d', m d = .ok none d' ∧ d'.buf.length ≤ p.length

theorem Waits.starves {α : Type} {m : DecM (Option α)} {p : Bytes}
    (h : Waits m p) : Starves m p :=
  fun d hd => ⟨d, h d hd, Nat.le_of_eq (congrArg List.length hd)⟩

/-- On a buffer that holds just `p` the step answers nothing and leaves less in
the buffer than there was. -/
def Drops {α : Type} (m : DecM (Option α)) (p : Bytes) : Prop :=
  ∀ d : RespDecoder, d.buf = p →
    ∃ d', m d = .ok none d' ∧ d'.buf.length < p.length

theorem Drops.starves {α : Type} {m : DecM (Option α)} {p : Bytes}
    (h : Drops m p) : Starves m p := by
  intro d hd
  obtain ⟨d', hm, hlt⟩ := h d hd
  exact ⟨d', hm, Nat.le_of_lt hlt⟩

theorem length_lt_of_append {p t bs : Bytes} (hp : p ++ t = bs) (ht : t ≠ []) :
    p.length < bs.length := by
  have := List.length_pos_of_ne_nil ht
  rw [← hp, List.length_append]
  omega

theorem decodeLine_waits {mk : Bytes → RespValue} {m : UInt8} {s p t : Bytes}
    (h : NoCrlf s) (hp : p ++ t = line m s) (ht : t ≠ []) :
    Waits (decodeLine mk) p := by
  intro d hd
  have hlen := length_lt_of_append hp ht
  rw [length_line] at hlen
  have hend : findLineEnd d.buf 1 = none :=
    hd ▸ findLineEnd_short h (by rw [hp, List.append_nil]) hlen
  simp only [decodeLine, bind_apply, get_apply, hend, pure_apply]

theorem decodeInteger_waits {m : UInt8} {i : Int} {p t : Bytes}
    (hp : p ++ t = line m (asBytes (intToString i))) (ht : t ≠ []) :
    Waits decodeInteger p := by
  intro d hd
  have hlen := length_lt_of_append hp ht
  rw [length_line] at hlen
  have hend : findLineEnd d.buf 1 = none :=
    hd ▸ findLineEnd_short (noCrlf_intToString i) (by rw [hp, List.append_nil]) hlen
  simp only [decodeInteger, bind_apply, get_apply, hend, pure_apply]

theorem decodeBulkString_waits_line {m : UInt8} {text p t rest : Bytes}
    (h : NoCrlf text) (hp : p ++ t = line m text ++ rest)
    (hlen : p.length < text.length + 3) : Waits decodeBulkString p := by
  intro d hd
  have hend : findLineEnd d.buf 1 = none := hd ▸ findLineEnd_short h hp hlen
  simp only [decodeBulkString, bind_apply, get_apply, hend, pure_apply]

/-- Cutting a list that starts with `bs` either cuts `bs` or comes after it. -/
theorem cut_cases {p t bs rest : Bytes} (hp : p ++ t = bs ++ rest) :
    p.length < bs.length ∨ ∃ q, p = bs ++ q ∧ q ++ t = rest := by
  rcases Nat.lt_or_ge p.length bs.length with hlt | hge
  · exact .inl hlt
  · obtain ⟨q, rfl⟩ : bs <+: p :=
      List.prefix_of_prefix_length_le (hp ▸ List.prefix_append bs rest)
        (List.prefix_append p t) hge
    rw [List.append_assoc] at hp
    exact .inr ⟨q, rfl, List.append_cancel_left hp⟩

theorem decodeBulkString_waits {m : UInt8} {s p t : Bytes}
    (h : s.length ≤ isizeMax)
    (hp : p ++ t = line m (asBytes (natToString s.length)) ++ (s ++ crlf))
    (ht : t ≠ []) : Waits decodeBulkString p := by
  rcases cut_cases hp with hlt | ⟨q, rfl, hq⟩
  · rw [length_line] at hlt
    exact decodeBulkString_waits_line (noCrlf_natToString _) hp hlt
  · intro d hd
    have hqlen := length_lt_of_append hq ht
    generalize htext : asBytes (natToString s.length) = text at hd
    have hline : findLineEnd d.buf 1 = some (text.length + 1) := by
      rw [hd, ← htext]
      exact findLineEnd_line (noCrlf_natToString _) _
    have hword : slice d.buf 1 (text.length + 1) d = .ok text d :=
      hd ▸ slice_line m text q d
    have hnum : parseNum text d = .ok (s.length : Int) d :=
      htext ▸ parseNum_natToString h d
    have htotal : text.length + 1 + 2 + s.length + 2 < 2 ^ 64 := by
      have := length_natToString_le_twenty h
      rw [← htext, length_asBytes_ascii (isAscii_natToString _)]
      simp only [isizeMax] at h
      omega
    have hshort : d.buf.length < text.length + 1 + 2 + s.length + 2 := by
      rw [hd, List.length_append, length_line]
      simp only [List.length_append, crlf, List.length_cons, List.length_nil] at hqlen
      omega
    simp only [decodeBulkString, bind_apply, get_apply, hline, hword, hnum]
    rw [if_neg (by omega), if_neg (by omega), Int.toNat_natCast]
    simp only [usize, if_pos htotal, bind_apply, pure_apply, if_pos hshort]

theorem decodeArray_waits {nested : DecM (Option RespValue)}
    {m : UInt8} {text p t rest : Bytes} (h : NoCrlf text)
    (hp : p ++ t = line m text ++ rest) (hlen : p.length < text.length + 3) :
    Waits (decodeArray nested) p := by
  intro d hd
  have hend : findLineEnd d.buf 1 = none := hd ▸ findLineEnd_short h hp hlen
  simp only [decodeArray, bind_apply, get_apply, hend, pure_apply]

/-- The count line is there, the elements are not: it is gone and nothing is
answered. -/
theorem decodeArray_drops {nested : DecM (Option RespValue)}
    {es : List RespValue} {q : Bytes}
    (hcount : es.length * respValueSize ≤ isizeMax)
    (hq : Starves (decodeElements nested es.length []) q) :
    Drops (decodeArray nested)
      (line '*'.toUInt8 (asBytes (natToString es.length)) ++ q) := by
  intro d hd
  have hlen : es.length ≤ isizeMax :=
    Nat.le_trans (Nat.le_mul_of_pos_right _ (by decide)) hcount
  have hadvance := advance_takes
    ((asBytes (natToString es.length)).length + 1 + 2 + 1)
    (line '*'.toUInt8 (asBytes (natToString es.length)))
  rw [length_line] at hadvance
  obtain ⟨d1, h1, hbuf1, -⟩ := hadvance d q hd
  obtain ⟨d2, h2, hle⟩ := hq d1 hbuf1
  refine ⟨d2, ?_, ?_⟩
  · simp only [decodeArray, bind_apply, get_apply]
    rw [hd, findLineEnd_line (noCrlf_natToString _)]
    simp only [slice_line, parseNum_natToString hlen, bind_apply]
    rw [if_neg (by omega), if_neg (by omega), Int.toNat_natCast]
    simp only [bind_apply, h1, if_neg (Nat.not_lt.2 hcount), h2, pure_apply]
  · rw [List.length_append, length_line]
    omega

/-- The position falls after the count line of an array. -/
def pastCountLine : RespValue → Nat → Bool
  | .array es, n => (line '*'.toUInt8 (asBytes (natToString es.length))).length ≤ n
  | _, _ => false

theorem tryDecode_waits_nil {fuel : Nat} (hfuel : 0 < fuel) :
    Waits (tryDecode fuel) [] := by
  obtain ⟨k, rfl⟩ : ∃ k, fuel = k + 1 := ⟨fuel - 1, by omega⟩
  intro d hd
  simp only [tryDecode, bind_apply, get_apply, hd, pure_apply]

/-- On a buffer that starts with the marker `m`, `try_decode` is the decoder the
marker stands for. -/
theorem tryDecode_cons {fuel : Nat} {m : UInt8} {p : Bytes} {d : RespDecoder}
    (hd : d.buf = m :: p) :
    tryDecode (fuel + 1) d = decodeMarked (tryDecode fuel) m d := by
  simp only [tryDecode, bind_apply, get_apply, hd]

theorem tryDecode_waits_of_marked {fuel : Nat} {m : UInt8} {p t bs : Bytes}
    (hp : p ++ t = m :: bs) (h : p ≠ [] → Waits (decodeMarked (tryDecode fuel) m) p) :
    Waits (tryDecode (fuel + 1)) p := by
  cases p with
  | nil => exact tryDecode_waits_nil (Nat.succ_pos fuel)
  | cons b p =>
      obtain rfl : b = m := (List.cons.inj hp).1
      intro d hd
      rw [tryDecode_cons hd]
      exact h (List.cons_ne_nil b p) d hd

mutual

/-- A value that is not all there is waited for, unless it is an array whose
count line is: that is dropped. -/
theorem tryDecode_partial (v : RespValue) (hsafe : v.All LineSafe)
    (hmem : v.All InMemory) {p t : Bytes} (hp : p ++ t = encodeValue v)
    (ht : t ≠ []) (fuel : Nat) (hfuel : p.length < fuel) :
    if pastCountLine v p.length then Drops (tryDecode fuel) p
    else Waits (tryDecode fuel) p := by
  obtain ⟨fuel, rfl⟩ : ∃ k, fuel = k + 1 := ⟨fuel - 1, by omega⟩
  cases v with
  | simpleString s =>
      exact tryDecode_waits_of_marked hp fun _ =>
        decodeLine_waits (m := '+'.toUInt8) hsafe hp ht
  | error e =>
      exact tryDecode_waits_of_marked hp fun _ =>
        decodeLine_waits (m := '-'.toUInt8) hsafe hp ht
  | integer i =>
      exact tryDecode_waits_of_marked hp fun _ =>
        decodeInteger_waits (m := ':'.toUInt8) hp ht
  | bulkString s =>
      rw [encodeValue, List.append_assoc] at hp
      exact tryDecode_waits_of_marked hp fun _ =>
        decodeBulkString_waits (m := '$'.toUInt8) hmem hp ht
  | null =>
      have hlen := length_lt_of_append hp ht
      have hline : encodeValue .null
          = line '$'.toUInt8 (asBytes (intToString (-1))) ++ [] := by decide
      exact tryDecode_waits_of_marked hp fun _ =>
        decodeBulkString_waits_line (noCrlf_intToString (-1)) (hp.trans hline) hlen
  | array es =>
      split
      · next hpast =>
          have hle := of_decide_eq_true hpast
          have hcut : p ++ t = line '*'.toUInt8 (asBytes (natToString es.length))
              ++ encodeElements es := hp
          rcases cut_cases hcut with hlt | ⟨q, rfl, hq⟩
          · omega
          · have hes := decodeElements_partial es hsafe.2 hmem.2 hq ht fuel
              (by rw [List.length_append, length_line] at hfuel; omega) []
            intro d hd
            rw [tryDecode_cons (m := '*'.toUInt8) hd]
            exact decodeArray_drops hmem.1 hes d hd
      · next hpast =>
          have hlt := of_decide_eq_false (eq_false_of_ne_true hpast)
          rw [length_line] at hlt
          exact tryDecode_waits_of_marked hp fun _ =>
            decodeArray_waits (noCrlf_natToString _) hp (Nat.not_le.1 hlt)

/-- Some element is the first that is not all there, and the loop stops at
it. -/
theorem decodeElements_partial (es : List RespValue)
    (hsafe : RespValue.AllIn LineSafe es) (hmem : RespValue.AllIn InMemory es)
    {p t : Bytes} (hp : p ++ t = encodeElements es) (ht : t ≠ []) (fuel : Nat)
    (hfuel : p.length < fuel) (done : List RespValue) :
    Starves (decodeElements (tryDecode fuel) es.length done) p := by
  cases es with
  | nil =>
      rw [encodeElements] at hp
      exact absurd (List.append_eq_nil_iff.1 hp).2 ht
  | cons e es =>
      rw [encodeElements] at hp
      rw [List.length_cons, decodeElements]
      intro d hd
      rcases cut_cases hp with hlt | ⟨q, rfl, hq⟩
      · obtain ⟨u, hu⟩ : p <+: encodeValue e :=
          List.prefix_of_prefix_length_le (hp ▸ List.prefix_append p t)
            (List.prefix_append _ _) (Nat.le_of_lt hlt)
        have hu0 : u ≠ [] := by
          rintro rfl
          rw [← hu, List.append_nil] at hlt
          exact Nat.lt_irrefl _ hlt
        have hfirst := tryDecode_partial e hsafe.1 hmem.1 hu hu0 fuel hfuel
        have hstarves : Starves (tryDecode fuel) p := by
          split at hfirst
          · exact hfirst.starves
          · exact hfirst.starves
        obtain ⟨d', h', hle⟩ := hstarves d hd
        exact ⟨d', by rw [bind_of_ok h']; rfl, hle⟩
      · rw [List.length_append] at hfuel
        obtain ⟨d1, h1, hbuf1, -⟩ :=
          tryDecode_takes e hsafe.1 hmem.1 fuel (by omega) d q hd
        obtain ⟨d', h', hle⟩ := decodeElements_partial es hsafe.2 hmem.2 hq ht
          fuel (by omega) (done ++ [e]) d1 hbuf1
        refine ⟨d', by rw [bind_of_ok h1]; exact h', ?_⟩
        rw [List.length_append]
        omega

end

theorem decode_partial {v : RespValue} (hsafe : v.All LineSafe)
    (hmem : v.All InMemory) {p t : Bytes} (hp : p ++ t = encodeValue v)
    (ht : t ≠ []) :
    if pastCountLine v p.length then Drops decode p else Waits decode p := by
  have h := tryDecode_partial v hsafe hmem hp ht _ (Nat.lt_succ_self p.length)
  have hok : ∀ {d d' : RespDecoder}, d.buf = p →
      tryDecode (p.length + 1) d = .ok none d' → decode d = .ok none d' := by
    intro d d' hd htry
    by_cases hne : d.buf = []
    · have hwait := tryDecode_waits_nil (Nat.succ_pos p.length) d hne
      rw [hwait] at htry
      cases htry
      exact decode_nil hne
    · exact decode_of_ok hne (hd ▸ htry)
  split at h
  · next hpast =>
      rw [if_pos hpast]
      intro d hd
      obtain ⟨d', htry, hlt⟩ := h d hd
      exact ⟨d', hok hd htry, hlt⟩
  · next hpast =>
      rw [if_neg hpast]
      exact fun d hd => hok hd (h d hd)

/-! ## Cutting a stream of values -/

/-- The position falls inside a top-level array of the stream, after the array's
count line. -/
def cutInsideArray : List RespValue → Nat → Bool
  | [], _ => false
  | v :: vs, n =>
      if n < (encodeValue v).length then pastCountLine v n
      else cutInsideArray vs (n - (encodeValue v).length)

theorem cutInsideArray_append (done rest : List RespValue) (n : Nat) :
    cutInsideArray (done ++ rest) ((encodeBatch done).length + n)
      = cutInsideArray rest n := by
  induction done with
  | nil => simp
  | cons v done ih =>
      rw [encodeBatch_cons, List.length_append, List.cons_append, cutInsideArray,
        if_neg (by omega), Nat.add_assoc, Nat.add_sub_cancel_left, ih]

/-- `p` is the start of the first of the values, and not all of it; of no values
it is empty. -/
def Pending (vs : List RespValue) (p : Bytes) : Prop :=
  match vs with
  | [] => p = []
  | v :: _ => ∃ t, p ++ t = encodeValue v ∧ t ≠ []

/-- Any prefix of a stream is whole values and then the start of the next. -/
theorem exists_pending {vs : List RespValue} {p t : Bytes}
    (hp : p ++ t = encodeBatch vs) :
    ∃ done rest q, vs = done ++ rest ∧ p = encodeBatch done ++ q ∧
      q ++ t = encodeBatch rest ∧ Pending rest q := by
  induction vs generalizing p with
  | nil =>
      obtain ⟨rfl, rfl⟩ := List.append_eq_nil_iff.1 hp
      exact ⟨[], [], [], rfl, rfl, rfl, rfl⟩
  | cons v vs ih =>
      rw [encodeBatch_cons] at hp
      rcases cut_cases hp with hlt | ⟨p', rfl, hp'⟩
      · obtain ⟨u, hu⟩ : p <+: encodeValue v :=
          List.prefix_of_prefix_length_le (hp ▸ List.prefix_append p t)
            (List.prefix_append _ _) (Nat.le_of_lt hlt)
        refine ⟨[], v :: vs, p, rfl, rfl, hp, u, hu, ?_⟩
        rintro rfl
        rw [← hu, List.append_nil] at hlt
        exact Nat.lt_irrefl _ hlt
      · obtain ⟨done, rest, q, rfl, rfl, hq, hpend⟩ := ih hp'
        exact ⟨v :: done, rest, q, rfl, by rw [encodeBatch_cons, List.append_assoc],
          hq, hpend⟩

/-- Draining whole values and the start of the next: the values come out, and
what stays is that start, or less of it if it is past an array's count line. -/
theorem decodeAll_pending {done rest : List RespValue} {q : Bytes}
    (hsafe : ∀ v ∈ done ++ rest, v.All LineSafe)
    (hmem : ∀ v ∈ done ++ rest, v.All InMemory) (hq : Pending rest q)
    {d : RespDecoder} (hd : d.buf = encodeBatch done ++ q) :
    ∃ d', decodeAll d = .ok done d' ∧
      if cutInsideArray rest q.length then d'.buf.length < q.length
      else d'.buf = q ∧ d'.maxBufferSize = d.maxBufferSize := by
  obtain ⟨k, hk⟩ : ∃ k, d.buf.length + 1 = done.length + (k + 1) := by
    have := length_le_encodeBatch done
    refine ⟨d.buf.length - done.length, ?_⟩
    rw [hd, List.length_append]
    omega
  obtain ⟨d1, hbuf1, hmax1, hdrain⟩ := drain_encodeBatch
    (fun v hv => hsafe v (List.mem_append_left rest hv))
    (fun v hv => hmem v (List.mem_append_left rest hv)) hd (k + 1)
  have hend : ∀ d', decode d1 = .ok none d' → decodeAll d = .ok done d' := by
    intro d' h
    have hstop : drain (k + 1) d1 = .ok [] d' := by
      rw [drain, bind_of_ok h]
      rfl
    rw [decodeAll, hk, hdrain [] d' hstop, List.append_nil]
  cases rest with
  | nil =>
      obtain rfl : q = [] := hq
      exact ⟨d1, hend d1 (decode_nil hbuf1), hbuf1, hmax1⟩
  | cons v rest =>
      obtain ⟨t, hv, ht⟩ := hq
      have hmemv : v ∈ done ++ v :: rest := by simp
      have h := decode_partial (hsafe v hmemv) (hmem v hmemv) hv ht
      have hlt := length_lt_of_append hv ht
      rw [cutInsideArray, if_pos hlt]
      split at h
      · next hpast =>
          obtain ⟨d', hdec, hless⟩ := h d1 hbuf1
          exact ⟨d', hend d' hdec, by rw [if_pos hpast]; exact hless⟩
      · next hpast =>
          exact ⟨d1, hend d1 (h d1 hbuf1), by rw [if_neg hpast]; exact ⟨hbuf1, hmax1⟩⟩

/-! ## Any way to cut it -/

/-- Bytes that fall short of the next value are not the encoding of any. -/
theorem eq_nil_of_pending {vs : List RespValue} {buf : Bytes} (hpend : Pending vs buf)
    (hbuf : buf = encodeBatch vs) : vs = [] := by
  cases vs with
  | nil => rfl
  | cons v vs =>
      obtain ⟨t, hv, ht⟩ := hpend
      have hlt := length_lt_of_append hv ht
      have hlen := congrArg List.length hbuf
      rw [encodeBatch_cons, List.length_append] at hlen
      omega

/-- What the first chunk has answered stands in front of what the others do. -/
theorem feedAll_cons_eq_ok {c : Bytes} {cs : List Bytes} {done ws : List RespValue}
    {d d₁ d' e : RespDecoder} (hfeed : feed c d = .ok () d₁)
    (hdecode : decodeAll d₁ = .ok done d') :
    feedAll (c :: cs) d = .ok ws e ↔ ∃ us, ws = done ++ us ∧ feedAll cs d' = .ok us e := by
  rw [feedAll, bind_of_ok hfeed, bind_of_ok hdecode]
  constructor
  · intro h
    obtain ⟨us, e', hus, h⟩ := bind_eq_ok.1 h
    cases h
    exact ⟨us, rfl, hus⟩
  · rintro ⟨us, rfl, hus⟩
    rw [bind_of_ok hus]
    rfl

/-- From a buffer that waits for the rest of the stream: all the values that are
still to come are answered if and only if no cut drops a count line. -/
theorem feedAll_pending {vs : List RespValue} {chunks : List Bytes}
    (hsafe : ∀ v ∈ vs, v.All LineSafe) (hmem : ∀ v ∈ vs, v.All InMemory)
    {d : RespDecoder} (hpend : Pending vs d.buf)
    (hrest : d.buf ++ chunks.flatten = encodeBatch vs)
    (hfit : (encodeBatch vs).length ≤ d.maxBufferSize)
    (hcut : cutInsideArray vs d.buf.length = false) :
    (∃ d', feedAll chunks d = .ok vs d') ↔
      ∀ n, cutInsideArray vs (d.buf.length + (chunks.take n).flatten.length) = false := by
  induction chunks generalizing vs d with
  | nil =>
      rw [List.flatten_nil, List.append_nil] at hrest
      obtain rfl := eq_nil_of_pending hpend hrest
      exact ⟨fun _ _ => rfl, fun _ => ⟨d, rfl⟩⟩
  | cons c cs ih =>
      rw [List.flatten_cons, ← List.append_assoc] at hrest
      obtain ⟨done, rest, q, rfl, hp, hq, hpend'⟩ := exists_pending hrest
      have hfeed : feed c d = .ok () { d with buf := d.buf ++ c } := by
        refine feed_ok (Nat.le_trans ?_ hfit)
        rw [← hrest]
        simp only [List.length_append]
        omega
      obtain ⟨d', hdecode, hcase⟩ :=
        decodeAll_pending (d := { d with buf := d.buf ++ c }) hsafe hmem hpend' hp
      have hpos : d.buf.length + c.length = (encodeBatch done).length + q.length := by
        rw [← List.length_append, hp, List.length_append]
      have hrun : ∀ ws e, feedAll (c :: cs) d = .ok ws e ↔
          ∃ us, ws = done ++ us ∧ feedAll cs d' = .ok us e :=
        fun ws e => feedAll_cons_eq_ok hfeed hdecode
      have htake : ∀ n, cutInsideArray (done ++ rest)
            (d.buf.length + ((c :: cs).take (n + 1)).flatten.length)
          = cutInsideArray rest (q.length + (cs.take n).flatten.length) := by
        intro n
        rw [List.take_succ_cons, List.flatten_cons, List.length_append,
          ← Nat.add_assoc, hpos, Nat.add_assoc, cutInsideArray_append]
      split at hcase
      · next hbad =>
          -- The count line is lost, and with it the chance to answer everything.
          constructor
          · rintro ⟨e, h⟩
            obtain ⟨us, hus, h⟩ := (hrun _ e).1 h
            obtain rfl := List.append_cancel_left hus
            have hless := feedAll_conserves h
            have hall := congrArg List.length hq
            rw [List.length_append] at hall
            omega
          · intro h
            have h1 := htake 0
            rw [h 1, List.take_zero, List.flatten_nil, List.length_nil,
              Nat.add_zero, hbad] at h1
            cases h1
      · next hgood =>
          obtain ⟨hbuf', hmax'⟩ := hcase
          have hsub := ih (d := d')
            (fun v hv => hsafe v (List.mem_append_right done hv))
            (fun v hv => hmem v (List.mem_append_right done hv))
            (hbuf' ▸ hpend') (hbuf' ▸ hq)
            (by
              rw [hmax']
              refine Nat.le_trans ?_ hfit
              rw [encodeBatch_append, List.length_append]
              omega)
            (by rw [hbuf']; exact eq_false_of_ne_true hgood)
          rw [hbuf'] at hsub
          constructor
          · rintro ⟨e, h⟩ n
            obtain ⟨us, hus, h⟩ := (hrun _ e).1 h
            obtain rfl := List.append_cancel_left hus
            cases n with
            | zero => simpa using hcut
            | succ n => rw [htake]; exact hsub.1 ⟨e, h⟩ n
          · intro h
            obtain ⟨e, he⟩ := hsub.2 fun n => by rw [← htake]; exact h (n + 1)
            exact ⟨e, (hrun _ e).2 ⟨rest, rfl, he⟩⟩

/-- Feeding the encoding of some values chunk by chunk answers exactly those
values if and only if no cut falls inside a top-level array after its count
line. -/
theorem feedAll_encodeBatch_iff (vs : List HeldValue) (chunks : List Bytes)
    (capacity maxBufferSize : Nat) (hsafe : ∀ v ∈ values vs, v.All LineSafe)
    (hchunks : chunks.flatten = encodeBatch (values vs))
    (hfit : (encodeBatch (values vs)).length ≤ maxBufferSize) :
    (∃ d, feedAll chunks (RespDecoder.withCapacity capacity maxBufferSize)
        = .ok (values vs) d) ↔
      ∀ n, cutInsideArray (values vs) (chunks.take n).flatten.length = false := by
  have hmem : ∀ v ∈ values vs, v.All InMemory := fun v => inMemory_of_mem_values
  generalize values vs = ws at *
  have hpend : Pending ws [] := by
    cases ws with
    | nil => rfl
    | cons v ws => exact ⟨encodeValue v, rfl, encodeValue_ne_nil v⟩
  have hzero : cutInsideArray ws 0 = false := by
    cases ws with
    | nil => rfl
    | cons v ws =>
        rw [cutInsideArray, if_pos (length_encodeValue_pos v)]
        cases v <;> rfl
  have h := feedAll_pending (d := RespDecoder.withCapacity capacity maxBufferSize)
    hsafe hmem hpend hchunks hfit hzero
  simpa [RespDecoder.withCapacity] using h

/-- One array of one integer. -/
def oneElement : List HeldValue := [⟨.array [.integer 1], by decide⟩]

theorem feedAll_encodeBatch_iff_oneElement :
    (∃ d, feedAll [asBytes "*1".toList, asBytes "\r\n:1\r\n".toList]
        (RespDecoder.withCapacity 0 8) = .ok (values oneElement) d) ↔
      ∀ n, cutInsideArray (values oneElement)
        (([asBytes "*1".toList, asBytes "\r\n:1\r\n".toList]).take n).flatten.length
          = false :=
  feedAll_encodeBatch_iff oneElement _ 0 8 (by decide) (by decide) (by decide)

/-- A cut right after the count line: the element comes out by itself. -/
theorem feedAll_cut_after_count_line :
    ¬ ∀ (vs : List HeldValue) (chunks : List Bytes),
      (∀ v ∈ values vs, v.All LineSafe) →
      chunks.flatten = encodeBatch (values vs) →
      (encodeBatch (values vs)).length ≤ RespDecoder.new.maxBufferSize →
      ∃ d, feedAll chunks RespDecoder.new = .ok (values vs) d := by
  intro h
  obtain ⟨d, hd⟩ := h oneElement [asBytes "*1\r\n".toList, asBytes ":1\r\n".toList]
    (by decide) (by decide) (by decide)
  have hrun : feedAll [asBytes "*1\r\n".toList, asBytes ":1\r\n".toList]
      RespDecoder.new = .ok [.integer 1]
        { buf := [], offset := 10, maxBufferSize := 100 * 1024 * 1024 } := rfl
  rw [hrun] at hd
  cases hd

end RedisHaTool.Resp
