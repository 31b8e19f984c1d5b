import RedisHaTool.Proofs.RespConserve

/-!
# What the decoder accepts

`RespRoundTrip` says that every spelling of a value is read. Here it is the other
way round: what a call of `decode` took off the buffer is a spelling of the value
it answered. So the value holds nothing the encoder could not write, since the
end of a line is the first CR LF there is and every number was read from a text,
and encoding it gives a spelling again, one that is no longer.

With both directions at hand the places where a call can get to are those that a
number of whole values leads to, and the last section says at which of them it
panics.
-/

namespace RedisHaTool.Resp

open Lib

/-! ## The line at the front -/

/-- What is before the first pair holds none. -/
theorem findCrlf_inv {bs : Bytes} {k : Nat} (h : findCrlf bs = some k) :
    ∃ s rest, bs = s ++ crlf ++ rest ∧ s.length = k ∧ NoCrlf s := by
  induction bs generalizing k with
  | nil => cases h
  | cons a bs ih =>
      cases bs with
      | nil => cases h
      | cons b bs =>
          rw [findCrlf] at h
          split at h
          · next hpair =>
              obtain ⟨rfl, rfl⟩ := hpair
              obtain rfl := Option.some.inj h
              exact ⟨[], bs, rfl, rfl, noCrlf_of_not_mem List.not_mem_nil⟩
          · next hpair =>
              obtain ⟨j, hj, rfl⟩ := Option.map_eq_some_iff.1 h
              obtain ⟨s, rest, hbs, hlen, hs⟩ := ih hj
              refine ⟨a :: s, rest, by rw [hbs]; rfl, by rw [List.length_cons, hlen], ?_⟩
              intro hin
              rcases List.infix_cons_iff.1 hin with hpre | hin
              · -- The pair would begin with the byte that was looked at.
                cases s with
                | nil => exact absurd hpre.length_le (by simp [crlf])
                | cons c s =>
                    obtain ⟨hcr, hlf⟩ := List.cons_prefix_cons.1 hpre
                    obtain ⟨rfl, -⟩ := List.cons_prefix_cons.1 hlf
                    exact hpair ⟨hcr.symm, List.head_eq_of_cons_eq hbs⟩
              · exact hs hin

/-- The buffer that begins with a line. -/
theorem RespDecoder.HasLine.buf {d : RespDecoder} {e : Nat} {text : Bytes}
    (h : d.HasLine e text) {m : UInt8} (hm : d.buf.head? = some m) :
    NoCrlf text ∧ e = text.length + 1 ∧ d.buf = line m text ++ d.buf.drop (e + 2) := by
  obtain ⟨k, hk, rfl⟩ := Option.map_eq_some_iff.1 h.found
  have htext := h.eq
  cases hbuf : d.buf with
  | nil =>
      rw [hbuf] at hm
      cases hm
  | cons b bs =>
      rw [hbuf] at hm hk htext
      obtain rfl := Option.some.inj hm
      obtain ⟨s, rest, hbs, rfl, hs⟩ := findCrlf_inv hk
      obtain rfl : bs = s ++ crlf ++ rest := hbs
      obtain rfl : text = s := by
        rw [htext]
        simp
      refine ⟨hs, rfl, ?_⟩
      have hdrop : (b :: (text ++ crlf ++ rest)).drop (text.length + 1 + 2) = rest := by
        have hlen : (b :: (text ++ crlf)).length = text.length + 1 + 2 := by simp [crlf]
        rw [← hlen, ← List.cons_append]
        exact List.drop_left
      rw [hdrop, line]
      rfl

/-- Two pieces off a part of the buffer. -/
theorem drop_split (bs : Bytes) (i n k : Nat) :
    bs.drop i = (bs.take (i + n)).drop i ++ ((bs.drop (i + n)).take k ++ bs.drop (i + n + k)) := by
  have hfirst : (bs.take (i + n)).drop i = (bs.drop i).take n := by
    rw [List.drop_take, Nat.add_sub_cancel_left]
  have hsecond : bs.drop (i + n + k) = (bs.drop (i + n)).drop k := List.drop_drop.symm
  have hrest : bs.drop (i + n) = (bs.drop i).drop n := List.drop_drop.symm
  rw [hsecond, List.take_append_drop, hfirst, hrest, List.take_append_drop]

/-! ## What a step that answered took -/

section Sound

variable {d d' : RespDecoder}

/-- On a buffer with this marker, what the step took spells what it answered. -/
def SoundAt (marker : UInt8) (m : DecM (Option RespValue)) : Prop :=
  ∀ d v d', d.buf.head? = some marker → m d = .ok (some v) d' →
    ∃ bs, d.buf = bs ++ d'.buf ∧ Spells v bs

/-- A step that takes one line and answers. -/
theorem took_line {e : Nat} {text : Bytes} {a v : RespValue} (hline : d.HasLine e text)
    {m : UInt8} (hm : d.buf.head? = some m)
    (h : (do advance (e + 2 + 1) (e + 2)
             pure (some a) : DecM (Option RespValue)) d = .ok (some v) d') :
    NoCrlf text ∧ d.buf = line m text ++ d'.buf ∧ v = a := by
  obtain ⟨htext, -, hbuf⟩ := hline.buf hm
  obtain ⟨-, h⟩ := advance_eq h
  cases h
  exact ⟨htext, hbuf, rfl⟩

theorem decodeLine_sound {mk : Bytes → RespValue} {m : UInt8}
    (hmk : ∀ s, NoCrlf s → Spells (mk s) (line m s)) : SoundAt m (decodeLine mk) := by
  intro d v d' hm h
  rw [decodeLine_eq] at h
  rcases withLine_cases h with ⟨-, hnone, -⟩ | ⟨e, text, hline, h⟩
  · cases hnone
  · obtain ⟨htext, hbuf, rfl⟩ := took_line hline hm h
    exact ⟨_, hbuf, hmk text htext⟩

theorem decodeInteger_sound : SoundAt ':'.toUInt8 decodeInteger := by
  intro d v d' hm h
  rw [decodeInteger_eq] at h
  rcases withLine_cases h with ⟨-, hnone, -⟩ | ⟨e, text, hline, h⟩
  · cases hnone
  · obtain ⟨i, hi, h⟩ := parseNum_eq h
    obtain ⟨htext, hbuf, rfl⟩ := took_line hline hm h
    exact ⟨_, hbuf, text, htext, hi, rfl⟩

theorem decodeBulkString_sound : SoundAt '$'.toUInt8 decodeBulkString := by
  intro d v d' hm h
  rw [decodeBulkString_eq] at h
  rcases withCount_cases h with
    ⟨-, hnone, -⟩ | ⟨e, text, i, hline, hi, ⟨rfl, h⟩ | ⟨n, rfl, h⟩⟩
  · cases hnone
  · obtain ⟨htext, hbuf, rfl⟩ := took_line hline hm h
    exact ⟨_, hbuf, _, text, .inl rfl, htext, hi, rfl⟩
  · obtain ⟨htotal, h⟩ := usize_eq h
    split at h
    · cases h
    · next hhave =>
        obtain ⟨htext, he, hbuf⟩ := hline.buf hm
        obtain ⟨-, h⟩ := slice_eq h
        obtain ⟨-, h⟩ := advance_eq h
        cases h
        have hlen : (d.buf.drop (e + 2)).length = d.buf.length - (e + 2) := List.length_drop
        have hcontent : ((d.buf.take (e + 2 + n)).drop (e + 2)).length = n := by
          rw [List.length_drop, List.length_take]
          omega
        refine ⟨line '$'.toUInt8 text ++
          ((d.buf.take (e + 2 + n)).drop (e + 2) ++ (d.buf.drop (e + 2 + n)).take 2),
          ?_, text, _, htext, ?_, ?_, ?_, rfl⟩
        · show d.buf = _ ++ d.buf.drop (e + 2 + n + 2)
          rw [List.append_assoc, List.append_assoc, ← drop_split]
          exact hbuf
        · rw [hcontent]
          exact hi
        · rw [List.length_take, List.length_drop]
          omega
        · rw [hcontent]
          omega

theorem decodeElements_sound {nested : DecM (Option RespValue)}
    (hnested : ∀ d v d', nested d = .ok (some v) d' → ∃ bs, d.buf = bs ++ d'.buf ∧ Spells v bs)
    {n : Nat} {done es : List RespValue}
    (h : decodeElements nested n done d = .ok (some es) d') :
    ∃ new bs, es = done ++ new ∧ new.length = n ∧ d.buf = bs ++ d'.buf ∧ SpellsAll new bs := by
  induction n generalizing done d with
  | zero =>
      cases h
      exact ⟨[], [], (List.append_nil _).symm, rfl, rfl, rfl⟩
  | succ n ih =>
      rw [decodeElements] at h
      obtain ⟨r, d1, hr, h⟩ := bind_eq_ok.1 h
      cases r with
      | none => cases h
      | some v =>
          obtain ⟨first, hfirst, hv⟩ := hnested d v d1 hr
          obtain ⟨new, bs, rfl, hnew, hbs, hall⟩ := ih h
          refine ⟨v :: new, first ++ bs, by simp, by simp [hnew], ?_, first, bs, hv, hall, rfl⟩
          rw [hfirst, hbs, List.append_assoc]

theorem decodeArray_sound {nested : DecM (Option RespValue)}
    (hnested : ∀ d v d', nested d = .ok (some v) d' → ∃ bs, d.buf = bs ++ d'.buf ∧ Spells v bs) :
    SoundAt '*'.toUInt8 (decodeArray nested) := by
  intro d v d' hm h
  rw [decodeArray_eq] at h
  rcases withCount_cases h with
    ⟨-, hnone, -⟩ | ⟨e, text, i, hline, hi, ⟨rfl, h⟩ | ⟨n, rfl, h⟩⟩
  · cases hnone
  · obtain ⟨htext, hbuf, rfl⟩ := took_line hline hm h
    exact ⟨_, hbuf, _, text, .inr rfl, htext, hi, rfl⟩
  · obtain ⟨htext, -, hbuf⟩ := hline.buf hm
    obtain ⟨-, h⟩ := advance_eq h
    split at h
    · obtain ⟨u, d3, hpanic, -⟩ := bind_eq_ok.1 h
      cases hpanic
    · next hcount =>
        obtain ⟨r1, d3, hes, h⟩ := bind_eq_ok.1 h
        cases r1 with
        | none => cases h
        | some es =>
            cases h
            obtain ⟨new, bs, hnil, rfl, hbs, hall⟩ := decodeElements_sound hnested hes
            obtain rfl : es = new := hnil
            refine ⟨line '*'.toUInt8 text ++ bs, ?_, text, bs, htext, hi, Nat.not_lt.1 hcount,
              hall, rfl⟩
            rw [List.append_assoc, ← hbs]
            exact hbuf

/-- What a call took off the buffer spells the value it answered. -/
theorem tryDecode_sound (fuel : Nat) {v : RespValue} (h : tryDecode fuel d = .ok (some v) d') :
    ∃ bs, d.buf = bs ++ d'.buf ∧ Spells v bs := by
  induction fuel generalizing d d' v with
  | zero => cases h
  | succ fuel ih =>
      have hnested : ∀ d v d', tryDecode fuel d = .ok (some v) d' →
          ∃ bs, d.buf = bs ++ d'.buf ∧ Spells v bs := fun _ _ _ h => ih h
      simp only [tryDecode, bind_apply, get_apply] at h
      cases hbuf : d.buf with
      | nil =>
          rw [hbuf] at h
          cases h
      | cons b bs =>
          rw [hbuf] at h
          have hm : d.buf.head? = some b := by rw [hbuf]; rfl
          rw [← hbuf]
          dsimp only at h
          rw [decodeMarked] at h
          split at h
          · next hb =>
              have hspell : ∀ s, NoCrlf s → Spells (.simpleString s) (line '+'.toUInt8 s) :=
                fun s hs => ⟨hs, rfl⟩
              exact decodeLine_sound hspell d v d' (hb ▸ hm) h
          split at h
          · next hb =>
              have hspell : ∀ s, NoCrlf s → Spells (.error s) (line '-'.toUInt8 s) :=
                fun s hs => ⟨hs, rfl⟩
              exact decodeLine_sound hspell d v d' (hb ▸ hm) h
          split at h
          · next hb => exact decodeInteger_sound d v d' (hb ▸ hm) h
          split at h
          · next hb => exact decodeBulkString_sound d v d' (hb ▸ hm) h
          split at h
          · next hb => exact decodeArray_sound hnested d v d' (hb ▸ hm) h
          · cases h

theorem decode_sound {v : RespValue} (h : decode d = .ok (some v) d') :
    ∃ bs, d.buf = bs ++ d'.buf ∧ Spells v bs := by
  rw [decode] at h
  split at h
  · cases h
  · split at h
    · cases h
    · exact tryDecode_sound _ h

end Sound

/-! ## Values that were read -/

theorem isI64_of_isNumeral {text : Bytes} {i : Int} (h : IsNumeral text i) : IsI64 i := by
  obtain ⟨t, -, hparse⟩ := Option.bind_eq_some_iff.1 h
  exact of_decide_eq_true (Option.filter_eq_some_iff.1 hparse).2

mutual

/-- A value that can be spelled holds no CR LF in its lines, and its numbers are
within bounds. -/
theorem heldLines_of_spells (v : RespValue) {bs : Bytes} (h : Spells v bs) :
    v.All LineSafe ∧ v.All InMemory := by
  cases v with
  | simpleString s => exact ⟨h.1, trivial⟩
  | error e => exact ⟨h.1, trivial⟩
  | integer i =>
      obtain ⟨text, -, hi, -⟩ := h
      exact ⟨trivial, isI64_of_isNumeral hi⟩
  | bulkString s =>
      obtain ⟨text, ending, -, hlen, -⟩ := h
      have hmax := (isI64_of_isNumeral hlen).2
      have hmem : s.length ≤ isizeMax := by
        rw [isizeMax]
        omega
      exact ⟨trivial, hmem⟩
  | null => exact ⟨trivial, trivial⟩
  | array es =>
      obtain ⟨text, tail, -, -, hcount, hes, -⟩ := h
      obtain ⟨hsafe, hmem⟩ := heldLines_of_spellsAll es hes
      exact ⟨⟨trivial, hsafe⟩, hcount, hmem⟩

theorem heldLines_of_spellsAll (es : List RespValue) {bs : Bytes} (h : SpellsAll es bs) :
    RespValue.AllIn LineSafe es ∧ RespValue.AllIn InMemory es := by
  cases es with
  | nil => exact ⟨trivial, trivial⟩
  | cons e es =>
      obtain ⟨first, tail, he, hes, -⟩ := h
      obtain ⟨hsafe, hmem⟩ := heldLines_of_spells e he
      obtain ⟨hsafes, hmems⟩ := heldLines_of_spellsAll es hes
      exact ⟨⟨hsafe, hsafes⟩, hmem, hmems⟩

end

/-- Whatever spelling a value was read from, its encoding is read back as it, and
is no longer than what was taken. The buffer is within the limit that `feed`
keeps. -/
theorem decode_encode_decode (d d' : RespDecoder) (v : RespValue) (capacity : Nat)
    (hfit : d.buf.length ≤ d.maxBufferSize) (h : decode d = .ok (some v) d') :
    (∃ d'', (do feed (encode v); decode) (RespDecoder.withCapacity capacity d.maxBufferSize)
        = .ok (some v) d'' ∧ d''.buf = []) ∧
      ∃ taken, d.buf = taken ++ d'.buf ∧ (encode v).length ≤ taken.length := by
  obtain ⟨taken, hbuf, hv⟩ := decode_sound h
  obtain ⟨hsafe, hmem⟩ := heldLines_of_spells v hv
  have hconserves : (encode v).length + d'.buf.length ≤ d.buf.length := decode_conserves d _ d' h
  have hlen : d.buf.length = taken.length + d'.buf.length := by rw [hbuf, List.length_append]
  refine ⟨?_, taken, hbuf, by omega⟩
  have hroom : (RespDecoder.withCapacity capacity d.maxBufferSize).buf.length + (encode v).length
      ≤ (RespDecoder.withCapacity capacity d.maxBufferSize).maxBufferSize := by
    show 0 + (encode v).length ≤ d.maxBufferSize
    omega
  obtain ⟨d'', hdecode, hnil, -⟩ := decode_takes v hsafe hmem
    { RespDecoder.withCapacity capacity d.maxBufferSize with buf := [] ++ encode v } []
    (List.append_nil _).symm
  exact ⟨d'', by rw [bind_of_ok (feed_ok hroom)]; exact hdecode, hnil⟩

/-- A bulk string with a plus sign and a zero in its length, and more after it. -/
def plusBulk : RespDecoder :=
  { buf := asBytes "$+02\r\nab\r\n:1".toList, offset := 0, maxBufferSize := 100 }

theorem decode_encode_decode_plusBulk :
    (∃ d'', (do feed (encode (.bulkString (asBytes "ab".toList))); decode)
        (RespDecoder.withCapacity 0 100)
        = .ok (some (.bulkString (asBytes "ab".toList))) d'' ∧ d''.buf = []) ∧
      ∃ taken, plusBulk.buf = taken ++ asBytes ":1".toList ∧
        (encode (.bulkString (asBytes "ab".toList))).length ≤ taken.length :=
  decode_encode_decode plusBulk { plusBulk with buf := asBytes ":1".toList, offset := 10 }
    (.bulkString (asBytes "ab".toList)) 0 (by decide) rfl

/-! ## Panics -/

/-- A count of elements that no vector can hold, or a length with which the whole
of a bulk string is past the last `usize`. -/
def Oversized (buf : Bytes) : Prop :=
  ∃ (text rest : Bytes) (n : Nat), NoCrlf text ∧ IsNumeral text n ∧
    ((buf = line '*'.toUInt8 text ++ rest ∧ isizeMax < n * respValueSize) ∨
      (buf = line '$'.toUInt8 text ++ rest ∧ 2 ^ 64 ≤ text.length + 5 + n))

/-- Where a value is looked for: at the front of the buffer, and, from the count
line of an array on, after fewer whole elements than it counts. -/
inductive Comes : Bytes → Bytes → Prop where
  | here (buf : Bytes) : Comes buf buf
  | element {text bs rest place : Bytes} {n : Nat} {es : List RespValue} (htext : NoCrlf text)
      (hn : IsNumeral text n) (hes : SpellsAll es bs) (hlen : es.length < n)
      (hrest : Comes rest place) : Comes (line '*'.toUInt8 text ++ (bs ++ rest)) place

/-- The call comes back, with an answer or with an error of its own. -/
def Returns {α : Type} (m : DecM α) (d : RespDecoder) : Prop :=
  ∀ f d', m d = .error f d' → ∃ e, f = .err e

section Returns

variable {α β : Type} {m : DecM α} {f : α → DecM β} {d : RespDecoder}

theorem returns_of_ok {a : α} {d' : RespDecoder} (h : m d = .ok a d') : Returns m d := by
  intro f d'' hf
  rw [h] at hf
  cases hf

theorem returns_of_err {e : RespError} {d' : RespDecoder} (h : m d = .error (.err e) d') :
    Returns m d := by
  intro f d'' hf
  rw [h] at hf
  cases hf
  exact ⟨e, rfl⟩

theorem not_returns_of_panic {d' : RespDecoder} (h : m d = .error .panic d') :
    ¬ Returns m d := by
  intro hret
  obtain ⟨e, he⟩ := hret _ _ h
  cases he

theorem returns_congr {m' : DecM α} {d₁ : RespDecoder} (h : m d = m' d₁) :
    Returns m d ↔ Returns m' d₁ := by
  unfold Returns
  rw [h]

theorem returns_bind : Returns (m >>= f) d ↔
    Returns m d ∧ ∀ a d', m d = .ok a d' → Returns (f a) d' := by
  cases h : m d with
  | ok a d₁ =>
      have hbind : ∀ (r : EStateM.Result (Fault RespError) RespDecoder β),
          (m >>= f) d = r ↔ f a d₁ = r := fun r => by rw [bind_of_ok h]
      constructor
      · intro hret
        refine ⟨returns_of_ok h, fun b d₂ hb => ?_⟩
        cases hb
        exact fun e d' he => hret e d' ((hbind _).2 he)
      · rintro ⟨-, hrest⟩
        exact fun e d' he => hrest a d₁ rfl e d' ((hbind _).1 he)
  | error e d₁ =>
      have hbind : (m >>= f) d = .error e d₁ := bind_of_error h
      constructor
      · intro hret
        refine ⟨fun e' d' he => ?_, fun b d₂ hb => nomatch hb⟩
        rw [h] at he
        cases he
        exact hret e d₁ hbind
      · rintro ⟨hret, -⟩ e' d' he
        rw [hbind] at he
        cases he
        exact hret e d₁ h

theorem returns_bind_of_returns (hf : ∀ a d', Returns (f a) d') :
    Returns (m >>= f) d ↔ Returns m d := by
  rw [returns_bind]
  exact and_iff_left fun a d' _ => hf a d'

end Returns

section Steps

variable {d : RespDecoder}

theorem hasLine_of_line {m : UInt8} {text rest : Bytes} (htext : NoCrlf text)
    (hbuf : d.buf = line m text ++ rest) : d.HasLine (text.length + 1) text := by
  refine ⟨by rw [hbuf, findLineEnd_line htext], ?_⟩
  rw [hbuf]
  simp [line]

theorem withLine_returns {f : RespDecoder → Nat → Bytes → DecM (Option RespValue)} :
    Returns (withLine f) d ↔ ∀ e text, d.HasLine e text → Returns (f d e text) d := by
  cases he : findLineEnd d.buf 1 with
  | none =>
      have hnone : withLine f d = .ok none d := by
        simp only [withLine, bind_apply, get_apply, he, pure_apply]
      refine ⟨fun _ e text hline => ?_, fun _ => returns_of_ok hnone⟩
      rw [hline.found] at he
      cases he
  | some e =>
      have hline : d.HasLine e ((d.buf.take e).drop 1) := ⟨he, rfl⟩
      have hbound : 1 ≤ e ∧ e ≤ d.buf.length := by
        have := hline.bound
        omega
      have hsome : withLine f d = f d e ((d.buf.take e).drop 1) d := by
        simp only [withLine, bind_apply, get_apply, he, slice, if_pos hbound, pure_apply]
      constructor
      · intro hret e' text hline'
        obtain rfl : e = e' := Option.some.inj (he.symm.trans hline'.found)
        rw [hline'.eq]
        intro g d' hg
        exact hret g d' (hsome.trans hg)
      · intro hret g d' hg
        exact hret e _ hline g d' (hsome.symm.trans hg)

/-- A line that stands at the front can be taken off. -/
theorem advance_line {e : Nat} {text : Bytes} (hline : d.HasLine e text) :
    advance (e + 2 + 1) (e + 2) d =
      .ok () { d with offset := d.offset + (e + 2 + 1), buf := d.buf.drop (e + 2) } :=
  advance_ok _ hline.bound.2

theorem parseNum_err {text : Bytes} (h : (fromUtf8 text).bind parseI64 = none)
    (d : RespDecoder) : parseNum text d = .error (.err (.invalidInteger text)) d := by
  rw [parseNum, h]
  rfl

theorem decodeLine_returns (mk : Bytes → RespValue) : Returns (decodeLine mk) d := by
  rw [decodeLine_eq, withLine_returns]
  intro e text hline
  exact returns_of_ok (bind_of_ok (advance_line hline))

theorem decodeInteger_returns : Returns decodeInteger d := by
  rw [decodeInteger_eq, withLine_returns]
  intro e text hline
  cases hi : (fromUtf8 text).bind parseI64 with
  | none =>
      exact returns_of_err (bind_of_error (parseNum_err hi d))
  | some i =>
      exact returns_of_ok ((bind_of_ok (parseNum_ok hi d)).trans (bind_of_ok (advance_line hline)))

theorem withCount_returns {f : RespDecoder → Nat → Nat → DecM (Option RespValue)} :
    Returns (withCount f) d ↔
      ∀ e text (n : Nat), d.HasLine e text → IsNumeral text n → Returns (f d e n) d := by
  rw [withCount, withLine_returns]
  refine forall_congr' fun e => forall_congr' fun text => ?_
  constructor
  · intro hret n hline hn
    have hn' := hret hline
    rw [returns_bind] at hn'
    have hf := hn'.2 _ _ (parseNum_ok hn d)
    rwa [if_neg (by omega), if_neg (by omega), Int.toNat_natCast] at hf
  · intro hret hline
    cases hi : (fromUtf8 text).bind parseI64 with
    | none =>
        exact returns_of_err (bind_of_error (parseNum_err hi d))
    | some i =>
        rw [returns_bind]
        refine ⟨returns_of_ok (parseNum_ok hi d), fun i' d' hi' => ?_⟩
        rw [parseNum_ok hi d] at hi'
        cases hi'
        split
        · exact returns_of_ok (bind_of_ok (advance_line hline))
        · split
          · exact returns_of_err (throw_apply _ _)
          · next hpos =>
              obtain ⟨n, rfl⟩ := Int.eq_ofNat_of_zero_le (Int.not_lt.1 hpos)
              exact hret n hline hi

theorem decodeBulkString_returns : Returns decodeBulkString d ↔
    ∀ e text (n : Nat), d.HasLine e text → IsNumeral text n → e + 2 + n + 2 < 2 ^ 64 := by
  rw [decodeBulkString_eq, withCount_returns]
  refine forall_congr' fun e => forall_congr' fun text => forall_congr' fun n =>
    forall_congr' fun hline => forall_congr' fun hn => ?_
  by_cases htotal : e + 2 + n + 2 < 2 ^ 64
  · have husize : usize (e + 2 + n + 2) d = .ok (e + 2 + n + 2) d := by
      rw [usize, if_pos htotal, pure_apply]
    refine iff_of_true ?_ htotal
    rw [returns_bind]
    refine ⟨returns_of_ok husize, fun total d' h => ?_⟩
    rw [husize] at h
    cases h
    split
    · exact returns_of_ok (pure_apply _ _)
    · next hhave =>
        have hslice : slice d.buf (e + 2) (e + 2 + n) d =
            .ok ((d.buf.take (e + 2 + n)).drop (e + 2)) d := by
          rw [slice, if_pos (by omega), pure_apply]
        have hadvance := advance_ok (e + 2 + n + 2) (Nat.not_lt.1 hhave)
        exact returns_of_ok ((bind_of_ok hslice).trans (bind_of_ok hadvance))
  · have hpanic : usize (e + 2 + n + 2) d = .error .panic d := by
      rw [usize, if_neg htotal, throw_apply]
    exact iff_of_false (not_returns_of_panic (bind_of_error hpanic)) htotal

theorem decodeArray_returns {nested : DecM (Option RespValue)} : Returns (decodeArray nested) d ↔
    ∀ e text (n : Nat), d.HasLine e text → IsNumeral text n →
      n * respValueSize ≤ isizeMax ∧
        Returns (decodeElements nested n [])
          { d with offset := d.offset + (e + 2 + 1), buf := d.buf.drop (e + 2) } := by
  rw [decodeArray_eq, withCount_returns]
  refine forall_congr' fun e => forall_congr' fun text => forall_congr' fun n =>
    forall_congr' fun hline => forall_congr' fun hn => ?_
  by_cases hcount : n * respValueSize ≤ isizeMax
  · rw [and_iff_right hcount]
    refine Iff.trans (b := Returns (decodeElements nested n [] >>= ?answer) _)
      (returns_congr ?elements) (returns_bind_of_returns ?returns)
    case elements =>
      rw [bind_of_ok (advance_line hline)]
      exact congrFun (if_neg (Nat.not_lt.2 hcount)) _
    case returns =>
      intro r d'
      cases r with
      | none => exact returns_of_ok rfl
      | some elements => exact returns_of_ok rfl
  · refine iff_of_false (fun hret => ?_) fun h => hcount h.1
    have hafter := (returns_bind.1 hret).2 _ _ (advance_line hline)
    dsimp only at hafter
    rw [if_pos (Nat.not_le.1 hcount)] at hafter
    exact not_returns_of_panic (bind_of_error rfl) hafter

end Steps

/-! ### The places a call comes to -/

theorem comes_cases {buf place : Bytes} (h : Comes buf place) :
    place = buf ∨ ∃ (text bs rest : Bytes) (n : Nat) (es : List RespValue),
      buf = line '*'.toUInt8 text ++ (bs ++ rest) ∧ NoCrlf text ∧ IsNumeral text n ∧
        SpellsAll es bs ∧ es.length < n ∧ Comes rest place := by
  cases h with
  | here => exact .inl rfl
  | element htext hn hes hlen hrest => exact .inr ⟨_, _, _, _, _, rfl, htext, hn, hes, hlen, hrest⟩

theorem comes_of_marker_ne {d : RespDecoder} {place : Bytes} (h : Comes d.buf place)
    (hm : d.buf.head? ≠ some '*'.toUInt8) : place = d.buf := by
  rcases comes_cases h with hhere | ⟨text, bs, rest, n, es, hbuf, -⟩
  · exact hhere
  · rw [hbuf] at hm
    exact absurd rfl hm

theorem not_oversized_nil : ¬ ∃ place, Comes [] place ∧ Oversized place := by
  rintro ⟨place, hplace, text, rest, n, -, -, hover⟩
  rcases comes_cases hplace with rfl | ⟨_, _, _, _, _, h, -⟩
  · rcases hover with ⟨h, -⟩ | ⟨h, -⟩
    · cases h
    · cases h
  · cases h

/-- Something oversized, after fewer than `n` whole values. -/
def OversizedWithin (n : Nat) (buf : Bytes) : Prop :=
  ∃ (es : List RespValue) (bs rest place : Bytes), es.length < n ∧ SpellsAll es bs ∧
    buf = bs ++ rest ∧ Comes rest place ∧ Oversized place

/-- The first element is looked at where the elements begin, and the others where
it ends. -/
theorem oversizedWithin_succ {n : Nat} {buf : Bytes} :
    OversizedWithin (n + 1) buf ↔
      (∃ place, Comes buf place ∧ Oversized place) ∨
        ∃ (v : RespValue) (first rest : Bytes), Spells v first ∧ buf = first ++ rest ∧
          OversizedWithin n rest := by
  constructor
  · rintro ⟨es, bs, rest, place, hlen, hes, rfl, hplace, hover⟩
    cases es with
    | nil =>
        obtain rfl := hes
        exact .inl ⟨place, hplace, hover⟩
    | cons v es =>
        obtain ⟨first, tail, hv, hes, rfl⟩ := hes
        refine .inr ⟨v, first, tail ++ rest, hv, List.append_assoc _ _ _, ?_⟩
        exact ⟨es, tail, rest, place, Nat.lt_of_succ_lt_succ hlen, hes, rfl, hplace, hover⟩
  · rintro (⟨place, hplace, hover⟩ | ⟨v, first, -, hv, rfl, es, bs, rest, place, hlen, hes, rfl,
      hplace, hover⟩)
    · exact ⟨[], [], buf, place, Nat.succ_pos n, rfl, rfl, hplace, hover⟩
    · refine ⟨v :: es, first ++ bs, rest, place, Nat.succ_lt_succ hlen, ⟨first, bs, hv, hes, rfl⟩,
        (List.append_assoc _ _ _).symm, hplace, hover⟩

theorem decodeElements_returns {fuel : Nat}
    (ih : ∀ d : RespDecoder, d.buf.length < fuel →
      (Returns (tryDecode fuel) d ↔ ¬ ∃ place, Comes d.buf place ∧ Oversized place))
    {n : Nat} {done : List RespValue} {d : RespDecoder} (hfuel : d.buf.length < fuel) :
    Returns (decodeElements (tryDecode fuel) n done) d ↔ ¬ OversizedWithin n d.buf := by
  induction n generalizing done d with
  | zero =>
      refine iff_of_true (returns_of_ok rfl) ?_
      rintro ⟨es, bs, rest, place, hlen, -⟩
      exact Nat.not_lt_zero _ hlen
  | succ n ihn =>
      rw [decodeElements, returns_bind, ih d hfuel, oversizedWithin_succ, not_or]
      refine and_congr_right fun _ => ?_
      constructor
      · rintro hrest ⟨v, first, rest, hv, hbuf, hover⟩
        have hshort : first.length < fuel := by
          rw [hbuf, List.length_append] at hfuel
          omega
        obtain ⟨d', hd', rfl, -⟩ := tryDecode_takes_spelling v hv fuel hshort d rest hbuf
        have hle : d'.buf.length < fuel := by
          rw [hbuf, List.length_append] at hfuel
          omega
        exact (ihn hle).1 (hrest _ _ hd') hover
      · intro hnone r d' hr
        cases r with
        | none => exact returns_of_ok rfl
        | some v =>
            obtain ⟨first, hbuf, hv⟩ := tryDecode_sound fuel hr
            have hle : d'.buf.length < fuel := by
              rw [hbuf, List.length_append] at hfuel
              omega
            exact (ihn hle).2 fun hover => hnone ⟨v, first, d'.buf, hv, hbuf, hover⟩

section Markers

variable {d : RespDecoder}

theorem oversized_of_marker {m : UInt8} (hm : d.buf.head? = some m)
    (hstar : m ≠ '*'.toUInt8) (hdollar : m ≠ '$'.toUInt8) : ¬ Oversized d.buf := by
  rintro ⟨text, rest, n, -, -, ⟨hbuf, -⟩ | ⟨hbuf, -⟩⟩
  · rw [hbuf] at hm
    exact hstar (Option.some.inj hm).symm
  · rw [hbuf] at hm
    exact hdollar (Option.some.inj hm).symm

theorem oversized_bulk (hm : d.buf.head? = some '$'.toUInt8) :
    Oversized d.buf ↔
      ∃ e text, ∃ n : Nat, d.HasLine e text ∧ IsNumeral text n ∧ 2 ^ 64 ≤ e + 2 + n + 2 := by
  constructor
  · rintro ⟨text, rest, n, htext, hn, ⟨hbuf, -⟩ | ⟨hbuf, hover⟩⟩
    · rw [hbuf] at hm
      cases hm
    · exact ⟨_, text, n, hasLine_of_line htext hbuf, hn, by omega⟩
  · rintro ⟨e, text, n, hline, hn, hover⟩
    obtain ⟨htext, he, hbuf⟩ := hline.buf hm
    exact ⟨text, _, n, htext, hn, .inr ⟨hbuf, by omega⟩⟩

theorem oversized_array (hm : d.buf.head? = some '*'.toUInt8) :
    (∃ place, Comes d.buf place ∧ Oversized place) ↔
      ∃ e text, ∃ n : Nat, d.HasLine e text ∧ IsNumeral text n ∧
        (isizeMax < n * respValueSize ∨ OversizedWithin n (d.buf.drop (e + 2))) := by
  constructor
  · rintro ⟨place, hplace, hover⟩
    rcases comes_cases hplace with rfl | ⟨text, bs, rest, n, es, hbuf, htext, hn, hes, hlen, hrest⟩
    · obtain ⟨text, rest, n, htext, hn, ⟨hbuf, hcount⟩ | ⟨hbuf, -⟩⟩ := hover
      · exact ⟨_, text, n, hasLine_of_line htext hbuf, hn, .inl hcount⟩
      · rw [hbuf] at hm
        cases hm
    · have hline := hasLine_of_line htext hbuf
      obtain ⟨-, -, hbuf'⟩ := hline.buf hm
      have hdrop := List.append_cancel_left (hbuf.symm.trans hbuf')
      exact ⟨_, text, n, hline, hn, .inr ⟨es, bs, rest, place, hlen, hes, hdrop.symm, hrest, hover⟩⟩
  · rintro ⟨e, text, n, hline, hn, hover⟩
    obtain ⟨htext, he, hbuf⟩ := hline.buf hm
    rcases hover with hcount | ⟨es, bs, rest, place, hlen, hes, hdrop, hrest, hover⟩
    · exact ⟨d.buf, .here _, text, _, n, htext, hn, .inl ⟨hbuf, hcount⟩⟩
    · refine ⟨place, ?_, hover⟩
      rw [hbuf, hdrop]
      exact .element htext hn hes hlen hrest

end Markers

/-- With fuel for the whole buffer, a call comes back unless it comes to
something oversized. -/
theorem tryDecode_returns (fuel : Nat) {d : RespDecoder} (hfuel : d.buf.length < fuel) :
    Returns (tryDecode fuel) d ↔ ¬ ∃ place, Comes d.buf place ∧ Oversized place := by
  induction fuel generalizing d with
  | zero => exact absurd hfuel (Nat.not_lt_zero _)
  | succ fuel ih =>
      -- A marker that begins neither an array nor a bulk string.
      have hplain : ∀ m, d.buf.head? = some m → m ≠ '*'.toUInt8 → m ≠ '$'.toUInt8 →
          ¬ ∃ place, Comes d.buf place ∧ Oversized place := by
        rintro m hm hstar hdollar ⟨place, hplace, hover⟩
        have hne : d.buf.head? ≠ some '*'.toUInt8 := by
          rw [hm]
          exact fun h => hstar (Option.some.inj h)
        rw [comes_of_marker_ne hplace hne] at hover
        exact oversized_of_marker hm hstar hdollar hover
      cases hbuf : d.buf with
      | nil =>
          have hnil : tryDecode (fuel + 1) d = .ok none d := by
            simp only [tryDecode, bind_apply, get_apply, hbuf, pure_apply]
          exact iff_of_true (returns_of_ok hnil) not_oversized_nil
      | cons b bs =>
          have hm : d.buf.head? = some b := by rw [hbuf]; rfl
          have hmarked : tryDecode (fuel + 1) d = decodeMarked (tryDecode fuel) b d := by
            simp only [tryDecode, bind_apply, get_apply, hbuf]
          rw [returns_congr hmarked, ← hbuf, decodeMarked]
          split
          · next hb =>
              exact iff_of_true (decodeLine_returns _)
                (hplain b hm (by rw [hb]; decide) (by rw [hb]; decide))
          split
          · next hb =>
              exact iff_of_true (decodeLine_returns _)
                (hplain b hm (by rw [hb]; decide) (by rw [hb]; decide))
          split
          · next hb =>
              exact iff_of_true decodeInteger_returns
                (hplain b hm (by rw [hb]; decide) (by rw [hb]; decide))
          split
          · next hb =>
              rw [hb] at hm
              have hhere : (∃ place, Comes d.buf place ∧ Oversized place) ↔ Oversized d.buf := by
                constructor
                · rintro ⟨place, hplace, hover⟩
                  rw [comes_of_marker_ne hplace (by rw [hm]; decide)] at hover
                  exact hover
                · exact fun hover => ⟨d.buf, .here _, hover⟩
              rw [decodeBulkString_returns, hhere, oversized_bulk hm]
              simp only [not_exists, not_and, Nat.not_le]
          split
          · next hb =>
              rw [hb] at hm
              rw [decodeArray_returns, oversized_array hm]
              simp only [not_exists, not_and, not_or, Nat.not_lt]
              refine forall_congr' fun e => forall_congr' fun text => forall_congr' fun n =>
                forall_congr' fun hline => forall_congr' fun _ => and_congr_right fun _ => ?_
              refine decodeElements_returns (fun d' => ih) ?_
              have hbound := hline.bound
              show (d.buf.drop (e + 2)).length < fuel
              rw [List.length_drop]
              omega
          · next hplus hminus hcolon hdollar hstar =>
              exact iff_of_true (returns_of_err (throw_apply _ _)) (hplain b hm hstar hdollar)

theorem returns_iff_comes {α : Type} {m : DecM α} {d : RespDecoder} :
    Returns m d ↔ (∃ a d', m d = .ok a d') ∨ ∃ e d', m d = .error (.err e) d' := by
  constructor
  · intro hret
    cases h : m d with
    | ok a d' => exact .inl ⟨a, d', rfl⟩
    | error f d' =>
        obtain ⟨e, rfl⟩ := hret f d' h
        exact .inr ⟨e, d', rfl⟩
  · rintro (⟨a, d', h⟩ | ⟨e, d', h⟩)
    · exact returns_of_ok h
    · exact returns_of_err h

/-- A call of `decode` comes back, with a value, without one or with an error,
exactly if decoding the buffer comes to nothing oversized. An allocation of at most
`isize::MAX` bytes is taken to succeed. -/
theorem decode_returns_iff (d : RespDecoder) :
    ((∃ r d', decode d = .ok r d') ∨ ∃ e d', decode d = .error (.err e) d') ↔
      ¬ ∃ place, Comes d.buf place ∧ Oversized place := by
  rw [← returns_iff_comes]
  by_cases hnil : d.buf = []
  · rw [hnil]
    exact iff_of_true (returns_of_ok (decode_nil hnil)) not_oversized_nil
  · rw [← tryDecode_returns (d.buf.length + 1) (Nat.lt_succ_self _)]
    cases h : tryDecode (d.buf.length + 1) d with
    | ok r d' =>
        exact iff_of_true (returns_of_ok (decode_of_ok hnil h)) (returns_of_ok h)
    | error f d' =>
        cases f with
        | err e =>
            have herr : decode d = .error (.err e) { d' with buf := [] } := by
              rw [decode, if_neg hnil, h]
            exact iff_of_true (returns_of_err herr) (returns_of_err h)
        | panic =>
            have hpanic : decode d = .error .panic d' := by rw [decode, if_neg hnil, h]
            exact iff_of_false (not_returns_of_panic hpanic) (not_returns_of_panic h)
        | fuel =>
            have hfuel : decode d = .error .fuel d' := by rw [decode, if_neg hnil, h]
            refine iff_of_false (fun hret => ?_) fun hret => ?_
            · obtain ⟨e, he⟩ := hret _ _ hfuel
              cases he
            · obtain ⟨e, he⟩ := hret _ _ h
              cases he

/-- An array header of twenty-two bytes. -/
def hugeCount : RespDecoder :=
  { buf := asBytes "*9223372036854775807\r\n".toList, offset := 0, maxBufferSize := 100 }

theorem decode_hugeCount :
    ¬ ∀ d : RespDecoder,
      (∃ r d', decode d = .ok r d') ∨ ∃ e d', decode d = .error (.err e) d' := by
  intro h
  have hpanic : decode hugeCount = .error .panic { hugeCount with buf := [], offset := 23 } := rfl
  rcases h hugeCount with ⟨r, d', hok⟩ | ⟨e, d', herr⟩
  · rw [hpanic] at hok
    cases hok
  · rw [hpanic] at herr
    cases herr

end RedisHaTool.Resp
