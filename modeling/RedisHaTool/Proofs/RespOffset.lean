import RedisHaTool.Lib.Run
import RedisHaTool.Proofs.RespConserve

/-!
# What the offset counts

Every line the decoder takes off its buffer is counted with one byte more than
it has: the end of the line is an index that stands past the marker already, and
the marker is added again. A bulk string that is not null is counted as it is.
So the offset and the buffer together make up what was fed until the first line
of another kind is taken, a null or an array's count line among them, and never
again after that.
-/

namespace RedisHaTool.Resp

open Lib

/-! ## Calls -/

inductive DecoderCall where
  | feed (data : Bytes)
  | decode
  deriving DecidableEq, Repr

/-- A call that returns no error. -/
def RespDecoder.step (d : RespDecoder) : DecoderCall → Option RespDecoder
  | .feed data =>
      match Resp.feed data d with
      | .ok _ d' => some d'
      | .error _ _ => none
  | .decode =>
      match Resp.decode d with
      | .ok _ d' => some d'
      | .error _ _ => none

/-- How many bytes a call feeds. -/
def DecoderCall.fed : DecoderCall → Nat
  | .feed data => data.length
  | .decode => 0

def totalFed (calls : List DecoderCall) : Nat := (calls.map DecoderCall.fed).sum

/-- `offset()` and `buffer_size()`. -/
def RespDecoder.accounted (d : RespDecoder) : Nat := d.offset + d.buf.length

/-- The buffer does not begin with a whole line, or it is the length line of a
bulk string that is not null. -/
def BeginsBulk (buf : Bytes) : Prop :=
  ∀ endPos, findLineEnd buf 1 = some endPos → buf.head? = some '$'.toUInt8 ∧
    (fromUtf8 ((buf.take endPos).drop 1)).bind parseI64 ≠ some (-1)

def RespDecoder.CountsRight (d : RespDecoder) : DecoderCall → Prop
  | .feed _ => True
  | .decode => BeginsBulk d.buf

/-! ## Steps that take a line -/

theorem advance_counts {α : Type} {d d' : RespDecoder} {a : α} {counted taken : Nat}
    {f : Unit → DecM α} (h : (advance counted taken >>= f) d = .ok a d') :
    ∃ d1, d1.accounted + taken = d.accounted + counted ∧ f () d1 = .ok a d' := by
  obtain ⟨hle, h⟩ := advance_eq h
  refine ⟨_, ?_, h⟩
  show d.offset + counted + (d.buf.drop taken).length + taken
    = d.offset + d.buf.length + counted
  rw [List.length_drop]
  omega

/-- Whatever the step answers, nothing fed is left out of the account. -/
def Accounts (m : DecM (Option RespValue)) : Prop :=
  ∀ d r d', m d = .ok r d' → d.accounted ≤ d'.accounted

/-- What a step that takes whole lines does to the account: nothing where there
is no whole line, and one too many where there is. -/
def Overcounts (m : DecM (Option RespValue)) : Prop :=
  ∀ d r d', m d = .ok r d' →
    (findLineEnd d.buf 1 = none ∧ d' = d) ∨
      ((findLineEnd d.buf 1).isSome = true ∧ d.accounted < d'.accounted)

theorem decodeLine_overcounts (mk : Bytes → RespValue) : Overcounts (decodeLine mk) := by
  intro d r d' h
  rw [decodeLine_eq] at h
  rcases withLine_cases h with ⟨hnone, -, rfl⟩ | ⟨e, text, hline, h⟩
  · exact .inl ⟨hnone, rfl⟩
  · obtain ⟨d1, hcount, h⟩ := advance_counts h
    cases h
    exact .inr ⟨by rw [hline.found]; rfl, by omega⟩

theorem decodeInteger_overcounts : Overcounts decodeInteger := by
  intro d r d' h
  rw [decodeInteger_eq] at h
  rcases withLine_cases h with ⟨hnone, -, rfl⟩ | ⟨e, text, hline, h⟩
  · exact .inl ⟨hnone, rfl⟩
  · obtain ⟨i, -, h⟩ := parseNum_eq h
    obtain ⟨d1, hcount, h⟩ := advance_counts h
    cases h
    exact .inr ⟨by rw [hline.found]; rfl, by omega⟩

/-- Without a whole line there is nothing to count wrong. -/
theorem beginsBulk_of_none {buf : Bytes} (h : findLineEnd buf 1 = none) : BeginsBulk buf := by
  intro endPos hend
  rw [h] at hend
  cases hend

theorem beginsBulk_iff {d : RespDecoder} {e : Nat} {text : Bytes} {i : Int}
    (hline : d.HasLine e text) (hi : (fromUtf8 text).bind parseI64 = some i)
    (hmarker : d.buf.head? = some '$'.toUInt8) : BeginsBulk d.buf ↔ i ≠ -1 := by
  rw [hline.eq] at hi
  constructor
  · rintro hbulk rfl
    exact (hbulk e hline.found).2 hi
  · intro hne endPos hend
    rw [hline.found] at hend
    obtain rfl := Option.some.inj hend
    refine ⟨hmarker, ?_⟩
    rw [hi]
    exact fun heq => hne (Option.some.inj heq)

/-- Of a bulk string only the null is counted with a byte too many. -/
theorem decodeBulkString_counts {d d' : RespDecoder} {r : Option RespValue}
    (h : decodeBulkString d = .ok r d') (hmarker : d.buf.head? = some '$'.toUInt8) :
    d.accounted ≤ d'.accounted ∧ (d.accounted = d'.accounted ↔ BeginsBulk d.buf) := by
  rw [decodeBulkString_eq] at h
  rcases withCount_cases h with
    ⟨hnone, -, rfl⟩ | ⟨e, text, i, hline, hi, ⟨rfl, h⟩ | ⟨n, rfl, h⟩⟩
  · exact ⟨Nat.le_refl _, iff_of_true rfl (beginsBulk_of_none hnone)⟩
  · rw [beginsBulk_iff hline hi hmarker]
    obtain ⟨d1, hcount, h⟩ := advance_counts h
    cases h
    exact ⟨by omega, iff_of_false (by omega) (fun hne => hne rfl)⟩
  · rw [beginsBulk_iff hline hi hmarker]
    have hcounted : (n : Int) ≠ -1 := by omega
    have h := (usize_eq h).2
    split at h
    · cases h
      exact ⟨Nat.le_refl _, iff_of_true rfl hcounted⟩
    · obtain ⟨d1, hcount, h⟩ := advance_counts (slice_eq h).2
      cases h
      exact ⟨by omega, iff_of_true (by omega) hcounted⟩

theorem decodeElements_accounts {nested : DecM (Option RespValue)}
    (hnested : Accounts nested) {n : Nat} {done : List RespValue}
    {r : Option (List RespValue)} {d d' : RespDecoder}
    (h : decodeElements nested n done d = .ok r d') : d.accounted ≤ d'.accounted :=
  decodeElements_keeps (R := fun d d' => d.accounted ≤ d'.accounted)
    (fun _ => Nat.le_refl _) (fun _ _ _ => Nat.le_trans) hnested h

theorem decodeArray_overcounts {nested : DecM (Option RespValue)}
    (hnested : Accounts nested) : Overcounts (decodeArray nested) := by
  intro d r d' h
  rw [decodeArray_eq] at h
  rcases withCount_cases h with
    ⟨hnone, -, rfl⟩ | ⟨e, text, i, hline, -, ⟨-, h⟩ | ⟨n, -, h⟩⟩
  · exact .inl ⟨hnone, rfl⟩
  · refine .inr ⟨by rw [hline.found]; rfl, ?_⟩
    obtain ⟨d1, hcount, h⟩ := advance_counts h
    cases h
    omega
  · refine .inr ⟨by rw [hline.found]; rfl, ?_⟩
    obtain ⟨d1, hcount, h⟩ := advance_counts h
    split at h
    · obtain ⟨u, d2, hpanic, -⟩ := bind_eq_ok.1 h
      cases hpanic
    · obtain ⟨r1, d2, hes, h⟩ := bind_eq_ok.1 h
      have hrest := decodeElements_accounts hnested hes
      cases r1 <;> cases h <;> omega

/-- A step that takes a line of another kind counts it wrong. -/
theorem Overcounts.counts {m : DecM (Option RespValue)} (h : Overcounts m)
    {d d' : RespDecoder} {r : Option RespValue} (hm : m d = .ok r d')
    (hmarker : d.buf.head? ≠ some '$'.toUInt8) :
    d.accounted ≤ d'.accounted ∧ (d.accounted = d'.accounted ↔ BeginsBulk d.buf) := by
  rcases h d r d' hm with ⟨hnone, rfl⟩ | ⟨hsome, hlt⟩
  · exact ⟨Nat.le_refl _, iff_of_true rfl (beginsBulk_of_none hnone)⟩
  · obtain ⟨endPos, hend⟩ := Option.isSome_iff_exists.1 hsome
    refine ⟨Nat.le_of_lt hlt, iff_of_false (by omega) ?_⟩
    exact fun hbulk => hmarker (hbulk endPos hend).1

/-- What one call of `try_decode` does to the account, by the first byte. -/
theorem tryDecode_counts {fuel : Nat} {d d' : RespDecoder} {r : Option RespValue}
    (h : tryDecode fuel d = .ok r d') :
    d.accounted ≤ d'.accounted ∧ (d.accounted = d'.accounted ↔ BeginsBulk d.buf) := by
  induction fuel generalizing d d' r with
  | zero => cases h
  | succ fuel ih =>
      have hnested : Accounts (tryDecode fuel) := fun _ _ _ h => (ih h).1
      simp only [tryDecode, bind_apply, get_apply] at h
      cases hbuf : d.buf with
      | nil =>
          rw [hbuf] at h
          cases h
          exact ⟨Nat.le_refl _, iff_of_true rfl fun endPos hend => by cases hend⟩
      | cons b bs =>
          rw [hbuf] at h
          have hhead : d.buf.head? = some b := by rw [hbuf]; rfl
          have hother : b ≠ '$'.toUInt8 → d.buf.head? ≠ some '$'.toUInt8 := by
            intro hne heq
            rw [hhead] at heq
            exact hne (Option.some.inj heq)
          rw [← hbuf]
          dsimp only at h
          rw [decodeMarked] at h
          split at h
          · next hb =>
              exact (decodeLine_overcounts _).counts h (hother (by rw [hb]; decide))
          split at h
          · next hb =>
              exact (decodeLine_overcounts _).counts h (hother (by rw [hb]; decide))
          split at h
          · next hb =>
              exact decodeInteger_overcounts.counts h (hother (by rw [hb]; decide))
          split at h
          · next hb => exact decodeBulkString_counts h (by rw [hhead, hb])
          split at h
          · next hb =>
              exact (decodeArray_overcounts hnested).counts h (hother (by rw [hb]; decide))
          · cases h

theorem decode_counts {d d' : RespDecoder} {r : Option RespValue}
    (h : decode d = .ok r d') :
    d.accounted ≤ d'.accounted ∧ (d.accounted = d'.accounted ↔ BeginsBulk d.buf) := by
  rw [decode] at h
  split at h
  · next hnil =>
      cases h
      refine ⟨Nat.le_refl _, iff_of_true rfl ?_⟩
      rw [hnil]
      exact fun endPos hend => by cases hend
  · split at h
    · cases h
    · exact tryDecode_counts h

/-! ## Runs -/

theorem feed_accounted {data : Bytes} {d d' : RespDecoder}
    (h : feed data d = .ok () d') : d'.accounted = d.accounted + data.length := by
  by_cases hle : d.buf.length + data.length ≤ d.maxBufferSize
  · rw [feed_ok hle] at h
    cases h
    show d.offset + (d.buf ++ data).length = d.offset + d.buf.length + data.length
    rw [List.length_append]
    omega
  · simp only [feed, bind_apply, get_apply, if_pos (Nat.not_le.1 hle),
      throw_apply] at h
    cases h

/-- One call: what it feeds is added, and nothing else if and only if it counts
right. -/
theorem RespDecoder.step_counts {d d' : RespDecoder} {call : DecoderCall}
    (h : d.step call = some d') :
    d.accounted + call.fed ≤ d'.accounted ∧
      (d.accounted + call.fed = d'.accounted ↔ d.CountsRight call) := by
  cases call with
  | feed data =>
      rw [RespDecoder.step] at h
      split at h
      · next u d1 hfeed =>
          obtain rfl := Option.some.inj h
          have hadd := feed_accounted hfeed
          exact ⟨Nat.le_of_eq hadd.symm, iff_of_true hadd.symm trivial⟩
      · cases h
  | decode =>
      rw [RespDecoder.step] at h
      split at h
      · next r d1 hdecode =>
          obtain rfl := Option.some.inj h
          exact decode_counts hdecode
      · cases h

theorem steps_counts {d d' : RespDecoder} {calls : List DecoderCall}
    (hrun : Steps RespDecoder.step Free d calls d') :
    d.accounted + totalFed calls ≤ d'.accounted ∧
      (d.accounted + totalFed calls = d'.accounted ↔
        Steps RespDecoder.step RespDecoder.CountsRight d calls d') := by
  induction hrun with
  | refl d => exact ⟨Nat.le_refl _, iff_of_true rfl (.refl d)⟩
  | @cons d d1 d' call calls hC hstep htail ih =>
      obtain ⟨hle, hright⟩ := RespDecoder.step_counts hstep
      obtain ⟨hle', hright'⟩ := ih
      have htotal : totalFed (call :: calls) = call.fed + totalFed calls := List.sum_cons
      rw [htotal]
      refine ⟨by omega, ?_⟩
      constructor
      · intro heq
        exact .cons (hright.1 (by omega)) hstep (hright'.1 (by omega))
      · intro hsteps
        cases hsteps with
        | cons hC hstep' htail =>
            obtain rfl := Option.some.inj (hstep.symm.trans hstep')
            have hfirst := hright.2 hC
            have hrest := hright'.2 htail
            omega

/-- In a run without an error the offset and the buffer make up what was fed if
and only if no call of `decode` found a whole line at the front of its buffer
that is not the length line of a bulk string, or is that of the null. -/
theorem accounted_eq_totalFed_iff {capacity maxBufferSize : Nat}
    {calls : List DecoderCall} {d : RespDecoder}
    (hrun : Steps RespDecoder.step Free (.withCapacity capacity maxBufferSize) calls d) :
    d.offset + d.buf.length = totalFed calls ↔
      Steps RespDecoder.step RespDecoder.CountsRight (.withCapacity capacity maxBufferSize)
        calls d := by
  have hright := (steps_counts hrun).2
  have hfresh : (RespDecoder.withCapacity capacity maxBufferSize).accounted = 0 := rfl
  rw [hfresh, Nat.zero_add] at hright
  exact eq_comm.trans hright

/-- A bulk string in two pieces. -/
def bulkInPieces : List DecoderCall :=
  [.feed (asBytes "$2\r\na".toList), .decode, .feed (asBytes "b\r\n".toList), .decode]

def bulkDecoded : RespDecoder := after RespDecoder.step (.withCapacity 0 100) bulkInPieces

theorem accounted_eq_totalFed_iff_bulkInPieces :
    bulkDecoded.offset + bulkDecoded.buf.length = totalFed bulkInPieces ↔
      Steps RespDecoder.step RespDecoder.CountsRight (.withCapacity 0 100) bulkInPieces
        bulkDecoded := by
  have hrun : Steps RespDecoder.step Free (.withCapacity 0 100) bulkInPieces bulkDecoded :=
    .of_after (by decide +kernel)
  exact accounted_eq_totalFed_iff hrun

/-- A simple string of four bytes. -/
def simpleString : List DecoderCall := [.feed (asBytes "+a\r\n".toList), .decode]

theorem not_accounted_eq_totalFed :
    ¬ ∀ (calls : List DecoderCall) (d : RespDecoder),
      Steps RespDecoder.step Free .new calls d →
        d.offset + d.buf.length = totalFed calls := by
  intro h
  have heq := h simpleString (after RespDecoder.step .new simpleString)
    (.of_after (by decide +kernel))
  revert heq
  decide +kernel

end RedisHaTool.Resp
