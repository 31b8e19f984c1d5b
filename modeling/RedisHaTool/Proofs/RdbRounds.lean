import RedisHaTool.Proofs.RdbBodies

/-!
# Rounds of the main loop

What one round of the main loop of `parse` does, whatever the callback. It has
taken a byte and what the byte's arm takes, and it leaves no more than it was
given. An arm takes what the reader of its body takes, which is one thing only on
any input, so what a round has taken is a complete record exactly if it was not
lenient.
-/

namespace RedisHaTool.Rdb

open Lib

/-! ## The bytes that begin a record -/

/-- A byte that begins a record is known. -/
theorem implemented_of_mem_completeBody {b : UInt8} {body : Bytes}
    (h : body ∈ completeBody b) : Implemented b := by
  rw [completeBody] at h
  split at h
  case h_9 =>
    split at h
    · next ht => exact .inr (by rw [ht]; rfl)
    · exact absurd h (Language.notMem_zero body)
  all_goals
    next hb =>
      obtain rfl := eq_ofNat_of_toNat hb
      decide

/-- So is what some records begin with. -/
theorem implemented_of_mem_kstar {b : UInt8} {bs : Bytes}
    (h : b :: bs ∈ KStar.kstar completeRecord) : Implemented b := by
  obtain ⟨rs, hbs, hrs⟩ := Language.mem_kstar.1 h
  cases rs with
  | nil => cases hbs
  | cons r rs =>
      obtain ⟨opcode, body, rfl, hbody⟩ := hrs r List.mem_cons_self
      obtain ⟨rfl, -⟩ := List.cons.inj hbs
      exact implemented_of_mem_completeBody hbody

/-! ## What an arm has taken -/

section Arms

variable {σ α β γ δ : Type} {callback : BinEntry → EStateM (Fault SyncError) σ Unit}
  {p q : RdbParser σ}

theorem onReader_eq_ok {m : Rd α} {a : α} :
    onReader m p = .ok a q ↔
      m p.reader = .ok a q.reader ∧ q = { p with reader := q.reader } := by
  rw [onReader]
  constructor
  · intro h
    split at h
    · next hm =>
        cases h
        exact ⟨hm, rfl⟩
    · cases h
  · rintro ⟨hm, hq⟩
    rw [hm, hq]

theorem onReader_readByte {b : UInt8} {rest : Bytes} (h : p.reader = b :: rest) :
    onReader readByte p = .ok b { p with reader := rest } := by
  have hread : readByte p.reader = .ok b rest := by
    rw [h]
    rfl
  exact onReader_eq_ok.2 ⟨hread, rfl⟩

/-- Whenever the method answers, it has taken from the reader what `read`
takes. -/
def Mirrors (m : ParseM σ α) (read : Rd β) : Prop :=
  ∀ p a q, m p = .ok a q → ∃ b, read p.reader = .ok b q.reader

theorem mirrors_pure (a : α) (b : β) : Mirrors (pure a : ParseM σ α) (pure b : Rd β) := by
  intro p a' q h
  rw [pure_apply] at h
  cases h
  exact ⟨b, rfl⟩

theorem mirrors_onReader (m : Rd α) : Mirrors (σ := σ) (onReader m) m :=
  fun _ a _ h => ⟨a, (onReader_eq_ok.1 h).1⟩

theorem mirrors_modifyState (f : RdbParserState → RdbParserState) :
    Mirrors (modifyState f : ParseM σ Unit) (pure () : Rd Unit) := by
  intro p a q h
  cases h
  exact ⟨(), rfl⟩

theorem mirrors_onSink (m : EStateM (Fault SyncError) σ Unit) :
    Mirrors (onSink m) (pure () : Rd Unit) := by
  intro p a q h
  rw [onSink] at h
  split at h
  · cases h
    exact ⟨(), rfl⟩
  · cases h

theorem Mirrors.bind {m : ParseM σ α} {f : α → ParseM σ β} {read : Rd γ} {read' : Rd δ}
    (hm : Mirrors m read) (hf : ∀ a, Mirrors (f a) read') :
    Mirrors (m >>= f) (do let _ ← read; read') := by
  intro p b r h
  obtain ⟨a, q, ha, hb⟩ := bind_eq_ok.1 h
  obtain ⟨c, hc⟩ := hm p a q ha
  obtain ⟨d, hd⟩ := hf a q b r hb
  exact ⟨d, (bind_of_ok hc).trans hd⟩

theorem readKeyValue_eq_ok {t : RdbType} {entry : BinEntry}
    (h : readKeyValue t p = .ok entry q) :
    ∃ key mid v, readString p.reader = .ok key mid ∧ readValue t mid = .ok v q.reader := by
  obtain ⟨key, p₁, hkey, h₁⟩ := bind_eq_ok.1 h
  obtain ⟨⟨value, rawValue⟩, p₂, hvalue, h₂⟩ := bind_eq_ok.1 h₁
  cases h₂
  exact ⟨key, p₁.reader, (value, rawValue), (onReader_eq_ok.1 hkey).1,
    (onReader_eq_ok.1 hvalue).1⟩

theorem parseRecord_type (callback : BinEntry → EStateM (Fault SyncError) σ Unit)
    (t : RdbType) :
    parseRecord callback t.toByte = (do
      let entry ← readKeyValue t
      if t ≠ .module ∧ t ≠ .module2 then
        onSink (callback entry)) := by
  cases t <;> rfl

theorem readBody_toByte (t : RdbType) :
    readBody t.toByte = (do
      let _key ← readString
      let _value ← readValue t) := by
  cases t <;> rfl

/-- An arm takes what the reader of its body takes. -/
theorem mirrors_parseRecord {opcode : UInt8} (hknown : Implemented opcode)
    (hop : opcode ≠ 0xFF) : Mirrors (parseRecord callback opcode) (readBody opcode) := by
  rcases hknown with hmem | htype
  · simp only [opcodes, List.mem_cons, List.not_mem_nil, or_false] at hmem
    rcases hmem with rfl | rfl | rfl | rfl | rfl | rfl | rfl | rfl | rfl
    · exact (mirrors_onReader _).bind fun _ => mirrors_onReader _
    · exact (mirrors_onReader _).bind fun _ => mirrors_pure () ()
    · exact (mirrors_onReader _).bind fun _ => mirrors_pure () ()
    · refine (mirrors_onReader _).bind fun aux => ?_
      split
      · exact mirrors_modifyState _
      · exact mirrors_pure () ()
    · exact (mirrors_onReader _).bind fun _ => (mirrors_onReader _).bind fun _ =>
        mirrors_pure () ()
    · exact (mirrors_onReader _).bind fun _ => mirrors_modifyState _
    · exact (mirrors_onReader _).bind fun _ => mirrors_modifyState _
    · exact (mirrors_onReader _).bind fun _ => mirrors_modifyState _
    · exact absurd rfl hop
  · obtain ⟨t, ht⟩ := Option.isSome_iff_exists.1 htype
    obtain rfl := eq_toByte_of_fromByte ht
    intro p _ q h
    rw [parseRecord_type] at h
    obtain ⟨entry, p₁, hentry, h₁⟩ := bind_eq_ok.1 h
    obtain ⟨key, mid, v, hkey, hvalue⟩ := readKeyValue_eq_ok hentry
    have hsink : p₁.reader = q.reader := by
      split at h₁
      · obtain ⟨_, hq⟩ := mirrors_onSink _ p₁ _ q h₁
        exact (EStateM.Result.ok.inj hq).2
      · cases h₁
        rfl
    rw [readBody_toByte, bind_of_ok hkey, bind_of_ok hvalue, hsink]
    exact ⟨(), rfl⟩

end Arms

/-! ## What an arm leaves -/

section Leaves

variable {σ α β : Type} {E : Fault SyncError → Prop}

/-- What the reader still holds. -/
abbrev RdbParser.left (p : RdbParser σ) : Nat := p.reader.length

/-- However the method ends, it leaves no more than it was given, the file has
not ended, and an error is one of `E`. -/
structure GoesOn (E : Fault SyncError → Prop) (m : ParseM σ α) : Prop where
  left : ∀ p, (final (m p)).left ≤ p.left
  eof : ∀ p, (final (m p)).state.eofReached = p.state.eofReached
  raises : Raises E m

theorem GoesOn.of_ok {m : ParseM σ α} (h : GoesOn E m) {p q : RdbParser σ} {a : α}
    (heq : m p = .ok a q) : q.left ≤ p.left ∧ q.state.eofReached = p.state.eofReached := by
  have hleft := h.left p
  have heof := h.eof p
  rw [heq] at hleft heof
  exact ⟨hleft, heof⟩

theorem goesOn_pure (a : α) : GoesOn E (pure a : ParseM σ α) :=
  ⟨fun _ => Nat.le_refl _, fun _ => rfl, Raises.pure a⟩

theorem goesOn_get : GoesOn E (get : ParseM σ (RdbParser σ)) :=
  ⟨fun _ => Nat.le_refl _, fun _ => rfl, fun _ _ _ h => by cases h⟩

theorem goesOn_modifyState {f : RdbParserState → RdbParserState}
    (hf : ∀ s, (f s).eofReached = s.eofReached) :
    GoesOn E (modifyState f : ParseM σ Unit) :=
  ⟨fun _ => Nat.le_refl _, fun p => hf p.state, fun _ _ _ h => by cases h⟩

theorem GoesOn.bind {m : ParseM σ α} {f : α → ParseM σ β} (hm : GoesOn E m)
    (hf : ∀ a, GoesOn E (f a)) : GoesOn E (m >>= f) := by
  have hends : ∀ p, (final ((m >>= f) p)).left ≤ p.left ∧
      (final ((m >>= f) p)).state.eofReached = p.state.eofReached := by
    intro p
    have hleft := hm.left p
    have heof := hm.eof p
    cases h : m p with
    | ok a q =>
        rw [h] at hleft heof
        rw [bind_of_ok h]
        exact ⟨Nat.le_trans ((hf a).left q) hleft, ((hf a).eof q).trans heof⟩
    | error e q =>
        rw [h] at hleft heof
        rw [bind_of_error h]
        exact ⟨hleft, heof⟩
  exact ⟨fun p => (hends p).1, fun p => (hends p).2, hm.raises.bind fun a => (hf a).raises⟩

theorem goesOn_onReader (hE : ∀ e, e ≠ .fuel → E e) {m : Rd α} (h : BoundedReader m) :
    GoesOn E (onReader m : ParseM σ α) := by
  refine ⟨fun p => ?_, fun p => ?_, fun p e q heq => ?_⟩
  · rw [onReader]
    split
    · next hm => exact h.of_ok hm
    · next hm => exact (h.of_error hm).2
  · rw [onReader]
    split <;> rfl
  · rw [onReader] at heq
    split at heq
    · cases heq
    · next hm =>
        cases heq
        exact hE _ (h.of_error hm).1

theorem goesOn_onSink {m : EStateM (Fault SyncError) σ Unit} (h : Raises E m) :
    GoesOn E (onSink m) := by
  refine ⟨fun p => ?_, fun p => ?_, fun p e q heq => ?_⟩
  · rw [onSink]
    split
    · exact Nat.le_refl _
    · exact Nat.le_refl _
  · rw [onSink]
    split <;> rfl
  · rw [onSink] at heq
    split at heq
    · cases heq
    · next hm =>
        cases heq
        exact h _ _ _ hm

theorem goesOn_readKeyValue (hE : ∀ e, e ≠ .fuel → E e) (t : RdbType) :
    GoesOn E (readKeyValue t : ParseM σ BinEntry) := by
  refine (goesOn_onReader hE plain_readString.bounded).bind fun key => ?_
  refine (goesOn_onReader hE (bounded_readValue t)).bind fun (value, rawValue) => ?_
  refine goesOn_get.bind fun _ => ?_
  refine GoesOn.bind (goesOn_modifyState ?_) fun _ => goesOn_pure _
  exact fun _ => rfl

theorem goesOn_parseRecord {callback : BinEntry → EStateM (Fault SyncError) σ Unit}
    (hE : ∀ e, e ≠ .fuel → E e) (hcallback : ∀ entry, Raises E (callback entry))
    (opcode : UInt8) : GoesOn E (parseRecord callback opcode) := by
  have hplain : ∀ {α : Type} {m : Rd α}, Plain m → GoesOn E (onReader m : ParseM σ α) :=
    fun h => goesOn_onReader hE h.bounded
  have hinline : ∀ text, GoesOn E (onReader (readInlineLength text) : ParseM σ Nat) :=
    fun text => hplain (plain_readInlineLength text)
  rw [parseRecord]
  split
  · exact (hplain taking_readLength.plain).bind fun _ => hplain plain_skipModuleValue
  · exact (hplain taking_readLength.plain).bind fun _ => goesOn_pure _
  · exact (hplain plain_readByte).bind fun _ => goesOn_pure _
  · refine (hplain plain_readAuxField).bind fun aux => ?_
    split
    · exact goesOn_modifyState fun _ => rfl
    · exact goesOn_pure _
  · exact (hinline _).bind fun _ => (hinline _).bind fun _ => goesOn_pure _
  · exact (hplain plain_readU64).bind fun _ => goesOn_modifyState fun _ => rfl
  · exact (hplain plain_readU32).bind fun _ => goesOn_modifyState fun _ => rfl
  · exact (hinline _).bind fun _ => goesOn_modifyState fun _ => rfl
  · split
    · next t _ =>
        refine (goesOn_readKeyValue hE t).bind fun entry => ?_
        split
        · exact goesOn_onSink (hcallback entry)
        · exact goesOn_pure _
    · exact goesOn_pure _

/-- Whatever the callback does. -/
theorem goesOn_parseRecord_any (callback : BinEntry → EStateM (Fault SyncError) σ Unit)
    (opcode : UInt8) : GoesOn (fun _ => True) (parseRecord callback opcode) :=
  goesOn_parseRecord (fun _ _ => trivial) (fun _ _ _ _ _ => trivial) opcode

end Leaves

/-! ## Rounds -/

section Rounds

variable {σ : Type} {callback : BinEntry → EStateM (Fault SyncError) σ Unit}
  {p q : RdbParser σ}

/-- A round that goes on has read an opcode and gone through its arm. -/
theorem Round.opcode (h : Round callback p q) :
    p.state.eofReached = false ∧ ∃ opcode rest, p.reader = opcode :: rest ∧
      opcode ≠ 0xFF ∧ parseRecord callback opcode { p with reader := rest } = .ok () q := by
  rw [Round, parseStep, bind_of_ok (get_apply p)] at h
  split at h
  · cases h
  · next hrunning =>
      obtain ⟨opcode, p₁, hread, hrest⟩ := bind_eq_ok.1 h
      obtain ⟨hbyte, hp₁⟩ := onReader_eq_ok.1 hread
      split at hrest
      · obtain ⟨_, _, -, hpure⟩ := bind_eq_ok.1 hrest
        cases hpure
      · next hop =>
          obtain ⟨_, p₂, harm, hpure⟩ := bind_eq_ok.1 hrest
          cases hpure
          refine ⟨Bool.eq_false_iff.2 hrunning, opcode, p₁.reader,
            bs_eq_cons_of_readByte hbyte, hop, ?_⟩
          rwa [← hp₁]

theorem Round.takes (h : Round callback p q) : q.left < p.left := by
  obtain ⟨-, opcode, rest, hreader, -, harm⟩ := h.opcode
  have hle := ((goesOn_parseRecord_any callback opcode).of_ok harm).1
  show q.reader.length < p.reader.length
  rw [hreader]
  exact Nat.lt_succ_of_le hle

theorem Round.running (h : Round callback p q) : q.state.eofReached = false := by
  obtain ⟨hrunning, opcode, rest, -, -, harm⟩ := h.opcode
  exact ((goesOn_parseRecord_any callback opcode).of_ok harm).2.trans hrunning

/-- Where the reader of a body takes this, the loop is not lenient exactly if this is
complete. -/
theorem lenient_iff {opcode : UInt8} {taken left : Bytes} (hknown : Implemented opcode)
    (htaken : BodyTaken opcode taken left) :
    Lenient (opcode :: (taken ++ left)) ↔ taken ∉ completeBody opcode := by
  constructor
  · generalize hrest : taken ++ left = rest
    intro h
    cases h with
    | unknown hunknown => exact absurd hknown hunknown
    | @body _ taken' left' htaken' hnot =>
        -- Nothing else is taken there.
        obtain ⟨a, hread⟩ := (recognizes_readBody opcode _ left).2 ⟨taken, rfl, htaken⟩
        obtain ⟨b, hread'⟩ := (recognizes_readBody opcode _ left').2 ⟨taken', rfl, htaken'⟩
        rw [hrest] at hread
        obtain ⟨-, rfl⟩ := EStateM.Result.ok.inj (hread.symm.trans hread')
        rwa [List.append_cancel_right hrest]
  · exact .body htaken

/-- A round has taken a complete record exactly if it was not lenient. -/
theorem Round.takes_record_iff (h : Round callback p q) :
    (∃ r ∈ completeRecord, p.reader = r ++ q.reader) ↔ ¬ Lenient p.reader := by
  obtain ⟨-, opcode, rest, hreader, hop, harm⟩ := h.opcode
  have hbody : Implemented opcode → ∃ a, readBody opcode rest = .ok a q.reader := fun hknown =>
    mirrors_parseRecord hknown hop { p with reader := rest } () q harm
  rw [hreader]
  by_cases hknown : Implemented opcode
  · obtain ⟨taken, rfl, htaken⟩ := (recognizes_readBody opcode _ _).1 (hbody hknown)
    rw [lenient_iff hknown htaken, not_not]
    constructor
    · rintro ⟨_, ⟨_, body, rfl, hcomplete⟩, heq⟩
      obtain ⟨rfl, hrest⟩ := List.cons.inj heq
      rwa [List.append_cancel_right hrest]
    · exact fun hcomplete => ⟨opcode :: taken, ⟨opcode, taken, rfl, hcomplete⟩, rfl⟩
  · constructor
    · rintro ⟨_, ⟨_, body, rfl, hcomplete⟩, heq⟩
      obtain ⟨rfl, -⟩ := List.cons.inj heq
      exact absurd (implemented_of_mem_completeBody hcomplete) hknown
    · exact fun hstrict => absurd (.unknown hknown) hstrict

/-- A byte that is neither opcode nor type is a round of its own. -/
theorem round_of_unknown (callback : BinEntry → EStateM (Fault SyncError) σ Unit)
    {b : UInt8} {rest : Bytes} (hb : ¬ Implemented b)
    (hrunning : p.state.eofReached = false) (hreader : p.reader = b :: rest) :
    Round callback p { p with reader := rest } := by
  have hop : b ≠ 0xFF := by
    rintro rfl
    exact hb (by decide)
  have hread := onReader_readByte hreader
  have harm : parseRecord callback b = pure () := by
    rw [parseRecord]
    split
    case h_9 =>
      split
      · next ht => exact absurd (Or.inr (by rw [ht]; rfl)) hb
      · rfl
    all_goals
      next hnat =>
        obtain rfl := eq_ofNat_of_toNat hnat
        exact absurd (by decide) hb
  rw [Round, parseStep, bind_of_ok (get_apply p), hrunning, if_neg Bool.false_ne_true,
    bind_of_ok hread, if_neg hop, harm]
  rfl

theorem parseStep_last (hrunning : p.state.eofReached = false)
    (h : parseStep callback p = .ok (some ()) q) : p.reader = 0xFF :: q.reader := by
  rw [parseStep, bind_of_ok (get_apply p), hrunning, if_neg Bool.false_ne_true] at h
  obtain ⟨opcode, p₁, hread, hrest⟩ := bind_eq_ok.1 h
  rw [bs_eq_cons_of_readByte (onReader_eq_ok.1 hread).1]
  split at hrest
  · next hop =>
      obtain ⟨_, p₂, hstate, hpure⟩ := bind_eq_ok.1 hrest
      cases hstate
      cases hpure
      rw [hop]
  · obtain ⟨_, _, -, hpure⟩ := bind_eq_ok.1 hrest
    cases hpure

/-- However a round ends, it has taken a byte, if there was one. -/
theorem final_parseStep_le (callback : BinEntry → EStateM (Fault SyncError) σ Unit)
    (hrunning : p.state.eofReached = false) :
    (final (parseStep callback p)).left ≤ p.left - 1 := by
  rw [parseStep, bind_of_ok (get_apply p), hrunning, if_neg Bool.false_ne_true]
  cases hreader : p.reader with
  | nil =>
      have hread : onReader readByte p = .error (.err .eof) p := by
        rw [onReader, hreader]
        show EStateM.Result.error _ { p with reader := [] } = _
        rw [← hreader]
      rw [bind_of_error hread]
      show p.reader.length ≤ p.reader.length - 1
      rw [hreader]
      exact Nat.le_refl _
  | cons b rest =>
      have hread := onReader_readByte hreader
      have hleft : p.left - 1 = rest.length := by
        show p.reader.length - 1 = rest.length
        rw [hreader]
        rfl
      rw [bind_of_ok hread, hleft]
      split
      · exact Nat.le_refl _
      · exact ((goesOn_parseRecord_any callback b).bind fun _ => goesOn_pure none).left
          { p with reader := rest }

/-- However the loop ends, it has taken a byte, if there was one and it had a
round. -/
theorem final_loop_le (callback : BinEntry → EStateM (Fault SyncError) σ Unit)
    (hrunning : p.state.eofReached = false) (n : Nat) :
    (final (loopFuel (parseStep callback) n p)).left ≤ p.left - min n 1 := by
  induction n generalizing p with
  | zero => exact Nat.le_refl _
  | succ n ih =>
      have hround := final_parseStep_le callback hrunning
      have hmin : min (n + 1) 1 = 1 := by omega
      rw [loopFuel, hmin]
      cases h : parseStep callback p with
      | error e q =>
          rw [h] at hround
          rw [bind_of_error h]
          exact hround
      | ok r q =>
          rw [h] at hround
          rw [bind_of_ok h]
          cases r with
          | some _ => exact hround
          | none =>
              have hle : q.left ≤ p.left - 1 := hround
              exact Nat.le_trans (ih (Round.running h)) (by omega)

/-- Rounds that are not lenient have taken complete records. -/
theorem records_of_rounds (h : Relation.ReflTransGen (Round callback) p q)
    (hstrict : ∀ r t, Relation.ReflTransGen (Round callback) p r → Round callback r t →
      ¬ Lenient r.reader) :
    ∃ rs : List Bytes, (∀ r ∈ rs, r ∈ completeRecord) ∧
      p.reader = rs.flatten ++ q.reader := by
  induction h with
  | refl => exact ⟨[], by simp, rfl⟩
  | @tail q t hrounds hround ih =>
      obtain ⟨rs, hrs, hp⟩ := ih
      obtain ⟨r, hr, hq⟩ := hround.takes_record_iff.2 (hstrict q t hrounds hround)
      refine ⟨rs ++ [r], ?_, ?_⟩
      · simp only [List.mem_append, List.mem_singleton]
        rintro x (hx | rfl)
        · exact hrs x hx
        · exact hr
      · rw [hp, hq]
        simp

end Rounds

end RedisHaTool.Rdb
