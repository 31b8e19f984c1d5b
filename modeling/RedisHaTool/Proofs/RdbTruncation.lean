import RedisHaTool.Lib.Truncation
import RedisHaTool.Proofs.RdbRecords
import RedisHaTool.Proofs.SendRdb

/-!
# A file cut short

What `parse` does on the beginning of an input that it accepts as a whole. The
rounds of the main loop are the same until one of them comes to the cut. If that
is in a field that the round reads, it fails there, before it has called the
callback. If it is in a stream, whose value is answered as empty whether or not
it could be read, the entry is the one of the whole input all the same; but then
nothing is left, and the next round fails on its opcode. Either way the callback
was called with what it is called with over the whole input, as far as that
goes.
-/

namespace RedisHaTool.Rdb

open Lib

variable {σ α β : Type} {callback : BinEntry → EStateM (Fault SyncError) σ Unit}
  {p q : RdbParser σ} {tail : Bytes}

/-- A callback, and the entries it was called with. -/
def recording (callback : BinEntry → EStateM (Fault SyncError) σ Unit) (entry : BinEntry) :
    EStateM (Fault SyncError) (σ × List BinEntry) Unit := fun s =>
  match callback entry s.1 with
  | .ok _ t => .ok () (t, s.2 ++ [entry])
  | .error e t => .error e (t, s.2 ++ [entry])

/-- With more of the input. -/
def RdbParser.more (p : RdbParser σ) (tail : Bytes) : RdbParser σ :=
  { p with reader := p.reader ++ tail }

/-- The method has failed, and the callback was not called. -/
def FailsAt (p : RdbParser σ) (r : EStateM.Result (Fault SyncError) (RdbParser σ) α) : Prop :=
  ∃ e t, r = .error (.err e) t ∧ t.sink = p.sink

/-- Where the method answers over the whole input, it does the same or fails over
the beginning of it, and does not call the callback. -/
def Cuts (m : ParseM σ α) : Prop :=
  ∀ p tail a q, m (p.more tail) = .ok a q →
    (∃ p', m p = .ok a p' ∧ q = p'.more tail ∧ p'.sink = p.sink) ∨ FailsAt p (m p)

theorem FailsAt.bind {m : ParseM σ α} (h : FailsAt p (m p)) (f : α → ParseM σ β) :
    FailsAt p ((m >>= f) p) := by
  obtain ⟨e, t, heq, hsink⟩ := h
  exact ⟨e, t, bind_of_error heq, hsink⟩

theorem Cuts.pure (a : α) : Cuts (pure a : ParseM σ α) := by
  intro p tail b q h
  cases h
  exact Or.inl ⟨p, rfl, rfl, rfl⟩

theorem Cuts.modifyState (f : RdbParserState → RdbParserState) :
    Cuts (modifyState f : ParseM σ Unit) := by
  intro p tail a q h
  cases h
  exact Or.inl ⟨{ p with state := f p.state }, rfl, rfl, rfl⟩

theorem Cuts.bind {m : ParseM σ α} {f : α → ParseM σ β} (hm : Cuts m)
    (hf : ∀ a, Cuts (f a)) : Cuts (m >>= f) := by
  intro p tail b r h
  obtain ⟨a, q, ha, hb⟩ := bind_eq_ok.1 h
  rcases hm p tail a q ha with ⟨p', hp', rfl, hsink⟩ | hfails
  · rcases hf a p' tail b r hb with ⟨q', hq', rfl, hsink'⟩ | ⟨e, t, heq, hsink'⟩
    · exact Or.inl ⟨q', (bind_of_ok hp').trans hq', rfl, hsink'.trans hsink⟩
    · exact Or.inr ⟨e, t, (bind_of_ok hp').trans heq, hsink'.trans hsink⟩
  · exact Or.inr (hfails.bind f)

theorem cuts_onReader {m : Rd α} (h : Plain m) : Cuts (σ := σ) (onReader m) := by
  intro p tail a q heq
  obtain ⟨hread, hq⟩ := onReader_eq_ok.1 heq
  rcases h.steady.of_ok hread with ⟨left, hleft, hrest⟩ | ⟨e, hout⟩
  · refine Or.inl ⟨{ p with reader := left }, onReader_eq_ok.2 ⟨hleft, rfl⟩, ?_, rfl⟩
    rw [hq, hrest]
    rfl
  · refine Or.inr ⟨e, { p with reader := [] }, ?_, rfl⟩
    rw [onReader, hout]

theorem cuts_readHeader : Cuts (readHeader : ParseM σ Unit) :=
  (cuts_onReader plain_readMagic).bind fun _ =>
    (cuts_onReader plain_readVersion).bind fun _ => Cuts.modifyState _

/-! ## A record -/

/-- The records that have no entry. -/
theorem cuts_parseRecord {opcode : UInt8} (htype : RdbType.fromByte opcode = none) :
    Cuts (parseRecord callback opcode) := by
  have hinline : ∀ text, Cuts (σ := σ) (onReader (readInlineLength text)) :=
    fun text => cuts_onReader (plain_readInlineLength text)
  rw [parseRecord]
  split
  · exact (cuts_onReader taking_readLength.plain).bind fun _ =>
      cuts_onReader plain_skipModuleValue
  · exact (cuts_onReader taking_readLength.plain).bind fun _ => Cuts.pure _
  · exact (cuts_onReader plain_readByte).bind fun _ => Cuts.pure _
  · refine (cuts_onReader plain_readAuxField).bind fun aux => ?_
    split
    · exact Cuts.modifyState _
    · exact Cuts.pure _
  · exact (hinline _).bind fun _ => (hinline _).bind fun _ => Cuts.pure _
  · exact (cuts_onReader plain_readU64).bind fun _ => Cuts.modifyState _
  · exact (cuts_onReader plain_readU32).bind fun _ => Cuts.modifyState _
  · exact (hinline _).bind fun _ => Cuts.modifyState _
  · simp only [htype]
    exact Cuts.pure _

/-- The value of a stream is answered over its beginning as well. -/
theorem readValue_cut {t : RdbType} {bs rest : Bytes} {v : Bytes × Bytes}
    (h : readValue t (bs ++ tail) = .ok v rest) :
    (∃ left, readValue t bs = .ok v left ∧ rest = left ++ tail) ∨
      RanOut (readValue t bs) ∨ readValue t bs = .ok v [] := by
  have hstream : ∀ {t : RdbType}, readStreamValue t (bs ++ tail) = .ok v rest →
      (∃ left, readStreamValue t bs = .ok v left ∧ rest = left ++ tail) ∨
        readStreamValue t bs = .ok v [] := by
    intro t heq
    rw [readStreamValue] at heq ⊢
    rcases (plain_skipStream t).steady bs tail with ⟨e, hout⟩ | hsame
    · rw [hout]
      right
      split at heq
      · cases heq
        rfl
      · cases heq
        rfl
      · cases heq
    · left
      rw [hsame] at heq
      cases hcut : skipStream t bs with
      | ok a left =>
          rw [hcut] at heq
          cases heq
          exact ⟨left, rfl, rfl⟩
      | error e left =>
          rw [hcut] at heq
          cases e with
          | err e =>
              cases heq
              exact ⟨left, rfl, rfl⟩
          | panic => cases heq
          | fuel => cases heq
  cases ht : t.isStream with
  | false => exact ((plain_readValue ht).steady.of_ok h).imp_right Or.inl
  | true =>
      cases t with
      | streamListpacks | streamListpacks2 | streamListpacks3 =>
          exact (hstream h).imp_right Or.inr
      | _ => cases ht

/-- What is done at `p` where, with more of the input, `a` is answered and the
parser left at `q`. -/
inductive CutTo (tail : Bytes) (p q : RdbParser σ) (a : α) :
    EStateM.Result (Fault SyncError) (RdbParser σ) α → Prop where
  | same {p' : RdbParser σ} (hq : q = p'.more tail) : CutTo tail p q a (.ok a p')
  | fails {e : SyncError} {t : RdbParser σ} (hsink : t.sink = p.sink) :
      CutTo tail p q a (.error (.err e) t)
  /-- A stream was cut. -/
  | empty {p' : RdbParser σ} (hnone : p'.reader = []) (hsink : p'.sink = q.sink) :
      CutTo tail p q a (.ok a p')

theorem FailsAt.cutTo {a : α} {r : EStateM.Result (Fault SyncError) (RdbParser σ) α}
    (h : FailsAt p r) : CutTo tail p q a r := by
  obtain ⟨e, t, rfl, hsink⟩ := h
  exact .fails hsink

theorem Cuts.cutTo {m : ParseM σ α} (hm : Cuts m) {a : α}
    (h : m (p.more tail) = .ok a q) : CutTo tail p q a (m p) := by
  rcases hm p tail a q h with ⟨p', heq, hq, -⟩ | hfails
  · rw [heq]
    exact .same hq
  · exact hfails.cutTo

theorem CutTo.of_sink {p₁ : RdbParser σ} (hsink : p₁.sink = p.sink) {a : α}
    {r : EStateM.Result (Fault SyncError) (RdbParser σ) α} (h : CutTo tail p₁ q a r) :
    CutTo tail p q a r := by
  cases h with
  | same hq => exact .same hq
  | fails hkept => exact .fails (hkept.trans hsink)
  | empty hnone hkept => exact .empty hnone hkept

theorem CutTo.bind_pure {m : ParseM σ α} {a : α} {p₁ : RdbParser σ}
    (h : CutTo tail p q a (m p₁)) (b : β) :
    CutTo tail p q b ((m >>= fun _ => pure b) p₁) := by
  rw [bind_apply]
  generalize m p₁ = r at h
  cases h with
  | same hq => exact .same hq
  | fails hkept => exact .fails hkept
  | empty hnone hkept => exact .empty hnone hkept

theorem onSink_eq_ok {m : EStateM (Fault SyncError) σ α} {a : α} :
    onSink m p = .ok a q ↔ m p.sink = .ok a q.sink ∧ q = { p with sink := q.sink } := by
  rw [onSink]
  constructor
  · intro h
    split at h
    · next hm =>
        cases h
        exact ⟨hm, rfl⟩
    · cases h
  · rintro ⟨hm, hq⟩
    rw [hm, hq]

/-- The entry `read_key_value` makes of what it has read. -/
def RdbParser.entry (p : RdbParser σ) (t : RdbType) (key : Bytes) (v : Bytes × Bytes) :
    BinEntry :=
  { db := p.state.currentDb, key, value := v.1, rawValue := some v.2,
    expire := p.state.currentExpire, rdbType := t }

/-- The parser after an entry. -/
def RdbParser.afterEntry (p : RdbParser σ) (rest : Bytes) : RdbParser σ :=
  { p with reader := rest, state := { p.state with currentExpire := none } }

theorem readKeyValue_of_ok {t : RdbType} {key mid rest : Bytes} {v : Bytes × Bytes}
    (hkey : readString p.reader = .ok key mid) (hvalue : readValue t mid = .ok v rest) :
    readKeyValue t p = .ok (p.entry t key v) (p.afterEntry rest) := by
  have hread : onReader readString p = .ok key { p with reader := mid } :=
    onReader_eq_ok.2 ⟨hkey, rfl⟩
  have hread' : onReader (readValue t) { p with reader := mid }
      = .ok v { p with reader := rest } := onReader_eq_ok.2 ⟨hvalue, rfl⟩
  rw [readKeyValue, bind_of_ok hread, bind_of_ok hread']
  rfl

/-- What comes after the entry depends on the callback's state only. -/
theorem deliver_cut {t : RdbType} {entry : BinEntry} {p₁ q₁ : RdbParser σ}
    (hsink : p₁.sink = q₁.sink)
    (h : (if t ≠ .module ∧ t ≠ .module2 then onSink (callback entry) else pure ()) q₁
      = .ok () q) :
    q = { q₁ with sink := q.sink } ∧
      (if t ≠ .module ∧ t ≠ .module2 then onSink (callback entry) else pure ()) p₁
        = .ok () { p₁ with sink := q.sink } := by
  by_cases ht : t ≠ .module ∧ t ≠ .module2
  · rw [if_pos ht] at h ⊢
    obtain ⟨hcall, hq⟩ := onSink_eq_ok.1 h
    refine ⟨hq, onSink_eq_ok.2 ⟨?_, rfl⟩⟩
    rw [hsink]
    exact hcall
  · rw [if_neg ht] at h ⊢
    cases h
    refine ⟨rfl, ?_⟩
    rw [← hsink]
    rfl

/-- An entry answered is made of what was read. -/
theorem entry_of_readKeyValue {t : RdbType} {entry : BinEntry}
    (h : readKeyValue t p = .ok entry q) :
    ∃ key mid v rest, readString p.reader = .ok key mid ∧ readValue t mid = .ok v rest ∧
      entry = p.entry t key v ∧ q = p.afterEntry rest := by
  obtain ⟨key, mid, v, hkey, hvalue⟩ := readKeyValue_eq_ok h
  obtain ⟨hentry, hq⟩ :=
    EStateM.Result.ok.inj (h.symm.trans (readKeyValue_of_ok hkey hvalue))
  exact ⟨key, mid, v, q.reader, hkey, hvalue, hentry, hq⟩

/-- A record with an entry. -/
theorem parseRecord_type_cut {t : RdbType}
    (h : parseRecord callback t.toByte (p.more tail) = .ok () q) :
    CutTo tail p q () (parseRecord callback t.toByte p) := by
  rw [parseRecord_type] at h ⊢
  obtain ⟨entry, q₁, hentry, hdeliver⟩ := bind_eq_ok.1 h
  obtain ⟨key, mid, v, rest, hkey, hvalue, rfl, rfl⟩ := entry_of_readKeyValue hentry
  rcases plain_readString.steady.of_ok hkey with ⟨left, hleft, rfl⟩ | ⟨e, hout⟩
  · rcases readValue_cut hvalue with ⟨left', hcut, rfl⟩ | ⟨e, hout⟩ | hcut
    · have hsink : (p.afterEntry left').sink
          = ((p.more tail).afterEntry (left' ++ tail)).sink := rfl
      obtain ⟨hq, hcall⟩ := deliver_cut hsink hdeliver
      rw [(bind_of_ok (readKeyValue_of_ok hleft hcut)).trans hcall]
      exact .same hq
    · have hread : readKeyValue t p = .error (.err e) { p with reader := [] } := by
        have hkey' : onReader readString p = .ok key { p with reader := left } :=
          onReader_eq_ok.2 ⟨hleft, rfl⟩
        rw [readKeyValue, bind_of_ok hkey']
        refine bind_of_error ?_
        rw [onReader, hout]
      rw [bind_of_error hread]
      exact .fails rfl
    · have hsink : (p.afterEntry []).sink = ((p.more tail).afterEntry rest).sink := rfl
      obtain ⟨hq, hcall⟩ := deliver_cut hsink hdeliver
      rw [(bind_of_ok (readKeyValue_of_ok hleft hcut)).trans hcall]
      exact .empty rfl rfl
  · have hread : readKeyValue t p = .error (.err e) { p with reader := [] } := by
      rw [readKeyValue]
      refine bind_of_error ?_
      rw [onReader, hout]
    rw [bind_of_error hread]
    exact .fails rfl

theorem parseRecord_cut {opcode : UInt8}
    (h : parseRecord callback opcode (p.more tail) = .ok () q) :
    CutTo tail p q () (parseRecord callback opcode p) := by
  cases htype : RdbType.fromByte opcode with
  | none => exact (cuts_parseRecord htype).cutTo h
  | some t =>
      obtain rfl := eq_toByte_of_fromByte htype
      exact parseRecord_type_cut h

/-! ## Rounds -/

/-- A round, of which the last one is never empty. -/
theorem parseStep_cut {r : Option Unit} (h : parseStep callback (p.more tail) = .ok r q) :
    CutTo tail p q r (parseStep callback p) := by
  rw [parseStep, bind_of_ok (get_apply _)] at h ⊢
  by_cases heof : p.state.eofReached
  · rw [if_pos heof]
    rw [if_pos (show (p.more tail).state.eofReached = true from heof)] at h
    cases h
    exact .same rfl
  · rw [if_neg heof]
    rw [if_neg (show ¬ (p.more tail).state.eofReached = true from heof)] at h
    obtain ⟨opcode, q₁, hopcode, hrest⟩ := bind_eq_ok.1 h
    rcases (cuts_onReader plain_readByte) p tail opcode q₁ hopcode with
      ⟨p₁, hp₁, rfl, hsink⟩ | hfails
    · rw [bind_of_ok hp₁]
      by_cases hop : opcode = 0xFF
      · rw [if_pos hop] at hrest ⊢
        exact (((Cuts.modifyState _).bind fun _ => Cuts.pure _).cutTo hrest).of_sink hsink
      · rw [if_neg hop] at hrest ⊢
        obtain ⟨_, q₂, harm, hpure⟩ := bind_eq_ok.1 hrest
        cases hpure
        exact ((parseRecord_cut harm).of_sink hsink).bind_pure none
    · exact (hfails.bind _).cutTo

theorem parseStep_nil (hrunning : p.state.eofReached = false) (hreader : p.reader = []) :
    parseStep callback p = .error (.err .eof) p := by
  have hread : onReader readByte p = .error (.err .eof) p := by
    rw [onReader, hreader]
    show EStateM.Result.error _ { p with reader := [] } = _
    rw [← hreader]
  rw [parseStep, bind_of_ok (get_apply p), hrunning, if_neg Bool.false_ne_true,
    bind_of_error hread]

/-- The cut loop has failed with its callback as it was when the loop over the
whole input was at `u`, from where that goes on to `q`. -/
def StoppedAt (callback : BinEntry → EStateM (Fault SyncError) σ Unit) (p q : RdbParser σ)
    (r : EStateM.Result (Fault SyncError) (RdbParser σ) Unit) : Prop :=
  ∃ e t u k, r = .error (.err e) t ∧ Relation.ReflTransGen (Round callback) p u ∧
    t.sink = u.sink ∧ loopFuel (parseStep callback) k u = .ok () q

theorem StoppedAt.head {p' : RdbParser σ} (hround : Round callback p p')
    {r : EStateM.Result (Fault SyncError) (RdbParser σ) Unit}
    (h : StoppedAt callback p' q r) : StoppedAt callback p q r := by
  obtain ⟨e, t, u, k, heq, hrounds, hsink, hloop⟩ := h
  exact ⟨e, t, u, k, heq, .head hround hrounds, hsink, hloop⟩

/-- The induction is on the budget over the whole input. -/
theorem loop_cut {n k : Nat} (hrunning : p.state.eofReached = false) (hn : p.left < n)
    (h : loopFuel (parseStep callback) k (p.more tail) = .ok () q) :
    tail.length ≤ q.left ∨
      StoppedAt callback (p.more tail) q (loopFuel (parseStep callback) n p) := by
  induction k generalizing n p with
  | zero => cases h
  | succ k ih =>
      have hwhole := h
      obtain ⟨m, rfl⟩ : ∃ m, n = m + 1 := ⟨n - 1, by omega⟩
      rw [loopFuel] at h
      obtain ⟨r, q₁, hstep, hrest⟩ := bind_eq_ok.1 h
      have hfails : ∀ {e t}, parseStep callback p = .error (.err e) t → t.sink = p.sink →
          StoppedAt callback (p.more tail) q (loopFuel (parseStep callback) (m + 1) p) := by
        intro e t heq hsink
        exact ⟨e, t, p.more tail, k + 1, bind_of_error heq, .refl, hsink, hwhole⟩
      cases r with
      | some _ =>
          cases hrest
          have hrunning' : (p.more tail).state.eofReached = false := hrunning
          have hlast : p.reader ++ tail = 0xFF :: q.reader := parseStep_last hrunning' hstep
          cases hreader : p.reader with
          | nil => exact Or.inr (hfails (parseStep_nil hrunning hreader) rfl)
          | cons b rest =>
              left
              rw [hreader] at hlast
              have hq : rest ++ tail = q.reader := (List.cons.inj hlast).2
              show tail.length ≤ q.reader.length
              rw [← hq, List.length_append]
              omega
      | none =>
          have hcut := parseStep_cut hstep
          generalize hround : parseStep callback p = x at hcut
          cases hcut with
          | @same p' hq =>
              subst hq
              have hlt : p'.left < p.left := Round.takes hround
              rw [loopFuel, bind_of_ok hround]
              exact (ih (Round.running hround) (by omega) hrest).imp_right
                (StoppedAt.head hstep)
          | fails hsink => exact Or.inr (hfails hround hsink)
          | @empty p' hnone hsink =>
              have hlt : p'.left < p.left := Round.takes hround
              obtain ⟨j, rfl⟩ : ∃ j, m = j + 1 := ⟨m - 1, by omega⟩
              have hstop : parseStep callback p' = .error (.err .eof) p' :=
                parseStep_nil (Round.running hround) hnone
              rw [loopFuel, bind_of_ok hround]
              exact Or.inr ⟨.eof, p', q₁, k, bind_of_error hstop, .single hstep, hsink, hrest⟩

/-! ## The file -/

/-- The callback has been called with more and more entries. -/
theorem prefix_of_loop {callback : BinEntry → EStateM (Fault SyncError) σ Unit}
    {p q : RdbParser (σ × List BinEntry)} {k : Nat} (hdb : p.state.currentDb < 2 ^ 32)
    (h : loopFuel (parseStep (recording callback)) k p = .ok () q) :
    p.sink.2 <+: q.sink.2 := by
  have hcall : ∀ entry : BinEntry, entry.Deliverable →
      Ensures (fun s : σ × List BinEntry => p.sink.2 <+: s.2) (recording callback entry)
        fun _ s => p.sink.2 <+: s.2 := by
    intro entry _ s hs a t heq
    rw [recording] at heq
    split at heq
    · cases heq
      exact hs.trans (List.prefix_append s.2 [entry])
    · cases heq
  have hloop := Ensures.loopFuel (Q := fun _ => InOrder _)
    ((ensures_parseStep hcall).mono fun r p h => ⟨fun _ => h, fun _ _ => h⟩) k
  exact (hloop p ⟨hdb, List.prefix_refl p.sink.2⟩ () q h).2

theorem ensures_readHeader {I : σ → Prop} :
    Ensures (InOrder I) (readHeader : ParseM σ Unit) fun _ => InOrder I :=
  ensures_onReader_any.bind fun _ => ensures_onReader_any.bind fun _ =>
    ensures_modifyState fun _ h => h

theorem db_of_rounds (hdb : p.state.currentDb < 2 ^ 32)
    (h : Relation.ReflTransGen (Round callback) p q) : q.state.currentDb < 2 ^ 32 := by
  have hcall : ∀ entry : BinEntry, entry.Deliverable →
      Ensures (fun _ => True) (callback entry) fun _ _ => True :=
    fun _ _ _ _ _ _ _ => trivial
  induction h with
  | refl => exact hdb
  | @tail q r _ hround ih => exact (ensures_parseStep hcall q ⟨ih, trivial⟩ none r hround).1

/-- Of a file that `parse` accepts, no beginning is accepted that lacks some of
what was consumed. It fails on each of them, after it has called the callback
with the first entries of the file, and with no others. -/
theorem parse_truncated {callback : BinEntry → EStateM (Fault SyncError) σ Unit} {bs : Bytes}
    {s : σ} {fields : List RdbAuxField} {q : RdbParser (σ × List BinEntry)}
    (h : parse (recording callback) (RdbParser.new bs (s, [])) = .ok fields q) {m : Nat}
    (hm : m < bs.length - q.reader.length) :
    ∃ e t, parse (recording callback) (RdbParser.new (bs.take m) (s, [])) = .error (.err e) t ∧
      t.sink.2 <+: q.sink.2 := by
  obtain ⟨p₀, hheader, hloop⟩ := parse_eq_ok h
  have hsplit : RdbParser.new bs (s, [])
      = (RdbParser.new (bs.take m) (s, ([] : List BinEntry))).more (bs.drop m) := by
    show _ = ({ reader := bs.take m ++ bs.drop m, .. } : RdbParser _)
    rw [List.take_append_drop]
    rfl
  rw [hsplit] at hheader
  rcases cuts_readHeader _ _ () p₀ hheader with ⟨p', hp', rfl, hsink⟩ | ⟨e, t, hfail, hsink⟩
  · obtain ⟨-, -, -, hrunning⟩ := readHeader_eq_ok hp'
    rcases loop_cut hrunning (Nat.lt_succ_self p'.left) hloop with
      hle | ⟨e, t, u, k, hfail, hrounds, hkept, hrest⟩
    · have hlen : (bs.drop m).length ≤ q.reader.length := hle
      rw [List.length_drop] at hlen
      omega
    · refine ⟨e, t, (parse_of_readHeader hp').trans (bind_of_error hfail), ?_⟩
      have hnew : InOrder (fun _ => True)
          (RdbParser.new (bs.take m) (s, ([] : List BinEntry))) := by
        refine ⟨?_, trivial⟩
        show 0 < 2 ^ 32
        omega
      have hdb : (p'.more (bs.drop m)).state.currentDb < 2 ^ 32 :=
        (ensures_readHeader _ hnew () p' hp').1
      rw [hkept]
      exact prefix_of_loop (db_of_rounds hdb hrounds) hrest
  · refine ⟨e, t, parse_of_readHeader_error hfail, ?_⟩
    rw [hsink]
    exact List.nil_prefix

/-- A stream without entries or groups, as the parser reads it. -/
def streamFile : Bytes :=
  asBytes "REDIS0009".toList ++ [15, 1, 0x6B, 0, 0, 0, 0, 0xFF]

/-- Cut after the first number of the stream: its entry is delivered, and there
is nothing left to read an opcode from. -/
theorem parse_truncated_streamFile :
    ∃ e t, parse (recording (accepting keep))
        (RdbParser.new (streamFile.take 13) ([], [])) = .error (.err e) t ∧
      t.sink.2 <+: (final (parse (recording (accepting keep))
        (RdbParser.new streamFile ([], [])))).sink.2 := by
  have hparse : answer (parse (recording (accepting keep))
      (RdbParser.new streamFile ([], []))) = some [] := by
    decide +kernel
  exact parse_truncated (eq_ok_of_answer hparse) (by decide +kernel)

end RedisHaTool.Rdb
