import RedisHaTool.Proofs.RdbHalts
import RedisHaTool.Proofs.RdbRoundTrip
import RedisHaTool.Syncer.Forwarder
import RedisHaTool.Syncer.Output

/-!
# What an RDB that was sent has restored

`send_rdb_data` answers `Ok` in three cases, and only one of them has restored
anything: the reader had nothing, the data could not be parsed, or every entry
the parser delivered was gone through. An entry is passed over without a
`RESTORE` when it has no payload. The parser keeps the encoding of every value
but that of a stream, so these are the streams; a module it does not deliver at
all.

That the encoding is kept is a postcondition of the parser's methods, carried
through the main loop by an invariant of what the callback has collected.
-/

namespace RedisHaTool.Rdb

open Lib

/-! ## What the parser delivers -/

/-- The encoding of the value was kept, unless it is a stream. -/
def BinEntry.Kept (entry : BinEntry) : Prop :=
  ∃ rawValue, entry.rawValue = some rawValue ∧
    (rawValue = [] ↔ entry.rdbType.isStream = true)

/-- An entry the parser may deliver: its encoding was kept, and its database is
a `u32`. -/
def BinEntry.Deliverable (entry : BinEntry) : Prop := entry.Kept ∧ entry.db < 2 ^ 32

/-- A reader whose answers have the property. -/
abbrev Answers {α : Type} (m : Rd α) (P : α → Prop) : Prop :=
  Ensures (fun _ => True) m fun a _ => P a

theorem answers_fail {α : Type} {P : α → Prop} (text : Text) : Answers (fail text) P :=
  Ensures.throw _

theorem answers_pure {α : Type} {P : α → Prop} {a : α} (h : P a) :
    Answers (pure a) P :=
  Ensures.pure fun _ _ => h

theorem answers_readStringWithRawBytes :
    Answers readStringWithRawBytes fun r => r.2 ≠ [] := by
  refine Ensures.bind_any fun first => ?_
  split
  · exact Ensures.bind_any fun data => answers_pure (by simp)
  · exact Ensures.bind_any fun second => Ensures.bind_any fun data =>
      answers_pure (by simp)
  · split
    · exact Ensures.bind_any fun len => Ensures.bind_any fun data =>
        answers_pure (by simp)
    · split
      · exact Ensures.bind_any fun len => Ensures.bind_any fun data =>
          answers_pure (by simp)
      · exact answers_fail _
  · split
    · exact Ensures.bind_any fun b => answers_pure (by simp)
    · exact Ensures.bind_any fun v => answers_pure (by simp)
    · exact Ensures.bind_any fun v => answers_pure (by simp)
    · exact Ensures.bind_any fun _ => Ensures.bind_any fun _ =>
        Ensures.bind_any fun _ => answers_pure (by simp)
    · exact answers_fail _

theorem answers_readLengthWithRaw : Answers readLengthWithRaw fun r => r.2 ≠ [] := by
  refine Ensures.bind_any fun first => ?_
  split
  · exact answers_pure (by simp)
  · exact Ensures.bind_any fun second => answers_pure (by simp)
  · split
    · exact Ensures.bind_any fun len => answers_pure (by simp)
    · split
      · exact Ensures.bind_any fun len => answers_pure (by simp)
      · exact answers_fail _
  · split
    · exact Ensures.bind_any fun b => answers_pure (by simp)
    · exact Ensures.bind_any fun v => answers_pure (by simp)
    · exact Ensures.bind_any fun v => answers_pure (by simp)
    · exact answers_fail _

/-- The bytes of the count are kept, and each element adds to them. -/
theorem answers_readElements (what : Text) (element : Rd Bytes) :
    Answers (readElements what element) fun r => r.2 ≠ [] := by
  refine answers_readLengthWithRaw.bind fun (count, lenRaw) => ?_
  have hround : ∀ raw : Bytes, Ensures (fun _ => raw ≠ [])
      (do let elemRaw ← element; pure (raw ++ elemRaw)) fun raw _ => raw ≠ [] := by
    intro raw
    refine Ensures.bind (Q := fun _ _ => raw ≠ []) (fun _ h _ _ _ => h) fun elemRaw => ?_
    exact Ensures.pure fun _ h => List.append_ne_nil_of_left_ne_nil h elemRaw
  show Ensures (fun _ => lenRaw ≠ []) _ _
  dsimp only
  split
  · exact Ensures.bind (Q := fun _ _ => False) (Ensures.throw _) fun _ _ h => h.elim
  · refine (Ensures.forCount (I := fun raw _ => raw ≠ []) hround count lenRaw).bind ?_
    exact fun raw => Ensures.pure fun _ h => h

/-- A stream is answered as an empty value, whether or not it could be read. -/
theorem answers_readStreamValue (rdbType : RdbType) :
    Answers (readStreamValue rdbType) fun r => r.2 = [] := by
  intro bs _ r rest h
  rw [readStreamValue] at h
  split at h
  · cases h; rfl
  · cases h; rfl
  · cases h

/-- The types whose entries the parser delivers. -/
def RdbType.Delivered (rdbType : RdbType) : Prop := rdbType ≠ .module ∧ rdbType ≠ .module2

theorem answers_readValue (rdbType : RdbType) :
    Answers (readValue rdbType) fun r =>
      rdbType.Delivered → (r.2 = [] ↔ rdbType.isStream = true) := by
  have hkept : ∀ {m : Rd (Bytes × Bytes)} {t : RdbType}, t.isStream = false →
      Answers m (fun r => r.2 ≠ []) →
      Answers m fun r => t.Delivered → (r.2 = [] ↔ t.isStream = true) :=
    fun ht hm => hm.mono fun r _ hr _ => by simp [ht, hr]
  have hskipped : ∀ {m : Rd (Bytes × Bytes)} {t : RdbType}, t.isStream = true →
      Answers m (fun r => r.2 = []) →
      Answers m fun r => t.Delivered → (r.2 = [] ↔ t.isStream = true) :=
    fun ht hm => hm.mono fun r _ hr _ => by simp [ht, hr]
  cases rdbType with
  | module => exact fun _ _ _ _ _ h => absurd rfl h.1
  | module2 => exact fun _ _ _ _ _ h => absurd rfl h.2
  | list | set | hash | sortedSet | sortedSet2 | quicklist | quicklist2 =>
      exact hkept rfl (answers_readElements _ _)
  | streamListpacks | streamListpacks2 | streamListpacks3 =>
      exact hskipped rfl (answers_readStreamValue _)
  | _ => exact hkept rfl answers_readStringWithRawBytes

/-! ## The main loop -/

section Parse

variable {σ α : Type}

/-- The callback's state is in order, and the database selected last is a
`u32`. -/
def InOrder (I : σ → Prop) (p : RdbParser σ) : Prop :=
  p.state.currentDb < 2 ^ 32 ∧ I p.sink

/-- What a method of the reader answers, and that the callback has no part in
it. -/
theorem ensures_onReader {m : Rd α} {P : α → Prop} {I : σ → Prop} (h : Answers m P) :
    Ensures (InOrder I) (onReader m : ParseM σ α) fun a p => P a ∧ InOrder I p := by
  intro p hp a q heq
  rw [onReader] at heq
  split at heq
  case h_1 a' rest hm =>
      cases heq
      exact ⟨h p.reader trivial a rest hm, hp⟩
  case h_2 => cases heq

/-- A method whose answer does not matter. -/
theorem ensures_onReader_any {m : Rd α} {I : σ → Prop} :
    Ensures (InOrder I) (onReader m : ParseM σ α) fun _ => InOrder I :=
  (ensures_onReader (P := fun _ => True) fun _ _ _ _ _ => trivial).mono fun _ _ h => h.2

theorem ensures_modifyState {f : RdbParserState → RdbParserState} {I : σ → Prop}
    (hf : ∀ s, s.currentDb < 2 ^ 32 → (f s).currentDb < 2 ^ 32) :
    Ensures (InOrder I) (modifyState f : ParseM σ Unit) fun _ => InOrder I := by
  intro p hp a q heq
  rw [modifyState] at heq
  cases heq
  exact ⟨hf p.state hp.1, hp.2⟩

theorem ensures_readKeyValue (rdbType : RdbType) {I : σ → Prop} :
    Ensures (InOrder I) (readKeyValue rdbType : ParseM σ BinEntry)
      fun entry p => (rdbType.Delivered → entry.Deliverable) ∧ InOrder I p := by
  refine ensures_onReader_any.bind fun key => ?_
  refine (ensures_onReader (answers_readValue rdbType)).bind fun (value, rawValue) => ?_
  refine Ensures.assume fun hraw => ?_
  refine Ensures.get_read.bind fun p => ?_
  refine Ensures.assume fun hp => ?_
  refine (ensures_modifyState (by exact fun _ h => h)).bind fun _ => ?_
  refine Ensures.pure fun s hs => ⟨fun hdel => ⟨⟨rawValue, rfl, hraw hdel⟩, hp.1⟩, hs⟩

variable {callback : BinEntry → EStateM (Fault SyncError) σ Unit} {I : σ → Prop}

/-- What the callback keeps when it is called with an entry the parser may
deliver, a record keeps. -/
theorem ensures_parseRecord (hcall : ∀ entry : BinEntry, entry.Deliverable →
      Ensures I (callback entry) fun _ s => I s) (opcode : UInt8) :
    Ensures (InOrder I) (parseRecord callback opcode) fun _ => InOrder I := by
  rw [parseRecord]
  split
  · exact ensures_onReader_any.bind fun _ => ensures_onReader_any
  · exact ensures_onReader_any.bind fun _ => Ensures.pure fun _ h => h
  · exact ensures_onReader_any.bind fun _ => Ensures.pure fun _ h => h
  · refine ensures_onReader_any.bind fun aux => ?_
    split
    · exact ensures_modifyState fun _ h => h
    · exact Ensures.pure fun _ h => h
  · exact ensures_onReader_any.bind fun _ => ensures_onReader_any.bind fun _ =>
      Ensures.pure fun _ h => h
  · exact ensures_onReader_any.bind fun _ => ensures_modifyState fun _ h => h
  · exact ensures_onReader_any.bind fun _ => ensures_modifyState fun _ h => h
  · exact ensures_onReader_any.bind fun _ => ensures_modifyState fun _ _ =>
      Nat.mod_lt _ (by decide)
  · split
    case h_1 rdbType _ =>
      refine (ensures_readKeyValue rdbType).bind fun entry => ?_
      refine Ensures.assume fun hkept => ?_
      split
      case isTrue hdel =>
          intro p hp a q heq
          rw [onSink] at heq
          split at heq
          case h_1 hc =>
              cases heq
              exact ⟨hp.1, hcall entry (hkept hdel) p.sink hp.2 a _ hc⟩
          case h_2 => cases heq
      case isFalse => exact Ensures.pure fun _ h => h
    case h_2 => exact Ensures.pure fun _ h => h

theorem ensures_parseStep (hcall : ∀ entry : BinEntry, entry.Deliverable →
      Ensures I (callback entry) fun _ s => I s) :
    Ensures (InOrder I) (parseStep callback) fun _ => InOrder I := by
  refine Ensures.get.bind fun p => ?_
  split
  · exact Ensures.pure fun _ h => h
  · refine ensures_onReader_any.bind fun opcode => ?_
    split
    · exact (ensures_modifyState (by exact fun _ h => h)).bind fun _ => Ensures.pure fun _ h => h
    · exact (ensures_parseRecord hcall opcode).bind fun _ => Ensures.pure fun _ h => h

/-- Whatever the input: what the callback keeps, the parser keeps. -/
theorem ensures_parse (hcall : ∀ entry : BinEntry, entry.Deliverable →
      Ensures I (callback entry) fun _ s => I s) :
    Ensures (InOrder I) (parse callback) fun _ => InOrder I := by
  refine ensures_onReader_any.bind fun _ => ?_
  refine ensures_onReader_any.bind fun version => ?_
  refine (ensures_modifyState (by exact fun _ h => h)).bind fun _ => ?_
  refine Ensures.get.bind fun p => ?_
  refine Ensures.bind (Q := fun _ => InOrder I) ?_ fun _ => Ensures.pure fun _ h => h
  exact Ensures.loopFuel ((ensures_parseStep hcall).mono fun r p h =>
    ⟨fun _ => h, fun _ _ => h⟩) _

end Parse

end RedisHaTool.Rdb

namespace RedisHaTool.Syncer

open Lib Rdb

/-! ## What goes over the connection -/

/-- The reply that was read says `+OK`. -/
def Exchange.Acked (x : Exchange) : Prop :=
  ∃ response, x.reply = .ok response ∧ containsOk response = true

/-- A `RESTORE` of the entry that was acknowledged. -/
def Exchange.RestoreOf (x : Exchange) (rdbVersion : Nat) (entry : BinEntry) : Prop :=
  x.Acked ∧ ∃ dumpPayload now, generateDumpPayload entry rdbVersion = some dumpPayload ∧
    x.command = restoreCommand entry dumpPayload now

/-- The exchanges that restore some entries, over a connection that is in a
database: one for every entry but the streams, in order, with a `SELECT`
wherever the database changes. -/
inductive Restores (rdbVersion : Nat) : Nat → List BinEntry → List Exchange → Prop where
  | nil (db : Nat) : Restores rdbVersion db [] []
  | select {db : Nat} {entry : BinEntry} {entries : List BinEntry} {x : Exchange}
      {xs : List Exchange} (hdb : entry.db ≠ db) (hcommand : x.command = selectCommand entry.db)
      (hacked : x.Acked) (hrest : Restores rdbVersion entry.db (entry :: entries) xs) :
      Restores rdbVersion db (entry :: entries) (x :: xs)
  | restore {entry : BinEntry} {entries : List BinEntry} {x : Exchange}
      {xs : List Exchange} (hx : x.RestoreOf rdbVersion entry)
      (hrest : Restores rdbVersion entry.db entries xs) :
      Restores rdbVersion entry.db (entry :: entries) (x :: xs)
  | skip {entry : BinEntry} {entries : List BinEntry} {xs : List Exchange}
      (hstream : entry.rdbType.isStream = true)
      (hrest : Restores rdbVersion entry.db entries xs) :
      Restores rdbVersion entry.db (entry :: entries) xs

/-- What a `send_rdb_data` that answers `Ok` has sent of the content, and what
it answers. -/
inductive Sent (size : Option Int) : Bytes → Int → List Exchange → Prop where
  /-- There is nothing to send. -/
  | empty : Sent size [] 0 []
  /-- The content is not an RDB: it is passed over. -/
  | unparsable {content : Bytes} {e : SyncError} {p : RdbParser (List BinEntry)}
      (hparse : parseEntries content = .error (.err e) p) :
      Sent size content (size.getD 0) []
  /-- Every entry the parser delivered is restored. -/
  | restored {content : Bytes} {aux : List RdbAuxField}
      {p : RdbParser (List BinEntry)} {xs : List Exchange}
      (hparse : parseEntries content = .ok aux p)
      (hxs : Restores (dumpVersion p.state.version) 0 p.sink xs) :
      Sent size content (size.getD 0) xs

variable {s t : OutState} {rdbVersion : Nat}

theorem sendCommand_ok {command : Bytes} {response : Response}
    (h : sendCommand command s = .ok response t) :
    t.exchanges = s.exchanges ++ [{ command, reply := .ok response }] := by
  rw [sendCommand] at h
  split at h
  · cases h
  · split at h
    · cases h
    · dsimp only at h
      split at h
      case h_1 => cases h
      case h_2 hread =>
          cases h
          rw [hread]

/-- A command whose reply has to say `+OK`. -/
theorem sendChecked_ok {command : Bytes} {failed : Response → SyncError}
    (h : (do let response ← sendCommand command
             if ¬ containsOk response then throw (.err (failed response)) : OutM Unit) s
      = .ok () t) :
    ∃ x : Exchange, x.command = command ∧ x.Acked ∧ t.exchanges = s.exchanges ++ [x] := by
  obtain ⟨response, u, hsend, hcheck⟩ := bind_eq_ok.1 h
  split at hcheck
  · cases hcheck
  case isFalse hok =>
      cases hcheck
      refine ⟨_, rfl, ⟨response, rfl, ?_⟩, sendCommand_ok hsend⟩
      simpa using hok

theorem sendRestoreCommand_ok {entry : BinEntry}
    (h : sendRestoreCommand entry rdbVersion s = .ok () t) :
    (generateDumpPayload entry rdbVersion = none ∧ t.exchanges = s.exchanges) ∨
      ∃ x : Exchange, x.RestoreOf rdbVersion entry ∧ t.exchanges = s.exchanges ++ [x] := by
  rw [sendRestoreCommand] at h
  cases hpayload : generateDumpPayload entry rdbVersion with
  | none =>
      rw [hpayload] at h
      cases h
      exact .inl ⟨rfl, rfl⟩
  | some dumpPayload =>
      rw [hpayload] at h
      obtain ⟨now, u, hnow, hsend⟩ := bind_eq_ok.1 h
      cases hnow
      obtain ⟨x, hcommand, hacked, hx⟩ := sendChecked_ok hsend
      exact .inr ⟨x, ⟨hacked, dumpPayload, _, hpayload, hcommand⟩, hx⟩

/-- An entry whose encoding was kept has no payload only if it is a stream. -/
theorem isStream_of_no_payload {entry : BinEntry} (hkept : entry.Kept)
    (h : generateDumpPayload entry rdbVersion = none) : entry.rdbType.isStream = true := by
  obtain ⟨rawValue, hraw, hstream⟩ := hkept
  rw [generateDumpPayload_eq_none, hraw] at h
  exact hstream.1 (by simpa using h)

/-- The loop over the entries. The induction is on them, and the database the
connection is in carries it. -/
theorem sendEntries_ok {entries : List BinEntry} (hkept : ∀ e ∈ entries, BinEntry.Kept e)
    {currentDb : Nat} (h : sendEntries rdbVersion currentDb entries s = .ok () t) :
    ∃ xs, t.exchanges = s.exchanges ++ xs ∧ Restores rdbVersion currentDb entries xs := by
  induction entries generalizing currentDb s with
  | nil =>
      cases h
      exact ⟨[], (List.append_nil _).symm, .nil _⟩
  | cons entry entries ih =>
      have hentry : ∀ {u : OutState},
          (do sendRestoreCommand entry rdbVersion
              sendEntries rdbVersion entry.db entries : OutM Unit) u = .ok () t →
          ∃ xs, t.exchanges = u.exchanges ++ xs ∧
            Restores rdbVersion entry.db (entry :: entries) xs := by
        intro u hu
        obtain ⟨_, v, hrestore, hrest⟩ := bind_eq_ok.1 hu
        obtain ⟨xs, hxs, hrestores⟩ :=
          ih (fun e he => hkept e (List.mem_cons_of_mem entry he)) hrest
        rcases sendRestoreCommand_ok hrestore with ⟨hnone, hv⟩ | ⟨x, hx, hv⟩
        · have hstream := isStream_of_no_payload (hkept entry List.mem_cons_self) hnone
          exact ⟨xs, by rw [hxs, hv], .skip hstream hrestores⟩
        · refine ⟨x :: xs, ?_, .restore hx hrestores⟩
          rw [hxs, hv, List.append_assoc, List.singleton_append]
      rw [sendEntries] at h
      split at h
      case isTrue hdb =>
          obtain ⟨_, u, hselect, hrest⟩ := bind_eq_ok.1 h
          obtain ⟨x, hcommand, hacked, hu⟩ := sendChecked_ok hselect
          obtain ⟨xs, hxs, hrestores⟩ := hentry hrest
          refine ⟨x :: xs, ?_, .select hdb hcommand hacked hrestores⟩
          rw [hxs, hu, List.append_assoc, List.singleton_append]
      case isFalse hdb =>
          rw [Decidable.not_not] at hdb
          subst hdb
          exact hentry h

/-! ## The parser under the callback -/

theorem parseEntries_deliverable {content : Bytes} {aux : List RdbAuxField}
    {p : RdbParser (List BinEntry)} (h : parseEntries content = .ok aux p) :
    ∀ e ∈ p.sink, BinEntry.Deliverable e := by
  have hcall : ∀ entry : BinEntry, entry.Deliverable →
      Ensures (fun entries => ∀ e ∈ entries, BinEntry.Deliverable e) (pushEntry entry)
        fun _ entries => ∀ e ∈ entries, BinEntry.Deliverable e := by
    intro entry hentry entries hentries a t heq
    cases heq
    intro e he
    rcases List.mem_append.1 he with he | he
    · exact hentries e he
    · rw [List.mem_singleton.1 he]
      exact hentry
  have hnew : InOrder (fun entries => ∀ e ∈ entries, BinEntry.Deliverable e)
      (RdbParser.new content []) :=
    ⟨Nat.two_pow_pos 32, fun e he => by cases he⟩
  exact (ensures_parse hcall _ hnew aux p h).2

theorem parseEntries_halts (content : Bytes) (p : RdbParser (List BinEntry)) :
    parseEntries content ≠ .error .fuel p :=
  parse_halts (fun _ _ _ h => by cases h) _ p

/-- A well-formed file, whatever follows it: the entries are those of its
records. -/
theorem parseEntries_rdbFile (f : RdbFile) (tail : Bytes) :
    ∃ p, parseEntries (f.bytes ++ tail) = .ok [] p ∧ p.sink = f.entries := by
  obtain ⟨p, hparse, -, hsink⟩ :=
    parse_at (fun entries entry => entries ++ [entry]) f (at_new (s := []) (f.bytes ++ tail))
  refine ⟨p, hparse, ?_⟩
  rw [hsink, List.foldl_append_eq_append, List.nil_append, ← List.flatMap_def,
    List.flatMap_singleton']

/-! ## The whole of it -/

/-- The error is the code's own. -/
def IsErr (fault : Fault SyncError) : Prop := ∃ e, fault = .err e

theorem raises_sendCommand (command : Bytes) : Raises IsErr (sendCommand command) := by
  intro s fault t h
  rw [sendCommand] at h
  split at h
  · cases h
    exact ⟨_, rfl⟩
  · split at h
    · cases h
      exact ⟨_, rfl⟩
    · dsimp only at h
      split at h
      · cases h
        exact ⟨_, rfl⟩
      · cases h

theorem raises_sendSelect (db : Nat) : Raises IsErr (sendSelect db) := by
  refine (raises_sendCommand _).bind fun response => ?_
  split
  · exact Raises.throw ⟨_, rfl⟩
  · exact Raises.pure ()

theorem raises_sendRestoreCommand (entry : BinEntry) (rdbVersion : Nat) :
    Raises IsErr (sendRestoreCommand entry rdbVersion) := by
  rw [sendRestoreCommand]
  split
  · exact Raises.pure ()
  · refine Raises.bind (fun s e t h => by cases h) fun now => ?_
    refine (raises_sendCommand _).bind fun response => ?_
    split
    · exact Raises.throw ⟨_, rfl⟩
    · exact Raises.pure ()

theorem raises_sendEntries (rdbVersion : Nat) (entries : List BinEntry) (currentDb : Nat) :
    Raises IsErr (sendEntries rdbVersion currentDb entries) := by
  induction entries generalizing currentDb with
  | nil => exact Raises.pure ()
  | cons entry entries ih =>
      have hrest := (raises_sendRestoreCommand entry rdbVersion).bind fun _ => ih entry.db
      rw [sendEntries]
      split
      · exact (raises_sendSelect entry.db).bind fun _ => hrest
      · exact hrest

/-- What is left of the RDB in the forwarding task when `send` has failed:
nothing. -/
theorem step_rdbFailed (storer : Store.FileStorer) (masterReplid : Text) {f : Forwarder}
    {r : Store.RdbReader} (hpc : f.pc = .sendRdb r) (e : SyncError) (now : SystemTime) :
    f.step storer masterReplid (.rdbSent (.error e) now) = some ({ f with pc := .check }, []) := by
  obtain ⟨offset, hasStream, rdbForwarded, hasManager, pc⟩ := f
  cases hpc
  rfl

section Outcome

variable {size : Option Int} {reads : List (Except IoErrorKind Bytes)}

theorem sendRdbData_ok {n : Int} (h : sendRdbData size reads s = .ok n t) :
    ∃ content xs, readAll reads = .ok content ∧ t.exchanges = s.exchanges ++ xs ∧
      Sent size content n xs := by
  rw [sendRdbData] at h
  cases hread : readAll reads with
  | error e =>
      rw [hread] at h
      cases h
  | ok content =>
      rw [hread] at h
      cases content with
      | nil =>
          cases h
          exact ⟨[], [], rfl, (List.append_nil _).symm, .empty⟩
      | cons b bs =>
          dsimp only at h
          cases hparse : parseEntries (b :: bs) with
          | error fault p =>
              rw [hparse] at h
              cases fault with
              | err e =>
                  cases h
                  exact ⟨_, [], rfl, (List.append_nil _).symm, .unparsable hparse⟩
              | panic => cases h
              | fuel => cases h
          | ok aux p =>
              rw [hparse] at h
              obtain ⟨_, u, hsend, hpure⟩ := bind_eq_ok.1 h
              cases hpure
              obtain ⟨xs, hxs, hrestores⟩ := sendEntries_ok
                (fun e he => (parseEntries_deliverable hparse e he).1) hsend
              exact ⟨_, xs, rfl, hxs, .restored hparse hrestores⟩

/-- Anything but an error of the code's own is a panic of the parser. -/
theorem sendRdbData_error {fault : Fault SyncError}
    (h : sendRdbData size reads s = .error fault t) :
    IsErr fault ∨ fault = .panic ∧
      ∃ content p, readAll reads = .ok content ∧ parseEntries content = .error .panic p := by
  rw [sendRdbData] at h
  cases hread : readAll reads with
  | error e =>
      rw [hread] at h
      cases h
      exact .inl ⟨e, rfl⟩
  | ok content =>
      rw [hread] at h
      cases content with
      | nil => cases h
      | cons b bs =>
          dsimp only at h
          cases hparse : parseEntries (b :: bs) with
          | error fault' p =>
              rw [hparse] at h
              cases fault' with
              | err e => cases h
              | panic =>
                  cases h
                  exact .inr ⟨rfl, _, p, rfl, hparse⟩
              | fuel => exact absurd hparse (parseEntries_halts _ p)
          | ok aux p =>
              rw [hparse] at h
              have hraises := (raises_sendEntries (dumpVersion p.state.version) p.sink 0).bind
                fun _ => Raises.pure (size.getD 0)
              exact .inl (hraises s fault t h)

end Outcome

/-- What a run of `send_rdb_data` comes to. It answers `Ok` only if it had
nothing to send, or could not parse the content and passed over it, or had every
entry the parser delivered restored, but for the streams; these are the entries of
the file's records if it is an `RdbFile`: no `Quicklist2`, `SortedSet`, stream or
module values, no compressed keys, and the length forms of the grammar. If it
answers `Err`, the forwarding task is back at the top with the offset it had, and
has neither sent nor saved anything. Otherwise the parser panicked. -/
theorem sendRdbData_outcome (size : Option Int)
    (reads : List (Except IoErrorKind Bytes)) (s : OutState) :
    ((∃ n t content xs, sendRdbData size reads s = .ok n t ∧ readAll reads = .ok content ∧
        t.exchanges = s.exchanges ++ xs ∧ Sent size content n xs) ∨
      (∃ e t, sendRdbData size reads s = .error (.err e) t ∧
        ∀ storer masterReplid (f : Forwarder) r now, f.pc = .sendRdb r →
          f.step storer masterReplid (.rdbSent (.error e) now)
            = some ({ f with pc := .check }, [])) ∨
      (∃ t content p, sendRdbData size reads s = .error .panic t ∧
        readAll reads = .ok content ∧ parseEntries content = .error .panic p)) ∧
    ∀ (f : RdbFile) tail n t, readAll reads = .ok (f.bytes ++ tail) →
      sendRdbData size reads s = .ok n t →
      ∃ rdbVersion xs, t.exchanges = s.exchanges ++ xs ∧ Restores rdbVersion 0 f.entries xs := by
  constructor
  · cases h : sendRdbData size reads s with
    | ok n t =>
        obtain ⟨content, xs, hread, hxs, hsent⟩ := sendRdbData_ok h
        exact .inl ⟨n, t, content, xs, rfl, hread, hxs, hsent⟩
    | error fault t =>
        rcases sendRdbData_error h with ⟨e, rfl⟩ | ⟨rfl, content, p, hread, hparse⟩
        · refine .inr (.inl ⟨e, t, rfl, ?_⟩)
          intro storer masterReplid f r now hpc
          exact step_rdbFailed storer masterReplid hpc e now
        · exact .inr (.inr ⟨t, content, p, rfl, hread, hparse⟩)
  · intro f tail n t hread hok
    obtain ⟨content, xs, hread', hxs, hsent⟩ := sendRdbData_ok hok
    obtain ⟨p, hparse, hsink⟩ := parseEntries_rdbFile f tail
    rw [hread] at hread'
    cases hread'
    generalize hcontent : f.bytes ++ tail = content at hsent hparse
    cases hsent with
    | empty => simp [RdbFile.bytes, rdbMagic] at hcontent
    | unparsable hparse' =>
        rw [hparse] at hparse'
        cases hparse'
    | restored hparse' hxs' =>
        rw [hparse] at hparse'
        cases hparse'
        exact ⟨_, xs, hxs, hsink ▸ hxs'⟩

/-! ## Two runs -/

/-- A command that is written and answered with `+OK`. -/
def okTurn : Turn :=
  { now := 0, write := .ok (), read := .ok ⟨asBytes "+OK\r\n".toList, by decide⟩ }

/-- A target that answers `+OK` to two commands. -/
def okTarget : OutState := { turns := [okTurn, okTurn], exchanges := [] }

theorem length_oneLetter (c : UInt8) : [c].length ≤ isizeMax := by
  show 1 ≤ isizeMax
  decide

theorem one_lt : 1 < 2 ^ 6 := by decide

/-- A string of one letter. -/
def oneLetter (c : UInt8) : RdbString :=
  .plain (.small .six 1 one_lt) [c] rfl (length_oneLetter c)

theorem length_digits : "0009".toList.length = 4 := rfl

theorem isDigit_digits : "0009".toList.all Char.isDigit = true := rfl

/-- A file with one key. -/
def oneKey : RdbFile :=
  { digits := "0009".toList, four := length_digits, decimal := isDigit_digits,
    records := [.keyValue ⟨oneLetter 107, trivial⟩ (.string ⟨oneLetter 118, trivial⟩)] }

theorem sendRdbData_outcome_oneKey :
    ∃ n t rdbVersion xs, sendRdbData (some 15) [.ok oneKey.bytes] okTarget = .ok n t ∧
      t.exchanges = xs ∧ Restores rdbVersion 0 oneKey.entries xs := by
  have h : answer (sendRdbData (some 15) [.ok oneKey.bytes] okTarget) = some 15 := by
    decide +kernel
  have hrun := eq_ok_of_answer h
  have hread : readAll [.ok oneKey.bytes] = .ok (oneKey.bytes ++ []) := by rfl
  obtain ⟨rdbVersion, xs, hxs, hrestores⟩ :=
    (sendRdbData_outcome (some 15) [.ok oneKey.bytes] okTarget).2 oneKey [] _ _ hread hrun
  exact ⟨_, _, rdbVersion, xs, hrun, hxs, hrestores⟩

/-- A file with one key, which is an empty stream. -/
def streamFile : Bytes :=
  asBytes "REDIS0009".toList ++ [15, 1, 107, 0, 0, 0, 0, 0xFF]

/-- Of one run: `Ok` means that the content could be parsed and every entry of
it, of whatever type, was restored. -/
def RestoresAll (size : Option Int) (reads : List (Except IoErrorKind Bytes))
    (s : OutState) : Prop :=
  ∀ n t, sendRdbData size reads s = .ok n t →
    ∃ content aux p xs, readAll reads = .ok content ∧ parseEntries content = .ok aux p ∧
      t.exchanges = s.exchanges ++ xs ∧
      ∀ entry ∈ p.sink, ∃ x ∈ xs, x.RestoreOf (dumpVersion p.state.version) entry

theorem readAll_one {bs : Bytes} (h : bs ≠ []) : readAll [.ok bs] = .ok bs := by
  rw [readAll, if_neg h, readAll, Except.map, List.append_nil]

/-- Content that is no RDB, and a stream: both are answered `Ok`, and nothing is
sent. -/
theorem not_restoresAll :
    ¬ RestoresAll (some 5) [.ok (asBytes "HELLO".toList)] okTarget ∧
      ¬ RestoresAll (some 17) [.ok streamFile] okTarget := by
  constructor
  · intro h
    have hok : answer (sendRdbData (some 5) [.ok (asBytes "HELLO".toList)] okTarget)
        = some 5 := by decide +kernel
    have hfails : answer (parseEntries (asBytes "HELLO".toList)) = none := by decide +kernel
    obtain ⟨content, aux, p, -, hread, hparse, -⟩ := h _ _ (eq_ok_of_answer hok)
    rw [readAll_one (by decide)] at hread
    cases hread
    rw [hparse] at hfails
    cases hfails
  · intro h
    have hok : answer (sendRdbData (some 17) [.ok streamFile] okTarget) = some 17 := by
      decide +kernel
    have hnone : (final (sendRdbData (some 17) [.ok streamFile] okTarget)).exchanges.length
        = 0 := by decide +kernel
    have hentries : (final (parseEntries streamFile)).sink.length = 1 := by decide +kernel
    obtain ⟨content, aux, p, xs, hread, hparse, hxs, hall⟩ := h _ _ (eq_ok_of_answer hok)
    rw [readAll_one (by decide)] at hread
    cases hread
    rw [hparse] at hentries
    obtain ⟨entry, hentry⟩ := List.exists_mem_of_length_pos (l := p.sink)
      (by simp only [final] at hentries; omega)
    obtain ⟨x, hx, -⟩ := hall entry hentry
    rw [hxs, List.length_append] at hnone
    have hpos := List.length_pos_of_mem hx
    omega

end RedisHaTool.Syncer
