import RedisHaTool.Proofs.Databases
import RedisHaTool.Proofs.SendRdb
import RedisHaTool.Syncer.Wire

/-!
# Nothing is kept back

Whatever becomes of the connection, `send_rdb_data` and `send_aof_data` send
only what they are given to send; and to a target that takes everything they
send all of it. So what the filter would drop stays off the wire exactly when
there is none of it to send.
-/

namespace RedisHaTool.Syncer

open Lib Rdb Resp RedisHaTool.Filter

/-! ## Commands at the front of some bytes -/

section Carries

variable {start db : Nat} {bytes : Bytes} {c : ClientCommand} {cmds : List ClientCommand}

theorem Carries.mono {more : Bytes} (h : Carries start bytes db c)
    (hle : bytes <+: more) : Carries start more db c := by
  obtain ⟨pre, hpre, hdb⟩ := h
  exact ⟨pre, hpre.trans hle, hdb⟩

/-- The commands a stream carries are those it has. -/
theorem carries_encodeStream :
    Carries start (encodeStream cmds) db c ↔
      ∃ pre post, cmds = pre ++ c :: post ∧ dbAfter start pre = db := by
  constructor
  · rintro ⟨pre, hpre, hdb⟩
    obtain ⟨post, hpost⟩ := prefix_of_encodeStream hpre
    exact ⟨pre, post, by rw [← hpost, List.append_assoc, List.singleton_append], hdb⟩
  · rintro ⟨pre, post, rfl, hdb⟩
    refine ⟨pre, ?_, hdb⟩
    rw [List.append_cons pre c post, encodeStream_append (pre ++ [c]) post]
    exact List.prefix_append _ _

theorem not_carries_nil : ¬ Carries start [] db c := by
  intro h
  have hempty : Carries start (encodeStream []) db c := h
  obtain ⟨pre, post, hnil, -⟩ := carries_encodeStream.1 hempty
  exact absurd hnil.symm (List.append_ne_nil_of_right_ne_nil pre (List.cons_ne_nil c post))

theorem carries_cons {d : ClientCommand} :
    Carries start (encodeStream (d :: cmds)) db c ↔
      (c = d ∧ db = start) ∨ Carries (d.selects.getD start) (encodeStream cmds) db c := by
  rw [carries_encodeStream, carries_encodeStream]
  constructor
  · rintro ⟨pre, post, heq, hdb⟩
    cases pre with
    | nil =>
        obtain ⟨rfl, -⟩ := List.cons.inj heq
        exact .inl ⟨rfl, hdb.symm⟩
    | cons d' pre =>
        obtain ⟨rfl, htail⟩ := List.cons.inj heq
        exact .inr ⟨pre, post, htail, hdb⟩
  · rintro (⟨rfl, rfl⟩ | ⟨pre, post, rfl, hdb⟩)
    · exact ⟨[], cmds, rfl, rfl⟩
    · exact ⟨d :: pre, post, rfl, hdb⟩

theorem carries_first : Carries db (c.encode ++ bytes) db c := by
  refine ⟨[], ?_, rfl⟩
  rw [List.nil_append, encodeStream_cons]
  exact (List.prefix_append_right_inj c.encode).2 List.nil_prefix

theorem Carries.after {d : ClientCommand} (h : Carries (d.selects.getD start) bytes db c) :
    Carries start (d.encode ++ bytes) db c := by
  obtain ⟨pre, hpre, hdb⟩ := h
  exact ⟨d :: pre, (List.prefix_append_right_inj d.encode).2 hpre, hdb⟩

end Carries

/-! ## The commands of an RDB -/

def selectWords (db : Nat) : ClientCommand :=
  [asBytes "SELECT".toList, asBytes (natToString db)]

def restoreWords (entry : BinEntry) (dumpPayload : Bytes) (now : SystemTime) :
    ClientCommand :=
  [restoreName, entry.key, asBytes (intToString (ttlMs entry.expire now)), dumpPayload,
    asBytes "REPLACE".toList]

theorem selectCommand_eq (db : Nat) : selectCommand db = (selectWords db).encode := rfl

theorem restoreCommand_eq (entry : BinEntry) (dumpPayload : Bytes) (now : SystemTime) :
    restoreCommand entry dumpPayload now = (restoreWords entry dumpPayload now).encode := rfl

theorem selects_selectWords {db : Nat} (h : db < 2 ^ 32) :
    (selectWords db).selects = some db := by
  have hname : toLower (asBytes "SELECT".toList) = asBytes "select".toList := by decide
  have hnum : parseI64 (natToString db) = some (db : Int) :=
    parseI64_natToString (Nat.le_trans (Nat.le_of_lt h) (by decide))
  rw [selectWords, ClientCommand.selects, if_pos hname, fromUtf8_asBytes, Option.bind_some,
    hnum]
  exact if_pos ⟨Int.natCast_nonneg db, rfl⟩

/-! ## A run of `send_rdb_data` -/

/-- A command that has to be acknowledged. -/
abbrev sendChecked (c : ClientCommand) (failed : Response → SyncError) : OutM Unit := do
  let response ← sendCommand c.encode
  if ¬ containsOk response then
    throw (.err (failed response))

theorem sendChecked_sent (c : ClientCommand) (failed : Response → SyncError) (s : OutState) :
    (∃ e t, sendChecked c failed s = .error e t ∧
        (t.sent = s.sent ∨ t.sent = s.sent ++ encodeStream [c])) ∨
      ∃ t, sendChecked c failed s = .ok () t ∧ t.sent = s.sent ++ encodeStream [c] := by
  have hsent : ∀ turns x, x.command = c.encode →
      OutState.sent { turns, exchanges := s.exchanges ++ [x] }
        = s.sent ++ encodeStream [c] := by
    intro turns x hx
    rw [OutState.sent, List.flatMap_append, List.flatMap_singleton, hx, encodeStream,
      List.flatMap_singleton]
    rfl
  simp only [sendChecked, bind_apply, sendCommand]
  cases s.turns with
  | nil => exact .inl ⟨_, _, rfl, .inl rfl⟩
  | cons turn turns =>
      dsimp only
      cases turn.write with
      | error kind => exact .inl ⟨_, _, rfl, .inl rfl⟩
      | ok =>
          cases hread : turn.read with
          | error kind => exact .inl ⟨_, _, rfl, .inr (hsent _ _ rfl)⟩
          | ok response =>
              dsimp only
              split
              · exact .inl ⟨_, _, rfl, .inr (hsent _ _ rfl)⟩
              · exact .inr ⟨_, rfl, hsent _ _ rfl⟩

theorem sendSelect_eq (db : Nat) : sendSelect db = sendChecked (selectWords db) selectFailed :=
  rfl

/-- The clock is read before anything is written. -/
theorem sendRestoreCommand_at {entry : BinEntry} {rdbVersion : Nat} {dumpPayload : Bytes}
    (h : generateDumpPayload entry rdbVersion = some dumpPayload) (s : OutState) :
    sendRestoreCommand entry rdbVersion s
      = sendChecked (restoreWords entry dumpPayload ((s.turns.head?.map Turn.now).getD 0))
          (restoreFailed entry) s := by
  rw [sendRestoreCommand, h]
  rfl

theorem sendRestoreCommand_eq {entry : BinEntry} {rdbVersion : Nat} {dumpPayload : Bytes}
    (h : generateDumpPayload entry rdbVersion = some dumpPayload) (s : OutState) :
    ∃ now, sendRestoreCommand entry rdbVersion s
      = sendChecked (restoreWords entry dumpPayload now) (restoreFailed entry) s :=
  ⟨(s.turns.head?.map Turn.now).getD 0, sendRestoreCommand_at h s⟩

theorem sendRestoreCommand_none {entry : BinEntry} {rdbVersion : Nat}
    (h : generateDumpPayload entry rdbVersion = none) (s : OutState) :
    sendRestoreCommand entry rdbVersion s = .ok () s := by
  rw [sendRestoreCommand, h]
  rfl

/-- What holds of the loop's runs holds by what the loop does with an entry: it
passes it over, or it restores it, and selects its database before that. -/
theorem sendEntries_induction {rdbVersion : Nat}
    {A : Nat → List BinEntry → OutState →
      EStateM.Result (Fault SyncError) OutState Unit → Prop}
    (hnil : ∀ db s, A db [] s (.ok () s))
    (hskip : ∀ entry entries s r, generateDumpPayload entry rdbVersion = none →
      A entry.db entries s r → A entry.db (entry :: entries) s r)
    (hrestore : ∀ entry entries payload now s, ∀ f : Unit → OutM Unit,
      generateDumpPayload entry rdbVersion = some payload →
      (∀ u, A entry.db entries u (f () u)) →
      A entry.db (entry :: entries) s
        ((sendChecked (restoreWords entry payload now) (restoreFailed entry) >>= f) s))
    (hselect : ∀ db entry entries s, ∀ f : Unit → OutM Unit,
      (∀ u, A entry.db (entry :: entries) u (f () u)) →
      A db (entry :: entries) s ((sendChecked (selectWords entry.db) selectFailed >>= f) s))
    (db : Nat) (entries : List BinEntry) (s : OutState) :
    A db entries s (sendEntries rdbVersion db entries s) := by
  induction entries generalizing db s with
  | nil => exact hnil db s
  | cons entry entries ih =>
      have hentry : ∀ s : OutState, A entry.db (entry :: entries) s
          ((do sendRestoreCommand entry rdbVersion
               sendEntries rdbVersion entry.db entries : OutM Unit) s) := by
        intro s
        cases hpayload : generateDumpPayload entry rdbVersion with
        | none =>
            rw [bind_of_ok (sendRestoreCommand_none hpayload s)]
            exact hskip entry entries s _ hpayload (ih entry.db s)
        | some payload =>
            obtain ⟨now, heq⟩ := sendRestoreCommand_eq hpayload s
            rw [bind_apply, heq, ← bind_apply]
            exact hrestore entry entries payload now s _ hpayload fun u => ih entry.db u
      rw [sendEntries]
      split
      case isTrue hne =>
          rw [sendSelect_eq]
          exact hselect db entry entries s _ hentry
      case isFalse heq =>
          rw [Decidable.not_not] at heq
          subst heq
          exact hentry s

/-- What can be said of the command alone, where the run ends with it, and of the
command with whatever follows it and however that ends. -/
theorem sendChecked_bind_result {c : ClientCommand} {failed : Response → SyncError}
    {f : Unit → OutM Unit}
    {A : List ClientCommand → EStateM.Result (Fault SyncError) OutState Unit → Prop}
    (hnil : ∀ e t, A [] (.error e t)) (hone : ∀ e t, A [c] (.error e t))
    (hrest : ∀ u, ∃ cmds, (final (f () u)).sent = u.sent ++ encodeStream cmds ∧
      A (c :: cmds) (f () u)) (s : OutState) :
    ∃ cmds, (final ((sendChecked c failed >>= f) s)).sent = s.sent ++ encodeStream cmds ∧
      A cmds ((sendChecked c failed >>= f) s) := by
  rcases sendChecked_sent c failed s with ⟨e, t, herr, hnone | hsent⟩ | ⟨t, hok, hsent⟩
  · rw [bind_of_error herr]
    exact ⟨[], hnone.trans (List.append_nil _).symm, hnil e t⟩
  · rw [bind_of_error herr]
    exact ⟨[c], hsent, hone e t⟩
  · rw [bind_of_ok hok]
    obtain ⟨cmds, hcmds, hA⟩ := hrest t
    refine ⟨c :: cmds, ?_, hA⟩
    rw [hcmds, hsent, List.append_assoc, ← encodeStream_append, List.singleton_append]

/-- The same, of the commands only. -/
theorem sendChecked_bind {c : ClientCommand} {failed : Response → SyncError}
    {f : Unit → OutM Unit} {A : List ClientCommand → Prop} (hnil : A []) (hone : A [c])
    (hrest : ∀ u, ∃ cmds, (final (f () u)).sent = u.sent ++ encodeStream cmds ∧
      A (c :: cmds)) (s : OutState) :
    ∃ cmds, (final ((sendChecked c failed >>= f) s)).sent = s.sent ++ encodeStream cmds ∧
      A cmds :=
  sendChecked_bind_result (A := fun cmds _ => A cmds) (fun _ _ => hnil) (fun _ _ => hone) hrest s

/-- Every `RESTORE` among the commands is for one of the entries, in its
database. -/
def Announces (entries : List BinEntry) (db : Nat) (cmds : List ClientCommand) : Prop :=
  ∀ db' key args, Carries db (encodeStream cmds) db' (restoreName :: key :: args) →
    ∃ entry ∈ entries, entry.rdbType.isStream = false ∧ entry.key = key ∧ entry.db = db'

section Announces

variable {entry : BinEntry} {entries : List BinEntry} {db : Nat}
  {cmds : List ClientCommand}

theorem announces_nil : Announces entries db [] := by
  intro db' key args h
  exact absurd h not_carries_nil

theorem Announces.skip (h : Announces entries db cmds) :
    Announces (entry :: entries) db cmds := by
  intro db' key args hc
  obtain ⟨e, he, hrest⟩ := h db' key args hc
  exact ⟨e, List.mem_cons_of_mem entry he, hrest⟩

theorem Announces.select (hdb : entry.db < 2 ^ 32) (h : Announces entries entry.db cmds) :
    Announces entries db (selectWords entry.db :: cmds) := by
  intro db' key args hc
  rcases carries_cons.1 hc with ⟨heq, -⟩ | hc
  · have hname : restoreName = asBytes "SELECT".toList := (List.cons.inj heq).1
    exact absurd hname (by decide)
  · rw [selects_selectWords hdb] at hc
    exact h db' key args hc

theorem Announces.restore {dumpPayload : Bytes} {now : SystemTime}
    (hstream : entry.rdbType.isStream = false) (h : Announces entries entry.db cmds) :
    Announces (entry :: entries) entry.db (restoreWords entry dumpPayload now :: cmds) := by
  intro db' key args hc
  rcases carries_cons.1 hc with ⟨heq, rfl⟩ | hc
  · have hkey : key = entry.key := (List.cons.inj (List.cons.inj heq).2).1
    exact ⟨entry, List.mem_cons_self, hstream, hkey.symm, rfl⟩
  · exact h.skip db' key args hc

end Announces

/-- An entry with a payload is no stream. -/
theorem isStream_of_payload {entry : BinEntry} {rdbVersion : Nat} {dumpPayload : Bytes}
    (hkept : entry.Kept) (h : generateDumpPayload entry rdbVersion = some dumpPayload) :
    entry.rdbType.isStream = false := by
  obtain ⟨rawValue, hraw, hstream⟩ := hkept
  cases his : entry.rdbType.isStream with
  | false => rfl
  | true =>
      rw [generateDumpPayload, hraw, hstream.2 his] at h
      cases h

/-- The loop over the entries, however it ends. -/
theorem sendEntries_announces {rdbVersion : Nat} {entries : List BinEntry}
    (hentries : ∀ e ∈ entries, BinEntry.Deliverable e) (currentDb : Nat) (s : OutState) :
    ∃ cmds, (final (sendEntries rdbVersion currentDb entries s)).sent
        = s.sent ++ encodeStream cmds ∧ Announces entries currentDb cmds := by
  refine sendEntries_induction (A := fun db entries s r =>
    (∀ e ∈ entries, BinEntry.Deliverable e) → ∃ cmds,
      (final r).sent = s.sent ++ encodeStream cmds ∧ Announces entries db cmds)
    ?_ ?_ ?_ ?_ currentDb entries s hentries
  · intro db s _
    exact ⟨[], (List.append_nil _).symm, announces_nil⟩
  · intro entry entries s r _ ih hentries
    obtain ⟨cmds, hsent, hann⟩ := ih fun e he => hentries e (List.mem_cons_of_mem entry he)
    exact ⟨cmds, hsent, hann.skip⟩
  · intro entry entries payload now s f hpayload ih hentries
    have hstream := isStream_of_payload (hentries entry List.mem_cons_self).1 hpayload
    refine sendChecked_bind announces_nil (announces_nil.restore hstream) (fun u => ?_) s
    obtain ⟨cmds, hsent, hann⟩ := ih u fun e he => hentries e (List.mem_cons_of_mem entry he)
    exact ⟨cmds, hsent, hann.restore hstream⟩
  · intro db entry entries s f ih hentries
    have hdb := (hentries entry List.mem_cons_self).2
    refine sendChecked_bind announces_nil (announces_nil.select hdb) (fun u => ?_) s
    obtain ⟨cmds, hsent, hann⟩ := ih u hentries
    exact ⟨cmds, hsent, hann.select hdb⟩

/-! ## A target that takes everything -/

/-- Given so many turns on which the target says `+OK`, the run answers. -/
def Succeeds {α : Type} (m : OutM α) (n : Nat) : Prop :=
  ∀ s rest, s.turns = List.replicate n okTurn ++ rest →
    ∃ a t, m s = .ok a t ∧ t.turns = rest

section Succeeds

variable {α β : Type} {m : OutM α} {f : α → OutM β} {n k : Nat}

theorem Succeeds.pure (a : α) : Succeeds (pure a) 0 :=
  fun s _ h => ⟨a, s, rfl, h⟩

theorem Succeeds.bind (hm : Succeeds m n) (hf : ∀ a, Succeeds (f a) k) :
    Succeeds (m >>= f) (n + k) := by
  intro s rest hturns
  rw [List.replicate_add, List.append_assoc] at hturns
  obtain ⟨a, t, ha, hleft⟩ := hm s _ hturns
  obtain ⟨b, u, hb, hrest⟩ := hf a t rest hleft
  exact ⟨b, u, (bind_of_ok ha).trans hb, hrest⟩

theorem succeeds_sendChecked (c : ClientCommand) (failed : Response → SyncError) :
    Succeeds (sendChecked c failed) 1 := by
  intro s rest hturns
  simp only [sendChecked, bind_apply, sendCommand, hturns]
  exact ⟨(), _, rfl, rfl⟩

theorem succeeds_sendRestoreCommand (entry : BinEntry) (rdbVersion : Nat) :
    ∃ n, Succeeds (sendRestoreCommand entry rdbVersion) n := by
  cases hpayload : generateDumpPayload entry rdbVersion with
  | none => exact ⟨0, fun s _ h => ⟨(), s, sendRestoreCommand_none hpayload s, h⟩⟩
  | some dumpPayload =>
      refine ⟨1, fun s rest hturns => ?_⟩
      obtain ⟨now, heq⟩ := sendRestoreCommand_eq hpayload s
      rw [heq]
      exact succeeds_sendChecked _ _ s rest hturns

theorem succeeds_sendEntries (rdbVersion : Nat) (entries : List BinEntry) (currentDb : Nat) :
    ∃ n, Succeeds (sendEntries rdbVersion currentDb entries) n := by
  induction entries generalizing currentDb with
  | nil => exact ⟨0, Succeeds.pure ()⟩
  | cons entry entries ih =>
      obtain ⟨n, hrestore⟩ := succeeds_sendRestoreCommand entry rdbVersion
      obtain ⟨k, hrest⟩ := ih entry.db
      have hboth := hrestore.bind fun _ => hrest
      rw [sendEntries]
      split
      case isTrue hne =>
          rw [sendSelect_eq]
          exact ⟨1 + (n + k), (succeeds_sendChecked _ _).bind fun _ => hboth⟩
      case isFalse heq => exact ⟨n + k, hboth⟩

end Succeeds

/-- What restores some entries carries the key of each that is no stream, in its
database. -/
theorem Restores.carries {rdbVersion db : Nat} {entries : List BinEntry}
    {xs : List Exchange} (h : Restores rdbVersion db entries xs)
    (hentries : ∀ e ∈ entries, BinEntry.Deliverable e) {entry : BinEntry}
    (hmem : entry ∈ entries) (hstream : entry.rdbType.isStream = false) :
    ∃ args, Carries db (xs.flatMap Exchange.command) entry.db
      (restoreName :: entry.key :: args) := by
  induction h with
  | nil db => cases hmem
  | @select db first rest x xs hne hcommand hacked hrest ih =>
      obtain ⟨args, hcarries⟩ := ih hentries hmem
      have hdb := (hentries first List.mem_cons_self).2
      rw [List.flatMap_cons, hcommand, selectCommand_eq]
      refine ⟨args, Carries.after ?_⟩
      rw [selects_selectWords hdb]
      exact hcarries
  | @restore first rest x xs hx hrest ih =>
      obtain ⟨hacked, dumpPayload, now, hpayload, hcommand⟩ := hx
      rw [List.flatMap_cons, hcommand, restoreCommand_eq]
      rcases List.mem_cons.1 hmem with rfl | hmem
      · exact ⟨_, carries_first⟩
      · obtain ⟨args, hcarries⟩ := ih (fun e he => hentries e (List.mem_cons_of_mem _ he)) hmem
        exact ⟨args, Carries.after (d := restoreWords first dumpPayload now) hcarries⟩
  | @skip first rest xs hfirst hrest ih =>
      rcases List.mem_cons.1 hmem with rfl | hmem
      · rw [hfirst] at hstream
        cases hstream
      · exact ih (fun e he => hentries e (List.mem_cons_of_mem _ he)) hmem

/-! ## The two functions -/

/-- An answer that is made up afterwards leaves the state as it was. -/
theorem final_bind_pure {α β : Type} (m : OutM α) (b : β) (s : OutState) :
    final ((m >>= fun _ => pure b : OutM β) s) = final (m s) := by
  rw [bind_apply]
  cases m s <;> rfl

section Keys

variable {size : Option Int} {reads : List (Except IoErrorKind Bytes)} {content : Bytes}
  {aux : List RdbAuxField} {p : RdbParser (List BinEntry)}

theorem sendRdbData_parsed (hread : readAll reads = .ok content)
    (hparse : parseEntries content = .ok aux p) (s : OutState) :
    final (sendRdbData size reads s)
      = final (sendEntries (dumpVersion p.state.version) 0 p.sink s) := by
  cases content with
  | nil => cases hparse
  | cons b bs =>
      rw [sendRdbData, hread]
      dsimp only
      rw [hparse]
      exact final_bind_pure _ _ s

/-- Without entries nothing is sent. -/
theorem sendRdbData_sent (s : OutState) :
    final (sendRdbData size reads s) = s ∨
      ∃ content aux p, readAll reads = .ok content ∧ parseEntries content = .ok aux p := by
  cases hread : readAll reads with
  | error e =>
      rw [sendRdbData, hread]
      exact Or.inl rfl
  | ok content =>
      cases hparse : parseEntries content with
      | ok aux p => exact Or.inr ⟨content, aux, p, rfl, hparse⟩
      | error fault p =>
          left
          rw [sendRdbData, hread]
          cases content with
          | nil => rfl
          | cons b bs =>
              dsimp only
              rw [hparse]
              cases fault <;> rfl

theorem mem_restorable {entry : BinEntry} :
    entry ∈ restorable reads ↔
      ∃ content aux p, readAll reads = .ok content ∧ parseEntries content = .ok aux p ∧
        entry ∈ p.sink ∧ entry.rdbType.isStream = false := by
  constructor
  · intro h
    rw [restorable] at h
    cases hread : readAll reads with
    | error e =>
        rw [hread] at h
        cases h
    | ok content =>
        rw [hread] at h
        dsimp only at h
        cases hparse : parseEntries content with
        | error fault p =>
            rw [hparse] at h
            cases h
        | ok aux p =>
            rw [hparse] at h
            obtain ⟨hmem, hstream⟩ := List.mem_filter.1 h
            exact ⟨content, aux, p, rfl, hparse, hmem, by simpa using hstream⟩
  · rintro ⟨content, aux, p, hread, hparse, hmem, hstream⟩
    rw [restorable, hread]
    dsimp only
    rw [hparse]
    exact List.mem_filter.2 ⟨hmem, by rw [hstream]; rfl⟩

/-- A `RESTORE` on the wire is for an entry of the RDB. -/
theorem restorable_of_carries {turns : List Turn} {db : Nat} {key : Bytes}
    {args : List Bytes}
    (h : Carries 0 (final (sendRdbData size reads { turns, exchanges := [] })).sent db
      (restoreName :: key :: args)) :
    ∃ entry ∈ restorable reads, entry.key = key ∧ entry.db = db := by
  rcases @sendRdbData_sent size reads { turns, exchanges := [] } with
    hnone | ⟨content, aux, p, hread, hparse⟩
  · rw [hnone] at h
    exact absurd h not_carries_nil
  · obtain ⟨cmds, hsent, hann⟩ := @sendEntries_announces (dumpVersion p.state.version) p.sink
      (parseEntries_deliverable hparse) 0 { turns, exchanges := [] }
    rw [sendRdbData_parsed hread hparse, hsent] at h
    obtain ⟨entry, hentry, hstream, hkey, hdb⟩ := hann db key args h
    exact ⟨entry, mem_restorable.2 ⟨content, aux, p, hread, hparse, hentry, hstream⟩, hkey, hdb⟩

/-- Every entry there is to send is carried by a connection on which every
command is acknowledged. -/
theorem carries_of_restorable {entry : BinEntry} (h : entry ∈ restorable reads) :
    ∃ turns args,
      Carries 0 (final (sendRdbData size reads { turns, exchanges := [] })).sent entry.db
        (restoreName :: entry.key :: args) := by
  obtain ⟨content, aux, p, hread, hparse, hmem, hstream⟩ := mem_restorable.1 h
  obtain ⟨n, hsucceeds⟩ := succeeds_sendEntries (dumpVersion p.state.version) p.sink 0
  obtain ⟨_, t, hsend, -⟩ := hsucceeds
    { turns := List.replicate n okTurn, exchanges := [] } [] (List.append_nil _).symm
  have hentries := parseEntries_deliverable hparse
  obtain ⟨xs, hxs, hrestores⟩ := sendEntries_ok (fun e he => (hentries e he).1) hsend
  obtain ⟨args, hcarries⟩ := hrestores.carries hentries hmem hstream
  refine ⟨List.replicate n okTurn, args, ?_⟩
  rw [sendRdbData_parsed hread hparse, hsend, OutState.sent, final, hxs, List.nil_append]
  exact hcarries

theorem keysFiltered_iff (config : FilterConfig) :
    KeysFiltered config size reads ↔ KeysPass config reads := by
  constructor
  · intro h entry hentry
    obtain ⟨turns, args, hcarries⟩ := @carries_of_restorable size reads entry hentry
    exact h turns entry.db entry.key args hcarries
  · intro h turns db key args hcarries
    obtain ⟨entry, hentry, rfl, rfl⟩ := restorable_of_carries hcarries
    exact h entry hentry

end Keys

section Commands

variable {reads : List (Except IoErrorKind Bytes)}

/-- The bytes sent are a beginning of those read. -/
theorem sendAofLoop_bytes (sent : Nat) (s : AofState) :
    ∃ bs, (final (sendAofLoop sent reads s)).bytes = s.bytes ++ bs ∧
      bs <+: readBytes reads := by
  have hnone : s.bytes = s.bytes ++ [] := (List.append_nil _).symm
  induction reads generalizing sent s with
  | nil => exact ⟨[], hnone, List.nil_prefix⟩
  | cons r reads ih =>
      cases r with
      | error kind => exact ⟨[], hnone, List.nil_prefix⟩
      | ok chunk =>
          rw [sendAofLoop, readBytes]
          split
          · exact ⟨[], hnone, List.nil_prefix⟩
          · rw [bind_apply, writeChunk]
            cases s.writes with
            | nil => exact ⟨[], hnone, List.nil_prefix⟩
            | cons write writes =>
                cases write with
                | failed accepted kind =>
                    exact ⟨chunk.take accepted, rfl,
                      (List.take_prefix accepted chunk).trans (List.prefix_append _ _)⟩
                | done =>
                    obtain ⟨bs, hbytes, hle⟩ := ih (sent + chunk.length)
                      { writes, bytes := s.bytes ++ chunk } (List.append_nil _).symm
                    refine ⟨chunk ++ bs, ?_, (List.prefix_append_right_inj chunk).2 hle⟩
                    exact hbytes.trans (List.append_assoc _ _ _)

/-- A connection that takes every chunk is sent everything. -/
theorem sendAofLoop_all (sent : Nat) (bytes : Bytes) :
    (final (sendAofLoop sent reads
        { writes := List.replicate reads.length .done, bytes })).bytes
      = bytes ++ readBytes reads := by
  induction reads generalizing sent bytes with
  | nil => exact (List.append_nil _).symm
  | cons r reads ih =>
      cases r with
      | error kind => exact (List.append_nil _).symm
      | ok chunk =>
          rw [sendAofLoop, readBytes]
          split
          · exact (List.append_nil _).symm
          · rw [bind_apply, writeChunk, ← List.append_assoc]
            exact ih (sent + chunk.length) (bytes ++ chunk)

theorem commandsFiltered_iff (hasKey : ClientCommand → Bytes → Prop) (config : FilterConfig)
    (start : Nat) {cmds : List ClientCommand} (h : readBytes reads = encodeStream cmds) :
    CommandsFiltered hasKey config start reads ↔ CommandsPass hasKey config start cmds := by
  constructor
  · intro hfiltered pre c post hcmds
    refine hfiltered (List.replicate reads.length .done) _ c ?_
    rw [sendAofData, sendAofLoop_all, List.nil_append, h]
    exact carries_encodeStream.2 ⟨pre, post, hcmds, rfl⟩
  · intro hpass writes db c hcarries
    obtain ⟨bs, hbytes, hle⟩ := @sendAofLoop_bytes reads 0 { writes, bytes := [] }
    rw [sendAofData, hbytes, List.nil_append] at hcarries
    have hall := hcarries.mono hle
    rw [h] at hall
    obtain ⟨pre, post, hcmds, rfl⟩ := carries_encodeStream.1 hall
    exact hpass pre c post hcmds

end Commands

/-- For every configuration, RDB and stream of commands, and whatever the keys of a
command are: what the filter drops is not sent if and only if none of it is there to
be sent. -/
theorem filtered_iff_pass (hasKey : ClientCommand → Bytes → Prop) (config : FilterConfig)
    (size : Option Int) (reads aofReads : List (Except IoErrorKind Bytes)) (start : Nat)
    (cmds : List ClientCommand) (h : readBytes aofReads = encodeStream cmds) :
    (KeysFiltered config size reads ↔ KeysPass config reads) ∧
      (CommandsFiltered hasKey config start aofReads ↔ CommandsPass hasKey config start cmds) :=
  ⟨keysFiltered_iff config, commandsFiltered_iff hasKey config start h⟩

/-- No key that begins with `k` is to reach the target. -/
def blackK : FilterConfig := { keyPrefixBlackList := ["k".toList] }

theorem filtered_iff_pass_blackK :
    (KeysFiltered blackK (some 15) [.ok oneKey.bytes] ↔ KeysPass blackK [.ok oneKey.bytes]) ∧
      (CommandsFiltered (fun c key => key ∈ commandKeys c) blackK 0
          [.ok (encodeStream [selectOne, setKey])] ↔
        CommandsPass (fun c key => key ∈ commandKeys c) blackK 0 [selectOne, setKey]) :=
  filtered_iff_pass _ blackK (some 15) _ _ 0 _ (by decide +kernel)

/-- The filter drops the key for any command. -/
theorem blackK_filtersOut {cmd : Text}
    (h : (RedisKeyFilter.fromConfig blackK).any fun filter =>
      filter.filterCmdKey cmd (some [107]) 0) :
    blackK.FiltersOut 0 cmd (some [107]) := by
  obtain ⟨filter, hfilter, hdrops⟩ := (Option.any_eq_true _ _).1 h
  exact ⟨filter, 0, hfilter, rfl, hdrops⟩

/-- The key of the RDB is sent, and so is a `SET` of it, if `SET` has its key. -/
theorem not_filtered :
    (¬ ∀ config size reads, KeysFiltered config size reads) ∧
      ∀ hasKey : ClientCommand → Bytes → Prop, hasKey setKey [107] →
        ¬ ∀ config start reads cmds, readBytes reads = encodeStream cmds →
          CommandsFiltered hasKey config start reads := by
  constructor
  · intro h
    have hpass := (keysFiltered_iff blackK).1 (h blackK (some 15) [.ok oneKey.bytes])
    have hentries : (restorable [.ok oneKey.bytes]).map (fun e => (e.db, e.key))
        = [(0, [107])] := by decide +kernel
    obtain ⟨entry, hentry, hkey⟩ := List.mem_map.1
      (hentries ▸ List.mem_singleton_self ((0, [107]) : Nat × Bytes))
    obtain ⟨hdb, hkey⟩ := Prod.mk.inj hkey
    have hdrops := hpass entry hentry
    rw [hdb, hkey] at hdrops
    exact hdrops (blackK_filtersOut (by decide +kernel))
  · intro hasKey hkey h
    have hread : readBytes [.ok (encodeStream [setKey])] = encodeStream [setKey] := by
      decide +kernel
    have hname : commandName setKey = some "SET".toList := by decide +kernel
    have hpass := (commandsFiltered_iff hasKey blackK 0 hread).1 (h blackK 0 _ [setKey] hread)
    exact hpass [] setKey [] rfl
      ⟨"SET".toList, hname, .inr ⟨[107], hkey, blackK_filtersOut (by decide +kernel)⟩⟩

end RedisHaTool.Syncer
