import RedisHaTool.Proofs.Unfiltered
import RedisHaTool.Syncer.Keyspace

/-!
# What an RDB leaves on the target

The loop over the entries keeps the connection's database at the one it takes it
to be in, so each `RESTORE` goes to the key of its entry; and the payload holds
the entry's type and encoding, which the target gets back out of it. A run
therefore comes down to the writes of the entries it has gone through, in order.
-/

namespace RedisHaTool.Syncer

open Lib Rdb Resp

/-! ## Payloads -/

/-- The checksum is the one of what it follows, and the version is cut off. -/
theorem openPayload_withCrc (rdbType : RdbType) (rawValue : Bytes) (rdbVersion : Nat) :
    openPayload (withCrc (dumpBody rdbType rawValue rdbVersion))
      = some { typeByte := rdbType.toByte, raw := rawValue } := by
  generalize hbody : dumpBody rdbType rawValue rdbVersion = body
  have hlen : (withCrc body).length - 8 = body.length := by
    rw [withCrc, List.length_append, length_toLeBytes]
    omega
  have htake : (withCrc body).take body.length = body := List.take_left
  have hdrop : (withCrc body).drop body.length = toLeBytes 8 (crc64 body).toNat :=
    List.drop_left
  have hkept : body.take (body.length - 2) = rdbType.toByte :: rawValue := by
    have hlen' : body.length - 2 = (rdbType.toByte :: rawValue).length := by
      rw [← hbody, dumpBody, List.length_append, length_toLeBytes]
      omega
    rw [hlen', ← hbody, dumpBody, List.take_left]
  rw [openPayload, hlen, htake, hdrop]
  simp only [if_true, hkept]

/-- The target gets out of a payload what was put into it. -/
theorem openPayload_dump {entry : BinEntry} {rdbVersion : Nat} {payload : Bytes}
    (h : generateDumpPayload entry rdbVersion = some payload) :
    openPayload payload = some (entryValue entry) := by
  rw [generateDumpPayload] at h
  split at h
  · cases h
  · cases h
  · next rawValue hne hraw =>
      obtain rfl := Option.some.inj h
      rw [openPayload_withCrc, entryValue, hraw]
      rfl

/-- Without an encoding there is no payload. -/
theorem payload_none_iff {entry : BinEntry} {rdbVersion : Nat} :
    generateDumpPayload entry rdbVersion = none ↔ entry.rawValue.getD [] = [] := by
  rw [generateDumpPayload_eq_none]
  cases entry.rawValue with
  | none => exact ⟨fun _ => rfl, fun _ => Or.inl rfl⟩
  | some raw =>
      rw [Option.getD_some, Option.some_inj]
      exact or_iff_right (Option.some_ne_none raw)

/-! ## Commands -/

theorem restores_restoreWords {entry : BinEntry} {rdbVersion : Nat} {payload : Bytes}
    (h : generateDumpPayload entry rdbVersion = some payload) (now : SystemTime) :
    (restoreWords entry payload now).restores = some (entry.key, entryValue entry) := by
  have hnames : toLower restoreName = asBytes "restore".toList ∧
      toLower (asBytes "REPLACE".toList) = asBytes "replace".toList := by decide
  rw [restoreWords, ClientCommand.restores, if_pos hnames, openPayload_dump h]
  rfl

theorem execute_selectWords {db : Nat} (hdb : db < 2 ^ 32) (t : Target) :
    t.execute (selectWords db) = { t with db } := by
  rw [Target.execute, selects_selectWords hdb]

/-- A `RESTORE` writes its entry to the database that the connection is in. -/
theorem execute_restoreWords {entry : BinEntry} {rdbVersion : Nat} {payload : Bytes}
    (h : generateDumpPayload entry rdbVersion = some payload) (now : SystemTime)
    (keys : Keyspace) :
    Target.execute { db := entry.db, keys } (restoreWords entry payload now)
      = { db := entry.db, keys := overwrite keys [(entryKey entry, entryValue entry)] } := by
  have hselects : (restoreWords entry payload now).selects = none := rfl
  rw [Target.execute, hselects, restores_restoreWords h]
  rfl

/-- A wire is commands in one way only. -/
theorem Target.Receives.unique {t u v : Target} {wire : Bytes} (hu : t.Receives wire u)
    (hv : t.Receives wire v) : u = v := by
  obtain ⟨cmds, hwire, rfl⟩ := hu
  obtain ⟨cmds', hwire', rfl⟩ := hv
  rw [encodeStream_injective (hwire.symm.trans hwire')]

/-! ## Runs -/

/-- The writes of the entries that have a payload. -/
def entryWrites (entries : List BinEntry) : List ((Nat × Bytes) × TargetValue) :=
  (entries.filter fun entry => entry.rawValue.getD [] ≠ []).map fun entry =>
    (entryKey entry, entryValue entry)

section Run

variable {entry : BinEntry} {entries : List BinEntry} {rdbVersion db : Nat}
  {cmds : List ClientCommand} {done : List ((Nat × Bytes) × TargetValue)}

theorem entryWrites_restored {payload : Bytes}
    (h : generateDumpPayload entry rdbVersion = some payload) (entries : List BinEntry) :
    entryWrites (entry :: entries) = (entryKey entry, entryValue entry) :: entryWrites entries := by
  have hraw : entry.rawValue.getD [] ≠ [] := by
    intro hempty
    cases h.symm.trans (payload_none_iff.2 hempty)
  rw [entryWrites, List.filter_cons_of_pos (by simpa using hraw), List.map_cons, entryWrites]

theorem entryWrites_skipped (h : generateDumpPayload entry rdbVersion = none) :
    entryWrites (entry :: entries) = entryWrites entries := by
  have hraw : entry.rawValue.getD [] = [] := payload_none_iff.1 h
  rw [entryWrites, List.filter_cons_of_neg (by simpa using hraw), entryWrites]

/-- From a connection in this database the commands make these writes, whatever
the target holds. -/
def Makes (db : Nat) (cmds : List ClientCommand)
    (done : List ((Nat × Bytes) × TargetValue)) : Prop :=
  ∀ keys, ∃ db', cmds.foldl Target.execute { db, keys } = { db := db', keys := overwrite keys done }

theorem makes_nil (db : Nat) : Makes db [] [] := fun _ => ⟨db, rfl⟩

theorem Makes.select (hdb : entry.db < 2 ^ 32) (h : Makes entry.db cmds done) :
    Makes db (selectWords entry.db :: cmds) done := by
  intro keys
  rw [List.foldl_cons, execute_selectWords hdb]
  exact h keys

theorem Makes.restore {payload : Bytes}
    (hpayload : generateDumpPayload entry rdbVersion = some payload) (now : SystemTime)
    (h : Makes entry.db cmds done) :
    Makes entry.db (restoreWords entry payload now :: cmds)
      ((entryKey entry, entryValue entry) :: done) := by
  intro keys
  rw [List.foldl_cons, execute_restoreWords hpayload]
  exact h (overwrite keys [(entryKey entry, entryValue entry)])

/-- The commands make the writes of the entries as far as the run went, and all
of them if it answers. -/
def MakesEntries (db : Nat) (entries : List BinEntry) (cmds : List ClientCommand)
    (r : EStateM.Result (Fault SyncError) OutState Unit) : Prop :=
  ∃ done, Makes db cmds done ∧ done <+: entryWrites entries ∧
    ∀ t, r = .ok () t → done = entryWrites entries

theorem makesEntries_none (e : Fault SyncError) (t : OutState) :
    MakesEntries db entries [] (.error e t) :=
  ⟨[], makes_nil db, List.nil_prefix, fun _ h => by cases h⟩

theorem MakesEntries.skip {r : EStateM.Result (Fault SyncError) OutState Unit}
    (hnone : generateDumpPayload entry rdbVersion = none)
    (h : MakesEntries db entries cmds r) : MakesEntries db (entry :: entries) cmds r := by
  rw [MakesEntries, entryWrites_skipped hnone]
  exact h

/-- The loop over the entries, however it ends. -/
theorem sendEntries_makes (hdb : ∀ entry ∈ entries, entry.db < 2 ^ 32) (db : Nat)
    (s : OutState) :
    ∃ cmds, (final (sendEntries rdbVersion db entries s)).sent = s.sent ++ encodeStream cmds ∧
      MakesEntries db entries cmds (sendEntries rdbVersion db entries s) := by
  refine sendEntries_induction (A := fun db entries s r =>
    (∀ entry ∈ entries, entry.db < 2 ^ 32) → ∃ cmds,
      (final r).sent = s.sent ++ encodeStream cmds ∧ MakesEntries db entries cmds r)
    ?_ ?_ ?_ ?_ db entries s hdb
  · intro db s _
    exact ⟨[], (List.append_nil _).symm, [], makes_nil db, List.nil_prefix, fun _ _ => rfl⟩
  · intro entry entries s r hpayload ih hdb
    obtain ⟨cmds, hsent, hmakes⟩ := ih fun e he => hdb e (List.mem_cons_of_mem entry he)
    exact ⟨cmds, hsent, hmakes.skip hpayload⟩
  · intro entry entries payload now s f hpayload ih hdb
    have hwrites := entryWrites_restored hpayload entries
    refine sendChecked_bind_result (fun e t => makesEntries_none e t)
      (fun e t => ?_) (fun u => ?_) s
    · refine ⟨_, (makes_nil entry.db).restore hpayload now, ?_, fun _ h => by cases h⟩
      rw [hwrites]
      exact List.cons_prefix_cons.2 ⟨rfl, List.nil_prefix⟩
    · obtain ⟨cmds, hsent, done, hmakes, hbegins, hall⟩ :=
        ih u fun e he => hdb e (List.mem_cons_of_mem entry he)
      refine ⟨cmds, hsent, _, hmakes.restore hpayload now, ?_, fun t ht => ?_⟩
      · rw [hwrites]
        exact List.cons_prefix_cons.2 ⟨rfl, hbegins⟩
      · rw [hwrites, hall t ht]
  · intro db entry entries s f ih hdb
    have hfits := hdb entry List.mem_cons_self
    refine sendChecked_bind_result (fun e t => makesEntries_none e t)
      (fun e t => ?_) (fun u => ?_) s
    · exact ⟨[], (makes_nil entry.db).select hfits, List.nil_prefix, fun _ h => by cases h⟩
    · obtain ⟨cmds, hsent, done, hmakes, hrest⟩ := ih u hdb
      exact ⟨cmds, hsent, done, hmakes.select hfits, hrest⟩

/-! ## A target that takes everything -/

/-- The next turns, so many at least, all take the command and say `+OK`. -/
def OutState.Acked (s : OutState) (n : Nat) : Prop :=
  n ≤ s.turns.length ∧ ∀ turn ∈ s.turns, turn.Acks

theorem sendChecked_bind_acked {c : ClientCommand} {failed : Response → SyncError}
    {f : Unit → OutM Unit} {n : Nat} {s : OutState} (h : s.Acked (n + 1))
    (hf : ∀ u : OutState, u.Acked n → ∃ t, f () u = .ok () t) :
    ∃ t, (sendChecked c failed >>= f) s = .ok () t := by
  obtain ⟨hlen, hack⟩ := h
  cases hturns : s.turns with
  | nil =>
      rw [hturns] at hlen
      exact absurd hlen (Nat.not_succ_le_zero n)
  | cons turn turns =>
      rw [hturns] at hlen hack
      obtain ⟨hwritten, response, hread, hok⟩ := hack turn List.mem_cons_self
      have hsend : ∃ u, sendChecked c failed s = .ok () u ∧ u.turns = turns := by
        simp only [sendChecked, bind_apply, sendCommand, hturns, hwritten, hread, hok]
        exact ⟨_, rfl, rfl⟩
      obtain ⟨u, hu, hleft⟩ := hsend
      have hacked : u.Acked n := by
        rw [OutState.Acked, hleft]
        exact ⟨Nat.le_of_succ_le_succ hlen,
          fun turn' h' => hack turn' (List.mem_cons_of_mem turn h')⟩
      obtain ⟨t, ht⟩ := hf u hacked
      exact ⟨t, (bind_of_ok hu).trans ht⟩

/-- Two turns for each entry are enough, one for a `SELECT` and one for the
entry. -/
theorem sendEntries_acked (db : Nat) (s : OutState) (h : s.Acked (2 * entries.length)) :
    ∃ t, sendEntries rdbVersion db entries s = .ok () t := by
  induction entries generalizing db s with
  | nil => exact ⟨s, rfl⟩
  | cons entry entries ih =>
      have hrestore : ∀ s : OutState, s.Acked (2 * entries.length + 1) →
          ∃ t, (do sendRestoreCommand entry rdbVersion
                   sendEntries rdbVersion entry.db entries : OutM Unit) s = .ok () t := by
        intro s hs
        cases hpayload : generateDumpPayload entry rdbVersion with
        | none =>
            rw [bind_of_ok (sendRestoreCommand_none hpayload s)]
            exact ih entry.db s ⟨by have := hs.1; omega, hs.2⟩
        | some payload =>
            obtain ⟨now, heq⟩ := sendRestoreCommand_eq hpayload s
            rw [bind_apply, heq, ← bind_apply]
            exact sendChecked_bind_acked hs fun u hu => ih entry.db u hu
      rw [List.length_cons, Nat.mul_succ] at h
      rw [sendEntries]
      split
      case isTrue hne =>
          rw [sendSelect_eq]
          exact sendChecked_bind_acked h fun u hu => hrestore u hu
      case isFalse heq =>
          rw [Decidable.not_not] at heq
          subst heq
          exact hrestore s ⟨by have := h.1; omega, h.2⟩

end Run

/-- After the entries the target holds, of each key that occurs, the type and the
encoding of its last entry, and of every other key what it held. -/
theorem sendEntries_restored (rdbVersion : Nat) {entries : List BinEntry}
    (hraw : ∀ entry ∈ entries, ∃ raw, entry.rawValue = some raw ∧ raw ≠ [])
    (hdb : ∀ entry ∈ entries, entry.db < 2 ^ 32) (before : Keyspace) {turns : List Turn}
    (hturns : 2 * entries.length ≤ turns.length) (hack : ∀ turn ∈ turns, turn.Acks) :
    ∃ s t, sendEntries rdbVersion 0 entries { turns, exchanges := [] } = .ok () s ∧
      (Target.connected before).Receives s.sent t ∧ Restored entries before t.keys := by
  have hanswers : ∃ s, sendEntries rdbVersion 0 entries { turns, exchanges := [] } = .ok () s :=
    sendEntries_acked 0 { turns, exchanges := [] } ⟨hturns, hack⟩
  obtain ⟨s, hok⟩ := hanswers
  have hruns : ∃ cmds,
      (final (sendEntries rdbVersion 0 entries { turns, exchanges := [] })).sent
        = encodeStream cmds ∧
      MakesEntries 0 entries cmds (sendEntries rdbVersion 0 entries { turns, exchanges := [] }) :=
    sendEntries_makes hdb 0 { turns, exchanges := [] }
  obtain ⟨cmds, hsent, done, hmakes, -, hall⟩ := hruns
  rw [hok] at hsent
  have hwrites : entryWrites entries = entries.map fun entry =>
      (entryKey entry, entryValue entry) := by
    rw [entryWrites, List.filter_eq_self.2]
    intro entry hentry
    obtain ⟨raw, hvalue, hne⟩ := hraw entry hentry
    rw [hvalue]
    exact decide_eq_true hne
  obtain rfl := (hall s hok).trans hwrites
  obtain ⟨db', hrun⟩ := hmakes before
  refine ⟨s, _, hok, ⟨cmds, hsent, hrun.symm⟩, ?_, ?_⟩
  · rintro pre entry post rfl hlast
    rw [List.map_append, List.map_cons]
    refine overwrite_of_last fun w hw => ?_
    obtain ⟨later, hlater, rfl⟩ := List.mem_map.1 hw
    exact hlast later hlater
  · intro k hk
    refine overwrite_of_not_mem fun w hw => ?_
    obtain ⟨entry, hentry, rfl⟩ := List.mem_map.1 hw
    exact hk entry hentry

/-- Two databases, and a key that occurs twice in the second. -/
def threeEntries : List BinEntry :=
  [{ db := 0, key := [0x61], value := [], rawValue := some [1, 0x78], expire := none,
     rdbType := .string },
   { db := 3, key := [0x61], value := [], rawValue := some [1, 0x79], expire := none,
     rdbType := .string },
   { db := 3, key := [0x61], value := [], rawValue := some [1, 0x7A], expire := none,
     rdbType := .string }]

theorem acks_okTurn : okTurn.Acks := ⟨rfl, _, rfl, by decide⟩

theorem sendEntries_restored_threeEntries :
    ∃ s t, sendEntries 9 0 threeEntries
        { turns := List.replicate 6 okTurn, exchanges := [] } = .ok () s ∧
      (Target.connected fun _ => none).Receives s.sent t ∧
      Restored threeEntries (fun _ => none) t.keys := by
  have hraw : ∀ entry ∈ threeEntries, ∃ raw, entry.rawValue = some raw ∧ raw ≠ [] := by
    simp [threeEntries]
  have hdb : ∀ entry ∈ threeEntries, entry.db < 2 ^ 32 := by
    simp [threeEntries]
  have hack : ∀ turn ∈ List.replicate 6 okTurn, turn.Acks := by
    intro turn hturn
    rw [List.eq_of_mem_replicate hturn]
    exact acks_okTurn
  exact sendEntries_restored 9 hraw hdb (fun _ => none) (Nat.le_refl 6) hack

end RedisHaTool.Syncer
