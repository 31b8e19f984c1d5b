import RedisHaTool.Proofs.Keyspace

/-!
# The policy for the keys that are there

The policy stays in the input's part of the configuration, and every `RESTORE`
says `REPLACE`. So the keys of the target are kept only as far as what is
written over them means the same: a run whose connection breaks right after an
entry leaves that entry's value under its key.
-/

namespace RedisHaTool.Syncer

open Lib Rdb Resp

section Cut

variable {rdbVersion db : Nat} {entries later : List BinEntry} {entry : BinEntry}

/-! ## A run that is cut -/

/-- The database the connection is in after the entries. -/
def lastDb (db : Nat) (entries : List BinEntry) : Nat :=
  entries.foldl (fun _ entry => entry.db) db

/-- The loop goes through the first entries, and then through the others. -/
theorem sendEntries_append :
    sendEntries rdbVersion db (entries ++ later)
      = (do sendEntries rdbVersion db entries
            sendEntries rdbVersion (lastDb db entries) later : OutM Unit) := by
  induction entries generalizing db with
  | nil => rfl
  | cons entry entries ih =>
      have hlast : lastDb db (entry :: entries) = lastDb entry.db entries := rfl
      rw [List.cons_append, sendEntries, sendEntries, hlast]
      split
      case isTrue hne => simp only [ih, bind_assoc]
      case isFalse heq => simp only [ih, bind_assoc]

theorem sendChecked_bind_noTurns {c : ClientCommand} {failed : Response → SyncError}
    {f : Unit → OutM Unit} {s : OutState} (h : s.turns = []) :
    (sendChecked c failed >>= f) s = .error (.err (.io .other)) s := by
  simp only [bind_apply, sendChecked, sendCommand, h]

/-- Nothing goes over a connection that is broken. -/
theorem sendEntries_noTurns {s : OutState} (h : s.turns = []) :
    final (sendEntries rdbVersion db entries s) = s := by
  refine sendEntries_induction (A := fun _ _ s r => s.turns = [] → final r = s)
    ?_ ?_ ?_ ?_ db entries s h
  · intro db s _
    rfl
  · intro entry entries s r _ ih
    exact ih
  · intro entry entries payload now s f _ _ h
    rw [sendChecked_bind_noTurns h]
    rfl
  · intro db entry entries s f _ h
    rw [sendChecked_bind_noTurns h]
    rfl

theorem entryWrites_append :
    entryWrites (entries ++ later) = entryWrites entries ++ entryWrites later := by
  rw [entryWrites, List.filter_append, List.map_append, entryWrites, entryWrites]

/-- Some run ends right after this entry, and the target holds its value then. -/
theorem sendEntries_reaches (hdb : ∀ e ∈ entries, e.db < 2 ^ 32) (hmem : entry ∈ entries)
    (hraw : entry.rawValue.getD [] ≠ []) (before : Keyspace) :
    ∃ turns t, (Target.connected before).Receives
        (final (sendEntries rdbVersion 0 entries { turns, exchanges := [] })).sent t ∧
      t.keys (entryKey entry) = some (entryValue entry) := by
  obtain ⟨pre, post, rfl⟩ := List.append_of_mem hmem
  have hfits : ∀ e ∈ pre ++ [entry], e.db < 2 ^ 32 := by
    intro e he
    refine hdb e ?_
    rw [List.append_cons]
    exact List.mem_append_left post he
  obtain ⟨n, hsucceeds⟩ := succeeds_sendEntries rdbVersion (pre ++ [entry]) 0
  obtain ⟨_, u, hok, hleft⟩ := hsucceeds
    { turns := List.replicate n okTurn, exchanges := [] } [] (List.append_nil _).symm
  have hcut : final (sendEntries rdbVersion 0 (pre ++ entry :: post)
      { turns := List.replicate n okTurn, exchanges := [] }) = u := by
    rw [List.append_cons, sendEntries_append, bind_of_ok hok]
    exact sendEntries_noTurns hleft
  have hruns : ∃ cmds, (final (sendEntries rdbVersion 0 (pre ++ [entry])
        { turns := List.replicate n okTurn, exchanges := [] })).sent = encodeStream cmds ∧
      MakesEntries 0 (pre ++ [entry]) cmds (sendEntries rdbVersion 0 (pre ++ [entry])
        { turns := List.replicate n okTurn, exchanges := [] }) :=
    sendEntries_makes hfits 0 _
  obtain ⟨cmds, hsent, done, hmakes, -, hall⟩ := hruns
  rw [hok] at hsent
  obtain rfl := hall u hok
  obtain ⟨db', hrun⟩ := hmakes before
  refine ⟨_, _, ⟨cmds, (congrArg OutState.sent hcut).trans hsent, hrun.symm⟩, ?_⟩
  have hlast : entryWrites [entry] = [(entryKey entry, entryValue entry)] := by
    rw [entryWrites, List.filter_cons_of_pos (by simpa using hraw)]
    rfl
  rw [entryWrites_append, hlast]
  exact overwrite_of_last fun w hw => by cases hw

end Cut

/-! ## What the RDB writes -/

section Policy

variable {size : Option Int} {reads : List (Except IoErrorKind Bytes)} {content : Bytes}
  {aux : List RdbAuxField} {p : RdbParser (List BinEntry)}

/-- What is restored are the entries with an encoding. -/
theorem mem_restorable_iff {entry : BinEntry} :
    entry ∈ restorable reads ↔
      ∃ content aux p, readAll reads = .ok content ∧ parseEntries content = .ok aux p ∧
        entry ∈ p.sink ∧ entry.rawValue.getD [] ≠ [] := by
  have hkept : ∀ content aux p, parseEntries content = .ok aux p → entry ∈ p.sink →
      (entry.rdbType.isStream = false ↔ entry.rawValue.getD [] ≠ []) := by
    intro content aux p hparse hmem
    obtain ⟨⟨raw, hraw, hstream⟩, -⟩ := parseEntries_deliverable hparse entry hmem
    rw [hraw, Option.getD_some, Ne, hstream, Bool.not_eq_true]
  rw [mem_restorable]
  constructor
  · rintro ⟨content, aux, p, hread, hparse, hmem, hstream⟩
    exact ⟨content, aux, p, hread, hparse, hmem, (hkept content aux p hparse hmem).1 hstream⟩
  · rintro ⟨content, aux, p, hread, hparse, hmem, hraw⟩
    exact ⟨content, aux, p, hread, hparse, hmem, (hkept content aux p hparse hmem).2 hraw⟩

theorem mem_entryWrites {entries : List BinEntry} {w : (Nat × Bytes) × TargetValue}
    (h : w ∈ entryWrites entries) :
    ∃ entry ∈ entries, entry.rawValue.getD [] ≠ [] ∧ w = (entryKey entry, entryValue entry) := by
  obtain ⟨entry, hentry, rfl⟩ := List.mem_map.1 h
  obtain ⟨hmem, hraw⟩ := List.mem_filter.1 hentry
  exact ⟨entry, hmem, of_decide_eq_true hraw, rfl⟩

/-- A target that keeps what it has loses to no entry that is restored. -/
theorem KeepsExisting.meaning_eq {V : Type} {meaning : TargetValue → V}
    {config : KeepingConfig} {before : Keyspace} {entry : BinEntry} {v : TargetValue}
    (h : KeepsExisting meaning config size reads before) (hentry : entry ∈ restorable reads)
    (hv : before (entryKey entry) = some v) : meaning (entryValue entry) = meaning v := by
  obtain ⟨content, aux, p, hread, hparse, hmem, hraw⟩ := mem_restorable_iff.1 hentry
  have hfits : ∀ e ∈ p.sink, e.db < 2 ^ 32 := fun e he =>
    (parseEntries_deliverable hparse e he).2
  obtain ⟨turns, t, hreceives, hkey⟩ :=
    @sendEntries_reaches (dumpVersion p.state.version) p.sink entry hfits hmem hraw before
  rw [← @sendRdbData_parsed size reads content aux p hread hparse] at hreceives
  obtain ⟨v', hv', hmeaning⟩ := h turns t hreceives (entryKey entry) v hv
  rw [← hmeaning, Option.some.inj (hkey.symm.trans hv')]

/-- The target only ever gets the writes of what is restored. -/
theorem sendRdbData_writes {turns : List Turn} {before : Keyspace} {t : Target}
    (h : (Target.connected before).Receives
      (final (sendRdbData size reads { turns, exchanges := [] })).sent t) :
    ∃ done, t.keys = overwrite before done ∧
      ∀ w ∈ done, ∃ entry ∈ restorable reads, w = (entryKey entry, entryValue entry) := by
  rcases @sendRdbData_sent size reads { turns, exchanges := [] } with
    hnone | ⟨content, aux, p, hread, hparse⟩
  · rw [hnone] at h
    obtain rfl := h.unique ⟨[], rfl, rfl⟩
    exact ⟨[], rfl, fun w hw => by cases hw⟩
  · have hfits : ∀ e ∈ p.sink, e.db < 2 ^ 32 := fun e he =>
      (parseEntries_deliverable hparse e he).2
    have hruns := @sendEntries_makes p.sink (dumpVersion p.state.version) hfits 0
      { turns, exchanges := [] }
    rw [← @sendRdbData_parsed size reads content aux p hread hparse] at hruns
    obtain ⟨cmds, hsent, done, hmakes, hbegins, -⟩ := hruns
    obtain ⟨db', hrun⟩ := hmakes before
    obtain rfl := h.unique ⟨cmds, hsent, hrun.symm⟩
    refine ⟨done, rfl, fun w hw => ?_⟩
    obtain ⟨entry, hmem, hraw, rfl⟩ := mem_entryWrites (hbegins.subset hw)
    exact ⟨entry, mem_restorable_iff.2 ⟨content, aux, p, hread, hparse, hmem, hraw⟩, rfl⟩

/-- The keys of the target are kept if and only if every value that is restored
over one of them means the same as what the target has there. -/
theorem keepsExisting_iff {V : Type} (meaning : TargetValue → V) (config : KeepingConfig)
    (size : Option Int) (reads : List (Except IoErrorKind Bytes)) (before : Keyspace) :
    KeepsExisting meaning config size reads before ↔
      ∀ entry ∈ restorable reads, ∀ v, before (entryKey entry) = some v →
        meaning (entryValue entry) = meaning v := by
  constructor
  · intro h entry hentry v hv
    exact h.meaning_eq hentry hv
  · intro h turns t hreceives k v hk
    obtain ⟨done, hkeys, hdone⟩ := sendRdbData_writes hreceives
    rw [hkeys]
    refine overwrite_keeps (P := fun v' => meaning v' = meaning v) ?_ ⟨v, hk, rfl⟩
    intro w hw hwk
    obtain ⟨entry, hentry, rfl⟩ := hdone w hw
    exact h entry hentry v ((congrArg before hwk).trans hk)

/-- What is in the file. -/
def entryOfKey : BinEntry :=
  { db := 0, key := [107], value := [118], rawValue := some [1, 118], expire := none,
    rdbType := .string }

/-- Another value under the key of the file. -/
def otherValue : Keyspace := fun k =>
  if k = (0, [107]) then some { typeByte := 0, raw := [1, 119] } else none

/-- The file's value is put in the place of the other, under the default
policy. -/
theorem not_keepsExisting :
    ¬ KeepsExisting id (Config.keeping { addresses := ["127.0.0.1:6379".toList] }) (some 15)
        [.ok oneKey.bytes] otherValue := by
  intro h
  have hread : readAll [.ok oneKey.bytes] = .ok (oneKey.bytes ++ []) := by rfl
  obtain ⟨p, hparse, hsink⟩ := parseEntries_rdbFile oneKey []
  have hentry : entryOfKey ∈ restorable [.ok oneKey.bytes] := by
    refine mem_restorable_iff.2 ⟨_, _, p, hread, hparse, ?_, List.cons_ne_nil _ _⟩
    rw [hsink]
    exact List.mem_singleton.2 rfl
  have hmeaning := h.meaning_eq hentry (v := { typeByte := 0, raw := [1, 119] }) rfl
  exact absurd hmeaning (by decide)

end Policy

end RedisHaTool.Syncer
