import RedisHaTool.Proofs.Snapshot

/-!
# A snapshot that is sent more than once

When `send` fails on a snapshot the forwarding task drops the connection, waits
and calls it again with a new reader, as often as it takes. Every attempt starts
with the first entry, on a connection of its own, to a target that has what the
attempts before it have left. `RESTORE` replaces what is there, so an attempt
undoes nothing and the one that answers leaves what it would have left alone.

In between, a key has what it had before the first attempt or a value that the
snapshot has for it.
-/

namespace RedisHaTool.Syncer

open Lib Rdb Resp

/-- A call of `send`: the reads of its reader, and what becomes of its
connection. -/
structure Attempt where
  reads : List (Except IoErrorKind Bytes)
  turns : List Turn

def Attempt.result (a : Attempt) (size : Option Int) :
    EStateM.Result (Fault SyncError) OutState Int :=
  sendRdbData size a.reads { turns := a.turns, exchanges := [] }

/-- What went over the connection. -/
def Attempt.sent (a : Attempt) (size : Option Int) : Bytes := (final (a.result size)).sent

/-- The reader gives the content of the file, unless a read fails. -/
def Attempt.Reads (a : Attempt) (content : Bytes) : Prop :=
  ∀ bs, readAll a.reads = .ok bs → bs = content

/-- What the target holds before and after some attempts. -/
inductive Attempted (size : Option Int) : Keyspace → List Attempt → Keyspace → Prop where
  | nil (keys : Keyspace) : Attempted size keys [] keys
  | cons {keys keys' : Keyspace} {t : Target} {a : Attempt} {attempts : List Attempt}
      (hfirst : (Target.connected keys).Receives (a.sent size) t)
      (hrest : Attempted size t.keys attempts keys') : Attempted size keys (a :: attempts) keys'

/-- Every key holds what it held, or what one of the entries has for it. -/
def Touched (entries : List BinEntry) (before after : Keyspace) : Prop :=
  ∀ k, after k = before k ∨
    ∃ entry ∈ entries, entryKey entry = k ∧ after k = some (entryValue entry)

theorem Touched.refl (entries : List BinEntry) (keys : Keyspace) :
    Touched entries keys keys := fun _ => .inl rfl

variable {entries : List BinEntry} {before during : Keyspace}

/-- Some of the writes leave the keys touched. -/
theorem Touched.overwrite {done : List ((Nat × Bytes) × TargetValue)}
    (h : Touched entries before during) (hdone : done <+: allWrites entries) :
    Touched entries before (overwrite during done) := by
  intro k
  rcases overwrite_origin during done k with hsame | ⟨w, hw, hkey, hvalue⟩
  · rw [hsame]
    exact h k
  · obtain ⟨entry, hentry, rfl⟩ := List.mem_map.1 (hdone.subset hw)
    exact .inr ⟨entry, hentry, hkey, hvalue⟩

/-- All of them make up for what was touched. -/
theorem Touched.overwrite_all (h : Touched entries before during) :
    Lib.overwrite during (allWrites entries) = Lib.overwrite before (allWrites entries) := by
  refine overwrite_congr fun k hk => ?_
  rcases h k with hsame | ⟨entry, hentry, hkey, -⟩
  · exact hsame
  · exact absurd hkey (hk _ (List.mem_map_of_mem hentry))

theorem restored_overwrite (entries : List BinEntry) (before : Keyspace) :
    Restored entries before (overwrite before (allWrites entries)) := by
  refine ⟨?_, ?_⟩
  · rintro pre entry post rfl hlast
    rw [allWrites, List.map_append, List.map_cons]
    refine overwrite_of_last fun w hw => ?_
    obtain ⟨later, hlater, rfl⟩ := List.mem_map.1 hw
    exact hlast later hlater
  · intro k hk
    refine overwrite_of_not_mem fun w hw => ?_
    obtain ⟨entry, hentry, rfl⟩ := List.mem_map.1 hw
    exact hk entry hentry

/-! ## One attempt -/

/-- The entries with a payload are those that are not streams. -/
theorem entryWrites_kept (h : ∀ entry ∈ entries, BinEntry.Kept entry) :
    entryWrites entries = allWrites (entries.filter fun entry => !entry.rdbType.isStream) := by
  rw [entryWrites, allWrites]
  congr 1
  refine List.filter_congr fun entry hentry => ?_
  obtain ⟨raw, hraw, hempty⟩ := h entry hentry
  simp [hraw, hempty]

theorem restorable_of_readAll {reads : List (Except IoErrorKind Bytes)} {content : Bytes}
    (h : readAll reads = .ok content) : restorable reads = restorable [.ok content] := by
  have hwhole : readAll [.ok content] = .ok content := by
    rw [readAll]
    split
    · next hnil => rw [hnil]
    · show Except.ok (content ++ []) = _
      rw [List.append_nil]
  rw [restorable, restorable, h, hwhole]

section Writes

variable {content : Bytes} {a : Attempt}

theorem restorable_content (hread : readAll a.reads = .ok content) :
    restorable [.ok content] =
      match parseEntries content with
      | .ok _ p => p.sink.filter fun entry => !entry.rdbType.isStream
      | .error _ _ => [] := by
  rw [← restorable_of_readAll hread]
  cases hparse : parseEntries content with
  | ok aux p => simp only [restorable, hread, hparse]
  | error fault p => simp only [restorable, hread, hparse]

/-- The writes of an attempt: the first of those for the entries, in order, and all
of them if it answers. -/
structure Attempt.Writes (a : Attempt) (size : Option Int) (entries : List BinEntry)
    (keys : Keyspace) (t : Target) (done : List ((Nat × Bytes) × TargetValue)) : Prop where
  receives : (Target.connected keys).Receives (a.sent size) t
  keys_eq : t.keys = overwrite keys done
  begins : done <+: allWrites entries
  all : ∀ n s, a.result size = .ok n s → done = allWrites entries

theorem Attempt.writes_nothing {size : Option Int} (keys : Keyspace)
    (hsent : a.sent size = [])
    (h : entries = [] ∨ ∀ n s, a.result size ≠ .ok n s) :
    a.Writes size entries keys (Target.connected keys) [] := by
  refine ⟨⟨[], hsent, rfl⟩, rfl, List.nil_prefix, fun n s hok => ?_⟩
  rcases h with rfl | h
  · rfl
  · exact absurd hok (h n s)

theorem Attempt.exists_writes (h : a.Reads content) (size : Option Int) (keys : Keyspace) :
    ∃ t done, a.Writes size (restorable [.ok content]) keys t done := by
  have hrun : a.result size = sendRdbData size a.reads { turns := a.turns, exchanges := [] } := rfl
  cases hread : readAll a.reads with
  | error e =>
      rw [sendRdbData, hread] at hrun
      refine ⟨_, [], Attempt.writes_nothing keys ?_ (.inr fun n s hok => ?_)⟩
      · rw [Attempt.sent, hrun]
        rfl
      · rw [hrun] at hok
        cases hok
  | ok bs =>
      obtain rfl := h bs hread
      have hentries := restorable_content hread
      cases hparse : parseEntries bs with
      | error fault p =>
          rw [hparse] at hentries
          refine ⟨_, [], Attempt.writes_nothing keys ?_ (.inl hentries)⟩
          have hsent : final (sendRdbData size a.reads { turns := a.turns, exchanges := [] })
              = { turns := a.turns, exchanges := [] } ∨
                ∃ content aux p, readAll a.reads = .ok content ∧
                  parseEntries content = .ok aux p := sendRdbData_sent _
          rcases hsent with hnone | ⟨bs', aux, p', hread', hparse'⟩
          · rw [Attempt.sent, hrun, hnone]
            rfl
          · rw [hread] at hread'
            cases hread'
            rw [hparse] at hparse'
            cases hparse'
      | ok aux p =>
          rw [hparse] at hentries
          have hdeliverable := parseEntries_deliverable hparse
          have hwrites : entryWrites p.sink = allWrites (restorable [.ok bs]) := by
            rw [hentries]
            exact entryWrites_kept fun entry hentry => (hdeliverable entry hentry).1
          obtain ⟨cmds, hsent, done, hmakes, hbegins, hall⟩ :=
            @sendEntries_makes p.sink (dumpVersion p.state.version)
              (fun entry hentry => (hdeliverable entry hentry).2) 0
              { turns := a.turns, exchanges := [] }
          obtain ⟨db', hexecuted⟩ := hmakes keys
          rw [hwrites] at hbegins hall
          refine ⟨_, done, ⟨cmds, ?_, hexecuted.symm⟩, rfl, hbegins, fun n s hok => ?_⟩
          · rw [Attempt.sent, hrun, sendRdbData_parsed hread hparse]
            exact hsent
          · cases bs with
            | nil => cases hparse
            | cons b bs =>
                rw [hrun, sendRdbData, hread] at hok
                dsimp only at hok
                rw [hparse] at hok
                obtain ⟨_, u, hsend, -⟩ := bind_eq_ok.1 hok
                exact hall u hsend

end Writes

/-! ## All of them -/

/-- Attempts that fail, and those that do not, leave the keys touched. -/
theorem attempted_touches (size : Option Int) {content : Bytes} {attempts : List Attempt}
    (h : ∀ a ∈ attempts, a.Reads content)
    (hbefore : Touched (restorable [.ok content]) before during) :
    ∃ after, Attempted size during attempts after ∧
      Touched (restorable [.ok content]) before after := by
  induction attempts generalizing during with
  | nil => exact ⟨during, .nil during, hbefore⟩
  | cons a attempts ih =>
      obtain ⟨t, done, hwrites⟩ :=
        Attempt.exists_writes (h a List.mem_cons_self) size during
      have htouched := hbefore.overwrite hwrites.begins
      rw [← hwrites.keys_eq] at htouched
      obtain ⟨after, hrest, hafter⟩ :=
        ih (fun a' ha' => h a' (List.mem_cons_of_mem a ha')) htouched
      exact ⟨after, .cons hwrites.receives hrest, hafter⟩

/-- However many attempts break off, and wherever, a key of the target has in
between what it had or what the snapshot has for it; and the attempt that answers
leaves what it would have left as the first and only one. -/
theorem retries_load_once (size : Option Int) {content : Bytes} {failed : List Attempt}
    {last : Attempt} (hfailed : ∀ a ∈ failed, a.Reads content) (hlast : last.Reads content)
    (before : Keyspace) :
    ∃ during t, Attempted size before failed during ∧
      Touched (restorable [.ok content]) before during ∧
      (Target.connected during).Receives (last.sent size) t ∧
      ∀ n s, last.result size = .ok n s → Restored (restorable [.ok content]) before t.keys := by
  obtain ⟨during, hattempted, htouched⟩ :=
    attempted_touches size hfailed (Touched.refl _ before)
  obtain ⟨t, done, hwrites⟩ := Attempt.exists_writes hlast size during
  refine ⟨during, t, hattempted, htouched, hwrites.receives, fun n s hok => ?_⟩
  rw [hwrites.keys_eq, hwrites.all n s hok, htouched.overwrite_all]
  exact restored_overwrite _ before

/-- A connection that breaks at once, a read that fails, and one that is answered. -/
theorem retries_load_once_thirdTime :
    ∃ during t, Attempted (some 15) otherValue
        [⟨[.ok oneKey.bytes], []⟩, ⟨[.error .other], [okTurn]⟩] during ∧
      Touched (restorable [.ok oneKey.bytes]) otherValue during ∧
      (Target.connected during).Receives
        (Attempt.sent ⟨[.ok oneKey.bytes], [okTurn]⟩ (some 15)) t ∧
      ∀ n s, Attempt.result ⟨[.ok oneKey.bytes], [okTurn]⟩ (some 15) = .ok n s →
        Restored (restorable [.ok oneKey.bytes]) otherValue t.keys := by
  have hwhole : ∀ turns, Attempt.Reads ⟨[.ok oneKey.bytes], turns⟩ oneKey.bytes := by
    intro turns bs hread
    have hread' : readAll [.ok oneKey.bytes] = .ok (oneKey.bytes ++ []) := rfl
    rw [hread', List.append_nil] at hread
    exact (Except.ok.inj hread).symm
  refine retries_load_once (some 15) (fun a ha => ?_) (hwhole [okTurn]) otherValue
  rcases List.mem_cons.1 ha with rfl | ha
  · exact hwhole []
  · obtain rfl := List.mem_singleton.1 ha
    intro bs hread
    cases hread

end RedisHaTool.Syncer
