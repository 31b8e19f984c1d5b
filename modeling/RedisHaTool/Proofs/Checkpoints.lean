import RedisHaTool.Checkpoint.Manager
import RedisHaTool.Lib.Run

/-!
# What the checkpoint hash remembers

All ids share one hash, and a second one says which of them have a checkpoint.
Each id is followed through the calls on its own: a `Record` is what the two
hashes hold for it, one call changes the record of its own id and of no other,
and what `get_checkpoint` reads is the record. Two ids of one length never share
a field, whatever suffix is put on them, and that is the whole of the argument.
-/

namespace RedisHaTool.Checkpoint

open Lib Store

/-- A call of one of the methods that write. -/
inductive Call where
  | saveCheckpoint (c : CheckpointInfo)
  | savePsyncInfo (masterReplid : Text) (offset : Int)
  | updateOffset (masterReplid : Text) (newOffset : Int) (now : Rdb.SystemTime)
  | deleteCheckpoint (masterReplid : Text)
  deriving DecidableEq, Repr

/-- The id a call is on. -/
def Call.id : Call → Text
  | .saveCheckpoint c => c.masterReplid
  | .savePsyncInfo masterReplid _ => masterReplid
  | .updateOffset masterReplid _ _ => masterReplid
  | .deleteCheckpoint masterReplid => masterReplid

/-- A completed call: what it leaves behind, if it completes. -/
def Call.run (h : Hashes) : Call → Option Hashes
  | .saveCheckpoint c => some (execAll (Checkpoint.saveCheckpoint c) h)
  | .savePsyncInfo masterReplid offset =>
      some (execAll (Checkpoint.savePsyncInfo masterReplid offset) h)
  | .updateOffset masterReplid newOffset now =>
      (Checkpoint.updateOffset h masterReplid newOffset now).map fun cmds => execAll cmds h
  | .deleteCheckpoint masterReplid => some (Checkpoint.deleteCheckpoint h masterReplid)

/-- A length all replication ids have. -/
def replIdLength : Nat := 40

/-- The seconds of a `SystemTime` are an `i64`. -/
def IsSystemTime (t : Rdb.SystemTime) : Prop := t / 1000000000 ≤ 2 ^ 63 - 1

instance : DecidablePred IsSystemTime := fun _ => inferInstanceAs (Decidable (_ ≤ _))

/-- The arguments are values of their types, and the id is a replication id. -/
def Call.Valid (call : Call) : Prop :=
  call.id.length = replIdLength ∧
    match call with
    | .saveCheckpoint c => IsI64 c.offset ∧ c.version < 2 ^ 64 ∧ IsSystemTime c.mtime
    | .savePsyncInfo _ offset => IsI64 offset
    | .updateOffset _ newOffset now => IsI64 newOffset ∧ IsSystemTime now
    | .deleteCheckpoint _ => True

instance : DecidablePred Call.Valid
  | .saveCheckpoint _ => inferInstanceAs (Decidable (_ ∧ _ ∧ _ ∧ _))
  | .savePsyncInfo _ _ => inferInstanceAs (Decidable (_ ∧ _))
  | .updateOffset _ _ _ => inferInstanceAs (Decidable (_ ∧ _ ∧ _))
  | .deleteCheckpoint _ => inferInstanceAs (Decidable (_ ∧ _))

/-! ## What was called -/

/-- The id was saved, and not deleted since. -/
def Saved (id : Text) (calls : List Call) : Prop :=
  ∃ pre c post, calls = pre ++ .saveCheckpoint c :: post ∧ c.masterReplid = id ∧
    Call.deleteCheckpoint id ∉ post

/-- The offset a call writes for the id. -/
def Call.offsetOn (id : Text) : Call → Option Int
  | .saveCheckpoint c => if c.masterReplid = id then some c.offset else none
  | .savePsyncInfo masterReplid offset => if masterReplid = id then some offset else none
  | .updateOffset masterReplid newOffset _ =>
      if masterReplid = id then some newOffset else none
  | .deleteCheckpoint _ => none

/-- The offset of the last call that writes one for the id. -/
def lastOffset (id : Text) (calls : List Call) : Option Int :=
  calls.reverse.findSome? (Call.offsetOn id)

/-- The version a call leaves for the id: a save writes the one it is given, an
update one more than there was. -/
def Call.versionOn (id : Text) (version : Nat) : Call → Nat
  | .saveCheckpoint c => if c.masterReplid = id then c.version else version
  | .savePsyncInfo _ _ => version
  | .updateOffset masterReplid _ _ => if masterReplid = id then version + 1 else version
  | .deleteCheckpoint masterReplid => if masterReplid = id then 0 else version

/-- The version of the last save or update on the id. -/
def lastVersion (id : Text) (calls : List Call) : Nat :=
  calls.foldl (Call.versionOn id) 0

/-! ## Records -/

/-- What the hashes hold for one id. -/
structure Record where
  mapped : Bool := false
  offset : Option Int := none
  version : Option Nat := none
  mtime : Option Nat := none

/-- What a call makes of the record of the id it is on. -/
def Record.write (rec : Record) : Call → Record
  | .saveCheckpoint c =>
      { mapped := true, offset := some c.offset, version := some c.version,
        mtime := some (c.mtime / 1000000000) }
  | .savePsyncInfo _ offset => { rec with offset := some offset }
  | .updateOffset _ newOffset now =>
      { rec with
        offset := some newOffset, version := some (rec.version.getD 0 + 1),
        mtime := some (now / 1000000000) }
  | .deleteCheckpoint _ => {}

/-- What a call makes of the record of an id. -/
def Record.after (id : Text) (rec : Record) (call : Call) : Record :=
  if call.id = id then rec.write call else rec

/-- The hashes hold the record, and every number of it parses. -/
structure Holds (h : Hashes) (id : Text) (rec : Record) : Prop where
  mapped : hexists h checkpointKeyHashKey id = rec.mapped
  offset : hget h checkpointKey (id ++ "_offset".toList) = rec.offset.map intToString
  version : hget h checkpointKey (id ++ "_version".toList) = rec.version.map natToString
  mtime : hget h checkpointKey (id ++ "_mtime".toList) = rec.mtime.map natToString
  offsetRange : ∀ offset ∈ rec.offset, IsI64 offset
  versionRange : ∀ version ∈ rec.version, version < 2 ^ 64
  mtimeRange : ∀ mtime ∈ rec.mtime, mtime ≤ 2 ^ 63 - 1
  full : rec.mapped = true →
    rec.offset.isSome = true ∧ rec.version.isSome = true ∧ rec.mtime.isSome = true

theorem Holds.init {h : Hashes} (hkey : h.lookup checkpointKey = none)
    (hhash : h.lookup checkpointKeyHashKey = none) (id : Text) : Holds h id {} where
  mapped := by rw [hexists, hget, hhash]; rfl
  offset := by rw [hget, hkey]; rfl
  version := by rw [hget, hkey]; rfl
  mtime := by rw [hget, hkey]; rfl
  offsetRange := by intro _ h; cases h
  versionRange := by intro _ h; cases h
  mtimeRange := by intro _ h; cases h
  full := by intro h; cases h

/-! ## Fields -/

theorem field_ne_id (id : Text) {s : Text} (hs : s ≠ []) : id ++ s ≠ id :=
  fun h => hs (List.append_right_eq_self.1 h)

/-- No field of an id is a field of another id of its length. -/
theorem field_ne {id id' : Text} (hlen : id'.length = id.length) (hne : id' ≠ id)
    (s t : Text) : id ++ t ≠ id' ++ s :=
  fun h => hne (List.append_inj h hlen.symm).1.symm

/-- A command that writes a field of the id, or the field the id itself is. -/
def Command.Of (id : Text) : Command → Prop
  | .hset _ field _ => ∃ s, field = id ++ s

theorem saveCheckpoint_of (c : CheckpointInfo) :
    ∀ cmd ∈ saveCheckpoint c, cmd.Of c.masterReplid := by
  intro cmd hcmd
  simp only [saveCheckpoint, List.mem_cons, List.not_mem_nil, or_false] at hcmd
  rcases hcmd with rfl | rfl | rfl | rfl | rfl
  · exact ⟨_, rfl⟩
  · exact ⟨_, rfl⟩
  · exact ⟨_, rfl⟩
  · exact ⟨_, rfl⟩
  · exact ⟨[], (List.append_nil _).symm⟩

theorem savePsyncInfo_of (id : Text) (offset : Int) :
    ∀ cmd ∈ savePsyncInfo id offset, cmd.Of id := by
  intro cmd hcmd
  simp only [savePsyncInfo, List.mem_cons, List.not_mem_nil, or_false] at hcmd
  rcases hcmd with rfl | rfl
  · exact ⟨[], (List.append_nil _).symm⟩
  · exact ⟨_, rfl⟩

theorem updateOffset_of {h : Hashes} {id : Text} {newOffset : Int} {now : Rdb.SystemTime}
    {cmds : List Command} (hcmds : updateOffset h id newOffset now = some cmds) :
    ∀ cmd ∈ cmds, cmd.Of id := by
  rw [updateOffset] at hcmds
  split at hcmds
  · obtain rfl := Option.some.inj hcmds
    intro cmd hcmd
    simp only [List.mem_cons, List.not_mem_nil, or_false] at hcmd
    rcases hcmd with rfl | rfl | rfl <;> exact ⟨_, rfl⟩
  · cases hcmds

/-- Commands on one id leave the fields of another alone. -/
theorem hget_execAll_of {cmds : List Command} {id id' : Text}
    (hcmds : ∀ cmd ∈ cmds, cmd.Of id') (hlen : id'.length = id.length) (hne : id' ≠ id)
    (h : Hashes) (key s : Text) :
    hget (execAll cmds h) key (id ++ s) = hget h key (id ++ s) := by
  refine hget_execAll (fun value hmem => ?_) h
  obtain ⟨t, ht⟩ := hcmds _ hmem
  exact field_ne hlen hne t s ht

theorem hget_deleteCheckpoint_ne {id id' : Text} (hlen : id'.length = id.length)
    (hne : id' ≠ id) (h : Hashes) (key s : Text) :
    hget (deleteCheckpoint h id') key (id ++ s) = hget h key (id ++ s) := by
  have hfield : ∀ t, id ++ s ≠ id' ++ t := fun t => field_ne hlen hne t s
  have hid : id ++ s ≠ id' := by simpa using hfield []
  rw [deleteCheckpoint, hget_hdel, if_neg, hget_hdel, if_neg]
  · rintro ⟨-, hmem⟩
    simp only [List.mem_cons, List.not_mem_nil, or_false] at hmem
    rcases hmem with h | h | h | h <;> exact hfield _ h
  · rintro ⟨-, hmem⟩
    exact hid (List.mem_singleton.1 hmem)

/-- A call on another id leaves every field of this one as it was. -/
theorem Call.run_ne {call : Call} {h h' : Hashes} {id : Text}
    (hrun : call.run h = some h') (hlen : call.id.length = id.length)
    (hne : call.id ≠ id) (key s : Text) :
    hget h' key (id ++ s) = hget h key (id ++ s) := by
  cases call with
  | saveCheckpoint c =>
      obtain rfl := Option.some.inj hrun
      exact hget_execAll_of (saveCheckpoint_of c) hlen hne h key s
  | savePsyncInfo id' offset =>
      obtain rfl := Option.some.inj hrun
      exact hget_execAll_of (savePsyncInfo_of id' offset) hlen hne h key s
  | updateOffset id' newOffset now =>
      obtain ⟨cmds, hcmds, rfl⟩ := Option.map_eq_some_iff.1 hrun
      exact hget_execAll_of (updateOffset_of hcmds) hlen hne h key s
  | deleteCheckpoint id' =>
      obtain rfl := Option.some.inj hrun
      exact hget_deleteCheckpoint_ne hlen hne h key s

/-! ## One call -/

theorem Holds.saveCheckpoint (h : Hashes) (c : CheckpointInfo) (hoffset : IsI64 c.offset)
    (hversion : c.version < 2 ^ 64) (hmtime : IsSystemTime c.mtime) :
    Holds (execAll (saveCheckpoint c) h) c.masterReplid
      { mapped := true, offset := some c.offset, version := some c.version,
        mtime := some (c.mtime / 1000000000) } where
  mapped := by
    simp only [execAll, Checkpoint.saveCheckpoint, List.foldl_cons, List.foldl_nil, hexists]
    rw [hget_exec_self]
    rfl
  offset := by
    simp only [execAll, Checkpoint.saveCheckpoint, offsetField, List.foldl_cons, List.foldl_nil]
    rw [hget_exec_key_ne _ _ _ _ checkpointKeyHashKey_ne.symm,
      hget_exec_field_ne _ _ (suffix_ne (by decide)),
      hget_exec_field_ne _ _ (suffix_ne (by decide)),
      hget_exec_field_ne _ _ (suffix_ne (by decide)), hget_exec_self]
    rfl
  version := by
    simp only [execAll, Checkpoint.saveCheckpoint, offsetField, List.foldl_cons, List.foldl_nil]
    rw [hget_exec_key_ne _ _ _ _ checkpointKeyHashKey_ne.symm,
      hget_exec_field_ne _ _ (suffix_ne (by decide)), hget_exec_self]
    rfl
  mtime := by
    simp only [execAll, Checkpoint.saveCheckpoint, offsetField, List.foldl_cons, List.foldl_nil]
    rw [hget_exec_key_ne _ _ _ _ checkpointKeyHashKey_ne.symm, hget_exec_self]
    rfl
  offsetRange := by
    intro offset h
    obtain rfl := Option.some.inj h
    exact hoffset
  versionRange := by
    intro version h
    obtain rfl := Option.some.inj h
    exact hversion
  mtimeRange := by
    intro mtime h
    obtain rfl := Option.some.inj h
    exact hmtime
  full := fun _ => ⟨rfl, rfl, rfl⟩

theorem Holds.savePsyncInfo {h : Hashes} {id : Text} {rec : Record} (hold : Holds h id rec)
    {offset : Int} (hoffset : IsI64 offset) :
    Holds (execAll (savePsyncInfo id offset) h) id { rec with offset := some offset } where
  mapped := by
    simp only [execAll, Checkpoint.savePsyncInfo, List.foldl_cons, List.foldl_nil, hexists]
    rw [hget_exec_key_ne _ _ _ _ checkpointKeyHashKey_ne,
      hget_exec_key_ne _ _ _ _ checkpointKeyHashKey_ne]
    exact hold.mapped
  offset := by
    simp only [execAll, Checkpoint.savePsyncInfo, offsetField, List.foldl_cons, List.foldl_nil]
    rw [hget_exec_self]
    rfl
  version := by
    simp only [execAll, Checkpoint.savePsyncInfo, offsetField, List.foldl_cons, List.foldl_nil]
    rw [hget_exec_field_ne _ _ (suffix_ne (by decide)),
      hget_exec_field_ne _ _ (field_ne_id id (by decide))]
    exact hold.version
  mtime := by
    simp only [execAll, Checkpoint.savePsyncInfo, offsetField, List.foldl_cons, List.foldl_nil]
    rw [hget_exec_field_ne _ _ (suffix_ne (by decide)),
      hget_exec_field_ne _ _ (field_ne_id id (by decide))]
    exact hold.mtime
  offsetRange := by
    intro offset' h
    obtain rfl := Option.some.inj h
    exact hoffset
  versionRange := hold.versionRange
  mtimeRange := hold.mtimeRange
  full := fun hmapped => ⟨rfl, (hold.full hmapped).2⟩

/-- The version in the hash is the one of the record. -/
theorem Holds.currentVersion {h : Hashes} {id : Text} {rec : Record} (hold : Holds h id rec) :
    ((hget h checkpointKey (id ++ "_version".toList)).bind parseU64).getD 0
      = rec.version.getD 0 := by
  rw [hold.version]
  cases hversion : rec.version with
  | none => rfl
  | some version =>
      have hlt := hold.versionRange version hversion
      have hparse : parseU64 (natToString version) = some version :=
        parseUnsigned_natToString (by omega)
      rw [Option.map_some, Option.bind_some, hparse]

theorem Holds.updateOffset {h : Hashes} {id : Text} {rec : Record} (hold : Holds h id rec)
    {newOffset : Int} {now : Rdb.SystemTime} (hoffset : IsI64 newOffset)
    (hnow : IsSystemTime now) {cmds : List Command}
    (hcmds : Checkpoint.updateOffset h id newOffset now = some cmds) :
    Holds (execAll cmds h) id
      { rec with
        offset := some newOffset, version := some (rec.version.getD 0 + 1),
        mtime := some (now / 1000000000) } := by
  rw [Checkpoint.updateOffset, hold.currentVersion] at hcmds
  split at hcmds
  · next hlt =>
      obtain rfl := Option.some.inj hcmds
      constructor
      case mapped =>
        simp only [execAll, List.foldl_cons, List.foldl_nil, hexists]
        rw [hget_exec_key_ne _ _ _ _ checkpointKeyHashKey_ne,
          hget_exec_key_ne _ _ _ _ checkpointKeyHashKey_ne,
          hget_exec_key_ne _ _ _ _ checkpointKeyHashKey_ne]
        exact hold.mapped
      case offset =>
        simp only [execAll, List.foldl_cons, List.foldl_nil]
        rw [hget_exec_field_ne _ _ (suffix_ne (by decide)),
          hget_exec_field_ne _ _ (suffix_ne (by decide)), hget_exec_self]
        rfl
      case version =>
        simp only [execAll, List.foldl_cons, List.foldl_nil]
        rw [hget_exec_field_ne _ _ (suffix_ne (by decide)), hget_exec_self]
        rfl
      case mtime =>
        simp only [execAll, List.foldl_cons, List.foldl_nil]
        rw [hget_exec_self]
        rfl
      case offsetRange =>
        intro offset h
        obtain rfl := Option.some.inj h
        exact hoffset
      case versionRange =>
        intro version h
        obtain rfl := Option.some.inj h
        exact hlt
      case mtimeRange =>
        intro mtime h
        obtain rfl := Option.some.inj h
        exact hnow
      case full => exact fun _ => ⟨rfl, rfl, rfl⟩
  · cases hcmds

theorem Holds.deleteCheckpoint (h : Hashes) (id : Text) :
    Holds (deleteCheckpoint h id) id {} where
  mapped := by
    rw [hexists, Checkpoint.deleteCheckpoint, hget_hdel, if_pos ⟨rfl, List.mem_singleton_self _⟩]
    rfl
  offset := by
    rw [Checkpoint.deleteCheckpoint, hget_hdel,
      if_neg fun h => checkpointKeyHashKey_ne h.1.symm, hget_hdel, if_pos ⟨rfl, by simp⟩]
    rfl
  version := by
    rw [Checkpoint.deleteCheckpoint, hget_hdel,
      if_neg fun h => checkpointKeyHashKey_ne h.1.symm, hget_hdel, if_pos ⟨rfl, by simp⟩]
    rfl
  mtime := by
    rw [Checkpoint.deleteCheckpoint, hget_hdel,
      if_neg fun h => checkpointKeyHashKey_ne h.1.symm, hget_hdel, if_pos ⟨rfl, by simp⟩]
    rfl
  offsetRange := by intro _ h; cases h
  versionRange := by intro _ h; cases h
  mtimeRange := by intro _ h; cases h
  full := by intro h; cases h

/-- A call changes the record of its own id as it should, and that of no
other. -/
theorem Holds.run {h h' : Hashes} {id : Text} {rec : Record} (hold : Holds h id rec)
    {call : Call} (hvalid : call.Valid) (hlen : id.length = replIdLength)
    (hrun : call.run h = some h') : Holds h' id (rec.after id call) := by
  rw [Record.after]
  split
  · next hid =>
      subst hid
      cases call with
      | saveCheckpoint c =>
          obtain rfl := Option.some.inj hrun
          obtain ⟨-, hoffset, hversion, hmtime⟩ := hvalid
          exact .saveCheckpoint h c hoffset hversion hmtime
      | savePsyncInfo id offset =>
          obtain rfl := Option.some.inj hrun
          exact hold.savePsyncInfo hvalid.2
      | updateOffset id newOffset now =>
          obtain ⟨cmds, hcmds, rfl⟩ := Option.map_eq_some_iff.1 hrun
          exact hold.updateOffset hvalid.2.1 hvalid.2.2 hcmds
      | deleteCheckpoint id =>
          obtain rfl := Option.some.inj hrun
          exact .deleteCheckpoint h id
  · next hid =>
      have hsame := fun key s => Call.run_ne hrun (hvalid.1.trans hlen.symm) hid key s
      have hmapped : hexists h' checkpointKeyHashKey id = hexists h checkpointKeyHashKey id := by
        have hself := hsame checkpointKeyHashKey []
        rw [List.append_nil] at hself
        rw [hexists, hself, hexists]
      exact { hold with
        mapped := hmapped.trans hold.mapped
        offset := (hsame _ _).trans hold.offset
        version := (hsame _ _).trans hold.version
        mtime := (hsame _ _).trans hold.mtime }

/-! ## Reading the record -/

/-- The checkpoint a record stands for. -/
def Record.info (rec : Record) (id : Text) : CheckpointInfo :=
  { key := id ++ "_checkpoint".toList, masterReplid := id, offset := rec.offset.getD 0,
    version := rec.version.getD 0, mtime := rec.mtime.getD 0 * 1000000000 }

theorem numberField_ok {α : Type} {fields : TextMap Text} {field label value : Text}
    {parse : Text → Option α} {n : α} (hfield : fields.lookup field = some value)
    (hparse : parse value = some n) : numberField fields field label parse = .ok n := by
  simp only [numberField, hfield, hparse]

/-- What is read is the record. -/
theorem Holds.getCheckpoint {h : Hashes} {id : Text} {rec : Record} (hold : Holds h id rec) :
    getCheckpoint h id = .ok (if rec.mapped then some (rec.info id) else none) := by
  rw [Checkpoint.getCheckpoint, hold.mapped]
  cases hmapped : rec.mapped with
  | false => rfl
  | true =>
      obtain ⟨hoff, hver, hmt⟩ := hold.full hmapped
      obtain ⟨offset, hoffset⟩ := Option.isSome_iff_exists.1 hoff
      obtain ⟨version, hversion⟩ := Option.isSome_iff_exists.1 hver
      obtain ⟨mtime, hmtime⟩ := Option.isSome_iff_exists.1 hmt
      have hv := hold.versionRange version hversion
      have hm := hold.mtimeRange mtime hmtime
      have foffset := hold.offset
      have fversion := hold.version
      have fmtime := hold.mtime
      rw [hget_eq_lookup_hgetall, hoffset] at foffset
      rw [hget_eq_lookup_hgetall, hversion] at fversion
      rw [hget_eq_lookup_hgetall, hmtime] at fmtime
      have hkeys : (hgetall h checkpointKey).keys ≠ [] := by
        have hsome : ((hgetall h checkpointKey).lookup (id ++ "_offset".toList)).isSome = true := by
          rw [foffset]
          rfl
        exact List.ne_nil_of_mem (AList.mem_keys.1 (AList.lookup_isSome.1 hsome))
      have pversion : parseU64 (natToString version) = some version :=
        parseUnsigned_natToString (by omega)
      have pmtime : parseU64 (natToString mtime) = some mtime :=
        parseUnsigned_natToString (by omega)
      have poffset := parseI64_intToString (hold.offsetRange offset hoffset)
      rw [if_pos rfl, if_neg hkeys, fromHashFields, numberField_ok foffset poffset,
        numberField_ok fversion pversion, numberField_ok fmtime pmtime]
      show Except.map some (if mtime ≤ 2 ^ 63 - 1 then _ else _) = _
      rw [if_pos hm, Record.info, hoffset, hversion, hmtime]
      rfl

/-! ## Many calls -/

/-- Sequences of completed calls with arguments of their types. -/
abbrev Calls : Hashes → List Call → Hashes → Prop := Steps Call.run fun _ call => call.Valid

/-- The record of an id after some calls. -/
def recordOf (id : Text) (calls : List Call) : Record := calls.foldl (Record.after id) {}

theorem Calls.holds {h h' : Hashes} {calls : List Call} (hcalls : Calls h calls h')
    {id : Text} (hlen : id.length = replIdLength) {rec : Record} (hold : Holds h id rec) :
    Holds h' id (calls.foldl (Record.after id) rec) := by
  induction hcalls generalizing rec with
  | refl => exact hold
  | cons hvalid hrun _ ih => exact ih (hold.run hvalid hlen hrun)

@[simp] theorem recordOf_append (id : Text) (calls : List Call) (call : Call) :
    recordOf id (calls ++ [call]) = (recordOf id calls).after id call := by
  simp [recordOf]

@[simp] theorem lastOffset_append (id : Text) (calls : List Call) (call : Call) :
    lastOffset id (calls ++ [call]) = (call.offsetOn id).or (lastOffset id calls) := by
  rw [lastOffset, List.reverse_append, List.reverse_singleton, List.singleton_append,
    List.findSome?_cons, ← lastOffset]
  cases call.offsetOn id with
  | none => rfl
  | some offset => rfl

@[simp] theorem lastVersion_append (id : Text) (calls : List Call) (call : Call) :
    lastVersion id (calls ++ [call]) = call.versionOn id (lastVersion id calls) := by
  simp [lastVersion]

/-- The last call decides, or the ones before it do. -/
theorem saved_append (id : Text) (calls : List Call) (call : Call) :
    Saved id (calls ++ [call]) ↔
      (∃ c, call = .saveCheckpoint c ∧ c.masterReplid = id) ∨
        Saved id calls ∧ call ≠ .deleteCheckpoint id := by
  constructor
  · rintro ⟨pre, c, post, hsplit, hid, hpost⟩
    rcases List.eq_nil_or_concat post with rfl | ⟨post, last, rfl⟩
    · obtain ⟨-, hlast⟩ := List.append_inj' hsplit rfl
      exact .inl ⟨c, (List.cons.inj hlast).1, hid⟩
    · rw [List.concat_eq_append, ← List.cons_append, ← List.append_assoc] at hsplit
      obtain ⟨hcalls, hlast⟩ := List.append_inj' hsplit rfl
      obtain rfl := (List.cons.inj hlast).1
      rw [List.concat_eq_append, List.mem_append, not_or] at hpost
      exact .inr ⟨⟨pre, c, post, hcalls, hid, hpost.1⟩,
        fun h => hpost.2 (h ▸ List.mem_singleton_self _)⟩
  · rintro (⟨c, rfl, hid⟩ | ⟨⟨pre, c, post, rfl, hid, hpost⟩, hlast⟩)
    · exact ⟨calls, c, [], rfl, hid, List.not_mem_nil⟩
    · refine ⟨pre, c, post ++ [call], by simp, hid, ?_⟩
      rw [List.mem_append, not_or, List.mem_singleton]
      exact ⟨hpost, Ne.symm hlast⟩

theorem Call.offsetOn_ne {call : Call} {id : Text} (hid : call.id ≠ id) :
    call.offsetOn id = none := by
  cases call <;> simp_all [Call.id, Call.offsetOn]

theorem Call.versionOn_ne {call : Call} {id : Text} (hid : call.id ≠ id) (version : Nat) :
    call.versionOn id version = version := by
  cases call <;> simp_all [Call.id, Call.versionOn]

theorem saved_append_ne {call : Call} {id : Text} (hid : call.id ≠ id) (calls : List Call) :
    Saved id (calls ++ [call]) ↔ Saved id calls := by
  rw [saved_append]
  constructor
  · rintro (⟨c, rfl, hc⟩ | ⟨h, -⟩)
    · exact absurd hc hid
    · exact h
  · intro h
    refine .inr ⟨h, ?_⟩
    rintro rfl
    exact hid rfl

/-- A save on the id is the last word; a delete undoes it, and the others leave
it. -/
theorem saved_append_self (calls : List Call) (call : Call) :
    Saved call.id (calls ++ [call]) ↔
      match call with
      | .saveCheckpoint _ => True
      | .savePsyncInfo id _ => Saved id calls
      | .updateOffset id _ _ => Saved id calls
      | .deleteCheckpoint _ => False := by
  rw [saved_append]
  cases call <;> simp [Call.id]

/-- The record of an id is what was called on it. -/
theorem recordOf_spec (id : Text) (calls : List Call) :
    ((recordOf id calls).mapped = true ↔ Saved id calls) ∧
      ((recordOf id calls).mapped = true → (recordOf id calls).offset = lastOffset id calls ∧
        (recordOf id calls).version = some (lastVersion id calls)) := by
  induction calls using List.reverseRecOn with
  | nil =>
      refine ⟨⟨fun h => ?_, ?_⟩, fun h => ?_⟩
      · cases h
      · rintro ⟨pre, c, post, hsplit, -⟩
        simp at hsplit
      · cases h
  | append_singleton calls call ih =>
      obtain ⟨hmapped, hfields⟩ := ih
      rw [recordOf_append, lastOffset_append, lastVersion_append, Record.after]
      by_cases hid : call.id = id
      · subst hid
        rw [if_pos rfl, saved_append_self]
        cases call with
        | saveCheckpoint c => simp [Record.write, Call.id, Call.offsetOn, Call.versionOn]
        | savePsyncInfo id offset =>
            refine ⟨hmapped, fun h => ⟨?_, ?_⟩⟩
            · simp [Record.write, Call.id, Call.offsetOn]
            · exact (hfields h).2
        | updateOffset id newOffset now =>
            refine ⟨hmapped, fun h => ⟨?_, ?_⟩⟩
            · simp [Record.write, Call.id, Call.offsetOn]
            · have hversion := (hfields h).2
              simp only [Call.id] at hversion
              simp [Record.write, Call.id, Call.versionOn, hversion]
        | deleteCheckpoint id => simp [Record.write]
      · rw [if_neg hid, saved_append_ne hid, Call.offsetOn_ne hid, Call.versionOn_ne hid,
          Option.none_or]
        exact ⟨hmapped, hfields⟩

/-- After any completed calls `get_checkpoint` reads without error what was
called on the id: nothing where it is not saved, and the last offset and version
where it is. Calls on other ids do not change that. -/
theorem getCheckpoint_of_calls {h h' : Hashes} {calls : List Call}
    (hkey : h.lookup checkpointKey = none) (hhash : h.lookup checkpointKeyHashKey = none)
    (hcalls : Calls h calls h') {id : Text} (hlen : id.length = 40) :
    ∃ found, Checkpoint.getCheckpoint h' id = .ok found ∧
      (found = none ↔ ¬ Saved id calls) ∧
      (∀ info, found = some info →
        lastOffset id calls = some info.offset ∧ lastVersion id calls = info.version) ∧
      ∀ (call : Call) (h'' : Hashes), call.Valid → call.id ≠ id → call.run h' = some h'' →
        Checkpoint.getCheckpoint h'' id = Checkpoint.getCheckpoint h' id := by
  have hold : Holds h' id (recordOf id calls) := hcalls.holds hlen (.init hkey hhash id)
  obtain ⟨hmapped, hfields⟩ := recordOf_spec id calls
  refine ⟨_, hold.getCheckpoint, ?_, ?_, ?_⟩
  · rw [← hmapped]
    cases (recordOf id calls).mapped <;> simp
  · intro info hinfo
    split at hinfo
    · next h =>
        obtain rfl := Option.some.inj hinfo
        obtain ⟨hoffset, hversion⟩ := hfields h
        obtain ⟨offset, hsome⟩ := Option.isSome_iff_exists.1 (hold.full h).1
        rw [Record.info, hversion, ← hoffset, hsome]
        exact ⟨rfl, rfl⟩
    · cases hinfo
  · intro call h'' hvalid hne hrun
    have hold' := hold.run hvalid hlen hrun
    rw [Record.after, if_neg hne] at hold'
    rw [hold'.getCheckpoint, hold.getCheckpoint]

/-- Two ids, one saved and moved on, the other deleted. -/
def someCalls : List Call :=
  let a : Text := List.replicate 40 'a'
  let b : Text := List.replicate 40 'b'
  [.saveCheckpoint (.new a 5 0), .saveCheckpoint (.new b 6 0), .updateOffset a 7 0,
   .savePsyncInfo b 8, .deleteCheckpoint b]

theorem someCalls_complete :
    (exec Call.run (fun _ call => decide call.Valid) ∅ someCalls).isSome = true := by
  decide +kernel

theorem someCalls_calls :
    Calls ∅ someCalls ((exec Call.run (fun _ call => decide call.Valid) ∅ someCalls).get
      someCalls_complete) :=
  Steps.of_exec _ (Option.some_get _).symm fun _ _ h => of_decide_eq_true h

theorem getCheckpoint_of_calls_sample :
    ∃ h' found, Checkpoint.getCheckpoint h' (List.replicate 40 'a') = .ok found ∧
      (found = none ↔ ¬ Saved (List.replicate 40 'a') someCalls) ∧
      ∀ info, found = some info →
        lastOffset (List.replicate 40 'a') someCalls = some info.offset ∧
        lastVersion (List.replicate 40 'a') someCalls = info.version := by
  obtain ⟨found, hfound, hnone, hsome, -⟩ := getCheckpoint_of_calls rfl rfl someCalls_calls
    (show (List.replicate 40 'a').length = 40 from rfl)
  exact ⟨_, found, hfound, hnone, hsome⟩

end RedisHaTool.Checkpoint
