import RedisHaTool.Proofs.Checkpoints

/-!
# Saves that are cut short

`save_checkpoint` writes the offset, the version and the time with a command
each, and a reader takes the three together from whatever is there. Between the
first and the last of them the offset is the new one and the time the old one,
so the reader is given a checkpoint that was never saved, unless the two
checkpoints differ in one of the three at most.
-/

namespace RedisHaTool.Checkpoint

open Lib Store

/-- `get_checkpoint` with the hashes its two commands find. -/
def getCheckpointBetween (h h' : Hashes) (masterReplid : Text) :
    Except (Fault SyncError) (Option CheckpointInfo) :=
  if hexists h checkpointKeyHashKey masterReplid then
    let fields := hgetall h' checkpointKey
    if fields.keys = [] then .ok none
    else (fromHashFields masterReplid fields).map some
  else .ok none

/-- Where nothing comes between the two. -/
theorem getCheckpointBetween_self (h : Hashes) (id : Text) :
    getCheckpointBetween h h id = getCheckpoint h id := rfl

/-- A number of the checkpoint, as it is read. -/
def fieldValue {α : Type} (h : Hashes) (id suffix : Text) (parse : Text → Option α) :
    Option α :=
  (hget h checkpointKey (id ++ suffix)).bind parse

/-- The three numbers of a checkpoint that is stored. -/
structure Stored (h : Hashes) (id : Text) (offset : Int) (version mtimeUnix : Nat) :
    Prop where
  offset : fieldValue h id "_offset".toList parseI64 = some offset
  version : fieldValue h id "_version".toList parseU64 = some version
  mtime : fieldValue h id "_mtime".toList parseU64 = some mtimeUnix
  mtimeRange : mtimeUnix ≤ 2 ^ 63 - 1

/-- The checkpoint of three numbers. -/
def infoOf (id : Text) (offset : Int) (version mtimeUnix : Nat) : CheckpointInfo :=
  { key := id ++ "_checkpoint".toList, masterReplid := id, offset, version,
    mtime := mtimeUnix * 1000000000 }

theorem numberField_of_fieldValue {α : Type} {h : Hashes} {id suffix label : Text}
    {parse : Text → Option α} {n : α} (hvalue : fieldValue h id suffix parse = some n) :
    numberField (hgetall h checkpointKey) (id ++ suffix) label parse = .ok n := by
  obtain ⟨value, hfield, hparse⟩ := Option.bind_eq_some_iff.1 hvalue
  rw [hget_eq_lookup_hgetall] at hfield
  exact numberField_ok hfield hparse

theorem fieldValue_of_numberField {α : Type} {h : Hashes} {id suffix label : Text}
    {parse : Text → Option α} {n : α}
    (hn : numberField (hgetall h checkpointKey) (id ++ suffix) label parse = .ok n) :
    fieldValue h id suffix parse = some n := by
  rw [fieldValue, hget_eq_lookup_hgetall]
  rw [numberField] at hn
  split at hn
  · cases hn
  · next value hvalue =>
      split at hn
      · next m hm =>
          obtain rfl := Except.ok.inj hn
          rw [hvalue, Option.bind_some, hm]
      · cases hn

theorem Stored.getCheckpointBetween {h h' : Hashes} {id : Text} {offset : Int}
    {version mtimeUnix : Nat} (hmapped : hexists h checkpointKeyHashKey id = true)
    (hs : Stored h' id offset version mtimeUnix) :
    getCheckpointBetween h h' id = .ok (some (infoOf id offset version mtimeUnix)) := by
  have hkeys : (hgetall h' checkpointKey).keys ≠ [] := by
    obtain ⟨value, hfield, -⟩ := Option.bind_eq_some_iff.1 hs.offset
    rw [hget_eq_lookup_hgetall] at hfield
    exact List.ne_nil_of_mem (AList.mem_keys.1 (AList.lookup_isSome.1 (by rw [hfield]; rfl)))
  rw [Checkpoint.getCheckpointBetween, if_pos hmapped]
  simp only [if_neg hkeys]
  rw [fromHashFields, numberField_of_fieldValue hs.offset,
    numberField_of_fieldValue hs.version, numberField_of_fieldValue hs.mtime]
  show Except.map some (if mtimeUnix ≤ 2 ^ 63 - 1 then _ else _) = _
  rw [if_pos hs.mtimeRange]
  rfl

/-- What a stored checkpoint is read from. -/
theorem stored_of_getCheckpoint {h : Hashes} {id : Text} {old : CheckpointInfo}
    (hold : getCheckpoint h id = .ok (some old)) :
    hexists h checkpointKeyHashKey id = true ∧
      ∃ mtimeUnix, Stored h id old.offset old.version mtimeUnix ∧
        old = infoOf id old.offset old.version mtimeUnix := by
  rw [getCheckpoint] at hold
  split at hold
  · next hmapped =>
      simp only at hold
      split at hold
      · cases hold
      · refine ⟨hmapped, ?_⟩
        rw [fromHashFields] at hold
        cases hoffset : numberField (hgetall h checkpointKey) (id ++ "_offset".toList)
            "offset".toList parseI64 with
        | error e => rw [hoffset] at hold; cases hold
        | ok offset =>
        cases hversion : numberField (hgetall h checkpointKey) (id ++ "_version".toList)
            "version".toList parseU64 with
        | error e => rw [hoffset, hversion] at hold; cases hold
        | ok version =>
        cases hmtime : numberField (hgetall h checkpointKey) (id ++ "_mtime".toList)
            "mtime".toList parseU64 with
        | error e => rw [hoffset, hversion, hmtime] at hold; cases hold
        | ok mtimeUnix =>
            rw [hoffset, hversion, hmtime] at hold
            change Except.map some (if mtimeUnix ≤ 2 ^ 63 - 1 then _ else _) = _ at hold
            split at hold
            · next hrange =>
                obtain rfl := Option.some.inj (Except.ok.inj hold)
                exact ⟨mtimeUnix, ⟨fieldValue_of_numberField hoffset,
                  fieldValue_of_numberField hversion, fieldValue_of_numberField hmtime,
                  hrange⟩, rfl⟩
            · cases hold
  · cases hold

/-! ## One command -/

theorem fieldValue_exec {α : Type} {h : Hashes} {id suffix value : Text}
    {parse : Text → Option α} :
    fieldValue ((Command.hset checkpointKey (id ++ suffix) value).exec h) id suffix parse
      = parse value := by
  rw [fieldValue, hget_exec_self, Option.bind_some]

/-- A command on another field, or another hash, leaves the number. -/
theorem fieldValue_exec_ne {α : Type} {h : Hashes} {id suffix key field value : Text}
    {parse : Text → Option α} (hne : key ≠ checkpointKey ∨ field ≠ id ++ suffix) :
    fieldValue ((Command.hset key field value).exec h) id suffix parse
      = fieldValue h id suffix parse := by
  rw [fieldValue, fieldValue, hget_exec_ne h value hne]

section Prefixes

variable {h : Hashes} {id : Text} {offset : Int} {version mtimeUnix : Nat}

theorem Stored.setOffset {offset' : Int} (hs : Stored h id offset version mtimeUnix)
    (ho : IsI64 offset') :
    Stored ((Command.hset checkpointKey (id ++ "_offset".toList)
      (intToString offset')).exec h) id offset' version mtimeUnix where
  offset := by rw [fieldValue_exec, parseI64_intToString ho]
  version := by rw [fieldValue_exec_ne (.inr (suffix_ne (by decide))), hs.version]
  mtime := by rw [fieldValue_exec_ne (.inr (suffix_ne (by decide))), hs.mtime]
  mtimeRange := hs.mtimeRange

theorem Stored.setRunid (hs : Stored h id offset version mtimeUnix) (value : Text) :
    Stored ((Command.hset checkpointKey (id ++ "_runid".toList) value).exec h) id offset
      version mtimeUnix where
  offset := by rw [fieldValue_exec_ne (.inr (suffix_ne (by decide))), hs.offset]
  version := by rw [fieldValue_exec_ne (.inr (suffix_ne (by decide))), hs.version]
  mtime := by rw [fieldValue_exec_ne (.inr (suffix_ne (by decide))), hs.mtime]
  mtimeRange := hs.mtimeRange

theorem Stored.setVersion {version' : Nat} (hs : Stored h id offset version mtimeUnix)
    (hv : version' < 2 ^ 64) :
    Stored ((Command.hset checkpointKey (id ++ "_version".toList)
      (natToString version')).exec h) id offset version' mtimeUnix where
  offset := by rw [fieldValue_exec_ne (.inr (suffix_ne (by decide))), hs.offset]
  version := by
    rw [fieldValue_exec]
    exact parseUnsigned_natToString (by omega)
  mtime := by rw [fieldValue_exec_ne (.inr (suffix_ne (by decide))), hs.mtime]
  mtimeRange := hs.mtimeRange

theorem Stored.setMtime {mtime : Nat} (hs : Stored h id offset version mtimeUnix)
    (hm : mtime ≤ 2 ^ 63 - 1) :
    Stored ((Command.hset checkpointKey (id ++ "_mtime".toList)
      (natToString mtime)).exec h) id offset version mtime where
  offset := by rw [fieldValue_exec_ne (.inr (suffix_ne (by decide))), hs.offset]
  version := by rw [fieldValue_exec_ne (.inr (suffix_ne (by decide))), hs.version]
  mtime := by
    rw [fieldValue_exec]
    exact parseUnsigned_natToString (by omega)
  mtimeRange := hm

theorem Stored.setMapping (hs : Stored h id offset version mtimeUnix) (field value : Text) :
    Stored ((Command.hset checkpointKeyHashKey field value).exec h) id offset version
      mtimeUnix where
  offset := by rw [fieldValue_exec_ne (.inl checkpointKeyHashKey_ne), hs.offset]
  version := by rw [fieldValue_exec_ne (.inl checkpointKeyHashKey_ne), hs.version]
  mtime := by rw [fieldValue_exec_ne (.inl checkpointKeyHashKey_ne), hs.mtime]
  mtimeRange := hs.mtimeRange

/-- What is stored when so many commands of a save have taken effect. -/
theorem Stored.take {c : CheckpointInfo} (hs : Stored h c.masterReplid offset version mtimeUnix)
    (hoffset : IsI64 c.offset) (hversion : c.version < 2 ^ 64) (hmtime : IsSystemTime c.mtime)
    (n : Nat) :
    Stored (execAll ((saveCheckpoint c).take n) h) c.masterReplid
      (if 1 ≤ n then c.offset else offset) (if 3 ≤ n then c.version else version)
      (if 4 ≤ n then c.mtime / 1000000000 else mtimeUnix) := by
  have h1 := hs.setOffset hoffset
  have h2 := h1.setRunid c.masterReplid
  have h3 := h2.setVersion hversion
  have h4 := h3.setMtime hmtime
  match n with
  | 0 => exact hs
  | 1 => exact h1
  | 2 => exact h2
  | 3 => exact h3
  | 4 => exact h4
  | n + 5 =>
      have h5 := h4.setMapping c.masterReplid c.key
      have hall : (saveCheckpoint c).take (n + 5) = saveCheckpoint c := by
        rw [List.take_of_length_le]
        show 5 ≤ n + 5
        omega
      rw [hall, if_pos (by omega), if_pos (by omega), if_pos (by omega)]
      exact h5

end Prefixes

/-! ## Every prefix -/

/-- A field that is there stays there. -/
theorem hexists_exec {h : Hashes} {key field : Text} (c : Command)
    (hfield : hexists h key field = true) : hexists (c.exec h) key field = true := by
  obtain ⟨key', field', value⟩ := c
  by_cases hsame : key' = key ∧ field' = field
  · obtain ⟨rfl, rfl⟩ := hsame
    rw [hexists, hget_exec_self]
    rfl
  · rw [hexists, hget_exec_ne h value (not_and_or.1 hsame)]
    exact hfield

theorem hexists_execAll {h : Hashes} {key field : Text} (cmds : List Command)
    (hfield : hexists h key field = true) : hexists (execAll cmds h) key field = true := by
  induction cmds generalizing h with
  | nil => exact hfield
  | cons c cmds ih => exact ih (hexists_exec c hfield)

/-- A new checkpoint differs from a stored one in one of its three numbers, at
most; the time is stored in seconds. -/
def DiffersInOne (old c : CheckpointInfo) : Prop :=
  (old.offset = c.offset ∧ old.version = c.version) ∨
    (old.offset = c.offset ∧ old.mtime = c.mtime / 1000000000 * 1000000000) ∨
      (old.version = c.version ∧ old.mtime = c.mtime / 1000000000 * 1000000000)

instance (old c : CheckpointInfo) : Decidable (DiffersInOne old c) :=
  inferInstanceAs (Decidable (_ ∨ _ ∨ _))

theorem infoOf_inj {id : Text} {offset offset' : Int} {version version' mtime mtime' : Nat} :
    infoOf id offset version mtime = infoOf id offset' version' mtime' ↔
      offset = offset' ∧ version = version' ∧ mtime = mtime' := by
  rw [infoOf, infoOf, CheckpointInfo.mk.injEq]
  constructor
  · rintro ⟨-, -, ho, hv, hm⟩
    exact ⟨ho, hv, Nat.eq_of_mul_eq_mul_right (by decide) hm⟩
  · rintro ⟨rfl, rfl, rfl⟩
    exact ⟨rfl, rfl, rfl, rfl, rfl⟩

/-- What a reader is given when the commands of a save have taken effect up to
one place for its first command and another for its second. -/
def readDuring (h : Hashes) (c : CheckpointInfo) (m n : Nat) :
    Except (Fault SyncError) (Option CheckpointInfo) :=
  getCheckpointBetween (execAll ((saveCheckpoint c).take m) h)
    (execAll ((saveCheckpoint c).take n) h) c.masterReplid

/-- Every read of a stored checkpoint that a new one is being saved over gives
the one or the other, whatever commands of the save have taken effect, if and
only if the two differ in one of offset, version and time at most. -/
theorem readDuring_iff {h : Hashes} {c old : CheckpointInfo}
    (hold : getCheckpoint h c.masterReplid = .ok (some old)) (hoffset : IsI64 c.offset)
    (hversion : c.version < 2 ^ 64) (hmtime : IsSystemTime c.mtime) :
    (∀ m n, m ≤ n → readDuring h c m n = getCheckpoint h c.masterReplid ∨
        readDuring h c m n = getCheckpoint (execAll (saveCheckpoint c) h) c.masterReplid) ↔
      DiffersInOne old c := by
  obtain ⟨hmapped, mtimeUnix, hstored, hinfo⟩ := stored_of_getCheckpoint hold
  have hread : ∀ m n, readDuring h c m n = .ok (some (infoOf c.masterReplid
      (if 1 ≤ n then c.offset else old.offset) (if 3 ≤ n then c.version else old.version)
      (if 4 ≤ n then c.mtime / 1000000000 else mtimeUnix))) := fun m n =>
    (hstored.take hoffset hversion hmtime n).getCheckpointBetween
      (hexists_execAll _ hmapped)
  have hnew : getCheckpoint (execAll (saveCheckpoint c) h) c.masterReplid
      = .ok (some (infoOf c.masterReplid c.offset c.version (c.mtime / 1000000000))) :=
    hread 5 5
  have hmtimes : old.mtime = c.mtime / 1000000000 * 1000000000 ↔
      mtimeUnix = c.mtime / 1000000000 := by
    rw [hinfo]
    exact ⟨Nat.eq_of_mul_eq_mul_right (by decide), congrArg (· * 1000000000)⟩
  have hgiven : getCheckpoint h c.masterReplid
      = .ok (some (infoOf c.masterReplid old.offset old.version mtimeUnix)) := by
    rw [← hinfo]
    exact hold
  rw [hgiven, hnew, DiffersInOne, hmtimes]
  simp only [hread, Except.ok.injEq, Option.some.injEq, infoOf_inj]
  constructor
  · intro hall
    -- After the first command only the offset is new, after the third only the time is old.
    have hone := hall 1 1 (Nat.le_refl 1)
    have hthree := hall 3 3 (Nat.le_refl 3)
    simp only [Nat.le_refl, Nat.reduceLeDiff, if_true, if_false, true_and, and_true] at hone hthree
    tauto
  · intro hdiffers m n hmn
    by_cases h1 : 1 ≤ n
    · by_cases h3 : 3 ≤ n
      · by_cases h4 : 4 ≤ n
        · simp [h1, h3, h4]
        · simp only [h1, h3, h4, if_true, if_false, true_and]
          tauto
      · have h4 : ¬ 4 ≤ n := by omega
        simp only [h1, h3, h4, if_true, if_false, true_and, and_true]
        tauto
    · have h3 : ¬ 3 ≤ n := by omega
      have h4 : ¬ 4 ≤ n := by omega
      simp [h1, h3, h4]

/-- The hashes after one save. -/
def savedAt (offset : Int) (now : Rdb.SystemTime) : Hashes :=
  execAll (saveCheckpoint (.new "id".toList offset now)) ∅

theorem readDuring_iff_sameSecond :
    (∀ m n, m ≤ n →
      readDuring (savedAt 5 0) (.new "id".toList 9 7) m n
          = getCheckpoint (savedAt 5 0) "id".toList ∨
        readDuring (savedAt 5 0) (.new "id".toList 9 7) m n
          = getCheckpoint (execAll (saveCheckpoint (.new "id".toList 9 7)) (savedAt 5 0))
              "id".toList) ↔
      DiffersInOne (.new "id".toList 5 0) (.new "id".toList 9 7) := by
  have hold : getCheckpoint (savedAt 5 0) "id".toList
      = .ok (some (.new "id".toList 5 0)) := by decide +kernel
  exact readDuring_iff (c := .new "id".toList 9 7) hold (by decide) (by decide) (by decide)

/-- The next save, two seconds later: after its first command there is the new
offset with the old time. -/
theorem not_oldOrNew :
    ¬ ∀ (h : Hashes) (c old : CheckpointInfo),
      getCheckpoint h c.masterReplid = .ok (some old) → IsI64 c.offset →
        c.version < 2 ^ 64 → IsSystemTime c.mtime → ∀ m n, m ≤ n →
          readDuring h c m n = getCheckpoint h c.masterReplid ∨
            readDuring h c m n
              = getCheckpoint (execAll (saveCheckpoint c) h) c.masterReplid := by
  intro h
  have hmixed := h (savedAt 5 0) (.new "id".toList 9 2000000000) (.new "id".toList 5 0)
    (by decide +kernel) (by decide) (by decide) (by decide) 1 1 (Nat.le_refl 1)
  revert hmixed
  decide +kernel

end RedisHaTool.Checkpoint
