import RedisHaTool.Store.DataSet
import RedisHaTool.Rdb.Types

/-!
# The checkpoint manager

`checkpoint/manager.rs`. A checkpoint lives in two Redis hashes on the target,
and each method is a sequence of hash commands; a command is atomic, the
sequence is not, so a method that writes is modelled by the commands it sends,
in order.
-/

namespace RedisHaTool.Checkpoint

open Lib Store

def checkpointKey : Text := "redis_ha_tool_checkpoint".toList

def checkpointKeyHashKey : Text := "redis_ha_tool_checkpoint_hash".toList

/-- The hashes of a Redis server. -/
abbrev Hashes := AList fun _ : Text => TextMap Text

/-- A command that changes a hash. -/
inductive Command where
  | hset (key field value : Text)
  deriving DecidableEq, Repr

def hget (h : Hashes) (key field : Text) : Option Text :=
  (h.lookup key).bind (·.lookup field)

def hexists (h : Hashes) (key field : Text) : Bool := (hget h key field).isSome

def Command.exec : Command → Hashes → Hashes
  | .hset key field value, h =>
      h.insert key (((h.lookup key).getD ∅).insert field value)

def execAll (cmds : List Command) (h : Hashes) : Hashes :=
  cmds.foldl (fun h c => c.exec h) h

structure CheckpointInfo where
  key : Text
  masterReplid : Text
  offset : Int
  version : Nat
  mtime : Rdb.SystemTime
  deriving DecidableEq, Repr

def CheckpointInfo.new (masterReplid : Text) (offset : Int) (now : Rdb.SystemTime) :
    CheckpointInfo :=
  { key := masterReplid ++ "_checkpoint".toList, masterReplid, offset, version := 0,
    mtime := now }

def offsetField (masterReplid : Text) : Text := masterReplid ++ "_offset".toList

def saveCheckpoint (c : CheckpointInfo) : List Command :=
  [.hset checkpointKey (offsetField c.masterReplid) (intToString c.offset),
   .hset checkpointKey (c.masterReplid ++ "_runid".toList) c.masterReplid,
   .hset checkpointKey (c.masterReplid ++ "_version".toList) (natToString c.version),
   .hset checkpointKey (c.masterReplid ++ "_mtime".toList)
     (natToString (c.mtime / 1000000000)),
   .hset checkpointKeyHashKey c.masterReplid c.key]

def savePsyncInfo (masterReplid : Text) (offset : Int) : List Command :=
  [.hset checkpointKey masterReplid (intToString offset),
   .hset checkpointKey (offsetField masterReplid) (intToString offset)]

def getPsyncInfo (h : Hashes) (masterReplid : Text) : Except SyncError (Option Int) :=
  if hexists h checkpointKeyHashKey masterReplid then
    match hget h checkpointKey (offsetField masterReplid) with
    | some offsetStr =>
        match parseI64 offsetStr with
        | some offset => .ok (some offset)
        | none => .error (.corruptedText ("offset 解析失败: ".toList ++ offsetStr))
    | none => .ok none
  else .ok none

/-- `fields.get(..)`, and the number it parses to; the label is for the
message. -/
def numberField {α : Type} (fields : TextMap Text) (field label : Text)
    (parse : Text → Option α) : Except (Fault SyncError) α :=
  match fields.lookup field with
  | none =>
      .error (.err (.corruptedText ("缺少 ".toList ++ field ++ " 字段".toList)))
  | some value =>
      match parse value with
      | some n => .ok n
      | none =>
          .error (.err (.corruptedText (label ++ " 解析失败: ".toList ++ value)))

/-- `CheckpointInfo::from_hash_fields`. The time it adds up panics past the last
second there is. -/
def fromHashFields (masterReplid : Text) (fields : TextMap Text) :
    Except (Fault SyncError) CheckpointInfo := do
  let offset ← numberField fields (masterReplid ++ "_offset".toList) "offset".toList parseI64
  let version ← numberField fields (masterReplid ++ "_version".toList) "version".toList parseU64
  let mtimeUnix ← numberField fields (masterReplid ++ "_mtime".toList) "mtime".toList parseU64
  if mtimeUnix ≤ 2 ^ 63 - 1 then
    return { key := masterReplid ++ "_checkpoint".toList, masterReplid, offset, version,
             mtime := mtimeUnix * 1000000000 }
  else throw .panic

def hgetall (h : Hashes) (key : Text) : TextMap Text := (h.lookup key).getD ∅

def getCheckpoint (h : Hashes) (masterReplid : Text) :
    Except (Fault SyncError) (Option CheckpointInfo) :=
  if hexists h checkpointKeyHashKey masterReplid then
    let fields := hgetall h checkpointKey
    if fields.keys = [] then .ok none
    else (fromHashFields masterReplid fields).map some
  else .ok none

/-- `get_all_checkpoints`, given the keys of the map in the order in which it
yields them. -/
def getAllCheckpoints (h : Hashes) (keys : List Text) :
    Except (Fault SyncError) (TextMap CheckpointInfo) :=
  keys.foldlM (fun result masterReplid => do
    let found ← getCheckpoint h masterReplid
    return found.elim result fun checkpoint => result.insert masterReplid checkpoint) ∅

/-- `update_offset`: the commands it sends, after it has read the version, and
`none` where adding one to that overflows. -/
def updateOffset (h : Hashes) (masterReplid : Text) (newOffset : Int)
    (now : Rdb.SystemTime) : Option (List Command) :=
  let currentVersion := hget h checkpointKey (masterReplid ++ "_version".toList)
  let version := (currentVersion.bind parseU64).getD 0 + 1
  if version < 2 ^ 64 then
    some
      [.hset checkpointKey (masterReplid ++ "_offset".toList) (intToString newOffset),
       .hset checkpointKey (masterReplid ++ "_version".toList) (natToString version),
       .hset checkpointKey (masterReplid ++ "_mtime".toList) (natToString (now / 1000000000))]
  else none

/-- `HDEL`. A hash whose last field is deleted is gone. -/
def hdel (h : Hashes) (key : Text) (fields : List Text) : Hashes :=
  let left := fields.foldl (fun m field => m.erase field) (hgetall h key)
  if left.keys = [] then h.erase key else h.insert key left

def deleteCheckpoint (h : Hashes) (masterReplid : Text) : Hashes :=
  let h := hdel h checkpointKey
    [masterReplid ++ "_offset".toList, masterReplid ++ "_runid".toList,
     masterReplid ++ "_version".toList, masterReplid ++ "_mtime".toList]
  hdel h checkpointKeyHashKey [masterReplid]

/-! ## What a write leaves behind -/

@[simp] theorem hget_exec_self (h : Hashes) (key field value : Text) :
    hget ((Command.hset key field value).exec h) key field = some value := by
  simp [hget, Command.exec]

theorem hget_exec_key_ne (h : Hashes) {key key' : Text} (field value field' : Text)
    (hne : key' ≠ key) :
    hget ((Command.hset key field value).exec h) key' field' = hget h key' field' := by
  simp [hget, Command.exec, AList.lookup_insert_ne hne]

theorem hget_exec_field_ne (h : Hashes) {key field field' : Text} (value : Text)
    (hne : field' ≠ field) :
    hget ((Command.hset key field value).exec h) key field' = hget h key field' := by
  rw [hget, Command.exec, AList.lookup_insert, Option.bind_some,
    AList.lookup_insert_ne hne, hget]
  cases h.lookup key with
  | none => rfl
  | some m => rfl

theorem hget_exec_ne (h : Hashes) {key key' field field' : Text} (value : Text)
    (hne : key ≠ key' ∨ field ≠ field') :
    hget ((Command.hset key field value).exec h) key' field' = hget h key' field' := by
  by_cases hkey : key' = key
  · subst hkey
    exact hget_exec_field_ne h value (hne.resolve_left fun hdiff => hdiff rfl).symm
  · exact hget_exec_key_ne h field value field' hkey

theorem execAll_append (cmds cmds' : List Command) (h : Hashes) :
    execAll (cmds ++ cmds') h = execAll cmds' (execAll cmds h) := List.foldl_append

/-- A field that no command writes stays as it is. -/
theorem hget_execAll {cmds : List Command} {key field : Text}
    (hno : ∀ value, .hset key field value ∉ cmds) (h : Hashes) :
    hget (execAll cmds h) key field = hget h key field := by
  induction cmds generalizing h with
  | nil => rfl
  | cons c cmds ih =>
      have hrest := ih (fun value hmem => hno value (List.mem_cons_of_mem c hmem)) (c.exec h)
      rw [execAll, List.foldl_cons, ← execAll, hrest]
      obtain ⟨key', field', value⟩ := c
      by_cases hsame : key' = key ∧ field' = field
      · obtain ⟨rfl, rfl⟩ := hsame
        exact absurd List.mem_cons_self (hno value)
      · exact hget_exec_ne h value (not_and_or.1 hsame)

theorem hget_eq_lookup_hgetall (h : Hashes) (key field : Text) :
    hget h key field = (hgetall h key).lookup field := by
  rw [hget, hgetall]
  cases h.lookup key with
  | none => rfl
  | some m => rfl

theorem lookup_foldl_erase (fields : List Text) (m : TextMap Text) (field : Text) :
    (fields.foldl (fun m field => m.erase field) m).lookup field
      = if field ∈ fields then none else m.lookup field := by
  induction fields generalizing m with
  | nil => rfl
  | cons f fields ih =>
      rw [List.foldl_cons, ih]
      by_cases hf : field = f
      · subst hf
        simp
      · simp [hf, AList.lookup_erase_ne hf]

/-- Exactly the fields deleted are gone. -/
theorem hget_hdel (h : Hashes) (key : Text) (fields : List Text) (key' field : Text) :
    hget (hdel h key fields) key' field
      = if key' = key ∧ field ∈ fields then none else hget h key' field := by
  have hleft := lookup_foldl_erase fields (hgetall h key) field
  rw [hdel]
  by_cases hkey : key' = key
  · subst hkey
    simp only [true_and]
    rw [hget_eq_lookup_hgetall h, ← hleft]
    split
    · next hnil =>
        have hnone : (fields.foldl (fun m f => m.erase f) (hgetall h key')).lookup field
            = none := by
          rw [AList.lookup_eq_none, AList.mem_keys, hnil]
          exact List.not_mem_nil
        rw [hget, AList.lookup_erase, hnone]
        rfl
    · rw [hget, AList.lookup_insert]
      rfl
  · have hne : ¬ (key' = key ∧ field ∈ fields) := fun hand => hkey hand.1
    rw [if_neg hne]
    split
    · rw [hget, AList.lookup_erase_ne hkey, hget]
    · rw [hget, AList.lookup_insert_ne hkey, hget]

/-- A field with another suffix is another field. -/
theorem suffix_ne {id s t : Text} (h : s ≠ t) : id ++ s ≠ id ++ t :=
  fun heq => h (List.append_cancel_left heq)

theorem checkpointKeyHashKey_ne : checkpointKeyHashKey ≠ checkpointKey := by decide

/-- A completed save is what the next start reads. -/
theorem getPsyncInfo_saveCheckpoint (h : Hashes) (c : CheckpointInfo)
    (hoffset : IsI64 c.offset) :
    getPsyncInfo (execAll (saveCheckpoint c) h) c.masterReplid
      = .ok (some c.offset) := by
  have hkeys := checkpointKeyHashKey_ne
  have hoff : hget (execAll (saveCheckpoint c) h) checkpointKey
      (offsetField c.masterReplid) = some (intToString c.offset) := by
    simp only [execAll, saveCheckpoint, offsetField, List.foldl_cons, List.foldl_nil]
    rw [hget_exec_key_ne _ _ _ _ hkeys.symm,
      hget_exec_field_ne _ _ (suffix_ne (by decide)),
      hget_exec_field_ne _ _ (suffix_ne (by decide)),
      hget_exec_field_ne _ _ (suffix_ne (by decide)), hget_exec_self]
  have hmap : hexists (execAll (saveCheckpoint c) h) checkpointKeyHashKey
      c.masterReplid = true := by
    simp only [execAll, saveCheckpoint, List.foldl_cons, List.foldl_nil, hexists]
    rw [hget_exec_self]
    rfl
  rw [getPsyncInfo, if_pos hmap, hoff]
  simp only [parseI64_intToString hoffset]

end RedisHaTool.Checkpoint
