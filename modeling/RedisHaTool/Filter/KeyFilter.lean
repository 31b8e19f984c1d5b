import RedisHaTool.Filter.RangeList
import RedisHaTool.Filter.Trie

/-!
# The key filter

`filter/key_filter.rs`, without the table of key positions, which the filter
does not consult. A command is dropped for its database, for its name, or for a
key of it; the three questions are asked of structures built once from the
configuration.
-/

namespace RedisHaTool.Filter

open Lib

structure FilterConfig where
  dbBlackList : List UInt32 := []
  cmdBlackList : List Text := []
  keyPrefixWhiteList : List Text := []
  keyPrefixBlackList : List Text := []
  slotWhiteList : List SlotRange := []
  slotBlackList : List SlotRange := []
  deriving DecidableEq, Repr

def noRouteCmds : List Text :=
  ["AUTH".toList, "REPLCONF".toList, "PSYNC".toList, "SYNC".toList,
   "CLUSTER".toList, "CONFIG".toList, "DEBUG".toList, "SHUTDOWN".toList,
   "SLAVEOF".toList, "MONITOR".toList, "INFO".toList]

/-- One turn of the inner loop of `crc16`. -/
def crc16Bit (crc : UInt16) : UInt16 :=
  if crc &&& 0x8000 ≠ 0 then (crc <<< 1) ^^^ 0x1021 else crc <<< 1

/-- One turn of its outer loop. -/
def crc16Byte (crc : UInt16) (byte : UInt8) : UInt16 :=
  Nat.iterate crc16Bit 8 (crc ^^^ (byte.toUInt16 <<< 8))

/-- `crc16`, which is reduced to a slot already. -/
def crc16 (data : Bytes) : UInt16 := data.foldl crc16Byte 0 % 16384

/-- The part of a key that is hashed: what is between the first `{` and the next
`}` after it, and the whole key without the two. -/
def hashKey (key : Bytes) : Bytes :=
  match key.findIdx? (· == 123) with
  | none => key
  | some start =>
      let tail := key.drop (start + 1)
      match tail.findIdx? (· == 125) with
      | none => key
      | some stop => tail.take stop

structure RedisKeyFilter where
  dbBlackList : List UInt32
  cmdBlackList : Trie
  keyPrefixWhiteList : Trie
  keyPrefixBlackList : Trie
  slotWhiteList : RangeList
  slotBlackList : RangeList

namespace RedisKeyFilter

def new : RedisKeyFilter :=
  { dbBlackList := [], cmdBlackList := .new, keyPrefixWhiteList := .new,
    keyPrefixBlackList := .new, slotWhiteList := .new, slotBlackList := .new }

/-- A slot list of the configuration, which an empty one leaves as it is. -/
def slotList (old : RangeList) (slotRanges : List SlotRange) : Option RangeList :=
  if slotRanges.isEmpty then some old else RangeList.fromConfig slotRanges

/-- `from_config`, `none` where building a range list panics. -/
def fromConfig (config : FilterConfig) : Option RedisKeyFilter := do
  let filter := new
  let dbBlackList := config.dbBlackList.foldl (fun dbs db => dbs.insert db) filter.dbBlackList
  let cmdBlackList := config.cmdBlackList.foldl
    (fun trie cmd => trie.insert (asBytes cmd)) filter.cmdBlackList
  let keyPrefixWhiteList := config.keyPrefixWhiteList.foldl
    (fun trie p => trie.insert (asBytes p)) filter.keyPrefixWhiteList
  let keyPrefixBlackList := config.keyPrefixBlackList.foldl
    (fun trie p => trie.insert (asBytes p)) filter.keyPrefixBlackList
  let slotWhiteList ← slotList filter.slotWhiteList config.slotWhiteList
  let slotBlackList ← slotList filter.slotBlackList config.slotBlackList
  return { dbBlackList, cmdBlackList, keyPrefixWhiteList, keyPrefixBlackList,
           slotWhiteList, slotBlackList }

def keySlot (key : Bytes) : UInt16 := crc16 (hashKey key)

/-- The part of `filter_cmd_key` that looks at the key. -/
def filterKey (filter : RedisKeyFilter) (key : Bytes) : Bool :=
  if !filter.keyPrefixWhiteList.isEmpty && !filter.keyPrefixWhiteList.matchesPrefix key then
    true
  else if filter.keyPrefixBlackList.matchesPrefix key then true
  else if !filter.slotWhiteList.isEmpty && !filter.slotWhiteList.contains (keySlot key) then
    true
  else if !filter.slotBlackList.isEmpty && filter.slotBlackList.contains (keySlot key) then
    true
  else false

/-- `filter_cmd_key`: whether the command is dropped. -/
def filterCmdKey (filter : RedisKeyFilter) (cmd : Text) (key : Option Bytes)
    (db : UInt32) : Bool :=
  if filter.dbBlackList.contains db then true
  else if filter.cmdBlackList.exactMatch (asBytes cmd) then true
  else if noRouteCmds.contains cmd then true
  else
    match key with
    | some keyBytes => filter.filterKey keyBytes
    | none => false

end RedisKeyFilter

/-! ## What a configuration drops -/

/-- A key is dropped that no white-listed prefix begins, where there are any, or
that a black-listed one begins, and the same of its slot and the slot ranges. -/
def FilterConfig.DropsKey (config : FilterConfig) (key : Bytes) : Prop :=
  (config.keyPrefixWhiteList ≠ [] ∧
      ¬ ∃ p ∈ config.keyPrefixWhiteList, asBytes p <+: key) ∨
    (∃ p ∈ config.keyPrefixBlackList, asBytes p <+: key) ∨
    (config.slotWhiteList ≠ [] ∧
      ¬ ∃ r ∈ config.slotWhiteList, r.contains (RedisKeyFilter.keySlot key) = true) ∨
    ∃ r ∈ config.slotBlackList, r.contains (RedisKeyFilter.keySlot key) = true

/-- A command is dropped for its database, its name or its key. -/
def FilterConfig.Drops (config : FilterConfig) (cmd : Text) (key : Option Bytes)
    (db : UInt32) : Prop :=
  db ∈ config.dbBlackList ∨ cmd ∈ config.cmdBlackList ∨ cmd ∈ noRouteCmds ∨
    ∃ k, key = some k ∧ config.DropsKey k

/-! ## The structures built from a configuration -/

theorem mem_foldl_insert {dbs acc : List UInt32} {db : UInt32} :
    db ∈ dbs.foldl (fun dbs db => dbs.insert db) acc ↔ db ∈ dbs ∨ db ∈ acc := by
  induction dbs generalizing acc with
  | nil => simp
  | cons d dbs ih =>
      rw [List.foldl_cons, ih, List.mem_insert_iff, List.mem_cons]
      tauto

/-- A text is told from another by its bytes. -/
theorem asBytes_injective : Function.Injective asBytes := by
  intro s t h
  have hs := fromUtf8_asBytes s
  rw [h, fromUtf8_asBytes] at hs
  exact (Option.some.inj hs).symm

/-- The trie of a list of texts. -/
def trieOf (texts : List Text) : Trie :=
  texts.foldl (fun trie t => trie.insert (asBytes t)) .new

theorem trieOf_eq (texts : List Text) :
    trieOf texts = Trie.new.insertAll (texts.map asBytes) := by
  rw [trieOf, Trie.insertAll, List.foldl_map]

theorem exactMatch_trieOf (texts : List Text) (t : Text) :
    (trieOf texts).exactMatch (asBytes t) = true ↔ t ∈ texts := by
  rw [trieOf_eq, Trie.exactMatch_new_insertAll, List.mem_map_of_injective asBytes_injective]

theorem matchesPrefix_trieOf (texts : List Text) (key : Bytes) :
    (trieOf texts).matchesPrefix key = true ↔ ∃ p ∈ texts, asBytes p <+: key := by
  rw [trieOf_eq, Trie.matchesPrefix_new_insertAll]
  simp

theorem isEmpty_trieOf (texts : List Text) :
    (trieOf texts).isEmpty = true ↔ texts = [] := by
  rw [trieOf_eq, Trie.isEmpty_new_insertAll, List.map_eq_nil_iff]

/-- A slot list is empty where its configuration is, and holds the slots of its
ranges. -/
theorem slotList_new {slotRanges : List SlotRange}
    (h : ∀ r ∈ slotRanges, r.endSlot < 65535) :
    ∃ l, RedisKeyFilter.slotList .new slotRanges = some l ∧
      (l.isEmpty = true ↔ slotRanges = []) ∧
      ∀ slot, l.contains slot = true ↔ ∃ r ∈ slotRanges, r.contains slot = true := by
  by_cases hempty : slotRanges = []
  · subst hempty
    exact ⟨.new, rfl, by simp [RangeList.isEmpty, RangeList.new], fun slot => by
      simp [RangeList.contains, RangeList.new, containsSlot]⟩
  · have hne : ¬ slotRanges.isEmpty = true := by simpa using hempty
    rw [RedisKeyFilter.slotList, if_neg hne]
    exact RangeList.fromConfig_spec h

theorem filterKey_iff {config : FilterConfig} {filter : RedisKeyFilter}
    (hwhite : filter.keyPrefixWhiteList = trieOf config.keyPrefixWhiteList)
    (hblack : filter.keyPrefixBlackList = trieOf config.keyPrefixBlackList)
    (hslotWhite : filter.slotWhiteList.isEmpty = true ↔ config.slotWhiteList = [])
    (hinWhite : ∀ slot, filter.slotWhiteList.contains slot = true ↔
      ∃ r ∈ config.slotWhiteList, r.contains slot = true)
    (hslotBlack : filter.slotBlackList.isEmpty = true ↔ config.slotBlackList = [])
    (hinBlack : ∀ slot, filter.slotBlackList.contains slot = true ↔
      ∃ r ∈ config.slotBlackList, r.contains slot = true) (key : Bytes) :
    filter.filterKey key = true ↔ config.DropsKey key := by
  -- An empty black list holds no slot, so asking whether it is empty changes nothing.
  have hempty : filter.slotBlackList.contains (RedisKeyFilter.keySlot key) = true →
      ¬ filter.slotBlackList.isEmpty = true := by
    intro hcontains hnil
    obtain ⟨r, hr, -⟩ := (hinBlack _).1 hcontains
    rw [hslotBlack.1 hnil] at hr
    cases hr
  have hw := matchesPrefix_trieOf config.keyPrefixWhiteList key
  have hwe := isEmpty_trieOf config.keyPrefixWhiteList
  have hb := matchesPrefix_trieOf config.keyPrefixBlackList key
  rw [← hwhite] at hw hwe
  rw [← hblack] at hb
  rw [FilterConfig.DropsKey, ← hw, ← hb, ← hinWhite, ← hinBlack, Ne, ← hwe, Ne, ← hslotWhite]
  rw [RedisKeyFilter.filterKey]
  split
  · next h => simp only [Bool.and_eq_true, Bool.not_eq_true'] at h; simp [h]
  · next h =>
      simp only [Bool.and_eq_true, Bool.not_eq_true', not_and] at h
      split
      · next h' => simp [h']
      · next h' =>
          split
          · next h'' => simp only [Bool.and_eq_true, Bool.not_eq_true'] at h''; simp [h'']
          · next h'' =>
              simp only [Bool.and_eq_true, Bool.not_eq_true', not_and] at h''
              split
              · next h3 => simp only [Bool.and_eq_true, Bool.not_eq_true'] at h3; simp [h3]
              · next h3 =>
                  simp only [Bool.and_eq_true, Bool.not_eq_true', not_and] at h3
                  grind

/-- The four questions of `filter_cmd_key`, any of which drops the command. -/
theorem filterCmdKey_iff (filter : RedisKeyFilter) (cmd : Text) (key : Option Bytes)
    (db : UInt32) :
    filter.filterCmdKey cmd key db = true ↔
      filter.dbBlackList.contains db = true ∨
        filter.cmdBlackList.exactMatch (asBytes cmd) = true ∨
        noRouteCmds.contains cmd = true ∨
        ∃ k, key = some k ∧ filter.filterKey k = true := by
  cases hdb : filter.dbBlackList.contains db <;>
    cases hcmd : filter.cmdBlackList.exactMatch (asBytes cmd) <;>
      cases hroute : noRouteCmds.contains cmd <;>
        cases key <;>
          simp only [RedisKeyFilter.filterCmdKey, hdb, hcmd, hroute] <;> simp

/-- The filter built from a configuration drops a command exactly where the
configuration says so. -/
theorem RedisKeyFilter.filterCmdKey_fromConfig (config : FilterConfig)
    (hends : ∀ r ∈ config.slotWhiteList ++ config.slotBlackList, r.endSlot < 65535)
    (cmd : Text) (key : Option Bytes) (db : UInt32) :
    ∃ filter, RedisKeyFilter.fromConfig config = some filter ∧
      (filter.filterCmdKey cmd key db = true ↔ config.Drops cmd key db) := by
  obtain ⟨white, hwhite, hwhiteEmpty, hinWhite⟩ := @slotList_new config.slotWhiteList
    fun r hr => hends r (List.mem_append_left _ hr)
  obtain ⟨black, hblack, hblackEmpty, hinBlack⟩ := @slotList_new config.slotBlackList
    fun r hr => hends r (List.mem_append_right _ hr)
  let filter : RedisKeyFilter :=
    { dbBlackList := config.dbBlackList.foldl (fun dbs db => dbs.insert db) []
      cmdBlackList := trieOf config.cmdBlackList
      keyPrefixWhiteList := trieOf config.keyPrefixWhiteList
      keyPrefixBlackList := trieOf config.keyPrefixBlackList
      slotWhiteList := white, slotBlackList := black }
  have hfilter : fromConfig config = some filter := by
    have hwhite' : slotList new.slotWhiteList config.slotWhiteList = some white := hwhite
    have hblack' : slotList new.slotBlackList config.slotBlackList = some black := hblack
    simp only [fromConfig, hwhite', hblack']
    rfl
  have hdb : filter.dbBlackList.contains db = true ↔ db ∈ config.dbBlackList := by
    rw [List.contains_iff_mem, mem_foldl_insert]
    simp
  have hcmd : filter.cmdBlackList.exactMatch (asBytes cmd) = true ↔
      cmd ∈ config.cmdBlackList := exactMatch_trieOf config.cmdBlackList cmd
  have hroute : noRouteCmds.contains cmd = true ↔ cmd ∈ noRouteCmds := List.contains_iff_mem
  have hkey : ∀ k, filter.filterKey k = true ↔ config.DropsKey k :=
    filterKey_iff rfl rfl hwhiteEmpty hinWhite hblackEmpty hinBlack
  refine ⟨filter, hfilter, ?_⟩
  rw [filterCmdKey_iff, hdb, hcmd, hroute, FilterConfig.Drops]
  simp only [hkey]

/-- Overlapping, touching and empty ranges in no order, a prefix within another,
and the empty prefix. -/
theorem RedisKeyFilter.filterCmdKey_fromConfig_mixed :
    ∃ filter, RedisKeyFilter.fromConfig
        { keyPrefixWhiteList := ["user:".toList, "user:x".toList],
          slotBlackList := [⟨500, 600⟩, ⟨9, 2⟩, ⟨0, 100⟩, ⟨101, 16000⟩] } = some filter ∧
      (filter.filterCmdKey "SET".toList (some (asBytes "user:1".toList)) 0 = true ↔
        FilterConfig.Drops
          { keyPrefixWhiteList := ["user:".toList, "user:x".toList],
            slotBlackList := [⟨500, 600⟩, ⟨9, 2⟩, ⟨0, 100⟩, ⟨101, 16000⟩] }
          "SET".toList (some (asBytes "user:1".toList)) 0) :=
  RedisKeyFilter.filterCmdKey_fromConfig _ (by decide) _ _ _

end RedisHaTool.Filter
