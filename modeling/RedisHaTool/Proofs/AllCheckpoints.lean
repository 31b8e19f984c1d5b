import RedisHaTool.Proofs.Checkpoints

/-!
# All checkpoints at once

`get_all_checkpoints` takes the ids from the one hash and reads the checkpoint of
each from the other. After any completed calls every id of the first has its
fields in the second, so none of the reads fails, and what it answers is what
`get_checkpoint` would for every id there may be, in whatever order the map
yields its keys.
-/

namespace RedisHaTool.Checkpoint

open Lib Store

/-! ## The loop -/

/-- The map of what is found for some keys. -/
def foundFor (found : Text → Option CheckpointInfo) (keys : List Text) : TextMap CheckpointInfo :=
  keys.foldl (fun result id =>
    (found id).elim result fun checkpoint => result.insert id checkpoint) ∅

theorem foundFor_concat (found : Text → Option CheckpointInfo) (keys : List Text) (id : Text) :
    foundFor found (keys ++ [id]) = (found id).elim (foundFor found keys)
      fun checkpoint => (foundFor found keys).insert id checkpoint := List.foldl_concat ..

theorem lookup_foundFor (found : Text → Option CheckpointInfo) (keys : List Text) (id : Text) :
    (foundFor found keys).lookup id = if id ∈ keys then found id else none := by
  induction keys using List.reverseRecOn with
  | nil => rfl
  | append_singleton keys key ih =>
      rw [foundFor_concat]
      by_cases hid : id = key
      · subst hid
        rw [if_pos (List.mem_append_right _ (List.mem_singleton_self _))]
        cases hfound : found id with
        | none =>
            rw [Option.elim_none, ih, hfound, ite_self]
        | some checkpoint => rw [Option.elim_some, AList.lookup_insert]
      · have hmem : id ∈ keys ++ [key] ↔ id ∈ keys := by simp [hid]
        simp only [hmem, ← ih]
        cases found key with
        | none => rfl
        | some checkpoint => rw [Option.elim_some, AList.lookup_insert_ne hid]

/-- If no read fails, the loop answers what is found. -/
theorem getAllCheckpoints_eq {h : Hashes} {found : Text → Option CheckpointInfo}
    {keys : List Text} (hfound : ∀ id ∈ keys, getCheckpoint h id = .ok (found id)) :
    getAllCheckpoints h keys = .ok (foundFor found keys) := by
  induction keys using List.reverseRecOn with
  | nil => rfl
  | append_singleton keys key ih =>
      have hrest := ih fun id hid => hfound id (List.mem_append_left _ hid)
      have hkey := hfound key (List.mem_append_right _ (List.mem_singleton_self _))
      rw [getAllCheckpoints] at hrest ⊢
      rw [List.foldlM_append, hrest, foundFor_concat]
      simp only [List.foldlM_cons, List.foldlM_nil, hkey]
      rfl

/-! ## The ids -/

/-- A call maps no id but its own. -/
theorem Call.hget_mapping_ne {call : Call} {h h' : Hashes} {id : Text}
    (hrun : call.run h = some h') (hne : call.id ≠ id) :
    hget h' checkpointKeyHashKey id = hget h checkpointKeyHashKey id := by
  cases call with
  | saveCheckpoint c =>
      obtain rfl := Option.some.inj hrun
      refine hget_execAll (fun value hmem => ?_) h
      simp only [Checkpoint.saveCheckpoint, List.mem_cons, List.not_mem_nil, or_false,
        Command.hset.injEq] at hmem
      rcases hmem with ⟨hkey, -⟩ | ⟨hkey, -⟩ | ⟨hkey, -⟩ | ⟨hkey, -⟩ | ⟨-, hid, -⟩
      · exact checkpointKeyHashKey_ne hkey
      · exact checkpointKeyHashKey_ne hkey
      · exact checkpointKeyHashKey_ne hkey
      · exact checkpointKeyHashKey_ne hkey
      · exact hne hid.symm
  | savePsyncInfo id' offset =>
      obtain rfl := Option.some.inj hrun
      refine hget_execAll (fun value hmem => ?_) h
      simp only [Checkpoint.savePsyncInfo, List.mem_cons, List.not_mem_nil, or_false,
        Command.hset.injEq] at hmem
      rcases hmem with ⟨hkey, -⟩ | ⟨hkey, -⟩
      · exact checkpointKeyHashKey_ne hkey
      · exact checkpointKeyHashKey_ne hkey
  | updateOffset id' newOffset now =>
      obtain ⟨cmds, hcmds, rfl⟩ := Option.map_eq_some_iff.1 hrun
      rw [Checkpoint.updateOffset] at hcmds
      split at hcmds
      · obtain rfl := Option.some.inj hcmds
        refine hget_execAll (fun value hmem => ?_) h
        simp only [List.mem_cons, List.not_mem_nil, or_false, Command.hset.injEq] at hmem
        rcases hmem with ⟨hkey, -⟩ | ⟨hkey, -⟩ | ⟨hkey, -⟩
        · exact checkpointKeyHashKey_ne hkey
        · exact checkpointKeyHashKey_ne hkey
        · exact checkpointKeyHashKey_ne hkey
      · cases hcmds
  | deleteCheckpoint id' =>
      obtain rfl := Option.some.inj hrun
      rw [Checkpoint.deleteCheckpoint, hget_hdel, if_neg, hget_hdel, if_neg]
      · rintro ⟨hkey, -⟩
        exact checkpointKeyHashKey_ne hkey
      · rintro ⟨-, hmem⟩
        exact hne (List.mem_singleton.1 hmem).symm

/-- Every id that is mapped has the length of one. -/
theorem Calls.length_of_mapped {h h' : Hashes} {calls : List Call}
    (hhash : h.lookup checkpointKeyHashKey = none) (hcalls : Calls h calls h') {id : Text}
    (hid : id ∈ hgetall h' checkpointKeyHashKey) : id.length = replIdLength := by
  have hinv : ∀ id, (hget h' checkpointKeyHashKey id).isSome = true → id.length = replIdLength := by
    refine hcalls.invariant (I := fun h => ∀ id, (hget h checkpointKeyHashKey id).isSome = true →
      id.length = replIdLength) (fun h call h' hs hvalid hrun id hsome => ?_) fun id hsome => ?_
    · by_cases hne : call.id = id
      · exact hne ▸ hvalid.1
      · rw [Call.hget_mapping_ne hrun hne] at hsome
        exact hs id hsome
    · rw [hget, hhash] at hsome
      cases hsome
  refine hinv id ?_
  rw [hget_eq_lookup_hgetall]
  exact AList.lookup_isSome.2 hid

/-! ## After some calls -/

section Calls

variable {h h' : Hashes} {calls : List Call} (hkey : h.lookup checkpointKey = none)
  (hhash : h.lookup checkpointKeyHashKey = none) (hcalls : Calls h calls h')
include hkey hhash hcalls

/-- The ids that are mapped are those that are saved. -/
theorem saved_iff_mapped (id : Text) :
    Saved id calls ↔ id ∈ hgetall h' checkpointKeyHashKey := by
  have hmapped : ∀ hlen : id.length = replIdLength,
      Saved id calls ↔ id ∈ hgetall h' checkpointKeyHashKey := by
    intro hlen
    have hold : Holds h' id (recordOf id calls) := hcalls.holds hlen (.init hkey hhash id)
    rw [← (recordOf_spec id calls).1, ← hold.mapped, hexists, hget_eq_lookup_hgetall,
      AList.lookup_isSome]
  constructor
  · intro hsaved
    refine (hmapped ?_).1 hsaved
    obtain ⟨pre, c, post, rfl, rfl, -⟩ := hsaved
    exact (hcalls.forall_mem (.saveCheckpoint c)
      (List.mem_append_right _ List.mem_cons_self)).1
  · intro hid
    exact (hmapped (hcalls.length_of_mapped hhash hid)).2 hid

/-- And each is read as it was called on last. -/
theorem getCheckpoint_of_mapped {id : Text} (hid : id ∈ hgetall h' checkpointKeyHashKey) :
    ∃ info, getCheckpoint h' id = .ok (some info) ∧ info.masterReplid = id ∧
      lastOffset id calls = some info.offset ∧ lastVersion id calls = info.version := by
  have hlen := hcalls.length_of_mapped hhash hid
  have hold : Holds h' id (recordOf id calls) := hcalls.holds hlen (.init hkey hhash id)
  have hrec := (recordOf_spec id calls).1.2 ((saved_iff_mapped hkey hhash hcalls id).2 hid)
  obtain ⟨hoffset, hversion⟩ := (recordOf_spec id calls).2 hrec
  obtain ⟨offset, hsome⟩ := Option.isSome_iff_exists.1 (hold.full hrec).1
  refine ⟨(recordOf id calls).info id, ?_, rfl, ?_, ?_⟩
  · rw [hold.getCheckpoint, if_pos hrec]
  · rw [Record.info, ← hoffset, hsome]
    rfl
  · rw [Record.info, hversion]
    rfl

end Calls

/-- After any completed calls on ids of forty characters, from hashes that were not
there, `get_all_checkpoints` answers, without error, the checkpoints of the ids that
are saved and no other, each with the last offset and version that was called on
it. -/
theorem getAllCheckpoints_of_calls {h h' : Hashes} {calls : List Call}
    (hkey : h.lookup checkpointKey = none) (hhash : h.lookup checkpointKeyHashKey = none)
    (hcalls : Calls h calls h') {keys : List Text}
    (hkeys : keys.Perm (hgetall h' checkpointKeyHashKey).keys) :
    ∃ all, getAllCheckpoints h' keys = .ok all ∧ (∀ id, id ∈ all ↔ Saved id calls) ∧
      ∀ id info, all.lookup id = some info → info.masterReplid = id ∧
        lastOffset id calls = some info.offset ∧ lastVersion id calls = info.version ∧
        getCheckpoint h' id = .ok (some info) := by
  have hmem : ∀ id, id ∈ keys ↔ id ∈ hgetall h' checkpointKeyHashKey :=
    fun id => hkeys.mem_iff.trans AList.mem_keys.symm
  have hread := fun id hid => getCheckpoint_of_mapped hkey hhash hcalls ((hmem id).1 hid)
  have hfound : ∀ id ∈ keys, getCheckpoint h' id
      = .ok ((getCheckpoint h' id).toOption.getD none) := by
    intro id hid
    obtain ⟨info, hinfo, -⟩ := hread id hid
    rw [hinfo]
    rfl
  refine ⟨_, getAllCheckpoints_eq hfound, fun id => ?_, fun id info hinfo => ?_⟩
  · rw [saved_iff_mapped hkey hhash hcalls, ← hmem, ← AList.lookup_isSome, lookup_foundFor]
    by_cases hid : id ∈ keys
    · obtain ⟨info, hinfo, -⟩ := hread id hid
      rw [if_pos hid, hinfo]
      exact iff_of_true rfl hid
    · rw [if_neg hid]
      exact iff_of_false (by simp) hid
  · rw [lookup_foundFor] at hinfo
    by_cases hid : id ∈ keys
    · obtain ⟨info', hinfo', hreplid, hoffset, hversion⟩ := hread id hid
      rw [if_pos hid, hinfo'] at hinfo
      obtain rfl : info' = info := Option.some.inj hinfo
      exact ⟨hreplid, hoffset, hversion, hinfo'⟩
    · rw [if_neg hid] at hinfo
      cases hinfo

theorem mapped_someCalls :
    [List.replicate 40 'a'] = (hgetall ((exec Call.run (fun _ call => decide call.Valid) ∅
      someCalls).get someCalls_complete) checkpointKeyHashKey).keys := by decide +kernel

theorem getAllCheckpoints_of_calls_sample :
    ∃ all, getAllCheckpoints ((exec Call.run (fun _ call => decide call.Valid) ∅ someCalls).get
        someCalls_complete) [List.replicate 40 'a'] = .ok all ∧
      ∀ id, id ∈ all ↔ Saved id someCalls := by
  obtain ⟨all, hall, hsaved, -⟩ :=
    getAllCheckpoints_of_calls rfl rfl someCalls_calls (List.Perm.of_eq mapped_someCalls)
  exact ⟨all, hall, hsaved⟩

end RedisHaTool.Checkpoint
