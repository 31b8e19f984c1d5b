import RedisHaTool.Proofs.Checkpoints

/-!
# What `save_psync_info` leaves behind

`save_psync_info` writes two fields of the one hash and nothing of the other,
which says what ids there are. So `get_psync_info` answers with what was saved
only for an id that is in there already, and `delete_checkpoint`, which deletes
what `save_checkpoint` writes, leaves the field whose name is the id itself.
-/

namespace RedisHaTool.Checkpoint

open Lib Store

theorem hexists_savePsyncInfo (h : Hashes) (id : Text) (offset : Int) :
    hexists (execAll (savePsyncInfo id offset) h) checkpointKeyHashKey id =
      hexists h checkpointKeyHashKey id := by
  simp only [execAll, savePsyncInfo, List.foldl_cons, List.foldl_nil, hexists]
  rw [hget_exec_key_ne _ _ _ _ checkpointKeyHashKey_ne,
    hget_exec_key_ne _ _ _ _ checkpointKeyHashKey_ne]

/-- What was saved is read where the id is known, and only there. -/
theorem getPsyncInfo_savePsyncInfo_iff (h : Hashes) (id : Text) {offset : Int}
    (hoffset : IsI64 offset) :
    getPsyncInfo (execAll (savePsyncInfo id offset) h) id = .ok (some offset) ↔
      hexists h checkpointKeyHashKey id = true := by
  have hfield : hget (execAll (savePsyncInfo id offset) h) checkpointKey (offsetField id) =
      some (intToString offset) := by
    simp only [execAll, savePsyncInfo, List.foldl_cons, List.foldl_nil]
    exact hget_exec_self _ _ _ _
  rw [getPsyncInfo, hexists_savePsyncInfo, hfield]
  cases hexists h checkpointKeyHashKey id with
  | false => simp
  | true => simp only [parseI64_intToString hoffset, if_true]

/-- An id that was saved as a checkpoint before. -/
theorem getPsyncInfo_savePsyncInfo_known :
    IsI64 7 ∧ (getPsyncInfo (execAll (savePsyncInfo ['r'] 7)
        (execAll (saveCheckpoint (.new ['r'] 5 0)) ∅)) ['r'] = .ok (some 7) ↔
      hexists (execAll (saveCheckpoint (.new ['r'] 5 0)) ∅) checkpointKeyHashKey ['r'] = true) :=
  ⟨by decide, getPsyncInfo_savePsyncInfo_iff _ _ (by decide)⟩

/-- An offset saved on a new target is not found again. -/
theorem getPsyncInfo_savePsyncInfo_lost :
    getPsyncInfo (execAll (savePsyncInfo ['r'] 7) ∅) ['r'] = .ok none := by
  decide +kernel

/-! ## What a deletion takes back -/

/-- A call, and how many of its commands get through. Where these are not all,
the call has failed on the way. -/
structure Attempt where
  call : Call
  sent : Nat

/-- The `HSET` commands of a call. -/
def Call.sends (h : Hashes) : Call → List Command
  | .saveCheckpoint c => Checkpoint.saveCheckpoint c
  | .savePsyncInfo masterReplid offset => Checkpoint.savePsyncInfo masterReplid offset
  | .updateOffset masterReplid newOffset now =>
      (Checkpoint.updateOffset h masterReplid newOffset now).getD []
  | .deleteCheckpoint _ => []

def Attempt.run (h : Hashes) (a : Attempt) : Hashes := execAll ((a.call.sends h).take a.sent) h

/-- A call that writes for the id. -/
def Call.Saves (id : Text) (call : Call) : Prop := call.id = id ∧ call ≠ .deleteCheckpoint id

/-- The fields that `delete_checkpoint` deletes. -/
def Deleted (id key field : Text) : Prop :=
  key = checkpointKey ∧ field ∈ [id ++ "_offset".toList, id ++ "_runid".toList,
    id ++ "_version".toList, id ++ "_mtime".toList] ∨
  key = checkpointKeyHashKey ∧ field = id

instance (id key field : Text) : Decidable (Deleted id key field) :=
  inferInstanceAs (Decidable (_ ∨ _))

/-- There is no entry for the id, under any name the calls use. -/
def NoEntry (h : Hashes) (id : Text) : Prop :=
  hget h checkpointKey id = none ∧ ∀ key field, Deleted id key field → hget h key field = none

theorem hget_deleteCheckpoint (h : Hashes) (id key field : Text) :
    hget (deleteCheckpoint h id) key field =
      if Deleted id key field then none else hget h key field := by
  rw [deleteCheckpoint, hget_hdel, hget_hdel]
  by_cases hhash : key = checkpointKeyHashKey ∧ field = id
  · have hdeleted : Deleted id key field := Or.inr hhash
    rw [if_pos ⟨hhash.1, List.mem_singleton.2 hhash.2⟩, if_pos hdeleted]
  · rw [if_neg fun hin => hhash ⟨hin.1, List.mem_singleton.1 hin.2⟩]
    refine if_congr ?_ rfl rfl
    rw [Deleted, or_iff_left hhash]

/-- The field that is the id itself is not among them. -/
theorem not_deleted_id (id : Text) : ¬ Deleted id checkpointKey id := by
  rintro (⟨-, hfield⟩ | ⟨hkey, -⟩)
  · have hne (s : Text) (hs : s ≠ []) : id ≠ id ++ s := (field_ne_id id hs).symm
    simp only [List.mem_cons, List.not_mem_nil, or_false] at hfield
    rcases hfield with h | h | h | h <;> exact hne _ (by decide) h
  · exact checkpointKeyHashKey_ne hkey.symm

theorem deleted_suffix {id field : Text}
    (h : field = id ++ "_offset".toList ∨ field = id ++ "_runid".toList ∨
      field = id ++ "_version".toList ∨ field = id ++ "_mtime".toList) :
    Deleted id checkpointKey field := by
  refine Or.inl ⟨rfl, ?_⟩
  simp only [List.mem_cons, List.not_mem_nil, or_false]
  exact h

/-- What a call writes is deleted, but for one field of `save_psync_info`. -/
theorem deleted_of_sends {h : Hashes} {call : Call} {id key field value : Text}
    (hsaves : call.Saves id) (hmem : .hset key field value ∈ call.sends h) :
    Deleted id key field ∨
      (key = checkpointKey ∧ field = id) ∧ ∃ offset, call = .savePsyncInfo id offset := by
  obtain ⟨rfl, hdelete⟩ := hsaves
  cases call with
  | saveCheckpoint c =>
      left
      simp only [Call.sends, saveCheckpoint, offsetField, List.mem_cons, List.not_mem_nil,
        or_false, Command.hset.injEq] at hmem
      rcases hmem with ⟨rfl, rfl, -⟩ | ⟨rfl, rfl, -⟩ | ⟨rfl, rfl, -⟩ | ⟨rfl, rfl, -⟩ | ⟨rfl, rfl, -⟩
      · exact deleted_suffix (Or.inl rfl)
      · exact deleted_suffix (Or.inr (Or.inl rfl))
      · exact deleted_suffix (Or.inr (Or.inr (Or.inl rfl)))
      · exact deleted_suffix (Or.inr (Or.inr (Or.inr rfl)))
      · exact Or.inr ⟨rfl, rfl⟩
  | savePsyncInfo id offset =>
      simp only [Call.sends, savePsyncInfo, offsetField, List.mem_cons, List.not_mem_nil,
        or_false, Command.hset.injEq] at hmem
      rcases hmem with ⟨rfl, rfl, -⟩ | ⟨rfl, rfl, -⟩
      · exact Or.inr ⟨⟨rfl, rfl⟩, offset, rfl⟩
      · exact Or.inl (deleted_suffix (Or.inl rfl))
  | updateOffset id newOffset now =>
      left
      simp only [Call.sends, updateOffset] at hmem
      split at hmem
      · simp only [Option.getD_some, List.mem_cons, List.not_mem_nil, or_false,
          Command.hset.injEq] at hmem
        rcases hmem with ⟨rfl, rfl, -⟩ | ⟨rfl, rfl, -⟩ | ⟨rfl, rfl, -⟩
        · exact deleted_suffix (Or.inl rfl)
        · exact deleted_suffix (Or.inr (Or.inr (Or.inl rfl)))
        · exact deleted_suffix (Or.inr (Or.inr (Or.inr rfl)))
      · cases hmem
  | deleteCheckpoint id => exact absurd rfl hdelete

/-- A field that is not deleted is not written either, if it is not the id. -/
theorem hget_attempt {h : Hashes} {a : Attempt} {id key field : Text}
    (hsaves : a.call.Saves id) (hdeleted : ¬ Deleted id key field)
    (hfield : ¬ ((key = checkpointKey ∧ field = id) ∧
      ∃ offset, a.call = .savePsyncInfo id offset)) :
    hget (a.run h) key field = hget h key field := by
  refine hget_execAll (fun value hmem => ?_) h
  exact (deleted_of_sends hsaves (List.mem_of_mem_take hmem)).elim hdeleted hfield

/-- The field that is the id is written by the first command of
`save_psync_info`. -/
theorem hget_attempt_id {h : Hashes} {a : Attempt} {id : Text} (hsaves : a.call.Saves id) :
    hget (a.run h) checkpointKey id = none ↔
      (∀ offset, a.call = .savePsyncInfo id offset → a.sent = 0) ∧
        hget h checkpointKey id = none := by
  by_cases hpsync : ∃ offset, a.call = .savePsyncInfo id offset
  · obtain ⟨offset, hcall⟩ := hpsync
    have hrun : a.run h = execAll ((savePsyncInfo id offset).take a.sent) h := by
      rw [Attempt.run, hcall]
      rfl
    rw [hrun]
    cases hsent : a.sent with
    | zero => simp [execAll]
    | succ n =>
        have hwritten : hget (execAll ((savePsyncInfo id offset).take (n + 1)) h) checkpointKey id =
            some (intToString offset) := by
          cases n with
          | zero => exact hget_exec_self _ _ _ _
          | succ n =>
              have hall : (savePsyncInfo id offset).take (n + 1 + 1) = savePsyncInfo id offset :=
                List.take_of_length_le (Nat.le_add_left 2 n)
              rw [hall]
              simp only [execAll, savePsyncInfo, offsetField, List.foldl_cons, List.foldl_nil]
              rw [hget_exec_field_ne _ _ (field_ne_id id (by decide)).symm, hget_exec_self]
        rw [hwritten]
        simp [hcall]
  · rw [hget_attempt hsaves (not_deleted_id id) fun hand => hpsync hand.2, and_iff_right]
    intro offset hcall
    exact absurd ⟨offset, hcall⟩ hpsync

theorem hget_attempts {h : Hashes} {attempts : List Attempt} {id key field : Text}
    (hsaves : ∀ a ∈ attempts, a.call.Saves id) (hdeleted : ¬ Deleted id key field)
    (hfield : ¬ (key = checkpointKey ∧ field = id)) :
    hget (attempts.foldl Attempt.run h) key field = hget h key field := by
  induction attempts generalizing h with
  | nil => rfl
  | cons a attempts ih =>
      rw [List.foldl_cons, ih fun b hb => hsaves b (List.mem_cons_of_mem a hb)]
      exact hget_attempt (hsaves a List.mem_cons_self) hdeleted fun hand => hfield hand.1

theorem hget_attempts_id {h : Hashes} {attempts : List Attempt} {id : Text}
    (hsaves : ∀ a ∈ attempts, a.call.Saves id) :
    hget (attempts.foldl Attempt.run h) checkpointKey id = none ↔
      (∀ a ∈ attempts, ∀ offset, a.call = .savePsyncInfo id offset → a.sent = 0) ∧
        hget h checkpointKey id = none := by
  induction attempts generalizing h with
  | nil => simp
  | cons a attempts ih =>
      rw [List.foldl_cons, ih fun b hb => hsaves b (List.mem_cons_of_mem a hb),
        hget_attempt_id (hsaves a List.mem_cons_self), List.forall_mem_cons, ← and_assoc,
        and_comm (a := ∀ b ∈ attempts, _)]

/-- Any calls on an id, failed ones among them, are undone by
`delete_checkpoint` exactly where no `save_psync_info` has written anything. -/
theorem deleteCheckpoint_restores_iff {h : Hashes} {id : Text} {attempts : List Attempt}
    (hno : NoEntry h id) (hsaves : ∀ a ∈ attempts, a.call.Saves id) :
    (∀ key field, hget (deleteCheckpoint (attempts.foldl Attempt.run h) id) key field =
        hget h key field) ↔
      ∀ a ∈ attempts, ∀ offset, a.call = .savePsyncInfo id offset → a.sent = 0 := by
  constructor
  · intro hrestored
    have hid := hrestored checkpointKey id
    rw [hget_deleteCheckpoint, if_neg (not_deleted_id id), hno.1] at hid
    exact ((hget_attempts_id hsaves).1 hid).1
  · intro hnone key field
    rw [hget_deleteCheckpoint]
    by_cases hdeleted : Deleted id key field
    · rw [if_pos hdeleted, hno.2 key field hdeleted]
    · rw [if_neg hdeleted]
      by_cases hfield : key = checkpointKey ∧ field = id
      · obtain ⟨rfl, rfl⟩ := hfield
        rw [hno.1, hget_attempts_id hsaves]
        exact ⟨hnone, hno.1⟩
      · exact hget_attempts hsaves hdeleted hfield

/-- A save, and an update that failed on the way. -/
def savedAndMoved : List Attempt :=
  [⟨.saveCheckpoint (.new ['r'] 5 0), 5⟩, ⟨.updateOffset ['r'] 6 0, 1⟩]

theorem saves_savedAndMoved : ∀ a ∈ savedAndMoved, a.call.Saves ['r'] := by
  intro a ha
  rcases List.mem_cons.1 ha with rfl | ha
  · exact ⟨rfl, Call.noConfusion⟩
  · obtain rfl := List.mem_singleton.1 ha
    exact ⟨rfl, Call.noConfusion⟩

theorem noEntry_empty (id : Text) : NoEntry ∅ id := ⟨rfl, fun _ _ _ => rfl⟩

theorem deleteCheckpoint_restores_savedAndMoved :
    (∀ key field, hget (deleteCheckpoint (savedAndMoved.foldl Attempt.run ∅) ['r']) key field =
        hget ∅ key field) ↔
      ∀ a ∈ savedAndMoved, ∀ offset, a.call = .savePsyncInfo ['r'] offset → a.sent = 0 :=
  deleteCheckpoint_restores_iff (noEntry_empty _) saves_savedAndMoved

/-- The offset that one `save_psync_info` has saved is still there after the
deletion. -/
theorem deleteCheckpoint_leaves_psyncInfo :
    hget ∅ checkpointKey ['r'] = none ∧
      hget (deleteCheckpoint ([⟨.savePsyncInfo ['r'] 7, 2⟩].foldl Attempt.run ∅) ['r'])
        checkpointKey ['r'] = some ['7'] := by
  decide +kernel

end RedisHaTool.Checkpoint
