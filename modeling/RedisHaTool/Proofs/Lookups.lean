import RedisHaTool.Proofs.Collecting

/-!
# What a data set answers

Files are added to a `DataSet` one call at a time, and each call leaves the list
of its run sorted by offset. What the list holds is what was added for that run,
and the order is what the lookups rest on: the segment that `find_aof` meets
first from the end is the one of greatest offset, as is the last of the list.
-/

namespace RedisHaTool.Store

open Lib

/-- A call of `add_rdb` or `add_aof`. -/
inductive AddCall where
  | rdb (runId : Text) (rdb : DataSetRdb)
  | aof (runId : Text) (aof : DataSetAof)

def AddCall.runId : AddCall → Text
  | .rdb runId _ => runId
  | .aof runId _ => runId

def DataSet.add (d : DataSet) : AddCall → DataSet
  | .rdb runId rdb => d.addRdb runId rdb
  | .aof runId aof => d.addAof runId aof

/-- A new data set after some calls. -/
def DataSet.ofAdds (adds : List AddCall) : DataSet := adds.foldl DataSet.add .new

/-- The RDB file a call adds for a run. -/
def AddCall.rdbOf (runId : Text) : AddCall → List DataSetRdb
  | .rdb id file => if runId = id then [file] else []
  | .aof _ _ => []

/-- The segment a call adds for a run. -/
def AddCall.aofOf (runId : Text) : AddCall → List DataSetAof
  | .rdb _ _ => []
  | .aof id file => if runId = id then [file] else []

/-- The range of an RDB file holds the offset. -/
def DataSetRdb.Covers (rdb : DataSetRdb) (offset : Int) : Prop :=
  rdb.offset ≤ offset ∧ offset < rdb.offset + rdb.size

/-- What the lookups of a data set answer after some calls. -/
structure DataSet.Answers (d : DataSet) (adds : List AddCall) : Prop where
  sorted : d.Sorted
  rdb_perm : ∀ runId, (listed d.rdbFiles runId).Perm (adds.flatMap (AddCall.rdbOf runId))
  aof_perm : ∀ runId, (listed d.aofSegments runId).Perm (adds.flatMap (AddCall.aofOf runId))
  findAof_some : ∀ runId offset aof, d.findAof runId offset = some aof →
    aof ∈ adds.flatMap (AddCall.aofOf runId) ∧ aof.offset ≤ offset ∧
      ∀ other ∈ adds.flatMap (AddCall.aofOf runId), other.offset ≤ offset →
        other.offset ≤ aof.offset
  findAof_none : ∀ runId offset, d.findAof runId offset = none ↔
    ¬ ∃ aof ∈ adds.flatMap (AddCall.aofOf runId), aof.offset ≤ offset
  findRdb_some : ∀ runId offset rdb, d.findRdb runId offset = some rdb →
    rdb ∈ adds.flatMap (AddCall.rdbOf runId) ∧ rdb.Covers offset
  findRdb_isSome : ∀ runId offset, (d.findRdb runId offset).isSome ↔
    ∃ rdb ∈ adds.flatMap (AddCall.rdbOf runId), rdb.Covers offset
  latestRdb_some : ∀ runId rdb, d.latestRdb runId = some rdb →
    rdb ∈ adds.flatMap (AddCall.rdbOf runId) ∧
      ∀ other ∈ adds.flatMap (AddCall.rdbOf runId), other.offset ≤ rdb.offset
  latestRdb_none : ∀ runId, d.latestRdb runId = none ↔ adds.flatMap (AddCall.rdbOf runId) = []
  latestAof_some : ∀ runId aof, d.latestAof runId = some aof →
    aof ∈ adds.flatMap (AddCall.aofOf runId) ∧
      ∀ other ∈ adds.flatMap (AddCall.aofOf runId), other.offset ≤ aof.offset
  latestAof_none : ∀ runId, d.latestAof runId = none ↔ adds.flatMap (AddCall.aofOf runId) = []
  mem_runIds : ∀ runId, runId ∈ d.runIds ↔ ∃ add ∈ adds, add.runId = runId
  runIds_nodup : d.runIds.Nodup
  runIds_sorted : d.runIds.Pairwise (· ≤ ·)

/-! ## What is listed after some calls -/

theorem ofAdds_concat (adds : List AddCall) (add : AddCall) :
    DataSet.ofAdds (adds ++ [add]) = (DataSet.ofAdds adds).add add := List.foldl_concat ..

theorem sorted_ofAdds (adds : List AddCall) : (DataSet.ofAdds adds).Sorted := by
  refine List.foldlRecOn adds _ sorted_new fun d h add _ => ?_
  cases add with
  | rdb runId rdb => exact h.addRdb runId rdb
  | aof runId aof => exact h.addAof runId aof

theorem listed_pushSorted_perm {α : Type} (offset : α → Int) (m : TextMap (List α))
    (runId other : Text) (x : α) :
    (listed (pushSorted offset m runId x) other).Perm
      (listed m other ++ if other = runId then [x] else []) := by
  by_cases h : other = runId
  · rw [h, listed_pushSorted_self, if_pos rfl]
    exact List.perm_insertionSort _ _
  · rw [listed_pushSorted_ne offset m h, if_neg h, List.append_nil]

theorem rdb_perm_ofAdds (runId : Text) (adds : List AddCall) :
    (listed (DataSet.ofAdds adds).rdbFiles runId).Perm (adds.flatMap (AddCall.rdbOf runId)) := by
  induction adds using List.reverseRecOn with
  | nil => exact List.Perm.nil
  | append_singleton adds add ih =>
      rw [ofAdds_concat, List.flatMap_append, List.flatMap_singleton]
      cases add with
      | rdb id rdb => exact (listed_pushSorted_perm _ _ _ _ _).trans (ih.append_right _)
      | aof id aof =>
          rw [AddCall.rdbOf, List.append_nil]
          exact ih

theorem aof_perm_ofAdds (runId : Text) (adds : List AddCall) :
    (listed (DataSet.ofAdds adds).aofSegments runId).Perm (adds.flatMap (AddCall.aofOf runId)) := by
  induction adds using List.reverseRecOn with
  | nil => exact List.Perm.nil
  | append_singleton adds add ih =>
      rw [ofAdds_concat, List.flatMap_append, List.flatMap_singleton]
      cases add with
      | rdb id rdb =>
          rw [AddCall.aofOf, List.append_nil]
          exact ih
      | aof id aof => exact (listed_pushSorted_perm _ _ _ _ _).trans (ih.append_right _)

theorem mem_runIds_add {d : DataSet} {add : AddCall} {runId : Text} :
    runId ∈ (d.add add).runIds ↔ runId = add.runId ∨ runId ∈ d.runIds := by
  rw [mem_runIds, mem_runIds]
  cases add with
  | rdb id rdb =>
      show runId ∈ d.rdbFiles.insert id _ ∨ runId ∈ d.aofSegments ↔ runId = id ∨ _
      rw [AList.mem_insert, or_assoc]
      rfl
  | aof id aof =>
      show runId ∈ d.rdbFiles ∨ runId ∈ d.aofSegments.insert id _ ↔ runId = id ∨ _
      rw [AList.mem_insert, or_left_comm]
      rfl

theorem mem_runIds_ofAdds (runId : Text) (adds : List AddCall) :
    runId ∈ (DataSet.ofAdds adds).runIds ↔ ∃ add ∈ adds, add.runId = runId := by
  induction adds using List.reverseRecOn with
  | nil => simp [DataSet.ofAdds, DataSet.runIds, DataSet.new]
  | append_singleton adds add ih =>
      rw [ofAdds_concat, mem_runIds_add, ih]
      constructor
      · rintro (rfl | ⟨other, hother, hid⟩)
        · exact ⟨add, List.mem_append_right _ (List.mem_singleton_self _), rfl⟩
        · exact ⟨other, List.mem_append_left _ hother, hid⟩
      · rintro ⟨other, hother, hid⟩
        rcases List.mem_append.1 hother with hother | hother
        · exact Or.inr ⟨other, hother, hid⟩
        · rw [List.mem_singleton.1 hother] at hid
          exact Or.inl hid.symm

theorem sorted_runIds (d : DataSet) : d.runIds.Pairwise (· ≤ ·) :=
  (List.pairwise_insertionSort _ _).sublist (List.dedup_sublist _)

/-! ## The lookups -/

/-- The first from the end of a sorted list that is not above a bound is the
greatest that is not. -/
theorem le_of_find?_reverse {α : Type} {offset : α → Int} {l : List α} {bound : Int} {x y : α}
    (hsorted : l.Pairwise fun a b => offset a ≤ offset b)
    (hx : l.reverse.find? (fun a => offset a ≤ bound) = some x) (hy : y ∈ l)
    (hbound : offset y ≤ bound) : offset y ≤ offset x := by
  obtain ⟨-, before, after, hl, hbefore⟩ := List.find?_eq_some_iff_append.1 hx
  have hrev := List.pairwise_reverse.2 hsorted
  rw [hl] at hrev
  rw [← List.mem_reverse, hl] at hy
  rcases List.mem_append.1 hy with hy | hy
  · have habove := hbefore y hy
    simp [hbound] at habove
  · rcases List.mem_cons.1 hy with rfl | hy
    · exact Int.le_refl _
    · exact (List.pairwise_cons.1 (List.pairwise_append.1 hrev).2.1).1 y hy

/-- A data set answers from what was added. -/
theorem ofAdds_answers (adds : List AddCall) : (DataSet.ofAdds adds).Answers adds where
  sorted := sorted_ofAdds adds
  rdb_perm := fun runId => rdb_perm_ofAdds runId adds
  aof_perm := fun runId => aof_perm_ofAdds runId adds
  findAof_some := by
    intro runId offset aof h
    have hperm := aof_perm_ofAdds runId adds
    obtain ⟨hmem, hle⟩ := findAof_eq_some h
    refine ⟨hperm.mem_iff.1 hmem, hle, fun other hother hbound => ?_⟩
    exact le_of_find?_reverse ((sorted_ofAdds adds).aof runId) h (hperm.mem_iff.2 hother) hbound
  findAof_none := by
    intro runId offset
    rw [DataSet.findAof, List.find?_eq_none]
    simp only [List.mem_reverse, (aof_perm_ofAdds runId adds).mem_iff, decide_eq_true_eq,
      not_exists, not_and]
  findRdb_some := by
    intro runId offset rdb h
    obtain ⟨hmem, hcovers⟩ := findRdb_eq_some h
    exact ⟨(rdb_perm_ofAdds runId adds).mem_iff.1 hmem, hcovers⟩
  findRdb_isSome := by
    intro runId offset
    rw [DataSet.findRdb, List.find?_isSome]
    simp only [(rdb_perm_ofAdds runId adds).mem_iff, decide_eq_true_eq]
    rfl
  latestRdb_some := by
    intro runId rdb h
    have hperm := rdb_perm_ofAdds runId adds
    refine ⟨hperm.mem_iff.1 (List.mem_of_getLast? h), fun other hother => ?_⟩
    exact le_of_getLast? ((sorted_ofAdds adds).rdb runId) h (hperm.mem_iff.2 hother)
  latestRdb_none := by
    intro runId
    rw [DataSet.latestRdb, List.getLast?_eq_none_iff, ← List.length_eq_zero_iff,
      (rdb_perm_ofAdds runId adds).length_eq, List.length_eq_zero_iff]
  latestAof_some := by
    intro runId aof h
    have hperm := aof_perm_ofAdds runId adds
    refine ⟨hperm.mem_iff.1 (List.mem_of_getLast? h), fun other hother => ?_⟩
    exact (sorted_ofAdds adds).le_latestAof h (hperm.mem_iff.2 hother)
  latestAof_none := by
    intro runId
    rw [DataSet.latestAof, List.getLast?_eq_none_iff, ← List.length_eq_zero_iff,
      (aof_perm_ofAdds runId adds).length_eq, List.length_eq_zero_iff]
  mem_runIds := fun runId => mem_runIds_ofAdds runId adds
  runIds_nodup := nodup_runIds _
  runIds_sorted := sorted_runIds _

end RedisHaTool.Store
