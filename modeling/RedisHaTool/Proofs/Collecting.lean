import Mathlib.Algebra.BigOperators.Group.List.Basic
import Mathlib.Data.List.Perm.Basic
import RedisHaTool.Proofs.Listed

/-!
# What a collection deletes

The total `do_gc` computes is the size of what is listed, and deleting a listed
file takes the file's length off it. So the deleting loop, which compares what
it has deleted with what it has to delete, goes on exactly as long as what is
stored exceeds the limit and a file is left that may go. The last segment of
each run is not among these: the paths of the files that may go and those of the
last segments are together the listed paths, each once.
-/

namespace RedisHaTool.Store

open Lib

variable {s : FileStorer} {d : DataSet} {maxSize : Nat}

/-! ## The files that may go -/

/-- A file, told by its path and its time of creation, that may go: an RDB file,
or a segment that is not the last of its run. -/
def DataSet.MayGo (d : DataSet) (file : Path × Nat) : Prop :=
  (∃ runId, ∃ rdb ∈ listed d.rdbFiles runId, file = (rdb.path, rdb.createdAt)) ∨
    ∃ runId, ∃ aof ∈ listed d.aofSegments runId,
      d.latestAof runId ≠ some aof ∧ file = (aof.path, aof.createdAt)

/-- The files that may go, each once, in order of creation time. -/
structure DataSet.OldestFirst (d : DataSet) (files : List (Path × Nat)) : Prop where
  nodup : files.Nodup
  mem_iff : ∀ file, file ∈ files ↔ d.MayGo file
  sorted : files.Pairwise fun a b => a.2 ≤ b.2

/-- What is no key lists nothing, and each key lists its entry. -/
theorem flatMap_listed_perm {α : Type} (m : TextMap (List α)) {ids : List Text}
    (hnodup : ids.Nodup) (hkeys : ∀ id ∈ m.keys, id ∈ ids) :
    (ids.flatMap (listed m)).Perm (allListed m) := by
  have hfilter : ids.flatMap (listed m) = (ids.filter (· ∈ m.keys)).flatMap (listed m) := by
    clear hnodup hkeys
    induction ids with
    | nil => rfl
    | cons id ids ih =>
        rw [List.flatMap_cons, ih, List.filter_cons]
        by_cases hid : id ∈ m.keys
        · simp [hid]
        · have hnone : listed m id = [] := by
            rw [listed, AList.lookup_eq_none.2 (mt AList.mem_keys.1 hid)]
            rfl
          simp [hid, hnone]
  have hperm : (ids.filter (· ∈ m.keys)).Perm m.keys := by
    refine (List.perm_ext_iff_of_nodup (hnodup.filter _) m.keys_nodup).2 fun id => ?_
    simp only [List.mem_filter, decide_eq_true_eq]
    exact ⟨fun h => h.2, fun h => ⟨hkeys id h, h⟩⟩
  have hall : m.keys.flatMap (listed m) = allListed m := by
    rw [AList.keys, List.keys, List.flatMap_map]
    refine List.flatMap_congr fun entry hentry => ?_
    rw [listed, AList.mem_lookup_iff.2 hentry]
    rfl
  rw [hfilter, ← hall]
  exact hperm.flatMap_right _

theorem nodup_runIds (d : DataSet) : d.runIds.Nodup := List.nodup_dedup _

theorem flatMap_rdb_perm (d : DataSet) :
    (d.runIds.flatMap fun runId => (listed d.rdbFiles runId).map DataSetRdb.path).Perm
      ((allListed d.rdbFiles).map DataSetRdb.path) := by
  rw [← List.map_flatMap]
  exact (flatMap_listed_perm _ (nodup_runIds d) fun _ h => mem_runIds.2 (.inl h)).map _

theorem flatMap_aof_perm (d : DataSet) :
    (d.runIds.flatMap fun runId => (listed d.aofSegments runId).map DataSetAof.path).Perm
      ((allListed d.aofSegments).map DataSetAof.path) := by
  rw [← List.map_flatMap]
  exact (flatMap_listed_perm _ (nodup_runIds d) fun _ h => mem_runIds.2 (.inr h)).map _

/-- The path of the last segment of a run, if it has one. -/
def DataSet.lastPath (d : DataSet) (runId : Text) : List Path :=
  (d.latestAof runId).toList.map DataSetAof.path

theorem map_path_dropLast (d : DataSet) (runId : Text) :
    (listed d.aofSegments runId).dropLast.map DataSetAof.path ++ d.lastPath runId
      = (listed d.aofSegments runId).map DataSetAof.path := by
  rw [DataSet.lastPath, DataSet.latestAof]
  rcases List.eq_nil_or_concat' (listed d.aofSegments runId) with hnil | ⟨l, aof, hl⟩
  · simp [hnil]
  · simp [hl]

theorem filesToDelete_perm (d : DataSet) :
    (d.filesToDelete.map Prod.fst).Perm (d.runIds.flatMap fun runId =>
      (listed d.rdbFiles runId).map DataSetRdb.path ++
        (listed d.aofSegments runId).dropLast.map DataSetAof.path) := by
  refine ((List.perm_insertionSort _ _).map _).trans (List.Perm.of_eq ?_)
  rw [List.map_flatMap]
  refine List.flatMap_congr fun runId _ => ?_
  rw [List.map_append, List.map_map, List.map_map]
  rfl

/-- What may go and the last segments are all that is listed. -/
theorem filesToDelete_append_lastPath (d : DataSet) :
    (d.filesToDelete.map Prod.fst ++ d.runIds.flatMap d.lastPath).Perm d.listedPaths := by
  calc
    (d.filesToDelete.map Prod.fst ++ d.runIds.flatMap d.lastPath).Perm
        ((d.runIds.flatMap fun runId => (listed d.rdbFiles runId).map DataSetRdb.path ++
          (listed d.aofSegments runId).dropLast.map DataSetAof.path) ++
            d.runIds.flatMap d.lastPath) := (filesToDelete_perm d).append_right _
    List.Perm _ (d.runIds.flatMap fun runId => (listed d.rdbFiles runId).map DataSetRdb.path ++
          (listed d.aofSegments runId).map DataSetAof.path) := by
        refine (List.flatMap_append_perm _ _ _).trans (List.Perm.of_eq ?_)
        refine List.flatMap_congr fun runId _ => ?_
        rw [List.append_assoc, map_path_dropLast]
    List.Perm _ d.listedPaths :=
        (List.flatMap_append_perm _ _ _).symm.trans
          ((flatMap_rdb_perm d).append (flatMap_aof_perm d))

theorem mem_lastPath {runId : Text} {aof : DataSetAof} (h : d.latestAof runId = some aof) :
    aof.path ∈ d.runIds.flatMap d.lastPath := by
  have hmem : aof ∈ listed d.aofSegments runId := List.mem_of_getLast? h
  refine List.mem_flatMap.2 ⟨runId, mem_runIds.2 (.inr (mem_keys_of_mem_listed hmem)), ?_⟩
  rw [DataSet.lastPath, h]
  exact List.mem_singleton_self _

section Distinct

variable (hdistinct : d.listedPaths.Nodup)
include hdistinct

theorem nodup_filesToDelete : (d.filesToDelete.map Prod.fst).Nodup :=
  (List.nodup_append.1 ((filesToDelete_append_lastPath d).nodup_iff.2 hdistinct)).1

/-- The last segment of a run is not among the files that may go. -/
theorem latestAof_not_mem {runId : Text} {aof : DataSetAof}
    (h : d.latestAof runId = some aof) : aof.path ∉ d.filesToDelete.map Prod.fst := by
  intro hmem
  have hnodup := (filesToDelete_append_lastPath d).nodup_iff.2 hdistinct
  exact (List.nodup_append.1 hnodup).2.2 _ hmem _ (mem_lastPath h) rfl

theorem mem_filesToDelete {file : Path × Nat} : file ∈ d.filesToDelete ↔ d.MayGo file := by
  have hsame : file ∈ d.filesToDelete ↔ ∃ runId ∈ d.runIds,
      file ∈ (listed d.rdbFiles runId).map (fun rdb => (rdb.path, rdb.createdAt)) ++
        (listed d.aofSegments runId).dropLast.map fun aof => (aof.path, aof.createdAt) := by
    rw [DataSet.filesToDelete, List.mem_insertionSort, List.mem_flatMap]
  constructor
  · intro hfile
    obtain ⟨runId, -, hmem⟩ := hsame.1 hfile
    rcases List.mem_append.1 hmem with hmem | hmem
    · obtain ⟨rdb, hrdb, rfl⟩ := List.mem_map.1 hmem
      exact .inl ⟨runId, rdb, hrdb, rfl⟩
    · obtain ⟨aof, haof, rfl⟩ := List.mem_map.1 hmem
      refine .inr ⟨runId, aof, (List.dropLast_sublist _).subset haof, ?_, rfl⟩
      intro hlast
      exact latestAof_not_mem hdistinct hlast (List.mem_map_of_mem hfile)
  · intro hmay
    rw [hsame]
    rcases hmay with ⟨runId, rdb, hrdb, rfl⟩ | ⟨runId, aof, haof, hlast, rfl⟩
    · refine ⟨runId, mem_runIds.2 (.inl (mem_keys_of_mem_listed hrdb)), ?_⟩
      exact List.mem_append_left _ (List.mem_map.2 ⟨rdb, hrdb, rfl⟩)
    · refine ⟨runId, mem_runIds.2 (.inr (mem_keys_of_mem_listed haof)), ?_⟩
      refine List.mem_append_right _ (List.mem_map.2 ⟨aof, ?_, rfl⟩)
      rw [DataSet.latestAof] at hlast
      rcases List.eq_nil_or_concat' (listed d.aofSegments runId) with hnil | ⟨l, last, hl⟩
      · rw [hnil] at haof
        cases haof
      · rw [hl, List.getLast?_concat] at hlast
        rw [hl, List.mem_append, List.mem_singleton] at haof
        rw [hl, List.dropLast_concat]
        rcases haof with haof | rfl
        · exact haof
        · exact absurd rfl hlast

theorem filesToDelete_oldestFirst : d.OldestFirst d.filesToDelete where
  nodup := (nodup_filesToDelete hdistinct).of_map _
  mem_iff := fun _ => mem_filesToDelete hdistinct
  sorted := List.pairwise_insertionSort _ _

end Distinct

/-! ## Lists sorted by offset -/

/-- `DataSet` keeps its lists sorted by offset. -/
structure DataSet.Sorted (d : DataSet) : Prop where
  rdb : ∀ runId, (listed d.rdbFiles runId).Pairwise fun a b => a.offset ≤ b.offset
  aof : ∀ runId, (listed d.aofSegments runId).Pairwise fun a b => a.offset ≤ b.offset

/-- The last of a sorted list is greatest. -/
theorem le_of_getLast? {α : Type} {offset : α → Int} {l : List α} {last x : α}
    (hsorted : l.Pairwise fun a b => offset a ≤ offset b) (hlast : l.getLast? = some last)
    (hx : x ∈ l) : offset x ≤ offset last := by
  obtain ⟨init, rfl⟩ := List.getLast?_eq_some_iff.1 hlast
  rcases List.mem_append.1 hx with hbefore | hsame
  · exact (List.pairwise_append.1 hsorted).2.2 _ hbefore _ (List.mem_singleton_self _)
  · rw [List.mem_singleton.1 hsame]

theorem DataSet.Sorted.le_latestAof (h : d.Sorted) {runId : Text} {last : DataSetAof}
    (hlast : d.latestAof runId = some last) {aof : DataSetAof}
    (haof : aof ∈ listed d.aofSegments runId) : aof.offset ≤ last.offset :=
  le_of_getLast? (h.aof runId) hlast haof

theorem sorted_new : DataSet.new.Sorted where
  rdb := fun _ => List.Pairwise.nil
  aof := fun _ => List.Pairwise.nil

theorem pairwise_insert {α : Type} {offset : α → Int} {m : TextMap (List α)}
    (h : ∀ id, (listed m id).Pairwise fun a b => offset a ≤ offset b) (runId : Text)
    (l : List α) (id : Text) :
    (listed (m.insert runId (l.insertionSort fun a b => offset a ≤ offset b)) id).Pairwise
      fun a b => offset a ≤ offset b := by
  by_cases heq : id = runId
  · rw [heq, listed, AList.lookup_insert]
    exact List.pairwise_insertionSort _ _
  · rw [listed, AList.lookup_insert_ne heq]
    exact h id

theorem DataSet.Sorted.addRdb (h : d.Sorted) (runId : Text) (rdb : DataSetRdb) :
    (d.addRdb runId rdb).Sorted := ⟨pairwise_insert h.rdb runId _, h.aof⟩

theorem DataSet.Sorted.addAof (h : d.Sorted) (runId : Text) (aof : DataSetAof) :
    (d.addAof runId aof).Sorted := ⟨h.rdb, pairwise_insert h.aof runId _⟩

theorem sorted_scanFromDir (disk : Disk) (created : Path → Nat) (listing : Listing) :
    (DataSet.scanFromDir disk created listing).Sorted := by
  rw [DataSet.scanFromDir]
  refine List.foldlRecOn listing _ sorted_new fun dataset h entry _ => ?_
  exact ⟨pairwise_insert h.rdb entry.1 _, pairwise_insert h.aof entry.1 _⟩

theorem doGc_dataSet (s : FileStorer) (maxSize : Nat) :
    (s.doGc maxSize).1.dataSet = s.dataSet := by
  rw [FileStorer.doGc]
  split
  · rfl
  · split
    · rfl
    · rfl

/-- The lists are sorted after every call. -/
theorem sorted_of_calls {disk : Disk} {calls : List StoreCall} {t : FileStorer}
    (hrun : Steps (FileStorer.step maxSize) Free (.new disk) calls t) : t.dataSet.Sorted := by
  refine hrun.invariant (I := fun s => s.dataSet.Sorted) (fun s c t h _ hstep => ?_) sorted_new
  cases becomes_of_step hstep with
  | getRdbWriter runId offset size now => exact h.addRdb runId _
  | getAofWriter runId offset now => exact h.addAof runId _
  | initDataSet listing created => exact sorted_scanFromDir s.disk created listing
  | gcDataSet => exact (doGc_dataSet s maxSize).symm ▸ h
  | failed => exact h
  | write path bs => exact h
  | rotate path => exact h

/-! ## The loop -/

/-- The storer after these files were deleted. -/
def FileStorer.without (s : FileStorer) (files : List (Path × Nat)) : FileStorer :=
  { s with disk := files.foldl (fun disk file => disk.erase file.1) s.disk }

theorem without_dataSet (s : FileStorer) (files : List (Path × Nat)) :
    (s.without files).dataSet = s.dataSet := rfl

theorem without_cons (s : FileStorer) (file : Path × Nat) (files : List (Path × Nat)) :
    s.without (file :: files) = (s.without [file]).without files := rfl

theorem mem_without {files : List (Path × Nat)} {path : Path} :
    path ∈ (s.without files).disk ↔ path ∈ s.disk ∧ path ∉ files.map Prod.fst := by
  induction files generalizing s with
  | nil => simp [FileStorer.without]
  | cons file files ih =>
      rw [without_cons, ih, List.map_cons, List.mem_cons, not_or]
      show path ∈ s.disk.erase file.1 ∧ _ ↔ _
      rw [AList.mem_erase]
      tauto

/-- A deleted file takes its length off what is stored. -/
theorem length_add_storedSize (hdistinct : s.dataSet.listedPaths.Nodup) {file : Path × Nat}
    (hfile : file.1 ∈ s.dataSet.listedPaths) :
    (s.disk.contents file.1).length + (s.without [file]).storedSize = s.storedSize := by
  have hperm := List.perm_cons_erase hfile
  have hgone : (s.without [file]).disk.contents file.1 = [] := by
    show ((s.disk.erase file.1).lookup file.1).getD [] = []
    rw [AList.lookup_erase]
    rfl
  have hothers : ((s.dataSet.listedPaths.erase file.1).map fun path =>
        ((s.without [file]).disk.contents path).length)
      = (s.dataSet.listedPaths.erase file.1).map fun path => (s.disk.contents path).length := by
    refine List.map_congr_left fun path hpath => ?_
    have hne : path ≠ file.1 := (hdistinct.mem_erase_iff.1 hpath).1
    show (((s.disk.erase file.1).lookup path).getD []).length = _
    rw [AList.lookup_erase_ne hne]
    rfl
  calc
    (s.disk.contents file.1).length + (s.without [file]).storedSize
        = (s.disk.contents file.1).length + ((s.dataSet.listedPaths.erase file.1).map fun path =>
            (s.disk.contents path).length).sum := by
          rw [FileStorer.storedSize, without_dataSet, (hperm.map _).sum_eq, List.map_cons,
            List.sum_cons, hgone, hothers, List.length_nil, Nat.zero_add]
    _ = s.storedSize := by
          rw [FileStorer.storedSize, (hperm.map _).sum_eq, List.map_cons, List.sum_cons]

/-- The loop deletes files as long as there are any and what is stored exceeds
the limit. -/
theorem deleteFiles_spec (maxSize : Nat) {files : List (Path × Nat)} {deletedSize total : Nat}
    (hdistinct : s.dataSet.listedPaths.Nodup) (hnodup : (files.map Prod.fst).Nodup)
    (hlisted : ∀ file ∈ files, file.1 ∈ s.dataSet.listedPaths)
    (hexist : ∀ file ∈ files, file.1 ∈ s.disk) (htotal : deletedSize + s.storedSize = total) :
    ∃ deleted kept, files = deleted ++ kept ∧
      deleteFiles (total - maxSize) files deletedSize s.disk
        = ((s.without deleted).disk, .ok ()) ∧
      (kept = [] ∨ (s.without deleted).storedSize ≤ maxSize) ∧
      ∀ earlier later, deleted = earlier ++ later → later ≠ [] →
        maxSize < (s.without earlier).storedSize := by
  induction files generalizing s deletedSize with
  | nil =>
      refine ⟨[], [], rfl, rfl, .inl rfl, fun earlier later hsplit hlater => ?_⟩
      exact absurd (List.append_eq_nil_iff.1 hsplit.symm).2 hlater
  | cons file files ih =>
      by_cases hfit : s.storedSize ≤ maxSize
      · refine ⟨[], file :: files, rfl, ?_, .inr hfit, fun earlier later hsplit hlater => ?_⟩
        · rw [deleteFiles, if_pos (by omega)]
          rfl
        · exact absurd (List.append_eq_nil_iff.1 hsplit.symm).2 hlater
      · obtain ⟨hfile, hrest⟩ := List.nodup_cons.1 hnodup
        have hlength := length_add_storedSize hdistinct (hlisted file List.mem_cons_self)
        have hstill : ∀ other ∈ files, other.1 ∈ (s.without [file]).disk := by
          intro other hother
          refine mem_without.2 ⟨hexist other (List.mem_cons_of_mem _ hother), ?_⟩
          intro heq
          rw [List.map_singleton, List.mem_singleton] at heq
          exact hfile (heq ▸ List.mem_map_of_mem hother)
        have htotal' : deletedSize + (s.disk.contents file.1).length
            + (s.without [file]).storedSize = total := by omega
        obtain ⟨deleted, kept, rfl, hrun, hstop, hgoes⟩ := ih (s := s.without [file]) hdistinct
          hrest (fun other hother => hlisted other (List.mem_cons_of_mem _ hother)) hstill htotal'
        refine ⟨file :: deleted, kept, rfl, ?_, hstop, fun earlier later hsplit hlater => ?_⟩
        · rw [deleteFiles, if_neg (by omega), if_pos (hexist file List.mem_cons_self)]
          exact hrun
        · cases earlier with
          | nil => exact Nat.lt_of_not_le hfit
          | cons first earlier =>
              obtain ⟨rfl, htail⟩ := List.cons.inj hsplit
              exact hgoes earlier later htail hlater

/-! ## A collection -/

theorem doGc_eq (maxSize : Nat) (h : s.AllExist) (hdistinct : s.dataSet.listedPaths.Nodup) :
    ∃ deleted kept, s.dataSet.filesToDelete = deleted ++ kept ∧
      s.doGc maxSize = (s.without deleted, .ok ()) ∧
      (kept = [] ∨ (s.without deleted).storedSize ≤ maxSize) ∧
      ∀ earlier later, deleted = earlier ++ later → later ≠ [] →
        maxSize < (s.without earlier).storedSize := by
  have hlisted : ∀ file ∈ s.dataSet.filesToDelete, file.1 ∈ s.dataSet.listedPaths := by
    intro file hfile
    refine (filesToDelete_append_lastPath s.dataSet).subset ?_
    exact List.mem_append_left _ (List.mem_map_of_mem hfile)
  have hexist : ∀ file ∈ s.dataSet.filesToDelete, file.1 ∈ s.disk :=
    fun file hfile => h.mem (lists_of_mem_filesToDelete hfile)
  obtain ⟨deleted, kept, hsplit, hrun, hstop, hgoes⟩ := deleteFiles_spec maxSize hdistinct
    (nodup_filesToDelete hdistinct) hlisted hexist (Nat.zero_add _)
  refine ⟨deleted, kept, hsplit, ?_, hstop, hgoes⟩
  rw [FileStorer.doGc, h.currentSize]
  by_cases hfit : s.storedSize ≤ maxSize
  · -- The first file would already be one too many.
    obtain rfl : deleted = [] := by
      by_contra hne
      exact Nat.not_lt.2 hfit (hgoes [] deleted rfl hne)
    simp only [if_pos hfit]
    rfl
  · simp only [if_neg hfit, hrun]
    rfl

/-- What `do_gc` does: it deletes a prefix of the files that may go. -/
structure FileStorer.Collects (maxSize : Nat) (s : FileStorer) (deleted kept : List (Path × Nat)) :
    Prop where
  returns : s.doGc maxSize = (s.without deleted, .ok ())
  fits : s.storedSize ≤ maxSize → deleted = []
  keepsLast : ∀ runId last, s.dataSet.latestAof runId = some last →
    (∀ aof ∈ listed s.dataSet.aofSegments runId, aof.offset ≤ last.offset) ∧
      last.path ∈ (s.without deleted).disk
  oldestFirst : s.dataSet.OldestFirst (deleted ++ kept)
  stops : kept = [] ∨ (s.without deleted).storedSize ≤ maxSize
  goesOn : ∀ earlier later, deleted = earlier ++ later → later ≠ [] →
    maxSize < (s.without earlier).storedSize
  exhausted : maxSize < (s.without deleted).storedSize →
    ∀ file, s.dataSet.MayGo file → file.1 ∉ (s.without deleted).disk

/-- A collection over listed paths that are distinct and there ends well. It
deletes the oldest files that may go, no more than it takes to come down to the
limit, and the last segment of each run stays. -/
theorem doGc_collects (s : FileStorer) (maxSize : Nat)
    (hdistinct : s.dataSet.listedPaths.Nodup) (hexist : s.AllExist)
    (hsorted : s.dataSet.Sorted) : ∃ deleted kept, s.Collects maxSize deleted kept := by
  obtain ⟨deleted, kept, hsplit, hrun, hstop, hgoes⟩ := doGc_eq maxSize hexist hdistinct
  have horder : s.dataSet.OldestFirst (deleted ++ kept) :=
    hsplit ▸ filesToDelete_oldestFirst hdistinct
  refine ⟨deleted, kept, hrun, ?fits, ?keepsLast, horder, hstop, hgoes, ?exhausted⟩
  case fits =>
    intro hfit
    by_contra hne
    exact Nat.not_lt.2 hfit (hgoes [] deleted rfl hne)
  case keepsLast =>
    intro runId last hlast
    refine ⟨fun aof haof => hsorted.le_latestAof hlast haof, mem_without.2 ⟨?_, ?_⟩⟩
    · exact hexist.2 runId last (List.mem_of_getLast? hlast)
    · intro hgone
      refine latestAof_not_mem hdistinct hlast ?_
      rw [hsplit, List.map_append]
      exact List.mem_append_left _ hgone
  case exhausted =>
    intro hlarge file hmay hthere
    obtain rfl : kept = [] := hstop.resolve_right (Nat.not_le.2 hlarge)
    rw [List.append_nil] at horder
    exact (mem_without.1 hthere).2 (List.mem_map_of_mem ((horder.mem_iff file).2 hmay))

/-- The five bytes, a segment of two more, and an empty one after it. -/
def twoSegments : FileStorer :=
  let s := (fiveBytes.getAofWriter "a".toList 5 1).1
  let path : Path := { runId := "a".toList, name := aofFileName 5 }
  ({ s with disk := s.disk.append path [6, 7] }.getAofWriter "a".toList 7 2).1

theorem allExist_twoSegments : twoSegments.AllExist := by
  have hfive : fiveBytes.AllExist :=
    (fiveBytes_of_calls (FileStorer.DeletesNothing 5) trivial (fun _ _ _ => trivial) 5).invariant
      (fun _ _ _ hs hC hstep => hs.step hC hstep) (allExist_new ∅)
  have hone := hfive.getAofWriter "a".toList 5 1
  refine FileStorer.AllExist.getAofWriter ⟨fun id rdb hrdb => ?_, fun id aof haof => ?_⟩ _ _ _
  · exact mem_append (hone.1 id rdb hrdb)
  · exact mem_append (hone.2 id aof haof)

theorem sorted_twoSegments : twoSegments.dataSet.Sorted :=
  ((sorted_of_calls (fiveBytes_of_calls Free trivial (fun _ _ _ => trivial) 5)).addAof _ _).addAof
    _ _

/-- Without the RDB file they are two bytes. -/
theorem doGc_collects_twoSegments : ∃ deleted kept, twoSegments.Collects 3 deleted kept :=
  doGc_collects twoSegments 3 (by decide +kernel) allExist_twoSegments sorted_twoSegments

end RedisHaTool.Store
