import RedisHaTool.Proofs.Rescan

/-!
# A collection after a restart

A collection counts what is listed, and what it deletes stays listed, so within
one process the directory and the limit go apart. After a scan they are one: what
is listed is what is there, so the total that is compared with the limit is the
size of the directory, no deletion can fail, and what is left is told from the
directory alone.
-/

namespace RedisHaTool.Store

open Lib

/-! ## The size of a directory -/

/-- The lengths of all files added up. -/
def Disk.totalSize (disk : Disk) : Nat :=
  (disk.keys.map fun path => (disk.contents path).length).sum

/-- What adds nothing can be left out of a sum. -/
theorem sum_map_filter {α : Type} {f : α → Nat} {keep : α → Bool} {l : List α}
    (h : ∀ a ∈ l, keep a = false → f a = 0) : ((l.filter keep).map f).sum = (l.map f).sum := by
  induction l with
  | nil => rfl
  | cons a l ih =>
      have hrest := ih fun b hb => h b (List.mem_cons_of_mem a hb)
      by_cases ha : keep a = true
      · rw [List.filter_cons_of_pos ha, List.map_cons, List.sum_cons, hrest, List.map_cons,
          List.sum_cons]
      · have hzero := h a List.mem_cons_self (Bool.eq_false_iff.2 ha)
        rw [List.filter_cons_of_neg ha, hrest, List.map_cons, List.sum_cons, hzero, Nat.zero_add]

theorem contents_of_not_mem {disk : Disk} {path : Path} (h : path ∉ disk) :
    disk.contents path = [] := by
  rw [Disk.contents, AList.lookup_eq_none.2 h]
  rfl

/-- Adding up over more paths than there are files gives the size all the same. -/
theorem sum_length_eq_totalSize {disk : Disk} {paths : List Path} (hnodup : paths.Nodup)
    (hall : ∀ path ∈ disk, path ∈ paths) :
    (paths.map fun path => (disk.contents path).length).sum = disk.totalSize := by
  have hperm : (paths.filter (· ∈ disk)).Perm disk.keys := by
    refine (List.perm_ext_iff_of_nodup (hnodup.filter _) disk.keys_nodup).2 fun path => ?_
    rw [List.mem_filter, ← AList.mem_keys]
    simp only [decide_eq_true_eq]
    exact ⟨fun h => h.2, fun h => ⟨hall path h, h⟩⟩
  rw [Disk.totalSize, ← (hperm.map _).sum_eq]
  refine (sum_map_filter fun path _ hgone => ?_).symm
  rw [contents_of_not_mem (of_decide_eq_false hgone), List.length_nil]

variable {d : DataSet} {disk : Disk} {created : Path → Nat}

/-! ## What is listed and what is there -/

theorem DataSet.Indexes.allExist (h : d.Indexes disk created) :
    FileStorer.AllExist { dataSet := d, disk } :=
  ⟨fun runId rdb hrdb => ((h.rdb_iff runId rdb).1 hrdb).1,
    fun runId aof haof => ((h.aof_iff runId aof).1 haof).1⟩

/-- As long as files are only deleted, what is stored is the size of the
directory. -/
theorem storedSize_without (h : d.Indexes disk created) (files : List (Path × Nat)) :
    (FileStorer.without { dataSet := d, disk } files).storedSize
      = (FileStorer.without { dataSet := d, disk } files).disk.totalSize := by
  refine sum_length_eq_totalSize h.nodup fun path hpath => ?_
  exact h.paths.mem_iff.2 (AList.mem_keys.1 (mem_without.1 hpath).1)

theorem contents_without {s : FileStorer} {files : List (Path × Nat)} {path : Path}
    (h : path ∈ (s.without files).disk) :
    (s.without files).disk.contents path = s.disk.contents path := by
  induction files generalizing s with
  | nil => rfl
  | cons file files ih =>
      rw [without_cons] at h ⊢
      have hne : path ≠ file.1 := by
        have hback := (mem_without.1 (mem_without.1 h).1).2
        simpa using hback
      rw [ih h]
      show ((s.disk.erase file.1).lookup path).getD [] = _
      rw [AList.lookup_erase_ne hne]
      rfl

/-- A segment than which none of its run starts later. -/
def IsLastSegment (disk : Disk) (path : Path) : Prop :=
  path ∈ disk ∧ ∃ runId offset, path = segmentPath runId offset ∧
    ∀ later, segmentPath runId later ∈ disk → later ≤ offset

/-- The last segment listed is the last there is. -/
theorem DataSet.Indexes.latestAof_iff (h : d.Indexes disk created) {path : Path} :
    IsLastSegment disk path ↔ ∃ runId aof, d.latestAof runId = some aof ∧ aof.path = path := by
  constructor
  · rintro ⟨hmem, runId, offset, rfl, hlast⟩
    have hlisted := h.segmentAt_mem hmem
    obtain ⟨aof, haof⟩ := Option.isSome_iff_exists.1
      (List.getLast?_isSome.2 (List.ne_nil_of_mem hlisted))
    have hle : offset ≤ aof.offset := h.sorted.le_latestAof haof hlisted
    obtain ⟨hthere, hname, -⟩ := (h.aof_iff _ _).1 (List.mem_of_getLast? haof)
    have hge := hlast aof.offset (hname ▸ hthere)
    exact ⟨runId, aof, haof, by rw [hname, show aof.offset = offset by omega]⟩
  · rintro ⟨runId, aof, haof, rfl⟩
    obtain ⟨hthere, hname, -⟩ := (h.aof_iff _ _).1 (List.mem_of_getLast? haof)
    refine ⟨hthere, runId, aof.offset, hname, fun later hlater => ?_⟩
    exact h.sorted.le_latestAof haof (h.segmentAt_mem hlater)

/-- Every file but the last segments may go. -/
theorem DataSet.Indexes.mem_filesToDelete_iff (h : d.Indexes disk created) {path : Path} :
    path ∈ d.filesToDelete.map Prod.fst ↔ path ∈ disk ∧ ¬ IsLastSegment disk path := by
  have hperm := filesToDelete_append_lastPath d
  constructor
  · intro hmem
    refine ⟨?_, fun hlast => ?_⟩
    · exact AList.mem_keys.2 (h.paths.mem_iff.1
        (hperm.mem_iff.1 (List.mem_append_left _ hmem)))
    · obtain ⟨runId, aof, haof, rfl⟩ := h.latestAof_iff.1 hlast
      exact latestAof_not_mem h.nodup haof hmem
  · rintro ⟨hmem, hlast⟩
    have hlisted := hperm.mem_iff.2 (h.paths.mem_iff.2 (AList.mem_keys.1 hmem))
    rcases List.mem_append.1 hlisted with hgoes | hstays
    · exact hgoes
    · obtain ⟨runId, -, hpath⟩ := List.mem_flatMap.1 hstays
      rw [DataSet.lastPath, List.mem_map] at hpath
      obtain ⟨aof, haof, hpath⟩ := hpath
      exact absurd (h.latestAof_iff.2 ⟨runId, aof, Option.mem_toList.1 haof, hpath⟩) hlast

/-- What may go is listed with the time of its creation. -/
theorem DataSet.Indexes.snd_of_mem (h : d.Indexes disk created) {file : Path × Nat}
    (hfile : file ∈ d.filesToDelete) : file.2 = created file.1 := by
  rcases (mem_filesToDelete h.nodup).1 hfile with
    ⟨runId, rdb, hrdb, rfl⟩ | ⟨runId, aof, haof, -, rfl⟩
  · exact ((h.rdb_iff runId rdb).1 hrdb).2.2
  · exact ((h.aof_iff runId aof).1 haof).2.2

/-! ## The collection -/

/-- What a collection makes of a directory. -/
structure Disk.Reclaimed (disk disk' : Disk) (limit : Nat) (created : Path → Nat) : Prop where
  /-- Nothing is added or written to. -/
  kept : ∀ path ∈ disk', path ∈ disk ∧ disk'.contents path = disk.contents path
  /-- What is left fits, unless nothing is left that may go. -/
  fits : disk'.totalSize ≤ limit ∨ ∀ path ∈ disk', IsLastSegment disk' path
  last : ∀ path, IsLastSegment disk path ↔ IsLastSegment disk' path
  /-- Nothing goes before what is older. -/
  oldest : ∀ path ∈ disk, path ∉ disk' → ∀ other ∈ disk', ¬ IsLastSegment disk' other →
    created path ≤ created other
  /-- If anything goes, the newest that does had to go. -/
  needed : (∀ path ∈ disk, path ∈ disk') ∨ ∃ path ∈ disk, path ∉ disk' ∧
    (∀ gone ∈ disk, gone ∉ disk' → created gone ≤ created path) ∧
      limit < disk'.totalSize + (disk.contents path).length

/-- The directory without some files. -/
def Disk.without (disk : Disk) (files : List (Path × Nat)) : Disk :=
  files.foldl (fun disk file => disk.erase file.1) disk

theorem lt_totalSize_of_needed {file : Path × Nat} {earlier : List (Path × Nat)} {limit : Nat}
    (h : d.Indexes disk created) (hfile : file.1 ∈ disk) (hnew : file.1 ∉ earlier.map Prod.fst)
    (hgoes : limit < (FileStorer.without { dataSet := d, disk } earlier).storedSize) :
    limit < (disk.without (earlier ++ [file])).totalSize + (disk.contents file.1).length := by
  have hlisted : file.1 ∈ d.listedPaths := h.paths.mem_iff.2 (AList.mem_keys.1 hfile)
  have hthere : file.1 ∈ (FileStorer.without { dataSet := d, disk } earlier).disk :=
    mem_without.2 ⟨hfile, hnew⟩
  have hsame : (FileStorer.without { dataSet := d, disk } earlier).disk.contents file.1
      = disk.contents file.1 := contents_without hthere
  have hsize := length_add_storedSize
    (s := FileStorer.without { dataSet := d, disk } earlier) h.nodup hlisted
  have happend : (FileStorer.without { dataSet := d, disk } earlier).without [file]
      = FileStorer.without { dataSet := d, disk } (earlier ++ [file]) := by
    rw [FileStorer.without, FileStorer.without, FileStorer.without, List.foldl_append]
  rw [happend, storedSize_without h, hsame] at hsize
  show _ < (FileStorer.without { dataSet := d, disk } (earlier ++ [file])).disk.totalSize + _
  omega

/-- The last segments do not depend on what else there is. -/
theorem DataSet.Indexes.isLastSegment_iff (h : d.Indexes disk created) {disk' : Disk}
    (hsub : ∀ path ∈ disk', path ∈ disk) (hkeeps : ∀ path, IsLastSegment disk path → path ∈ disk')
    {path : Path} : IsLastSegment disk path ↔ IsLastSegment disk' path := by
  constructor
  · intro hlast
    obtain ⟨-, runId, offset, rfl, hmax⟩ := id hlast
    exact ⟨hkeeps _ hlast, runId, offset, rfl, fun later hlater => hmax later (hsub _ hlater)⟩
  · rintro ⟨hmem, runId, offset, rfl, hmax⟩
    refine ⟨hsub _ hmem, runId, offset, rfl, fun later hlater => ?_⟩
    obtain ⟨aof, haof⟩ := Option.isSome_iff_exists.1
      (List.getLast?_isSome.2 (List.ne_nil_of_mem (h.segmentAt_mem hlater)))
    have hle : later ≤ aof.offset := h.sorted.le_latestAof haof (h.segmentAt_mem hlater)
    obtain ⟨-, hname, -⟩ := (h.aof_iff _ _).1 (List.mem_of_getLast? haof)
    have hstays := hkeeps _ (h.latestAof_iff.2 ⟨runId, aof, haof, rfl⟩)
    exact Int.le_trans hle (hmax aof.offset (hname ▸ hstays))

section Deleted

variable {deleted kept : List (Path × Nat)} {limit : Nat} (h : d.Indexes disk created)
  (hfiles : d.filesToDelete = deleted ++ kept)
include h hfiles

theorem mem_append_iff {path : Path} :
    path ∈ deleted.map Prod.fst ∨ path ∈ kept.map Prod.fst ↔
      path ∈ disk ∧ ¬ IsLastSegment disk path := by
  rw [← h.mem_filesToDelete_iff, hfiles, List.map_append, List.mem_append]

theorem mem_without_of_isLastSegment {path : Path} (hlast : IsLastSegment disk path) :
    path ∈ disk.without deleted := by
  refine (mem_without (s := { dataSet := d, disk })).2 ⟨hlast.1, fun hgone => ?_⟩
  exact ((mem_append_iff h hfiles).1 (.inl hgone)).2 hlast

theorem isLastSegment_without (path : Path) :
    IsLastSegment disk path ↔ IsLastSegment (disk.without deleted) path :=
  h.isLastSegment_iff (fun _ hpath => ((mem_without (s := { dataSet := d, disk })).1 hpath).1)
    fun _ hlast => mem_without_of_isLastSegment h hfiles hlast

/-- A file that is gone was deleted. -/
theorem exists_mem_deleted {path : Path} (hmem : path ∈ disk)
    (hgone : path ∉ disk.without deleted) :
    ∃ file ∈ deleted, file.1 = path ∧ file.2 = created path := by
  have hdeleted : path ∈ deleted.map Prod.fst := by
    by_contra hnot
    exact hgone ((mem_without (s := { dataSet := d, disk })).2 ⟨hmem, hnot⟩)
  obtain ⟨file, hfile, rfl⟩ := List.mem_map.1 hdeleted
  exact ⟨file, hfile, rfl, h.snd_of_mem (hfiles ▸ List.mem_append_left _ hfile)⟩

theorem oldest_of_deleted {path other : Path} (hmem : path ∈ disk)
    (hgone : path ∉ disk.without deleted) (hother : other ∈ disk.without deleted)
    (hnotlast : ¬ IsLastSegment (disk.without deleted) other) : created path ≤ created other := by
  obtain ⟨file, hfile, -, htime⟩ := exists_mem_deleted h hfiles hmem hgone
  obtain ⟨hthere, hstays⟩ := (mem_without (s := { dataSet := d, disk })).1 hother
  rw [← isLastSegment_without h hfiles] at hnotlast
  obtain ⟨later, hlater, rfl⟩ :=
    List.mem_map.1 (((mem_append_iff h hfiles).2 ⟨hthere, hnotlast⟩).resolve_left hstays)
  have horder := (filesToDelete_oldestFirst h.nodup).sorted
  rw [hfiles] at horder
  rw [← htime, ← h.snd_of_mem (hfiles ▸ List.mem_append_right _ hlater)]
  exact (List.pairwise_append.1 horder).2.2 _ hfile _ hlater

/-- The file that was deleted last is the newest of those deleted. -/
theorem newest_of_deleted {earlier : List (Path × Nat)} {file : Path × Nat}
    (hdeleted : deleted = earlier ++ [file]) {gone : Path} (hmem : gone ∈ disk)
    (hgone : gone ∉ disk.without deleted) : created gone ≤ created file.1 := by
  obtain ⟨other, hother, -, htime⟩ := exists_mem_deleted h hfiles hmem hgone
  have hfile : file ∈ deleted := hdeleted ▸ List.mem_append_right _ (List.mem_singleton_self _)
  have horder := (filesToDelete_oldestFirst h.nodup).sorted
  rw [hfiles, hdeleted] at horder
  rw [← htime, ← h.snd_of_mem (hfiles ▸ List.mem_append_left _ hfile)]
  rw [hdeleted] at hother
  rcases List.mem_append.1 hother with hother | hother
  · exact (List.pairwise_append.1 (List.pairwise_append.1 horder).1).2.2 _ hother _
      (List.mem_singleton_self _)
  · rw [List.mem_singleton.1 hother]

theorem needed_of_deleted
    (hgoes : ∀ earlier later, deleted = earlier ++ later → later ≠ [] →
      limit < (FileStorer.without { dataSet := d, disk } earlier).storedSize) :
    (∀ path ∈ disk, path ∈ disk.without deleted) ∨
      ∃ path ∈ disk, path ∉ disk.without deleted ∧
        (∀ gone ∈ disk, gone ∉ disk.without deleted → created gone ≤ created path) ∧
          limit < (disk.without deleted).totalSize + (disk.contents path).length := by
  rcases List.eq_nil_or_concat' deleted with hnone | ⟨earlier, file, hdeleted⟩
  · rw [hnone]
    exact .inl fun path hmem => hmem
  · have hfile : file ∈ deleted := hdeleted ▸ List.mem_append_right _ (List.mem_singleton_self _)
    have hgone : file.1 ∈ deleted.map Prod.fst := List.mem_map_of_mem hfile
    have hmem : file.1 ∈ disk := ((mem_append_iff h hfiles).1 (.inl hgone)).1
    have hpaths := nodup_filesToDelete h.nodup
    rw [hfiles, List.map_append, hdeleted, List.map_append] at hpaths
    have hnew : file.1 ∉ earlier.map Prod.fst := fun hin =>
      (List.nodup_append.1 (List.nodup_append.1 hpaths).1).2.2 _ hin _
        (List.mem_singleton_self _) rfl
    refine .inr ⟨file.1, hmem, fun hin => ?_, fun gone => newest_of_deleted h hfiles hdeleted, ?_⟩
    · exact ((mem_without (s := { dataSet := d, disk })).1 hin).2 hgone
    · have hlt := hgoes earlier [file] hdeleted (List.cons_ne_nil _ _)
      rw [hdeleted]
      exact lt_totalSize_of_needed h hmem hnew hlt

end Deleted

theorem doGc_reclaims (h : d.Indexes disk created) (limit : Nat) :
    (FileStorer.doGc { dataSet := d, disk } limit).2 = .ok () ∧
      disk.Reclaimed (FileStorer.doGc { dataSet := d, disk } limit).1.disk limit created := by
  obtain ⟨deleted, kept, hfiles, hrun, hstop, hgoes⟩ :=
    doGc_eq (s := { dataSet := d, disk }) limit h.allExist h.nodup
  rw [hrun]
  refine ⟨rfl, fun path hpath => ⟨(mem_without.1 hpath).1, contents_without hpath⟩, ?fits,
    isLastSegment_without h hfiles, fun path hmem hgone other hother hnotlast =>
      oldest_of_deleted h hfiles hmem hgone hother hnotlast, needed_of_deleted h hfiles hgoes⟩
  case fits =>
    rcases hstop with rfl | hfits
    · right
      intro path hpath
      obtain ⟨hmem, hstays⟩ := mem_without.1 hpath
      by_contra hnot
      have hmay := (mem_append_iff h hfiles).2
        ⟨hmem, fun hlast => hnot ((isLastSegment_without h hfiles path).1 hlast)⟩
      exact hmay.elim hstays List.not_mem_nil
    · rw [storedSize_without h] at hfits
      exact .inl hfits

theorem doGc_fst (s : FileStorer) (limit : Nat) :
    (s.doGc limit).1 = { dataSet := s.dataSet, disk := (s.doGc limit).1.disk } := by
  rw [← doGc_dataSet s limit]

/-- What a collection has left, it leaves. -/
theorem doGc_of_reclaimed {disk' : Disk} {limit : Nat} {d' : DataSet}
    (hreclaimed : disk.Reclaimed disk' limit created) (h : d'.Indexes disk' created) :
    FileStorer.doGc { dataSet := d', disk := disk' } limit
      = ({ dataSet := d', disk := disk' }, .ok ()) := by
  obtain ⟨deleted, kept, hsplit, hrun, -, hgoes⟩ :=
    doGc_eq (s := { dataSet := d', disk := disk' }) limit h.allExist h.nodup
  have hnone : deleted = [] := by
    rcases hreclaimed.fits with hfits | hlast
    · by_contra hne
      have hlt : limit < (FileStorer.without { dataSet := d', disk := disk' } []).storedSize :=
        hgoes [] deleted rfl hne
      rw [storedSize_without h] at hlt
      exact absurd hfits (Nat.not_le.2 hlt)
    · refine List.eq_nil_iff_forall_not_mem.2 fun file hfile => ?_
      have hmay := h.mem_filesToDelete_iff.1 (List.mem_map_of_mem (f := Prod.fst)
        (show file ∈ d'.filesToDelete from hsplit ▸ List.mem_append_left _ hfile))
      exact hmay.2 (hlast _ hmay.1)
  rw [hrun, hnone]
  rfl

/-- After a restart a collection cannot fail, whatever was called before it. What
it leaves of the directory fits the limit or is the last segments, which all stay;
the oldest files go first, and no more of them than have to; and after another
restart it finds nothing to delete. -/
theorem restart_reclaims {maxSize : Nat} {disk₀ : Disk} {calls : List StoreCall} {t : FileStorer}
    (hmade : ∀ path ∈ disk₀, path.Made)
    (hrun : Steps (FileStorer.step maxSize) (fun _ c => c.Valid) (.new disk₀) calls t)
    {listing : Listing} (hlisting : listing.Enumerates t.disk) (created : Path → Nat)
    (limit : Nat) : ∃ disk',
    FileStorer.doGc { t with dataSet := .scanFromDir t.disk created listing } limit
        = ({ dataSet := .scanFromDir t.disk created listing, disk := disk' }, .ok ()) ∧
      t.disk.Reclaimed disk' limit created ∧
      ∀ listing' : Listing, listing'.Enumerates disk' →
        FileStorer.doGc { dataSet := .scanFromDir disk' created listing', disk := disk' } limit
          = ({ dataSet := .scanFromDir disk' created listing', disk := disk' }, .ok ()) := by
  have hthere : ∀ path ∈ t.disk, path.Made :=
    hrun.invariant (fun _ _ _ hs hvalid hstep => made_step hs hvalid hstep) hmade
  obtain ⟨hok, hreclaimed⟩ := doGc_reclaims (indexes_scanFromDir hthere hlisting created) limit
  refine ⟨_, Prod.ext (doGc_fst _ limit) hok, hreclaimed, fun listing' hlisting' => ?_⟩
  have hleft := fun path hpath => hthere path (hreclaimed.kept path hpath).1
  exact doGc_of_reclaimed hreclaimed (indexes_scanFromDir hleft hlisting' created)

theorem restart_reclaims_someStored : ∃ disk',
    FileStorer.doGc
        { someStored with dataSet := .scanFromDir someStored.disk (fun _ => 0) someListing } 2
      = ({ dataSet := .scanFromDir someStored.disk (fun _ => 0) someListing, disk := disk' },
          .ok ()) := by
  obtain ⟨disk', hrun, -⟩ :=
    restart_reclaims (by simp) steps_someStoreCalls enumerates_someListing (fun _ => 0) 2
  exact ⟨disk', hrun⟩

end RedisHaTool.Store
