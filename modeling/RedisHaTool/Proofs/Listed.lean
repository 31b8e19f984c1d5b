import RedisHaTool.Store.Gc

/-!
# What the data set lists is there

A writer's file is made before it is listed, and a scan lists what it finds.
What `do_gc` deletes stays listed until the next scan, so from the first file it
deletes on the data set names files that are gone, and the totals, which ask
every listed file for its length, fail. Where it has nothing to delete the data
set names files that are there, in every state there is.
-/

namespace RedisHaTool.Store

open Lib

variable {s t : FileStorer} {maxSize : Nat}

/-! ## Listing more -/

theorem mem_create {disk : Disk} {path p : Path} (h : p ∈ disk) : p ∈ disk.create path :=
  (AList.mem_insert _).2 (.inr h)

theorem mem_create_self (disk : Disk) (path : Path) : path ∈ disk.create path :=
  (AList.mem_insert _).2 (.inl rfl)

theorem FileStorer.AllExist.getRdbWriter (h : s.AllExist) (runId : Text) (offset size : Int)
    (now : Nat) :
    (s.getRdbWriter runId offset size now).1.AllExist := by
  refine ⟨fun id rdb hrdb => ?_, fun id aof haof => mem_create (h.2 id aof haof)⟩
  rcases mem_listed_pushSorted.1 hrdb with hrdb | ⟨-, rfl⟩
  · exact mem_create (h.1 id rdb hrdb)
  · exact mem_create_self _ _

theorem FileStorer.AllExist.getAofWriter (h : s.AllExist) (runId : Text) (offset : Int)
    (now : Nat) :
    (s.getAofWriter runId offset now).1.AllExist := by
  refine ⟨fun id rdb hrdb => mem_create (h.1 id rdb hrdb), fun id aof haof => ?_⟩
  rcases mem_listed_pushSorted.1 haof with haof | ⟨-, rfl⟩
  · exact mem_create (h.2 id aof haof)
  · exact mem_create_self _ _

/-! ## Scanning -/

theorem mem_disk_of_rdb {disk : Disk} {created : Path → Nat} {path : Path} {rdb : DataSetRdb}
    (h : DataSetRdb.fromPathSync disk created path = .ok rdb) : rdb.path ∈ disk := by
  rw [DataSetRdb.fromPathSync] at h
  split at h
  · cases h
  · split at h
    · split at h
      · cases h
      · split at h
        · cases h
        · split at h
          · next hmem =>
              obtain rfl := Except.ok.inj h
              exact hmem
          · cases h
    · cases h

theorem mem_disk_of_aof {disk : Disk} {created : Path → Nat} {path : Path} {aof : DataSetAof}
    (h : DataSetAof.fromPathSync disk created path = .ok aof) : aof.path ∈ disk := by
  simp only [DataSetAof.fromPathSync] at h
  split at h
  · cases h
  · split at h
    · cases h
    · split at h
      · next hmem =>
          obtain rfl := Except.ok.inj h
          exact hmem
      · cases h

theorem mem_scanFiles {α : Type} {ext : Text} {fromPath : Path → Except SyncError α}
    {files : List Path} {x : α} (h : x ∈ scanFiles ext fromPath files) :
    ∃ path ∈ files, fromPath path = .ok x := by
  obtain ⟨path, hpath, hx⟩ := List.mem_filterMap.1 h
  refine ⟨path, hpath, ?_⟩
  split at hx
  · cases hfrom : fromPath path with
    | ok y =>
        rw [hfrom] at hx
        obtain rfl := Option.some.inj hx
        rfl
    | error e =>
        rw [hfrom] at hx
        cases hx
  · cases hx

theorem mem_listed_insert {α : Type} {m : TextMap (List α)} {runId other : Text}
    {l : List α} {x : α} (h : x ∈ listed (m.insert runId l) other) :
    x ∈ l ∨ x ∈ listed m other := by
  by_cases heq : other = runId
  · subst heq
    rw [listed, AList.lookup_insert] at h
    exact .inl h
  · rw [listed, AList.lookup_insert_ne heq] at h
    exact .inr h

theorem allExist_new (disk : Disk) : (FileStorer.new disk).AllExist := by
  constructor
  · intro runId rdb h
    cases h
  · intro runId aof h
    cases h

/-- A scan lists what is there. -/
theorem allExist_scanFromDir (disk : Disk) (created : Path → Nat) (listing : Listing) :
    FileStorer.AllExist { dataSet := .scanFromDir disk created listing, disk } := by
  have hall : ∀ d : DataSet, FileStorer.AllExist { dataSet := d, disk } →
      FileStorer.AllExist { dataSet := listing.foldl (fun dataset entry =>
        { rdbFiles := dataset.rdbFiles.insert entry.1
            ((scanFiles ".rdb".toList (DataSetRdb.fromPathSync disk created)
              entry.2).insertionSort fun a b => a.offset ≤ b.offset)
          aofSegments := dataset.aofSegments.insert entry.1
            ((scanFiles ".aof".toList (DataSetAof.fromPathSync disk created)
              entry.2).insertionSort fun a b => a.offset ≤ b.offset) }) d, disk } := by
    induction listing with
    | nil => exact fun _ h => h
    | cons entry listing ih =>
        intro d h
        refine ih _ ⟨fun runId rdb hrdb => ?_, fun runId aof haof => ?_⟩
        · rcases mem_listed_insert hrdb with hrdb | hrdb
          · obtain ⟨path, -, hpath⟩ := mem_scanFiles ((List.mem_insertionSort _).1 hrdb)
            exact mem_disk_of_rdb hpath
          · exact h.1 runId rdb hrdb
        · rcases mem_listed_insert haof with haof | haof
          · obtain ⟨path, -, hpath⟩ := mem_scanFiles ((List.mem_insertionSort _).1 haof)
            exact mem_disk_of_aof hpath
          · exact h.2 runId aof haof
  exact hall .new (allExist_new disk)

/-! ## Collecting -/

theorem fileSizes_eq {disk : Disk} {paths : List Path} (h : ∀ path ∈ paths, path ∈ disk) :
    fileSizes disk paths = .ok (paths.map fun path => (disk.contents path).length).sum := by
  induction paths with
  | nil => rfl
  | cons path paths ih =>
      rw [fileSizes, if_pos (h path List.mem_cons_self),
        ih fun p hp => h p (List.mem_cons_of_mem path hp), List.map_cons, List.sum_cons]
      rfl

theorem mem_allListed {α : Type} {m : TextMap (List α)} {x : α} :
    x ∈ allListed m ↔ ∃ runId, x ∈ listed m runId := by
  rw [allListed, List.mem_flatMap]
  constructor
  · intro hmem
    obtain ⟨⟨runId, l⟩, hentry, hx⟩ := hmem
    refine ⟨runId, ?_⟩
    rw [listed, AList.mem_lookup_iff.2 hentry]
    exact hx
  · intro hmem
    obtain ⟨runId, hx⟩ := hmem
    rw [listed] at hx
    cases hl : m.lookup runId with
    | none =>
        rw [hl] at hx
        cases hx
    | some l =>
        rw [hl] at hx
        exact ⟨⟨runId, l⟩, AList.mem_lookup_iff.1 hl, hx⟩

/-- With all listed files there, the totals can be had. -/
theorem FileStorer.AllExist.currentSize (h : s.AllExist) :
    s.currentSize = .ok s.storedSize := by
  have hrdb : ∀ path ∈ (allListed s.dataSet.rdbFiles).map DataSetRdb.path, path ∈ s.disk := by
    intro path hpath
    obtain ⟨rdb, hmem, rfl⟩ := List.mem_map.1 hpath
    obtain ⟨runId, hlisted⟩ := mem_allListed.1 hmem
    exact h.1 runId rdb hlisted
  have haof : ∀ path ∈ (allListed s.dataSet.aofSegments).map DataSetAof.path,
      path ∈ s.disk := by
    intro path hpath
    obtain ⟨aof, hmem, rfl⟩ := List.mem_map.1 hpath
    obtain ⟨runId, hlisted⟩ := mem_allListed.1 hmem
    exact h.2 runId aof hlisted
  rw [FileStorer.currentSize, FileStorer.totalRdbSize, FileStorer.totalAofSize,
    fileSizes_eq hrdb, fileSizes_eq haof, FileStorer.storedSize, DataSet.listedPaths,
    List.map_append, List.sum_append]
  rfl

/-- A path of a file the data set lists. -/
def DataSet.Lists (d : DataSet) (path : Path) : Prop :=
  (∃ runId, ∃ rdb ∈ listed d.rdbFiles runId, rdb.path = path) ∨
    ∃ runId, ∃ aof ∈ listed d.aofSegments runId, aof.path = path

theorem FileStorer.AllExist.mem (h : s.AllExist) {path : Path} (hpath : s.dataSet.Lists path) :
    path ∈ s.disk := by
  rcases hpath with ⟨runId, rdb, hrdb, rfl⟩ | ⟨runId, aof, haof, rfl⟩
  · exact h.1 runId rdb hrdb
  · exact h.2 runId aof haof

theorem lists_of_mem_filesToDelete {d : DataSet} {file : Path × Nat}
    (h : file ∈ d.filesToDelete) : d.Lists file.1 := by
  obtain ⟨runId, -, hfile⟩ := List.mem_flatMap.1 ((List.mem_insertionSort _).1 h)
  rcases List.mem_append.1 hfile with hrdb | haof
  · obtain ⟨rdb, hmem, rfl⟩ := List.mem_map.1 hrdb
    exact .inl ⟨runId, rdb, hmem, rfl⟩
  · obtain ⟨aof, hmem, rfl⟩ := List.mem_map.1 haof
    exact .inr ⟨runId, aof, (List.dropLast_sublist _).subset hmem, rfl⟩

/-- What is deleted does not come back. -/
theorem mem_of_mem_deleteFiles {target : Nat} {files : List (Path × Nat)} {deleted : Nat}
    {disk : Disk} {path : Path} (h : path ∈ (deleteFiles target files deleted disk).1) :
    path ∈ disk := by
  induction files generalizing deleted disk with
  | nil => exact h
  | cons file files ih =>
      rw [deleteFiles] at h
      split at h
      · exact h
      · split at h
        · exact (AList.mem_erase.1 (ih h)).2
        · exact h

/-- A collection that has something to delete unlists nothing of it. -/
theorem allExist_doGc_iff (h : s.AllExist) :
    (s.doGc maxSize).1.AllExist ↔ s.NothingToDelete maxSize := by
  have hn := h.currentSize
  rw [FileStorer.doGc, hn]
  constructor
  · intro hexist
    by_contra hno
    rw [FileStorer.NothingToDelete, not_or] at hno
    obtain ⟨hbig, hfiles⟩ := hno
    have hlarge : ¬ s.storedSize ≤ maxSize := by
      intro hle
      refine hbig fun m hm => ?_
      obtain rfl := Except.ok.inj (hn.symm.trans hm)
      exact hle
    -- The first file is there, is deleted, and is still listed.
    obtain ⟨file, files, hcons⟩ := List.exists_cons_of_ne_nil hfiles
    have hlists : s.dataSet.Lists file.1 :=
      lists_of_mem_filesToDelete (hcons ▸ List.mem_cons_self)
    have hgone : file.1 ∉ (deleteFiles (s.storedSize - maxSize) s.dataSet.filesToDelete 0
        s.disk).1 := by
      rw [hcons, deleteFiles, if_neg (by omega), if_pos (h.mem hlists)]
      intro hback
      exact (AList.mem_erase.1 (mem_of_mem_deleteFiles hback)).1 rfl
    simp only [if_neg hlarge] at hexist
    exact hgone (hexist.mem hlists)
  · rintro (hfit | hfiles)
    · simp only [if_pos (hfit _ hn)]
      exact h
    · simp only [hfiles, deleteFiles]
      split
      · exact h
      · exact h

/-- Nor does it fail. -/
theorem doGc_ok (h : s.AllExist) (hno : s.NothingToDelete maxSize) :
    (s.doGc maxSize).2 = .ok () := by
  have hn := h.currentSize
  rw [FileStorer.doGc, hn]
  rcases hno with hfit | hfiles
  · simp only [if_pos (hfit _ hn)]
  · simp only [hfiles, deleteFiles]
    split
    · rfl
    · rfl

/-! ## Every run -/

/-- What a call leaves behind, one case for each. -/
inductive FileStorer.Becomes (maxSize : Nat) (s : FileStorer) : StoreCall → FileStorer → Prop where
  | getRdbWriter (runId : Text) (offset size : Int) (now : Nat) :
      Becomes maxSize s (.getRdbWriter runId offset size now)
        (s.getRdbWriter runId offset size now).1
  | getAofWriter (runId : Text) (offset : Int) (now : Nat) :
      Becomes maxSize s (.getAofWriter runId offset now) (s.getAofWriter runId offset now).1
  | initDataSet (listing : Listing) (created : Path → Nat) :
      Becomes maxSize s (.initDataSet listing created)
        { s with dataSet := .scanFromDir s.disk created listing }
  | gcDataSet : Becomes maxSize s .gcDataSet (s.doGc maxSize).1
  | failed : Becomes maxSize s .failed s
  | write (path : Path) (bs : Bytes) :
      Becomes maxSize s (.write path bs) { s with disk := s.disk.append path bs }
  | rotate (path : Path) : Becomes maxSize s (.rotate path) { s with disk := s.disk.create path }

theorem becomes_of_step {c : StoreCall} (hstep : s.step maxSize c = some t) :
    s.Becomes maxSize c t := by
  obtain ⟨⟨t', result⟩, hcall, rfl⟩ := Option.map_eq_some_iff.1 hstep
  cases c with
  | getRdbWriter runId offset size now =>
      obtain ⟨rfl, -⟩ := Prod.mk.inj (Option.some.inj hcall)
      exact .getRdbWriter runId offset size now
  | getAofWriter runId offset now =>
      obtain ⟨rfl, -⟩ := Prod.mk.inj (Option.some.inj hcall)
      exact .getAofWriter runId offset now
  | initDataSet listing created =>
      rw [FileStorer.call] at hcall
      split at hcall
      · obtain ⟨rfl, -⟩ := Prod.mk.inj (Option.some.inj hcall)
        exact .initDataSet listing created
      · cases hcall
  | gcDataSet =>
      have hgc : s.doGc maxSize = (t', result) := Option.some.inj hcall
      have hbecomes := @FileStorer.Becomes.gcDataSet maxSize s
      rwa [hgc] at hbecomes
  | failed =>
      obtain ⟨rfl, -⟩ := Prod.mk.inj (Option.some.inj hcall)
      exact .failed
  | write path bs =>
      rw [FileStorer.call] at hcall
      split at hcall
      · obtain ⟨rfl, -⟩ := Prod.mk.inj (Option.some.inj hcall)
        exact .write path bs
      · cases hcall
  | rotate path =>
      obtain ⟨rfl, -⟩ := Prod.mk.inj (Option.some.inj hcall)
      exact .rotate path

theorem FileStorer.AllExist.step (h : s.AllExist) {c : StoreCall}
    (hC : s.DeletesNothing maxSize c) (hstep : s.step maxSize c = some t) : t.AllExist := by
  cases becomes_of_step hstep with
  | getRdbWriter runId offset size now => exact h.getRdbWriter runId offset size now
  | getAofWriter runId offset now => exact h.getAofWriter runId offset now
  | initDataSet listing created => exact allExist_scanFromDir s.disk created listing
  | gcDataSet => exact (allExist_doGc_iff h).2 hC
  | failed => exact h
  | write path bs =>
      exact ⟨fun id rdb hrdb => mem_append (h.1 id rdb hrdb),
        fun id aof haof => mem_append (h.2 id aof haof)⟩
  | rotate path =>
      exact ⟨fun id rdb hrdb => mem_create (h.1 id rdb hrdb),
        fun id aof haof => mem_create (h.2 id aof haof)⟩

/-- With all listed files there, what a lookup finds can be opened. -/
theorem FileStorer.AllExist.readerOf (h : s.AllExist) (offset : Int) (runId : Text)
    (e : SyncError) : s.readerOf offset runId ≠ some (.error e) := by
  intro hr
  rw [FileStorer.readerOf] at hr
  cases hrdb : s.dataSet.findRdb runId offset with
  | some rdb =>
      have hmem := h.1 runId rdb (findRdb_eq_some hrdb).1
      simp only [hrdb, RdbReader.open, if_pos hmem] at hr
      cases hr
  | none =>
      rw [hrdb] at hr
      obtain ⟨aof, haof, hopen⟩ := Option.map_eq_some_iff.1 hr
      obtain ⟨hlisted, hle⟩ := findAof_eq_some haof
      have hcan : aof.path ∈ s.disk ∧ 0 ≤ offset - aof.offset :=
        ⟨h.2 runId aof hlisted, by omega⟩
      rw [AofReader.open, if_pos hcan] at hopen
      cases hopen

theorem FileStorer.AllExist.getReader (h : s.AllExist) (offset : Int) (kind : IoErrorKind) :
    s.getReader offset ≠ .error (.io kind) := by
  intro hr
  rw [FileStorer.getReader] at hr
  cases hfind : s.dataSet.runIds.findSome? (s.readerOf offset) with
  | none =>
      rw [hfind] at hr
      cases hr
  | some answer =>
      rw [hfind, Option.getD_some] at hr
      subst hr
      obtain ⟨runId, -, hrunId⟩ := List.exists_of_findSome?_eq_some hfind
      exact h.readerOf offset runId _ hrunId

/-- Where no collection deletes anything, every file the data set lists is there
after every call, and neither a lookup nor a collection fails for want of
one. -/
theorem allExist_of_deletesNothing {disk : Disk} {calls : List StoreCall}
    (hrun : Steps (FileStorer.step maxSize) (FileStorer.DeletesNothing maxSize) (.new disk)
      calls t) :
    t.AllExist ∧ (∀ offset kind, t.getReader offset ≠ .error (.io kind)) ∧
      (t.NothingToDelete maxSize → (t.doGc maxSize).2 = .ok ()) := by
  have h : t.AllExist :=
    hrun.invariant (fun _ _ _ hs hC hstep => hs.step hC hstep) (allExist_new disk)
  exact ⟨h, h.getReader, doGc_ok h⟩

/-- An RDB file of five bytes. -/
def fiveBytes : FileStorer :=
  let path : Path := { runId := "a".toList, name := rdbFileName 0 5 }
  { dataSet := DataSet.new.addRdb "a".toList { path, offset := 0, size := 5, createdAt := 0 }
    disk := (Disk.create ∅ path).append path [1, 2, 3, 4, 5] }

theorem fiveBytes_of_calls (C : FileStorer → StoreCall → Prop)
    (hrdb : C (.new ∅) (.getRdbWriter "a".toList 0 5 0))
    (hwrite : ∀ s path bs, C s (.write path bs)) (maxSize : Nat) :
    Steps (FileStorer.step maxSize) C (.new ∅)
      [.getRdbWriter "a".toList 0 5 0,
       .write { runId := "a".toList, name := rdbFileName 0 5 } [1, 2, 3, 4, 5]] fiveBytes := by
  refine .cons hrdb rfl (.cons (hwrite _ _ _) ?_ (.refl _))
  rfl

theorem fiveBytes_size : fiveBytes.currentSize = .ok 5 := by rfl

theorem nothingToDelete_fiveBytes : fiveBytes.NothingToDelete 5 := by
  refine .inl fun n hn => ?_
  obtain rfl := Except.ok.inj (fiveBytes_size.symm.trans hn)
  exact Nat.le_refl 5

/-- A collection that finds the store no larger than it may be. -/
theorem allExist_of_deletesNothing_fiveBytes : fiveBytes.AllExist := by
  have hgc : Steps (FileStorer.step 5) (FileStorer.DeletesNothing 5) fiveBytes [.gcDataSet]
      fiveBytes := .cons nothingToDelete_fiveBytes rfl (.refl _)
  have hcalls := fiveBytes_of_calls (FileStorer.DeletesNothing 5) trivial (fun _ _ _ => trivial) 5
  exact (allExist_of_deletesNothing (hcalls.append hgc)).1

/-- A collection that deletes the file ends well, and the file stays listed. -/
theorem not_allExist :
    ¬ ∀ (maxSize : Nat) (disk : Disk) (calls : List StoreCall) (s : FileStorer) (c : StoreCall)
      (t : FileStorer), Steps (FileStorer.step maxSize) Free (.new disk) calls s →
      s.call maxSize c = some (t, .ok ()) → t.AllExist := by
  intro h
  have hexist := h 4 ∅ _ fiveBytes .gcDataSet { fiveBytes with disk := ∅ }
    (fiveBytes_of_calls Free trivial (fun _ _ _ => trivial) 4) rfl
  let file : DataSetRdb :=
    { path := { runId := "a".toList, name := rdbFileName 0 5 }
      offset := 0
      size := 5
      createdAt := 0 }
  have hlisted : file ∈ listed fiveBytes.dataSet.rdbFiles "a".toList :=
    mem_listed_pushSorted.2 (.inr ⟨rfl, rfl⟩)
  have hmem := hexist.1 _ _ hlisted
  cases hmem

end RedisHaTool.Store
