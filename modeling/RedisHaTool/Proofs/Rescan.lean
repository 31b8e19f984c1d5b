import RedisHaTool.Proofs.Collecting
import RedisHaTool.Proofs.Rotation

/-!
# A directory scanned again

Every file the storer or one of its writers makes has a name that is read back as
what it was made from, and an RDB file's name is never a segment's. So in a
directory that nothing else has written to, a scan lists each file once, under
its run and with the offsets it was made for, whatever came before: calls that
listed a file twice, or deleted one and left it listed. In which order the
directory is read is seen only between RDB files that start at one offset.
-/

namespace RedisHaTool.Store

open Lib

/-! ## Names -/

/-- The path of the RDB file with this offset and size. -/
def rdbPath (runId : Text) (offset size : Int) : Path :=
  { runId, name := rdbFileName offset size }

theorem getLast?_of_endsWith {t suffix : Text} {c : Char} (hlast : suffix.getLast? = some c)
    (h : endsWith t suffix = true) : t.getLast? = some c := by
  obtain ⟨u, rfl⟩ := List.isSuffixOf_iff_suffix.1 h
  rw [List.getLast?_append, hlast]
  rfl

/-- A numeral is digits, after a sign perhaps. -/
theorem intToString_eq_append (i : Int) :
    ∃ sign n, intToString i = sign ++ natToString n ∧ ∀ c ∈ sign, c = '-' := by
  cases i with
  | ofNat n => exact ⟨[], n, rfl, by simp⟩
  | negSucc n => exact ⟨['-'], n + 1, rfl, by simp⟩

theorem getLast?_append_intToString (t : Text) (i : Int) :
    ∃ c, (t ++ intToString i).getLast? = some c ∧ c.isDigit = true := by
  obtain ⟨sign, n, hi, -⟩ := intToString_eq_append i
  obtain ⟨c, hc⟩ := Option.isSome_iff_exists.1
    (List.getLast?_isSome.2 (natToString_ne_nil n))
  refine ⟨c, ?_, isDigit_of_mem_natToString (List.mem_of_getLast? hc)⟩
  rw [hi, ← List.append_assoc, List.getLast?_append_of_ne_nil _ (natToString_ne_nil n), hc]

/-- What ends with a numeral does not end with an extension. -/
theorem endsWith_append_intToString (t : Text) (i : Int) {suffix : Text} {c : Char}
    (hlast : suffix.getLast? = some c) (hc : c.isDigit = false) :
    endsWith (t ++ intToString i) suffix = false := by
  obtain ⟨d, hd, hdigit⟩ := getLast?_append_intToString t i
  rw [Bool.eq_false_iff]
  intro h
  obtain rfl := Option.some.inj (hd.symm.trans (getLast?_of_endsWith hlast h))
  rw [hc] at hdigit
  cases hdigit

theorem underscore_not_mem_intToString (i : Int) : '_' ∉ intToString i := by
  obtain ⟨sign, n, hi, hsign⟩ := intToString_eq_append i
  rw [hi, List.mem_append]
  rintro (h | h)
  · exact absurd (hsign _ h) (by decide)
  · exact absurd (isDigit_of_mem_natToString h) (by decide)

theorem rdbFileName_eq (offset size : Int) :
    rdbFileName offset size = intToString offset ++ '_' :: intToString size ++ ".rdb".toList := rfl

theorem endsWith_rdbFileName (offset size : Int) :
    endsWith (rdbFileName offset size) ".rdb".toList = true := endsWith_append _ _

theorem endsWith_aofFileName (offset : Int) :
    endsWith (aofFileName offset) ".aof".toList = true := endsWith_append _ _

/-- The two extensions end with different letters. -/
theorem not_endsWith_aof (offset size : Int) :
    endsWith (rdbFileName offset size) ".aof".toList = false := by
  rw [Bool.eq_false_iff]
  intro h
  have haof := getLast?_of_endsWith (c := 'f') rfl h
  have hrdb := getLast?_of_endsWith (c := 'b') rfl (endsWith_rdbFileName offset size)
  rw [haof] at hrdb
  exact absurd hrdb (by decide)

theorem not_endsWith_rdb (offset : Int) :
    endsWith (aofFileName offset) ".rdb".toList = false := by
  rw [Bool.eq_false_iff]
  intro h
  have hrdb := getLast?_of_endsWith (c := 'b') rfl h
  have haof := getLast?_of_endsWith (c := 'f') rfl (endsWith_aofFileName offset)
  rw [haof] at hrdb
  exact absurd hrdb (by decide)

/-- The name of an RDB file comes apart into its two numbers. -/
theorem splitOn_rdbFileName (offset size : Int) :
    (trimEndMatches (rdbFileName offset size) ".rdb".toList).splitOn '_'
      = [intToString offset, intToString size] := by
  have hends : endsWith (intToString offset ++ '_' :: intToString size) ".rdb".toList = false := by
    have h : endsWith (intToString offset ++ ['_'] ++ intToString size) ".rdb".toList = false :=
      endsWith_append_intToString _ size (c := 'b') rfl rfl
    rwa [List.append_assoc, List.singleton_append] at h
  rw [rdbFileName_eq, trimEndMatches_append (by decide) hends,
    List.splitOn_append_cons_self_of_not_mem (underscore_not_mem_intToString offset),
    List.splitOn_eq_singleton (underscore_not_mem_intToString size)]

variable {disk : Disk} {created : Path → Nat}

theorem fromPathSync_rdbFileName {runId : Text} {offset size : Int} (hoffset : IsI64 offset)
    (hsize : IsI64 size) (hmem : rdbPath runId offset size ∈ disk) (created : Path → Nat) :
    DataSetRdb.fromPathSync disk created (rdbPath runId offset size)
      = .ok { path := rdbPath runId offset size, offset, size,
              createdAt := created (rdbPath runId offset size) } := by
  have hends : endsWith (rdbPath runId offset size).name ".rdb".toList = true :=
    endsWith_rdbFileName offset size
  have hsplit : (trimEndMatches (rdbPath runId offset size).name ".rdb".toList).splitOn '_'
      = [intToString offset, intToString size] := splitOn_rdbFileName offset size
  simp only [DataSetRdb.fromPathSync, hends, hsplit, parseI64_intToString hoffset,
    parseI64_intToString hsize, if_pos hmem]
  rfl

/-- A run id that is the name of a directory below the base directory. -/
def IsRunId (runId : Text) : Prop :=
  runId ≠ [] ∧ '/' ∉ runId ∧ runId ≠ ".".toList ∧ runId ≠ "..".toList

instance : DecidablePred IsRunId := fun _ => inferInstanceAs (Decidable (_ ∧ _ ∧ _ ∧ _))

/-- The path of a file that the storer or one of its writers makes. -/
inductive Path.Made : Path → Prop where
  | rdb {runId : Text} {offset size : Int} (hrun : IsRunId runId) (hoffset : IsI64 offset)
      (hsize : IsI64 size) : Made (rdbPath runId offset size)
  | aof {runId : Text} {offset : Int} (hrun : IsRunId runId) (hoffset : IsI64 offset) :
      Made (segmentPath runId offset)

/-! ## One directory -/

theorem fromPathSync_segmentPath {runId : Text} {offset : Int} (hoffset : IsI64 offset)
    (hmem : segmentPath runId offset ∈ disk) (created : Path → Nat) :
    DataSetAof.fromPathSync disk created (segmentPath runId offset)
      = .ok { path := segmentPath runId offset, offset,
              createdAt := created (segmentPath runId offset) } :=
  fromPathSync_aofFileName hoffset hmem created

/-- What a scan lists of one directory is its files with the extension, as long
as each of them can be read. -/
theorem map_path_scanFiles {α : Type} {ext : Text} {fromPath : Path → Except SyncError α}
    {pathOf : α → Path} {files : List Path}
    (h : ∀ p ∈ files, endsWith p.name ext = true → ∃ x, fromPath p = .ok x ∧ pathOf x = p) :
    (scanFiles ext fromPath files).map pathOf = files.filter fun p => endsWith p.name ext := by
  induction files with
  | nil => rfl
  | cons p files ih =>
      have hrest := ih fun q hq => h q (List.mem_cons_of_mem p hq)
      rw [scanFiles] at hrest ⊢
      by_cases hext : endsWith p.name ext = true
      · obtain ⟨x, hx, hpath⟩ := h p List.mem_cons_self hext
        have hread : (fromPath p).toOption = some x := by rw [hx]; rfl
        rw [List.filter_cons_of_pos (p := fun p : Path => endsWith p.name ext) hext,
          List.filterMap_cons_some (b := x) (by rw [if_pos hext, hread]), List.map_cons, hpath,
          hrest]
      · rw [List.filter_cons_of_neg (p := fun p : Path => endsWith p.name ext) hext,
          List.filterMap_cons_none (by rw [if_neg hext]), hrest]

theorem path_of_rdbFromPathSync {path : Path} {rdb : DataSetRdb}
    (h : DataSetRdb.fromPathSync disk created path = .ok rdb) :
    rdb.path = path ∧ rdb.createdAt = created path := by
  rw [DataSetRdb.fromPathSync] at h
  split at h
  · cases h
  · split at h
    · split at h
      · cases h
      · split at h
        · cases h
        · split at h
          · obtain rfl := Except.ok.inj h
            exact ⟨rfl, rfl⟩
          · cases h
    · cases h

theorem path_of_aofFromPathSync {path : Path} {aof : DataSetAof}
    (h : DataSetAof.fromPathSync disk created path = .ok aof) :
    aof.path = path ∧ aof.createdAt = created path := by
  simp only [DataSetAof.fromPathSync] at h
  split at h
  · cases h
  · split at h
    · cases h
    · split at h
      · obtain rfl := Except.ok.inj h
        exact ⟨rfl, rfl⟩
      · cases h

section Directory

variable {files : List Path} (hmade : ∀ p ∈ files, p.Made)
include hmade

theorem map_path_scanRdb (hdisk : ∀ p ∈ files, p ∈ disk) :
    (scanFiles ".rdb".toList (DataSetRdb.fromPathSync disk created) files).map DataSetRdb.path
      = files.filter fun p => endsWith p.name ".rdb".toList := by
  refine map_path_scanFiles fun p hp hext => ?_
  cases hmade p hp with
  | rdb hrun hoffset hsize =>
      exact ⟨_, fromPathSync_rdbFileName hoffset hsize (hdisk _ hp) created, rfl⟩
  | @aof runId offset hrun hoffset =>
      exact absurd hext (by rw [segmentPath, not_endsWith_rdb]; simp)

theorem map_path_scanAof (hdisk : ∀ p ∈ files, p ∈ disk) :
    (scanFiles ".aof".toList (DataSetAof.fromPathSync disk created) files).map DataSetAof.path
      = files.filter fun p => !endsWith p.name ".rdb".toList := by
  have hother : files.filter (fun p => !endsWith p.name ".rdb".toList)
      = files.filter fun p => endsWith p.name ".aof".toList := by
    refine List.filter_congr fun p hp => ?_
    cases hmade p hp with
    | @rdb runId offset size _ _ _ =>
        rw [rdbPath, endsWith_rdbFileName, not_endsWith_aof]
        rfl
    | @aof runId offset _ _ =>
        rw [segmentPath, endsWith_aofFileName, not_endsWith_rdb]
        rfl
  rw [hother]
  refine map_path_scanFiles fun p hp hext => ?_
  cases hmade p hp with
  | @rdb runId offset size _ _ _ => exact absurd hext (by rw [rdbPath, not_endsWith_aof]; simp)
  | aof hrun hoffset => exact ⟨_, fromPathSync_segmentPath hoffset (hdisk _ hp) created, rfl⟩

/-- An RDB file is listed with the numbers its name is made of. -/
theorem path_of_mem_scanRdb {rdb : DataSetRdb}
    (h : rdb ∈ scanFiles ".rdb".toList (DataSetRdb.fromPathSync disk created) files) :
    rdb.path ∈ files ∧ rdb.createdAt = created rdb.path ∧
      rdb.path = rdbPath rdb.path.runId rdb.offset rdb.size := by
  obtain ⟨p, hp, hread⟩ := mem_scanFiles h
  obtain ⟨rfl, hcreated⟩ := path_of_rdbFromPathSync hread
  refine ⟨hp, hcreated, ?_⟩
  have hmem := mem_disk_of_rdb hread
  generalize hpath : rdb.path = path at hp hread hmem
  cases hmade path hp with
  | rdb hrun hoffset hsize =>
      rw [fromPathSync_rdbFileName hoffset hsize hmem created] at hread
      obtain rfl := Except.ok.inj hread
      rfl
  | @aof runId offset hrun hoffset =>
      rw [DataSetRdb.fromPathSync, segmentPath, not_endsWith_rdb] at hread
      cases hread

theorem path_of_mem_scanAof {aof : DataSetAof}
    (h : aof ∈ scanFiles ".aof".toList (DataSetAof.fromPathSync disk created) files) :
    aof.path ∈ files ∧ aof.createdAt = created aof.path ∧
      aof.path = segmentPath aof.path.runId aof.offset := by
  obtain ⟨p, hp, hread⟩ := mem_scanFiles h
  obtain ⟨rfl, hcreated⟩ := path_of_aofFromPathSync hread
  refine ⟨hp, hcreated, ?_⟩
  have hmem := mem_disk_of_aof hread
  generalize hpath : aof.path = path at hp hread hmem
  cases hmade path hp with
  | @rdb runId offset size hrun hoffset hsize =>
      rw [DataSetAof.fromPathSync, rdbPath, not_endsWith_aof] at hread
      cases hread
  | aof hrun hoffset =>
      rw [fromPathSync_segmentPath hoffset hmem created] at hread
      obtain rfl := Except.ok.inj hread
      rfl

end Directory

/-! ## All directories -/

/-- What `read_dir` answers is what is there, each directory and each file
once. -/
structure Listing.Enumerates (listing : Listing) (disk : Disk) : Prop where
  isOf : listing.isOf disk = true
  dirs : (listing.map Prod.fst).Nodup
  files : ∀ entry ∈ listing, entry.2.Nodup

theorem Listing.Enumerates.mem_disk {listing : Listing} (h : listing.Enumerates disk)
    {entry : Text × List Path} (hentry : entry ∈ listing) {path : Path} (hpath : path ∈ entry.2) :
    path ∈ disk ∧ path.runId = entry.1 := by
  have hisOf := h.isOf
  simp only [Listing.isOf, Bool.and_eq_true, List.all_eq_true, decide_eq_true_eq] at hisOf
  exact hisOf.1 entry hentry path hpath

theorem Listing.Enumerates.exists_mem {listing : Listing} (h : listing.Enumerates disk)
    {path : Path} (hpath : path ∈ disk) :
    ∃ entry ∈ listing, entry.1 = path.runId ∧ path ∈ entry.2 := by
  have hisOf := h.isOf
  simp only [Listing.isOf, Bool.and_eq_true, List.all_eq_true, List.any_eq_true,
    decide_eq_true_eq] at hisOf
  exact hisOf.2 path (AList.mem_keys.1 hpath)

/-- The files of all directories are the files there are. -/
theorem Listing.Enumerates.flatMap_perm {listing : Listing} (h : listing.Enumerates disk) :
    (listing.flatMap Prod.snd).Perm disk.keys := by
  refine (List.perm_ext_iff_of_nodup ?_ disk.keys_nodup).2 fun path => ?_
  · refine List.nodup_flatMap.2 ⟨h.files, ?_⟩
    have hpairs := List.pairwise_map.1 h.dirs
    refine hpairs.imp_of_mem fun {a b} ha hb hne => ?_
    intro path hpa hpb
    exact hne ((h.mem_disk ha hpa).2.symm.trans (h.mem_disk hb hpb).2)
  · rw [List.mem_flatMap, ← AList.mem_keys]
    constructor
    · rintro ⟨entry, hentry, hpath⟩
      exact (h.mem_disk hentry hpath).1
    · intro hpath
      obtain ⟨entry, hentry, -, hmem⟩ := h.exists_mem hpath
      exact ⟨entry, hentry, hmem⟩

section Inserted

variable {α : Type} {listing : Listing} {scan : List Path → List α}

/-- A map made of what is scanned of each directory. -/
def insertScanned (listing : Listing) (scan : List Path → List α) : TextMap (List α) :=
  listing.foldl (fun m entry => m.insert entry.1 (scan entry.2)) ∅

theorem insertScanned_concat (listing : Listing) (entry : Text × List Path)
    (scan : List Path → List α) :
    insertScanned (listing ++ [entry]) scan
      = (insertScanned listing scan).insert entry.1 (scan entry.2) := List.foldl_concat ..

theorem mem_keys_insertScanned {runId : Text}
    (h : runId ∈ (insertScanned listing scan).keys) : runId ∈ listing.map Prod.fst := by
  induction listing using List.reverseRecOn with
  | nil => cases h
  | append_singleton listing entry ih =>
      rw [insertScanned_concat, ← AList.mem_keys, AList.mem_insert, AList.mem_keys] at h
      rw [List.map_append, List.mem_append]
      rcases h with rfl | h
      · exact .inr (List.mem_singleton_self _)
      · exact .inl (ih h)

theorem listed_insertScanned (hdirs : (listing.map Prod.fst).Nodup) {entry : Text × List Path}
    (hentry : entry ∈ listing) : listed (insertScanned listing scan) entry.1 = scan entry.2 := by
  induction listing using List.reverseRecOn with
  | nil => cases hentry
  | append_singleton listing last ih =>
      rw [List.map_append, List.nodup_append] at hdirs
      obtain ⟨hrest, -, hapart⟩ := hdirs
      rw [insertScanned_concat]
      rcases List.mem_append.1 hentry with hentry | hentry
      · have hne : entry.1 ≠ last.1 :=
          hapart _ (List.mem_map_of_mem hentry) _ (List.mem_singleton_self _)
        rw [listed, AList.lookup_insert_ne hne]
        exact ih hrest hentry
      · rw [List.mem_singleton.1 hentry, listed, AList.lookup_insert]
        rfl

/-- Each directory is scanned once. -/
theorem allListed_insertScanned_perm (hdirs : (listing.map Prod.fst).Nodup) :
    (allListed (insertScanned listing scan)).Perm
      (listing.flatMap fun entry => scan entry.2) := by
  refine (flatMap_listed_perm _ hdirs fun _ => mem_keys_insertScanned).symm.trans
    (List.Perm.of_eq ?_)
  rw [List.flatMap_map]
  exact List.flatMap_congr fun entry hentry => listed_insertScanned hdirs hentry

theorem map_allListed_perm (hdirs : (listing.map Prod.fst).Nodup) {pathOf : α → Path}
    {kind : Path → Bool}
    (hscan : ∀ entry ∈ listing, ((scan entry.2).map pathOf).Perm (entry.2.filter kind)) :
    ((allListed (insertScanned listing scan)).map pathOf).Perm
      (listing.flatMap fun entry => entry.2.filter kind) := by
  refine ((allListed_insertScanned_perm hdirs).map pathOf).trans ?_
  rw [List.map_flatMap]
  exact List.Perm.flatMap_left _ hscan

theorem mem_listed_insertScanned {runId : Text} {x : α}
    (hdirs : (listing.map Prod.fst).Nodup)
    (h : x ∈ listed (insertScanned listing scan) runId) :
    ∃ entry ∈ listing, entry.1 = runId ∧ x ∈ scan entry.2 := by
  obtain ⟨entry, hentry, rfl⟩ := List.mem_map.1
    (mem_keys_insertScanned (mem_keys_of_mem_listed h))
  rw [listed_insertScanned hdirs hentry] at h
  exact ⟨entry, hentry, rfl, h⟩

end Inserted

/-! ## The data set -/

def scannedRdb (disk : Disk) (created : Path → Nat) (files : List Path) : List DataSetRdb :=
  (scanFiles ".rdb".toList (DataSetRdb.fromPathSync disk created) files).insertionSort
    fun a b => a.offset ≤ b.offset

def scannedAof (disk : Disk) (created : Path → Nat) (files : List Path) : List DataSetAof :=
  (scanFiles ".aof".toList (DataSetAof.fromPathSync disk created) files).insertionSort
    fun a b => a.offset ≤ b.offset

theorem rdbFiles_scanFromDir (disk : Disk) (created : Path → Nat) (listing : Listing) :
    (DataSet.scanFromDir disk created listing).rdbFiles
      = insertScanned listing (scannedRdb disk created) := by
  induction listing using List.reverseRecOn with
  | nil => rfl
  | append_singleton listing entry ih =>
      rw [insertScanned_concat, ← ih, DataSet.scanFromDir, List.foldl_concat]
      rfl

theorem aofSegments_scanFromDir (disk : Disk) (created : Path → Nat) (listing : Listing) :
    (DataSet.scanFromDir disk created listing).aofSegments
      = insertScanned listing (scannedAof disk created) := by
  induction listing using List.reverseRecOn with
  | nil => rfl
  | append_singleton listing entry ih =>
      rw [insertScanned_concat, ← ih, DataSet.scanFromDir, List.foldl_concat]
      rfl

theorem rdbPath_injective {runId runId' : Text} {offset offset' size size' : Int}
    (h : rdbPath runId offset size = rdbPath runId' offset' size') :
    offset = offset' ∧ size = size' := by
  have hname : rdbFileName offset size = rdbFileName offset' size' := congrArg Path.name h
  have hsplit := splitOn_rdbFileName offset size
  rw [hname, splitOn_rdbFileName] at hsplit
  obtain ⟨hoffset, hrest⟩ := List.cons.inj hsplit
  obtain ⟨hsize, -⟩ := List.cons.inj hrest
  exact ⟨(intToString_injective hoffset).symm, (intToString_injective hsize).symm⟩

/-- A file with such a name is known by its path and its time of creation. -/
theorem DataSetRdb.eq_of_path {a b : DataSetRdb} {runId runId' : Text} (hpath : a.path = b.path)
    (ha : a.path = rdbPath runId a.offset a.size) (hb : b.path = rdbPath runId' b.offset b.size)
    (hcreated : a.createdAt = b.createdAt) : a = b := by
  obtain ⟨hoffset, hsize⟩ := rdbPath_injective (ha.symm.trans (hpath.trans hb))
  cases a
  cases b
  exact DataSetRdb.mk.injEq .. ▸ ⟨hpath, hoffset, hsize, hcreated⟩

theorem DataSetAof.eq_of_path {a b : DataSetAof} {runId runId' : Text} (hpath : a.path = b.path)
    (ha : a.path = segmentPath runId a.offset) (hb : b.path = segmentPath runId' b.offset)
    (hcreated : a.createdAt = b.createdAt) : a = b := by
  have hname : aofFileName a.offset = aofFileName b.offset :=
    congrArg Path.name (ha.symm.trans (hpath.trans hb))
  have hoffset := intToString_injective (List.append_cancel_right hname)
  cases a
  cases b
  exact DataSetAof.mk.injEq .. ▸ ⟨hpath, hoffset, hcreated⟩

/-- The data set lists the files there are, each once and in order, under its run
and with the numbers it was made for. -/
structure DataSet.Indexes (d : DataSet) (disk : Disk) (created : Path → Nat) : Prop where
  paths : d.listedPaths.Perm disk.keys
  rdb_iff : ∀ runId rdb, rdb ∈ listed d.rdbFiles runId ↔
    rdb.path ∈ disk ∧ rdb.path = rdbPath runId rdb.offset rdb.size ∧
      rdb.createdAt = created rdb.path
  aof_iff : ∀ runId aof, aof ∈ listed d.aofSegments runId ↔
    aof.path ∈ disk ∧ aof.path = segmentPath runId aof.offset ∧
      aof.createdAt = created aof.path
  sorted : d.Sorted

/-- The entry of a segment that a scan finds. -/
def segmentAt (created : Path → Nat) (runId : Text) (offset : Int) : DataSetAof :=
  { path := segmentPath runId offset, offset := offset,
    createdAt := created (segmentPath runId offset) }

theorem DataSet.Indexes.segmentAt_mem {d : DataSet} (h : d.Indexes disk created) {runId : Text}
    {offset : Int} (hmem : segmentPath runId offset ∈ disk) :
    segmentAt created runId offset ∈ listed d.aofSegments runId :=
  (h.aof_iff _ _).2 ⟨hmem, rfl, rfl⟩

section Scan

variable {listing : Listing} (hmade : ∀ path ∈ disk, path.Made)
  (hlisting : listing.Enumerates disk)
include hmade hlisting

theorem Listing.Enumerates.made {entry : Text × List Path} (hentry : entry ∈ listing) :
    (∀ path ∈ entry.2, path.Made) ∧ ∀ path ∈ entry.2, path ∈ disk :=
  ⟨fun path hpath => hmade path (hlisting.mem_disk hentry hpath).1,
    fun _ hpath => (hlisting.mem_disk hentry hpath).1⟩

theorem map_path_scannedRdb (created : Path → Nat) {entry : Text × List Path}
    (hentry : entry ∈ listing) :
    ((scannedRdb disk created entry.2).map DataSetRdb.path).Perm
      (entry.2.filter fun p => endsWith p.name ".rdb".toList) := by
  obtain ⟨hfiles, hdisk⟩ := hlisting.made hmade hentry
  exact ((List.perm_insertionSort _ _).map _).trans
    (List.Perm.of_eq (map_path_scanRdb hfiles hdisk))

theorem map_path_scannedAof (created : Path → Nat) {entry : Text × List Path}
    (hentry : entry ∈ listing) :
    ((scannedAof disk created entry.2).map DataSetAof.path).Perm
      (entry.2.filter fun p => !endsWith p.name ".rdb".toList) := by
  obtain ⟨hfiles, hdisk⟩ := hlisting.made hmade hentry
  exact ((List.perm_insertionSort _ _).map _).trans
    (List.Perm.of_eq (map_path_scanAof hfiles hdisk))

/-- Every file there is, is listed once. -/
theorem listedPaths_scanFromDir_perm (created : Path → Nat) :
    (DataSet.scanFromDir disk created listing).listedPaths.Perm disk.keys := by
  rw [DataSet.listedPaths, rdbFiles_scanFromDir, aofSegments_scanFromDir]
  have hrdb := map_allListed_perm hlisting.dirs fun entry hentry =>
    map_path_scannedRdb hmade hlisting created hentry
  have haof := map_allListed_perm hlisting.dirs fun entry hentry =>
    map_path_scannedAof hmade hlisting created hentry
  refine (hrdb.append haof).trans (((List.flatMap_append_perm _ _ _).trans ?_).trans
    hlisting.flatMap_perm)
  exact List.Perm.flatMap_left _ fun entry _ => List.filter_append_perm _ _

theorem mem_listed_rdb_iff (created : Path → Nat) (runId : Text) (rdb : DataSetRdb) :
    rdb ∈ listed (DataSet.scanFromDir disk created listing).rdbFiles runId ↔
      rdb.path ∈ disk ∧ rdb.path = rdbPath runId rdb.offset rdb.size ∧
        rdb.createdAt = created rdb.path := by
  rw [rdbFiles_scanFromDir]
  constructor
  · intro h
    obtain ⟨entry, hentry, rfl, hmem⟩ := mem_listed_insertScanned hlisting.dirs h
    obtain ⟨hfiles, -⟩ := hlisting.made hmade hentry
    obtain ⟨hpath, hcreated, hname⟩ :=
      path_of_mem_scanRdb hfiles ((List.mem_insertionSort _).1 hmem)
    obtain ⟨hdisk, hdir⟩ := hlisting.mem_disk hentry hpath
    exact ⟨hdisk, hdir ▸ hname, hcreated⟩
  · rintro ⟨hdisk, hname, hcreated⟩
    obtain ⟨entry, hentry, hdir, hpath⟩ := hlisting.exists_mem hdisk
    obtain ⟨hfiles, hthere⟩ := hlisting.made hmade hentry
    have hkept : rdb.path ∈ (scanFiles ".rdb".toList (DataSetRdb.fromPathSync disk created)
        entry.2).map DataSetRdb.path := by
      rw [map_path_scanRdb hfiles hthere, List.mem_filter]
      refine ⟨hpath, ?_⟩
      rw [hname, rdbPath, endsWith_rdbFileName]
    obtain ⟨other, hother, hsame⟩ := List.mem_map.1 hkept
    obtain ⟨-, hcreated', hname'⟩ := path_of_mem_scanRdb hfiles hother
    obtain rfl := DataSetRdb.eq_of_path hsame hname' hname
      (by rw [hcreated', hcreated, hsame])
    have hdir' : entry.1 = runId := by rw [hdir, hname]; rfl
    rw [← hdir', listed_insertScanned hlisting.dirs hentry]
    exact (List.mem_insertionSort _).2 hother

theorem mem_listed_aof_iff (created : Path → Nat) (runId : Text) (aof : DataSetAof) :
    aof ∈ listed (DataSet.scanFromDir disk created listing).aofSegments runId ↔
      aof.path ∈ disk ∧ aof.path = segmentPath runId aof.offset ∧
        aof.createdAt = created aof.path := by
  rw [aofSegments_scanFromDir]
  constructor
  · intro h
    obtain ⟨entry, hentry, rfl, hmem⟩ := mem_listed_insertScanned hlisting.dirs h
    obtain ⟨hfiles, -⟩ := hlisting.made hmade hentry
    obtain ⟨hpath, hcreated, hname⟩ :=
      path_of_mem_scanAof hfiles ((List.mem_insertionSort _).1 hmem)
    obtain ⟨hdisk, hdir⟩ := hlisting.mem_disk hentry hpath
    exact ⟨hdisk, hdir ▸ hname, hcreated⟩
  · rintro ⟨hdisk, hname, hcreated⟩
    obtain ⟨entry, hentry, hdir, hpath⟩ := hlisting.exists_mem hdisk
    obtain ⟨hfiles, hthere⟩ := hlisting.made hmade hentry
    have hkept : aof.path ∈ (scanFiles ".aof".toList (DataSetAof.fromPathSync disk created)
        entry.2).map DataSetAof.path := by
      rw [map_path_scanAof hfiles hthere, List.mem_filter]
      refine ⟨hpath, ?_⟩
      rw [hname, segmentPath, not_endsWith_rdb]
      rfl
    obtain ⟨other, hother, hsame⟩ := List.mem_map.1 hkept
    obtain ⟨-, hcreated', hname'⟩ := path_of_mem_scanAof hfiles hother
    obtain rfl := DataSetAof.eq_of_path hsame hname' hname
      (by rw [hcreated', hcreated, hsame])
    have hdir' : entry.1 = runId := by rw [hdir, hname]; rfl
    rw [← hdir', listed_insertScanned hlisting.dirs hentry]
    exact (List.mem_insertionSort _).2 hother

theorem indexes_scanFromDir (created : Path → Nat) :
    (DataSet.scanFromDir disk created listing).Indexes disk created where
  paths := listedPaths_scanFromDir_perm hmade hlisting created
  rdb_iff := mem_listed_rdb_iff hmade hlisting created
  aof_iff := mem_listed_aof_iff hmade hlisting created
  sorted := sorted_scanFromDir disk created listing

end Scan

/-! ## Order -/

section Indexes

variable {d d' : DataSet} {runId : Text}

/-- No list of a map lists what another one does, or itself twice. -/
theorem nodup_map_listed {α : Type} {m : TextMap (List α)} {pathOf : α → Path}
    (h : ((allListed m).map pathOf).Nodup) (runId : Text) :
    ((listed m runId).map pathOf).Nodup := by
  cases hm : m.lookup runId with
  | none =>
      rw [listed, hm]
      exact List.nodup_nil
  | some l =>
      rw [allListed, List.map_flatMap] at h
      have hentry := (List.nodup_flatMap.1 h).1 ⟨runId, l⟩ (AList.mem_lookup_iff.1 hm)
      rwa [listed, hm]

theorem DataSet.Indexes.nodup (h : d.Indexes disk created) : d.listedPaths.Nodup :=
  h.paths.nodup_iff.2 disk.keys_nodup

/-- No two segments of a run start at one offset. -/
theorem DataSet.Indexes.pairwise_lt (h : d.Indexes disk created) (runId : Text) :
    (listed d.aofSegments runId).Pairwise fun a b => a.offset < b.offset := by
  have hpaths := nodup_map_listed (List.nodup_append.1 h.nodup).2.1 runId
  refine ((h.sorted.aof runId).and (List.pairwise_map.1 hpaths)).imp_of_mem ?_
  rintro a b ha hb ⟨hle, hne⟩
  refine lt_of_le_of_ne hle fun hsame => hne ?_
  rw [((h.aof_iff runId a).1 ha).2.1, ((h.aof_iff runId b).1 hb).2.1, hsame]

/-- So the segments of a run are listed in one way only. -/
theorem DataSet.Indexes.aofSegments_eq (h : d.Indexes disk created)
    (h' : d'.Indexes disk created) (runId : Text) :
    listed d.aofSegments runId = listed d'.aofSegments runId := by
  have hlt := h.pairwise_lt runId
  have hlt' := h'.pairwise_lt runId
  refine List.Perm.eq_of_pairwise (fun a b _ _ hab hba => ?_) hlt hlt' ?_
  · omega
  · refine (List.perm_ext_iff_of_nodup ?_ ?_).2 fun aof => ?_
    · exact hlt.imp fun hab heq => by rw [heq] at hab; exact Int.lt_irrefl _ hab
    · exact hlt'.imp fun hab heq => by rw [heq] at hab; exact Int.lt_irrefl _ hab
    · rw [h.aof_iff, h'.aof_iff]

end Indexes

/-! ## Every run -/

/-- The call's run id is a directory's name, and its numbers are values of their
types; a writer rotates to a segment of its run. -/
def StoreCall.Valid : StoreCall → Prop
  | .getRdbWriter runId offset size _ => IsRunId runId ∧ IsI64 offset ∧ IsI64 size
  | .getAofWriter runId offset _ => IsRunId runId ∧ IsI64 offset
  | .rotate path => ∃ runId offset, IsRunId runId ∧ IsI64 offset ∧ path = segmentPath runId offset
  | .initDataSet _ _ | .gcDataSet | .failed | .write _ _ => True

theorem mem_doGc {s : FileStorer} {maxSize : Nat} {path : Path}
    (h : path ∈ (s.doGc maxSize).1.disk) : path ∈ s.disk := by
  rw [FileStorer.doGc] at h
  split at h
  · exact h
  · split at h
    · exact h
    · exact mem_of_mem_deleteFiles h

theorem made_step {maxSize : Nat} {s t : FileStorer} {c : StoreCall}
    (hs : ∀ path ∈ s.disk, path.Made) (hvalid : c.Valid) (hstep : s.step maxSize c = some t) :
    ∀ path ∈ t.disk, path.Made := by
  intro path hpath
  cases becomes_of_step hstep with
  | getRdbWriter runId offset size now =>
      rcases (AList.mem_insert _).1 hpath with rfl | hpath
      · exact .rdb hvalid.1 hvalid.2.1 hvalid.2.2
      · exact hs path hpath
  | getAofWriter runId offset now =>
      rcases (AList.mem_insert _).1 hpath with rfl | hpath
      · exact .aof hvalid.1 hvalid.2
      · exact hs path hpath
  | initDataSet listing created => exact hs path hpath
  | gcDataSet => exact hs path (mem_doGc hpath)
  | failed => exact hs path hpath
  | write path' bs =>
      rcases (AList.mem_insert _).1 hpath with rfl | hpath
      · by_contra hmade
        have hthere : path ∉ s.disk := fun h => hmade (hs path h)
        rw [FileStorer.step, FileStorer.call, if_neg hthere] at hstep
        cases hstep
      · exact hs path hpath
  | rotate path' =>
      rcases (AList.mem_insert _).1 hpath with rfl | hpath
      · obtain ⟨runId, offset, hrun, hoffset, rfl⟩ := hvalid
        exact .aof hrun hoffset
      · exact hs path hpath

/-- Whatever was called before, a scan lists the files there are, each once, under
its run and with the numbers it was made for; and the segments it lists do not
depend on the order in which the directory is read. -/
theorem rescan_indexes {maxSize : Nat} {disk₀ : Disk} {calls : List StoreCall} {t : FileStorer}
    (hmade : ∀ path ∈ disk₀, path.Made)
    (hrun : Steps (FileStorer.step maxSize) (fun _ c => c.Valid) (.new disk₀) calls t)
    {listing : Listing} (hlisting : listing.Enumerates t.disk) (created : Path → Nat) :
    (DataSet.scanFromDir t.disk created listing).Indexes t.disk created ∧
      ∀ listing' : Listing, listing'.Enumerates t.disk → ∀ runId,
        listed (DataSet.scanFromDir t.disk created listing').aofSegments runId
          = listed (DataSet.scanFromDir t.disk created listing).aofSegments runId := by
  have hthere : ∀ path ∈ t.disk, path.Made :=
    hrun.invariant (fun _ _ _ hs hvalid hstep => made_step hs hvalid hstep) hmade
  have hindexes := indexes_scanFromDir hthere hlisting created
  refine ⟨hindexes, fun listing' hlisting' runId => ?_⟩
  exact (indexes_scanFromDir hthere hlisting' created).aofSegments_eq hindexes runId

/-- A segment is asked for twice, and its writer rotates. -/
def someStoreCalls : List StoreCall :=
  [.getRdbWriter "run_1".toList 0 3 0, .write (rdbPath "run_1".toList 0 3) [1, 2, 3],
   .getAofWriter "run_1".toList 3 1, .getAofWriter "run_1".toList 3 2,
   .rotate (segmentPath "run_1".toList 7)]

theorem valid_someStoreCalls : ∀ c ∈ someStoreCalls, c.Valid := by
  have hrun : IsRunId "run_1".toList := by decide
  simp only [someStoreCalls, List.forall_mem_cons]
  exact ⟨⟨hrun, by decide, by decide⟩, trivial, ⟨hrun, by decide⟩, ⟨hrun, by decide⟩,
    ⟨_, _, hrun, by decide, rfl⟩, by simp⟩

def someStored : FileStorer := after (FileStorer.step 100) (.new ∅) someStoreCalls

def someListing : Listing :=
  [("run_1".toList, [segmentPath "run_1".toList 7, rdbPath "run_1".toList 0 3,
    segmentPath "run_1".toList 3])]

theorem enumerates_someListing : someListing.Enumerates someStored.disk where
  isOf := by decide +kernel
  dirs := by decide
  files := by decide

theorem steps_someStoreCalls :
    Steps (FileStorer.step 100) (fun _ c => c.Valid) (.new ∅) someStoreCalls someStored :=
  (Steps.of_after (by decide +kernel)).of_forall_mem valid_someStoreCalls

theorem rescan_indexes_someStored :
    (DataSet.scanFromDir someStored.disk (fun _ => 0) someListing).Indexes someStored.disk
      fun _ => 0 :=
  (rescan_indexes (by simp) steps_someStoreCalls enumerates_someListing _).1

end RedisHaTool.Store
