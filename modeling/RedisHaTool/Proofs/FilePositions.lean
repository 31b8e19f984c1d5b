import Mathlib.Data.List.PeriodicityLemma
import RedisHaTool.Proofs.Availability

/-!
# Positions in a file

An offset lies so far into the file that is found for it. A segment's reader is
sought to that position. An RDB file's reader is not: it begins with the file's
first byte, and its size is what is left from the offset on. So it answers a
beginning of the file in place of its end, which is the same only where the file
repeats itself.
-/

namespace RedisHaTool.Store

open Lib

/-- A list begins as it goes on from `k` if and only if it repeats itself there. -/
theorem take_eq_drop_iff_hasPeriod {α : Type} (l : List α) (k : Nat) :
    l.take (l.length - k) = l.drop k ↔ l.HasPeriod k := by
  rw [List.hasPeriod_iff_getElem?]
  constructor
  · intro h i hi
    have hsame := congrArg (fun l => l[i]?) h
    simp only [List.getElem?_take, List.getElem?_drop, if_pos hi] at hsame
    rw [hsame, Nat.add_comm]
  · intro h
    refine List.ext_getElem? fun i => ?_
    rw [List.getElem?_take, List.getElem?_drop]
    split
    case isTrue hi => rw [h i hi, Nat.add_comm]
    case isFalse hi => rw [List.getElem?_eq_none (by omega)]

/-! ## The file of an offset -/

/-- A file of the data set. -/
inductive DataFile where
  | rdb (r : DataSetRdb)
  | aof (a : DataSetAof)
  deriving DecidableEq, Repr

def DataFile.path : DataFile → Path
  | .rdb r => r.path
  | .aof a => a.path

/-- The offset of the file's first byte. -/
def DataFile.offset : DataFile → Int
  | .rdb r => r.offset
  | .aof a => a.offset

def DataFile.IsSegment (file : DataFile) : Prop := ∃ a, file = .aof a

/-- The file's bytes from an offset on. -/
def DataFile.bytesFrom (file : DataFile) (disk : Disk) (offset : Int) : Bytes :=
  (disk.contents file.path).drop (offset - file.offset).toNat

namespace FileStorer

variable {s : FileStorer} {offset : Int} {file : DataFile}

/-- The file found under one run id: an RDB file first, then a segment. -/
def fileOf (s : FileStorer) (offset : Int) (runId : Text) : Option DataFile :=
  match s.dataSet.findRdb runId offset with
  | some rdb => some (.rdb rdb)
  | none => (s.dataSet.findAof runId offset).map .aof

/-- The file that `get_reader` resolves the offset to. -/
def resolves (s : FileStorer) (offset : Int) : Option DataFile :=
  s.dataSet.runIds.findSome? (s.fileOf offset)

/-- However the reader of the offset is read, it delivers the file's bytes from
the offset on. -/
def ReadsFrom (s : FileStorer) (offset : Int) (file : DataFile) : Prop :=
  ∀ r bs, s.getReader offset = .ok r → Delivers s.disk r bs → bs = file.bytesFrom s.disk offset

/-! ## Its reader -/

/-- The reader of a file at an offset. -/
def openAt (s : FileStorer) (offset : Int) : DataFile → Except SyncError Reader
  | .rdb r => (RdbReader.open s.disk r.path offset (r.offset + r.size - offset)).map .rdb
  | .aof a => (AofReader.open s.disk a.path offset a.offset).map .aof

theorem readerOf_eq (s : FileStorer) (offset : Int) (runId : Text) :
    s.readerOf offset runId = (s.fileOf offset runId).map (s.openAt offset) := by
  rw [readerOf, fileOf]
  cases s.dataSet.findRdb runId offset with
  | some rdb => rfl
  | none =>
      dsimp only
      rw [Option.map_map]
      rfl

/-- What `get_reader` opens is the file it resolves the offset to. -/
theorem getReader_of_resolves (h : s.resolves offset = some file) :
    s.getReader offset = s.openAt offset file := by
  have hreader : s.readerOf offset = fun runId =>
      (s.fileOf offset runId).map (s.openAt offset) := funext (s.readerOf_eq offset)
  have hfind : s.dataSet.runIds.findSome? (s.readerOf offset)
      = (s.resolves offset).map (s.openAt offset) := by
    rw [hreader, resolves, List.map_findSome?]
    rfl
  rw [getReader, hfind, h]
  rfl

/-- It is listed, and the offset lies in it. -/
theorem resolves_rdb {r : DataSetRdb} (h : s.resolves offset = some (.rdb r)) :
    ∃ runId, r ∈ listed s.dataSet.rdbFiles runId ∧ r.offset ≤ offset ∧
      offset < r.offset + r.size := by
  obtain ⟨runId, -, hfile⟩ := List.exists_of_findSome?_eq_some h
  rw [fileOf] at hfile
  cases hrdb : s.dataSet.findRdb runId offset with
  | none =>
      rw [hrdb] at hfile
      obtain ⟨aof, -, hcontra⟩ := Option.map_eq_some_iff.1 hfile
      cases hcontra
  | some rdb =>
      rw [hrdb] at hfile
      obtain rfl := DataFile.rdb.inj (Option.some.inj hfile)
      exact ⟨runId, findRdb_eq_some hrdb⟩

/-- Every way to read to the end delivers what is in front of the reader. -/
theorem readsFrom_iff_remaining (h : s.resolves offset = some file) :
    s.ReadsFrom offset file ↔
      ∀ r, s.openAt offset file = .ok r → r.remaining s.disk = file.bytesFrom s.disk offset := by
  rw [← getReader_of_resolves h]
  constructor
  · intro hreads r hr
    exact hreads r _ hr (delivers_remaining s.disk r)
  · intro hremaining r bs hr hbs
    rw [eq_remaining_of_delivers hbs]
    exact hremaining r hr

/-- A segment's reader is at its position. -/
theorem remaining_openAt_aof {a : DataSetAof} {r : Reader}
    (h : s.openAt offset (.aof a) = .ok r) :
    r.remaining s.disk = (DataFile.aof a).bytesFrom s.disk offset := by
  rw [openAt, AofReader.open] at h
  split at h
  · obtain rfl := Except.ok.inj h
    rfl
  · cases h

/-- An RDB file's reader is at the beginning. -/
theorem openAt_rdb (offset : Int) {r : DataSetRdb} (h : r.path ∈ s.disk) :
    ∃ reader, s.openAt offset (.rdb r) = .ok reader ∧
      reader.remaining s.disk
        = (s.disk.contents r.path).take (r.offset + r.size - offset).toNat := by
  rw [openAt, RdbReader.open, if_pos h]
  refine ⟨_, rfl, ?_⟩
  show ((s.disk.contents r.path).drop 0).take
    (r.offset + r.size - offset - (offset - offset)).toNat = _
  rw [List.drop_zero, Int.sub_self, Int.sub_zero]

/-- Reading is right of a segment, and of an RDB file if and only if the file
repeats itself from the offset on; it always does from its first byte. -/
theorem readsFrom_iff (s : FileStorer) (hsizes : s.RdbSizes) {offset : Int} {file : DataFile}
    (h : s.resolves offset = some file) :
    s.ReadsFrom offset file ↔
      file.IsSegment ∨
        (s.disk.contents file.path).HasPeriod (offset - file.offset).toNat := by
  rw [readsFrom_iff_remaining h]
  cases file with
  | aof a => exact ⟨fun _ => Or.inl ⟨a, rfl⟩, fun _ r hr => remaining_openAt_aof hr⟩
  | rdb r =>
      obtain ⟨runId, hlisted, hle, hlt⟩ := resolves_rdb h
      obtain ⟨hmem, hsize⟩ := hsizes runId r hlisted
      obtain ⟨reader, hopen, hremaining⟩ := openAt_rdb offset hmem
      have hleft : (r.offset + r.size - offset).toNat
          = (s.disk.contents r.path).length - (offset - r.offset).toNat := by omega
      have hperiod : reader.remaining s.disk = (DataFile.rdb r).bytesFrom s.disk offset ↔
          (s.disk.contents r.path).HasPeriod (offset - r.offset).toNat := by
        rw [hremaining, hleft, ← take_eq_drop_iff_hasPeriod]
        rfl
      constructor
      · intro hreads
        exact Or.inr (hperiod.1 (hreads reader hopen))
      · rintro (⟨a, ha⟩ | hrepeats) reader' hopen'
        · cases ha
        · obtain rfl := Except.ok.inj (hopen.symm.trans hopen')
          exact hperiod.2 hrepeats

/-- The file of `oneRdb`. -/
def oneRdbFile : DataSetRdb :=
  { path := { runId := "a".toList, name := rdbFileName 5 3 }, offset := 5, size := 3,
    createdAt := 0 }

theorem resolves_oneRdb : oneRdb.resolves 6 = some (.rdb oneRdbFile) := by decide +kernel

theorem readsFrom_iff_oneRdb :
    oneRdb.ReadsFrom 6 (.rdb oneRdbFile) ↔
      (DataFile.rdb oneRdbFile).IsSegment ∨
        (oneRdb.disk.contents oneRdbFile.path).HasPeriod (6 - oneRdbFile.offset).toNat :=
  readsFrom_iff oneRdb rdbSizes_oneRdb resolves_oneRdb

/-- From the second of three bytes on it is the first two that are read. -/
theorem not_readsFrom :
    ¬ ∀ (s : FileStorer) (runId : Text) (offset : Int) (file : DataFile),
      s.dataSet.runIds = [runId] → s.RdbSizes → s.resolves offset = some file →
      s.ReadsFrom offset file := by
  intro h
  have hone : oneRdb.dataSet.runIds = ["a".toList] := by decide +kernel
  have hreads := h oneRdb "a".toList 6 _ hone rdbSizes_oneRdb resolves_oneRdb
  rw [readsFrom_iff_remaining resolves_oneRdb] at hreads
  have hmem : oneRdbFile.path ∈ oneRdb.disk := by decide +kernel
  obtain ⟨reader, hopen, hremaining⟩ := openAt_rdb 6 hmem
  have hsame := hremaining.symm.trans (hreads reader hopen)
  revert hsame
  decide +kernel

end FileStorer

end RedisHaTool.Store
