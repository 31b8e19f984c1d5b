import RedisHaTool.Lib.Run
import RedisHaTool.Store.Scan

/-!
# Garbage collection

`do_gc` of `store/storer.rs`, with the totals of `store/dataset.rs`, and the
calls that change the storer or its directory as a machine. Files are written
and made by the writers that were handed out, too; nothing else touches the
directory. A file size that cannot be had is that of a file that is not there.
-/

namespace RedisHaTool.Store

open Lib

/-- The lengths of some files added up, as far as they are there. -/
def fileSizes (disk : Disk) : List Path → Except SyncError Nat
  | [] => .ok 0
  | path :: paths =>
      if path ∈ disk then
        (fileSizes disk paths).map fun total => (disk.contents path).length + total
      else .error (.io .other)

/-- All files of a map of the data set. -/
def allListed {α : Type} (m : TextMap (List α)) : List α := m.entries.flatMap (·.2)

def FileStorer.totalRdbSize (s : FileStorer) : Except SyncError Nat :=
  fileSizes s.disk ((allListed s.dataSet.rdbFiles).map DataSetRdb.path)

def FileStorer.totalAofSize (s : FileStorer) : Except SyncError Nat :=
  fileSizes s.disk ((allListed s.dataSet.aofSegments).map DataSetAof.path)

def FileStorer.currentSize (s : FileStorer) : Except SyncError Nat := do
  return (← s.totalRdbSize) + (← s.totalAofSize)

/-- What may be deleted, in the order in which it is: all RDB files, and of each
run all segments but the last. -/
def DataSet.filesToDelete (d : DataSet) : List (Path × Nat) :=
  (d.runIds.flatMap fun runId =>
    (listed d.rdbFiles runId).map (fun rdb => (rdb.path, rdb.createdAt)) ++
      (listed d.aofSegments runId).dropLast.map fun aof =>
        (aof.path, aof.createdAt)).insertionSort fun a b => a.2 ≤ b.2

/-- The deleting loop of `do_gc`: what is left of the disk, and how it ended. -/
def deleteFiles (targetDeleteSize : Nat) : List (Path × Nat) → Nat → Disk →
    Disk × Except SyncError Unit
  | [], _, disk => (disk, .ok ())
  | (path, _) :: files, deletedSize, disk =>
      if targetDeleteSize ≤ deletedSize then (disk, .ok ())
      else if path ∈ disk then
        deleteFiles targetDeleteSize files (deletedSize + (disk.contents path).length)
          (disk.erase path)
      else (disk, .error (.io .other))

def FileStorer.doGc (s : FileStorer) (maxSize : Nat) : FileStorer × Except SyncError Unit :=
  match s.currentSize with
  | .error e => (s, .error e)
  | .ok currentSize =>
      if currentSize ≤ maxSize then (s, .ok ())
      else
        let (disk, result) :=
          deleteFiles (currentSize - maxSize) s.dataSet.filesToDelete 0 s.disk
        ({ s with disk }, result)

/-- A call on the storer, or something its writers do to their files. -/
inductive StoreCall where
  | getRdbWriter (runId : Text) (offset size : Int) (now : Nat)
  | getAofWriter (runId : Text) (offset : Int) (now : Nat)
  | initDataSet (listing : Listing) (created : Path → Nat)
  | gcDataSet
  /-- A call that failed at its first file operation. -/
  | failed
  /-- Bytes of a writer reach its file, if that is still there. -/
  | write (path : Path) (bs : Bytes)
  /-- An AOF writer rotates to a new file. -/
  | rotate (path : Path)

/-- What a call leaves behind and how it ended; `none` if it is not possible. -/
def FileStorer.call (maxSize : Nat) (s : FileStorer) :
    StoreCall → Option (FileStorer × Except SyncError Unit)
  | .getRdbWriter runId offset size now =>
      some ((s.getRdbWriter runId offset size now).1, .ok ())
  | .getAofWriter runId offset now => some ((s.getAofWriter runId offset now).1, .ok ())
  | .initDataSet listing created =>
      if listing.isOf s.disk then
        some ({ s with dataSet := .scanFromDir s.disk created listing }, .ok ())
      else none
  | .gcDataSet => some (s.doGc maxSize)
  | .failed => some (s, .error (.io .other))
  | .write path bs =>
      if path ∈ s.disk then some ({ s with disk := s.disk.append path bs }, .ok ()) else none
  | .rotate path => some ({ s with disk := s.disk.create path }, .ok ())

def FileStorer.step (maxSize : Nat) (s : FileStorer) (c : StoreCall) : Option FileStorer :=
  (s.call maxSize c).map Prod.fst

/-- The paths of all files the data set lists. -/
def DataSet.listedPaths (d : DataSet) : List Path :=
  (allListed d.rdbFiles).map DataSetRdb.path ++ (allListed d.aofSegments).map DataSetAof.path

/-- The lengths of the listed files added up. One that is not there adds
nothing. -/
def FileStorer.storedSize (s : FileStorer) : Nat :=
  (s.dataSet.listedPaths.map fun path => (s.disk.contents path).length).sum

/-- Every file the data set lists is there. -/
def FileStorer.AllExist (s : FileStorer) : Prop :=
  (∀ runId, ∀ rdb ∈ listed s.dataSet.rdbFiles runId, rdb.path ∈ s.disk) ∧
    ∀ runId, ∀ aof ∈ listed s.dataSet.aofSegments runId, aof.path ∈ s.disk

/-- Collection has nothing to delete: the files fit, or none of them may go. -/
def FileStorer.NothingToDelete (maxSize : Nat) (s : FileStorer) : Prop :=
  (∀ currentSize, s.currentSize = .ok currentSize → currentSize ≤ maxSize) ∨
    s.dataSet.filesToDelete = []

/-- The step is not a collection that has something to delete. -/
def FileStorer.DeletesNothing (maxSize : Nat) (s : FileStorer) (c : StoreCall) : Prop :=
  match c with
  | .gcDataSet => s.NothingToDelete maxSize
  | _ => True

end RedisHaTool.Store
