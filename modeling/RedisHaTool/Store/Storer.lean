import RedisHaTool.Store.DataSet

/-!
# Files, readers, writers and the storer

`store/reader.rs`, `store/writer.rs` and `store/storer.rs`, without garbage
collection and rotation. The disk maps a path to what the file holds; a file is
written at its end only. A writer has the buffer of `tokio`'s `BufWriter` in
front of its file, so what was written is on disk once it was flushed, and what
does not fit the buffer before that.

The storer's directories always exist and its file operations succeed; opening a
file that is not there is the one failure.
-/

namespace RedisHaTool.Store

open Lib

/-! ## Files -/

abbrev Disk := AList fun _ : Path => Bytes

/-- What the file holds, nothing if there is none. -/
def Disk.contents (disk : Disk) (path : Path) : Bytes := (disk.lookup path).getD []

/-- `File::create`: an existing file is truncated. -/
def Disk.create (disk : Disk) (path : Path) : Disk := disk.insert path []

/-- A write at the end of an open file. -/
def Disk.append (disk : Disk) (path : Path) (bs : Bytes) : Disk :=
  disk.insert path (disk.contents path ++ bs)

@[simp] theorem contents_create_self (disk : Disk) (path : Path) :
    (disk.create path).contents path = [] := by
  simp [Disk.contents, Disk.create]

@[simp] theorem contents_append_self (disk : Disk) (path : Path) (bs : Bytes) :
    (disk.append path bs).contents path = disk.contents path ++ bs := by
  simp [Disk.contents, Disk.append]

theorem mem_append {disk : Disk} {path other : Path} {bs : Bytes} (h : other ∈ disk) :
    other ∈ disk.append path bs := by
  rw [Disk.append, AList.mem_insert]
  exact .inr h

/-! ## Readers -/

/-- `RdbReader`: the file handle's own position, and the position it keeps. -/
structure RdbReader where
  path : Path
  filePos : Nat
  offset : Int
  size : Int
  currentPos : Int
  deriving DecidableEq, Repr

structure AofReader where
  path : Path
  filePos : Nat
  offset : Int
  currentPos : Int
  deriving DecidableEq, Repr

/-- `dyn Reader`. -/
inductive Reader where
  | rdb (r : RdbReader)
  | aof (r : AofReader)
  deriving DecidableEq, Repr

/-- `RdbReader::open`. The file is read from its start whatever the offset. -/
def RdbReader.open (disk : Disk) (path : Path) (offset size : Int) :
    Except SyncError RdbReader :=
  if path ∈ disk then
    .ok { path, filePos := 0, offset, size, currentPos := offset }
  else .error (.io .other)

/-- `AofReader::open`. A negative position is one no file can be sought to. -/
def AofReader.open (disk : Disk) (path : Path) (offset aofStartOffset : Int) :
    Except SyncError AofReader :=
  if path ∈ disk ∧ 0 ≤ offset - aofStartOffset then
    .ok { path, filePos := (offset - aofStartOffset).toNat, offset,
          currentPos := offset }
  else .error (.io .other)

/-- The bytes an `AofReader` has in front of it. -/
def AofReader.remaining (r : AofReader) (disk : Disk) : Bytes :=
  (disk.contents r.path).drop r.filePos

/-- A read of `k` bytes into an empty buffer. -/
def AofReader.advance (r : AofReader) (k : Nat) : AofReader :=
  { r with filePos := r.filePos + k, currentPos := r.currentPos + k }

/-- The bytes an `RdbReader` still answers: those of its file in front of it, up
to the size it was opened with. -/
def RdbReader.remaining (r : RdbReader) (disk : Disk) : Bytes :=
  ((disk.contents r.path).drop r.filePos).take (r.size - (r.currentPos - r.offset)).toNat

def RdbReader.advance (r : RdbReader) (k : Nat) : RdbReader :=
  { r with filePos := r.filePos + k, currentPos := r.currentPos + k }

def Reader.remaining (disk : Disk) : Reader → Bytes
  | .rdb r => r.remaining disk
  | .aof r => r.remaining disk

def Reader.advance (k : Nat) : Reader → Reader
  | .rdb r => .rdb (r.advance k)
  | .aof r => .aof (r.advance k)

/-- Reads one after another until one answers no bytes, and what they answered.
A read answers at least one byte while there is one. -/
inductive Delivers (disk : Disk) : Reader → Bytes → Prop where
  | eof {r : Reader} (h : r.remaining disk = []) : Delivers disk r []
  | read {r : Reader} {bs : Bytes} (n : Nat) (hn : 0 < n)
      (hle : n ≤ (r.remaining disk).length) (h : Delivers disk (r.advance n) bs) :
      Delivers disk r ((r.remaining disk).take n ++ bs)

/-! ## Writers -/

/-- `BufWriter<File>`. -/
structure BufWriter where
  path : Path
  buf : Bytes
  deriving DecidableEq, Repr

/-- The capacity `BufWriter::new` gives the buffer. -/
def BufWriter.capacity : Nat := 8192

/-- `poll_flush`, one step for a reader of the file: it sees all of the buffer there
or none of it. -/
def BufWriter.flush (w : BufWriter) (disk : Disk) : BufWriter × Disk :=
  ({ w with buf := [] }, disk.append w.path w.buf)

/-- `poll_write`, which takes all it is given: the buffer makes room first, and
what is as long as the buffer goes straight to the file. -/
def BufWriter.write (w : BufWriter) (bs : Bytes) (disk : Disk) : BufWriter × Disk :=
  let (w, disk) :=
    if w.buf.length + bs.length > BufWriter.capacity then w.flush disk else (w, disk)
  if BufWriter.capacity ≤ bs.length then (w, disk.append w.path bs)
  else ({ w with buf := w.buf ++ bs }, disk)

/-- The path of a writer does not change. -/
theorem BufWriter.write_path (w : BufWriter) (bs : Bytes) (disk : Disk) :
    (w.write bs disk).1.path = w.path := by
  simp only [BufWriter.write, BufWriter.flush]
  split <;> split <;> rfl

/-- Nothing a writer was given is lost or reordered: the file and then the
buffer hold it all. -/
theorem BufWriter.write_contents (w : BufWriter) (bs : Bytes) (disk : Disk) :
    (w.write bs disk).2.contents w.path ++ (w.write bs disk).1.buf
      = disk.contents w.path ++ w.buf ++ bs := by
  by_cases hroom : w.buf.length + bs.length > BufWriter.capacity
  · by_cases hbig : BufWriter.capacity ≤ bs.length <;>
      simp [BufWriter.write, BufWriter.flush, hroom, hbig]
  · by_cases hbig : BufWriter.capacity ≤ bs.length
    · -- As long as the buffer and still it fits: the buffer was empty.
      have hempty : w.buf = [] := List.eq_nil_of_length_eq_zero (by omega)
      have hexact : ¬ BufWriter.capacity < bs.length := by omega
      simp [BufWriter.write, hexact, hbig, hempty]
    · simp [BufWriter.write, hroom, hbig]

/-- A write does not remove its file. -/
theorem BufWriter.write_mem (w : BufWriter) (bs : Bytes) {disk : Disk} {path : Path}
    (h : path ∈ disk) : path ∈ (w.write bs disk).2 := by
  simp only [BufWriter.write, BufWriter.flush]
  split <;> split <;> simp only [mem_append, h]

theorem BufWriter.flush_contents (w : BufWriter) (disk : Disk) :
    (w.flush disk).2.contents w.path = disk.contents w.path ++ w.buf := by
  simp [BufWriter.flush]

/-! ## The storer -/

structure FileStorer where
  dataSet : DataSet
  disk : Disk

/-- `FileStorer::new` over a directory that holds what it holds. -/
def FileStorer.new (disk : Disk) : FileStorer := { dataSet := .new, disk }

def rdbFileName (offset size : Int) : Text :=
  intToString offset ++ '_' :: intToString size ++ ".rdb".toList

def aofFileName (offset : Int) : Text := intToString offset ++ ".aof".toList

def FileStorer.getRdbWriter (s : FileStorer) (runId : Text) (offset size : Int)
    (now : Nat) : FileStorer × BufWriter :=
  let path : Path := { runId, name := rdbFileName offset size }
  ({ dataSet := s.dataSet.addRdb runId { path, offset, size, createdAt := now },
     disk := s.disk.create path },
   { path, buf := [] })

def FileStorer.getAofWriter (s : FileStorer) (runId : Text) (offset : Int)
    (now : Nat) : FileStorer × BufWriter :=
  let path : Path := { runId, name := aofFileName offset }
  ({ dataSet := s.dataSet.addAof runId { path, offset, createdAt := now },
     disk := s.disk.create path },
   { path, buf := [] })

/-- What `get_reader` finds under one run id: an RDB file first, then a
segment. -/
def FileStorer.readerOf (s : FileStorer) (offset : Int) (runId : Text) :
    Option (Except SyncError Reader) :=
  match s.dataSet.findRdb runId offset with
  | some rdb =>
      let remaining := rdb.offset + rdb.size - offset
      some ((RdbReader.open s.disk rdb.path offset remaining).map .rdb)
  | none =>
      (s.dataSet.findAof runId offset).map fun aof =>
        (AofReader.open s.disk aof.path offset aof.offset).map .aof

def FileStorer.getReader (s : FileStorer) (offset : Int) : Except SyncError Reader :=
  (s.dataSet.runIds.findSome? (s.readerOf offset)).getD
    (.error (.corruptedText
      ("找不到 offset=".toList ++ intToString offset ++ " 的数据文件".toList)))

/-- What `available_bytes` finds under one run id. -/
def FileStorer.availableOf (s : FileStorer) (offset : Int) (runId : Text) :
    Option Int :=
  let rdbBytes := (s.dataSet.findRdb runId offset).bind fun rdb =>
    if rdb.path ∈ s.disk then some (rdb.offset + rdb.size - offset) else none
  let aofBytes := (s.dataSet.findAof runId offset).bind fun aof =>
    let available := ((s.disk.contents aof.path).length : Int) - (offset - aof.offset)
    if aof.path ∈ s.disk ∧ 0 < available then some available else none
  rdbBytes <|> aofBytes

def FileStorer.availableBytes (s : FileStorer) (offset : Int) : Int :=
  (s.dataSet.runIds.findSome? (s.availableOf offset)).getD 0

end RedisHaTool.Store
