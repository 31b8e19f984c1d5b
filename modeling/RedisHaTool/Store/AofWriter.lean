import RedisHaTool.Lib.Run
import RedisHaTool.Store.Scan

/-!
# The AOF writer and its rotation

`AofWriter` of `store/writer.rs` with the file it is at, the count of bytes
accepted for that file, and the rotation that nothing but a call of
`rotate_if_needed` does. A call that fails may have moved some of the buffer to
the file, and has changed nothing else.
-/

namespace RedisHaTool.Store

open Lib

/-- `AofWriter`, with `log_size` of its configuration. -/
structure AofWriter where
  writer : BufWriter
  currentPath : Path
  written : Nat
  logSize : Nat
  runIdDir : Text
  currentOffset : Int
  deriving DecidableEq, Repr

/-- `AofWriter::new`. The offset is read back from the file's name. -/
def AofWriter.new (writer : BufWriter) (path : Path) (logSize : Nat) : AofWriter :=
  let currentOffset :=
    if endsWith path.name ".aof".toList then
      (parseI64 (trimEndMatches path.name ".aof".toList)).getD 0
    else 0
  { writer, currentPath := path, written := 0, logSize, runIdDir := path.runId,
    currentOffset }

/-- `n as i64` of a `u64`. -/
def asI64 (n : Nat) : Int := if n < 2 ^ 63 then n else n - 2 ^ 64

/-- `poll_write`, as far as it accepts: `none` where the count overflows. -/
def AofWriter.write (w : AofWriter) (bs : Bytes) (disk : Disk) : Option (AofWriter × Disk) :=
  let (writer, disk) := w.writer.write bs disk
  if w.written + bs.length < 2 ^ 64 then
    some ({ w with writer, written := w.written + bs.length }, disk)
  else none

/-- `poll_flush`. -/
def AofWriter.flush (w : AofWriter) (disk : Disk) : AofWriter × Disk :=
  let (writer, disk) := w.writer.flush disk
  ({ w with writer }, disk)

/-- `check_rotation`, `none` where the new offset overflows. -/
def AofWriter.checkRotation (w : AofWriter) (disk : Disk) : Option (AofWriter × Disk) :=
  if w.logSize ≤ w.written then
    let (_, disk) := w.writer.flush disk
    let newOffset := w.currentOffset + asI64 w.written
    if IsI64 newOffset then
      let newPath : Path := { runId := w.runIdDir, name := aofFileName newOffset }
      some
        ({ w with
           writer := { path := newPath, buf := [] }, currentPath := newPath,
           currentOffset := newOffset, written := 0 },
         disk.create newPath)
    else none
  else some (w, disk)

/-- A call that failed after so many bytes of the buffer had reached the
file. -/
def AofWriter.failed (w : AofWriter) (reached : Nat) (disk : Disk) : AofWriter × Disk :=
  ({ w with writer := { w.writer with buf := w.writer.buf.drop reached } },
   disk.append w.writer.path (w.writer.buf.take reached))

inductive AofCall where
  /-- A write that accepted these bytes. -/
  | write (bs : Bytes)
  | flush
  | rotateIfNeeded
  | failed (reached : Nat)
  deriving DecidableEq, Repr

def AofWriter.call (s : AofWriter × Disk) : AofCall → Option (AofWriter × Disk)
  | .write bs => s.1.write bs s.2
  | .flush => some (s.1.flush s.2)
  | .rotateIfNeeded => s.1.checkRotation s.2
  | .failed reached => some (s.1.failed reached s.2)

/-- The writer `get_aof_writer` answers, and the disk then. -/
def AofWriter.start (s : FileStorer) (runId : Text) (offset : Int) (logSize : Nat)
    (now : Nat) : AofWriter × Disk :=
  let (s, writer) := s.getAofWriter runId offset now
  (.new writer writer.path logSize, s.disk)

/-- The bytes a call accepted. -/
def AofCall.accepted : AofCall → Bytes
  | .write bs => bs
  | .flush => []
  | .rotateIfNeeded => []
  | .failed _ => []

def acceptedBytes (calls : List AofCall) : Bytes := calls.flatMap AofCall.accepted

/-- What `get_aof_writer` answers is a `Box<dyn AsyncWrite>`, on which
`rotate_if_needed`, a method of `AofWriter` itself, cannot be called. -/
def AofWriter.Boxed (_ : AofWriter × Disk) (call : AofCall) : Prop := call ≠ .rotateIfNeeded

instance (t : AofWriter × Disk) (call : AofCall) : Decidable (AofWriter.Boxed t call) :=
  inferInstanceAs (Decidable (call ≠ .rotateIfNeeded))

def AofCall.written : AofCall → Option Bytes
  | .write bs => some bs
  | .flush => none
  | .rotateIfNeeded => none
  | .failed _ => none

/-- The writes among some calls. -/
def writesOf (calls : List AofCall) : List Bytes := calls.filterMap AofCall.written

end RedisHaTool.Store
