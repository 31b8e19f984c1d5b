import RedisHaTool.Store.AofWriter

/-!
# Reading and seeking

`poll_read` and `start_seek` of both readers of `store/reader.rs`, over a file
handle that has a position of its own. How many bytes the file hands over when
it is asked is the system's to decide: some, if there are any and they fit.
-/

namespace RedisHaTool.Store

open Lib

/-- `ReadBuf`: what it holds already, and how many bytes fit besides. -/
structure ReadBuf where
  filled : Bytes
  remaining : Nat
  deriving DecidableEq, Repr

def ReadBuf.put (buf : ReadBuf) (bs : Bytes) : ReadBuf :=
  { filled := buf.filled ++ bs, remaining := buf.remaining - bs.length }

inductive SeekFrom where
  | start (n : Nat)
  | current (n : Int)
  | fromEnd (n : Int)
  deriving DecidableEq, Repr

/-- How a seek ends that is not made. -/
inductive SeekError where
  | invalidInput (message : Text)
  /-- No file can be sought to the position. -/
  | file
  | panic
  deriving DecidableEq, Repr

/-! ## The file handle -/

/-- `poll_read` of the file, with room for so many bytes: `none` if it does not
hand over `n` of them. -/
def readFile (disk : Disk) (path : Path) (filePos room n : Nat) : Option Bytes :=
  let ahead := (disk.contents path).drop filePos
  if n ≤ room ∧ n ≤ ahead.length ∧ (n = 0 → room = 0 ∨ ahead = []) then some (ahead.take n)
  else none

/-- A seek to `SeekFrom::Start(new_pos as u64)`. -/
def seekFile (newPos : Int) : Except SeekError Nat :=
  if 0 ≤ newPos then .ok newPos.toNat else .error .file

/-- The sum of two `i64`, if it is one. -/
def checkedI64 (i : Int) : Except SeekError Int :=
  if IsI64 i then .ok i else .error .panic

/-! ## The RDB reader -/

def RdbReader.pollRead (r : RdbReader) (disk : Disk) (buf : ReadBuf) (n : Nat) :
    Option (RdbReader × ReadBuf) :=
  let remaining := r.size - (r.currentPos - r.offset)
  if remaining ≤ 0 then some (r, buf)
  else
    let maxRead := min buf.remaining remaining.toNat
    (readFile disk r.path r.filePos maxRead n).bind fun bs =>
      if IsI64 (r.currentPos + bs.length) then some (r.advance bs.length, buf.put bs) else none

def RdbReader.newPos (r : RdbReader) : SeekFrom → Except SeekError Int
  | .start n => checkedI64 (r.offset + asI64 n)
  | .current n => checkedI64 (r.currentPos + n)
  | .fromEnd n => (checkedI64 (r.offset + r.size)).bind fun fileEnd => checkedI64 (fileEnd + n)

def RdbReader.startSeek (r : RdbReader) (position : SeekFrom) : Except SeekError RdbReader :=
  (r.newPos position).bind fun newPos =>
    if newPos < r.offset then
      .error (.invalidInput "Seek position out of bounds".toList)
    else
      (checkedI64 (r.offset + r.size)).bind fun fileEnd =>
        if newPos > fileEnd then
          .error (.invalidInput "Seek position out of bounds".toList)
        else (seekFile newPos).map fun filePos => { r with filePos, currentPos := newPos }

/-! ## The AOF reader -/

/-- All that the buffer holds then is counted, not only what was read. -/
def AofReader.pollRead (r : AofReader) (disk : Disk) (buf : ReadBuf) (n : Nat) :
    Option (AofReader × ReadBuf) :=
  (readFile disk r.path r.filePos buf.remaining n).bind fun bs =>
    let buf := buf.put bs
    if IsI64 (r.currentPos + buf.filled.length) then
      some
        ({ r with
           filePos := r.filePos + bs.length, currentPos := r.currentPos + buf.filled.length },
         buf)
    else none

/-- From the end it is `unimplemented!`. -/
def AofReader.newPos (r : AofReader) : SeekFrom → Except SeekError Int
  | .start n => checkedI64 (r.offset + asI64 n)
  | .current n => checkedI64 (r.currentPos + n)
  | .fromEnd _ => .error .panic

def AofReader.startSeek (r : AofReader) (position : SeekFrom) : Except SeekError AofReader :=
  (r.newPos position).bind fun newPos =>
    (seekFile newPos).map fun filePos => { r with filePos, currentPos := newPos }

/-! ## Either of them -/

def Reader.path : Reader → Path
  | .rdb r => r.path
  | .aof r => r.path

def Reader.filePos : Reader → Nat
  | .rdb r => r.filePos
  | .aof r => r.filePos

def Reader.offset : Reader → Int
  | .rdb r => r.offset
  | .aof r => r.offset

def Reader.currentPos : Reader → Int
  | .rdb r => r.currentPos
  | .aof r => r.currentPos

def Reader.isAof : Reader → Bool
  | .rdb _ => false
  | .aof _ => true

def Reader.pollRead (disk : Disk) (r : Reader) (buf : ReadBuf) (n : Nat) :
    Option (Reader × ReadBuf) :=
  match r with
  | .rdb r => (r.pollRead disk buf n).map (Prod.map .rdb id)
  | .aof r => (r.pollRead disk buf n).map (Prod.map .aof id)

def Reader.startSeek (r : Reader) (position : SeekFrom) : Except SeekError Reader :=
  match r with
  | .rdb r => (r.startSeek position).map .rdb
  | .aof r => (r.startSeek position).map .aof

inductive ReaderCall where
  /-- `poll_read` into a buffer, when the file hands over `n` bytes. -/
  | pollRead (buf : ReadBuf) (n : Nat)
  /-- A `poll_read` that is pending or fails. -/
  | notReady
  /-- A seek that succeeds. -/
  | startSeek (position : SeekFrom)
  deriving DecidableEq, Repr

def Reader.call (disk : Disk) (r : Reader) : ReaderCall → Option Reader
  | .pollRead buf n => (r.pollRead disk buf n).map Prod.fst
  | .notReady => some r
  | .startSeek position => (r.startSeek position).toOption

end RedisHaTool.Store
