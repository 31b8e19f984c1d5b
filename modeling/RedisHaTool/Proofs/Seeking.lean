import RedisHaTool.Store.Seek

/-!
# Where the next byte is

A reader keeps the global offset of the next byte in `current_pos`, and its file
handle the position of that byte in the file; the two differ by the offset of the
file's first byte. A seek gives the handle the global offset itself, which is
right in a file that begins at offset 0 alone. A read of the AOF reader counts
what the buffer held before, and the RDB reader begins with the file's first byte
whatever offset it is opened at. Every call either keeps the two in step or is
one of these, so a whole run is right exactly if none of its calls is.
-/

namespace RedisHaTool.Store

open Lib

/-! ## What the position is to be -/

/-- The global offset of the next byte, in a file whose first byte is at
`base`. -/
def Reader.nextOffset (base : Int) (r : Reader) : Int := base + r.filePos

/-- `current_pos` is the global offset of the next byte, and the call does to it
what it should: a read delivers the bytes there and goes on by their number, and
a seek moves it where it says. -/
def Reader.Right (disk : Disk) (base o : Int) (r : Reader) (call : ReaderCall) : Prop :=
  r.currentPos = r.nextOffset base ∧
    match call with
    | .pollRead buf n => ∀ r' buf', r.pollRead disk buf n = some (r', buf') →
        ∃ bs, buf'.filled = buf.filled ++ bs ∧
          bs <+: (disk.contents r.path).drop (r.currentPos - base).toNat ∧
          r'.nextOffset base = r.nextOffset base + bs.length
    | .notReady => True
    | .startSeek (.start k) => ∀ r', r.startSeek (.start k) = .ok r' → r'.nextOffset base = o + k
    | .startSeek (.current d) => ∀ r', r.startSeek (.current d) = .ok r' →
        r'.nextOffset base = r.nextOffset base + d
    | .startSeek (.fromEnd _) => True

def ReaderCall.isFromEnd : ReaderCall → Bool
  | .startSeek (.fromEnd _) => true
  | _ => false

/-- A seek from the start or from where the reader is, or a read. -/
def Reader.NotFromEnd (_ : Reader) (call : ReaderCall) : Prop := call.isFromEnd = false

instance (r : Reader) (call : ReaderCall) : Decidable (r.NotFromEnd call) :=
  inferInstanceAs (Decidable (call.isFromEnd = false))

/-- A reader of either kind at offset `o` of a file whose first byte is at
`base`. -/
inductive Reader.OpenedAt (disk : Disk) (path : Path) (base o : Int) : Reader → Prop where
  | rdb {size : Int} {r : RdbReader} (h : RdbReader.open disk path o size = .ok r) :
      OpenedAt disk path base o (.rdb r)
  | aof {r : AofReader} (h : AofReader.open disk path o base = .ok r) :
      OpenedAt disk path base o (.aof r)

/-- What a call may be for the positions to stay in step. -/
def ReaderCall.Keeps (base : Int) (isAof : Bool) : ReaderCall → Prop
  | .pollRead buf _ => isAof = true → buf.filled = []
  | .notReady => True
  | .startSeek (.start k) => base = 0 ∧ k < 2 ^ 63
  | .startSeek (.current _) => base = 0
  | .startSeek (.fromEnd _) => True

/-! ## What a call does -/

variable {disk : Disk} {path : Path} {base o : Int} {r r' t : Reader}

theorem readFile_eq_some {filePos room n : Nat} {bs : Bytes}
    (h : readFile disk path filePos room n = some bs) :
    bs <+: (disk.contents path).drop filePos := by
  rw [readFile] at h
  split at h
  · obtain rfl := Option.some.inj h
    exact List.take_prefix _ _
  · cases h

theorem checkedI64_eq_ok {i j : Int} (h : checkedI64 i = .ok j) : i = j := by
  rw [checkedI64] at h
  split at h
  · exact Except.ok.inj h
  · cases h

theorem bound_eq_ok {α β : Type} {x : Except SeekError α} {f : α → Except SeekError β} {b : β}
    (h : x.bind f = .ok b) : ∃ a, x = .ok a ∧ f a = .ok b := by
  cases x with
  | error e => cases h
  | ok a => exact ⟨a, rfl, h⟩

theorem mapped_eq_ok {α β : Type} {x : Except SeekError α} {f : α → β} {b : β}
    (h : x.map f = .ok b) : ∃ a, x = .ok a ∧ f a = b := by
  cases x with
  | error e => cases h
  | ok a => exact ⟨a, rfl, Except.ok.inj h⟩

theorem seekFile_eq_ok {newPos : Int} {filePos : Nat} (h : seekFile newPos = .ok filePos) :
    (filePos : Int) = newPos := by
  rw [seekFile] at h
  split at h
  · next hnonneg =>
      obtain rfl := Except.ok.inj h
      exact Int.toNat_of_nonneg hnonneg
  · cases h

/-- What a read does to a reader: it answers the bytes the file handle is at, and
its position goes on by what the kind of reader counts. -/
structure Reader.Reads (disk : Disk) (r r' : Reader) (buf buf' : ReadBuf) (bs : Bytes) : Prop where
  filled : buf'.filled = buf.filled ++ bs
  bytes : bs <+: (disk.contents r.path).drop r.filePos
  filePos : r'.filePos = r.filePos + bs.length
  currentPos : r'.currentPos
    = r.currentPos + bs.length + if r.isAof then (buf.filled.length : Int) else 0
  offset : r'.offset = r.offset
  isAof : r'.isAof = r.isAof

theorem reads_of_pollRead {buf buf' : ReadBuf} {n : Nat}
    (h : r.pollRead disk buf n = some (r', buf')) : ∃ bs, r.Reads disk r' buf buf' bs := by
  cases r with
  | rdb r =>
      obtain ⟨⟨q, buf''⟩, hread, heq⟩ := Option.map_eq_some_iff.1 h
      obtain ⟨rfl, rfl⟩ := Prod.mk.inj heq
      rw [RdbReader.pollRead] at hread
      split at hread
      · obtain ⟨rfl, rfl⟩ := Prod.mk.inj (Option.some.inj hread)
        refine ⟨[], ?_, List.nil_prefix, rfl, ?_, rfl, rfl⟩
        · exact (List.append_nil _).symm
        · show r.currentPos = r.currentPos + 0 + 0
          omega
      · obtain ⟨bs, hbs, hread⟩ := Option.bind_eq_some_iff.1 hread
        split at hread
        · obtain ⟨rfl, rfl⟩ := Prod.mk.inj (Option.some.inj hread)
          exact ⟨bs, rfl, readFile_eq_some hbs, rfl, (Int.add_zero _).symm, rfl, rfl⟩
        · cases hread
  | aof r =>
      obtain ⟨⟨q, buf''⟩, hread, heq⟩ := Option.map_eq_some_iff.1 h
      obtain ⟨rfl, rfl⟩ := Prod.mk.inj heq
      obtain ⟨bs, hbs, hread⟩ := Option.bind_eq_some_iff.1 hread
      dsimp only at hread
      split at hread
      · obtain ⟨rfl, rfl⟩ := Prod.mk.inj (Option.some.inj hread)
        refine ⟨bs, rfl, readFile_eq_some hbs, rfl, ?_, rfl, rfl⟩
        show r.currentPos + ((buf.filled ++ bs).length : Int)
          = r.currentPos + bs.length + buf.filled.length
        rw [List.length_append]
        omega
      · cases hread

/-- What a seek does to a reader: the file handle gets the position the reader
keeps. -/
structure Reader.Seeks (r r' : Reader) (newPos : Int) : Prop where
  filePos : (r'.filePos : Int) = newPos
  currentPos : r'.currentPos = newPos
  offset : r'.offset = r.offset
  isAof : r'.isAof = r.isAof

/-- The position a seek is to. -/
def Reader.newPos (r : Reader) (position : SeekFrom) : Except SeekError Int :=
  match r with
  | .rdb r => r.newPos position
  | .aof r => r.newPos position

theorem seeks_of_startSeek {position : SeekFrom} (h : r.startSeek position = .ok r') :
    ∃ newPos, r.newPos position = .ok newPos ∧ r.Seeks r' newPos := by
  cases r with
  | rdb r =>
      obtain ⟨q, hseek, rfl⟩ := mapped_eq_ok h
      obtain ⟨newPos, hnew, hseek⟩ := bound_eq_ok hseek
      split at hseek
      · cases hseek
      · obtain ⟨fileEnd, -, hseek⟩ := bound_eq_ok hseek
        split at hseek
        · cases hseek
        · obtain ⟨filePos, hfile, rfl⟩ := mapped_eq_ok hseek
          exact ⟨newPos, hnew, seekFile_eq_ok hfile, rfl, rfl, rfl⟩
  | aof r =>
      obtain ⟨q, hseek, rfl⟩ := mapped_eq_ok h
      obtain ⟨newPos, hnew, hseek⟩ := bound_eq_ok hseek
      obtain ⟨filePos, hfile, rfl⟩ := mapped_eq_ok hseek
      exact ⟨newPos, hnew, seekFile_eq_ok hfile, rfl, rfl, rfl⟩

theorem newPos_start {k : Nat} {newPos : Int} (h : r.newPos (.start k) = .ok newPos) :
    newPos = r.offset + asI64 k := by
  cases r with
  | rdb r => exact (checkedI64_eq_ok h).symm
  | aof r => exact (checkedI64_eq_ok h).symm

theorem newPos_current {d newPos : Int} (h : r.newPos (.current d) = .ok newPos) :
    newPos = r.currentPos + d := by
  cases r with
  | rdb r => exact (checkedI64_eq_ok h).symm
  | aof r => exact (checkedI64_eq_ok h).symm

/-! ## One call -/

theorem startSeek_of_call {position : SeekFrom}
    (hcall : r.call disk (.startSeek position) = some r') : r.startSeek position = .ok r' := by
  rw [Reader.call] at hcall
  cases h : r.startSeek position with
  | error e =>
      rw [h] at hcall
      cases hcall
  | ok q =>
      rw [h] at hcall
      exact congrArg _ (Option.some.inj hcall)

section

variable (hpos : r.currentPos = r.nextOffset base)
include hpos

/-- A read is right; what it counts may not be. -/
theorem right_pollRead_iff {buf buf' : ReadBuf} {n : Nat}
    (hread : r.pollRead disk buf n = some (r', buf')) :
    r.Right disk base o (.pollRead buf n) ∧ r'.currentPos = r'.nextOffset base ↔
      (r.isAof = true → buf.filled = []) := by
  obtain ⟨bs, h⟩ := reads_of_pollRead hread
  have hcurrent := h.currentPos
  have hnext : r'.nextOffset base = r.nextOffset base + bs.length := by
    rw [Reader.nextOffset, Reader.nextOffset, h.filePos]
    omega
  have hright : r.Right disk base o (.pollRead buf n) := by
    refine ⟨hpos, fun q buf'' hread' => ?_⟩
    obtain ⟨rfl, rfl⟩ := Prod.mk.inj (Option.some.inj (hread.symm.trans hread'))
    refine ⟨bs, h.filled, ?_, hnext⟩
    rw [hpos, Reader.nextOffset, add_sub_cancel_left, Int.toNat_natCast]
    exact h.bytes
  rw [and_iff_right hright, hnext, hcurrent, hpos]
  cases r.isAof with
  | false => simp
  | true =>
      rw [if_pos rfl, imp_iff_right rfl, ← List.length_eq_zero_iff]
      omega

/-- The distance is cast to an `i64`, and the sum taken for a position in the
file. -/
theorem right_start_iff (hoffset : r.offset = o) {k : Nat}
    (hseek : r.startSeek (.start k) = .ok r') :
    r.Right disk base o (.startSeek (.start k)) ∧ r'.currentPos = r'.nextOffset base ↔
      base = 0 ∧ k < 2 ^ 63 := by
  obtain ⟨newPos, hnew, h⟩ := seeks_of_startSeek hseek
  have hcurrent := h.currentPos
  have hfile := h.filePos
  have hstart := newPos_start hnew
  rw [asI64] at hstart
  have hright : r.Right disk base o (.startSeek (.start k)) ↔ r'.nextOffset base = o + k := by
    refine ⟨fun hright => hright.2 r' hseek, fun hk => ⟨hpos, fun q hq => ?_⟩⟩
    obtain rfl := Except.ok.inj (hq.symm.trans hseek)
    exact hk
  rw [hright, Reader.nextOffset]
  split at hstart
  · omega
  · omega

theorem right_current_iff {d : Int} (hseek : r.startSeek (.current d) = .ok r') :
    r.Right disk base o (.startSeek (.current d)) ∧ r'.currentPos = r'.nextOffset base ↔
      base = 0 := by
  obtain ⟨newPos, hnew, h⟩ := seeks_of_startSeek hseek
  have hcurrent := h.currentPos
  have hfile := h.filePos
  have hmoved := newPos_current hnew
  have hright : r.Right disk base o (.startSeek (.current d)) ↔
      r'.nextOffset base = r.nextOffset base + d := by
    refine ⟨fun hright => hright.2 r' hseek, fun hd => ⟨hpos, fun q hq => ?_⟩⟩
    obtain rfl := Except.ok.inj (hq.symm.trans hseek)
    exact hd
  rw [Reader.nextOffset] at hpos
  rw [hright, Reader.nextOffset, Reader.nextOffset]
  omega

/-- From where the positions are in step, a call does what it should and leaves
them so exactly if it is one of those that may be. -/
theorem right_call_iff (hoffset : r.offset = o) {call : ReaderCall} (hend : r.NotFromEnd call)
    (hcall : r.call disk call = some r') :
    r.Right disk base o call ∧ r'.currentPos = r'.nextOffset base ↔ call.Keeps base r.isAof := by
  cases call with
  | pollRead buf n =>
      obtain ⟨⟨q, buf'⟩, hread, rfl⟩ := Option.map_eq_some_iff.1 hcall
      exact right_pollRead_iff hpos hread
  | notReady =>
      obtain rfl := Option.some.inj hcall
      exact iff_of_true ⟨⟨hpos, trivial⟩, hpos⟩ trivial
  | startSeek position =>
      cases position with
      | start k => exact right_start_iff hpos hoffset (startSeek_of_call hcall)
      | current d => exact right_current_iff hpos (startSeek_of_call hcall)
      | fromEnd n => cases hend

end

/-- A call leaves a reader's kind and the offset it was opened at. -/
theorem call_keeps {call : ReaderCall} (hcall : r.call disk call = some r') :
    r'.offset = r.offset ∧ r'.isAof = r.isAof := by
  cases call with
  | pollRead buf n =>
      obtain ⟨⟨q, buf'⟩, hread, rfl⟩ := Option.map_eq_some_iff.1 hcall
      obtain ⟨bs, h⟩ := reads_of_pollRead hread
      exact ⟨h.offset, h.isAof⟩
  | notReady =>
      obtain rfl := Option.some.inj hcall
      exact ⟨rfl, rfl⟩
  | startSeek position =>
      obtain ⟨newPos, -, h⟩ := seeks_of_startSeek (startSeek_of_call hcall)
      exact ⟨h.offset, h.isAof⟩

/-! ## Every run -/

/-- Where a right run begins, the positions are in step. -/
theorem currentPos_of_right {calls : List ReaderCall}
    (hrun : Steps (Reader.call disk) (Reader.Right disk base o) r calls t)
    (hpos : t.currentPos = t.nextOffset base) : r.currentPos = r.nextOffset base := by
  cases hrun with
  | refl => exact hpos
  | cons hright _ _ => exact hright.1

theorem right_run_iff {calls : List ReaderCall}
    (hrun : Steps (Reader.call disk) Reader.NotFromEnd r calls t)
    (hpos : r.currentPos = r.nextOffset base) (hoffset : r.offset = o) :
    Steps (Reader.call disk) (Reader.Right disk base o) r calls t ∧
        t.currentPos = t.nextOffset base ↔
      ∀ call ∈ calls, call.Keeps base r.isAof := by
  induction hrun with
  | refl s =>
      refine iff_of_true ⟨.refl s, hpos⟩ fun call hcall => ?_
      cases hcall
  | @cons s u t call calls hend hcall _ ih =>
      have hiff := right_call_iff hpos hoffset hend hcall
      obtain ⟨hsame, hkind⟩ := call_keeps hcall
      rw [List.forall_mem_cons]
      constructor
      · intro ⟨hsteps, hlast⟩
        cases hsteps with
        | cons hright hcall' hrest =>
            obtain rfl := Option.some.inj (hcall'.symm.trans hcall)
            have hnext := currentPos_of_right hrest hlast
            exact ⟨hiff.1 ⟨hright, hnext⟩,
              hkind ▸ (ih hnext (hsame.trans hoffset)).1 ⟨hrest, hlast⟩⟩
      · intro ⟨hkeeps, hall⟩
        obtain ⟨hright, hnext⟩ := hiff.2 hkeeps
        obtain ⟨hrest, hlast⟩ := (ih hnext (hsame.trans hoffset)).2 (hkind ▸ hall)
        exact ⟨.cons hright hcall hrest, hlast⟩

/-- A segment's reader begins in step; that of an RDB file does at the file's own
offset alone. -/
theorem openedAt_iff (h : r.OpenedAt disk path base o) :
    r.offset = o ∧ (r.currentPos = r.nextOffset base ↔ (r.isAof = false → o = base)) := by
  cases h with
  | rdb h =>
      rw [RdbReader.open] at h
      split at h
      · obtain rfl := Except.ok.inj h
        refine ⟨rfl, ?_⟩
        show o = base + (0 : Nat) ↔ (false = false → o = base)
        rw [imp_iff_right rfl]
        omega
      · cases h
  | aof h =>
      rw [AofReader.open] at h
      split at h
      · next hcan =>
          obtain rfl := Except.ok.inj h
          refine ⟨rfl, iff_of_true ?_ (fun hrdb => by cases hrdb)⟩
          show o = base + ((o - base).toNat : Int)
          have hnonneg := hcan.2
          omega
      · cases h

/-- Through any reads and seeks `current_pos` is the global offset of the next
byte, and each of them does what it should, exactly if it is so to begin with,
nothing is sought but in a file that begins at offset 0, at distances an `i64`
holds, and the AOF reader reads into empty buffers. -/
theorem positions_right_iff (base o : Int) (hopen : r.OpenedAt disk path base o)
    {calls : List ReaderCall} (hrun : Steps (Reader.call disk) Reader.NotFromEnd r calls t) :
    Steps (Reader.call disk) (Reader.Right disk base o) r calls t ∧
        t.currentPos = t.nextOffset base ↔
      (r.isAof = false → o = base) ∧ ∀ call ∈ calls, call.Keeps base r.isAof := by
  obtain ⟨hoffset, hpos⟩ := openedAt_iff hopen
  constructor
  · intro ⟨hright, hlast⟩
    have hfirst := currentPos_of_right hright hlast
    exact ⟨hpos.1 hfirst, (right_run_iff hrun hfirst hoffset).1 ⟨hright, hlast⟩⟩
  · intro ⟨hopened, hall⟩
    exact (right_run_iff hrun (hpos.2 hopened) hoffset).2 hall

/-- A segment of six bytes that starts at an offset. -/
def sixBytes (base : Int) : Path × Disk :=
  let path : Path := { runId := "r".toList, name := aofFileName base }
  (path, (Disk.create ∅ path).append path [10, 11, 12, 13, 14, 15])

/-- Its reader, opened so many bytes after its start. -/
def sixBytesReader (base : Int) (filePos : Nat) : Reader :=
  .aof { path := (sixBytes base).1, filePos, offset := base + filePos,
         currentPos := base + filePos }

def someReaderCalls : List ReaderCall :=
  [.pollRead { filled := [], remaining := 2 } 2, .startSeek (.start 1),
   .startSeek (.current (-2)), .pollRead { filled := [], remaining := 8 } 5]

theorem positions_right_sample :
    Steps (Reader.call (sixBytes 0).2) (Reader.Right (sixBytes 0).2 0 2) (sixBytesReader 0 2)
      someReaderCalls
      (after (Reader.call (sixBytes 0).2) (sixBytesReader 0 2) someReaderCalls) := by
  have hopen : (sixBytesReader 0 2).OpenedAt (sixBytes 0).2 (sixBytes 0).1 0 2 := .aof rfl
  have hrun : Steps (Reader.call (sixBytes 0).2) Reader.NotFromEnd (sixBytesReader 0 2)
      someReaderCalls (after (Reader.call (sixBytes 0).2) (sixBytesReader 0 2) someReaderCalls) :=
    .of_after (by decide +kernel)
  refine ((positions_right_iff 0 2 hopen hrun).2 ⟨?_, ?_⟩).1
  · intro hrdb
    cases hrdb
  · simp [someReaderCalls, ReaderCall.Keeps]

/-- In a file that starts at offset 100, a seek to the second byte goes to byte
101 of the file. -/
theorem not_positions_right :
    ¬ ∀ (disk : Disk) (path : Path) (base o : Int) (r : Reader) (calls : List ReaderCall)
      (t : Reader), r.OpenedAt disk path base o →
      Steps (Reader.call disk) Reader.NotFromEnd r calls t →
      Steps (Reader.call disk) (Reader.Right disk base o) r calls t ∧
        t.currentPos = t.nextOffset base := by
  intro h
  have hopen : (sixBytesReader 100 0).OpenedAt (sixBytes 100).2 (sixBytes 100).1 100 100 :=
    .aof rfl
  have hrun : Steps (Reader.call (sixBytes 100).2) Reader.NotFromEnd (sixBytesReader 100 0)
      [.startSeek (.start 1)]
      (after (Reader.call (sixBytes 100).2) (sixBytesReader 100 0) [.startSeek (.start 1)]) :=
    .of_after (by decide +kernel)
  have hpos := (h _ _ 100 100 _ _ _ hopen hrun).2
  revert hpos
  decide +kernel

end RedisHaTool.Store
