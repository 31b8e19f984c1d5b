import RedisHaTool.Proofs.Steps

/-!
# One segment, written and forwarded

The invariant that everything about forwarding rests on. A store that lists one
AOF segment, and RDB files that end where it starts, gives the forwarding task a
reader of that segment, at the place its offset stands for. The input task only
ever appends to the segment's file, so what a reader has read of it stays true
whatever is appended between any two steps.

`Placed` is that knowledge for one state of the task, `Streaming` the invariant
of the whole machine from the moment the segment exists.
-/

namespace RedisHaTool.Syncer

open Lib Store Checkpoint

/-! ## What the store lists -/

/-- The segments listed are one file that starts at `start`; RDB files end
there. -/
structure Tidy (d : DataSet) (path : Path) (start : Int) : Prop where
  segment : ∀ id, ∀ a ∈ listed d.aofSegments id, a.path = path ∧ a.offset = start
  rdb : ∀ id, ∀ r ∈ listed d.rdbFiles id, r.offset + r.size = start

/-- The reader stands `n` bytes past the place of the offset. -/
structure At (path : Path) (start offset : Int) (r : AofReader) (n : Nat) : Prop where
  path_eq : r.path = path
  start_le : start ≤ offset
  filePos_eq : (r.filePos : Int) = offset - start + n

/-- A reader comes from one of the run ids. -/
theorem exists_readerOf {storer : FileStorer} {offset : Int} {reader : Reader}
    (h : storer.getReader offset = .ok reader) :
    ∃ id, storer.readerOf offset id = some (.ok reader) := by
  rw [FileStorer.getReader] at h
  cases hfind : storer.dataSet.runIds.findSome? (storer.readerOf offset) with
  | none =>
      rw [hfind] at h
      cases h
  | some result =>
      rw [hfind, Option.getD_some] at h
      subst h
      obtain ⟨id, -, hid⟩ := List.exists_of_findSome?_eq_some hfind
      exact ⟨id, hid⟩

/-- An RDB reader is answered only below the end of the RDB files. -/
theorem getReader_rdb {storer : FileStorer} {start offset : Int} {r : RdbReader}
    (hrdb : ∀ id, ∀ r ∈ listed storer.dataSet.rdbFiles id, r.offset + r.size = start)
    (h : storer.getReader offset = .ok (.rdb r)) :
    offset < start ∧ offset + r.size = start := by
  obtain ⟨id, hid⟩ := exists_readerOf h
  rw [FileStorer.readerOf] at hid
  cases hfind : storer.dataSet.findRdb id offset with
  | some rdb =>
      obtain ⟨hmem, -, hlt⟩ := findRdb_eq_some hfind
      have hend := hrdb id rdb hmem
      rw [hfind] at hid
      simp only [Option.some.injEq] at hid
      rw [RdbReader.open] at hid
      split at hid
      · obtain rfl := Reader.rdb.inj (Except.ok.inj hid)
        refine ⟨by omega, ?_⟩
        simp only
        omega
      · cases hid
  | none =>
      rw [hfind] at hid
      obtain ⟨aof, -, hopen⟩ := Option.map_eq_some_iff.1 hid
      cases hreader : AofReader.open storer.disk aof.path offset aof.offset <;>
        rw [hreader] at hopen <;> cases hopen

/-- An AOF reader is one of a segment that is found, where the offset stands. -/
theorem exists_findAof {storer : FileStorer} {offset : Int} {r : AofReader}
    (h : storer.getReader offset = .ok (.aof r)) :
    ∃ id aof, storer.dataSet.findAof id offset = some aof ∧
      At aof.path aof.offset offset r 0 := by
  obtain ⟨id, hid⟩ := exists_readerOf h
  rw [FileStorer.readerOf] at hid
  cases hfind : storer.dataSet.findRdb id offset with
  | some rdb =>
      rw [hfind] at hid
      simp only [Option.some.injEq] at hid
      cases hreader : RdbReader.open storer.disk rdb.path offset
          (rdb.offset + rdb.size - offset) <;>
        rw [hreader] at hid <;> cases hid
  | none =>
      rw [hfind] at hid
      obtain ⟨aof, haof, hopen⟩ := Option.map_eq_some_iff.1 hid
      have hle := (findAof_eq_some haof).2
      rw [AofReader.open] at hopen
      split at hopen
      · obtain rfl := Reader.aof.inj (Except.ok.inj hopen)
        refine ⟨id, aof, haof, rfl, hle, ?_⟩
        simp only
        omega
      · cases hopen

theorem getReader_aof {storer : FileStorer} {path : Path} {start offset : Int}
    {r : AofReader}
    (hsegment : ∀ id, ∀ a ∈ listed storer.dataSet.aofSegments id,
      a.path = path ∧ a.offset = start)
    (h : storer.getReader offset = .ok (.aof r)) : At path start offset r 0 := by
  obtain ⟨id, aof, haof, hat⟩ := exists_findAof h
  obtain ⟨rfl, rfl⟩ := hsegment id aof (findAof_eq_some haof).1
  exact hat

/-! ## The forwarding task -/

/-- What is known of the task in each of its states, the segment's file holding
`file`. -/
def Placed (path : Path) (start : Int) (file : Bytes) (f : Forwarder) : Prop :=
  match f.pc with
  | .sendRdb r => f.offset < start ∧ f.offset + r.size = start
  | .connect r => At path start f.offset r 0
  | .read r sent => At path start f.offset r sent ∧ (sent ≠ 0 → r.filePos ≤ file.length)
  | .write r sent chunk =>
      At path start f.offset r (sent + chunk.length) ∧ chunk ≠ [] ∧
        r.filePos ≤ file.length ∧
        (file.drop (chunkIndex r chunk)).take chunk.length = chunk
  | _ => True

theorem placed_of_pc {path : Path} {start : Int} {file : Bytes} {f : Forwarder}
    (h : f.pc = .check ∨ f.pc = .idle ∨ f.pc = .waiting ∨ f.pc = .open ∨ f.pc = .done ∨
      ∃ calls, f.pc = .save calls) : Placed path start file f := by
  rcases h with h | h | h | h | h | ⟨calls, h⟩ <;> simp [Placed, h]

/-- Nothing that was read is changed by what is appended. -/
theorem Placed.append {path : Path} {start : Int} {file : Bytes} {f : Forwarder}
    (h : Placed path start file f) (more : Bytes) :
    Placed path start (file ++ more) f := by
  unfold Placed at h ⊢
  split
  · next hpc => simpa [hpc] using h
  · next hpc => simpa [hpc] using h
  · next r sent hpc =>
      simp only [hpc] at h
      refine ⟨h.1, fun hsent => ?_⟩
      rw [List.length_append]
      exact Nat.le_trans (h.2 hsent) (Nat.le_add_right _ _)
  · next r sent chunk hpc =>
      simp only [hpc] at h
      obtain ⟨hat, hne, hlen, hchunk⟩ := h
      refine ⟨hat, hne, ?_, ?_⟩
      · rw [List.length_append]
        omega
      · have hpos := hat.filePos_eq
        have hstart := hat.start_le
        have hindex : chunkIndex r chunk + chunk.length = r.filePos := by
          simp only [chunkIndex]
          omega
        rw [List.drop_append_of_le_length (by omega),
          List.take_append_of_le_length (by rw [List.length_drop]; omega), hchunk]
  · trivial

theorem saving_cases (calls : List (List Command)) :
    ForwardPc.saving calls = .check ∨ ∃ calls', ForwardPc.saving calls = .save calls' := by
  unfold ForwardPc.saving
  split
  · exact .inl rfl
  · exact .inr ⟨_, rfl⟩

/-- Every step of the task leaves it in a state of which as much is known. -/
theorem Placed.step {path : Path} {start : Int} {storer : FileStorer}
    {masterReplid : Text} {f f' : Forwarder} {act : ForwardAct} {events : List Event}
    (htidy : Tidy storer.dataSet path start)
    (h : Placed path start (storer.disk.contents path) f)
    (hstep : f.Stepped storer masterReplid act f' events) :
    Placed path start (storer.disk.contents path) f' := by
  cases hstep with
  | available | unavailable | listen | noReader | rdbFailed | rdbPanic | rdbPassed
  | rdbSaving | connectFailed | readFailed | finishNothing | finishPanic | finish
  | finishSaving | writeFailed | cancel => exact placed_of_pc (by simp)
  | rdbReader hpc r hreader => exact getReader_rdb htidy.rdb hreader
  | aofReader hpc r hreader hstream =>
      exact ⟨getReader_aof htidy.segment hreader, fun h => absurd rfl h⟩
  | aofConnect hpc r hreader hstream => exact getReader_aof htidy.segment hreader
  | connected r hpc =>
      rw [Placed, hpc] at h
      exact ⟨h, fun h => absurd rfl h⟩
  | read r sent n hpc hpos hbuf hlen =>
      rw [Placed, hpc] at h
      obtain ⟨hat, -⟩ := h
      have hremaining : r.remaining storer.disk
          = (storer.disk.contents path).drop r.filePos := by
        rw [AofReader.remaining, hat.path_eq]
      rw [hremaining] at hlen
      have hchunk : ((r.remaining storer.disk).take n).length = n := by
        rw [hremaining, List.length_take]
        omega
      rw [List.length_drop] at hlen
      have hfilePos := hat.filePos_eq
      refine ⟨⟨hat.path_eq, hat.start_le, ?_⟩, ?_, ?_, ?_⟩
      · simp only [AofReader.advance, hchunk]
        omega
      · intro hnil
        rw [hnil] at hchunk
        simp only [List.length_nil] at hchunk
        omega
      · simp only [AofReader.advance]
        omega
      · simp only [chunkIndex, AofReader.advance, hchunk, Nat.add_sub_cancel]
        rw [hremaining]
  | wrote r sent chunk hpc =>
      rw [Placed, hpc] at h
      exact ⟨h.1, fun _ => h.2.2.1⟩
  | saved c cs calls hpc =>
      rcases saving_cases (cs :: calls) with h | ⟨calls', h⟩ <;>
        exact placed_of_pc (by simp [h])
  | saveFailed c cs calls hpc executed =>
      rcases saving_cases calls with h | ⟨calls', h⟩ <;>
        exact placed_of_pc (by simp [h])

/-! ## The machine -/

/-- The effects that remain once the segment is there. -/
def InputOp.IsStream : InputOp → Prop
  | .storePsyncOffset _ | .writeAof _ | .flushAof => True
  | _ => False

/-- The segment exists, is being written, and is what the task forwards. -/
structure Streaming (path : Path) (start : Int) (s : Sys) : Prop where
  tidy : Tidy s.storer.dataSet path start
  writer : ∀ w, s.aofWriter = some w → w.path = path
  input : ∀ op ∈ s.input, op.IsStream
  placed : ∀ o f, s.leader = .forwarding o f →
    Placed path start (s.storer.disk.contents path) f

/-- What an effect of the stream changes: the file grows, the task may be
woken. -/
structure Grows (path : Path) (s t : Sys) : Prop where
  dataSet : t.storer.dataSet = s.storer.dataSet
  file : ∃ more, t.storer.disk.contents path = s.storer.disk.contents path ++ more
  writer : ∀ w, t.aofWriter = some w → w.path = path
  leader : t.leader = s.leader ∨ t.leader = s.leader.dataReady
  log : t.log = s.log
  masterReplid : t.masterReplid = s.masterReplid
  hasManager : t.hasManager = s.hasManager
  input : t.input = s.input

theorem BufWriter.write_grows (w : BufWriter) (bs : Bytes) (disk : Disk) :
    ∃ more, (w.write bs disk).2.contents w.path = disk.contents w.path ++ more := by
  by_cases hroom : w.buf.length + bs.length > BufWriter.capacity
  · by_cases hbig : BufWriter.capacity ≤ bs.length <;>
      simp [BufWriter.write, BufWriter.flush, hroom, hbig]
  · by_cases hbig : BufWriter.capacity ≤ bs.length <;>
      simp [BufWriter.write, hroom, hbig]

theorem perform_grows {path : Path} {s : Sys} {op : InputOp} (now : Nat)
    (hwriter : ∀ w, s.aofWriter = some w → w.path = path) (hop : op.IsStream) :
    Grows path s (s.perform now op) := by
  cases op with
  | storePsyncOffset offset =>
      exact ⟨rfl, ⟨[], by simp [Sys.perform]⟩, hwriter, .inl rfl, rfl, rfl, rfl, rfl⟩
  | writeAof bs =>
      simp only [Sys.perform, Sys.writeAof]
      cases hw : s.aofWriter with
      | none =>
          exact ⟨rfl, ⟨[], by simp⟩, fun w h => by simp [hw] at h, .inl rfl, rfl, rfl, rfl, rfl⟩
      | some w =>
          have hpath := hwriter w hw
          refine ⟨rfl, ?_, ?_, .inl rfl, rfl, rfl, rfl, rfl⟩
          · obtain ⟨more, hmore⟩ := BufWriter.write_grows w bs s.storer.disk
            rw [hpath] at hmore
            exact ⟨more, hmore⟩
          · intro w' hw'
            obtain rfl := Option.some.inj hw'
            rw [BufWriter.write_path, hpath]
  | flushAof =>
      simp only [Sys.perform, Sys.flushAof]
      cases hw : s.aofWriter with
      | none =>
          exact ⟨rfl, ⟨[], by simp⟩, fun w h => by simp [hw] at h, .inl rfl, rfl, rfl, rfl, rfl⟩
      | some w =>
          have hpath := hwriter w hw
          refine ⟨rfl, ⟨w.buf, ?_⟩, ?_, .inr rfl, rfl, rfl, rfl, rfl⟩
          · simp only [← hpath]
            exact w.flush_contents s.storer.disk
          · intro w' hw'
            obtain rfl := Option.some.inj hw'
            exact hpath
  | _ => exact hop.elim

theorem Placed.notified {path : Path} {start : Int} {file : Bytes} {f : Forwarder}
    (h : Placed path start file f) : Placed path start file f.notified := by
  unfold Forwarder.notified
  split
  · exact placed_of_pc (by simp)
  · exact h

/-- The invariant holds from the moment the segment exists. -/
theorem Streaming.step {path : Path} {start : Int} {s t : Sys} {act : Act}
    (h : Streaming path start s) (hstep : s.Stepped act t) : Streaming path start t := by
  cases hstep with
  | input op ops now hinput =>
      have hop : op.IsStream := h.input op (hinput ▸ List.mem_cons_self)
      have hgrows := perform_grows (s := { s with input := ops }) now h.writer hop
      obtain ⟨more, hfile⟩ := hgrows.file
      refine ⟨hgrows.dataSet ▸ h.tidy, hgrows.writer, ?_, ?_⟩
      · intro op' hop'
        rw [hgrows.input] at hop'
        exact h.input op' (hinput ▸ List.mem_cons_of_mem op hop')
      · intro o f hleader
        rw [hfile]
        rcases hgrows.leader with heq | heq
        · exact (h.placed o f (heq ▸ hleader)).append more
        · rw [heq] at hleader
          cases hs : s.leader with
          | forwarding o' g =>
              simp only [hs, LeaderPc.dataReady, LeaderPc.forwarding.injEq] at hleader
              obtain ⟨rfl, rfl⟩ := hleader
              exact (h.placed _ g hs).notified.append more
          | spawned | listening | ready =>
              simp [hs, LeaderPc.dataReady] at hleader
  | listen hleader | timeout hleader =>
      refine ⟨h.tidy, h.writer, h.input, ?_⟩
      intro o f hf
      cases hf
  | start hleader =>
      refine ⟨h.tidy, h.writer, h.input, ?_⟩
      intro o f hf
      obtain ⟨rfl, rfl⟩ := LeaderPc.forwarding.inj hf
      exact placed_of_pc (.inl rfl)
  | forward o f f' act events hleader hstep =>
      refine ⟨h.tidy, h.writer, h.input, ?_⟩
      intro o' g hg
      obtain ⟨rfl, rfl⟩ := LeaderPc.forwarding.inj hg
      exact (h.placed o f hleader).step h.tidy hstep

end RedisHaTool.Syncer
