import RedisHaTool.Proofs.Saves

/-!
# At least once

Whatever fails, and however often, the task's offset never runs ahead of what a
connection has accepted in full: a call of `send_aof_data` that fails leaves the
offset where it was, so its bytes may be sent again, but none is passed over. And
an offset that is saved is one the task has had. So a process that starts again
from any checkpoint that was ever stored has missed no byte of the stream, and
every byte that was accepted is the one that belongs at its place.
-/

namespace RedisHaTool.Syncer

open Lib Store Checkpoint

/-! ## What a log covers -/

/-- What was accepted is what the file holds there, and covers its bytes from `m` to
before `n`. -/
structure Covered (file : Bytes) (log : List Event) (m n : Nat) : Prop where
  bytes : ∀ index bs, .sent index bs ∈ log →
    index + bs.length ≤ file.length ∧ (file.drop index).take bs.length = bs
  indices : ∀ i, m ≤ i → i < n → i ∈ sentIndices log

theorem Covered.append {file : Bytes} {log : List Event} {m n : Nat}
    (h : Covered file log m n) (more : Bytes) : Covered (file ++ more) log m n where
  bytes := by
    intro index bs hsent
    obtain ⟨hle, hbs⟩ := h.bytes index bs hsent
    rw [List.length_append]
    refine ⟨by omega, ?_⟩
    rw [List.drop_append_of_le_length (by omega),
      List.take_append_of_le_length (by rw [List.length_drop]; omega), hbs]
  indices := h.indices

theorem Covered.mono {file : Bytes} {log : List Event} {m n k : Nat}
    (h : Covered file log m n) (hle : k ≤ n) : Covered file log m k :=
  ⟨h.bytes, fun i hm hi => h.indices i hm (Nat.lt_of_lt_of_le hi hle)⟩

/-- Events that deliver nothing. -/
theorem Covered.quiet {file : Bytes} {log events : List Event} {m n : Nat}
    (h : Covered file log m n) (hevents : ∀ index bs, .sent index bs ∉ events) :
    Covered file (log ++ events) m n where
  bytes := by
    intro index bs hsent
    rcases List.mem_append.1 hsent with hsent | hsent
    · exact h.bytes index bs hsent
    · exact absurd hsent (hevents index bs)
  indices := fun i hm hi => by
    rw [sentIndices_append]
    exact List.mem_append_left _ (h.indices i hm hi)

/-- A piece of the file, from where it is covered to or before. -/
theorem Covered.sent {file : Bytes} {log : List Event} {m n index : Nat}
    (h : Covered file log m n) {bs : Bytes} (hindex : index ≤ n)
    (hle : index + bs.length ≤ file.length) (hbs : (file.drop index).take bs.length = bs) :
    Covered file (log ++ [.sent index bs]) m (max n (index + bs.length)) where
  bytes := by
    intro index' bs' hsent
    rcases List.mem_append.1 hsent with hsent | hsent
    · exact h.bytes index' bs' hsent
    · obtain ⟨rfl, rfl⟩ := Event.sent.inj (List.mem_singleton.1 hsent)
      exact ⟨hle, hbs⟩
  indices := by
    intro i hm hi
    rw [sentIndices_append, List.mem_append]
    by_cases hin : i < n
    · exact .inl (h.indices i hm hin)
    · refine .inr (List.mem_flatMap.2 ⟨_, List.mem_singleton_self _, ?_⟩)
      rw [Event.indices, List.mem_range'_1]
      omega

/-! ## One step of the task -/

/-- Where the task stands it has its offset behind it, and what the call at hand
has sent. -/
theorem le_position {path : Path} {start : Int} {file : Bytes} {f : Forwarder}
    (h : Placed path start file f) : (f.offset - start).toNat ≤ f.position start := by
  rw [Placed] at h
  rw [Forwarder.position]
  cases hpc : f.pc with
  | read r sent =>
      simp only [hpc] at h ⊢
      have hfilePos := h.1.filePos_eq
      omega
  | write r sent chunk =>
      simp only [hpc] at h ⊢
      have hfilePos := h.1.filePos_eq
      have hstart := h.1.start_le
      rw [chunkIndex]
      omega
  | _ => exact Nat.le_refl _

/-- A step leaves the task standing no further than what is covered. -/
theorem Covered.step {path : Path} {start : Int} {m : Nat} {storer : FileStorer}
    {masterReplid : Text} {f f' : Forwarder} {act : ForwardAct} {events log : List Event}
    (htidy : Tidy storer.dataSet path start)
    (hplaced : Placed path start (storer.disk.contents path) f)
    (hstep : f.Stepped storer masterReplid act f' events)
    (h : Covered (storer.disk.contents path) log m (f.position start)) :
    Covered (storer.disk.contents path) (log ++ events) m (f'.position start) := by
  have hoffset := le_position hplaced
  have hquiet : ∀ k, (∀ index bs, .sent index bs ∉ events) → k ≤ f.position start →
      Covered (storer.disk.contents path) (log ++ events) m k :=
    fun k hevents hle => (h.quiet hevents).mono hle
  cases hstep with
  | available hpc | unavailable hpc | listen hpc | noReader hpc | rdbReader hpc | aofConnect hpc
  | rdbFailed r hpc | rdbPanic r hpc | connectFailed r hpc | readFailed r sent hpc
  | finishNothing r hpc | finishPanic r sent hpc | cancel => exact hquiet _ (by simp) hoffset
  | rdbPassed r hpc | rdbSaving r hpc =>
      -- The RDB file ends where the segment starts.
      rw [Placed, hpc] at hplaced
      refine hquiet _ (by simp) ?_
      show (f.offset + r.size - start).toNat ≤ _
      omega
  | aofReader hpc r hreader =>
      have hfilePos := (getReader_aof htidy.segment hreader).filePos_eq
      refine hquiet _ (by simp) ?_
      show r.filePos ≤ _
      omega
  | connected r hpc =>
      rw [Placed, hpc] at hplaced
      have hfilePos := hplaced.filePos_eq
      refine hquiet _ (by simp) ?_
      show r.filePos ≤ _
      omega
  | read r sent n hpc hpos hbuf hlen =>
      have hchunk : ((r.remaining storer.disk).take n).length = n := by
        rw [List.length_take]
        omega
      refine hquiet _ (by simp) ?_
      simp only [Forwarder.position, hpc, chunkIndex, hchunk, AofReader.advance]
      omega
  | finish r sent hpc | finishSaving r sent hpc =>
      rw [Placed, hpc] at hplaced
      have hfilePos := hplaced.1.filePos_eq
      refine hquiet _ (by simp) ?_
      simp only [Forwarder.position, hpc]
      omega
  | wrote r sent chunk hpc =>
      rw [Placed, hpc] at hplaced
      obtain ⟨hat, -, hlen, hchunk⟩ := hplaced
      have hfilePos := hat.filePos_eq
      have hstart := hat.start_le
      have hindex : chunkIndex r chunk + chunk.length = r.filePos := by
        simp only [chunkIndex]
        omega
      simp only [Forwarder.position, hpc] at h
      refine (h.sent (Nat.le_refl _) (by omega) hchunk).mono ?_
      simp only [Forwarder.position]
      omega
  | writeFailed r sent chunk hpc accepted haccepted =>
      rw [Placed, hpc] at hplaced
      obtain ⟨hat, -, hlen, hchunk⟩ := hplaced
      have hfilePos := hat.filePos_eq
      have hstart := hat.start_le
      have hindex : chunkIndex r chunk + chunk.length = r.filePos := by
        simp only [chunkIndex]
        omega
      have haccept : (chunk.take accepted).length = accepted := by
        rw [List.length_take]
        omega
      have hpart : ((storer.disk.contents path).drop (chunkIndex r chunk)).take
          (chunk.take accepted).length = chunk.take accepted := by
        rw [haccept]
        conv_rhs => rw [← hchunk, List.take_take, Nat.min_eq_left (by omega)]
      simp only [Forwarder.position, hpc] at h hoffset
      refine (h.sent (Nat.le_refl _) (by omega) hpart).mono ?_
      exact Nat.le_trans hoffset (Nat.le_max_left _ _)
  | saved c cs calls hpc =>
      refine hquiet _ (by simp) ?_
      rcases saving_cases (cs :: calls) with hsave | ⟨calls', hsave⟩
      · simpa [Forwarder.position, hsave] using hoffset
      · simpa [Forwarder.position, hsave] using hoffset
  | saveFailed c cs calls hpc executed =>
      refine hquiet _ (by cases executed <;> simp) ?_
      rcases saving_cases calls with hsave | ⟨calls', hsave⟩
      · simpa [Forwarder.position, hsave] using hoffset
      · simpa [Forwarder.position, hsave] using hoffset

/-- The offset only grows. -/
theorem le_offset_of_stepped {path : Path} {start : Int} {storer : FileStorer}
    {masterReplid : Text} {f f' : Forwarder} {act : ForwardAct} {events : List Event}
    {file : Bytes} (hplaced : Placed path start file f)
    (hstep : f.Stepped storer masterReplid act f' events) : f.offset ≤ f'.offset := by
  cases hstep with
  | rdbPassed r hpc | rdbSaving r hpc =>
      rw [Placed, hpc] at hplaced
      show f.offset ≤ f.offset + r.size
      omega
  | finish r sent hpc | finishSaving r sent hpc =>
      show f.offset ≤ f.offset + sent
      omega
  | _ => exact Int.le_refl _

/-! ## What is saved -/

/-- The offset does not lie before the segment, and the file's bytes from `m` up to
it have all been accepted. -/
def Behind (start : Int) (m : Nat) (log : List Event) (o : Int) : Prop :=
  start ≤ o ∧ ∀ i, m ≤ i → i < (o - start).toNat → i ∈ sentIndices log

theorem behind_congr {start : Int} {m : Nat} {log log' : List Event}
    (h : sentIndices log' = sentIndices log) : Behind start m log' = Behind start m log := by
  funext o
  rw [Behind, Behind, h]

/-- All that was accepted covers the file as far as the task stands, and as far
as every offset that was stored or is about to be. -/
structure Forwarder.Covers (start : Int) (m : Nat) (file : Bytes) (log : List Event)
    (f : Forwarder) : Prop where
  covered : Covered file log m (f.position start)
  saved : SavesIn (Behind start m) log
  pending : f.Pending (Behind start m log)

section Covers

variable {path : Path} {start : Int} {m : Nat} {storer : FileStorer} {masterReplid : Text}
  {f f' : Forwarder} {act : ForwardAct} {file : Bytes} {events log : List Event}

theorem Forwarder.Covers.append (h : f.Covers start m file log) (more : Bytes) :
    f.Covers start m (file ++ more) log :=
  ⟨h.covered.append more, h.saved, h.pending⟩

theorem Forwarder.Covers.notified (h : f.Covers start m file log) :
    f.notified.Covers start m file log := by
  refine ⟨?_, h.saved, h.pending.notified⟩
  rw [position_notified]
  exact h.covered

theorem Forwarder.Covers.step (htidy : Tidy storer.dataSet path start)
    (hplaced : Placed path start (storer.disk.contents path) f)
    (h : f.Covers start m (storer.disk.contents path) log)
    (hstep : f.Stepped storer masterReplid act f' events) :
    f'.Covers start m (storer.disk.contents path) (log ++ events) := by
  have hcommand : ∀ c, Behind start m (log ++ [.command c]) = Behind start m log := by
    intro c
    refine behind_congr ?_
    rw [sentIndices_append]
    exact List.append_nil _
  have hrdb : ∀ r, f.pc = .sendRdb r → IsI64 (f.offset + r.size) →
      Behind start m log (f.offset + r.size) := by
    intro r hpc _
    rw [Placed, hpc] at hplaced
    refine ⟨by omega, fun i _ hi => ?_⟩
    omega
  have haof : ∀ r sent, f.pc = .read r sent → sent ≠ 0 → r.remaining storer.disk = [] →
      IsI64 (f.offset + sent) → Behind start m log (f.offset + sent) := by
    intro r sent hpc _ _ _
    rw [Placed, hpc] at hplaced
    have hfilePos := hplaced.1.filePos_eq
    have hstart := hplaced.1.start_le
    refine ⟨by omega, fun i hm hi => h.covered.indices i hm ?_⟩
    rw [Forwarder.position, hpc]
    show i < r.filePos
    omega
  obtain ⟨hsaved, hpending⟩ :=
    saves_stepped hcommand hrdb haof hstep h.saved h.pending
  exact ⟨h.covered.step htidy hplaced hstep, hsaved, hpending⟩

end Covers

/-! ## Every run -/

/-- A segment is there, and a task that covers it. -/
structure Covering (path : Path) (start : Int) (s : Sys) : Prop where
  streaming : Streaming path start s
  task : ∃ o f, s.leader = .forwarding o f ∧ start ≤ f.offset ∧
    f.Covers start 0 (s.storer.disk.contents path) s.log

theorem Covering.of_leader {path : Path} {start o : Int} {s : Sys} {f : Forwarder}
    (h : Covering path start s) (hleader : s.leader = .forwarding o f) :
    start ≤ f.offset ∧ f.Covers start 0 (s.storer.disk.contents path) s.log := by
  obtain ⟨o', f', hf', hcovers⟩ := h.task
  rw [hleader] at hf'
  obtain ⟨-, rfl⟩ := LeaderPc.forwarding.inj hf'
  exact hcovers

theorem Covering.step {path : Path} {start : Int} {s t : Sys} {act : Act}
    (h : Covering path start s) (hstep : s.Stepped act t) : Covering path start t := by
  obtain ⟨o, f, hleader, hstart, hcovers⟩ := h.task
  have hstreaming := h.streaming.step hstep
  cases hstep with
  | input op ops now hinput =>
      have hop := h.streaming.input op (hinput ▸ List.mem_cons_self)
      have hgrows := perform_grows (s := { s with input := ops }) now h.streaming.writer hop
      generalize Sys.perform _ now op = t at hgrows hstreaming ⊢
      obtain ⟨more, hfile⟩ := hgrows.file
      have hlog : t.log = s.log := hgrows.log
      refine ⟨hstreaming, ?_⟩
      rw [hlog, hfile]
      rcases hgrows.leader with heq | heq
      · exact ⟨o, f, heq.trans hleader, hstart, hcovers.append more⟩
      · refine ⟨o, f.notified, ?_, by simpa using hstart, (hcovers.append more).notified⟩
        rw [heq, hleader]
        rfl
  | listen hleader' | timeout hleader' | start hleader' =>
      rw [hleader] at hleader'
      cases hleader'
  | forward o' g g' act events hleader' hstep =>
      rw [hleader] at hleader'
      obtain ⟨rfl, rfl⟩ := LeaderPc.forwarding.inj hleader'
      have hplaced := h.streaming.placed o f hleader
      exact ⟨hstreaming, o, g', rfl, Int.le_trans hstart (le_offset_of_stepped hplaced hstep),
        hcovers.step h.streaming.tidy hplaced hstep⟩

theorem covering_streaming (disk : Disk) (runId : Text) (start : Int) (now : Nat)
    (hasManager : Bool) (masterReplid : Text) {input : List InputOp}
    (hinput : ∀ op ∈ input, op.IsStream) :
    Covering (aofPath runId start) start
      (Sys.streaming disk runId start now hasManager masterReplid input) := by
  have hinit := delivering_streaming disk runId start now hasManager masterReplid input hinput
  refine ⟨hinit.streaming, start, _, rfl, Int.le_refl start, ?_, fun pre c post hlog => ?_,
    fun calls hpc => ?_⟩
  · refine ⟨fun index bs hsent => absurd hsent List.not_mem_nil, fun i _ hi => ?_⟩
    simp [Forwarder.position, Forwarder.new] at hi
  · cases List.append_eq_nil_iff.1 hlog.symm |>.2
  · cases hpc

/-- In every run, whatever connections, reads, writes and saves fail in it and
wherever: each piece a connection accepted is the file's at its place; an offset
that is stored has every byte before it accepted already; and so has the task's. -/
theorem savedOffset_delivered (disk : Disk) (runId : Text) (start : Int) (now : Nat)
    (hasManager : Bool) (masterReplid : Text) {input : List InputOp}
    (hinput : ∀ op ∈ input, op.IsStream) {acts : List Act} {t : Sys}
    (hrun : (Sys.streaming disk runId start now hasManager masterReplid input).Runs
      Free acts t) :
    (∀ index bs, .sent index bs ∈ t.log →
      ((t.storer.disk.contents (aofPath runId start)).drop index).take bs.length = bs) ∧
    (∀ pre id o post,
      t.log = pre ++ .command (.hset checkpointKey (offsetField id) (intToString o)) :: post →
      start ≤ o ∧ ∀ i < (o - start).toNat, i ∈ sentIndices pre) ∧
    ∃ o f, t.leader = .forwarding o f ∧ start ≤ f.offset ∧
      ∀ i < (f.offset - start).toNat, i ∈ sentIndices t.log := by
  have h := hrun.invariant (fun _ _ _ h _ hstep => Covering.step h hstep)
    (covering_streaming disk runId start now hasManager masterReplid hinput)
  obtain ⟨o, f, hleader, hstart, hcovers⟩ := h.task
  refine ⟨fun index bs hsent => (hcovers.covered.bytes index bs hsent).2,
    fun pre id o post hlog => ?_, o, f, hleader, hstart, fun i hi => ?_⟩
  · obtain ⟨hstart, hsent⟩ := hcovers.saved pre _ post hlog id o rfl
    exact ⟨hstart, fun i => hsent i (Nat.zero_le i)⟩
  · have hle := le_position (h.streaming.placed o f hleader)
    exact hcovers.covered.indices i (Nat.zero_le i) (Nat.lt_of_lt_of_le hi hle)

theorem savedOffset_delivered_retryActs :
    0 ∈ sentIndices (sampleStart.after retryActs).log ∧
      1 ∈ sentIndices (sampleStart.after retryActs).log := by
  have hrun : sampleStart.Runs Free retryActs (sampleStart.after retryActs) :=
    Sys.runs_free (by decide +kernel)
  obtain ⟨-, -, o, f, hleader, -, hsent⟩ := savedOffset_delivered ∅ "r".toList 0 0 true
    "id".toList (by simp [appends, InputOp.IsStream]) hrun
  have hoffset : (sampleStart.after retryActs).leader
      = .forwarding 0 { Forwarder.new 2 true with hasStream := true } := by decide +kernel
  rw [hoffset] at hleader
  obtain ⟨rfl, rfl⟩ := LeaderPc.forwarding.inj hleader
  exact ⟨hsent 0 (by decide), hsent 1 (by decide)⟩

end RedisHaTool.Syncer
