import RedisHaTool.Proofs.Streaming

/-!
# What is delivered

The bytes a run delivers are read off its log: which bytes, and their indices in
the segment's file. As long as no call of `send_aof_data` fails after the target
has accepted some of what it sent, they are the first bytes of the file, one by
one and in order, and the number of them is where the task stands.

The caller's offset moves only when a call succeeds. A call that fails in the
middle leaves it where it was, and the retry sends the same bytes again; the
last section is that run.
-/

namespace RedisHaTool.Syncer

open Lib Store Checkpoint

/-! ## Reading the log -/

/-- The indices of the bytes an event delivers. -/
def Event.indices : Event → List Nat
  | .sent index bs => List.range' index bs.length
  | _ => []

/-- The bytes an event delivers. -/
def Event.bytes : Event → Bytes
  | .sent _ bs => bs
  | _ => []

/-- The indices of the bytes delivered, over all connections, in order. -/
def sentIndices (log : List Event) : List Nat := log.flatMap Event.indices

/-- The bytes delivered, over all connections, in order. -/
def sentBytes (log : List Event) : Bytes := log.flatMap Event.bytes

@[simp] theorem sentIndices_append (log events : List Event) :
    sentIndices (log ++ events) = sentIndices log ++ sentIndices events :=
  List.flatMap_append

@[simp] theorem sentBytes_append (log events : List Event) :
    sentBytes (log ++ events) = sentBytes log ++ sentBytes events :=
  List.flatMap_append

/-- The first `n` bytes of the file are delivered, each once and in order. -/
structure Delivered (file : Bytes) (log : List Event) (n : Nat) : Prop where
  indices : sentIndices log = List.range n
  bytes : sentBytes log = file.take n
  le_length : n ≤ file.length

theorem Delivered.append {file : Bytes} {log : List Event} {n : Nat}
    (h : Delivered file log n) (more : Bytes) : Delivered (file ++ more) log n where
  indices := h.indices
  bytes := by rw [h.bytes, List.take_append_of_le_length h.le_length]
  le_length := by
    rw [List.length_append]
    exact Nat.le_trans h.le_length (Nat.le_add_right _ _)

/-- Events that deliver nothing. -/
theorem Delivered.quiet {file : Bytes} {log : List Event} {n : Nat}
    (h : Delivered file log n) {events : List Event}
    (hevents : ∀ e ∈ events, e.indices = [] ∧ e.bytes = []) :
    Delivered file (log ++ events) n where
  indices := by
    have hnone : sentIndices events = [] :=
      List.flatMap_eq_nil_iff.2 fun e he => (hevents e he).1
    rw [sentIndices_append, hnone, List.append_nil, h.indices]
  bytes := by
    have hnone : sentBytes events = [] :=
      List.flatMap_eq_nil_iff.2 fun e he => (hevents e he).2
    rw [sentBytes_append, hnone, List.append_nil, h.bytes]
  le_length := h.le_length

/-- The next chunk of the file. -/
theorem Delivered.chunk {file : Bytes} {log : List Event} {n : Nat}
    (h : Delivered file log n) {chunk : Bytes}
    (hchunk : (file.drop n).take chunk.length = chunk)
    (hlen : n + chunk.length ≤ file.length) :
    Delivered file (log ++ [.sent n chunk]) (n + chunk.length) where
  indices := by
    have happend := List.range'_append_1 (s := 0) (m := n) (n := chunk.length)
    rw [Nat.zero_add] at happend
    rw [sentIndices_append, h.indices, List.range_eq_range', List.range_eq_range']
    simpa only [sentIndices, List.flatMap_cons, Event.indices, List.flatMap_nil,
      List.append_nil] using happend
  bytes := by
    rw [sentBytes_append, h.bytes, List.take_add, hchunk]
    simp [sentBytes, Event.bytes]
  le_length := hlen

/-! ## One step of the task -/

/-- How many bytes of the file the task has behind it. -/
def Forwarder.position (start : Int) (f : Forwarder) : Nat :=
  match f.pc with
  | .read r _ => r.filePos
  | .write r _ chunk => chunkIndex r chunk
  | _ => (f.offset - start).toNat

/-- A failing call of `send_aof_data` fails before the target has accepted a
byte of it. -/
def Forwarder.FailsClean (f : Forwarder) : ForwardAct → Prop
  | .readFailed => ∀ r sent, f.pc = .read r sent → sent = 0
  | .writeFailed accepted => accepted = 0 ∧ ∀ r sent chunk, f.pc = .write r sent chunk → sent = 0
  | _ => True

/-- What a clean step delivers is the next of the file, if anything. -/
theorem Delivered.step {path : Path} {start : Int} {storer : FileStorer}
    {masterReplid : Text} {f f' : Forwarder} {act : ForwardAct} {events log : List Event}
    (htidy : Tidy storer.dataSet path start)
    (hplaced : Placed path start (storer.disk.contents path) f)
    (hstart : start ≤ f.offset)
    (hstep : f.Stepped storer masterReplid act f' events) (hclean : f.FailsClean act)
    (h : Delivered (storer.disk.contents path) log (f.position start)) :
    start ≤ f'.offset ∧ ∃ n, Delivered (storer.disk.contents path) (log ++ events) n ∧
      (f'.pc ≠ .done → f'.position start = n) := by
  have hquiet : (∀ e ∈ events, e.indices = [] ∧ e.bytes = []) →
      Delivered (storer.disk.contents path) (log ++ events) (f.position start) := h.quiet
  cases hstep with
  | available hpc | unavailable hpc | listen hpc | noReader hpc =>
      refine ⟨hstart, _, hquiet (by simp), fun _ => ?_⟩
      simp [Forwarder.position, hpc]
  | rdbReader hpc r hreader =>
      have hlt := (getReader_rdb htidy.rdb hreader).1
      omega
  | aofReader hpc r hreader =>
      have hfilePos := (getReader_aof htidy.segment hreader).filePos_eq
      refine ⟨hstart, _, hquiet (by simp), fun _ => ?_⟩
      simp only [Forwarder.position, hpc]
      omega
  | aofConnect hpc r hreader =>
      refine ⟨hstart, _, hquiet (by simp), fun _ => ?_⟩
      simp [Forwarder.position, hpc]
  | rdbFailed r hpc | rdbPanic r hpc | rdbPassed r hpc | rdbSaving r hpc =>
      rw [Placed, hpc] at hplaced
      omega
  | connected r hpc =>
      rw [Placed, hpc] at hplaced
      have hfilePos := hplaced.filePos_eq
      refine ⟨hstart, _, hquiet (by simp [Event.indices, Event.bytes]), fun _ => ?_⟩
      simp only [Forwarder.position, hpc]
      omega
  | connectFailed r hpc =>
      refine ⟨hstart, _, hquiet (by simp), fun _ => ?_⟩
      simp [Forwarder.position, hpc]
  | read r sent n hpc hpos hbuf hlen =>
      have hchunk : ((r.remaining storer.disk).take n).length = n := by
        rw [List.length_take]
        omega
      refine ⟨hstart, _, hquiet (by simp), fun _ => ?_⟩
      simp only [Forwarder.position, hpc, chunkIndex, hchunk, AofReader.advance]
      omega
  | readFailed r sent hpc =>
      obtain rfl := hclean r sent hpc
      rw [Placed, hpc] at hplaced
      have hfilePos := hplaced.1.filePos_eq
      refine ⟨hstart, _, hquiet (by simp), fun _ => ?_⟩
      simp only [Forwarder.position, hpc]
      omega
  | finishNothing r hpc | finishPanic r sent hpc | finish r sent hpc
  | finishSaving r sent hpc =>
      rw [Placed, hpc] at hplaced
      have hfilePos := hplaced.1.filePos_eq
      refine ⟨by simp only; omega, _, hquiet (by simp), fun hdone => ?_⟩
      simp only [Forwarder.position, hpc] at hdone ⊢
      first
        | exact absurd rfl hdone
        | omega
  | wrote r sent chunk hpc =>
      rw [Placed, hpc] at hplaced
      obtain ⟨hat, -, hlen, hchunk⟩ := hplaced
      have hfilePos := hat.filePos_eq
      have hindex : chunkIndex r chunk + chunk.length = r.filePos := by
        simp only [chunkIndex]
        omega
      simp only [Forwarder.position, hpc] at h
      refine ⟨hstart, _, h.chunk hchunk (by omega), fun _ => ?_⟩
      simp only [Forwarder.position, hindex]
  | writeFailed r sent chunk hpc accepted haccepted =>
      obtain ⟨rfl, hsent⟩ := hclean
      obtain rfl := hsent r sent chunk hpc
      rw [Placed, hpc] at hplaced
      have hfilePos := hplaced.1.filePos_eq
      refine ⟨hstart, _, hquiet (by simp [Event.indices, Event.bytes]), fun _ => ?_⟩
      simp only [Forwarder.position, hpc, chunkIndex]
      omega
  | saved c cs calls hpc =>
      refine ⟨hstart, _, hquiet (by simp [Event.indices, Event.bytes]), fun _ => ?_⟩
      rcases saving_cases (cs :: calls) with h | ⟨calls', h⟩ <;>
        simp [Forwarder.position, hpc, h]
  | saveFailed c cs calls hpc executed =>
      refine ⟨hstart, _, hquiet ?_, fun _ => ?_⟩
      · cases executed <;> simp [Event.indices, Event.bytes]
      · rcases saving_cases calls with h | ⟨calls', h⟩ <;>
          simp [Forwarder.position, hpc, h]
  | cancel => exact ⟨hstart, _, hquiet (by simp), fun h => absurd rfl h⟩

/-- A task that is over stays so. -/
theorem Forwarder.Stepped.of_done {storer : FileStorer} {masterReplid : Text}
    {f f' : Forwarder} {act : ForwardAct} {events : List Event}
    (hstep : f.Stepped storer masterReplid act f' events) (hdone : f.pc = .done) :
    f'.pc = .done ∧ f'.offset = f.offset ∧ events = [] := by
  cases hstep with
  | cancel => exact ⟨rfl, rfl, rfl⟩
  | _ => simp_all

/-! ## Every run -/

/-- What has been delivered is a beginning of the file, up to where the task
stands. -/
structure Delivering (path : Path) (start : Int) (s : Sys) : Prop where
  streaming : Streaming path start s
  delivered : ∃ o f n, s.leader = .forwarding o f ∧ start ≤ f.offset ∧
    Delivered (s.storer.disk.contents path) s.log n ∧
    (f.pc ≠ .done → f.position start = n)

/-- Every failing step is a clean one. -/
def FailsClean (s : Sys) : Act → Prop
  | .forward act => ∀ o f, s.leader = .forwarding o f → f.FailsClean act
  | _ => True

/-- The test for a clean step. -/
def Forwarder.failsClean (f : Forwarder) (act : ForwardAct) : Bool :=
  match act, f.pc with
  | .readFailed, .read _ sent => sent == 0
  | .writeFailed accepted, .write _ sent _ => accepted == 0 && sent == 0
  | .writeFailed accepted, _ => accepted == 0
  | _, _ => true

theorem Forwarder.failsClean_iff {f : Forwarder} {act : ForwardAct} :
    f.failsClean act = true ↔ f.FailsClean act := by
  obtain ⟨offset, hasStream, rdbForwarded, hasManager, pc⟩ := f
  cases act <;> cases pc <;> simp [Forwarder.failsClean, Forwarder.FailsClean]

instance (s : Sys) : DecidablePred (FailsClean s)
  | .forward act =>
      match h : s.leader with
      | .forwarding o f => decidable_of_iff (f.failsClean act = true)
          ⟨fun hclean o' f' heq => by
            rw [h] at heq
            cases heq
            exact Forwarder.failsClean_iff.1 hclean,
          fun hclean => Forwarder.failsClean_iff.2 (hclean o f h)⟩
      | .spawned | .listening | .ready => .isTrue fun o f heq => by
          rw [h] at heq
          cases heq
  | .input _ | .listen | .timeout | .start => .isTrue trivial

theorem position_notified (start : Int) (f : Forwarder) :
    f.notified.position start = f.position start := by
  cases hpc : f.pc <;> simp [Forwarder.notified, Forwarder.position, hpc]

theorem notified_done (f : Forwarder) (h : f.notified.pc ≠ .done) : f.pc ≠ .done := by
  intro hpc
  exact h (by simp [Forwarder.notified, hpc])

theorem Delivering.step {path : Path} {start : Int} {s t : Sys} {act : Act}
    (h : Delivering path start s) (hclean : FailsClean s act) (hstep : s.Stepped act t) :
    Delivering path start t := by
  have hstreaming := h.streaming.step hstep
  obtain ⟨o, f, n, hleader, hstart, hdelivered, hn⟩ := h.delivered
  refine ⟨hstreaming, ?_⟩
  cases hstep with
  | input op ops now hinput =>
      have hop := h.streaming.input op (hinput ▸ List.mem_cons_self)
      have hgrows := perform_grows (s := { s with input := ops }) now h.streaming.writer hop
      generalize Sys.perform _ now op = t at hgrows ⊢
      obtain ⟨more, hfile⟩ := hgrows.file
      have hlog : t.log = s.log := hgrows.log
      have hfile' : Delivered (t.storer.disk.contents path) t.log n := by
        rw [hlog, hfile]
        exact hdelivered.append more
      rcases hgrows.leader with heq | heq
      · exact ⟨o, f, n, heq.trans hleader, hstart, hfile', hn⟩
      · refine ⟨o, f.notified, n, ?_, by simpa using hstart, hfile', ?_⟩
        · rw [heq, hleader]
          rfl
        · intro hdone
          rw [position_notified]
          exact hn (notified_done f hdone)
  | listen hleader' | timeout hleader' | start hleader' =>
      rw [hleader] at hleader'
      cases hleader'
  | forward o' g g' act events hleader' hstep =>
      rw [hleader] at hleader'
      obtain ⟨rfl, rfl⟩ := LeaderPc.forwarding.inj hleader'
      by_cases hdone : f.pc = .done
      · obtain ⟨hdone', hoffset, hevents⟩ := hstep.of_done hdone
        refine ⟨o, g', n, rfl, hoffset ▸ hstart, ?_, fun h => absurd hdone' h⟩
        simpa [hevents] using hdelivered
      · obtain ⟨hstart', n', hn', hpos⟩ := Delivered.step h.streaming.tidy
          (h.streaming.placed o f hleader) hstart hstep (hclean o f hleader)
          (hn hdone ▸ hdelivered)
        exact ⟨o, g', n', rfl, hstart', hn', hpos⟩

/-- The segment's file. -/
def aofPath (runId : Text) (start : Int) : Path := { runId, name := aofFileName start }

/-- A data set with one segment, nothing of it written yet, and a forwarding
task that starts where the segment does. -/
def Sys.streaming (disk : Disk) (runId : Text) (start : Int) (now : Nat)
    (hasManager : Bool) (masterReplid : Text) (input : List InputOp) : Sys :=
  let (storer, w) := (FileStorer.new disk).getAofWriter runId start now
  { storer, rdbWriter := none, aofWriter := some w, psyncOffset := start, masterReplid,
    hasManager := false, input, leader := .forwarding start (.new start hasManager),
    log := [] }

theorem tidy_getAofWriter (disk : Disk) (runId : Text) (start : Int) (now : Nat) :
    Tidy ((FileStorer.new disk).getAofWriter runId start now).1.dataSet
      (aofPath runId start) start where
  segment := by
    intro id a ha
    rcases mem_listed_pushSorted.1 ha with hnone | ⟨-, rfl⟩
    · exact absurd hnone List.not_mem_nil
    · exact ⟨rfl, rfl⟩
  rdb := fun id r hr => absurd hr List.not_mem_nil

section Streaming

variable (disk : Disk) (runId : Text) (start : Int) (now : Nat) (hasManager : Bool)
  (masterReplid : Text) (input : List InputOp)

theorem delivering_streaming (hinput : ∀ op ∈ input, op.IsStream) :
    Delivering (aofPath runId start) start
      (Sys.streaming disk runId start now hasManager masterReplid input) where
  streaming :=
    { tidy := tidy_getAofWriter disk runId start now
      writer := by
        intro w hw
        obtain rfl := Option.some.inj hw
        rfl
      input := hinput
      placed := by
        intro o f hf
        obtain ⟨rfl, rfl⟩ := LeaderPc.forwarding.inj hf
        exact placed_of_pc (.inl rfl) }
  delivered := by
    refine ⟨start, _, 0, rfl, Int.le_refl start, ⟨rfl, rfl, Nat.zero_le _⟩, fun _ => ?_⟩
    simp [Forwarder.position, Forwarder.new]

/-! ## Without failures -/

/-- No connection, read or write of the forwarding task fails. -/
def NoFailure (_ : Sys) : Act → Prop
  | .forward .connectFailed | .forward .readFailed | .forward (.writeFailed _) => False
  | _ => True

instance (s : Sys) : DecidablePred (NoFailure s)
  | .forward act => by
      cases act with
      | connectFailed | readFailed | writeFailed _ => exact .isFalse id
      | _ => exact .isTrue trivial
  | .input _ | .listen | .timeout | .start => .isTrue trivial

theorem failsClean_of_noFailure (s : Sys) (act : Act) (h : NoFailure s act) :
    FailsClean s act := by
  cases act with
  | forward act =>
      cases act <;> first | exact h.elim | exact fun _ _ _ => trivial
  | _ => trivial

/-- The connections opened for commands. -/
def connections (log : List Event) : Nat :=
  log.countP fun | .connected _ => true | _ => false

/-- The task has opened no connection but the one it has. -/
def OneStream (s : Sys) : Prop :=
  ∃ o f, s.leader = .forwarding o f ∧ connections s.log ≤ (if f.hasStream then 1 else 0) ∧
    ∀ r, f.pc = .connect r → f.hasStream = false

theorem connections_append (log events : List Event) :
    connections (log ++ events) = connections log + connections events :=
  List.countP_append

theorem OneStream.step {path : Path} {start : Int} {s t : Sys} {act : Act}
    (hd : Delivering path start s) (h : OneStream s) (hno : NoFailure s act)
    (hstep : s.Stepped act t) : OneStream t := by
  obtain ⟨o, f, hleader, hcount, hconnect⟩ := h
  cases hstep with
  | input op ops now hinput =>
      have hop := hd.streaming.input op (hinput ▸ List.mem_cons_self)
      have hgrows := perform_grows (s := { s with input := ops }) now hd.streaming.writer hop
      generalize Sys.perform _ now op = t at hgrows ⊢
      have hlog : t.log = s.log := hgrows.log
      rcases hgrows.leader with heq | heq
      · exact ⟨o, f, heq.trans hleader, hlog ▸ hcount, hconnect⟩
      · refine ⟨o, f.notified, ?_, ?_, ?_⟩
        · rw [heq, hleader]
          rfl
        · rw [hlog]
          cases hpc : f.pc <;> simpa [Forwarder.notified, hpc] using hcount
        · intro r hr
          cases hpc : f.pc <;> simp_all [Forwarder.notified]
  | listen hleader' | timeout hleader' | start hleader' =>
      rw [hleader] at hleader'
      cases hleader'
  | forward o' g g' act events hleader' hstep =>
      rw [hleader] at hleader'
      obtain ⟨rfl, rfl⟩ := LeaderPc.forwarding.inj hleader'
      obtain ⟨o', f', n, hleader'', hstart, -⟩ := hd.delivered
      rw [hleader] at hleader''
      obtain ⟨rfl, rfl⟩ := LeaderPc.forwarding.inj hleader''
      refine ⟨o, g', rfl, ?_⟩
      simp only [connections_append]
      cases hstep with
      | rdbReader hpc r hreader =>
          -- There is no RDB file at or after the start of the segment.
          have hlt := (getReader_rdb hd.streaming.tidy.rdb hreader).1
          omega
      | connected r hpc =>
          rw [hconnect r hpc] at hcount
          refine ⟨?_, fun r' hr' => by cases hr'⟩
          simp only [connections, List.countP_cons, List.countP_nil] at hcount ⊢
          simpa using hcount
      | connectFailed | readFailed | writeFailed => exact hno.elim
      | aofConnect hpc r hreader hstream =>
          exact ⟨by simpa [connections] using hcount, fun _ _ => hstream⟩
      | saved c cs calls hpc =>
          refine ⟨by simpa [connections] using hcount, fun r hr => ?_⟩
          rcases saving_cases (cs :: calls) with h | ⟨calls', h⟩ <;> simp [h] at hr
      | saveFailed c cs calls hpc executed =>
          refine ⟨by cases executed <;> simpa [connections] using hcount, fun r hr => ?_⟩
          rcases saving_cases calls with h | ⟨calls', h⟩ <;> simp [h] at hr
      | _ => exact ⟨by simpa [connections] using hcount, fun r hr => by simp at hr⟩

/-- Between two iterations, what the one connection has carried is exactly the
beginning of the segment, as far as the task's offset. -/
theorem sentBytes_noFailure (hinput : ∀ op ∈ input, op.IsStream) {acts : List Act} {t : Sys}
    (hrun : (Sys.streaming disk runId start now hasManager masterReplid input).Runs
      NoFailure acts t) {o : Int} {f : Forwarder} (hleader : t.leader = .forwarding o f)
    (hpc : f.pc = .check) :
    let file := t.storer.disk.contents (aofPath runId start)
    start ≤ f.offset ∧ f.offset - start ≤ file.length ∧
      sentBytes t.log = file.take (f.offset - start).toNat ∧ connections t.log ≤ 1 := by
  have hinit := delivering_streaming disk runId start now hasManager masterReplid input hinput
  have hone : OneStream
      (Sys.streaming disk runId start now hasManager masterReplid input) :=
    ⟨start, _, rfl, Nat.le_refl 0, fun r hr => by cases hr⟩
  obtain ⟨hd, o', f', hleader', hcount, -⟩ := hrun.invariant
    (I := fun s => Delivering (aofPath runId start) start s ∧ OneStream s)
    (fun s act t h hno hstep => ⟨h.1.step (failsClean_of_noFailure s act hno) hstep,
      h.2.step h.1 hno hstep⟩) ⟨hinit, hone⟩
  obtain ⟨o'', f'', n, hleader'', hstart, hdelivered, hn⟩ := hd.delivered
  rw [hleader] at hleader' hleader''
  obtain ⟨rfl, rfl⟩ := LeaderPc.forwarding.inj hleader'
  obtain ⟨rfl, rfl⟩ := LeaderPc.forwarding.inj hleader''
  obtain rfl := hn (by simp [hpc])
  have hpos : f.position start = (f.offset - start).toNat := by
    simp [Forwarder.position, hpc]
  have hle := hdelivered.le_length
  rw [hpos] at hle
  refine ⟨hstart, by omega, hpos ▸ hdelivered.bytes, ?_⟩
  split at hcount <;> omega

end Streaming

/-- Two appends, with the forwarding task in between and around them. -/
def appends : List InputOp := [.writeAof [65], .flushAof, .writeAof [66], .flushAof]

/-- The second append arrives while the first byte is on its way. -/
def quietActs : List Act :=
  [.input 0, .input 0, .forward .check, .forward .open, .forward .connected,
    .forward (.read 1), .input 0, .forward .wrote, .input 0, .forward (.read 1),
    .forward .wrote, .forward (.finish false 0)]

def sampleStart : Sys :=
  .streaming ∅ "r".toList 0 0 true "id".toList appends

theorem sentBytes_noFailure_sample :
    sentBytes (sampleStart.after quietActs).log
      = ((sampleStart.after quietActs).storer.disk.contents (aofPath "r".toList 0)).take 2 :=
  have hrun : sampleStart.Runs NoFailure quietActs (sampleStart.after quietActs) :=
    Sys.runs_after (by decide +kernel)
  (sentBytes_noFailure ∅ "r".toList 0 0 true "id".toList appends
    (by simp [appends, InputOp.IsStream]) hrun
    (o := 0) (f := { Forwarder.new 2 true with hasStream := true }) (by decide +kernel)
    rfl).2.2.1

/-! ## With failures -/

/-- When every failing call fails clean, the bytes delivered over all
connections are delivered once each and in order. -/
theorem sentIndices_failsClean (disk : Disk) (runId : Text) (start : Int) (now : Nat)
    (hasManager : Bool) (masterReplid : Text) (input : List InputOp)
    (hinput : ∀ op ∈ input, op.IsStream) {acts : List Act} {t : Sys}
    (hrun : (Sys.streaming disk runId start now hasManager masterReplid input).Runs
      FailsClean acts t) : (sentIndices t.log).Pairwise (· < ·) := by
  have hinit := delivering_streaming disk runId start now hasManager masterReplid input hinput
  have hd := hrun.invariant (fun s act t h hclean hstep => h.step hclean hstep) hinit
  obtain ⟨o, f, n, -, -, hdelivered, -⟩ := hd.delivered
  rw [hdelivered.indices]
  exact List.pairwise_lt_range

/-- The connection breaks before a byte is written, and the next one carries
on. -/
def cleanActs : List Act :=
  [.input 0, .input 0, .forward .check, .forward .open, .forward .connected,
    .forward (.read 1), .forward (.writeFailed 0), .forward .check, .forward .open,
    .forward .connected, .forward (.read 1), .forward .wrote]

theorem sentIndices_failsClean_sample :
    (sentIndices (sampleStart.after cleanActs).log).Pairwise (· < ·) :=
  have hrun : sampleStart.Runs FailsClean cleanActs (sampleStart.after cleanActs) :=
    Sys.runs_after (by decide +kernel)
  sentIndices_failsClean ∅ "r".toList 0 0 true "id".toList appends
    (by simp [appends, InputOp.IsStream]) hrun

/-- The first byte is written, the second is not: the retry sends both. -/
def retryActs : List Act :=
  [.input 0, .input 0, .forward .check, .forward .open, .forward .connected,
    .forward (.read 1), .forward .wrote, .input 0, .input 0, .forward (.read 1),
    .forward (.writeFailed 0), .forward .check, .forward .open, .forward .connected,
    .forward (.read 2), .forward .wrote, .forward (.finish false 0)]

/-- Not every pattern of write failures is harmless. -/
theorem sentIndices_repeated :
    ¬ ∀ (disk : Disk) (runId : Text) (start : Int) (now : Nat) (hasManager : Bool)
      (masterReplid : Text) (input : List InputOp), (∀ op ∈ input, op.IsStream) →
      ∀ (acts : List Act) (t : Sys),
        (Sys.streaming disk runId start now hasManager masterReplid input).Runs Free acts t →
        (sentIndices t.log).Pairwise (· < ·) := by
  intro h
  have hrun : sampleStart.Runs Free retryActs (sampleStart.after retryActs) :=
    Sys.runs_free (by decide +kernel)
  have hpairwise := h ∅ "r".toList 0 0 true "id".toList appends
    (by simp [appends, InputOp.IsStream]) retryActs _ hrun
  have hsent : sentIndices (sampleStart.after retryActs).log = [0, 0, 1] := by
    decide +kernel
  rw [hsent] at hpairwise
  exact absurd hpairwise (by decide)

end RedisHaTool.Syncer
