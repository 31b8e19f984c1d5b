import RedisHaTool.Proofs.Handshake
import RedisHaTool.Proofs.Phases
import RedisHaTool.Proofs.RespRoundTrip
import RedisHaTool.Proofs.Saves
import RedisHaTool.Syncer.Restart

/-!
# Where a restart resumes

An offset that is saved is the segment's start plus the number of bytes the
target has: it names the first byte of the file that is still to be sent.
Whether the byte the source then sends is that one depends on how the start was
numbered. A segment that begins at the offset of a `+FULLRESYNC` begins with the
byte after it; one that begins at the offset of a `PSYNC` begins with that very
byte. So a checkpoint saved after a `+CONTINUE` resumes where it should, and one
saved after a full resynchronisation asks for the last byte once more.
-/

namespace RedisHaTool.Syncer

open Lib Store Checkpoint Resp

/-! ## What an offset stands for -/

/-- The offset of the first byte after all that were sent. -/
def AfterSent (start : Int) (log : List Event) (o : Int) : Prop :=
  ∃ n : Nat, o = start + n ∧ (∀ i ∈ sentIndices log, i < n) ∧
    ∀ m, n = m + 1 → m ∈ sentIndices log

theorem AfterSent.of_sentIndices {start o : Int} {log log' : List Event}
    (h : AfterSent start log o) (heq : sentIndices log' = sentIndices log) :
    AfterSent start log' o := by
  unfold AfterSent at h ⊢
  rwa [heq]

theorem afterSent_congr {start : Int} {log log' : List Event}
    (h : sentIndices log' = sentIndices log) :
    AfterSent start log' = AfterSent start log :=
  funext fun _ => propext ⟨fun ho => ho.of_sentIndices h.symm, fun ho => ho.of_sentIndices h⟩

/-- What the task knows of what it has sent. -/
structure Forwarder.Sent (start : Int) (log : List Event) (f : Forwarder) : Prop where
  pending : f.Pending (AfterSent start log)
  early : f.offset < start → sentIndices log = []
  last : ∀ r sent, f.pc = .read r sent → sent ≠ 0 →
    ∃ m, r.filePos = m + 1 ∧ m ∈ sentIndices log

theorem Forwarder.Sent.notified {start : Int} {log : List Event} {f : Forwarder}
    (h : f.Sent start log) : f.notified.Sent start log := by
  refine ⟨h.pending.notified, by simpa using h.early, fun r sent hpc hsent => ?_⟩
  refine h.last r sent ?_ hsent
  unfold Forwarder.notified at hpc
  split at hpc
  · cases hpc
  · exact hpc

theorem Forwarder.Sent.of_sentIndices {start : Int} {log log' : List Event} {f : Forwarder}
    (h : f.Sent start log) (heq : sentIndices log' = sentIndices log) : f.Sent start log' where
  pending := afterSent_congr heq ▸ h.pending
  early := heq ▸ h.early
  last := heq ▸ h.last

/-- The indices a step delivers lie in the file. -/
theorem indices_lt_of_stepped {path : Path} {start : Int} {storer : FileStorer}
    {masterReplid : Text} {f f' : Forwarder} {act : ForwardAct} {events : List Event}
    (hplaced : Placed path start (storer.disk.contents path) f)
    (hstep : f.Stepped storer masterReplid act f' events) :
    ∀ i ∈ sentIndices events, i < (storer.disk.contents path).length := by
  intro i hi
  cases hstep with
  | wrote r sent chunk hpc =>
      rw [Placed, hpc] at hplaced
      obtain ⟨hat, -, hlen, -⟩ := hplaced
      have hfilePos := hat.filePos_eq
      have hstart := hat.start_le
      simp only [sentIndices, List.flatMap_cons, Event.indices, List.flatMap_nil,
        List.append_nil, List.mem_range'_1, chunkIndex] at hi
      omega
  | writeFailed r sent chunk hpc accepted haccepted =>
      rw [Placed, hpc] at hplaced
      obtain ⟨hat, -, hlen, -⟩ := hplaced
      have hfilePos := hat.filePos_eq
      have hstart := hat.start_le
      simp only [sentIndices, List.flatMap_cons, Event.indices, List.flatMap_nil,
        List.append_nil, List.mem_range'_1, chunkIndex, List.length_take] at hi
      omega
  | saveFailed c cs calls hpc executed =>
      cases executed <;> exact absurd hi List.not_mem_nil
  | _ => exact absurd hi List.not_mem_nil

/-- One step of the task, the file holding all that was sent. -/
theorem Forwarder.Sent.step {path : Path} {start : Int} {storer : FileStorer}
    {masterReplid : Text} {f f' : Forwarder} {act : ForwardAct} {events log : List Event}
    (hplaced : Placed path start (storer.disk.contents path) f)
    (hsent : ∀ i ∈ sentIndices log, i < (storer.disk.contents path).length)
    (hsaved : SavesIn (AfterSent start) log) (h : f.Sent start log)
    (hstep : f.Stepped storer masterReplid act f' events) :
    SavesIn (AfterSent start) (log ++ events) ∧ f'.Sent start (log ++ events) := by
  have hcommand : ∀ c, AfterSent start (log ++ [.command c]) = AfterSent start log := by
    intro c
    refine afterSent_congr ?_
    rw [sentIndices_append]
    exact List.append_nil _
  have hrdb : ∀ r, f.pc = .sendRdb r → IsI64 (f.offset + r.size) →
      AfterSent start log (f.offset + r.size) := by
    intro r hpc _
    rw [Placed, hpc] at hplaced
    refine ⟨0, by omega, ?_, by simp⟩
    rw [h.early hplaced.1]
    exact fun i hi => absurd hi List.not_mem_nil
  have haof : ∀ r sent, f.pc = .read r sent → sent ≠ 0 → r.remaining storer.disk = [] →
      IsI64 (f.offset + sent) → AfterSent start log (f.offset + sent) := by
    intro r sent hpc hne hend _
    obtain ⟨m, hm, hmem⟩ := h.last r sent hpc hne
    rw [Placed, hpc] at hplaced
    obtain ⟨hat, hle⟩ := hplaced
    have hfilePos := hat.filePos_eq
    rw [AofReader.remaining, hat.path_eq, List.drop_eq_nil_iff] at hend
    refine ⟨r.filePos, by omega, fun i hi => ?_, fun k hk => ?_⟩
    · exact Nat.lt_of_lt_of_le (hsent i hi) hend
    · obtain rfl : k = m := by omega
      exact hmem
  obtain ⟨hsaved', hpending'⟩ := saves_stepped hcommand hrdb haof hstep hsaved h.pending
  refine ⟨hsaved', hpending', fun hearly => ?_, fun r sent hpc hne => ?_⟩
  · cases hstep with
    | rdbPassed r hpc | rdbSaving r hpc =>
        rw [Placed, hpc] at hplaced
        simp only at hearly
        omega
    | finish r sent hpc | finishSaving r sent hpc =>
        rw [Placed, hpc] at hplaced
        have hstart := hplaced.1.start_le
        simp only at hearly
        omega
    | wrote r sent chunk hpc | writeFailed r sent chunk hpc =>
        rw [Placed, hpc] at hplaced
        have hstart := hplaced.1.start_le
        simp only at hearly
        omega
    | saveFailed c cs calls hpc executed =>
        rw [sentIndices_append, h.early hearly]
        cases executed <;> rfl
    | _ =>
        rw [sentIndices_append, h.early hearly]
        rfl
  · cases hstep with
    | aofReader | connected =>
        obtain ⟨rfl, rfl⟩ := ForwardPc.read.inj hpc
        exact absurd rfl hne
    | wrote r' sent' chunk hpc' =>
        obtain ⟨rfl, rfl⟩ := ForwardPc.read.inj hpc
        rw [Placed, hpc'] at hplaced
        obtain ⟨hat, hchunk, -, -⟩ := hplaced
        have hfilePos := hat.filePos_eq
        have hstart := hat.start_le
        have hpos := List.length_pos_of_ne_nil hchunk
        refine ⟨r'.filePos - 1, by omega, ?_⟩
        rw [sentIndices_append]
        refine List.mem_append_right _ ?_
        simp only [sentIndices, List.flatMap_cons, Event.indices, List.flatMap_nil,
          List.append_nil, List.mem_range'_1, chunkIndex]
        omega
    | saved c cs calls hpc' =>
        rcases saving_cases (cs :: calls) with heq | ⟨calls', heq⟩ <;> simp [heq] at hpc
    | saveFailed c cs calls hpc' executed =>
        rcases saving_cases calls with heq | ⟨calls', heq⟩ <;> simp [heq] at hpc
    | _ => simp at hpc

/-! ## Every run -/

/-- What is saved is the offset after what was sent. -/
structure Marking (runId : Text) (start : Int) (pieces : List Bytes) (s : Sys) : Prop where
  phase : Early runId start pieces s ∨
    Streaming (aofPath runId start) start s ∧ ∀ i ∈ sentIndices s.log,
      i < (s.storer.disk.contents (aofPath runId start)).length
  task : ∀ o f, s.leader = .forwarding o f → f.Sent start s.log
  quiet : (∀ o f, s.leader ≠ .forwarding o f) → sentIndices s.log = []
  saved : SavesIn (AfterSent start) s.log

theorem Marking.placed {runId : Text} {start : Int} {pieces : List Bytes} {s : Sys}
    (h : Marking runId start pieces s) {o : Int} {f : Forwarder}
    (hleader : s.leader = .forwarding o f) :
    Placed (aofPath runId start) start (s.storer.disk.contents (aofPath runId start)) f := by
  rcases h.phase with h | ⟨h, -⟩
  · obtain ⟨hunread, hplaced⟩ := h.task o f hleader
    exact hunread.placed hplaced _
  · exact h.placed o f hleader

theorem Marking.sent_lt {runId : Text} {start : Int} {pieces : List Bytes} {s : Sys}
    (h : Marking runId start pieces s) :
    ∀ i ∈ sentIndices s.log, i < (s.storer.disk.contents (aofPath runId start)).length := by
  rcases h.phase with h | ⟨-, h⟩
  · rw [h.sent]
    exact fun i hi => absurd hi List.not_mem_nil
  · exact h

/-- An effect of the input task delivers nothing. -/
theorem perform_sentIndices (s : Sys) (now : Nat) (op : InputOp) :
    sentIndices (s.perform now op).log = sentIndices s.log := by
  rcases perform_log s now op with heq | ⟨bs, -, heq⟩
  · rw [heq]
  · rw [heq, sentIndices_append]
    exact List.append_nil _

theorem Marking.step {runId : Text} {start : Int} {pieces : List Bytes} {s t : Sys}
    {act : Act} (h : Marking runId start pieces s) (hstep : s.Stepped act t) :
    Marking runId start pieces t := by
  have hphase : (∀ i ∈ sentIndices t.log,
      i < (t.storer.disk.contents (aofPath runId start)).length) →
      Early runId start pieces t ∨ Streaming (aofPath runId start) start t ∧
        ∀ i ∈ sentIndices t.log,
          i < (t.storer.disk.contents (aofPath runId start)).length := by
    intro hlt
    rcases h.phase with h | ⟨h, -⟩
    · exact (h.step hstep).imp_right fun hopened => ⟨hopened.1.streaming, hlt⟩
    · exact .inr ⟨h.step hstep, hlt⟩
  cases hstep with
  | input op ops now hinput =>
      have hsent := perform_sentIndices { s with input := ops } now op
      refine ⟨?_, fun o f hf => ?_, fun hno => ?_, ?_⟩
      · rcases h.phase with h | ⟨h, hlt⟩
        · rcases h.step (.input op ops now hinput) with h | ⟨hopened, -⟩
          · exact .inl h
          · refine .inr ⟨hopened.streaming, ?_⟩
            rw [hopened.sent]
            exact fun i hi => absurd hi List.not_mem_nil
        · have hop := h.input op (hinput ▸ List.mem_cons_self)
          obtain ⟨more, hmore⟩ :=
            (perform_grows (s := { s with input := ops }) now h.writer hop).file
          refine .inr ⟨h.step (.input op ops now hinput), fun i hi => ?_⟩
          rw [hsent] at hi
          rw [hmore, List.length_append]
          exact Nat.lt_of_lt_of_le (hlt i hi) (Nat.le_add_right _ _)
      · obtain ⟨g, hg, rfl | rfl⟩ := forwarding_of_perform hf
        · exact (h.task o f hg).of_sentIndices hsent
        · exact (h.task o g hg).notified.of_sentIndices hsent
      · rw [hsent]
        refine h.quiet fun o f hf => ?_
        have hf' : ({ s with input := ops } : Sys).leader = .forwarding o f := hf
        rcases perform_leader { s with input := ops } now op with heq | heq | heq
        · exact hno o f (heq.trans hf')
        · exact hno o f.notified (by rw [heq, hf']; rfl)
        · exact hno o f (by rw [heq, hf']; rfl)
      · rcases perform_log { s with input := ops } now op with heq | ⟨bs, -, heq⟩ <;> rw [heq]
        · exact h.saved
        · exact h.saved.quiet (by simp)
  | listen hleader | timeout hleader =>
      exact ⟨hphase h.sent_lt, fun o f hf => (by cases hf),
        fun _ => h.quiet (by simp [hleader]), h.saved⟩
  | start hleader =>
      refine ⟨hphase h.sent_lt, fun o f hf => ?_, fun hno => absurd rfl (hno _ _), h.saved⟩
      obtain ⟨rfl, rfl⟩ := LeaderPc.forwarding.inj hf
      exact ⟨fun calls hpc => (by cases hpc), fun _ => h.quiet (by simp [hleader]),
        fun r sent hpc => by cases hpc⟩
  | forward o f f' act events hleader hstep =>
      have hplaced := h.placed hleader
      obtain ⟨hsaved', htask'⟩ := (h.task o f hleader).step hplaced h.sent_lt h.saved hstep
      refine ⟨hphase fun i hi => ?_, fun o' g hg => ?_, fun hno => absurd rfl (hno _ _), hsaved'⟩
      · rw [sentIndices_append] at hi
        rcases List.mem_append.1 hi with hi | hi
        · exact h.sent_lt i hi
        · exact indices_lt_of_stepped hplaced hstep i hi
      · obtain ⟨rfl, rfl⟩ := LeaderPc.forwarding.inj hg
        exact htask'

/-- Whatever a process saves is the offset after what it has sent. -/
theorem Process.savesIn (p : Process) :
    SavesIn (AfterSent (p.answer.offset p.self)) p.log := by
  obtain ⟨aofPieces, -, hearly⟩ :=
    early_of_reply p.self p.answer p.reply p.disk p.hasManager
  have hinit : Marking p.self.runId (p.answer.offset p.self) aofPieces
      (Sys.init (.new p.disk) p.hasManager (p.self.effects 0 p.incoming)) :=
    { phase := .inl hearly
      task := fun o f hf => by cases hf
      quiet := fun _ => rfl
      saved := fun pre c post h => by simp [Sys.init] at h }
  exact (p.run.invariant (fun s act t h _ hstep => h.step hstep) hinit).saved

/-! ## What is asked for -/

/-- Every command sent to the source is one of the effects. -/
theorem source_mem {C : Sys → Act → Prop} {s t : Sys} {acts : List Act}
    (h : s.Runs C acts t) (hs : s.log = []) {bs : Bytes} (hbs : .source bs ∈ t.log) :
    .sendSource bs ∈ s.input := by
  have hend : (∀ op ∈ t.input, op ∈ s.input) ∧
      ∀ bs, .source bs ∈ t.log → .sendSource bs ∈ s.input := by
    refine h.invariant (I := fun t => (∀ op ∈ t.input, op ∈ s.input) ∧
      ∀ bs, .source bs ∈ t.log → .sendSource bs ∈ s.input)
      (fun u act v hu _ hstep => ?_) ⟨fun _ h => h, by simp [hs]⟩
    cases hstep with
    | input op ops now hinput =>
        rw [hinput] at hu
        refine ⟨fun op' hop' => ?_, fun bs hbs => ?_⟩
        · rw [perform_input] at hop'
          exact hu.1 op' (List.mem_cons_of_mem op hop')
        · rcases perform_log { u with input := ops } now op with heq | ⟨bs', rfl, heq⟩
          · exact hu.2 bs (heq ▸ hbs)
          · rw [heq] at hbs
            rcases List.mem_append.1 hbs with hbs | hbs
            · exact hu.2 bs hbs
            · obtain rfl := Event.source.inj (List.mem_singleton.1 hbs)
              exact hu.1 _ List.mem_cons_self
    | forward o f f' act events hleader hstep =>
        refine ⟨hu.1, fun bs hbs => ?_⟩
        rcases List.mem_append.1 hbs with hbs | hbs
        · exact hu.2 bs hbs
        · exact absurd hbs (hstep.source_not_mem bs)
    | _ => exact hu
  exact hend.2 bs hbs

/-- The offset can be read off the command. -/
theorem psyncCommand_injective {id : Text} {m n : Int}
    (h : psyncCommand id (intToString m) = psyncCommand id (intToString n)) : m = n := by
  have hcommand : ∀ offset, psyncCommand id offset
      = line '*'.toUInt8 (asBytes (natToString 3))
        ++ encodeBatch [.bulkString (asBytes "PSYNC".toList), .bulkString (asBytes id)]
        ++ encodeValue (.bulkString (asBytes offset)) := by
    intro offset
    rw [psyncCommand, encodeCommandStr, encodeCommand, encode, encodeValue_array]
    simp only [List.map_cons, List.map_nil, encodeBatch_cons, encodeBatch_nil,
      List.append_assoc, List.append_nil, List.length_cons, List.length_nil]
  rw [hcommand, hcommand] at h
  have hbytes := encodeValue_bulkString_inj (List.append_cancel_left h)
  exact intToString_injective (asBytes_injective hbytes)

/-- What a process that is told to go on has asked for. -/
theorem eq_of_asked {p : Process} {id : Text} {c : Continue} {offset n : Int}
    (hid : id ≠ []) (hreplid : p.self.initialMasterReplid = id)
    (hoffset : p.self.initialMasterOffset = offset) (hanswer : p.answer = .continues c)
    (hasked : .source (psyncCommand id (intToString n)) ∈ p.log) : n = offset := by
  obtain ⟨rdbPieces, aofPieces, -, heffects⟩ := effects_answer p.self p.answer p.reply
  have hmem : .sendSource (psyncCommand id (intToString n)) ∈ p.self.effects 0 p.incoming :=
    source_mem p.run rfl hasked
  have hstream : ∀ bs, .sendSource bs
      ∉ aofEffects (p.self.requested 0) 0 aofPieces := fun bs hbs =>
    isStream_aofEffects _ hbs
  rw [heffects, hanswer, RedisInput.psyncEffects, hreplid, hoffset, if_pos hid] at hmem
  simp only [Answer.effects, continueEffects, streamEffects, List.mem_append, List.mem_cons,
    List.not_mem_nil, or_false, reduceCtorEq, InputOp.sendSource.injEq, hstream] at hmem
  rcases hmem with hmem | hmem
  · split at hmem <;> simp at hmem
  · exact psyncCommand_injective hmem

/-! ## Chains -/

theorem Chain.isReplid {id : Text} {ps : List Process} {h : Hashes} (hchain : Chain id ps h) :
    IsReplid id := by
  induction hchain with
  | fullResync p f h hanswer hid => exact hid ▸ f.isReplid
  | restart _ _ _ _ _ _ _ _ _ _ _ ih => exact ih

theorem start_of_saved {runId id : Text} {h : Hashes} {offset : Int} (hid : id ≠ [])
    (hsaved : getPsyncInfo h id = .ok (some offset)) :
    RedisInput.start runId h id
      = { runId, initialMasterReplid := id, initialMasterOffset := offset } := by
  simp only [RedisInput.start, if_neg hid, hsaved]

/-- A process of a chain resynchronises, or goes on with the id. -/
theorem Chain.of_mem {id : Text} {ps : List Process} {p : Process} {h : Hashes}
    (hchain : Chain id ps h) (hp : p ∈ ps) :
    (∃ f, p.answer = .fullResync f) ∨
      id ≠ "?".toList ∧ p.self.initialMasterReplid = id ∧ ∃ c, p.answer = .continues c := by
  induction hchain with
  | fullResync p' f h hanswer hid =>
      obtain rfl := List.mem_singleton.1 hp
      exact .inl ⟨f, hanswer⟩
  | restart p' ps h runId offset c htail hsaved hid hself hanswer ih =>
      rcases List.mem_cons.1 hp with rfl | hp
      · have hne := htail.isReplid.1.1
        exact .inr ⟨hid, by rw [hself, start_of_saved hne hsaved], c, hanswer⟩
      · exact ih hp

theorem commands_append (log log' : List Event) :
    commands (log ++ log') = commands log ++ commands log' := List.filterMap_append

theorem not_mem_commands {id : Text} {log : List Event}
    (h : ∀ value, SavesFor id value ∉ log) (value : Text) :
    .hset checkpointKey (offsetField id) value ∉ commands log := by
  intro hmem
  obtain ⟨e, he, heq⟩ := List.mem_filterMap.1 hmem
  cases e with
  | command c =>
      obtain rfl := Option.some.inj heq
      exact h value he
  | source | handRdb | connected | sent => cases heq

/-- What a process leaves of the last offset it has saved. -/
theorem hget_commands {id : Text} {pre post : List Event} {value : Text}
    (hpost : ∀ value, SavesFor id value ∉ post) (h : Hashes) :
    hget (execAll (commands (pre ++ SavesFor id value :: post)) h) checkpointKey
      (offsetField id) = some value := by
  have hsplit : commands (pre ++ SavesFor id value :: post)
      = commands pre ++ [.hset checkpointKey (offsetField id) value] ++ commands post := by
    rw [List.append_cons, commands_append, commands_append]
    rfl
  rw [hsplit, execAll_append, execAll_append, hget_execAll (not_mem_commands hpost)]
  exact hget_exec_self _ _ _ _

/-- The last offset that was saved is what the hashes hold. -/
theorem Chain.hget_lastSave {id : Text} {newer older : List Process} {p : Process}
    {h : Hashes} {pre : List Event} {offset : Int}
    (hchain : Chain id (newer ++ p :: older) h) (hsave : LastSave id newer p pre offset) :
    hget h checkpointKey (offsetField id) = some (intToString offset) := by
  obtain ⟨post, hlog, hpost, hnewer⟩ := hsave
  induction newer generalizing h with
  | nil =>
      cases hchain with
      | fullResync | restart =>
          rw [hlog]
          exact hget_commands hpost _
  | cons q newer ih =>
      generalize hps : (q :: newer) ++ p :: older = ps at hchain
      cases hchain with
      | fullResync q' f h => simp at hps
      | restart q' ps h runId v c htail =>
          obtain ⟨rfl, rfl⟩ := List.cons.inj hps
          rw [hget_execAll (not_mem_commands (hnewer q List.mem_cons_self))]
          exact ih htail fun q' hq' => hnewer q' (List.mem_cons_of_mem q hq')

/-! ## The first byte after a restart -/

/-- Of a stream whose first byte has the number `first`, exactly the bytes
numbered up to `k` have been forwarded. -/
def ForwardedUpTo (first k : Int) (log : List Event) : Prop :=
  first - 1 ≤ k ∧ ∀ i : Nat, i ∈ sentIndices log ↔ first + i ≤ k

/-- The offset after what was sent, by the numbers of the source. -/
theorem AfterSent.eq {start o first k : Int} {log : List Event} (h : AfterSent start log o)
    (hk : ForwardedUpTo first k log) : o - start = k + 1 - first := by
  obtain ⟨n, rfl, hlt, hlast⟩ := h
  obtain ⟨hle, hup⟩ := hk
  have hout : ¬ first + n ≤ k := fun hn => Nat.lt_irrefl n (hlt n ((hup n).2 hn))
  cases n with
  | zero => omega
  | succ m =>
      have hin := (hup m).1 (hlast m rfl)
      omega

/-- What a saved offset stands for, by the numbers of the source. -/
theorem Process.saved_eq {p : Process} {id : Text} {pre post : List Event}
    {offset first k : Int} (hlog : p.log = pre ++ SavesFor id (intToString offset) :: post)
    (hforwarded : ForwardedUpTo first k pre) :
    offset - p.answer.offset p.self = k + 1 - first :=
  (p.savesIn pre _ post hlog id offset rfl).eq hforwarded

/-- A restart asks for the offset that was saved last. -/
theorem Chain.asked_eq {id : Text} {newer older : List Process} {p next : Process}
    {h : Hashes} (hchain : Chain id (next :: (newer ++ p :: older)) h) {pre : List Event}
    {offset n : Int} (hsave : LastSave id newer p pre offset) (hnext : next.First id n) :
    n = offset := by
  generalize hps : newer ++ p :: older = ps at hchain
  cases hchain with
  | fullResync => simp at hps
  | restart _ _ h runId v c htail hsaved hid hself hanswer =>
      subst hps
      have hne := htail.isReplid.1.1
      have hv : v = offset := by
        have hget := htail.hget_lastSave hsave
        rw [getPsyncInfo, hget] at hsaved
        split at hsaved
        · cases hparse : parseI64 (intToString offset) with
          | none =>
              simp only [hparse] at hsaved
              cases hsaved
          | some i =>
              simp only [hparse, Except.ok.injEq, Option.some.injEq] at hsaved
              exact hsaved ▸ eq_of_parseI64_intToString hparse
        · cases hsaved
      rw [start_of_saved hne hsaved] at hself
      cases hnext with
      | fullResync f hanswer' =>
          rw [hanswer] at hanswer'
          cases hanswer'
      | continues c' hanswer' n hasked =>
          rw [← hv]
          exact eq_of_asked hne (by rw [hself]) (by rw [hself]) hanswer hasked

/-- A restart resumes right after what had been forwarded when its checkpoint
was saved if and only if the process that saved it had itself been told to go
on. -/
theorem resumes_iff_continues {id : Text} {newer older : List Process} {p next : Process}
    {h : Hashes} (hchain : Chain id (next :: (newer ++ p :: older)) h) {pre : List Event}
    {offset : Int} (hsave : LastSave id newer p pre offset) {first k n : Int}
    (hfirst : p.First id first) (hforwarded : ForwardedUpTo first k pre)
    (hnext : next.First id n) : n = k + 1 ↔ ∃ c, p.answer = .continues c := by
  have hne := hchain.isReplid.1.1
  obtain rfl := hchain.asked_eq hsave hnext
  obtain ⟨post, hlog, -, -⟩ := hsave
  have hsaved := p.saved_eq hlog hforwarded
  cases hfirst with
  | fullResync f hanswer =>
      -- The first byte has the number after the offset its segment begins with.
      rw [hanswer, Answer.offset] at hsaved
      simp only [hanswer, reduceCtorEq, exists_false, iff_false]
      omega
  | continues c hanswer first hasked =>
      rcases hchain.of_mem (List.mem_cons_of_mem next (List.mem_append_right newer
        List.mem_cons_self)) with ⟨f, hfull⟩ | ⟨hid, hreplid, -⟩
      · rw [hanswer] at hfull
        cases hfull
      · have hfirst := eq_of_asked hne hreplid rfl hanswer hasked
        rw [hanswer, Answer.offset, RedisInput.requested, hreplid, if_pos ⟨hne, hid⟩,
          ← hfirst] at hsaved
        simp only [hanswer, Answer.continues.injEq, exists_eq', iff_true]
        omega

/-! ## Three processes -/

/-- A byte is forwarded and the checkpoint saved, from the first effect of the
stream on. -/
def saveActs : List Act :=
  List.replicate 4 (.input 0) ++ [.forward .check, .forward .open, .forward .connected,
    .forward (.read 1), .forward .wrote, .forward (.finish true 0)] ++
    List.replicate 5 (.forward .saved)

def resyncActs : List Act := promptActs ++ saveActs

/-- The first process: the byte numbered 6 is forwarded. -/
def resyncProcess : Process :=
  { self := freshInput, answer := .fullResync sampleResync, incoming := sampleReads,
    disk := ∅, hasManager := true, acts := resyncActs, final := freshStart.after resyncActs,
    reply := List.append_nil _, run := Sys.runs_free (by decide +kernel) }

def resyncHashes : Hashes := execAll (commands resyncProcess.log) ∅

def goOn : Continue :=
  { tail := [], aof := [66], isAscii := by decide, noLf := by decide }

def goOnReads : List TcpRead := [⟨goOn.reply, by decide⟩]

/-- A process that starts with the checkpoint of the id and is told to go on. -/
def Process.goesOn (runId id : Text) (h : Hashes) (c : Continue) (incoming : List TcpRead)
    (hreply : incoming.flatMap Subtype.val = c.reply) (acts : List Act)
    (hacts : (exec Sys.step (fun _ _ => true) (Sys.init (.new ∅) true
      ((RedisInput.start runId h id).effects 0 incoming)) acts).isSome = true) : Process :=
  { self := .start runId h id, answer := .continues c, incoming, disk := ∅,
    hasManager := true, acts, final := _, reply := hreply, run := Sys.runs_free hacts }

theorem Chain.goesOn {runId id : Text} {h : Hashes} {c : Continue} {incoming : List TcpRead}
    {hreply : incoming.flatMap Subtype.val = c.reply} {acts : List Act}
    {hacts : (exec Sys.step (fun _ _ => true) (Sys.init (.new ∅) true
      ((RedisInput.start runId h id).effects 0 incoming)) acts).isSome = true}
    {ps : List Process} {offset : Int} (hchain : Chain id ps h)
    (hsaved : getPsyncInfo h id = .ok (some offset)) (hid : id ≠ "?".toList) :
    Chain id (.goesOn runId id h c incoming hreply acts hacts :: ps)
      (execAll (commands (Process.goesOn runId id h c incoming hreply acts hacts).log) h) :=
  .restart _ ps h runId offset c hchain hsaved hid rfl rfl

def goOnActs : List Act := .listen :: List.replicate 4 (.input 0) ++ [.start] ++ saveActs

/-- The second process, which gets that byte again. -/
def goOnProcess : Process :=
  .goesOn "s".toList "a".toList resyncHashes goOn goOnReads (List.append_nil _) goOnActs
    (by decide +kernel)

def goOnHashes : Hashes := execAll (commands goOnProcess.log) resyncHashes

/-- The third process, which has asked for what follows. -/
def lastProcess : Process :=
  .goesOn "t".toList "a".toList goOnHashes goOn goOnReads (List.append_nil _)
    (List.replicate 3 (.input 0)) (by decide +kernel)

def isSaveFor (id : Text) : Event → Bool
  | .command (.hset key field _) => key == checkpointKey && field == offsetField id
  | _ => false

theorem lastSave_of_take {id : Text} {p : Process} {n : Nat} {offset : Int}
    (hlog : p.log = p.log.take n ++ SavesFor id (intToString offset) :: p.log.drop (n + 1))
    (hpost : (p.log.drop (n + 1)).any (isSaveFor id) = false) :
    LastSave id [] p (p.log.take n) offset := by
  refine ⟨_, hlog, fun value hmem => ?_, fun q hq => absurd hq List.not_mem_nil⟩
  have hsave := List.any_eq_false.1 hpost _ hmem
  exact hsave (by simp [isSaveFor, SavesFor])

theorem getPsyncInfo_new (h : Hashes) (id : Text) {offset : Int} (now : Rdb.SystemTime)
    (hoffset : IsI64 offset) :
    getPsyncInfo (execAll (saveCheckpoint (.new id offset now)) h) id = .ok (some offset) :=
  getPsyncInfo_saveCheckpoint h (.new id offset now) hoffset

theorem chain_resync : Chain "a".toList [resyncProcess] resyncHashes :=
  .fullResync resyncProcess sampleResync ∅ rfl rfl

theorem saved_resync : getPsyncInfo resyncHashes "a".toList = .ok (some 6) := by
  have hcommands : commands resyncProcess.log
      = saveCheckpoint (.new "a".toList 6 0) := by decide +kernel
  rw [resyncHashes, hcommands]
  exact getPsyncInfo_new ∅ "a".toList 0 (by decide)

theorem chain_goOn : Chain "a".toList [goOnProcess, resyncProcess] goOnHashes :=
  chain_resync.goesOn saved_resync (by decide)

theorem first_goOn : goOnProcess.First "a".toList 6 :=
  .continues goOn rfl 6 (by decide +kernel)

/-- The checkpoint of the second process was saved after a `+CONTINUE`. -/
theorem resumes_iff_continues_goOn :
    (7 : Int) = 6 + 1 ↔ ∃ c, goOnProcess.answer = .continues c :=
  have hsaved : getPsyncInfo goOnHashes "a".toList = .ok (some 7) := by
    have hcommands : commands goOnProcess.log
        = saveCheckpoint (.new "a".toList 7 0) := by decide +kernel
    rw [goOnHashes, hcommands]
    exact getPsyncInfo_new resyncHashes "a".toList 0 (by decide)
  have hchain : Chain "a".toList [lastProcess, goOnProcess, resyncProcess] _ :=
    chain_goOn.goesOn hsaved (by decide)
  have hsave : LastSave "a".toList [] goOnProcess (goOnProcess.log.take 3) 7 :=
    lastSave_of_take (by decide +kernel) (by decide +kernel)
  have hforwarded : ForwardedUpTo 6 6 (goOnProcess.log.take 3) := by
    have hsent : sentIndices (goOnProcess.log.take 3) = [0] := by decide +kernel
    refine ⟨by omega, fun i => ?_⟩
    rw [hsent, List.mem_singleton]
    omega
  resumes_iff_continues hchain hsave first_goOn hforwarded
    (.continues goOn rfl 7 (by decide +kernel))

/-- After a full resynchronisation the last byte is asked for again. -/
theorem resumes_repeated :
    ¬ ∀ (id : Text) (newer older : List Process) (p next : Process) (h : Hashes),
      Chain id (next :: (newer ++ p :: older)) h → ∀ (pre : List Event) (offset : Int),
      LastSave id newer p pre offset → ∀ first k n, p.First id first →
      ForwardedUpTo first k pre → next.First id n → n = k + 1 := by
  intro hresumes
  have hsave : LastSave "a".toList [] resyncProcess (resyncProcess.log.take 4) 6 :=
    lastSave_of_take (by decide +kernel) (by decide +kernel)
  have hforwarded : ForwardedUpTo 6 6 (resyncProcess.log.take 4) := by
    have hsent : sentIndices (resyncProcess.log.take 4) = [0] := by decide +kernel
    refine ⟨by omega, fun i => ?_⟩
    rw [hsent, List.mem_singleton]
    omega
  have hnext := hresumes "a".toList [] [] resyncProcess goOnProcess goOnHashes chain_goOn _ 6
    hsave 6 6 6 (.fullResync sampleResync rfl) hforwarded first_goOn
  exact absurd hnext (by decide)

end RedisHaTool.Syncer
