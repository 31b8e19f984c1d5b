import RedisHaTool.Proofs.AtLeastOnce
import RedisHaTool.Proofs.Databases
import RedisHaTool.Proofs.Resume

/-!
# Nothing is lost

A process numbers its segment from the offset it was answered and stores offsets
of the segment; the next one asks the source for the bytes from the last of them
on. So what a chain of processes has sent reaches from the first byte of the
first stream to the offset that is stored in the end, if every task begins where
its segment does.

A task begins at the offset it loads, and the input task stores offsets while it
receives. What came in before the task loads is in the segment and never sent.
-/

namespace RedisHaTool.Syncer

open Lib Store Checkpoint

/-! ## A process from its start -/

section Cover

variable {start : Int} {m : Nat} {file : Bytes} {log events : List Event} {f : Forwarder}

/-- Events that neither send nor save. -/
theorem Forwarder.Covers.source (h : f.Covers start m file log) (bs : Bytes) :
    f.Covers start m file (log ++ [.source bs]) := by
  have hsame : Behind start m (log ++ [.source bs]) = Behind start m log := by
    refine behind_congr ?_
    rw [sentIndices_append]
    exact List.append_nil _
  exact ⟨h.covered.quiet (by simp), h.saved.quiet (by simp), hsame ▸ h.pending⟩

/-- Where nothing was sent it does not matter what the file holds. -/
theorem Forwarder.Covers.of_unsent (h : f.Covers start m file log)
    (hunsent : ∀ index bs, .sent index bs ∉ log) (file' : Bytes) :
    f.Covers start m file' log :=
  ⟨⟨fun index bs hsent => absurd hsent (hunsent index bs), h.covered.indices⟩, h.saved,
    h.pending⟩

/-- A task that has just been spawned. -/
theorem covers_new (start o : Int) (hasManager : Bool) (file : Bytes)
    (hlog : ∀ e ∈ log, ∃ bs, e = .source bs) :
    (Forwarder.new o hasManager).Covers start (o - start).toNat file log := by
  refine ⟨⟨fun index bs hsent => ?_, fun i hm hi => ?_⟩, fun pre c post heq => ?_,
    fun calls hpc => ?_⟩
  · obtain ⟨_, heq⟩ := hlog _ hsent
    cases heq
  · exact absurd hi (Nat.not_lt.2 hm)
  · obtain ⟨_, heq'⟩ := hlog (.command c) (heq ▸ List.mem_append_right pre List.mem_cons_self)
    cases heq'
  · cases hpc

end Cover

/-- Without a segment nothing is sent. -/
theorem Forwarder.Unread.unsent {storer : FileStorer} {masterReplid : Text}
    {f f' : Forwarder} {act : ForwardAct} {events : List Event} (h : f.Unread)
    (hstep : f.Stepped storer masterReplid act f' events) (index : Nat) (bs : Bytes) :
    .sent index bs ∉ events := by
  cases hstep with
  | wrote r sent chunk hpc | writeFailed r sent chunk hpc =>
      simp only [Forwarder.Unread, hpc] at h
  | saveFailed c cs calls hpc executed => cases executed <;> simp
  | _ => simp

/-- The phases of a session, the task covering the segment from where it began. -/
structure Following (runId : Text) (start : Int) (pieces : List Bytes) (s : Sys) : Prop where
  phase :
    Early runId start pieces s ∧ (∀ index bs, .sent index bs ∉ s.log) ∨
      Streaming (aofPath runId start) start s ∧ ∃ w, s.aofWriter = some w ∧
        Feeding start pieces w (s.storer.disk.contents (aofPath runId start)) s.input
  task : ∀ o f, s.leader = .forwarding o f → f.Covers start (o - start).toNat
    (s.storer.disk.contents (aofPath runId start)) s.log
  quiet : (∀ o f, s.leader ≠ .forwarding o f) → ∀ e ∈ s.log, ∃ bs, e = .source bs

section Run

variable {runId : Text} {start : Int} {pieces : List Bytes} {s t : Sys} {act : Act}

/-- What is known of the task's surroundings in either phase. -/
theorem Following.around (h : Following runId start pieces s) {o : Int} {f : Forwarder}
    (hleader : s.leader = .forwarding o f) :
    Tidy s.storer.dataSet (aofPath runId start) start ∧
      Placed (aofPath runId start) start (s.storer.disk.contents (aofPath runId start)) f := by
  rcases h.phase with ⟨hearly, -⟩ | ⟨hstreaming, -⟩
  · obtain ⟨hunread, hplaced⟩ := hearly.task o f hleader
    exact ⟨hearly.tidy, hunread.placed hplaced _⟩
  · exact ⟨hstreaming.tidy, hstreaming.placed o f hleader⟩

/-- The phase after a step that sends nothing before there is a segment. -/
theorem Following.phase_step (h : Following runId start pieces s) (hstep : s.Stepped act t)
    (hunsent : Early runId start pieces s → (∀ index bs, .sent index bs ∉ s.log) →
      ∀ index bs, .sent index bs ∉ t.log) :
    Early runId start pieces t ∧ (∀ index bs, .sent index bs ∉ t.log) ∨
      Streaming (aofPath runId start) start t ∧ ∃ w, t.aofWriter = some w ∧
        Feeding start pieces w (t.storer.disk.contents (aofPath runId start)) t.input := by
  rcases h.phase with ⟨hearly, hnone⟩ | ⟨hstreaming, w, hwriter, hfeeding⟩
  · rcases hearly.step hstep with hearly' | ⟨hopened, -⟩
    · exact .inl ⟨hearly', hunsent hearly hnone⟩
    · exact .inr ⟨hopened.streaming, hopened.feeding⟩
  · exact .inr (hstreaming.feeding_step hwriter hfeeding hstep)

/-- An effect of the input task. -/
theorem Following.input (h : Following runId start pieces s) {op : InputOp}
    {ops : List InputOp} (now : Nat) (hinput : s.input = op :: ops) :
    Following runId start pieces ({ s with input := ops }.perform now op) := by
  have hlog := perform_log { s with input := ops } now op
  have hunsent : (∀ index bs, .sent index bs ∉ s.log) →
      ∀ index bs, .sent index bs ∉ ({ s with input := ops }.perform now op).log := by
    intro hnone index bs hsent
    rcases hlog with heq | ⟨bs', -, heq⟩
    · exact hnone index bs (heq ▸ hsent)
    · rw [heq] at hsent
      rcases List.mem_append.1 hsent with hsent | hsent
      · exact hnone index bs hsent
      · cases List.mem_singleton.1 hsent
  refine ⟨h.phase_step (.input op ops now hinput) fun _ => hunsent, fun o f hf => ?_,
    fun hno e he => ?_⟩
  · obtain ⟨g, hg, hfg⟩ := forwarding_of_perform hf
    have hcovers := h.task o g hg
    -- What the file holds after the effect.
    have hfile : g.Covers start (o - start).toNat
        (({ s with input := ops }.perform now op).storer.disk.contents (aofPath runId start))
        s.log := by
      rcases h.phase with ⟨-, hnone⟩ | ⟨hstreaming, -⟩
      · exact hcovers.of_unsent hnone _
      · have hop := hstreaming.input op (hinput ▸ List.mem_cons_self)
        obtain ⟨more, hmore⟩ :=
          (perform_grows (s := { s with input := ops }) now hstreaming.writer hop).file
        rw [hmore]
        exact hcovers.append more
    have hcovers' : g.Covers start (o - start).toNat
        (({ s with input := ops }.perform now op).storer.disk.contents (aofPath runId start))
        ({ s with input := ops }.perform now op).log := by
      rcases hlog with heq | ⟨bs, -, heq⟩
      · rw [heq]
        exact hfile
      · rw [heq]
        exact hfile.source bs
    rcases hfg with rfl | rfl
    · exact hcovers'
    · exact hcovers'.notified
  · have hquiet := h.quiet fun o f hf => by
      have hf' : ({ s with input := ops } : Sys).leader = .forwarding o f := hf
      rcases perform_leader { s with input := ops } now op with heq | heq | heq
      · exact hno o f (heq.trans hf')
      · exact hno o f.notified (by rw [heq, hf']; rfl)
      · exact hno o f (by rw [heq, hf']; rfl)
    rcases hlog with heq | ⟨bs, -, heq⟩
    · exact hquiet e (heq ▸ he)
    · rw [heq] at he
      rcases List.mem_append.1 he with he | he
      · exact hquiet e he
      · exact ⟨bs, List.mem_singleton.1 he⟩

theorem Following.step (h : Following runId start pieces s) (hstep : s.Stepped act t) :
    Following runId start pieces t := by
  cases hstep with
  | input op ops now hinput => exact h.input now hinput
  | listen hleader =>
      exact ⟨h.phase_step (.listen hleader) fun _ hnone => hnone, fun o f hf => (by cases hf),
        fun _ => h.quiet (by simp [hleader])⟩
  | timeout hleader =>
      exact ⟨h.phase_step (.timeout hleader) fun _ hnone => hnone, fun o f hf => (by cases hf),
        fun _ => h.quiet (by simp [hleader])⟩
  | start hleader =>
      have hquiet := h.quiet (by simp [hleader])
      refine ⟨h.phase_step (.start hleader) fun _ hnone => hnone, fun o f hf => ?_,
        fun hno => absurd rfl (hno _ _)⟩
      obtain ⟨rfl, rfl⟩ := LeaderPc.forwarding.inj hf
      exact covers_new start _ _ _ hquiet
  | forward o f f' act events hleader hforward =>
      obtain ⟨htidy, hplaced⟩ := h.around hleader
      refine ⟨h.phase_step (.forward o f f' act events hleader hforward)
        fun hearly hnone index bs hsent => ?_, fun o' g hg => ?_,
        fun hno => absurd rfl (hno _ _)⟩
      · rcases List.mem_append.1 hsent with hsent | hsent
        · exact hnone index bs hsent
        · exact (hearly.task o f hleader).1.unsent hforward index bs hsent
      · obtain ⟨rfl, rfl⟩ := LeaderPc.forwarding.inj hg
        exact (h.task o f hleader).step htidy hplaced hforward

end Run

theorem Process.following (p : Process) :
    ∃ aofPieces, aofPieces.flatten = p.answer.aof ∧
      Following p.self.runId (p.answer.offset p.self) aofPieces p.final := by
  obtain ⟨aofPieces, hpieces, hearly⟩ :=
    early_of_reply p.self p.answer p.reply p.disk p.hasManager
  have hinit : Following p.self.runId (p.answer.offset p.self) aofPieces
      (Sys.init (.new p.disk) p.hasManager (p.self.effects 0 p.incoming)) :=
    { phase := .inl ⟨hearly, fun index bs hsent => absurd hsent List.not_mem_nil⟩
      task := fun o f hf => by cases hf
      quiet := fun _ e he => absurd he List.not_mem_nil }
  exact ⟨aofPieces, hpieces.flatten,
    p.run.invariant (fun s act t h _ hstep => h.step hstep) hinit⟩

/-- What a process sends is its stream's at its place. -/
theorem Process.sent_eq (p : Process) {index : Nat} {bs : Bytes}
    (hsent : .sent index bs ∈ p.log) : (p.answer.aof.drop index).take bs.length = bs := by
  obtain ⟨aofPieces, hflatten, h⟩ := p.following
  rcases h.phase with ⟨-, hnone⟩ | ⟨-, w, -, hfeeding⟩
  · exact absurd hsent (hnone index bs)
  · by_cases hforwarding : ∃ o f, p.final.leader = .forwarding o f
    · obtain ⟨o, f, hleader⟩ := hforwarding
      obtain ⟨hle, hbs⟩ := (h.task o f hleader).covered.bytes index bs hsent
      obtain ⟨more, hmore⟩ := hfeeding.begins
      rw [← hflatten, ← hmore, List.drop_append_of_le_length (by omega),
        List.take_append_of_le_length (by rw [List.length_drop]; omega), hbs]
    · have hno : ∀ o f, p.final.leader ≠ .forwarding o f :=
        fun o f hleader => hforwarding ⟨o, f, hleader⟩
      obtain ⟨_, heq⟩ := h.quiet hno _ hsent
      cases heq

/-- Up to an offset that it saves a process has sent what the task has not passed
over. -/
theorem Process.sent_of_saved (p : Process) {id : Text} {offset : Int}
    (hsaved : SavesFor id (intToString offset) ∈ p.log) :
    ∃ o f, p.final.leader = .forwarding o f ∧
      ∀ i, (o - p.answer.offset p.self).toNat ≤ i →
        i < (offset - p.answer.offset p.self).toNat → i ∈ sentIndices p.log := by
  obtain ⟨aofPieces, -, h⟩ := p.following
  by_cases hforwarding : ∃ o f, p.final.leader = .forwarding o f
  · obtain ⟨o, f, hleader⟩ := hforwarding
    refine ⟨o, f, hleader, fun i hm hi => ?_⟩
    obtain ⟨pre, post, hlog⟩ := List.append_of_mem hsaved
    obtain ⟨-, hsent⟩ := (h.task o f hleader).saved pre _ post hlog id offset rfl
    rw [hlog, sentIndices_append]
    exact List.mem_append_left _ (hsent i hm hi)
  · have hno : ∀ o f, p.final.leader ≠ .forwarding o f :=
      fun o f hleader => hforwarding ⟨o, f, hleader⟩
    obtain ⟨_, heq⟩ := h.quiet hno _ hsaved
    cases heq

/-! ## What is saved is a number -/

/-- A command that stores an offset stores a printed one. -/
def Printed (c : Command) : Prop :=
  ∀ id value, c = .hset checkpointKey (offsetField id) value → ∃ o, value = intToString o

theorem printed_saveCheckpoint (info : CheckpointInfo) :
    ∀ c ∈ saveCheckpoint info, Printed c := by
  intro c hc id value heq
  subst heq
  have hne : ∀ t : Text, t.getLast? ≠ some 't' → t ≠ [] →
      offsetField id ≠ info.masterReplid ++ t := fun t => offsetField_ne info.masterReplid id
  have hrunid := hne "_runid".toList (by decide) (by decide)
  have hversion := hne "_version".toList (by decide) (by decide)
  have hmtime := hne "_mtime".toList (by decide) (by decide)
  simp only [saveCheckpoint, List.mem_cons, Command.hset.injEq, List.not_mem_nil, or_false,
    hrunid, hversion, hmtime, checkpointKeyHashKey_ne.symm, false_and, and_false,
    true_and] at hc
  exact ⟨info.offset, hc.2⟩

theorem printed_savePsyncInfo (id : Text) (offset : Int) :
    ∀ c ∈ savePsyncInfo id offset, Printed c := by
  intro c hc id' value heq
  subst heq
  simp only [savePsyncInfo, List.mem_cons, Command.hset.injEq, List.not_mem_nil, or_false,
    true_and] at hc
  rcases hc with hc | hc <;> exact ⟨offset, hc.2⟩

/-- What the task has still to save are printed offsets. -/
def Forwarder.Prints (f : Forwarder) : Prop :=
  ∀ calls, f.pc = .save calls → ∀ call ∈ calls, ∀ c ∈ call, Printed c

theorem prints_saving {calls : List (List Command)}
    (h : ∀ call ∈ calls, ∀ c ∈ call, Printed c) {f : Forwarder}
    (hpc : f.pc = .saving calls) : f.Prints := by
  intro calls' heq call hcall
  rw [hpc, ForwardPc.saving] at heq
  split at heq
  · cases heq
  · obtain rfl := ForwardPc.save.inj heq
    exact h call (List.mem_of_mem_filter hcall)

theorem Forwarder.Prints.step {storer : FileStorer} {masterReplid : Text}
    {f f' : Forwarder} {act : ForwardAct} {events : List Event} (h : f.Prints)
    (hstep : f.Stepped storer masterReplid act f' events) :
    (∀ c, .command c ∈ events → Printed c) ∧ f'.Prints := by
  cases hstep with
  | rdbSaving r hpc n now =>
      refine ⟨by simp, fun calls heq call hcall => ?_⟩
      obtain rfl := ForwardPc.save.inj heq
      simp only [List.mem_cons, List.not_mem_nil, or_false] at hcall
      rcases hcall with rfl | rfl
      · exact printed_saveCheckpoint _
      · exact printed_savePsyncInfo _ _
  | finishSaving r sent hpc hsent hend now =>
      refine ⟨by simp, fun calls heq call hcall => ?_⟩
      obtain rfl := ForwardPc.save.inj heq
      obtain rfl := List.mem_singleton.1 hcall
      exact printed_saveCheckpoint _
  | saved c cs calls hpc =>
      have hcalls := h _ hpc
      refine ⟨fun d hd => ?_, prints_saving (fun call hcall => ?_) rfl⟩
      · obtain rfl := Event.command.inj (List.mem_singleton.1 hd)
        exact hcalls _ List.mem_cons_self d List.mem_cons_self
      · rcases List.mem_cons.1 hcall with rfl | hcall
        · exact fun d hd => hcalls _ List.mem_cons_self d (List.mem_cons_of_mem c hd)
        · exact hcalls call (List.mem_cons_of_mem _ hcall)
  | saveFailed c cs calls hpc executed =>
      have hcalls := h _ hpc
      refine ⟨fun d hd => ?_,
        prints_saving (fun call hcall => hcalls call (List.mem_cons_of_mem _ hcall)) rfl⟩
      split at hd
      · obtain rfl := Event.command.inj (List.mem_singleton.1 hd)
        exact hcalls _ List.mem_cons_self d List.mem_cons_self
      · exact absurd hd List.not_mem_nil
  | _ => exact ⟨by simp, fun calls h => by cases h⟩

theorem Forwarder.Prints.notified {f : Forwarder} (h : f.Prints) : f.notified.Prints := by
  intro calls hpc
  refine h calls ?_
  unfold Forwarder.notified at hpc
  split at hpc
  · cases hpc
  · exact hpc

/-- The offsets a process has saved are printed. -/
theorem Process.printed (p : Process) {id value : Text} (hsaved : SavesFor id value ∈ p.log) :
    ∃ o, value = intToString o := by
  have hprinted : (∀ c, .command c ∈ p.final.log → Printed c) ∧
      ∀ o f, p.final.leader = .forwarding o f → f.Prints := by
    refine p.run.invariant (I := fun s => (∀ c, .command c ∈ s.log → Printed c) ∧
      ∀ o f, s.leader = .forwarding o f → f.Prints) (fun s act t hs _ hstep => ?_)
      ⟨fun c hc => absurd hc List.not_mem_nil, fun o f hf => by cases hf⟩
    cases hstep with
    | input op ops now hinput =>
        refine ⟨fun c hc => ?_, fun o f hf => ?_⟩
        · rcases perform_log { s with input := ops } now op with heq | ⟨bs, -, heq⟩
          · exact hs.1 c (heq ▸ hc)
          · rw [heq] at hc
            rcases List.mem_append.1 hc with hc | hc
            · exact hs.1 c hc
            · cases List.mem_singleton.1 hc
        · obtain ⟨g, hg, rfl | rfl⟩ := forwarding_of_perform hf
          · exact hs.2 o f hg
          · exact (hs.2 o g hg).notified
    | listen | timeout => exact ⟨hs.1, fun o f hf => by cases hf⟩
    | start =>
        refine ⟨hs.1, fun o f hf => ?_⟩
        obtain ⟨rfl, rfl⟩ := LeaderPc.forwarding.inj hf
        exact fun calls hpc => by cases hpc
    | forward o f f' act events hleader hforward =>
        obtain ⟨hevents, hprints⟩ := (hs.2 o f hleader).step hforward
        refine ⟨fun c hc => ?_, fun o' g hg => ?_⟩
        · rcases List.mem_append.1 hc with hc | hc
          · exact hs.1 c hc
          · exact hevents c hc
        · obtain ⟨rfl, rfl⟩ := LeaderPc.forwarding.inj hg
          exact hprints
  exact hprinted.1 _ hsaved id value rfl

/-! ## What a process makes of the stream -/

/-- The number of the first byte of its stream, by what it asked for and what it was
answered. -/
def Process.firstNumber (p : Process) : Int :=
  match p.answer with
  | .fullResync f => f.masterOffset + 1
  | .continues _ => p.self.initialMasterOffset

/-- The byte with this number was sent to the target. -/
def Process.Sends (p : Process) (n : Int) : Prop :=
  ∃ i ∈ sentIndices p.log, n = p.firstNumber + (i : Nat)

/-- The byte was received before the task loaded the offset it began with. -/
def Process.Skips (p : Process) (n : Int) : Prop :=
  p.firstNumber ≤ n ∧ ∃ o f, p.final.leader = .forwarding o f ∧
    n - p.firstNumber < o - p.answer.offset p.self

theorem Process.sends_or_skips {p : Process} {id : Text} {offset n : Int}
    (hsaved : SavesFor id (intToString offset) ∈ p.log) (hfirst : p.firstNumber ≤ n)
    (hlt : n - p.firstNumber < offset - p.answer.offset p.self) : p.Sends n ∨ p.Skips n := by
  obtain ⟨o, f, hleader, hsent⟩ := p.sent_of_saved hsaved
  by_cases hskip : n - p.firstNumber < o - p.answer.offset p.self
  · exact .inr ⟨hfirst, o, f, hleader, hskip⟩
  · exact .inl ⟨(n - p.firstNumber).toNat, hsent _ (by omega) (by omega), by omega⟩

/-! ## From one process to the next -/

/-- The last of the offsets that were saved. -/
theorem exists_last_save {id value : Text} {log : List Event} (h : SavesFor id value ∈ log) :
    ∃ pre value' post, log = pre ++ SavesFor id value' :: post ∧
      ∀ v, SavesFor id v ∉ post := by
  induction log generalizing value with
  | nil => exact absurd h List.not_mem_nil
  | cons e log ih =>
      by_cases hlater : ∃ v, SavesFor id v ∈ log
      · obtain ⟨v, hv⟩ := hlater
        obtain ⟨pre, value', post, rfl, hpost⟩ := ih hv
        exact ⟨e :: pre, value', post, rfl, hpost⟩
      · have hnone : ∀ v, SavesFor id v ∉ log := fun v hv => hlater ⟨v, hv⟩
        rcases List.mem_cons.1 h with rfl | h
        · exact ⟨[], value, log, rfl, hnone⟩
        · exact absurd h (hnone value)

/-- What `get_psync_info` has read. -/
theorem hget_of_getPsyncInfo {id : Text} {h : Hashes} {offset : Int}
    (hsaved : getPsyncInfo h id = .ok (some offset)) :
    ∃ value, hget h checkpointKey (offsetField id) = some value ∧
      parseI64 value = some offset := by
  rw [getPsyncInfo] at hsaved
  split at hsaved
  · cases hvalue : hget h checkpointKey (offsetField id) with
    | none =>
        rw [hvalue] at hsaved
        cases hsaved
    | some value =>
        refine ⟨value, rfl, ?_⟩
        rw [hvalue] at hsaved
        dsimp only at hsaved
        cases hparse : parseI64 value with
        | none =>
            rw [hparse] at hsaved
            cases hsaved
        | some i =>
            rw [hparse] at hsaved
            cases hsaved
            rfl
  · cases hsaved

/-- A process that has saved an offset leaves one it has saved. -/
theorem Process.saves_stored {p : Process} {id value : Text} {h : Hashes} {offset : Int}
    (hsome : SavesFor id value ∈ p.log)
    (hsaved : getPsyncInfo (execAll (commands p.log) h) id = .ok (some offset)) :
    SavesFor id (intToString offset) ∈ p.log := by
  obtain ⟨pre, last, post, hlog, hpost⟩ := exists_last_save hsome
  have hmem : SavesFor id last ∈ p.log :=
    hlog ▸ List.mem_append_right pre List.mem_cons_self
  obtain ⟨o, rfl⟩ := p.printed hmem
  obtain ⟨v, hget, hparse⟩ := hget_of_getPsyncInfo hsaved
  rw [hlog, hget_commands hpost] at hget
  obtain rfl := Option.some.inj hget
  exact eq_of_parseI64_intToString hparse ▸ hmem

/-- One that has saved none leaves what was there. -/
theorem Process.keeps_stored {p : Process} {id : Text} {h : Hashes} {offset offset' : Int}
    (hnone : ∀ value, SavesFor id value ∉ p.log)
    (hbefore : getPsyncInfo h id = .ok (some offset'))
    (hsaved : getPsyncInfo (execAll (commands p.log) h) id = .ok (some offset)) :
    offset = offset' := by
  obtain ⟨v', hget', hparse'⟩ := hget_of_getPsyncInfo hbefore
  obtain ⟨v, hget, hparse⟩ := hget_of_getPsyncInfo hsaved
  rw [hget_execAll (not_mem_commands hnone), hget'] at hget
  obtain rfl := Option.some.inj hget
  exact Option.some.inj (hparse.symm.trans hparse')

theorem Chain.sends_or_skips {id : Text} {newer : List Process} {first : Process} {h : Hashes}
    (hchain : Chain id (newer ++ [first]) h) {value : Text}
    (hsome : SavesFor id value ∈ first.log) {offset n : Int}
    (hsaved : getPsyncInfo h id = .ok (some offset)) (hfirst : first.firstNumber ≤ n)
    (hlt : n < offset) : ∃ p ∈ newer ++ [first], p.Sends n ∨ p.Skips n := by
  induction newer generalizing h offset with
  | nil =>
      refine ⟨first, List.mem_singleton_self first, ?_⟩
      cases hchain with
      | fullResync _ f _ hanswer =>
          refine Process.sends_or_skips (first.saves_stored hsome hsaved) hfirst ?_
          rw [Process.firstNumber, hanswer, Answer.offset]
          dsimp only
          omega
      | restart _ _ _ _ _ _ htail => cases htail
  | cons q newer ih =>
      generalize hps : (q :: newer) ++ [first] = ps at hchain
      cases hchain with
      | fullResync => simp at hps
      | restart q' ps' h' runId asked c htail hasked hid hself hanswer =>
          obtain ⟨rfl, rfl⟩ := List.cons.inj hps
          have hne := htail.isReplid.1.1
          rw [start_of_saved hne hasked] at hself
          have hnumber : q.firstNumber = asked := by
            rw [Process.firstNumber, hanswer, hself]
          have hstart : q.answer.offset q.self = asked := by
            rw [hanswer, Answer.offset, hself, RedisInput.requested, if_pos ⟨hne, hid⟩]
          by_cases hold : n < asked
          · obtain ⟨p, hp, hdone⟩ := ih htail hasked hold
            exact ⟨p, List.mem_cons_of_mem q hp, hdone⟩
          · refine ⟨q, List.mem_cons_self, ?_⟩
            by_cases hsaves : ∃ v, SavesFor id v ∈ q.log
            · obtain ⟨v, hv⟩ := hsaves
              exact Process.sends_or_skips (q.saves_stored hv hsaved) (by omega) (by omega)
            · have hsame := q.keeps_stored (fun v hv => hsaves ⟨v, hv⟩) hasked hsaved
              omega

/-- In every chain of restarts whose first process has saved an offset, whatever
fails in any of them: what a process sends is its stream's at its place; and every
byte the source numbers from the first stream's first up to the offset that is
stored in the end was sent by one of them, unless one received it before its task
loaded the offset to begin with. -/
theorem restarts_lose_nothing {id : Text} {newer : List Process} {first : Process} {h : Hashes}
    (hchain : Chain id (newer ++ [first]) h) {value : Text}
    (hsome : SavesFor id value ∈ first.log) {offset : Int}
    (hsaved : getPsyncInfo h id = .ok (some offset)) :
    (∀ p ∈ newer ++ [first], ∀ index bs, .sent index bs ∈ p.log →
      (p.answer.aof.drop index).take bs.length = bs) ∧
    ∀ n, first.firstNumber ≤ n → n < offset →
      ∃ p ∈ newer ++ [first], p.Sends n ∨ p.Skips n :=
  ⟨fun p _ _ _ hsent => p.sent_eq hsent,
    fun _ hfirst hlt => hchain.sends_or_skips hsome hsaved hfirst hlt⟩

/-- Two processes, of which the second sends the last byte of the first again. -/
theorem restarts_lose_nothing_goOn :
    goOnProcess.Sends 6 ∨ goOnProcess.Skips 6 ∨ resyncProcess.Sends 6 ∨ resyncProcess.Skips 6 := by
  have hsaved : getPsyncInfo goOnHashes "a".toList = .ok (some 7) := by
    have hcommands : commands goOnProcess.log
        = saveCheckpoint (.new "a".toList 7 0) := by decide +kernel
    rw [goOnHashes, hcommands]
    exact getPsyncInfo_new resyncHashes "a".toList 0 (by decide)
  have hsome : SavesFor "a".toList (intToString 6) ∈ resyncProcess.log := by decide +kernel
  have hchain : Chain "a".toList ([goOnProcess] ++ [resyncProcess]) goOnHashes := chain_goOn
  obtain ⟨-, hsends⟩ := restarts_lose_nothing hchain hsome hsaved
  obtain ⟨p, hp, hdone⟩ := hsends 6 (by decide) (by decide)
  simp only [List.cons_append, List.nil_append, List.mem_cons, List.not_mem_nil,
    or_false] at hp
  rcases hp with rfl | rfl
  · exact hdone.imp_right .inl
  · exact .inr (.inr hdone)

end RedisHaTool.Syncer
