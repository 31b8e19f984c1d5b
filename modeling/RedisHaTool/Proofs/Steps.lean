import RedisHaTool.Syncer.Leader

/-!
# What a step can do

The step functions read back as relations, one constructor for each thing that
can happen, guards included. Every invariant of a run is a case analysis over
these and never unfolds a step function.
-/

namespace RedisHaTool.Syncer

open Lib Store Checkpoint

/-- What a step of the forwarding task does. -/
inductive Forwarder.Stepped (storer : FileStorer) (masterReplid : Text) (f : Forwarder) :
    ForwardAct → Forwarder → List Event → Prop where
  | available (hpc : f.pc = .check) (h : 0 < storer.availableBytes f.offset) :
      Stepped storer masterReplid f .check { f with pc := .open } []
  | unavailable (hpc : f.pc = .check) (h : ¬ 0 < storer.availableBytes f.offset) :
      Stepped storer masterReplid f .check { f with pc := .idle } []
  | listen (hpc : f.pc = .idle) :
      Stepped storer masterReplid f .listen { f with pc := .waiting } []
  | noReader (hpc : f.pc = .open) (e : SyncError)
      (h : storer.getReader f.offset = .error e) :
      Stepped storer masterReplid f .open { f with pc := .idle } []
  | rdbReader (hpc : f.pc = .open) (r : RdbReader)
      (h : storer.getReader f.offset = .ok (.rdb r)) :
      Stepped storer masterReplid f .open { f with hasStream := false, pc := .sendRdb r }
        [.handRdb r]
  | aofReader (hpc : f.pc = .open) (r : AofReader)
      (h : storer.getReader f.offset = .ok (.aof r)) (hstream : f.hasStream = true) :
      Stepped storer masterReplid f .open { f with pc := .read r 0 } []
  | aofConnect (hpc : f.pc = .open) (r : AofReader)
      (h : storer.getReader f.offset = .ok (.aof r)) (hstream : f.hasStream = false) :
      Stepped storer masterReplid f .open { f with pc := .connect r } []
  | rdbFailed (r : RdbReader) (hpc : f.pc = .sendRdb r) (e : SyncError)
      (now : Rdb.SystemTime) :
      Stepped storer masterReplid f (.rdbSent (.error e) now) { f with pc := .check } []
  | rdbPanic (r : RdbReader) (hpc : f.pc = .sendRdb r) (n : Int) (now : Rdb.SystemTime)
      (h : ¬ IsI64 (f.offset + r.size)) :
      Stepped storer masterReplid f (.rdbSent (.ok n) now) { f with pc := .done } []
  | rdbPassed (r : RdbReader) (hpc : f.pc = .sendRdb r) (n : Int) (now : Rdb.SystemTime)
      (h : IsI64 (f.offset + r.size)) :
      Stepped storer masterReplid f (.rdbSent (.ok n) now)
        { f with offset := f.offset + r.size, rdbForwarded := true, pc := .check } []
  | rdbSaving (r : RdbReader) (hpc : f.pc = .sendRdb r) (n : Int) (now : Rdb.SystemTime)
      (h : IsI64 (f.offset + r.size)) (hmanager : f.hasManager = true)
      (hid : masterReplid ≠ []) :
      Stepped storer masterReplid f (.rdbSent (.ok n) now)
        { f with
          offset := f.offset + r.size
          rdbForwarded := true
          pc := .save [saveCheckpoint (.new masterReplid (f.offset + r.size) now),
            savePsyncInfo masterReplid (f.offset + r.size)] } []
  | connected (r : AofReader) (hpc : f.pc = .connect r) :
      Stepped storer masterReplid f .connected { f with hasStream := true, pc := .read r 0 }
        [.connected f.offset]
  | connectFailed (r : AofReader) (hpc : f.pc = .connect r) :
      Stepped storer masterReplid f .connectFailed { f with pc := .check } []
  | read (r : AofReader) (sent n : Nat) (hpc : f.pc = .read r sent) (hpos : 1 ≤ n)
      (hbuf : n ≤ 8192) (hlen : n ≤ (r.remaining storer.disk).length) :
      Stepped storer masterReplid f (.read n)
        { f with pc := .write (r.advance n) sent ((r.remaining storer.disk).take n) } []
  | readFailed (r : AofReader) (sent : Nat) (hpc : f.pc = .read r sent) :
      Stepped storer masterReplid f .readFailed { f with hasStream := false, pc := .check } []
  | finishNothing (r : AofReader) (hpc : f.pc = .read r 0)
      (hend : r.remaining storer.disk = []) (elapsed : Bool) (now : Rdb.SystemTime) :
      Stepped storer masterReplid f (.finish elapsed now) { f with pc := .check } []
  | finishPanic (r : AofReader) (sent : Nat) (hpc : f.pc = .read r sent)
      (hend : r.remaining storer.disk = []) (elapsed : Bool) (now : Rdb.SystemTime)
      (h : ¬ IsI64 (f.offset + sent)) :
      Stepped storer masterReplid f (.finish elapsed now) { f with pc := .done } []
  | finish (r : AofReader) (sent : Nat) (hpc : f.pc = .read r sent) (hsent : sent ≠ 0)
      (hend : r.remaining storer.disk = []) (elapsed : Bool) (now : Rdb.SystemTime)
      (h : IsI64 (f.offset + sent)) :
      Stepped storer masterReplid f (.finish elapsed now)
        { f with offset := f.offset + sent, pc := .check } []
  | finishSaving (r : AofReader) (sent : Nat) (hpc : f.pc = .read r sent) (hsent : sent ≠ 0)
      (hend : r.remaining storer.disk = []) (now : Rdb.SystemTime)
      (h : IsI64 (f.offset + sent)) (hmanager : f.hasManager = true)
      (hid : masterReplid ≠ []) :
      Stepped storer masterReplid f (.finish true now)
        { f with
          offset := f.offset + sent
          pc := .save [saveCheckpoint (.new masterReplid (f.offset + sent) now)] } []
  | wrote (r : AofReader) (sent : Nat) (chunk : Bytes) (hpc : f.pc = .write r sent chunk) :
      Stepped storer masterReplid f .wrote { f with pc := .read r (sent + chunk.length) }
        [.sent (chunkIndex r chunk) chunk]
  | writeFailed (r : AofReader) (sent : Nat) (chunk : Bytes)
      (hpc : f.pc = .write r sent chunk) (accepted : Nat) (h : accepted < chunk.length) :
      Stepped storer masterReplid f (.writeFailed accepted)
        { f with hasStream := false, pc := .check }
        [.sent (chunkIndex r chunk) (chunk.take accepted)]
  | saved (c : Command) (cs : List Command) (calls : List (List Command))
      (hpc : f.pc = .save ((c :: cs) :: calls)) :
      Stepped storer masterReplid f .saved { f with pc := .saving (cs :: calls) } [.command c]
  | saveFailed (c : Command) (cs : List Command) (calls : List (List Command))
      (hpc : f.pc = .save ((c :: cs) :: calls)) (executed : Bool) :
      Stepped storer masterReplid f (.saveFailed executed) { f with pc := .saving calls }
        (if executed then [.command c] else [])
  | cancel : Stepped storer masterReplid f .cancel { f with pc := .done } []

theorem saving_nonempty {call : List Command} {calls : List (List Command)}
    (h : ∀ c ∈ call :: calls, c ≠ []) :
    ForwardPc.saving (call :: calls) = .save (call :: calls) := by
  have hfilter : (call :: calls).filter (· ≠ []) = call :: calls :=
    List.filter_eq_self.2 fun c hc => decide_eq_true (h c hc)
  rw [ForwardPc.saving, hfilter]

theorem Forwarder.Stepped.of_afterRdb {storer : FileStorer} {masterReplid : Text}
    {f : Forwarder} {r : RdbReader} (hpc : f.pc = .sendRdb r)
    (result : Except SyncError Int) (now : Rdb.SystemTime) :
    f.Stepped storer masterReplid (.rdbSent result now)
      (f.afterRdb masterReplid r now result) [] := by
  cases result with
  | error e => exact .rdbFailed r hpc e now
  | ok n =>
      simp only [Forwarder.afterRdb]
      split
      · next h => exact .rdbPanic r hpc n now h
      · next h =>
          have hi64 := not_not.1 h
          split
          · next hforwarded =>
              have hf : { f with offset := f.offset + r.size, pc := .check }
                  = { f with offset := f.offset + r.size, rdbForwarded := true,
                             pc := .check } := by rw [hforwarded]
              exact hf ▸ .rdbPassed r hpc n now hi64
          · rw [Forwarder.checkpointing]
            split
            · next hsave =>
                rw [saving_nonempty (by simp [saveCheckpoint, savePsyncInfo])]
                exact .rdbSaving r hpc n now hi64 hsave.1 hsave.2
            · exact .rdbPassed r hpc n now hi64

theorem Forwarder.Stepped.of_afterAof {storer : FileStorer} {masterReplid : Text}
    {f : Forwarder} {r : AofReader} {sent : Nat} (hpc : f.pc = .read r sent)
    (hend : r.remaining storer.disk = []) (elapsed : Bool) (now : Rdb.SystemTime) :
    f.Stepped storer masterReplid (.finish elapsed now)
      (f.afterAof masterReplid sent elapsed now) [] := by
  simp only [Forwarder.afterAof]
  split
  · next hsent =>
      subst hsent
      exact .finishNothing r hpc hend elapsed now
  · next hsent =>
      split
      · next h => exact .finishPanic r sent hpc hend elapsed now h
      · next h =>
          have hi64 := not_not.1 h
          split
          · next helapsed =>
              subst helapsed
              rw [Forwarder.checkpointing]
              split
              · next hsave =>
                  rw [saving_nonempty (by simp [saveCheckpoint])]
                  exact .finishSaving r sent hpc hsent hend now hi64 hsave.1 hsave.2
              · exact .finish r sent hpc hsent hend true now hi64
          · exact .finish r sent hpc hsent hend elapsed now hi64

theorem Forwarder.Stepped.of_step {storer : FileStorer} {masterReplid : Text}
    {f f' : Forwarder} {act : ForwardAct} {events : List Event}
    (h : f.step storer masterReplid act = some (f', events)) :
    f.Stepped storer masterReplid act f' events := by
  unfold Forwarder.step at h
  split at h
  case h_1 hpc =>
    obtain ⟨rfl, rfl⟩ := Prod.mk.inj (Option.some.inj h)
    split
    · next havailable => exact .available hpc havailable
    · next havailable => exact .unavailable hpc havailable
  case h_2 hpc =>
    obtain ⟨rfl, rfl⟩ := Prod.mk.inj (Option.some.inj h)
    exact .listen hpc
  case h_3 hpc =>
    have h := Option.some.inj h
    cases hreader : storer.getReader f.offset with
    | error e =>
        rw [hreader] at h
        obtain ⟨rfl, rfl⟩ := Prod.mk.inj h
        exact .noReader hpc e hreader
    | ok reader =>
        cases reader with
        | rdb r =>
            rw [hreader] at h
            obtain ⟨rfl, rfl⟩ := Prod.mk.inj h
            exact .rdbReader hpc r hreader
        | aof r =>
            rw [hreader] at h
            obtain ⟨rfl, rfl⟩ := Prod.mk.inj h
            split
            · next hstream => exact .aofReader hpc r hreader hstream
            · next hstream =>
                exact .aofConnect hpc r hreader (Bool.eq_false_iff.2 hstream)
  case h_4 result now r hpc =>
    obtain ⟨rfl, rfl⟩ := Prod.mk.inj (Option.some.inj h)
    exact .of_afterRdb hpc result now
  case h_5 r hpc =>
    obtain ⟨rfl, rfl⟩ := Prod.mk.inj (Option.some.inj h)
    exact .connected r hpc
  case h_6 r hpc =>
    obtain ⟨rfl, rfl⟩ := Prod.mk.inj (Option.some.inj h)
    exact .connectFailed r hpc
  case h_7 n r sent hpc =>
    split at h
    · next hn =>
        obtain ⟨rfl, rfl⟩ := Prod.mk.inj (Option.some.inj h)
        exact .read r sent n hpc hn.1 hn.2.1 hn.2.2
    · cases h
  case h_8 r sent hpc =>
    obtain ⟨rfl, rfl⟩ := Prod.mk.inj (Option.some.inj h)
    exact .readFailed r sent hpc
  case h_9 elapsed now r sent hpc =>
    split at h
    · next hend =>
        obtain ⟨rfl, rfl⟩ := Prod.mk.inj (Option.some.inj h)
        exact .of_afterAof hpc hend elapsed now
    · cases h
  case h_10 r sent chunk hpc =>
    obtain ⟨rfl, rfl⟩ := Prod.mk.inj (Option.some.inj h)
    exact .wrote r sent chunk hpc
  case h_11 accepted r sent chunk hpc =>
    split at h
    · next hlt =>
        obtain ⟨rfl, rfl⟩ := Prod.mk.inj (Option.some.inj h)
        exact .writeFailed r sent chunk hpc accepted hlt
    · cases h
  case h_12 c cs calls hpc =>
    obtain ⟨rfl, rfl⟩ := Prod.mk.inj (Option.some.inj h)
    exact .saved c cs calls hpc
  case h_13 executed c cs calls hpc =>
    obtain ⟨rfl, rfl⟩ := Prod.mk.inj (Option.some.inj h)
    exact .saveFailed c cs calls hpc executed
  case h_14 =>
    obtain ⟨rfl, rfl⟩ := Prod.mk.inj (Option.some.inj h)
    exact .cancel
  case h_15 => cases h

/-- The offset moves when an RDB file or a call that has sent something is
through. -/
theorem Forwarder.Stepped.offset_cases {storer : FileStorer} {masterReplid : Text}
    {f f' : Forwarder} {act : ForwardAct} {events : List Event}
    (h : f.Stepped storer masterReplid act f' events) :
    f'.offset = f.offset ∨
      (∃ r, f.pc = .sendRdb r ∧ f'.offset = f.offset + r.size ∧
        IsI64 (f.offset + r.size)) ∨
      ∃ r sent, f.pc = .read r sent ∧ sent ≠ 0 ∧ r.remaining storer.disk = [] ∧
        f'.offset = f.offset + sent ∧ IsI64 (f.offset + sent) := by
  cases h with
  | rdbPassed r hpc n now hi64 | rdbSaving r hpc n now hi64 =>
      exact .inr (.inl ⟨r, hpc, rfl, hi64⟩)
  | finish r sent hpc hsent hend elapsed now hi64
  | finishSaving r sent hpc hsent hend now hi64 =>
      exact .inr (.inr ⟨r, sent, hpc, hsent, hend, rfl, hi64⟩)
  | _ => exact .inl rfl

/-- A connection starts at the task's offset. -/
theorem Forwarder.Stepped.connected_mem {storer : FileStorer} {masterReplid : Text}
    {f f' : Forwarder} {act : ForwardAct} {events : List Event} {o : Int}
    (h : f.Stepped storer masterReplid act f' events) (ho : .connected o ∈ events) :
    o = f.offset := by
  cases h with
  | saveFailed c cs calls hpc executed => cases executed <;> simp at ho
  | _ => simp_all

theorem Forwarder.Stepped.source_not_mem {storer : FileStorer} {masterReplid : Text}
    {f f' : Forwarder} {act : ForwardAct} {events : List Event}
    (h : f.Stepped storer masterReplid act f' events) (bs : Bytes) : .source bs ∉ events := by
  cases h with
  | saveFailed c cs calls hpc executed => cases executed <;> simp
  | _ => simp

/-- What a step of the whole machine does. -/
inductive Sys.Stepped (s : Sys) : Act → Sys → Prop where
  | input (op : InputOp) (ops : List InputOp) (now : Nat) (hinput : s.input = op :: ops) :
      Stepped s (.input now) ({ s with input := ops }.perform now op)
  | listen (hleader : s.leader = .spawned) :
      Stepped s .listen { s with leader := .listening }
  | timeout (hleader : s.leader = .listening) :
      Stepped s .timeout { s with leader := .ready }
  | start (hleader : s.leader = .ready) :
      Stepped s .start { s with
        hasManager := false
        leader := .forwarding s.psyncOffset (.new s.psyncOffset s.hasManager) }
  | forward (o : Int) (f f' : Forwarder) (act : ForwardAct) (events : List Event)
      (hleader : s.leader = .forwarding o f)
      (hstep : f.Stepped s.storer s.masterReplid act f' events) :
      Stepped s (.forward act) { s with
        leader := .forwarding o f', log := s.log ++ events }

theorem Sys.Stepped.of_step {s t : Sys} {act : Act} (h : s.step act = some t) :
    s.Stepped act t := by
  unfold Sys.step at h
  split at h
  case h_1 _ now =>
    split at h
    · cases h
    · next op ops hinput =>
        obtain rfl := Option.some.inj h
        exact .input op ops now hinput
  case h_2 hleader =>
    obtain rfl := Option.some.inj h
    exact .listen hleader
  case h_3 hleader =>
    obtain rfl := Option.some.inj h
    exact .timeout hleader
  case h_4 hleader =>
    obtain rfl := Option.some.inj h
    exact .start hleader
  case h_5 a o f hleader =>
    obtain ⟨⟨f', events⟩, hstep, rfl⟩ := Option.map_eq_some_iff.1 h
    exact .forward o f f' a events hleader (.of_step hstep)
  case h_6 => cases h

/-- An invariant of the machine, one step at a time. -/
theorem Sys.Runs.invariant {C : Sys → Act → Prop} {I : Sys → Prop} {s t : Sys}
    {acts : List Act} (h : s.Runs C acts t)
    (hI : ∀ s act t, I s → C s act → s.Stepped act t → I t) (hs : I s) : I t :=
  Steps.invariant h (fun s act t hIs hC hstep => hI s act t hIs hC (.of_step hstep)) hs

/-! ## Frames -/

/-- Nothing changes but the files and their writers, and the forwarding task may
be woken. -/
structure Sys.OnlyFiles (s t : Sys) : Prop where
  dataSet : t.storer.dataSet = s.storer.dataSet
  psyncOffset : t.psyncOffset = s.psyncOffset
  masterReplid : t.masterReplid = s.masterReplid
  hasManager : t.hasManager = s.hasManager
  input : t.input = s.input
  log : t.log = s.log
  leader : t.leader = s.leader ∨ t.leader = s.leader.dataReady

theorem Sys.OnlyFiles.refl (s : Sys) : s.OnlyFiles s :=
  ⟨rfl, rfl, rfl, rfl, rfl, rfl, .inl rfl⟩

theorem writeRdb_onlyFiles (s : Sys) (bs : Bytes) : s.OnlyFiles (s.writeRdb bs) := by
  unfold Sys.writeRdb
  split
  · exact .refl s
  · exact ⟨rfl, rfl, rfl, rfl, rfl, rfl, .inr rfl⟩

theorem flushRdb_onlyFiles (s : Sys) : s.OnlyFiles s.flushRdb := by
  unfold Sys.flushRdb
  split
  · exact .refl s
  · exact ⟨rfl, rfl, rfl, rfl, rfl, rfl, .inl rfl⟩

theorem writeAof_onlyFiles (s : Sys) (bs : Bytes) : s.OnlyFiles (s.writeAof bs) := by
  unfold Sys.writeAof
  split
  · exact .refl s
  · exact ⟨rfl, rfl, rfl, rfl, rfl, rfl, .inl rfl⟩

theorem flushAof_onlyFiles (s : Sys) : s.OnlyFiles s.flushAof := by
  unfold Sys.flushAof
  split
  · exact .refl s
  · exact ⟨rfl, rfl, rfl, rfl, rfl, rfl, .inr rfl⟩

@[simp] theorem perform_input (s : Sys) (now : Nat) (op : InputOp) :
    (s.perform now op).input = s.input := by
  cases op with
  | writeRdb bs => exact (writeRdb_onlyFiles s bs).input
  | flushRdb => exact (flushRdb_onlyFiles s).input
  | writeAof bs => exact (writeAof_onlyFiles s bs).input
  | flushAof => exact (flushAof_onlyFiles s).input
  | _ => rfl

/-- Which RDB files are listed after an effect. -/
theorem perform_rdbFiles {s : Sys} {now : Nat} {op : InputOp} {id : Text} {r : DataSetRdb}
    (h : r ∈ listed (s.perform now op).storer.dataSet.rdbFiles id) :
    r ∈ listed s.storer.dataSet.rdbFiles id ∨
      ∃ id o size, op = .getRdbWriter id o size ∧ r.offset = o ∧ r.size = size := by
  cases op with
  | getRdbWriter id' o size =>
      rcases mem_listed_pushSorted.1 h with h | ⟨-, rfl⟩
      · exact .inl h
      · exact .inr ⟨id', o, size, rfl, rfl, rfl⟩
  | writeRdb bs => exact .inl ((writeRdb_onlyFiles s bs).dataSet ▸ h)
  | flushRdb => exact .inl ((flushRdb_onlyFiles s).dataSet ▸ h)
  | writeAof bs => exact .inl ((writeAof_onlyFiles s bs).dataSet ▸ h)
  | flushAof => exact .inl ((flushAof_onlyFiles s).dataSet ▸ h)
  | _ => exact .inl h

/-- An effect adds to the log only what is sent to the source. -/
theorem perform_log (s : Sys) (now : Nat) (op : InputOp) :
    (s.perform now op).log = s.log ∨
      ∃ bs, op = .sendSource bs ∧ (s.perform now op).log = s.log ++ [.source bs] := by
  cases op with
  | sendSource bs => exact .inr ⟨bs, rfl, rfl⟩
  | writeRdb bs => exact .inl (writeRdb_onlyFiles s bs).log
  | flushRdb => exact .inl (flushRdb_onlyFiles s).log
  | writeAof bs => exact .inl (writeAof_onlyFiles s bs).log
  | flushAof => exact .inl (flushAof_onlyFiles s).log
  | _ => exact .inl rfl

/-- Which segments are listed after an effect. -/
theorem perform_aofSegments {s : Sys} {now : Nat} {op : InputOp} {id : Text}
    {a : DataSetAof} (h : a ∈ listed (s.perform now op).storer.dataSet.aofSegments id) :
    a ∈ listed s.storer.dataSet.aofSegments id ∨ ∃ id o, op = .getAofWriter id o := by
  cases op with
  | getAofWriter id' o => exact .inr ⟨id', o, rfl⟩
  | writeRdb bs => exact .inl ((writeRdb_onlyFiles s bs).dataSet ▸ h)
  | flushRdb => exact .inl ((flushRdb_onlyFiles s).dataSet ▸ h)
  | writeAof bs => exact .inl ((writeAof_onlyFiles s bs).dataSet ▸ h)
  | flushAof => exact .inl ((flushAof_onlyFiles s).dataSet ▸ h)
  | _ => exact .inl h

/-- An effect wakes the leader or its task, and does no more to them. -/
theorem perform_leader (s : Sys) (now : Nat) (op : InputOp) :
    (s.perform now op).leader = s.leader ∨
      (s.perform now op).leader = s.leader.dataReady ∨
      (s.perform now op).leader = s.leader.psyncReady := by
  cases op with
  | writeRdb bs => exact (writeRdb_onlyFiles s bs).leader.imp_right .inl
  | flushRdb => exact (flushRdb_onlyFiles s).leader.imp_right .inl
  | writeAof bs => exact (writeAof_onlyFiles s bs).leader.imp_right .inl
  | flushAof => exact (flushAof_onlyFiles s).leader.imp_right .inl
  | notifyReady => exact .inr (.inr rfl)
  | _ => exact .inl rfl

/-- A task that is spawned stays as it is, or is woken. -/
theorem forwarding_of_perform {s : Sys} {now : Nat} {op : InputOp} {o : Int}
    {f : Forwarder} (h : (s.perform now op).leader = .forwarding o f) :
    ∃ g, s.leader = .forwarding o g ∧ (f = g ∨ f = g.notified) := by
  rcases perform_leader s now op with heq | heq | heq <;> rw [heq] at h
  · exact ⟨f, h, .inl rfl⟩
  · cases hs : s.leader with
    | forwarding o' g =>
        rw [hs] at h
        obtain ⟨rfl, rfl⟩ := LeaderPc.forwarding.inj h
        exact ⟨g, rfl, .inr rfl⟩
    | spawned | listening | ready =>
        rw [hs] at h
        cases h
  · cases hs : s.leader with
    | forwarding o' g =>
        rw [hs] at h
        obtain ⟨rfl, rfl⟩ := LeaderPc.forwarding.inj h
        exact ⟨g, rfl, .inl rfl⟩
    | spawned | listening | ready =>
        rw [hs] at h
        cases h

/-! ## Making steps -/

theorem Sys.step_input {s : Sys} {op : InputOp} {ops : List InputOp} (now : Nat)
    (h : s.input = op :: ops) :
    s.step (.input now) = some ({ s with input := ops }.perform now op) := by
  simp only [Sys.step, h]

theorem Sys.step_forward {s : Sys} {o : Int} {f f' : Forwarder} {act : ForwardAct}
    {events : List Event} (hleader : s.leader = .forwarding o f)
    (h : f.step s.storer s.masterReplid act = some (f', events)) :
    s.step (.forward act) = some { s with
      leader := .forwarding o f', log := s.log ++ events } := by
  simp only [Sys.step, hleader, h, Option.map_some]

/-- A step that does not load the offset. -/
def NoLoad (_ : Sys) (act : Act) : Prop := act ≠ .start

/-- The input task can be let through any of its effects first. -/
theorem Sys.exists_runs_inputs {s : Sys} (hleader : s.leader = .spawned)
    {done rest : List InputOp} (hinput : s.input = done ++ rest) :
    ∃ acts t, s.Runs NoLoad acts t ∧ t.input = rest ∧ t.leader = .spawned := by
  induction done generalizing s with
  | nil => exact ⟨[], s, .refl s, hinput, hleader⟩
  | cons op done ih =>
      have hleader' : ({ s with input := done ++ rest }.perform 0 op).leader = .spawned := by
        rcases perform_leader { s with input := done ++ rest } 0 op with h | h | h <;>
          rw [h, hleader] <;> rfl
      obtain ⟨acts, t, hrun, ht⟩ := ih hleader' (perform_input _ 0 op)
      exact ⟨_, t, .cons (by simp [NoLoad]) (Sys.step_input 0 hinput) hrun, ht⟩

/-- What is left to do is the end of what there was. -/
theorem Sys.Runs.input_suffix {C : Sys → Act → Prop} {s t : Sys} {acts : List Act}
    (h : s.Runs C acts t) : t.input <:+ s.input := by
  refine h.invariant (I := fun t => t.input <:+ s.input) (fun u act v hu _ hstep => ?_)
    List.suffix_rfl
  cases hstep with
  | input op ops now hinput =>
      rw [perform_input]
      exact (hinput ▸ List.suffix_cons op ops).trans hu
  | _ => exact hu

/-- The state a run on concrete input ends in. -/
def Sys.after (s : Sys) (acts : List Act) : Sys :=
  (exec Sys.step (fun _ _ => true) s acts).getD s

/-- A run on concrete input, each step of it tested. -/
theorem Sys.runs_after {C : Sys → Act → Prop} [∀ s act, Decidable (C s act)] {s : Sys}
    {acts : List Act}
    (h : (exec Sys.step (fun s act => decide (C s act)) s acts).isSome = true) :
    s.Runs C acts (s.after acts) :=
  Steps.of_after h

theorem Sys.runs_free {s : Sys} {acts : List Act}
    (h : (exec Sys.step (fun _ _ => true) s acts).isSome = true) :
    s.Runs Free acts (s.after acts) :=
  Sys.runs_after h

end RedisHaTool.Syncer
