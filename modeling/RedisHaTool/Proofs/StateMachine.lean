import RedisHaTool.Proofs.Handshake
import RedisHaTool.Syncer.StateMachine

/-!
# The phase during the stream

The loop of `receive_aof_stream` is left by an error only, and so are the three
functions around it. The leader stores the incremental phases after an `Ok` of
the input task, which therefore never comes: from its spawning on the phase is
one of the full synchronisation, whatever has been received by then.
-/

namespace RedisHaTool.Syncer

open Lib Store Resp

/-! ## No way to return -/

/-- The computation ends with an error wherever it starts. -/
def NeverOk {α : Type} (m : InputM α) : Prop := ∀ s, ∃ e t, m s = .error e t

section NeverOk

variable {α β : Type}

theorem neverOk_throw (e : Fault SyncError) : NeverOk (throw e : InputM α) :=
  fun s => ⟨e, s, rfl⟩

theorem NeverOk.after (m : InputM α) {f : α → InputM β} (hf : ∀ a, NeverOk (f a)) :
    NeverOk (m >>= f) := by
  intro s
  cases hms : m s with
  | error e t => exact ⟨e, t, bind_of_error hms⟩
  | ok a t =>
      rw [bind_of_ok hms]
      exact hf a t

end NeverOk

theorem neverOk_receiveAofLoop (initialOffset : Int) (fuel : Nat) (received : Int) :
    NeverOk (receiveAofLoop initialOffset fuel received) := by
  induction fuel generalizing received with
  | zero => exact neverOk_throw _
  | succ fuel ih =>
      rw [receiveAofLoop]
      refine .after _ fun bs => ?_
      have hpiece : NeverOk (do
          emit (.writeAof bs)
          emit .flushAof
          let currentOffset ← checkedI64 (initialOffset + (received + bs.length))
          storePsyncOffset currentOffset
          receiveAofLoop initialOffset fuel (received + bs.length)) :=
        .after _ fun _ => .after _ fun _ => .after _ fun _ => .after _ fun _ => ih _
      split
      · exact .after _ fun _ => hpiece
      · exact hpiece

theorem neverOk_receiveAofStream (self : RedisInput) (initialOffset : Int) :
    NeverOk (self.receiveAofStream initialOffset) := by
  refine .after _ fun _ s => ?_
  exact neverOk_receiveAofLoop initialOffset (s.reader.pending.length + 1) 0 s

theorem neverOk_handlePsyncResponse (self : RedisInput) : NeverOk self.handlePsyncResponse := by
  refine .after _ fun firstLine => ?_
  dsimp only
  split
  · refine .after _ fun _ => .after _ fun masterOffset => .after _ fun _ => ?_
    exact .after _ fun _ => .after _ fun _ => neverOk_receiveAofStream self masterOffset
  · split
    · exact .after _ fun offset => .after _ fun _ => neverOk_receiveAofStream self offset
    · exact neverOk_throw _

theorem neverOk_run (self : RedisInput) : NeverOk self.run :=
  .after _ fun _ => neverOk_handlePsyncResponse self

theorem init_runOk (self : RedisInput) (incoming : List TcpRead) (sys : Sys)
    (fsm : SyncFiniteStateMachine) : (Leading.init self incoming sys fsm).runOk = false := by
  obtain ⟨e, t, herr⟩ := neverOk_run self
    { reader := { buffer := [], incoming }, psyncOffset := sys.psyncOffset, ops := [] }
  rw [Leading.init, herr]
  rfl

/-! ## What a step can do -/

/-- What a step does, by who takes it. -/
inductive Leading.Stepped (s : Leading) : Leading → Prop where
  | refuse (hstage : s.stage = .called) : Stepped s { s with stage := .returned }
  | startFullSync (hstage : s.stage = .called) :
      Stepped s { s with stage := .initialised, fsm := s.fsm.startFullSync }
  | spawnInput (hstage : s.stage = .initialised) :
      Stepped s { s with stage := .spawned, inputTask := .running }
  | beginFullSync (hstage : s.stage = .spawned) :
      Stepped s { s with stage := .syncing, fsm := s.fsm.beginFullSync }
  | input (op : InputOp) (ops : List InputOp) (now : Nat) (htask : s.inputTask = .running)
      (hinput : s.sys.input = op :: ops) :
      Stepped s { s with
        sys := { s.sys with input := ops }.perform now op, performed := s.performed ++ [op] }
  | others (sys : Sys) (hinput : sys.input = s.sys.input) : Stepped s { s with sys }
  | inputReturns (htask : s.inputTask = .running) (hinput : s.sys.input = []) :
      Stepped s { s with inputTask := .ended s.runOk }
  | inputFails (htask : s.inputTask = .running) : Stepped s { s with inputTask := .ended false }
  | inputDone (hstage : s.stage = .syncing) (htask : s.inputTask = .ended true) :
      Stepped s { s with stage := .inputDone }
  | gone (hstage : s.stage = .syncing ∨ s.stage = .incremental) :
      Stepped s { s with stage := .returned }
  | finishFullSync (hstage : s.stage = .inputDone) :
      Stepped s { s with stage := .fullSynced, fsm := s.fsm.finishFullSync }
  | startIncrSync (hstage : s.stage = .fullSynced) :
      Stepped s { s with stage := .incremental, fsm := s.fsm.startIncrSync }

/-- The steps of the system that are not the input task's leave its effects to
it. -/
theorem Sys.step_keepsInput {s t : Sys} {act : Act} (h : s.step act = some t)
    (hact : ∀ now, act ≠ .input now) : t.input = s.input := by
  cases Sys.Stepped.of_step h with
  | input op ops now hinput => exact absurd rfl (hact now)
  | _ => rfl

theorem Leading.stepSys_cases {s t : Leading} {act : Act} (h : s.stepSys act = some t) :
    s.Stepped t := by
  have hothers : (∀ now, act ≠ .input now) →
      (s.sys.step act).map (fun sys => { s with sys }) = some t → s.Stepped t := by
    intro hact hmap
    obtain ⟨sys, hsys, rfl⟩ := Option.map_eq_some_iff.1 hmap
    exact .others sys (Sys.step_keepsInput hsys hact)
  cases act with
  | input now =>
      rw [Leading.stepSys] at h
      split at h
      · next htask =>
          obtain ⟨sys, hsys, rfl⟩ := Option.map_eq_some_iff.1 h
          cases Sys.Stepped.of_step hsys with
          | input op ops now hinput =>
              rw [hinput]
              exact .input op ops now htask hinput
      · cases h
  | forward act => exact hothers (fun now hact => by cases hact) h
  | _ =>
      rw [Leading.stepSys] at h
      split at h
      · exact hothers (fun now hact => by cases hact) h
      · cases h

theorem Leading.Stepped.of_step {s t : Leading} {act : LeadAct} (h : s.step act = some t) :
    s.Stepped t := by
  unfold Leading.step at h
  split at h
  case h_1 hstage =>
    obtain rfl := Option.some.inj h
    exact .refuse hstage
  case h_2 hstage =>
    obtain rfl := Option.some.inj h
    exact .startFullSync hstage
  case h_3 hstage =>
    obtain rfl := Option.some.inj h
    exact .spawnInput hstage
  case h_4 hstage =>
    obtain rfl := Option.some.inj h
    exact .beginFullSync hstage
  case h_5 hstage =>
    split at h
    · obtain rfl := Option.some.inj h
      exact .gone (.inl hstage)
    · cases h
  case h_6 act => exact Leading.stepSys_cases h
  case h_7 =>
    split at h
    · next hreturns =>
        obtain rfl := Option.some.inj h
        exact .inputReturns hreturns.1 hreturns.2
    · cases h
  case h_8 =>
    split at h
    · next htask =>
        obtain rfl := Option.some.inj h
        exact .inputFails htask
    · cases h
  case h_9 hstage =>
    split at h
    · split at h
      · next htask =>
          obtain rfl := Option.some.inj h
          exact .inputDone hstage htask
      · obtain rfl := Option.some.inj h
        exact .gone (.inl hstage)
      · cases h
      · cases h
    · cases h
  case h_10 hstage =>
    split at h
    · obtain rfl := Option.some.inj h
      exact .gone (.inl hstage)
    · cases h
  case h_11 hstage =>
    obtain rfl := Option.some.inj h
    exact .gone (.inr hstage)
  case h_12 hstage =>
    obtain rfl := Option.some.inj h
    exact .finishFullSync hstage
  case h_13 hstage =>
    obtain rfl := Option.some.inj h
    exact .startIncrSync hstage
  case h_14 => cases h

/-! ## What every run keeps -/

/-- The leader is not told of an `Ok`, and the input task is not spawned before
the first phase is stored. -/
structure Leading.Held (effects : List InputOp) (s : Leading) : Prop where
  runOk : s.runOk = false
  inputTask : s.inputTask ≠ .ended true
  stage : s.stage ≠ .inputDone ∧ s.stage ≠ .fullSynced ∧ s.stage ≠ .incremental
  called : s.stage = .called → s.inputTask = .notSpawned
  idle : s.inputTask = .notSpawned → s.performed = []
  phase : s.stage = .initialised ∨ s.inputTask ≠ .notSpawned →
    s.fsm.phase.isIncrSync = false
  performed : s.performed ++ s.sys.input = effects

theorem held_init (self : RedisInput) (incoming : List TcpRead) (sys : Sys)
    (fsm : SyncFiniteStateMachine) :
    (Leading.init self incoming sys fsm).Held (self.effects sys.psyncOffset incoming) where
  runOk := init_runOk self incoming sys fsm
  inputTask := by simp [Leading.init]
  stage := by simp [Leading.init]
  called := fun _ => rfl
  idle := fun _ => rfl
  phase := by simp [Leading.init]
  performed := rfl

theorem Leading.Held.step {effects : List InputOp} {s t : Leading} {act : LeadAct}
    (hs : s.Held effects) (h : s.step act = some t) : t.Held effects := by
  cases Leading.Stepped.of_step h with
  | refuse hstage =>
      have htask := hs.called hstage
      exact { hs with
        stage := by simp
        called := fun hcalled => by cases hcalled
        phase := fun hphase => by simp [htask] at hphase }
  | startFullSync hstage =>
      exact { hs with
        stage := by simp
        called := fun hcalled => by cases hcalled
        phase := fun _ => by simp [SyncFiniteStateMachine.startFullSync, SyncPhase.isIncrSync] }
  | spawnInput hstage =>
      exact { hs with
        inputTask := by simp
        stage := by simp
        called := fun hcalled => by cases hcalled
        idle := fun hidle => by cases hidle
        phase := fun _ => hs.phase (.inl hstage) }
  | beginFullSync hstage =>
      exact { hs with
        stage := by simp
        called := fun hcalled => by cases hcalled
        phase := fun _ => by simp [SyncFiniteStateMachine.beginFullSync, SyncPhase.isIncrSync] }
  | input op ops now htask hinput =>
      exact { hs with
        idle := fun hidle => by simp [htask] at hidle
        performed := by
          rw [perform_input, List.append_assoc, List.singleton_append, ← hinput]
          exact hs.performed }
  | others sys hinput =>
      exact { hs with performed := hinput ▸ hs.performed }
  | inputReturns htask hinput =>
      exact { hs with
        inputTask := by simp [hs.runOk]
        called := fun hcalled => by simp [hs.called hcalled] at htask
        idle := fun hidle => by cases hidle
        phase := fun _ => hs.phase (.inr (by simp [htask])) }
  | inputFails htask =>
      exact { hs with
        inputTask := by simp
        called := fun hcalled => by simp [hs.called hcalled] at htask
        idle := fun hidle => by cases hidle
        phase := fun _ => hs.phase (.inr (by simp [htask])) }
  | inputDone hstage htask => exact absurd htask hs.inputTask
  | gone hstage =>
      exact { hs with
        stage := by simp
        called := fun hcalled => by cases hcalled
        phase := fun hphase => hs.phase (.inr (hphase.resolve_left (by simp))) }
  | finishFullSync hstage => exact absurd hstage hs.stage.1
  | startIncrSync hstage => exact absurd hstage hs.stage.2.1

section Runs

variable {self : RedisInput} {incoming : List TcpRead} {sys : Sys}
  {fsm : SyncFiniteStateMachine} {acts : List LeadAct} {s : Leading}

theorem held_run (hrun : Steps Leading.step Free (.init self incoming sys fsm) acts s) :
    s.Held (self.effects sys.psyncOffset incoming) :=
  hrun.invariant (fun _ _ _ hs _ hstep => hs.step hstep) (held_init self incoming sys fsm)

/-- Once bytes of the stream are received the phase is none of the incremental
ones, whatever the source has sent. -/
theorem phase_of_received
    (hrun : Steps Leading.step Free (.init self incoming sys fsm) acts s)
    (h : s.ReceivedAof) : s.fsm.phase.isIncrSync = false := by
  obtain ⟨bytes, hmem, -⟩ := h
  have hs := held_run hrun
  refine hs.phase (.inr fun htask => ?_)
  rw [hs.idle htask] at hmem
  exact absurd hmem List.not_mem_nil

end Runs

/-! ## The run to the end of the effects -/

/-- The input task can be let through all its effects. -/
theorem exists_run_inputs {s : Leading} {ops : List InputOp} (htask : s.inputTask = .running)
    (hinput : s.sys.input = ops) :
    ∃ acts t, Steps Leading.step Free s acts t ∧ t.performed = s.performed ++ ops := by
  induction ops generalizing s with
  | nil => exact ⟨[], s, .refl s, (List.append_nil _).symm⟩
  | cons op ops ih =>
      obtain ⟨acts, t, hrun, hperformed⟩ := @ih { s with
        sys := { s.sys with input := ops }.perform 0 op
        performed := s.performed ++ [op] } htask (perform_input _ 0 op)
      refine ⟨.sys (.input 0) :: acts, t, .cons trivial ?_ hrun, ?_⟩
      · show s.stepSys (.input 0) = _
        rw [Leading.stepSys, if_pos htask, Sys.step_input 0 hinput, hinput]
        rfl
      · rw [hperformed, List.append_assoc]
        rfl

theorem exists_run_effects (self : RedisInput) (incoming : List TcpRead) (sys : Sys)
    (fsm : SyncFiniteStateMachine) :
    ∃ acts s, Steps Leading.step Free (.init self incoming sys fsm) acts s ∧
      s.performed = self.effects sys.psyncOffset incoming := by
  let s : Leading := { Leading.init self incoming sys fsm with
    stage := .syncing, fsm := fsm.startFullSync.beginFullSync, inputTask := .running }
  obtain ⟨acts, t, hrun, hperformed⟩ := exists_run_inputs (s := s) rfl rfl
  exact ⟨.startFullSync :: .spawnInput :: .beginFullSync :: acts, t,
    .cons trivial rfl (.cons trivial rfl (.cons trivial rfl hrun)), hperformed⟩

/-! ## What an answer makes the task do -/

theorem not_mem_psyncEffects (self : RedisInput) :
    (∀ bytes, .writeAof bytes ∉ self.psyncEffects) ∧
      ∀ runId offset size, .getRdbWriter runId offset size ∉ self.psyncEffects := by
  rw [RedisInput.psyncEffects]
  split
  · split <;> simp
  · simp

theorem exists_writeAof_stream (runId : Text) (initialOffset : Int) {pieces : List Bytes}
    (hne : ∀ p ∈ pieces, p ≠ []) :
    (∃ bytes, .writeAof bytes ∈ streamEffects runId initialOffset pieces ∧ bytes ≠ []) ↔
      pieces.flatten ≠ [] := by
  cases pieces with
  | nil => simp [streamEffects, aofEffects]
  | cons p ps =>
      have hp := hne p List.mem_cons_self
      refine iff_of_true ⟨p, ?_, hp⟩ ?_
      · simp [streamEffects, aofEffects]
      · rw [List.flatten_cons]
        exact List.append_ne_nil_of_left_ne_nil hp _

theorem exists_writeAof_continue (runId : Text) (psyncOffset : Int) {pieces : List Bytes}
    (hne : ∀ p ∈ pieces, p ≠ []) :
    (∃ bytes, .writeAof bytes ∈ continueEffects runId psyncOffset pieces ∧ bytes ≠ []) ↔
      pieces.flatten ≠ [] := by
  rw [← exists_writeAof_stream runId psyncOffset hne]
  simp [continueEffects]

theorem exists_writeAof_fullResync (f : FullResync) (runId : Text) (rdbPieces : List Bytes)
    {pieces : List Bytes} (hne : ∀ p ∈ pieces, p ≠ []) :
    (∃ bytes, .writeAof bytes ∈ f.effects runId rdbPieces pieces ∧ bytes ≠ []) ↔
      IsI64 (f.masterOffset - f.rdb.length) ∧ pieces.flatten ≠ [] := by
  rw [FullResync.effects]
  split
  · next hi64 =>
      rw [and_iff_right hi64, ← exists_writeAof_stream runId f.masterOffset hne]
      simp
  · next hi64 =>
      refine iff_of_false ?_ fun h => hi64 h.1
      simp

/-- Receiving the stream creates no RDB file. -/
theorem getRdbWriter_not_mem_stream (runId : Text) (initialOffset : Int) (pieces : List Bytes)
    (id : Text) (offset size : Int) :
    .getRdbWriter id offset size ∉ streamEffects runId initialOffset pieces := by
  have haof : ∀ received,
      .getRdbWriter id offset size ∉ aofEffects initialOffset received pieces := by
    induction pieces with
    | nil => simp [aofEffects]
    | cons p ps ih =>
        intro received
        rw [aofEffects]
        split <;> simp [ih]
  simp [streamEffects, haof]

theorem flushRdb_fullResync {f : FullResync} {runId : Text} {rdbPieces pieces : List Bytes}
    (h : ∃ id offset size, .getRdbWriter id offset size ∈ f.effects runId rdbPieces pieces) :
    .flushRdb ∈ f.effects runId rdbPieces pieces := by
  rw [FullResync.effects] at h ⊢
  split
  · simp
  · next hi64 => simp [if_neg hi64] at h

/-- The task receives bytes of the stream if the source sends any that can be
received. -/
theorem exists_writeAof_iff (self : RedisInput) (psyncOffset : Int) (a : Answer)
    {incoming : List TcpRead} (h : incoming.flatMap Subtype.val = a.reply) :
    (∃ bytes, .writeAof bytes ∈ self.effects psyncOffset incoming ∧ bytes ≠ []) ↔
      ¬ a.Silent := by
  have hpsync := (not_mem_psyncEffects self).1
  cases a with
  | fullResync f =>
      obtain ⟨rdbPieces, pieces, -, hpieces, heq⟩ := effects_fullResync self psyncOffset f h
      have hstream := exists_writeAof_fullResync f self.runId rdbPieces
        fun p hp => (hpieces.sizes p hp).1
      rw [hpieces.flatten] at hstream
      simp only [heq, List.mem_append, hpsync, false_or, hstream, Answer.Silent, not_or, not_not]
      exact and_comm
  | continues c =>
      obtain ⟨pieces, hpieces, heq⟩ := effects_continue self psyncOffset c h
      have hstream := exists_writeAof_continue self.runId (self.requested psyncOffset)
        fun p hp => (hpieces.sizes p hp).1
      rw [hpieces.flatten] at hstream
      simp only [heq, List.mem_append, hpsync, false_or, hstream, Answer.Silent]

/-- At the end of its effects the task has stored the RDB it was sent. -/
theorem flushRdb_of_getRdbWriter (self : RedisInput) (psyncOffset : Int) (a : Answer)
    {incoming : List TcpRead} (h : incoming.flatMap Subtype.val = a.reply)
    (hrdb : ∃ runId offset size,
      .getRdbWriter runId offset size ∈ self.effects psyncOffset incoming) :
    .flushRdb ∈ self.effects psyncOffset incoming := by
  obtain ⟨runId, offset, size, hmem⟩ := hrdb
  have hpsync := (not_mem_psyncEffects self).2 runId offset size
  cases a with
  | fullResync f =>
      obtain ⟨rdbPieces, pieces, -, -, heq⟩ := effects_fullResync self psyncOffset f h
      rw [heq, List.mem_append] at hmem ⊢
      exact .inr (flushRdb_fullResync ⟨_, _, _, hmem.resolve_left hpsync⟩)
  | continues c =>
      obtain ⟨pieces, -, heq⟩ := effects_continue self psyncOffset c h
      rw [heq, List.mem_append, continueEffects, List.mem_cons] at hmem
      exfalso
      rcases hmem with hmem | hmem | hmem
      · exact hpsync hmem
      · cases hmem
      · exact getRdbWriter_not_mem_stream _ _ _ _ _ _ hmem

/-! ## When the phase is right -/

/-- Whatever the source answers and however its bytes are cut: in every state of
every run the phase is an incremental one where the stream has begun and the load
is over, if and only if the stream cannot begin. An offset that is no `i64` is the
panic of a build with overflow checks. -/
theorem phaseRight_iff_silent (self : RedisInput) (a : Answer) {incoming : List TcpRead}
    (h : incoming.flatMap Subtype.val = a.reply) (sys : Sys) (fsm : SyncFiniteStateMachine) :
    (∀ acts s, Steps Leading.step Free (.init self incoming sys fsm) acts s → s.PhaseRight) ↔
      a.Silent := by
  have hreceives := exists_writeAof_iff self sys.psyncOffset a h
  constructor
  · intro hright
    by_contra hsilent
    obtain ⟨acts, s, hrun, hperformed⟩ := exists_run_effects self incoming sys fsm
    have hreceived : s.ReceivedAof := by
      rw [Leading.ReceivedAof, hperformed]
      exact hreceives.2 hsilent
    have hload : s.LoadOver := by
      rw [Leading.LoadOver, hperformed]
      exact flushRdb_of_getRdbWriter self sys.psyncOffset a h
    have hincr := hright acts s hrun hreceived hload
    rw [phase_of_received hrun hreceived] at hincr
    cases hincr
  · intro hsilent acts s hrun hreceived
    obtain ⟨bytes, hmem, hne⟩ := hreceived
    refine absurd hsilent (hreceives.1 ⟨bytes, ?_, hne⟩)
    rw [← (held_run hrun).performed]
    exact List.mem_append_left _ hmem

/-- The leader of a new process, about to be answered with a full
resynchronisation. -/
def freshLeading : Leading :=
  .init freshInput sampleReads (.init (.new ∅) true []) { state := 0 }

theorem phaseRight_iff_silent_sample :
    ¬ ∀ acts s, Steps Leading.step Free freshLeading acts s → s.PhaseRight :=
  (phaseRight_iff_silent freshInput (.fullResync sampleResync) (List.append_nil _) _ _).not.2
    (not_or.2 ⟨by decide, not_not.2 (by decide)⟩)

/-- The leader waits, is notified and forwards; the input task receives the RDB
and the stream and waits for more. -/
def receivingActs : List LeadAct :=
  [.startFullSync, .spawnInput, .beginFullSync, .sys .listen]
    ++ List.replicate 11 (.sys (.input 0)) ++ [.sys .start]

/-- The phase is still the one of the RDB. -/
theorem not_phaseRight :
    ¬ ∀ (self : RedisInput) (incoming : List TcpRead) (sys : Sys)
        (fsm : SyncFiniteStateMachine) (acts : List LeadAct) (s : Leading),
      Steps Leading.step Free (.init self incoming sys fsm) acts s → s.PhaseRight := by
  intro h
  have hrun : Steps Leading.step Free freshLeading receivingActs
      (after Leading.step freshLeading receivingActs) := .of_after (by decide +kernel)
  have hreceived : (after Leading.step freshLeading receivingActs).ReceivedAof :=
    ⟨[65], by decide +kernel, by decide⟩
  have hincr := h _ _ _ _ _ _ hrun hreceived fun _ => by decide +kernel
  revert hincr
  decide +kernel

end RedisHaTool.Syncer
