import RedisHaTool.Proofs.InputEffects
import RedisHaTool.Syncer.Identity

/-!
# Which identity a session goes by

After the reply line nothing sets the id, and nothing stores an offset before
the last file is created. So every file of a session is created under what the
two variables hold once the line is read, and it is enough to know when that is
what the line names.
-/

namespace RedisHaTool.Syncer

open Lib Store Checkpoint

/-! ## Effects and the identity -/

section Effects

variable {who : Identity} {ops ops' : List InputOp}

@[simp] theorem identityAfter_nil : identityAfter who [] = who := rfl

@[simp] theorem identityAfter_cons (op : InputOp) :
    identityAfter who (op :: ops) = identityAfter (op.identify who) ops := rfl

@[simp] theorem identityAfter_append :
    identityAfter who (ops ++ ops') = identityAfter (identityAfter who ops) ops' :=
  List.foldl_append

@[simp] theorem filesUnder_append :
    filesUnder who (ops ++ ops')
      = filesUnder who ops ++ filesUnder (identityAfter who ops) ops' := by
  induction ops generalizing who with
  | nil => rfl
  | cons op ops ih =>
      rw [List.cons_append, filesUnder, filesUnder, identityAfter_cons]
      split
      · next hcreates =>
          have hsame : op.identify who = who := by cases op <;> first | rfl | cases hcreates
          rw [ih, hsame, List.cons_append]
      · exact ih

/-- The effects that leave both variables as they are. -/
def InputOp.keepsIdentity : InputOp → Bool
  | .storePsyncOffset _ | .setMasterReplid _ => false
  | _ => true

/-- The effects that neither create a file nor set the id. -/
def InputOp.comesLate : InputOp → Bool
  | .getRdbWriter .. | .getAofWriter .. | .setMasterReplid _ => false
  | _ => true

/-- Every file is created under the identity there is at the beginning, and its
id stays. -/
def Holding (ops : List InputOp) : Prop :=
  ∀ who, (∀ w ∈ filesUnder who ops, w = who) ∧
    (identityAfter who ops).masterReplid = who.masterReplid

theorem identityAfter_of_keeps (h : ops.all InputOp.keepsIdentity = true) :
    identityAfter who ops = who := by
  induction ops generalizing who with
  | nil => rfl
  | cons op ops ih =>
      rw [List.all_cons, Bool.and_eq_true] at h
      have hsame : op.identify who = who := by
        cases op <;> first | rfl | cases h.1
      rw [identityAfter_cons, hsame, ih h.2]

theorem filesUnder_of_keeps (h : ops.all InputOp.keepsIdentity = true) :
    ∀ w ∈ filesUnder who ops, w = who := by
  induction ops generalizing who with
  | nil => exact fun w hw => by cases hw
  | cons op ops ih =>
      rw [List.all_cons, Bool.and_eq_true] at h
      have hsame : op.identify who = who := by
        cases op <;> first | rfl | cases h.1
      rw [filesUnder, hsame]
      split
      · intro w hw
        rcases List.mem_cons.1 hw with rfl | hw
        · rfl
        · exact ih h.2 w hw
      · exact ih h.2

theorem Holding.of_keeps (h : ops.all InputOp.keepsIdentity = true) : Holding ops :=
  fun who => ⟨filesUnder_of_keeps h, by rw [identityAfter_of_keeps h]⟩

theorem Holding.after_keeps (h : ops.all InputOp.keepsIdentity = true)
    (h' : Holding ops') : Holding (ops ++ ops') := by
  intro who
  obtain ⟨hfiles, hid⟩ := h' who
  rw [filesUnder_append, identityAfter_append, identityAfter_of_keeps h]
  refine ⟨fun w hw => ?_, hid⟩
  rcases List.mem_append.1 hw with hw | hw
  · exact filesUnder_of_keeps h w hw
  · exact hfiles w hw

theorem filesUnder_eq_nil (h : ∀ op ∈ ops, op.createsFile = false) :
    filesUnder who ops = [] := by
  induction ops generalizing who with
  | nil => rfl
  | cons op ops ih =>
      have hop := h op List.mem_cons_self
      rw [filesUnder, if_neg (by rw [hop]; decide)]
      exact ih fun op hmem => h op (List.mem_cons_of_mem _ hmem)

theorem filesUnder_of_late (h : ops.all InputOp.comesLate = true) :
    filesUnder who ops = [] := by
  refine filesUnder_eq_nil fun op hop => ?_
  have hlate := List.all_eq_true.1 h op hop
  cases op <;> first | rfl | cases hlate

theorem masterReplid_of_late (h : ops.all InputOp.comesLate = true) :
    (identityAfter who ops).masterReplid = who.masterReplid := by
  induction ops generalizing who with
  | nil => rfl
  | cons op ops ih =>
      rw [List.all_cons, Bool.and_eq_true] at h
      have hid : (op.identify who).masterReplid = who.masterReplid := by
        cases op <;> first | rfl | cases h.1
      rw [identityAfter_cons, ih h.2, hid]

/-- The file of the stream, and what comes after it. -/
theorem Holding.of_late {runId : Text} {offset : Int}
    (h : ops.all InputOp.comesLate = true) :
    Holding (.getAofWriter runId offset :: ops) := by
  intro who
  have hfiles : filesUnder who (.getAofWriter runId offset :: ops) = [who] := by
    show who :: filesUnder who ops = [who]
    rw [filesUnder_of_late h]
  have hid : (identityAfter who ops).masterReplid = who.masterReplid := masterReplid_of_late h
  refine ⟨fun w hw => ?_, hid⟩
  rw [hfiles] at hw
  exact List.mem_singleton.1 hw

end Effects

/-! ## What a computation emits -/

/-- Whichever way the computation ends, it adds effects of this kind. -/
def EmitsOnly {α : Type} (p : InputOp → Bool) (m : InputM α) : Prop :=
  ∀ s, ∃ ops, opsOf (m s) = s.ops ++ ops ∧ ops.all p = true

section EmitsOnly

variable {α β : Type} {p : InputOp → Bool} {m : InputM α} {f : α → InputM β}

theorem EmitsOnly.of_none (h : ∀ s, opsOf (m s) = s.ops) : EmitsOnly p m :=
  fun s => ⟨[], by rw [h s, List.append_nil], rfl⟩

theorem EmitsOnly.bind (hm : EmitsOnly p m) (hf : ∀ a, EmitsOnly p (f a)) :
    EmitsOnly p (m >>= f) := by
  intro s
  obtain ⟨ops, hops, hp⟩ := hm s
  rw [bind_apply]
  cases hms : m s with
  | error e t =>
      rw [hms] at hops
      exact ⟨ops, hops, hp⟩
  | ok a t =>
      rw [hms] at hops
      obtain ⟨ops', hops', hp'⟩ := hf a t
      refine ⟨ops ++ ops', ?_, by rw [List.all_append, hp, hp']; rfl⟩
      have ht : t.ops = s.ops ++ ops := hops
      rw [← List.append_assoc, ← ht]
      exact hops'

theorem emitsOnly_emit {op : InputOp} (h : p op = true) : EmitsOnly p (emit op) :=
  fun _ => ⟨[op], rfl, by simpa using h⟩

theorem emitsOnly_pure (a : α) : EmitsOnly p (pure a) := EmitsOnly.of_none fun _ => rfl

theorem emitsOnly_throw (e : Fault SyncError) : EmitsOnly p (throw e : InputM α) :=
  EmitsOnly.of_none fun _ => rfl

theorem emitsOnly_failWith (text : Text) : EmitsOnly p (failWith text : InputM α) :=
  emitsOnly_throw _

theorem emitsOnly_read (max : Nat) : EmitsOnly p (read max) := EmitsOnly.of_none fun _ => rfl

theorem emitsOnly_checkedI64 (n : Int) : EmitsOnly p (checkedI64 n) := by
  rw [checkedI64]
  split
  · exact emitsOnly_pure n
  · exact emitsOnly_throw _

theorem emitsOnly_readLine : EmitsOnly p readLine := by
  refine EmitsOnly.of_none fun s => ?_
  simp only [readLine]
  split <;> rfl

theorem emitsOnly_withInputFuel {loop : Nat → InputM α} (h : ∀ n, EmitsOnly p (loop n)) :
    EmitsOnly p (withInputFuel loop) :=
  fun s => h (s.reader.pending.length + 1) s

end EmitsOnly

theorem emitsOnly_receiveRdbLoop (rdbSize : Int) (fuel : Nat) (received : Int) :
    EmitsOnly InputOp.keepsIdentity (receiveRdbLoop rdbSize fuel received) := by
  induction fuel generalizing received with
  | zero => exact emitsOnly_throw _
  | succ fuel ih =>
      rw [receiveRdbLoop]
      split
      · refine (emitsOnly_read _).bind fun bs => ?_
        split
        · exact (emitsOnly_failWith _).bind fun _ => (emitsOnly_emit rfl).bind fun _ => ih _
        · exact (emitsOnly_emit rfl).bind fun _ => ih _
      · exact emitsOnly_pure ()

theorem emitsOnly_receiveRdbData (self : RedisInput) (masterOffset : Int) :
    EmitsOnly InputOp.keepsIdentity (self.receiveRdbData masterOffset) := by
  have hstore : ∀ rdbSize : Int, EmitsOnly InputOp.keepsIdentity (do
      let rdbOffset ← checkedI64 (masterOffset - rdbSize)
      emit (.getRdbWriter self.runId rdbOffset rdbSize)
      withInputFuel fun fuel => receiveRdbLoop rdbSize fuel 0
      emit .flushRdb
      pure rdbSize) := by
    intro rdbSize
    refine (emitsOnly_checkedI64 _).bind fun rdbOffset => ?_
    refine (emitsOnly_emit rfl).bind fun _ => ?_
    refine (emitsOnly_withInputFuel fun n => emitsOnly_receiveRdbLoop rdbSize n 0).bind
      fun _ => ?_
    exact (emitsOnly_emit rfl).bind fun _ => emitsOnly_pure rdbSize
  refine emitsOnly_readLine.bind fun line => ?_
  split
  · dsimp only
    split
    · exact emitsOnly_failWith _
    · split
      · exact (emitsOnly_failWith _).bind fun _ => hstore _
      · exact hstore _
  · exact emitsOnly_failWith _

theorem emitsOnly_receiveAofLoop (initialOffset : Int) (fuel : Nat) (received : Int) :
    EmitsOnly InputOp.comesLate (receiveAofLoop initialOffset fuel received) := by
  induction fuel generalizing received with
  | zero => exact emitsOnly_throw _
  | succ fuel ih =>
      have hpiece : ∀ bs : Bytes, EmitsOnly InputOp.comesLate (do
          emit (.writeAof bs)
          emit .flushAof
          let currentOffset ← checkedI64 (initialOffset + (received + bs.length))
          storePsyncOffset currentOffset
          receiveAofLoop initialOffset fuel (received + bs.length)) := by
        intro bs
        refine (emitsOnly_emit rfl).bind fun _ => (emitsOnly_emit rfl).bind fun _ => ?_
        refine (emitsOnly_checkedI64 _).bind fun offset => ?_
        have hstore : EmitsOnly InputOp.comesLate (storePsyncOffset offset) :=
          fun s => ⟨[.storePsyncOffset offset], rfl, rfl⟩
        exact hstore.bind fun _ => ih _
      rw [receiveAofLoop]
      refine (emitsOnly_read 8192).bind fun bs => ?_
      split
      · exact (emitsOnly_failWith _).bind fun _ => hpiece bs
      · exact hpiece bs

/-- The file of the stream is created first. -/
theorem receiveAofStream_ops (self : RedisInput) (initialOffset : Int) (s : InputState) :
    ∃ ops, opsOf (self.receiveAofStream initialOffset s)
        = s.ops ++ .getAofWriter self.runId initialOffset :: ops ∧
      ops.all InputOp.comesLate = true := by
  obtain ⟨ops, hops, hlate⟩ := emitsOnly_withInputFuel
    (fun n => emitsOnly_receiveAofLoop initialOffset n 0)
    { s with ops := s.ops ++ [.getAofWriter self.runId initialOffset] }
  refine ⟨ops, ?_, hlate⟩
  rw [RedisInput.receiveAofStream, bind_apply, emit_apply]
  rw [List.append_assoc] at hops
  exact hops

/-! ## The reply line -/

/-- A line that is broken off is all there is. -/
theorem readUntilLf_brokenOff {incoming : List TcpRead} {buffer : Bytes}
    (h : (10 : UInt8) ∉ buffer ++ incoming.flatMap Subtype.val) :
    readUntilLf buffer incoming
      = (buffer ++ incoming.flatMap Subtype.val, { buffer := [], incoming := [] }) := by
  induction incoming generalizing buffer with
  | nil =>
      have hbuf : (10 : UInt8) ∉ buffer := fun hmem => h (List.mem_append_left _ hmem)
      rw [readUntilLf, splitLine_eq_none hbuf, List.flatMap_nil, List.append_nil]
  | cons bs incoming ih =>
      have hbuf : (10 : UInt8) ∉ buffer := fun hmem => h (List.mem_append_left _ hmem)
      rw [readUntilLf, splitLine_eq_none hbuf]
      rw [List.flatMap_cons] at h
      rw [ih fun hmem => h (List.mem_append_right _ hmem), List.flatMap_cons]

/-- The line is read, and what follows it is left. -/
theorem ReplyLine.readUntilLf (line : ReplyLine) {incoming : List TcpRead} {rest : Bytes}
    (h : incoming.flatMap Subtype.val = line.bytes ++ rest)
    (hend : line.ended = false → rest = []) :
    ∃ r, Syncer.readUntilLf [] incoming = (line.bytes, r) ∧ r.pending = rest ∧
      (line.ended = true → r.LeftOf incoming) := by
  rw [ReplyLine.bytes] at h ⊢
  cases hended : line.ended with
  | true =>
      rw [hended, if_pos rfl, List.append_assoc] at h
      obtain ⟨r, hread, hpending, hleft⟩ := readUntilLf_line line.noLf (.inl ⟨rfl, rfl⟩) h
      exact ⟨r, hread, hpending, fun _ => hleft⟩
  | false =>
      rw [hended, hend hended, if_neg (by decide), List.append_nil, List.append_nil] at h
      have hread := @readUntilLf_brokenOff incoming []
        (by rw [List.nil_append, h]; exact line.noLf)
      rw [List.nil_append, h] at hread
      refine ⟨{ buffer := [], incoming := [] }, ?_, (hend hended).symm,
        fun hfalse => by cases hfalse⟩
      rw [if_neg (by decide), List.append_nil]
      exact hread

/-- The state in which `handle_psync_response` is called. -/
def RedisInput.sent (self : RedisInput) (who : Identity) (reader : BufReader) : InputState :=
  { reader, psyncOffset := self.requested who.offset, ops := self.psyncEffects }

theorem session_eq (self : RedisInput) (who : Identity) (incoming : List TcpRead) :
    self.session who incoming
      = self.handlePsyncResponse (self.sent who { buffer := [], incoming }) := by
  rw [RedisInput.session, RedisInput.run, bind_apply, sendPsyncCommand_effects]
  rfl

/-- `handle_psync_response` past its first line. -/
theorem session_response {self : RedisInput} {line : ReplyLine} {incoming : List TcpRead}
    {rest : Bytes} (who : Identity) (h : incoming.flatMap Subtype.val = line.bytes ++ rest)
    (hend : line.ended = false → rest = []) :
    ∃ r, r.pending = rest ∧ (line.ended = true → r.LeftOf incoming) ∧
      match line.response with
      | none => self.session who incoming = .error (.err (.io .other)) (self.sent who r)
      | some response =>
          self.session who incoming = (if "+FULLRESYNC".toList <+: response then do
            acceptFullResync response
            let masterOffset ← loadPsyncOffset
            let _rdbSize ← self.receiveRdbData masterOffset
            sendReplconfAck masterOffset
            emit .notifyReady
            self.receiveAofStream masterOffset
          else if "+CONTINUE".toList <+: response then do
            let offset ← loadPsyncOffset
            emit .notifyReady
            self.receiveAofStream offset
          else failWith ("未知的 PSYNC 响应: ".toList ++ response) : InputM Unit)
            (self.sent who r) := by
  obtain ⟨r, hread, hpending, hleft⟩ := line.readUntilLf h hend
  refine ⟨r, hpending, hleft, ?_⟩
  rw [ReplyLine.response, session_eq, RedisInput.handlePsyncResponse, bind_apply]
  cases htext : fromUtf8 line.bytes with
  | none =>
      have hline : readLine (self.sent who { buffer := [], incoming })
          = .error (.err (.io .other)) (self.sent who r) := by
        simp only [readLine, RedisInput.sent, hread, htext]
      rw [hline]
      rfl
  | some t =>
      have hline : readLine (self.sent who { buffer := [], incoming })
          = .ok t (self.sent who r) := by
        simp only [readLine, RedisInput.sent, hread, htext]
      rw [hline]
      rfl

/-! ## Before the line and after it -/

theorem createsFile_psyncEffects (self : RedisInput) :
    ∀ op ∈ self.psyncEffects, op.createsFile = false := by
  have hall : self.psyncEffects.all (fun op => !op.createsFile) = true := by
    rw [RedisInput.psyncEffects]
    split
    · split <;> rfl
    · rfl
  intro op hop
  simpa using List.all_eq_true.1 hall op hop

/-- The effects of the computation are holding, whichever way it ends. -/
def Holds {α : Type} (m : InputM α) : Prop :=
  ∀ s, ∃ ops, opsOf (m s) = s.ops ++ ops ∧ Holding ops

theorem Holds.after {α β : Type} {m : InputM α} {f : α → InputM β}
    (hm : EmitsOnly InputOp.keepsIdentity m) (hf : ∀ a, Holds (f a)) : Holds (m >>= f) := by
  intro s
  obtain ⟨ops, hops, hkeeps⟩ := hm s
  rw [bind_apply]
  cases hms : m s with
  | error e t =>
      rw [hms] at hops
      exact ⟨ops, hops, .of_keeps hkeeps⟩
  | ok a t =>
      rw [hms] at hops
      obtain ⟨ops', hops', hholding⟩ := hf a t
      refine ⟨ops ++ ops', ?_, .after_keeps hkeeps hholding⟩
      have ht : t.ops = s.ops ++ ops := hops
      rw [← List.append_assoc, ← ht]
      exact hops'

theorem emitsOnly_loadPsyncOffset : EmitsOnly InputOp.keepsIdentity loadPsyncOffset :=
  EmitsOnly.of_none fun _ => rfl

theorem holds_receiveAofStream (self : RedisInput) (offset : Int) :
    Holds (self.receiveAofStream offset) := by
  intro s
  obtain ⟨ops, hops, hlate⟩ := receiveAofStream_ops self offset s
  exact ⟨_, hops, .of_late hlate⟩

theorem holds_fullResync (self : RedisInput) : Holds (do
    let masterOffset ← loadPsyncOffset
    let _rdbSize ← self.receiveRdbData masterOffset
    sendReplconfAck masterOffset
    emit .notifyReady
    self.receiveAofStream masterOffset) := by
  refine Holds.after emitsOnly_loadPsyncOffset fun masterOffset => ?_
  refine Holds.after (emitsOnly_receiveRdbData self masterOffset) fun _ => ?_
  refine Holds.after (emitsOnly_emit rfl) fun _ => ?_
  exact Holds.after (emitsOnly_emit rfl) fun _ => holds_receiveAofStream self masterOffset

theorem holds_continue (self : RedisInput) : Holds (do
    let offset ← loadPsyncOffset
    emit .notifyReady
    self.receiveAofStream offset) := by
  refine Holds.after emitsOnly_loadPsyncOffset fun offset => ?_
  exact Holds.after (emitsOnly_emit rfl) fun _ => holds_receiveAofStream self offset

/-- A `+CONTINUE` always creates the file of the stream. -/
theorem creates_continue (self : RedisInput) (s : InputState) :
    ∃ op ∈ opsOf ((do let offset ← loadPsyncOffset
                      emit .notifyReady
                      self.receiveAofStream offset : InputM Unit) s),
      op.createsFile = true := by
  obtain ⟨ops, hops, -⟩ := receiveAofStream_ops self s.psyncOffset
    { s with ops := s.ops ++ [.notifyReady] }
  refine ⟨.getAofWriter self.runId s.psyncOffset, ?_, rfl⟩
  rw [bind_apply, loadPsyncOffset_apply]
  dsimp only
  rw [bind_apply, emit_apply]
  dsimp only
  rw [hops]
  exact List.mem_append_right _ List.mem_cons_self

section Named

variable {self : RedisInput} {response : Text}

theorem acceptFullResync_named {named : Text × Option Int}
    (hfull : "+FULLRESYNC".toList <+: response) (h : self.named response = some named) :
    ∃ offset, named.2 = some offset ∧ ∀ s, acceptFullResync response s
      = .ok () { s with
          psyncOffset := offset
          ops := s.ops ++ [.storePsyncOffset offset, .setMasterReplid named.1] } := by
  rw [RedisInput.named, if_pos hfull] at h
  split at h
  case h_1 first masterReplid offsetStr rest hwords =>
      obtain ⟨offset, hoffset, rfl⟩ := Option.map_eq_some_iff.1 h
      refine ⟨offset, rfl, fun s => ?_⟩
      rw [acceptFullResync, hwords]
      simp only [hoffset, bind_apply, storePsyncOffset_apply, emit_apply, List.append_assoc,
        List.singleton_append]
  case h_2 => cases h

theorem acceptFullResync_unnamed (hfull : "+FULLRESYNC".toList <+: response)
    (h : self.named response = none) (s : InputState) :
    acceptFullResync response s = .ok () s := by
  rw [RedisInput.named, if_pos hfull] at h
  rw [acceptFullResync]
  rcases hwords : splitWhitespace response with _ | ⟨first, _ | ⟨id, _ | ⟨offsetStr, rest⟩⟩⟩
  · rfl
  · rfl
  · rfl
  · rw [hwords] at h
    have hoffset : parseI64 offsetStr = none := Option.map_eq_none_iff.1 h
    dsimp only
    rw [hoffset]
    rfl

/-- A `+CONTINUE` always names an id, and never an offset. -/
theorem named_continue (hfull : ¬ "+FULLRESYNC".toList <+: response)
    (hcont : "+CONTINUE".toList <+: response) :
    ∃ id, self.named response = some (id, none) := by
  rw [RedisInput.named, if_neg hfull, if_pos hcont]
  split
  · exact ⟨_, rfl⟩
  · exact ⟨_, rfl⟩

end Named

/-! ## The sessions that go by the line -/

theorem goesBy_of_holding {who : Identity} {named : Text × Option Int}
    {pre ops : List InputOp} (hpre : ∀ op ∈ pre, op.createsFile = false)
    (hid : (identityAfter who pre).masterReplid = named.1)
    (hoffset : ∀ offset, named.2 = some offset → (identityAfter who pre).offset = offset)
    (hops : Holding ops) : GoesBy who named (pre ++ ops) := by
  obtain ⟨hfiles, hkept⟩ := hops (identityAfter who pre)
  rw [GoesBy, identityAfter_append, filesUnder_append, filesUnder_eq_nil hpre, List.nil_append]
  refine ⟨hkept.trans hid, fun w hw => ?_⟩
  rw [hfiles w hw]
  exact ⟨hid, hoffset⟩

/-- A session that ends here ends early. -/
theorem failsEarly_of_error {self : RedisInput} {who : Identity} {r : BufReader}
    {res : EStateM.Result (Fault SyncError) InputState Unit} {e : SyncError} {t : InputState}
    (h : res = .error (.err e) t) (ht : t.ops = (self.sent who r).ops) : FailsEarly res := by
  refine ⟨⟨e, t, h⟩, fun op hop => createsFile_psyncEffects self op ?_⟩
  rw [h] at hop
  have hmem : op ∈ t.ops := hop
  rwa [ht] at hmem

/-- There is no RDB where there is nothing more to read. -/
theorem receiveRdbData_nothing (self : RedisInput) (masterOffset : Int) {s : InputState}
    (h : s.reader.pending = []) :
    ∃ e t, self.receiveRdbData masterOffset s = .error (.err e) t ∧ t.ops = s.ops := by
  obtain ⟨⟨buffer, incoming⟩, psyncOffset, ops⟩ := s
  obtain ⟨rfl, hincoming⟩ := List.append_eq_nil_iff.1 h
  cases incoming with
  | cons bs incoming => exact absurd (List.append_eq_nil_iff.1 hincoming).1 bs.2.1
  | nil => exact ⟨_, _, rfl, rfl⟩

section Branches

variable {self : RedisInput} {who : Identity} {r : BufReader} {response : Text}

theorem goesBy_fullResync {named : Text × Option Int}
    (hfull : "+FULLRESYNC".toList <+: response) (hnamed : self.named response = some named) :
    GoesBy who named (opsOf ((do
      acceptFullResync response
      let masterOffset ← loadPsyncOffset
      let _rdbSize ← self.receiveRdbData masterOffset
      sendReplconfAck masterOffset
      emit .notifyReady
      self.receiveAofStream masterOffset : InputM Unit) (self.sent who r))) := by
  obtain ⟨offset, hoffset, haccept⟩ := acceptFullResync_named hfull hnamed
  obtain ⟨ops, hops, hholding⟩ := holds_fullResync self
    { self.sent who r with
      psyncOffset := offset
      ops := self.psyncEffects ++ [.storePsyncOffset offset, .setMasterReplid named.1] }
  rw [bind_of_ok (haccept (self.sent who r))]
  refine hops ▸ goesBy_of_holding ?_ ?_ ?_ hholding
  · intro op hop
    rcases List.mem_append.1 hop with hop | hop
    · exact createsFile_psyncEffects self op hop
    · rcases List.mem_cons.1 hop with rfl | hop
      · rfl
      · rw [List.mem_singleton.1 hop]
        rfl
  · rw [identityAfter_append]
    rfl
  · intro offset' hoffset'
    rw [hoffset] at hoffset'
    obtain rfl := Option.some.inj hoffset'
    rw [identityAfter_append]
    rfl

/-- A line that names nothing and is the end of what came is not followed by an
RDB. -/
theorem failsEarly_fullResync (hfull : "+FULLRESYNC".toList <+: response)
    (hnamed : self.named response = none) (hpending : r.pending = []) :
    FailsEarly ((do
      acceptFullResync response
      let masterOffset ← loadPsyncOffset
      let _rdbSize ← self.receiveRdbData masterOffset
      sendReplconfAck masterOffset
      emit .notifyReady
      self.receiveAofStream masterOffset : InputM Unit) (self.sent who r)) := by
  rw [bind_of_ok (acceptFullResync_unnamed hfull hnamed _),
    bind_of_ok (loadPsyncOffset_apply _)]
  obtain ⟨e, t, herr, ht⟩ :=
    @receiveRdbData_nothing self (self.sent who r).psyncOffset (self.sent who r) hpending
  exact failsEarly_of_error (bind_of_error herr) ht

theorem goesBy_continue {id : Text}
    (hid : id = (identityAfter who self.psyncEffects).masterReplid) :
    GoesBy who (id, none) (opsOf ((do
      let offset ← loadPsyncOffset
      emit .notifyReady
      self.receiveAofStream offset : InputM Unit) (self.sent who r))) := by
  obtain ⟨ops, hops, hholding⟩ := holds_continue self (self.sent who r)
  rw [hops]
  refine goesBy_of_holding (createsFile_psyncEffects self) hid.symm ?_ hholding
  exact fun offset hnone => by cases hnone

end Branches

theorem identifies_of_understands {self : RedisInput} {who : Identity} {line : ReplyLine}
    (h : self.Understands who line) : self.Identifies who line := by
  intro incoming rest hincoming hend
  obtain ⟨r, hpending, -, hsession⟩ := session_response who hincoming hend
  cases hresponse : line.response with
  | none =>
      rw [hresponse] at hsession
      exact .inl (failsEarly_of_error hsession rfl)
  | some response =>
      rw [hresponse] at hsession
      obtain ⟨hfullNamed, hcontNamed⟩ := h response hresponse
      dsimp only at hsession
      rw [Option.bind_some, hsession]
      by_cases hfull : "+FULLRESYNC".toList <+: response
      · rw [if_pos hfull]
        cases hnamed : self.named response with
        | some named => exact .inr ⟨named, rfl, goesBy_fullResync hfull hnamed⟩
        | none =>
            have hopen : line.ended = false := by
              cases hended : line.ended with
              | false => rfl
              | true =>
                  have hsome := hfullNamed hfull hended
                  rw [hnamed] at hsome
                  cases hsome
            rw [hend hopen] at hpending
            exact .inl (failsEarly_fullResync hfull hnamed hpending)
      · rw [if_neg hfull]
        by_cases hcont : "+CONTINUE".toList <+: response
        · rw [if_pos hcont]
          obtain ⟨id, hid⟩ := @named_continue self response hfull hcont
          exact .inr ⟨_, hid, goesBy_continue (hcontNamed hcont _ hid)⟩
        · rw [if_neg hcont]
          exact .inl (failsEarly_of_error rfl rfl)

/-! ## The sessions that do not -/

/-- A byte in every read. -/
def readsOf (bs : Bytes) : List TcpRead :=
  bs.map fun b => ⟨[b], List.cons_ne_nil b [], by simp⟩

theorem flatMap_readsOf (bs : Bytes) : (readsOf bs).flatMap Subtype.val = bs := by
  induction bs with
  | nil => rfl
  | cons b bs ih => exact congrArg (b :: ·) ih

/-- An RDB of one byte. -/
def oneByteRdb : Bytes := asBytes "$1\r\n".toList ++ [0]

/-- What `receive_rdb_data` is given it stores, whichever offset it is given. -/
theorem not_failsEarly_oneByteRdb {self : RedisInput} {s : InputState}
    {reads : List TcpRead} (hleft : s.reader.LeftOf reads)
    (hpending : s.reader.pending = oneByteRdb) :
    ¬ FailsEarly ((do
      let masterOffset ← loadPsyncOffset
      let _rdbSize ← self.receiveRdbData masterOffset
      sendReplconfAck masterOffset
      emit .notifyReady
      self.receiveAofStream masterOffset : InputM Unit) s) := by
  have hheader : s.reader.pending
      = asBytes ('$' :: natToString [(0 : UInt8)].length ++ "\r\n".toList) ++ [0] ++ [] := by
    rw [hpending]
    decide
  obtain ⟨pieces, r, -, -, -, hrdb⟩ := receiveRdbData_effects self s.psyncOffset hleft
    (List.cons_ne_nil 0 []) (by decide) hheader
  rw [bind_of_ok (loadPsyncOffset_apply s)]
  rintro ⟨⟨e, t, herr⟩, hfiles⟩
  split at hrdb
  · rw [bind_of_ok hrdb] at hfiles
    have hrest : Holds (do
        sendReplconfAck s.psyncOffset
        emit .notifyReady
        self.receiveAofStream s.psyncOffset) :=
      Holds.after (emitsOnly_emit rfl) fun _ =>
        Holds.after (emitsOnly_emit rfl) fun _ => holds_receiveAofStream self s.psyncOffset
    obtain ⟨ops, hops, -⟩ := hrest _
    rw [hops] at hfiles
    have hcreated := hfiles (.getRdbWriter self.runId (s.psyncOffset - [(0 : UInt8)].length)
      [(0 : UInt8)].length) (by simp)
    cases hcreated
  · obtain ⟨t', hpanic, -⟩ := hrdb
    rw [bind_of_error hpanic] at herr
    cases herr

theorem understands_of_identifies {self : RedisInput} {who : Identity} {line : ReplyLine}
    (h : self.Identifies who line) : self.Understands who line := by
  intro response hresponse
  constructor
  · intro hfull hended
    cases hnamed : self.named response with
    | some named => rfl
    | none =>
        exfalso
        have hincoming := flatMap_readsOf (line.bytes ++ oneByteRdb)
        have hend : line.ended = false → oneByteRdb = [] := by
          intro hopen
          rw [hended] at hopen
          cases hopen
        obtain ⟨r, hpending, hleft, hsession⟩ := session_response who hincoming hend
        rw [hresponse] at hsession
        dsimp only at hsession
        rw [if_pos hfull, bind_of_ok (acceptFullResync_unnamed hfull hnamed _)] at hsession
        rcases h _ _ hincoming hend with hfails | ⟨named, hsome, -⟩
        · rw [hsession] at hfails
          exact not_failsEarly_oneByteRdb (hleft hended) hpending hfails
        · rw [hresponse, Option.bind_some, hnamed] at hsome
          cases hsome
  · intro hcont named hnamed
    have hfull : ¬ "+FULLRESYNC".toList <+: response := by
      intro hfull
      have hboth := List.prefix_of_prefix_length_le hcont hfull (by decide)
      exact absurd hboth (by decide)
    have hincoming := flatMap_readsOf (line.bytes ++ [])
    obtain ⟨r, -, -, hsession⟩ := session_response who hincoming fun _ => rfl
    rw [hresponse] at hsession
    dsimp only at hsession
    rw [if_neg hfull, if_pos hcont] at hsession
    rcases h _ _ hincoming (fun _ => rfl) with ⟨-, hfiles⟩ | ⟨named', hsome, hid, -⟩
    · obtain ⟨op, hop, hcreates⟩ := creates_continue self (self.sent who r)
      rw [hsession] at hfiles
      rw [hfiles op hop] at hcreates
      cases hcreates
    · rw [hresponse, Option.bind_some, hnamed] at hsome
      obtain rfl := Option.some.inj hsome
      obtain ⟨ops, hops, hholding⟩ := holds_continue self (self.sent who r)
      rw [hsession, hops, identityAfter_append, (hholding _).2] at hid
      exact hid.symm

/-- For every input task, every identity it starts under and every reply line:
the session goes by the identity the line names, or fails before it creates a
file, if and only if a `+FULLRESYNC` names one and a `+CONTINUE` none but the one
there is. -/
theorem identifies_iff (self : RedisInput) (who : Identity) (line : ReplyLine) :
    self.Identifies who line ↔ self.Understands who line :=
  ⟨understands_of_identifies, identifies_of_understands⟩

/-- An input task that goes on with history `a` from offset 5. -/
def resumedInput : RedisInput :=
  { runId := "r".toList, initialMasterReplid := "a".toList, initialMasterOffset := 5 }

def noIdentity : Identity := { masterReplid := [], offset := 0 }

/-- A new id, and no offset. -/
def noOffsetLine : ReplyLine :=
  { body := asBytes "+FULLRESYNC b\r".toList, noLf := by decide, ended := true }

/-- A new id, as after a failover. -/
def newIdLine : ReplyLine :=
  { body := asBytes "+CONTINUE b\r".toList, noLf := by decide, ended := true }

/-- After either line files of history `b` are created under `a`. -/
theorem not_identifies :
    ¬ resumedInput.Identifies noIdentity noOffsetLine ∧
      ¬ resumedInput.Identifies noIdentity newIdLine := by
  constructor
  · intro h
    have hsome := (understands_of_identifies h "+FULLRESYNC b".toList (by decide +kernel)).1
      (by decide) rfl
    revert hsome
    decide +kernel
  · intro h
    have hid := (understands_of_identifies h "+CONTINUE b".toList (by decide +kernel)).2
      (by decide) ("b".toList, none) (by decide +kernel)
    revert hid
    decide +kernel

end RedisHaTool.Syncer
