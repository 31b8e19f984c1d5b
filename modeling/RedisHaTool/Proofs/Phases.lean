import RedisHaTool.Proofs.Delivery
import RedisHaTool.Proofs.InputEffects

/-!
# The two phases of a session

Up to `get_aof_writer` the input task is in the handshake: it stores offsets,
names the source, and files an RDB that ends where the stream is to start. From
then on it only appends to the segment. The forwarding task may be there from
the beginning, since the leader gives up waiting after thirty seconds; until
there is a segment it finds nothing to read but the RDB file.

So every state of every run is in one of two phases, `Early` or `Streaming`, and
the step from one to the other is the one that creates the segment.
-/

namespace RedisHaTool.Syncer

open Lib Store Checkpoint

/-! ## The handshake -/

/-- The effects of the handshake of a session whose stream starts at `start`. -/
def InputOp.IsHandshake (start : Int) : InputOp → Prop
  | .getAofWriter _ _ | .writeAof _ | .flushAof => False
  | .getRdbWriter _ offset size => offset + size = start
  | _ => True

/-- Whether the stream is reached: the offset of the RDB file is one. -/
def Answer.Streams : Answer → Prop
  | .fullResync f => IsI64 (f.masterOffset - f.rdb.length)
  | .continues _ => True

instance : DecidablePred Answer.Streams := fun a =>
  match a with
  | .fullResync f => inferInstanceAs (Decidable (IsI64 (f.masterOffset - f.rdb.length)))
  | .continues _ => isTrue trivial

/-- What comes before the stream. -/
def Answer.handshake (self : RedisInput) (rdbPieces : List Bytes) : Answer → List InputOp
  | .fullResync f => self.psyncEffects ++
      [.storePsyncOffset f.masterOffset, .setMasterReplid f.masterReplid] ++
      if IsI64 (f.masterOffset - f.rdb.length) then
        .getRdbWriter self.runId (f.masterOffset - f.rdb.length) f.rdb.length
          :: rdbPieces.map .writeRdb
          ++ [.flushRdb, .sendSource (ackCommand f.masterOffset), .notifyReady]
      else []
  | .continues _ => self.psyncEffects ++ [.notifyReady]

/-- And the stream, if it is reached. -/
def Answer.stream (self : RedisInput) (aofPieces : List Bytes) (a : Answer) :
    List InputOp :=
  if a.Streams then streamEffects self.runId (a.offset self) aofPieces else []

theorem handshake_append_stream (self : RedisInput) (rdbPieces aofPieces : List Bytes)
    (a : Answer) :
    self.psyncEffects ++ a.effects self rdbPieces aofPieces
      = a.handshake self rdbPieces ++ a.stream self aofPieces := by
  cases a with
  | fullResync f =>
      simp only [Answer.effects, Answer.handshake, Answer.stream, FullResync.effects,
        Answer.offset, Answer.Streams]
      by_cases hi64 : IsI64 (f.masterOffset - f.rdb.length) <;> simp [hi64]
  | continues c =>
      simp [Answer.effects, Answer.handshake, Answer.stream, continueEffects, Answer.offset,
        Answer.Streams]

theorem isHandshake_psyncEffects (self : RedisInput) (start : Int) :
    ∀ op ∈ self.psyncEffects, op.IsHandshake start := by
  intro op hop
  unfold RedisInput.psyncEffects at hop
  split at hop
  · split at hop
    · simp only [List.cons_append, List.nil_append, List.mem_cons, List.not_mem_nil,
        or_false] at hop
      rcases hop with rfl | rfl | rfl <;> trivial
    · obtain rfl := List.mem_singleton.1 hop
      trivial
  · obtain rfl := List.mem_singleton.1 hop
    trivial

theorem isHandshake_handshake (self : RedisInput) (rdbPieces : List Bytes) (a : Answer) :
    ∀ op ∈ a.handshake self rdbPieces, op.IsHandshake (a.offset self) := by
  intro op hop
  cases a with
  | fullResync f =>
      simp only [Answer.handshake, List.mem_append] at hop
      rcases hop with (hop | hop) | hop
      · exact isHandshake_psyncEffects self _ op hop
      · simp only [List.mem_cons, List.not_mem_nil, or_false] at hop
        rcases hop with rfl | rfl <;> trivial
      · split at hop
        · simp only [List.mem_append, List.mem_cons, List.mem_map, List.not_mem_nil,
            or_false] at hop
          rcases hop with (rfl | ⟨piece, -, rfl⟩) | rfl | rfl | rfl
          · simp only [InputOp.IsHandshake, Answer.offset]
            omega
          all_goals trivial
        · exact absurd hop List.not_mem_nil
  | continues c =>
      rcases List.mem_append.1 hop with hop | hop
      · exact isHandshake_psyncEffects self _ op hop
      · obtain rfl := List.mem_singleton.1 hop
        trivial

/-! ## The stream -/

theorem isStream_aofEffects {start received : Int} {pieces : List Bytes} :
    ∀ op ∈ aofEffects start received pieces, op.IsStream := by
  induction pieces generalizing received with
  | nil => exact fun _ h => absurd h List.not_mem_nil
  | cons piece pieces ih =>
      intro op hop
      rw [aofEffects] at hop
      simp only [List.cons_append, List.nil_append, List.mem_cons] at hop
      rcases hop with rfl | rfl | hop
      · trivial
      · trivial
      · split at hop
        · rcases List.mem_cons.1 hop with rfl | hop
          · trivial
          · exact ih op hop
        · exact absurd hop List.not_mem_nil

/-! ## The phases -/

/-- The task has nothing of the segment in its hands. -/
def Forwarder.Unread (f : Forwarder) : Prop :=
  match f.pc with
  | .connect _ | .read _ _ | .write _ _ _ => False
  | _ => True

/-- There is no segment yet. -/
structure Early (runId : Text) (start : Int) (pieces : List Bytes) (s : Sys) : Prop where
  segments : ∀ id, listed s.storer.dataSet.aofSegments id = []
  rdb : ∀ id, ∀ r ∈ listed s.storer.dataSet.rdbFiles id, r.offset + r.size = start
  input : ∃ handshake stream, s.input = handshake ++ stream ∧
    (∀ op ∈ handshake, op.IsHandshake start) ∧
    (stream = [] ∨ stream = streamEffects runId start pieces)
  task : ∀ o f, s.leader = .forwarding o f →
    f.Unread ∧ Placed (aofPath runId start) start [] f
  sent : sentIndices s.log = []

/-- The segment has just been created. -/
structure Opened (runId : Text) (start : Int) (pieces : List Bytes) (s : Sys) : Prop where
  streaming : Streaming (aofPath runId start) start s
  writer : s.aofWriter = some { path := aofPath runId start, buf := [] }
  contents : s.storer.disk.contents (aofPath runId start) = []
  input : s.input = aofEffects start 0 pieces
  sent : sentIndices s.log = []

theorem Forwarder.Unread.placed {path : Path} {start : Int} {f : Forwarder}
    (h : f.Unread) {file : Bytes} (hplaced : Placed path start file f) (file' : Bytes) :
    Placed path start file' f := by
  unfold Forwarder.Unread at h
  unfold Placed at hplaced ⊢
  cases hpc : f.pc <;> simp_all

theorem Forwarder.Unread.notified {f : Forwarder} (h : f.Unread) : f.notified.Unread := by
  unfold Forwarder.notified
  split
  · trivial
  · exact h

/-- Without a segment the task reads none. -/
theorem Forwarder.Unread.step {storer : FileStorer} {masterReplid : Text} {f f' : Forwarder}
    {act : ForwardAct} {events : List Event}
    (hsegments : ∀ id, listed storer.dataSet.aofSegments id = []) (h : f.Unread)
    (hstep : f.Stepped storer masterReplid act f' events) :
    f'.Unread ∧ sentIndices events = [] := by
  have hnone : ∀ r, storer.getReader f.offset ≠ .ok (.aof r) := by
    intro r hreader
    have hat : At r.path (f.offset + 1) f.offset r 0 := getReader_aof
      (fun id _ ha => absurd ha (hsegments id ▸ List.not_mem_nil)) hreader
    have hle := hat.start_le
    omega
  cases hstep with
  | aofReader _ r hreader | aofConnect _ r hreader => exact absurd hreader (hnone r)
  | connected r hpc | connectFailed r hpc | read r sent n hpc | readFailed r sent hpc
  | finishNothing r hpc | finishPanic r sent hpc | finish r sent hpc | finishSaving r sent hpc
  | wrote r sent chunk hpc | writeFailed r sent chunk hpc =>
      simp only [Forwarder.Unread, hpc] at h
  | saved c cs calls hpc =>
      refine ⟨?_, rfl⟩
      rcases saving_cases (cs :: calls) with h | ⟨calls', h⟩ <;> simp [Forwarder.Unread, h]
  | saveFailed c cs calls hpc executed =>
      refine ⟨?_, by cases executed <;> rfl⟩
      rcases saving_cases calls with h | ⟨calls', h⟩ <;> simp [Forwarder.Unread, h]
  | _ => exact ⟨trivial, rfl⟩

theorem Early.tidy {runId : Text} {start : Int} {pieces : List Bytes} {s : Sys}
    (h : Early runId start pieces s) :
    Tidy s.storer.dataSet (aofPath runId start) start where
  segment := fun id _ ha => absurd ha (h.segments id ▸ List.not_mem_nil)
  rdb := h.rdb

/-- Another effect of the handshake. -/
theorem Early.handshake {runId : Text} {start : Int} {pieces : List Bytes} {s : Sys}
    (h : Early runId start pieces s) {op : InputOp} {ops handshake stream : List InputOp}
    (now : Nat) (hinput : ops = handshake ++ stream) (hop : op.IsHandshake start)
    (hhandshake : ∀ op ∈ handshake, op.IsHandshake start)
    (hstream : stream = [] ∨ stream = streamEffects runId start pieces) :
    Early runId start pieces ({ s with input := ops }.perform now op) := by
  refine ⟨fun id => ?_, fun id r hr => ?_, ?_, fun o f hf => ?_, ?_⟩
  · refine List.eq_nil_iff_forall_not_mem.2 fun a ha => ?_
    rcases perform_aofSegments ha with ha | ⟨id', o, rfl⟩
    · exact absurd ha (h.segments id ▸ List.not_mem_nil)
    · exact hop
  · rcases perform_rdbFiles hr with hr | ⟨id', o, size, rfl, rfl, rfl⟩
    · exact h.rdb id r hr
    · exact hop
  · rw [perform_input]
    exact ⟨handshake, stream, hinput, hhandshake, hstream⟩
  · obtain ⟨g, hg, rfl | rfl⟩ := forwarding_of_perform hf
    · exact h.task o f hg
    · obtain ⟨hunread, hplaced⟩ := h.task o g hg
      exact ⟨hunread.notified, hplaced.notified⟩
  · rcases perform_log { s with input := ops } now op with heq | ⟨bs, -, heq⟩
    · rw [heq]
      exact h.sent
    · rw [heq, sentIndices_append, h.sent]
      rfl

/-- The segment is created. -/
theorem Early.open {runId : Text} {start : Int} {pieces : List Bytes} {s : Sys}
    (h : Early runId start pieces s) (now : Nat) :
    Opened runId start pieces ({ s with input := aofEffects start 0 pieces }.perform now
      (.getAofWriter runId start)) := by
  have htidy : Tidy (s.storer.getAofWriter runId start now).1.dataSet (aofPath runId start)
      start := by
    refine ⟨fun id a ha => ?_, h.rdb⟩
    rcases mem_listed_pushSorted.1 ha with ha | ⟨-, rfl⟩
    · exact absurd ha (h.segments id ▸ List.not_mem_nil)
    · exact ⟨rfl, rfl⟩
  refine ⟨⟨htidy, fun w hw => ?_, isStream_aofEffects, fun o f hf => ?_⟩, rfl, ?_, rfl, h.sent⟩
  · obtain rfl := Option.some.inj hw
    rfl
  · obtain ⟨hunread, hplaced⟩ := h.task o f hf
    exact hunread.placed hplaced _
  · exact contents_create_self s.storer.disk _

/-- A step stays in the handshake, or creates the segment. -/
theorem Early.step {runId : Text} {start : Int} {pieces : List Bytes} {s t : Sys}
    {act : Act} (h : Early runId start pieces s) (hstep : s.Stepped act t) :
    Early runId start pieces t ∨
      Opened runId start pieces t ∧ t.log = s.log ∧ t.leader = s.leader := by
  cases hstep with
  | input op ops now hinput =>
      obtain ⟨handshake, stream, hsplit, hhandshake, hstream⟩ := h.input
      rw [hinput] at hsplit
      cases handshake with
      | nil =>
          rcases hstream with rfl | rfl
          · cases hsplit
          · obtain ⟨rfl, rfl⟩ := List.cons.inj hsplit
            exact .inr ⟨h.open now, rfl, rfl⟩
      | cons op' handshake =>
          obtain ⟨rfl, rfl⟩ := List.cons.inj hsplit
          exact .inl (h.handshake now rfl (hhandshake op List.mem_cons_self)
            (fun op hop => hhandshake op (List.mem_cons_of_mem _ hop)) hstream)
  | listen | timeout =>
      exact .inl ⟨h.segments, h.rdb, h.input, fun o f hf => (by cases hf), h.sent⟩
  | start =>
      refine .inl ⟨h.segments, h.rdb, h.input, fun o f hf => ?_, h.sent⟩
      obtain ⟨rfl, rfl⟩ := LeaderPc.forwarding.inj hf
      exact ⟨trivial, placed_of_pc (.inl rfl)⟩
  | forward o f f' act events hleader hstep =>
      obtain ⟨hunread, hplaced⟩ := h.task o f hleader
      obtain ⟨hunread', hevents⟩ := hunread.step h.segments hstep
      have hplaced' := Placed.step h.tidy (hunread.placed hplaced _) hstep
      refine .inl ⟨h.segments, h.rdb, h.input, fun o' g hg => ?_, ?_⟩
      · obtain ⟨rfl, rfl⟩ := LeaderPc.forwarding.inj hg
        exact ⟨hunread', hunread'.placed hplaced' _⟩
      · rw [sentIndices_append, h.sent, hevents]
        rfl

/-- Every run stays in one of the phases. -/
theorem Sys.Runs.phases {runId : Text} {start : Int} {pieces : List Bytes}
    {C : Sys → Act → Prop} {s t : Sys} {acts : List Act} (h : s.Runs C acts t)
    (hs : Early runId start pieces s) :
    Early runId start pieces t ∨ Streaming (aofPath runId start) start t := by
  refine h.invariant (I := fun t => Early runId start pieces t ∨
    Streaming (aofPath runId start) start t) (fun u act v hu _ hstep => ?_) (.inl hs)
  rcases hu with hu | hu
  · exact (hu.step hstep).imp_right fun hopened => hopened.1.streaming
  · exact .inr (hu.step hstep)

/-- A process that has just started. -/
theorem early_init (self : RedisInput) {a : Answer} {ops stream : List InputOp}
    {rdbPieces pieces : List Bytes} (hops : ops = a.handshake self rdbPieces ++ stream)
    (hstream : stream = [] ∨ stream = streamEffects self.runId (a.offset self) pieces)
    (disk : Disk) (hasManager : Bool) :
    Early self.runId (a.offset self) pieces (Sys.init (.new disk) hasManager ops) where
  segments := fun _ => rfl
  rdb := fun id r hr => absurd hr List.not_mem_nil
  input := ⟨_, _, hops, isHandshake_handshake self rdbPieces a, hstream⟩
  task := fun o f hf => by cases hf
  sent := rfl

/-- However the reply is cut into reads, the process starts in the handshake,
with the stream cut into some pieces before it. -/
theorem early_of_reply (self : RedisInput) (a : Answer) {incoming : List TcpRead}
    (h : incoming.flatMap Subtype.val = a.reply) (disk : Disk) (hasManager : Bool) :
    ∃ aofPieces, PiecesOf incoming a.aof aofPieces ∧
      Early self.runId (a.offset self) aofPieces
        (Sys.init (.new disk) hasManager (self.effects 0 incoming)) := by
  obtain ⟨rdbPieces, aofPieces, hpieces, heffects⟩ := effects_answer self a h
  have hops := heffects.trans (handshake_append_stream self rdbPieces aofPieces a)
  have hstream : a.stream self aofPieces = [] ∨
      a.stream self aofPieces = streamEffects self.runId (a.offset self) aofPieces := by
    unfold Answer.stream
    split
    · exact .inr rfl
    · exact .inl rfl
  exact ⟨aofPieces, hpieces, early_init self hops hstream disk hasManager⟩

end RedisHaTool.Syncer
