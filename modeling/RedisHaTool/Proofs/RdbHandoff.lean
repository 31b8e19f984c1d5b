import RedisHaTool.Proofs.Delivery
import RedisHaTool.Proofs.Handshake

/-!
# The RDB file that is never forwarded

`receive_rdb_data` files an RDB of `n` bytes that comes with offset `O` under
`O - n`, so that it covers the offsets from `O - n` to `O`, the end not
included. The forwarding task starts at `O`. The test of `find_rdb` is
half-open, and the task's offset only grows: no run of any session hands the
file to the output.
-/

namespace RedisHaTool.Syncer

open Lib Store Checkpoint

/-- An RDB file is handed to the output before a byte of a segment is sent. -/
def HandsRdbFirst (log : List Event) : Prop :=
  ∃ pre r post, log = pre ++ .handRdb r :: post ∧ sentBytes pre = []

/-- RDB files end where the task started, and it has never turned back. -/
structure PastRdb (offset : Int) (s : Sys) : Prop where
  rdb : ∀ id, ∀ r ∈ listed s.storer.dataSet.rdbFiles id, r.offset + r.size = offset
  input : ∀ id o size, .getRdbWriter id o size ∈ s.input → o + size = offset
  forwarder : ∀ o f, s.leader = .forwarding o f →
    offset ≤ f.offset ∧ ∀ r, f.pc ≠ .sendRdb r
  log : ∀ r, .handRdb r ∉ s.log

/-- The leader loads the offset the handshake left. -/
def LoadsOffset (offset : Int) (s : Sys) (act : Act) : Prop :=
  act = .start → s.psyncOffset = offset

instance (offset : Int) (s : Sys) : DecidablePred (LoadsOffset offset s)
  | .start => decidable_of_iff (s.psyncOffset = offset) ⟨fun h _ => h, fun h => h rfl⟩
  | .input _ | .listen | .timeout | .forward _ => .isTrue fun h => by cases h

/-- The task stays past the RDB files, and never opens one. -/
theorem pastRdb_stepped {storer : FileStorer} {masterReplid : Text} {offset : Int}
    {f f' : Forwarder} {act : ForwardAct} {events : List Event}
    (hrdb : ∀ id, ∀ r ∈ listed storer.dataSet.rdbFiles id, r.offset + r.size = offset)
    (hoffset : offset ≤ f.offset) (hpc : ∀ r, f.pc ≠ .sendRdb r)
    (hstep : f.Stepped storer masterReplid act f' events) :
    offset ≤ f'.offset ∧ (∀ r, f'.pc ≠ .sendRdb r) ∧ ∀ r, .handRdb r ∉ events := by
  cases hstep with
  | rdbReader _ r hreader =>
      have hlt := (getReader_rdb hrdb hreader).1
      omega
  | rdbFailed r h | rdbPanic r h | rdbPassed r h | rdbSaving r h => exact absurd h (hpc r)
  | saved c cs calls =>
      refine ⟨hoffset, fun r h => ?_, by simp⟩
      rcases saving_cases (cs :: calls) with heq | ⟨calls', heq⟩ <;> simp [heq] at h
  | saveFailed c cs calls _ executed =>
      refine ⟨hoffset, fun r h => ?_, by cases executed <;> simp⟩
      rcases saving_cases calls with heq | ⟨calls', heq⟩ <;> simp [heq] at h
  | _ => exact ⟨by simp only; omega, by simp, by simp⟩

theorem PastRdb.step {offset : Int} {s t : Sys} {act : Act} (h : PastRdb offset s)
    (hload : LoadsOffset offset s act) (hstep : s.Stepped act t) : PastRdb offset t := by
  cases hstep with
  | input op ops now hinput =>
      refine ⟨fun id r hr => ?_, fun id o size hop => ?_, fun o f hf => ?_, fun r hr => ?_⟩
      · rcases perform_rdbFiles hr with hr | ⟨id', o, size, rfl, rfl, rfl⟩
        · exact h.rdb id r hr
        · exact h.input id' _ _ (hinput ▸ List.mem_cons_self)
      · rw [perform_input] at hop
        exact h.input id o size (hinput ▸ List.mem_cons_of_mem op hop)
      · obtain ⟨g, hg, rfl | rfl⟩ := forwarding_of_perform hf
        · exact h.forwarder o f hg
        · obtain ⟨hoffset, hpc⟩ := h.forwarder o g hg
          refine ⟨by simpa using hoffset, fun r hr => ?_⟩
          cases hgpc : g.pc <;> simp_all [Forwarder.notified]
      · rcases perform_log { s with input := ops } now op with heq | ⟨bs, -, heq⟩
        · exact h.log r (heq ▸ hr)
        · rw [heq] at hr
          exact h.log r (by simpa using hr)
  | listen | timeout => exact ⟨h.rdb, h.input, fun o f hf => (by cases hf), h.log⟩
  | start =>
      refine ⟨h.rdb, h.input, fun o f hf => ?_, h.log⟩
      obtain ⟨rfl, rfl⟩ := LeaderPc.forwarding.inj hf
      refine ⟨Int.le_of_eq (hload rfl).symm, fun r hr => by cases hr⟩
  | forward o f f' act events hleader hstep =>
      obtain ⟨hoffset, hpc⟩ := h.forwarder o f hleader
      obtain ⟨hoffset', hpc', hevents⟩ := pastRdb_stepped h.rdb hoffset hpc hstep
      refine ⟨h.rdb, h.input, fun o' g hg => ?_, fun r hr => ?_⟩
      · obtain ⟨rfl, rfl⟩ := LeaderPc.forwarding.inj hg
        exact ⟨hoffset', hpc'⟩
      · rcases List.mem_append.1 hr with hr | hr
        · exact h.log r hr
        · exact hevents r hr

/-- Whatever a session's task does, the only RDB file ends at the reply's
offset. -/
theorem getRdbWriter_mem_effects {self : RedisInput} {f : FullResync}
    {rdbPieces aofPieces : List Bytes} {id : Text} {o size : Int}
    (h : .getRdbWriter id o size
      ∈ self.psyncEffects ++ f.effects self.runId rdbPieces aofPieces) :
    o + size = f.masterOffset := by
  have haof : ∀ received, .getRdbWriter id o size
      ∉ aofEffects f.masterOffset received aofPieces := by
    clear h
    induction aofPieces with
    | nil => exact fun _ => List.not_mem_nil
    | cons p ps ih =>
        intro received hmem
        rw [aofEffects] at hmem
        split at hmem
        · simp only [List.cons_append, List.nil_append, List.mem_cons, reduceCtorEq,
            false_or] at hmem
          exact ih _ hmem
        · simp at hmem
  rcases List.mem_append.1 h with h | h
  · rw [RedisInput.psyncEffects] at h
    split at h
    · split at h <;> simp at h
    · simp at h
  · rw [FullResync.effects] at h
    split at h
    · simp [streamEffects, haof] at h
      omega
    · simp at h

/-- No run of a session with a full resynchronisation, the task started at the
offset of the reply, hands the RDB file to the output. -/
theorem not_handsRdbFirst (self : RedisInput) (f : FullResync) (incoming : List TcpRead)
    (hreply : incoming.flatMap Subtype.val = f.reply) (disk : Disk) (hasManager : Bool)
    {acts : List Act} {t : Sys}
    (hrun : (Sys.init (.new disk) hasManager (self.effects 0 incoming)).Runs
      (LoadsOffset f.masterOffset) acts t) : ¬ HandsRdbFirst t.log := by
  obtain ⟨rdbPieces, aofPieces, -, -, hops⟩ := effects_fullResync self 0 f hreply
  have hinit : PastRdb f.masterOffset
      (Sys.init (.new disk) hasManager (self.effects 0 incoming)) := by
    refine ⟨fun id r hr => absurd hr List.not_mem_nil, fun id o size hop => ?_,
      fun o g hg => (by cases hg), fun r => List.not_mem_nil⟩
    rw [Sys.init, hops] at hop
    exact getRdbWriter_mem_effects hop
  have hpast := hrun.invariant (fun s act t h hC hstep => h.step hC hstep) hinit
  rintro ⟨pre, r, post, hlog, -⟩
  exact hpast.log r (hlog ▸ List.mem_append_right pre List.mem_cons_self)

/-- The task is started in time and forwards the stream. -/
def forwardActs : List Act :=
  promptActs ++ List.replicate 4 (.input 0) ++ [.forward .check, .forward .open,
    .forward .connected, .forward (.read 1), .forward .wrote, .forward (.finish true 0)]

theorem runs_forwardActs :
    freshStart.Runs (LoadsOffset 5) forwardActs (freshStart.after forwardActs) :=
  Sys.runs_after (by decide +kernel)

theorem not_handsRdbFirst_sample :
    ¬ HandsRdbFirst (freshStart.after forwardActs).log :=
  not_handsRdbFirst freshInput sampleResync sampleReads (List.append_nil _) ∅ true
    runs_forwardActs

/-- A byte of the stream is sent, and no RDB file has been handed over. -/
theorem handsRdbFirst_missed :
    ¬ ∀ (self : RedisInput) (f : FullResync) (incoming : List TcpRead),
      incoming.flatMap Subtype.val = f.reply → ∀ (disk : Disk) (hasManager : Bool)
      (acts : List Act) (t : Sys),
      (Sys.init (.new disk) hasManager (self.effects 0 incoming)).Runs
        (LoadsOffset f.masterOffset) acts t →
      sentBytes t.log ≠ [] → HandsRdbFirst t.log := by
  intro h
  obtain ⟨pre, r, post, hlog, -⟩ := h freshInput sampleResync sampleReads (List.append_nil _)
    ∅ true forwardActs _ runs_forwardActs (by decide +kernel)
  have hmem : Event.handRdb r ∈ (freshStart.after forwardActs).log :=
    hlog ▸ List.mem_append_right pre List.mem_cons_self
  have hnone : (freshStart.after forwardActs).log.all
      (fun | .handRdb _ => false | _ => true) = true := by decide +kernel
  exact absurd (List.all_eq_true.1 hnone _ hmem) (by simp)

end RedisHaTool.Syncer
