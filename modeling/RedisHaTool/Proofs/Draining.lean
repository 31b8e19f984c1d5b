import RedisHaTool.Proofs.AtLeastOnce
import RedisHaTool.Proofs.Wakeups

/-!
# The task comes to its end

A task that is left alone, and meets no failure, does not go on for ever and does
not get stuck: a round of the loop reads what the segment holds, and a round that
reads nothing is the last before the task waits. The measure is what is unread,
weighed so that it pays for the steps around a read, and the steps that are left
of the round.

So wherever failures have brought the task, once they stop it has everything sent
when it waits.
-/

namespace RedisHaTool.Syncer

open Lib Store Checkpoint

/-! ## What the task finds -/

section Lookup

variable {storer : FileStorer} {path : Path} {start offset : Int}

/-- A segment that is listed is found, and it is the one there is. -/
theorem Tidy.findAof {d : DataSet} (h : Tidy d path start) (hstart : start ≤ offset)
    {runId : Text} {a : DataSetAof} (ha : a ∈ listed d.aofSegments runId) :
    ∃ aof, d.findAof runId offset = some aof ∧ aof.path = path ∧ aof.offset = start := by
  cases hfind : d.findAof runId offset with
  | none =>
      have hle := List.find?_eq_none.1 hfind a (List.mem_reverse.2 ha)
      have hoffset := (h.segment runId a ha).2
      exact absurd (decide_eq_true (by omega)) hle
  | some aof =>
      obtain ⟨hmem, -⟩ := findAof_eq_some hfind
      exact ⟨aof, rfl, h.segment runId aof hmem⟩

/-- There is something available exactly while there is something unsent. -/
theorem Tidy.availableBytes_pos_iff (h : Tidy storer.dataSet path start)
    (hstart : start ≤ offset) {runId : Text} {a : DataSetAof}
    (ha : a ∈ listed storer.dataSet.aofSegments runId) :
    0 < storer.availableBytes offset ↔
      offset < start + (storer.disk.contents path).length := by
  constructor
  · intro havailable
    rw [FileStorer.availableBytes] at havailable
    cases hfind : storer.dataSet.runIds.findSome? (storer.availableOf offset) with
    | none =>
        rw [hfind] at havailable
        exact absurd havailable (Int.lt_irrefl 0)
    | some n =>
        obtain ⟨id, -, hid⟩ := List.exists_of_findSome?_eq_some hfind
        have hpos := availableOf_pos hid
        rw [FileStorer.availableOf, findRdb_eq_none (h.rdb id) hstart, Option.bind_none] at hid
        obtain ⟨aof, haof, hn⟩ := Option.bind_eq_some_iff.1 hid
        obtain ⟨hpath, hoffset⟩ := h.segment id aof (findAof_eq_some haof).1
        rw [hpath, hoffset] at hn
        dsimp only at hn
        split at hn
        · obtain rfl := Option.some.inj hn
          omega
        · cases hn
  · intro hlt
    obtain ⟨aof, haof, hpath, hoffset⟩ := h.findAof hstart ha
    refine availableBytes_pos haof ?_
    rw [hpath, hoffset]
    exact hlt

/-- And then there is a reader. -/
theorem Tidy.getReader_ne (h : Tidy storer.dataSet path start) (hstart : start ≤ offset)
    {runId : Text} {a : DataSetAof} (ha : a ∈ listed storer.dataSet.aofSegments runId)
    (hlt : offset < start + (storer.disk.contents path).length) (e : SyncError) :
    storer.getReader offset ≠ .error e := by
  have hthere : path ∈ storer.disk := by
    by_contra hno
    have hempty : storer.disk.contents path = [] := by
      rw [Disk.contents, AList.lookup_eq_none.2 hno]
      rfl
    rw [hempty, List.length_nil] at hlt
    omega
  have hopen : ∀ id reader, storer.readerOf offset id = some reader → ∀ e, reader ≠ .error e := by
    intro id reader hreader e
    rw [FileStorer.readerOf, findRdb_eq_none (h.rdb id) hstart] at hreader
    obtain ⟨aof, haof, rfl⟩ := Option.map_eq_some_iff.1 hreader
    obtain ⟨hpath, hoffset⟩ := h.segment id aof (findAof_eq_some haof).1
    rw [hpath, hoffset, AofReader.open, if_pos ⟨hthere, by omega⟩]
    exact fun heq => by cases heq
  rw [FileStorer.getReader]
  cases hfind : storer.dataSet.runIds.findSome? (storer.readerOf offset) with
  | none =>
      obtain ⟨aof, haof, -⟩ := h.findAof hstart ha
      have hrunId : runId ∈ storer.dataSet.runIds :=
        mem_runIds.2 (.inr (mem_keys_of_mem_listed ha))
      have hnone := List.findSome?_eq_none_iff.1 hfind runId hrunId
      rw [FileStorer.readerOf, findRdb_eq_none (h.rdb runId) hstart, haof] at hnone
      cases hnone
  | some reader =>
      obtain ⟨id, -, hid⟩ := List.exists_of_findSome?_eq_some hfind
      exact hopen id reader hid e

end Lookup

/-! ## What is left to do -/

/-- Steps that are neither a failure nor an end, and do not wait. -/
def ForwardAct.Goes : ForwardAct → Prop
  | .check | .open | .connected | .read _ | .finish _ _ | .wrote | .saved => True
  | _ => False

/-- Rounds that read `left` bytes, and the last one. -/
def roundWork (left : Nat) : Nat := if left = 0 then 1 else 4 * left + 20

/-- What is left to do with a segment of `len` bytes. -/
def Forwarder.work (start : Int) (len : Nat) (f : Forwarder) : Nat :=
  let left := len - (f.offset - start).toNat
  match f.pc with
  | .idle | .waiting | .done | .sendRdb _ => 0
  | .check => roundWork left
  | .open => 4 * left + 19
  | .connect _ => 4 * left + 18
  | .read r _ => 4 * (len - r.filePos) + 17
  | .write r _ _ => 4 * (len - r.filePos) + 18
  | .save calls => calls.flatten.length + 1 + roundWork left

/-- There is a command to send wherever the task is saving. -/
def Forwarder.Loaded (f : Forwarder) : Prop :=
  ∀ calls, f.pc = .save calls → ∃ c cs rest, calls = (c :: cs) :: rest

/-- Where saving goes on: at the top once nothing is left, or with what is left. -/
theorem saving_eq (calls : List (List Command)) :
    ForwardPc.saving calls = .check ∨ ∃ calls', ForwardPc.saving calls = .save calls' ∧
      calls'.flatten = calls.flatten ∧ ∃ c cs rest, calls' = (c :: cs) :: rest := by
  rw [ForwardPc.saving]
  have hflatten : (calls.filter (· ≠ [])).flatten = calls.flatten := List.flatten_filter_ne_nil
  have hmem : ∀ call ∈ calls.filter (· ≠ []), call ≠ [] := fun call hcall =>
    of_decide_eq_true (List.mem_filter.1 hcall).2
  generalize calls.filter (· ≠ []) = left at hflatten hmem
  cases left with
  | nil => exact .inl rfl
  | cons call rest =>
      obtain ⟨c, cs, rfl⟩ := List.exists_cons_of_ne_nil (hmem call List.mem_cons_self)
      exact .inr ⟨_, rfl, hflatten, c, cs, rest, rfl⟩

theorem loaded_of_saving {f : Forwarder} {calls : List (List Command)}
    (hpc : f.pc = .saving calls) : f.Loaded := by
  intro calls' heq
  rw [hpc] at heq
  rcases saving_eq calls with h | ⟨left, h, -, hleft⟩
  · rw [h] at heq
    cases heq
  · rw [h] at heq
    obtain rfl := ForwardPc.save.inj heq
    exact hleft

theorem Forwarder.Loaded.step {storer : FileStorer} {masterReplid : Text}
    {f f' : Forwarder} {act : ForwardAct} {events : List Event}
    (hstep : f.Stepped storer masterReplid act f' events) : f'.Loaded := by
  cases hstep with
  | rdbSaving r hpc | finishSaving r sent hpc =>
      intro calls heq
      obtain rfl := ForwardPc.save.inj heq
      exact ⟨_, _, _, rfl⟩
  | saved c cs calls hpc => exact loaded_of_saving rfl
  | saveFailed c cs calls hpc executed => exact loaded_of_saving rfl
  | _ => exact fun calls heq => by cases heq

/-- With commands left, saving takes a step at a time. -/
theorem work_saving (start : Int) (len : Nat) {f : Forwarder} {calls : List (List Command)}
    (hpc : f.pc = .saving calls) :
    f.work start len ≤ calls.flatten.length + 1
      + roundWork (len - (f.offset - start).toNat) := by
  rcases saving_eq calls with h | ⟨left, h, hflatten, -⟩
  · rw [h] at hpc
    simp only [Forwarder.work, hpc]
    omega
  · rw [h] at hpc
    simp only [Forwarder.work, hpc, hflatten]
    exact Nat.le_refl _

/-! ## One step -/

/-- The task goes on, or waits with nothing unsent. -/
def Forwarder.Drains (start : Int) (len : Nat) (f : Forwarder) : Prop :=
  f.pc ≠ .waiting ∧ f.pc ≠ .done ∧ (f.pc = .idle → start + len ≤ f.offset)

theorem drains_of_pc {start : Int} {len : Nat} {f : Forwarder}
    (h : f.pc ≠ .waiting ∧ f.pc ≠ .done ∧ f.pc ≠ .idle) : f.Drains start len :=
  ⟨h.1, h.2.1, fun hpc => absurd hpc h.2.2⟩

theorem drains_of_saving {start : Int} {len : Nat} {f : Forwarder}
    {calls : List (List Command)} (hpc : f.pc = .saving calls) : f.Drains start len := by
  refine drains_of_pc ?_
  rcases saving_eq calls with h | ⟨left, h, -⟩
  · simp [hpc, h]
  · simp [hpc, h]

section Step

variable {storer : FileStorer} {masterReplid : Text} {path : Path} {start : Int}
  {f f' : Forwarder} {act : ForwardAct} {events : List Event}

/-- The offset does not pass the end of the file. -/
theorem offset_le_of_stepped
    (hplaced : Placed path start (storer.disk.contents path) f)
    (hle : f.offset ≤ start + (storer.disk.contents path).length)
    (hstep : f.Stepped storer masterReplid act f' events) :
    f'.offset ≤ start + (storer.disk.contents path).length := by
  cases hstep with
  | rdbPassed r hpc | rdbSaving r hpc =>
      rw [Placed, hpc] at hplaced
      show f.offset + r.size ≤ _
      omega
  | finish r sent hpc hsent | finishSaving r sent hpc hsent =>
      rw [Placed, hpc] at hplaced
      have hfilePos := hplaced.1.filePos_eq
      have hend := hplaced.2 hsent
      show f.offset + sent ≤ _
      omega
  | _ => exact hle

/-- A step that goes on takes something off what is left to do. -/
theorem work_lt_of_stepped (htidy : Tidy storer.dataSet path start) {runId : Text}
    {a : DataSetAof} (ha : a ∈ listed storer.dataSet.aofSegments runId)
    (hplaced : Placed path start (storer.disk.contents path) f) (hstart : start ≤ f.offset)
    (hle : f.offset ≤ start + (storer.disk.contents path).length) (hstart64 : IsI64 start)
    (hend64 : IsI64 (start + (storer.disk.contents path).length)) (hgoes : act.Goes)
    (hstep : f.Stepped storer masterReplid act f' events) :
    f'.work start (storer.disk.contents path).length
        < f.work start (storer.disk.contents path).length ∧
      f'.Drains start (storer.disk.contents path).length := by
  have havailable := htidy.availableBytes_pos_iff hstart ha
  generalize hlen : (storer.disk.contents path).length = len at *
  cases hstep with
  | available hpc h =>
      have hlt := havailable.1 h
      refine ⟨?_, drains_of_pc (by simp)⟩
      simp only [Forwarder.work, hpc, roundWork]
      rw [if_neg (by omega)]
      omega
  | unavailable hpc h =>
      have hsent : start + (len : Int) ≤ f.offset := Int.not_lt.1 fun hlt => h (havailable.2 hlt)
      refine ⟨?_, by simp, by simp, fun _ => hsent⟩
      simp only [Forwarder.work, hpc, roundWork]
      split <;> omega
  | noReader hpc e h =>
      refine ⟨?_, by simp, by simp, fun _ => Int.not_lt.1 fun hlt => ?_⟩
      · simp only [Forwarder.work, hpc]
        omega
      · exact htidy.getReader_ne hstart ha (hlen ▸ hlt) e h
  | rdbReader hpc r h =>
      have hlt := (getReader_rdb htidy.rdb h).1
      omega
  | aofReader hpc r h =>
      have hfilePos := (getReader_aof htidy.segment h).filePos_eq
      refine ⟨?_, drains_of_pc (by simp)⟩
      simp only [Forwarder.work, hpc]
      omega
  | aofConnect hpc r h =>
      refine ⟨?_, drains_of_pc (by simp)⟩
      simp only [Forwarder.work, hpc]
      omega
  | connected r hpc =>
      rw [Placed, hpc] at hplaced
      have hfilePos := hplaced.filePos_eq
      refine ⟨?_, drains_of_pc (by simp)⟩
      simp only [Forwarder.work, hpc]
      omega
  | read r sent n hpc hpos hbuf hremaining =>
      rw [Placed, hpc] at hplaced
      rw [AofReader.remaining, hplaced.1.path_eq, List.length_drop, hlen] at hremaining
      refine ⟨?_, drains_of_pc (by simp)⟩
      simp only [Forwarder.work, hpc, AofReader.advance]
      omega
  | finishNothing r hpc hend =>
      rw [Placed, hpc] at hplaced
      have hfilePos := hplaced.1.filePos_eq
      rw [AofReader.remaining, hplaced.1.path_eq, List.drop_eq_nil_iff, hlen] at hend
      refine ⟨?_, drains_of_pc (by simp)⟩
      simp only [Forwarder.work, hpc, roundWork]
      rw [if_pos (by omega)]
      omega
  | finishPanic r sent hpc hend elapsed now h =>
      -- The offset would lie between the segment's start and its end.
      rw [Placed, hpc] at hplaced
      have hfilePos := hplaced.1.filePos_eq
      have hsent : f.offset + (sent : Int) ≤ start + len := by
        by_cases hzero : sent = 0
        · omega
        · have hread := hplaced.2 hzero
          omega
      exact absurd ⟨by have := hstart64.1; omega, by have := hend64.2; omega⟩ h
  | finish r sent hpc hsent hend =>
      rw [Placed, hpc] at hplaced
      have hfilePos := hplaced.1.filePos_eq
      rw [AofReader.remaining, hplaced.1.path_eq, List.drop_eq_nil_iff, hlen] at hend
      refine ⟨?_, drains_of_pc (by simp)⟩
      simp only [Forwarder.work, hpc, roundWork]
      rw [if_pos (by omega)]
      omega
  | finishSaving r sent hpc hsent hend =>
      rw [Placed, hpc] at hplaced
      have hfilePos := hplaced.1.filePos_eq
      rw [AofReader.remaining, hplaced.1.path_eq, List.drop_eq_nil_iff, hlen] at hend
      refine ⟨?_, drains_of_pc (by simp)⟩
      simp only [Forwarder.work, hpc, roundWork, saveCheckpoint, List.flatten_cons,
        List.flatten_nil, List.append_nil, List.length_cons, List.length_nil]
      rw [if_pos (by omega)]
      omega
  | wrote r sent chunk hpc =>
      refine ⟨?_, drains_of_pc (by simp)⟩
      simp only [Forwarder.work, hpc]
      omega
  | saved c cs calls hpc =>
      refine ⟨?_, drains_of_saving rfl⟩
      have hwork : Forwarder.work start len { f with pc := .saving (cs :: calls) }
          ≤ (cs :: calls).flatten.length + 1 + roundWork (len - (f.offset - start).toNat) :=
        work_saving start len rfl
      refine Nat.lt_of_le_of_lt hwork ?_
      simp only [Forwarder.work, hpc, List.flatten_cons, List.length_append, List.length_cons]
      omega
  | listen | rdbFailed | rdbPanic | rdbPassed | rdbSaving | connectFailed | readFailed
  | writeFailed | saveFailed | cancel => exact hgoes.elim

end Step

/-- A task that does not wait has a step that goes on. -/
theorem exists_goes {storer : FileStorer} (masterReplid : Text) {f : Forwarder} {path : Path}
    {start : Int} (hplaced : Placed path start (storer.disk.contents path) f)
    (hstart : start ≤ f.offset) (hloaded : f.Loaded)
    (hbusy : f.pc ≠ .idle ∧ f.pc ≠ .waiting ∧ f.pc ≠ .done) :
    ∃ act, act.Goes ∧ (f.step storer masterReplid act).isSome = true := by
  cases hpc : f.pc with
  | check => exact ⟨.check, trivial, by simp [Forwarder.step, hpc]⟩
  | «open» => exact ⟨.open, trivial, by simp [Forwarder.step, hpc]⟩
  | connect r => exact ⟨.connected, trivial, by simp [Forwarder.step, hpc]⟩
  | write r sent chunk => exact ⟨.wrote, trivial, by simp [Forwarder.step, hpc]⟩
  | read r sent =>
      by_cases hend : r.remaining storer.disk = []
      · exact ⟨.finish false 0, trivial, by simp [Forwarder.step, hpc, hend]⟩
      · have hpos := List.length_pos_of_ne_nil hend
        refine ⟨.read 1, trivial, ?_⟩
        simp only [Forwarder.step, hpc]
        rw [if_pos ⟨Nat.le_refl 1, by omega, hpos⟩]
        rfl
  | save calls =>
      obtain ⟨c, cs, rest, rfl⟩ := hloaded calls hpc
      exact ⟨.saved, trivial, by simp [Forwarder.step, hpc]⟩
  | sendRdb r =>
      rw [Placed, hpc] at hplaced
      omega
  | idle => exact absurd hpc hbusy.1
  | waiting => exact absurd hpc hbusy.2.1
  | done => exact absurd hpc hbusy.2.2

/-! ## Every run -/

/-- A segment that is covered as far as the task stands, which is not past its end. -/
structure Serving (runId : Text) (start : Int) (s : Sys) : Prop where
  covering : Covering (aofPath runId start) start s
  listed : ∃ a, a ∈ listed s.storer.dataSet.aofSegments runId
  task : ∀ o f, s.leader = .forwarding o f → f.Loaded ∧
    f.offset ≤ start + (s.storer.disk.contents (aofPath runId start)).length

theorem Serving.step {runId : Text} {start : Int} {s t : Sys} {act : Act}
    (h : Serving runId start s) (hstep : s.Stepped act t) : Serving runId start t := by
  refine ⟨h.covering.step hstep, ?_, ?_⟩
  · cases hstep with
    | input op ops now hinput =>
        have hop := h.covering.streaming.input op (hinput ▸ List.mem_cons_self)
        have hgrows :=
          perform_grows (s := { s with input := ops }) now h.covering.streaming.writer hop
        rw [hgrows.dataSet]
        exact h.listed
    | _ => exact h.listed
  · intro o f hf
    cases hstep with
    | input op ops now hinput =>
        have hop := h.covering.streaming.input op (hinput ▸ List.mem_cons_self)
        obtain ⟨more, hfile⟩ :=
          (perform_grows (s := { s with input := ops }) now h.covering.streaming.writer hop).file
        rw [hfile, List.length_append]
        obtain ⟨g, hg, hfg⟩ := forwarding_of_perform hf
        obtain ⟨hloaded, hle⟩ := h.task o g hg
        rcases hfg with rfl | rfl
        · refine ⟨hloaded, ?_⟩
          show f.offset ≤ _
          push_cast
          have hle' : f.offset
              ≤ start + (s.storer.disk.contents (aofPath runId start)).length := hle
          omega
        · refine ⟨fun calls hpc => hloaded calls ?_, ?_⟩
          · unfold Forwarder.notified at hpc
            split at hpc
            · cases hpc
            · exact hpc
          · rw [Forwarder.notified_offset]
            push_cast
            have hle' : g.offset
                ≤ start + (s.storer.disk.contents (aofPath runId start)).length := hle
            omega
    | listen | timeout => cases hf
    | start hleader =>
        obtain ⟨o', f', hforwarding, -⟩ := h.covering.task
        rw [hleader] at hforwarding
        cases hforwarding
    | forward o' g g' act events hleader hforward =>
        obtain ⟨rfl, rfl⟩ := LeaderPc.forwarding.inj hf
        have hplaced := h.covering.streaming.placed _ g hleader
        exact ⟨Forwarder.Loaded.step hforward,
          offset_le_of_stepped hplaced (h.task _ g hleader).2 hforward⟩

theorem serving_streaming (disk : Disk) (runId : Text) (start : Int) (now : Nat)
    (hasManager : Bool) (masterReplid : Text) {input : List InputOp}
    (hinput : ∀ op ∈ input, op.IsStream) :
    Serving runId start
      (Sys.streaming disk runId start now hasManager masterReplid input) := by
  refine ⟨covering_streaming disk runId start now hasManager masterReplid hinput,
    ⟨{ path := aofPath runId start, offset := start, createdAt := now },
      mem_listed_pushSorted.2 (.inr ⟨rfl, rfl⟩)⟩, fun o f hf => ?_⟩
  obtain ⟨rfl, rfl⟩ := LeaderPc.forwarding.inj hf
  refine ⟨fun calls hpc => (by cases hpc), ?_⟩
  show start ≤ _
  omega

/-- The task takes a step that goes on, and no other task takes one. -/
def Alone (_ : Sys) (act : Act) : Prop := ∃ a, act = .forward a ∧ a.Goes

def Sys.work (start : Int) (len : Nat) (s : Sys) : Nat :=
  match s.leader with
  | .forwarding _ f => f.work start len
  | _ => 0

/-- The task is alone with what the store holds: it goes on, or waits with nothing
unsent. -/
structure Draining (runId : Text) (start : Int) (storer : FileStorer) (o : Int) (s : Sys) :
    Prop where
  serving : Serving runId start s
  storer_eq : s.storer = storer
  task : ∃ f, s.leader = .forwarding o f ∧
    f.Drains start (storer.disk.contents (aofPath runId start)).length

theorem Draining.step {runId : Text} {start o : Int} {storer : FileStorer} {s t : Sys}
    {act : Act} (hstart64 : IsI64 start)
    (hend64 : IsI64 (start + (storer.disk.contents (aofPath runId start)).length))
    (h : Draining runId start storer o s) (halone : Alone s act)
    (hstep : s.step act = some t) :
    Draining runId start storer o t ∧
      t.work start (storer.disk.contents (aofPath runId start)).length
        < s.work start (storer.disk.contents (aofPath runId start)).length := by
  obtain ⟨hserving, rfl, f, hleader, -⟩ := h
  obtain ⟨a, rfl, hgoes⟩ := halone
  have hstepped := Sys.Stepped.of_step hstep
  have hnext := hserving.step hstepped
  cases hstepped with
  | forward o' f' f'' a events hleader' hforward =>
      rw [hleader] at hleader'
      obtain ⟨rfl, rfl⟩ := LeaderPc.forwarding.inj hleader'
      obtain ⟨b, hb⟩ := hserving.listed
      have hplaced := hserving.covering.streaming.placed _ f hleader
      obtain ⟨hwork, hdrains⟩ := work_lt_of_stepped hserving.covering.streaming.tidy hb hplaced
        (hserving.covering.of_leader hleader).1 (hserving.task _ f hleader).2 hstart64 hend64
        hgoes hforward
      refine ⟨⟨hnext, rfl, f'', rfl, hdrains⟩, ?_⟩
      simp only [Sys.work, hleader]
      exact hwork

/-- A run has brought the task to some place of its work, whatever failed in it; the
task is not idle, waiting or done there. Left alone and without another failure it
takes so many steps at the most, each of which has a next, until it is idle; and then
every byte of the segment has been accepted. A task that is idle when it is left alone
may have missed its wake-up, and stays. -/
theorem task_drains (disk : Disk) (runId : Text) {start : Int} (hstart64 : IsI64 start)
    (now : Nat) (hasManager : Bool) (masterReplid : Text) {input : List InputOp}
    (hinput : ∀ op ∈ input, op.IsStream) {acts acts' : List Act} {s t : Sys}
    (hrun : (Sys.streaming disk runId start now hasManager masterReplid input).Runs
      Free acts s) {o : Int} {f : Forwarder} (hleader : s.leader = .forwarding o f)
    (hbusy : f.pc ≠ .idle ∧ f.pc ≠ .waiting ∧ f.pc ≠ .done) {file : Bytes}
    (hfile : s.storer.disk.contents (aofPath runId start) = file)
    (hend64 : IsI64 (start + file.length)) (halone : s.Runs Alone acts' t) :
    acts'.length ≤ f.work start file.length ∧
      ((∃ a, a.Goes ∧ (t.step (.forward a)).isSome = true) ∨
        ∃ g, t.leader = .forwarding o g ∧ g.pc = .idle ∧
          ∀ i < file.length, i ∈ sentIndices t.log) := by
  subst hfile
  have hserving : Serving runId start s :=
    hrun.invariant (fun _ _ _ h _ hstep => h.step hstep)
      (serving_streaming disk runId start now hasManager masterReplid hinput)
  have hdraining : Draining runId start s.storer o s :=
    ⟨hserving, rfl, f, hleader, drains_of_pc ⟨hbusy.2.1, hbusy.2.2, hbusy.1⟩⟩
  obtain ⟨⟨ht, hstorer, g, hg, hnext⟩, hlength⟩ := Steps.length_add_le
    (fun u => u.work start (s.storer.disk.contents (aofPath runId start)).length) halone
    (fun _ _ _ h hact hstep => h.step hstart64 hend64 hact hstep) hdraining
  simp only [Sys.work, hleader] at hlength
  refine ⟨by omega, ?_⟩
  obtain ⟨hstart, hcovers⟩ := ht.covering.of_leader hg
  have hplaced := ht.covering.streaming.placed _ g hg
  by_cases hidle : g.pc = .idle
  · refine .inr ⟨g, hg, hidle, fun i hi => ?_⟩
    have hoffset := hnext.2.2 hidle
    have hle := le_position hplaced
    exact hcovers.covered.indices i (Nat.zero_le i) (by omega)
  · obtain ⟨a, hgoes, hsome⟩ := exists_goes t.masterReplid hplaced hstart (ht.task _ g hg).1
      ⟨hidle, hnext.1, hnext.2.1⟩
    refine .inl ⟨a, hgoes, ?_⟩
    obtain ⟨next, hnext⟩ := Option.isSome_iff_exists.1 hsome
    rw [Sys.step_forward hg hnext]
    rfl

/-- A write has failed with both bytes unsent on the new connection. -/
def brokenOff : Sys := sampleStart.after (retryActs.take 11)

/-- Both bytes go out on the next connection, and nothing is left to read. -/
def drainingActs : List Act :=
  [.forward .check, .forward .open, .forward .connected, .forward (.read 2),
    .forward .wrote, .forward (.finish false 0), .forward .check]

theorem task_drains_brokenOff :
    0 ∈ sentIndices (brokenOff.after drainingActs).log ∧
      1 ∈ sentIndices (brokenOff.after drainingActs).log := by
  have hrun : sampleStart.Runs Free (retryActs.take 11) brokenOff :=
    Sys.runs_free (by decide +kernel)
  have hrest : brokenOff.Runs Free drainingActs (brokenOff.after drainingActs) :=
    Sys.runs_free (by decide +kernel)
  have hgoes : ∀ act ∈ drainingActs, ∃ a, act = .forward a ∧ a.Goes := by
    simp [drainingActs, ForwardAct.Goes]
  have hidle : (brokenOff.after drainingActs).leader
      = .forwarding 0 { Forwarder.new 2 true with hasStream := true, pc := .idle } := by
    decide +kernel
  obtain ⟨-, ⟨a, hgoes, hnext⟩ | ⟨g, -, -, hsent⟩⟩ := task_drains ∅ "r".toList (by decide) 0
    true "id".toList (by simp [appends, InputOp.IsStream]) hrun (o := 0)
    (f := Forwarder.new 0 true) (by decide +kernel)
    ⟨by simp [Forwarder.new], by simp [Forwarder.new], by simp [Forwarder.new]⟩ rfl
    (by decide +kernel) (hrest.of_forall_mem hgoes)
  · -- An idle task only listens or is cancelled.
    cases a with
    | listen | rdbSent | connectFailed | readFailed | writeFailed | saveFailed | cancel =>
        exact hgoes.elim
    | _ => simp [Sys.step, hidle, Forwarder.step] at hnext
  · have hlength : (brokenOff.storer.disk.contents (aofPath "r".toList 0)).length = 2 := by
      decide +kernel
    exact ⟨hsent 0 (by omega), hsent 1 (by omega)⟩

end RedisHaTool.Syncer
