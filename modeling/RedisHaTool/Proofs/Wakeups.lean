import RedisHaTool.Proofs.Listed
import RedisHaTool.Proofs.Rotation
import RedisHaTool.Proofs.Streaming
import RedisHaTool.Syncer.Wakeup

/-!
# Wake-ups

A notification finds the forwarder waiting, or it is lost: `notify_waiters`
leaves nothing behind for a `Notified` created later. The forwarder that has
asked `available_bytes`, was told there is nothing, and has not yet created its
`Notified` is the one that loses, and waits for the next flush with the bytes of
the last one unsent.

Where no notification falls there, the invariant is that a forwarder which is
about to wait, or waits, with flushed bytes beyond its offset has the
notification of their flush still to come.
-/

namespace RedisHaTool.Syncer

open Lib Store

variable {s t : Flow} {a : FlowAct}

/-! ## The check -/

theorem availableOf_of_segment {storer : FileStorer} {offset : Int} {runId : Text}
    {aof : DataSetAof} (haof : storer.dataSet.findAof runId offset = some aof)
    (hlen : offset < aof.offset + (storer.disk.contents aof.path).length) :
    ∃ n, storer.availableOf offset runId = some n ∧ 0 < n := by
  obtain ⟨-, hle⟩ := findAof_eq_some haof
  -- A segment that reaches past the offset is there.
  have hmem : aof.path ∈ storer.disk := by
    by_contra hno
    have hempty : storer.disk.contents aof.path = [] := by
      rw [Disk.contents, AList.lookup_eq_none.2 hno]
      rfl
    rw [hempty, List.length_nil] at hlen
    omega
  have haofBytes : aof.path ∈ storer.disk ∧
      0 < ((storer.disk.contents aof.path).length : Int) - (offset - aof.offset) :=
    ⟨hmem, by omega⟩
  cases hrdb : storer.dataSet.findRdb runId offset with
  | none =>
      refine ⟨_, ?_, haofBytes.2⟩
      simp only [FileStorer.availableOf, hrdb, haof, Option.bind_none, Option.bind_some,
        if_pos haofBytes]
      rfl
  | some rdb =>
      obtain ⟨-, -, hlt⟩ := findRdb_eq_some hrdb
      by_cases hthere : rdb.path ∈ storer.disk
      · refine ⟨rdb.offset + rdb.size - offset, ?_, by omega⟩
        simp only [FileStorer.availableOf, hrdb, Option.bind_some, if_pos hthere]
        rfl
      · refine ⟨_, ?_, haofBytes.2⟩
        simp only [FileStorer.availableOf, hrdb, haof, Option.bind_some, if_neg hthere,
          if_pos haofBytes]
        rfl

/-- Under one run id bytes are announced only when there are some. -/
theorem availableOf_pos {storer : FileStorer} {offset : Int} {runId : Text} {n : Int}
    (h : storer.availableOf offset runId = some n) : 0 < n := by
  simp only [FileStorer.availableOf] at h
  rcases (Option.orElse_eq_some _ _ _).1 h with h | ⟨-, h⟩
  · obtain ⟨rdb, hrdb, h⟩ := Option.bind_eq_some_iff.1 h
    obtain ⟨-, -, hlt⟩ := findRdb_eq_some hrdb
    split at h
    · obtain rfl := Option.some.inj h
      omega
    · cases h
  · obtain ⟨aof, -, h⟩ := Option.bind_eq_some_iff.1 h
    split at h
    · next hpos =>
        obtain rfl := Option.some.inj h
        exact hpos.2
    · cases h

/-- A segment with bytes beyond the offset is not overlooked by the check. -/
theorem availableBytes_pos {storer : FileStorer} {offset : Int} {runId : Text}
    {aof : DataSetAof} (haof : storer.dataSet.findAof runId offset = some aof)
    (hlen : offset < aof.offset + (storer.disk.contents aof.path).length) :
    0 < storer.availableBytes offset := by
  obtain ⟨n, hn, -⟩ := availableOf_of_segment haof hlen
  have hrunId : runId ∈ storer.dataSet.runIds :=
    mem_runIds.2 (.inr (mem_keys_of_mem_listed (findAof_eq_some haof).1))
  rw [FileStorer.availableBytes]
  cases hfind : storer.dataSet.runIds.findSome? (storer.availableOf offset) with
  | none =>
      have hnone := List.findSome?_eq_none_iff.1 hfind runId hrunId
      rw [hn] at hnone
      cases hnone
  | some m =>
      obtain ⟨other, -, hother⟩ := List.exists_of_findSome?_eq_some hfind
      exact availableOf_pos hother

/-! ## One step -/

/-- What a step does to the two tasks, with the writer's file there. -/
inductive Flow.Stepped (s : Flow) : FlowAct → Flow → Prop where
  /-- Bytes that reach the writer's file without a flush, if any. -/
  | grow (a : FlowAct) (writer : AofWriter) (disk : Disk)
      (hpath : writer.writer.path = s.writer.writer.path)
      (honly : OnlyAt s.writer.writer.path s.storer.disk disk)
      (hgrows : ∃ more, disk.contents s.writer.writer.path
        = s.storer.disk.contents s.writer.writer.path ++ more) :
      Stepped s a { s with storer := { s.storer with disk }, writer }
  | flush (writer : AofWriter) (disk : Disk)
      (hpath : writer.writer.path = s.writer.writer.path)
      (honly : OnlyAt s.writer.writer.path s.storer.disk disk) :
      Stepped s .flush
        { s with
          storer := { s.storer with disk }
          writer
          flushed := (disk.contents writer.writer.path).length
          toNotify := true }
  | notify (hnotify : s.toNotify = true) :
      Stepped s .notify { s with toNotify := false, forwarder := s.forwarder.notified }
  | forward (act : ForwardAct) (f : Forwarder) (events : List Event)
      (hstep : s.forwarder.Stepped s.storer s.masterReplid act f events) :
      Stepped s (.forward act) { s with forwarder := f }

theorem Flow.Stepped.of_step (hpresent : s.writer.writer.path ∈ s.storer.disk)
    (hstep : s.step a = some t) : s.Stepped a t := by
  cases a with
  | append bs =>
      rw [Flow.step] at hstep
      split at hstep
      · cases hstep
      · obtain ⟨⟨writer, disk⟩, hwrite, rfl⟩ := Option.map_eq_some_iff.1 hstep
        rw [AofWriter.write_eq] at hwrite
        split at hwrite
        · obtain ⟨rfl, rfl⟩ := Prod.mk.inj (Option.some.inj hwrite)
          exact .grow _ _ _ (s.writer.writer.write_path bs _)
            (s.writer.writer.write_onlyAt bs hpresent)
            (BufWriter.write_grows s.writer.writer bs _)
        · cases hwrite
  | flush =>
      rw [Flow.step] at hstep
      split at hstep
      · cases hstep
      · obtain rfl := Option.some.inj hstep
        exact .flush _ _ rfl (onlyAt_insert _ _ _)
  | failed reached =>
      rw [Flow.step] at hstep
      split at hstep
      · cases hstep
      · obtain rfl := Option.some.inj hstep
        exact .grow _ _ _ rfl (onlyAt_insert _ _ _) ⟨_, contents_append_self _ _ _⟩
  | notify =>
      rw [Flow.step] at hstep
      split at hstep
      · next hnotify =>
          obtain rfl := Option.some.inj hstep
          exact .notify hnotify
      · cases hstep
  | forward act =>
      obtain ⟨⟨f, events⟩, hforward, rfl⟩ := Option.map_eq_some_iff.1 hstep
      exact .forward act f events (.of_step hforward)

/-- What a forwarder does that then is about to wait, or waits. -/
theorem Forwarder.Stepped.quiet {storer : FileStorer} {masterReplid : Text}
    {f f' : Forwarder} {act : ForwardAct} {events : List Event}
    (h : f.Stepped storer masterReplid act f' events)
    (hquiet : f'.pc = .idle ∨ f'.pc = .waiting) :
    f'.offset = f.offset ∧
      (¬ 0 < storer.availableBytes f.offset ∨ f.pc = .idle ∨
        act = .open ∧ ∃ e, storer.getReader f.offset = .error e) := by
  cases h with
  | unavailable hpc hnone => exact ⟨rfl, .inl hnone⟩
  | listen hpc => exact ⟨rfl, .inr (.inl hpc)⟩
  | noReader hpc e hreader => exact ⟨rfl, .inr (.inr ⟨rfl, e, hreader⟩)⟩
  | saved c cs calls hpc =>
      rcases saving_cases (cs :: calls) with hsaving | ⟨rest, hsaving⟩
      · simp [hsaving] at hquiet
      · simp [hsaving] at hquiet
  | saveFailed c cs calls hpc executed =>
      rcases saving_cases calls with hsaving | ⟨rest, hsaving⟩
      · simp [hsaving] at hquiet
      · simp [hsaving] at hquiet
  | _ => simp at hquiet

/-- The invariant of both tasks. -/
structure Flow.Heard (s : Flow) : Prop where
  present : s.writer.writer.path ∈ s.storer.disk
  flushed_le : s.flushed ≤ (s.storer.disk.contents s.writer.writer.path).length
  heard : s.forwarder.pc = .idle ∨ s.forwarder.pc = .waiting → s.Unsent → s.toNotify = true

theorem Flow.Unsent.of_same (h : t.Unsent) (hdata : t.storer.dataSet = s.storer.dataSet)
    (hoffset : t.forwarder.offset = s.forwarder.offset)
    (hlen : ∀ path, t.flushedLength path = s.flushedLength path) : s.Unsent := by
  obtain ⟨runId, aof, haof, hlt⟩ := h
  rw [hdata, hoffset] at haof
  rw [hoffset, hlen aof.path] at hlt
  exact ⟨runId, aof, haof, hlt⟩

/-- The check finds what is flushed. -/
theorem Flow.Heard.availableBytes_pos (h : s.Heard) (hunsent : s.Unsent) :
    0 < s.storer.availableBytes s.forwarder.offset := by
  obtain ⟨runId, aof, haof, hlt⟩ := hunsent
  refine Syncer.availableBytes_pos haof ?_
  rw [Flow.flushedLength] at hlt
  split at hlt
  · next hpath =>
      have hle := h.flushed_le
      rw [hpath]
      omega
  · exact hlt

/-- A forwarder that comes to wait had nothing before it at its check. -/
theorem Flow.Heard.forward (h : s.Heard) {act : ForwardAct} {f : Forwarder}
    {events : List Event} (hstep : s.forwarder.Stepped s.storer s.masterReplid act f events)
    (hC : s.Undisturbed (.forward act)) : Flow.Heard { s with forwarder := f } where
  present := h.present
  flushed_le := h.flushed_le
  heard := by
    intro hpc hunsent
    obtain ⟨hoffset, hcases⟩ := hstep.quiet hpc
    have hbefore : s.Unsent := hunsent.of_same rfl hoffset fun _ => rfl
    rcases hcases with hnone | hidle | ⟨rfl, e, he⟩
    · exact absurd (h.availableBytes_pos hbefore) hnone
    · exact h.heard (.inl hidle) hbefore
    · obtain ⟨r, hr⟩ := hC hbefore
      rw [hr] at he
      cases he

theorem Flow.Heard.step (h : s.Heard) (hC : s.Undisturbed a) (hstep : s.Stepped a t) :
    t.Heard := by
  cases hstep with
  | grow a writer disk hpath honly hgrows =>
      obtain ⟨more, hmore⟩ := hgrows
      refine ⟨?_, ?_, fun hpc hunsent => ?_⟩
      · show writer.writer.path ∈ disk
        rw [hpath]
        exact honly.1
      · have hle := h.flushed_le
        show s.flushed ≤ (disk.contents writer.writer.path).length
        rw [hpath, hmore, List.length_append]
        omega
      · refine h.heard hpc (hunsent.of_same rfl rfl fun path => ?_)
        simp only [Flow.flushedLength, hpath]
        split
        · rfl
        · next hne => rw [honly.contents hne]
  | flush writer disk hpath honly =>
      refine ⟨?_, Nat.le_refl _, fun _ _ => rfl⟩
      show writer.writer.path ∈ disk
      rw [hpath]
      exact honly.1
  | notify hnotify =>
      refine ⟨h.present, h.flushed_le, fun hpc hunsent => ?_⟩
      -- Who waited is at its check again; who was about to wait had nothing to wait for.
      have hbefore : s.Unsent :=
        hunsent.of_same rfl (Forwarder.notified_offset s.forwarder) fun _ => rfl
      have hidle : s.forwarder.pc = .idle := by
        simp only [Forwarder.notified] at hpc
        split at hpc
        · simp at hpc
        · next hne => exact hpc.resolve_right hne
      exact absurd hbefore (hC hidle)
  | forward act f events hforward => exact h.forward hforward hC

theorem heard_start (s : FileStorer) (runId : Text) (start : Int) (logSize now : Nat)
    (masterReplid : Text) (offset : Int) (hasManager : Bool) :
    (Flow.start s runId start logSize now masterReplid (.new offset hasManager)).Heard where
  present := mem_create_self _ _
  flushed_le := Nat.zero_le _
  heard := by
    intro hpc
    rcases hpc with hpc | hpc
    · cases hpc
    · cases hpc

/-! ## Every run -/

/-- However the steps of the writer and of the forwarder follow each other:
where no notification falls between a check and the wait after it, with flushed
bytes beyond the forwarder's offset, no wake-up is lost. -/
theorem wakeupPending_of_undisturbed (s : FileStorer) (runId : Text) (start : Int)
    (logSize now : Nat) (masterReplid : Text) (offset : Int) (hasManager : Bool)
    {acts : List FlowAct}
    (hrun : Steps Flow.step Flow.Undisturbed
      (.start s runId start logSize now masterReplid (.new offset hasManager)) acts t) :
    t.WakeupPending := by
  have h : t.Heard := hrun.invariant
    (fun _ _ _ hs hC hstep => hs.step hC (.of_step hs.present hstep))
    (heard_start s runId start logSize now masterReplid offset hasManager)
  intro hpc hunsent
  exact h.heard (.inr hpc) hunsent

/-- Where every listed file is there, an attempt to open a segment that holds
the offset does not fail. -/
theorem Flow.undisturbed_of_allExist (hs : s.storer.AllExist) (hC : s.NotifiesInTime a) :
    s.Undisturbed a := by
  cases a with
  | notify => exact hC
  | forward act =>
      cases act with
      | «open» =>
          intro hunsent
          obtain ⟨runId, aof, haof, -⟩ := hunsent
          have hrunId : runId ∈ s.storer.dataSet.runIds :=
            mem_runIds.2 (.inr (mem_keys_of_mem_listed (findAof_eq_some haof).1))
          cases hfind : s.storer.dataSet.runIds.findSome?
              (s.storer.readerOf s.forwarder.offset) with
          | none =>
              have hnone := List.findSome?_eq_none_iff.1 hfind runId hrunId
              rw [FileStorer.readerOf, haof] at hnone
              split at hnone
              · cases hnone
              · cases hnone
          | some answer =>
              obtain ⟨other, -, hother⟩ := List.exists_of_findSome?_eq_some hfind
              rw [FileStorer.getReader, hfind, Option.getD_some]
              cases answer with
              | ok r => exact ⟨r, rfl⟩
              | error e => exact absurd hother (hs.readerOf s.forwarder.offset other e)
      | _ => trivial
  | _ => trivial

theorem Flow.allExist_step (hs : s.storer.AllExist) (hstep : s.Stepped a t) :
    t.storer.AllExist := by
  cases hstep with
  | grow a writer disk hpath honly hgrows =>
      exact ⟨fun id rdb hrdb => honly.mem (hs.1 id rdb hrdb),
        fun id aof haof => honly.mem (hs.2 id aof haof)⟩
  | flush writer disk hpath honly =>
      exact ⟨fun id rdb hrdb => honly.mem (hs.1 id rdb hrdb),
        fun id aof haof => honly.mem (hs.2 id aof haof)⟩
  | notify hnotify => exact hs
  | forward act f events hforward => exact hs

/-- Over a store all of whose listed files are there, only the notifications
matter. -/
theorem wakeupPending_of_notifiesInTime {s : FileStorer} (hs : s.AllExist) (runId : Text)
    (start : Int) (logSize now : Nat) (masterReplid : Text) (offset : Int) (hasManager : Bool)
    {acts : List FlowAct}
    (hrun : Steps Flow.step Flow.NotifiesInTime
      (.start s runId start logSize now masterReplid (.new offset hasManager)) acts t) :
    t.WakeupPending := by
  have h : t.Heard ∧ t.storer.AllExist := by
    refine hrun.invariant (I := fun s => s.Heard ∧ s.storer.AllExist) ?_ ?_
    · intro s a t hI hC hstep
      have hstepped := Flow.Stepped.of_step hI.1.present hstep
      exact ⟨hI.1.step (Flow.undisturbed_of_allExist hI.2 hC) hstepped,
        Flow.allExist_step hI.2 hstepped⟩
    · exact ⟨heard_start s runId start logSize now masterReplid offset hasManager,
        hs.getAofWriter runId start now⟩
  intro hpc hunsent
  exact h.1.heard (.inr hpc) hunsent

/-- A segment from offset 0 on, and a forwarder at its start. -/
def emptySegment : Flow :=
  .start (.new ∅) "a".toList 0 100 0 [] (.new 0 false)

theorem wakeupPending_of_undisturbed_oneFlush :
    ∃ t, Steps Flow.step Flow.Undisturbed emptySegment
        [.forward .check, .forward .listen, .append [1, 2], .flush] t ∧
      t.forwarder.pc = .waiting ∧ t.Unsent ∧ t.WakeupPending := by
  have hrun : ∃ t, Steps Flow.step Flow.Undisturbed emptySegment
      [.forward .check, .forward .listen, .append [1, 2], .flush] t ∧
        t.forwarder.pc = .waiting ∧ t.Unsent := by
    refine ⟨_, .cons trivial rfl (.cons trivial rfl (.cons trivial rfl
      (.cons trivial rfl (.refl _)))), rfl, "a".toList, _, rfl, ?_⟩
    decide +kernel
  obtain ⟨t, hsteps, hpc, hunsent⟩ := hrun
  exact ⟨t, hsteps, hpc, hunsent, wakeupPending_of_undisturbed _ _ _ _ _ _ _ _ hsteps⟩

/-- A notification after the check and before the wait is lost. -/
theorem not_wakeupPending :
    ¬ ∀ (s : FileStorer) (runId : Text) (start : Int) (logSize now : Nat) (masterReplid : Text)
      (offset : Int) (hasManager : Bool) (acts : List FlowAct) (t : Flow),
      Steps Flow.step Free
        (.start s runId start logSize now masterReplid (.new offset hasManager)) acts t →
      t.WakeupPending := by
  intro h
  have hrun : ∃ t, Steps Flow.step Free emptySegment
      [.forward .check, .append [1, 2], .flush, .notify, .forward .listen] t ∧
        t.forwarder.pc = .waiting ∧ t.Unsent ∧ t.toNotify = false := by
    refine ⟨_, .cons trivial rfl (.cons trivial rfl (.cons trivial rfl
      (.cons trivial rfl (.cons trivial rfl (.refl _))))), rfl, ⟨"a".toList, _, rfl, ?_⟩, rfl⟩
    decide +kernel
  obtain ⟨t, hsteps, hpc, hunsent, hnone⟩ := hrun
  have hpending := h _ _ _ _ _ _ _ _ _ t hsteps hpc hunsent
  rw [hnone] at hpending
  cases hpending

end RedisHaTool.Syncer
