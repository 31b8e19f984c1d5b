import RedisHaTool.Lib.Replay
import RedisHaTool.Proofs.Databases

/-!
# The target catches up

A connection that breaks leaves the target in the middle of the stream, perhaps in
the middle of a command, and the next one begins further back. So the target goes
back in time, and executes again what it has executed. For commands that store
values whatever was there before, in one database, and a source whose reads end
where commands do, that is forgotten once the task has reached the end of its
segment: the target then holds what one execution of the stream leaves.
-/

namespace RedisHaTool.Syncer

open Lib Store Resp

/-! ## Commands that have arrived -/

section Arrived

variable {bs : Bytes} {cmds cmds' all : List ClientCommand}

theorem encodeStream_mono (h : cmds <+: all) : encodeStream cmds <+: encodeStream all := by
  obtain ⟨rest, rfl⟩ := h
  rw [encodeStream_append]
  exact List.prefix_append _ _

/-- Of two beginnings of the same stream the shorter one comes first. -/
theorem prefix_of_length_le (h : cmds <+: all) (h' : cmds' <+: all)
    (hle : (encodeStream cmds).length ≤ (encodeStream cmds').length) : cmds <+: cmds' := by
  refine prefix_of_encodeStream ?_
  exact List.prefix_of_prefix_length_le (encodeStream_mono h) (encodeStream_mono h') hle

/-- The commands of which every byte has arrived. -/
structure Arrived (bs : Bytes) (cmds : List ClientCommand) : Prop where
  begins : encodeStream cmds <+: bs
  whole : ∀ cmd, ¬ encodeStream (cmds ++ [cmd]) <+: bs

theorem exists_arrived (bs : Bytes) : ∃ cmds, Arrived bs cmds := by
  induction hlen : bs.length using Nat.strong_induction_on generalizing bs with
  | _ len ih =>
      by_cases hfirst : ∃ cmd : ClientCommand, cmd.encode <+: bs
      · obtain ⟨cmd, rest, rfl⟩ := hfirst
        have hpos := List.length_pos_of_ne_nil (encode_ne_nil cmd)
        rw [List.length_append] at hlen
        obtain ⟨cmds, hbegins, hwhole⟩ := ih rest.length (by omega) rest rfl
        refine ⟨cmd :: cmds, ?_, fun next hnext => hwhole next ?_⟩
        · rw [encodeStream_cons]
          exact (List.prefix_append_right_inj _).2 hbegins
        · rw [List.cons_append, encodeStream_cons] at hnext
          exact (List.prefix_append_right_inj _).1 hnext
      · refine ⟨[], List.nil_prefix, fun cmd hcmd => hfirst ⟨cmd, ?_⟩⟩
        rwa [List.nil_append, encodeStream_cons, encodeStream, List.flatMap_nil,
          List.append_nil] at hcmd

/-- They are the next commands of the stream. -/
theorem Arrived.beginning (h : Arrived bs cmds) (hbs : bs <+: encodeStream all) : cmds <+: all :=
  prefix_of_encodeStream (h.begins.trans hbs)

/-- And all of them that are no longer than the bytes. -/
theorem Arrived.of_length_le (h : Arrived bs cmds) (hbs : bs <+: encodeStream all)
    (hcmds' : cmds' <+: all) (hle : (encodeStream cmds').length ≤ bs.length) :
    cmds' <+: cmds := by
  rcases List.prefix_or_prefix_of_prefix hcmds' (h.beginning hbs) with hbegins | ⟨rest, rfl⟩
  · exact hbegins
  · cases rest with
    | nil => exact (List.append_nil cmds).symm ▸ List.prefix_rfl
    | cons cmd rest =>
        rw [List.append_cons] at hcmds' hle
        have harrived := List.prefix_of_prefix_length_le (encodeStream_mono hcmds') hbs hle
        exact absurd ((encodeStream_mono (List.prefix_append _ rest)).trans harrived)
          (h.whole cmd)

/-- What the target reads of these bytes. -/
noncomputable def arrived (bs : Bytes) : List ClientCommand := (exists_arrived bs).choose

theorem arrived_spec (bs : Bytes) : Arrived bs (arrived bs) := (exists_arrived bs).choose_spec

end Arrived

/-! ## Connections that overlap -/

/-- Connections, the newest first, each opened where the one before it was opened or
later, and not after what that one accepted. The oldest was opened at `o`. -/
inductive Linked (o : Int) : List Connection → Prop where
  | first {c : Connection} (hoffset : c.offset = o) : Linked o [c]
  | next {c d : Connection} {rest : List Connection} (hrest : Linked o (d :: rest))
      (hfrom : d.offset ≤ c.offset) (hto : c.offset ≤ d.offset + d.bytes.length) :
      Linked o (c :: d :: rest)

theorem Linked.sent {o : Int} {c : Connection} {rest : List Connection}
    (h : Linked o (c :: rest)) (chunk : Bytes) :
    Linked o ({ c with bytes := c.bytes ++ chunk } :: rest) := by
  cases h with
  | first hoffset => exact .first hoffset
  | next hrest hfrom hto => exact .next hrest hfrom hto

/-- The newest connection was opened at the task's offset or before, and has
accepted what comes before it. -/
inductive Joined (o offset : Int) : List Connection → Prop where
  | none (hoffset : offset = o) : Joined o offset []
  | some {c : Connection} {rest : List Connection} (hlinked : Linked o (c :: rest))
      (hfrom : c.offset ≤ offset) (hto : offset ≤ c.offset + c.bytes.length) :
      Joined o offset (c :: rest)

theorem Joined.connected {o offset : Int} {conns : List Connection}
    (h : Joined o offset conns) : Joined o offset ({ offset, bytes := [] } :: conns) := by
  cases h with
  | none hoffset => exact .some (.first hoffset) (Int.le_refl _) (by simp)
  | some hlinked hfrom hto => exact .some (.next hlinked hfrom hto) (Int.le_refl _) (by simp)

theorem Joined.sent {o offset : Int} {c : Connection} {rest : List Connection}
    (h : Joined o offset (c :: rest)) (chunk : Bytes) :
    Joined o offset ({ c with bytes := c.bytes ++ chunk } :: rest) := by
  cases h with
  | some hlinked hfrom hto =>
      refine .some (hlinked.sent chunk) hfrom ?_
      show offset ≤ c.offset + ((c.bytes ++ chunk).length : Nat)
      rw [List.length_append]
      omega

/-- The offset goes on to where the newest connection is. -/
theorem Joined.finish {o offset offset' : Int} {c : Connection} {rest : List Connection}
    (h : Joined o offset (c :: rest)) (hle : offset ≤ offset')
    (hto : offset' ≤ c.offset + c.bytes.length) : Joined o offset' (c :: rest) := by
  cases h with
  | some hlinked hfrom _ => exact .some hlinked (by omega) hto

theorem Joined.step {path : Path} {start o : Int} {storer : FileStorer} {masterReplid : Text}
    {f f' : Forwarder} {act : ForwardAct} {events : List Event} {conns : List Connection}
    (hplaced : Placed path start (storer.disk.contents path) f) (hstart : start ≤ f.offset)
    (hattached : f.Attached start conns) (h : Joined o f.offset conns)
    (hstep : f.Stepped storer masterReplid act f' events) :
    Joined o f'.offset (events.foldl addEvent conns) := by
  cases hstep with
  | rdbPassed r hpc | rdbSaving r hpc =>
      rw [Placed, hpc] at hplaced
      omega
  | connected r hpc => exact h.connected
  | finish r sent hpc | finishSaving r sent hpc =>
      have hs := hattached.reading r sent hpc
      obtain ⟨c, rest, rfl, hend⟩ := hattached.stream hs (by simp [hpc])
      rw [Placed, hpc] at hplaced
      have hfilePos := hplaced.1.filePos_eq
      simp only [Forwarder.reached, hpc] at hend
      refine Joined.finish h ?_ ?_
      · show f.offset ≤ f.offset + sent
        omega
      · show f.offset + sent ≤ _
        omega
  | wrote r sent chunk hpc =>
      obtain ⟨c, rest, rfl, -⟩ := hattached.stream (hattached.writing r sent chunk hpc)
        (by simp [hpc])
      exact h.sent chunk
  | writeFailed r sent chunk hpc accepted haccepted =>
      obtain ⟨c, rest, rfl, -⟩ := hattached.stream (hattached.writing r sent chunk hpc)
        (by simp [hpc])
      exact h.sent (chunk.take accepted)
  | saveFailed c cs calls hpc executed => cases executed <;> exact h
  | _ => exact h

/-- A connection was opened where it says. -/
theorem connected_mem {log : List Event} {c : Connection} (h : c ∈ connectionsOf log) :
    .connected c.offset ∈ log := by
  induction log using List.reverseRecOn generalizing c with
  | nil => cases h
  | append_singleton log event ih =>
      rw [connectionsOf_append, List.foldl_cons, List.foldl_nil] at h
      refine List.mem_append.2 ?_
      cases event with
      | connected offset =>
          rcases List.mem_cons.1 h with rfl | h
          · exact .inr List.mem_cons_self
          · exact .inl (ih h)
      | sent index bs =>
          generalize hconns : connectionsOf log = conns at h ih
          cases conns with
          | nil => cases h
          | cons d rest =>
              rcases List.mem_cons.1 h with rfl | h
              · exact .inl (ih (c := d) List.mem_cons_self)
              · exact .inl (ih (List.mem_cons_of_mem d h))
      | source | handRdb | command => exact .inl (ih h)

/-! ## What they leave -/

/-- Nothing but database 0 is ever selected. -/
def ZeroOnly (cmds : List ClientCommand) : Prop :=
  ∀ cmd ∈ cmds, ∀ db, cmd.selects = some db → db = 0

section Landed

variable {κ ν : Type} (writes : Nat × ClientCommand → κ → Option ν)

/-- What the target holds when it has read its connections, one after another, each
from database 0 on. The hashes of the checkpoints stand apart. -/
noncomputable def landed (before : κ → ν) (conns : List Connection) : κ → ν :=
  conns.foldr (fun c keys => replay writes keys (executed 0 (arrived c.bytes))) before

/-- What a command writes in database 0. -/
def inZero (cmd : ClientCommand) (k : κ) : Option ν :=
  if cmd.selects.isSome then none else writes (0, cmd) k

variable {writes}

theorem replay_executed {cmds : List ClientCommand} (h : ZeroOnly cmds) (keys : κ → ν) :
    replay writes keys (executed 0 cmds) = replay (inZero writes) keys cmds := by
  induction cmds generalizing keys with
  | nil => rfl
  | cons cmd cmds ih =>
      have hrest : ZeroOnly cmds := fun cmd hcmd => h cmd (List.mem_cons_of_mem _ hcmd)
      rw [executed, replay_cons]
      cases hselects : cmd.selects with
      | some db =>
          obtain rfl := h cmd List.mem_cons_self db hselects
          have hnothing : store (inZero writes) keys cmd = keys :=
            funext fun k => store_of_none (by simp [inZero, hselects])
          rw [hnothing]
          exact ih hrest keys
      | none =>
          have hsame : store (inZero writes) keys cmd = store writes keys (0, cmd) := by
            funext k
            simp [store, inZero, hselects]
          rw [hsame]
          exact ih hrest _

theorem ZeroOnly.mono {cmds all : List ClientCommand} (h : ZeroOnly all)
    (hcmds : cmds ⊆ all) : ZeroOnly cmds :=
  fun cmd hcmd => h cmd (hcmds hcmd)

/-- A connection that is opened between two commands carries what comes after. -/
theorem Connection.CarriesOf.rest {c : Connection} {start : Int}
    {pre more : List ClientCommand}
    (h : c.CarriesOf start (encodeStream (pre ++ more)))
    (hoffset : c.offset = start + (encodeStream pre).length) :
    c.bytes <+: encodeStream more := by
  obtain ⟨i, hi, hbytes⟩ := h
  obtain rfl : i = (encodeStream pre).length := by omega
  rwa [encodeStream_append, List.drop_left] at hbytes

variable {start o : Int} {skipped log all : List ClientCommand}

/-- What is read of a connection in a stream that never leaves database 0. -/
theorem replay_arrived {bs : Bytes} {more : List ClientCommand} (hzero : ZeroOnly all)
    (hmore : more ⊆ all) (hbytes : bs <+: encodeStream more) (keys : κ → ν) :
    replay writes keys (executed 0 (arrived bs)) = replay (inZero writes) keys (arrived bs) := by
  have hread : arrived bs <+: more := (arrived_spec bs).beginning hbytes
  exact replay_executed (hzero.mono (List.Subset.trans hread.subset hmore)) keys

/-- A connection that is opened after another, and within what that one carries,
is opened after commands that have arrived on it. -/
theorem opened_within {c d : Connection} {pre more upto : List ClientCommand}
    (hall : skipped ++ (pre ++ more) <+: all)
    (hd : d.offset = start + (encodeStream (skipped ++ pre)).length)
    (hdbytes : d.bytes <+: encodeStream more) (hupto : upto <+: all)
    (hc : c.offset = start + (encodeStream upto).length) (hfrom : d.offset ≤ c.offset)
    (hto : c.offset ≤ d.offset + d.bytes.length) :
    ∃ mid after, upto = skipped ++ pre ++ mid ∧ mid ++ after = more ∧
      mid <+: arrived d.bytes := by
  have hdlen := hdbytes.length_le
  have hpre : skipped ++ pre <+: all := by
    rw [← List.append_assoc] at hall
    exact (List.prefix_append _ more).trans hall
  obtain ⟨mid, rfl⟩ := prefix_of_length_le hpre hupto (by omega)
  have hmid : mid <+: more := by
    have hle : skipped ++ pre ++ mid <+: skipped ++ (pre ++ more) := by
      refine prefix_of_length_le hupto hall ?_
      rw [← List.append_assoc, encodeStream_append (skipped ++ pre) more, List.length_append]
      omega
    rw [List.append_assoc, List.prefix_append_right_inj, List.prefix_append_right_inj] at hle
    exact hle
  obtain ⟨after, hafter⟩ := hmid
  refine ⟨mid, after, rfl, hafter, (arrived_spec d.bytes).of_length_le hdbytes ⟨after, hafter⟩ ?_⟩
  rw [encodeStream_append, List.length_append] at hc
  omega

variable (writes) in
/-- Connections that are linked and opened between commands replay parts of the
stream that overlap. -/
theorem Linked.overlap {c : Connection} {rest : List Connection} (h : Linked o (c :: rest))
    (hcarries : ∀ d ∈ c :: rest, d.CarriesOf start (encodeStream (skipped ++ log)))
    (hopened : ∀ d ∈ c :: rest, ∃ pre, pre <+: all ∧
      d.offset = start + (encodeStream pre).length)
    (ho : o = start + (encodeStream skipped).length) (hall : skipped ++ log <+: all)
    (hzero : ZeroOnly all) (before : κ → ν) :
    ∃ pre more parts, pre ++ more = log ∧
      c.offset = start + (encodeStream (skipped ++ pre)).length ∧
      c.bytes <+: encodeStream more ∧
      Overlap log ((pre, arrived c.bytes) :: parts) ∧
      landed writes before (c :: rest)
        = replayParts (inZero writes) before ((pre, arrived c.bytes) :: parts) := by
  have hlogs : log ⊆ all := fun cmd hcmd => hall.subset (List.mem_append_right skipped hcmd)
  generalize hconns : c :: rest = conns at h
  induction h generalizing c rest with
  | first hoffset =>
      obtain ⟨rfl, rfl⟩ := List.cons.inj hconns
      have hoffset : c.offset = start + (encodeStream (skipped ++ [])).length := by
        rw [List.append_nil]
        omega
      have hbytes : c.bytes <+: encodeStream log := by
        refine (hcarries c List.mem_cons_self).rest ?_
        rwa [List.append_nil] at hoffset
      exact ⟨[], log, [], rfl, hoffset, hbytes, .first ((arrived_spec _).beginning hbytes),
        replay_arrived hzero hlogs hbytes before⟩
  | @next c' d rest' hrest hfrom hto ih =>
      obtain ⟨rfl, rfl⟩ := List.cons.inj hconns
      obtain ⟨pre, more, parts, rfl, hd, hdbytes, hoverlap, hlanded⟩ :=
        ih (fun d' hd' => hcarries d' (List.mem_cons_of_mem _ hd'))
          (fun d' hd' => hopened d' (List.mem_cons_of_mem _ hd')) rfl
      obtain ⟨upto, hupto, hc⟩ := hopened c List.mem_cons_self
      obtain ⟨mid, after, rfl, rfl, harrived⟩ :=
        opened_within hall hd hdbytes hupto hc hfrom hto
      have hlog := List.append_assoc pre mid after
      have hbytes : c.bytes <+: encodeStream after := by
        refine Connection.CarriesOf.rest ?_ hc
        have hc' := hcarries c List.mem_cons_self
        rwa [← hlog, ← List.append_assoc, ← List.append_assoc] at hc'
      have hafter : after ⊆ all := fun cmd hcmd =>
        hlogs (List.mem_append_right pre (List.mem_append_right mid hcmd))
      refine ⟨pre ++ mid, after, (pre, arrived d.bytes) :: parts, hlog, ?_, hbytes, ?_, ?_⟩
      · rw [← List.append_assoc]
        exact hc
      · refine .next hoverlap (List.prefix_append pre mid)
          ((List.prefix_append_right_inj pre).2 harrived) ?_
        rw [← hlog, List.prefix_append_right_inj]
        exact (arrived_spec _).beginning hbytes
      · show replay writes (landed writes before (d :: rest')) _ = _
        rw [replay_arrived hzero hafter hbytes, hlanded]
        rfl

/-- Where the task's offset is the end of the stream, the target holds what one
execution of it leaves. -/
theorem landed_of_joined {offset : Int} {conns : List Connection} (h : Joined o offset conns)
    (hcarries : ∀ d ∈ conns, d.CarriesOf start (encodeStream (skipped ++ log)))
    (hopened : ∀ d ∈ conns, ∃ pre, pre <+: all ∧ d.offset = start + (encodeStream pre).length)
    (ho : o = start + (encodeStream skipped).length) (hall : skipped ++ log <+: all)
    (hzero : ZeroOnly all) (hend : offset = start + (encodeStream (skipped ++ log)).length)
    (before : κ → ν) : landed writes before conns = replay writes before (executed 0 log) := by
  have hlog : ZeroOnly log :=
    hzero.mono fun cmd hcmd => hall.subset (List.mem_append_right skipped hcmd)
  rw [replay_executed hlog]
  cases h with
  | none hoffset =>
      have hnil : log = [] := by
        have hempty : (encodeStream log).length = 0 := by
          rw [encodeStream_append, List.length_append] at hend
          omega
        cases log with
        | nil => rfl
        | cons cmd log =>
            exact absurd (List.append_eq_nil_iff.1 (List.length_eq_zero_iff.1 hempty)).1
              (encode_ne_nil cmd)
      rw [hnil]
      rfl
  | some hlinked hfrom hto =>
      obtain ⟨pre, more, parts, rfl, hoffset, hbytes, hoverlap, hlanded⟩ :=
        hlinked.overlap writes hcarries hopened ho hall hzero before
      rw [hlanded]
      refine hoverlap.replayParts_log ?_
      rw [← List.append_assoc, encodeStream_append (skipped ++ pre) more, List.length_append]
        at hend
      have hread := arrived_spec
      have hmore := (hread _).of_length_le hbytes List.prefix_rfl (by omega)
      rw [((hread _).beginning hbytes).eq_of_length_le hmore.length_le]

/-- At any time a key holds what it held before, or what a command stores. -/
theorem landed_origin {conns : List Connection} (hconns : ∀ d ∈ conns, arrived d.bytes ⊆ all)
    (hzero : ZeroOnly all) (before : κ → ν) (k : κ) :
    landed writes before conns k = before k ∨
      ∃ cmd ∈ all, writes (0, cmd) k = some (landed writes before conns k) := by
  induction conns with
  | nil => exact .inl rfl
  | cons c rest ih =>
      have hc := hconns c List.mem_cons_self
      show replay writes (landed writes before rest) (executed 0 (arrived c.bytes)) k = _ ∨ _
      have heq : landed writes before (c :: rest)
          = replay (inZero writes) (landed writes before rest) (arrived c.bytes) :=
        replay_executed (hzero.mono hc) _
      rw [replay_executed (hzero.mono hc), heq]
      rcases replay_origin (landed writes before rest) (arrived c.bytes) k with
        hsame | ⟨cmd, hcmd, hwrites⟩
      · rw [hsame]
        exact ih fun d hd => hconns d (List.mem_cons_of_mem c hd)
      · refine .inr ⟨cmd, hc hcmd, ?_⟩
        rw [inZero] at hwrites
        split at hwrites
        · cases hwrites
        · exact hwrites

end Landed

/-! ## Every run -/

/-- The connections of a session, linked up to where the task stands. -/
structure CatchingUp (runId : Text) (start : Int) (pieces : List Bytes) (ops : List InputOp)
    (s : Sys) : Prop where
  carrying : Carrying runId start pieces s
  cutting : Cutting runId start pieces ops s
  joined : ∀ o f, s.leader = .forwarding o f →
    Joined o f.offset (connectionsOf s.log) ∧ OnCut start pieces o
  quiet : (∀ o f, s.leader ≠ .forwarding o f) → connectionsOf s.log = []

theorem CatchingUp.step {runId : Text} {start : Int} {pieces : List Bytes}
    {ops : List InputOp} {n : Nat} (hloads : LoadsOnCut start pieces ops n)
    (hstart : IsI64 start) {s t : Sys} {act : Act} (h : CatchingUp runId start pieces ops s)
    (hafter : LoadsAfter ops n s act) (hstep : s.Stepped act t) :
    CatchingUp runId start pieces ops t := by
  have hcarrying := h.carrying.step hstep
  have hcutting := h.cutting.step hloads hstart hafter hstep
  refine ⟨hcarrying, hcutting, ?_, ?_⟩
  · cases hstep with
    | input op rest now hinput =>
        intro o f hf
        rw [perform_connectionsOf]
        obtain ⟨g, hg, rfl | rfl⟩ := forwarding_of_perform hf
        · exact h.joined o f hg
        · rw [Forwarder.notified_offset]
          exact h.joined o g hg
    | listen | timeout => exact fun o f hf => by cases hf
    | start hleader =>
        intro o f hf
        have hquiet := h.quiet fun o f hforwarding => by
          rw [hleader] at hforwarding
          cases hforwarding
        obtain ⟨hoffset, -⟩ := hcutting.task o f hf
        obtain ⟨rfl, rfl⟩ := LeaderPc.forwarding.inj hf
        exact ⟨hquiet ▸ .none rfl, hoffset⟩
    | forward o f f' act events hleader hforward =>
        intro o' g hg
        obtain ⟨rfl, rfl⟩ := LeaderPc.forwarding.inj hg
        obtain ⟨hjoined, ho⟩ := h.joined o f hleader
        obtain ⟨-, hplaced⟩ := h.carrying.around hleader
        obtain ⟨m, -, hm, -⟩ := (h.cutting.task o f hleader).1
        rw [connectionsOf_append]
        exact ⟨hjoined.step hplaced (by omega) (h.carrying.task o f hleader) hforward, ho⟩
  · cases hstep with
    | input op rest now hinput =>
        intro hno
        rw [perform_connectionsOf]
        refine h.quiet fun o f hf => ?_
        have hleader : { s with input := rest }.leader = .forwarding o f := hf
        rcases perform_leader { s with input := rest } now op with heq | heq | heq
        · exact hno o f (heq.trans hleader)
        · exact hno o f.notified (by rw [heq, hleader]; rfl)
        · exact hno o f (by rw [heq, hleader]; rfl)
    | listen hleader | timeout hleader | start hleader =>
        exact fun _ => h.quiet fun o f hf => by rw [hleader] at hf; cases hf
    | forward o f f' act events hleader hforward => exact fun hno => absurd rfl (hno o f')

theorem catchingUp_init {runId : Text} {start : Int} {pieces : List Bytes}
    {ops : List InputOp} {disk : Disk} {hasManager : Bool}
    (h : Early runId start pieces (Sys.init (.new disk) hasManager ops)) :
    CatchingUp runId start pieces ops (Sys.init (.new disk) hasManager ops) where
  carrying := carrying_init h
  cutting := cutting_init h
  joined := fun o f hf => by cases hf
  quiet := fun _ => rfl

theorem exists_prefix_of_isCut {cmds : List ClientCommand} {n : Nat}
    (h : IsCut (cmds.map ClientCommand.encode) n) :
    ∃ pre, pre <+: cmds ∧ (encodeStream pre).length = n := by
  obtain ⟨done, hdone, rfl⟩ := h
  refine ⟨cmds.take done.length, List.take_prefix _ _, ?_⟩
  have htake : done = (cmds.take done.length).map ClientCommand.encode := by
    rw [List.map_take, ← List.prefix_iff_eq_take]
    exact hdone
  rw [encodeStream, List.flatMap_def, ← htake]

theorem Joined.le {o offset : Int} {conns : List Connection} (h : Joined o offset conns) :
    o ≤ offset := by
  have hlinked : ∀ {c : Connection} {rest : List Connection},
      Linked o (c :: rest) → o ≤ c.offset := by
    intro c rest h
    generalize hconns : c :: rest = conns at h
    induction h generalizing c rest with
    | first hoffset =>
        obtain ⟨rfl, -⟩ := List.cons.inj hconns
        omega
    | next hrest hfrom hto ih =>
        obtain ⟨rfl, -⟩ := List.cons.inj hconns
        have hle := ih rfl
        omega
  cases h with
  | none hoffset => omega
  | some h hfrom hto =>
      have hle := hlinked h
      omega

section Run

variable {runId : Text} {start : Int} {pieces : List Bytes} {ops : List InputOp} {t : Sys}
  {cmds : List ClientCommand} {κ ν : Type} {o : Int} {f : Forwarder}

/-- Each connection was opened between two commands, and carries what comes then. -/
theorem CatchingUp.opened (h : CatchingUp runId start pieces ops t)
    (hcut : ∀ n, IsCut pieces n → IsCut (cmds.map ClientCommand.encode) n) :
    ∀ d ∈ connectionsOf t.log, ∃ pre, pre <+: cmds ∧
      d.offset = start + (encodeStream pre).length := by
  intro d hd
  obtain ⟨n, hn, hoffset, -⟩ := h.cutting.connected d.offset (connected_mem hd)
  obtain ⟨pre, hpre, rfl⟩ := exists_prefix_of_isCut (hcut n hn)
  exact ⟨pre, hpre, hoffset⟩

theorem CatchingUp.arrived_subset (h : CatchingUp runId start pieces ops t)
    (hpieces : pieces.flatten <+: encodeStream cmds)
    (hcut : ∀ n, IsCut pieces n → IsCut (cmds.map ClientCommand.encode) n) :
    ∀ d ∈ connectionsOf t.log, arrived d.bytes ⊆ cmds := by
  intro d hd
  obtain ⟨pre, ⟨more, rfl⟩, hoffset⟩ := h.opened hcut d hd
  rcases h.carrying.phase with ⟨-, hempty⟩ | ⟨-, ⟨w, -, hfeeding⟩, hconns⟩
  · rw [hempty] at hd
    cases hd
  · obtain ⟨rest, hrest⟩ := hfeeding.begins.trans hpieces
    have hcarries := (hconns d hd).append rest
    rw [hrest] at hcarries
    have hbegins := (arrived_spec d.bytes).beginning (hcarries.rest hoffset)
    exact fun cmd hcmd => List.mem_append_right pre (hbegins.subset hcmd)

/-- At the end of the segment all is as after one execution of what it holds. -/
theorem CatchingUp.landed_eq (h : CatchingUp runId start pieces ops t)
    (hpieces : pieces.flatten <+: encodeStream cmds)
    (hcut : ∀ n, IsCut pieces n → IsCut (cmds.map ClientCommand.encode) n)
    (hzero : ZeroOnly cmds) (hleader : t.leader = .forwarding o f)
    (hlisted : listed t.storer.dataSet.aofSegments runId ≠ []) {file : Bytes}
    (hfile : t.storer.disk.contents (aofPath runId start) = file)
    (hend : f.offset = start + file.length) (writes : Nat × ClientCommand → κ → Option ν)
    (before : κ → ν) :
    ∃ skipped log, skipped ++ log <+: cmds ∧ o = start + (encodeStream skipped).length ∧
      file = encodeStream (skipped ++ log) ∧
      landed writes before (connectionsOf t.log)
        = replay writes before (executed 0 log) := by
  obtain ⟨hjoined, n, hn, ho, -⟩ := h.joined o f hleader
  obtain ⟨skipped, hskipped, rfl⟩ := exists_prefix_of_isCut (hcut n hn)
  rcases h.carrying.phase with ⟨hearly, -⟩ | ⟨-, ⟨w, -, hfeeding⟩, hconns⟩
  · exact absurd (hearly.segments runId) hlisted
  · rw [hfile] at hfeeding hconns
    obtain ⟨there, hthere, hlength⟩ := exists_prefix_of_isCut (hcut _ hfeeding.isCut)
    obtain rfl : file = encodeStream there :=
      (List.prefix_of_prefix_length_le (hfeeding.begins.trans hpieces)
        (encodeStream_mono hthere) (by omega)).eq_of_length hlength.symm
    have hle := hjoined.le
    obtain ⟨log, rfl⟩ := prefix_of_length_le hskipped hthere (by omega)
    exact ⟨skipped, log, hthere, ho, rfl,
      landed_of_joined hjoined hconns (h.opened hcut) ho hthere hzero hend before⟩

/-- What there is of a stream comes in pieces that end where commands do. Without a
stream there is nothing that could be cut. -/
theorem exists_pieces (self : RedisInput) {a : Answer} {aofPieces : List Bytes}
    (haof : a.aof = encodeStream cmds) (hflatten : aofPieces.flatten = a.aof)
    (hcut : ∀ n, IsCut aofPieces n → IsCut (cmds.map ClientCommand.encode) n) :
    ∃ pieces, (a.stream self aofPieces = [] ∨
        a.stream self aofPieces = streamEffects self.runId (a.offset self) pieces) ∧
      pieces.flatten <+: encodeStream cmds ∧
      ∀ n, IsCut pieces n → IsCut (cmds.map ClientCommand.encode) n := by
  by_cases hstreams : a.Streams
  · refine ⟨aofPieces, .inr ?_, ?_, hcut⟩
    · rw [Answer.stream, if_pos hstreams]
    · rw [hflatten, haof]
  · refine ⟨[], .inl ?_, List.nil_prefix, fun n hn => ?_⟩
    · rw [Answer.stream, if_neg hstreams]
    · obtain ⟨done, hdone, rfl⟩ := hn
      obtain rfl := List.prefix_nil.1 hdone
      exact isCut_zero

end Run

/-- Whatever fails while a session is forwarded, as long as its leader waits for the
reply, its reads end where commands do, and the commands, in database 0, store values
whatever was there: at any time a key of the target holds what it held before or what
a command stores, and where the task is at the end of its segment, all keys hold what
one execution of the stream leaves from the place that the leader loaded. -/
theorem target_catches_up (self : RedisInput) (a : Answer) {cmds : List ClientCommand}
    (haof : a.aof = encodeStream cmds) (hzero : ZeroOnly cmds) {incoming : List TcpRead}
    (hreply : incoming.flatMap Subtype.val = a.reply) (hstart : IsI64 (a.offset self))
    (hreads : ∀ n, IsCut (incoming.map Subtype.val) (a.lead + n) →
      IsCut (cmds.map ClientCommand.encode) n)
    (disk : Disk) (hasManager : Bool) {acts : List Act} {t : Sys}
    (hrun : (Sys.init (.new disk) hasManager (self.effects 0 incoming)).Runs
      (LoadsAfter (self.effects 0 incoming) (a.storesBefore self)) acts t)
    {o : Int} {f : Forwarder} (hleader : t.leader = .forwarding o f) {κ ν : Type}
    (writes : Nat × ClientCommand → κ → Option ν) (before : κ → ν) :
    (∀ k, landed writes before (connectionsOf t.log) k = before k ∨
      ∃ cmd ∈ cmds,
        writes (0, cmd) k = some (landed writes before (connectionsOf t.log) k)) ∧
    ∀ file, listed t.storer.dataSet.aofSegments self.runId ≠ [] →
      t.storer.disk.contents (aofPath self.runId (a.offset self)) = file →
      f.offset = a.offset self + file.length →
      ∃ skipped log, skipped ++ log <+: cmds ∧
        o = a.offset self + (encodeStream skipped).length ∧
        file = encodeStream (skipped ++ log) ∧
        landed writes before (connectionsOf t.log)
          = replay writes before (executed 0 log) := by
  obtain ⟨rdbPieces, aofPieces, hpieces, heffects⟩ := effects_answer self a hreply
  generalize self.effects 0 incoming = ops at heffects hrun
  have hops := heffects.trans (handshake_append_stream self rdbPieces aofPieces a)
  have hcut := hpieces.isCut a.lead (by rw [hreply, length_reply])
  obtain ⟨pieces, hstream, hbegins, hpiecesCut⟩ := exists_pieces self haof hpieces.flatten
    fun n hn => ((hcut n).1 hn).elim (fun hzero => hzero ▸ isCut_zero) (hreads n)
  have hfinal := hrun.invariant
    (fun s act t h hafter hstep =>
      h.step (loadsOnCut hstart hops heffects hstream) hstart hafter hstep)
    (catchingUp_init (early_init self hops hstream disk hasManager))
  refine ⟨landed_origin (hfinal.arrived_subset hbegins hpiecesCut) hzero before, ?_⟩
  intro file hlisted hfile hend
  exact hfinal.landed_eq hbegins hpiecesCut hzero hleader hlisted hfile hend writes before

def setResync : FullResync := { sampleResync with aof := encodeStream [setKey] }

def setReads : List TcpRead := [⟨setResync.reply, by decide⟩]

/-- The connection breaks in the middle of the command, and the next one begins with
it again. -/
def setActs : List Act :=
  promptActs ++ List.replicate 4 (.input 0) ++ [.forward .check, .forward .open,
    .forward .connected, .forward (.read 27), .forward (.writeFailed 9), .forward .check,
    .forward .open, .forward .connected, .forward (.read 27), .forward .wrote,
    .forward (.finish false 0)]

def setStart : Sys := .init (.new ∅) true (freshInput.effects 0 setReads)

/-- `SET` stores its last argument under its first. -/
def setWrites : Nat × ClientCommand → Bytes → Option Bytes
  | (_, [_, key, value]), k => if k = key then some value else none
  | _, _ => none

theorem target_catches_up_setKey :
    landed setWrites (fun _ => []) (connectionsOf (setStart.after setActs).log)
      (asBytes "k".toList) = asBytes "v".toList := by
  have hrun : setStart.Runs (LoadsAfter (freshInput.effects 0 setReads)
      ((Answer.fullResync setResync).storesBefore freshInput)) setActs
      (setStart.after setActs) := Sys.runs_after (by decide +kernel)
  have hreads : ∀ n, IsCut (setReads.map Subtype.val)
      ((Answer.fullResync setResync).lead + n) →
      IsCut ([setKey].map ClientCommand.encode) n := by
    intro n hn
    have hlead : (Answer.fullResync setResync).lead = 22 := by decide +kernel
    have hlen : setResync.reply.length = 49 := by decide +kernel
    rw [hlead, setReads, List.map_cons, List.map_nil, isCut_cons, hlen] at hn
    rcases hn with hn | ⟨m, hm, hn⟩
    · omega
    · have hzero := hm.le_length
      rw [List.flatten_nil, List.length_nil] at hzero
      obtain rfl : n = 27 := by omega
      decide +kernel
  have hleader : (setStart.after setActs).leader
      = .forwarding 5 { Forwarder.new 32 true with hasStream := true } := by decide +kernel
  obtain ⟨-, hcaught⟩ := target_catches_up freshInput (.fullResync setResync) rfl
    (by simp [ZeroOnly, setKey, ClientCommand.selects]) (List.append_nil _) (by decide) hreads
    ∅ true hrun hleader setWrites fun _ => []
  obtain ⟨skipped, log, -, ho, hfile, hlanded⟩ :=
    hcaught (encodeStream [setKey]) (by decide +kernel) (by decide +kernel) (by decide +kernel)
  have hlog := encodeStream_injective hfile
  cases skipped with
  | nil =>
      rw [hlanded, ← List.nil_append log, ← hlog]
      decide +kernel
  | cons cmd skipped =>
      have hpos := List.length_pos_of_ne_nil (encode_ne_nil cmd)
      simp only [Answer.offset, setResync, sampleResync, encodeStream_cons,
        List.length_append] at ho
      omega

end RedisHaTool.Syncer
