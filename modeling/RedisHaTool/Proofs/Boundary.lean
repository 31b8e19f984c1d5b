import RedisHaTool.Proofs.Availability
import RedisHaTool.Proofs.Handshake
import RedisHaTool.Proofs.Phases
import RedisHaTool.Proofs.Saves

/-!
# Where the stream is cut

`receive_aof_stream` flushes whatever one read of the socket has answered, and
`send_aof_data` ends at the end of the file. So the file always ends where a
read ended, and every offset the forwarding task takes up, saves or connects at
is such a place. It is the end of a command exactly when the reads are: nothing
between the socket and the checkpoint knows what a command is.
-/

namespace RedisHaTool.Syncer

open Lib Store Checkpoint Resp

/-! ## The stream, read by read -/

/-- What is left of the stream's effects after a piece is flushed. -/
def countEffects (start received : Int) (pieces : List Bytes) : List InputOp :=
  if IsI64 (start + received) then
    .storePsyncOffset (start + received) :: aofEffects start received pieces
  else []

theorem aofEffects_cons (start received : Int) (piece : Bytes) (pieces : List Bytes) :
    aofEffects start received (piece :: pieces)
      = .writeAof piece :: .flushAof
        :: countEffects start (received + piece.length) pieces := rfl

/-- How far the input task is with the pieces: before the next, between writing
one and flushing it, or before counting it. -/
inductive Feeding (start : Int) (pieces : List Bytes) (w : BufWriter) (file : Bytes) :
    List InputOp → Prop where
  | next (done rest : List Bytes) (hpieces : pieces = done ++ rest) (hbuf : w.buf = [])
      (hfile : file = done.flatten) :
      Feeding start pieces w file (aofEffects start done.flatten.length rest)
  | written (done : List Bytes) (piece : Bytes) (rest : List Bytes)
      (hpieces : pieces = done ++ [piece] ++ rest)
      (hall : file ++ w.buf = (done ++ [piece]).flatten)
      (hfile : w.buf = [] ∨ file = done.flatten) :
      Feeding start pieces w file
        (.flushAof :: countEffects start (done ++ [piece]).flatten.length rest)
  | flushed (done rest : List Bytes) (hpieces : pieces = done ++ rest) (hbuf : w.buf = [])
      (hfile : file = done.flatten) :
      Feeding start pieces w file (countEffects start done.flatten.length rest)
  | stopped (done rest : List Bytes) (hpieces : pieces = done ++ rest) (hbuf : w.buf = [])
      (hfile : file = done.flatten) : Feeding start pieces w file []

/-- The file ends where a piece does. -/
theorem Feeding.isCut {start : Int} {pieces : List Bytes} {w : BufWriter} {file : Bytes}
    {input : List InputOp} (h : Feeding start pieces w file input) :
    IsCut pieces file.length := by
  cases h with
  | next done rest hpieces _ hfile => exact hfile ▸ isCut_append hpieces
  | written done piece rest hpieces hall hfile =>
      rcases hfile with hbuf | hfile
      · rw [hbuf, List.append_nil] at hall
        exact hall ▸ isCut_append hpieces
      · rw [List.append_assoc] at hpieces
        exact hfile ▸ isCut_append hpieces
  | flushed done rest hpieces _ hfile => exact hfile ▸ isCut_append hpieces
  | stopped done rest hpieces _ hfile => exact hfile ▸ isCut_append hpieces

/-- A write to an empty buffer stays there whole, or goes to the file whole. -/
theorem BufWriter.write_whole {w : BufWriter} (hbuf : w.buf = []) (bs : Bytes)
    (disk : Disk) :
    (w.write bs disk).1.buf = [] ∨
      (w.write bs disk).2.contents w.path = disk.contents w.path := by
  by_cases hroom : BufWriter.capacity < bs.length
  · have hbig : BufWriter.capacity ≤ bs.length := Nat.le_of_lt hroom
    simp [BufWriter.write, BufWriter.flush, hbuf, hroom, hbig]
  · by_cases hbig : BufWriter.capacity ≤ bs.length <;>
      simp [BufWriter.write, hbuf, hroom, hbig]

/-- An offset at a place where the pieces are cut. -/
def OnCut (start : Int) (pieces : List Bytes) (o : Int) : Prop :=
  ∃ n, IsCut pieces n ∧ o = start + n ∧ IsI64 o

/-- An effect of the stream carries the input task on. -/
theorem Feeding.step {path : Path} {start : Int} {pieces : List Bytes} {s : Sys}
    {op : InputOp} {ops : List InputOp} {w : BufWriter} (now : Nat) (hpath : w.path = path)
    (hwriter : s.aofWriter = some w)
    (h : Feeding start pieces w (s.storer.disk.contents path) (op :: ops)) :
    ∃ w', (s.perform now op).aofWriter = some w' ∧
      Feeding start pieces w' ((s.perform now op).storer.disk.contents path) ops := by
  subst hpath
  generalize hinput : op :: ops = input at h
  cases h with
  | next done rest hpieces hbuf hfile =>
      cases rest with
      | nil => cases hinput
      | cons piece rest =>
          rw [aofEffects_cons] at hinput
          obtain ⟨rfl, rfl⟩ := List.cons.inj hinput
          have hcontents := w.write_contents piece s.storer.disk
          have hwhole := BufWriter.write_whole hbuf piece s.storer.disk
          rw [hbuf, List.append_nil, hfile] at hcontents
          rw [hfile] at hwhole
          refine ⟨(w.write piece s.storer.disk).1, ?_, ?_⟩
          · simp only [Sys.perform, Sys.writeAof, hwriter]
          · simp only [Sys.perform, Sys.writeAof, hwriter]
            have hlen : ((done.flatten.length : Nat) : Int) + piece.length
                = ((done ++ [piece]).flatten.length : Nat) := by simp
            rw [hlen]
            exact .written done piece rest (by simpa using hpieces) (by simpa using hcontents)
              hwhole
  | written done piece rest hpieces hall hfile =>
      obtain ⟨rfl, rfl⟩ := List.cons.inj hinput
      have hcontents := w.flush_contents s.storer.disk
      refine ⟨(w.flush s.storer.disk).1, ?_, ?_⟩
      · simp only [Sys.perform, Sys.flushAof, hwriter]
      · simp only [Sys.perform, Sys.flushAof, hwriter]
        exact .flushed (done ++ [piece]) rest hpieces rfl (hcontents.trans hall)
  | flushed done rest hpieces hbuf hfile =>
      rw [countEffects] at hinput
      split at hinput
      · next hi64 =>
          obtain ⟨rfl, rfl⟩ := List.cons.inj hinput
          exact ⟨w, hwriter, .next done rest hpieces hbuf hfile⟩
      · cases hinput
  | stopped => cases hinput

/-! ## Every offset in sight -/

/-- The phases of a session, the segment's file ending at a cut. -/
def Fitting (runId : Text) (start : Int) (pieces : List Bytes) (s : Sys) : Prop :=
  Early runId start pieces s ∨
    Streaming (aofPath runId start) start s ∧ ∃ w, s.aofWriter = some w ∧
      Feeding start pieces w (s.storer.disk.contents (aofPath runId start)) s.input

/-- The segment stays, and is fed on. -/
theorem Streaming.feeding_step {runId : Text} {start : Int} {pieces : List Bytes} {s t : Sys}
    {act : Act} (h : Streaming (aofPath runId start) start s) {w : BufWriter}
    (hwriter : s.aofWriter = some w)
    (hfeeding : Feeding start pieces w (s.storer.disk.contents (aofPath runId start)) s.input)
    (hstep : s.Stepped act t) :
    Streaming (aofPath runId start) start t ∧ ∃ w, t.aofWriter = some w ∧
      Feeding start pieces w (t.storer.disk.contents (aofPath runId start)) t.input := by
  refine ⟨h.step hstep, ?_⟩
  cases hstep with
  | input op ops now hinput =>
      rw [perform_input]
      exact Feeding.step (s := { s with input := ops }) now (h.writer w hwriter) hwriter
        (hinput ▸ hfeeding)
  | _ => exact ⟨w, hwriter, hfeeding⟩

theorem Opened.feeding {runId : Text} {start : Int} {pieces : List Bytes} {s : Sys}
    (h : Opened runId start pieces s) : ∃ w, s.aofWriter = some w ∧
      Feeding start pieces w (s.storer.disk.contents (aofPath runId start)) s.input := by
  refine ⟨_, h.writer, ?_⟩
  rw [h.contents, h.input]
  exact .next [] pieces rfl rfl rfl

theorem Fitting.step {runId : Text} {start : Int} {pieces : List Bytes} {s t : Sys}
    {act : Act} (h : Fitting runId start pieces s) (hstep : s.Stepped act t) :
    Fitting runId start pieces t := by
  rcases h with h | ⟨hstreaming, w, hwriter, hfeeding⟩
  · rcases h.step hstep with h | ⟨h, -⟩
    · exact .inl h
    · exact .inr ⟨h.streaming, h.feeding⟩
  · exact .inr (hstreaming.feeding_step hwriter hfeeding hstep)

/-- An RDB file that is sent ends at the start. -/
theorem Fitting.sendRdb {runId : Text} {start : Int} {pieces : List Bytes} {s : Sys}
    (h : Fitting runId start pieces s) {o : Int} {f : Forwarder}
    (hleader : s.leader = .forwarding o f) {r : RdbReader} (hpc : f.pc = .sendRdb r) :
    f.offset + r.size = start := by
  rcases h with h | ⟨h, -⟩
  · have hplaced := (h.task o f hleader).2
    rw [Placed, hpc] at hplaced
    exact hplaced.2
  · have hplaced := h.placed o f hleader
    rw [Placed, hpc] at hplaced
    exact hplaced.2

/-- A call that has sent something ends where the file does. -/
theorem Fitting.read {runId : Text} {start : Int} {pieces : List Bytes} {s : Sys}
    (h : Fitting runId start pieces s) {o : Int} {f : Forwarder}
    (hleader : s.leader = .forwarding o f) {r : AofReader} {sent : Nat}
    (hpc : f.pc = .read r sent) (hsent : sent ≠ 0)
    (hend : r.remaining s.storer.disk = []) (hi64 : IsI64 (f.offset + sent)) :
    OnCut start pieces (f.offset + sent) := by
  rcases h with h | ⟨h, w, -, hfeeding⟩
  · have hunread := (h.task o f hleader).1
    simp only [Forwarder.Unread, hpc] at hunread
  · have hplaced := h.placed o f hleader
    rw [Placed, hpc] at hplaced
    obtain ⟨hat, hle⟩ := hplaced
    rw [AofReader.remaining, hat.path_eq, List.drop_eq_nil_iff] at hend
    have hfilePos := hat.filePos_eq
    have hle := hle hsent
    refine ⟨_, hfeeding.isCut, ?_, hi64⟩
    omega

/-- Everything the task stands at, has shown or is about to save is at a cut. -/
structure Cutting (runId : Text) (start : Int) (pieces : List Bytes) (ops : List InputOp)
    (s : Sys) : Prop where
  phase : Fitting runId start pieces s
  stored : Stored ops s
  task : ∀ o f, s.leader = .forwarding o f →
    OnCut start pieces f.offset ∧ f.Pending (OnCut start pieces)
  saved : SavesIn (fun _ => OnCut start pieces) s.log
  connected : ∀ o, .connected o ∈ s.log → OnCut start pieces o

/-- What a load can find, as long as it comes after so many stores. -/
def LoadsOnCut (start : Int) (pieces : List Bytes) (ops : List InputOp) (n : Nat) : Prop :=
  ∀ pre post, ops = pre ++ post → n ≤ stores pre → OnCut start pieces (lastStore 0 pre)

/-- The leader loads after so many stores. -/
def LoadsAfter (ops : List InputOp) (n : Nat) (s : Sys) : Act → Prop
  | .start => n ≤ storesDone ops s
  | _ => True

instance (ops : List InputOp) (n : Nat) (s : Sys) : DecidablePred (LoadsAfter ops n s)
  | .start => inferInstanceAs (Decidable (n ≤ storesDone ops s))
  | .input _ | .listen | .timeout | .forward _ => .isTrue trivial

theorem NoLoad.loadsAfter (ops : List InputOp) (n : Nat) (s : Sys) (act : Act)
    (h : NoLoad s act) : LoadsAfter ops n s act := by
  cases act with
  | start => exact absurd rfl h
  | _ => trivial

theorem Cutting.step {runId : Text} {start : Int} {pieces : List Bytes}
    {ops : List InputOp} {n : Nat} (hloads : LoadsOnCut start pieces ops n)
    (hstart : IsI64 start) {s t : Sys} {act : Act} (h : Cutting runId start pieces ops s)
    (hafter : LoadsAfter ops n s act) (hstep : s.Stepped act t) :
    Cutting runId start pieces ops t := by
  have hphase := h.phase.step hstep
  have hstored := h.stored.step hstep
  cases hstep with
  | input op rest now hinput =>
      have htask : ∀ o f, ({ s with input := rest }.perform now op).leader = .forwarding o f →
          OnCut start pieces f.offset ∧ f.Pending (OnCut start pieces) := by
        intro o f hf
        obtain ⟨g, hg, rfl | rfl⟩ := forwarding_of_perform hf
        · exact h.task o f hg
        · obtain ⟨hoffset, hpending⟩ := h.task o g hg
          exact ⟨by simpa using hoffset, hpending.notified⟩
      rcases perform_log { s with input := rest } now op with heq | ⟨bs, -, heq⟩
      · refine ⟨hphase, hstored, htask, ?_, ?_⟩ <;> rw [heq]
        · exact h.saved
        · exact h.connected
      · refine ⟨hphase, hstored, htask, ?_, ?_⟩ <;> rw [heq]
        · exact h.saved.quiet (by simp)
        · exact fun o ho => h.connected o (by simpa using ho)
  | listen | timeout =>
      exact ⟨hphase, hstored, fun o f hf => (by cases hf), h.saved, h.connected⟩
  | start =>
      refine ⟨hphase, hstored, fun o f hf => ?_, h.saved, h.connected⟩
      obtain ⟨rfl, rfl⟩ := LeaderPc.forwarding.inj hf
      obtain ⟨pre, hpre, hvalue⟩ := h.stored
      refine ⟨?_, fun calls hpc => by cases hpc⟩
      have hcut := hloads pre s.input hpre ((storesDone_eq hpre) ▸ hafter)
      rwa [← hvalue] at hcut
  | forward o f f' act events hleader hstep =>
      obtain ⟨hoffset, hpending⟩ := h.task o f hleader
      have hrdb : ∀ r, f.pc = .sendRdb r → OnCut start pieces (f.offset + r.size) := by
        intro r hpc
        rw [h.phase.sendRdb hleader hpc]
        exact ⟨0, isCut_zero, by simp, hstart⟩
      have haof := fun (r : AofReader) (sent : Nat) (hpc : f.pc = .read r sent) =>
        h.phase.read hleader hpc
      obtain ⟨hsaved', hpending'⟩ := saves_stepped (P := fun _ => OnCut start pieces)
        (fun _ => rfl) (fun r hpc _ => hrdb r hpc) haof hstep h.saved hpending
      refine ⟨hphase, hstored, fun o' g hg => ?_, hsaved', fun o' ho => ?_⟩
      · obtain ⟨rfl, rfl⟩ := LeaderPc.forwarding.inj hg
        refine ⟨?_, hpending'⟩
        rcases hstep.offset_cases with
          heq | ⟨r, hpc, heq, -⟩ | ⟨r, sent, hpc, hsent, hend, heq, hi64⟩
        · exact heq ▸ hoffset
        · exact heq ▸ hrdb r hpc
        · exact heq ▸ haof r sent hpc hsent hend hi64
      · rcases List.mem_append.1 ho with ho | ho
        · exact h.connected o' ho
        · exact hstep.connected_mem ho ▸ hoffset

/-- An offset at which a connection starts, or that a checkpoint holds. -/
def ShowsOffset (log : List Event) (o : Int) : Prop :=
  .connected o ∈ log ∨
    ∃ id, .command (.hset checkpointKey (offsetField id) (intToString o)) ∈ log

theorem Cutting.shows {runId : Text} {start : Int} {pieces : List Bytes}
    {ops : List InputOp} {s : Sys} (h : Cutting runId start pieces ops s) {o : Int}
    (ho : ShowsOffset s.log o) : OnCut start pieces o := by
  rcases ho with ho | ⟨id, ho⟩
  · exact h.connected o ho
  · obtain ⟨pre, post, hlog⟩ := List.append_of_mem ho
    exact h.saved pre _ post hlog id o rfl

/-! ## What the leader loads -/

/-- A property of all that is stored is one of the last. -/
theorem lastStore_of_mem {P : Int → Prop} {ops : List InputOp} {value : Int}
    (hvalue : P value) (hops : ∀ v, .storePsyncOffset v ∈ ops → P v) :
    P (lastStore value ops) := by
  induction ops generalizing value with
  | nil => exact hvalue
  | cons op ops ih =>
      refine ih ?_ fun v hv => hops v (List.mem_cons_of_mem op hv)
      cases op with
      | storePsyncOffset v => exact hops v List.mem_cons_self
      | _ => exact hvalue

theorem onCut_of_mem_aofEffects {start : Int} {pieces rest : List Bytes} (done : List Bytes)
    (hpieces : pieces = done ++ rest) {v : Int}
    (hv : .storePsyncOffset v ∈ aofEffects start done.flatten.length rest) :
    OnCut start pieces v := by
  induction rest generalizing done with
  | nil => exact absurd hv List.not_mem_nil
  | cons piece rest ih =>
      rw [List.append_cons] at hpieces
      have hlen : ((done.flatten.length : Nat) : Int) + piece.length
          = ((done ++ [piece]).flatten.length : Nat) := by simp
      rw [aofEffects_cons, countEffects, hlen] at hv
      simp only [List.mem_cons, reduceCtorEq, false_or] at hv
      split at hv
      · next hi64 =>
          rcases List.mem_cons.1 hv with heq | hv
          · obtain rfl := InputOp.storePsyncOffset.inj heq
            exact ⟨_, isCut_append hpieces, rfl, hi64⟩
          · exact ih (done ++ [piece]) hpieces hv
      · exact absurd hv List.not_mem_nil

theorem stores_handshake (self : RedisInput) (rdbPieces : List Bytes) (a : Answer) :
    stores (a.handshake self rdbPieces) = a.storesBefore self := by
  have hrdb : stores (rdbPieces.map .writeRdb) = 0 := by
    rw [stores, List.countP_eq_zero]
    intro op hop
    obtain ⟨piece, -, rfl⟩ := List.mem_map.1 hop
    simp [InputOp.isStore]
  cases a with
  | fullResync f =>
      rw [Answer.handshake]
      split <;> simp [hrdb, InputOp.isStore, Answer.storesBefore]
  | continues c => simp [Answer.handshake, InputOp.isStore, Answer.storesBefore]

theorem loadsOnCut {self : RedisInput} {a : Answer} {ops stream : List InputOp}
    {rdbPieces aofPieces pieces : List Bytes} (hstart : IsI64 (a.offset self))
    (hops : ops = a.handshake self rdbPieces ++ stream)
    (heffects : ops = self.psyncEffects ++ a.effects self rdbPieces aofPieces)
    (hstream : stream = [] ∨ stream = streamEffects self.runId (a.offset self) pieces) :
    LoadsOnCut (a.offset self) pieces ops (a.storesBefore self) := by
  intro pre post hsplit hstores
  have hhandshake : lastStore 0 (a.handshake self rdbPieces) = a.offset self :=
    lastStore_offset (hops.symm.trans heffects) (stores_handshake self rdbPieces a)
  have hzero : OnCut (a.offset self) pieces (a.offset self) :=
    ⟨0, isCut_zero, by simp, hstart⟩
  have hcut : ∀ v, .storePsyncOffset v ∈ stream → OnCut (a.offset self) pieces v := by
    intro v hv
    rcases hstream with rfl | rfl
    · exact absurd hv List.not_mem_nil
    · rcases List.mem_cons.1 hv with heq | hv
      · cases heq
      · exact onCut_of_mem_aofEffects [] rfl hv
  rw [hops] at hsplit
  rcases List.append_eq_append_iff.1 hsplit with ⟨more, rfl, hmore⟩ | ⟨more, hmore, -⟩
  · rw [lastStore_append, hhandshake]
    exact lastStore_of_mem hzero fun v hv =>
      hcut v (hmore ▸ List.mem_append_left post hv)
  · have hsame : stores pre = stores (a.handshake self rdbPieces) := by
      have htotal := congrArg stores hmore
      rw [stores_append, stores_handshake] at htotal
      rw [stores_handshake]
      omega
    have hsplit' : pre ++ more = a.handshake self rdbPieces ++ [] := by
      rw [← hmore, List.append_nil]
    rw [lastStore_of_stores hsplit' hsame, hhandshake]
    exact hzero

theorem cutting_init {runId : Text} {start : Int} {pieces : List Bytes} {ops : List InputOp}
    {disk : Disk} {hasManager : Bool}
    (h : Early runId start pieces (Sys.init (.new disk) hasManager ops)) :
    Cutting runId start pieces ops (Sys.init (.new disk) hasManager ops) where
  phase := .inl h
  stored := ⟨[], rfl, rfl⟩
  task := fun o f hf => by cases hf
  saved := fun pre c post h => by simp [Sys.init] at h
  connected := fun o ho => absurd ho List.not_mem_nil

/-- Whatever a run of a session shows is at a cut of the pieces. -/
theorem onCut_of_shows {self : RedisInput} {a : Answer} {ops stream : List InputOp}
    {rdbPieces aofPieces pieces : List Bytes} (hstart : IsI64 (a.offset self))
    (hops : ops = a.handshake self rdbPieces ++ stream)
    (heffects : ops = self.psyncEffects ++ a.effects self rdbPieces aofPieces)
    (hstream : stream = [] ∨ stream = streamEffects self.runId (a.offset self) pieces)
    {disk : Disk} {hasManager : Bool} {acts : List Act} {t : Sys}
    (hrun : (Sys.init (.new disk) hasManager ops).Runs
      (LoadsAfter ops (a.storesBefore self)) acts t) {o : Int} (ho : ShowsOffset t.log o) :
    OnCut (a.offset self) pieces o := by
  have hloads := loadsOnCut hstart hops heffects hstream
  have hend := hrun.invariant
    (fun s act t h hafter hstep => h.step hloads hstart hafter hstep)
    (cutting_init (early_init self hops hstream disk hasManager))
  exact hend.shows ho

/-! ## A run to every cut -/

/-- The one segment holds `file`, all of it flushed. -/
structure Fed (runId : Text) (start : Int) (file : Bytes) (s : Sys) : Prop where
  segment : listed s.storer.dataSet.aofSegments runId
    = [{ path := aofPath runId start, offset := start, createdAt := 0 }]
  others : ∀ id, id ≠ runId → listed s.storer.dataSet.aofSegments id = []
  rdb : ∀ id, ∀ r ∈ listed s.storer.dataSet.rdbFiles id, r.offset + r.size = start
  disk : aofPath runId start ∈ s.storer.disk
  writer : s.aofWriter = some { path := aofPath runId start, buf := [] }
  contents : s.storer.disk.contents (aofPath runId start) = file

section Fed

variable {runId : Text} {start : Int} {file : Bytes} {s : Sys}

theorem Fed.findRdb (h : Fed runId start file s) {o : Int} (ho : start ≤ o) (id : Text) :
    s.storer.dataSet.findRdb id o = none :=
  findRdb_eq_none (h.rdb id) ho

theorem Fed.findAof (h : Fed runId start file s) {o : Int} (ho : start ≤ o) :
    s.storer.dataSet.findAof runId o
      = some { path := aofPath runId start, offset := start, createdAt := 0 } := by
  simp [DataSet.findAof, h.segment, ho]

theorem Fed.findAof_ne (h : Fed runId start file s) (o : Int) {id : Text} (hid : id ≠ runId) :
    s.storer.dataSet.findAof id o = none := by
  simp [DataSet.findAof, h.others id hid]

theorem Fed.mem_runIds (h : Fed runId start file s) : runId ∈ s.storer.dataSet.runIds :=
  Store.mem_runIds.2 (.inr (mem_keys_of_mem_listed (h.segment ▸ List.mem_cons_self)))

theorem Fed.getReader (h : Fed runId start file s) {o : Int} (ho : start ≤ o) :
    s.storer.getReader o = .ok (.aof ⟨aofPath runId start, (o - start).toNat, o, o⟩) := by
  have hself : s.storer.readerOf o runId
      = some (.ok (.aof ⟨aofPath runId start, (o - start).toNat, o, o⟩)) := by
    simp [FileStorer.readerOf, h.findRdb ho, h.findAof ho, AofReader.open, h.disk, ho,
      Except.map]
  rw [FileStorer.getReader, findSome?_eq_of_unique h.mem_runIds hself fun id hid => by
    simp [FileStorer.readerOf, h.findRdb ho, h.findAof_ne o hid]]
  rfl

theorem Fed.availableBytes (h : Fed runId start file s) {o : Int} (ho : start ≤ o)
    (hmore : o - start < file.length) : 0 < s.storer.availableBytes o := by
  have hself : s.storer.availableOf o runId = some (file.length - (o - start)) := by
    simp [FileStorer.availableOf, h.findRdb ho, h.findAof ho, h.disk, h.contents, hmore]
  rw [FileStorer.availableBytes, findSome?_eq_of_unique h.mem_runIds hself fun id hid => by
    simp [FileStorer.availableOf, h.findRdb ho, h.findAof_ne o hid]]
  simp only [Option.getD_some]
  omega

/-- The segment has just been created. -/
theorem Early.fed {pieces : List Bytes} (h : Early runId start pieces s)
    (input : List InputOp) :
    Fed runId start [] ({ s with input }.perform 0 (.getAofWriter runId start)) where
  segment := by
    simp [Sys.perform, FileStorer.getAofWriter, DataSet.addAof, listed_pushSorted_self,
      h.segments, aofPath]
  others := fun id hid => by
    simp [Sys.perform, FileStorer.getAofWriter, DataSet.addAof,
      listed_pushSorted_ne DataSetAof.offset _ hid, h.segments]
  rdb := h.rdb
  disk := (AList.mem_insert _).2 (.inl rfl)
  writer := rfl
  contents := contents_create_self s.storer.disk _

/-- Writing and flushing one piece. -/
theorem Fed.piece (h : Fed runId start file s) {piece : Bytes} {ops : List InputOp}
    (hinput : s.input = .writeAof piece :: .flushAof :: ops) :
    ∃ t, s.Runs NoLoad [.input 0, .input 0] t ∧ Fed runId start (file ++ piece) t ∧
      t.input = ops ∧ t.leader = s.leader.dataReady := by
  generalize hw : ({ path := aofPath runId start, buf := [] } : BufWriter) = w
  have hpath : w.path = aofPath runId start := by rw [← hw]
  have hbuf : w.buf = [] := by rw [← hw]
  have hwriter : s.aofWriter = some w := hw ▸ h.writer
  have hwrite := w.write_contents piece s.storer.disk
  have hflush := (w.write piece s.storer.disk).1.flush_contents (w.write piece s.storer.disk).2
  have hwpath := BufWriter.write_path w piece s.storer.disk
  have hmem := BufWriter.write_mem w piece h.disk
  rw [hbuf, List.append_nil, hpath, h.contents] at hwrite
  rw [hwpath, hpath, hwrite] at hflush
  have hstep := Sys.step_input 0 hinput
  generalize hmid : Sys.perform _ 0 (.writeAof piece) = mid at hstep
  have hmidinput : mid.input = .flushAof :: ops := by rw [← hmid, perform_input]
  refine ⟨_, .cons (by simp [NoLoad]) hstep
    (.cons (by simp [NoLoad]) (Sys.step_input 0 hmidinput) (.refl _)), ?_⟩
  subst hmid
  simp only [Sys.perform, Sys.writeAof, Sys.flushAof, hwriter]
  refine ⟨⟨h.segment, h.others, h.rdb, mem_append hmem, ?_, hflush⟩, trivial, trivial⟩
  simp only [BufWriter.flush, hwpath, hpath]

/-- Receiving piece after piece, the leader still waiting. -/
theorem Fed.pieces (hstart : IsI64 start) (rest done : List Bytes)
    (h : Fed runId start file s) (hleader : s.leader = .spawned)
    (hpsync : s.psyncOffset = start + file.length)
    (hinput : s.input = aofEffects start file.length (done ++ rest))
    (hi64 : IsI64 (start + (file ++ done.flatten).length)) :
    ∃ acts t, s.Runs NoLoad acts t ∧ Fed runId start (file ++ done.flatten) t ∧
      t.leader = .spawned ∧ t.psyncOffset = start + (file ++ done.flatten).length ∧
      t.input = aofEffects start (file ++ done.flatten).length rest := by
  induction done generalizing file s with
  | nil =>
      exact ⟨[], s, .refl s, by simpa using h, hleader, by simpa using hpsync,
        by simpa using hinput⟩
  | cons piece done ih =>
      rw [List.cons_append, aofEffects_cons, countEffects] at hinput
      have hlen : (file.length : Int) + piece.length = (file ++ piece).length := by simp
      rw [hlen] at hinput
      have hmid : IsI64 (start + (file ++ piece).length) := by
        simp only [IsI64, List.length_append, List.flatten_cons] at hstart hi64 ⊢
        omega
      rw [if_pos hmid] at hinput
      obtain ⟨u, hrun, hu, huinput, huleader⟩ := h.piece hinput
      have hstore := Sys.step_input 0 huinput
      obtain ⟨acts, t, hrun', ht⟩ := ih
        (s := { u with input := aofEffects start (file ++ piece).length (done ++ rest),
                       psyncOffset := start + (file ++ piece).length })
        ⟨hu.segment, hu.others, hu.rdb, hu.disk, hu.writer, hu.contents⟩
        (by rw [huleader, hleader]; rfl) rfl rfl (by simpa using hi64)
      refine ⟨_, t, hrun.append (.cons (by simp [NoLoad]) hstore hrun'), ?_⟩
      simpa using ht

end Fed

/-- A task that has just been spawned connects where it was told to start. -/
theorem runs_connected {s : Sys} {o : Int} {hasManager : Bool} {r : AofReader}
    (hleader : s.leader = .forwarding o (.new o hasManager))
    (havailable : 0 < s.storer.availableBytes o)
    (hreader : s.storer.getReader o = .ok (.aof r)) :
    ∃ t, s.Runs NoLoad [.forward .check, .forward .open, .forward .connected] t ∧
      t.log = s.log ++ [.connected o] := by
  have hcheck : (Forwarder.new o hasManager).step s.storer s.masterReplid .check
      = some ({ Forwarder.new o hasManager with pc := .open }, []) := by
    simp [Forwarder.step, Forwarder.new, havailable]
  have hopen : ({ Forwarder.new o hasManager with pc := .open } : Forwarder).step s.storer
      s.masterReplid .open = some ({ Forwarder.new o hasManager with pc := .connect r }, []) := by
    simp [Forwarder.step, Forwarder.new, hreader, Forwarder.afterReader]
  have hconnected : ({ Forwarder.new o hasManager with pc := .connect r } : Forwarder).step
      s.storer s.masterReplid .connected = some
        ({ Forwarder.new o hasManager with hasStream := true, pc := .read r 0 },
          [.connected o]) := rfl
  refine ⟨_, .cons (by simp [NoLoad]) (Sys.step_forward hleader hcheck)
    (.cons (by simp [NoLoad]) (Sys.step_forward rfl hopen)
      (.cons (by simp [NoLoad]) (Sys.step_forward rfl hconnected) (.refl _))), ?_⟩
  simp only [List.append_nil]

/-- The leader can load what has been received so far, and its task connects
there as soon as the next piece has come in. -/
theorem Fed.connects {runId : Text} {start : Int} {done piece : Bytes} {s : Sys}
    (h : Fed runId start done s) (hne : piece ≠ []) {n : Nat} {ops rest : List InputOp}
    (hleader : s.leader = .spawned) (hpsync : s.psyncOffset = start + done.length)
    (hinput : s.input = .writeAof piece :: .flushAof :: rest)
    (hstores : n ≤ storesDone ops s) :
    ∃ acts t, s.Runs (LoadsAfter ops n) acts t ∧
      .connected (start + done.length) ∈ t.log := by
  have hlisten : s.step .listen = some { s with leader := .listening } := by
    simp only [Sys.step, hleader]
  have htimeout : ({ s with leader := .listening } : Sys).step .timeout
      = some { s with leader := .ready } := rfl
  have hload : ({ s with leader := .ready } : Sys).step .start = some { s with
      hasManager := false
      leader := .forwarding s.psyncOffset (.new s.psyncOffset s.hasManager) } := rfl
  have hfed : Fed runId start done { s with
      hasManager := false
      leader := .forwarding s.psyncOffset (.new s.psyncOffset s.hasManager) } :=
    ⟨h.segment, h.others, h.rdb, h.disk, h.writer, h.contents⟩
  obtain ⟨u, hrun, hu, -, huleader⟩ := hfed.piece hinput
  have hforwarding : u.leader = .forwarding (start + done.length)
      (.new (start + done.length) s.hasManager) := by
    rw [huleader, hpsync]
    rfl
  have hle : start ≤ start + (done.length : Int) := by omega
  have hmore : start + (done.length : Int) - start < (done ++ piece).length := by
    have hpos := List.length_pos_of_ne_nil hne
    rw [List.length_append]
    omega
  obtain ⟨t, hrun', hlog⟩ := runs_connected hforwarding (hu.availableBytes hle hmore)
    (hu.getReader hle)
  have hwait := (NoLoad.loadsAfter ops n s .listen) (by simp [NoLoad])
  have hwait' := (NoLoad.loadsAfter ops n { s with leader := .listening } .timeout)
    (by simp [NoLoad])
  have hafter : LoadsAfter ops n { s with leader := .ready } .start := hstores
  refine ⟨_, t, .cons hwait hlisten (.cons hwait' htimeout
    (.cons hafter hload ((hrun.append hrun').mono (NoLoad.loadsAfter ops n)))), ?_⟩
  rw [hlog]
  exact List.mem_append_right _ List.mem_cons_self

/-- There is a run that connects at any cut with a piece after it. -/
theorem exists_connected {self : RedisInput} {a : Answer} {ops : List InputOp}
    {rdbPieces aofPieces done rest : List Bytes} {piece : Bytes}
    (hstart : IsI64 (a.offset self)) (hpieces : aofPieces = done ++ piece :: rest)
    (hops : ops = a.handshake self rdbPieces
      ++ streamEffects self.runId (a.offset self) aofPieces)
    (heffects : ops = self.psyncEffects ++ a.effects self rdbPieces aofPieces)
    (hne : piece ≠ []) (hi64 : IsI64 (a.offset self + done.flatten.length)) (disk : Disk)
    (hasManager : Bool) :
    ∃ acts t, (Sys.init (.new disk) hasManager ops).Runs
      (LoadsAfter ops (a.storesBefore self)) acts t ∧
      .connected (a.offset self + done.flatten.length) ∈ t.log := by
  have hearly := early_init self hops (.inr rfl) disk hasManager
  have hnoLoad := NoLoad.loadsAfter ops (a.storesBefore self)
  -- The handshake is over, and `psync_offset` holds the offset of the reply.
  obtain ⟨acts0, s0, hrun0, hinput0, hleader0⟩ := Sys.exists_runs_inputs
    (s := Sys.init (.new disk) hasManager ops) rfl hops
  have hearly0 : Early self.runId (a.offset self) aofPieces s0 := by
    refine (hrun0.phases hearly).resolve_right fun hstreaming => ?_
    have hmem : .getAofWriter self.runId (a.offset self) ∈ s0.input := by
      rw [hinput0]
      exact List.mem_cons_self
    exact hstreaming.input _ hmem
  obtain ⟨pre, hpre, hvalue⟩ : Stored ops s0 := hrun0.invariant
    (I := Stored ops) (fun s act t h _ hstep => h.step hstep) ⟨[], rfl, rfl⟩
  obtain rfl : a.handshake self rdbPieces = pre :=
    List.append_cancel_right (hops.symm.trans (hinput0 ▸ hpre))
  rw [lastStore_offset (hops.symm.trans heffects) (stores_handshake self rdbPieces a)] at hvalue
  -- The segment is created and the pieces up to the cut are received.
  have hcreate := Sys.step_input 0 hinput0
  have hfed := hearly0.fed (aofEffects (a.offset self) 0 aofPieces)
  obtain ⟨acts1, s1, hrun1, hfed1, hleader1, hpsync1, hinput1⟩ :=
    hfed.pieces hstart (piece :: rest) done hleader0 (by simpa [Sys.perform] using hvalue)
      (by rw [perform_input, hpieces]; rfl) (by simpa using hi64)
  rw [List.nil_append] at hfed1 hpsync1 hinput1
  have hstores : a.storesBefore self ≤ storesDone ops s1 := by
    have hsuffix := hrun1.input_suffix
    rw [perform_input] at hsuffix
    have hle : stores s1.input ≤ stores (aofEffects (a.offset self) 0 aofPieces) :=
      hsuffix.sublist.countP_le
    rw [storesDone, hops, stores_append, stores_handshake, streamEffects, stores_cons]
    omega
  rw [aofEffects_cons] at hinput1
  obtain ⟨acts2, t, hrun2, hconnected⟩ :=
    hfed1.connects hne hleader1 hpsync1 hinput1 hstores
  exact ⟨_, t, (hrun0.mono hnoLoad).append (.cons (hnoLoad s0 (.input 0) (by simp [NoLoad])) hcreate
    ((hrun1.mono hnoLoad).append hrun2)), hconnected⟩

/-! ## Command boundaries -/

/-- The bytes of the stream before the offset are a whole number of commands. -/
def IsBoundary (start : Int) (cmds : List RespValue) (o : Int) : Prop :=
  ∃ n, IsCut (cmds.map encodeValue) n ∧ o = start + n

/-- How much of a reply comes before the stream. -/
def Answer.lead (a : Answer) : Nat := a.reply.length - a.aof.length

theorem length_reply (a : Answer) : a.reply.length = a.lead + a.aof.length := by
  have hsuffix : a.aof <:+ a.reply := by
    cases a with
    | fullResync f => exact List.suffix_append _ f.aof
    | continues c => exact List.suffix_append _ c.aof
  exact (Nat.sub_add_cancel hsuffix.length_le).symm

/-- In the runs in which the leader waits for the reply, every offset that is
shown is a boundary if and only if every read of the stream ends at one. -/
theorem isBoundary_shown_iff (self : RedisInput) (a : Answer) (cmds : List RespValue)
    (hcmds : a.aof = encodeBatch cmds) (incoming : List TcpRead)
    (hreply : incoming.flatMap Subtype.val = a.reply) (hstart : IsI64 (a.offset self))
    (disk : Disk) (hasManager : Bool) :
    (∀ acts t, (Sys.init (.new disk) hasManager (self.effects 0 incoming)).Runs
        (LoadsAfter (self.effects 0 incoming) (a.storesBefore self)) acts t →
      ∀ o, ShowsOffset t.log o → IsBoundary (a.offset self) cmds o) ↔
    (a.Streams → ∀ n, IsCut (incoming.map Subtype.val) (a.lead + n) →
      IsI64 (a.offset self + n) → IsCut (cmds.map encodeValue) n) := by
  obtain ⟨rdbPieces, aofPieces, hpieces, heffects⟩ := effects_answer self a hreply
  generalize self.effects 0 incoming = ops at heffects ⊢
  have hops := heffects.trans (handshake_append_stream self rdbPieces aofPieces a)
  have hcut := hpieces.isCut a.lead (by rw [hreply, length_reply])
  constructor
  · intro h hstreams n hread hi64
    rw [Answer.stream, if_pos hstreams] at hops
    rcases IsCut.next ((hcut n).2 (.inr hread)) with heq | ⟨done, piece, rest, heq, hn⟩
    · rw [heq, hpieces.flatten, hcmds, encodeBatch, List.flatMap_def]
      exact isCut_length
    · have hne : piece ≠ [] := (hpieces.sizes piece (by simp [heq])).1
      rw [← hn] at hi64
      obtain ⟨acts, t, hrun, hconnected⟩ :=
        exists_connected hstart heq hops heffects hne hi64 disk hasManager
      obtain ⟨m, hm, hmn⟩ := h acts t hrun _ (.inl hconnected)
      have hm' : m = n := by omega
      exact hm' ▸ hm
  · intro h acts t hrun o ho
    by_cases hstreams : a.Streams
    · rw [Answer.stream, if_pos hstreams] at hops
      obtain ⟨n, hn, rfl, hi64⟩ := onCut_of_shows hstart hops heffects (.inr rfl) hrun ho
      refine ⟨n, ?_, rfl⟩
      rcases (hcut n).1 hn with rfl | hread
      · exact isCut_zero
      · exact h hstreams n hread hi64
    · rw [Answer.stream, if_neg hstreams] at hops
      have honCut : OnCut (a.offset self) [] o :=
        onCut_of_shows hstart hops heffects (.inl rfl) hrun ho
      obtain ⟨n, ⟨done, hdone, hn⟩, rfl, -⟩ := honCut
      obtain rfl := List.prefix_nil.1 hdone
      exact ⟨n, hn ▸ isCut_zero, rfl⟩

/-- A source with one command to say. -/
def ping : RespValue := .array [.bulkString (asBytes "PING".toList)]

def pingResync : FullResync := { sampleResync with aof := encodeBatch [ping] }

/-- The reply in one read, or in two, the first of which ends in the command. -/
def pingReads : List TcpRead := [⟨pingResync.reply, by decide⟩]

def brokenReads : List TcpRead :=
  [⟨pingResync.reply.take 27, by decide⟩, ⟨pingResync.reply.drop 27, by decide⟩]

/-- What the first read of the stream has answered is forwarded and saved. -/
def savingActs (n : Nat) : List Act :=
  promptActs ++ List.replicate 4 (.input 0) ++ [.forward .check, .forward .open,
    .forward .connected, .forward (.read n), .forward .wrote, .forward (.finish true 0),
    .forward .saved]

def pingStart : Sys := .init (.new ∅) true (freshInput.effects 0 pingReads)

def brokenStart : Sys := .init (.new ∅) true (freshInput.effects 0 brokenReads)

theorem isBoundary_shown_iff_whole : IsBoundary 5 [ping] 19 :=
  have hrun : pingStart.Runs (LoadsAfter (freshInput.effects 0 pingReads)
      ((Answer.fullResync pingResync).storesBefore freshInput)) (savingActs 14)
      (pingStart.after (savingActs 14)) := Sys.runs_after (by decide +kernel)
  have hwhole : ∀ n, IsCut (pingReads.map Subtype.val)
      ((Answer.fullResync pingResync).lead + n) → IsCut [encodeValue ping] n := by
    intro n hn
    have hlead : (Answer.fullResync pingResync).lead = 22 := by decide +kernel
    have hlen : pingResync.reply.length = 36 := by decide +kernel
    rw [hlead, pingReads, List.map_cons, List.map_nil, isCut_cons, hlen] at hn
    rcases hn with hn | ⟨m, hm, hn⟩
    · omega
    · have hzero := hm.le_length
      rw [List.flatten_nil, List.length_nil] at hzero
      obtain rfl : n = 14 := by omega
      decide +kernel
  (isBoundary_shown_iff freshInput (.fullResync pingResync) [ping] rfl pingReads
    (List.append_nil _) (by decide) ∅ true).2 (fun _ n hn _ => hwhole n hn) _ _ hrun 19
    (.inr ⟨"a".toList, by decide +kernel⟩)

/-- Not every way to cut the stream leaves every checkpoint between two
commands. -/
theorem isBoundary_shown_broken :
    ¬ ∀ (self : RedisInput) (a : Answer) (cmds : List RespValue), a.aof = encodeBatch cmds →
      ∀ (incoming : List TcpRead), incoming.flatMap Subtype.val = a.reply →
      ∀ (disk : Disk) (hasManager : Bool) (acts : List Act) (t : Sys),
      (Sys.init (.new disk) hasManager (self.effects 0 incoming)).Runs Free acts t →
      ∀ o, ShowsOffset t.log o → IsBoundary (a.offset self) cmds o := by
  intro h
  have hrun : brokenStart.Runs Free (savingActs 5) (brokenStart.after (savingActs 5)) :=
    Sys.runs_free (by decide +kernel)
  obtain ⟨n, hn, heq⟩ := h freshInput (.fullResync pingResync) [ping] rfl brokenReads
    (by decide +kernel) ∅ true (savingActs 5) _ hrun 10
    (.inr ⟨"a".toList, by decide +kernel⟩)
  obtain rfl : n = 5 := by
    simp only [Answer.offset, pingResync, sampleResync] at heq
    omega
  exact absurd hn (by decide +kernel)

end RedisHaTool.Syncer
