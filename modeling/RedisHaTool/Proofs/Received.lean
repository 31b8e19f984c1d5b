import RedisHaTool.Proofs.Delivery
import RedisHaTool.Proofs.Handshake
import RedisHaTool.Proofs.Rotation

/-!
# What is received is what is on disk

Three reading loops share one buffered reader, and `Proofs.InputEffects` says
how they share it: the line, then pieces that add up to the RDB file, then
pieces that add up to the stream. Here the pieces are followed to the two files.
Nothing but the input task touches the files, its writers or the offset, so
whatever the other tasks do in between, a run leaves of these what the effects
leave, taken one after another.
-/

namespace RedisHaTool.Syncer

open Lib Store

variable {s t : Sys}

/-! ## The input task alone -/

/-- What only the input task changes. -/
structure Inbox where
  disk : Disk
  rdbWriter : Option BufWriter
  aofWriter : Option BufWriter
  psyncOffset : Int

def Sys.inbox (s : Sys) : Inbox :=
  { disk := s.storer.disk, rdbWriter := s.rdbWriter, aofWriter := s.aofWriter,
    psyncOffset := s.psyncOffset }

@[simp] theorem inbox_psyncOffset (s : Sys) : s.inbox.psyncOffset = s.psyncOffset := rfl

/-- An effect, as far as it goes here. -/
def Inbox.perform (b : Inbox) : InputOp → Inbox
  | .storePsyncOffset offset => { b with psyncOffset := offset }
  | .getRdbWriter runId offset size =>
      let path : Path := { runId, name := rdbFileName offset size }
      { b with disk := b.disk.create path, rdbWriter := some { path, buf := [] } }
  | .getAofWriter runId offset =>
      let path : Path := { runId, name := aofFileName offset }
      { b with disk := b.disk.create path, aofWriter := some { path, buf := [] } }
  | .writeRdb bs =>
      match b.rdbWriter with
      | none => b
      | some w =>
          { b with disk := (w.write bs b.disk).2, rdbWriter := some (w.write bs b.disk).1 }
  | .flushRdb =>
      match b.rdbWriter with
      | none => b
      | some w => { b with disk := (w.flush b.disk).2, rdbWriter := some (w.flush b.disk).1 }
  | .writeAof bs =>
      match b.aofWriter with
      | none => b
      | some w =>
          { b with disk := (w.write bs b.disk).2, aofWriter := some (w.write bs b.disk).1 }
  | .flushAof =>
      match b.aofWriter with
      | none => b
      | some w => { b with disk := (w.flush b.disk).2, aofWriter := some (w.flush b.disk).1 }
  | .setMasterReplid _ | .sendSource _ | .notifyReady => b

theorem inbox_perform (s : Sys) (now : Nat) (op : InputOp) :
    (s.perform now op).inbox = s.inbox.perform op := by
  cases op with
  | writeRdb bs =>
      cases hw : s.rdbWriter <;> simp only [Sys.perform, Sys.writeRdb, Inbox.perform, Sys.inbox, hw]
  | flushRdb =>
      cases hw : s.rdbWriter <;> simp only [Sys.perform, Sys.flushRdb, Inbox.perform, Sys.inbox, hw]
  | writeAof bs =>
      cases hw : s.aofWriter <;> simp only [Sys.perform, Sys.writeAof, Inbox.perform, Sys.inbox, hw]
  | flushAof =>
      cases hw : s.aofWriter <;> simp only [Sys.perform, Sys.flushAof, Inbox.perform, Sys.inbox, hw]
  | _ => rfl

/-- Effects one after another. -/
def Inbox.performAll (b : Inbox) (ops : List InputOp) : Inbox := ops.foldl Inbox.perform b

@[simp] theorem performAll_nil (b : Inbox) : b.performAll [] = b := rfl

@[simp] theorem performAll_cons (b : Inbox) (op : InputOp) (ops : List InputOp) :
    b.performAll (op :: ops) = (b.perform op).performAll ops := rfl

@[simp] theorem performAll_append (b : Inbox) (ops ops' : List InputOp) :
    b.performAll (ops ++ ops') = (b.performAll ops).performAll ops' := List.foldl_append

/-- A run leaves of the inbox what the effects that were taken leave of it. -/
theorem inbox_of_runs {C : Sys → Act → Prop} {acts : List Act} (h : s.Runs C acts t) :
    ∃ done, s.input = done ++ t.input ∧ t.inbox = s.inbox.performAll done := by
  induction h with
  | refl s => exact ⟨[], rfl, rfl⟩
  | @cons s u t act acts _ hstep _ ih =>
      obtain ⟨done, hinput, hinbox⟩ := ih
      cases Sys.Stepped.of_step hstep with
      | input op ops now hop =>
          rw [perform_input] at hinput
          have hops : ops = done ++ t.input := hinput
          refine ⟨op :: done, by rw [hop, hops, List.cons_append], ?_⟩
          rw [hinbox, inbox_perform]
          rfl
      | _ => exact ⟨done, hinput, hinbox⟩

/-! ## The two files -/

/-- The pieces of the RDB file fill its file and then the buffer. -/
theorem performAll_writeRdb {b : Inbox} {w : BufWriter} (hw : b.rdbWriter = some w)
    (hmem : w.path ∈ b.disk) (pieces : List Bytes) :
    ∃ disk w', b.performAll (pieces.map .writeRdb) = { b with disk, rdbWriter := some w' } ∧
      w'.path = w.path ∧ OnlyAt w.path b.disk disk ∧
      disk.contents w.path ++ w'.buf
        = b.disk.contents w.path ++ w.buf ++ pieces.flatten := by
  induction pieces generalizing b w with
  | nil =>
      refine ⟨b.disk, w, ?_, rfl, .refl hmem, by simp⟩
      rw [← hw]
      rfl
  | cons piece pieces ih =>
      have honly := w.write_onlyAt piece hmem
      have hpath := w.write_path piece b.disk
      have hcontents := w.write_contents piece b.disk
      have hnext : b.perform (.writeRdb piece) = { b with
          disk := (w.write piece b.disk).2, rdbWriter := some (w.write piece b.disk).1 } := by
        simp only [Inbox.perform, hw]
      obtain ⟨disk, w', heq, hpath', honly', hcontents'⟩ :=
        ih (b := b.perform (.writeRdb piece)) (w := (w.write piece b.disk).1)
          (by rw [hnext]) (by rw [hnext, hpath]; exact honly.1)
      simp only [hnext, hpath] at honly' hcontents'
      refine ⟨disk, w', ?_, hpath'.trans hpath, honly.trans honly', ?_⟩
      · rw [List.map_cons, performAll_cons, heq, hnext]
      · rw [hcontents', hcontents, List.flatten_cons, List.append_assoc, List.append_assoc]

/-- A piece of the stream is flushed as soon as it is written. -/
theorem perform_writeAof_flushAof {b : Inbox} {w : BufWriter} (hw : b.aofWriter = some w)
    (hbuf : w.buf = []) (hmem : w.path ∈ b.disk) (piece : Bytes) :
    ∃ disk, (b.perform (.writeAof piece)).perform .flushAof
        = { b with disk, aofWriter := some w } ∧
      OnlyAt w.path b.disk disk ∧
      disk.contents w.path = b.disk.contents w.path ++ piece := by
  have honly := w.write_onlyAt piece hmem
  have hpath := w.write_path piece b.disk
  have hcontents := w.write_contents piece b.disk
  have hflush := (w.write piece b.disk).1.flush_contents (w.write piece b.disk).2
  rw [hbuf, List.append_nil] at hcontents
  rw [hpath, hcontents] at hflush
  refine ⟨((w.write piece b.disk).1.flush (w.write piece b.disk).2).2, ?_, ?_, hflush⟩
  · have hback : ((w.write piece b.disk).1.flush (w.write piece b.disk).2).1 = w := by
      rw [BufWriter.flush, hpath, ← hbuf]
    simp only [Inbox.perform, hw, hback]
  · refine honly.trans ?_
    rw [BufWriter.flush, hpath]
    exact onlyAt_insert _ _ _

/-- The stream fills its file, and is counted as it does. -/
theorem performAll_aofEffects {b : Inbox} {w : BufWriter} (hw : b.aofWriter = some w)
    (hbuf : w.buf = []) (hmem : w.path ∈ b.disk) {start : Int} (received : Int)
    (hreceived : 0 ≤ received) (pieces : List Bytes) (hstart : IsI64 start)
    (hend : IsI64 (start + received + pieces.flatten.length))
    (hpsync : b.psyncOffset = start + received) :
    OnlyAt w.path b.disk (b.performAll (aofEffects start received pieces)).disk ∧
      (b.performAll (aofEffects start received pieces)).disk.contents w.path
        = b.disk.contents w.path ++ pieces.flatten ∧
      (b.performAll (aofEffects start received pieces)).psyncOffset
        = start + received + pieces.flatten.length := by
  induction pieces generalizing b received with
  | nil => exact ⟨.refl hmem, by simp [aofEffects], by simp [aofEffects, hpsync]⟩
  | cons piece pieces ih =>
      obtain ⟨disk, heq, honly, hcontents⟩ := perform_writeAof_flushAof hw hbuf hmem piece
      have hlen : (piece :: pieces).flatten.length = piece.length + pieces.flatten.length := by
        rw [List.flatten_cons, List.length_append]
      have hi64 : IsI64 (start + (received + piece.length)) := by
        simp only [IsI64, hlen] at hstart hend ⊢
        omega
      have hops : b.performAll (aofEffects start received (piece :: pieces))
          = Inbox.performAll { b with
              disk, aofWriter := some w, psyncOffset := start + (received + piece.length) }
            (aofEffects start (received + piece.length) pieces) := by
        rw [aofEffects, if_pos hi64]
        simp only [List.cons_append, List.nil_append, performAll_cons, heq]
        rfl
      obtain ⟨honly', hcontents', hpsync'⟩ :=
        ih (b := { b with
            disk, aofWriter := some w, psyncOffset := start + (received + piece.length) })
          rfl honly.1 (received + piece.length) (by omega) (by
            have hsum : start + (received + piece.length) + (pieces.flatten.length : Int)
                = start + received + ((piece :: pieces).flatten.length : Nat) := by
              rw [hlen]
              omega
            rw [hsum]
            exact hend) rfl
      rw [hops]
      refine ⟨honly.trans honly', ?_, ?_⟩
      · rw [hcontents', hcontents, List.flatten_cons, List.append_assoc]
      · rw [hpsync', hlen]
        omega

/-! ## The session -/

def rdbPath (runId : Text) (offset size : Int) : Path :=
  { runId, name := rdbFileName offset size }

theorem rdbPath_ne_aofPath (runId : Text) (start offset size : Int) :
    rdbPath runId offset size ≠ aofPath runId start := by
  intro h
  have hname : intToString offset ++ '_' :: intToString size ++ ['.', 'r', 'd', 'b']
      = intToString start ++ ['.', 'a', 'o', 'f'] := congrArg Path.name h
  have hext : ['.', 'r', 'd', 'b'] = ['.', 'a', 'o', 'f'] := (List.append_inj' hname rfl).2
  exact absurd hext (by decide)

/-- The files of a session hold what its reply says, and the offset is at its
end. -/
structure FullResync.ReceivedIn (f : FullResync) (runId : Text) (b : Inbox) : Prop where
  rdb : b.disk.contents (rdbPath runId (f.masterOffset - f.rdb.length) f.rdb.length) = f.rdb
  aof : b.disk.contents (aofPath runId f.masterOffset) = f.aof
  psyncOffset : b.psyncOffset = f.masterOffset + f.aof.length

/-- The effects of a session that names its offset, whatever came before
them. -/
theorem receivedIn_performAll (f : FullResync) (runId : Text) (b : Inbox)
    {rdbPieces aofPieces : List Bytes} (hrdb : rdbPieces.flatten = f.rdb)
    (haof : aofPieces.flatten = f.aof) (hfirst : IsI64 (f.masterOffset - f.rdb.length))
    (hlast : IsI64 (f.masterOffset + f.aof.length)) :
    f.ReceivedIn runId (b.performAll (f.effects runId rdbPieces aofPieces)) := by
  let path := rdbPath runId (f.masterOffset - f.rdb.length) f.rdb.length
  let opened : Inbox :=
    { b with
      disk := b.disk.create path
      rdbWriter := some { path, buf := [] }
      psyncOffset := f.masterOffset }
  -- The RDB file, once it is flushed.
  obtain ⟨disk, w, hwritten, hpath, honly, hcontents⟩ :=
    performAll_writeRdb (b := opened) rfl ((AList.mem_insert _).2 (.inl rfl)) rdbPieces
  have hrdbFile : (w.flush disk).2.contents path = f.rdb := by
    have hflush := w.flush_contents disk
    rw [hpath] at hflush
    rw [hflush, hcontents, contents_create_self, hrdb]
    rfl
  let flushed : Inbox :=
    { b with
      disk := ((w.flush disk).2).create (aofPath runId f.masterOffset)
      rdbWriter := some (w.flush disk).1
      aofWriter := some { path := aofPath runId f.masterOffset, buf := [] }
      psyncOffset := f.masterOffset }
  have hall : b.performAll (f.effects runId rdbPieces aofPieces)
      = flushed.performAll (aofEffects f.masterOffset 0 aofPieces) := by
    rw [FullResync.effects, if_pos hfirst, streamEffects]
    simp only [performAll_append, performAll_cons, performAll_nil]
    have hopen : ((b.perform (.storePsyncOffset f.masterOffset)).perform
        (.setMasterReplid f.masterReplid)).perform (.getRdbWriter runId
          (f.masterOffset - f.rdb.length) f.rdb.length) = opened := rfl
    rw [hopen, hwritten]
    rfl
  -- The stream's file is another one.
  obtain ⟨honly', hcontents', hpsync⟩ :=
    performAll_aofEffects (b := flushed) rfl rfl ((AList.mem_insert _).2 (.inl rfl)) 0
      (Int.le_refl 0) aofPieces f.isI64 (by rw [haof, Int.add_zero]; exact hlast)
      (Int.add_zero _).symm
  rw [hall]
  refine ⟨?_, ?_, ?_⟩
  · have hother := (onlyAt_insert (aofPath runId f.masterOffset) (w.flush disk).2 []).contents
      (rdbPath_ne_aofPath runId f.masterOffset (f.masterOffset - f.rdb.length) f.rdb.length)
    rw [honly'.contents (rdbPath_ne_aofPath runId _ _ _)]
    exact hother.trans hrdbFile
  · rw [hcontents', contents_create_self, haof]
    rfl
  · rw [hpsync, haof, Int.add_zero]

/-- However the reply is cut into reads, and whatever the leader and the
forwarding task do in the meantime: the input task can come to its end, and when
it has, the RDB file, the stream and the offset are there. The offsets of both
ends have to be numbers that an `i64` holds: where one is not, a build with overflow
checks panics at the sum. -/
theorem receivedIn_of_reply (self : RedisInput) (f : FullResync)
    {incoming : List TcpRead} (h : incoming.flatMap Subtype.val = f.reply)
    (hfirst : IsI64 (f.masterOffset - f.rdb.length))
    (hlast : IsI64 (f.masterOffset + f.aof.length)) (storer : FileStorer)
    (hasManager : Bool) :
    (∃ acts t, (Sys.init storer hasManager (self.effects 0 incoming)).Runs Free acts t ∧
      t.input = []) ∧
    ∀ acts t, (Sys.init storer hasManager (self.effects 0 incoming)).Runs Free acts t →
      t.input = [] → f.ReceivedIn self.runId t.inbox := by
  constructor
  · obtain ⟨acts, t, hrun, hinput, -⟩ := Sys.exists_runs_inputs
      (s := .init storer hasManager (self.effects 0 incoming)) rfl (List.append_nil _).symm
    exact ⟨acts, t, hrun.mono fun _ _ _ => trivial, hinput⟩
  · intro acts t hrun hinput
    obtain ⟨rdbPieces, aofPieces, hrdb, haof, heffects⟩ := effects_fullResync self 0 f h
    obtain ⟨done, hdone, hinbox⟩ := inbox_of_runs hrun
    have hdone : done = self.psyncEffects ++ f.effects self.runId rdbPieces aofPieces := by
      rw [← heffects]
      rw [hinput, List.append_nil] at hdone
      exact hdone.symm
    rw [hinbox, hdone, performAll_append]
    exact receivedIn_performAll f self.runId _ hrdb haof.flatten hfirst hlast

theorem receivedIn_of_reply_sample :
    sampleResync.ReceivedIn "r".toList
      (freshStart.after (List.replicate 12 (.input 0))).inbox :=
  (receivedIn_of_reply freshInput sampleResync (List.append_nil _) (by decide) (by decide)
    (.new ∅) true).2 (List.replicate 12 (.input 0)) _ (Sys.runs_free (by decide +kernel))
    (by decide +kernel)

theorem isI64_last : IsI64 (2 ^ 63 - 1) := by
  rw [IsI64]
  omega

theorem isI64_first : IsI64 (-2 ^ 63) := by
  rw [IsI64]
  omega

/-- A source at the last offset there is. -/
def lastResync : FullResync :=
  { sampleResync with masterOffset := 2 ^ 63 - 1, isI64 := isI64_last }

/-- And one at the first. -/
def firstResync : FullResync :=
  { sampleResync with masterOffset := -2 ^ 63, isI64 := isI64_first }

theorem lastReply_fits : lastResync.reply ≠ [] ∧ lastResync.reply.length ≤ 8192 := by
  decide +kernel

theorem firstReply_fits : firstResync.reply ≠ [] ∧ firstResync.reply.length ≤ 8192 := by
  decide +kernel

def lastReads : List TcpRead := [⟨lastResync.reply, lastReply_fits⟩]

def firstReads : List TcpRead := [⟨firstResync.reply, firstReply_fits⟩]

def lastStart : Sys := .init (.new ∅) true (freshInput.effects 0 lastReads)

def firstStart : Sys := .init (.new ∅) true (freshInput.effects 0 firstReads)

/-- After the last offset one byte more is not counted. -/
theorem not_receivedIn :
    ¬ ∀ (self : RedisInput) (f : FullResync) (incoming : List TcpRead),
      incoming.flatMap Subtype.val = f.reply → ∀ (storer : FileStorer) (hasManager : Bool)
      (acts : List Act) (t : Sys),
      (Sys.init storer hasManager (self.effects 0 incoming)).Runs Free acts t →
      t.input = [] → f.ReceivedIn self.runId t.inbox := by
  intro h
  have hrun : lastStart.Runs Free (List.replicate 11 (.input 0))
      (lastStart.after (List.replicate 11 (.input 0))) := Sys.runs_free (by decide +kernel)
  have hreads : lastReads.flatMap Subtype.val = lastResync.reply := List.append_nil _
  have hinput : (lastStart.after (List.replicate 11 (.input 0))).input = [] := by
    decide +kernel
  have hpsync : (lastStart.after (List.replicate 11 (.input 0))).psyncOffset = 2 ^ 63 - 1 := by
    decide +kernel
  have hreceived := (h freshInput lastResync lastReads hreads (.new ∅) true _ _ hrun
    hinput).psyncOffset
  have hoffset : lastResync.masterOffset = 2 ^ 63 - 1 := rfl
  have haof : lastResync.aof.length = 1 := rfl
  rw [inbox_psyncOffset, hpsync, hoffset, haof] at hreceived
  omega

/-- Before the first offset there is no room for an RDB file. -/
theorem not_receivedIn_first :
    ¬ ∀ (self : RedisInput) (f : FullResync) (incoming : List TcpRead),
      incoming.flatMap Subtype.val = f.reply → IsI64 (f.masterOffset + f.aof.length) →
      ∀ (storer : FileStorer) (hasManager : Bool) (acts : List Act) (t : Sys),
      (Sys.init storer hasManager (self.effects 0 incoming)).Runs Free acts t →
      t.input = [] → f.ReceivedIn self.runId t.inbox := by
  intro h
  have hrun : firstStart.Runs Free (List.replicate 3 (.input 0))
      (firstStart.after (List.replicate 3 (.input 0))) := Sys.runs_free (by decide +kernel)
  have hreads : firstReads.flatMap Subtype.val = firstResync.reply := List.append_nil _
  have hinput : (firstStart.after (List.replicate 3 (.input 0))).input = [] := by
    decide +kernel
  have hpsync : (firstStart.after (List.replicate 3 (.input 0))).psyncOffset = -2 ^ 63 := by
    decide +kernel
  have hoffset : firstResync.masterOffset = -2 ^ 63 := rfl
  have haof : firstResync.aof.length = 1 := rfl
  have hlast : IsI64 (firstResync.masterOffset + firstResync.aof.length) := by
    rw [hoffset, haof, IsI64]
    omega
  have hreceived := (h freshInput firstResync firstReads hreads hlast (.new ∅) true _ _ hrun
    hinput).psyncOffset
  rw [inbox_psyncOffset, hpsync, hoffset, haof] at hreceived
  omega

end RedisHaTool.Syncer
