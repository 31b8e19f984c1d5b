import RedisHaTool.Proofs.Boundary
import RedisHaTool.Proofs.RespRoundTrip
import RedisHaTool.Syncer.Target

/-!
# The database of a command

A connection carries bytes of the stream and nothing else, from the place it was
opened at on, without a gap. So the target executes on it the commands of the
stream that lie there, in the database that the last `SELECT` among them has
chosen, and in database 0 before the first. Over all connections this is what
the stream says exactly when each of them is opened while database 0 is in
force, or begins with a `SELECT`.
-/

namespace RedisHaTool.Syncer

open Lib Store Resp

/-! ## What a connection executes -/

variable {db : Nat} {cmds : List ClientCommand}

/-- From another database the commands up to the first `SELECT` go elsewhere. -/
theorem executed_eq_iff :
    executed 0 cmds = executed db cmds ↔
      db = 0 ∨ ∀ cmd, cmds.head? = some cmd → cmd.selects.isSome = true := by
  cases cmds with
  | nil => simp [executed]
  | cons cmd cmds =>
      cases hselects : cmd.selects with
      | some n => simp [executed, hselects]
      | none =>
          constructor
          · intro h
            simp only [executed, hselects] at h
            have hdb : (0 : Nat) = db := (Prod.mk.inj (List.cons.inj h).1).1
            exact .inl hdb.symm
          · rintro (rfl | hhead)
            · rfl
            · have hsome := hhead cmd rfl
              rw [hselects] at hsome
              cases hsome

/-! ## Commands are told apart -/

theorem encode_eq (c : ClientCommand) :
    c.encode = line '*'.toUInt8 (asBytes (natToString c.length))
      ++ encodeBatch (c.map .bulkString) := by
  rw [ClientCommand.encode, encodeValue_array, List.length_map]

theorem encodeValue_bulkString_append (s rest : Bytes) :
    encodeValue (.bulkString s) ++ rest
      = line '$'.toUInt8 (asBytes (natToString s.length)) ++ (s ++ (crlf ++ rest)) := by
  rw [encodeValue, line]
  simp only [List.append_assoc, List.cons_append]

theorem bulkString_append_inj {s t x y : Bytes}
    (h : encodeValue (.bulkString s) ++ x = encodeValue (.bulkString t) ++ y) :
    s = t ∧ x = y := by
  rw [encodeValue_bulkString_append, encodeValue_bulkString_append] at h
  obtain ⟨hline, hrest⟩ := line_append_inj (noCrlf_natToString _) (noCrlf_natToString _) h
  have hlen : s.length = t.length := natToString_injective (asBytes_injective hline)
  obtain ⟨hs, hrest⟩ := List.append_inj hrest hlen
  exact ⟨hs, List.append_cancel_left hrest⟩

theorem bulkStrings_append_inj {c d : ClientCommand} {x y : Bytes} (hlen : c.length = d.length)
    (h : encodeBatch (c.map .bulkString) ++ x = encodeBatch (d.map .bulkString) ++ y) :
    c = d ∧ x = y := by
  induction c generalizing d with
  | nil =>
      obtain rfl := List.eq_nil_of_length_eq_zero hlen.symm
      exact ⟨rfl, h⟩
  | cons s c ih =>
      cases d with
      | nil => cases hlen
      | cons t d =>
          simp only [List.map_cons, encodeBatch_cons, List.append_assoc] at h
          obtain ⟨rfl, hrest⟩ := bulkString_append_inj h
          obtain ⟨rfl, hend⟩ := ih (Nat.succ.inj hlen) hrest
          exact ⟨rfl, hend⟩

theorem encode_append_inj {c d : ClientCommand} {x y : Bytes}
    (h : c.encode ++ x = d.encode ++ y) : c = d ∧ x = y := by
  rw [encode_eq, encode_eq, List.append_assoc, List.append_assoc] at h
  obtain ⟨hline, hrest⟩ := line_append_inj (noCrlf_natToString _) (noCrlf_natToString _) h
  exact bulkStrings_append_inj (natToString_injective (asBytes_injective hline)) hrest

theorem encode_ne_nil (c : ClientCommand) : c.encode ≠ [] := encodeValue_ne_nil _

theorem encodeStream_injective {cmds cmds' : List ClientCommand}
    (h : encodeStream cmds = encodeStream cmds') : cmds = cmds' := by
  induction cmds generalizing cmds' with
  | nil =>
      cases cmds' with
      | nil => rfl
      | cons d cmds' =>
          exact absurd (List.append_eq_nil_iff.1 h.symm).1 (encode_ne_nil d)
  | cons c cmds ih =>
      cases cmds' with
      | nil => exact absurd (List.append_eq_nil_iff.1 h).1 (encode_ne_nil c)
      | cons d cmds' =>
          obtain ⟨rfl, hrest⟩ := encode_append_inj h
          rw [ih hrest]

theorem encodeStream_cons (c : ClientCommand) (cmds : List ClientCommand) :
    encodeStream (c :: cmds) = c.encode ++ encodeStream cmds := rfl

/-- A stream begins with whole commands only if they are its own. -/
theorem prefix_of_encodeStream {cmds cmds' : List ClientCommand}
    (h : encodeStream cmds <+: encodeStream cmds') : cmds <+: cmds' := by
  induction cmds generalizing cmds' with
  | nil => exact List.nil_prefix
  | cons c cmds ih =>
      cases cmds' with
      | nil =>
          have hnil := List.prefix_nil.1 h
          exact absurd (List.append_eq_nil_iff.1 hnil).1 (encode_ne_nil c)
      | cons d cmds' =>
          obtain ⟨more, hmore⟩ := h
          rw [encodeStream_cons, encodeStream_cons, List.append_assoc] at hmore
          obtain ⟨rfl, hrest⟩ := encode_append_inj hmore
          exact List.cons_prefix_cons.2 ⟨rfl, ih ⟨more, hrest⟩⟩

/-! ## What a connection carries -/

@[simp] theorem connectionsOf_append (log events : List Event) :
    connectionsOf (log ++ events) = events.foldl addEvent (connectionsOf log) :=
  List.foldl_append

/-- How far the task is with the stream. -/
def Forwarder.reached (start : Int) (f : Forwarder) : Int :=
  match f.pc with
  | .read r _ => start + r.filePos
  | .write r _ chunk => start + chunkIndex r chunk
  | _ => f.offset

/-- What a task has to do with the connections there are. -/
structure Forwarder.Attached (start : Int) (conns : List Connection) (f : Forwarder) :
    Prop where
  stream : f.hasStream = true → f.pc ≠ .done →
    ∃ c rest, conns = c :: rest ∧ c.offset + c.bytes.length = f.reached start
  reading : ∀ r n, f.pc = .read r n → f.hasStream = true
  writing : ∀ r n chunk, f.pc = .write r n chunk → f.hasStream = true

/-- A connection carries a piece of the file from its offset on. -/
def Connection.CarriesOf (c : Connection) (start : Int) (file : Bytes) : Prop :=
  ∃ i : Nat, c.offset = start + i ∧ c.bytes <+: file.drop i

theorem Connection.CarriesOf.append {c : Connection} {start : Int} {file : Bytes}
    (h : c.CarriesOf start file) (more : Bytes) : c.CarriesOf start (file ++ more) := by
  obtain ⟨i, hoffset, hprefix⟩ := h
  refine ⟨i, hoffset, hprefix.trans ?_⟩
  rw [List.drop_append]
  exact List.prefix_append _ _

/-- The next bytes of the file are carried by the connection that is there. -/
theorem Connection.CarriesOf.sent {c : Connection} {start : Int} {file chunk : Bytes} {n : Nat}
    (h : c.CarriesOf start file) (hn : c.offset + c.bytes.length = start + n)
    (hchunk : chunk <+: file.drop n) :
    Connection.CarriesOf { c with bytes := c.bytes ++ chunk } start file := by
  obtain ⟨i, hoffset, hprefix⟩ := h
  obtain ⟨rest, hrest⟩ := hprefix
  have hn : n = i + c.bytes.length := by omega
  refine ⟨i, hoffset, ?_⟩
  rw [hn, ← List.drop_drop, ← hrest, List.drop_left] at hchunk
  obtain ⟨more, rfl⟩ := hchunk
  exact ⟨more, by rw [← hrest, List.append_assoc]⟩

section Step

variable {path : Path} {start : Int} {storer : FileStorer} {masterReplid : Text}
  {f f' : Forwarder} {act : ForwardAct} {events : List Event} {conns : List Connection}

/-- A step that opens no connection and sends nothing. -/
theorem Forwarder.Attached.rest (h : f.Attached start conns) (hdone : f.pc ≠ .done)
    (hstream : f'.hasStream = true → f.hasStream = true)
    (hreached : f'.hasStream = true → f'.reached start = f.reached start)
    (hpc : f'.hasStream = true ∨
      (∀ r n, f'.pc ≠ .read r n) ∧ ∀ r n chunk, f'.pc ≠ .write r n chunk) :
    f'.Attached start conns where
  stream := by
    intro hs _
    obtain ⟨c, rest, hconns, hend⟩ := h.stream (hstream hs) hdone
    exact ⟨c, rest, hconns, by rw [hend, hreached hs]⟩
  reading := by
    intro r n hread
    rcases hpc with hs | ⟨hno, -⟩
    · exact hs
    · exact absurd hread (hno r n)
  writing := by
    intro r n chunk hwrite
    rcases hpc with hs | ⟨-, hno⟩
    · exact hs
    · exact absurd hwrite (hno r n chunk)

/-- While a checkpoint is saved, and when that is over, the connection stays as
it is. -/
theorem Forwarder.Attached.saving {calls : List (List Checkpoint.Command)}
    (h : f.Attached start conns) (hpc : f.pc = .save calls)
    (calls' : List (List Checkpoint.Command)) :
    Forwarder.Attached start conns { f with pc := .saving calls' } := by
  rcases saving_cases calls' with heq | ⟨calls'', heq⟩
  · exact h.rest (by simp [hpc]) id (fun _ => by simp [Forwarder.reached, hpc, heq])
      (.inr (by simp [heq]))
  · exact h.rest (by simp [hpc]) id (fun _ => by simp [Forwarder.reached, hpc, heq])
      (.inr (by simp [heq]))

theorem Forwarder.Attached.step (htidy : Tidy storer.dataSet path start)
    (hplaced : Placed path start (storer.disk.contents path) f)
    (hconns : ∀ c ∈ conns, c.CarriesOf start (storer.disk.contents path))
    (h : f.Attached start conns) (hstep : f.Stepped storer masterReplid act f' events) :
    (∀ c ∈ events.foldl addEvent conns, c.CarriesOf start (storer.disk.contents path)) ∧
      f'.Attached start (events.foldl addEvent conns) := by
  cases hstep with
  | available hpc | unavailable hpc | listen hpc | noReader hpc =>
      refine ⟨hconns, h.rest (by simp [hpc]) id (fun _ => ?_) (.inr (by simp))⟩
      simp [Forwarder.reached, hpc]
  | rdbReader hpc r hreader =>
      exact ⟨hconns, h.rest (by simp [hpc]) (by simp) (by simp) (.inr (by simp))⟩
  | aofReader hpc r hreader hstream =>
      have hfilePos := (getReader_aof htidy.segment hreader).filePos_eq
      refine ⟨hconns, h.rest (by simp [hpc]) id (fun _ => ?_) (.inl hstream)⟩
      simp only [Forwarder.reached, hpc]
      omega
  | aofConnect hpc r hreader hstream =>
      refine ⟨hconns, h.rest (by simp [hpc]) id (fun _ => ?_) (.inr (by simp))⟩
      simp [Forwarder.reached, hpc]
  | rdbFailed r hpc | rdbPanic r hpc | rdbPassed r hpc | rdbSaving r hpc =>
      -- An RDB file ends where the stream starts, and no connection is open before that.
      have hnone : f.hasStream ≠ true := by
        intro hs
        obtain ⟨c, rest, heq, hend⟩ := h.stream hs (by simp [hpc])
        obtain ⟨i, hoffset, -⟩ := hconns c (heq ▸ List.mem_cons_self)
        rw [Placed, hpc] at hplaced
        simp only [Forwarder.reached, hpc] at hend
        omega
      exact ⟨hconns, h.rest (by simp [hpc]) id (fun hs => absurd hs hnone) (.inr (by simp))⟩
  | connected r hpc =>
      rw [Placed, hpc] at hplaced
      have hfilePos := hplaced.filePos_eq
      have hstart := hplaced.start_le
      refine ⟨fun c hc => ?_,
        ⟨fun _ _ => ⟨_, conns, rfl, ?_⟩, fun _ _ _ => rfl, fun _ _ _ _ => rfl⟩⟩
      · rcases List.mem_cons.1 hc with rfl | hc
        · exact ⟨(f.offset - start).toNat, by simp only; omega, List.nil_prefix⟩
        · exact hconns c hc
      · simp only [Forwarder.reached, List.length_nil]
        omega
  | connectFailed r hpc =>
      refine ⟨hconns, h.rest (by simp [hpc]) id (fun _ => ?_) (.inr (by simp))⟩
      simp [Forwarder.reached, hpc]
  | read r sent n hpc hpos hbuf hlen =>
      have hchunk : ((r.remaining storer.disk).take n).length = n := by
        rw [List.length_take]
        omega
      refine ⟨hconns, h.rest (by simp [hpc]) id (fun _ => ?_) (.inl (h.reading r sent hpc))⟩
      simp only [Forwarder.reached, hpc, chunkIndex, hchunk, AofReader.advance]
      omega
  | readFailed r sent hpc =>
      exact ⟨hconns, h.rest (by simp [hpc]) (by simp) (by simp) (.inr (by simp))⟩
  | finishPanic r sent hpc =>
      exact ⟨hconns, ⟨fun _ hdone => absurd rfl hdone, by simp, by simp⟩⟩
  | finishNothing r hpc | finish r sent hpc | finishSaving r sent hpc =>
      rw [Placed, hpc] at hplaced
      have hfilePos := hplaced.1.filePos_eq
      refine ⟨hconns, h.rest (by simp [hpc]) id (fun _ => ?_) (.inr (by simp))⟩
      simp only [Forwarder.reached, hpc]
      omega
  | wrote r sent chunk hpc =>
      have hs := h.writing r sent chunk hpc
      obtain ⟨c, rest, heq, hend⟩ := h.stream hs (by simp [hpc])
      rw [Placed, hpc] at hplaced
      obtain ⟨hat, -, -, hchunk⟩ := hplaced
      have hfilePos := hat.filePos_eq
      have hstart := hat.start_le
      have hindex : chunkIndex r chunk + chunk.length = r.filePos := by
        simp only [chunkIndex]
        omega
      subst heq
      simp only [Forwarder.reached, hpc] at hend
      refine ⟨fun c' hc' => ?_, ⟨fun _ _ => ⟨_, rest, rfl, ?_⟩, fun _ _ _ => hs, fun _ _ _ _ => hs⟩⟩
      · rcases List.mem_cons.1 hc' with rfl | hc'
        · exact (hconns c List.mem_cons_self).sent hend (List.prefix_iff_eq_take.2 hchunk.symm)
        · exact hconns c' (List.mem_cons_of_mem _ hc')
      · simp only [Forwarder.reached, List.length_append]
        omega
  | writeFailed r sent chunk hpc accepted haccepted =>
      obtain ⟨c, rest, heq, hend⟩ := h.stream (h.writing r sent chunk hpc) (by simp [hpc])
      rw [Placed, hpc] at hplaced
      obtain ⟨-, -, -, hchunk⟩ := hplaced
      subst heq
      simp only [Forwarder.reached, hpc] at hend
      have hfront : chunk.take accepted <+: chunk := List.take_prefix accepted chunk
      refine ⟨fun c' hc' => ?_, ⟨by simp, by simp, by simp⟩⟩
      rcases List.mem_cons.1 hc' with rfl | hc'
      · exact (hconns c List.mem_cons_self).sent hend
          (hfront.trans (List.prefix_iff_eq_take.2 hchunk.symm))
      · exact hconns c' (List.mem_cons_of_mem _ hc')
  | saved c cs calls hpc => exact ⟨hconns, h.saving hpc (cs :: calls)⟩
  | saveFailed c cs calls hpc executed =>
      have hquiet : (if executed then [Event.command c] else []).foldl addEvent conns = conns := by
        cases executed <;> rfl
      rw [hquiet]
      exact ⟨hconns, h.saving hpc calls⟩
  | cancel => exact ⟨hconns, ⟨fun _ hdone => absurd rfl hdone, by simp, by simp⟩⟩

theorem Forwarder.Attached.notified (h : f.Attached start conns) :
    f.notified.Attached start conns := by
  unfold Forwarder.notified
  split
  · next hpc =>
      refine h.rest (by simp [hpc]) id (fun _ => ?_) (.inr (by simp))
      simp [Forwarder.reached, hpc]
  · exact h

end Step

/-! ## Every run -/

/-- The phases of a session, its connections carrying the segment. -/
structure Carrying (runId : Text) (start : Int) (pieces : List Bytes) (s : Sys) : Prop where
  phase :
    Early runId start pieces s ∧ connectionsOf s.log = [] ∨
      Streaming (aofPath runId start) start s ∧
        (∃ w, s.aofWriter = some w ∧
          Feeding start pieces w (s.storer.disk.contents (aofPath runId start)) s.input) ∧
        ∀ c ∈ connectionsOf s.log,
          c.CarriesOf start (s.storer.disk.contents (aofPath runId start))
  task : ∀ o f, s.leader = .forwarding o f → f.Attached start (connectionsOf s.log)

/-- Without a segment no connection is opened for commands. -/
theorem Forwarder.Unread.no_connection {storer : FileStorer} {masterReplid : Text}
    {f f' : Forwarder} {act : ForwardAct} {events : List Event} (h : f.Unread)
    (hstep : f.Stepped storer masterReplid act f' events) : events.foldl addEvent [] = [] := by
  cases hstep with
  | connected r hpc => simp only [Forwarder.Unread, hpc] at h
  | saveFailed c cs calls hpc executed => cases executed <;> rfl
  | _ => rfl

theorem perform_connectionsOf (s : Sys) (now : Nat) (op : InputOp) :
    connectionsOf (s.perform now op).log = connectionsOf s.log := by
  rcases perform_log s now op with heq | ⟨bs, -, heq⟩
  · rw [heq]
  · rw [heq, connectionsOf_append]
    rfl

section Run

variable {runId : Text} {start : Int} {pieces : List Bytes} {s t : Sys} {act : Act}

theorem Carrying.carriesOf (h : Carrying runId start pieces s) :
    ∀ c ∈ connectionsOf s.log,
      c.CarriesOf start (s.storer.disk.contents (aofPath runId start)) := by
  rcases h.phase with ⟨-, hempty⟩ | ⟨-, -, hconns⟩
  · intro c hc
    rw [hempty] at hc
    cases hc
  · exact hconns

/-- What is known of the task's surroundings in either phase. -/
theorem Carrying.around (h : Carrying runId start pieces s) {o : Int} {f : Forwarder}
    (hleader : s.leader = .forwarding o f) :
    Tidy s.storer.dataSet (aofPath runId start) start ∧
      Placed (aofPath runId start) start (s.storer.disk.contents (aofPath runId start)) f := by
  rcases h.phase with ⟨hearly, -⟩ | ⟨hstreaming, -⟩
  · obtain ⟨hunread, hplaced⟩ := hearly.task o f hleader
    exact ⟨hearly.tidy, hunread.placed hplaced _⟩
  · exact ⟨hstreaming.tidy, hstreaming.placed o f hleader⟩

theorem Carrying.step (h : Carrying runId start pieces s) (hstep : s.Stepped act t) :
    Carrying runId start pieces t := by
  -- The phase follows from what becomes of the connections and of the file.
  have hphase : (Early runId start pieces s → connectionsOf s.log = [] →
      connectionsOf t.log = []) →
      (Streaming (aofPath runId start) start s → ∀ c ∈ connectionsOf t.log,
        c.CarriesOf start (t.storer.disk.contents (aofPath runId start))) →
      Early runId start pieces t ∧ connectionsOf t.log = [] ∨
        Streaming (aofPath runId start) start t ∧
          (∃ w, t.aofWriter = some w ∧
            Feeding start pieces w (t.storer.disk.contents (aofPath runId start)) t.input) ∧
          ∀ c ∈ connectionsOf t.log,
            c.CarriesOf start (t.storer.disk.contents (aofPath runId start)) := by
    intro hnone hconns
    rcases h.phase with ⟨hearly, hempty⟩ | ⟨hstreaming, ⟨w, hwriter, hfeeding⟩, -⟩
    · have hempty' := hnone hearly hempty
      rcases hearly.step hstep with hearly' | ⟨hopened, -⟩
      · exact .inl ⟨hearly', hempty'⟩
      · refine .inr ⟨hopened.streaming, hopened.feeding, fun c hc => ?_⟩
        rw [hempty'] at hc
        cases hc
    · obtain ⟨hstreaming', hfeeding'⟩ := hstreaming.feeding_step hwriter hfeeding hstep
      exact .inr ⟨hstreaming', hfeeding', hconns hstreaming⟩
  cases hstep with
  | input op ops now hinput =>
      have hsame := perform_connectionsOf { s with input := ops } now op
      refine ⟨hphase (fun _ hempty => hsame.trans hempty) fun hstreaming c hc => ?_, ?_⟩
      · have hop := hstreaming.input op (hinput ▸ List.mem_cons_self)
        obtain ⟨more, hmore⟩ :=
          (perform_grows (s := { s with input := ops }) now hstreaming.writer hop).file
        rw [hmore]
        exact (h.carriesOf c (hsame ▸ hc)).append more
      · intro o f hf
        rw [hsame]
        obtain ⟨g, hg, rfl | rfl⟩ := forwarding_of_perform hf
        · exact h.task o f hg
        · exact (h.task o g hg).notified
  | listen hleader | timeout hleader =>
      exact ⟨hphase (fun _ hempty => hempty) fun _ => h.carriesOf, fun o f hf => (by cases hf)⟩
  | start hleader =>
      refine ⟨hphase (fun _ hempty => hempty) fun _ => h.carriesOf, fun o f hf => ?_⟩
      obtain ⟨rfl, rfl⟩ := LeaderPc.forwarding.inj hf
      exact ⟨by simp [Forwarder.new], by simp [Forwarder.new], by simp [Forwarder.new]⟩
  | forward o f f' act events hleader hforward =>
      obtain ⟨htidy, hplaced⟩ := h.around hleader
      obtain ⟨hconns', hattached⟩ :=
        Forwarder.Attached.step htidy hplaced h.carriesOf (h.task o f hleader) hforward
      refine ⟨hphase (fun hearly hempty => ?_) fun _ => ?_, fun o' g hg => ?_⟩
      · rw [connectionsOf_append, hempty]
        exact (hearly.task o f hleader).1.no_connection hforward
      · rw [connectionsOf_append]
        exact hconns'
      · obtain ⟨rfl, rfl⟩ := LeaderPc.forwarding.inj hg
        rw [connectionsOf_append]
        exact hattached

/-- The file is a beginning of the stream. -/
theorem Feeding.begins {w : BufWriter} {file : Bytes} {input : List InputOp}
    (h : Feeding start pieces w file input) : file <+: pieces.flatten := by
  have hdone : ∀ done rest : List Bytes, pieces = done ++ rest →
      done.flatten <+: pieces.flatten := by
    intro done rest hpieces
    rw [hpieces, List.flatten_append]
    exact List.prefix_append _ _
  cases h with
  | next done rest hpieces _ hfile => exact hfile ▸ hdone done rest hpieces
  | written done piece rest hpieces hall hfile =>
      exact (hall ▸ List.prefix_append file w.buf).trans (hdone _ rest hpieces)
  | flushed done rest hpieces _ hfile => exact hfile ▸ hdone done rest hpieces
  | stopped done rest hpieces _ hfile => exact hfile ▸ hdone done rest hpieces

theorem carrying_init {disk : Disk} {hasManager : Bool} {ops : List InputOp}
    (h : Early runId start pieces (Sys.init (.new disk) hasManager ops)) :
    Carrying runId start pieces (Sys.init (.new disk) hasManager ops) where
  phase := .inl ⟨h, rfl⟩
  task := fun o f hf => by cases hf

end Run

/-- A connection of a process carries a piece of the stream, from its offset
on. -/
theorem Process.carriesOf (p : Process) :
    ∀ c ∈ connectionsOf p.log, c.CarriesOf (p.answer.offset p.self) p.answer.aof := by
  obtain ⟨aofPieces, hpieces, hearly⟩ :=
    early_of_reply p.self p.answer p.reply p.disk p.hasManager
  have hfinal := p.run.invariant (fun s act t h _ hstep => h.step hstep)
    (carrying_init hearly)
  intro c hc
  rcases hfinal.phase with ⟨-, hempty⟩ | ⟨-, ⟨w, -, hfeeding⟩, hconns⟩
  · rw [Process.log, hempty] at hc
    cases hc
  · obtain ⟨more, hmore⟩ := hfeeding.begins
    rw [← hpieces.flatten, ← hmore]
    exact (hconns c hc).append more

/-! ## The stream over its connections -/

section Relay

variable {stream : List ClientCommand} {r : Relay stream} {c : Connection}
  {pre cmds : List ClientCommand}

@[simp] theorem encodeStream_append (cmds cmds' : List ClientCommand) :
    encodeStream (cmds ++ cmds') = encodeStream cmds ++ encodeStream cmds' :=
  List.flatMap_append

/-- The bytes a connection carries are the commands between its two places. -/
theorem Relay.Cuts.bytes_eq (h : r.Cuts c pre cmds)
    (hc : c ∈ connectionsOf r.process.log) : c.bytes = encodeStream cmds := by
  obtain ⟨post, hafter⟩ := h.after_eq
  obtain ⟨more, hmore⟩ := r.received
  obtain ⟨i, hoffset, hprefix⟩ := (r.process.carriesOf c hc).append more
  have hopened := h.opened
  rw [Relay.start] at hopened
  obtain rfl : i = (encodeStream pre).length := by omega
  rw [hmore, hafter, encodeStream_append, encodeStream_append, List.append_assoc,
    List.drop_left, List.prefix_iff_eq_take, h.dropped, List.take_left] at hprefix
  exact hprefix

theorem Relay.Cuts.executes_iff (h : r.Cuts c pre cmds)
    (hc : c ∈ connectionsOf r.process.log) (db : Nat) :
    c.Executes (executed db cmds) ↔
      db = 0 ∨ ∀ cmd, cmds.head? = some cmd → cmd.selects.isSome = true := by
  rw [← executed_eq_iff]
  constructor
  · rintro ⟨cmds', hbytes, hexecuted⟩
    rw [h.bytes_eq hc] at hbytes
    rw [encodeStream_injective hbytes] at hexecuted ⊢
    exact hexecuted.symm
  · intro heq
    exact ⟨cmds, h.bytes_eq hc, heq.symm⟩

end Relay

/-- Over every process that has forwarded a part of the stream, and every
connection of it, the commands are executed where the stream says if and only if
no connection begins with another command than a `SELECT` while a database other
than 0 is in force. -/
theorem rightDb_iff_selects (stream : List ClientCommand) (relays : List (Relay stream)) :
    (∀ r ∈ relays, r.RightDb) ↔ ∀ r ∈ relays, r.Selects := by
  constructor
  · intro h r hr c hc pre cmds hcuts
    exact (hcuts.executes_iff hc _).1 (h r hr c hc pre cmds hcuts)
  · intro h r hr c hc pre cmds hcuts
    exact (hcuts.executes_iff hc _).2 (h r hr c hc pre cmds hcuts)

def selectOne : ClientCommand := [asBytes "SELECT".toList, asBytes "1".toList]

def setKey : ClientCommand := [asBytes "SET".toList, asBytes "k".toList, asBytes "v".toList]

def selectResync : FullResync :=
  { sampleResync with aof := encodeStream [selectOne, setKey] }

theorem selectReply_fits :
    (selectResync.reply.take 45 ≠ [] ∧ (selectResync.reply.take 45).length ≤ 8192) ∧
      selectResync.reply.drop 45 ≠ [] ∧ (selectResync.reply.drop 45).length ≤ 8192 := by
  decide +kernel

/-- The `SELECT` arrives with the RDB file, the `SET` after it. -/
def selectReads : List TcpRead :=
  [⟨selectResync.reply.take 45, selectReply_fits.1⟩,
    ⟨selectResync.reply.drop 45, selectReply_fits.2⟩]

/-- The connection breaks after the first command, and the next one carries
on. -/
def selectActs : List Act :=
  promptActs ++ List.replicate 4 (.input 0) ++ [.forward .check, .forward .open,
    .forward .connected, .forward (.read 23), .forward .wrote, .forward (.finish false 0)] ++
    List.replicate 3 (.input 0) ++ [.forward .check, .forward .open, .forward (.read 27),
    .forward (.writeFailed 0), .forward .check, .forward .open, .forward .connected,
    .forward (.read 27), .forward .wrote]

def selectStart : Sys := .init (.new ∅) true (freshInput.effects 0 selectReads)

def selectProcess : Process :=
  { self := freshInput, answer := .fullResync selectResync, incoming := selectReads,
    disk := ∅, hasManager := true, acts := selectActs,
    final := selectStart.after selectActs,
    reply := by
      show selectResync.reply.take 45 ++ (selectResync.reply.drop 45 ++ []) = selectResync.reply
      rw [List.append_nil, List.take_append_drop]
    run := Sys.runs_free (by decide +kernel) }

def selectRelay : Relay [selectOne, setKey] :=
  { process := selectProcess, before := [], after := [selectOne, setKey], stream_eq := rfl,
    received := List.prefix_rfl }

/-- The `SET` is executed in database 0, and the stream has it in database 1. -/
theorem not_rightDb :
    ¬ ∀ (stream : List ClientCommand) (relays : List (Relay stream)),
      ∀ r ∈ relays, r.RightDb := by
  intro h
  let second : Connection := { offset := 28, bytes := encodeStream [setKey] }
  have hsecond : second ∈ connectionsOf selectRelay.process.log := by
    have hlog : connectionsOf selectProcess.log
        = [second, { offset := 5, bytes := encodeStream [selectOne] }] := by decide +kernel
    exact hlog ▸ List.mem_cons_self
  have hcuts : selectRelay.Cuts second [selectOne] [setKey] :=
    { after_eq := ⟨[], rfl⟩
      opened := by decide +kernel
      dropped := rfl }
  obtain ⟨cmds, hbytes, hexecuted⟩ :=
    h _ [selectRelay] selectRelay List.mem_cons_self second hsecond [selectOne] [setKey] hcuts
  obtain rfl : [setKey] = cmds := encodeStream_injective hbytes
  revert hexecuted
  decide +kernel

end RedisHaTool.Syncer
