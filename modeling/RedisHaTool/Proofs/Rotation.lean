import RedisHaTool.Store.AofWriter

/-!
# The segments tile the stream

However writes, flushes and rotations follow each other, the files an
`AofWriter` leaves are the stream cut into pieces, each named by the number of
bytes before it. The invariant is that the bytes accepted are the files that are
closed, the file it is at, and its buffer, in this order; a closed file is never
empty, so no later file has its name and nothing is written to it again. A
rotation with nothing written makes the same empty file once more.
-/

namespace RedisHaTool.Store

open Lib

/-! ## Offsets and names -/

/-- The path of the segment that starts at an offset. -/
def segmentPath (runId : Text) (offset : Int) : Path := { runId, name := aofFileName offset }

/-- Where segments with these contents start, the first of them at an offset:
each later one is at the one before it plus that one's length. -/
def segmentOffsets : Int → List Bytes → List Int
  | _, [] => []
  | offset, c :: cs => offset :: segmentOffsets (offset + c.length) cs

theorem segmentPath_injective (runId : Text) : Function.Injective (segmentPath runId) := by
  intro o o' h
  have hname : aofFileName o = aofFileName o' := congrArg Path.name h
  exact intToString_injective (List.append_cancel_right hname)

theorem segmentOffsets_append (offset : Int) (cs : List Bytes) (c : Bytes) :
    segmentOffsets offset (cs ++ [c])
      = segmentOffsets offset cs ++ [offset + (cs.flatten.length : Nat)] := by
  induction cs generalizing offset with
  | nil => simp [segmentOffsets]
  | cons c' cs ih =>
      rw [List.cons_append, segmentOffsets, ih, segmentOffsets, List.cons_append,
        List.flatten_cons, List.length_append]
      have hsum : offset + (c'.length : Int) + (cs.flatten.length : Nat)
          = offset + ((c'.length + cs.flatten.length : Nat) : Int) := by omega
      rw [hsum]

/-- Segments that are not empty start one after another, all before they end. -/
theorem lt_of_mem_segmentOffsets {cs : List Bytes} (hcs : ∀ c ∈ cs, c ≠ []) {offset o : Int}
    (ho : o ∈ segmentOffsets offset cs) :
    offset ≤ o ∧ o < offset + (cs.flatten.length : Nat) := by
  induction cs generalizing offset with
  | nil => cases ho
  | cons c cs ih =>
      have hpos := List.length_pos_of_ne_nil (hcs c List.mem_cons_self)
      rw [List.flatten_cons, List.length_append]
      rcases List.mem_cons.1 ho with rfl | ho
      · constructor <;> omega
      · obtain ⟨hle, hlt⟩ := ih (fun c hc => hcs c (List.mem_cons_of_mem _ hc)) ho
        constructor <;> omega

theorem pairwise_segmentOffsets {cs : List Bytes} (hcs : ∀ c ∈ cs, c ≠ []) (offset : Int) :
    (segmentOffsets offset cs).Pairwise (· < ·) := by
  induction cs generalizing offset with
  | nil => exact List.Pairwise.nil
  | cons c cs ih =>
      have hpos := List.length_pos_of_ne_nil (hcs c List.mem_cons_self)
      have hrest : ∀ c ∈ cs, c ≠ [] := fun c hc => hcs c (List.mem_cons_of_mem _ hc)
      refine List.pairwise_cons.2 ⟨fun o ho => ?_, ih hrest _⟩
      have hle := (lt_of_mem_segmentOffsets hrest ho).1
      omega

/-! ## A file that changes alone -/

/-- Nothing but the file at a path has changed. -/
def OnlyAt (path : Path) (disk disk' : Disk) : Prop :=
  path ∈ disk' ∧ ∀ p, p ≠ path → disk'.lookup p = disk.lookup p

theorem onlyAt_insert (path : Path) (disk : Disk) (bs : Bytes) :
    OnlyAt path disk (disk.insert path bs) :=
  ⟨(AList.mem_insert _).2 (.inl rfl), fun _ h => AList.lookup_insert_ne h⟩

theorem OnlyAt.refl {path : Path} {disk : Disk} (h : path ∈ disk) : OnlyAt path disk disk :=
  ⟨h, fun _ _ => rfl⟩

theorem OnlyAt.trans {path : Path} {d d' d'' : Disk} (h : OnlyAt path d d')
    (h' : OnlyAt path d' d'') : OnlyAt path d d'' :=
  ⟨h'.1, fun p hp => (h'.2 p hp).trans (h.2 p hp)⟩

theorem OnlyAt.contents {path : Path} {disk disk' : Disk} (h : OnlyAt path disk disk')
    {p : Path} (hp : p ≠ path) : disk'.contents p = disk.contents p := by
  rw [Disk.contents, h.2 p hp, Disk.contents]

theorem OnlyAt.mem {path : Path} {disk disk' : Disk} (h : OnlyAt path disk disk')
    {p : Path} (hp : p ∈ disk) : p ∈ disk' := by
  by_cases heq : p = path
  · subst heq
    exact h.1
  · rw [← AList.lookup_isSome, h.2 p heq, AList.lookup_isSome]
    exact hp

theorem BufWriter.write_onlyAt (w : BufWriter) (bs : Bytes) {disk : Disk}
    (h : w.path ∈ disk) : OnlyAt w.path disk (w.write bs disk).2 := by
  simp only [BufWriter.write, BufWriter.flush]
  split
  · split
    · exact (onlyAt_insert _ _ _).trans (onlyAt_insert _ _ _)
    · exact onlyAt_insert _ _ _
  · split
    · exact onlyAt_insert _ _ _
    · exact .refl h

/-! ## What a call does -/

/-- The writer takes in some bytes and stays at its file: the file and the buffer
hold them then, and nothing else has changed. -/
structure Accepts (s s' : AofWriter × Disk) (bs : Bytes) : Prop where
  only : OnlyAt s.1.writer.path s.2 s'.2
  path : s'.1.writer.path = s.1.writer.path
  dir : s'.1.runIdDir = s.1.runIdDir
  offset : s'.1.currentOffset = s.1.currentOffset
  written : s'.1.written = s.1.written + bs.length
  file : s'.2.contents s.1.writer.path ++ s'.1.writer.buf
    = s.2.contents s.1.writer.path ++ s.1.writer.buf ++ bs

theorem AofWriter.write_eq (w : AofWriter) (bs : Bytes) (disk : Disk) :
    w.write bs disk =
      if w.written + bs.length < 2 ^ 64 then
        some ({ w with
                writer := (w.writer.write bs disk).1, written := w.written + bs.length },
              (w.writer.write bs disk).2)
      else none := rfl

theorem accepts_write {w : AofWriter} {disk : Disk} {bs : Bytes} {s' : AofWriter × Disk}
    (hpresent : w.writer.path ∈ disk) (hcall : w.write bs disk = some s') :
    Accepts (w, disk) s' bs := by
  rw [AofWriter.write_eq] at hcall
  split at hcall
  · obtain rfl := Option.some.inj hcall
    exact ⟨w.writer.write_onlyAt bs hpresent, w.writer.write_path bs disk, rfl, rfl, rfl,
      w.writer.write_contents bs disk⟩
  · cases hcall

theorem accepts_flush (w : AofWriter) (disk : Disk) : Accepts (w, disk) (w.flush disk) [] := by
  refine ⟨onlyAt_insert _ _ _, rfl, rfl, rfl, rfl, ?_⟩
  show (w.writer.flush disk).2.contents w.writer.path ++ []
    = disk.contents w.writer.path ++ w.writer.buf ++ []
  rw [w.writer.flush_contents disk]

theorem accepts_failed (w : AofWriter) (disk : Disk) (reached : Nat) :
    Accepts (w, disk) (w.failed reached disk) [] := by
  refine ⟨onlyAt_insert _ _ _, rfl, rfl, rfl, rfl, ?_⟩
  show (disk.append w.writer.path (w.writer.buf.take reached)).contents w.writer.path
    ++ w.writer.buf.drop reached = disk.contents w.writer.path ++ w.writer.buf ++ []
  rw [contents_append_self, List.append_assoc, List.take_append_drop, List.append_nil]

/-- Any call does so that is not a rotation. -/
theorem accepts_of_call {s s' : AofWriter × Disk} {call : AofCall}
    (hpresent : s.1.writer.path ∈ s.2) (hcall : AofWriter.call s call = some s')
    (hne : call ≠ .rotateIfNeeded) : Accepts s s' call.accepted := by
  cases call with
  | write bs => exact accepts_write hpresent hcall
  | flush =>
      obtain rfl := Option.some.inj hcall
      exact accepts_flush s.1 s.2
  | rotateIfNeeded => exact absurd rfl hne
  | failed reached =>
      obtain rfl := Option.some.inj hcall
      exact accepts_failed s.1 s.2 reached

/-! ## The invariant -/

/-- The files that are closed, and what was accepted for the one the writer is
at. -/
structure Rotating (runId : Text) (start : Int) (disk₀ : Disk) (accepted : Bytes)
    (closed : List Bytes) (cur : Bytes) (w : AofWriter) (disk : Disk) : Prop where
  accepted_eq : closed.flatten ++ cur = accepted
  nonempty : ∀ c ∈ closed, c ≠ []
  dir : w.runIdDir = runId
  offset : w.currentOffset = start + (closed.flatten.length : Nat)
  path : w.writer.path = segmentPath runId w.currentOffset
  written : w.written = cur.length
  file : disk.contents w.writer.path ++ w.writer.buf = cur
  present : w.writer.path ∈ disk
  closedFiles :
    (segmentOffsets start closed).map (fun o => disk.contents (segmentPath runId o)) = closed
  closedPresent : ∀ o ∈ segmentOffsets start closed, segmentPath runId o ∈ disk
  frame : ∀ p, p ≠ w.writer.path →
    (∀ o ∈ segmentOffsets start closed, p ≠ segmentPath runId o) →
    disk.lookup p = disk₀.lookup p

variable {runId : Text} {start : Int} {disk₀ disk disk' : Disk} {accepted : Bytes}
variable {closed : List Bytes} {cur : Bytes} {w w' : AofWriter}

/-- The file the writer is at is none of those that are closed. -/
theorem Rotating.closed_ne (h : Rotating runId start disk₀ accepted closed cur w disk)
    {o : Int} (ho : o ∈ segmentOffsets start closed) :
    segmentPath runId o ≠ w.writer.path := by
  intro heq
  rw [h.path] at heq
  have hsame := segmentPath_injective runId heq
  have hlt := (lt_of_mem_segmentOffsets h.nonempty ho).2
  rw [h.offset] at hsame
  omega

/-- What changes the current file alone keeps the closed ones. -/
theorem Rotating.closedFiles_of_onlyAt
    (h : Rotating runId start disk₀ accepted closed cur w disk)
    (honly : OnlyAt w.writer.path disk disk') :
    (segmentOffsets start closed).map (fun o => disk'.contents (segmentPath runId o))
      = closed := by
  refine Eq.trans (List.map_congr_left fun o ho => ?_) h.closedFiles
  exact honly.contents (h.closed_ne ho)

/-- A step that takes in some bytes and leaves the writer at its file. -/
theorem Rotating.accept (h : Rotating runId start disk₀ accepted closed cur w disk)
    {bs : Bytes} (hstep : Accepts (w, disk) (w', disk') bs) :
    Rotating runId start disk₀ (accepted ++ bs) closed (cur ++ bs) w' disk' where
  accepted_eq := by rw [← List.append_assoc, h.accepted_eq]
  nonempty := h.nonempty
  dir := hstep.dir.trans h.dir
  offset := hstep.offset.trans h.offset
  path := by rw [hstep.path, hstep.offset, h.path]
  written := by rw [hstep.written, h.written, List.length_append]
  file := by rw [hstep.path, hstep.file, h.file]
  present := hstep.path ▸ hstep.only.1
  closedFiles := h.closedFiles_of_onlyAt hstep.only
  closedPresent := fun o ho => hstep.only.mem (h.closedPresent o ho)
  frame := by
    intro p hp hclosed
    rw [hstep.path] at hp
    rw [hstep.only.2 p hp, h.frame p hp hclosed]

/-- And one that takes in none. -/
theorem Rotating.accept_nil (h : Rotating runId start disk₀ accepted closed cur w disk)
    (hstep : Accepts (w, disk) (w', disk') []) :
    Rotating runId start disk₀ accepted closed cur w' disk' := by
  have hkeep := h.accept hstep
  rwa [List.append_nil, List.append_nil] at hkeep

/-! ## One call -/

/-- The writer moves to the file at an offset. -/
def AofWriter.moveTo (w : AofWriter) (newOffset : Int) : AofWriter :=
  { w with
    writer := { path := segmentPath w.runIdDir newOffset, buf := [] },
    currentPath := segmentPath w.runIdDir newOffset, currentOffset := newOffset,
    written := 0 }

/-- A rotation is a flush and a move. -/
theorem AofWriter.checkRotation_eq (w : AofWriter) (disk : Disk) :
    w.checkRotation disk =
      if w.logSize ≤ w.written then
        if IsI64 (w.currentOffset + asI64 w.written) then
          some ((w.flush disk).1.moveTo (w.currentOffset + asI64 w.written),
            (w.flush disk).2.create
              (segmentPath w.runIdDir (w.currentOffset + asI64 w.written)))
        else none
      else some (w, disk) := rfl

theorem Rotating.flush (h : Rotating runId start disk₀ accepted closed cur w disk) :
    Rotating runId start disk₀ accepted closed cur (w.flush disk).1 (w.flush disk).2 :=
  h.accept_nil (accepts_flush w disk)

/-- With something in it, the file at hand is closed. -/
theorem Rotating.close (h : Rotating runId start disk₀ accepted closed cur w disk)
    (hbuf : w.writer.buf = []) (hcur : cur ≠ []) :
    Rotating runId start disk₀ accepted (closed ++ [cur]) []
      (w.moveTo (w.currentOffset + cur.length))
      (disk.create (segmentPath runId (w.currentOffset + cur.length))) := by
  have hpos := List.length_pos_of_ne_nil hcur
  have hfile := h.file
  rw [hbuf, List.append_nil] at hfile
  have hcurrent : w.writer.path = segmentPath runId (start + (closed.flatten.length : Nat)) := by
    rw [h.path, h.offset]
  -- The new file has a name of its own.
  have honly := onlyAt_insert (segmentPath runId (w.currentOffset + cur.length)) disk []
  have hne : ∀ o, o < w.currentOffset + cur.length →
      segmentPath runId o ≠ segmentPath runId (w.currentOffset + cur.length) := by
    intro o ho heq
    have := segmentPath_injective runId heq
    omega
  have hmoved : (w.moveTo (w.currentOffset + cur.length)).writer.path
      = segmentPath runId (w.currentOffset + cur.length) := by
    show segmentPath w.runIdDir _ = _
    rw [h.dir]
  have hall : ∀ o ∈ segmentOffsets start (closed ++ [cur]), o < w.currentOffset + cur.length := by
    intro o ho
    rw [segmentOffsets_append, List.mem_append, List.mem_singleton] at ho
    rw [h.offset]
    rcases ho with ho | rfl
    · have := (lt_of_mem_segmentOffsets h.nonempty ho).2
      omega
    · omega
  constructor
  case accepted_eq => simpa using h.accepted_eq
  case nonempty =>
    intro c hc
    rw [List.mem_append, List.mem_singleton] at hc
    rcases hc with hc | rfl
    · exact h.nonempty c hc
    · exact hcur
  case dir => exact h.dir
  case offset =>
    show w.currentOffset + (cur.length : Int) = _
    rw [h.offset, List.flatten_append, List.length_append]
    simp only [List.flatten_cons, List.flatten_nil, List.append_nil]
    omega
  case path => exact hmoved
  case written => rfl
  case file =>
    rw [hmoved, contents_create_self]
    rfl
  case present => exact hmoved ▸ honly.1
  case closedFiles =>
    rw [segmentOffsets_append, List.map_append, List.map_singleton]
    congr 1
    · refine Eq.trans (List.map_congr_left fun o ho => ?_) h.closedFiles
      exact honly.contents (hne o (hall o (by rw [segmentOffsets_append]; simp [ho])))
    · have hlast := honly.contents (hne (start + (closed.flatten.length : Nat)) (by
        rw [h.offset]
        omega))
      rw [← hcurrent] at hlast
      rw [← hcurrent]
      exact congrArg (fun c => [c]) (hlast.trans hfile)
  case closedPresent =>
    intro o ho
    rw [segmentOffsets_append, List.mem_append, List.mem_singleton] at ho
    rcases ho with ho | rfl
    · exact honly.mem (h.closedPresent o ho)
    · exact honly.mem (hcurrent ▸ h.present)
  case frame =>
    intro p hp hclosed
    rw [hmoved] at hp
    rw [segmentOffsets_append] at hclosed
    have hpath : p ≠ w.writer.path := by
      rw [hcurrent]
      exact hclosed _ (by simp)
    exact (honly.2 p hp).trans (h.frame p hpath fun o ho => hclosed o (by simp [ho]))

/-- With nothing in it, the file at hand is made once more. -/
theorem Rotating.again (h : Rotating runId start disk₀ accepted closed [] w disk)
    (hbuf : w.writer.buf = []) :
    Rotating runId start disk₀ accepted closed [] (w.moveTo w.currentOffset)
      (disk.create (segmentPath runId w.currentOffset)) := by
  have hsame : w.writer.path = segmentPath runId w.currentOffset := h.path
  have hfile := h.file
  rw [hbuf, List.append_nil] at hfile
  have hmoved : (w.moveTo w.currentOffset).writer.path = w.writer.path := by
    rw [hsame]
    show segmentPath w.runIdDir _ = _
    rw [h.dir]
  refine h.accept_nil
    ⟨hsame ▸ onlyAt_insert _ _ _, hmoved, rfl, rfl, h.written.symm, ?_⟩
  show (disk.create (segmentPath runId w.currentOffset)).contents w.writer.path ++ []
    = disk.contents w.writer.path ++ w.writer.buf ++ []
  rw [hfile, hbuf, hsame, contents_create_self]
  rfl

/-- A rotation closes the file at hand, makes it once more, or is not due. -/
theorem Rotating.checkRotation (h : Rotating runId start disk₀ accepted closed cur w disk)
    (hbound : start + accepted.length ≤ 2 ^ 63 - 1)
    (hcall : w.checkRotation disk = some (w', disk')) :
    ∃ closed' cur', Rotating runId start disk₀ accepted closed' cur' w' disk' := by
  rw [AofWriter.checkRotation_eq] at hcall
  split at hcall
  · split at hcall
    · next hnew =>
        obtain ⟨rfl, rfl⟩ := Prod.mk.inj (Option.some.inj hcall)
        have hlen := congrArg List.length h.accepted_eq
        rw [List.length_append] at hlen
        have hoffset := h.offset
        -- Read as an `i64` the count is what it is, or the new offset would be out of range.
        have hcast : asI64 w.written = cur.length := by
          have hlow := hnew.1
          rw [asI64, h.written] at hlow ⊢
          split
          · rfl
          · next hbig =>
              rw [if_neg hbig] at hlow
              omega
        have hflush := h.flush
        rw [hcast, h.dir]
        by_cases hcur : cur = []
        · subst hcur
          rw [List.length_nil, Nat.cast_zero, Int.add_zero]
          exact ⟨closed, [], hflush.again rfl⟩
        · exact ⟨closed ++ [cur], [], hflush.close rfl hcur⟩
    · cases hcall
  · obtain ⟨rfl, rfl⟩ := Prod.mk.inj (Option.some.inj hcall)
    exact ⟨closed, cur, h⟩

/-! ## Many calls -/

theorem Rotating.calls {calls : List AofCall} {s s' : AofWriter × Disk}
    (hrun : Steps AofWriter.call Free s calls s')
    (h : Rotating runId start disk₀ accepted closed cur s.1 s.2)
    (hbound : start + (accepted ++ acceptedBytes calls).length ≤ 2 ^ 63 - 1) :
    ∃ closed' cur', Rotating runId start disk₀ (accepted ++ acceptedBytes calls) closed' cur'
      s'.1 s'.2 := by
  induction hrun generalizing accepted closed cur with
  | refl s =>
      rw [acceptedBytes, List.flatMap_nil, List.append_nil]
      exact ⟨closed, cur, h⟩
  | @cons s t u call calls _ hcall _ ih =>
      have hsplit : accepted ++ acceptedBytes (call :: calls)
          = accepted ++ call.accepted ++ acceptedBytes calls := by
        simp [acceptedBytes]
      rw [hsplit] at hbound ⊢
      by_cases hrotate : call = .rotateIfNeeded
      · subst hrotate
        rw [AofCall.accepted, List.append_nil] at hbound ⊢
        have hlen : (accepted ++ acceptedBytes calls).length =
            accepted.length + (acceptedBytes calls).length := List.length_append
        obtain ⟨closed', cur', h'⟩ := h.checkRotation (by omega) hcall
        exact ih h' hbound
      · exact ih (h.accept (accepts_of_call h.present hcall hrotate)) hbound

theorem Rotating.init (s : FileStorer) (runId : Text) {offset : Int} (hoffset : IsI64 offset)
    (logSize now : Nat) :
    Rotating runId offset s.disk [] [] [] (AofWriter.start s runId offset logSize now).1
      (AofWriter.start s runId offset logSize now).2 := by
  obtain ⟨hends, hparse⟩ := parse_aofFileName hoffset
  have hparsed : (AofWriter.start s runId offset logSize now).1.currentOffset = offset := by
    show (if endsWith (aofFileName offset) ".aof".toList = true then
      (parseI64 (trimEndMatches (aofFileName offset) ".aof".toList)).getD 0 else 0) = offset
    rw [if_pos hends, hparse]
    rfl
  have honly := onlyAt_insert (segmentPath runId offset) s.disk []
  constructor
  case accepted_eq => rfl
  case nonempty => intro c hc; cases hc
  case dir => rfl
  case offset => rw [hparsed]; simp
  case path => rw [hparsed]; rfl
  case written => rfl
  case file => exact (List.append_nil _).trans (contents_create_self s.disk _)
  case present => exact honly.1
  case closedFiles => rfl
  case closedPresent => intro o ho; cases ho
  case frame => intro p hp _; exact honly.2 p hp

/-- Whatever is called, after a last flush the files are the bytes accepted, cut
into segments that start where their names say, one after another; no other file
has been touched. -/
theorem segments_tile (s : FileStorer) (runId : Text) {offset : Int} (logSize now : Nat)
    {calls : List AofCall} {w : AofWriter} {disk : Disk}
    (hrun : Steps AofWriter.call Free (AofWriter.start s runId offset logSize now) calls (w, disk))
    (hoffset : IsI64 offset) (hend : IsI64 (offset + (acceptedBytes calls).length)) :
    ∃ cs : List Bytes, cs ≠ [] ∧ cs.flatten = acceptedBytes calls ∧
      (segmentOffsets offset cs).Pairwise (· < ·) ∧
      (segmentOffsets offset cs).map
        (fun o => (w.flush disk).2.contents (segmentPath runId o)) = cs ∧
      (∀ o ∈ segmentOffsets offset cs, ∀ created,
        DataSetAof.fromPathSync (w.flush disk).2 created (segmentPath runId o)
          = .ok { path := segmentPath runId o, offset := o,
                  createdAt := created (segmentPath runId o) }) ∧
      ∀ p, (∀ o ∈ segmentOffsets offset cs, p ≠ segmentPath runId o) →
        (w.flush disk).2.lookup p = s.disk.lookup p := by
  have hinit := Rotating.init s runId hoffset logSize now
  have hbound : offset + (([] : Bytes) ++ acceptedBytes calls).length ≤ 2 ^ 63 - 1 := hend.2
  obtain ⟨closed, cur, h⟩ := hinit.calls hrun hbound
  rw [List.nil_append] at h
  have hflush := h.flush
  have hfile : (w.flush disk).2.contents
      (segmentPath runId (offset + (closed.flatten.length : Nat))) = cur := by
    have hcontents := hflush.file
    rw [hflush.path, hflush.offset] at hcontents
    exact (List.append_nil _).symm.trans hcontents
  have hlast : (w.flush disk).1.writer.path
      = segmentPath runId (offset + (closed.flatten.length : Nat)) := by
    rw [hflush.path, hflush.offset]
  have hlen := congrArg List.length h.accepted_eq
  rw [List.length_append] at hlen
  refine ⟨closed ++ [cur], by simp, by simpa using h.accepted_eq, ?_, ?_, ?_, ?_⟩
  · rw [segmentOffsets_append, List.pairwise_append]
    refine ⟨pairwise_segmentOffsets h.nonempty offset, List.pairwise_singleton _ _, ?_⟩
    intro o ho o' ho'
    rw [List.mem_singleton.1 ho']
    exact (lt_of_mem_segmentOffsets h.nonempty ho).2
  · rw [segmentOffsets_append, List.map_append, hflush.closedFiles, List.map_singleton, hfile]
  · intro o ho created
    rw [segmentOffsets_append, List.mem_append, List.mem_singleton] at ho
    have hlow := hoffset.1
    have hhigh := hend.2
    rcases ho with ho | rfl
    · have hrange := lt_of_mem_segmentOffsets h.nonempty ho
      exact fromPathSync_aofFileName ⟨by omega, by omega⟩ (hflush.closedPresent o ho) created
    · have hpresent : segmentPath runId (offset + (closed.flatten.length : Nat))
          ∈ (w.flush disk).2 := hlast ▸ hflush.present
      exact fromPathSync_aofFileName ⟨by omega, by omega⟩ hpresent created
  · intro p hp
    rw [segmentOffsets_append] at hp
    refine hflush.frame p ?_ fun o ho => hp o (by simp [ho])
    rw [hlast]
    exact hp _ (by simp)

/-- Rotations with nothing written, one that is due, and a write that failed. -/
def someAofCalls : List AofCall :=
  [.rotateIfNeeded, .write [1, 2, 3], .failed 1, .rotateIfNeeded, .rotateIfNeeded, .write [4]]

theorem someAofCalls_complete :
    (exec AofWriter.call (fun _ _ => true)
      (AofWriter.start (.new ∅) "r".toList 5 0 0) someAofCalls).isSome = true := by
  decide +kernel

theorem segments_tile_sample :
    ∃ (disk : Disk) (cs : List Bytes), cs.flatten = [1, 2, 3, 4] ∧
      (segmentOffsets 5 cs).map (fun o => disk.contents (segmentPath "r".toList o)) = cs := by
  have hrun : Steps AofWriter.call Free (AofWriter.start (.new ∅) "r".toList 5 0 0) someAofCalls
      ((exec AofWriter.call (fun _ _ => true)
        (AofWriter.start (.new ∅) "r".toList 5 0 0) someAofCalls).get someAofCalls_complete) :=
    .of_exec _ (Option.some_get _).symm fun _ _ _ => trivial
  obtain ⟨cs, -, hflatten, -, hfiles, -⟩ :=
    segments_tile (.new ∅) "r".toList 0 0 hrun (by decide) (by decide)
  exact ⟨_, cs, hflatten, hfiles⟩

end RedisHaTool.Store
