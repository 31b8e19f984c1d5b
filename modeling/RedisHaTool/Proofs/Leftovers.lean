import RedisHaTool.Proofs.RdbHandoff
import RedisHaTool.Proofs.Streaming

/-!
# What earlier processes left

`main` builds a `FileStorer` with an empty data set and never scans the directory, and
every file is created before it is written, read or listed. So a process neither sees
nor changes what earlier processes left there: whatever it is, each of its runs is a
run over any other directory too, with the same connections, the same bytes and the
same offsets.
-/

namespace RedisHaTool.Syncer

open Lib Store Checkpoint

/-! ## The files of a process -/

/-- The file is listed under some run id. -/
def Lists (d : DataSet) (path : Path) : Prop :=
  (∃ id, ∃ r ∈ listed d.rdbFiles id, r.path = path) ∨
    ∃ id, ∃ a ∈ listed d.aofSegments id, a.path = path

theorem lists_addRdb (d : DataSet) (runId : Text) (rdb : DataSetRdb) (path : Path) :
    Lists (d.addRdb runId rdb) path ↔ Lists d path ∨ path = rdb.path := by
  constructor
  · rintro (⟨id, r, hr, rfl⟩ | haof)
    · rcases mem_listed_pushSorted.1 hr with hr | ⟨-, rfl⟩
      · exact .inl (.inl ⟨id, r, hr, rfl⟩)
      · exact .inr rfl
    · exact .inl (.inr haof)
  · rintro ((⟨id, r, hr, rfl⟩ | haof) | rfl)
    · exact .inl ⟨id, r, mem_listed_pushSorted.2 (.inl hr), rfl⟩
    · exact .inr haof
    · exact .inl ⟨runId, rdb, mem_listed_pushSorted.2 (.inr ⟨rfl, rfl⟩), rfl⟩

theorem lists_addAof (d : DataSet) (runId : Text) (aof : DataSetAof) (path : Path) :
    Lists (d.addAof runId aof) path ↔ Lists d path ∨ path = aof.path := by
  constructor
  · rintro (hrdb | ⟨id, a, ha, rfl⟩)
    · exact .inl (.inl hrdb)
    · rcases mem_listed_pushSorted.1 ha with ha | ⟨-, rfl⟩
      · exact .inl (.inr ⟨id, a, ha, rfl⟩)
      · exact .inr rfl
  · rintro ((hrdb | ⟨id, a, ha, rfl⟩) | rfl)
    · exact .inl hrdb
    · exact .inr ⟨id, a, mem_listed_pushSorted.2 (.inl ha), rfl⟩
    · exact .inr ⟨runId, aof, mem_listed_pushSorted.2 (.inr ⟨rfl, rfl⟩), rfl⟩

/-- Two disks hold the same under a path. -/
def SameFile (disk disk' : Disk) (path : Path) : Prop := disk.lookup path = disk'.lookup path

variable {disk disk' : Disk} {path other : Path}

theorem SameFile.contents (h : SameFile disk disk' path) :
    disk.contents path = disk'.contents path := by
  rw [Disk.contents, Disk.contents, h]

theorem SameFile.mem_iff (h : SameFile disk disk' path) : path ∈ disk ↔ path ∈ disk' := by
  rw [← AList.lookup_isSome, ← AList.lookup_isSome, h]

/-! ## What is done with a file -/

/-- Nothing but this file is changed. -/
def Only (path : Path) (disk next : Disk) : Prop := ∀ other ≠ path, SameFile next disk other

theorem only_create (disk : Disk) (path : Path) : Only path disk (disk.create path) :=
  fun _ hne => AList.lookup_insert_ne hne

theorem only_append (disk : Disk) (path : Path) (bs : Bytes) :
    Only path disk (disk.append path bs) :=
  fun _ hne => AList.lookup_insert_ne hne

theorem sameFile_append (h : SameFile disk disk' path) (bs : Bytes) :
    SameFile (disk.append path bs) (disk'.append path bs) path := by
  rw [SameFile, Disk.append, Disk.append, AList.lookup_insert, AList.lookup_insert, h.contents]

/-- A write does the same on both, and changes its file only. -/
structure Writes (w : BufWriter) (disk disk' : Disk) (next next' : BufWriter × Disk) : Prop where
  writer : next.1 = next'.1
  path : next.1.path = w.path
  file : SameFile next.2 next'.2 w.path
  only : Only w.path disk next.2 ∧ Only w.path disk' next'.2

theorem writes_flush {w : BufWriter} (h : SameFile disk disk' w.path) :
    Writes w disk disk' (w.flush disk) (w.flush disk') where
  writer := rfl
  path := rfl
  file := sameFile_append h w.buf
  only := ⟨only_append _ _ _, only_append _ _ _⟩

theorem writes_write {w : BufWriter} (h : SameFile disk disk' w.path) (bs : Bytes) :
    Writes w disk disk' (w.write bs disk) (w.write bs disk') := by
  have honly : ∀ disk : Disk, Only w.path disk (w.flush disk).2 :=
    fun disk => only_append disk w.path w.buf
  have hflushed := sameFile_append h w.buf
  by_cases hroom : w.buf.length + bs.length > BufWriter.capacity
  · by_cases hbig : BufWriter.capacity ≤ bs.length
    · simp only [BufWriter.write, if_pos hroom, if_pos hbig]
      refine ⟨rfl, rfl, sameFile_append hflushed bs, fun other hne => ?_, fun other hne => ?_⟩
      · exact (only_append _ w.path bs other hne).trans (honly disk other hne)
      · exact (only_append _ w.path bs other hne).trans (honly disk' other hne)
    · simp only [BufWriter.write, if_pos hroom, if_neg hbig]
      exact ⟨rfl, rfl, hflushed, honly disk, honly disk'⟩
  · by_cases hbig : BufWriter.capacity ≤ bs.length
    · simp only [BufWriter.write, if_neg hroom, if_pos hbig]
      exact ⟨rfl, rfl, sameFile_append h bs, only_append _ _ _, only_append _ _ _⟩
    · simp only [BufWriter.write, if_neg hroom, if_neg hbig]
      exact ⟨rfl, rfl, h, fun _ _ => rfl, fun _ _ => rfl⟩

/-! ## What is found -/

/-- Two disks hold the same under every path that is listed. -/
def Agree (d : DataSet) (disk disk' : Disk) : Prop :=
  ∀ path, Lists d path → SameFile disk disk' path

/-- The storer over another directory. -/
def elsewhere (storer : FileStorer) (disk : Disk) : FileStorer := { storer with disk }

section Found

variable {storer : FileStorer} {offset : Int} {runId : Text}

theorem lists_of_findRdb {d : DataSet} {rdb : DataSetRdb}
    (h : d.findRdb runId offset = some rdb) : Lists d rdb.path :=
  .inl ⟨runId, rdb, (findRdb_eq_some h).1, rfl⟩

theorem lists_of_findAof {d : DataSet} {aof : DataSetAof}
    (h : d.findAof runId offset = some aof) : Lists d aof.path :=
  .inr ⟨runId, aof, (findAof_eq_some h).1, rfl⟩

theorem rdbOpen_congr (h : SameFile disk disk' path) (offset size : Int) :
    RdbReader.open disk path offset size = RdbReader.open disk' path offset size := by
  rw [RdbReader.open, RdbReader.open]
  exact if_congr h.mem_iff rfl rfl

theorem aofOpen_congr (h : SameFile disk disk' path) (offset aofStartOffset : Int) :
    AofReader.open disk path offset aofStartOffset
      = AofReader.open disk' path offset aofStartOffset := by
  rw [AofReader.open, AofReader.open]
  exact if_congr (and_congr_left' h.mem_iff) rfl rfl

theorem availableOf_elsewhere (h : Agree storer.dataSet storer.disk disk') :
    (elsewhere storer disk').availableOf offset runId = storer.availableOf offset runId := by
  have hrdb : ∀ rdb, storer.dataSet.findRdb runId offset = some rdb →
      (if rdb.path ∈ disk' then some (rdb.offset + rdb.size - offset) else none)
        = if rdb.path ∈ storer.disk then some (rdb.offset + rdb.size - offset) else none :=
    fun rdb hfind => if_congr (h rdb.path (lists_of_findRdb hfind)).mem_iff.symm rfl rfl
  have haof : ∀ aof, storer.dataSet.findAof runId offset = some aof → ∀ available : Int,
      (if aof.path ∈ disk' ∧ 0 < available then some available else none)
        = if aof.path ∈ storer.disk ∧ 0 < available then some available else none :=
    fun aof hfind _ =>
      if_congr (and_congr_left' (h aof.path (lists_of_findAof hfind)).mem_iff.symm) rfl rfl
  rw [FileStorer.availableOf, FileStorer.availableOf]
  refine congrArg₂ _ (Option.bind_congr hrdb) (funext fun _ => Option.bind_congr ?_)
  intro aof hfind
  have hcontents : (elsewhere storer disk').disk.contents aof.path
      = storer.disk.contents aof.path :=
    (h aof.path (lists_of_findAof hfind)).contents.symm
  dsimp only
  rw [hcontents]
  exact haof aof hfind _

theorem availableBytes_elsewhere (h : Agree storer.dataSet storer.disk disk') :
    (elsewhere storer disk').availableBytes offset = storer.availableBytes offset := by
  have hsame : (elsewhere storer disk').availableOf offset = storer.availableOf offset :=
    funext fun _ => availableOf_elsewhere h
  rw [FileStorer.availableBytes, FileStorer.availableBytes, hsame]
  rfl

theorem readerOf_elsewhere (h : Agree storer.dataSet storer.disk disk') :
    (elsewhere storer disk').readerOf offset runId = storer.readerOf offset runId := by
  cases hfind : storer.dataSet.findRdb runId offset with
  | some rdb =>
      have hopen := rdbOpen_congr (h rdb.path (lists_of_findRdb hfind))
      simp only [FileStorer.readerOf, elsewhere, hfind, hopen]
  | none =>
      cases hfind' : storer.dataSet.findAof runId offset with
      | none => simp only [FileStorer.readerOf, elsewhere, hfind, hfind', Option.map_none]
      | some aof =>
          have hopen := aofOpen_congr (h aof.path (lists_of_findAof hfind'))
          simp only [FileStorer.readerOf, elsewhere, hfind, hfind', Option.map_some, hopen]

theorem getReader_elsewhere (h : Agree storer.dataSet storer.disk disk') :
    (elsewhere storer disk').getReader offset = storer.getReader offset := by
  have hsame : (elsewhere storer disk').readerOf offset = storer.readerOf offset :=
    funext fun _ => readerOf_elsewhere h
  rw [FileStorer.getReader, FileStorer.getReader, hsame]
  rfl

/-- A reader reads a file that is listed. -/
theorem lists_of_getReader {r : AofReader} (h : storer.getReader offset = .ok (.aof r)) :
    Lists storer.dataSet r.path := by
  obtain ⟨id, aof, haof, hat⟩ := exists_findAof h
  exact hat.path_eq ▸ lists_of_findAof haof

end Found

/-! ## Two directories -/

/-- Two disks that were `disk` and `disk'` when the process started: the files it has
listed are the same on both, all others are as they were. -/
structure Files (disk disk' : Disk) (d : DataSet) (now now' : Disk) : Prop where
  agree : Agree d now now'
  rest : ∀ path, ¬ Lists d path → SameFile now disk path ∧ SameFile now' disk' path

section Files

variable {d d' : DataSet} {now now' : Disk}

theorem files_new (disk disk' : Disk) : Files disk disk' .new disk disk' where
  agree := by
    rintro path (⟨id, r, hr, -⟩ | ⟨id, a, ha, -⟩)
    · exact absurd hr List.not_mem_nil
    · exact absurd ha List.not_mem_nil
  rest := fun _ _ => ⟨rfl, rfl⟩

theorem Files.writes (h : Files disk disk' d now now') {w : BufWriter}
    {next next' : BufWriter × Disk} (hlists : Lists d w.path)
    (hwrites : Writes w now now' next next') : Files disk disk' d next.2 next'.2 where
  agree := by
    intro path hpath
    by_cases heq : path = w.path
    · exact heq ▸ hwrites.file
    · exact ((hwrites.only.1 path heq).trans (h.agree path hpath)).trans
        (hwrites.only.2 path heq).symm
  rest := by
    intro path hpath
    have hne : path ≠ w.path := fun heq => hpath (heq ▸ hlists)
    obtain ⟨hsame, hsame'⟩ := h.rest path hpath
    exact ⟨(hwrites.only.1 path hne).trans hsame, (hwrites.only.2 path hne).trans hsame'⟩

theorem Files.create (h : Files disk disk' d now now')
    (hd : ∀ other, Lists d' other ↔ Lists d other ∨ other = path) :
    Files disk disk' d' (now.create path) (now'.create path) where
  agree := by
    intro other hother
    by_cases heq : other = path
    · rw [SameFile, heq, Disk.create, Disk.create, AList.lookup_insert, AList.lookup_insert]
    · have hold : SameFile now now' other :=
        h.agree other (((hd other).1 hother).resolve_right heq)
      exact ((only_create now path other heq).trans hold).trans
        (only_create now' path other heq).symm
  rest := by
    intro other hother
    have hne : other ≠ path := fun heq => hother ((hd other).2 (.inr heq))
    obtain ⟨hsame, hsame'⟩ := h.rest other fun hold => hother ((hd other).2 (.inl hold))
    exact ⟨(only_create now path other hne).trans hsame,
      (only_create now' path other hne).trans hsame'⟩

end Files

/-! ## The task on either -/

/-- What the task reads is listed. -/
def Forwarder.ReadsListed (d : DataSet) (f : Forwarder) : Prop :=
  match f.pc with
  | .connect r | .read r _ | .write r _ _ => Lists d r.path
  | _ => True

section Task

variable {storer : FileStorer} {masterReplid : Text} {f f' : Forwarder} {act : ForwardAct}
  {events : List Event}

theorem remaining_elsewhere {r : AofReader} (h : Agree storer.dataSet storer.disk disk')
    (hr : Lists storer.dataSet r.path) :
    r.remaining (elsewhere storer disk').disk = r.remaining storer.disk := by
  rw [AofReader.remaining, AofReader.remaining, (h r.path hr).contents]
  rfl

theorem step_elsewhere (h : Agree storer.dataSet storer.disk disk')
    (hreads : f.ReadsListed storer.dataSet) :
    f.step (elsewhere storer disk') masterReplid act = f.step storer masterReplid act := by
  cases act with
  | check =>
      cases hpc : f.pc with
      | check => simp only [Forwarder.step, hpc, availableBytes_elsewhere h]
      | _ => simp only [Forwarder.step, hpc]
  | «open» =>
      cases hpc : f.pc with
      | «open» => simp only [Forwarder.step, hpc, getReader_elsewhere h]
      | _ => simp only [Forwarder.step, hpc]
  | read n =>
      cases hpc : f.pc with
      | read r sent =>
          rw [Forwarder.ReadsListed, hpc] at hreads
          simp only [Forwarder.step, hpc, remaining_elsewhere h hreads]
      | _ => simp only [Forwarder.step, hpc]
  | finish elapsed now =>
      cases hpc : f.pc with
      | read r sent =>
          rw [Forwarder.ReadsListed, hpc] at hreads
          simp only [Forwarder.step, hpc, remaining_elsewhere h hreads]
      | _ => simp only [Forwarder.step, hpc]
  | saved | saveFailed executed =>
      cases hpc : f.pc with
      | save calls =>
          rcases calls with _ | ⟨_ | ⟨c, cs⟩, calls⟩ <;> simp only [Forwarder.step, hpc]
      | _ => simp only [Forwarder.step, hpc]
  | _ => cases hpc : f.pc <;> simp only [Forwarder.step, hpc]

theorem Forwarder.ReadsListed.notified {d : DataSet} (h : f.ReadsListed d) :
    f.notified.ReadsListed d := by
  unfold Forwarder.notified
  split
  · trivial
  · exact h

theorem Forwarder.ReadsListed.mono {d d' : DataSet} (h : f.ReadsListed d)
    (hd : ∀ path, Lists d path → Lists d' path) : f.ReadsListed d' := by
  unfold Forwarder.ReadsListed at h ⊢
  split
  · next r hpc => exact hd _ (by simpa [hpc] using h)
  · next r sent hpc => exact hd _ (by simpa [hpc] using h)
  · next r sent chunk hpc => exact hd _ (by simpa [hpc] using h)
  · trivial

theorem readsListed_saving {d : DataSet} (calls : List (List Command)) :
    Forwarder.ReadsListed d { f with pc := .saving calls } := by
  rcases saving_cases calls with heq | ⟨calls', heq⟩
  · rw [heq]
    trivial
  · rw [heq]
    trivial

theorem Forwarder.ReadsListed.step (h : f.ReadsListed storer.dataSet)
    (hstep : f.Stepped storer masterReplid act f' events) :
    f'.ReadsListed storer.dataSet := by
  cases hstep with
  | aofReader hpc r hreader | aofConnect hpc r hreader => exact lists_of_getReader hreader
  | connected r hpc | read r sent n hpc | wrote r sent chunk hpc =>
      rw [Forwarder.ReadsListed, hpc] at h
      exact h
  | saved c cs calls hpc => exact readsListed_saving (cs :: calls)
  | saveFailed c cs calls hpc executed => exact readsListed_saving calls
  | _ => trivial

end Task

/-! ## Every run -/

/-- The process over another directory. -/
def Sys.onDisk (s : Sys) (disk : Disk) : Sys := { s with storer := elsewhere s.storer disk }

theorem Sys.onDisk_log (s : Sys) (disk : Disk) : (s.onDisk disk).log = s.log := rfl

theorem Sys.onDisk_disk (s : Sys) (disk : Disk) : (s.onDisk disk).storer.disk = disk := rfl

/-- A state of the process, and what the other directory then holds. -/
structure Alike (disk disk' : Disk) (s : Sys) (now' : Disk) : Prop where
  files : Files disk disk' s.storer.dataSet s.storer.disk now'
  rdbWriter : ∀ w, s.rdbWriter = some w → Lists s.storer.dataSet w.path
  aofWriter : ∀ w, s.aofWriter = some w → Lists s.storer.dataSet w.path
  reads : ∀ o f, s.leader = .forwarding o f → f.ReadsListed s.storer.dataSet

section Run

variable {s t : Sys} {now' : Disk}

/-- What a write and a flush of the RDB file have in common. -/
def Sys.onRdb (s : Sys) (write : BufWriter → Disk → BufWriter × Disk) (leader : LeaderPc) : Sys :=
  match s.rdbWriter with
  | none => s
  | some w =>
      let (w, disk) := write w s.storer.disk
      { s with storer := { s.storer with disk }, rdbWriter := some w, leader }

/-- And of the AOF file. -/
def Sys.onAof (s : Sys) (write : BufWriter → Disk → BufWriter × Disk) (leader : LeaderPc) : Sys :=
  match s.aofWriter with
  | none => s
  | some w =>
      let (w, disk) := write w s.storer.disk
      { s with storer := { s.storer with disk }, aofWriter := some w, leader }

variable (write : BufWriter → Disk → BufWriter × Disk) (leader : LeaderPc)

theorem Alike.onRdb (h : Alike disk disk' s now')
    (hwrite : ∀ w disk disk', SameFile disk disk' w.path →
      Writes w disk disk' (write w disk) (write w disk'))
    (hreads : ∀ o f, (s.onRdb write leader).leader = .forwarding o f →
      f.ReadsListed s.storer.dataSet) :
    ∃ next', (s.onDisk now').onRdb write leader = (s.onRdb write leader).onDisk next' ∧
      Alike disk disk' (s.onRdb write leader) next' := by
  cases hw : s.rdbWriter with
  | none =>
      have hsame : ∀ u : Sys, u.rdbWriter = none → u.onRdb write leader = u := by
        intro u hu
        simp only [Sys.onRdb, hu]
      rw [hsame s hw, hsame (s.onDisk now') hw]
      exact ⟨now', rfl, h⟩
  | some w =>
      have hlists := h.rdbWriter w hw
      have hwrites := hwrite w _ _ (h.files.agree w.path hlists)
      refine ⟨(write w now').2, ?_, ?_⟩
      · simp only [Sys.onRdb, Sys.onDisk, elsewhere, hw, ← hwrites.writer]
      · simp only [Sys.onRdb, hw] at hreads ⊢
        refine ⟨h.files.writes hlists hwrites, fun w' hw' => ?_, h.aofWriter, hreads⟩
        obtain rfl := Option.some.inj hw'
        exact hwrites.path ▸ hlists

theorem Alike.onAof (h : Alike disk disk' s now')
    (hwrite : ∀ w disk disk', SameFile disk disk' w.path →
      Writes w disk disk' (write w disk) (write w disk'))
    (hreads : ∀ o f, (s.onAof write leader).leader = .forwarding o f →
      f.ReadsListed s.storer.dataSet) :
    ∃ next', (s.onDisk now').onAof write leader = (s.onAof write leader).onDisk next' ∧
      Alike disk disk' (s.onAof write leader) next' := by
  cases hw : s.aofWriter with
  | none =>
      have hsame : ∀ u : Sys, u.aofWriter = none → u.onAof write leader = u := by
        intro u hu
        simp only [Sys.onAof, hu]
      rw [hsame s hw, hsame (s.onDisk now') hw]
      exact ⟨now', rfl, h⟩
  | some w =>
      have hlists := h.aofWriter w hw
      have hwrites := hwrite w _ _ (h.files.agree w.path hlists)
      refine ⟨(write w now').2, ?_, ?_⟩
      · simp only [Sys.onAof, Sys.onDisk, elsewhere, hw, ← hwrites.writer]
      · simp only [Sys.onAof, hw] at hreads ⊢
        refine ⟨h.files.writes hlists hwrites, h.rdbWriter, fun w' hw' => ?_, hreads⟩
        obtain rfl := Option.some.inj hw'
        exact hwrites.path ▸ hlists

theorem Alike.perform (h : Alike disk disk' s now') (now : Nat) (op : InputOp) :
    ∃ next', (s.onDisk now').perform now op = (s.perform now op).onDisk next' ∧
      Alike disk disk' (s.perform now op) next' := by
  have hreads : ∀ o f, (s.perform now op).leader = .forwarding o f →
      f.ReadsListed s.storer.dataSet := by
    intro o f hf
    obtain ⟨g, hg, rfl | rfl⟩ := forwarding_of_perform hf
    · exact h.reads o f hg
    · exact (h.reads o g hg).notified
  cases op with
  | storePsyncOffset | setMasterReplid | sendSource | notifyReady =>
      exact ⟨now', rfl, h.files, h.rdbWriter, h.aofWriter, hreads⟩
  | getRdbWriter runId offset size =>
      let path : Path := { runId, name := rdbFileName offset size }
      have hlists := lists_addRdb s.storer.dataSet runId
        { path, offset, size, createdAt := now }
      refine ⟨now'.create path, rfl, h.files.create hlists, ?_, ?_, ?_⟩
      · intro w hw
        obtain rfl := Option.some.inj hw
        exact (hlists path).2 (.inr rfl)
      · exact fun w hw => (hlists w.path).2 (.inl (h.aofWriter w hw))
      · exact fun o f hf => (hreads o f hf).mono fun other hother => (hlists other).2 (.inl hother)
  | getAofWriter runId offset =>
      let path : Path := { runId, name := aofFileName offset }
      have hlists := lists_addAof s.storer.dataSet runId { path, offset, createdAt := now }
      refine ⟨now'.create path, rfl, h.files.create hlists, ?_, ?_, ?_⟩
      · exact fun w hw => (hlists w.path).2 (.inl (h.rdbWriter w hw))
      · intro w hw
        obtain rfl := Option.some.inj hw
        exact (hlists path).2 (.inr rfl)
      · exact fun o f hf => (hreads o f hf).mono fun other hother => (hlists other).2 (.inl hother)
  | writeRdb bs =>
      exact h.onRdb (fun w disk => w.write bs disk) s.leader.dataReady
        (fun _ _ _ hsame => writes_write hsame bs) hreads
  | flushRdb =>
      exact h.onRdb BufWriter.flush s.leader (fun _ _ _ hsame => writes_flush hsame) hreads
  | writeAof bs =>
      exact h.onAof (fun w disk => w.write bs disk) s.leader
        (fun _ _ _ hsame => writes_write hsame bs) hreads
  | flushAof =>
      exact h.onAof BufWriter.flush s.leader.dataReady
        (fun _ _ _ hsame => writes_flush hsame) hreads

theorem Alike.step {act : Act} (h : Alike disk disk' s now') (hstep : s.step act = some t) :
    ∃ next', (s.onDisk now').step act = some (t.onDisk next') ∧ Alike disk disk' t next' := by
  cases act with
  | input now =>
      cases hinput : s.input with
      | nil =>
          simp only [Sys.step, hinput] at hstep
          cases hstep
      | cons op ops =>
          rw [Sys.step_input now hinput] at hstep
          obtain rfl := Option.some.inj hstep
          have hrest : Alike disk disk' { s with input := ops } now' :=
            ⟨h.files, h.rdbWriter, h.aofWriter, h.reads⟩
          obtain ⟨next', heq, hnext⟩ := hrest.perform now op
          refine ⟨next', ?_, hnext⟩
          have hinput' : (s.onDisk now').input = op :: ops := hinput
          rw [Sys.step_input now hinput']
          exact congrArg some heq
  | listen | timeout | start =>
      cases Sys.Stepped.of_step hstep with
      | _ hleader =>
          refine ⟨now', ?_, h.files, h.rdbWriter, h.aofWriter, fun o f hf => ?_⟩
          · simp only [Sys.step, Sys.onDisk, hleader]
          · cases hf <;> trivial
  | forward act =>
      cases hleader : s.leader with
      | forwarding o f =>
          simp only [Sys.step, hleader] at hstep
          obtain ⟨⟨f', events⟩, hf, rfl⟩ := Option.map_eq_some_iff.1 hstep
          have hreads := h.reads o f hleader
          refine ⟨now', ?_, h.files, h.rdbWriter, h.aofWriter, fun o' g hg => ?_⟩
          · have hsame : f.step (elsewhere s.storer now') s.masterReplid act = some (f', events) :=
              (step_elsewhere h.files.agree hreads).trans hf
            have hleader' : (s.onDisk now').leader = .forwarding o f := hleader
            rw [Sys.step_forward hleader' hsame]
            rfl
          · obtain ⟨rfl, rfl⟩ := LeaderPc.forwarding.inj hg
            exact hreads.step (.of_step hf)
      | spawned | listening | ready =>
          simp only [Sys.step, hleader] at hstep
          cases hstep

end Run

/-- Whatever two directories hold when a process starts: each of its runs over the one
is a run over the other, with the same log, the same data set and the same state of
every task. The files it lists hold the same in both then, and every other file is as
it was. -/
theorem leftovers_never_matter (disk disk' : Disk) (hasManager : Bool)
    (input : List InputOp) {acts : List Act} {t : Sys}
    (hrun : (Sys.init (.new disk) hasManager input).Runs Free acts t) :
    ∃ now', (Sys.init (.new disk') hasManager input).Runs Free acts (t.onDisk now') ∧
      (∀ path, Lists t.storer.dataSet path → SameFile t.storer.disk now' path) ∧
      ∀ path, ¬ Lists t.storer.dataSet path →
        SameFile t.storer.disk disk path ∧ SameFile now' disk' path := by
  have hstart : Alike disk disk' (Sys.init (.new disk) hasManager input) disk' :=
    ⟨files_new disk disk', fun w hw => (by cases hw), fun w hw => (by cases hw),
      fun o f hf => (by cases hf)⟩
  obtain ⟨t', hrun', now', rfl, halike⟩ := Steps.simulate hrun
    (R := fun s s' => ∃ now', s' = s.onDisk now' ∧ Alike disk disk' s now')
    (fun s act t s' hs hstep => by
      obtain ⟨now', rfl, halike⟩ := hs
      obtain ⟨next', hstep', hnext⟩ := halike.step hstep
      exact ⟨t.onDisk next', hstep', next', rfl, hnext⟩)
    ⟨disk', rfl, hstart⟩
  exact ⟨now', hrun', halike.files.agree, halike.files.rest⟩

/-- The file of the segment that the sample session writes. -/
def sampleSegment : Path := { runId := "r".toList, name := aofFileName 5 }

/-- An earlier process has written a file of that name, and another. -/
def leftBehind : Disk :=
  ((∅ : Disk).append sampleSegment [88, 89]).append
    { runId := "r".toList, name := rdbFileName 4 2 } [90, 91]

def leftBehindStart : Sys := .init (.new leftBehind) true (freshInput.effects 0 sampleReads)

theorem leftovers_never_matter_leftBehind :
    (leftBehindStart.after forwardActs).log = (freshStart.after forwardActs).log ∧
      SameFile (freshStart.after forwardActs).storer.disk
        (leftBehindStart.after forwardActs).storer.disk sampleSegment := by
  have hfree : freshStart.Runs Free forwardActs (freshStart.after forwardActs) :=
    runs_forwardActs.mono fun _ _ _ => trivial
  obtain ⟨now', hrun, hlisted, -⟩ := leftovers_never_matter ∅ leftBehind true
    (freshInput.effects 0 sampleReads) hfree
  have hafter : leftBehindStart.after forwardActs
      = (freshStart.after forwardActs).onDisk now' := Steps.after_eq hrun
  have hlists : Lists (freshStart.after forwardActs).storer.dataSet sampleSegment :=
    .inr ⟨"r".toList, { path := sampleSegment, offset := 5, createdAt := 0 },
      by decide +kernel, rfl⟩
  rw [hafter, Sys.onDisk_log, Sys.onDisk_disk]
  exact ⟨rfl, hlisted sampleSegment hlists⟩

end RedisHaTool.Syncer
