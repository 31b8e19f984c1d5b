import RedisHaTool.Proofs.Availability
import RedisHaTool.Proofs.Lookups
import RedisHaTool.Proofs.Rescan

/-!
# What a crash leaves to read

A session writes one RDB file and, from its end on, the segments of the stream;
what the writer holds in its buffer is lost if the process ends there, and the
data set is lost in any case. A scan of the directory finds the rest. Whenever
it ended, what the forwarding loop then reads, from file to file, is the RDB file
and the stream as far as it had reached the disk: nothing is missing between two
files, nothing is read twice, and no rotation is seen.
-/

namespace RedisHaTool.Store

open Lib

/-! ## Reading on -/

/-- What the forwarding loop reads from an offset on: as long as something is
announced, it reads a file to its end and goes on behind it. -/
inductive FileStorer.ReadsOn (s : FileStorer) : Int → Bytes → Prop where
  | done {offset : Int} (h : s.availableBytes offset ≤ 0) : ReadsOn s offset []
  | next {offset : Int} {r : Reader} {bs rest : Bytes} (havailable : 0 < s.availableBytes offset)
      (hreader : s.getReader offset = .ok r) (hdelivers : Delivers s.disk r bs)
      (hrest : ReadsOn s (offset + bs.length) rest) : ReadsOn s offset (bs ++ rest)

/-- `k` bytes into a stream the storer announces and answers the `n` bytes that
follow, and at least one if any do. -/
structure FileStorer.Serves (s : FileStorer) (origin : Int) (stream : Bytes) (k n : Nat) :
    Prop where
  available : s.availableBytes (origin + k) = n
  reader : 0 < n → ∃ r, s.getReader (origin + k) = .ok r ∧
    r.remaining s.disk = (stream.drop k).take n
  le : k + n ≤ stream.length
  ends : n = 0 → k = stream.length

/-- If it does so at every place that reading on comes to, the stream is what is
read. -/
theorem readsOn_iff {s : FileStorer} {origin : Int} {stream : Bytes} {place : Nat → Prop}
    (hserves : ∀ k, place k → ∃ n, s.Serves origin stream k n ∧ place (k + n)) {k : Nat}
    (hk : place k) {bs : Bytes} : s.ReadsOn (origin + k) bs ↔ bs = stream.drop k := by
  constructor
  · intro h
    generalize hoffset : origin + k = offset at h
    induction h generalizing k with
    | done hnone =>
        obtain ⟨n, hn, -⟩ := hserves k hk
        have havailable := hn.available
        rw [hoffset] at havailable
        rw [List.drop_eq_nil_of_le (Nat.le_of_eq (hn.ends (by omega)).symm)]
    | @next offset r bs rest hpos hreader hdelivers _ ih =>
        obtain ⟨n, hn, hplace⟩ := hserves k hk
        have havailable := hn.available
        rw [hoffset] at havailable
        obtain ⟨r', hr', hremaining⟩ := hn.reader (by omega)
        rw [hoffset] at hr'
        obtain rfl := Except.ok.inj (hreader.symm.trans hr')
        have hbs := (eq_remaining_of_delivers hdelivers).trans hremaining
        have hle := hn.le
        have hlen : bs.length = n := by
          rw [hbs, List.length_take, List.length_drop]
          omega
        have hrest := ih hplace (by rw [hlen]; omega)
        rw [hbs, hrest, ← List.drop_drop, List.take_append_drop]
  · rintro rfl
    obtain ⟨n, hn, hplace⟩ := hserves k hk
    induction hleft : stream.length - k using Nat.strong_induction_on generalizing k n with
    | _ left ih =>
        have havailable := hn.available
        have hle := hn.le
        by_cases hzero : n = 0
        · rw [List.drop_eq_nil_of_le (Nat.le_of_eq (hn.ends hzero).symm)]
          exact .done (by omega)
        · obtain ⟨r, hr, hremaining⟩ := hn.reader (by omega)
          obtain ⟨m, hm, hnext⟩ := hserves (k + n) hplace
          have hrest := ih (stream.length - (k + n)) (by omega) hplace m hm hnext rfl
          have hlen : (r.remaining s.disk).length = n := by
            rw [hremaining, List.length_take, List.length_drop]
            omega
          have hon : s.ReadsOn (origin + k + ((r.remaining s.disk).length : Nat))
              (stream.drop (k + n)) := by
            rw [hlen, Int.add_assoc, ← Nat.cast_add]
            exact hrest
          have hread := FileStorer.ReadsOn.next (by omega) hr (delivers_remaining s.disk r) hon
          rw [hremaining, ← List.drop_drop, List.take_append_drop] at hread
          exact hread

/-- In place of a stream alone, a file with the stream behind it. -/
theorem FileStorer.Serves.behind {s : FileStorer} {start : Int} {stream : Bytes} {k n : Nat}
    (h : s.Serves start stream k n) (file : Bytes) :
    s.Serves (start - file.length) (file ++ stream) (file.length + k) n := by
  have hposition : start - (file.length : Int) + ((file.length + k : Nat) : Int) = start + k := by
    omega
  refine ⟨?_, ?_, ?_, fun hzero => ?_⟩
  · rw [hposition]
    exact h.available
  · rw [hposition, List.drop_length_add_append]
    exact h.reader
  · have hle := h.le
    rw [List.length_append]
    omega
  · rw [List.length_append, h.ends hzero]

/-! ## The directory of a session -/

theorem segmentOffsets_append_list (offset : Int) (cs cs' : List Bytes) :
    segmentOffsets offset (cs ++ cs')
      = segmentOffsets offset cs ++ segmentOffsets (offset + (cs.flatten.length : Nat)) cs' := by
  induction cs generalizing offset with
  | nil => simp [segmentOffsets]
  | cons c cs ih =>
      rw [List.cons_append, segmentOffsets, ih, segmentOffsets, List.cons_append,
        List.flatten_cons, List.length_append, Nat.cast_add, Int.add_assoc]

theorem le_of_mem_segmentOffsets {cs : List Bytes} {offset o : Int}
    (ho : o ∈ segmentOffsets offset cs) :
    offset ≤ o ∧ o ≤ offset + (cs.flatten.length : Nat) := by
  induction cs generalizing offset with
  | nil => cases ho
  | cons c cs ih =>
      rw [List.flatten_cons, List.length_append]
      rcases List.mem_cons.1 ho with rfl | ho
      · omega
      · have hrest := ih ho
        omega

theorem length_segmentOffsets (offset : Int) (cs : List Bytes) :
    (segmentOffsets offset cs).length = cs.length := by
  induction cs generalizing offset with
  | nil => rfl
  | cons c cs ih => rw [segmentOffsets, List.length_cons, ih, List.length_cons]

/-- The segment that a position lies in, or ends. -/
theorem exists_segment {cs : List Bytes} (hne : cs ≠ []) {k : Nat}
    (hk : k ≤ cs.flatten.length) : ∃ before c after, cs = before ++ c :: after ∧
      before.flatten.length ≤ k ∧ (k < before.flatten.length + c.length ∨
        after = [] ∧ k = before.flatten.length + c.length) := by
  induction cs generalizing k with
  | nil => exact absurd rfl hne
  | cons c cs ih =>
      rw [List.flatten_cons, List.length_append] at hk
      by_cases hin : k < c.length
      · refine ⟨[], c, cs, rfl, Nat.zero_le k, .inl ?_⟩
        rw [List.flatten_nil, List.length_nil, Nat.zero_add]
        exact hin
      · by_cases hlast : cs = []
        · subst hlast
          rw [List.flatten_nil, List.length_nil] at hk
          refine ⟨[], c, [], rfl, Nat.zero_le k, .inr ⟨rfl, ?_⟩⟩
          rw [List.flatten_nil, List.length_nil]
          omega
        · obtain ⟨before, c', after, rfl, hle, hend⟩ := ih hlast (k := k - c.length) (by omega)
          refine ⟨c :: before, c', after, rfl, ?_, ?_⟩
          · rw [List.flatten_cons, List.length_append]
            omega
          · rw [List.flatten_cons, List.length_append]
            exact hend.imp (fun hin => by omega) fun hlast => ⟨hlast.1, by omega⟩

/-- The RDB file of a session whose stream starts at an offset. -/
def sessionRdb (runId : Text) (start : Int) (rdb : Bytes) : Path :=
  rdbPath runId (start - rdb.length) rdb.length

/-- The directory holds the RDB file of a session, if it has one, and nothing
else. -/
structure Disk.HoldsRdb (disk : Disk) (runId : Text) (start : Int) (rdb : Option Bytes) :
    Prop where
  lookup : ∀ path, disk.lookup path
    = rdb.bind fun file => if path = sessionRdb runId start file then some file else none
  range : ∀ file, rdb = some file → IsI64 (start - file.length) ∧ IsI64 file.length

/-- And besides it segments with these contents, one behind the other. -/
structure Disk.Tiled (disk : Disk) (runId : Text) (start : Int) (rdb : Option Bytes)
    (cs : List Bytes) : Prop where
  mem_iff : ∀ path, path ∈ disk ↔ (∃ o ∈ segmentOffsets start cs, path = segmentPath runId o) ∨
    ∃ file, rdb = some file ∧ path = sessionRdb runId start file
  segments : (segmentOffsets start cs).map (fun o => disk.contents (segmentPath runId o)) = cs
  rdbFile : ∀ file, rdb = some file → disk.contents (sessionRdb runId start file) = file
  ne_nil : cs ≠ []

variable {runId : Text} {start : Int} {rdb : Option Bytes} {cs : List Bytes} {disk : Disk}

theorem segmentPath_ne_rdbPath {runId' : Text} {o offset size : Int} :
    segmentPath runId o ≠ rdbPath runId' offset size := by
  intro h
  have hname : aofFileName o = rdbFileName offset size := congrArg Path.name h
  have hends := not_endsWith_rdb o
  rw [hname, endsWith_rdbFileName] at hends
  cases hends

/-- Whenever a run of the writer ends, the disk is tiled by what has reached it. -/
theorem Rotating.tiled {disk₀ : Disk} {accepted : Bytes} {closed : List Bytes} {cur : Bytes}
    {w : AofWriter} (h : Rotating runId start disk₀ accepted closed cur w disk)
    (hdisk : disk₀.HoldsRdb runId start rdb) :
    disk.Tiled runId start rdb (closed ++ [disk.contents w.writer.path]) := by
  have hcurrent : w.writer.path = segmentPath runId (start + (closed.flatten.length : Nat)) := by
    rw [h.path, h.offset]
  have hothers : ∀ path, (∀ o ∈ segmentOffsets start (closed ++ [disk.contents w.writer.path]),
      path ≠ segmentPath runId o) → disk.lookup path = disk₀.lookup path := by
    intro path hne
    rw [segmentOffsets_append] at hne
    refine h.frame path ?_ fun o ho => hne o (List.mem_append_left _ ho)
    rw [hcurrent]
    exact hne _ (List.mem_append_right _ (List.mem_singleton_self _))
  have hrdb : ∀ file, rdb = some file → disk.lookup (sessionRdb runId start file) = some file := by
    rintro file rfl
    rw [hothers (sessionRdb runId start file) fun o _ => segmentPath_ne_rdbPath.symm,
      hdisk.lookup, Option.bind_some, if_pos rfl]
  constructor
  case mem_iff =>
    intro path
    constructor
    · intro hmem
      by_cases hsegment : ∃ o ∈ segmentOffsets start (closed ++ [disk.contents w.writer.path]),
          path = segmentPath runId o
      · exact .inl hsegment
      · rw [← AList.lookup_isSome,
          hothers path fun o ho heq => hsegment ⟨o, ho, heq⟩, hdisk.lookup] at hmem
        obtain ⟨bs, hbs⟩ := Option.isSome_iff_exists.1 hmem
        obtain ⟨file, hfile, hif⟩ := Option.bind_eq_some_iff.1 hbs
        refine .inr ⟨file, hfile, ?_⟩
        by_contra hne
        rw [if_neg hne] at hif
        cases hif
    · rintro (⟨o, ho, rfl⟩ | ⟨file, hfile, rfl⟩)
      · rw [segmentOffsets_append, List.mem_append, List.mem_singleton] at ho
        rcases ho with ho | rfl
        · exact h.closedPresent o ho
        · exact hcurrent ▸ h.present
      · rw [← AList.lookup_isSome, hrdb file hfile]
        rfl
  case segments =>
    rw [segmentOffsets_append, List.map_append, h.closedFiles, List.map_singleton, ← hcurrent]
  case rdbFile =>
    intro file hfile
    rw [Disk.contents, hrdb file hfile]
    rfl
  case ne_nil => exact List.append_ne_nil_of_right_ne_nil _ (List.cons_ne_nil _ _)

/-! ## What is found there -/

section Lookup

variable {d : DataSet} {created : Path → Nat} (h : d.Indexes disk created)
  (ht : disk.Tiled runId start rdb cs)
include h ht

/-- The only RDB file listed is the session's. -/
theorem rdb_of_listed {id : Text} {r : DataSetRdb} (hr : r ∈ listed d.rdbFiles id) :
    id = runId ∧ ∃ file, rdb = some file ∧ r.path = sessionRdb runId start file ∧
      r.offset = start - file.length ∧ r.size = file.length := by
  obtain ⟨hmem, hname, -⟩ := (h.rdb_iff id r).1 hr
  rcases (ht.mem_iff r.path).1 hmem with ⟨o, -, heq⟩ | ⟨file, hfile, heq⟩
  · exact absurd (heq.symm.trans hname) segmentPath_ne_rdbPath
  · have hsame : rdbPath id r.offset r.size = sessionRdb runId start file := hname.symm.trans heq
    obtain ⟨hoffset, hsize⟩ := rdbPath_injective hsame
    exact ⟨congrArg Path.runId hsame, file, hfile, heq, hoffset, hsize⟩

theorem aof_of_listed {id : Text} {aof : DataSetAof} (haof : aof ∈ listed d.aofSegments id) :
    id = runId ∧ aof.offset ∈ segmentOffsets start cs ∧
      aof.path = segmentPath runId aof.offset := by
  obtain ⟨hmem, hname, -⟩ := (h.aof_iff id aof).1 haof
  rcases (ht.mem_iff aof.path).1 hmem with ⟨o, ho, heq⟩ | ⟨file, -, heq⟩
  · have hsame : segmentPath id aof.offset = segmentPath runId o := hname.symm.trans heq
    have hid : id = runId := congrArg Path.runId hsame
    subst hid
    obtain hoffset := segmentPath_injective id hsame
    exact ⟨rfl, hoffset ▸ ho, hname⟩
  · exact absurd (hname.symm.trans heq) segmentPath_ne_rdbPath

theorem mem_runIds_tiled : runId ∈ d.runIds := by
  obtain ⟨c, rest, rfl⟩ := List.exists_cons_of_ne_nil ht.ne_nil
  have hmem : segmentPath runId start ∈ disk :=
    (ht.mem_iff _).2 (.inl ⟨start, List.mem_cons_self, rfl⟩)
  exact mem_runIds.2 (.inr (mem_keys_of_mem_listed (h.segmentAt_mem hmem)))

theorem findRdb_ne {id : Text} (hid : id ≠ runId) (offset : Int) : d.findRdb id offset = none := by
  refine List.find?_eq_none.2 fun r hr => ?_
  exact absurd (rdb_of_listed h ht hr).1 hid

theorem findAof_ne {id : Text} (hid : id ≠ runId) (offset : Int) : d.findAof id offset = none := by
  refine List.find?_eq_none.2 fun aof haof => ?_
  exact absurd (aof_of_listed h ht (List.mem_reverse.1 haof)).1 hid

/-- The RDB file ends where the stream starts. -/
theorem findRdb_stream {offset : Int} (hoffset : start ≤ offset) :
    d.findRdb runId offset = none := by
  refine findRdb_eq_none (fun r hr => ?_) hoffset
  obtain ⟨-, file, -, -, ho, hs⟩ := rdb_of_listed h ht hr
  omega

/-- Its first byte is found in it. -/
theorem findRdb_file {file : Bytes} (hfile : rdb = some file) (hne : file ≠ []) :
    ∃ r, d.findRdb runId (start - file.length) = some r ∧ r.path = sessionRdb runId start file ∧
      r.offset + r.size = start := by
  have hmem : sessionRdb runId start file ∈ disk := (ht.mem_iff _).2 (.inr ⟨file, hfile, rfl⟩)
  have hpos := List.length_pos_of_ne_nil hne
  have hlisted := (h.rdb_iff runId ⟨sessionRdb runId start file, start - file.length, file.length,
    created (sessionRdb runId start file)⟩).2 ⟨hmem, rfl, rfl⟩
  have hsome : (d.findRdb runId (start - file.length)).isSome = true := by
    refine List.find?_isSome.2 ⟨_, hlisted, ?_⟩
    simp only [decide_eq_true_eq]
    omega
  obtain ⟨r, hr⟩ := Option.isSome_iff_exists.1 hsome
  obtain ⟨-, file', hfile', hpath, ho, hs⟩ := rdb_of_listed h ht (findRdb_eq_some hr).1
  obtain rfl := Option.some.inj (hfile.symm.trans hfile')
  exact ⟨r, hr, hpath, by omega⟩

/-- The last segment that starts at or before a position is the one it lies in. -/
theorem findAof_segment {before after : List Bytes} {c : Bytes} (hcs : cs = before ++ c :: after)
    {k : Nat} (hle : before.flatten.length ≤ k)
    (hend : k < before.flatten.length + c.length ∨
      after = [] ∧ k = before.flatten.length + c.length) :
    ∃ aof, d.findAof runId (start + k) = some aof ∧
      aof.offset = start + before.flatten.length ∧ aof.path ∈ disk ∧
      disk.contents aof.path = c := by
  have hoffsets : segmentOffsets start cs = segmentOffsets start before ++
      (start + (before.flatten.length : Nat)) ::
        segmentOffsets (start + (before.flatten.length : Nat) + c.length) after := by
    rw [hcs, segmentOffsets_append_list, segmentOffsets]
  have hmem : segmentPath runId (start + (before.flatten.length : Nat)) ∈ disk := by
    refine (ht.mem_iff _).2 (.inl ⟨_, ?_, rfl⟩)
    rw [hoffsets]
    exact List.mem_append_right _ List.mem_cons_self
  have hlisted := h.segmentAt_mem hmem
  have hsome : (d.findAof runId (start + k)).isSome = true := by
    refine List.find?_isSome.2 ⟨_, List.mem_reverse.2 hlisted, decide_eq_true ?_⟩
    show start + (before.flatten.length : Int) ≤ start + k
    omega
  obtain ⟨aof, haof⟩ := Option.isSome_iff_exists.1 hsome
  obtain ⟨haoflisted, hbound⟩ := findAof_eq_some haof
  obtain ⟨-, hoffset, hpath⟩ := aof_of_listed h ht haoflisted
  have hgreatest : start + (before.flatten.length : Int) ≤ aof.offset :=
    le_of_find?_reverse (h.sorted.aof runId) haof hlisted
      (show start + (before.flatten.length : Int) ≤ start + k by omega)
  have hsame : aof.offset = start + before.flatten.length := by
    rw [hoffsets] at hoffset
    rcases List.mem_append.1 hoffset with hbefore | hrest
    · have hupper := (le_of_mem_segmentOffsets hbefore).2
      omega
    · rcases List.mem_cons.1 hrest with heq | hafter
      · exact heq
      · rcases hend with hin | ⟨rfl, -⟩
        · have hlower := (le_of_mem_segmentOffsets hafter).1
          omega
        · cases hafter
  refine ⟨aof, haof, hsame, ?_, ?_⟩
  · rw [hpath, hsame]
    exact hmem
  · have hsegments := ht.segments
    rw [hoffsets, hcs, List.map_append, List.map_cons] at hsegments
    have hcons := (List.append_inj hsegments (by
      rw [List.length_map, length_segmentOffsets])).2
    rw [hpath, hsame]
    exact (List.cons.inj hcons).1

/-- No other run has anything there. -/
theorem getReader_tiled {offset : Int} {answer : Except SyncError Reader}
    (hreader : FileStorer.readerOf { dataSet := d, disk } offset runId = some answer) :
    FileStorer.getReader { dataSet := d, disk } offset = answer := by
  have hfind : d.runIds.findSome? (FileStorer.readerOf { dataSet := d, disk } offset)
      = some answer := by
    refine findSome?_eq_of_unique (mem_runIds_tiled h ht) hreader fun id hid => ?_
    rw [FileStorer.readerOf, findRdb_ne h ht hid, findAof_ne h ht hid]
    rfl
  rw [FileStorer.getReader, hfind]
  rfl

theorem availableBytes_tiled (offset : Int) :
    FileStorer.availableBytes { dataSet := d, disk } offset
      = (FileStorer.availableOf { dataSet := d, disk } offset runId).getD 0 := by
  have hothers : ∀ id, id ≠ runId →
      FileStorer.availableOf { dataSet := d, disk } offset id = none := by
    intro id hid
    rw [FileStorer.availableOf, findRdb_ne h ht hid, findAof_ne h ht hid]
    rfl
  rw [FileStorer.availableBytes]
  cases hself : FileStorer.availableOf { dataSet := d, disk } offset runId with
  | some n => rw [findSome?_eq_of_unique (mem_runIds_tiled h ht) hself hothers]
  | none =>
      rw [List.findSome?_eq_none_iff.2 fun id _ => ?_]
      by_cases hid : id = runId
      · rw [hid, hself]
      · exact hothers id hid

/-- From the start of the stream on, a segment is read to its end. -/
theorem serves_segment {k : Nat} (hk : k ≤ cs.flatten.length) :
    ∃ n, FileStorer.Serves { dataSet := d, disk } start cs.flatten k n := by
  obtain ⟨before, c, after, hcs, hle, hend⟩ := exists_segment ht.ne_nil hk
  obtain ⟨aof, haof, hoffset, hmem, hcontents⟩ := findAof_segment h ht hcs hle hend
  have hrdb : d.findRdb runId (start + k) = none := findRdb_stream h ht (by omega)
  obtain ⟨j, rfl⟩ := Nat.exists_eq_add_of_le hle
  have hj : j ≤ c.length := by
    rcases hend with hin | ⟨-, hsame⟩
    · omega
    · omega
  have hbytes : cs.flatten.drop (before.flatten.length + j) = c.drop j ++ after.flatten := by
    rw [hcs, List.flatten_append, List.flatten_cons, List.drop_length_add_append,
      List.drop_append_of_le_length hj]
  have hlen : cs.flatten.length
      = before.flatten.length + (c.length + after.flatten.length) := by
    rw [hcs, List.flatten_append, List.flatten_cons, List.length_append, List.length_append]
  have hposition : (start + ((before.flatten.length + j : Nat) : Int)) - aof.offset = j := by
    omega
  refine ⟨c.length - j, ?_, fun hpos => ?_, by omega, fun hzero => ?_⟩
  · rw [availableBytes_tiled h ht]
    simp only [FileStorer.availableOf, hrdb, haof, Option.bind_some, hcontents, hposition]
    by_cases hleft : 0 < (c.length : Int) - j
    · rw [if_pos ⟨hmem, hleft⟩]
      show (c.length : Int) - j = _
      omega
    · rw [if_neg fun hif => hleft hif.2]
      show (0 : Int) = _
      omega
  · refine ⟨.aof { path := aof.path, filePos := j,
                   offset := start + ((before.flatten.length + j : Nat) : Int),
                   currentPos := start + ((before.flatten.length + j : Nat) : Int) }, ?_, ?_⟩
    · refine getReader_tiled h ht ?_
      have hopen : aof.path ∈ disk ∧ (0 : Int) ≤ j := ⟨hmem, by omega⟩
      simp only [FileStorer.readerOf, hrdb, haof, AofReader.open, hposition, if_pos hopen,
        Option.map_some]
      rfl
    · show (disk.contents aof.path).drop j = _
      rw [hcontents, hbytes, List.take_left' (by rw [List.length_drop])]
  · rcases hend with hin | ⟨rfl, -⟩
    · omega
    · rw [hlen, List.flatten_nil, List.length_nil]
      omega

/-- The RDB file is read whole, from its first byte. -/
theorem serves_file {file : Bytes} (hfile : rdb = some file) (hne : file ≠ []) :
    FileStorer.Serves { dataSet := d, disk } (start - file.length) (file ++ cs.flatten) 0
      file.length := by
  obtain ⟨r, hr, hpath, hends⟩ := findRdb_file h ht hfile hne
  have hmem : r.path ∈ disk := hpath ▸ (ht.mem_iff _).2 (.inr ⟨file, hfile, rfl⟩)
  have hsize : r.offset + r.size - (start - (file.length : Int)) = file.length := by omega
  refine ⟨?_, fun _ => ?_, ?_, fun hzero => ?_⟩
  · rw [availableBytes_tiled h ht]
    simp only [FileStorer.availableOf, Nat.cast_zero, Int.add_zero, hr, Option.bind_some,
      if_pos hmem]
    exact hsize
  · refine ⟨.rdb { path := r.path, filePos := 0, offset := start - file.length,
                   size := file.length, currentPos := start - file.length }, ?_, ?_⟩
    · refine getReader_tiled h ht ?_
      simp only [FileStorer.readerOf, Nat.cast_zero, Int.add_zero, hr, RdbReader.open,
        if_pos hmem, hsize]
      rfl
    · show ((disk.contents r.path).drop 0).take
        ((file.length : Int) - ((start - file.length) - (start - file.length))).toNat = _
      rw [hpath, ht.rdbFile file hfile, List.drop_zero, List.drop_zero, List.take_left' rfl,
        Int.sub_self, Int.sub_zero, Int.toNat_natCast, List.take_length]
  · rw [List.length_append]
    omega
  · exact absurd (List.length_eq_zero_iff.1 hzero) hne

theorem readsOn_stream {k : Nat} (hk : k ≤ cs.flatten.length) {bs : Bytes} :
    FileStorer.ReadsOn { dataSet := d, disk } (start + k) bs ↔ bs = cs.flatten.drop k := by
  have hserves : ∀ k, k ≤ cs.flatten.length → ∃ n,
      FileStorer.Serves { dataSet := d, disk } start cs.flatten k n ∧
        k + n ≤ cs.flatten.length := by
    intro k hk
    obtain ⟨n, hn⟩ := serves_segment h ht hk
    exact ⟨n, hn, hn.le⟩
  exact readsOn_iff hserves hk

theorem readsOn_file {file : Bytes} (hfile : rdb = some file) {bs : Bytes} :
    FileStorer.ReadsOn { dataSet := d, disk } (start - file.length) bs
      ↔ bs = file ++ cs.flatten := by
  have hbehind : ∀ k, file.length ≤ k → k ≤ (file ++ cs.flatten).length →
      ∃ n, FileStorer.Serves { dataSet := d, disk } (start - file.length) (file ++ cs.flatten)
        k n := by
    intro k hle hk
    obtain ⟨j, rfl⟩ := Nat.exists_eq_add_of_le hle
    rw [List.length_append] at hk
    obtain ⟨n, hn⟩ := serves_segment h ht (k := j) (by omega)
    exact ⟨n, hn.behind file⟩
  have hplace : ∀ k, (k = 0 ∨ file.length ≤ k ∧ k ≤ (file ++ cs.flatten).length) →
      ∃ n, FileStorer.Serves { dataSet := d, disk } (start - file.length) (file ++ cs.flatten)
          k n ∧ (k + n = 0 ∨ file.length ≤ k + n ∧ k + n ≤ (file ++ cs.flatten).length) := by
    rintro k (rfl | ⟨hle, hk⟩)
    · by_cases hne : file = []
      · subst hne
        obtain ⟨n, hn⟩ := hbehind 0 (Nat.le_refl 0) (Nat.zero_le _)
        exact ⟨n, hn, .inr ⟨Nat.zero_le _, hn.le⟩⟩
      · have hn := serves_file h ht hfile hne
        exact ⟨file.length, hn, .inr ⟨by omega, hn.le⟩⟩
    · obtain ⟨n, hn⟩ := hbehind k hle hk
      exact ⟨n, hn, .inr ⟨by omega, hn.le⟩⟩
  have hreads : FileStorer.ReadsOn { dataSet := d, disk } (start - file.length + (0 : Nat)) bs
      ↔ bs = (file ++ cs.flatten).drop 0 := readsOn_iff hplace (.inl rfl)
  rwa [Nat.cast_zero, Int.add_zero, List.drop_zero] at hreads

end Lookup

/-! ## A crash -/

/-- The files of a session are files as they are made. -/
theorem Disk.Tiled.made (ht : disk.Tiled runId start rdb cs) (hrun : IsRunId runId)
    (hstart : IsI64 start) (hend : IsI64 (start + cs.flatten.length))
    (hrdb : ∀ file, rdb = some file → IsI64 (start - file.length) ∧ IsI64 file.length) :
    ∀ path ∈ disk, path.Made := by
  intro path hmem
  rcases (ht.mem_iff path).1 hmem with ⟨o, ho, rfl⟩ | ⟨file, hfile, rfl⟩
  · obtain ⟨hle, hlt⟩ := le_of_mem_segmentOffsets ho
    refine .aof hrun ⟨?_, ?_⟩
    · exact Int.le_trans hstart.1 hle
    · exact Int.le_trans hlt hend.2
  · exact .rdb hrun (hrdb file hfile).1 (hrdb file hfile).2

/-- The directory holds the RDB file of the session, if there is one, and nothing
else. Whatever the session's writer is called with then, and whenever it ends: after
a scan the loop reads, from any place of the stream that has reached the disk, all
of it that has; and from the start of the RDB file that file first. What is lost is
what was in the buffer. Over the segments of an earlier run this fails. -/
theorem crash_reads {s : FileStorer} (hrun : IsRunId runId) (hstart : IsI64 start)
    (hdisk : s.disk.HoldsRdb runId start rdb) {logSize now : Nat} {calls : List AofCall}
    {w : AofWriter}
    (hcalls : Steps AofWriter.call Free (AofWriter.start s runId start logSize now) calls (w, disk))
    (hend : IsI64 (start + (acceptedBytes calls).length)) {listing : Listing}
    (hlisting : listing.Enumerates disk) (created : Path → Nat) :
    ∃ durable, durable ++ w.writer.buf = acceptedBytes calls ∧
      (∀ k ≤ durable.length, ∀ bs,
        FileStorer.ReadsOn { dataSet := .scanFromDir disk created listing, disk } (start + k) bs
          ↔ bs = durable.drop k) ∧
      ∀ file, rdb = some file → ∀ bs,
        FileStorer.ReadsOn { dataSet := .scanFromDir disk created listing, disk }
            (start - file.length) bs ↔ bs = file ++ durable := by
  obtain ⟨closed, cur, h⟩ :=
    (Rotating.init s runId hstart logSize now).calls hcalls hend.2
  have ht : disk.Tiled runId start rdb (closed ++ [disk.contents w.writer.path]) := h.tiled hdisk
  have hdurable : (closed ++ [disk.contents w.writer.path]).flatten ++ w.writer.buf
      = acceptedBytes calls := by
    have haccepted := h.accepted_eq
    rw [← h.file] at haccepted
    rw [List.flatten_append, List.flatten_singleton, List.append_assoc, haccepted]
    rfl
  have hlen := congrArg List.length hdurable
  rw [List.length_append] at hlen
  have hlow := hstart.1
  have hhigh := hend.2
  have hmade := ht.made hrun hstart ⟨by omega, by omega⟩ hdisk.range
  have hindexes := indexes_scanFromDir hmade hlisting created
  exact ⟨_, hdurable, fun k hk bs => readsOn_stream hindexes ht hk,
    fun file hfile bs => readsOn_file hindexes ht hfile⟩

/-- The directory once the RDB file is written. -/
def someLoaded : FileStorer := .new (Disk.append ∅ (sessionRdb "run_1".toList 9 [7, 8]) [7, 8])

theorem holdsRdb_someLoaded : someLoaded.disk.HoldsRdb "run_1".toList 9 (some [7, 8]) where
  lookup := by
    intro path
    rw [someLoaded, FileStorer.new, Disk.append, Option.bind_some]
    by_cases hpath : path = sessionRdb "run_1".toList 9 [7, 8]
    · rw [hpath, AList.lookup_insert, if_pos rfl]
      rfl
    · rw [AList.lookup_insert_ne hpath, if_neg hpath]
      rfl
  range := by
    intro file hfile
    obtain rfl := Option.some.inj hfile
    exact ⟨by decide, by decide⟩

/-- Three bytes reach the disk, in two segments, and one is in the buffer. -/
def someSessionCalls : List AofCall :=
  [.write [1, 2], .rotateIfNeeded, .write [3], .flush, .write [4]]

def someSession : AofWriter × Disk :=
  after AofWriter.call (AofWriter.start someLoaded "run_1".toList 9 2 0) someSessionCalls

theorem steps_someSessionCalls :
    Steps AofWriter.call Free (AofWriter.start someLoaded "run_1".toList 9 2 0) someSessionCalls
      someSession := Steps.of_after (by decide +kernel)

def someSessionListing : Listing := [("run_1".toList, someSession.2.keys)]

theorem enumerates_someSessionListing : someSessionListing.Enumerates someSession.2 where
  isOf := by decide +kernel
  dirs := by decide
  files := by
    intro entry hentry
    rw [List.mem_singleton.1 hentry]
    exact AList.keys_nodup someSession.2

theorem crash_reads_someSession : ∃ durable, durable ++ [4] = [1, 2, 3, 4] ∧
    ∀ bs, FileStorer.ReadsOn
      { dataSet := .scanFromDir someSession.2 (fun _ => 0) someSessionListing,
        disk := someSession.2 } 7 bs ↔ bs = [7, 8] ++ durable := by
  obtain ⟨durable, haccepted, -, hreads⟩ := crash_reads (by decide) (by decide)
    holdsRdb_someLoaded steps_someSessionCalls (by decide) enumerates_someSessionListing
    fun _ => 0
  exact ⟨durable, haccepted, hreads _ rfl⟩

end RedisHaTool.Store
