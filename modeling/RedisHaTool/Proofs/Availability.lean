import RedisHaTool.Store.Storer

/-!
# What is announced and what is delivered

`available_bytes` and `get_reader` look through the same run ids for the same
files. `get_reader` stops at the first run in which a file is found, whatever is
in it; `available_bytes` passes over a file that has nothing left and goes on.
So what is announced is delivered exactly where the first run with a file has
data in it.
-/

namespace RedisHaTool.Store

open Lib

/-! ## What a reader delivers -/

theorem RdbReader.remaining_advance (r : RdbReader) (disk : Disk) (k : Nat) :
    (r.advance k).remaining disk = (r.remaining disk).drop k := by
  rw [RdbReader.remaining, RdbReader.remaining, RdbReader.advance, List.drop_take,
    List.drop_drop]
  congr 1
  show (r.size - (r.currentPos + k - r.offset)).toNat = _
  omega

theorem Reader.remaining_advance (r : Reader) (disk : Disk) (k : Nat) :
    (r.advance k).remaining disk = (r.remaining disk).drop k := by
  cases r with
  | rdb r => exact r.remaining_advance disk k
  | aof r =>
      show (r.advance k).remaining disk = (r.remaining disk).drop k
      rw [AofReader.remaining, AofReader.remaining, AofReader.advance, List.drop_drop]

theorem eq_remaining_of_delivers {disk : Disk} {r : Reader} {bs : Bytes}
    (h : Delivers disk r bs) : bs = r.remaining disk := by
  induction h with
  | eof h => exact h.symm
  | read n hn hle h ih => rw [ih, Reader.remaining_advance, List.take_append_drop]

theorem delivers_remaining (disk : Disk) (r : Reader) :
    Delivers disk r (r.remaining disk) := by
  by_cases hnil : r.remaining disk = []
  · rw [hnil]
    exact .eof hnil
  · -- One read may answer it all.
    have hpos := List.length_pos_of_ne_nil hnil
    have hdone : (r.advance (r.remaining disk).length).remaining disk = [] := by
      rw [Reader.remaining_advance, List.drop_length]
    have hread := Delivers.read _ hpos (Nat.le_refl _) (Delivers.eof hdone)
    rwa [List.take_length, List.append_nil] at hread

/-- However it is read, the reader delivers so many bytes and is at its end. -/
def DeliversExactly (disk : Disk) (r : Reader) (n : Int) : Prop :=
  ∀ bs, Delivers disk r bs → (bs.length : Int) = n

theorem deliversExactly_iff {disk : Disk} {r : Reader} {n : Int} :
    DeliversExactly disk r n ↔ ((r.remaining disk).length : Int) = n := by
  constructor
  · intro h
    exact h _ (delivers_remaining disk r)
  · intro h bs hbs
    rw [eq_remaining_of_delivers hbs]
    exact h

/-! ## The first hit -/

theorem findSome?_eq_bind {α β : Type} (f : α → Option β) (l : List α) :
    l.findSome? f = (l.find? fun a => (f a).isSome).bind f := by
  induction l with
  | nil => rfl
  | cons a l ih =>
      rw [List.findSome?_cons, List.find?_cons]
      cases hfa : f a with
      | none => exact ih
      | some b => exact hfa.symm

theorem findSome?_eq_of_unique {α β : Type} {f : α → Option β} {l : List α} {x : α} {v : β}
    (hmem : x ∈ l) (hx : f x = some v) (hne : ∀ y, y ≠ x → f y = none) :
    l.findSome? f = some v := by
  induction l with
  | nil => exact absurd hmem List.not_mem_nil
  | cons y l ih =>
      by_cases hy : y = x
      · simp only [List.findSome?_cons, hy, hx]
      · simp only [List.findSome?_cons, hne y hy]
        exact ih ((List.mem_cons.1 hmem).resolve_left (Ne.symm hy))

namespace FileStorer

variable {s : FileStorer} {offset : Int} {runId : Text}

/-- The first run id under which a file is found for the offset. -/
def firstHit (s : FileStorer) (offset : Int) : Option Text :=
  s.dataSet.runIds.find? fun runId => (s.readerOf offset runId).isSome

theorem getReader_eq (s : FileStorer) (offset : Int) :
    s.getReader offset = ((s.firstHit offset).bind (s.readerOf offset)).getD
      (.error (.corruptedText
        ("找不到 offset=".toList ++ intToString offset ++ " 的数据文件".toList))) := by
  rw [getReader, findSome?_eq_bind, firstHit]

/-- The file found under the run id has something in it at the offset: it is an
RDB file, or a segment that reaches past it. -/
def HasData (s : FileStorer) (offset : Int) (runId : Text) : Prop :=
  s.dataSet.findRdb runId offset ≠ none ∨
    ∃ aof, s.dataSet.findAof runId offset = some aof ∧ aof.path ∈ s.disk ∧
      offset < aof.offset + (s.disk.contents aof.path).length

/-- Every RDB file listed is there, with the size it is listed with. -/
def RdbSizes (s : FileStorer) : Prop :=
  ∀ runId, ∀ r ∈ listed s.dataSet.rdbFiles runId,
    r.path ∈ s.disk ∧ ((s.disk.contents r.path).length : Int) = r.size

/-- Where nothing is found nothing is announced. -/
theorem availableOf_eq_none (h : s.readerOf offset runId = none) :
    s.availableOf offset runId = none := by
  rw [readerOf] at h
  cases hrdb : s.dataSet.findRdb runId offset with
  | some r => rw [hrdb] at h; cases h
  | none =>
      rw [hrdb] at h
      have haof := Option.map_eq_none_iff.1 h
      rw [availableOf, hrdb, haof]
      rfl

/-- Where there is data, what is announced of it is what its reader has. -/
theorem readerOf_of_hasData (hsizes : s.RdbSizes) (h : s.HasData offset runId) :
    ∃ r n, s.readerOf offset runId = some (.ok r) ∧ s.availableOf offset runId = some n ∧
      ((r.remaining s.disk).length : Int) = n := by
  cases hrdb : s.dataSet.findRdb runId offset with
  | some rdb =>
      obtain ⟨hlisted, hle, hlt⟩ := findRdb_eq_some hrdb
      obtain ⟨hmem, hsize⟩ := hsizes runId rdb hlisted
      refine ⟨.rdb { path := rdb.path, filePos := 0, offset,
                     size := rdb.offset + rdb.size - offset, currentPos := offset },
        rdb.offset + rdb.size - offset, ?_, ?_, ?_⟩
      · simp only [readerOf, hrdb, RdbReader.open, if_pos hmem]
        rfl
      · simp only [availableOf, hrdb, Option.bind_some, if_pos hmem]
        rfl
      · show ((((s.disk.contents rdb.path).drop 0).take
          (rdb.offset + rdb.size - offset - (offset - offset)).toNat).length : Int) = _
        rw [List.drop_zero, List.length_take]
        omega
  | none =>
      rcases h with h | ⟨aof, haof, hmem, hdata⟩
      · exact absurd hrdb h
      · obtain ⟨-, hle⟩ := findAof_eq_some haof
        have hopen : aof.path ∈ s.disk ∧ 0 ≤ offset - aof.offset := ⟨hmem, by omega⟩
        have hleft : aof.path ∈ s.disk ∧
            0 < ((s.disk.contents aof.path).length : Int) - (offset - aof.offset) :=
          ⟨hmem, by omega⟩
        refine ⟨.aof { path := aof.path, filePos := (offset - aof.offset).toNat, offset,
                       currentPos := offset },
          ((s.disk.contents aof.path).length : Int) - (offset - aof.offset), ?_, ?_, ?_⟩
        · simp only [readerOf, hrdb, haof, AofReader.open, if_pos hopen, Option.map_some]
          rfl
        · simp only [availableOf, hrdb, haof, Option.bind_some, if_pos hleft]
          rfl
        · show (((s.disk.contents aof.path).drop (offset - aof.offset).toNat).length : Int) = _
          rw [List.length_drop]
          omega

/-- Where there is none, a reader that can be opened has nothing. -/
theorem remaining_of_not_hasData (h : ¬ s.HasData offset runId) {r : Reader}
    (hr : s.readerOf offset runId = some (.ok r)) : r.remaining s.disk = [] := by
  rw [HasData, not_or, not_not] at h
  obtain ⟨hrdb, hno⟩ := h
  rw [readerOf, hrdb] at hr
  obtain ⟨aof, haof, hopen⟩ := Option.map_eq_some_iff.1 hr
  rw [AofReader.open] at hopen
  split at hopen
  · next hcan =>
      obtain rfl := Except.ok.inj hopen
      have hend : ¬ offset < aof.offset + (s.disk.contents aof.path).length :=
        fun hlt => hno ⟨aof, haof, hcan.1, hlt⟩
      show (s.disk.contents aof.path).drop (offset - aof.offset).toNat = []
      exact List.drop_eq_nil_of_le (by omega)
  · cases hopen

/-- A stricter search that accepts what was found finds it too. -/
theorem find?_of_stricter {α : Type} {p q : α → Bool} (hqp : ∀ a, q a = true → p a = true)
    {l : List α} {a : α} (h : l.find? p = some a) (hq : q a = true) :
    l.find? q = some a := by
  obtain ⟨-, before, after, rfl, hbefore⟩ := List.find?_eq_some_iff_append.1 h
  refine List.find?_eq_some_iff_append.2 ⟨hq, before, after, rfl, fun b hb => ?_⟩
  have hp := hbefore b hb
  cases hqb : q b with
  | false => rfl
  | true =>
      rw [hqp b hqb] at hp
      cases hp

theorem isSome_readerOf (h : (s.availableOf offset runId).isSome = true) :
    (s.readerOf offset runId).isSome = true := by
  cases hr : s.readerOf offset runId with
  | some r => rfl
  | none =>
      rw [availableOf_eq_none hr] at h
      cases h

theorem availableBytes_of_firstHit {n : Int} (hfirst : s.firstHit offset = some runId)
    (havail : s.availableOf offset runId = some n) : s.availableBytes offset = n := by
  have hfind : s.dataSet.runIds.find? (fun runId => (s.availableOf offset runId).isSome)
      = some runId :=
    find?_of_stricter (fun _ h => isSome_readerOf h) hfirst (by rw [havail]; rfl)
  rw [availableBytes, findSome?_eq_bind, hfind, Option.bind_some, havail]
  rfl

/-- What is announced is delivered if and only if the first run with a file for
the offset has data in it. -/
theorem getReader_delivers_iff (s : FileStorer) (hsizes : s.RdbSizes) (offset : Int)
    {n : Int} (hn : 0 < n) (havail : s.availableBytes offset = n) :
    (∃ r, s.getReader offset = .ok r ∧ DeliversExactly s.disk r n) ↔
      ∀ runId, s.firstHit offset = some runId → s.HasData offset runId := by
  rw [getReader_eq]
  cases hfirst : s.firstHit offset with
  | none =>
      -- Nothing found is nothing announced.
      have hnone : s.availableBytes offset = 0 := by
        have hall := List.find?_eq_none.1 hfirst
        have hsome : s.dataSet.runIds.findSome? (s.availableOf offset) = none := by
          refine List.findSome?_eq_none_iff.2 fun runId hmem => availableOf_eq_none ?_
          simpa using hall runId hmem
        rw [availableBytes, hsome]
        rfl
      omega
  | some runId =>
      rw [Option.bind_some]
      constructor
      · rintro ⟨r, hr, hexact⟩ runId' hrunId
        obtain rfl := Option.some.inj hrunId
        by_contra hno
        have hsome : (s.readerOf offset runId).isSome = true := by
          simpa using List.find?_some hfirst
        obtain ⟨answer, hanswer⟩ := Option.isSome_iff_exists.1 hsome
        rw [hanswer, Option.getD_some] at hr
        subst hr
        have hlen := deliversExactly_iff.1 hexact
        rw [remaining_of_not_hasData hno hanswer] at hlen
        simp only [List.length_nil] at hlen
        omega
      · intro h
        obtain ⟨r, m, hr, hm, hlen⟩ := readerOf_of_hasData hsizes (h runId rfl)
        have hsame := availableBytes_of_firstHit hfirst hm
        refine ⟨r, by rw [hr]; rfl, deliversExactly_iff.2 ?_⟩
        omega

/-- An RDB file of three bytes, at offset 5. -/
def oneRdb : FileStorer :=
  let path : Path := { runId := "a".toList, name := rdbFileName 5 3 }
  { dataSet := DataSet.new.addRdb "a".toList { path, offset := 5, size := 3, createdAt := 0 }
    disk := Disk.append ∅ path [1, 2, 3] }

theorem rdbSizes_oneRdb : oneRdb.RdbSizes := by
  intro runId r hr
  rcases mem_listed_pushSorted.1 hr with hr | ⟨rfl, rfl⟩
  · cases hr
  · exact ⟨by decide +kernel, by decide +kernel⟩

theorem getReader_delivers_iff_oneRdb :
    (∃ r, oneRdb.getReader 6 = .ok r ∧ DeliversExactly oneRdb.disk r 2) ↔
      ∀ runId, oneRdb.firstHit 6 = some runId → oneRdb.HasData 6 runId :=
  getReader_delivers_iff oneRdb rdbSizes_oneRdb 6 (by decide) (by decide +kernel)

/-- Segments of two runs from the same offset, one three bytes long, one six. -/
def twoRuns : FileStorer :=
  let first : Path := { runId := "a".toList, name := aofFileName 0 }
  let second : Path := { runId := "b".toList, name := aofFileName 0 }
  { dataSet := (DataSet.new.addAof "a".toList { path := first, offset := 0, createdAt := 0 }).addAof
      "b".toList { path := second, offset := 0, createdAt := 1 }
    disk := Disk.append (Disk.append ∅ first [1, 2, 3]) second [1, 2, 3, 4, 5, 6] }

theorem getReader_twoRuns :
    twoRuns.getReader 3 = .ok (.aof
      { path := { runId := "a".toList, name := aofFileName 0 }, filePos := 3, offset := 3,
        currentPos := 3 }) := by
  have hfirst : twoRuns.dataSet.runIds.findSome? (twoRuns.readerOf 3) = some (.ok (.aof
      { path := { runId := "a".toList, name := aofFileName 0 }, filePos := 3, offset := 3,
        currentPos := 3 })) := by decide +kernel
  rw [getReader, hfirst]
  rfl

/-- Three bytes are announced at offset 3, and the reader has none. -/
theorem not_getReader_delivers :
    ¬ ∀ (s : FileStorer) (offset n : Int), s.RdbSizes → 0 < n → s.availableBytes offset = n →
      ∃ r, s.getReader offset = .ok r ∧ DeliversExactly s.disk r n := by
  intro h
  have hsizes : twoRuns.RdbSizes := by
    intro runId r hr
    cases hr
  obtain ⟨r, hr, hexact⟩ := h twoRuns 3 3 hsizes (by decide) (by decide +kernel)
  rw [getReader_twoRuns] at hr
  obtain rfl := Except.ok.inj hr
  have hlen := deliversExactly_iff.1 hexact
  revert hlen
  decide +kernel

end FileStorer

end RedisHaTool.Store
