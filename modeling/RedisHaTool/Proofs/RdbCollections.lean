import Mathlib.Data.Set.List
import RedisHaTool.Proofs.RdbInversion
import RedisHaTool.Rdb.Collections

/-!
# Values read by the wrong method

What a counted loop of strings has answered is a counted sequence of strings,
and what it has kept is what it took unless a compressed string was written with
longer lengths than it needs. So a value of type 18 or 3 comes out whole exactly
if its bytes can be cut up as a value of type 14 or 5 too.
-/

namespace RedisHaTool.Rdb

open Lib

/-! ## What is kept -/

/-- A length is never written longer, and as long only from its shortest form. -/
theorem length_encodeLengthToBuf (l : Len) :
    (encodeLengthToBuf l.val).length ≤ l.bytes.length ∧
      ((encodeLengthToBuf l.val).length = l.bytes.length → l.Shortest) := by
  obtain ⟨form, v, fits⟩ := l
  have hlen : (encodeLengthToBuf v).length
      = if v < 64 then 1 else if v < 16384 then 2 else 5 := by
    rw [encodeLengthToBuf]
    split
    · rfl
    · split
      · rfl
      · rw [List.length_cons, length_toBeBytes]
  rw [hlen]
  cases form with
  | six =>
      have hv : v < 64 := fits
      rw [if_pos hv]
      exact ⟨Nat.le_refl 1, fun _ => trivial⟩
  | fourteen =>
      have hv : v < 16384 := fits
      show _ ≤ 2 ∧ (_ = 2 → 64 ≤ v)
      split <;> omega
  | len32 =>
      have hbytes : (Len.bytes ⟨.len32, v, fits⟩).length = 5 := by
        rw [Len.bytes, List.length_cons, length_toBeBytes]
      rw [hbytes]
      show _ ≤ 5 ∧ (_ = 5 → 16384 ≤ v)
      split
      · omega
      · split <;> omega
  | len64 =>
      have hbytes : (Len.bytes ⟨.len64, v, fits⟩).length = 9 := by
        rw [Len.bytes, List.length_cons, length_toBeBytes]
      rw [hbytes]
      show _ ≤ 9 ∧ (_ = 9 → False)
      split
      · omega
      · split <;> omega

theorem length_kept_le (s : RdbString) : s.kept.length ≤ s.bytes.length := by
  cases s with
  | lzf c o data h held =>
      have hc := (length_encodeLengthToBuf c).1
      have ho := (length_encodeLengthToBuf o).1
      simp only [RdbString.kept, RdbString.bytes, List.length_append, List.length_cons]
      omega
  | _ => exact Nat.le_refl _

theorem canonical_of_kept {s : RdbString} (h : s.kept = s.bytes) : s.Canonical := by
  cases s with
  | lzf c o data hlen held =>
      obtain ⟨hc, hcshort⟩ := length_encodeLengthToBuf c
      obtain ⟨ho, hoshort⟩ := length_encodeLengthToBuf o
      have hall := congrArg List.length h
      simp only [RdbString.kept, RdbString.bytes, List.length_append, List.length_cons] at hall
      exact ⟨hcshort (by omega), hoshort (by omega)⟩
  | _ => trivial

theorem length_flatMap_le {ι : Type} {f g : ι → Bytes}
    (hle : ∀ x, (f x).length ≤ (g x).length) (xs : List ι) :
    (xs.flatMap f).length ≤ (xs.flatMap g).length := by
  induction xs with
  | nil => exact Nat.le_refl _
  | cons x xs ih =>
      have hx := hle x
      rw [List.flatMap_cons, List.flatMap_cons, List.length_append, List.length_append]
      omega

/-- Shorter pieces make up the same whole only if none is shorter. -/
theorem eq_of_flatMap_eq {ι : Type} {f g : ι → Bytes}
    (hle : ∀ x, (f x).length ≤ (g x).length) {xs : List ι}
    (h : xs.flatMap f = xs.flatMap g) : ∀ x ∈ xs, f x = g x := by
  induction xs with
  | nil => exact fun x hx => absurd hx List.not_mem_nil
  | cons x xs ih =>
      have hx := hle x
      have hxs := length_flatMap_le hle xs
      have hall := congrArg List.length h
      rw [List.flatMap_cons, List.flatMap_cons, List.length_append, List.length_append] at hall
      rw [List.flatMap_cons, List.flatMap_cons] at h
      obtain ⟨hfirst, hrest⟩ := List.append_inj h (by omega)
      intro y hy
      rcases List.mem_cons.1 hy with rfl | hy
      · exact hfirst
      · exact ih hrest y hy

/-! ## Loops over elements -/

theorem readRawString_eq_ok {bs raw rest : Bytes} (h : readRawString bs = .ok raw rest) :
    ∃ s : RdbString, bs = s.bytes ++ rest ∧ raw = s.kept := by
  obtain ⟨r, mid, hread, hpure⟩ := bind_eq_ok.1 h
  cases hpure
  obtain ⟨s, rfl, rfl⟩ := readStringWithRawBytes_eq_ok hread
  exact ⟨s, rfl, rfl⟩

/-- From a count at the front, the loop has taken so many elements and kept of
each what is kept of it. -/
theorem readElements_eq_ok {ι : Type} {what : Text} {element : Rd Bytes} {enc kept : ι → Bytes}
    (h : ∀ bs raw rest, element bs = .ok raw rest → ∃ x, bs = enc x ++ rest ∧ raw = kept x)
    {l : Len} {body rest value raw : Bytes}
    (heq : readElements what element (l.bytes ++ body) = .ok (value, raw) rest) :
    ∃ items : List ι, l.val = items.length ∧ items.length ≤ 100000000 ∧
      body = items.flatMap enc ++ rest ∧ raw = l.bytes ++ items.flatMap kept := by
  obtain ⟨⟨count, lenRaw⟩, mid, hcount, hbody⟩ := bind_eq_ok.1 heq
  obtain ⟨hpair, rfl⟩ :=
    EStateM.Result.ok.inj ((reads_readLengthWithRaw l body).symm.trans hcount)
  obtain ⟨rfl, rfl⟩ := Prod.mk.inj hpair
  dsimp only at hbody
  split at hbody
  · obtain ⟨_, _, hfail, -⟩ := bind_eq_ok.1 hbody
    cases hfail
  · next hlimit =>
      obtain ⟨raw', mid, hrounds, hpure⟩ := bind_eq_ok.1 hbody
      cases hpure
      have hround : ∀ b bs b' rest,
          (do let elemRaw ← element; pure (b ++ elemRaw) : Rd Bytes) bs = .ok b' rest →
          ∃ x, bs = enc x ++ rest ∧ b' = b ++ kept x := by
        intro b bs b' rest hstep
        obtain ⟨elemRaw, mid, helem, hpure⟩ := bind_eq_ok.1 hstep
        cases hpure
        obtain ⟨x, rfl, rfl⟩ := h bs elemRaw _ helem
        exact ⟨x, rfl, rfl⟩
      obtain ⟨items, hlen, rfl, rfl⟩ := forCount_eq_ok hround hrounds
      rw [foldl_append_flatMap]
      exact ⟨items, hlen.symm, by omega, rfl, rfl⟩

/-- Where all that was taken was kept, so was each element. -/
theorem elements_of_readElements {ι : Type} {what : Text} {element : Rd Bytes}
    {enc kept : ι → Bytes}
    (h : ∀ bs raw rest, element bs = .ok raw rest → ∃ x, bs = enc x ++ rest ∧ raw = kept x)
    (hle : ∀ x, (kept x).length ≤ (enc x).length) {l : Len} {body rest value : Bytes}
    (heq : readElements what element (l.bytes ++ body ++ rest)
      = .ok (value, l.bytes ++ body) rest) :
    ∃ items : List ι, l.val = items.length ∧ items.length ≤ 100000000 ∧
      body = items.flatMap enc ∧ ∀ x ∈ items, kept x = enc x := by
  rw [List.append_assoc] at heq
  obtain ⟨items, hlen, hlimit, hbody, hraw⟩ := readElements_eq_ok h heq
  have hbody : body = items.flatMap enc := List.append_cancel_right hbody
  have hkept : body = items.flatMap kept := List.append_cancel_left hraw
  exact ⟨items, hlen, hlimit, hbody, eq_of_flatMap_eq hle (hkept.symm.trans hbody)⟩

/-! ## The two types -/

/-- A member of a sorted set as it is read, and as it is kept. -/
theorem readMember_eq_ok {bs raw rest : Bytes}
    (h : (do
      let memberRaw ← readRawString
      let scoreBuf ← readExactly 8
      pure (memberRaw ++ scoreBuf) : Rd Bytes) bs = .ok raw rest) :
    ∃ m : RdbString × Double, bs = m.1.bytes ++ m.2.1 ++ rest ∧ raw = m.1.kept ++ m.2.1 := by
  obtain ⟨memberRaw, mid, hmember, hscore⟩ := bind_eq_ok.1 h
  obtain ⟨scoreBuf, mid', hbuf, hpure⟩ := bind_eq_ok.1 hscore
  cases hpure
  obtain ⟨s, rfl, rfl⟩ := readRawString_eq_ok hmember
  obtain ⟨hlen, rfl⟩ := readExactly_eq_ok hbuf
  exact ⟨(s, ⟨scoreBuf, hlen⟩), (List.append_assoc ..).symm, rfl⟩

theorem quicklist_of_readWhole {l : Len} {body rest value : Bytes}
    (h : readQuicklistRawValue (l.bytes ++ body ++ rest) = .ok (value, l.bytes ++ body) rest) :
    ∃ v : Value, v.rdbType = .quicklist ∧ v.bytes = l.bytes ++ body := by
  obtain ⟨items, hlen, hlimit, rfl, hkept⟩ :=
    elements_of_readElements (fun _ _ _ => readRawString_eq_ok) length_kept_le h
  have hcanonical : ∀ s ∈ items, s.Canonical := fun s hs => canonical_of_kept (hkept s hs)
  lift items to List ValueString using hcanonical
  rw [List.length_map] at hlen hlimit
  refine ⟨.quicklist ⟨l, items, hlen, hlimit⟩, rfl, ?_⟩
  show l.bytes ++ items.flatMap ValueString.bytes = _
  rw [List.flatMap_map]
  rfl

theorem sortedSet2_of_readWhole {l : Len} {body rest value : Bytes}
    (h : readZsetRawValue (l.bytes ++ body ++ rest) = .ok (value, l.bytes ++ body) rest) :
    ∃ v : Value, v.rdbType = .sortedSet2 ∧ v.bytes = l.bytes ++ body := by
  have hle : ∀ m : RdbString × Double,
      (m.1.kept ++ m.2.1).length ≤ (m.1.bytes ++ m.2.1).length := by
    intro m
    have hs := length_kept_le m.1
    rw [List.length_append, List.length_append]
    omega
  obtain ⟨items, hlen, hlimit, rfl, hkept⟩ :=
    elements_of_readElements (fun _ _ _ => readMember_eq_ok) hle h
  have hcanonical : ∀ m ∈ items, m.1.Canonical := fun m hm =>
    canonical_of_kept (List.append_cancel_right (hkept m hm))
  let member : {m : RdbString × Double // m.1.Canonical} → ValueString × Double :=
    fun m => (⟨m.1.1, m.2⟩, m.1.2)
  lift items to List {m : RdbString × Double // m.1.Canonical} using hcanonical
  rw [List.length_map] at hlen hlimit
  refine ⟨.sortedSet2 ⟨l, items.map member, by rw [List.length_map, hlen],
    by rwa [List.length_map]⟩, rfl, ?_⟩
  show l.bytes ++ (items.map member).flatMap memberBytes = _
  rw [List.flatMap_map, List.flatMap_map]
  rfl

/-- For every value of the two types and whatever follows it: it is taken whole
and kept byte for byte if and only if its bytes are a value of the older, or the
newer, type as well. -/
theorem readWhole_iff (c : Collection) (rest : Bytes) : c.ReadWhole rest ↔ c.Ambiguous := by
  constructor
  · rintro ⟨value, h⟩
    cases c with
    | quicklist2 nodes => exact quicklist_of_readWhole h
    | sortedSet members => exact sortedSet2_of_readWhole h
  · rintro ⟨v, htype, hbytes⟩
    have hread := reads_readValue v rest
    rw [htype, hbytes] at hread
    refine ⟨v.decoded, ?_⟩
    cases c with
    | quicklist2 nodes => exact hread
    | sortedSet members => exact hread

/-- A sorted set is, for one, if every score has seven characters. -/
theorem ambiguous_of_sevens {members : Sequence (RdbString × Score)}
    (hcanonical : ∀ m ∈ members.items, m.1.Canonical)
    (hsevens : ∀ m ∈ members.items, m.2.bytes.length = 8)
    (hlimit : members.items.length ≤ 100000000) : (Collection.sortedSet members).Ambiguous := by
  obtain ⟨count, items, counts⟩ := members
  have hboth : ∀ m ∈ items, m.1.Canonical ∧ m.2.bytes.length = 8 :=
    fun m hm => ⟨hcanonical m hm, hsevens m hm⟩
  let member : {m : RdbString × Score // m.1.Canonical ∧ m.2.bytes.length = 8} →
      ValueString × Double := fun m => (⟨m.1.1, m.2.1⟩, ⟨m.1.2.bytes, m.2.2⟩)
  lift items to List {m : RdbString × Score // m.1.Canonical ∧ m.2.bytes.length = 8}
    using hboth
  rw [List.length_map] at counts
  refine ⟨.sortedSet2 ⟨count, items.map member, by rw [List.length_map, counts],
    by simpa using hlimit⟩, rfl, ?_⟩
  show count.bytes ++ (items.map member).flatMap memberBytes = _
  rw [List.flatMap_map]
  show _ = count.bytes ++ (items.map Subtype.val).flatMap scoredBytes
  rw [List.flatMap_map]
  rfl

theorem word_held : ([0x61, 0x62, 0x63] : Bytes).length ≤ isizeMax := by
  show 3 ≤ 2 ^ 63 - 1
  omega

theorem letter_held : ([0x61] : Bytes).length ≤ isizeMax := by
  show 1 ≤ 2 ^ 63 - 1
  omega

theorem digit_fits : ([0x31] : Bytes).length < 253 := by
  show 1 < 253
  omega

theorem digit_ascii : ∀ c ∈ ([0x31] : Bytes), c < 128 := by
  intro c hc
  rw [List.mem_singleton.1 hc]
  decide

/-- A number of one byte. -/
def oneByte (n : Fin 64) : Len := Len.small .six n n.isLt

/-- One packed node of three bytes. -/
def oneNode : Collection :=
  .quicklist2
    { count := oneByte 1
      items := [(oneByte 2,
        .plain (oneByte 3) [0x61, 0x62, 0x63] rfl word_held)]
      counts := rfl }

/-- One member, its score the digit 1. -/
def oneScore : Collection :=
  .sortedSet
    { count := oneByte 1
      items := [(.plain (oneByte 1) [0x61] rfl letter_held,
        .number [0x31] digit_fits digit_ascii)]
      counts := rfl }

/-- Two bytes of the node are left, and the score is missing seven. -/
theorem not_readWhole : ¬ oneNode.ReadWhole [] ∧ ¬ oneScore.ReadWhole [] := by
  constructor
  · rintro ⟨value, h⟩
    have hread : readValue .quicklist2 oneNode.bytes
        = .ok ([], [1, 2, 3, 0x61]) [0x62, 0x63] := by rfl
    cases hread.symm.trans h
  · rintro ⟨value, h⟩
    have hread : readValue .sortedSet oneScore.bytes = .error (.err .eof) [] := by rfl
    cases hread.symm.trans h

end RedisHaTool.Rdb
