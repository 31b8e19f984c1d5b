import RedisHaTool.Proofs.RdbFields

/-!
# Streams as they are read

The reader of a stream scans its fields, each loop and each version as the language
has it. So `read_stream_value`, which turns every failure into an answer, answers
over all of the fields and over any part of them up to one that cannot be read; it
panics at a string that is too long, and does nothing else.

A complete stream has one field more than is read. What is taken of it is the whole
only if its bytes happen to be fields of the other kind as well, or such a part.
-/

namespace RedisHaTool.Rdb

open Lib

/-! ## The fields -/

/-- A reader whose failures are those of a length. -/
theorem readsField_length {α : Type} {m : Rd α}
    (hwhole : ∀ l : AnyLen encodedInt, ∃ a, Reads m l.bytes a)
    (hstopped : ∀ taken left, NoLength encodedInt taken left →
      ∃ e, m (taken ++ left) = .error (.err e) left) :
    ReadsField streamFormat m StreamField.length where
  cases bs := by
    rcases @anyLen_cases encodedInt bs with ⟨l, rest, rfl⟩ | ⟨taken, left, rfl, h⟩
    · exact .inl ⟨l, rest, rfl⟩
    · exact .inr ⟨.len (Len.small .six 0 zero_fits), .err (), taken, left, rfl, h⟩
  whole := hwhole
  stopped l k taken left hstops := by
    cases k with
    | err _ =>
        obtain ⟨e, herror⟩ := hstopped taken left hstops
        exact ⟨.err e, rfl, herror⟩
    | panic => exact absurd hstops id
    | fuel => exact absurd hstops id

theorem readsField_skipLength : ReadsField streamFormat skipLength StreamField.length := by
  refine readsField_length (fun l => ?_) fun taken left h => ?_
  · obtain ⟨r, -, hreads⟩ := reads_anyLen l
    exact ⟨(), hreads.bind_pure (Reads.pure _)⟩
  · obtain ⟨e, herror⟩ := h.withEncoding
    exact ⟨e, bind_of_error herror⟩

/-- The lengths that count this many. -/
def lengthOf (n : Nat) : Language StreamField := {fs | ∃ l, l.counted = n ∧ fs = [.length l]}

theorem scans_readCount : Scans streamFormat readCount lengthOf := by
  have hwhole : ∀ l : AnyLen encodedInt, Reads readCount l.bytes l.counted := by
    intro l
    obtain ⟨r, hr, hreads⟩ := reads_anyLen l
    rw [← hr]
    exact hreads.bind_pure (Reads.pure _)
  have hfield : ReadsField streamFormat readCount StreamField.length := by
    refine readsField_length (fun l => ⟨_, hwhole l⟩) fun taken left h => ?_
    obtain ⟨e, herror⟩ := h.withEncoding
    exact ⟨e, bind_of_error herror⟩
  refine hfield.scans.congr fun n => Set.ext fun fs => ?_
  constructor
  · rintro ⟨l, hreads, rfl⟩
    cases (hreads []).symm.trans (hwhole l [])
    exact ⟨l, rfl, rfl⟩
  · rintro ⟨l, rfl, rfl⟩
    exact ⟨l, hwhole l, rfl⟩

theorem readsField_string : ReadsField streamFormat readString StreamField.string where
  cases bs := by
    let empty : RdbString := .int8 ⟨0, by decide⟩
    rcases string_cases bs with
      ⟨s, rest, rfl⟩ | ⟨taken, left, rfl, hstops⟩ | ⟨taken, left, rfl, hstops⟩
    · exact .inl ⟨s, rest, rfl⟩
    · exact .inr ⟨empty, .panic, taken, left, rfl, hstops⟩
    · exact .inr ⟨empty, .err (), taken, left, rfl, hstops⟩
  whole s := ⟨s.value, reads_readString s⟩
  stopped s k taken left hstops := by
    cases k with
    | err _ =>
        obtain ⟨e, herror⟩ := NoString.readString hstops
        exact ⟨.err e, rfl, herror⟩
    | panic => exact ⟨.panic, rfl, HugeString.readString hstops left⟩
    | fuel => exact absurd hstops id

/-- A block that is read for its bytes, or for a number. -/
theorem readsField_block {α : Type} {n : Nat} (dec : Bytes → α) {m : Rd α}
    (hm : m = do let bs ← readExactly n; pure (dec bs)) :
    ReadsField streamFormat m (StreamField.block n) where
  cases bs := by
    rcases Nat.lt_or_ge bs.length n with hshort | hlong
    · let zeros : Block n := ⟨List.replicate n 0, List.length_replicate⟩
      exact .inr ⟨zeros, .err (), bs, [], (List.append_nil bs).symm, rfl, hshort⟩
    · exact .inl ⟨⟨bs.take n, List.length_take_of_le hlong⟩, bs.drop n,
        (List.take_append_drop n bs).symm⟩
  whole bs := by
    rw [hm]
    exact ⟨dec bs.1, (reads_readExactly bs.2).bind_pure (Reads.pure _)⟩
  stopped bs k taken left hstops := by
    cases k with
    | err _ =>
        obtain ⟨rfl, hshort⟩ := hstops
        refine ⟨.err .eof, rfl, ?_⟩
        rw [List.append_nil, hm]
        exact bind_of_error (readExactly_short hshort)
    | panic => exact absurd hstops id
    | fuel => exact absurd hstops id

section Sequences

variable {body rest : Rd Unit} {item K : Language StreamField}

/-- A length nobody looks at, and what comes after it. -/
theorem scans_length (h : Scans streamFormat rest fun _ => K) :
    Scans streamFormat (do skipLength; rest) fun _ => lengthField * K :=
  readsField_skipLength.seq fun _ => h

theorem scans_lengths (n : Nat) (h : Scans streamFormat rest fun _ => K) :
    Scans streamFormat (do repeatCount n skipLength; rest) fun _ => lengthField ^ n * K := by
  have hone : Scans streamFormat skipLength fun _ => lengthField := by
    have hall := scans_length Scans.done
    rwa [mul_one, bind_pure_unit] at hall
  exact (hone.times n).andThen fun _ => h

theorem scans_string {f : Bytes → Rd Unit} (h : ∀ s, Scans streamFormat (f s) fun _ => K) :
    Scans streamFormat (readString >>= f) fun _ => stringField * K :=
  readsField_string.seq h

theorem scans_block {α : Type} {n : Nat} (dec : Bytes → α) {m : Rd α} {f : α → Rd Unit}
    (hm : m = do let bs ← readExactly n; pure (dec bs))
    (h : ∀ a, Scans streamFormat (f a) fun _ => K) :
    Scans streamFormat (m >>= f) fun _ => blockField n * K :=
  (readsField_block dec hm).seq h

/-- A count, so many rounds, and what comes after them. -/
theorem scans_counted (hbody : Scans streamFormat body fun _ => item)
    (h : Scans streamFormat rest fun _ => K) :
    Scans streamFormat (do let n ← readCount; repeatCount n body; rest)
      fun _ => countedFields item * K := by
  have hcounted : Scans streamFormat (do let n ← readCount; repeatCount n body)
      fun _ => countedFields item := by
    refine (scans_readCount.bind fun n => hbody.times n).congr fun _ => Set.ext fun fs => ?_
    constructor
    · rintro ⟨n, hall⟩
      obtain ⟨_, ⟨l, rfl, rfl⟩, gs, hgs, rfl⟩ := Language.mem_mul.1 hall
      exact ⟨l, gs, hgs, rfl⟩
    · rintro ⟨l, gs, hgs, rfl⟩
      have hlength : [StreamField.length l] ∈ lengthOf l.counted := ⟨l, rfl, rfl⟩
      exact ⟨l.counted, Language.append_mem_mul hlength hgs⟩
  have hseq := hcounted.andThen fun _ => h
  rwa [bind_assoc] at hseq

/-- The last loop of all. -/
theorem scans_countedLast (hbody : Scans streamFormat body fun _ => item) :
    Scans streamFormat (do let n ← readCount; repeatCount n body)
      fun _ => countedFields item := by
  have hall := scans_counted hbody Scans.done
  simpa only [mul_one, bind_pure_unit] using hall

/-- Fields that only some versions have. -/
theorem scans_ifSo {m : Rd Unit} {L : Language StreamField} {c : Bool} {n : Nat}
    (hm : Scans streamFormat m fun _ => L ^ n * K) (h : Scans streamFormat rest fun _ => K) :
    Scans streamFormat (if c = true then m else rest) fun _ => L ^ ifSo c n * K := by
  cases c with
  | true => exact hm
  | false =>
      have hnone : L ^ ifSo false n * K = K := by
        rw [ifSo, if_neg Bool.false_ne_true, pow_zero, one_mul]
      rw [hnone]
      exact h

end Sequences

/-! ## The stream -/

/-- The id that a listpack is under. -/
def readId : Rd Unit := do
  let streamId ← readString
  if streamId.length ≠ 16 then
    fail "Stream listpack stream ID 长度不是 16 字节".toList

theorem readId_of_string {bs rest s : Bytes} (h : readString bs = .ok s rest) :
    readId bs = if s.length ≠ 16 then
        .error (.err (.corruptedText "Stream listpack stream ID 长度不是 16 字节".toList)) rest
      else .ok () rest := by
  rw [readId, bind_of_ok h]
  split <;> rfl

theorem readsField_readId : ReadsField streamFormat readId StreamField.id where
  cases bs := by
    let sixteen : {s : RdbString // s.value.length = 16} :=
      ⟨.plain (Len.small .six 16 (by decide)) (List.replicate 16 0) rfl (by decide), rfl⟩
    rcases string_cases bs with
      ⟨s, rest, rfl⟩ | ⟨taken, left, rfl, hstops⟩ | ⟨taken, left, rfl, hstops⟩
    · by_cases hlen : s.value.length = 16
      · exact .inl ⟨⟨s, hlen⟩, rest, rfl⟩
      · exact .inr ⟨sixteen, .err (), s.bytes, rest, rfl, .inr ⟨s, hlen, rfl⟩⟩
    · exact .inr ⟨sixteen, .panic, taken, left, rfl, hstops⟩
    · exact .inr ⟨sixteen, .err (), taken, left, rfl, .inl hstops⟩
  whole s := by
    refine ⟨(), fun after => ?_⟩
    exact (readId_of_string (reads_readString s.1 after)).trans (if_neg (not_not.2 s.2))
  stopped s k taken left hstops := by
    cases k with
    | err _ =>
        rcases hstops with hstops | ⟨s, hlen, rfl⟩
        · obtain ⟨e, herror⟩ := NoString.readString hstops
          exact ⟨.err e, rfl, bind_of_error herror⟩
        · refine ⟨_, ?_, (readId_of_string (reads_readString s left)).trans (if_pos hlen)⟩
          rfl
    | panic => exact ⟨.panic, rfl, bind_of_error (HugeString.readString hstops left)⟩
    | fuel => exact absurd hstops id

/-- An id and a listpack, in one round. -/
theorem scans_listpack :
    Scans streamFormat (do
      let streamId ← readString
      if streamId.length ≠ 16 then
        fail "Stream listpack stream ID 长度不是 16 字节".toList
      let _listpack ← readString) fun _ => idField * stringField := by
  have hlistpack := scans_string (f := fun _ => pure ()) fun _ => Scans.done
  rw [mul_one] at hlistpack
  have hall : Scans streamFormat (do readId; let _listpack ← readString) fun _ =>
      idField * stringField := readsField_readId.seq fun _ => hlistpack
  rw [readId, bind_assoc] at hall
  refine cast (congrArg (Scans streamFormat · _) (congrArg _ (funext fun streamId => ?_))) hall
  dsimp only
  split
  · rfl
  · rw [pure_bind]

theorem scans_skipConsumer (rdbType : RdbType) :
    Scans streamFormat (skipConsumer rdbType) fun _ => consumerFields rdbType := by
  have hid : Scans streamFormat (do let _streamId ← readExactly 16)
      fun _ => blockField 16 := by
    have hall := scans_block id (f := fun _ => pure ())
      (bind_pure (readExactly 16)).symm fun _ => Scans.done
    rwa [mul_one] at hall
  have hpending := scans_countedLast hid
  have hactive : Scans streamFormat (do
      let _activeTime ← readU64
      let pelCount ← readCount
      repeatCount pelCount do
        let _streamId ← readExactly 16)
      fun _ => blockField 8 ^ 1 * countedFields (blockField 16) := by
    rw [pow_one]
    exact scans_block leNat rfl fun _ => hpending
  rw [consumerFields, mul_assoc, mul_assoc]
  exact scans_string fun _ => scans_block leNat rfl fun _ => scans_ifSo hactive hpending

theorem scans_skipConsumerGroup (rdbType : RdbType) :
    Scans streamFormat (skipConsumerGroup rdbType) fun _ => groupFields rdbType := by
  have hentry : Scans streamFormat (do
      let _streamId ← readExactly 16
      let _deliveryTime ← readU64
      skipLength) fun _ => blockField 16 * blockField 8 * lengthField := by
    have hlength := scans_length Scans.done
    rw [mul_one, bind_pure_unit] at hlength
    rw [mul_assoc]
    exact scans_block id (bind_pure (readExactly 16)).symm fun _ =>
      scans_block leNat rfl fun _ => hlength
  have hloops := scans_counted hentry (scans_countedLast (scans_skipConsumer rdbType))
  have hread : Scans streamFormat (do
      skipLength
      let globalPelCount ← readCount
      repeatCount globalPelCount do
        let _streamId ← readExactly 16
        let _deliveryTime ← readU64
        skipLength
      let consumersCount ← readCount
      repeatCount consumersCount (skipConsumer rdbType)) fun _ => lengthField ^ 1
        * (countedFields (blockField 16 * blockField 8 * lengthField)
          * countedFields (consumerFields rdbType)) := by
    rw [pow_one]
    exact scans_length hloops
  rw [groupFields, mul_assoc, mul_assoc, mul_assoc, pow_two, mul_assoc lengthField]
  exact scans_string fun _ => scans_length (scans_length (scans_ifSo hread hloops))

theorem scans_skipStream (rdbType : RdbType) :
    Scans streamFormat (skipStream rdbType) fun _ => streamFields rdbType := by
  have hgroups := scans_countedLast (scans_skipConsumerGroup rdbType)
  have hmetadata := scans_ifSo (c := hasStreamMetadata rdbType) (scans_lengths 5 hgroups) hgroups
  have hlastId := scans_length (scans_length hmetadata)
  have hall := scans_counted scans_listpack hlastId
  rw [streamFields, mul_assoc, mul_assoc, pow_two, mul_assoc]
  exact hall

/-! ## What is answered -/

/-- `read_stream_value` answers an empty value, exactly over what `StreamTaken`
says. -/
theorem readStreamValue_eq_ok {rdbType : RdbType} {bs rest : Bytes} {value : Bytes × Bytes} :
    readStreamValue rdbType bs = .ok value rest ↔
      value = ([], []) ∧ ∃ taken, bs = taken ++ rest ∧ StreamTaken rdbType taken rest := by
  have hscans := scans_skipStream rdbType
  constructor
  · intro h
    rw [readStreamValue] at h
    split at h
    · next hskip =>
        cases h
        obtain ⟨fs, hfs, rfl⟩ := hscans.reads bs () rest hskip
        exact ⟨rfl, _, rfl, .inl ⟨fs, hfs, rfl⟩⟩
    · next hskip =>
        cases h
        obtain ⟨_, taken, rfl, hstops⟩ := hscans.fails bs _ rest hskip
        exact ⟨rfl, taken, rfl, .inr hstops⟩
    · cases h
  · rintro ⟨rfl, taken, rfl, ⟨fs, hfs, rfl⟩ | hstops⟩
    · rw [readStreamValue, hscans.whole () fs hfs rest]
    · obtain ⟨e, hkind, herror⟩ := hscans.stopped () _ taken rest hstops
      cases e with
      | err e => rw [readStreamValue, herror]
      | panic => cases hkind
      | fuel => cases hkind

/-- Otherwise it panics, at a string that is too long. -/
theorem readStreamValue_eq_error {rdbType : RdbType} {bs rest : Bytes} {e : Fault SyncError}
    (h : readStreamValue rdbType bs = .error e rest) :
    e = .panic ∧ StreamTooLong rdbType bs := by
  rw [readStreamValue] at h
  split at h
  · cases h
  · cases h
  · next fault left hnot hskip =>
      cases h
      obtain ⟨_, taken, rfl, hstops⟩ := (scans_skipStream rdbType).fails bs e rest hskip
      cases e with
      | err e => exact absurd rfl (hnot e)
      | panic => exact ⟨rfl, taken, rest, rfl, hstops⟩
      | fuel =>
          obtain ⟨done, f, more, broken, -, -, hnone⟩ := hstops
          cases f <;> exact absurd hnone id

theorem StreamTooLong.not_ok {rdbType : RdbType} {bs : Bytes} (h : StreamTooLong rdbType bs)
    (value : Bytes × Bytes) (rest : Bytes) : readStreamValue rdbType bs ≠ .ok value rest := by
  obtain ⟨taken, left, rfl, hstops⟩ := h
  obtain ⟨e, hkind, herror⟩ := (scans_skipStream rdbType).stopped () _ taken left hstops
  cases e with
  | panic =>
      rw [readStreamValue, herror]
      intro h
      cases h
  | err e => cases hkind
  | fuel => cases hkind

/-- For every input and each of the types: `read_stream_value` answers exactly where
a complete stream stands, and has then taken it, if and only if the bytes of that
stream are what it takes by its own list of fields; and where none stands it comes
to a string that is too long. -/
theorem readsStream_iff (rdbType : RdbType) (bs : Bytes) :
    ReadsStream rdbType bs ↔ MeetsStream rdbType bs := by
  constructor
  · intro h
    refine ⟨fun v rest hbs => ?_, ?_⟩
    · obtain ⟨value, hread⟩ := h.takes rest ⟨v, hbs⟩
      obtain ⟨-, taken, htaken, hall⟩ := readStreamValue_eq_ok.1 hread
      rwa [List.append_cancel_right (hbs.symm.trans htaken)]
    · cases hread : readStreamValue rdbType bs with
      | ok value rest => exact .inl (h.answers.1 ⟨value, rest, hread⟩)
      | error e rest => exact .inr (readStreamValue_eq_error hread).2
  · intro h
    have htakes : ∀ rest, BeginsWithStream rdbType bs rest →
        ∃ value, readStreamValue rdbType bs = .ok value rest := by
      rintro rest ⟨v, hbs⟩
      exact ⟨_, readStreamValue_eq_ok.2 ⟨rfl, v.bytes, hbs, h.whole v rest hbs⟩⟩
    refine ⟨⟨?_, ?_⟩, htakes⟩
    · rintro ⟨value, rest, hread⟩
      exact h.only.resolve_right fun hlong => hlong.not_ok value rest hread
    · rintro ⟨rest, hstream⟩
      obtain ⟨value, hread⟩ := htakes rest hstream
      exact ⟨value, rest, hread⟩

/-- An empty stream of the first version: no listpacks and entries, the last id, and
no groups. -/
def emptyStream : StreamValue .streamListpacks :=
  let zero := Len.small .six 0 zero_fits
  { listpacks := ⟨zero, [], rfl⟩
    entries := zero
    lastId := ⟨[zero, zero], rfl⟩
    metadata := ⟨[], rfl⟩
    groups := ⟨zero, [], rfl⟩ }

/-- Of the empty stream the last byte is left, and nothing is taken for a stream. -/
theorem not_readsStream :
    ¬ ReadsStream .streamListpacks [0, 0, 0, 0, 0] ∧ ¬ ReadsStream .streamListpacks [] := by
  constructor
  · intro h
    obtain ⟨value, hread⟩ := h.takes [] ⟨emptyStream, rfl⟩
    have hleft : readStreamValue .streamListpacks [0, 0, 0, 0, 0] = .ok ([], []) [0] := rfl
    cases hleft.symm.trans hread
  · intro h
    obtain ⟨rest, v, hv⟩ := h.answers.1 ⟨([], []), [], rfl⟩
    have hcount := len_bytes_ne_nil v.listpacks.count
    have hnil : v.listpacks.count.bytes = [] := by
      rw [StreamValue.bytes, Sequence.bytes] at hv
      simp only [List.append_assoc, List.nil_eq_append_iff] at hv
      exact hv.1
    exact hcount hnil

end RedisHaTool.Rdb
