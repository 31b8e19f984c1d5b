import RedisHaTool.Proofs.RdbRounds

/-!
# What the parser accepts

A round that goes on has taken a complete record exactly if it was not lenient, and
a loop that comes to the end of the file is accepted. So a file is accepted for
what it is, each round taking a record of it, exactly if no round was lenient. A
byte that is no opcode is passed over wherever it stands, and only the end of the
input stops the parser there.
-/

namespace RedisHaTool.Rdb

open Lib

/-! ## The records of the grammar -/

theorem mem_counted {α ι : Type} (s : Counted α) {enc : ι → Bytes} (f : α → ι) :
    s.bytes (fun x => enc (f x)) ∈ counted enc := by
  refine ⟨⟨s.count, s.items.map f, by rw [List.length_map, s.counts]⟩, ?_⟩
  show _ = s.count.bytes ++ (s.items.map f).flatMap enc
  rw [Counted.bytes, List.flatMap_map]

/-- What the grammar calls a value is one of its type. -/
theorem value_mem_completeValue (v : Value) : v.bytes ∈ completeValue v.rdbType := by
  cases v with
  | string s => exact ⟨s.1, rfl⟩
  | blob t s =>
      obtain ⟨t, ht⟩ := t
      cases t
      case hashZipmap | listZiplist | setIntset | sortedSetZiplist | hashZiplist
        | hashListpack | sortedSetListpack | setListpack => exact ⟨s.1, rfl⟩
      all_goals cases ht
  | list es => exact mem_counted es Subtype.val
  | set ms => exact mem_counted ms Subtype.val
  | hash fs => exact mem_counted fs fun f => (f.1.1, f.2.1)
  | sortedSet2 ms => exact mem_counted ms fun m => (m.1.1, m.2)
  | quicklist ns => exact mem_counted ns Subtype.val

theorem completeBody_toByte (t : RdbType) :
    completeBody t.toByte = strings * completeValue t := by
  cases t <;> rfl

/-- What the grammar calls a record is complete. -/
theorem record_mem_completeRecord (r : Record) : r.bytes ∈ completeRecord := by
  have of_body : ∀ {opcode : UInt8} {body : Bytes}, body ∈ completeBody opcode →
      opcode :: body ∈ completeRecord := fun h => ⟨_, _, rfl, h⟩
  cases r with
  | aux key value =>
      exact of_body (Language.append_mem_mul (mem_encodings _ key) (mem_encodings _ value))
  | resizeDb dbSize expiresSize =>
      exact of_body (Language.append_mem_mul (mem_encodings _ dbSize.1)
        (mem_encodings _ expiresSize.1))
  | selectDb db => exact of_body (mem_encodings _ db.1)
  | expireMs ms => exact of_body ⟨⟨toLeBytes 8 ms, length_toLeBytes 8 ms⟩, rfl⟩
  | expireS secs => exact of_body ⟨⟨toLeBytes 4 secs, length_toLeBytes 4 secs⟩, rfl⟩
  | idle time => exact of_body (mem_encodings _ time)
  | freq counter => exact of_body ⟨⟨[counter], rfl⟩, rfl⟩
  | moduleAux id items endForm =>
      exact of_body (Language.append_mem_mul (mem_encodings _ id) ⟨(items, endForm), rfl⟩)
  | keyValue key value =>
      refine of_body ?_
      rw [completeBody_toByte]
      exact Language.append_mem_mul (mem_encodings _ key.1) (value_mem_completeValue value)

/-! ## The run of the parser -/

section Run

variable {σ : Type} {callback : BinEntry → EStateM (Fault SyncError) σ Unit}
  {p q : RdbParser σ} {s : σ} {bs : Bytes}

theorem readMagic_eq_ok {bs rest : Bytes} (h : readMagic bs = .ok () rest) :
    ∃ magic, magic.length = 5 ∧ bs = magic ++ rest := by
  obtain ⟨magic, mid, hread, hrest⟩ := bind_eq_ok.1 h
  split at hrest
  · cases hrest
  · cases hrest
    exact ⟨magic, readExactly_eq_ok hread⟩

theorem readVersion_eq_ok {bs rest : Bytes} {version : Nat}
    (h : readVersion bs = .ok version rest) :
    ∃ digits, digits.length = 4 ∧ bs = digits ++ rest := by
  obtain ⟨digits, mid, hread, hrest⟩ := bind_eq_ok.1 h
  cases hvalue : (fromUtf8 digits).bind parseU32 with
  | none =>
      simp only [hvalue] at hrest
      cases hrest
  | some v =>
      simp only [hvalue] at hrest
      cases hrest
      exact ⟨digits, readExactly_eq_ok hread⟩

theorem readHeader_eq_ok (h : readHeader p = .ok () q) :
    ∃ header, header.length = 9 ∧ p.reader = header ++ q.reader ∧
      q.state.eofReached = p.state.eofReached := by
  obtain ⟨_, p₁, hmagic, h₁⟩ := bind_eq_ok.1 h
  obtain ⟨version, p₂, hversion, h₂⟩ := bind_eq_ok.1 h₁
  cases h₂
  obtain ⟨hread, hp₁⟩ := onReader_eq_ok.1 hmagic
  obtain ⟨hread', hp₂⟩ := onReader_eq_ok.1 hversion
  obtain ⟨magic, hlen, hp⟩ := readMagic_eq_ok hread
  obtain ⟨digits, hlen', hmid⟩ := readVersion_eq_ok hread'
  refine ⟨magic ++ digits, by rw [List.length_append, hlen, hlen'], ?_, ?_⟩
  · rw [hp, hmid, List.append_assoc]
  · rw [hp₂, hp₁]

theorem parse_of_readHeader (h : readHeader p = .ok () q) :
    parse callback p = (do
      loopFuel (parseStep callback) (q.left + 1)
      pure []) q := by
  obtain ⟨_, p₁, hmagic, h₁⟩ := bind_eq_ok.1 h
  obtain ⟨version, p₂, hversion, h₂⟩ := bind_eq_ok.1 h₁
  cases h₂
  exact (bind_of_ok hmagic).trans (bind_of_ok hversion)

theorem parse_of_readHeader_error {e : Fault SyncError} (h : readHeader p = .error e q) :
    parse callback p = .error e q := by
  rw [readHeader] at h
  rw [parse]
  cases hmagic : onReader readMagic p with
  | error e' t =>
      rw [bind_of_error hmagic] at h ⊢
      cases h
      rfl
  | ok _ p₁ =>
      rw [bind_of_ok hmagic] at h ⊢
      cases hversion : onReader readVersion p₁ with
      | error e' t =>
          rw [bind_of_error hversion] at h ⊢
          cases h
          rfl
      | ok version p₂ =>
          rw [bind_of_ok hversion] at h
          cases h

/-- An answer of `parse` is one of its loop, after the header. -/
theorem parse_eq_ok {fields : List RdbAuxField} (h : parse callback p = .ok fields q) :
    ∃ p₀, readHeader p = .ok () p₀ ∧
      loopFuel (parseStep callback) (p₀.left + 1) p₀ = .ok () q := by
  obtain ⟨_, p₁, hmagic, h₁⟩ := bind_eq_ok.1 h
  obtain ⟨version, p₂, hversion, h₂⟩ := bind_eq_ok.1 h₁
  have hheader : readHeader p = .ok () { p₂ with state := { p₂.state with version } } :=
    (bind_of_ok hmagic).trans (bind_of_ok hversion)
  refine ⟨_, hheader, ?_⟩
  rw [parse_of_readHeader hheader] at h
  obtain ⟨_, q', hloop, hpure⟩ := bind_eq_ok.1 h
  cases hpure
  exact hloop

theorem Reached.running (h : Reached callback s bs p) : p.state.eofReached = false := by
  obtain ⟨p₀, hheader, hrounds⟩ := h
  obtain ⟨header, -, -, hkept⟩ := readHeader_eq_ok hheader
  induction hrounds with
  | refl => exact hkept
  | tail _ hround _ => exact hround.running

theorem Reached.round (h : Reached callback s bs p) (hround : Round callback p q) :
    Reached callback s bs q := by
  obtain ⟨p₀, hheader, hrounds⟩ := h
  exact ⟨p₀, hheader, hrounds.tail hround⟩

/-- From where its loop is, `parse` ends as the loop does, which has rounds
enough. -/
theorem Reached.parse (h : Reached callback s bs p) :
    ∃ fuel, p.left < fuel ∧
      parse callback (RdbParser.new bs s) = (do
        loopFuel (parseStep callback) fuel
        pure []) p := by
  obtain ⟨p₀, hheader, hrounds⟩ := h
  obtain ⟨fuel, hlt, heq⟩ := loopFuel_of_rounds (μ := RdbParser.left)
    (fun _ _ hround => Round.takes hround) hrounds (Nat.lt_succ_self p₀.left)
  refine ⟨fuel, hlt, (parse_of_readHeader hheader).trans ?_⟩
  rw [bind_apply, bind_apply, heq]

/-- Nothing but an end of the file ends the loop with an answer. -/
theorem reached_of_parse {fields : List RdbAuxField}
    (h : parse callback (RdbParser.new bs s) = .ok fields q) :
    ∃ header p₀ p, header.length = 9 ∧ bs = header ++ p₀.reader ∧
      readHeader (RdbParser.new bs s) = .ok () p₀ ∧
      Relation.ReflTransGen (Round callback) p₀ p ∧ p.reader = 0xFF :: q.reader := by
  obtain ⟨p₀, hheader, hloop⟩ := parse_eq_ok h
  obtain ⟨p, hrounds, hlast⟩ := rounds_of_loopFuel hloop
  obtain ⟨header, hlen, hbs, -⟩ := readHeader_eq_ok hheader
  have hreached : Reached callback s bs p := ⟨p₀, hheader, hrounds⟩
  exact ⟨header, p₀, p, hlen, hbs, hheader, hrounds,
    parseStep_last hreached.running hlast⟩

/-- At an end of the file `parse` answers. -/
theorem Reached.parse_of_eof {left : Bytes} (h : Reached callback s bs p)
    (hreader : p.reader = 0xFF :: left) :
    ∃ q, Rdb.parse callback (RdbParser.new bs s) = .ok [] q ∧ q.reader = left := by
  obtain ⟨fuel, hlt, hparse⟩ := h.parse
  obtain ⟨k, rfl⟩ : ∃ k, fuel = k + 1 := ⟨fuel - 1, by omega⟩
  have hat : At p (0xFF :: left) ⟨p.state.currentDb, p.state.currentExpire⟩ p.sink :=
    ⟨hreader, rfl, rfl, h.running, rfl⟩
  obtain ⟨q, hstep, hleft, -⟩ := parseStep_eof callback hat
  have hloop : loopFuel (parseStep callback) (k + 1) p = .ok () q := by
    rw [loopFuel, bind_of_ok hstep]
    rfl
  refine ⟨q, ?_, hleft⟩
  rw [hparse, bind_of_ok hloop]
  rfl

/-- What is accepted was cut up into records by the rounds. -/
theorem ParsesRecords.strict {left : Bytes} {t : RdbParser σ}
    (h : ParsesRecords callback s bs) (hp : Reached callback s bs p)
    (hreader : p.reader = 0xFF :: left) (hq : Reached callback s bs q)
    (hround : Round callback q t) : ¬ Lenient q.reader := by
  obtain ⟨u, hparse, -⟩ := hp.parse_of_eof hreader
  exact hround.takes_record_iff.1 (h.whole [] u hparse q t hq hround)

/-- After an unknown byte the loop reads on, so the parser stops there only if
there is nothing to read. -/
theorem ParsesRecords.known {b : UInt8} {rest : Bytes} (h : ParsesRecords callback s bs)
    (hp : Reached callback s bs p) (hreader : p.reader = b :: rest) :
    Implemented b ∨ rest = [] := by
  by_cases hb : Implemented b
  · exact Or.inl hb
  right
  obtain ⟨e, q, hparse, hq⟩ := h.stops p b rest hp hreader hb
  have hround := round_of_unknown callback hb hp.running hreader
  obtain ⟨fuel, hlt, heq⟩ := (hp.round hround).parse
  have hle := final_loop_le callback hround.running fuel
  cases hloop : loopFuel (parseStep callback) fuel { p with reader := rest } with
  | ok _ t =>
      rw [hparse, bind_of_ok hloop] at heq
      cases heq
  | error e' t =>
      rw [hparse, bind_of_error hloop] at heq
      cases heq
      rw [hloop] at hle
      have hshort : rest.length ≤ rest.length - min fuel 1 := by
        rw [← hq] at hle ⊢
        exact hle
      exact List.eq_nil_of_length_eq_zero (by omega)

/-- The parser accepts complete records only, a round for each, and stops at a byte
that cannot begin one, exactly when such a byte is the last one and no round of a
loop that comes to the end of the file was lenient. -/
theorem parsesRecords_iff (callback : BinEntry → EStateM (Fault SyncError) σ Unit) (s : σ)
    (bs : Bytes) : ParsesRecords callback s bs ↔ MeetsRecords callback s bs := by
  constructor
  · intro h
    exact ⟨fun p b rest hp hreader => h.known hp hreader,
      fun p q left t hp hreader hq hround => h.strict hp hreader hq hround⟩
  · intro h
    refine ⟨fun fields q hparse => ?_, fun fields q hparse u t hu hround => ?_,
      fun p b rest hp hreader hb => ?_⟩
    · obtain ⟨header, p₀, p, hlen, hbs, hheader, hrounds, hp⟩ := reached_of_parse hparse
      have hreached : Reached callback s bs p := ⟨p₀, hheader, hrounds⟩
      obtain ⟨rs, hrs, hp₀⟩ := records_of_rounds hrounds fun r t hr hround =>
        h.strict p r q.reader t hreached hp ⟨p₀, hheader, hr⟩ hround
      refine ⟨header, rs.flatten, hlen, ?_, Language.mem_kstar.2 ⟨rs, rfl, hrs⟩⟩
      rw [hbs, hp₀, hp, List.append_assoc]
    · obtain ⟨header, p₀, p, -, -, hheader, hrounds, hp⟩ := reached_of_parse hparse
      exact hround.takes_record_iff.2 (h.strict p u q.reader t ⟨p₀, hheader, hrounds⟩ hp hu hround)
    · obtain rfl := (h.known p b rest hp hreader).resolve_left hb
      have hround := round_of_unknown callback hb hp.running hreader
      obtain ⟨fuel, hlt, heq⟩ := (hp.round hround).parse
      obtain ⟨k, rfl⟩ : ∃ k, fuel = k + 1 := ⟨fuel - 1, by omega⟩
      refine ⟨.eof, { p with reader := [] }, ?_, rfl⟩
      have hstep : parseStep callback { p with reader := [] } =
          .error (.err .eof) { p with reader := [] } := by
        rw [parseStep, bind_of_ok (get_apply _), hround.running,
          if_neg Bool.false_ne_true]
        rfl
      have hloop : loopFuel (parseStep callback) (k + 1) { p with reader := [] } =
          .error (.err .eof) { p with reader := [] } := by
        rw [loopFuel, bind_of_error hstep]
      rw [heq, bind_of_error hloop]

end Run

/-- A list of type 18 that breaks off in its one node is accepted. -/
example : answer (parse (accepting fun n _ => n + 1) (RdbParser.new
    (asBytes "REDIS0009".toList ++ [18, 1, 0x6B, 1, 2, 3, 0x61, 0xFF]) 0)) = some [] := by
  decide +kernel

/-- A byte that is no type, and what may be its key and value read as a
string. -/
def unknownTypeFile : Bytes :=
  asBytes "REDIS0009".toList ++ [7, 0, 1, 0x6B, 1, 0x76, 0xFF]

/-- A callback that keeps what it is called with. -/
def keep (es : List BinEntry) (e : BinEntry) : List BinEntry := es ++ [e]

/-- The byte is passed over, and the callback is called with a key that is not
there. -/
theorem not_parsesRecords :
    ∃ p, parse (accepting keep) (RdbParser.new unknownTypeFile []) = .ok [] p ∧
      p.sink.map BinEntry.key = [asBytes "k".toList] ∧
      ¬ RecordsOnly unknownTypeFile p.reader := by
  have hleft : (final (parse (accepting keep)
      (RdbParser.new unknownTypeFile []))).reader = [] := by
    decide +kernel
  refine ⟨final (parse (accepting keep) (RdbParser.new unknownTypeFile [])),
    eq_ok_of_answer (by decide +kernel), by decide +kernel, ?_⟩
  rw [hleft]
  rintro ⟨header, body, hlen, hbs, hbody⟩
  rw [List.append_assoc] at hbs
  obtain ⟨-, hrest⟩ := List.append_inj hbs (hlen.symm ▸ by decide)
  have hfile : [7, 0, 1, 0x6B, 1, 0x76] ++ [0xFF] = body ++ [0xFF] := hrest
  obtain ⟨hbody', -⟩ := List.append_inj' hfile rfl
  rw [← hbody'] at hbody
  exact absurd (implemented_of_mem_kstar hbody) (by decide)

end RedisHaTool.Rdb
