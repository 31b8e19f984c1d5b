import RedisHaTool.Lib.Cuts
import RedisHaTool.Syncer.Session

/-!
# The effects of the input task

The input task reads a line, perhaps a file of known size, and then whatever
comes, from a socket that hands out its bytes in pieces of any size. Each of the
three reading loops is proved once against everything that can still be read,
and the effects of a whole session follow: they are the ones of
`Syncer.Session`, for some way to cut the RDB file and the stream into pieces.
-/

namespace RedisHaTool.Syncer

open Lib Store Checkpoint Resp

/-! ## The buffered reader -/

/-- What the reads of 8192 bytes answer, one after another. -/
def BufReader.pieces (r : BufReader) : List Bytes :=
  if r.buffer = [] then r.incoming.map Subtype.val
  else r.buffer :: r.incoming.map Subtype.val

theorem BufReader.flatten_pieces (r : BufReader) : r.pieces.flatten = r.pending := by
  rw [BufReader.pieces, BufReader.pending]
  split
  · next h => rw [h, List.nil_append, List.flatMap_def]
  · rw [List.flatten_cons, List.flatMap_def]

/-- A reader whose buffer came from one read. -/
def BufReader.Small (r : BufReader) : Prop := r.buffer.length ≤ 8192

theorem BufReader.mem_pieces {r : BufReader} (h : r.Small) {p : Bytes}
    (hp : p ∈ r.pieces) : p ≠ [] ∧ p.length ≤ 8192 := by
  have hincoming : p ∈ r.incoming.map Subtype.val → p ≠ [] ∧ p.length ≤ 8192 := by
    intro hmem
    obtain ⟨bs, -, rfl⟩ := List.mem_map.1 hmem
    exact bs.2
  rw [BufReader.pieces] at hp
  split at hp
  · exact hincoming hp
  · next hne =>
      rcases List.mem_cons.1 hp with rfl | hp
      · exact ⟨hne, h⟩
      · exact hincoming hp

theorem BufReader.fillBuf_pending (r : BufReader) : r.fillBuf.pending = r.pending := by
  rcases r with ⟨_ | ⟨b, buffer⟩, _ | ⟨bs, incoming⟩⟩ <;>
    simp [BufReader.fillBuf, BufReader.pending]

theorem BufReader.fillBuf_small {r : BufReader} (h : r.Small) : r.fillBuf.Small := by
  rcases r with ⟨_ | ⟨b, buffer⟩, _ | ⟨bs, incoming⟩⟩
  · exact h
  · exact bs.2.2
  · exact h
  · exact h

/-- After filling, the buffer is empty only at the end of the stream. -/
theorem BufReader.fillBuf_buffer_ne {r : BufReader} (h : r.pending ≠ []) :
    r.fillBuf.buffer ≠ [] := by
  rcases r with ⟨_ | ⟨b, buffer⟩, _ | ⟨bs, incoming⟩⟩
  · exact absurd rfl h
  · exact bs.2.1
  · exact List.cons_ne_nil _ _
  · exact List.cons_ne_nil _ _

/-- A read takes its bytes off the front of what is pending. -/
theorem BufReader.read_pending (r : BufReader) (max : Nat) :
    (r.read max).1 ++ (r.read max).2.pending = r.pending := by
  simp only [BufReader.read]
  rw [BufReader.pending, ← List.append_assoc, List.take_append_drop,
    ← BufReader.pending, BufReader.fillBuf_pending]

theorem BufReader.read_small {r : BufReader} (h : r.Small) (max : Nat) :
    (r.read max).2.Small := by
  have hfill := BufReader.fillBuf_small h
  simp only [BufReader.Small, BufReader.read, List.length_drop] at hfill ⊢
  omega

theorem BufReader.length_read_le (r : BufReader) (max : Nat) :
    (r.read max).1.length ≤ max := by
  simp only [BufReader.read, List.length_take]
  omega

theorem BufReader.read_ne {r : BufReader} {max : Nat} (h : r.pending ≠ [])
    (hmax : 0 < max) : (r.read max).1 ≠ [] := by
  intro hread
  simp only [BufReader.read, List.take_eq_nil_iff] at hread
  rcases hread with hzero | hbuffer
  · omega
  · exact BufReader.fillBuf_buffer_ne h hbuffer

/-- A read as large as the buffer answers the next piece. -/
theorem BufReader.read_piece {r : BufReader} (h : r.Small) {p : Bytes}
    {ps : List Bytes} (hp : r.pieces = p :: ps) :
    (r.read 8192).1 = p ∧ (r.read 8192).2.pieces = ps := by
  rcases r with ⟨_ | ⟨b, buffer⟩, _ | ⟨bs, incoming⟩⟩
  · cases hp
  · obtain ⟨rfl, rfl⟩ := List.cons.inj hp
    have hlen : bs.val.length ≤ 8192 := bs.2.2
    simp [BufReader.read, BufReader.fillBuf, BufReader.pieces, List.take_of_length_le hlen,
      List.drop_of_length_le hlen]
  all_goals
    obtain ⟨rfl, rfl⟩ := List.cons.inj hp
    have hlen : (b :: buffer).length ≤ 8192 := h
    simp only [BufReader.read, BufReader.fillBuf, BufReader.pieces,
      List.take_of_length_le hlen, List.drop_of_length_le hlen]
    simp

theorem BufReader.read_end {r : BufReader} (hp : r.pieces = []) (max : Nat) :
    (r.read max).1 = [] := by
  rcases r with ⟨_ | ⟨b, buffer⟩, _ | ⟨bs, incoming⟩⟩
  · exact List.take_nil
  all_goals cases hp

/-- What is left of these reads: all of them, or the end of one and those after
it. -/
def BufReader.LeftOf (r : BufReader) (reads : List TcpRead) : Prop :=
  (r.buffer = [] ∧ r.incoming = reads) ∨
    ∃ done front, reads.map Subtype.val
      = done ++ (front ++ r.buffer) :: r.incoming.map Subtype.val

theorem BufReader.LeftOf.small {r : BufReader} {reads : List TcpRead}
    (h : r.LeftOf reads) : r.Small := by
  obtain ⟨hbuffer, -⟩ | ⟨done, front, hreads⟩ := h
  · simp [BufReader.Small, hbuffer]
  · have hmem : front ++ r.buffer ∈ reads.map Subtype.val := by simp [hreads]
    obtain ⟨bs, -, hbs⟩ := List.mem_map.1 hmem
    have hlen := bs.2.2
    rw [hbs, List.length_append] at hlen
    simp only [BufReader.Small]
    omega

/-- The next read is taken when the buffer is used up. -/
theorem BufReader.LeftOf.next {buffer : Bytes} {bs : TcpRead} {incoming reads : List TcpRead}
    (h : BufReader.LeftOf { buffer, incoming := bs :: incoming } reads) :
    BufReader.LeftOf { buffer := bs.val, incoming } reads := by
  obtain ⟨-, rfl⟩ | ⟨done, front, hreads⟩ := h
  · exact .inr ⟨[], [], rfl⟩
  · refine .inr ⟨done ++ [front ++ buffer], [], ?_⟩
    rw [hreads, List.append_assoc]
    rfl

/-- The front of the buffer is taken. -/
theorem BufReader.LeftOf.drop (front : Bytes) {buffer : Bytes} {incoming reads : List TcpRead}
    (h : BufReader.LeftOf { buffer := front ++ buffer, incoming } reads) :
    BufReader.LeftOf { buffer, incoming } reads := by
  obtain ⟨hnil, hreads⟩ | ⟨done, front', hreads⟩ := h
  · exact .inl ⟨(List.append_eq_nil_iff.1 hnil).2, hreads⟩
  · exact .inr ⟨done, front' ++ front, by rw [hreads, List.append_assoc]⟩

theorem BufReader.LeftOf.fillBuf {r : BufReader} {reads : List TcpRead}
    (h : r.LeftOf reads) : r.fillBuf.LeftOf reads := by
  rcases r with ⟨_ | ⟨b, buffer⟩, _ | ⟨bs, incoming⟩⟩
  · exact h
  · exact h.next
  · exact h
  · exact h

theorem BufReader.LeftOf.read {r : BufReader} {reads : List TcpRead}
    (h : r.LeftOf reads) (max : Nat) : (r.read max).2.LeftOf reads := by
  have hfill := h.fillBuf
  refine BufReader.LeftOf.drop (r.fillBuf.buffer.take max) ?_
  rw [List.take_append_drop]
  exact hfill

/-- What is left is cut where the reads are, after what was taken. -/
theorem BufReader.LeftOf.isCut_pieces {r : BufReader} {reads : List TcpRead}
    (h : r.LeftOf reads) {taken : Nat}
    (htaken : (reads.flatMap Subtype.val).length = taken + r.pending.length) (n : Nat) :
    IsCut r.pieces n ↔ n = 0 ∨ IsCut (reads.map Subtype.val) (taken + n) := by
  obtain ⟨hbuffer, hreads⟩ | ⟨done, front, hreads⟩ := h
  · rw [BufReader.pending, hbuffer, hreads, List.nil_append] at htaken
    obtain rfl : taken = 0 := by omega
    rw [BufReader.pieces, if_pos hbuffer, hreads, Nat.zero_add]
    exact ⟨.inr, fun h => h.elim (· ▸ isCut_zero) id⟩
  · have hlen : taken = done.flatten.length + front.length := by
      rw [List.flatMap_def, hreads, BufReader.pending, List.flatMap_def] at htaken
      simp only [List.flatten_append, List.flatten_cons, List.length_append] at htaken
      omega
    have hrest : IsCut (r.buffer :: r.incoming.map Subtype.val) n ↔ _ :=
      isCut_rest done front r.buffer n
    rw [hreads, hlen, ← hrest, BufReader.pieces]
    split
    · next hnil =>
        simp only [hnil, isCut_cons, List.length_nil, Nat.zero_add, exists_eq_right']
        exact ⟨.inr, fun h => h.elim (· ▸ isCut_zero) id⟩
    · exact Iff.rfl

/-! ## Lines -/

theorem splitLine_line {body rest : Bytes} (h : (10 : UInt8) ∉ body) :
    splitLine (body ++ 10 :: rest) = some (body ++ [10], rest) := by
  induction body with
  | nil => rfl
  | cons b body ih =>
      obtain ⟨hb, hbody⟩ := not_or.1 (mt List.mem_cons.2 h)
      rw [List.cons_append, splitLine, if_neg (Ne.symm hb), ih hbody]
      rfl

theorem splitLine_eq_none {bs : Bytes} (h : (10 : UInt8) ∉ bs) :
    splitLine bs = none := by
  induction bs with
  | nil => rfl
  | cons b bs ih =>
      obtain ⟨hb, hbs⟩ := not_or.1 (mt List.mem_cons.2 h)
      rw [splitLine, if_neg (Ne.symm hb), ih hbs]
      rfl

/-- A line is read however it is cut: what is buffered holds its end, or is all
in front of it. -/
theorem readUntilLf_line {body rest : Bytes} (hbody : (10 : UInt8) ∉ body)
    {reads incoming : List TcpRead} {buffer : Bytes}
    (hleft : BufReader.LeftOf { buffer, incoming } reads)
    (h : buffer ++ incoming.flatMap Subtype.val = body ++ 10 :: rest) :
    ∃ r, readUntilLf buffer incoming = (body ++ [10], r) ∧ r.pending = rest ∧
      r.LeftOf reads := by
  induction incoming generalizing buffer body with
  | nil =>
      simp only [List.flatMap_nil, List.append_nil] at h
      subst h
      rw [List.append_cons] at hleft
      refine ⟨{ buffer := rest, incoming := [] }, ?_, by simp [BufReader.pending],
        hleft.drop⟩
      rw [readUntilLf, splitLine_line hbody]
  | cons bs incoming ih =>
      rw [List.append_eq_append_iff] at h
      rcases h with ⟨more, hbuf, hrest⟩ | ⟨more, hbuf, hrest⟩
      · -- The buffer ends inside the line's body.
        subst hbuf
        simp only [List.mem_append, not_or] at hbody
        have hnone := splitLine_eq_none hbody.1
        rw [List.flatMap_cons] at hrest
        obtain ⟨r, hr, hpending, hr'⟩ := ih hbody.2 hleft.next hrest
        refine ⟨r, ?_, hpending, hr'⟩
        rw [readUntilLf, hnone]
        simp only [hr, List.append_assoc]
      · cases more with
        | nil =>
            -- The buffer ends right before the line feed.
            simp only [List.append_nil] at hbuf
            simp only [List.nil_append] at hrest
            subst hbuf
            have hnone := splitLine_eq_none hbody
            have hcut : bs.val ++ incoming.flatMap Subtype.val = [] ++ 10 :: rest := by
              rw [← List.flatMap_cons, List.nil_append]
              exact hrest.symm
            obtain ⟨r, hr, hpending, hr'⟩ := ih List.not_mem_nil hleft.next hcut
            refine ⟨r, ?_, hpending, hr'⟩
            rw [readUntilLf, hnone]
            simp only [hr, List.nil_append]
        | cons b more =>
            obtain ⟨rfl, hmore⟩ := List.cons.inj hrest
            subst hbuf
            rw [List.append_cons] at hleft
            refine ⟨{ buffer := more, incoming := bs :: incoming }, ?_, hmore.symm,
              hleft.drop⟩
            rw [readUntilLf, splitLine_line hbody]

theorem not_mem_asBytes_of_ascii {t : Text} {c : Char} (hascii : IsAscii t)
    (hc : c.toNat < 128) (h : c ∉ t) : c.toUInt8 ∉ asBytes t := by
  rw [asBytes_ascii hascii]
  intro hmem
  obtain ⟨d, hd, heq⟩ := List.mem_map.1 hmem
  have hdlt := hascii d hd
  have htoNat : ∀ e : Char, e.toNat < 128 → e.toUInt8.toNat = e.toNat := by
    intro e he
    change e.toNat % 256 = e.toNat
    omega
  have hnat : d.toNat = c.toNat := by
    rw [← htoNat d hdlt, ← htoNat c hc, heq]
  exact h (Char.toNat_inj.1 hnat ▸ hd)

/-- A line of ASCII is read as the text it is. -/
theorem readLine_line {s : InputState} {t : Text} {rest : Bytes} {reads : List TcpRead}
    (hascii : IsAscii t) (hlf : '\n' ∉ t) (hleft : s.reader.LeftOf reads)
    (h : s.reader.pending = asBytes (t ++ ['\n']) ++ rest) :
    ∃ r, readLine s = .ok (t ++ ['\n']) { s with reader := r } ∧
      r.pending = rest ∧ r.LeftOf reads := by
  have hbody := not_mem_asBytes_of_ascii hascii (by decide) hlf
  have hline : asBytes (t ++ ['\n']) = asBytes t ++ [10] := asBytes_append t ['\n']
  rw [hline, List.append_assoc] at h
  obtain ⟨r, hr, hpending, hr'⟩ := readUntilLf_line hbody hleft h
  refine ⟨r, ?_, hpending, hr'⟩
  simp only [readLine, hr]
  rw [← hline, fromUtf8_asBytes]

/-! ## The primitives -/

theorem read_apply (max : Nat) (s : InputState) :
    read max s = .ok (s.reader.read max).1 { s with reader := (s.reader.read max).2 } :=
  rfl

theorem emit_apply (op : InputOp) (s : InputState) :
    emit op s = .ok () { s with ops := s.ops ++ [op] } := rfl

theorem storePsyncOffset_apply (offset : Int) (s : InputState) :
    storePsyncOffset offset s = .ok () { s with
      psyncOffset := offset, ops := s.ops ++ [.storePsyncOffset offset] } := rfl

theorem loadPsyncOffset_apply (s : InputState) :
    loadPsyncOffset s = .ok s.psyncOffset s := rfl

theorem checkedI64_of {n : Int} (h : IsI64 n) : checkedI64 n = pure n := by
  rw [checkedI64, if_pos h]

theorem checkedI64_not {n : Int} (h : ¬ IsI64 n) : checkedI64 n = throw .panic := by
  rw [checkedI64, if_neg h]

/-! ## The loops -/

/-- The loop stores the file in pieces, and takes nothing of what follows it. -/
theorem receiveRdbLoop_effects {rdb aof : Bytes} (received : Int) (fuel : Nat)
    {s : InputState} {reads : List TcpRead} (hleft : s.reader.LeftOf reads)
    (hpending : s.reader.pending = rdb ++ aof) (hfuel : rdb.length < fuel) :
    ∃ (pieces : List Bytes) (r : BufReader), pieces.flatten = rdb ∧ r.pending = aof ∧
      r.LeftOf reads ∧
      receiveRdbLoop (received + rdb.length) fuel received s
        = .ok () { s with reader := r, ops := s.ops ++ pieces.map .writeRdb } := by
  induction fuel generalizing rdb received s with
  | zero => omega
  | succ fuel ih =>
      by_cases hrdb : rdb = []
      · subst hrdb
        refine ⟨[], s.reader, rfl, hpending, hleft, ?_⟩
        rw [receiveRdbLoop, if_neg (by simp)]
        simp [pure_apply]
      · have hpos := List.length_pos_of_ne_nil hrdb
        -- The buffer is never longer than what is missing of the file.
        generalize hmax : (min 8192 (received + rdb.length - received)).toNat = max
        have hmaxpos : 0 < max := by omega
        have hmaxle : max ≤ rdb.length := by omega
        have hne : s.reader.pending ≠ [] := by
          rw [hpending]
          exact List.append_ne_nil_of_left_ne_nil hrdb aof
        have htake := s.reader.read_pending max
        have hlen := s.reader.length_read_le max
        have hbs := BufReader.read_ne hne hmaxpos
        rw [hpending, List.append_eq_append_iff] at htake
        obtain ⟨rdb', hrdb', hpending'⟩ : ∃ rdb', rdb = (s.reader.read max).1 ++ rdb' ∧
            (s.reader.read max).2.pending = rdb' ++ aof := by
          rcases htake with ⟨more, hmore, hrest⟩ | ⟨more, hmore, hrest⟩
          · exact ⟨more, hmore, hrest⟩
          · have hnil : more = [] := by
              have := congrArg List.length hmore
              rw [List.length_append] at this
              exact List.eq_nil_of_length_eq_zero (by omega)
            subst hnil
            refine ⟨[], ?_, ?_⟩
            · simpa using hmore.symm
            · simpa using hrest.symm
        have hlen' := congrArg List.length hrdb'
        rw [List.length_append] at hlen'
        have hbspos := List.length_pos_of_ne_nil hbs
        obtain ⟨pieces, r, hflat, hr, hr', hrun⟩ :=
          @ih rdb' (received + (s.reader.read max).1.length)
            { s with reader := (s.reader.read max).2,
                     ops := s.ops ++ [.writeRdb (s.reader.read max).1] }
            (hleft.read max) hpending' (by omega)
        refine ⟨(s.reader.read max).1 :: pieces, r, ?_, hr, hr', ?_⟩
        · rw [List.flatten_cons, hflat, ← hrdb']
        · rw [receiveRdbLoop, if_pos (by omega), hmax]
          simp only [bind_apply, read_apply, if_neg hbs, emit_apply]
          have hsize : received + (rdb.length : Int)
              = received + (s.reader.read max).1.length + rdb'.length := by
            omega
          rw [hsize, hrun]
          simp

/-- The loop ends only with an error, and has passed on every piece by then. -/
theorem receiveAofLoop_effects (initialOffset received : Int) {fuel : Nat}
    {s : InputState} (hsmall : s.reader.Small) (hfuel : s.reader.pieces.length < fuel) :
    opsOf (receiveAofLoop initialOffset fuel received s)
      = s.ops ++ aofEffects initialOffset received s.reader.pieces := by
  induction fuel generalizing received s with
  | zero => omega
  | succ fuel ih =>
      cases hp : s.reader.pieces with
      | nil =>
          rw [receiveAofLoop]
          simp only [bind_apply, read_apply, BufReader.read_end hp, if_true, failWith,
            throw_apply, opsOf, aofEffects, List.append_nil]
      | cons p ps =>
          obtain ⟨hread, hrest⟩ := BufReader.read_piece hsmall hp
          have hne : p ≠ [] :=
            (BufReader.mem_pieces hsmall (hp ▸ List.mem_cons_self)).1
          rw [hp, List.length_cons] at hfuel
          rw [receiveAofLoop]
          simp only [bind_apply, read_apply, hread, if_neg hne, emit_apply, aofEffects]
          by_cases hi64 : IsI64 (initialOffset + (received + p.length))
          · simp only [checkedI64_of hi64, pure_apply, storePsyncOffset_apply, if_pos hi64]
            rw [ih _ (BufReader.read_small hsmall 8192) (by rw [hrest]; omega), hrest]
            simp
          · simp only [checkedI64_not hi64, throw_apply, if_neg hi64, opsOf]
            simp

/-! ## The methods -/

theorem sendPsyncCommand_effects (self : RedisInput) (s : InputState) :
    self.sendPsyncCommand s = .ok () { s with
      psyncOffset := self.requested s.psyncOffset, ops := s.ops ++ self.psyncEffects } := by
  rw [RedisInput.sendPsyncCommand, RedisInput.requested, RedisInput.psyncEffects]
  by_cases hempty : self.initialMasterReplid = []
  · simp [hempty, emit_apply]
  · by_cases hquestion : self.initialMasterReplid = ['?']
    · simp [hquestion, emit_apply]
    · simp [hempty, hquestion, emit_apply, bind_apply, storePsyncOffset_apply]

theorem isAscii_append {s t : Text} (hs : IsAscii s) (ht : IsAscii t) :
    IsAscii (s ++ t) := by
  intro c hc
  rcases List.mem_append.1 hc with h | h
  · exact hs c h
  · exact ht c h

theorem noLf_of_isWord {t : Text} (h : IsWord t) : '\n' ∉ t :=
  fun hmem => absurd (h.2 _ hmem) (by decide)

theorem receiveRdbData_effects (self : RedisInput) (masterOffset : Int)
    {rdb aof : Bytes} {s : InputState} {reads : List TcpRead}
    (hleft : s.reader.LeftOf reads) (hne : rdb ≠ []) (hlen : rdb.length ≤ isizeMax)
    (hpending : s.reader.pending
      = asBytes ('$' :: natToString rdb.length ++ "\r\n".toList) ++ rdb ++ aof) :
    ∃ (pieces : List Bytes) (r : BufReader), pieces.flatten = rdb ∧ r.pending = aof ∧
      r.LeftOf reads ∧
      if IsI64 (masterOffset - rdb.length) then
        self.receiveRdbData masterOffset s = .ok (rdb.length : Int) { s with
          reader := r
          ops := s.ops ++ .getRdbWriter self.runId (masterOffset - rdb.length) rdb.length
            :: pieces.map .writeRdb ++ [.flushRdb] }
      else ∃ s', self.receiveRdbData masterOffset s = .error .panic s' ∧ s'.ops = s.ops := by
  have hnum := isWord_natToString rdb.length
  have hline : '$' :: natToString rdb.length ++ "\r\n".toList
      = ('$' :: natToString rdb.length ++ ['\r']) ++ ['\n'] := by simp
  have hascii : IsAscii ('$' :: natToString rdb.length ++ ['\r']) :=
    isAscii_append (isAscii_append (s := ['$']) (by decide) (isAscii_natToString _))
      (by decide)
  have hlf : '\n' ∉ '$' :: natToString rdb.length ++ ['\r'] := by
    simp [noLf_of_isWord hnum]
  rw [hline, List.append_assoc] at hpending
  obtain ⟨r, hread, hrest, hr⟩ := readLine_line hascii hlf hleft hpending
  have htrim : trim (('$' :: natToString rdb.length ++ ['\r']) ++ ['\n'])
      = '$' :: natToString rdb.length := by
    have hdollar : IsWord ['$'] := ⟨by decide, by decide⟩
    simpa using trim_line [] ['\r', '\n'] hdollar hnum (by decide)
  have hsize : (rdb.length : Int) ≤ 0 ↔ False := by
    have := List.length_pos_of_ne_nil hne
    constructor
    · intro h; omega
    · exact False.elim
  obtain ⟨pieces, r', hflat, hrest', hr', hrun⟩ :=
    receiveRdbLoop_effects 0 (r.pending.length + 1)
      (s := { s with reader := r, ops := s.ops ++ [.getRdbWriter self.runId
        (masterOffset - rdb.length) rdb.length] }) hr hrest
      (by rw [hrest, List.length_append]; omega)
  refine ⟨pieces, r', hflat, hrest', hr', ?_⟩
  rw [Int.zero_add] at hrun
  rw [RedisInput.receiveRdbData]
  simp only [bind_apply, hread, htrim, trim_word hnum, parseI64_natToString hlen, hsize,
    if_false]
  split
  · next hi64 =>
      simp only [checkedI64_of hi64, pure_apply, emit_apply, withInputFuel, hrun]
      simp
  · next hi64 =>
      simp only [checkedI64_not hi64, throw_apply]
      exact ⟨_, rfl, rfl⟩

theorem BufReader.length_pieces_le {r : BufReader} (h : r.Small) :
    r.pieces.length ≤ r.pending.length := by
  have hne : ∀ p ∈ r.pieces, id p ≠ [] := fun p hp => (BufReader.mem_pieces h hp).1
  have hlen := length_le_flatMap hne
  rwa [List.flatMap_id, BufReader.flatten_pieces] at hlen

theorem receiveAofStream_effects (self : RedisInput) (initialOffset : Int)
    {s : InputState} (hsmall : s.reader.Small) :
    opsOf (self.receiveAofStream initialOffset s)
      = s.ops ++ streamEffects self.runId initialOffset s.reader.pieces := by
  have hfuel := BufReader.length_pieces_le hsmall
  rw [RedisInput.receiveAofStream, streamEffects]
  simp only [bind_apply, emit_apply, withInputFuel]
  rw [receiveAofLoop_effects]
  · simp
  · exact hsmall
  · simp only
    omega

theorem acceptFullResync_effects {masterReplid : Text} {masterOffset : Int}
    (hreplid : IsReplid masterReplid) (hi64 : IsI64 masterOffset) (s : InputState) :
    acceptFullResync ("+FULLRESYNC ".toList ++ masterReplid ++ ' ' ::
        intToString masterOffset) s
      = .ok () { s with
          psyncOffset := masterOffset
          ops := s.ops ++ [.storePsyncOffset masterOffset, .setMasterReplid masterReplid] } := by
  have hword : IsWord "+FULLRESYNC".toList := ⟨by decide, by decide⟩
  have hsplit : splitWhitespace ("+FULLRESYNC ".toList ++ masterReplid ++ ' ' ::
      intToString masterOffset)
      = ["+FULLRESYNC".toList, masterReplid, intToString masterOffset] := by
    have hshape : "+FULLRESYNC ".toList ++ masterReplid ++ ' ' :: intToString masterOffset
        = "+FULLRESYNC".toList ++ ' ' :: (masterReplid ++ ' ' ::
            intToString masterOffset) := by simp
    rw [hshape, splitWhitespace_cons hword (by decide),
      splitWhitespace_cons hreplid.1 (by decide),
      splitWhitespace_word (isWord_intToString masterOffset)]
  rw [acceptFullResync, hsplit]
  simp only [parseI64_intToString hi64, bind_apply, storePsyncOffset_apply, emit_apply]
  simp

/-- The pieces in which a connection that answers these reads hands over the
stream at its end. -/
structure PiecesOf (reads : List TcpRead) (aof : Bytes) (pieces : List Bytes) : Prop where
  flatten : pieces.flatten = aof
  sizes : ∀ p ∈ pieces, p ≠ [] ∧ p.length ≤ 8192
  isCut : ∀ taken, (reads.flatMap Subtype.val).length = taken + aof.length → ∀ n,
    IsCut pieces n ↔ n = 0 ∨ IsCut (reads.map Subtype.val) (taken + n)

theorem BufReader.LeftOf.piecesOf {r : BufReader} {reads : List TcpRead}
    (h : r.LeftOf reads) : PiecesOf reads r.pending r.pieces where
  flatten := r.flatten_pieces
  sizes := fun _ hp => BufReader.mem_pieces h.small hp
  isCut := fun _ htaken => h.isCut_pieces htaken

theorem handlePsyncResponse_fullResync (self : RedisInput) (f : FullResync)
    {s : InputState} {reads : List TcpRead} (hleft : s.reader.LeftOf reads)
    (hpending : s.reader.pending = f.reply) :
    ∃ rdbPieces aofPieces : List Bytes,
      rdbPieces.flatten = f.rdb ∧ PiecesOf reads f.aof aofPieces ∧
      opsOf (self.handlePsyncResponse s)
        = s.ops ++ f.effects self.runId rdbPieces aofPieces := by
  have hreplid := f.isReplid
  have hoffset := isWord_intToString f.masterOffset
  have hword : IsWord "+FULLRESYNC".toList := ⟨by decide, by decide⟩
  have hascii : IsAscii ("+FULLRESYNC ".toList ++ f.masterReplid ++ ' ' ::
      intToString f.masterOffset ++ ['\r']) :=
    isAscii_append (isAscii_append (isAscii_append (by decide) hreplid.2)
      (isAscii_append (s := [' ']) (by decide) (isAscii_intToString _))) (by decide)
  have hlf : '\n' ∉ "+FULLRESYNC ".toList ++ f.masterReplid ++ ' ' ::
      intToString f.masterOffset ++ ['\r'] := by
    simp [noLf_of_isWord hreplid.1, noLf_of_isWord hoffset]
  have hline : "+FULLRESYNC ".toList ++ f.masterReplid ++ ' ' ::
        intToString f.masterOffset ++ "\r\n".toList
      = ("+FULLRESYNC ".toList ++ f.masterReplid ++ ' ' ::
        intToString f.masterOffset ++ ['\r']) ++ ['\n'] := by simp
  rw [FullResync.reply, hline, List.append_assoc, List.append_assoc,
    ← List.append_assoc _ f.rdb] at hpending
  obtain ⟨r, hread, hrest, hr⟩ := readLine_line hascii hlf hleft hpending
  have htrim : trim (("+FULLRESYNC ".toList ++ f.masterReplid ++ ' ' ::
        intToString f.masterOffset ++ ['\r']) ++ ['\n'])
      = "+FULLRESYNC ".toList ++ f.masterReplid ++ ' ' :: intToString f.masterOffset := by
    simpa using trim_line (' ' :: f.masterReplid ++ [' ']) ['\r', '\n'] hword hoffset
      (by decide)
  have hprefix : "+FULLRESYNC".toList <+: "+FULLRESYNC ".toList ++ f.masterReplid ++
      ' ' :: intToString f.masterOffset :=
    ⟨' ' :: f.masterReplid ++ ' ' :: intToString f.masterOffset, by simp⟩
  obtain ⟨pieces, r', hflat, hrest', hr', hrdb⟩ := receiveRdbData_effects self
    f.masterOffset (s := { s with
      reader := r
      psyncOffset := f.masterOffset
      ops := s.ops ++ [.storePsyncOffset f.masterOffset, .setMasterReplid f.masterReplid] })
    hr f.rdb_ne f.rdb_length hrest
  refine ⟨pieces, r'.pieces, hflat, hrest' ▸ hr'.piecesOf, ?_⟩
  rw [RedisInput.handlePsyncResponse]
  simp only [bind_apply, hread, htrim, if_pos hprefix, loadPsyncOffset_apply,
    acceptFullResync_effects hreplid f.isI64]
  split at hrdb
  · next hi64 =>
      simp only [hrdb, sendReplconfAck, emit_apply]
      rw [receiveAofStream_effects]
      · simp [FullResync.effects, if_pos hi64, ackCommand]
      · exact hr'.small
  · next hi64 =>
      obtain ⟨s', hrun, hops⟩ := hrdb
      simp only [hrun, opsOf, hops]
      rw [FullResync.effects, if_neg hi64, List.append_nil]

theorem handlePsyncResponse_continue (self : RedisInput) (c : Continue)
    {s : InputState} {reads : List TcpRead} (hleft : s.reader.LeftOf reads)
    (hpending : s.reader.pending = c.reply) :
    ∃ aofPieces : List Bytes, PiecesOf reads c.aof aofPieces ∧
      opsOf (self.handlePsyncResponse s)
        = s.ops ++ continueEffects self.runId s.psyncOffset aofPieces := by
  have hword : IsWord "+CONTINUE".toList := ⟨by decide, by decide⟩
  have hascii : IsAscii ("+CONTINUE".toList ++ c.tail ++ ['\r']) :=
    isAscii_append (isAscii_append (by decide) c.isAscii) (by decide)
  have hlf : '\n' ∉ "+CONTINUE".toList ++ c.tail ++ ['\r'] := by
    simp [c.noLf]
  have hline : "+CONTINUE".toList ++ c.tail ++ "\r\n".toList
      = ("+CONTINUE".toList ++ c.tail ++ ['\r']) ++ ['\n'] := by simp
  rw [Continue.reply, hline] at hpending
  obtain ⟨r, hread, hrest, hr⟩ := readLine_line hascii hlf hleft hpending
  have hprefix : "+CONTINUE".toList <+:
      trim (("+CONTINUE".toList ++ c.tail ++ ['\r']) ++ ['\n']) := by
    rw [List.append_assoc, List.append_assoc]
    exact prefix_trim _ hword
  have hnot : ¬ "+FULLRESYNC".toList <+:
      trim (("+CONTINUE".toList ++ c.tail ++ ['\r']) ++ ['\n']) := by
    intro h
    have := List.prefix_of_prefix_length_le hprefix h (by decide)
    exact absurd this (by decide)
  refine ⟨r.pieces, hrest ▸ hr.piecesOf, ?_⟩
  rw [RedisInput.handlePsyncResponse]
  simp only [bind_apply, hread, if_neg hnot, if_pos hprefix, loadPsyncOffset_apply,
    emit_apply]
  rw [receiveAofStream_effects]
  · simp [continueEffects]
  · exact hr.small

/-! ## The task -/

theorem effects_eq (self : RedisInput) (psyncOffset : Int) (incoming : List TcpRead) :
    self.effects psyncOffset incoming = opsOf (self.handlePsyncResponse {
      reader := { buffer := [], incoming }
      psyncOffset := self.requested psyncOffset
      ops := self.psyncEffects }) := by
  rw [RedisInput.effects, RedisInput.run]
  simp only [bind_apply, sendPsyncCommand_effects, List.nil_append]

/-- The effects of a session with a full resynchronisation, whatever the
cuts. -/
theorem effects_fullResync (self : RedisInput) (psyncOffset : Int)
    {incoming : List TcpRead} (f : FullResync)
    (h : incoming.flatMap Subtype.val = f.reply) :
    ∃ rdbPieces aofPieces : List Bytes,
      rdbPieces.flatten = f.rdb ∧ PiecesOf incoming f.aof aofPieces ∧
      self.effects psyncOffset incoming
        = self.psyncEffects ++ f.effects self.runId rdbPieces aofPieces := by
  rw [effects_eq]
  exact handlePsyncResponse_fullResync self f (.inl ⟨rfl, rfl⟩) h

/-- The effects of a session that goes on, whatever the cuts. -/
theorem effects_continue (self : RedisInput) (psyncOffset : Int)
    {incoming : List TcpRead} (c : Continue)
    (h : incoming.flatMap Subtype.val = c.reply) :
    ∃ aofPieces : List Bytes, PiecesOf incoming c.aof aofPieces ∧
      self.effects psyncOffset incoming = self.psyncEffects ++
        continueEffects self.runId (self.requested psyncOffset) aofPieces := by
  rw [effects_eq]
  exact handlePsyncResponse_continue self c (.inl ⟨rfl, rfl⟩) h

/-- Either way, in a process that has just started. -/
theorem effects_answer (self : RedisInput) {incoming : List TcpRead} (a : Answer)
    (h : incoming.flatMap Subtype.val = a.reply) :
    ∃ rdbPieces aofPieces : List Bytes, PiecesOf incoming a.aof aofPieces ∧
      self.effects 0 incoming
        = self.psyncEffects ++ a.effects self rdbPieces aofPieces := by
  cases a with
  | fullResync f =>
      obtain ⟨rdbPieces, aofPieces, -, hpieces, heq⟩ := effects_fullResync self 0 f h
      exact ⟨rdbPieces, aofPieces, hpieces, heq⟩
  | continues c =>
      obtain ⟨aofPieces, hpieces, heq⟩ := effects_continue self 0 c h
      exact ⟨[], aofPieces, hpieces, heq⟩

end RedisHaTool.Syncer
