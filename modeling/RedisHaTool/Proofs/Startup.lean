import RedisHaTool.Proofs.Commands
import RedisHaTool.Proofs.Handshake
import RedisHaTool.Syncer.Startup

/-!
# What comes before the session

The password is answered by five bytes, of which `authenticate` looks at what its
one read happens to give it. If that is all of them, the session goes on as one
without a password. If it is less, the rest is still there: for the session it
would be the reply to `PSYNC`, and it is none.

The report with the id is read as a whole however it comes, since it holds no
blank line but the one at its end; and both of the functions that look for the id
in it find the same one.
-/

namespace RedisHaTool.Syncer

open Lib Resp

/-! ## What was done before -/

section Before

variable {α β : Type} {m : InputM α} {ops : List InputOp}

/-- With these effects before its own. -/
def InputState.after (ops : List InputOp) (s : InputState) : InputState :=
  { s with ops := ops ++ s.ops }

def resultAfter (ops : List InputOp) :
    EStateM.Result (Fault SyncError) InputState α →
      EStateM.Result (Fault SyncError) InputState α
  | .ok a s => .ok a (s.after ops)
  | .error e s => .error e (s.after ops)

/-- It does not look at the effects there have been. -/
def Unmindful (m : InputM α) : Prop := ∀ ops s, m (s.after ops) = resultAfter ops (m s)

theorem Unmindful.pure (a : α) : Unmindful (pure a : InputM α) := fun _ _ => rfl

theorem Unmindful.failWith (text : Text) : Unmindful (failWith text : InputM α) := fun _ _ => rfl

theorem Unmindful.bind {f : α → InputM β} (hm : Unmindful m) (hf : ∀ a, Unmindful (f a)) :
    Unmindful (m >>= f) := by
  intro ops s
  rw [bind_apply, bind_apply, hm]
  cases m s with
  | ok a t => exact hf a ops t
  | error e t => rfl

theorem Unmindful.withInputFuel {loop : Nat → InputM α} (h : ∀ fuel, Unmindful (loop fuel)) :
    Unmindful (withInputFuel loop) := fun ops s => h _ ops s

end Before

/-! ## The reply to the password -/

def authEffect (password : Text) : InputOp :=
  .sendSource (encodeCommandStr "AUTH".toList [password])

/-- One read, and what it gives is the reply. -/
theorem authenticate_read {password : Text} (hpassword : password ≠ []) {first : TcpRead}
    {more : List TcpRead} {t : Text} (hlen : first.val.length ≤ 1024)
    (ht : first.val = asBytes t) (psyncOffset : Int) (ops : List InputOp) :
    authenticate (some password)
        { reader := { buffer := [], incoming := first :: more }, psyncOffset, ops } =
      (if "+OK".toList <:+: t then pure ()
        else failWith ("AUTH 失败: ".toList ++ t) : InputM Unit)
        { reader := { buffer := [], incoming := more }, psyncOffset
          ops := ops ++ [authEffect password] } := by
  obtain ⟨c, cs, rfl⟩ := List.exists_cons_of_ne_nil hpassword
  rw [ht] at hlen
  have hread : BufReader.read { buffer := [], incoming := first :: more } 1024
      = (asBytes t, { buffer := [], incoming := more }) := by
    simp only [BufReader.read, BufReader.fillBuf, ht, List.take_of_length_le hlen,
      List.drop_of_length_le hlen]
  rw [authenticate.eq_def]
  dsimp only
  rw [bind_apply, emit_apply]
  dsimp only
  rw [bind_apply, read_apply, hread]
  dsimp only
  rw [fromUtf8Lossy_asBytes, authEffect]
  by_cases hok : "+OK".toList <:+: t
  · rw [if_pos hok, if_neg (not_not_intro hok)]
  · rw [if_neg hok, if_pos hok]

section Report

variable {report : List ReportLine} {replid : Text}

theorem names_iff {line : ReportLine} : line.Names replid ↔ lineReplid line.text = some replid := by
  rw [lineReplid, Option.bind_eq_some_iff]
  refine exists_congr fun value => and_congr stripPrefix_eq_some_iff.symm ?_
  simp only [usableReplid]
  constructor
  · rintro ⟨rfl, hne, hquestion⟩
    exact if_pos ⟨hne, hquestion⟩
  · intro h
    split at h
    · next hne =>
        obtain rfl := Option.some.inj h
        exact ⟨rfl, hne⟩
    · cases h

theorem reports_iff :
    Reports report replid ↔ (report.map ReportLine.text).findSome? lineReplid = some replid := by
  rw [List.findSome?_map, List.findSome?_eq_some_iff]
  refine exists_congr fun pre => exists_congr fun line => exists_congr fun post =>
    and_congr_right fun _ => and_congr names_iff (forall₂_congr fun earlier _ => ?_)
  rw [Option.eq_none_iff_forall_ne_some]
  exact forall_congr' fun other => not_congr names_iff

/-- What the source names of its lines. -/
theorem no_lf_texts (report : List ReportLine) :
    ∀ text ∈ report.map ReportLine.text, '\n' ∉ text := by
  intro text htext
  obtain ⟨line, -, rfl⟩ := List.mem_map.1 htext
  exact line.no_lf

theorem reportText_eq (report : List ReportLine) :
    reportText report = (report.map ReportLine.text).flatMap (· ++ lineEnd) := by
  rw [List.flatMap_map, reportText]

/-- The length of a report, as the reply has it before the report. -/
def reportHeader (report : List ReportLine) : Text :=
  '$' :: natToString (asBytes (reportText report)).length

theorem asBytes_lineEnd : asBytes lineEnd = [13, 10] := by decide

theorem reportReply_eq (report : List ReportLine) :
    reportReply report
      = asBytes ((reportHeader report ++ lineEnd) ++ (reportText report ++ lineEnd)) := by
  have hmarker : ∀ t : Text, asBytes ('$' :: t) = '$'.toUInt8 :: asBytes t := fun t => rfl
  rw [reportReply, encodeValue, asBytes_append, asBytes_append, asBytes_append, asBytes_lineEnd,
    reportHeader, hmarker, ← crlf, List.append_assoc]

theorem isAscii_header : IsAscii (reportHeader report) := by
  intro c hc
  rcases List.mem_cons.1 hc with rfl | hc
  · decide
  · exact isAscii_natToString _ c hc

/-- There are digits in it, and the marker. -/
theorem not_mem_header {c : Char} (hmarker : c ≠ '$') (hdigit : c.isDigit = false) :
    c ∉ reportHeader report := by
  intro hc
  rcases List.mem_cons.1 hc with rfl | hc
  · exact hmarker rfl
  · rw [isDigit_of_mem_natToString hc] at hdigit
    cases hdigit

/-- The lines of the reply: the length, the report and a blank one. -/
theorem lines_reportReply (report : List ReportLine) :
    lines (fromUtf8Lossy (reportReply report))
      = reportHeader report :: (report.map ReportLine.text ++ [[]]) := by
  have hblank : lines lineEnd = [[]] := by decide
  rw [reportReply_eq, fromUtf8Lossy_asBytes,
    lines_append (not_mem_header (by decide) (by decide)), reportText_eq,
    lines_flatMap (no_lf_texts report), hblank]

/-- The lines as bytes, and the blank one behind them. -/
theorem reportReply_bodies (report : List ReportLine) :
    ∃ bodies : List Bytes, bodies ≠ [] ∧ (∀ body ∈ bodies, body ≠ [] ∧ (13 : UInt8) ∉ body) ∧
      reportReply report = bodies.flatMap (· ++ [13, 10]) ++ [13, 10] := by
  have hcr : ∀ {t : Text}, IsAscii t → '\r' ∉ t → (13 : UInt8) ∉ asBytes t := fun hascii h =>
    not_mem_asBytes_of_ascii hascii (by decide) h
  have hlines : asBytes (reportText report)
      = (report.map fun line => asBytes line.text).flatMap (· ++ [13, 10]) := by
    induction report with
    | nil => rfl
    | cons line report ih =>
        have hcons : reportText (line :: report) = line.text ++ lineEnd ++ reportText report := rfl
        rw [hcons, asBytes_append, asBytes_append, ih, asBytes_lineEnd]
        rfl
  refine ⟨asBytes (reportHeader report) :: report.map fun line => asBytes line.text,
    List.cons_ne_nil _ _, fun body hbody => ?_, ?_⟩
  · rcases List.mem_cons.1 hbody with rfl | hbody
    · exact ⟨List.cons_ne_nil _ _,
        hcr isAscii_header (not_mem_header (by decide) (by decide))⟩
    · obtain ⟨line, -, rfl⟩ := List.mem_map.1 hbody
      exact ⟨fun hnil => line.ne_nil (asBytes_injective hnil), hcr line.ascii line.no_cr⟩
  · rw [reportReply_eq, asBytes_append, asBytes_append, asBytes_append, asBytes_lineEnd, hlines,
      List.flatMap_cons, List.append_assoc, List.append_assoc, List.append_assoc]

theorem blank_ends_reply (report : List ReportLine) : [13, 10, 13, 10] <:+ reportReply report := by
  obtain ⟨bodies, hne, -, heq⟩ := reportReply_bodies report
  obtain ⟨init, last, rfl⟩ := (List.eq_nil_or_concat bodies).resolve_left hne
  refine ⟨init.flatMap (· ++ [13, 10]) ++ last, ?_⟩
  rw [heq, List.concat_eq_append, List.flatMap_append, List.flatMap_singleton]
  simp only [List.append_assoc]
  rfl

/-- A part of the reply that ends with a blank line is all of it. -/
theorem eq_nil_of_blank {response rest : Bytes} (h : response ++ rest = reportReply report)
    (hblank : [13, 10, 13, 10] <:+ response) : rest = [] := by
  obtain ⟨bodies, -, hbodies, heq⟩ := reportReply_bodies report
  obtain ⟨front, rfl⟩ := hblank
  have hfront : bodies.flatMap (· ++ [13, 10]) ++ [13, 10]
      = front ++ 13 :: 10 :: 13 :: 10 :: rest := by
    rw [← heq, ← h, List.append_assoc]
    rfl
  exact blank_is_last hbodies hfront

/-- The loop reads the whole reply and goes no further. -/
theorem readReport_reply {fuel : Nat} (response : Bytes) (s : InputState)
    (h : response ++ s.reader.pending = reportReply report)
    (hnot : ¬ [13, 10, 13, 10] <:+ response) (hfuel : s.reader.pending.length < fuel) :
    ∃ r, readReport fuel response s = .ok (reportReply report) { s with reader := r } := by
  induction fuel generalizing response s with
  | zero => omega
  | succ fuel ih =>
      have hmore : s.reader.pending ≠ [] := by
        intro hnil
        rw [hnil, List.append_nil] at h
        exact hnot (h ▸ blank_ends_reply report)
      have hread : (s.reader.read 4096).1 ≠ [] := BufReader.read_ne hmore (by decide)
      have hpending := s.reader.read_pending 4096
      have hresponse : (response ++ (s.reader.read 4096).1) ++ (s.reader.read 4096).2.pending
          = reportReply report := by
        rw [List.append_assoc, hpending, h]
      rw [readReport, bind_apply, read_apply]
      dsimp only
      rw [if_neg hread]
      split
      · next hblank =>
          have hnil := eq_nil_of_blank hresponse hblank
          rw [hnil, List.append_nil] at hresponse
          exact ⟨(s.reader.read 4096).2, by rw [hresponse]; rfl⟩
      · next hblank =>
          have hlen := congrArg List.length hpending
          have hpos := List.length_pos_of_ne_nil hread
          rw [List.length_append] at hlen
          exact ih _ _ hresponse hblank (by dsimp only; omega)

theorem authenticate_okRead (password : Option Text) (reads : List TcpRead) (psyncOffset : Int)
    (ops : List InputOp) :
    ∃ ops', authenticate password
        { reader := { buffer := [], incoming := authReads password ++ reads }, psyncOffset, ops }
      = .ok () { reader := { buffer := [], incoming := reads }, psyncOffset, ops := ops' } := by
  match password with
  | none => exact ⟨ops, rfl⟩
  | some [] => exact ⟨ops, rfl⟩
  | some (c :: cs) =>
      have hlen : okRead.val.length ≤ 1024 := by decide
      have hcontains : "+OK".toList <:+: okText := by decide
      refine ⟨ops ++ [authEffect (c :: cs)], ?_⟩
      show authenticate _ { reader := { buffer := [], incoming := okRead :: reads }, .. } = _
      rw [authenticate_read (t := okText) (List.cons_ne_nil c cs) hlen rfl, if_pos hcontains]
      rfl

/-- What stands around the report names nothing. -/
theorem findSome_reply (report : List ReportLine) :
    (lines (fromUtf8Lossy (reportReply report))).findSome? lineReplid
      = (report.map ReportLine.text).findSome? lineReplid := by
  have hheader : lineReplid (reportHeader report) = none := by
    have hnot : ¬ replidField <+: reportHeader report := by
      intro hprefix
      have hfirst := (List.cons_prefix_cons.1 hprefix).1
      exact absurd hfirst (by decide)
    rw [lineReplid, stripPrefix, if_neg hnot]
    rfl
  have hblank : [([] : Text)].findSome? lineReplid = none := by decide
  rw [lines_reportReply, List.findSome?_cons_of_isNone (by rw [hheader]; rfl),
    List.findSome?_append, hblank, Option.or_none]

/-- Where the name of the field does not stand twice, it is taken off once. -/
theorem sourceLineReplid_eq {line : Text} (h : ¬ replidField ++ replidField <+: line) :
    sourceLineReplid line = lineReplid line := by
  rw [sourceLineReplid, lineReplid]
  split
  · next hprefix =>
      obtain ⟨value, rfl⟩ := hprefix
      have hvalue : ¬ replidField <+: value := fun hprefix =>
        h ((List.prefix_append_right_inj replidField).2 hprefix)
      rw [trimStartMatches_once (by decide) hvalue, stripPrefix_append]
      rfl
  · next hnot =>
      rw [stripPrefix, if_neg hnot]
      rfl

theorem findSome_sourceLines (h : ∀ line ∈ report, ¬ replidField ++ replidField <+: line.text) :
    (report.map ReportLine.text).findSome? sourceLineReplid
      = (report.map ReportLine.text).findSome? lineReplid := by
  induction report with
  | nil => rfl
  | cons line report ih =>
      rw [List.map_cons, List.findSome?_cons, List.findSome?_cons,
        sourceLineReplid_eq (h line List.mem_cons_self),
        ih fun line' h' => h line' (List.mem_cons_of_mem line h')]

end Report

/-- Of every report, however the reply is cut, `fetch_master_replid` answers with
the id of the first line that names one, and with no other; and so does
`fetch_source_master_replid`, where no line repeats the name of the field. -/
theorem fetchMasterReplid_reports (password : Option Text) (report : List ReportLine)
    {reads : List TcpRead} (hreads : reads.flatMap Subtype.val = reportReply report)
    (psyncOffset : Int) (replid : Text) :
    ((∃ s, fetchMasterReplid password
          { reader := { buffer := [], incoming := authReads password ++ reads }
            psyncOffset, ops := [] } = .ok replid s) ↔ Reports report replid) ∧
      ((∀ line ∈ report, ¬ replidField ++ replidField <+: line.text) →
        (fetchSourceMasterReplid (reportText report) = .ok replid ↔ Reports report replid)) := by
  constructor
  · obtain ⟨ops, hauth⟩ := authenticate_okRead password reads psyncOffset []
    let start : InputState :=
      { reader := { buffer := [], incoming := reads }, psyncOffset
        ops := ops ++ [.sendSource (encodeCommandStr "INFO".toList ["REPLICATION".toList])] }
    obtain ⟨r, hreply⟩ := readReport_reply [] start hreads (by decide) (Nat.lt_succ_self _)
    rw [fetchMasterReplid, bind_apply, hauth]
    dsimp only
    rw [bind_apply, emit_apply]
    dsimp only
    rw [bind_apply, withInputFuel, hreply]
    dsimp only
    rw [findSome_reply, reports_iff]
    cases (report.map ReportLine.text).findSome? lineReplid with
    | none =>
        refine ⟨fun h => ?_, fun h => by cases h⟩
        obtain ⟨s, hs⟩ := h
        cases hs
    | some found =>
        refine ⟨fun h => ?_, fun h => ?_⟩
        · obtain ⟨s, hs⟩ := h
          cases hs
          rfl
        · obtain rfl := Option.some.inj h
          exact ⟨_, rfl⟩
  · intro hnot
    have hlines : lines (reportText report) = report.map ReportLine.text := by
      have hnil : lines [] = [] := rfl
      have hall := lines_flatMap (no_lf_texts report) []
      rwa [List.append_nil, ← reportText_eq, hnil, List.append_nil] at hall
    rw [fetchSourceMasterReplid, hlines, findSome_sourceLines hnot, reports_iff]
    cases (report.map ReportLine.text).findSome? lineReplid with
    | none => exact ⟨fun h => (by cases h), fun h => (by cases h)⟩
    | some found =>
        exact ⟨fun h => congrArg some (Except.ok.inj h),
          fun h => congrArg Except.ok (Option.some.inj h)⟩

theorem titleLine_fits : IsAscii "# Replication".toList ∧ "# Replication".toList ≠ [] ∧
    '\r' ∉ "# Replication".toList ∧ '\n' ∉ "# Replication".toList := by decide

theorem idLine_fits : IsAscii "master_replid:8371b4fb".toList ∧
    "master_replid:8371b4fb".toList ≠ [] ∧ '\r' ∉ "master_replid:8371b4fb".toList ∧
    '\n' ∉ "master_replid:8371b4fb".toList := by decide

/-- A title and an id. -/
def twoLines : List ReportLine :=
  [⟨_, titleLine_fits.1, titleLine_fits.2.1, titleLine_fits.2.2.1, titleLine_fits.2.2.2⟩,
    ⟨_, idLine_fits.1, idLine_fits.2.1, idLine_fits.2.2.1, idLine_fits.2.2.2⟩]

theorem twoLines_cut : ((reportReply twoLines).take 30 ≠ [] ∧
    ((reportReply twoLines).take 30).length ≤ 8192) ∧ (reportReply twoLines).drop 30 ≠ [] ∧
    ((reportReply twoLines).drop 30).length ≤ 8192 := by decide +kernel

def twoReads : List TcpRead := [⟨_, twoLines_cut.1⟩, ⟨_, twoLines_cut.2⟩]

/-- With a password, and cut inside the line with the id. -/
theorem fetchMasterReplid_reports_twoLines :
    (∃ s, fetchMasterReplid (some "pw".toList)
        { reader := { buffer := [], incoming := authReads (some "pw".toList) ++ twoReads }
          psyncOffset := 0, ops := [] } = .ok "8371b4fb".toList s) ∧
      fetchSourceMasterReplid (reportText twoLines) = .ok "8371b4fb".toList := by
  have hreads : twoReads.flatMap Subtype.val = reportReply twoLines := by
    show (reportReply twoLines).take 30 ++ ((reportReply twoLines).drop 30 ++ []) = _
    rw [List.append_nil, List.take_append_drop]
  have hnot : ∀ line ∈ twoLines, ¬ replidField ++ replidField <+: line.text := by
    simp only [twoLines, List.forall_mem_cons]
    exact ⟨by decide, by decide, fun _ h => absurd h List.not_mem_nil⟩
  have hreports : Reports twoLines "8371b4fb".toList := by
    rw [reports_iff]
    decide
  obtain ⟨hfetch, hsource⟩ := fetchMasterReplid_reports (some "pw".toList) twoLines hreads 0
    "8371b4fb".toList
  exact ⟨hfetch.2 hreports, (hsource hnot).2 hreports⟩

end RedisHaTool.Syncer
