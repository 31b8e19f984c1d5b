import Mathlib.Data.List.Infix
import RedisHaTool.Lib.Lines
import RedisHaTool.Resp.Command
import RedisHaTool.Syncer.Input

/-!
# Before the session

What the tool says to the source before it asks for the stream: `authenticate`
and `fetch_master_replid` of `syncer/input.rs`, and `fetch_source_master_replid`
of `main.rs`, which has its client library send the command and hand over the
report as a string.

`authenticate` makes one read of the bare socket and takes what it gets for the
whole reply. `run` wraps the socket into its buffered reader after that.
-/

namespace RedisHaTool.Syncer

open Lib Resp

/-! ## The password -/

/-- `authenticate`, with the configured password. -/
def authenticate (password : Option Text) : InputM Unit :=
  match password with
  | none | some [] => pure ()
  | some password => do
    emit (.sendSource (encodeCommandStr "AUTH".toList [password]))
    let response ← read 1024
    let responseStr := fromUtf8Lossy response
    if ¬ "+OK".toList <:+: responseStr then
      failWith ("AUTH 失败: ".toList ++ responseStr)

def replidField : Text := "master_replid:".toList

/-- What a line may not say in the place of an id. -/
def usableReplid (value : Text) : Option Text :=
  let replid := trim value
  if replid ≠ [] ∧ replid ≠ "?".toList then some replid else none

/-- A line as `fetch_master_replid` goes over it. -/
def lineReplid (line : Text) : Option Text := (stripPrefix replidField line).bind usableReplid

/-- A line as `fetch_source_master_replid` goes over it. -/
def sourceLineReplid (line : Text) : Option Text :=
  if replidField <+: line then usableReplid (trimStartMatches replidField line) else none

/-- The loop that reads the reply, to a blank line or to the end of the stream. -/
def readReport : Nat → Bytes → InputM Bytes
  | 0, _ => throw .fuel
  | fuel + 1, response => do
      let bs ← read 4096
      if bs = [] then pure response
      else
        let response := response ++ bs
        if [13, 10, 13, 10] <:+ response then pure response
        else readReport fuel response

/-- `fetch_master_replid`, once the connection is made. -/
def fetchMasterReplid (password : Option Text) : InputM Text := do
  authenticate password
  emit (.sendSource (encodeCommandStr "INFO".toList ["REPLICATION".toList]))
  let response ← withInputFuel fun fuel => readReport fuel []
  match (lines (fromUtf8Lossy response)).findSome? lineReplid with
  | some replid => pure replid
  | none => failWith "INFO REPLICATION 响应中未找到有效的 master_replid".toList

/-- `fetch_source_master_replid`, from what the client library answers on. -/
def fetchSourceMasterReplid (infoResult : Text) : Except SyncError Text :=
  match (lines infoResult).findSome? sourceLineReplid with
  | some replid => .ok replid
  | none => .error (.protocolText "INFO REPLICATION 响应中未找到 master_replid".toList)

/-! ## What a source reports -/

/-- A line of a report: ASCII, not empty, and without a line end. -/
structure ReportLine where
  text : Text
  ascii : IsAscii text
  ne_nil : text ≠ []
  no_cr : '\r' ∉ text
  no_lf : '\n' ∉ text

/-- The report itself. -/
def reportText (report : List ReportLine) : Text :=
  report.flatMap fun line => line.text ++ lineEnd

/-- The report as the source sends it, a bulk string. -/
def reportReply (report : List ReportLine) : Bytes :=
  encodeValue (.bulkString (asBytes (reportText report)))

/-- The line names an id that can be asked for. -/
def ReportLine.Names (line : ReportLine) (replid : Text) : Prop :=
  ∃ value, line.text = replidField ++ value ∧ trim value = replid ∧ replid ≠ [] ∧
    replid ≠ "?".toList

/-- It is the first such id of the report. -/
def Reports (report : List ReportLine) (replid : Text) : Prop :=
  ∃ pre line post, report = pre ++ line :: post ∧ line.Names replid ∧
    ∀ earlier ∈ pre, ∀ other, ¬ earlier.Names other

/-! ## What the password is answered -/

def okText : Text := "+OK\r\n".toList

theorem okText_fits : asBytes okText ≠ [] ∧ (asBytes okText).length ≤ 8192 := by decide

/-- The whole reply, in one piece. -/
def okRead : TcpRead := ⟨asBytes okText, okText_fits⟩

/-- The reads of `authenticate`, where the password is right and the reply comes
so. -/
def authReads : Option Text → List TcpRead
  | none | some [] => []
  | some (_ :: _) => [okRead]

end RedisHaTool.Syncer
