import RedisHaTool.Syncer.Session

/-!
# The identity of a session

`psync_master_replid` and `psync_offset` say which history the files and the
checkpoints of a session belong to. They are stored when `PSYNC` is sent and
when the reply has been read, and a file is created under what they hold then.

A reply is any line there is. What identity it names is said here without
looking at what `handle_psync_response` makes of it.
-/

namespace RedisHaTool.Syncer

open Lib

/-- What the two shared variables hold. -/
structure Identity where
  masterReplid : Text
  offset : Int
  deriving DecidableEq, Repr

/-- What an effect leaves in them. -/
def InputOp.identify (who : Identity) : InputOp → Identity
  | .storePsyncOffset offset => { who with offset }
  | .setMasterReplid masterReplid => { who with masterReplid }
  | _ => who

def identityAfter (who : Identity) (ops : List InputOp) : Identity :=
  ops.foldl InputOp.identify who

/-- The effects that create a file. -/
def InputOp.createsFile : InputOp → Bool
  | .getRdbWriter .. | .getAofWriter .. => true
  | _ => false

/-- The identity that each file is created under. -/
def filesUnder (who : Identity) : List InputOp → List Identity
  | [] => []
  | op :: ops =>
      if op.createsFile then who :: filesUnder who ops
      else filesUnder (op.identify who) ops

/-! ## Replies -/

/-- A reply line, which the source may break off by closing the connection. -/
structure ReplyLine where
  body : Bytes
  noLf : (10 : UInt8) ∉ body
  ended : Bool
  deriving DecidableEq, Repr

def ReplyLine.bytes (line : ReplyLine) : Bytes :=
  line.body ++ if line.ended then [10] else []

/-- The text of the line, if it is one. -/
def ReplyLine.response (line : ReplyLine) : Option Text := (fromUtf8 line.bytes).map trim

/-- The id that the `PSYNC` command carries. -/
def RedisInput.sentReplid (self : RedisInput) : Text :=
  if self.initialMasterReplid ≠ [] then self.initialMasterReplid else "?".toList

/-- What a reply names: after `+FULLRESYNC` an id and an offset, and after
`+CONTINUE` an id, or by saying nothing the one it was asked for. -/
def RedisInput.named (self : RedisInput) (response : Text) : Option (Text × Option Int) :=
  if "+FULLRESYNC".toList <+: response then
    match splitWhitespace response with
    | _ :: masterReplid :: offsetStr :: _ =>
        (parseI64 offsetStr).map fun offset => (masterReplid, some offset)
    | _ => none
  else if "+CONTINUE".toList <+: response then
    match splitWhitespace response with
    | _ :: masterReplid :: _ => some (masterReplid, none)
    | _ => some (self.sentReplid, none)
  else none

/-! ## Sessions -/

/-- How a session goes that was begun under an identity and reads this. -/
abbrev RedisInput.session (self : RedisInput) (who : Identity) (incoming : List TcpRead) :
    EStateM.Result (Fault SyncError) InputState Unit :=
  self.run { reader := { buffer := [], incoming }, psyncOffset := who.offset, ops := [] }

/-- It is `Err`, and no file was created. -/
def FailsEarly (r : EStateM.Result (Fault SyncError) InputState Unit) : Prop :=
  (∃ e s, r = .error (.err e) s) ∧ ∀ op ∈ opsOf r, op.createsFile = false

/-- Every file was created under the identity that was named, and the id is
still there. -/
def GoesBy (who : Identity) (named : Text × Option Int) (ops : List InputOp) : Prop :=
  (identityAfter who ops).masterReplid = named.1 ∧
    ∀ w ∈ filesUnder who ops, w.masterReplid = named.1 ∧
      ∀ offset, named.2 = some offset → w.offset = offset

/-- Whatever follows the line, the session fails before it has created a file,
or goes by the identity that the line names. -/
def RedisInput.Identifies (self : RedisInput) (who : Identity) (line : ReplyLine) : Prop :=
  ∀ incoming rest, incoming.flatMap Subtype.val = line.bytes ++ rest →
    (line.ended = false → rest = []) →
    FailsEarly (self.session who incoming) ∨
      ∃ named, line.response.bind self.named = some named ∧
        GoesBy who named (opsOf (self.session who incoming))

/-- A whole `+FULLRESYNC` line names an identity, and the id that a `+CONTINUE`
names is the one there is once the command is sent. -/
def RedisInput.Understands (self : RedisInput) (who : Identity) (line : ReplyLine) : Prop :=
  ∀ response, line.response = some response →
    ("+FULLRESYNC".toList <+: response → line.ended = true →
      (self.named response).isSome = true) ∧
    ("+CONTINUE".toList <+: response → ∀ named, self.named response = some named →
      named.1 = (identityAfter who self.psyncEffects).masterReplid)

end RedisHaTool.Syncer
