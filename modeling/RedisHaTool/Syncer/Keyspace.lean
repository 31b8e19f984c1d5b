import RedisHaTool.Lib.Overwrite
import RedisHaTool.Syncer.Wire

/-!
# What the target comes to hold

The target's side of a connection that restores keys. A key of a database holds
a value in the encoding it came in, and the type of that. `SELECT` chooses the
database for the commands after it, and `RESTORE` with `REPLACE` puts what its
payload holds under its key, whatever stood there.

A `RESTORE` says how long its key is to live, in milliseconds, and 0 is for ever.

The configuration has a policy for a key that is there already. It is a part of
the input's replay section, and the output is made of the output's.
-/

namespace RedisHaTool.Syncer

open Lib Rdb Resp

/-- A value: the byte of its type, and its encoding. -/
structure TargetValue where
  typeByte : UInt8
  raw : Bytes
  deriving DecidableEq, Repr

/-- What the keys of the databases hold. -/
abbrev Keyspace := Nat × Bytes → Option TargetValue

/-- The target, as one connection has it. -/
structure Target where
  db : Nat
  keys : Keyspace

/-! ## Commands -/

/-- A payload is opened: its last eight bytes are the checksum of the others, of
which two are the version, and the rest is a type and an encoding. -/
def openPayload (payload : Bytes) : Option TargetValue :=
  let body := payload.take (payload.length - 8)
  if payload.drop (payload.length - 8) = toLeBytes 8 (crc64 body).toNat then
    match body.take (body.length - 2) with
    | [] => none
    | typeByte :: raw => some { typeByte, raw }
  else none

/-- The key a command restores, and what to. -/
def ClientCommand.restores : ClientCommand → Option (Bytes × TargetValue)
  | [name, key, _ttl, payload, option] =>
      if toLower name = asBytes "restore".toList ∧ toLower option = asBytes "replace".toList then
        (openPayload payload).map fun value => (key, value)
      else none
  | _ => none

def Target.execute (t : Target) (c : ClientCommand) : Target :=
  match c.selects with
  | some db => { t with db }
  | none =>
      match c.restores with
      | some (key, value) => { t with keys := overwrite t.keys [((t.db, key), value)] }
      | none => t

/-- The target takes whole commands off the wire, and executes them. -/
def Target.Receives (t : Target) (wire : Bytes) (t' : Target) : Prop :=
  ∃ cmds, wire = encodeStream cmds ∧ t' = cmds.foldl Target.execute t

/-- A new connection to a target that holds this. -/
def Target.connected (keys : Keyspace) : Target := { db := 0, keys }

/-! ## Entries -/

/-- What an entry stands for. -/
def entryValue (entry : BinEntry) : TargetValue :=
  { typeByte := entry.rdbType.toByte, raw := entry.rawValue.getD [] }

def entryKey (entry : BinEntry) : Nat × Bytes := (entry.db, entry.key)

/-- A turn in which a command is taken and `+OK` is answered. -/
structure Turn.Acks (turn : Turn) : Prop where
  written : turn.write = .ok ()
  read : ∃ response, turn.read = .ok response ∧ containsOk response = true

/-- Every key that occurs holds what its last entry stands for, and the others
what they held. -/
structure Restored (entries : List BinEntry) (before after : Keyspace) : Prop where
  last : ∀ pre entry post, entries = pre ++ entry :: post →
    (∀ later ∈ post, entryKey later ≠ entryKey entry) →
    after (entryKey entry) = some (entryValue entry)
  frame : ∀ k, (∀ entry ∈ entries, entryKey entry ≠ k) → after k = before k

/-! ## Expiry -/

def millisecond : Nat := 1000000

/-- What a time to live has to be at this time: for ever if nothing else is said
of the entry, and otherwise up to a millisecond from where the entry expires. -/
structure InTime (expire : Option SystemTime) (now : SystemTime) (ttl : Int) : Prop where
  persistent : ttl = 0 → expire = none
  near : ∀ e, expire = some e → now + millisecond ≤ e →
    |(now : Int) + ttl * millisecond - e| ≤ millisecond

/-- Every `RESTORE` that goes out for the entry at this time has such a time to
live, whatever becomes of the connection. -/
def RestoresInTime (entry : BinEntry) (rdbVersion : Nat) (now : SystemTime) : Prop :=
  ∀ turn turns db key ttl args, turn.now = now →
    Carries 0 (final (sendRestoreCommand entry rdbVersion
        { turns := turn :: turns, exchanges := [] })).sent db
      (restoreName :: key :: asBytes (intToString ttl) :: args) →
    InTime entry.expire now ttl

/-- If the entry expires, then in a millisecond at the earliest, and so many
milliseconds away as an `i64` can say. -/
def TtlFits (expire : Option SystemTime) (now : SystemTime) : Prop :=
  ∀ e, expire = some e → now + millisecond ≤ e ∧ (e - now) / millisecond < 2 ^ 63

/-! ## The policy -/

/-- What is to be done with a key that is there already: keep what the target
has, replace it, or flush the database first. -/
inductive KeyExistsPolicy where
  | none
  | replace
  | flush
  deriving DecidableEq, Repr

/-- The replay section, as far as it is about keys. -/
structure ReplayConfig where
  keyExists : KeyExistsPolicy := .none

structure InputConfig where
  replay : ReplayConfig := {}

/-- The output's configuration: the target's address and password. -/
structure OutputConfig where
  addresses : List Text
  password : Option Text := none

structure Config where
  input : InputConfig := {}
  output : OutputConfig

/-- A configuration that keeps the keys of the target. -/
abbrev KeepingConfig := {config : Config // config.input.replay.keyExists = .none}

theorem keyExists_default (output : OutputConfig) :
    ({ output } : Config).input.replay.keyExists = .none := rfl

/-- The default keeps them. -/
def Config.keeping (output : OutputConfig) : KeepingConfig :=
  ⟨{ output }, keyExists_default output⟩

structure RedisOutput where
  config : OutputConfig

/-- The output that `main` makes. -/
def Config.redisOutput (config : Config) : RedisOutput := { config := config.output }

/-- `send_rdb_data` is a method, but has no use for the output's configuration. -/
def RedisOutput.sendRdbData (_self : RedisOutput) (size : Option Int)
    (reads : List (Except IoErrorKind Bytes)) : OutM Int :=
  Syncer.sendRdbData size reads

/-- Whatever becomes of the connection, what a key holds before means the same
as what it holds after. -/
def KeepsExisting {V : Type} (meaning : TargetValue → V) (config : KeepingConfig)
    (size : Option Int) (reads : List (Except IoErrorKind Bytes)) (before : Keyspace) : Prop :=
  ∀ turns t, (Target.connected before).Receives
      (final (config.1.redisOutput.sendRdbData size reads { turns, exchanges := [] })).sent t →
    ∀ k v, before k = some v → ∃ v', t.keys k = some v' ∧ meaning v' = meaning v

end RedisHaTool.Syncer
