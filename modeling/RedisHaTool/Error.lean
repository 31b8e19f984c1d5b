import RedisHaTool.Lib.Reader

/-!
# Errors

`error.rs`, as far as the modelled code raises them. A message is the pieces it
is formatted from: where one of them is the lossy decoding of some bytes, the
bytes are kept as they are.
-/

namespace RedisHaTool

open Lib

/-- The kinds of `std::io::Error` that the code can tell apart from the rest. -/
inductive IoErrorKind where
  | unexpectedEof
  | other
  deriving DecidableEq, Repr

/-- A piece of a formatted message. -/
inductive Piece where
  | text (t : Text)
  /-- `String::from_utf8_lossy` of these bytes. -/
  | lossy (bs : Bytes)
  deriving DecidableEq, Repr

abbrev Message := List Piece

inductive SyncError where
  | corrupted (message : Message)
  | protocol (message : Message)
  | io (kind : IoErrorKind)
  deriving DecidableEq, Repr

/-- `SyncError::Corrupted` of a plain text. -/
def SyncError.corruptedText (text : Text) : SyncError := .corrupted [.text text]

/-- `SyncError::Protocol` of a plain text. -/
def SyncError.protocolText (text : Text) : SyncError := .protocol [.text text]

/-- What `read_exact` fails with at the end of its input. -/
def SyncError.eof : SyncError := .io .unexpectedEof

end RedisHaTool
