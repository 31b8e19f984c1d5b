import RedisHaTool.Lib.Lzf
import RedisHaTool.Rdb.Format

/-!
# Encodings of a key

A key is a string in one of the encodings of `Rdb.Format`, compressed ones among
them. What it stands for is said here by the format alone: a compressed string
is the one it decompresses to, of the length it declares.
-/

namespace RedisHaTool.Rdb

open Lib

/-- The string that is encoded, if this is an encoding. -/
def RdbString.decode : RdbString → Option Bytes
  | .plain _ data _ _ => some data
  | .int8 i => some (asBytes (intToString i))
  | .int16 i => some (asBytes (intToString i))
  | .int32 i => some (asBytes (intToString i))
  | .lzf _ originalLen data _ _ =>
      (Lzf.decompress data).filter fun s => s.length = originalLen.val

/-- The length it is said to have: the declared one, or the number of decimal
characters. -/
def RdbString.declaredLength : RdbString → Nat
  | .plain len _ _ _ => len.val
  | .int8 i => (intToString i).length
  | .int16 i => (intToString i).length
  | .int32 i => (intToString i).length
  | .lzf _ originalLen _ _ _ => originalLen.val

/-- A key and an encoding of it. -/
structure KeyEncoding where
  string : RdbString
  key : Bytes
  decodes : string.decode = some key

/-- `read_key_value` delivers this key for a record of some type, whatever state
the parser is in and whatever follows the encoding. -/
def KeyEncoding.Delivers (k : KeyEncoding) (key : Bytes) : Prop :=
  ∃ (σ : Type) (rdbType : RdbType) (p q : RdbParser σ) (rest : Bytes) (entry : BinEntry),
    p.reader = k.string.bytes ++ rest ∧ readKeyValue rdbType p = .ok entry q ∧
      entry.key = key

/-- The key that is delivered is the one that was encoded. -/
def KeyEncoding.Decoded (k : KeyEncoding) : Prop :=
  ∀ key, k.Delivers key → key = k.key ∧ key.length = k.string.declaredLength

/-- The two are delivered under one key only if they are one. -/
def KeyEncoding.KeptApart (k k' : KeyEncoding) : Prop :=
  ∀ key, k.Delivers key → k'.Delivers key → k.key = k'.key

/-- The encoding is not compressed, or declares that nothing was. -/
def KeyEncoding.Legible (k : KeyEncoding) : Prop :=
  k.string.Uncompressed ∨ k.string.declaredLength = 0

/-- The encoding is compressed, or the key is empty. -/
def KeyEncoding.Blank (k : KeyEncoding) : Prop :=
  ¬ k.string.Uncompressed ∨ k.string.declaredLength = 0

end RedisHaTool.Rdb
