import RedisHaTool.Lib.Text

/-!
# RESP values and their encoder

`protocol/resp/value.rs` and `protocol/resp/encoder.rs`. The encoder puts its
output at the end of a buffer; here it answers the bytes it puts there. An
array's elements follow its count line with nothing between them, so the
encoder is one recursion over the value and its lists of elements.
-/

namespace RedisHaTool.Resp

open Lib

inductive RespValue where
  | simpleString (s : Bytes)
  | error (e : Bytes)
  | integer (i : Int)
  | bulkString (s : Bytes)
  | array (elements : List RespValue)
  | null
  deriving Repr

def crlf : Bytes := [13, 10]

mutual

/-- `encode_value`, the bytes it puts. -/
def encodeValue : RespValue → Bytes
  | .simpleString s => '+'.toUInt8 :: s ++ crlf
  | .error e => '-'.toUInt8 :: e ++ crlf
  | .integer i => ':'.toUInt8 :: asBytes (intToString i) ++ crlf
  | .bulkString s =>
      '$'.toUInt8 :: asBytes (natToString s.length) ++ crlf ++ s ++ crlf
  | .array es =>
      '*'.toUInt8 :: asBytes (natToString es.length) ++ crlf ++ encodeElements es
  | .null => asBytes "$-1\r\n".toList

/-- The loop over an array's elements. -/
def encodeElements : List RespValue → Bytes
  | [] => []
  | e :: es => encodeValue e ++ encodeElements es

end

def encode (v : RespValue) : Bytes := encodeValue v

def encodeBatch (vs : List RespValue) : Bytes := vs.flatMap encodeValue

def encodeCommand (cmd : Text) (args : List Bytes) : Bytes :=
  encode (.array (.bulkString (asBytes cmd) :: args.map .bulkString))

def encodeCommandStr (cmd : Text) (args : List Text) : Bytes :=
  encodeCommand cmd (args.map asBytes)

theorem encodeElements_eq (es : List RespValue) :
    encodeElements es = encodeBatch es := by
  induction es with
  | nil => rw [encodeElements, encodeBatch, List.flatMap_nil]
  | cons e es ih => rw [encodeElements, encodeBatch, List.flatMap_cons, ih, encodeBatch]

@[simp] theorem encodeBatch_nil : encodeBatch [] = [] := rfl

@[simp] theorem encodeBatch_cons (v : RespValue) (vs : List RespValue) :
    encodeBatch (v :: vs) = encodeValue v ++ encodeBatch vs := rfl

@[simp] theorem encodeBatch_append (vs ws : List RespValue) :
    encodeBatch (vs ++ ws) = encodeBatch vs ++ encodeBatch ws := by
  simp [encodeBatch]

/-! ## What a value may hold -/

/-- No CR LF pair anywhere in the bytes. -/
def NoCrlf (s : Bytes) : Prop := ¬ crlf <:+: s

/-- `size_of::<RespValue>()` on a 64-bit target: a `Bytes` is four words, and
three variants hold one, so the tag takes a fifth. -/
def respValueSize : Nat := 40

mutual

/-- A predicate on every value of a tree: `P` on the node, and on everything
inside an array. -/
def RespValue.All (P : RespValue → Prop) : RespValue → Prop
  | .array es => P (.array es) ∧ RespValue.AllIn P es
  | v => P v

def RespValue.AllIn (P : RespValue → Prop) : List RespValue → Prop
  | [] => True
  | e :: es => RespValue.All P e ∧ RespValue.AllIn P es

end

mutual

/-- A decidable predicate is decidable on a whole tree. -/
def RespValue.decAll {P : RespValue → Prop} [DecidablePred P] :
    (v : RespValue) → Decidable (RespValue.All P v)
  | .array es => @instDecidableAnd _ _ _ (RespValue.decAllIn es)
  | .simpleString s => inferInstanceAs (Decidable (P (.simpleString s)))
  | .error e => inferInstanceAs (Decidable (P (.error e)))
  | .integer i => inferInstanceAs (Decidable (P (.integer i)))
  | .bulkString s => inferInstanceAs (Decidable (P (.bulkString s)))
  | .null => inferInstanceAs (Decidable (P .null))

def RespValue.decAllIn {P : RespValue → Prop} [DecidablePred P] :
    (es : List RespValue) → Decidable (RespValue.AllIn P es)
  | [] => isTrue trivial
  | e :: es => @instDecidableAnd _ _ (RespValue.decAll e) (RespValue.decAllIn es)

end

instance {P : RespValue → Prop} [DecidablePred P] :
    DecidablePred (RespValue.All P) := RespValue.decAll

/-- A simple string or an error holds no CR LF pair. -/
def LineSafe : RespValue → Prop
  | .simpleString s => NoCrlf s
  | .error e => NoCrlf e
  | _ => True

instance : DecidablePred NoCrlf := fun _ => inferInstanceAs (Decidable (¬ _))

instance : DecidablePred LineSafe
  | .simpleString s => inferInstanceAs (Decidable (NoCrlf s))
  | .error e => inferInstanceAs (Decidable (NoCrlf e))
  | .integer _ | .bulkString _ | .array _ | .null => isTrue trivial

/-- The bounds every value of a 64-bit Rust program keeps: an `i64` is one, and
no byte string and no `Vec` takes more than `isize::MAX` bytes of memory. -/
def InMemory : RespValue → Prop
  | .integer i => IsI64 i
  | .bulkString s => s.length ≤ isizeMax
  | .array es => es.length * respValueSize ≤ isizeMax
  | _ => True

instance : DecidablePred InMemory
  | .integer i => inferInstanceAs (Decidable (IsI64 i))
  | .bulkString s => inferInstanceAs (Decidable (s.length ≤ isizeMax))
  | .array es => inferInstanceAs (Decidable (es.length * respValueSize ≤ isizeMax))
  | .simpleString _ | .error _ | .null => isTrue trivial

/-- A `RespValue` as a running program has one. -/
abbrev HeldValue := {v : RespValue // v.All InMemory}

/-- The values themselves. -/
def values (vs : List HeldValue) : List RespValue := vs.map Subtype.val

theorem inMemory_of_mem_values {vs : List HeldValue} {v : RespValue}
    (h : v ∈ values vs) : v.All InMemory := by
  obtain ⟨w, -, rfl⟩ := List.mem_map.1 h
  exact w.2

end RedisHaTool.Resp
