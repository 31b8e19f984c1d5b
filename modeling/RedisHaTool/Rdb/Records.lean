import Mathlib.Logic.Relation
import RedisHaTool.Lib.Recognizers
import RedisHaTool.Rdb.StreamFields

/-!
# Complete records

A record is an opcode or the byte of a type, and a body. The body is complete if it
is one of those the format has after that byte: the lengths, strings and numbers of
the opcode's arm, in any of their forms, or a key and a value of the type. This is
said without the readers of the parser.

What the parser takes for a body is not always one. It reads the number of
`SELECTDB` and the sizes of `RESIZEDB` without `read_length`, it knows integers in
the place of a count, and it reads types 18 and 3 as 14 and 5, modules as eight
bytes and a string, and streams by fields of its own. `BodyTaken` is what it takes,
and `Lenient` where that is no complete body.

The data of a module is that of `skip_module_value`, the one form that the source
knows, after an id.
-/

namespace RedisHaTool.Rdb

open Lib

/-- The bytes that `parse` has an arm of its own for. -/
def opcodes : List UInt8 := [0xF7, 0xF8, 0xF9, 0xFA, 0xFB, 0xFC, 0xFD, 0xFE, 0xFF]

/-- An opcode or the byte of a type. -/
def Implemented (b : UInt8) : Prop := b ∈ opcodes ∨ (RdbType.fromByte b).isSome

instance (b : UInt8) : Decidable (Implemented b) :=
  inferInstanceAs (Decidable (b ∈ opcodes ∨ (RdbType.fromByte b).isSome))

/-! ## Complete bodies -/

def lens : Language UInt8 := encodings Len.bytes

def strings : Language UInt8 := encodings RdbString.bytes

def blocks (n : Nat) : Language UInt8 := encodings fun bs : Block n => bs.1

/-- A count in any form of a length, and so many elements. -/
def counted {ι : Type} (enc : ι → Bytes) : Language UInt8 :=
  encodings fun s : Sequence ι => s.bytes enc

/-- The auxiliary data of a module, or its value: an id, items and their end. -/
def moduleBody : Language UInt8 :=
  lens * encodings fun data : List ModuleItem × LenForm =>
    data.1.flatMap ModuleItem.bytes ++ (Len.small data.2 0 zero_fits).bytes

def pairBytes (f : RdbString × RdbString) : Bytes := f.1.bytes ++ f.2.bytes

def doubleBytes (m : RdbString × Block 8) : Bytes := m.1.bytes ++ m.2.1

/-- The values of a type. -/
def completeValue (rdbType : RdbType) : Language UInt8 :=
  match rdbType with
  | .list | .set | .quicklist => counted RdbString.bytes
  | .hash => counted pairBytes
  | .sortedSet2 => counted doubleBytes
  | .quicklist2 => counted nodeBytes
  | .sortedSet => counted scoredBytes
  | .module | .module2 => moduleBody
  | .streamListpacks | .streamListpacks2 | .streamListpacks3 =>
      encodings fun v : StreamValue rdbType => v.bytes
  | .string | .hashZipmap | .listZiplist | .setIntset | .sortedSetZiplist | .hashZiplist
  | .hashListpack | .sortedSetListpack | .setListpack => strings

/-- What follows the first byte of a record. -/
def completeBody (opcode : UInt8) : Language UInt8 :=
  match opcode.toNat with
  | 0xF7 => moduleBody
  | 0xF8 => lens
  | 0xF9 => blocks 1
  | 0xFA => strings * strings
  | 0xFB => lens * lens
  | 0xFC => blocks 8
  | 0xFD => blocks 4
  | 0xFE => lens
  | _ =>
    match RdbType.fromByte opcode with
    | some rdbType => strings * completeValue rdbType
    | none => 0

def completeRecord : Language UInt8 :=
  {bs | ∃ opcode body, bs = opcode :: body ∧ body ∈ completeBody opcode}

/-! ## What is taken for a body -/

/-- A first byte that stands for four more where a length is read inline, but not
for `read_length`. -/
def isWide (first : UInt8) : Bool := 0x81 ≤ first && first < 0xC0

/-- What is read inline: a length of at most 32 bits, or a wide byte and four. -/
def inlineLens : Language UInt8 :=
  {bs | (∃ l : Len, l.form ≠ .len64 ∧ bs = l.bytes) ∨
    ∃ first, ∃ ds : Block 4, isWide first ∧ bs = first :: ds.1}

/-- Where `read_length_with_raw` reads there are these integers, and they count. -/
def rawInt (first : UInt8) : Option Nat :=
  if first = 0xC0 then some 1
  else if first = 0xC1 then some 2
  else if first = 0xC2 then some 4
  else none

/-- The length that `read_length_with_raw` answers. -/
def AnyLen.rawCount : AnyLen rawInt → Nat
  | .len l => l.val
  | .int _ data _ => leNat data

/-- What the loops over elements take: a length or an integer, and as many elements,
of which there is a limit. -/
def countedRaw {ι : Type} (enc : ι → Bytes) : Language UInt8 :=
  {bs | ∃ (l : AnyLen rawInt) (items : List ι), l.rawCount = items.length ∧
    items.length ≤ 100000000 ∧ bs = l.bytes ++ items.flatMap enc}

/-- What is taken for a value of the type if this is left. -/
def ValueTaken (rdbType : RdbType) (taken left : Bytes) : Prop :=
  match rdbType with
  | .list | .set | .quicklist | .quicklist2 => taken ∈ countedRaw RdbString.bytes
  | .hash => taken ∈ countedRaw pairBytes
  | .sortedSet | .sortedSet2 => taken ∈ countedRaw doubleBytes
  | .module | .module2 => taken ∈ blocks 8 * strings
  | .streamListpacks | .streamListpacks2 | .streamListpacks3 => StreamTaken rdbType taken left
  | .string | .hashZipmap | .listZiplist | .setIntset | .sortedSetZiplist | .hashZiplist
  | .hashListpack | .sortedSetListpack | .setListpack => taken ∈ strings

/-- What an arm takes for a body if this is left. -/
def BodyTaken (opcode : UInt8) (taken left : Bytes) : Prop :=
  match opcode.toNat with
  | 0xF7 | 0xF8 | 0xF9 | 0xFA | 0xFC | 0xFD => taken ∈ completeBody opcode
  | 0xFB => taken ∈ inlineLens * inlineLens
  | 0xFE => taken ∈ inlineLens
  | _ =>
    match RdbType.fromByte opcode with
    | some rdbType =>
        ∃ (key : RdbString) (value : Bytes), taken = key.bytes ++ value ∧
          ValueTaken rdbType value left
    | none => False

/-- The loop takes something here that is no complete record: a byte that is neither
an opcode nor a type, or a body that is none of the format. -/
inductive Lenient : Bytes → Prop where
  | unknown {b : UInt8} {rest : Bytes} (h : ¬ Implemented b) : Lenient (b :: rest)
  | body {opcode : UInt8} {taken left : Bytes} (htaken : BodyTaken opcode taken left)
      (h : taken ∉ completeBody opcode) : Lenient (opcode :: (taken ++ left))

section Run

variable {σ : Type} (callback : BinEntry → EStateM (Fault SyncError) σ Unit)

/-- A round of the main loop, after which it goes on. -/
def Round (p q : RdbParser σ) : Prop := parseStep callback p = .ok none q

/-- The part of `parse` before the main loop. -/
def readHeader : ParseM σ Unit := do
  onReader readMagic
  let version ← onReader readVersion
  modifyState fun s => { s with version }

/-- The main loop of `parse` over `bs` is at `p`, at the beginning of a
round. -/
def Reached (s : σ) (bs : Bytes) (p : RdbParser σ) : Prop :=
  ∃ p₀, readHeader (RdbParser.new bs s) = .ok () p₀ ∧
    Relation.ReflTransGen (Round callback) p₀ p

/-- A header of nine bytes, complete records, the EOF opcode and what is
left. -/
def RecordsOnly (bs left : Bytes) : Prop :=
  ∃ header body, header.length = 9 ∧ bs = header ++ body ++ 0xFF :: left ∧
    body ∈ KStar.kstar completeRecord

/-- What `parse` accepts consists of complete records, of which each round has taken
one, and it stops at a byte that cannot begin one. -/
structure ParsesRecords (s : σ) (bs : Bytes) : Prop where
  accepted : ∀ fields p, parse callback (RdbParser.new bs s) = .ok fields p →
    RecordsOnly bs p.reader
  whole : ∀ fields p, parse callback (RdbParser.new bs s) = .ok fields p →
    ∀ q r, Reached callback s bs q → Round callback q r →
      ∃ record ∈ completeRecord, q.reader = record ++ r.reader
  stops : ∀ p b rest, Reached callback s bs p → p.reader = b :: rest → ¬ Implemented b →
    ∃ e q, parse callback (RdbParser.new bs s) = .error (.err e) q ∧ q.reader = rest

/-- An unknown byte comes only at the end of the input, and a loop that comes to
the EOF opcode has not been lenient. -/
structure MeetsRecords (s : σ) (bs : Bytes) : Prop where
  known : ∀ p b rest, Reached callback s bs p → p.reader = b :: rest →
    Implemented b ∨ rest = []
  strict : ∀ p q left r, Reached callback s bs p → p.reader = 0xFF :: left →
    Reached callback s bs q → Round callback q r → ¬ Lenient q.reader

end Run

end RedisHaTool.Rdb
