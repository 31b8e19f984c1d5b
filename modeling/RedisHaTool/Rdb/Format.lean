import RedisHaTool.Rdb.Parser

/-!
# RDB files

What an RDB file is, said without reference to how it is parsed: a magic, four
digits, records and an end marker. A record is a value of the types below, which
carry as fields what makes them well formed, so every value has an encoding and
nothing else does. The entries of a file are read off its records: the database
is the one selected last, and an expiry belongs to the next key record unless a
database is selected in between.

The grammar is the part of the format that the parser means to support. Lengths
come in all four forms, as the format allows, but in two records the parser reads
fewer: the number of `SELECTDB` has six or fourteen bits, not thirty-two or
sixty-four, and the sizes of `RESIZEDB` are not in the form of sixty-four. A string
kept for `RESTORE` has the lengths of its LZF form written the way Redis writes
them, in the shortest form. Values of the types `Quicklist2`, `SortedSet`, streams
and modules are not in it, and neither are compressed keys.
-/

namespace RedisHaTool.Rdb

open Lib

/-! ## Lengths -/

inductive LenForm where
  | six
  | fourteen
  | len32
  | len64
  deriving DecidableEq, Repr

/-- The numbers a form can hold are those below its bound. -/
def LenForm.bound : LenForm → Nat
  | .six => 2 ^ 6
  | .fourteen => 2 ^ 14
  | .len32 => 2 ^ 32
  | .len64 => 2 ^ 64

/-- A length in the file. -/
structure Len where
  form : LenForm
  val : Nat
  fits : val < form.bound

def Len.bytes (l : Len) : Bytes :=
  match l.form with
  | .six => [UInt8.ofNat l.val]
  | .fourteen => [UInt8.ofNat (0x40 + l.val / 256), UInt8.ofNat l.val]
  | .len32 => 0x80 :: toBeBytes 4 l.val
  | .len64 => 0x81 :: toBeBytes 8 l.val

/-- No shorter form holds the number, and it is below `2 ^ 32`. -/
def Len.Shortest (l : Len) : Prop :=
  match l.form with
  | .six => True
  | .fourteen => 2 ^ 6 ≤ l.val
  | .len32 => 2 ^ 14 ≤ l.val
  | .len64 => False

/-- A small number in any form. -/
def Len.small (form : LenForm) (n : Nat) (h : n < 2 ^ 6) : Len :=
  { form, val := n, fits := by cases form <;> simp only [LenForm.bound] <;> omega }

theorem zero_fits : 0 < 2 ^ 6 := by decide

/-! ## Strings -/

/-- A signed number of `bits` bits. -/
abbrev SInt (bits : Nat) := {i : Int // -2 ^ (bits - 1) ≤ i ∧ i < 2 ^ (bits - 1)}

/-- A string: plain, an integer, or compressed. -/
inductive RdbString where
  | plain (len : Len) (data : Bytes) (h : len.val = data.length)
      (held : data.length ≤ isizeMax)
  | int8 (i : SInt 8)
  | int16 (i : SInt 16)
  | int32 (i : SInt 32)
  | lzf (compressedLen originalLen : Len) (data : Bytes)
      (h : compressedLen.val = data.length) (held : data.length ≤ isizeMax)

def RdbString.bytes : RdbString → Bytes
  | .plain len data _ _ => len.bytes ++ data
  | .int8 i => 0xC0 :: toLeBytes 1 (asUnsigned 8 i)
  | .int16 i => 0xC1 :: toLeBytes 2 (asUnsigned 16 i)
  | .int32 i => 0xC2 :: toLeBytes 4 (asUnsigned 32 i)
  | .lzf compressedLen originalLen data _ _ =>
      0xC3 :: compressedLen.bytes ++ originalLen.bytes ++ data

/-- The string it stands for, as far as the tool decodes it: a compressed string
is left to the target, and stands for nothing here. -/
def RdbString.value : RdbString → Bytes
  | .plain _ data _ _ => data
  | .int8 i => asBytes (intToString i)
  | .int16 i => asBytes (intToString i)
  | .int32 i => asBytes (intToString i)
  | .lzf .. => []

/-- The lengths of a compressed string are in their shortest form. -/
def RdbString.Canonical : RdbString → Prop
  | .lzf compressedLen originalLen _ _ _ =>
      compressedLen.Shortest ∧ originalLen.Shortest
  | _ => True

def RdbString.Uncompressed : RdbString → Prop
  | .lzf .. => False
  | _ => True

/-- A string inside a value. -/
abbrev ValueString := {s : RdbString // s.Canonical}

/-- A key. -/
abbrev KeyString := {s : RdbString // s.Uncompressed}

/-! ## Values -/

/-- A counted sequence. -/
structure Counted (α : Type) where
  count : Len
  items : List α
  counts : count.val = items.length
  limit : items.length ≤ 100000000

def Counted.bytes {α : Type} (enc : α → Bytes) (s : Counted α) : Bytes :=
  s.count.bytes ++ s.items.flatMap enc

/-- The types whose value is one string. -/
def RdbType.isBlob : RdbType → Bool
  | .hashZipmap | .listZiplist | .setIntset | .sortedSetZiplist | .hashZiplist
  | .hashListpack | .sortedSetListpack | .setListpack => true
  | _ => false

abbrev BlobType := {t : RdbType // t.isBlob = true}

/-- The eight bytes of a double. -/
abbrev Double := {bs : Bytes // bs.length = 8}

/-- A value: its type and what the file holds for it. -/
inductive Value where
  | string (s : ValueString)
  | blob (t : BlobType) (s : ValueString)
  | list (elements : Counted ValueString)
  | set (members : Counted ValueString)
  | hash (fields : Counted (ValueString × ValueString))
  | sortedSet2 (members : Counted (ValueString × Double))
  | quicklist (nodes : Counted ValueString)

def ValueString.bytes (s : ValueString) : Bytes := s.1.bytes

def fieldBytes (f : ValueString × ValueString) : Bytes := f.1.1.bytes ++ f.2.1.bytes

def memberBytes (m : ValueString × Double) : Bytes := m.1.1.bytes ++ m.2.1

def Value.bytes : Value → Bytes
  | .string s => s.1.bytes
  | .blob _ s => s.1.bytes
  | .list es => es.bytes ValueString.bytes
  | .set ms => ms.bytes ValueString.bytes
  | .hash fs => fs.bytes fieldBytes
  | .sortedSet2 ms => ms.bytes memberBytes
  | .quicklist ns => ns.bytes ValueString.bytes

def Value.rdbType : Value → RdbType
  | .string _ => .string
  | .blob t _ => t.1
  | .list _ => .list
  | .set _ => .set
  | .hash _ => .hash
  | .sortedSet2 _ => .sortedSet2
  | .quicklist _ => .quicklist

/-- The decoded value, for the types that are a single string. -/
def Value.decoded : Value → Bytes
  | .string s => s.1.value
  | .blob _ s => s.1.value
  | _ => []

/-! ## Records -/

/-- An item of a module's auxiliary data, its opcode in any form. -/
inductive ModuleItem where
  | sint (form : LenForm) (i : Len)
  | uint (form : LenForm) (i : Len)
  | float (form : LenForm) (bs : {bs : Bytes // bs.length = 4})
  | double (form : LenForm) (bs : Double)
  | string (form : LenForm) (s : RdbString)

def ModuleItem.bytes : ModuleItem → Bytes
  | .sint form i => (Len.small form 1 (by decide)).bytes ++ i.bytes
  | .uint form i => (Len.small form 2 (by decide)).bytes ++ i.bytes
  | .float form bs => (Len.small form 3 (by decide)).bytes ++ bs.1
  | .double form bs => (Len.small form 4 (by decide)).bytes ++ bs.1
  | .string form s => (Len.small form 5 (by decide)).bytes ++ s.bytes

/-- A record. -/
inductive Record where
  | aux (key value : RdbString)
  | resizeDb (dbSize expiresSize : {l : Len // l.form ≠ .len64})
  | selectDb (db : {l : Len // l.form = .six ∨ l.form = .fourteen})
  | expireMs (ms : {n : Nat // n < 2 ^ 64})
  | expireS (s : {n : Nat // n < 2 ^ 32})
  | idle (time : Len)
  | freq (counter : UInt8)
  | moduleAux (id : Len) (items : List ModuleItem) (endForm : LenForm)
  | keyValue (key : KeyString) (value : Value)

def Record.bytes : Record → Bytes
  | .aux key value => 0xFA :: key.bytes ++ value.bytes
  | .resizeDb dbSize expiresSize => 0xFB :: dbSize.1.bytes ++ expiresSize.1.bytes
  | .selectDb db => 0xFE :: db.1.bytes
  | .expireMs ms => 0xFC :: toLeBytes 8 ms
  | .expireS s => 0xFD :: toLeBytes 4 s
  | .idle time => 0xF8 :: time.bytes
  | .freq counter => [0xF9, counter]
  | .moduleAux id items endForm =>
      0xF7 :: id.bytes ++ (items.flatMap ModuleItem.bytes
        ++ (Len.small endForm 0 (by decide)).bytes)
  | .keyValue key value => value.rdbType.toByte :: key.1.bytes ++ value.bytes

/-! ## What a file says -/

/-- What the records read so far leave for the next key record. -/
structure Cursor where
  db : Nat
  expire : Option SystemTime

def Cursor.start : Cursor := { db := 0, expire := none }

/-- What a record leaves for the next key record. -/
def Record.next (c : Cursor) : Record → Cursor
  | .selectDb db => { db := db.1.val, expire := none }
  | .expireMs ms => { c with expire := some (epochPlusMillis ms) }
  | .expireS s => { c with expire := some (epochPlusSecs s) }
  | .keyValue _ _ => { c with expire := none }
  | _ => c

/-- The entry of a record, of which only a key record has one. -/
def Record.entry (c : Cursor) : Record → Option BinEntry
  | .keyValue key value => some
      { db := c.db, key := key.1.value, value := value.decoded,
        rawValue := some value.bytes, expire := c.expire, rdbType := value.rdbType }
  | _ => none

/-- The entries of some records, in order. -/
def entriesFrom : Cursor → List Record → List BinEntry
  | _, [] => []
  | c, r :: rs => (r.entry c).toList ++ entriesFrom (r.next c) rs

/-- An RDB file. -/
structure RdbFile where
  digits : Text
  four : digits.length = 4
  decimal : digits.all Char.isDigit = true
  records : List Record

def RdbFile.bytes (f : RdbFile) : Bytes :=
  rdbMagic ++ asBytes f.digits ++ f.records.flatMap Record.bytes ++ [0xFF]

def RdbFile.entries (f : RdbFile) : List BinEntry :=
  entriesFrom Cursor.start f.records

end RedisHaTool.Rdb
