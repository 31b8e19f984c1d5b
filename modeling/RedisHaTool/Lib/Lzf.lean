import RedisHaTool.Lib.Text

/-!
# LZF

The compression of strings in RDB files. A control byte below 32 stands before
a run of literal bytes, one more than it says. Any other begins a reference to
bytes that are written already: its upper three bits are the length less two,
with a further byte added where they are all set, and its lower five and the
byte that follows are the distance less one. The bytes referred to may be
overtaken by the copy.
-/

namespace RedisHaTool.Lib.Lzf

/-- So many bytes again, each from as far back. -/
def copyBack (distance : Nat) : Nat → Bytes → Bytes
  | 0, out => out
  | n + 1, out => copyBack distance n (out ++ (out[out.length - distance]?).toList)

/-- The length and the distance of a reference, and what follows it. -/
def reference (control : UInt8) (input : Bytes) : Option (Nat × Nat × Bytes) :=
  let far := control.toNat % 32 * 256
  match control.toNat / 32, input with
  | 7, more :: low :: rest => some (9 + more.toNat, far + low.toNat + 1, rest)
  | 7, _ => none
  | n, low :: rest => some (n + 2, far + low.toNat + 1, rest)
  | _, [] => none

/-- What a control byte and its operands add to the output, and what is left. -/
def segment (out : Bytes) (control : UInt8) (input : Bytes) : Option (Bytes × Bytes) :=
  if control < 32 then
    let n := control.toNat + 1
    if n ≤ input.length then some (out ++ input.take n, input.drop n) else none
  else do
    let (length, distance, rest) ← reference control input
    if distance ≤ out.length then some (copyBack distance length out, rest) else none

/-- Every segment takes a byte, so the input is budget enough. -/
def decompressLoop : Nat → Bytes → Bytes → Option Bytes
  | _, out, [] => some out
  | 0, _, _ :: _ => none
  | fuel + 1, out, control :: input => do
      let (out, rest) ← segment out control input
      decompressLoop fuel out rest

def decompress (input : Bytes) : Option Bytes := decompressLoop input.length [] input

/-- Three letters and the last two of them again and again, and a reference to
what is not there. -/
example :
    decompress [2, 97, 98, 99, 0x40, 1] = some [97, 98, 99, 98, 99, 98, 99] ∧
      decompress [0, 97, 0x20, 1] = none := by
  decide

theorem copyBack_one (out : Bytes) (b : UInt8) (n : Nat) :
    copyBack 1 n (out ++ [b]) = out ++ List.replicate (n + 1) b := by
  induction n generalizing out with
  | zero => rfl
  | succ n ih =>
      have hlast : (out ++ [b])[(out ++ [b]).length - 1]? = some b := by
        rw [← List.getLast?_eq_getElem?, List.getLast?_concat]
      rw [copyBack, hlast, Option.toList_some, ih (out ++ [b]), List.append_assoc]
      rfl

/-- A letter, and a long reference to it. -/
theorem decompress_run (letter more : UInt8) :
    decompress [0, letter, 0xE0, more, 0] = some (List.replicate (more.toNat + 10) letter) := by
  have hliteral : segment [] 0 [letter, 0xE0, more, 0] = some ([letter], [0xE0, more, 0]) := rfl
  have hreference : reference 0xE0 [more, 0] = some (9 + more.toNat, 1, []) := by
    simp [reference]
  have hcopy : segment [letter] 0xE0 [more, 0]
      = some (copyBack 1 (9 + more.toNat) [letter], []) := by
    rw [segment, if_neg (by decide), hreference]
    rfl
  have hrun : copyBack 1 (9 + more.toNat) [letter] = List.replicate (more.toNat + 10) letter := by
    rw [show more.toNat + 10 = 9 + more.toNat + 1 by omega]
    exact copyBack_one [] letter (9 + more.toNat)
  rw [hrun] at hcopy
  simp only [decompress, List.length_cons, decompressLoop, hliteral, hcopy, Option.bind_eq_bind,
    Option.bind_some]

end RedisHaTool.Lib.Lzf
