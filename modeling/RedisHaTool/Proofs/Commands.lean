import RedisHaTool.Proofs.RespRoundTrip
import RedisHaTool.Resp.Command

/-!
# Taking commands apart

`encode_command` puts together what `as_command` has taken apart. Since only the
arguments that are bulk strings are kept, it gives back the value's encoding
exactly where all of them are.
-/

namespace RedisHaTool.Resp

open Lib

/-! ## The name -/

theorem fromUtf8Lossy_encodeChar (c : Char) (bs : Bytes) :
    fromUtf8Lossy (String.utf8EncodeChar c ++ bs) = c :: fromUtf8Lossy bs := by
  have hdecode : (ByteArray.mk (String.utf8EncodeChar c ++ bs).toArray).utf8DecodeChar? 0 =
      some c := by
    have happend : ByteArray.mk (String.utf8EncodeChar c ++ bs).toArray =
        (String.utf8EncodeChar c).toByteArray ++ ByteArray.mk bs.toArray := by
      apply ByteArray.ext
      simp
    rw [happend]
    exact ByteArray.utf8DecodeChar?_utf8EncodeChar_append
  have hdrop : (String.utf8EncodeChar c ++ bs).drop c.utf8Size = bs := by
    rw [← String.length_utf8EncodeChar, List.drop_left]
  cases hchar : String.utf8EncodeChar c ++ bs with
  | nil =>
      have hlen := congrArg List.length hchar
      have hpos := c.utf8Size_pos
      rw [List.length_append, String.length_utf8EncodeChar, List.length_nil] at hlen
      omega
  | cons b rest =>
      rw [hchar] at hdecode hdrop
      rw [fromUtf8Lossy, hdecode]
      show c :: fromUtf8Lossy ((b :: rest).drop c.utf8Size) = _
      rw [hdrop]

/-- Nothing is lost of what is text. -/
theorem fromUtf8Lossy_asBytes (t : Text) : fromUtf8Lossy (asBytes t) = t := by
  induction t with
  | nil => rw [asBytes_nil, fromUtf8Lossy]
  | cons c t ih => rw [asBytes_cons, fromUtf8Lossy_encodeChar, ih]

theorem asBytes_fromUtf8Lossy {bs : Bytes} (h : (fromUtf8 bs).isSome = true) :
    asBytes (fromUtf8Lossy bs) = bs := by
  obtain ⟨t, ht⟩ := Option.isSome_iff_exists.1 h
  rw [asBytes_of_fromUtf8 ht, fromUtf8Lossy_asBytes]

/-! ## The arguments -/

theorem asBulkString_eq_some {v : RespValue} {s : Bytes} (h : v.asBulkString = some s) :
    v = .bulkString s := by
  cases v with
  | bulkString t => rw [Option.some.inj h]
  | simpleString | error | integer | array | null => cases h

/-- What a command was taken apart from. -/
theorem asCommand_eq_some {v : RespValue} {cmd : Text} {args : List Bytes}
    (hname : v.NameIsText) (h : v.asCommand = some (cmd, args)) :
    v = .array (.bulkString (asBytes cmd) :: v.arguments) ∧
      args = v.arguments.filterMap RespValue.asBulkString := by
  rw [RespValue.asCommand.eq_def] at h
  split at h
  · next name elements =>
      obtain ⟨cmdName, hbulk, hpair⟩ := Option.map_eq_some_iff.1 h
      obtain rfl := asBulkString_eq_some hbulk
      obtain ⟨rfl, rfl⟩ := Prod.mk.inj hpair
      rw [asBytes_fromUtf8Lossy hname]
      exact ⟨rfl, rfl⟩
  · cases h

theorem map_filterMap_asBulkString {vs : List RespValue} (h : ∀ v ∈ vs, v.isBulkString = true) :
    (vs.filterMap RespValue.asBulkString).map RespValue.bulkString = vs := by
  induction vs with
  | nil => rfl
  | cons v vs ih =>
      obtain ⟨s, hs⟩ := Option.isSome_iff_exists.1 (h v List.mem_cons_self)
      rw [List.filterMap_cons_some hs, List.map_cons,
        ih fun w hw => h w (List.mem_cons_of_mem v hw), asBulkString_eq_some hs]

/-- A command that is taken apart and encoded again is the same command exactly
where all its arguments are bulk strings: the count in front tells the number of
the others. -/
theorem encodeCommand_asCommand_iff {v : RespValue} {cmd : Text} {args : List Bytes}
    (hname : v.NameIsText) (h : v.asCommand = some (cmd, args)) :
    encodeCommand cmd args = encode v ↔ ∀ arg ∈ v.arguments, arg.isBulkString = true := by
  obtain ⟨hv, hargs⟩ := asCommand_eq_some hname h
  generalize v.arguments = elements at hv hargs
  subst hv hargs
  constructor
  · intro hsame
    rw [encodeCommand, encode, encode, encodeValue_array, encodeValue_array] at hsame
    have hcount := asBytes_injective
      (line_append_inj (noCrlf_natToString _) (noCrlf_natToString _) hsame).1
    have hlen := natToString_injective hcount
    rw [List.length_cons, List.length_cons, List.length_map] at hlen
    exact List.filterMap_length_eq_length.1 (Nat.succ.inj hlen)
  · intro hbulk
    rw [encodeCommand, map_filterMap_asBulkString hbulk]

/-- Two arguments, both bulk strings. -/
theorem encodeCommand_asCommand_set :
    encodeCommand "SET".toList [[107], [118]] =
        encode (.array [.bulkString [83, 69, 84], .bulkString [107], .bulkString [118]]) ↔
      ∀ arg ∈ [RespValue.bulkString [107], .bulkString [118]], arg.isBulkString = true := by
  have hname : asBytes "SET".toList = [83, 69, 84] := by decide
  rw [← hname]
  refine encodeCommand_asCommand_iff (v := .array _) ?_ ?_
  · show (fromUtf8 _).isSome = true
    rw [fromUtf8_asBytes]
    rfl
  · show some (fromUtf8Lossy _, _) = _
    rw [fromUtf8Lossy_asBytes]
    rfl

/-- A null between the name and the value is dropped. -/
theorem asCommand_drops_null :
    RespValue.asCommand (.array [.bulkString (asBytes "SET".toList), .null, .bulkString [118]]) =
        some ("SET".toList, [[118]]) ∧
      encodeCommand "SET".toList [[118]] ≠
        encode (.array [.bulkString (asBytes "SET".toList), .null, .bulkString [118]]) := by
  constructor
  · show some (fromUtf8Lossy _, _) = _
    rw [fromUtf8Lossy_asBytes]
    rfl
  · decide +kernel

end RedisHaTool.Resp
