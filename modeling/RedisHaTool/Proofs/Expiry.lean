import Mathlib.Algebra.Order.Group.Int
import Mathlib.Algebra.Order.Group.Abs
import RedisHaTool.Proofs.Keyspace

/-!
# How long a restored key lives

The time to live is rounded down to milliseconds, and 0 where the entry has
expired. So it is 0 up to a millisecond before the entry expires too, and to the
target that is no expiry. What is too long for an `i64` wraps.
-/

namespace RedisHaTool.Syncer

open Lib Rdb Resp

/-! ## The time to live -/

theorem ttlMs_expired {e now : SystemTime} (h : e ≤ now) : ttlMs (some e) now = 0 :=
  if_neg (Nat.not_lt.2 h)

/-- The time that is left, in whole milliseconds, up to what an `i64` drops. -/
theorem ttlMs_left {e now : Nat} (h : now < e) :
    ∃ k : Int, ((e - now) / millisecond : Nat) = ttlMs (some e) now + 2 ^ 64 * k ∧
      -2 ^ 63 ≤ ttlMs (some e) now ∧ ttlMs (some e) now < 2 ^ 63 := by
  have hms : ttlMs (some e) now = asSigned 64 ((e - now) / millisecond % 2 ^ 64) := if_pos h
  obtain ⟨k, hk⟩ := exists_asSigned_mod 64 ((e - now) / millisecond)
  have hmem : (e - now) / millisecond % 2 ^ 64 < 2 ^ 64 :=
    Nat.mod_lt _ (Nat.two_pow_pos 64)
  rw [hms]
  exact ⟨k, hk, asSigned_mem (by decide) hmem⟩

theorem inTime_some_iff {e now : Nat} (h : now < e) :
    InTime (some e) now (ttlMs (some e) now) ↔
      now + millisecond ≤ e ∧ (e - now) / millisecond < 2 ^ 63 := by
  obtain ⟨k, hk, hlow, hhigh⟩ := ttlMs_left h
  obtain ⟨q, r, hq, hsplit, hrest⟩ : ∃ q r : Nat, (e - now) / millisecond = q ∧
      now + (1000000 * q + r) = e ∧ r < 1000000 := by
    refine ⟨_, (e - now) % millisecond, rfl, ?_, Nat.mod_lt _ (by decide)⟩
    have hleft := Nat.div_add_mod (e - now) millisecond
    exact (congrArg (now + ·) hleft).trans (Nat.add_sub_of_le (Nat.le_of_lt h))
  rw [hq] at hk ⊢
  generalize ttlMs (some e) now = ttl at hk hlow hhigh ⊢
  constructor
  · rintro ⟨hpersistent, hnear⟩
    have hne : ttl ≠ 0 := fun h0 => by cases hpersistent h0
    have hlate : now + millisecond ≤ e := by
      rw [millisecond]
      omega
    have hclose := abs_le.1 (hnear e rfl hlate)
    rw [millisecond] at hclose
    exact ⟨hlate, by omega⟩
  · rintro ⟨hlate, hfits⟩
    have httl : ttl = q := by omega
    rw [millisecond] at hlate
    refine ⟨fun h0 => absurd h0 (by omega), fun e' he' _ => ?_⟩
    obtain rfl := Option.some.inj he'
    rw [abs_le, millisecond]
    omega

theorem inTime_ttlMs_iff (expire : Option SystemTime) (now : SystemTime) :
    InTime expire now (ttlMs expire now) ↔ TtlFits expire now := by
  cases expire with
  | none =>
      constructor
      · intro _ e he
        cases he
      · intro _
        exact ⟨fun _ => rfl, fun e he => by cases he⟩
  | some e =>
      rcases Nat.lt_or_ge now e with hlt | hge
      · rw [inTime_some_iff hlt]
        constructor
        · rintro h e' he'
          obtain rfl := Option.some.inj he'
          exact h
        · intro h
          exact h e rfl
      · constructor
        · intro h
          cases h.persistent (ttlMs_expired hge)
        · intro h
          have hlate : e + millisecond ≤ e :=
            Nat.le_trans (Nat.add_le_add_right hge millisecond) (h e rfl).1
          exact absurd hlate (Nat.not_le.2 (Nat.lt_add_of_pos_right (by decide)))

/-! ## The command -/

section Command

variable {entry : BinEntry} {rdbVersion db : Nat} {key payload : Bytes} {args : List Bytes}
  {ttl : Int} {turn : Turn} {turns : List Turn}

/-- A `RESTORE` that went out has the time to live that the clock gave. -/
theorem ttl_of_carries (hpayload : generateDumpPayload entry rdbVersion = some payload)
    (h : Carries 0 (final (sendRestoreCommand entry rdbVersion
        { turns := turn :: turns, exchanges := [] })).sent db
      (restoreName :: key :: asBytes (intToString ttl) :: args)) :
    ttl = ttlMs entry.expire turn.now := by
  have hrun : sendRestoreCommand entry rdbVersion { turns := turn :: turns, exchanges := [] }
      = sendChecked (restoreWords entry payload turn.now) (restoreFailed entry)
          { turns := turn :: turns, exchanges := [] } := sendRestoreCommand_at hpayload _
  have hwords : Carries 0 (encodeStream [restoreWords entry payload turn.now]) db
      (restoreName :: key :: asBytes (intToString ttl) :: args) := by
    rcases sendChecked_sent (restoreWords entry payload turn.now) (restoreFailed entry)
        { turns := turn :: turns, exchanges := [] } with
      ⟨e, t, heq, hsent | hsent⟩ | ⟨t, heq, hsent⟩
    · have hnone : t.sent = [] := hsent
      rw [hrun.trans heq, final, hnone] at h
      exact absurd h not_carries_nil
    · rw [hrun.trans heq, final, hsent] at h
      exact h
    · rw [hrun.trans heq, final, hsent] at h
      exact h
  rcases carries_cons.1 hwords with ⟨heq, -⟩ | hrest
  · have hword := (List.cons.inj (List.cons.inj (List.cons.inj heq).2).2).1
    exact intToString_injective (asBytes_injective hword)
  · exact absurd hrest not_carries_nil

theorem carries_ttl (hpayload : generateDumpPayload entry rdbVersion = some payload)
    (now : SystemTime) :
    Carries 0 (final (sendRestoreCommand entry rdbVersion
        { turns := [{ okTurn with now }], exchanges := [] })).sent 0
      (restoreWords entry payload now) := by
  have hrun : sendRestoreCommand entry rdbVersion
        { turns := [{ okTurn with now }], exchanges := [] }
      = sendChecked (restoreWords entry payload now) (restoreFailed entry)
          { turns := [{ okTurn with now }], exchanges := [] } := sendRestoreCommand_at hpayload _
  have hsent : (final (sendChecked (restoreWords entry payload now) (restoreFailed entry)
      { turns := [{ okTurn with now }], exchanges := [] })).sent
        = encodeStream [restoreWords entry payload now] := rfl
  rw [hrun, hsent]
  exact carries_cons.2 (Or.inl ⟨rfl, rfl⟩)

end Command

/-- What goes out for an entry lives as long as the entry if and only if that is
a millisecond at least, and not too many of them. -/
theorem restoresInTime_iff (entry : BinEntry) (rdbVersion : Nat) (now : SystemTime) :
    RestoresInTime entry rdbVersion now ↔
      entry.rawValue.getD [] = [] ∨ TtlFits entry.expire now := by
  cases hpayload : generateDumpPayload entry rdbVersion with
  | none =>
      refine ⟨fun _ => Or.inl (payload_none_iff.1 hpayload), ?_⟩
      intro _ turn turns db key ttl args _ hcarries
      rw [sendRestoreCommand_none hpayload] at hcarries
      exact absurd hcarries not_carries_nil
  | some payload =>
      rw [← inTime_ttlMs_iff]
      constructor
      · intro h
        exact Or.inr (h { okTurn with now } [] 0 entry.key (ttlMs entry.expire now) _ rfl
          (carries_ttl hpayload now))
      · rintro (hraw | h) turn turns db key ttl args rfl hcarries
        · cases hpayload.symm.trans (payload_none_iff.2 hraw)
        · rw [ttl_of_carries hpayload hcarries]
          exact h

/-- A key that expires. -/
def expiringEntry : BinEntry :=
  { db := 0, key := [0x61], value := [], rawValue := some [1, 0x78],
    expire := some (epochPlusMillis 1700000000000), rdbType := .string }

/-- Half a millisecond before, the key is made one that stays. -/
theorem not_restoresInTime :
    ¬ RestoresInTime expiringEntry 9 (epochPlusMillis 1699999999999 + 500000) := by
  intro h
  have hpayload : generateDumpPayload expiringEntry 9
      = some (withCrc (dumpBody .string [1, 0x78] 9)) := rfl
  have hintime := h { okTurn with now := epochPlusMillis 1699999999999 + 500000 } [] 0 [0x61] _ _
    rfl (carries_ttl hpayload _)
  have hzero : ttlMs expiringEntry.expire (epochPlusMillis 1699999999999 + 500000) = 0 := by
    decide
  cases hintime.persistent hzero

end RedisHaTool.Syncer
