import RedisHaTool.Lib.Plain

/-!
# Truncated input

What a plain reader does on the beginning of an input, against what it does on
the whole of it. There are two cases only. Either it does the same, whatever
that is, and what follows is left besides; or it came to need more than there
was, so it has taken everything and fails.
-/

namespace RedisHaTool.Lib

variable {ε α β : Type}

/-- The same ending, with more of the input left. -/
def withMore (tail : Bytes) :
    EStateM.Result (Fault ε) Bytes α → EStateM.Result (Fault ε) Bytes α
  | .ok a rest => .ok a (rest ++ tail)
  | .error e rest => .error e (rest ++ tail)

/-- The end of the input was met: the code fails, and there is nothing left. -/
def RanOut (r : EStateM.Result (Fault ε) Bytes α) : Prop :=
  ∃ e, r = .error (.err e) []

/-- What follows the input matters to the reader only if it runs out of it. -/
def Steady (m : ByteReader ε α) : Prop :=
  ∀ bs tail, RanOut (m bs) ∨ m (bs ++ tail) = withMore tail (m bs)

/-- An answer over the whole is one over the beginning, unless that runs out. -/
theorem Steady.of_ok {m : ByteReader ε α} (h : Steady m) {bs tail rest : Bytes} {a : α}
    (heq : m (bs ++ tail) = .ok a rest) :
    (∃ left, m bs = .ok a left ∧ rest = left ++ tail) ∨ RanOut (m bs) := by
  rcases h bs tail with hout | hsame
  · exact Or.inr hout
  · left
    have hwhole : withMore tail (m bs) = .ok a rest := hsame.symm.trans heq
    cases hbs : m bs with
    | error e left =>
        rw [hbs] at hwhole
        cases hwhole
    | ok b left =>
        rw [hbs] at hwhole
        obtain ⟨rfl, rfl⟩ := EStateM.Result.ok.inj hwhole
        exact ⟨left, rfl, rfl⟩

theorem Steady.pure (a : α) : Steady (pure a : ByteReader ε α) :=
  fun _ _ => Or.inr rfl

theorem Steady.throw (e : Fault ε) : Steady (throw e : ByteReader ε α) :=
  fun _ _ => Or.inr rfl

theorem Steady.u8 (eof : ε) : Steady (readU8 eof) := by
  intro bs tail
  cases bs with
  | nil => exact Or.inl ⟨eof, rfl⟩
  | cons b bs => exact Or.inr rfl

theorem Steady.exact (eof : ε) (n : Nat) : Steady (readExact eof n) := by
  intro bs tail
  by_cases hlen : bs.length < n
  · left
    exact ⟨eof, by rw [readExact, if_pos hlen]⟩
  · right
    have hle : n ≤ bs.length := by omega
    have hlonger : ¬ (bs ++ tail).length < n := by
      rw [List.length_append]
      omega
    rw [readExact, readExact, if_neg hlen, if_neg hlonger, List.take_append_of_le_length hle,
      List.drop_append_of_le_length hle]
    rfl

theorem Steady.bind {m : ByteReader ε α} {f : α → ByteReader ε β} (hm : Steady m)
    (hf : ∀ a, Steady (f a)) : Steady (m >>= f) := by
  intro bs tail
  rcases hm bs tail with ⟨e, h⟩ | h
  · left
    exact ⟨e, bind_of_error h⟩
  · cases hbs : m bs with
    | error e rest =>
        rw [hbs] at h
        right
        rw [bind_of_error hbs, bind_of_error h]
        rfl
    | ok a rest =>
        rw [hbs] at h
        rw [bind_of_ok hbs, bind_of_ok h]
        exact hf a rest tail

/-- The two loops go round in step, so each may have any budget that is enough
for it. The induction is on the budget over the shorter input. -/
theorem Steady.loopFuel {body : ByteReader ε (Option α)} (hbody : Steady body)
    (htakes : ∀ bs a rest, body bs = .ok a rest → rest.length < bs.length) {n k : Nat}
    {bs tail : Bytes} (hn : bs.length < n) (hk : (bs ++ tail).length < k) :
    RanOut (Lib.loopFuel body n bs) ∨
      Lib.loopFuel body k (bs ++ tail) = withMore tail (Lib.loopFuel body n bs) := by
  induction n generalizing k bs with
  | zero => omega
  | succ n ih =>
      obtain ⟨j, rfl⟩ : ∃ j, k = j + 1 := ⟨k - 1, by omega⟩
      rw [Lib.loopFuel, Lib.loopFuel]
      rcases hbody bs tail with ⟨e, h⟩ | h
      · left
        exact ⟨e, bind_of_error h⟩
      · cases hbs : body bs with
        | error e rest =>
            rw [hbs] at h
            right
            rw [bind_of_error hbs, bind_of_error h]
            rfl
        | ok r rest =>
            have hlt := htakes bs r rest hbs
            rw [hbs] at h
            rw [bind_of_ok hbs, bind_of_ok h]
            cases r with
            | some a => exact Or.inr rfl
            | none =>
                rw [List.length_append] at hk
                refine ih (by omega) ?_
                rw [List.length_append]
                omega

theorem Plain.steady {m : ByteReader ε α} (h : Plain m) : Steady m := by
  induction h with
  | pure a => exact Steady.pure a
  | throw he => exact Steady.throw _
  | u8 eof => exact Steady.u8 eof
  | exact eof n => exact Steady.exact eof n
  | bind _ _ hm hf => exact hm.bind hf
  | loopInput _ htakes h =>
      intro bs tail
      exact h.loopFuel htakes (Nat.lt_succ_self _) (Nat.lt_succ_self _)

end RedisHaTool.Lib
