import RedisHaTool.Lib.Budget

/-!
# Plain readers

A reader put together from the primitive ones, in sequence and in loops, and
that never catches an error. Whatever the format, it is not stopped for want of
budget, and leaves no more of the input than it was given.
-/

namespace RedisHaTool.Lib

variable {ε α β : Type}

/-- Put together from the primitive readers. A loop without a count takes
something in each of its rounds. -/
inductive Plain : {α : Type} → ByteReader ε α → Prop where
  | pure {α : Type} (a : α) : Plain (pure a)
  | throw {α : Type} {e : Fault ε} (he : e ≠ .fuel) : Plain (throw e : ByteReader ε α)
  | u8 (eof : ε) : Plain (readU8 eof)
  | exact (eof : ε) (n : Nat) : Plain (readExact eof n)
  | bind {α β : Type} {m : ByteReader ε α} {f : α → ByteReader ε β} (hm : Plain m)
      (hf : ∀ a, Plain (f a)) : Plain (m >>= f)
  | loopInput {α : Type} {body : ByteReader ε (Option α)} (h : Plain body)
      (htakes : ∀ bs a rest, body bs = .ok a rest → rest.length < bs.length) :
      Plain (loopInput body)

theorem Plain.forCount {body : β → ByteReader ε β} (h : ∀ b, Plain (body b)) (n : Nat)
    (b : β) : Plain (Lib.forCount body n b) := by
  induction n generalizing b with
  | zero => exact .pure b
  | succ n ih => exact .bind (h b) ih

/-! ## The budget -/

theorem Plain.bounded {m : ByteReader ε α} (h : Plain m) : BoundedReader m := by
  induction h with
  | pure a => exact Bounded.pure a
  | throw he => exact Bounded.throw he
  | u8 eof => exact (progress_readU8 eof).1
  | exact eof n => exact bounded_readExact eof n
  | bind _ _ hm hf => exact hm.bind hf
  | loopInput _ htakes h => exact bounded_loopInput ⟨h, htakes⟩

/-- A plain reader whose answers have taken something. -/
structure Taking (m : ByteReader ε α) : Prop where
  plain : Plain m
  takes : ∀ bs a rest, m bs = .ok a rest → rest.length < bs.length

theorem Taking.u8 (eof : ε) : Taking (readU8 eof) :=
  ⟨.u8 eof, (progress_readU8 eof).2⟩

/-- A first step that takes something is enough. -/
theorem Taking.bind {m : ByteReader ε α} {f : α → ByteReader ε β} (hm : Taking m)
    (hf : ∀ a, Plain (f a)) : Taking (m >>= f) := by
  have hprogress : ProgressReader m := ⟨hm.plain.bounded, hm.takes⟩
  exact ⟨hm.plain.bind hf, (hprogress.bind fun a => (hf a).bounded).2⟩

theorem Taking.loopInput {body : ByteReader ε (Option α)} (h : Taking body) :
    Plain (Lib.loopInput body) :=
  .loopInput h.plain h.takes

end RedisHaTool.Lib
