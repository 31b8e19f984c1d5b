import Mathlib.Computability.Language
import RedisHaTool.Lib.Reader

/-!
# What a reader recognizes

The inputs on which a reader has an answer are those that begin with something of a
kind, and that is what it takes. What is left may play a part in that, as it does for
a reader that goes on after a failure. Mostly it plays none, and the kind is a
language over bytes. The language of a reader is found from those of its parts, by
one rule for each way they are put together.
-/

namespace RedisHaTool.Lib

variable {ε α β ι κ : Type}

/-- The encodings of a kind of thing. -/
def encodings (enc : ι → Bytes) : Language UInt8 := {bs | ∃ x, bs = enc x}

theorem mem_encodings (enc : ι → Bytes) (x : ι) : enc x ∈ encodings enc := ⟨x, rfl⟩

/-- One thing and then another. -/
theorem encodings_mul (enc : ι → Bytes) (enc' : κ → Bytes) :
    encodings enc * encodings enc' = encodings fun x : ι × κ => enc x.1 ++ enc' x.2 := by
  refine Set.ext fun bs => ?_
  constructor
  · intro h
    obtain ⟨_, ⟨x, rfl⟩, _, ⟨y, rfl⟩, rfl⟩ := Language.mem_mul.1 h
    exact ⟨(x, y), rfl⟩
  · rintro ⟨⟨x, y⟩, rfl⟩
    exact Language.append_mem_mul (mem_encodings enc x) (mem_encodings enc' y)

/-- The reader has an answer exactly over what `T` relates to what is left. -/
def Recognizes (m : ByteReader ε α) (T : Bytes → Bytes → Prop) : Prop :=
  ∀ bs rest, (∃ a, m bs = .ok a rest) ↔ ∃ taken, bs = taken ++ rest ∧ T taken rest

/-- Whatever is left. -/
abbrev RecognizesIn (m : ByteReader ε α) (L : Language UInt8) : Prop :=
  Recognizes m fun taken _ => taken ∈ L

section Rules

variable {m : ByteReader ε α} {f : α → ByteReader ε β} {T T' : Bytes → Bytes → Prop}
  {L K : Language UInt8}

theorem Recognizes.congr (h : Recognizes m T) (hT : ∀ taken left, T taken left ↔ T' taken left) :
    Recognizes m T' := by
  have heq : T = T' := funext fun taken => funext fun left => propext (hT taken left)
  exact heq ▸ h

/-- The bytes of one thing. -/
theorem RecognizesIn.of_reads {enc : ι → Bytes} (hreads : ∀ x, ∃ a, Reads m (enc x) a)
    (hok : ∀ bs a rest, m bs = .ok a rest → ∃ x, bs = enc x ++ rest) :
    RecognizesIn m (encodings enc) := by
  intro bs rest
  constructor
  · rintro ⟨a, h⟩
    obtain ⟨x, rfl⟩ := hok bs a rest h
    exact ⟨enc x, rfl, x, rfl⟩
  · rintro ⟨_, rfl, x, rfl⟩
    obtain ⟨a, hreads⟩ := hreads x
    exact ⟨a, hreads rest⟩

theorem RecognizesIn.pure (a : α) : RecognizesIn (pure a : ByteReader ε α) 1 := by
  intro bs rest
  constructor
  · rintro ⟨b, h⟩
    rw [pure_apply] at h
    cases h
    exact ⟨[], rfl, Language.nil_mem_one⟩
  · rintro ⟨taken, rfl, htaken⟩
    rw [(Language.mem_one taken).1 htaken]
    exact ⟨a, rfl⟩

/-- A reader that never answers. -/
theorem Recognizes.never (h : ∀ bs a rest, m bs ≠ .ok a rest) : Recognizes m fun _ _ => False := by
  intro bs rest
  constructor
  · rintro ⟨a, heq⟩
    exact absurd heq (h bs a rest)
  · rintro ⟨_, -, hfalse⟩
    exact hfalse.elim

theorem RecognizesIn.bind (hm : RecognizesIn m L) (hf : ∀ a, Recognizes (f a) T) :
    Recognizes (m >>= f) fun taken left => ∃ x ∈ L, ∃ y, taken = x ++ y ∧ T y left := by
  intro bs rest
  constructor
  · rintro ⟨b, h⟩
    obtain ⟨a, mid, ha, hb⟩ := bind_eq_ok.1 h
    obtain ⟨x, rfl, hx⟩ := (hm bs mid).1 ⟨a, ha⟩
    obtain ⟨y, rfl, hy⟩ := (hf a mid rest).1 ⟨b, hb⟩
    exact ⟨x ++ y, (List.append_assoc ..).symm, x, hx, y, rfl, hy⟩
  · rintro ⟨_, rfl, x, hx, y, rfl, hy⟩
    obtain ⟨a, ha⟩ := (hm (x ++ (y ++ rest)) (y ++ rest)).2 ⟨x, rfl, hx⟩
    obtain ⟨b, hb⟩ := (hf a (y ++ rest) rest).2 ⟨y, rfl, hy⟩
    exact ⟨b, by rw [List.append_assoc]; exact (bind_of_ok ha).trans hb⟩

theorem RecognizesIn.mul (hm : RecognizesIn m L) (hf : ∀ a, RecognizesIn (f a) K) :
    RecognizesIn (m >>= f) (L * K) := by
  refine (hm.bind hf).congr fun taken _ => ?_
  rw [Language.mem_mul]
  constructor
  · rintro ⟨x, hx, y, rfl, hy⟩
    exact ⟨x, hx, y, hy, rfl⟩
  · rintro ⟨x, hx, y, hy, rfl⟩
    exact ⟨x, hx, y, rfl, hy⟩

/-- The last step often takes nothing more. -/
theorem Recognizes.bind_pure {g : α → β} (hm : Recognizes m T) :
    Recognizes (do let a ← m; pure (g a)) T := by
  intro bs rest
  constructor
  · rintro ⟨b, h⟩
    obtain ⟨a, mid, ha, hpure⟩ := bind_eq_ok.1 h
    cases hpure
    exact (hm bs rest).1 ⟨a, ha⟩
  · intro h
    obtain ⟨a, ha⟩ := (hm bs rest).2 h
    exact ⟨g a, bind_of_ok ha⟩

/-- So many rounds, whatever is passed along. -/
theorem RecognizesIn.times {body : β → ByteReader ε β} {enc : ι → Bytes}
    (h : ∀ b, RecognizesIn (body b) (encodings enc)) (n : Nat) (b : β) :
    RecognizesIn (forCount body n b)
      {bs | ∃ items : List ι, n = items.length ∧ bs = items.flatMap enc} := by
  induction n generalizing b with
  | zero =>
      refine (RecognizesIn.pure b).congr fun taken _ => ?_
      constructor
      · rintro rfl
        exact ⟨[], rfl, rfl⟩
      · rintro ⟨items, hlen, rfl⟩
        rw [List.eq_nil_of_length_eq_zero hlen.symm]
        rfl
  | succ n ih =>
      refine ((h b).bind ih).congr fun taken _ => ?_
      constructor
      · rintro ⟨_, ⟨x, rfl⟩, _, rfl, items, rfl, rfl⟩
        exact ⟨x :: items, rfl, List.flatMap_cons.symm⟩
      · rintro ⟨items, hlen, rfl⟩
        cases items with
        | nil => cases hlen
        | cons x items =>
            exact ⟨enc x, ⟨x, rfl⟩, _, List.flatMap_cons, items, Nat.succ.inj hlen, rfl⟩

/-- Rounds that go on over one thing each, and one that ends the loop. -/
theorem RecognizesIn.loopInput {body : ByteReader ε (Option α)} {enc : ι → Bytes}
    {last : κ → Bytes} (hne : ∀ x, enc x ≠ [])
    (hreads : ∀ x, Reads body (enc x) none) (hlast : ∀ y, ∃ a, Reads body (last y) (some a))
    (hok : ∀ bs r rest, body bs = .ok r rest →
      (r = none ∧ ∃ x, bs = enc x ++ rest) ∨ ∃ a y, r = some a ∧ bs = last y ++ rest) :
    RecognizesIn (Lib.loopInput body)
      (encodings fun rounds : List ι × κ => rounds.1.flatMap enc ++ last rounds.2) := by
  refine .of_reads (fun (items, y) => ?_) fun bs a rest h => ?_
  · obtain ⟨a, ha⟩ := hlast y
    exact ⟨a, Reads.loopInput (fun x _ => hne x) (fun x _ => hreads x) ha⟩
  · have hfuel : ∀ n bs, Lib.loopFuel body n bs = .ok a rest →
        ∃ rounds : List ι × κ, bs = rounds.1.flatMap enc ++ last rounds.2 ++ rest := by
      intro n
      induction n with
      | zero => exact fun bs h => by cases h
      | succ n ih =>
          intro bs h
          obtain ⟨r, mid, hround, hrest⟩ := bind_eq_ok.1 h
          rcases hok bs r mid hround with ⟨rfl, x, rfl⟩ | ⟨b, y, rfl, rfl⟩
          · obtain ⟨⟨items, y⟩, rfl⟩ := ih mid hrest
            refine ⟨(x :: items, y), ?_⟩
            simp only [List.flatMap_cons, List.append_assoc]
          · cases hrest
            exact ⟨([], y), rfl⟩
    exact hfuel _ bs h

end Rules

end RedisHaTool.Lib
