import RedisHaTool.Lib.Text

/-!
# Fallible code over a byte input

Code that reads a stream is a state monad with errors, and the core library's
`EStateM` is that monad. Two kinds of ending are kept apart from the code's own
errors: a panic, which no `Err` arm catches, and an exhausted loop budget, which
belongs to the model alone.

The relation everything about a format is proved with is `Reads p bs a`: on any
input that starts with `bs` the reader `p` takes exactly those bytes and answers
`a`. Because what follows is arbitrary, `Reads` composes along `>>=` by
concatenating the bytes, and the two loop rules lift it to a list of items, so a
round trip over a whole format is assembled from one fact per field.
-/

namespace RedisHaTool.Lib

/-- How a computation ends other than with a value. -/
inductive Fault (ε : Type) where
  /-- The code's own `Err`. -/
  | err (e : ε)
  /-- A panic. -/
  | panic
  /-- A loop of the model used up its budget. -/
  | fuel
  deriving DecidableEq, Repr

section Monad

variable {ε σ α β : Type} {x : EStateM ε σ α} {f : α → EStateM ε σ β}

theorem bind_of_ok {s s' : σ} {a : α} (h : x s = .ok a s') :
    (x >>= f) s = f a s' := by
  simp only [bind, EStateM.bind, h]

theorem bind_of_error {s s' : σ} {e : ε} (h : x s = .error e s') :
    (x >>= f) s = .error e s' := by
  simp only [bind, EStateM.bind, h]

/-- A sequence answers only if both halves do. -/
theorem bind_eq_ok {s s' : σ} {b : β} :
    (x >>= f) s = .ok b s' ↔ ∃ a t, x s = .ok a t ∧ f a t = .ok b s' := by
  cases h : x s with
  | ok a t =>
      rw [bind_of_ok h]
      constructor
      · intro hf; exact ⟨a, t, rfl, hf⟩
      · rintro ⟨a', t', heq, hf⟩
        cases heq
        exact hf
  | error e t =>
      rw [bind_of_error h]
      constructor
      · intro hf; cases hf
      · rintro ⟨a', t', heq, -⟩; cases heq

/-- The answer, if there is one. -/
def answer : EStateM.Result ε σ α → Option α
  | .ok a _ => some a
  | .error _ _ => none

/-- The state that is left. -/
def final : EStateM.Result ε σ α → σ
  | .ok _ s => s
  | .error _ s => s

theorem eq_ok_of_answer {r : EStateM.Result ε σ α} {a : α} (h : answer r = some a) :
    r = .ok a (final r) := by
  cases r with
  | ok b s =>
      cases h
      rfl
  | error e s => cases h

/-! Running the primitives, for evaluating straight-line code by `simp only`. -/

theorem bind_apply (s : σ) :
    (x >>= f) s = match x s with
      | .ok a t => f a t
      | .error e t => .error e t := rfl

theorem pure_apply (a : α) (s : σ) :
    (pure a : EStateM ε σ α) s = .ok a s := rfl

theorem throw_apply (e : ε) (s : σ) :
    (throw e : EStateM ε σ α) s = .error e s := rfl

theorem get_apply (s : σ) : (get : EStateM ε σ σ) s = .ok s s := rfl

theorem set_apply (s t : σ) :
    (set t : EStateM ε σ PUnit) s = .ok PUnit.unit t := rfl

end Monad

/-! ## Loops -/

/-- `for _ in 0..n`, with the variables the body updates passed along. -/
def forCount {ε σ β : Type} (body : β → EStateM ε σ β) :
    Nat → β → EStateM ε σ β
  | 0, b => pure b
  | n + 1, b => do
    let b ← body b
    forCount body n b

/-- `loop`, left by the first round that answers `some`. -/
def loopFuel {ε σ α : Type} (body : EStateM (Fault ε) σ (Option α)) :
    Nat → EStateM (Fault ε) σ α
  | 0 => throw .fuel
  | n + 1 => do
    match ← body with
    | some a => pure a
    | none => loopFuel body n

/-! ## Postconditions -/

section Ensures

variable {ε σ α β : Type} {P : σ → Prop} {Q : α → σ → Prop}

/-- Partial correctness: if the computation answers from a state in `P`, the
answer and the state it leaves are in `Q`. -/
def Ensures (P : σ → Prop) (m : EStateM ε σ α) (Q : α → σ → Prop) : Prop :=
  ∀ s, P s → ∀ a t, m s = .ok a t → Q a t

theorem Ensures.pure {a : α} (h : ∀ s, P s → Q a s) :
    Ensures P (pure a : EStateM ε σ α) Q := by
  intro s hs b t heq
  rw [pure_apply] at heq
  cases heq
  exact h s hs

theorem Ensures.throw (e : ε) : Ensures P (throw e : EStateM ε σ α) Q := by
  intro s hs a t heq
  rw [throw_apply] at heq
  cases heq

theorem Ensures.bind {m : EStateM ε σ α} {f : α → EStateM ε σ β} {R : β → σ → Prop}
    (hm : Ensures P m Q) (hf : ∀ a, Ensures (Q a) (f a) R) : Ensures P (m >>= f) R := by
  intro s hs b t heq
  obtain ⟨a, u, ha, hb⟩ := bind_eq_ok.1 heq
  exact hf a u (hm s hs a u ha) b t hb

/-- The last step, when nothing about the first one matters. -/
theorem Ensures.bind_any {m : EStateM ε σ α} {f : α → EStateM ε σ β} {R : β → σ → Prop}
    (hf : ∀ a, Ensures (fun _ => True) (f a) R) :
    Ensures (fun _ => True) (m >>= f) R :=
  Ensures.bind (fun _ _ _ _ _ => trivial) hf

theorem Ensures.mono {m : EStateM ε σ α} {R : α → σ → Prop} (h : Ensures P m Q)
    (hQ : ∀ a s, Q a s → R a s) : Ensures P m R :=
  fun s hs a t heq => hQ a t (h s hs a t heq)

/-- A fact that has nothing to do with the state is a hypothesis. -/
theorem Ensures.assume {m : EStateM ε σ α} {H : Prop} (h : H → Ensures P m Q) :
    Ensures (fun s => H ∧ P s) m Q :=
  fun s hs => h hs.1 s hs.2

/-- What is read of the state is known of it. -/
theorem Ensures.get_read : Ensures P (get : EStateM ε σ σ) fun a s => P a ∧ P s := by
  intro s hs a t heq
  rw [get_apply] at heq
  cases heq
  exact ⟨hs, hs⟩

theorem Ensures.get : Ensures P (get : EStateM ε σ σ) fun _ s => P s := by
  intro s hs a t heq
  rw [get_apply] at heq
  cases heq
  exact hs

/-- An invariant of the body is one of the counted loop. -/
theorem Ensures.forCount {body : β → EStateM ε σ β} {I : β → σ → Prop}
    (h : ∀ b, Ensures (I b) (body b) I) (n : Nat) (b : β) :
    Ensures (I b) (Lib.forCount body n b) I := by
  induction n generalizing b with
  | zero => exact Ensures.pure fun _ hs => hs
  | succ n ih => exact (h b).bind ih

/-- A loop keeps what each round that goes on keeps, and answers what the round
that ends it does. -/
theorem Ensures.loopFuel {body : EStateM (Fault ε) σ (Option α)}
    (h : Ensures P body fun r s => (r = none → P s) ∧ ∀ a, r = some a → Q a s)
    (n : Nat) : Ensures P (Lib.loopFuel body n) Q := by
  induction n with
  | zero => exact Ensures.throw _
  | succ n ih =>
      refine h.bind fun r => ?_
      cases r with
      | none => exact fun s hs => ih s (hs.1 rfl)
      | some a => exact Ensures.pure fun s hs => hs.2 a rfl

end Ensures

section Raises

variable {ε σ α β : Type} {P : ε → Prop}

/-- Every error of the computation has the property. -/
def Raises (P : ε → Prop) (m : EStateM ε σ α) : Prop :=
  ∀ s e t, m s = .error e t → P e

theorem Raises.pure (a : α) : Raises P (pure a : EStateM ε σ α) := by
  intro s e t heq
  rw [pure_apply] at heq
  cases heq

theorem Raises.throw {e : ε} (h : P e) : Raises P (throw e : EStateM ε σ α) := by
  intro s e' t heq
  rw [throw_apply] at heq
  cases heq
  exact h

theorem Raises.bind {m : EStateM ε σ α} {f : α → EStateM ε σ β} (hm : Raises P m)
    (hf : ∀ a, Raises P (f a)) : Raises P (m >>= f) := by
  intro s e t heq
  cases h : m s with
  | ok a u =>
      rw [bind_of_ok h] at heq
      exact hf a u e t heq
  | error e' u =>
      rw [bind_of_error h] at heq
      cases heq
      exact hm s _ _ h

end Raises

/-! ## Reading bytes -/

section Reader

variable {ε α β : Type}

/-- A reader of a byte stream: its state is what the stream still holds. -/
abbrev ByteReader (ε α : Type) := EStateM (Fault ε) Bytes α

/-- `read_u8`; `eof` is the error of a stream that has ended. -/
def readU8 (eof : ε) : ByteReader ε UInt8
  | [] => .error (.err eof) []
  | b :: bs => .ok b bs

/-- `read_exact` into a buffer of `n` bytes. A short read has taken what there
was before it fails. -/
def readExact (eof : ε) (n : Nat) : ByteReader ε Bytes := fun bs =>
  if bs.length < n then .error (.err eof) [] else .ok (bs.take n) (bs.drop n)

/-- A `loop` each of whose rounds takes a byte or fails: the input is budget
enough for it. -/
def loopInput (body : ByteReader ε (Option α)) : ByteReader ε α := fun bs =>
  loopFuel body (bs.length + 1) bs

/-- The reader takes exactly `bs` off the front of its input and answers `a`. -/
def Reads (p : ByteReader ε α) (bs : Bytes) (a : α) : Prop :=
  ∀ rest, p (bs ++ rest) = .ok a rest

theorem Reads.pure (a : α) : Reads (pure a : ByteReader ε α) [] a :=
  fun _ => rfl

theorem Reads.bind {p : ByteReader ε α} {f : α → ByteReader ε β}
    {bs bs' : Bytes} {a : α} {b : β} (hp : Reads p bs a)
    (hf : Reads (f a) bs' b) : Reads (p >>= f) (bs ++ bs') b := by
  intro rest
  rw [List.append_assoc, bind_of_ok (hp (bs' ++ rest))]
  exact hf rest

/-- The last step of a reader often takes nothing more. -/
theorem Reads.bind_pure {p : ByteReader ε α} {f : α → ByteReader ε β}
    {bs : Bytes} {a : α} {b : β} (hp : Reads p bs a)
    (hf : Reads (f a) [] b) : Reads (p >>= f) bs b := by
  simpa using hp.bind hf

theorem Reads.u8 (eof : ε) (b : UInt8) : Reads (readU8 eof) [b] b :=
  fun _ => rfl

theorem Reads.exact (eof : ε) {n : Nat} {bs : Bytes} (h : bs.length = n) :
    Reads (readExact eof n) bs bs := by
  intro rest
  subst h
  have hlen : ¬ (bs ++ rest).length < bs.length := by simp
  rw [readExact, if_neg hlen, List.take_left, List.drop_left]

/-- One item after another, each taken by one round of a counted loop. -/
theorem Reads.forCount {ι : Type} (body : β → ByteReader ε β)
    (enc : ι → Bytes) (upd : β → ι → β) {items : List ι}
    (h : ∀ x ∈ items, ∀ b, Reads (body b) (enc x) (upd b x)) (b : β) :
    Reads (Lib.forCount body items.length b) (items.flatMap enc)
      (items.foldl upd b) := by
  induction items generalizing b with
  | nil => exact Reads.pure b
  | cons x xs ih =>
      have hx := h x List.mem_cons_self b
      have hxs := ih (fun y hy => h y (List.mem_cons_of_mem x hy)) (upd b x)
      rw [List.flatMap_cons, List.foldl_cons, List.length_cons, Lib.forCount]
      exact hx.bind hxs

/-- The other direction: where each round has taken an item, the loop has taken
as many as it was to. -/
theorem forCount_eq_ok {ι : Type} {body : β → ByteReader ε β} {enc : ι → Bytes}
    {upd : β → ι → β}
    (h : ∀ b bs b' rest, body b bs = .ok b' rest → ∃ x, bs = enc x ++ rest ∧ b' = upd b x)
    {n : Nat} {b b' : β} {bs rest : Bytes} (heq : Lib.forCount body n b bs = .ok b' rest) :
    ∃ items : List ι, items.length = n ∧ bs = items.flatMap enc ++ rest ∧
      b' = items.foldl upd b := by
  induction n generalizing b bs with
  | zero =>
      cases heq
      exact ⟨[], rfl, rfl, rfl⟩
  | succ n ih =>
      rw [Lib.forCount] at heq
      obtain ⟨b₁, mid, hround, hloop⟩ := bind_eq_ok.1 heq
      obtain ⟨x, rfl, rfl⟩ := h b bs b₁ mid hround
      obtain ⟨items, rfl, rfl, rfl⟩ := ih hloop
      exact ⟨x :: items, rfl, by rw [List.flatMap_cons, List.append_assoc], rfl⟩

/-- One item after another, each taken by a round that goes on, and then a round
that ends the loop. -/
theorem Reads.loopFuel {ι : Type} {body : ByteReader ε (Option α)}
    {enc : ι → Bytes} {items : List ι} {last : Bytes} {a : α}
    (h : ∀ x ∈ items, Reads body (enc x) none) (hlast : Reads body last (some a))
    {fuel : Nat} (hfuel : items.length < fuel) :
    Reads (Lib.loopFuel body fuel) (items.flatMap enc ++ last) a := by
  induction items generalizing fuel with
  | nil =>
      obtain ⟨k, rfl⟩ : ∃ k, fuel = k + 1 := ⟨fuel - 1, by omega⟩
      exact hlast.bind_pure (Reads.pure a)
  | cons x xs ih =>
      obtain ⟨k, rfl⟩ : ∃ k, fuel = k + 1 := ⟨fuel - 1, by omega⟩
      have hk : xs.length < k := by simpa using hfuel
      rw [List.flatMap_cons, List.append_assoc]
      exact (h x List.mem_cons_self).bind
        (ih (fun y hy => h y (List.mem_cons_of_mem x hy)) hk)

theorem length_le_flatMap {ι : Type} {enc : ι → Bytes} {items : List ι}
    (h : ∀ x ∈ items, enc x ≠ []) : items.length ≤ (items.flatMap enc).length := by
  induction items with
  | nil => simp
  | cons x xs ih =>
      have hx := List.length_pos_of_ne_nil (h x List.mem_cons_self)
      have hxs := ih fun y hy => h y (List.mem_cons_of_mem x hy)
      simp only [List.flatMap_cons, List.length_append, List.length_cons]
      omega

/-- The input itself is budget enough for a loop whose items are never empty. -/
theorem Reads.loopInput {ι : Type} {body : ByteReader ε (Option α)}
    {enc : ι → Bytes} {items : List ι} {last : Bytes} {a : α}
    (hne : ∀ x ∈ items, enc x ≠ []) (h : ∀ x ∈ items, Reads body (enc x) none)
    (hlast : Reads body last (some a)) :
    Reads (Lib.loopInput body) (items.flatMap enc ++ last) a := by
  intro rest
  have hlen := length_le_flatMap hne
  refine Reads.loopFuel h hlast ?_ rest
  simp only [List.length_append]
  omega

end Reader

end RedisHaTool.Lib
