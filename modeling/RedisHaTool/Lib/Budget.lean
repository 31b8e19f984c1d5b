import Mathlib.Logic.Relation
import RedisHaTool.Lib.Reader

/-!
# Budget enough

A loop of the model stops for want of budget where the loop it models would go
on. That it never does is a matter of what the rounds take: with a measure of
the state that no step of the computation increases and that every round but the
last one decreases, the measure is budget enough, and one more for the round
that ends the loop.

`Bounded` says the first of a computation, and that it does not stop for want of
budget itself; `Progress` says the second. Both compose along `>>=`.
-/

namespace RedisHaTool.Lib

variable {ε σ α β : Type} {μ : σ → Nat}

/-- A run from `s` that is not stopped for want of budget, and after which the
measure is no greater. -/
def Ends (μ : σ → Nat) (s : σ) : EStateM.Result (Fault ε) σ α → Prop
  | .ok _ t => μ t ≤ μ s
  | .error e t => e ≠ .fuel ∧ μ t ≤ μ s

def Bounded (μ : σ → Nat) (m : EStateM (Fault ε) σ α) : Prop := ∀ s, Ends μ s (m s)

/-- Besides, the measure is smaller after an answer. -/
def Progress (μ : σ → Nat) (m : EStateM (Fault ε) σ α) : Prop :=
  Bounded μ m ∧ ∀ s a t, m s = .ok a t → μ t < μ s

theorem Ends.trans {s t : σ} {r : EStateM.Result (Fault ε) σ α} (h : Ends μ t r)
    (hle : μ t ≤ μ s) : Ends μ s r := by
  cases r with
  | ok a u => exact Nat.le_trans h hle
  | error e u => exact ⟨h.1, Nat.le_trans h.2 hle⟩

section Rules

variable {m : EStateM (Fault ε) σ α} {s t : σ}

theorem Bounded.of_ok (h : Bounded μ m) {a : α} (heq : m s = .ok a t) : μ t ≤ μ s := by
  have hs := h s
  rwa [heq] at hs

theorem Bounded.of_error (h : Bounded μ m) {e : Fault ε} (heq : m s = .error e t) :
    e ≠ .fuel ∧ μ t ≤ μ s := by
  have hs := h s
  rwa [heq] at hs

theorem Bounded.pure (a : α) : Bounded μ (pure a : EStateM (Fault ε) σ α) := by
  intro s
  show μ s ≤ μ s
  exact Nat.le_refl _

theorem Bounded.throw {e : Fault ε} (he : e ≠ .fuel) :
    Bounded μ (throw e : EStateM (Fault ε) σ α) := by
  intro s
  show e ≠ .fuel ∧ μ s ≤ μ s
  exact ⟨he, Nat.le_refl _⟩

theorem Bounded.get : Bounded μ (get : EStateM (Fault ε) σ σ) := by
  intro s
  show μ s ≤ μ s
  exact Nat.le_refl _

theorem Bounded.bind {f : α → EStateM (Fault ε) σ β} (hm : Bounded μ m)
    (hf : ∀ a, Bounded μ (f a)) : Bounded μ (m >>= f) := by
  intro s
  cases h : m s with
  | ok a t =>
      rw [bind_of_ok h]
      exact (hf a t).trans (hm.of_ok h)
  | error e t =>
      rw [bind_of_error h]
      exact hm.of_error h

/-- A first step that takes something is enough. -/
theorem Progress.bind {f : α → EStateM (Fault ε) σ β} (hm : Progress μ m)
    (hf : ∀ a, Bounded μ (f a)) : Progress μ (m >>= f) := by
  refine ⟨hm.1.bind hf, fun s b u h => ?_⟩
  obtain ⟨a, t, ha, hb⟩ := bind_eq_ok.1 h
  exact Nat.lt_of_le_of_lt ((hf a).of_ok hb) (hm.2 s a t ha)

theorem Bounded.forCount {body : β → EStateM (Fault ε) σ β}
    (h : ∀ b, Bounded μ (body b)) (n : Nat) (b : β) :
    Bounded μ (Lib.forCount body n b) := by
  induction n generalizing b with
  | zero => exact Bounded.pure b
  | succ n ih => exact (h b).bind ih

/-- A loop each of whose rounds takes something, unless it is the last one, and
whose budget is what there is to take and one more. The induction is on the
budget. -/
theorem Bounded.loopFuel {body : EStateM (Fault ε) σ (Option α)} (hbody : Bounded μ body)
    (hgo : ∀ s t, body s = .ok none t → μ t < μ s) :
    Bounded μ (fun s => Lib.loopFuel body (μ s + 1) s) := by
  have hloop : ∀ fuel s, μ s < fuel → Ends μ s (Lib.loopFuel body fuel s) := by
    intro fuel
    induction fuel with
    | zero => intro s h; omega
    | succ n ih =>
        intro s hfuel
        rw [Lib.loopFuel]
        cases h : body s with
        | error e t =>
            rw [bind_of_error h]
            exact hbody.of_error h
        | ok r t =>
            have hle := hbody.of_ok h
            rw [bind_of_ok h]
            cases r with
            | some a => exact hle
            | none =>
                have hlt := hgo s t h
                exact (ih t (by omega)).trans hle
  intro s
  exact hloop (μ s + 1) s (Nat.lt_succ_self (μ s))

end Rules

/-! ## Rounds -/

section Rounds

variable {body : EStateM (Fault ε) σ (Option α)}

/-- A loop that answers has gone from round to round, and the last one
answered. -/
theorem rounds_of_loopFuel {n : Nat} {s t : σ} {a : α}
    (h : Lib.loopFuel body n s = .ok a t) :
    ∃ u, Relation.ReflTransGen (fun s t => body s = .ok none t) s u ∧
      body u = .ok (some a) t := by
  induction n generalizing s with
  | zero => cases h
  | succ n ih =>
      rw [Lib.loopFuel] at h
      obtain ⟨r, v, hround, hrest⟩ := bind_eq_ok.1 h
      cases r with
      | some b =>
          cases hrest
          exact ⟨s, .refl, hround⟩
      | none =>
          obtain ⟨u, hrounds, hlast⟩ := ih hrest
          exact ⟨u, .head hround hrounds, hlast⟩

/-- After some rounds the loop ends as it would have from there, on the budget
that is left, and that is still enough. -/
theorem loopFuel_of_rounds (hgo : ∀ s t, body s = .ok none t → μ t < μ s) {s t : σ}
    (h : Relation.ReflTransGen (fun s t => body s = .ok none t) s t) {fuel : Nat}
    (hfuel : μ s < fuel) :
    ∃ fuel', μ t < fuel' ∧ Lib.loopFuel body fuel s = Lib.loopFuel body fuel' t := by
  induction h with
  | refl => exact ⟨fuel, hfuel, rfl⟩
  | tail _ hround ih =>
      obtain ⟨fuel', hlt, heq⟩ := ih
      have htake := hgo _ _ hround
      obtain ⟨k, rfl⟩ : ∃ k, fuel' = k + 1 := ⟨fuel' - 1, by omega⟩
      refine ⟨k, by omega, heq.trans ?_⟩
      rw [Lib.loopFuel, bind_of_ok hround]

end Rounds

/-! ## Readers -/

section Reader

abbrev BoundedReader (m : ByteReader ε α) : Prop := Bounded List.length m

abbrev ProgressReader (m : ByteReader ε α) : Prop := Progress List.length m

theorem progress_readU8 (eof : ε) : ProgressReader (readU8 eof) := by
  constructor
  · intro bs
    cases bs with
    | nil =>
        show Fault.err eof ≠ .fuel ∧ 0 ≤ 0
        simp
    | cons b bs =>
        show bs.length ≤ bs.length + 1
        omega
  · intro bs a rest h
    cases bs with
    | nil => cases h
    | cons b bs =>
        cases h
        simp

theorem bounded_readExact (eof : ε) (n : Nat) : BoundedReader (readExact eof n) := by
  intro bs
  rw [readExact]
  split
  · show Fault.err eof ≠ .fuel ∧ 0 ≤ bs.length
    simp
  · show (bs.drop n).length ≤ bs.length
    simp

theorem bounded_loopInput {body : ByteReader ε (Option α)} (h : ProgressReader body) :
    BoundedReader (loopInput body) :=
  Bounded.loopFuel h.1 fun s t => h.2 s none t

end Reader

end RedisHaTool.Lib
