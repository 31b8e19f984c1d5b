import RedisHaTool.Lib.Budget

/-!
# Where a computation panics

A panic ends a computation where it happens, so it has a place. A panic of a
sequence is one of the first step, or one of the second from where the first has
left off; a panic of a loop is one of a round. `Place` says what lies ahead of a
state in the course of a computation, and is put together the way that is.
`PanicsAt Bad m P` then says that `m` panics just where a bad state lies ahead,
at the place `P`.
-/

namespace RedisHaTool.Lib

variable {ε σ α β γ : Type}

/-- From this state the computation ends with a panic. -/
def Panics (m : EStateM (Fault ε) σ α) (s : σ) : Prop := ∃ t, m s = .error .panic t

/-- No input makes it panic. -/
def Quiet (m : EStateM (Fault ε) σ α) : Prop := ∀ s, ¬ Panics m s

/-! ## Places -/

/-- From where a computation starts to where it does something. -/
abbrev Place (σ : Type) := σ → σ → Prop

namespace Place

def here : Place σ := fun s t => t = s

def nowhere : Place σ := fun _ _ => False

def either (P Q : Place σ) : Place σ := fun s t => P s t ∨ Q s t

def onlyIf (c : Prop) (P : Place σ) : Place σ := fun s t => c ∧ P s t

/-- After a step that has answered. -/
def afterOk (m : EStateM (Fault ε) σ α) (P : α → Place σ) : Place σ :=
  fun s t => ∃ a u, m s = .ok a u ∧ P a u t

/-- The same, whatever the step answered. -/
def past (m : EStateM (Fault ε) σ α) (P : Place σ) : Place σ := afterOk m fun _ => P

/-- After a step that is taken only under a condition. -/
def pastIf (c : Bool) (m : EStateM (Fault ε) σ α) (P : Place σ) : Place σ :=
  if c then past m P else P

/-- In a round of a counted loop, the ones before it having answered. -/
def inRounds (body : β → EStateM (Fault ε) σ β) (n : Nat) (b : β) (P : Place σ) : Place σ :=
  fun s t => ∃ k < n, ∃ b' u, forCount body k b s = .ok b' u ∧ P u t

/-- In a round of a loop, the ones before it having gone on. -/
def inLoop (body : EStateM (Fault ε) σ (Option α)) (P : Place σ) : Place σ :=
  fun s t => ∃ u, Relation.ReflTransGen (fun s t => body s = .ok none t) s u ∧ P u t

end Place

open Place

/-! ## Panics of a sequence and of a loop -/

section Panics

variable {m : EStateM (Fault ε) σ α} {f : α → EStateM (Fault ε) σ β} {s : σ}

theorem panics_bind : Panics (m >>= f) s ↔
    Panics m s ∨ ∃ a t, m s = .ok a t ∧ Panics (f a) t := by
  constructor
  · rintro ⟨u, hu⟩
    cases h : m s with
    | ok a t =>
        rw [bind_of_ok h] at hu
        exact Or.inr ⟨a, t, rfl, u, hu⟩
    | error e t =>
        rw [bind_of_error h] at hu
        cases hu
        exact Or.inl ⟨u, h⟩
  · rintro (⟨t, ht⟩ | ⟨a, t, ha, u, hu⟩)
    · exact ⟨t, bind_of_error ht⟩
    · exact ⟨u, (bind_of_ok ha).trans hu⟩

theorem panics_bind_congr {g : α → EStateM (Fault ε) σ γ}
    (h : ∀ a t, Panics (f a) t ↔ Panics (g a) t) : Panics (m >>= f) s ↔ Panics (m >>= g) s := by
  rw [panics_bind, panics_bind]
  simp only [h]

/-- Some round panics, if the loop has budget enough to come to it. -/
theorem panics_loopFuel {body : EStateM (Fault ε) σ (Option α)} {μ : σ → Nat}
    (hgo : ∀ s t, body s = .ok none t → μ t < μ s) {fuel : Nat} (hfuel : μ s < fuel) :
    Panics (loopFuel body fuel) s ↔
      ∃ u, Relation.ReflTransGen (fun s t => body s = .ok none t) s u ∧ Panics body u := by
  constructor
  · clear hfuel
    induction fuel generalizing s with
    | zero =>
        rintro ⟨t, ht⟩
        cases ht
    | succ n ih =>
        intro h
        rcases panics_bind.1 h with hbody | ⟨r, t, hround, hrest⟩
        · exact ⟨s, .refl, hbody⟩
        · cases r with
          | some a =>
              obtain ⟨u, hu⟩ := hrest
              cases hu
          | none =>
              obtain ⟨u, hrounds, hu⟩ := ih hrest
              exact ⟨u, .head hround hrounds, hu⟩
  · rintro ⟨u, hrounds, t, ht⟩
    obtain ⟨fuel', hlt, heq⟩ := loopFuel_of_rounds hgo hrounds hfuel
    obtain ⟨k, rfl⟩ : ∃ k, fuel' = k + 1 := ⟨fuel' - 1, by omega⟩
    exact ⟨t, heq.trans (bind_of_error ht)⟩

end Panics

/-! ## Quiet computations -/

section Quiet

variable {m : EStateM (Fault ε) σ α} {f : α → EStateM (Fault ε) σ β}

theorem Quiet.pure (a : α) : Quiet (pure a : EStateM (Fault ε) σ α) := by
  rintro s ⟨t, ht⟩
  cases ht

theorem Quiet.throw {e : Fault ε} (he : e ≠ .panic) :
    Quiet (throw e : EStateM (Fault ε) σ α) := by
  rintro s ⟨t, ht⟩
  cases ht
  exact he rfl

theorem Quiet.bind (hm : Quiet m) (hf : ∀ a, Quiet (f a)) : Quiet (m >>= f) := by
  intro s h
  rcases panics_bind.1 h with hpanics | ⟨a, t, -, hpanics⟩
  · exact hm s hpanics
  · exact hf a t hpanics

theorem Quiet.forCount {body : β → EStateM (Fault ε) σ β} (h : ∀ b, Quiet (body b)) (n : Nat)
    (b : β) : Quiet (Lib.forCount body n b) := by
  induction n generalizing b with
  | zero => exact Quiet.pure b
  | succ n ih => exact (h b).bind ih

theorem panics_bind_quiet (hf : ∀ a, Quiet (f a)) {s : σ} :
    Panics (m >>= f) s ↔ Panics m s := by
  rw [panics_bind]
  constructor
  · rintro (hpanics | ⟨a, t, -, hpanics⟩)
    · exact hpanics
    · exact absurd hpanics (hf a t)
  · exact Or.inl

theorem quiet_readU8 (eof : ε) : Quiet (readU8 eof) := by
  rintro bs ⟨t, ht⟩
  cases bs with
  | nil => cases ht
  | cons b bs => cases ht

theorem quiet_readExact (eof : ε) (n : Nat) : Quiet (readExact eof n) := by
  rintro bs ⟨t, ht⟩
  rw [readExact] at ht
  split at ht
  · cases ht
  · cases ht

end Quiet

/-! ## The place of the panics -/

section PanicsAt

variable {Bad : σ → Prop} {m : EStateM (Fault ε) σ α} {f : α → EStateM (Fault ε) σ β}
  {P : Place σ} {R : α → Place σ}

/-- It panics exactly if a bad state lies ahead, at the place `P`. -/
def PanicsAt (Bad : σ → Prop) (m : EStateM (Fault ε) σ α) (P : Place σ) : Prop :=
  ∀ s, Panics m s ↔ ∃ t, P s t ∧ Bad t

theorem Quiet.at_nowhere (h : Quiet m) : PanicsAt Bad m nowhere := by
  intro s
  constructor
  · intro hpanics
    exact absurd hpanics (h s)
  · rintro ⟨t, hnone, -⟩
    cases hnone

theorem PanicsAt.onlyIf (h : PanicsAt Bad m P) {c : Prop} (hc : c) :
    PanicsAt Bad m (onlyIf c P) := by
  intro s
  rw [h s]
  constructor
  · rintro ⟨t, hP, hbad⟩
    exact ⟨t, ⟨hc, hP⟩, hbad⟩
  · rintro ⟨t, ⟨-, hP⟩, hbad⟩
    exact ⟨t, hP, hbad⟩

theorem Quiet.at_onlyIf (h : Quiet m) {c : Prop} (hc : ¬ c) : PanicsAt Bad m (onlyIf c P) := by
  intro s
  constructor
  · intro hpanics
    exact absurd hpanics (h s)
  · rintro ⟨t, ⟨hc', -⟩, -⟩
    exact absurd hc' hc

theorem PanicsAt.bind (hm : PanicsAt Bad m P) (hf : ∀ a, PanicsAt Bad (f a) (R a)) :
    PanicsAt Bad (m >>= f) (P.either (afterOk m R)) := by
  intro s
  rw [panics_bind, hm s]
  constructor
  · rintro (⟨t, hP, hbad⟩ | ⟨a, u, ha, hpanics⟩)
    · exact ⟨t, Or.inl hP, hbad⟩
    · obtain ⟨t, hR, hbad⟩ := (hf a u).1 hpanics
      exact ⟨t, Or.inr ⟨a, u, ha, hR⟩, hbad⟩
  · rintro ⟨t, hP | ⟨a, u, ha, hR⟩, hbad⟩
    · exact Or.inl ⟨t, hP, hbad⟩
    · exact Or.inr ⟨a, u, ha, (hf a u).2 ⟨t, hR, hbad⟩⟩

theorem PanicsAt.bind_quiet (hm : PanicsAt Bad m P) (hf : ∀ a, Quiet (f a)) :
    PanicsAt Bad (m >>= f) P := by
  intro s
  rw [panics_bind_quiet hf]
  exact hm s

theorem Quiet.bind_at (hm : Quiet m) (hf : ∀ a, PanicsAt Bad (f a) (R a)) :
    PanicsAt Bad (m >>= f) (afterOk m R) := by
  intro s
  rw [panics_bind]
  constructor
  · rintro (hpanics | ⟨a, u, ha, hpanics⟩)
    · exact absurd hpanics (hm s)
    · obtain ⟨t, hR, hbad⟩ := (hf a u).1 hpanics
      exact ⟨t, ⟨a, u, ha, hR⟩, hbad⟩
  · rintro ⟨t, ⟨a, u, ha, hR⟩, hbad⟩
    exact Or.inr ⟨a, u, ha, (hf a u).2 ⟨t, hR, hbad⟩⟩

/-- The induction is on the count, and the rounds before the one that panics
are counted off its front. -/
theorem PanicsAt.forCount {body : β → EStateM (Fault ε) σ β}
    (h : ∀ b, PanicsAt Bad (body b) P) (n : Nat) (b : β) :
    PanicsAt Bad (Lib.forCount body n b) (inRounds body n b P) := by
  induction n generalizing b with
  | zero =>
      intro s
      constructor
      · intro hpanics
        exact absurd hpanics (Quiet.pure b s)
      · rintro ⟨t, ⟨k, hk, -⟩, -⟩
        omega
  | succ n ih =>
      intro s
      rw [Lib.forCount, panics_bind, h b s]
      constructor
      · rintro (⟨t, hP, hbad⟩ | ⟨b₁, u, hround, hpanics⟩)
        · exact ⟨t, ⟨0, Nat.succ_pos n, b, s, rfl, hP⟩, hbad⟩
        · obtain ⟨t, ⟨k, hk, b', u', hrounds, hP⟩, hbad⟩ := (ih b₁ u).1 hpanics
          exact ⟨t, ⟨k + 1, by omega, b', u', (bind_of_ok hround).trans hrounds, hP⟩, hbad⟩
      · rintro ⟨t, ⟨k, hk, b', u, hrounds, hP⟩, hbad⟩
        cases k with
        | zero =>
            cases hrounds
            exact Or.inl ⟨t, hP, hbad⟩
        | succ k =>
            obtain ⟨b₁, u₁, hround, hrest⟩ := bind_eq_ok.1 hrounds
            refine Or.inr ⟨b₁, u₁, hround, (ih b₁ u₁).2 ⟨t, ?_, hbad⟩⟩
            exact ⟨k, by omega, b', u, hrest, hP⟩

theorem PanicsAt.loopInput {Bad : Bytes → Prop} {body : ByteReader ε (Option α)}
    {P : Place Bytes} (h : PanicsAt Bad body P)
    (hgo : ∀ s t, body s = .ok none t → t.length < s.length) :
    PanicsAt Bad (Lib.loopInput body) (inLoop body P) := by
  intro bs
  have hloop := panics_loopFuel hgo (Nat.lt_succ_self bs.length)
  refine hloop.trans ?_
  constructor
  · rintro ⟨u, hrounds, hpanics⟩
    obtain ⟨t, hP, hbad⟩ := (h u).1 hpanics
    exact ⟨t, ⟨u, hrounds, hP⟩, hbad⟩
  · rintro ⟨t, ⟨u, hrounds, hP⟩, hbad⟩
    exact ⟨u, hrounds, (h u).2 ⟨t, hP, hbad⟩⟩

end PanicsAt

end RedisHaTool.Lib
