import RedisHaTool.Lib.Run

/-!
# Machines on one state

Machines that are told apart by an index take their steps on one state, in any
order. If the others' steps leave what one of them sees of the state, and its own
steps depend on nothing else, it cannot tell that they are there: from every run
of all of them its own steps make a run of it alone, and it sees the same at the
end.
-/

namespace RedisHaTool.Lib

variable {I A S T : Type}

/-- A step of the machine that the label names. -/
def interleaved (step : I → S → A → Option S) (s : S) (act : I × A) : Option S :=
  step act.1 s act.2

/-- The labels of one machine, in their order. -/
def ownLabels [DecidableEq I] (i : I) (acts : List (I × A)) : List A :=
  (acts.filter fun act => act.1 = i).map Prod.snd

/-- What one machine does among the others it does alone, on a state of its own
that looks the same to it. The invariant is what the machines keep of the whole
state. -/
structure Confined (step : I → S → A → Option S) (i : I) (alone : T → A → Option T)
    (Inv : S → Prop) (C : S → I × A → Prop) (Same : S → T → Prop) : Prop where
  inv : ∀ s act t, Inv s → C s act → interleaved step s act = some t → Inv t
  own : ∀ s s' a t, Inv s → C s (i, a) → Same s s' → step i s a = some t →
    ∃ t', alone s' a = some t' ∧ Same t t'
  other : ∀ s s' j a t, Inv s → C s (j, a) → j ≠ i → Same s s' → step j s a = some t → Same t s'

theorem Confined.steps [DecidableEq I] {step : I → S → A → Option S} {i : I}
    {alone : T → A → Option T} {Inv : S → Prop} {C : S → I × A → Prop} {Same : S → T → Prop}
    (h : Confined step i alone Inv C Same) {s t : S} {s' : T} {acts : List (I × A)}
    (hrun : Steps (interleaved step) C s acts t) (hs : Inv s) (hsame : Same s s') :
    ∃ t', Steps alone Free s' (ownLabels i acts) t' ∧ Same t t' := by
  induction hrun generalizing s' with
  | refl s => exact ⟨s', .refl s', hsame⟩
  | @cons s u t act acts hC hstep _ ih =>
      obtain ⟨j, a⟩ := act
      have hu := h.inv s (j, a) u hs hC hstep
      by_cases hj : j = i
      · subst hj
        obtain ⟨u', hstep', hsame'⟩ := h.own s s' a u hs hC hsame hstep
        obtain ⟨t', hrun', ht⟩ := ih hu hsame'
        refine ⟨t', ?_, ht⟩
        rw [ownLabels, List.filter_cons_of_pos (by simp), List.map_cons]
        exact .cons trivial hstep' hrun'
      · obtain ⟨t', hrun', ht⟩ := ih hu (h.other s s' j a u hs hC hj hsame hstep)
        refine ⟨t', ?_, ht⟩
        rw [ownLabels, List.filter_cons_of_neg (by simp [hj])]
        exact hrun'

end RedisHaTool.Lib
