import Mathlib.Tactic.Common

/-!
# Runs of a machine

A machine is a partial step function on states, told by a label which of the
things that may happen next does happen. A run is a list of labels taken one
after another, each under a condition on the state it is taken in, so that
"every run whose steps all meet the condition" is one relation; the condition
that always holds gives every run.

An invariant is proved once per step and holds along every run. Runs on concrete
input are executed, and what was executed is a run.
-/

namespace RedisHaTool.Lib

section Run

variable {S A : Type} {step : S → A → Option S} {C D : S → A → Prop}

/-- Steps one after another, each meeting `C` where it is taken. -/
inductive Steps (step : S → A → Option S) (C : S → A → Prop) :
    S → List A → S → Prop where
  | refl (s : S) : Steps step C s [] s
  | cons {s t u : S} {a : A} {as : List A} (hC : C s a) (hstep : step s a = some t)
      (htail : Steps step C t as u) : Steps step C s (a :: as) u

/-- The condition that every step meets. -/
def Free : S → A → Prop := fun _ _ => True

/-- What every step preserves, every run preserves. -/
theorem Steps.invariant {I : S → Prop} {s t : S} {as : List A}
    (h : Steps step C s as t)
    (hI : ∀ s a t, I s → C s a → step s a = some t → I t) (hs : I s) : I t := by
  induction h with
  | refl => exact hs
  | cons hC hstep _ ih => exact ih (hI _ _ _ hs hC hstep)

/-- Where every step takes something off a measure, a run is no longer than what it
takes off. -/
theorem Steps.length_add_le {I : S → Prop} (work : S → Nat) {s t : S} {as : List A}
    (h : Steps step C s as t)
    (hI : ∀ s a t, I s → C s a → step s a = some t → I t ∧ work t < work s) (hs : I s) :
    I t ∧ as.length + work t ≤ work s := by
  induction h with
  | refl s => exact ⟨hs, Nat.le_of_eq (Nat.zero_add _)⟩
  | cons hC hstep _ ih =>
      obtain ⟨ht, hlt⟩ := hI _ _ _ hs hC hstep
      obtain ⟨hu, hle⟩ := ih ht
      refine ⟨hu, ?_⟩
      rw [List.length_cons]
      omega

/-- Where every step is followed by another machine, a run is. -/
theorem Steps.simulate {T : Type} {step' : T → A → Option T} {R : S → T → Prop} {s t : S}
    {as : List A} (h : Steps step C s as t)
    (hR : ∀ s a t s', R s s' → step s a = some t → ∃ t', step' s' a = some t' ∧ R t t')
    {s' : T} (hs : R s s') : ∃ t', Steps step' Free s' as t' ∧ R t t' := by
  induction h generalizing s' with
  | refl => exact ⟨s', .refl s', hs⟩
  | cons _ hstep _ ih =>
      obtain ⟨u', hstep', hu⟩ := hR _ _ _ s' hs hstep
      obtain ⟨t', hsteps, ht⟩ := ih hu
      exact ⟨t', .cons trivial hstep' hsteps, ht⟩

theorem Steps.mono {s t : S} {as : List A} (h : Steps step C s as t)
    (hCD : ∀ s a, C s a → D s a) : Steps step D s as t := by
  induction h with
  | refl => exact .refl _
  | cons hC hstep _ ih => exact .cons (hCD _ _ hC) hstep ih

/-- A condition on the labels alone is met by a run of labels that meet it. -/
theorem Steps.of_forall_mem {P : A → Prop} {s t : S} {as : List A} (h : Steps step Free s as t)
    (hP : ∀ a ∈ as, P a) : Steps step (fun _ a => P a) s as t := by
  induction h with
  | refl => exact .refl _
  | cons _ hstep _ ih =>
      exact .cons (hP _ List.mem_cons_self) hstep (ih fun a ha => hP a (List.mem_cons_of_mem _ ha))

theorem Steps.forall_mem {P : A → Prop} {s t : S} {as : List A}
    (h : Steps step (fun _ a => P a) s as t) : ∀ a ∈ as, P a := by
  induction h with
  | refl => exact fun a ha => absurd ha List.not_mem_nil
  | cons hP _ _ ih => exact List.forall_mem_cons.2 ⟨hP, ih⟩

/-- Two conditions that the same run meets. -/
theorem Steps.and {s t : S} {as : List A} (h : Steps step C s as t)
    (h' : Steps step D s as t) : Steps step (fun s a => C s a ∧ D s a) s as t := by
  induction h with
  | refl s => exact .refl s
  | cons hC hstep _ ih =>
      cases h' with
      | cons hD hstep' htail =>
          obtain rfl := Option.some.inj (hstep.symm.trans hstep')
          exact .cons ⟨hC, hD⟩ hstep (ih htail)

theorem Steps.append {s t u : S} {as bs : List A} (h : Steps step C s as t)
    (h' : Steps step C t bs u) : Steps step C s (as ++ bs) u := by
  induction h with
  | refl => exact h'
  | cons hC hstep _ ih => exact .cons hC hstep (ih h')

/-- A run of two parts goes through a state between them. -/
theorem Steps.split {s u : S} {as bs : List A} (h : Steps step C s (as ++ bs) u) :
    ∃ t, Steps step C s as t ∧ Steps step C t bs u := by
  induction as generalizing s with
  | nil => exact ⟨s, .refl s, h⟩
  | cons a as ih =>
      cases h with
      | cons hC hstep htail =>
          obtain ⟨t, has, hbs⟩ := ih htail
          exact ⟨t, .cons hC hstep has, hbs⟩

/-- Takes the labels one after another, stopping where one is not possible or
fails the test. -/
def exec (step : S → A → Option S) (test : S → A → Bool) : S → List A → Option S
  | s, [] => some s
  | s, a :: as =>
      if test s a then (step s a).bind fun t => exec step test t as else none

/-- Without the test the run goes the same way. -/
theorem exec_of_test {test : S → A → Bool} {s t : S} {as : List A}
    (h : exec step test s as = some t) : exec step (fun _ _ => true) s as = some t := by
  induction as generalizing s with
  | nil => exact h
  | cons a as ih =>
      rw [exec] at h ⊢
      split at h
      · obtain ⟨u, hu, h⟩ := Option.bind_eq_some_iff.1 h
        rw [if_pos rfl, hu, Option.bind_some]
        exact ih h
      · cases h

theorem Steps.of_exec (test : S → A → Bool) {s t : S} {as : List A}
    (h : exec step test s as = some t) (htest : ∀ s a, test s a = true → C s a) :
    Steps step C s as t := by
  induction as generalizing s with
  | nil =>
      obtain rfl := Option.some.inj h
      exact .refl s
  | cons a as ih =>
      rw [exec] at h
      split at h
      · next ha =>
          obtain ⟨u, hu, h⟩ := Option.bind_eq_some_iff.1 h
          exact .cons (htest s a ha) hu (ih h)
      · cases h

/-- Where a run on concrete input ends, if it gets that far. -/
def after (step : S → A → Option S) (s : S) (as : List A) : S :=
  (exec step (fun _ _ => true) s as).getD s

theorem Steps.after_eq {s t : S} {as : List A} (h : Steps step C s as t) :
    after step s as = t := by
  have hexec : exec step (fun _ _ => true) s as = some t := by
    induction h with
    | refl => rfl
    | cons _ hstep _ ih => rw [exec, if_pos rfl, hstep, Option.bind_some, ih]
  rw [after, hexec, Option.getD_some]

/-- A run on concrete input, each step of it tested. -/
theorem Steps.of_test (test : S → A → Bool) {s : S} {as : List A}
    (h : (exec step test s as).isSome = true) (htest : ∀ s a, test s a = true → C s a) :
    Steps step C s as (after step s as) := by
  obtain ⟨t, ht⟩ := Option.isSome_iff_exists.1 h
  rw [after, exec_of_test ht, Option.getD_some]
  exact .of_exec test ht htest

theorem Steps.of_after [∀ s a, Decidable (C s a)] {s : S} {as : List A}
    (h : (exec step (fun s a => decide (C s a)) s as).isSome = true) :
    Steps step C s as (after step s as) :=
  .of_test _ h fun _ _ ha => of_decide_eq_true ha

instance (s : S) (a : A) : Decidable (Free s a) := .isTrue trivial

end Run

end RedisHaTool.Lib
