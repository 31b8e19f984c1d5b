import Mathlib.Data.List.Infix

/-!
# Replays of a log

A log of operations, each of which stores values that do not depend on what was
there. Parts of it are replayed one after another, every part beginning where the
one before it began or later, and not after where that one ended. However far the
parts go back, the last that reaches the end of the log leaves what one replay of
the whole log leaves.
-/

namespace RedisHaTool.Lib

section Replay

variable {κ ν γ : Type} (writes : γ → κ → Option ν)

/-- An operation replaces what it writes. -/
def store (s : κ → ν) (op : γ) : κ → ν := fun k => (writes op k).getD (s k)

def replay (s : κ → ν) (ops : List γ) : κ → ν := ops.foldl (store writes) s

variable {writes} {s s' : κ → ν} {ops more : List γ} {k : κ}

@[simp] theorem replay_nil : replay writes s [] = s := rfl

@[simp] theorem replay_cons {op : γ} :
    replay writes s (op :: ops) = replay writes (store writes s op) ops := rfl

theorem replay_append :
    replay writes s (ops ++ more) = replay writes (replay writes s ops) more :=
  List.foldl_append

theorem store_of_none {op : γ} (h : writes op k = none) : store writes s op k = s k := by
  rw [store, h, Option.getD_none]

theorem store_of_some {op : γ} {v : ν} (h : writes op k = some v) :
    store writes s op k = v := by
  rw [store, h, Option.getD_some]

theorem replay_of_none (h : ∀ op ∈ ops, writes op k = none) : replay writes s ops k = s k := by
  induction ops generalizing s with
  | nil => rfl
  | cons op ops ih =>
      rw [replay_cons, ih fun op' hop' => h op' (List.mem_cons_of_mem op hop'),
        store_of_none (h op List.mem_cons_self)]

/-- What was there matters only where nothing is written. -/
theorem replay_congr (h : (∀ op ∈ ops, writes op k = none) → s k = s' k) :
    replay writes s ops k = replay writes s' ops k := by
  induction ops generalizing s s' with
  | nil => exact h fun op hop => absurd hop List.not_mem_nil
  | cons op ops ih =>
      rw [replay_cons, replay_cons]
      refine ih fun hops => ?_
      cases hop : writes op k with
      | none =>
          rw [store_of_none hop, store_of_none hop]
          exact h fun op' hop' => (List.mem_cons.1 hop').elim (fun heq => heq ▸ hop) (hops op')
      | some v => rw [store_of_some hop, store_of_some hop]

/-- What is under a key was there, or was written to it. -/
theorem replay_origin (s : κ → ν) (ops : List γ) (k : κ) :
    replay writes s ops k = s k ∨ ∃ op ∈ ops, writes op k = some (replay writes s ops k) := by
  induction ops generalizing s with
  | nil => exact .inl rfl
  | cons op ops ih =>
      rw [replay_cons]
      rcases ih (store writes s op) with hsame | ⟨op', hop', hwrites⟩
      · cases hop : writes op k with
        | none => exact .inl (hsame.trans (store_of_none hop))
        | some v =>
            refine .inr ⟨op, List.mem_cons_self, ?_⟩
            rw [hsame, store_of_some hop, hop]
      · exact .inr ⟨op', List.mem_cons_of_mem op hop', hwrites⟩

/-! ## Overlapping parts -/

/-- Parts of the log, the newest first: each with what comes before it in the log. -/
inductive Overlap (log : List γ) : List (List γ × List γ) → Prop where
  | first {part : List γ} (hpart : part <+: log) : Overlap log [([], part)]
  | next {pre part pre' part' : List γ} {parts : List (List γ × List γ)}
      (hparts : Overlap log ((pre, part) :: parts)) (hfrom : pre <+: pre')
      (hto : pre' <+: pre ++ part) (hpart : pre' ++ part' <+: log) :
      Overlap log ((pre', part') :: (pre, part) :: parts)

variable (writes) in
/-- What is left when the parts have been replayed, the oldest first. -/
def replayParts (s : κ → ν) (parts : List (List γ × List γ)) : κ → ν :=
  parts.foldr (fun part s => replay writes s part.2) s

/-- A part of the log that is replayed over what agrees with the log up to where it
begins, except where the rest of the log writes. -/
theorem replay_part {log pre part done rest : List γ} (hlog : done ++ rest = log)
    (hfrom : pre <+: done) (hto : done <+: pre ++ part) (hpart : pre ++ part <+: log)
    (hbefore : ∀ mid, done = pre ++ mid → (∀ op ∈ mid ++ rest, writes op k = none) →
      s' k = replay writes s pre k)
    (hrest : ∀ op ∈ rest, writes op k = none) :
    replay writes s' part k = replay writes s done k := by
  obtain ⟨mid, rfl⟩ := hfrom
  obtain ⟨back, rfl⟩ := (List.prefix_append_right_inj pre).1 hto
  rw [← hlog, ← List.append_assoc, List.prefix_append_right_inj] at hpart
  have hback : ∀ op ∈ back, writes op k = none := fun op hop => hrest op (hpart.subset hop)
  rw [replay_append, replay_of_none hback, replay_append]
  refine replay_congr fun hmid => hbefore mid rfl fun op hop => ?_
  exact (List.mem_append.1 hop).elim (hmid op) (hrest op)

/-- Up to any place in the newest part, all is as after one replay, except what
the rest of the log writes. -/
theorem Overlap.replayParts_eq {log pre part done rest : List γ}
    {parts : List (List γ × List γ)} (h : Overlap log ((pre, part) :: parts))
    (hlog : done ++ rest = log) (hfrom : pre <+: done) (hto : done <+: pre ++ part)
    (hrest : ∀ op ∈ rest, writes op k = none) :
    replayParts writes s ((pre, part) :: parts) k = replay writes s done k := by
  induction parts generalizing pre part done rest with
  | nil =>
      cases h with
      | first hpart => exact replay_part hlog hfrom hto hpart (fun _ _ _ => rfl) hrest
  | cons last parts ih =>
      cases h with
      | next hparts hfrom' hto' hpart =>
          refine replay_part hlog hfrom hto hpart (fun mid hdone hmid => ?_) hrest
          rw [hdone, List.append_assoc] at hlog
          exact ih hparts hlog hfrom' hto' hmid

/-- When the newest part reaches the end, all is as after one replay. -/
theorem Overlap.replayParts_log {log pre part : List γ} {parts : List (List γ × List γ)}
    (h : Overlap log ((pre, part) :: parts)) (hend : pre ++ part = log) :
    replayParts writes s ((pre, part) :: parts) = replay writes s log :=
  funext fun _ => h.replayParts_eq (List.append_nil log) (hend ▸ List.prefix_append pre part)
    (hend ▸ List.prefix_rfl) fun _ hop => absurd hop List.not_mem_nil

end Replay

end RedisHaTool.Lib
