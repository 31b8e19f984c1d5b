import Mathlib.Logic.Function.Basic

/-!
# Writes to a store

A store of values under keys, and writes that overwrite what is there. What
stands under a key in the end is the last that was written to it, and what was
there before where nothing was.
-/

namespace RedisHaTool.Lib

variable {κ ν : Type} [DecidableEq κ]

/-- Each write puts its value under its key. -/
def overwrite (store : κ → Option ν) (writes : List (κ × ν)) : κ → Option ν :=
  writes.foldl (fun store w => Function.update store w.1 (some w.2)) store

variable {store : κ → Option ν} {writes more : List (κ × ν)} {k : κ} {v : ν}

@[simp] theorem overwrite_nil : overwrite store [] = store := rfl

@[simp] theorem overwrite_cons :
    overwrite store ((k, v) :: writes)
      = overwrite (Function.update store k (some v)) writes := rfl

theorem overwrite_append :
    overwrite store (writes ++ more) = overwrite (overwrite store writes) more :=
  List.foldl_append

theorem overwrite_of_not_mem (h : ∀ w ∈ writes, w.1 ≠ k) :
    overwrite store writes k = store k := by
  induction writes generalizing store with
  | nil => rfl
  | cons w writes ih =>
      have hne : k ≠ w.1 := fun heq => h w List.mem_cons_self heq.symm
      have hrest : overwrite (Function.update store w.1 (some w.2)) writes k
          = Function.update store w.1 (some w.2) k :=
        ih fun w' hw' => h w' (List.mem_cons_of_mem w hw')
      rw [← Function.update_of_ne hne (some w.2) store]
      exact hrest

/-- The last write to a key is what it holds. -/
theorem overwrite_of_last (h : ∀ w ∈ more, w.1 ≠ k) :
    overwrite store (writes ++ (k, v) :: more) k = some v := by
  rw [overwrite_append, overwrite_cons, overwrite_of_not_mem h]
  exact Function.update_self k (some v) (overwrite store writes)

/-- What was under the keys that are written does not matter. -/
theorem overwrite_congr {store' : κ → Option ν}
    (h : ∀ k, (∀ w ∈ writes, w.1 ≠ k) → store k = store' k) :
    overwrite store writes = overwrite store' writes := by
  induction writes generalizing store store' with
  | nil => exact funext fun k => h k fun _ hw => absurd hw List.not_mem_nil
  | cons w writes ih =>
      obtain ⟨key, v⟩ := w
      rw [overwrite_cons, overwrite_cons]
      refine ih fun k hk => ?_
      by_cases hkey : k = key
      · rw [hkey, Function.update_self, Function.update_self]
      · rw [Function.update_of_ne hkey, Function.update_of_ne hkey]
        refine h k fun w hw => ?_
        rcases List.mem_cons.1 hw with rfl | hw
        · exact Ne.symm hkey
        · exact hk w hw

/-- What is under a key was there, or is one of the writes to it. -/
theorem overwrite_origin (store : κ → Option ν) (writes : List (κ × ν)) (k : κ) :
    overwrite store writes k = store k ∨
      ∃ w ∈ writes, w.1 = k ∧ overwrite store writes k = some w.2 := by
  induction writes generalizing store with
  | nil => exact .inl rfl
  | cons w writes ih =>
      rw [overwrite_cons]
      rcases ih (Function.update store w.1 (some w.2)) with hsame | ⟨w', hw', hkey, hvalue⟩
      · by_cases hw : k = w.1
        · refine .inr ⟨w, List.mem_cons_self, hw.symm, hsame.trans ?_⟩
          rw [hw, Function.update_self]
        · exact .inl (hsame.trans (Function.update_of_ne hw _ _))
      · exact .inr ⟨w', List.mem_cons_of_mem w hw', hkey, hvalue⟩

/-- A value that every write to the key keeps is kept. -/
theorem overwrite_keeps {P : ν → Prop} (hwrites : ∀ w ∈ writes, w.1 = k → P w.2)
    (h : ∃ v, store k = some v ∧ P v) : ∃ v, overwrite store writes k = some v ∧ P v := by
  induction writes generalizing store with
  | nil => exact h
  | cons w writes ih =>
      refine ih (fun w' hw' => hwrites w' (List.mem_cons_of_mem w hw')) ?_
      by_cases hk : w.1 = k
      · refine ⟨w.2, ?_, hwrites w List.mem_cons_self hk⟩
        rw [← hk]
        exact Function.update_self w.1 (some w.2) store
      · obtain ⟨v, hv, hP⟩ := h
        exact ⟨v, (Function.update_of_ne (Ne.symm hk) (some w.2) store).trans hv, hP⟩

end RedisHaTool.Lib
