import Mathlib.Data.List.Induction
import RedisHaTool.Syncer.Transaction

/-!
# Whether a transaction is open

Whether the tracker is in a transaction can be read off the commands: it depends on
what came after the last `MULTI` alone, and the lemmas here follow that tail as one
command is appended to it. The tracker is right but for a tail that begins with
`EXEC` and goes on with ordinary commands.
-/

namespace RedisHaTool.Syncer

open Lib

namespace Transaction

theorem processAll_snoc (tx : Transaction) (cmds : List Text) (cmd : Text) :
    tx.processAll (cmds ++ [cmd]) = ((tx.processAll cmds).processCommand cmd).1 := by
  simp only [processAll, List.foldl_append, List.foldl_cons, List.foldl_nil]

theorem exec_ne_multi : exec ≠ multi := by decide

theorem discard_ne_multi : discard ≠ multi := by decide

theorem discard_ne_exec : discard ≠ exec := by decide

/-- Every command is one of the three or an ordinary one. -/
theorem command_cases (cmd : Text) :
    cmd = multi ∨ cmd = exec ∨ cmd = discard ∨ Ordinary cmd := by
  by_cases hm : cmd = multi
  · exact .inl hm
  by_cases he : cmd = exec
  · exact .inr (.inl he)
  by_cases hd : cmd = discard
  · exact .inr (.inr (.inl hd))
  exact .inr (.inr (.inr ⟨hm, he, hd⟩))

/-! What one command does to the two states of a transaction. -/

theorem processCommand_begin_iff (tx : Transaction) (cmd : Text) :
    (tx.processCommand cmd).1.status = .begin ↔
      cmd = multi ∨ (cmd = exec ∧ tx.status = .begin) := by
  obtain ⟨status⟩ := tx
  rcases command_cases cmd with rfl | rfl | rfl | ⟨hm, he, hd⟩
  · simp [processCommand]
  · cases status <;> simp [processCommand, exec_ne_multi]
  · cases status <;> simp [processCommand, discard_ne_multi, discard_ne_exec]
  · cases status <;> simp [processCommand, hm, he, hd]

theorem processCommand_in_iff (tx : Transaction) (cmd : Text) :
    (tx.processCommand cmd).1.status = .in_ ↔
      Ordinary cmd ∧ tx.isInTransaction = true := by
  obtain ⟨status⟩ := tx
  rcases command_cases cmd with rfl | rfl | rfl | ⟨hm, he, hd⟩
  · simp [processCommand, Ordinary]
  · cases status <;> simp [processCommand, Ordinary, exec_ne_multi]
  · cases status <;>
      simp [processCommand, Ordinary, discard_ne_multi, discard_ne_exec]
  · cases status <;> simp [processCommand, isInTransaction, Ordinary, hm, he, hd]

theorem processCommand_isInTransaction (tx : Transaction) (cmd : Text) :
    (tx.processCommand cmd).1.isInTransaction = true ↔
      cmd = multi ∨ (cmd = exec ∧ tx.status = .begin) ∨
        (Ordinary cmd ∧ tx.isInTransaction = true) := by
  have hor : (tx.processCommand cmd).1.isInTransaction = true ↔
      (tx.processCommand cmd).1.status = .begin ∨ (tx.processCommand cmd).1.status = .in_ := by
    simp [isInTransaction]
  rw [hor, processCommand_begin_iff, processCommand_in_iff, or_assoc]

/-! ### The tail after a `MULTI` -/

theorem not_afterMulti_nil (P : List Text → Prop) : ¬ AfterMulti P [] := by
  rintro ⟨pre, post, h, -⟩
  cases pre <;> cases h

/-- One more command is the `MULTI` itself or the end of its tail. -/
theorem afterMulti_snoc (P : List Text → Prop) (cmds : List Text) (cmd : Text) :
    AfterMulti P (cmds ++ [cmd]) ↔
      (cmd = multi ∧ P []) ∨ AfterMulti (fun post => P (post ++ [cmd])) cmds := by
  constructor
  · rintro ⟨pre, post, h, hP⟩
    rcases List.eq_nil_or_concat' post with rfl | ⟨post, last, rfl⟩
    · obtain ⟨-, hcmd⟩ := List.append_inj' h rfl
      exact .inl ⟨List.head_eq_of_cons_eq hcmd, hP⟩
    · rw [← List.cons_append, ← List.append_assoc] at h
      obtain ⟨rfl, hlast⟩ := List.append_inj' h rfl
      obtain rfl : cmd = last := List.head_eq_of_cons_eq hlast
      exact .inr ⟨pre, post, rfl, hP⟩
  · rintro (⟨rfl, hP⟩ | ⟨pre, post, rfl, hP⟩)
    · exact ⟨cmds, [], rfl, hP⟩
    · exact ⟨pre, post ++ [cmd], by simp, hP⟩

theorem afterMulti_congr {P Q : List Text → Prop} (h : ∀ post, P post ↔ Q post)
    (cmds : List Text) : AfterMulti P cmds ↔ AfterMulti Q cmds := by
  unfold AfterMulti
  simp only [h]

theorem afterMulti_and (p : Prop) (P : List Text → Prop) (cmds : List Text) :
    AfterMulti (fun post => p ∧ P post) cmds ↔ p ∧ AfterMulti P cmds := by
  constructor
  · rintro ⟨pre, post, h, hp, hP⟩
    exact ⟨hp, pre, post, h, hP⟩
  · rintro ⟨hp, pre, post, h, hP⟩
    exact ⟨pre, post, h, hp, hP⟩

theorem afterMulti_or (P Q : List Text → Prop) (cmds : List Text) :
    AfterMulti (fun post => P post ∨ Q post) cmds ↔ AfterMulti P cmds ∨ AfterMulti Q cmds := by
  constructor
  · rintro ⟨pre, post, h, hP | hQ⟩
    · exact .inl ⟨pre, post, h, hP⟩
    · exact .inr ⟨pre, post, h, hQ⟩
  · rintro (⟨pre, post, h, hP⟩ | ⟨pre, post, h, hQ⟩)
    · exact ⟨pre, post, h, .inl hP⟩
    · exact ⟨pre, post, h, .inr hQ⟩

theorem unended_snoc (post : List Text) (cmd : Text) :
    Unended (post ++ [cmd]) ↔ (cmd ≠ exec ∧ cmd ≠ discard) ∧ Unended post := by
  unfold Unended
  constructor
  · intro h
    exact ⟨h cmd (by simp), fun c hc => h c (by simp [hc])⟩
  · rintro ⟨hcmd, h⟩ c hc
    rcases List.mem_append.1 hc with hc | hc
    · exact h c hc
    · exact List.mem_singleton.1 hc ▸ hcmd

theorem execs_snoc (post : List Text) (cmd : Text) :
    Execs (post ++ [cmd]) ↔ cmd = exec ∧ Execs post := by
  constructor
  · rintro ⟨k, h⟩
    cases k with
    | zero => exact absurd h (by simp)
    | succ k =>
        rw [List.replicate_succ'] at h
        obtain ⟨rfl, hcmd⟩ := List.append_inj' h rfl
        exact ⟨List.head_eq_of_cons_eq hcmd, k, rfl⟩
  · rintro ⟨rfl, k, rfl⟩
    exact ⟨k + 1, by rw [List.replicate_succ']⟩

theorem execAtOnce_nil : ¬ ExecAtOnce [] := by
  rintro ⟨k, ordinary, h, -⟩
  simp [List.replicate_succ] at h

theorem execAtOnce_snoc (post : List Text) (cmd : Text) :
    ExecAtOnce (post ++ [cmd]) ↔
      (cmd = exec ∧ Execs post) ∨ (Ordinary cmd ∧ ExecAtOnce post) := by
  constructor
  · rintro ⟨k, ordinary, h, hordinary⟩
    rcases List.eq_nil_or_concat' ordinary with rfl | ⟨ordinary, last, rfl⟩
    · exact .inl ((execs_snoc post cmd).1 ⟨k + 1, by rw [h, List.append_nil]⟩)
    · rw [← List.append_assoc] at h
      obtain ⟨rfl, hlast⟩ := List.append_inj' h rfl
      obtain rfl : cmd = last := List.head_eq_of_cons_eq hlast
      exact .inr ⟨hordinary cmd (by simp), k, ordinary, rfl,
        fun c hc => hordinary c (by simp [hc])⟩
  · rintro (⟨rfl, k, rfl⟩ | ⟨hcmd, k, ordinary, rfl, hordinary⟩)
    · exact ⟨k, [], by rw [List.append_nil, List.replicate_succ'], by simp⟩
    · refine ⟨k, ordinary ++ [cmd], by simp, fun c hc => ?_⟩
      rcases List.mem_append.1 hc with hc | hc
      · exact hordinary c hc
      · exact List.mem_singleton.1 hc ▸ hcmd

/-! ### What the tracker has been told -/

/-- The tracker after the commands it has been given since it was made. -/
abbrev told (cmds : List Text) : Transaction := new.processAll cmds

theorem told_begin_iff (cmds : List Text) :
    (told cmds).status = .begin ↔ AfterMulti Execs cmds := by
  induction cmds using List.reverseRecOn with
  | nil => exact ⟨fun h => (nomatch h), fun h => absurd h (not_afterMulti_nil _)⟩
  | append_singleton cmds cmd ih =>
      rw [told, processAll_snoc, processCommand_begin_iff, ih, afterMulti_snoc,
        afterMulti_congr fun post => execs_snoc post cmd, afterMulti_and]
      have hnil : Execs [] := ⟨0, rfl⟩
      simp only [hnil, and_true]

/-- In a transaction: a `MULTI` that nothing has ended, or one ended at once. -/
theorem told_isInTransaction (cmds : List Text) :
    (told cmds).isInTransaction = true ↔
      AfterMulti Unended cmds ∨ AfterMulti ExecAtOnce cmds := by
  induction cmds using List.reverseRecOn with
  | nil =>
      refine ⟨fun h => (nomatch h), ?_⟩
      rintro (h | h) <;> exact absurd h (not_afterMulti_nil _)
  | append_singleton cmds cmd ih =>
      have hunended : Unended [] := fun _ h => nomatch h
      rw [told, processAll_snoc, processCommand_isInTransaction, told_begin_iff, ih,
        afterMulti_snoc, afterMulti_snoc, afterMulti_congr fun post => unended_snoc post cmd,
        afterMulti_congr fun post => execAtOnce_snoc post cmd, afterMulti_or, afterMulti_and,
        afterMulti_and, afterMulti_and]
      simp only [hunended, execAtOnce_nil, and_true, and_false, false_or]
      rcases command_cases cmd with rfl | rfl | rfl | ⟨hm, he, hd⟩
      · simp
      · simp [exec_ne_multi, Ordinary]
      · simp [discard_ne_multi, discard_ne_exec, Ordinary]
      · simp [hm, he, hd, Ordinary]

/-- The tail of a `MULTI` in the middle is not both. -/
theorem not_unended_and_execAtOnce (cmds : List Text) (hunended : AfterMulti Unended cmds) :
    ¬ AfterMulti ExecAtOnce cmds := by
  induction cmds using List.reverseRecOn with
  | nil => exact absurd hunended (not_afterMulti_nil _)
  | append_singleton cmds cmd ih =>
      rw [afterMulti_snoc, afterMulti_congr fun post => unended_snoc post cmd,
        afterMulti_and] at hunended
      rw [afterMulti_snoc, afterMulti_congr fun post => execAtOnce_snoc post cmd,
        afterMulti_or, afterMulti_and, afterMulti_and]
      rintro (⟨-, h⟩ | ⟨rfl, -⟩ | ⟨⟨hm, -, -⟩, h⟩)
      · exact execAtOnce_nil h
      · rcases hunended with ⟨h, -⟩ | ⟨⟨h, -⟩, -⟩
        · exact exec_ne_multi h
        · exact h rfl
      · rcases hunended with ⟨h, -⟩ | ⟨-, hunended⟩
        · exact hm h
        · exact ih hunended h

/-- The tracker says what the commands say exactly when they do not end in a
`MULTI` with `EXEC` right after it and nothing but ordinary commands since. -/
theorem isInTransaction_correct_iff (cmds : List Text) :
    ((new.processAll cmds).isInTransaction = true ↔ AfterMulti Unended cmds) ↔
      ¬ AfterMulti ExecAtOnce cmds := by
  have hin := told_isInTransaction cmds
  constructor
  · intro h hexec
    exact not_unended_and_execAtOnce cmds (h.1 (hin.2 (.inr hexec))) hexec
  · intro hexec
    exact ⟨fun h => (hin.1 h).resolve_right hexec, fun h => hin.2 (.inl h)⟩

/-- An empty transaction is still open after its `EXEC`. -/
theorem multi_exec_still_in :
    ¬ ∀ cmds : List Text,
      (new.processAll cmds).isInTransaction = true ↔ AfterMulti Unended cmds := by
  intro h
  have hin : (new.processAll [multi, exec]).isInTransaction = true := by decide
  obtain ⟨pre, post, heq, hpost⟩ := (h [multi, exec]).1 hin
  match pre, heq with
  | [], heq =>
      obtain rfl : [exec] = post := List.tail_eq_of_cons_eq heq
      exact (hpost exec (List.mem_singleton.2 rfl)).1 rfl
  | [_], heq =>
      exact exec_ne_multi (List.head_eq_of_cons_eq (List.tail_eq_of_cons_eq heq))
  | _ :: _ :: pre, heq =>
      exact absurd (List.tail_eq_of_cons_eq (List.tail_eq_of_cons_eq heq)) (by simp)

end Transaction

end RedisHaTool.Syncer
