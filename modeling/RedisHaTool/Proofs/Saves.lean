import RedisHaTool.Proofs.Delivery

/-!
# Which offsets are saved

A checkpoint is a handful of hash commands, of which one or two hold the offset.
They are decided on when a call of `Output::send` or `send_aof_data` has come
back, and executed one by one after that; nothing is sent to the target in
between. So what is true of the offset and of what had been sent by then is
still true when a command is executed, however far the saving gets.
-/

namespace RedisHaTool.Syncer

open Lib Store Checkpoint

/-- A command that stores an offset stores one of these. -/
def Saves (P : Int → Prop) (c : Command) : Prop :=
  ∀ id o, c = .hset checkpointKey (offsetField id) (intToString o) → P o

/-- Fields are told apart by their last letter. -/
theorem offsetField_ne (s id : Text) {t : Text} (h : t.getLast? ≠ some 't') (hne : t ≠ []) :
    offsetField id ≠ s ++ t := by
  intro heq
  have hlast := congrArg List.getLast? heq
  rw [offsetField, List.getLast?_append_of_ne_nil _ hne,
    List.getLast?_append_of_ne_nil _ (by decide)] at hlast
  exact h (hlast.symm.trans (by decide))

theorem saves_saveCheckpoint {P : Int → Prop} {info : CheckpointInfo} (h : P info.offset) :
    ∀ c ∈ saveCheckpoint info, Saves P c := by
  intro c hc id o heq
  subst heq
  have hne : ∀ t : Text, t.getLast? ≠ some 't' → t ≠ [] →
      offsetField id ≠ info.masterReplid ++ t := fun t => offsetField_ne info.masterReplid id
  have hrunid := hne "_runid".toList (by decide) (by decide)
  have hversion := hne "_version".toList (by decide) (by decide)
  have hmtime := hne "_mtime".toList (by decide) (by decide)
  simp only [saveCheckpoint, List.mem_cons, Command.hset.injEq, List.not_mem_nil, or_false,
    hrunid, hversion, hmtime, checkpointKeyHashKey_ne.symm, false_and, and_false,
    true_and] at hc
  exact intToString_injective hc.2 ▸ h

theorem saves_savePsyncInfo {P : Int → Prop} {id : Text} {offset : Int} (h : P offset) :
    ∀ c ∈ savePsyncInfo id offset, Saves P c := by
  intro c hc id' o heq
  subst heq
  simp only [savePsyncInfo, List.mem_cons, Command.hset.injEq, List.not_mem_nil, or_false,
    true_and] at hc
  rcases hc with hc | hc <;> exact intToString_injective hc.2 ▸ h

/-- Every command of the log stores an offset that suits what was seen before
it. -/
def SavesIn (P : List Event → Int → Prop) (log : List Event) : Prop :=
  ∀ pre c post, log = pre ++ .command c :: post → Saves (P pre) c

/-- So does every command the task has still to send. -/
def Forwarder.Pending (P : Int → Prop) (f : Forwarder) : Prop :=
  ∀ calls, f.pc = .save calls → ∀ call ∈ calls, ∀ c ∈ call, Saves P c

theorem SavesIn.append {P : List Event → Int → Prop} {log : List Event}
    (h : SavesIn P log) {e : Event} (he : ∀ c, e = .command c → Saves (P log) c) :
    SavesIn P (log ++ [e]) := by
  intro pre c post heq
  rcases List.eq_nil_or_concat post with rfl | ⟨post, last, rfl⟩
  · obtain ⟨rfl, hlast⟩ := List.append_inj' heq rfl
    exact he c (List.cons.inj hlast).1
  · rw [List.concat_eq_append, ← List.cons_append, ← List.append_assoc] at heq
    exact h pre c post (List.append_inj' heq rfl).1

/-- Events that are no commands change nothing. -/
theorem SavesIn.quiet {P : List Event → Int → Prop} {log events : List Event}
    (h : SavesIn P log) (hevents : ∀ e ∈ events, ∀ c, e ≠ .command c) :
    SavesIn P (log ++ events) := by
  induction events generalizing log with
  | nil => rwa [List.append_nil]
  | cons e events ih =>
      rw [List.append_cons]
      exact ih (h.append fun c hc => absurd hc (hevents e List.mem_cons_self c))
        fun e' he' => hevents e' (List.mem_cons_of_mem e he')

/-- What is left to save was to be saved before. -/
theorem pending_saving {P : Int → Prop} {calls : List (List Command)}
    (h : ∀ call ∈ calls, ∀ c ∈ call, Saves P c) {f : Forwarder}
    (hpc : f.pc = .saving calls) : f.Pending P := by
  intro calls' heq call hcall
  have hmem : call ∈ calls.filter (· ≠ []) := by
    rw [hpc, ForwardPc.saving] at heq
    split at heq
    · cases heq
    · obtain rfl := ForwardPc.save.inj heq
      exact hcall
  exact h call (List.mem_of_mem_filter hmem)

/-- Which offsets a step can decide to save decides which are ever saved. -/
theorem saves_stepped {P : List Event → Int → Prop} {storer : FileStorer}
    {masterReplid : Text} {f f' : Forwarder} {act : ForwardAct} {events log : List Event}
    (hP : ∀ c, P (log ++ [.command c]) = P log)
    (hrdb : ∀ r, f.pc = .sendRdb r → IsI64 (f.offset + r.size) → P log (f.offset + r.size))
    (haof : ∀ r sent, f.pc = .read r sent → sent ≠ 0 → r.remaining storer.disk = [] →
      IsI64 (f.offset + sent) → P log (f.offset + sent))
    (hstep : f.Stepped storer masterReplid act f' events) (hsaved : SavesIn P log)
    (hpending : f.Pending (P log)) :
    SavesIn P (log ++ events) ∧ f'.Pending (P (log ++ events)) := by
  cases hstep with
  | rdbSaving r hpc n now hi64 =>
      refine ⟨hsaved.quiet (by simp), fun calls heq call hcall => ?_⟩
      obtain rfl := ForwardPc.save.inj heq
      rw [List.append_nil]
      simp only [List.mem_cons, List.not_mem_nil, or_false] at hcall
      rcases hcall with rfl | rfl
      · exact saves_saveCheckpoint (hrdb r hpc hi64)
      · exact saves_savePsyncInfo (hrdb r hpc hi64)
  | finishSaving r sent hpc hsent hend now hi64 =>
      refine ⟨hsaved.quiet (by simp), fun calls heq call hcall => ?_⟩
      obtain rfl := ForwardPc.save.inj heq
      rw [List.append_nil]
      obtain rfl := List.mem_singleton.1 hcall
      exact saves_saveCheckpoint (haof r sent hpc hsent hend hi64)
  | saved c cs calls hpc =>
      have hcalls := hpending _ hpc
      refine ⟨hsaved.append fun d hd => ?_, ?_⟩
      · obtain rfl := Event.command.inj hd
        exact hcalls _ List.mem_cons_self c List.mem_cons_self
      · rw [hP]
        refine pending_saving (fun call hcall => ?_) rfl
        rcases List.mem_cons.1 hcall with rfl | hcall
        · exact fun d hd => hcalls _ List.mem_cons_self d (List.mem_cons_of_mem c hd)
        · exact hcalls call (List.mem_cons_of_mem _ hcall)
  | saveFailed c cs calls hpc executed =>
      have hcalls := hpending _ hpc
      have hrest : ∀ call ∈ calls, ∀ d ∈ call, Saves (P log) d :=
        fun call hcall => hcalls call (List.mem_cons_of_mem _ hcall)
      cases executed with
      | false =>
          refine ⟨hsaved.quiet (by simp), ?_⟩
          rw [if_neg Bool.false_ne_true, List.append_nil]
          exact pending_saving hrest rfl
      | true =>
          refine ⟨hsaved.append fun d hd => ?_, ?_⟩
          · obtain rfl := Event.command.inj hd
            exact hcalls _ List.mem_cons_self c List.mem_cons_self
          · rw [if_pos rfl, hP]
            exact pending_saving hrest rfl
  | _ => exact ⟨hsaved.quiet (by simp), fun calls h => by cases h⟩

theorem Forwarder.Pending.notified {P : Int → Prop} {f : Forwarder} (h : f.Pending P) :
    f.notified.Pending P := by
  intro calls hpc
  refine h calls ?_
  unfold Forwarder.notified at hpc
  split at hpc
  · cases hpc
  · exact hpc

end RedisHaTool.Syncer
