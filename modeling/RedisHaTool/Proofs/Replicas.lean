import RedisHaTool.Checkpoint.Replicas
import RedisHaTool.Proofs.TornSaves

/-!
# Sources do not disturb each other

A command on one replication id is on a field that begins with it, and ids have
one length, so it is on no field of another id. In whatever order the commands
of calls on many ids reach the target, each id fares as if it were the only one:
its calls return what they would return, and its fields hold what they would
hold. The one thing that is seen of the others is that the hash is not empty.
-/

namespace RedisHaTool.Checkpoint

open Lib

/-! ## Commands still to be sent -/

/-- The commands a call has still to send. -/
def ClientCall.left : ClientCall → List Command
  | .saving left => left
  | .updating left => left
  | _ => []

/-- The calls on every id have commands on that id to send. -/
def Replicas.Own (s : Replicas) : Prop :=
  ∀ id, ∀ call ∈ s.calls id, ∀ c ∈ call.left, c.Of id

theorem left_of_next {call after : ClientCall} {c : Command} (h : call.next = some (c, after)) :
    call.left = c :: after.left := by
  cases call with
  | saving left =>
      cases left with
      | nil => cases h
      | cons c' left =>
          cases left with
          | nil =>
              obtain ⟨rfl, rfl⟩ := Prod.mk.inj (Option.some.inj h)
              rfl
          | cons c'' left =>
              obtain ⟨rfl, rfl⟩ := Prod.mk.inj (Option.some.inj h)
              rfl
  | updating left =>
      cases left with
      | nil => cases h
      | cons c' left =>
          cases left with
          | nil =>
              obtain ⟨rfl, rfl⟩ := Prod.mk.inj (Option.some.inj h)
              rfl
          | cons c'' left =>
              obtain ⟨rfl, rfl⟩ := Prod.mk.inj (Option.some.inj h)
              rfl
  | reading newOffset now => cases h
  | saved => cases h
  | updated => cases h
  | failed => cases h

/-! ## What a step does -/

/-- What an act does, whatever else the hashes hold: it executes some commands
that were to be sent, and the calls then have commands on the id to send. -/
structure Clients.Does (id : Text) (s : Clients) (act : ClientAct) (t : Clients)
    (cmds : List Command) : Prop where
  step : ∀ hashes, hget hashes checkpointKey (versionField id)
      = hget s.hashes checkpointKey (versionField id) →
    Clients.step id { hashes, calls := s.calls } act
      = some { hashes := execAll cmds hashes, calls := t.calls }
  sent : ∀ c ∈ cmds, ∃ call ∈ s.calls, c ∈ call.left
  left : ∀ call ∈ t.calls, ∀ c ∈ call.left, c.Of id ∨ ∃ before ∈ s.calls, c ∈ before.left

theorem updateOffset_congr {h h' : Hashes} {id : Text}
    (hversion : hget h' checkpointKey (versionField id) = hget h checkpointKey (versionField id))
    (newOffset : Int) (now : Rdb.SystemTime) :
    updateOffset h' id newOffset now = updateOffset h id newOffset now := by
  rw [updateOffset, updateOffset]
  rw [versionField] at hversion
  rw [hversion]

/-- A call that has taken the place of another has what it has to send, besides
what there was. -/
theorem left_of_mem_set {s : Clients} {i : Nat} {after call : ClientCall} {id : Text}
    {c : Command} (hcall : call ∈ s.calls.set i after) (hc : c ∈ call.left)
    (hafter : ∀ c ∈ after.left, c.Of id ∨ ∃ before ∈ s.calls, c ∈ before.left) :
    c.Of id ∨ ∃ before ∈ s.calls, c ∈ before.left := by
  rcases List.mem_or_eq_of_mem_set hcall with hmem | rfl
  · exact .inr ⟨call, hmem, hc⟩
  · exact hafter c hc

theorem Clients.does_of_step {id : Text} {s t : Clients} {act : ClientAct}
    (h : s.step id act = some t) : ∃ cmds, s.Does id act t cmds := by
  cases act with
  | save offset now =>
      obtain rfl := Option.some.inj h
      refine ⟨[], fun hashes _ => rfl, by simp, fun call hcall c hc => ?_⟩
      rcases List.mem_append.1 hcall with hcall | hcall
      · exact .inr ⟨call, hcall, hc⟩
      · rw [List.mem_singleton.1 hcall] at hc
        exact .inl (saveCheckpoint_of _ c hc)
  | update newOffset now =>
      obtain rfl := Option.some.inj h
      refine ⟨[], fun hashes _ => rfl, by simp, fun call hcall c hc => ?_⟩
      rcases List.mem_append.1 hcall with hcall | hcall
      · exact .inr ⟨call, hcall, hc⟩
      · rw [List.mem_singleton.1 hcall] at hc
        cases hc
  | read i =>
      simp only [Clients.step] at h
      split at h
      · next newOffset now hi =>
          cases hleft : updateOffset s.hashes id newOffset now with
          | some left =>
              simp only [hleft] at h
              obtain rfl := Option.some.inj h
              refine ⟨[], fun hashes hversion => ?_, by simp, fun call hcall c hc => ?_⟩
              · simp only [Clients.step, hi, updateOffset_congr hversion, hleft]
                rfl
              · exact left_of_mem_set hcall hc fun c hc => .inl (updateOffset_of hleft c hc)
          | none =>
              simp only [hleft] at h
              obtain rfl := Option.some.inj h
              refine ⟨[], fun hashes hversion => ?_, by simp, fun call hcall c hc => ?_⟩
              · simp only [Clients.step, hi, updateOffset_congr hversion, hleft]
                rfl
              · exact left_of_mem_set hcall hc fun c hc => by cases hc
      · cases h
  | send i =>
      simp only [Clients.step] at h
      split at h
      · next c after hi =>
          obtain rfl := Option.some.inj h
          obtain ⟨call, hcall, hnext⟩ := Option.bind_eq_some_iff.1 hi
          have hmem := List.mem_of_getElem? hcall
          have hleft := left_of_next hnext
          refine ⟨[c], fun hashes _ => ?_, fun c' hc' => ?_, fun other hother c' hc' => ?_⟩
          · simp only [Clients.step, hi]
            rfl
          · rw [List.mem_singleton.1 hc']
            exact ⟨call, hmem, hleft ▸ List.mem_cons_self⟩
          · exact left_of_mem_set hother hc' fun c' hc' =>
              .inr ⟨call, hmem, hleft ▸ List.mem_cons_of_mem _ hc'⟩
      · cases h
  | fail i executed =>
      simp only [Clients.step] at h
      split at h
      · next newOffset now hi =>
          obtain rfl := Option.some.inj h
          refine ⟨[], fun hashes _ => ?_, by simp, fun call hcall c hc => ?_⟩
          · simp only [Clients.step, hi]
            rfl
          · exact left_of_mem_set hcall hc fun c hc => by cases hc
      · next call hreading hi =>
          obtain ⟨⟨c, after⟩, hnext, rfl⟩ := Option.map_eq_some_iff.1 h
          have hmem := List.mem_of_getElem? hi
          have hsent : c ∈ call.left := left_of_next hnext ▸ List.mem_cons_self
          refine ⟨if executed then [c] else [], fun hashes _ => ?_, fun c' hc' => ?_,
            fun other hother c' hc' => ?_⟩
          · simp only [Clients.step, hi, hnext]
            cases executed <;> rfl
          · cases executed with
            | false => cases hc'
            | true =>
                rw [List.mem_singleton.1 hc']
                exact ⟨call, hmem, hsent⟩
          · have hcalls : other ∈ s.calls.set i .failed := by
              cases executed with
              | false => exact hother
              | true => exact hother
            exact left_of_mem_set hcalls hc' fun c hc => by cases hc
      · cases h

/-! ## What an id sees -/

/-- The id cannot tell the target from one that it has for itself. -/
structure SameOn (id : Text) (s : Replicas) (c : Clients) : Prop where
  calls : s.calls id = c.calls
  fields : ∀ key suffix, hget s.hashes key (id ++ suffix) = hget c.hashes key (id ++ suffix)

/-- Commands do the same to a field that held the same. -/
theorem hget_execAll_congr {h h' : Hashes} {key field : Text} (cmds : List Command)
    (hsame : hget h key field = hget h' key field) :
    hget (execAll cmds h) key field = hget (execAll cmds h') key field := by
  induction cmds generalizing h h' with
  | nil => exact hsame
  | cons c cmds ih =>
      refine ih ?_
      obtain ⟨key', field', value⟩ := c
      by_cases hwritten : key' = key ∧ field' = field
      · obtain ⟨rfl, rfl⟩ := hwritten
        rw [hget_exec_self, hget_exec_self]
      · have hne := not_and_or.1 hwritten
        rw [hget_exec_ne h value hne, hget_exec_ne h' value hne, hsame]

theorem Replicas.does_of_step {id : Text} {s t : Replicas} {act : ClientAct}
    (h : s.step id act = some t) : ∃ clients cmds, (s.clients id).Does id act clients cmds ∧
      t = { hashes := execAll cmds s.hashes,
            calls := Function.update s.calls id clients.calls } := by
  obtain ⟨clients, hstep, rfl⟩ := Option.map_eq_some_iff.1 h
  obtain ⟨cmds, hdoes⟩ := Clients.does_of_step hstep
  have hsame := (hdoes.step s.hashes rfl).symm.trans hstep
  have hhashes := congrArg Clients.hashes (Option.some.inj hsame)
  exact ⟨clients, cmds, hdoes, congrArg₂ Replicas.mk hhashes.symm rfl⟩

/-- The commands of a step are on the id whose client takes it. -/
theorem Replicas.Own.of_sent {id : Text} {s : Replicas} {act : ClientAct} {clients : Clients}
    {cmds : List Command} (hown : s.Own) (h : (s.clients id).Does id act clients cmds) :
    ∀ c ∈ cmds, c.Of id := by
  intro c hc
  obtain ⟨call, hcall, hleft⟩ := h.sent c hc
  exact hown id call hcall c hleft

theorem Replicas.Own.step {id : Text} {s t : Replicas} {act : ClientAct} (hown : s.Own)
    (h : s.step id act = some t) : t.Own := by
  obtain ⟨clients, cmds, hdoes, rfl⟩ := Replicas.does_of_step h
  intro id' call hcall c hc
  by_cases hid : id' = id
  · subst hid
    simp only [Function.update_self] at hcall
    rcases hdoes.left call hcall c hc with hof | ⟨before, hbefore, hleft⟩
    · exact hof
    · exact hown id' before hbefore c hleft
  · simp only [Function.update_of_ne hid] at hcall
    exact hown id' call hcall c hc

theorem confined_replicas {id : Text} (hid : id.length = replIdLength) :
    Confined Replicas.step id (Clients.step id) Replicas.Own
      (fun _ act => act.1.length = replIdLength) (SameOn id) where
  inv := fun _ _ _ hown _ hstep => hown.step hstep
  own := by
    intro s c act t hown _ hsame hstep
    obtain ⟨clients, cmds, hdoes, rfl⟩ := Replicas.does_of_step hstep
    have halone := hdoes.step c.hashes (hsame.fields _ _).symm
    have hcalls : (s.clients id).calls = c.calls := hsame.calls
    rw [hcalls] at halone
    refine ⟨_, halone, ?_, fun key suffix => ?_⟩
    · exact Function.update_self ..
    · exact hget_execAll_congr cmds (hsame.fields key suffix)
  other := by
    intro s c id' act t hown hlen hne hsame hstep
    obtain ⟨clients, cmds, hdoes, rfl⟩ := Replicas.does_of_step hstep
    refine ⟨?_, fun key suffix => ?_⟩
    · exact (Function.update_of_ne (Ne.symm hne) _ _).trans hsame.calls
    · have hlen' : id'.length = id.length := hlen.trans hid.symm
      exact (hget_execAll_of (hown.of_sent hdoes) hlen' hne _ _ _).trans (hsame.fields key suffix)

/-! ## What is read -/

theorem SameOn.hget_id {id : Text} {s : Replicas} {c : Clients} (h : SameOn id s c) (key : Text) :
    hget s.hashes key id = hget c.hashes key id := by
  have hsame := h.fields key []
  rwa [List.append_nil] at hsame

theorem SameOn.getPsyncInfo {id : Text} {s : Replicas} {c : Clients} (h : SameOn id s c) :
    getPsyncInfo s.hashes id = getPsyncInfo c.hashes id := by
  rw [Checkpoint.getPsyncInfo, Checkpoint.getPsyncInfo, hexists, hexists, h.hget_id, offsetField,
    h.fields]

theorem SameOn.fieldValue {α : Type} {id : Text} {s : Replicas} {c : Clients}
    (h : SameOn id s c) (suffix : Text) (parse : Text → Option α) :
    fieldValue s.hashes id suffix parse = fieldValue c.hashes id suffix parse := by
  rw [Checkpoint.fieldValue, Checkpoint.fieldValue, h.fields]

theorem SameOn.stored_iff {id : Text} {s : Replicas} {c : Clients} (h : SameOn id s c)
    {offset : Int} {version mtimeUnix : Nat} :
    Stored s.hashes id offset version mtimeUnix ↔ Stored c.hashes id offset version mtimeUnix := by
  constructor
  · rintro ⟨hoffset, hversion, hmtime, hrange⟩
    rw [h.fieldValue] at hoffset hversion hmtime
    exact ⟨hoffset, hversion, hmtime, hrange⟩
  · rintro ⟨hoffset, hversion, hmtime, hrange⟩
    rw [← h.fieldValue] at hoffset hversion hmtime
    exact ⟨hoffset, hversion, hmtime, hrange⟩

theorem SameOn.getCheckpoint_iff {id : Text} {s : Replicas} {c : Clients} (h : SameOn id s c)
    (info : CheckpointInfo) : getCheckpoint s.hashes id = .ok (some info) ↔
      getCheckpoint c.hashes id = .ok (some info) := by
  have hmapped : hexists s.hashes checkpointKeyHashKey id
      = hexists c.hashes checkpointKeyHashKey id := by rw [hexists, hexists, h.hget_id]
  constructor
  · intro hinfo
    obtain ⟨hexist, mtimeUnix, hstored, heq⟩ := stored_of_getCheckpoint hinfo
    rw [heq, ← getCheckpointBetween_self]
    exact (h.stored_iff.1 hstored).getCheckpointBetween (hmapped ▸ hexist)
  · intro hinfo
    obtain ⟨hexist, mtimeUnix, hstored, heq⟩ := stored_of_getCheckpoint hinfo
    rw [heq, ← getCheckpointBetween_self]
    exact (h.stored_iff.2 hstored).getCheckpointBetween (hmapped ▸ hexist)

/-- In every run of the calls on all ids, failures included, the calls on one id
stand where they would stand without the others, and so do the fields of the id.
`get_psync_info` reads what it would read, and `get_checkpoint` agrees on every
checkpoint it returns. Where it returns none, `Ok(None)` and `Err` may differ: after
a torn delete it is the hash's being there that decides, and another id's save can
make it. -/
theorem replicas_alone {hashes : Hashes} {acts : List (Text × ClientAct)} {s : Replicas}
    (hrun : Steps (interleaved Replicas.step) (fun _ act => act.1.length = 40)
      (.init hashes) acts s) {id : Text} (hid : id.length = 40) :
    ∃ c, Steps (Clients.step id) Free (.init hashes) (ownLabels id acts) c ∧
      s.calls id = c.calls ∧
      (∀ key suffix, hget s.hashes key (id ++ suffix) = hget c.hashes key (id ++ suffix)) ∧
      getPsyncInfo s.hashes id = getPsyncInfo c.hashes id ∧
      ∀ info, getCheckpoint s.hashes id = .ok (some info) ↔
        getCheckpoint c.hashes id = .ok (some info) := by
  obtain ⟨c, halone, hsame⟩ := (confined_replicas hid).steps hrun
    (fun id call hcall => absurd hcall List.not_mem_nil)
    (⟨rfl, fun _ _ => rfl⟩ : SameOn id (.init hashes) (.init hashes))
  exact ⟨c, halone, hsame.calls, hsame.fields, hsame.getPsyncInfo, hsame.getCheckpoint_iff⟩

/-- Two ids whose calls take turns. -/
def someTurns : List (Text × ClientAct) :=
  let a : Text := List.replicate 40 'a'
  let b : Text := List.replicate 40 'b'
  [(a, .save 5 0), (b, .save 6 0), (a, .send 0), (b, .send 0), (b, .fail 0 true), (a, .send 0),
   (a, .send 0), (a, .send 0), (b, .update 7 0), (a, .send 0), (b, .read 1)]

theorem steps_someTurns :
    Steps (interleaved Replicas.step) (fun _ act => act.1.length = 40) (.init ∅) someTurns
      (after (interleaved Replicas.step) (.init ∅) someTurns) :=
  Steps.of_after (by decide +kernel)

theorem replicas_alone_someTurns :
    ∃ c, Steps (Clients.step (List.replicate 40 'a')) Free (.init ∅)
      (ownLabels (List.replicate 40 'a') someTurns) c := by
  have hlen : (List.replicate 40 'a').length = 40 := by decide
  obtain ⟨c, hc, -⟩ := replicas_alone steps_someTurns hlen
  exact ⟨c, hc⟩

end RedisHaTool.Checkpoint
