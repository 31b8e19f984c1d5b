import RedisHaTool.Proofs.OneLeader
import RedisHaTool.Syncer.Control

/-!
# What stays of a stop

`stop` and the end of `run` store the state whatever they find there, and `stop`
is what brings `run` to its end, so a stopped syncer says `Stop` exactly where
`run` was first with its last store. A restart comes after a `stop`, and the
token that one has cancelled is the only one there is: no restart starts a run
as the first run is started.
-/

namespace RedisHaTool.Syncer

open Lib

variable {s t : Control}

/-! ## One step -/

/-- What a step does, by the branch it takes. -/
inductive ControlStep (s : Control) : ControlAct → Control → Prop where
  | request (restart : Bool) :
      ControlStep s (.request restart) { s with handlers := s.handlers ++ [.stopping restart] }
  | cancel (j : Nat) (restart : Bool) (h : s.handlers[j]? = some (.stopping restart)) :
      ControlStep s (.cancel j)
        ({ s with isCancelled := true }.setHandler j (.cancelled restart))
  | storeStop (j : Nat) (restart : Bool) (h : s.handlers[j]? = some (.cancelled restart)) :
      ControlStep s (.storeStop j)
        ({ s with syncer := s.syncer.store .stop }.setHandler j
          (if restart then .stopped else .returned))
  | start (j : Nat) (h : s.handlers[j]? = some .stopped) :
      ControlStep s (.start j)
        ({ s with syncer := { s.syncer with runs := s.syncer.runs ++ [RunPc.called] } }.setHandler
          j (.starting s.syncer.runs.length))
  | setCheckpointManager : ControlStep s .setCheckpointManager { s with hasManager := true }
  | spawnInput (i : Nat) (h : s.syncer.runs[i]? = some .leading) :
      ControlStep s (.spawnInput i) (s.spawn (.input i s.isCancelled))
  | spawnForwarding (i : Nat) (h : s.syncer.runs[i]? = some .leading) :
      ControlStep s (.spawnForwarding i)
        ({ s with hasManager := false }.spawn (.forwarding i s.isCancelled s.hasManager))
  | ends (act : ControlAct) (i : Nat) (syncer : SyncerImpl)
      (hact : act = .runCancelled i ∨ act = .inputFailed i)
      (h : LifeStep s.syncer (.runEnds i) syncer) : ControlStep s act { s with syncer }
  | life (act : LifeAct) (syncer : SyncerImpl) (h : LifeStep s.syncer act syncer)
      (hact : act ≠ .stop) : ControlStep s (.life act) { s with syncer }

theorem lifeStep_of_endRun {i : Nat} (h : s.endRun i = some t) :
    ∃ syncer, LifeStep s.syncer (.runEnds i) syncer ∧ t = { s with syncer } := by
  rw [Control.endRun] at h
  split at h
  · obtain ⟨syncer, hstep, rfl⟩ := Option.map_eq_some_iff.1 h
    exact ⟨syncer, lifeStep_of_step hstep, rfl⟩
  · cases h

/-- The steps of the syncer that are none of a handler's or of `run_leader`. -/
theorem controlStep_of_life {act : LifeAct} (hact : act ≠ .stop)
    (h : ((s.syncer.step act).map fun syncer => { s with syncer }) = some t) :
    ControlStep s (.life act) t := by
  obtain ⟨syncer, hstep, rfl⟩ := Option.map_eq_some_iff.1 h
  exact .life act syncer (lifeStep_of_step hstep) hact

theorem controlStep_of_step {act : ControlAct} (h : s.step act = some t) :
    ControlStep s act t := by
  cases act with
  | request restart =>
      obtain rfl := Option.some.inj h
      exact .request restart
  | cancel j =>
      rw [Control.step] at h
      split at h
      · next restart hpc =>
          obtain rfl := Option.some.inj h
          exact .cancel j restart hpc
      · cases h
  | storeStop j =>
      rw [Control.step] at h
      split at h
      · next restart hpc =>
          obtain rfl := Option.some.inj h
          exact .storeStop j restart hpc
      · cases h
  | start j =>
      rw [Control.step] at h
      split at h
      · next hpc =>
          obtain rfl := Option.some.inj h
          exact .start j hpc
      · cases h
  | setCheckpointManager =>
      obtain rfl := Option.some.inj h
      exact .setCheckpointManager
  | spawnInput i =>
      rw [Control.step] at h
      split at h
      · next hleading =>
          obtain rfl := Option.some.inj h
          exact .spawnInput i hleading.1
      · cases h
  | spawnForwarding i =>
      rw [Control.step] at h
      split at h
      · next hleading =>
          obtain rfl := Option.some.inj h
          exact .spawnForwarding i hleading.1
      · cases h
  | runCancelled i =>
      rw [Control.step] at h
      split at h
      · obtain ⟨syncer, hends, rfl⟩ := lifeStep_of_endRun h
        exact .ends _ i syncer (.inl rfl) hends
      · cases h
  | inputFailed i =>
      obtain ⟨syncer, hends, rfl⟩ := lifeStep_of_endRun h
      exact .ends _ i syncer (.inr rfl) hends
  | life act =>
      cases act with
      | stop => cases h
      | runEnds i => cases h
      | call | load i | storeRun i | loadRole i | storeReadyRun i | pause | resume =>
          exact controlStep_of_life (by intro hact; cases hact) h

/-! ## The last store -/

/-- What a step stores in the state. -/
def LifeAct.stores : LifeAct → Option SyncState
  | .storeRun _ => some .run
  | .storeReadyRun _ | .resume => some .readyRun
  | .stop => some .stop
  | .pause => some .pause
  | .call | .load _ | .loadRole _ | .runEnds _ => none

def ControlAct.stores : ControlAct → Option SyncState
  | .storeStop _ => some .stop
  | .life act => act.stores
  | _ => none

theorem load_store (s : SyncerImpl) (state : SyncState) : (s.store state).load = state :=
  SyncState.fromU8_asU8 state

theorem LifeStep.load {s t : SyncerImpl} {act : LifeAct} (h : LifeStep s act t) :
    t.load = act.stores.getD s.load := by
  cases h with
  | storeRun i h => exact load_store s .run
  | storeReadyRun i h => exact load_store s .readyRun
  | stop => exact load_store s .stop
  | pause => exact load_store s .pause
  | resume => exact load_store s .readyRun
  | call | passed | refused | loadRole | runEnds => rfl

theorem ControlStep.status {act : ControlAct} (h : ControlStep s act t) :
    t.status = act.stores.getD s.status := by
  cases h with
  | storeStop j restart h => exact load_store s.syncer .stop
  | ends act i syncer hact h =>
      rcases hact with rfl | rfl
      · exact h.load
      · exact h.load
  | life act syncer h hact => exact h.load
  | request | cancel | start | setCheckpointManager | spawnInput | spawnForwarding => rfl

/-- Only a handler stores `Stop`. -/
theorem ControlStep.stores_stop {act : ControlAct} (h : ControlStep s act t)
    (hstores : act.stores = some .stop) : ∃ j, act = .storeStop j := by
  cases h with
  | storeStop j restart hj => exact ⟨j, rfl⟩
  | ends act i syncer hact hends => rcases hact with rfl | rfl <;> cases hstores
  | life act syncer hlife hact =>
      cases hlife with
      | stop => exact absurd rfl hact
      | call | passed | refused | storeRun | loadRole | runEnds | storeReadyRun | pause
      | resume => cases hstores
  | request | cancel | start | setCheckpointManager | spawnInput | spawnForwarding =>
      cases hstores

theorem status_of_stores_none {C : Control → ControlAct → Prop} {acts : List ControlAct}
    (hrun : Steps Control.step C s acts t) (h : ∀ act ∈ acts, act.stores = none) :
    t.status = s.status := by
  induction hrun with
  | refl => rfl
  | cons hC hstep htail ih =>
      rw [ih fun act hact => h act (List.mem_cons_of_mem _ hact),
        (controlStep_of_step hstep).status, h _ List.mem_cons_self, Option.getD_none]

/-- The steps that store something else than `Stop` in a stopped syncer: a
`run`'s last store, and a `pause`. -/
def ControlAct.overwrites : ControlAct → Bool
  | .life (.storeReadyRun _) | .life .pause => true
  | _ => false

theorem overwrites_of_stores_none {act : ControlAct} (h : act.stores = none) :
    act.overwrites = false := by
  cases hact : act.overwrites with
  | false => rfl
  | true =>
      rw [ControlAct.overwrites.eq_def] at hact
      split at hact
      · cases h
      · cases h
      · cases hact

/-- Neither a resume nor a call of `run` beside the one of this number. -/
def Control.OneRun (n : Nat) (s : Control) : ControlAct → Prop
  | .life .call => s.syncer.runs.length = n
  | .life .resume | .start _ => False
  | _ => True

/-- A call of `run` that is over. -/
def RunPc.isOver : RunPc → Bool
  | .refused _ | .returned => true
  | _ => false

/-- Every call of `run` but this one is over. -/
def Control.OthersOver (n : Nat) (s : Control) : Prop :=
  s.syncer.runs.length ≤ n + 1 ∧
    ∀ (i : Nat) (pc : RunPc), i ≠ n → s.syncer.runs[i]? = some pc → pc.isOver = true

theorem Control.OthersOver.eq {n i : Nat} {pc : RunPc} (h : s.OthersOver n)
    (hpc : s.syncer.runs[i]? = some pc) (hgoing : pc.isOver = false) : i = n := by
  by_contra hne
  rw [h.2 i pc hne hpc] at hgoing
  cases hgoing

theorem Control.OthersOver.set {n i : Nat} {pc pc' : RunPc} (h : s.OthersOver n)
    (hpc : s.syncer.runs[i]? = some pc) (hgoing : pc.isOver = false)
    (ht : t.syncer.runs = s.syncer.runs.set i pc') : t.OthersOver n := by
  obtain rfl := h.eq hpc hgoing
  refine ⟨?_, ?_⟩
  · rw [ht, List.length_set]
    exact h.1
  · intro k pc hk hpc
    rw [ht, List.getElem?_set_ne (by omega)] at hpc
    exact h.2 k pc hk hpc

/-- A step that leaves the runs alone. -/
theorem Control.OthersOver.of_runs {n : Nat} (h : s.OthersOver n)
    (ht : t.syncer.runs = s.syncer.runs) : t.OthersOver n := by
  rw [Control.OthersOver, ht]
  exact h

theorem Control.OthersOver.call {n : Nat} (h : s.OthersOver n)
    (hn : s.syncer.runs.length = n)
    (ht : t.syncer.runs = s.syncer.runs ++ [.called]) : t.OthersOver n := by
  refine ⟨?_, ?_⟩
  · rw [ht, List.length_append, hn]
    exact Nat.le_refl _
  · intro i pc hi hpc
    rw [ht, List.getElem?_append] at hpc
    split at hpc
    · exact h.2 i pc hi hpc
    · have hlt := (List.getElem?_eq_some_iff.1 hpc).1
      rw [List.length_singleton] at hlt
      omega

theorem othersOver_of_lifeStep {n : Nat} {act : LifeAct} {syncer : SyncerImpl}
    (h : s.OthersOver n) (hC : s.OneRun n (.life act))
    (hstep : LifeStep s.syncer act syncer) :
    Control.OthersOver n { s with syncer } := by
  cases hstep with
  | call => exact h.call hC rfl
  | passed i hi hcan => exact h.set hi rfl rfl
  | refused i hi hcan => exact h.set hi rfl rfl
  | storeRun i hi => exact h.set hi rfl rfl
  | loadRole i hi pc hpc => exact h.set hi rfl rfl
  | runEnds i pc hi hpc =>
      rcases hpc with rfl | rfl
      · exact h.set hi rfl rfl
      · exact h.set hi rfl rfl
  | storeReadyRun i hi => exact h.set hi rfl rfl
  | stop => exact h.of_runs rfl
  | pause => exact h.of_runs rfl
  | resume => exact h.of_runs rfl

theorem othersOver_step {n : Nat} {act : ControlAct} (h : s.OthersOver n)
    (hC : s.OneRun n act) (hstep : ControlStep s act t) : t.OthersOver n := by
  cases hstep with
  | start j hj => exact hC.elim
  | ends act i syncer hact hends =>
      have hends' : s.OneRun n (.life (.runEnds i)) := trivial
      exact othersOver_of_lifeStep h hends' hends
  | life act syncer hlife hact => exact othersOver_of_lifeStep h hC hlife
  | request | cancel | storeStop | setCheckpointManager | spawnInput | spawnForwarding =>
      exact h.of_runs rfl

/-- A run that moves within a part of its life stays in it, and so do the
others. -/
theorem SyncerImpl.At.setRun {s : SyncerImpl} {p : RunPc → Bool} {i n : Nat}
    {pc pc' : RunPc} (h : s.At p n) (hpc : s.runs[i]? = some pc)
    (hkeep : p pc = true → p pc' = true) : (s.setRun i pc').At p n := by
  obtain ⟨pcn, hpcn, hin⟩ := h
  by_cases hi : i = n
  · subst hi
    rw [hpc] at hpcn
    obtain rfl := Option.some.inj hpcn
    have hlt := (List.getElem?_eq_some_iff.1 hpc).1
    exact ⟨pc', by rw [SyncerImpl.setRun, List.getElem?_set_self hlt], hkeep hin⟩
  · exact ⟨pcn, by rw [SyncerImpl.setRun, List.getElem?_set_ne hi, hpcn], hin⟩

/-- The syncer is stopped, or the run is past its store of `Run` and has its
last store before it. -/
def Control.StopsAt (n : Nat) (s : Control) : Prop :=
  s.status = .stop ∨ s.syncer.At RunPc.stored n

theorem stopsAt_of_lifeStep {n : Nat} {act : LifeAct} {syncer : SyncerImpl}
    (h : s.StopsAt n) (hothers : s.OthersOver n) (hC : s.OneRun n (.life act))
    (hkeeps : (ControlAct.life act).overwrites = false)
    (hstep : LifeStep s.syncer act syncer) : Control.StopsAt n { s with syncer } := by
  cases hstep with
  | call =>
      refine h.imp id ?_
      rintro ⟨pc, hpc, hin⟩
      exact ⟨pc, List.getElem?_append_left (List.getElem?_eq_some_iff.1 hpc).1 ▸ hpc, hin⟩
  | passed i hi hcan => exact h.imp id fun h => h.setRun hi fun hin => by cases hin
  | refused i hi hcan => exact h.imp id fun h => h.setRun hi fun hin => by cases hin
  | storeRun i hi =>
      obtain rfl := hothers.eq hi rfl
      refine .inr ⟨.running, ?_, rfl⟩
      have hlt := (List.getElem?_eq_some_iff.1 hi).1
      show (s.syncer.runs.set i .running)[i]? = some .running
      rw [List.getElem?_set_self hlt]
  | loadRole i hi pc hpc =>
      refine h.imp id fun h => h.setRun hi fun _ => ?_
      rcases hpc with rfl | rfl <;> rfl
  | runEnds i pc hi hpc => exact h.imp id fun h => h.setRun hi fun _ => rfl
  | storeReadyRun i hi => cases hkeeps
  | stop => exact .inl (load_store s.syncer .stop)
  | pause => cases hkeeps
  | resume => exact hC.elim

theorem stopsAt_step {n : Nat} {act : ControlAct} (h : s.StopsAt n)
    (hothers : s.OthersOver n) (hC : s.OneRun n act) (hkeeps : act.overwrites = false)
    (hstep : ControlStep s act t) : t.StopsAt n := by
  cases hstep with
  | storeStop j restart hj => exact .inl (load_store s.syncer .stop)
  | start j hj => exact hC.elim
  | ends act i syncer hact hends =>
      have hends' : s.OneRun n (.life (.runEnds i)) := trivial
      exact stopsAt_of_lifeStep h hothers hends' rfl hends
  | life act syncer hlife hact => exact stopsAt_of_lifeStep h hothers hC hkeeps hlife
  | request | cancel | setCheckpointManager | spawnInput | spawnForwarding => exact h

theorem stored_of_isOver {pc : RunPc} (h : pc.isOver = true) : pc.stored = false := by
  cases pc with
  | refused currentState => rfl
  | returned => rfl
  | called | checked | running | leading | following | ended => cases h

/-- Once the run is over nothing is left that would store over `Stop`. -/
theorem Control.StopsAt.status {n : Nat} {pc : RunPc} (h : s.StopsAt n)
    (hpc : s.syncer.runs[n]? = some pc) (hover : pc.isOver = true) : s.status = .stop := by
  rcases h with h | ⟨pc', hpc', hin⟩
  · exact h
  · rw [hpc] at hpc'
    obtain rfl := Option.some.inj hpc'
    rw [stored_of_isOver hover] at hin
    cases hin

theorem othersOver_of_steps {n : Nat} {acts : List ControlAct}
    (hrun : Steps Control.step (Control.OneRun n) s acts t) (h : s.OthersOver n) :
    t.OthersOver n :=
  hrun.invariant (fun _ _ _ h hC hstep => othersOver_step h hC (controlStep_of_step hstep)) h

/-- A stop's store that nothing is stored over holds to the end. -/
theorem stopsAt_of_steps {n : Nat} {acts : List ControlAct}
    (hrun : Steps Control.step (Control.OneRun n) s acts t) (hothers : s.OthersOver n)
    (h : s.StopsAt n) (hkeep : ∀ act ∈ acts, act.overwrites = false) : t.StopsAt n := by
  induction hrun with
  | refl => exact h
  | cons hC hstep htail ih =>
      have hstep := controlStep_of_step hstep
      refine ih (othersOver_step hothers hC hstep) ?_ fun act hact =>
        hkeep act (List.mem_cons_of_mem _ hact)
      exact stopsAt_step h hothers hC (hkeep _ List.mem_cons_self) hstep

/-- A syncer that is stopped got there by a stop's store, with no store after
it, if anything was stored at all. -/
theorem stopStore_last {C : Control → ControlAct → Prop} {acts : List ControlAct}
    (hrun : Steps Control.step C s acts t) (ht : t.status = .stop) :
    (∀ act ∈ acts, act.stores = none) ∨
      ∃ pre j post, acts = pre ++ .storeStop j :: post ∧ ∀ act ∈ post, act.stores = none := by
  induction hrun with
  | refl => exact .inl fun act hact => by cases hact
  | @cons s u t a as hC hstep htail ih =>
      rcases ih ht with hnone | ⟨pre, j, post, rfl, hpost⟩
      · cases ha : a.stores with
        | none =>
            left
            intro act hact
            rcases List.mem_cons.1 hact with rfl | hact
            · exact ha
            · exact hnone act hact
        | some state =>
            right
            have hu := (controlStep_of_step hstep).status
            rw [ha, Option.getD_some, ← status_of_stores_none htail hnone, ht] at hu
            obtain ⟨j, rfl⟩ := (controlStep_of_step hstep).stores_stop (hu ▸ ha)
            exact ⟨[], j, as, rfl, hnone⟩
      · exact .inr ⟨a :: pre, j, post, rfl, hpost⟩

/-- Where a handler stands after one has moved. -/
theorem handler_of_setHandler {j k : Nat} {pc pc' : HandlerPc}
    (h : (s.setHandler k pc).handlers[j]? = some pc') :
    j = k ∧ pc' = pc ∨ j ≠ k ∧ s.handlers[j]? = some pc' := by
  rw [Control.setHandler, List.getElem?_set] at h
  split at h
  · next hkj =>
      split at h
      · exact .inl ⟨hkj.symm, (Option.some.inj h).symm⟩
      · cases h
  · next hkj => exact .inr ⟨fun hjk => hkj hjk.symm, h⟩

/-- A request is a handler that has done nothing. -/
theorem handler_of_request {j : Nat} {restart : Bool} {pc : HandlerPc}
    (h : (s.handlers ++ [.stopping restart])[j]? = some pc) :
    pc = .stopping restart ∨ s.handlers[j]? = some pc := by
  rw [List.getElem?_append] at h
  split at h
  · exact .inr h
  · exact .inl (by simpa using List.mem_of_getElem? h)

theorem ControlStep.returned {act : ControlAct} {j : Nat} (h : ControlStep s act t)
    (hact : act ≠ .storeStop j) (ht : t.handlers[j]? = some .returned) :
    s.handlers[j]? = some .returned := by
  cases h with
  | request restart =>
      rcases handler_of_request ht with h | h
      · cases h
      · exact h
  | cancel k restart hk =>
      rcases handler_of_setHandler ht with ⟨-, h⟩ | ⟨-, h⟩
      · cases h
      · exact h
  | storeStop k restart hk =>
      rcases handler_of_setHandler ht with ⟨rfl, -⟩ | ⟨-, h⟩
      · exact absurd rfl hact
      · exact h
  | start k hk =>
      rcases handler_of_setHandler ht with ⟨-, h⟩ | ⟨-, h⟩
      · cases h
      · exact h
  | setCheckpointManager | spawnInput | spawnForwarding | ends | life => exact ht

/-- A handler that has returned since has stored `Stop`. -/
theorem storeStop_mem {C : Control → ControlAct → Prop} {acts : List ControlAct} {j : Nat}
    (hrun : Steps Control.step C s acts t) (hs : s.handlers[j]? ≠ some .returned)
    (ht : t.handlers[j]? = some .returned) : .storeStop j ∈ acts := by
  induction hrun with
  | refl => exact absurd ht hs
  | @cons s u t a as hC hstep htail ih =>
      by_cases ha : a = .storeStop j
      · subst ha
        exact List.mem_cons_self
      · refine List.mem_cons_of_mem _ (ih ?_ ht)
        intro hu
        exact hs ((controlStep_of_step hstep).returned ha hu)

/-- Of one `run` and the stops and pauses beside it: when the run and a stop are
over, the syncer is stopped if and only if after the store of a stop there was
neither the last store of the run nor a pause. -/
theorem status_stop_iff {n j : Nat} {acts : List ControlAct} {pc : RunPc}
    (hn : s.syncer.runs.length = n)
    (hearlier : ∀ pc ∈ s.syncer.runs, pc.isOver = true)
    (hrun : Steps Control.step (Control.OneRun n) s acts t)
    (hpc : t.syncer.runs[n]? = some pc) (hover : pc.isOver = true)
    (hs : s.handlers[j]? ≠ some .returned) (ht : t.handlers[j]? = some .returned) :
    t.status = .stop ↔
      ∃ pre k post, acts = pre ++ .storeStop k :: post ∧
        ∀ act ∈ post, act.overwrites = false := by
  have hothers : s.OthersOver n :=
    ⟨by omega, fun i pc _ hpc => hearlier pc (List.mem_of_getElem? hpc)⟩
  constructor
  · intro hstatus
    rcases stopStore_last hrun hstatus with hnone | ⟨pre, k, post, hacts, hpost⟩
    · have hmem := hnone _ (storeStop_mem hrun hs ht)
      cases hmem
    · exact ⟨pre, k, post, hacts, fun act hact => overwrites_of_stores_none (hpost act hact)⟩
  · rintro ⟨pre, k, post, rfl, hpost⟩
    obtain ⟨u, hpre, hrest⟩ := hrun.split
    cases hrest with
    | @cons _ v _ _ _ hC hstep htail =>
        have hstep := controlStep_of_step hstep
        have hu : u.OthersOver n := othersOver_of_steps hpre hothers
        have hv : v.status = .stop := hstep.status
        exact (stopsAt_of_steps htail (othersOver_step hu hC hstep) (.inl hv) hpost).status
          hpc hover

/-- A run that a stop has brought to its end before the stop stores. -/
def runStopped : List ControlAct :=
  [.life .call, .life (.load 0), .life (.storeRun 0), .life (.loadRole 0), .spawnInput 0,
   .spawnForwarding 0, .request false, .cancel 0, .runCancelled 0,
   .life (.storeReadyRun 0), .storeStop 0]

/-- The same, where the stop stores first. -/
def runReady : List ControlAct :=
  [.life .call, .life (.load 0), .life (.storeRun 0), .life (.loadRole 0), .spawnInput 0,
   .spawnForwarding 0, .request false, .cancel 0, .storeStop 0, .runCancelled 0,
   .life (.storeReadyRun 0)]

/-- A run and a stop, both over. -/
def runOver (state : SyncState) : Control :=
  { syncer := { state := state.asU8, role := SyncRole.leader.asU8, runs := [.returned] },
    isCancelled := true, hasManager := false,
    spawned := [.input 0 false, .forwarding 0 false true], handlers := [.returned] }

instance (n : Nat) (s : Control) (act : ControlAct) : Decidable (s.OneRun n act) :=
  match act with
  | .life .call => inferInstanceAs (Decidable (s.syncer.runs.length = n))
  | .life .resume | .start _ => .isFalse id
  | .life (.load _) | .life (.storeRun _) | .life (.loadRole _) | .life (.runEnds _)
  | .life (.storeReadyRun _) | .life .stop | .life .pause | .request _ | .cancel _
  | .storeStop _ | .setCheckpointManager | .spawnInput _ | .spawnForwarding _
  | .runCancelled _ | .inputFailed _ => .isTrue trivial

theorem status_stop_iff_runStopped :
    (runOver .stop).status = .stop ↔
      ∃ pre k post, runStopped = pre ++ .storeStop k :: post ∧
        ∀ act ∈ post, act.overwrites = false := by
  have hrun : Steps Control.step (Control.OneRun 0) .new runStopped (runOver .stop) :=
    .of_exec (fun s act => decide (s.OneRun 0 act)) (by decide +kernel)
      fun _ _ h => of_decide_eq_true h
  have hearlier : ∀ pc ∈ Control.new.syncer.runs, pc.isOver = true :=
    fun pc hpc => by cases hpc
  have hs : Control.new.handlers[0]? ≠ some .returned := fun h => by cases h
  exact status_stop_iff (j := 0) rfl hearlier hrun rfl rfl hs rfl

theorem not_status_stop :
    ¬ ∀ (acts : List ControlAct) (t : Control),
      Steps Control.step (Control.OneRun 0) .new acts t → t.syncer.runs = [.returned] →
        t.handlers = [.returned] → t.status = .stop := by
  intro h
  have hrun : Steps Control.step (Control.OneRun 0) .new runReady (runOver .readyRun) :=
    .of_exec (fun s act => decide (s.OneRun 0 act)) (by decide +kernel)
      fun _ _ h => of_decide_eq_true h
  have hstop := h runReady _ hrun rfl rfl
  cases hstop

/-! ## What a restart starts -/

/-- The handler has not cancelled the token yet. -/
def HandlerPc.isStopping : HandlerPc → Bool
  | .stopping _ => true
  | _ => false

/-- The token is cancelled once a handler has got past its first step, and every
task of a run that a restart has called was spawned after that. -/
structure Control.Spent (s : Control) : Prop where
  cancelled : ∀ (j : Nat) (pc : HandlerPc), s.handlers[j]? = some pc →
    pc.isStopping = false → s.isCancelled = true
  numbered : ∀ task ∈ s.spawned, task.run < s.syncer.runs.length
  restarted : ∀ j i : Nat, s.handlers[j]? = some (.starting i) →
    ∀ task ∈ s.spawned, task.run = i → task.isCancelled = true

theorem spent_new : Control.new.Spent where
  cancelled := fun j pc hj => by cases hj
  numbered := fun task h => by cases h
  restarted := fun j i hj => by cases hj

theorem LifeStep.runs_length {s t : SyncerImpl} {act : LifeAct} (h : LifeStep s act t) :
    s.runs.length ≤ t.runs.length := by
  cases h with
  | call =>
      show s.runs.length ≤ (s.runs ++ [RunPc.called]).length
      rw [List.length_append]
      omega
  | passed | refused | storeRun | loadRole | runEnds | storeReadyRun =>
      exact Nat.le_of_eq (List.length_set ..).symm
  | stop | pause | resume => exact Nat.le_refl _

/-- A step that touches neither the handlers, nor the tasks, nor the token. -/
theorem Control.Spent.of_eq (hs : s.Spent) (hhandlers : t.handlers = s.handlers)
    (hspawned : t.spawned = s.spawned) (hcancelled : t.isCancelled = s.isCancelled)
    (hruns : s.syncer.runs.length ≤ t.syncer.runs.length) : t.Spent where
  cancelled := by
    rw [hhandlers, hcancelled]
    exact hs.cancelled
  numbered := by
    rw [hspawned]
    exact fun task h => Nat.lt_of_lt_of_le (hs.numbered task h) hruns
  restarted := by
    rw [hhandlers, hspawned]
    exact hs.restarted

/-- A new task sees the token as it is. -/
theorem Control.Spent.spawn {i : Nat} {task : Spawned} (hs : s.Spent)
    (hi : s.syncer.runs[i]? = some .leading) (hrun : task.run = i)
    (htask : task.isCancelled = s.isCancelled) : (s.spawn task).Spent where
  cancelled := hs.cancelled
  numbered := by
    intro task' h
    rcases List.mem_append.1 h with h | h
    · exact hs.numbered task' h
    · obtain rfl := List.mem_singleton.1 h
      rw [hrun]
      exact (List.getElem?_eq_some_iff.1 hi).1
  restarted := by
    intro j k hj task' h hk
    rcases List.mem_append.1 h with h | h
    · exact hs.restarted j k hj task' h hk
    · obtain rfl := List.mem_singleton.1 h
      rw [htask]
      exact hs.cancelled j _ hj rfl

/-- A handler that moves on once the token is cancelled, and not to a run that
has tasks. -/
theorem Control.Spent.setHandler {j : Nat} {pc : HandlerPc} (hs : s.Spent)
    (hcancelled : s.isCancelled = true)
    (hpc : ∀ i, pc = .starting i → ∀ task ∈ s.spawned, task.run < i) :
    (s.setHandler j pc).Spent where
  cancelled := fun _ _ _ _ => hcancelled
  numbered := hs.numbered
  restarted := by
    intro k i hk task h hi
    rcases handler_of_setHandler hk with ⟨-, hpci⟩ | ⟨-, hk⟩
    · have hlt := hpc i hpci.symm task h
      omega
    · exact hs.restarted k i hk task h hi

theorem spent_step {act : ControlAct} (hs : s.Spent) (h : ControlStep s act t) : t.Spent := by
  cases h with
  | request restart =>
      refine ⟨?_, hs.numbered, ?_⟩
      · intro j pc hj hpc
        rcases handler_of_request hj with rfl | hj
        · cases hpc
        · exact hs.cancelled j pc hj hpc
      · intro j i hj
        rcases handler_of_request hj with h | hj
        · cases h
        · exact hs.restarted j i hj
  | cancel j restart hj =>
      have hs' : ({ s with isCancelled := true } : Control).Spent :=
        ⟨fun _ _ _ _ => rfl, hs.numbered, hs.restarted⟩
      exact hs'.setHandler rfl fun i h => by cases h
  | storeStop j restart hj =>
      have hs' : ({ s with syncer := s.syncer.store .stop } : Control).Spent :=
        hs.of_eq rfl rfl rfl (Nat.le_refl _)
      refine hs'.setHandler (hs.cancelled j _ hj rfl) fun i h => ?_
      cases restart <;> cases h
  | start j hj =>
      have hs' : ({ s with syncer := { s.syncer with
          runs := s.syncer.runs ++ [RunPc.called] } } : Control).Spent :=
        hs.of_eq rfl rfl rfl (LifeStep.call (s := s.syncer)).runs_length
      refine hs'.setHandler (hs.cancelled j _ hj rfl) fun i h => ?_
      obtain rfl := HandlerPc.starting.inj h
      exact hs.numbered
  | setCheckpointManager => exact hs.of_eq rfl rfl rfl (Nat.le_refl _)
  | spawnInput i hi => exact hs.spawn hi rfl rfl
  | spawnForwarding i hi =>
      have hs' : ({ s with hasManager := false } : Control).Spent :=
        hs.of_eq rfl rfl rfl (Nat.le_refl _)
      exact hs'.spawn hi rfl rfl
  | ends act i syncer hact hends => exact hs.of_eq rfl rfl rfl hends.runs_length
  | life act syncer hlife hact => exact hs.of_eq rfl rfl rfl hlife.runs_length

theorem Control.Spent.no_restart {j : Nat} (hs : s.Spent) : ¬ s.Restarted j := by
  rintro ⟨i, hj, -, hinput, -⟩
  have hcancelled := hs.restarted j i hj _ hinput rfl
  cases hcancelled

theorem spent_of_steps {acts : List ControlAct}
    (hrun : Steps Control.step Free .new acts s) : s.Spent :=
  hrun.invariant (fun _ _ _ hs _ hstep => spent_step hs (controlStep_of_step hstep)) spent_new

/-- From a syncer with everything set, whatever is called on it and in whatever
order it runs, no restart starts a run as the first run is started. -/
theorem not_restarted {acts : List ControlAct} (j : Nat)
    (hrun : Steps Control.step Free .new acts s) : ¬ s.Restarted j :=
  (spent_of_steps hrun).no_restart

/-- A first run, up to its two tasks. -/
def firstRun : List ControlAct :=
  [.life .call, .life (.load 0), .life (.storeRun 0), .life (.loadRole 0), .spawnInput 0,
   .spawnForwarding 0]

/-- A restart of the running syncer, up to the check of the state. -/
def firstRestart : List ControlAct :=
  firstRun ++ [.request true, .cancel 0, .storeStop 0, .start 0, .life (.load 1)]

/-- What a first run starts with. -/
example : (exec Control.step (fun _ _ => true) .new firstRun).map Control.spawned =
    some [.input 0 false, .forwarding 0 false true] := by decide +kernel

def restartRefused : Control :=
  { syncer := { state := SyncState.stop.asU8, role := SyncRole.leader.asU8,
                runs := [.leading, .refused .stop] },
    isCancelled := true, hasManager := false,
    spawned := [.input 0 false, .forwarding 0 false true], handlers := [.starting 1] }

theorem not_restarted_restartRefused : ¬ restartRefused.Restarted 0 := by
  have hrun : Steps Control.step Free .new firstRestart restartRefused :=
    .of_exec (fun _ _ => true) (by decide +kernel) fun _ _ _ => trivial
  exact not_restarted 0 hrun

theorem not_restart_works :
    ¬ ∀ (acts : List ControlAct) (s : Control), Steps Control.step Free .new acts s →
      ∃ acts' t, Steps Control.step Free s (.request true :: acts') t ∧
        t.Restarted s.handlers.length := by
  intro h
  have hrun : Steps Control.step Free .new firstRun
      { syncer := { state := SyncState.run.asU8, role := SyncRole.leader.asU8,
                    runs := [.leading] },
        isCancelled := false, hasManager := false,
        spawned := [.input 0 false, .forwarding 0 false true], handlers := [] } :=
    .of_exec (fun _ _ => true) (by decide +kernel) fun _ _ _ => trivial
  obtain ⟨acts', t, hrestart, ht⟩ := h firstRun _ hrun
  exact (spent_of_steps (hrun.append hrestart)).no_restart ht

/-- A restart that nothing comes between is refused by the check. -/
theorem refused_of_restart {j : Nat} (h : s.handlers[j]? = some (.cancelled true)) :
    ∃ t, Steps Control.step Free s
        [.storeStop j, .start j, .life (.load s.syncer.runs.length)] t ∧
      t.syncer.runs[s.syncer.runs.length]? = some (.refused .stop) := by
  have hj : j < s.handlers.length := (List.getElem?_eq_some_iff.1 h).1
  let u : Control := { s with syncer := s.syncer.store .stop }.setHandler j .stopped
  have hu : s.step (.storeStop j) = some u := by
    rw [Control.step, h]
    rfl
  have hstopped : u.handlers[j]? = some .stopped := List.getElem?_set_self hj
  let v : Control := { u with syncer := { u.syncer with
    runs := u.syncer.runs ++ [RunPc.called] } }.setHandler j (.starting u.syncer.runs.length)
  have hv : u.step (.start j) = some v := by
    rw [Control.step, if_pos hstopped]
    rfl
  have hcalled : v.syncer.runs[s.syncer.runs.length]? = some .called :=
    List.getElem?_concat_length
  have hload : v.syncer.load = .stop := load_store s.syncer .stop
  let w : Control := { v with syncer := v.syncer.setRun s.syncer.runs.length (.refused .stop) }
  have hw : v.step (.life (.load s.syncer.runs.length)) = some w := by
    show ((v.syncer.step (.load s.syncer.runs.length)).map fun syncer =>
      ({ v with syncer } : Control)) = some w
    rw [SyncerImpl.step, if_pos hcalled, hload]
    rfl
  refine ⟨w, .cons trivial hu (.cons trivial hv (.cons trivial hw (.refl w))), ?_⟩
  exact List.getElem?_set_self (List.getElem?_eq_some_iff.1 hcalled).1

end RedisHaTool.Syncer
