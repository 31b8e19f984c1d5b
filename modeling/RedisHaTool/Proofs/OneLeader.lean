import RedisHaTool.Syncer.Lifecycle

/-!
# One leader at a time

The check in `run` and the store after it are two steps, two of the four values
that may be found there let a run through, and `pause` and `resume` store them
whatever is going on. So a second leader gets in exactly where the check lets a
run through while another is past its own: between the other's check and its
store, or after something has been stored over `Run`. Where that never happens
there is one leader at most.
-/

namespace RedisHaTool.Syncer

open Lib

variable {s t : SyncerImpl}

/-! ## One step -/

/-- What a step does, by the branch it takes. -/
inductive LifeStep (s : SyncerImpl) : LifeAct → SyncerImpl → Prop where
  | call : LifeStep s .call { s with runs := s.runs ++ [.called] }
  | passed (i : Nat) (h : s.runs[i]? = some .called) (hcan : s.load.canRun = true) :
      LifeStep s (.load i) (s.setRun i .checked)
  | refused (i : Nat) (h : s.runs[i]? = some .called) (hcan : s.load.canRun = false) :
      LifeStep s (.load i) (s.setRun i (.refused s.load))
  | storeRun (i : Nat) (h : s.runs[i]? = some .checked) :
      LifeStep s (.storeRun i) ((s.store .run).setRun i .running)
  | loadRole (i : Nat) (h : s.runs[i]? = some .running) (pc : RunPc)
      (hpc : pc = .leading ∨ pc = .following) : LifeStep s (.loadRole i) (s.setRun i pc)
  | runEnds (i : Nat) (pc : RunPc) (h : s.runs[i]? = some pc)
      (hpc : pc = .leading ∨ pc = .following) : LifeStep s (.runEnds i) (s.setRun i .ended)
  | storeReadyRun (i : Nat) (h : s.runs[i]? = some .ended) :
      LifeStep s (.storeReadyRun i) ((s.store .readyRun).setRun i .returned)
  | stop : LifeStep s .stop (s.store .stop)
  | pause : LifeStep s .pause (s.store .pause)
  | resume : LifeStep s .resume (s.store .readyRun)

theorem lifeStep_of_step {act : LifeAct} (h : s.step act = some t) : LifeStep s act t := by
  cases act with
  | call =>
      obtain rfl := Option.some.inj h
      exact .call
  | load i =>
      rw [SyncerImpl.step] at h
      split at h
      · next hcalled =>
          obtain rfl := Option.some.inj h
          cases hcan : s.load.canRun with
          | true => simpa [hcan] using LifeStep.passed i hcalled hcan
          | false => simpa [hcan] using LifeStep.refused i hcalled hcan
      · cases h
  | storeRun i =>
      rw [SyncerImpl.step] at h
      split at h
      · next hchecked =>
          obtain rfl := Option.some.inj h
          exact .storeRun i hchecked
      · cases h
  | loadRole i =>
      rw [SyncerImpl.step] at h
      split at h
      · next hrunning =>
          obtain rfl := Option.some.inj h
          refine .loadRole i hrunning _ ?_
          cases SyncRole.fromU8 s.role with
          | leader => exact .inl rfl
          | follower => exact .inr rfl
      · cases h
  | runEnds i =>
      rw [SyncerImpl.step] at h
      split at h
      · next hends =>
          obtain rfl := Option.some.inj h
          rcases hends with hleading | hfollowing
          · exact .runEnds i _ hleading (.inl rfl)
          · exact .runEnds i _ hfollowing (.inr rfl)
      · cases h
  | storeReadyRun i =>
      rw [SyncerImpl.step] at h
      split at h
      · next hended =>
          obtain rfl := Option.some.inj h
          exact .storeReadyRun i hended
      · cases h
  | stop =>
      obtain rfl := Option.some.inj h
      exact .stop
  | pause =>
      obtain rfl := Option.some.inj h
      exact .pause
  | resume =>
      obtain rfl := Option.some.inj h
      exact .resume

/-! ## Runs in a part of their life -/

/-- Run `i` is where `p` says. -/
def SyncerImpl.At (s : SyncerImpl) (p : RunPc → Bool) (i : Nat) : Prop :=
  ∃ pc, s.runs[i]? = some pc ∧ p pc = true

theorem SyncerImpl.At.mem {p : RunPc → Bool} {i : Nat} (h : s.At p i) :
    ∃ pc ∈ s.runs, p pc = true := by
  obtain ⟨pc, hpc, hp⟩ := h
  exact ⟨pc, List.mem_of_getElem? hpc, hp⟩

/-- A new call is nowhere yet. -/
theorem at_of_call {p : RunPc → Bool} {j : Nat} (hp : p .called = false)
    (h : ({ s with runs := s.runs ++ [.called] } : SyncerImpl).At p j) : s.At p j := by
  obtain ⟨pc, hpc, hin⟩ := h
  rw [List.getElem?_append] at hpc
  split at hpc
  · exact ⟨pc, hpc, hin⟩
  · obtain rfl : pc = .called := by simpa using List.mem_of_getElem? hpc
    rw [hp] at hin
    cases hin

/-- A run that moves is in the part it moves to; the others are where they
were. -/
theorem at_of_setRun {p : RunPc → Bool} {i j : Nat} {pc : RunPc}
    (h : (s.setRun i pc).At p j) : j = i ∧ p pc = true ∨ j ≠ i ∧ s.At p j := by
  obtain ⟨pc', hpc', hin⟩ := h
  rw [SyncerImpl.setRun, List.getElem?_set] at hpc'
  split at hpc'
  · next hij =>
      split at hpc'
      · obtain rfl := Option.some.inj hpc'
        exact .inl ⟨hij.symm, hin⟩
      · cases hpc'
  · next hij => exact .inr ⟨fun hji => hij hji.symm, pc', hpc', hin⟩

/-- A part of the life of a run that is entered at the check only. -/
def EnteredByCheck (p : RunPc → Bool) : Prop :=
  p .called = false ∧ (∀ st, p (.refused st) = false) ∧ p .returned = false ∧
    (p .running = true → p .checked = true) ∧
    ((p .leading = true ∨ p .following = true) → p .running = true) ∧
    (p .ended = true → p .leading = true ∧ p .following = true)

/-- No step but a check that lets a run through brings one into such a part. -/
theorem at_of_step {p : RunPc → Bool} (hp : EnteredByCheck p) {act : LifeAct}
    (hstep : LifeStep s act t) {j : Nat} (h : t.At p j) :
    s.At p j ∨ act = .load j ∧ s.load.canRun = true := by
  obtain ⟨hcalled, hrefused, hreturned, hrunning, hrole, hended⟩ := hp
  cases hstep with
  | call => exact .inl (at_of_call hcalled h)
  | passed i hi hcan =>
      rcases at_of_setRun h with ⟨rfl, -⟩ | ⟨-, h⟩
      · exact .inr ⟨rfl, hcan⟩
      · exact .inl h
  | refused i hi hcan =>
      rcases at_of_setRun h with ⟨-, hin⟩ | ⟨-, h⟩
      · rw [hrefused] at hin
        cases hin
      · exact .inl h
  | storeRun i hi =>
      rcases at_of_setRun h with ⟨rfl, hin⟩ | ⟨-, h⟩
      · exact .inl ⟨_, hi, hrunning hin⟩
      · exact .inl h
  | loadRole i hi pc hpc =>
      rcases at_of_setRun h with ⟨rfl, hin⟩ | ⟨-, h⟩
      · rcases hpc with rfl | rfl
        · exact .inl ⟨_, hi, hrole (.inl hin)⟩
        · exact .inl ⟨_, hi, hrole (.inr hin)⟩
      · exact .inl h
  | runEnds i pc hi hpc =>
      rcases at_of_setRun h with ⟨rfl, hin⟩ | ⟨-, h⟩
      · rcases hpc with rfl | rfl
        · exact .inl ⟨_, hi, (hended hin).1⟩
        · exact .inl ⟨_, hi, (hended hin).2⟩
      · exact .inl h
  | storeReadyRun i hi =>
      rcases at_of_setRun h with ⟨-, hin⟩ | ⟨-, h⟩
      · rw [hreturned] at hin
        cases hin
      · exact .inl h
  | stop => exact .inl h
  | pause => exact .inl h
  | resume => exact .inl h

/-- No two runs are there at once. -/
def SyncerImpl.AtMostOne (s : SyncerImpl) (p : RunPc → Bool) : Prop :=
  ∀ i j : Nat, s.At p i → s.At p j → i = j

/-- One at most stays one at most, if the check lets nobody in while one is
there. -/
theorem atMostOne_step {p : RunPc → Bool} (hp : EnteredByCheck p) {act : LifeAct}
    (hone : s.AtMostOne p) (hstep : LifeStep s act t)
    (hnone : ∀ i, act = .load i → s.load.canRun = true → ∀ j, ¬ s.At p j) :
    t.AtMostOne p := by
  intro i j hi hj
  rcases at_of_step hp hstep hi with hi | ⟨rfl, hcan⟩
  · rcases at_of_step hp hstep hj with hj | ⟨rfl, hcan⟩
    · exact hone i j hi hj
    · exact absurd hi (hnone j rfl hcan i)
  · rcases at_of_step hp hstep hj with hj | ⟨hload, -⟩
    · exact absurd hj (hnone i rfl hcan j)
    · exact LifeAct.load.inj hload

/-! ## One leader -/

theorem enteredByCheck_inProgress : EnteredByCheck RunPc.inProgress :=
  ⟨rfl, fun _ => rfl, rfl, fun _ => rfl, fun _ => rfl, fun h => by cases h⟩

theorem SyncerImpl.NoneInProgress.not_at {i j : Nat} (h : s.NoneInProgress (.load i))
    (hcan : s.load.canRun = true) : ¬ s.At RunPc.inProgress j := by
  intro hj
  obtain ⟨pc, hmem, hin⟩ := hj.mem
  rw [h i rfl hcan pc hmem] at hin
  cases hin

theorem atMostOneLeader_of_atMostOne (h : s.AtMostOne RunPc.inProgress) :
    s.AtMostOneLeader :=
  fun i j hi hj => h i j ⟨.leading, hi, rfl⟩ ⟨.leading, hj, rfl⟩

theorem atMostOne_new (role : SyncRole) (p : RunPc → Bool) :
    (SyncerImpl.new role).AtMostOne p := by
  rintro i j ⟨pc, hpc, -⟩
  simp [SyncerImpl.new] at hpc

/-- Where no run gets past its check while another is in progress, at most one
leader is active, at every moment of every run of the tasks. -/
theorem atMostOneLeader_of_noneInProgress {role : SyncRole} {acts : List LifeAct}
    (hrun : Steps SyncerImpl.step SyncerImpl.NoneInProgress (.new role) acts s) :
    s.AtMostOneLeader := by
  have hpreserve : ∀ (s : SyncerImpl) (act : LifeAct) (t : SyncerImpl),
      s.AtMostOne RunPc.inProgress → s.NoneInProgress act → s.step act = some t →
      t.AtMostOne RunPc.inProgress := by
    intro s act t hone hC hstep
    refine atMostOne_step enteredByCheck_inProgress hone (lifeStep_of_step hstep) ?_
    rintro i rfl hcan j
    exact hC.not_at hcan
  exact atMostOneLeader_of_atMostOne (hrun.invariant hpreserve (atMostOne_new role _))

instance (s : SyncerImpl) (act : LifeAct) : Decidable (s.NoneInProgress act) :=
  match act with
  | .load i =>
      decidable_of_iff (s.load.canRun = true → ∀ pc ∈ s.runs, pc.inProgress = false)
        ⟨fun h _ _ => h, fun h => h i rfl⟩
  | .call | .storeRun _ | .loadRole _ | .runEnds _ | .storeReadyRun _
  | .stop | .pause | .resume => .isTrue fun _ h => LifeAct.noConfusion h

/-- A run, a second one that is refused, and a third once the first has
ended. -/
def threeRuns : List LifeAct :=
  [.call, .load 0, .storeRun 0, .loadRole 0, .call, .load 1, .runEnds 0,
   .storeReadyRun 0, .call, .load 2, .storeRun 2, .loadRole 2]

theorem atMostOneLeader_threeRuns :
    SyncerImpl.AtMostOneLeader
      { state := SyncState.run.asU8, role := SyncRole.leader.asU8,
        runs := [.returned, .refused .run, .leading] } := by
  have hrun : Steps SyncerImpl.step SyncerImpl.NoneInProgress (.new .leader) threeRuns
      { state := SyncState.run.asU8, role := SyncRole.leader.asU8,
        runs := [.returned, .refused .run, .leading] } :=
    .of_exec (fun s act => decide (s.NoneInProgress act)) (by decide +kernel)
      fun _ _ h => of_decide_eq_true h
  exact atMostOneLeader_of_noneInProgress hrun

/-- The syncer is running; a restart stops it, a resume stores `ReadyRun` over
that, and the restart's own run finds it before the first leader has ended. -/
def twoLeaders : List LifeAct :=
  [.call, .load 0, .storeRun 0, .loadRole 0, .stop, .resume,
   .call, .load 1, .storeRun 1, .loadRole 1]

theorem not_atMostOneLeader :
    ¬ ∀ (role : SyncRole) (acts : List LifeAct) (s : SyncerImpl),
      Steps SyncerImpl.step Free (.new role) acts s → s.AtMostOneLeader := by
  intro h
  have hrun : Steps SyncerImpl.step Free (.new .leader) twoLeaders
      { state := SyncState.run.asU8, role := SyncRole.leader.asU8,
        runs := [.leading, .leading] } :=
    .of_exec (fun _ _ => true) (by decide +kernel) fun _ _ _ => trivial
  have heq := h .leader twoLeaders _ hrun 0 1 rfl rfl
  cases heq

/-! ## When the check is enough -/

/-- Past its check, and not past its last store. -/
def RunPc.entered : RunPc → Bool
  | .checked | .running | .leading | .following | .ended => true
  | _ => false

/-- Past its store of `Run`, and not past its last store. -/
def RunPc.stored : RunPc → Bool
  | .running | .leading | .following | .ended => true
  | _ => false

/-- No run looks at the state while another is between its check and its store,
and nobody pauses or resumes a syncer that is running. -/
def SyncerImpl.Undisturbed (s : SyncerImpl) : LifeAct → Prop
  | .load _ => .checked ∉ s.runs
  | .pause | .resume => ∀ pc ∈ s.runs, pc.stored = false
  | _ => True

theorem enteredByCheck_entered : EnteredByCheck RunPc.entered :=
  ⟨rfl, fun _ => rfl, rfl, fun _ => rfl, fun _ => rfl, fun _ => ⟨rfl, rfl⟩⟩

/-- One run at most has entered, and while it has stored `Run` the state says
so. -/
structure SyncerImpl.Guarded (s : SyncerImpl) : Prop where
  one : s.AtMostOne RunPc.entered
  state : ∀ i, s.At RunPc.stored i → s.load.canRun = false

theorem SyncerImpl.At.mono {p q : RunPc → Bool} {i : Nat} (h : s.At p i)
    (hpq : ∀ pc, p pc = true → q pc = true) : s.At q i := by
  obtain ⟨pc, hpc, hp⟩ := h
  exact ⟨pc, hpc, hpq pc hp⟩

theorem entered_iff (pc : RunPc) :
    pc.entered = true ↔ pc = .checked ∨ pc.stored = true := by
  cases pc <;> simp [RunPc.entered, RunPc.stored]

/-- Between the two stores of a run the check lets nobody in. -/
theorem SyncerImpl.Guarded.not_at (hg : s.Guarded) {i : Nat}
    (hC : s.Undisturbed (.load i)) (hcan : s.load.canRun = true) (j : Nat) :
    ¬ s.At RunPc.entered j := by
  rintro ⟨pc, hpc, hin⟩
  rcases (entered_iff pc).1 hin with rfl | hstored
  · exact hC (List.mem_of_getElem? hpc)
  · have hno := hg.state j ⟨pc, hpc, hstored⟩
    rw [hcan] at hno
    cases hno

theorem SyncerImpl.Guarded.step {act : LifeAct} (hg : s.Guarded) (hC : s.Undisturbed act)
    (hstep : LifeStep s act t) : t.Guarded := by
  constructor
  · refine atMostOne_step enteredByCheck_entered hg.one hstep ?_
    rintro i rfl hcan j
    exact hg.not_at hC hcan j
  · intro j hj
    cases hstep with
    | call => exact hg.state j (at_of_call rfl hj)
    | passed i hi hcan =>
        rcases at_of_setRun hj with ⟨-, hin⟩ | ⟨-, hj⟩
        · cases hin
        · exact hg.state j hj
    | refused i hi hcan =>
        rcases at_of_setRun hj with ⟨-, hin⟩ | ⟨-, hj⟩
        · cases hin
        · exact hg.state j hj
    | storeRun i hi => rfl
    | loadRole i hi pc hpc =>
        rcases at_of_setRun hj with ⟨rfl, -⟩ | ⟨-, hj⟩
        · exact hg.state j ⟨_, hi, rfl⟩
        · exact hg.state j hj
    | runEnds i pc hi hpc =>
        rcases at_of_setRun hj with ⟨rfl, -⟩ | ⟨-, hj⟩
        · rcases hpc with rfl | rfl
          · exact hg.state j ⟨_, hi, rfl⟩
          · exact hg.state j ⟨_, hi, rfl⟩
        · exact hg.state j hj
    | storeReadyRun i hi =>
        -- Only the run that has ended was past its store.
        rcases at_of_setRun hj with ⟨-, hin⟩ | ⟨hne, hj⟩
        · cases hin
        · have hj' : s.At RunPc.entered j := hj.mono fun pc h => (entered_iff pc).2 (.inr h)
          exact absurd (hg.one j i hj' ⟨_, hi, rfl⟩) hne
    | stop => rfl
    | pause =>
        obtain ⟨pc, hmem, hin⟩ := hj.mem
        rw [hC pc hmem] at hin
        cases hin
    | resume =>
        obtain ⟨pc, hmem, hin⟩ := hj.mem
        rw [hC pc hmem] at hin
        cases hin

/-- The check keeps a second leader out as long as no check falls between
another and its store and nobody pauses or resumes a running syncer. -/
theorem atMostOneLeader_of_undisturbed {role : SyncRole} {acts : List LifeAct}
    (hrun : Steps SyncerImpl.step SyncerImpl.Undisturbed (.new role) acts s) :
    s.AtMostOneLeader := by
  have hguarded : s.Guarded := by
    refine hrun.invariant (fun s act t hg hC hstep => hg.step hC (lifeStep_of_step hstep)) ?_
    refine ⟨atMostOne_new role _, ?_⟩
    rintro i ⟨pc, hpc, -⟩
    simp [SyncerImpl.new] at hpc
  intro i j hi hj
  exact hguarded.one i j ⟨.leading, hi, rfl⟩ ⟨.leading, hj, rfl⟩

end RedisHaTool.Syncer
