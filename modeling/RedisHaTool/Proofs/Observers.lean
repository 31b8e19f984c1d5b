import RedisHaTool.Syncer.Observers
import RedisHaTool.Proofs.StateMachine

/-!
# A phase is not missed

A receiver may skip phases, and may be told twice of one. But it never sees the
leader go back, and where it waits with nothing to be told it has seen the phase that
the leader is in. `wait_for_change` is another matter: its clone has seen nothing, so
from the first phase on it returns at once, whether anything changes or not.
-/

namespace RedisHaTool.Syncer

open Lib Store

/-! ## The phases of one leader -/

/-- The phases `run_leader` stores, in this order. -/
def leaderPhases : List SyncPhase := [.fullInit, .fullSyncing, .fullSynced, .incrSyncing]

theorem leaderPhases_ordered : leaderPhases.Pairwise fun p q => p.asU8 ≤ q.asU8 := by decide

/-- How many of them are stored. -/
def Stage.Stores : Stage → Nat → Prop
  | .called, n => n = 0
  | .initialised, n | .spawned, n => n = 1
  | .syncing, n | .inputDone, n => n = 2
  | .fullSynced, n => n = 3
  | .incremental, n => n = 4
  | .returned, _ => True

theorem stepSys_keeps {s t : Leading} {act : Act} (h : s.stepSys act = some t) :
    t.stage = s.stage ∧ t.fsm = s.fsm := by
  have hmap : ∀ {next : Sys → Leading}, (s.sys.step act).map next = some t →
      (∀ sys, (next sys).stage = s.stage ∧ (next sys).fsm = s.fsm) →
      t.stage = s.stage ∧ t.fsm = s.fsm := by
    intro next hsome hnext
    obtain ⟨sys, -, rfl⟩ := Option.map_eq_some_iff.1 hsome
    exact hnext sys
  unfold Leading.stepSys at h
  cases act with
  | input now | listen | timeout | start =>
      dsimp only at h
      split at h
      · exact hmap h fun _ => ⟨rfl, rfl⟩
      · cases h
  | forward act => exact hmap h fun _ => ⟨rfl, rfl⟩

/-- A step stores the next phase, or none. -/
theorem stores_step {s t : Leading} {act : LeadAct} {n : Nat} (h : s.step act = some t)
    (hn : s.stage.Stores n) :
    act.stores = none ∧ t.fsm = s.fsm ∧ t.stage.Stores n ∨
      ∃ phase, act.stores = some phase ∧ act.isLeaders = true ∧
        leaderPhases[n]? = some phase ∧ t.fsm.phase = phase ∧ t.stage.Stores (n + 1) := by
  unfold Leading.step at h
  split at h
  case h_2 hstage | h_4 hstage | h_12 hstage | h_13 hstage =>
    obtain rfl := Option.some.inj h
    rw [hstage] at hn
    obtain rfl := hn
    exact .inr ⟨_, rfl, rfl, rfl, phase_setState s.fsm _, rfl⟩
  case h_1 hstage | h_11 hstage =>
    obtain rfl := Option.some.inj h
    exact .inl ⟨rfl, rfl, trivial⟩
  case h_3 hstage =>
    obtain rfl := Option.some.inj h
    rw [hstage] at hn
    exact .inl ⟨rfl, rfl, hn⟩
  case h_5 hstage | h_10 hstage =>
    split at h
    · obtain rfl := Option.some.inj h
      exact .inl ⟨rfl, rfl, trivial⟩
    · cases h
  case h_6 act =>
    obtain ⟨hstage, hfsm⟩ := stepSys_keeps h
    exact .inl ⟨rfl, hfsm, hstage ▸ hn⟩
  case h_7 | h_8 =>
    split at h
    · obtain rfl := Option.some.inj h
      exact .inl ⟨rfl, rfl, hn⟩
    · cases h
  case h_9 hstage =>
    rw [hstage] at hn
    split at h
    · split at h
      · obtain rfl := Option.some.inj h
        exact .inl ⟨rfl, rfl, hn⟩
      · obtain rfl := Option.some.inj h
        exact .inl ⟨rfl, rfl, trivial⟩
      · cases h
      · cases h
    · cases h
  case h_14 => cases h

/-! ## What a receiver has seen -/

/-- What a receiver has seen of what was sent. -/
structure PhaseReceiver.Follows (sent : List SyncPhase) (r : PhaseReceiver) : Prop where
  version_le : r.version ≤ sent.length
  told : r.told = true → 0 < r.version
  seen : ∀ phase ∈ r.seen, phase ∈ sent
  ordered : r.seen.Pairwise fun p q => p.asU8 ≤ q.asU8
  newest : r.told = false → r.version = sent.length → r.seen.getLast? = sent.getLast?

theorem follows_clone (sent : List SyncPhase) : PhaseReceiver.clone.Follows sent where
  version_le := Nat.zero_le _
  told := fun h => by cases h
  seen := fun _ h => absurd h List.not_mem_nil
  ordered := .nil
  newest := fun _ h => by rw [List.eq_nil_of_length_eq_zero h.symm]; rfl

theorem PhaseReceiver.Follows.send {sent : List SyncPhase} {r : PhaseReceiver}
    (h : r.Follows sent) (phase : SyncPhase) : r.Follows (sent ++ [phase]) where
  version_le := by
    have hle := h.version_le
    rw [List.length_append]
    omega
  told := h.told
  seen := fun phase hphase => List.mem_append_left _ (h.seen phase hphase)
  ordered := h.ordered
  newest := by
    intro _ heq
    have hle := h.version_le
    rw [List.length_append, List.length_singleton] at heq
    omega

theorem PhaseReceiver.Follows.changed {sent : List SyncPhase} {r : PhaseReceiver}
    (h : r.Follows sent) (hchanged : r.version ≠ sent.length) :
    PhaseReceiver.Follows sent { r with version := sent.length, told := true } where
  version_le := Nat.le_refl _
  told := by
    intro _
    have hle := h.version_le
    show 0 < sent.length
    omega
  seen := h.seen
  ordered := h.ordered
  newest := fun htold => by cases htold

/-- What is read now comes from the end of what was sent, in order. -/
theorem PhaseReceiver.Follows.borrow {sent : List SyncPhase} {r : PhaseReceiver}
    (h : r.Follows sent) (htold : r.told = true)
    (hsent : sent.Pairwise fun p q => p.asU8 ≤ q.asU8) :
    PhaseReceiver.Follows sent
      { r with told := false, seen := r.seen ++ [sent.getLast?.getD .started] } := by
  have hpos := h.told htold
  have hle := h.version_le
  have hne : sent ≠ [] := List.ne_nil_of_length_pos (by omega)
  obtain ⟨last, hlast⟩ : ∃ last, sent.getLast? = some last := ⟨_, List.getLast?_eq_some_getLast hne⟩
  have hmem : last ∈ sent := List.mem_of_getLast? hlast
  have hlastLe : ∀ phase ∈ sent, phase.asU8 ≤ last.asU8 := by
    intro phase hphase
    obtain ⟨front, rfl⟩ := List.getLast?_eq_some_iff.1 hlast
    rcases List.mem_append.1 hphase with hphase | hphase
    · exact (List.pairwise_append.1 hsent).2.2 phase hphase last List.mem_cons_self
    · exact List.mem_singleton.1 hphase ▸ UInt8.le_refl _
  rw [hlast, Option.getD_some]
  exact
    { version_le := h.version_le
      told := fun htold => by cases htold
      seen := fun phase hphase => (List.mem_append.1 hphase).elim (h.seen phase)
        fun hphase => List.mem_singleton.1 hphase ▸ hmem
      ordered := List.pairwise_append.2 ⟨h.ordered, List.pairwise_singleton _ _,
        fun phase hphase q hq => List.mem_singleton.1 hq ▸ hlastLe phase (h.seen phase hphase)⟩
      newest := fun _ _ => by rw [hlast, List.getLast?_concat] }

/-! ## Every run -/

/-- What is stored is what is sent, or about to be; and every receiver follows. -/
structure Watched.Kept (s : Watched) : Prop where
  stored : ∃ n, s.lead.stage.Stores n ∧ s.sent ++ s.unsent.toList = leaderPhases.take n
  phase : s.lead.fsm.phase = (s.sent ++ s.unsent.toList).getLast?.getD .started
  receivers : ∀ r ∈ s.receivers, r.Follows s.sent

theorem Watched.Kept.ordered {s : Watched} (h : s.Kept) :
    s.sent.Pairwise fun p q => p.asU8 ≤ q.asU8 := by
  obtain ⟨n, -, hsent⟩ := h.stored
  refine leaderPhases_ordered.sublist ?_
  exact (List.sublist_append_left _ _).trans (hsent ▸ List.take_sublist n leaderPhases)

theorem Watched.Kept.setReceiver {s : Watched} (h : s.Kept) (k : Nat) {r : PhaseReceiver}
    (hr : r.Follows s.sent) : (s.setReceiver k r).Kept :=
  ⟨h.stored, h.phase, fun r' hr' =>
    (List.mem_or_eq_of_mem_set hr').elim (h.receivers r') fun heq => heq ▸ hr⟩

/-- A step of `run_leader` stores the next phase only where the last one is sent. -/
theorem Watched.Kept.lead {s : Watched} {act : LeadAct} {lead : Leading} (h : s.Kept)
    (hfree : ¬ (act.isLeaders = true ∧ s.unsent.isSome = true))
    (hlead : s.lead.step act = some lead) :
    Watched.Kept { s with lead, unsent := act.stores.orElse fun _ => s.unsent } := by
  obtain ⟨n, hn, hsent⟩ := h.stored
  rcases stores_step hlead hn with
    ⟨hnone, hfsm, hn'⟩ | ⟨phase, hsome, hown, hnext, hphase, hn'⟩
  · have hunsent : act.stores.orElse (fun _ => s.unsent) = s.unsent := by rw [hnone]; rfl
    refine ⟨⟨n, hn', ?_⟩, ?_, h.receivers⟩
    · rw [hunsent]
      exact hsent
    · rw [hunsent, hfsm]
      exact h.phase
  · have hnone : s.unsent = none := by
      cases hunsent : s.unsent with
      | none => rfl
      | some phase => exact absurd ⟨hown, by rw [hunsent]; rfl⟩ hfree
    have hunsent : act.stores.orElse (fun _ => s.unsent) = some phase := by rw [hsome]; rfl
    rw [hnone, Option.toList_none, List.append_nil] at hsent
    refine ⟨⟨n + 1, hn', ?_⟩, ?_, h.receivers⟩
    · rw [hunsent, List.take_add_one, hnext, hsent]
    · rw [hunsent, hphase, Option.toList_some, List.getLast?_concat, Option.getD_some]

theorem Watched.Kept.step {s t : Watched} {act : WatchAct} (h : s.Kept)
    (hstep : s.step act = some t) : t.Kept := by
  cases act with
  | lead act =>
      simp only [Watched.step] at hstep
      split at hstep
      · cases hstep
      · next hfree =>
          obtain ⟨lead, hlead, rfl⟩ := Option.map_eq_some_iff.1 hstep
          exact h.lead hfree hlead
  | send =>
      obtain ⟨phase, hunsent, rfl⟩ := Option.map_eq_some_iff.1 hstep
      obtain ⟨n, hn, hsent⟩ := h.stored
      have hphase := h.phase
      rw [hunsent, Option.toList_some] at hsent hphase
      refine ⟨⟨n, hn, ?_⟩, ?_, fun r hr => (h.receivers r hr).send phase⟩
      · rw [Option.toList_none, List.append_nil]
        exact hsent
      · rw [Option.toList_none, List.append_nil]
        exact hphase
  | stateNotify =>
      obtain rfl := Option.some.inj hstep
      refine ⟨h.stored, h.phase, fun r hr => ?_⟩
      rcases List.mem_append.1 hr with hr | hr
      · exact h.receivers r hr
      · exact List.mem_singleton.1 hr ▸ follows_clone s.sent
  | changed k =>
      obtain ⟨r, hr, hsome⟩ := Option.bind_eq_some_iff.1 hstep
      split at hsome
      · next hchanged =>
          obtain rfl := Option.some.inj hsome
          simp only [Watched.isChanged, Bool.and_eq_true, bne_iff_ne] at hchanged
          exact h.setReceiver k
            ((h.receivers r (List.mem_of_getElem? hr)).changed hchanged.2)
      · cases hsome
  | borrow k =>
      obtain ⟨r, hr, hsome⟩ := Option.bind_eq_some_iff.1 hstep
      split at hsome
      · next htold =>
          obtain rfl := Option.some.inj hsome
          exact h.setReceiver k
            ((h.receivers r (List.mem_of_getElem? hr)).borrow htold h.ordered)
      · cases hsome

/-- `changed` on a new clone returns at once as soon as there is a phase. -/
theorem Watched.Kept.changesAtOnce_iff {s : Watched} (h : s.Kept) (hunsent : s.unsent = none) :
    s.changesAtOnce = true ↔ s.lead.fsm.phase ≠ .started := by
  obtain ⟨n, -, hsent⟩ := h.stored
  have hphase := h.phase
  rw [hunsent, Option.toList_none, List.append_nil] at hphase hsent
  have hchanges : s.changesAtOnce = true ↔ s.sent ≠ [] := by
    simp only [Watched.changesAtOnce, Watched.isChanged, PhaseReceiver.clone, bne_iff_ne]
    rw [ne_comm, Ne, List.length_eq_zero_iff]
  rw [hchanges, hphase]
  constructor
  · intro hne hstarted
    obtain ⟨last, hlast⟩ : ∃ last, s.sent.getLast? = some last :=
      ⟨_, List.getLast?_eq_some_getLast hne⟩
    rw [hlast, Option.getD_some] at hstarted
    subst hstarted
    have hmem : SyncPhase.started ∈ leaderPhases.take n := hsent ▸ List.mem_of_getLast? hlast
    exact absurd (List.mem_of_mem_take hmem) (by decide)
  · intro hne hnil
    rw [hnil] at hne
    exact hne rfl

/-- However the leader, its input task and any number of receivers take turns: no
receiver sees the leader go back, each phase it sees was sent, and where it waits
with nothing to be told the last it has seen is the leader's phase. But
`wait_for_change` waits in the first phase only. -/
theorem receivers_follow_leader (self : RedisInput) (incoming : List TcpRead) (sys : Sys)
    {acts : List WatchAct} {t : Watched}
    (hrun : Steps Watched.step Free (.init self incoming sys) acts t) :
    (∀ r ∈ t.receivers,
      r.seen.Pairwise (fun p q => p.asU8 ≤ q.asU8) ∧ (∀ phase ∈ r.seen, phase ∈ t.sent) ∧
        (t.unsent = none → r.told = false → t.isChanged r = false →
          r.seen.getLast?.getD .started = t.lead.fsm.phase)) ∧
      (t.unsent = none → (t.changesAtOnce = true ↔ t.lead.fsm.phase ≠ .started)) := by
  have hkept : t.Kept :=
    hrun.invariant (fun _ _ _ h _ hstep => h.step hstep)
      { stored := ⟨0, rfl, rfl⟩
        phase := rfl
        receivers := fun r hr => absurd hr List.not_mem_nil }
  refine ⟨fun r hr => ?_, hkept.changesAtOnce_iff⟩
  have hfollows := hkept.receivers r hr
  refine ⟨hfollows.ordered, hfollows.seen, fun hunsent htold hchanged => ?_⟩
  have hphase := hkept.phase
  rw [hunsent, Option.toList_none, List.append_nil] at hphase
  rw [hphase, hfollows.newest htold (by simpa [Watched.isChanged] using hchanged)]

/-- A receiver that is told of the first phase when the second is stored, and of the
second when it is sent. -/
def watchingActs : List WatchAct :=
  [.lead .startFullSync, .stateNotify, .send, .changed 0, .lead .spawnInput,
    .lead .beginFullSync, .borrow 0, .send, .changed 0, .borrow 0]

def watchedStart : Watched := .init freshInput sampleReads (.init (.new ∅) true [])

theorem receivers_follow_leader_watching :
    (after Watched.step watchedStart watchingActs).lead.fsm.phase = .fullSyncing ∧
      (after Watched.step watchedStart watchingActs).changesAtOnce = true := by
  have hrun : Steps Watched.step Free watchedStart watchingActs
      (after Watched.step watchedStart watchingActs) := .of_after (by decide +kernel)
  obtain ⟨hfollow, hchanges⟩ := receivers_follow_leader _ _ _ hrun
  have hreceivers : (after Watched.step watchedStart watchingActs).receivers
      = [{ version := 2, told := false, seen := [.fullInit, .fullSyncing] }] := by
    decide +kernel
  have hunsent : (after Watched.step watchedStart watchingActs).unsent = none := by
    decide +kernel
  obtain ⟨-, -, hlast⟩ := hfollow _ (hreceivers ▸ List.mem_cons_self)
  have hphase := (hlast hunsent rfl (by decide +kernel)).symm
  exact ⟨hphase, (hchanges hunsent).2 (by rw [hphase]; decide)⟩

end RedisHaTool.Syncer
