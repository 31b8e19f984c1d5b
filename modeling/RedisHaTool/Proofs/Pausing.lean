import RedisHaTool.Proofs.Delivery
import RedisHaTool.Syncer.Pausing

/-!
# What a paused leader sends

The forwarding loop does not look at the state, so a pause keeps nothing back:
what a turn begun while paused finds, it sends. Where it finds nothing it goes
to sleep, and the turn is over without having sent anything.
-/

namespace RedisHaTool.Syncer

open Lib Store

/-- Not past the question what there is to send. -/
def ForwardPc.isQuiet : ForwardPc → Bool
  | .check | .idle | .waiting | .done => true
  | .open | .sendRdb _ | .connect _ | .read _ _ | .write _ _ _ | .save _ => false

/-- A turn that finds nothing has nothing to show for it. -/
theorem Forwarder.Stepped.of_nothing {storer : FileStorer} {masterReplid : Text}
    {f f' : Forwarder} {act : ForwardAct} {events : List Event}
    (h : f.Stepped storer masterReplid act f' events) (hquiet : f.pc.isQuiet = true)
    (hnothing : act = .check → ¬ 0 < storer.availableBytes f.offset) :
    f'.pc.isQuiet = true ∧ events = [] := by
  cases h with
  | available hpc havailable => exact absurd havailable (hnothing rfl)
  | unavailable | listen | cancel => exact ⟨rfl, rfl⟩
  | noReader hpc | rdbReader hpc | aofReader hpc | aofConnect hpc | rdbFailed _ hpc
  | rdbPanic _ hpc | rdbPassed _ hpc | rdbSaving _ hpc | connected _ hpc
  | connectFailed _ hpc | read _ _ _ hpc | readFailed _ _ hpc | finishNothing _ hpc
  | finishPanic _ _ hpc | finish _ _ hpc | finishSaving _ _ hpc | wrote _ _ _ hpc
  | writeFailed _ _ _ hpc | saved _ _ _ hpc | saveFailed _ _ _ hpc =>
      rw [hpc] at hquiet
      cases hquiet

/-- A forwarding task there may be is not past its question. -/
def LeaderPc.IsQuiet (pc : LeaderPc) : Prop :=
  ∀ o f, pc = .forwarding o f → f.pc.isQuiet = true

theorem LeaderPc.IsQuiet.dataReady {pc : LeaderPc} (h : pc.IsQuiet) :
    pc.dataReady.IsQuiet := by
  intro o f hf
  cases pc with
  | forwarding o' f' =>
      have hquiet := h o' f' rfl
      obtain ⟨rfl, rfl⟩ := LeaderPc.forwarding.inj hf
      rw [Forwarder.notified]
      split
      · rfl
      · exact hquiet
  | spawned | listening | ready => cases hf

theorem LeaderPc.IsQuiet.psyncReady {pc : LeaderPc} (h : pc.IsQuiet) :
    pc.psyncReady.IsQuiet := by
  intro o f hf
  cases pc with
  | forwarding o' f' => exact h o f hf
  | spawned | listening | ready => cases hf

/-- No data has been sent by a turn begun while paused, nor is any about to
be. -/
structure Pausing.Held (s : Pausing) : Prop where
  sent : s.sentPaused = []
  quiet : s.begunPaused = true → s.sys.leader.IsQuiet

/-- What a step of the leader does while the turn under way was begun paused. -/
theorem Sys.Stepped.of_nothing {s t : Sys} {act : Act} (h : s.Stepped act t)
    (hquiet : s.leader.IsQuiet)
    (hnothing : act.beginsTurn = true →
      ∀ f ∈ s.leader.task, ¬ 0 < s.storer.availableBytes f.offset) :
    t.leader.IsQuiet ∧ (t.log.drop s.log.length).filter Event.isData = [] := by
  cases h with
  | input op ops now hinput =>
      constructor
      · rcases perform_leader { s with input := ops } now op with hl | hl | hl
        · rw [hl]
          exact hquiet
        · rw [hl]
          exact hquiet.dataReady
        · rw [hl]
          exact hquiet.psyncReady
      · rcases perform_log { s with input := ops } now op with hlog | ⟨bs, -, hlog⟩
        · rw [hlog, List.drop_length]
          rfl
        · rw [hlog, List.drop_left]
          rfl
  | listen | timeout =>
      refine ⟨(fun o f hf => by cases hf), ?_⟩
      rw [List.drop_length]
      rfl
  | start =>
      refine ⟨?_, ?_⟩
      · intro o f hf
        obtain ⟨-, rfl⟩ := LeaderPc.forwarding.inj hf
        rfl
      · rw [List.drop_length]
        rfl
  | forward o f f' act events hleader hstep =>
      have hact : act = .check → ¬ 0 < s.storer.availableBytes f.offset := by
        rintro rfl
        exact hnothing rfl f (by rw [hleader]; rfl)
      obtain ⟨hf', rfl⟩ := hstep.of_nothing (hquiet o f hleader) hact
      refine ⟨?_, ?_⟩
      · intro o' f'' hf
        obtain ⟨-, rfl⟩ := LeaderPc.forwarding.inj hf
        exact hf'
      · rw [List.append_nil, List.drop_length]
        rfl

/-- A turn begins with the task at the top of its loop. -/
theorem Sys.Stepped.isQuiet_of_beginsTurn {s t : Sys} {act : Act} (h : s.Stepped act t)
    (hbegins : act.beginsTurn = true) : s.leader.IsQuiet := by
  cases h with
  | input | listen | timeout | start => cases hbegins
  | forward o f f' act events hleader hstep =>
      intro o' f'' hf
      rw [hleader] at hf
      obtain ⟨-, rfl⟩ := LeaderPc.forwarding.inj hf
      cases hstep with
      | available hpc | unavailable hpc =>
          rw [hpc]
          rfl
      | _ => cases hbegins

theorem held_step {s t : Pausing} {act : PausingAct} (hs : s.Held)
    (hC : s.FindsNothing act) (hstep : s.step act = some t) : t.Held := by
  cases act with
  | pause =>
      obtain rfl := Option.some.inj hstep
      exact ⟨hs.sent, hs.quiet⟩
  | resume =>
      obtain rfl := Option.some.inj hstep
      exact ⟨hs.sent, hs.quiet⟩
  | leader act =>
      obtain ⟨sys, hsys, rfl⟩ := Option.map_eq_some_iff.1 hstep
      have hsys := Sys.Stepped.of_step hsys
      by_cases hpaused : (if act.beginsTurn then s.paused else s.begunPaused) = true
      · obtain ⟨hquiet, hdata⟩ : sys.leader.IsQuiet ∧
            (sys.log.drop s.sys.log.length).filter Event.isData = [] := by
          split at hpaused
          · next hbegins =>
              exact hsys.of_nothing (hsys.isQuiet_of_beginsTurn hbegins) fun _ =>
                hC hbegins hpaused
          · next hbegins => exact hsys.of_nothing (hs.quiet hpaused) fun h => absurd h hbegins
        refine ⟨?_, fun _ => hquiet⟩
        simp only [hs.sent, hdata, ite_self, List.append_nil]
      · refine ⟨?_, fun h => absurd h hpaused⟩
        simp only [hs.sent, if_neg hpaused, List.append_nil]

/-- Where every turn begun while paused finds nothing to send, no turn begun
while paused sends anything. -/
theorem sentPaused_eq_nil {sys : Sys} {acts : List PausingAct} {t : Pausing}
    (hrun : Steps Pausing.step Pausing.FindsNothing (.init sys) acts t) :
    t.sentPaused = [] := by
  have hinit : (Pausing.init sys).Held := ⟨rfl, fun h => by cases h⟩
  exact (hrun.invariant (fun _ _ _ hs hC hstep => held_step hs hC hstep) hinit).sent

/-- A leader whose input task has an empty segment open. -/
def pausingStart : Pausing := .init sampleStart

/-- A pause, and a turn that finds nothing and goes to sleep; the data that wakes
the task comes once the pause is over. -/
def pausedIdle : List PausingAct :=
  [.pause, .leader (.forward .check), .leader (.forward .listen), .resume,
   .leader (.input 0), .leader (.input 0), .leader (.forward .check),
   .leader (.forward .open), .leader (.forward .connected), .leader (.forward (.read 1)),
   .leader (.forward .wrote)]

/-- A pause, and then data that the next turn finds and sends. -/
def pausedBusy : List PausingAct :=
  [.pause, .leader (.input 0), .leader (.input 0), .leader (.forward .check),
   .leader (.forward .open), .leader (.forward .connected), .leader (.forward (.read 1)),
   .leader (.forward .wrote)]

theorem sentPaused_eq_nil_pausedIdle :
    (after Pausing.step pausingStart pausedIdle).sentPaused = [] := by
  have hrun : Steps Pausing.step Pausing.FindsNothing (.init sampleStart) pausedIdle
      (after Pausing.step pausingStart pausedIdle) := .of_after (by decide +kernel)
  exact sentPaused_eq_nil hrun

theorem not_sentPaused_eq_nil :
    ¬ ∀ (sys : Sys) (acts : List PausingAct) (t : Pausing),
      Steps Pausing.step Free (.init sys) acts t → t.sentPaused = [] := by
  intro h
  have hsent := h sampleStart pausedBusy _ (Steps.of_after (by decide +kernel))
  have hbusy : (after Pausing.step pausingStart pausedBusy).sentPaused = [.sent 0 [65]] := by
    decide +kernel
  cases hbusy.symm.trans hsent

end RedisHaTool.Syncer
