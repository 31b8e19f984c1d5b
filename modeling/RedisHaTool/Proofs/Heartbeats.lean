import Mathlib.Data.List.Chain
import RedisHaTool.Proofs.InputEffects
import RedisHaTool.Syncer.Heartbeat

/-!
# The heartbeat changes nothing

With its acknowledgements left out, the receiving loop does what it does without
a clock: rounds that time out, acknowledgements that fail and the time all of it
takes are not seen by the rest of the program. What an acknowledgement reports is
what has been written and flushed by then, no more and no less; and however the
time is spent, one is tried no sooner than ten seconds after the one before and no
later than a round after that.
-/

namespace RedisHaTool.Syncer

open Lib

/-! ## The log -/

def HeartbeatEvent.effect : HeartbeatEvent → Option InputOp
  | .op o => some o
  | .ack _ _ _ => none

def HeartbeatEvent.ackTime : HeartbeatEvent → Option Nat
  | .op _ => none
  | .ack now _ _ => some now

def InputOp.written : InputOp → Option Bytes
  | .writeAof bs => some bs
  | _ => none

/-- What the rest of the program sees of the loop. -/
def opsIn (log : List HeartbeatEvent) : List InputOp := log.filterMap HeartbeatEvent.effect

/-- When acknowledgements were tried. -/
def ackTimes (log : List HeartbeatEvent) : List Nat := log.filterMap HeartbeatEvent.ackTime

/-- What was written, write by write. -/
def writesIn (log : List HeartbeatEvent) : List Bytes := (opsIn log).filterMap InputOp.written

@[simp] theorem opsIn_append (log events : List HeartbeatEvent) :
    opsIn (log ++ events) = opsIn log ++ opsIn events := List.filterMap_append

@[simp] theorem ackTimes_append (log events : List HeartbeatEvent) :
    ackTimes (log ++ events) = ackTimes log ++ ackTimes events := List.filterMap_append

@[simp] theorem writesIn_append (log events : List HeartbeatEvent) :
    writesIn (log ++ events) = writesIn log ++ writesIn events := by
  rw [writesIn, opsIn_append, List.filterMap_append, writesIn, writesIn]

/-- The read of a round, if there is one. -/
def Round.read (r : Round) : Option TcpRead :=
  match r.result with
  | .bytes bs _ => some bs
  | _ => none

def roundReads (rounds : List Round) : List TcpRead := rounds.filterMap Round.read

/-- The same as pieces of the stream. -/
def piecesOf (rounds : List Round) : List Bytes := (roundReads rounds).map Subtype.val

theorem piecesOf_cons (r : Round) (rounds : List Round) :
    piecesOf (r :: rounds) = (r.read.map Subtype.val).toList ++ piecesOf rounds := by
  rw [piecesOf, piecesOf, roundReads, List.filterMap_cons, roundReads]
  cases r.read with
  | none => rfl
  | some bs => rfl

/-! ## One round -/

/-- At the head of the loop it is too soon, or an acknowledgement is tried. -/
theorem checkAck_cases {h : Heartbeat} (hin : IsI64 (h.initialOffset + h.received)) (took : Nat)
    (sent : Bool) :
    (h.now - h.lastAckTime < ackInterval ∧ h.checkAck took sent = h) ∨
      (ackInterval ≤ h.now - h.lastAckTime ∧ h.checkAck took sent = { h with
        now := h.now + took, lastAckTime := h.now,
        log := h.log ++ [.ack h.now (h.initialOffset + h.received) sent] }) := by
  rw [Heartbeat.checkAck]
  split
  · next hdue =>
      rw [if_pos hin]
      exact .inr ⟨hdue, rfl⟩
  · next hsoon => exact .inl ⟨Nat.lt_of_not_le hsoon, rfl⟩

/-- The loop is still running: it has passed on the pieces it has read, each of
them flushed and its end stored, and has told nothing else. -/
structure Heartbeat.Running (h : Heartbeat) (runId : Text) (initialOffset : Int)
    (pieces : List Bytes) : Prop where
  ended : h.ended = none
  offset : h.initialOffset = initialOffset
  received : h.received = (pieces.flatten.length : Nat)
  inRange : IsI64 (initialOffset + h.received)
  writes : writesIn h.log = pieces
  ops : ∀ rest, opsIn h.log ++ aofEffects initialOffset h.received rest
    = streamEffects runId initialOffset (pieces ++ rest)

/-- Every acknowledgement reports what was written before it, all of which was
flushed by then. -/
def Acknowledges (runId : Text) (initialOffset : Int) (log : List HeartbeatEvent) : Prop :=
  ∀ pre now offset sent post, log = pre ++ .ack now offset sent :: post →
    offset = initialOffset + ((writesIn pre).flatten.length : Nat) ∧
      opsIn pre = streamEffects runId initialOffset (writesIn pre)

variable {runId : Text} {initialOffset : Int} {pieces : List Bytes} {h t : Heartbeat}

theorem Heartbeat.Running.opsIn_eq (hrun : h.Running runId initialOffset pieces) :
    opsIn h.log = streamEffects runId initialOffset (writesIn h.log) := by
  have hops := hrun.ops []
  rwa [List.append_nil, aofEffects, List.append_nil, ← hrun.writes] at hops

theorem Acknowledges.ops (hacks : Acknowledges runId initialOffset h.log)
    (ops : List InputOp) : Acknowledges runId initialOffset (h.log ++ ops.map .op) := by
  intro pre now offset sent post hlog
  rcases List.append_eq_append_iff.1 hlog with ⟨mid, rfl, hops⟩ | ⟨mid, hlog, hpost⟩
  · have hmem : HeartbeatEvent.ack now offset sent ∈ ops.map HeartbeatEvent.op :=
      hops ▸ List.mem_append_right _ List.mem_cons_self
    obtain ⟨op, -, hop⟩ := List.mem_map.1 hmem
    cases hop
  · cases mid with
    | nil =>
        have hmem : HeartbeatEvent.ack now offset sent ∈ ops.map HeartbeatEvent.op := by
          rw [List.nil_append] at hpost
          exact hpost ▸ List.mem_cons_self
        obtain ⟨op, -, hop⟩ := List.mem_map.1 hmem
        cases hop
    | cons event mid =>
        obtain ⟨rfl, -⟩ := List.cons.inj hpost
        exact hacks pre now offset sent mid hlog

/-- The check at the head leaves it running, and reports where it is. -/
theorem Heartbeat.Running.checkAck (hrun : h.Running runId initialOffset pieces)
    (hacks : Acknowledges runId initialOffset h.log) (took : Nat) (sent : Bool) :
    (h.checkAck took sent).Running runId initialOffset pieces ∧
      Acknowledges runId initialOffset (h.checkAck took sent).log := by
  have hin : IsI64 (h.initialOffset + h.received) := hrun.offset ▸ hrun.inRange
  rcases checkAck_cases hin took sent with ⟨-, heq⟩ | ⟨-, heq⟩
  · rw [heq]
    exact ⟨hrun, hacks⟩
  · rw [heq]
    refine ⟨⟨hrun.ended, hrun.offset, hrun.received, hrun.inRange, ?_, fun rest => ?_⟩, ?_⟩
    · rw [writesIn_append, hrun.writes]
      exact List.append_nil pieces
    · rw [opsIn_append]
      exact (congrArg (· ++ _) (List.append_nil _)).trans (hrun.ops rest)
    · intro pre now offset sent' post hlog
      rcases List.eq_nil_or_concat' post with rfl | ⟨post, last, rfl⟩
      · obtain ⟨hpre, hlast⟩ := List.append_inj' hlog rfl
        obtain ⟨-, rfl, -⟩ := HeartbeatEvent.ack.inj (List.singleton_inj.1 hlast)
        rw [← hpre, hrun.opsIn_eq, hrun.writes, hrun.offset, hrun.received]
        exact ⟨rfl, rfl⟩
      · rw [← List.cons_append, ← List.append_assoc] at hlog
        exact hacks pre now offset sent' post (List.append_inj' hlog rfl).1

/-- The loop was left: what it passed on is a beginning of what it would have, and
all of it unless storing failed; it panics only past the last offset there is. -/
structure Heartbeat.Over (h : Heartbeat) (runId : Text) (initialOffset : Int)
    (pieces : List Bytes) : Prop where
  ended : h.ended ≠ none
  ops : ∃ rest, opsIn h.log ++ rest = streamEffects runId initialOffset pieces ∧
    ((∀ kind, h.ended ≠ some (.err (.io kind))) → rest = [])
  panics : h.ended = some .panic → ¬ IsI64 (initialOffset + (pieces.flatten.length : Nat))

theorem Heartbeat.Running.opsIn_streamEffects (hrun : h.Running runId initialOffset pieces) :
    opsIn h.log = streamEffects runId initialOffset pieces := by
  rw [hrun.opsIn_eq, hrun.writes]

/-- What is stored is one piece more. -/
theorem Heartbeat.Running.stored (hrun : h.Running runId initialOffset pieces) (bs : TcpRead) :
    (h.take (.bytes bs .stored)).Running runId initialOffset (pieces ++ [bs.val]) ∨
      (h.take (.bytes bs .stored)).Over runId initialOffset (pieces ++ [bs.val]) := by
  obtain rfl := hrun.offset
  have hops := fun rest => hrun.ops (bs.val :: rest)
  have hlen : (pieces ++ [bs.val]).flatten.length = pieces.flatten.length + bs.val.length := by
    rw [List.flatten_append, List.flatten_singleton, List.length_append]
  by_cases hin : IsI64 (h.initialOffset + (h.received + bs.val.length))
  · left
    simp only [aofEffects, if_pos hin] at hops
    rw [Heartbeat.take, if_pos hin]
    refine ⟨hrun.ended, rfl, ?_, hin, ?_, fun rest => ?_⟩
    · show h.received + bs.val.length = _
      rw [hlen, hrun.received, Nat.cast_add]
    · rw [← hrun.writes]
      simp [writesIn, opsIn, HeartbeatEvent.effect, InputOp.written]
    · rw [List.append_assoc pieces, List.singleton_append, ← hops rest]
      simp [opsIn, HeartbeatEvent.effect]
  · right
    simp only [aofEffects, if_neg hin, List.append_nil] at hops
    rw [Heartbeat.take, if_neg hin]
    refine ⟨by simp, ⟨[], ?_, fun _ => rfl⟩, fun _ => ?_⟩
    · rw [← hops []]
      simp [opsIn, HeartbeatEvent.effect]
    · rw [hlen, Nat.cast_add, ← hrun.received]
      exact hin

/-- What a read gives leaves the loop running, one piece on if there is one, or
ends it. -/
theorem Heartbeat.Running.take (hrun : h.Running runId initialOffset pieces)
    (hacks : Acknowledges runId initialOffset h.log) (r : Round) :
    ((h.take r.result).Running runId initialOffset
        (pieces ++ (r.read.map Subtype.val).toList) ∨
      (h.take r.result).Over runId initialOffset
        (pieces ++ (r.read.map Subtype.val).toList)) ∧
      Acknowledges runId initialOffset (h.take r.result).log := by
  have hops := hrun.opsIn_streamEffects
  rw [Round.read]
  cases hresult : r.result with
  | timedOut =>
      rw [Option.map_none, Option.toList_none, List.append_nil]
      exact ⟨.inl hrun, hacks⟩
  | closed =>
      rw [Option.map_none, Option.toList_none, List.append_nil]
      exact ⟨.inr ⟨by simp [Heartbeat.take], ⟨[], (List.append_nil _).trans hops, fun _ => rfl⟩,
        by simp [Heartbeat.take]⟩, hacks⟩
  | failed error =>
      rw [Option.map_none, Option.toList_none, List.append_nil]
      exact ⟨.inr ⟨by simp [Heartbeat.take], ⟨[], (List.append_nil _).trans hops, fun _ => rfl⟩,
        by simp [Heartbeat.take]⟩, hacks⟩
  | bytes bs storing =>
      rw [Option.map_some, Option.toList_some]
      have hmore := hrun.ops [bs.val]
      rw [aofEffects] at hmore
      cases storing with
      | stored =>
          refine ⟨hrun.stored bs, ?_⟩
          rw [Heartbeat.take]
          split
          · rw [List.append_assoc]
            exact hacks.ops [.writeAof bs.val, .flushAof, .storePsyncOffset _]
          · exact hacks.ops [.writeAof bs.val, .flushAof]
      | writeFails kind =>
          refine ⟨.inr ⟨by simp [Heartbeat.take], ⟨_, hmore, fun h => ?_⟩,
            by simp [Heartbeat.take]⟩, hacks⟩
          exact absurd rfl (h kind)
      | flushFails kind =>
          obtain ⟨rest, hrest⟩ : ∃ rest, opsIn h.log ++ ([.writeAof bs.val] ++ rest)
              = streamEffects runId initialOffset (pieces ++ [bs.val]) :=
            ⟨.flushAof :: _, hmore⟩
          refine ⟨.inr ⟨by simp [Heartbeat.take], ⟨rest, ?_, fun h => ?_⟩,
            by simp [Heartbeat.take]⟩, hacks.ops [.writeAof bs.val]⟩
          · rw [← hrest, Heartbeat.take, opsIn_append, List.append_assoc]
            rfl
          · exact absurd rfl (h kind)

/-! ## Every run -/

/-- Running or over, after these pieces. -/
def Heartbeat.Beats (h : Heartbeat) (runId : Text) (initialOffset : Int) (pieces : List Bytes) :
    Prop :=
  (h.Running runId initialOffset pieces ∨ h.Over runId initialOffset pieces) ∧
    Acknowledges runId initialOffset h.log

theorem Heartbeat.Running.step (hrun : h.Running runId initialOffset pieces)
    (hacks : Acknowledges runId initialOffset h.log) {r : Round} (hstep : h.step r = some t) :
    t.Beats runId initialOffset (pieces ++ (r.read.map Subtype.val).toList) := by
  rw [Heartbeat.step] at hstep
  split at hstep
  · obtain rfl := Option.some.inj hstep
    obtain ⟨hhead, hacks'⟩ := hrun.checkAck hacks r.ackTook r.ackSent
    have hnot : ¬ (h.checkAck r.ackTook r.ackSent).ended.isSome = true := by
      rw [hhead.ended]
      exact Bool.false_ne_true
    rw [Heartbeat.round, if_neg hnot]
    -- Time that goes by is not seen.
    have hlater : Heartbeat.Running
        { h.checkAck r.ackTook r.ackSent with
          now := (h.checkAck r.ackTook r.ackSent).now + r.took } runId initialOffset pieces :=
      ⟨hhead.ended, hhead.offset, hhead.received, hhead.inRange, hhead.writes, hhead.ops⟩
    exact hlater.take hacks' r
  · cases hstep

theorem beats_of_steps {rounds : List Round} (hrun : Steps Heartbeat.step Free h rounds t)
    (hb : h.Beats runId initialOffset pieces) :
    t.Beats runId initialOffset (pieces ++ piecesOf rounds) := by
  induction hrun generalizing pieces with
  | refl h =>
      rw [show piecesOf [] = [] from rfl, List.append_nil]
      exact hb
  | @cons h u t r rounds _ hstep _ ih =>
      rw [piecesOf_cons, ← List.append_assoc]
      rcases hb.1 with hrunning | hover
      · exact ih (hrunning.step hb.2 hstep)
      · rw [Heartbeat.step, if_neg fun hcan => hover.ended hcan.1] at hstep
        cases hstep

theorem running_start (runId : Text) (hoffset : IsI64 initialOffset) (now : Nat) :
    (Heartbeat.start runId initialOffset now).Running runId initialOffset [] where
  ended := rfl
  offset := rfl
  received := rfl
  inRange := by
    show IsI64 (initialOffset + 0)
    rwa [Int.add_zero]
  writes := rfl
  ops := fun _ => rfl

theorem beats_start (runId : Text) (hoffset : IsI64 initialOffset) (now : Nat) :
    (Heartbeat.start runId initialOffset now).Beats runId initialOffset [] := by
  refine ⟨.inl (running_start runId hoffset now), fun pre now offset sent post hlog => ?_⟩
  have hmem : HeartbeatEvent.ack now offset sent
      ∈ [HeartbeatEvent.op (.getAofWriter runId initialOffset)] :=
    (show [HeartbeatEvent.op (.getAofWriter runId initialOffset)] = _ from hlog) ▸
      List.mem_append_right _ List.mem_cons_self
  cases List.mem_singleton.1 hmem

/-- Without its acknowledgements the loop does to the rest of the program what the
loop without a clock does on the same reads: all of it unless storing failed, and
a beginning of it then. It panics only past the last offset there is. -/
theorem heartbeat_refines (self : RedisInput) (hoffset : IsI64 initialOffset) {now : Nat}
    {rounds : List Round} {psyncOffset : Int}
    (hrun : Steps Heartbeat.step Free (.start self.runId initialOffset now) rounds h) :
    (∃ rest, opsIn h.log ++ rest = opsOf (self.receiveAofStream initialOffset
        { reader := { buffer := [], incoming := roundReads rounds }, psyncOffset, ops := [] }) ∧
      ((∀ kind, h.ended ≠ some (.err (.io kind))) → rest = [])) ∧
    (h.ended = some .panic →
      ¬ IsI64 (initialOffset + ((piecesOf rounds).flatten.length : Nat))) := by
  have hstream : opsOf (self.receiveAofStream initialOffset
      { reader := { buffer := [], incoming := roundReads rounds }, psyncOffset, ops := [] })
        = streamEffects self.runId initialOffset (piecesOf rounds) :=
    receiveAofStream_effects self initialOffset (Nat.zero_le 8192)
  rw [hstream]
  have hbeats := beats_of_steps hrun (beats_start self.runId hoffset now)
  rw [List.nil_append] at hbeats
  rcases hbeats.1 with hrunning | hover
  · refine ⟨⟨[], ?_, fun _ => rfl⟩, fun hpanic => ?_⟩
    · rw [List.append_nil, hrunning.opsIn_streamEffects]
    · rw [hrunning.ended] at hpanic
      cases hpanic
  · exact ⟨hover.ops, hover.panics⟩

/-! ## Acknowledgements -/

/-- How long a round takes. -/
def Round.duration (r : Round) : Nat := r.ackTook + r.took

/-- Acknowledgements are tried at least ten seconds apart, the first of them so
long after the start, and less than a round longer than that. -/
structure Heartbeat.OnTime (h : Heartbeat) (start : Nat) (longest : Nat) : Prop where
  last : (start :: ackTimes h.log).getLast? = some h.lastAckTime
  le : h.lastAckTime ≤ h.now
  since : h.now - h.lastAckTime < ackInterval + longest
  apart : (start :: ackTimes h.log).IsChain fun a b =>
    a + ackInterval ≤ b ∧ b < a + ackInterval + longest

theorem ackTimes_take (h : Heartbeat) (result : ReadResult) :
    ackTimes (h.take result).log = ackTimes h.log ∧ (h.take result).now = h.now ∧
      (h.take result).lastAckTime = h.lastAckTime := by
  cases result with
  | timedOut => exact ⟨rfl, rfl, rfl⟩
  | closed => exact ⟨rfl, rfl, rfl⟩
  | failed error => exact ⟨rfl, rfl, rfl⟩
  | bytes bs storing =>
      cases storing with
      | writeFails kind => exact ⟨rfl, rfl, rfl⟩
      | flushFails kind =>
          exact ⟨by simp [Heartbeat.take, ackTimes, HeartbeatEvent.ackTime], rfl, rfl⟩
      | stored =>
          rw [Heartbeat.take]
          split
          · exact ⟨by simp [ackTimes, HeartbeatEvent.ackTime], rfl, rfl⟩
          · exact ⟨by simp [ackTimes, HeartbeatEvent.ackTime], rfl, rfl⟩

variable {start : Nat} {longest : Nat}

/-- Time that goes by before the next check. -/
theorem Heartbeat.OnTime.take (hon : h.OnTime start longest) {took : Nat}
    (hsince : h.now + took - h.lastAckTime < ackInterval + longest) (result : ReadResult) :
    ({ h with now := h.now + took }.take result).OnTime start longest := by
  obtain ⟨hacks, hnow, hlast⟩ := ackTimes_take { h with now := h.now + took } result
  refine ⟨?_, ?_, ?_, ?_⟩
  · rw [hacks, hlast]
    exact hon.last
  · rw [hnow, hlast]
    exact Nat.le_trans hon.le (Nat.le_add_right _ _)
  · rw [hnow, hlast]
    exact hsince
  · rw [hacks]
    exact hon.apart

/-- After the check at the head there is time left for the rest of the round. -/
theorem Heartbeat.OnTime.checkAck (hon : h.OnTime start longest) {took rest : Nat}
    (hlong : took + rest ≤ longest) (sent : Bool) :
    (h.checkAck took sent).OnTime start longest ∧ ((h.checkAck took sent).ended = none →
      (h.checkAck took sent).now + rest - (h.checkAck took sent).lastAckTime
        < ackInterval + longest) := by
  have hle := hon.le
  have hsince := hon.since
  have hpos : 0 < ackInterval := by decide
  by_cases hdue : ackInterval ≤ h.now - h.lastAckTime
  · by_cases hin : IsI64 (h.initialOffset + h.received)
    · simp only [Heartbeat.checkAck, if_pos hdue, if_pos hin]
      refine ⟨⟨?_, Nat.le_add_right _ _, ?_, ?_⟩, fun _ => ?_⟩
      · rw [ackTimes_append, ← List.cons_append]
        exact List.getLast?_concat
      · show h.now + took - h.now < _
        omega
      · rw [ackTimes_append, ← List.cons_append]
        refine hon.apart.append (.singleton _) fun a ha b hb => ?_
        obtain rfl := Option.some.inj (hon.last.symm.trans ha)
        obtain rfl := Option.some.inj hb
        omega
      · omega
    · simp only [Heartbeat.checkAck, if_pos hdue, if_neg hin]
      exact ⟨⟨hon.last, hon.le, hon.since, hon.apart⟩, fun hended => by cases hended⟩
  · simp only [Heartbeat.checkAck, if_neg hdue]
    exact ⟨hon, fun _ => by omega⟩

theorem Heartbeat.OnTime.step (hon : h.OnTime start longest) {r : Round}
    (hlong : r.duration ≤ longest) (hstep : h.step r = some t) : t.OnTime start longest := by
  rw [Heartbeat.step] at hstep
  split at hstep
  · obtain rfl := Option.some.inj hstep
    obtain ⟨hhead, hleft⟩ := hon.checkAck hlong r.ackSent
    rw [Heartbeat.round]
    by_cases hended : (h.checkAck r.ackTook r.ackSent).ended = none
    · rw [if_neg (by rw [hended]; exact Bool.false_ne_true)]
      exact hhead.take (hleft hended) r.result
    · rw [if_pos (Option.isSome_iff_ne_none.2 hended)]
      exact hhead
  · cases hstep

theorem onTime_start (runId : Text) (initialOffset : Int) (now : Nat) (longest : Nat) :
    (Heartbeat.start runId initialOffset now).OnTime now longest := by
  refine ⟨rfl, Nat.le_refl _, ?_, .singleton _⟩
  show now - now < _
  rw [Nat.sub_self, ackInterval, fromSecs]
  omega

/-- In every run each acknowledgement reports what has been written and flushed by
then, and nothing else was passed on; and if no round takes longer than so much,
one is tried ten seconds after the one before at the soonest, and at the latest
before so much more has gone by. -/
theorem heartbeat_onTime (runId : Text) (hoffset : IsI64 initialOffset) {rounds : List Round}
    (hlong : ∀ r ∈ rounds, r.duration ≤ longest)
    (hrun : Steps Heartbeat.step Free (.start runId initialOffset start) rounds h) :
    (∀ pre now offset sent post, h.log = pre ++ .ack now offset sent :: post →
      offset = initialOffset + ((writesIn pre).flatten.length : Nat) ∧
        opsIn pre = streamEffects runId initialOffset (writesIn pre)) ∧
    ((start :: ackTimes h.log).IsChain fun a b =>
      a + ackInterval ≤ b ∧ b < a + ackInterval + longest) ∧
    h.now - h.lastAckTime < ackInterval + longest := by
  have hbeats := beats_of_steps hrun (beats_start runId hoffset start)
  have hon : h.OnTime start longest :=
    (hrun.of_forall_mem hlong).invariant (I := fun h => h.OnTime start longest)
      (fun _ _ _ hon hlong hstep => hon.step hlong hstep) (onTime_start runId initialOffset start _)
  exact ⟨hbeats.2, hon.apart, hon.since⟩

/-- A read, ten seconds of nothing, and an acknowledgement that fails. -/
def someRounds : List Round :=
  { ackTook := 0, ackSent := true, took := 5, result := .bytes ⟨[1, 2, 3], by decide⟩ .stored } ::
    (List.replicate 10 { ackTook := 0, ackSent := true, took := readTimeout, result := .timedOut }
      ++ [{ ackTook := 7, ackSent := false, took := 0, result := .closed }])

theorem steps_someRounds :
    Steps Heartbeat.step Free (.start "run_1".toList 100 0) someRounds
      (after Heartbeat.step (.start "run_1".toList 100 0) someRounds) :=
  Steps.of_after (by decide +kernel)

theorem heartbeat_refines_someRounds :
    ∃ rest, opsIn (after Heartbeat.step (.start "run_1".toList 100 0) someRounds).log ++ rest
      = opsOf ((RedisInput.mk "run_1".toList [] (-1)).receiveAofStream 100
        { reader := { buffer := [], incoming := roundReads someRounds }, psyncOffset := 0,
          ops := [] }) := by
  obtain ⟨⟨rest, hrest, -⟩, -⟩ :=
    heartbeat_refines (RedisInput.mk "run_1".toList [] (-1)) (by decide) steps_someRounds
  exact ⟨rest, hrest⟩

theorem heartbeat_onTime_someRounds :
    (0 :: ackTimes (after Heartbeat.step (.start "run_1".toList 100 0) someRounds).log).IsChain
      fun a b => a + ackInterval ≤ b ∧ b < a + ackInterval + readTimeout := by
  have hlong : ∀ r ∈ someRounds, r.duration ≤ readTimeout := by
    simp [someRounds, Round.duration, readTimeout, fromSecs]
  exact (heartbeat_onTime "run_1".toList (by decide) hlong steps_someRounds).2.1

end RedisHaTool.Syncer
