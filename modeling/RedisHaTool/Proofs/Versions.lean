import RedisHaTool.Checkpoint.Clients

/-!
# Versions that only grow

An update that finds the version it has read adds one to it. A save writes 0
over whatever there is, and an update that finds another version writes over
that one, so the version stands for the updates made exactly as long as neither
happens.
-/

namespace RedisHaTool.Checkpoint

open Lib

variable {id : Text} {s t u : Clients}

/-! ## One command -/

/-- A command on another field leaves the version. -/
theorem storedVersion_exec_ne {key field value : Text} (h : Hashes)
    (hne : key ≠ checkpointKey ∨ field ≠ versionField id) :
    storedVersion ((Command.hset key field value).exec h) id = storedVersion h id := by
  rw [storedVersion, storedVersion, hget_exec_ne h value hne]

theorem storedVersion_exec {version : Nat} (h : Hashes) (hlt : version < 2 ^ 64) :
    storedVersion
      ((Command.hset checkpointKey (versionField id) (natToString version)).exec h) id
      = version := by
  have hparse : parseU64 (natToString version) = some version :=
    parseUnsigned_natToString (by omega)
  rw [storedVersion, hget_exec_self, Option.bind_some, hparse, Option.getD_some]

/-- The commands of an update, from the version it has read. -/
def updateCommands (id : Text) (newOffset : Int) (version : Nat) (now : Rdb.SystemTime) :
    List Command :=
  [.hset checkpointKey (id ++ "_offset".toList) (intToString newOffset),
   .hset checkpointKey (versionField id) (natToString version),
   .hset checkpointKey (id ++ "_mtime".toList) (natToString (now / 1000000000))]

theorem updateOffset_eq {h : Hashes} {newOffset : Int} {now : Rdb.SystemTime}
    {left : List Command} (hleft : updateOffset h id newOffset now = some left) :
    storedVersion h id + 1 < 2 ^ 64 ∧
      left = updateCommands id newOffset (storedVersion h id + 1) now := by
  rw [updateOffset] at hleft
  split at hleft
  · next hlt => exact ⟨hlt, (Option.some.inj hleft).symm⟩
  · cases hleft

/-- A call has still to send an end of what it sends. -/
inductive ClientCall.Sends (id : Text) : ClientCall → Prop where
  | saving (offset : Int) (now : Rdb.SystemTime) (left : List Command)
      (h : left <:+ saveCheckpoint (.new id offset now)) : Sends id (.saving left)
  | reading (newOffset : Int) (now : Rdb.SystemTime) : Sends id (.reading newOffset now)
  | updating (newOffset : Int) (version : Nat) (now : Rdb.SystemTime) (left : List Command)
      (hlt : version < 2 ^ 64) (h : left <:+ updateCommands id newOffset version now) :
      Sends id (.updating left)
  | saved : Sends id .saved
  | updated : Sends id .updated
  | failed : Sends id .failed

/-- An update has written its version, and has its time to write, or nothing. -/
def ClientCall.hasWritten : ClientCall → Bool
  | .updating left => left.length ≤ 1
  | .updated => true
  | .saving _ | .reading _ _ | .saved | .failed => false

/-- A command on the version is sent while the version is what it was read to
be: what `Undisturbed` says of one call. -/
def ClientCall.Finds (id : Text) (h : Hashes) (call : ClientCall) : Prop :=
  ∀ value left,
    (call = .updating (.hset checkpointKey (versionField id) value :: left) →
      value = natToString (storedVersion h id + 1)) ∧
    (call = .saving (.hset checkpointKey (versionField id) value :: left) →
      storedVersion h id = 0)

theorem next_saving {c : Command} {left : List Command} :
    ClientCall.next (.saving (c :: left))
      = some (c, if left = [] then .saved else .saving left) := by
  cases left with
  | nil => rfl
  | cons d left => rfl

theorem next_updating {c : Command} {left : List Command} :
    ClientCall.next (.updating (c :: left))
      = some (c, if left = [] then .updated else .updating left) := by
  cases left with
  | nil => rfl
  | cons d left => rfl

theorem versionField_ne (suffix : Text) (h : suffix ≠ "_version".toList) :
    id ++ suffix ≠ versionField id := suffix_ne h

/-- A command of a save that finds no version, or 0. -/
theorem storedVersion_save {offset : Int} {now : Rdb.SystemTime} {c : Command} (h : Hashes)
    (hc : c ∈ saveCheckpoint (.new id offset now))
    (hfinds : ∀ value, c = .hset checkpointKey (versionField id) value →
      storedVersion h id = 0) :
    storedVersion (c.exec h) id = storedVersion h id := by
  simp only [saveCheckpoint, CheckpointInfo.new, List.mem_cons, List.not_mem_nil,
    or_false] at hc
  rcases hc with rfl | rfl | rfl | rfl | rfl
  · exact storedVersion_exec_ne h (.inr (versionField_ne _ (by decide)))
  · exact storedVersion_exec_ne h (.inr (versionField_ne _ (by decide)))
  · rw [hfinds _ rfl]
    exact storedVersion_exec h (by omega)
  · exact storedVersion_exec_ne h (.inr (versionField_ne _ (by decide)))
  · exact storedVersion_exec_ne h (.inl checkpointKeyHashKey_ne)

/-- The commands an update has still to send, by the next of them. -/
theorem suffix_updateCommands {newOffset : Int} {version : Nat} {now : Rdb.SystemTime}
    {c : Command} {left : List Command}
    (h : c :: left <:+ updateCommands id newOffset version now) :
    (c = .hset checkpointKey (id ++ "_offset".toList) (intToString newOffset) ∧
        left.length = 2) ∨
      (c = .hset checkpointKey (versionField id) (natToString version) ∧ left.length = 1) ∨
      (c = .hset checkpointKey (id ++ "_mtime".toList) (natToString (now / 1000000000)) ∧
        left = []) := by
  rw [updateCommands] at h
  rcases List.suffix_cons_iff.1 h with heq | h
  · obtain ⟨rfl, rfl⟩ := List.cons.inj heq
    exact .inl ⟨rfl, rfl⟩
  · rcases List.suffix_cons_iff.1 h with heq | h
    · obtain ⟨rfl, rfl⟩ := List.cons.inj heq
      exact .inr (.inl ⟨rfl, rfl⟩)
    · rcases List.suffix_cons_iff.1 h with heq | h
      · obtain ⟨rfl, rfl⟩ := List.cons.inj heq
        exact .inr (.inr ⟨rfl, rfl⟩)
      · have hlen := h.length_le
        rw [List.length_cons, List.length_nil] at hlen
        omega

/-- What one command of a call does: the version does not fall, and it grows by
one where the call is an update's that now has written it. -/
theorem ClientCall.Sends.next {call call' : ClientCall} {c : Command} {h : Hashes}
    (hsends : call.Sends id) (hnext : call.next = some (c, call'))
    (hfinds : call.Finds id h) :
    call'.Sends id ∧ storedVersion h id ≤ storedVersion (c.exec h) id ∧
      storedVersion h id + call'.hasWritten.toNat
        ≤ storedVersion (c.exec h) id + call.hasWritten.toNat := by
  cases hsends with
  | saving offset now left hleft =>
      cases left with
      | nil => cases hnext
      | cons d left =>
          rw [next_saving] at hnext
          obtain ⟨rfl, rfl⟩ := Prod.mk.inj (Option.some.inj hnext)
          have hkeep := storedVersion_save h (hleft.subset List.mem_cons_self)
            fun value hd => (hfinds value left).2 (by rw [hd])
          have hsends : (if left = [] then ClientCall.saved else .saving left).Sends id := by
            split
            · exact .saved
            · exact .saving offset now left ((List.suffix_cons _ _).trans hleft)
          have hwritten :
              (if left = [] then ClientCall.saved else .saving left).hasWritten = false := by
            split <;> rfl
          refine ⟨hsends, Nat.le_of_eq hkeep.symm, ?_⟩
          rw [hkeep, hwritten]
          exact Nat.le_refl _
  | updating newOffset version now left hlt hleft =>
      cases left with
      | nil => cases hnext
      | cons d left =>
          rw [next_updating] at hnext
          obtain ⟨rfl, rfl⟩ := Prod.mk.inj (Option.some.inj hnext)
          rcases suffix_updateCommands hleft with ⟨rfl, hlen⟩ | ⟨rfl, hlen⟩ | ⟨rfl, rfl⟩
          · have hkeep : storedVersion ((Command.hset checkpointKey
                (id ++ "_offset".toList) (intToString newOffset)).exec h) id
                = storedVersion h id :=
              storedVersion_exec_ne h (.inr (versionField_ne _ (by decide)))
            have hne : left ≠ [] := by
              rintro rfl
              cases hlen
            rw [if_neg hne, hkeep]
            refine ⟨.updating newOffset version now left hlt
              ((List.suffix_cons _ _).trans hleft), Nat.le_refl _, ?_⟩
            simp [ClientCall.hasWritten, hlen]
          · have hversion : version = storedVersion h id + 1 :=
              natToString_injective ((hfinds _ left).1 rfl)
            have hgrows : storedVersion ((Command.hset checkpointKey (versionField id)
                (natToString version)).exec h) id = version := storedVersion_exec h hlt
            have hne : left ≠ [] := by
              rintro rfl
              cases hlen
            rw [if_neg hne, hgrows]
            refine ⟨.updating newOffset version now left hlt
              ((List.suffix_cons _ _).trans hleft), by omega, ?_⟩
            simp [ClientCall.hasWritten, hlen]
            omega
          · have hkeep : storedVersion ((Command.hset checkpointKey
                (id ++ "_mtime".toList) (natToString (now / 1000000000))).exec h) id
                = storedVersion h id :=
              storedVersion_exec_ne h (.inr (versionField_ne _ (by decide)))
            rw [if_pos rfl, hkeep]
            exact ⟨.updated, Nat.le_refl _, Nat.le_refl _⟩
  | reading | saved | updated | failed => cases hnext

/-! ## Any number of calls -/

theorem countP_set_add {α : Type} {p : α → Bool} {l : List α} {i : Nat} {x y : α}
    (h : l[i]? = some x) :
    (l.set i y).countP p + (p x).toNat = l.countP p + (p y).toNat := by
  induction l generalizing i with
  | nil => cases h
  | cons a l ih =>
      cases i with
      | zero =>
          obtain rfl := Option.some.inj h
          rw [List.set_cons_zero, List.countP_cons, List.countP_cons]
          cases p a <;> cases p y <;> simp
      | succ i =>
          have hl := ih (i := i) h
          rw [List.set_cons_succ, List.countP_cons, List.countP_cons]
          omega

/-- The updates that have written their version stand in the version. -/
structure Clients.Counted (id : Text) (base : Nat) (s : Clients) : Prop where
  sends : ∀ call ∈ s.calls, call.Sends id
  version : base + s.calls.countP ClientCall.hasWritten ≤ storedVersion s.hashes id

theorem Clients.Undisturbed.finds {i : Nat} {act : ClientAct} {call : ClientCall}
    (hC : s.Undisturbed id act) (hact : act = .send i ∨ act = .fail i true)
    (hcall : s.calls[i]? = some call) : call.Finds id s.hashes := by
  intro value left
  refine ⟨?_, ?_⟩
  · rintro rfl
    exact (hC i value left hact).1 hcall
  · rintro rfl
    exact (hC i value left hact).2 hcall

/-- A new call has written nothing. -/
theorem Clients.Counted.push {base : Nat} {call : ClientCall} (hs : s.Counted id base)
    (hsends : call.Sends id) (hwritten : call.hasWritten = false) :
    Clients.Counted id base { s with calls := s.calls ++ [call] } := by
  refine ⟨?_, ?_⟩
  · intro call' hmem
    rcases List.mem_append.1 hmem with hmem | hmem
    · exact hs.sends call' hmem
    · obtain rfl := List.mem_singleton.1 hmem
      exact hsends
  · show base + (s.calls ++ [call]).countP ClientCall.hasWritten ≤ storedVersion s.hashes id
    rw [List.countP_append, List.countP_singleton, if_neg (by simp [hwritten])]
    exact hs.version

/-- A call moves, and the version with it. -/
theorem Clients.Counted.setCall {base i : Nat} {call call' : ClientCall}
    (hs : s.Counted id base) (hcall : s.calls[i]? = some call) (hsends : call'.Sends id)
    (ht : t.calls = s.calls)
    (hversion : storedVersion s.hashes id + call'.hasWritten.toNat
      ≤ storedVersion t.hashes id + call.hasWritten.toNat) :
    (t.setCall i call').Counted id base := by
  refine ⟨?_, ?_⟩
  · intro c hmem
    rw [Clients.setCall, ht] at hmem
    rcases List.mem_or_eq_of_mem_set hmem with hmem | rfl
    · exact hs.sends c hmem
    · exact hsends
  · show base + (t.calls.set i call').countP ClientCall.hasWritten
      ≤ storedVersion t.hashes id
    have hcount := countP_set_add (p := ClientCall.hasWritten) (y := call') hcall
    have hbase := hs.version
    rw [ht]
    omega

theorem counted_step {base : Nat} {act : ClientAct} (hs : s.Counted id base)
    (hC : s.Undisturbed id act) (h : s.step id act = some t) :
    t.Counted id base ∧ storedVersion s.hashes id ≤ storedVersion t.hashes id := by
  cases act with
  | save offset now =>
      obtain rfl := Option.some.inj h
      exact ⟨hs.push (.saving offset now _ (List.suffix_refl _)) rfl, Nat.le_refl _⟩
  | update newOffset now =>
      obtain rfl := Option.some.inj h
      exact ⟨hs.push (.reading newOffset now) rfl, Nat.le_refl _⟩
  | read i =>
      rw [Clients.step] at h
      split at h
      · next newOffset now hcall =>
          split at h
          · next left hleft =>
              obtain ⟨hlt, rfl⟩ := updateOffset_eq hleft
              obtain rfl := Option.some.inj h
              refine ⟨hs.setCall hcall ?_ rfl (Nat.le_refl _), Nat.le_refl _⟩
              exact .updating newOffset _ now _ hlt (List.suffix_refl _)
          · obtain rfl := Option.some.inj h
            exact ⟨hs.setCall hcall .failed rfl (Nat.le_refl _), Nat.le_refl _⟩
      · cases h
  | send i =>
      rw [Clients.step] at h
      split at h
      · next c call' hnext =>
          obtain rfl := Option.some.inj h
          obtain ⟨call, hcall, hnext⟩ := Option.bind_eq_some_iff.1 hnext
          have hsends := hs.sends call (List.mem_of_getElem? hcall)
          obtain ⟨hsends', hle, hgrows⟩ := hsends.next hnext (hC.finds (.inl rfl) hcall)
          exact ⟨hs.setCall hcall hsends' rfl hgrows, hle⟩
      · cases h
  | fail i executed =>
      rw [Clients.step] at h
      split at h
      · next newOffset now hcall =>
          obtain rfl := Option.some.inj h
          exact ⟨hs.setCall hcall .failed rfl (Nat.le_refl _), Nat.le_refl _⟩
      · next call hne hcall =>
          obtain ⟨⟨c, call'⟩, hnext, rfl⟩ := Option.map_eq_some_iff.1 h
          cases executed with
          | true =>
              have hsends := hs.sends call (List.mem_of_getElem? hcall)
              obtain ⟨-, hle, -⟩ := hsends.next hnext (hC.finds (.inr rfl) hcall)
              refine ⟨hs.setCall hcall .failed rfl ?_, hle⟩
              exact Nat.le_trans hle (Nat.le_add_right _ _)
          | false =>
              refine ⟨hs.setCall hcall .failed rfl ?_, Nat.le_refl _⟩
              exact Nat.le_add_right _ _
      · cases h

theorem counted_init (h : Hashes) : (Clients.init h).Counted id (storedVersion h id) :=
  ⟨fun _ hmem => (List.not_mem_nil hmem).elim, Nat.le_refl _⟩

theorem counted_of_steps {base : Nat} {acts : List ClientAct}
    (hrun : Steps (Clients.step id) (Clients.Undisturbed id) s acts t)
    (hs : s.Counted id base) :
    t.Counted id base ∧ storedVersion s.hashes id ≤ storedVersion t.hashes id := by
  induction hrun with
  | refl => exact ⟨hs, Nat.le_refl _⟩
  | cons hC hstep htail ih =>
      obtain ⟨hu, hle⟩ := counted_step hs hC hstep
      obtain ⟨ht, hle'⟩ := ih hu
      exact ⟨ht, Nat.le_trans hle hle'⟩

theorem updates_le_countP (s : Clients) :
    s.updates ≤ s.calls.countP ClientCall.hasWritten := by
  refine List.countP_mono_left fun call _ hcall => ?_
  rw [beq_iff_eq] at hcall
  rw [hcall]
  rfl

/-- As long as no command on the version disturbs it, the version never falls,
and every update that has returned is in it. -/
theorem version_of_undisturbed {h : Hashes} {acts acts' : List ClientAct}
    (hrun : Steps (Clients.step id) (Clients.Undisturbed id) (.init h) acts t)
    (hrun' : Steps (Clients.step id) (Clients.Undisturbed id) t acts' u) :
    storedVersion t.hashes id ≤ storedVersion u.hashes id ∧
      storedVersion h id + u.updates ≤ storedVersion u.hashes id := by
  obtain ⟨ht, -⟩ := counted_of_steps hrun (counted_init h)
  obtain ⟨hu, hle⟩ := counted_of_steps hrun' ht
  have hupdates := updates_le_countP u
  have hversion := hu.version
  exact ⟨hle, by omega⟩

/-- `Undisturbed`, as a test. -/
def Clients.undisturbed (id : Text) (s : Clients) : ClientAct → Bool
  | .send i | .fail i true =>
      match s.calls[i]? with
      | some (.updating (.hset key field value :: _)) =>
          key != checkpointKey || field != versionField id ||
            value == natToString (storedVersion s.hashes id + 1)
      | some (.saving (.hset key field _ :: _)) =>
          key != checkpointKey || field != versionField id || storedVersion s.hashes id == 0
      | _ => true
  | _ => true

theorem undisturbed_of_test {act : ClientAct} (h : s.undisturbed id act = true) :
    s.Undisturbed id act := by
  intro i value left hact
  have htest : ∀ call, s.calls[i]? = some call → s.undisturbed id (.send i) = true := by
    rcases hact with rfl | rfl
    · exact fun _ _ => h
    · exact fun _ _ => h
  refine ⟨fun hcall => ?_, fun hcall => ?_⟩
  · have hfinds := htest _ hcall
    simpa [Clients.undisturbed, hcall] using hfinds
  · have hfinds := htest _ hcall
    simpa [Clients.undisturbed, hcall] using hfinds

/-- A save, and two updates that take turns. -/
def inTurns : List ClientAct :=
  [.save 7 0, .send 0, .send 0, .send 0, .send 0, .send 0,
   .update 8 0, .read 1, .send 1, .send 1, .send 1,
   .update 9 0, .read 2, .send 2, .send 2, .send 2]

def inTurnsEnd : Clients := after (Clients.step "id".toList) (.init ∅) inTurns

theorem version_of_undisturbed_inTurns :
    storedVersion inTurnsEnd.hashes "id".toList
        ≤ storedVersion inTurnsEnd.hashes "id".toList ∧
      storedVersion ∅ "id".toList + inTurnsEnd.updates
        ≤ storedVersion inTurnsEnd.hashes "id".toList := by
  have hrun : Steps (Clients.step "id".toList) (Clients.Undisturbed "id".toList) (.init ∅)
      inTurns inTurnsEnd :=
    .of_test (Clients.undisturbed "id".toList) (by decide +kernel)
      fun _ _ => undisturbed_of_test
  exact version_of_undisturbed hrun (.refl _)

/-- An update, and then a save. -/
def updateThenSave : List ClientAct := [.update 8 0, .read 0, .send 0, .send 0, .send 0]

def thenSave : List ClientAct := [.save 9 0, .send 1, .send 1, .send 1, .send 1, .send 1]

/-- Two updates that both read before either has written. -/
def atOnce : List ClientAct :=
  [.update 8 0, .update 9 0, .read 0, .read 1, .send 0, .send 0, .send 0,
   .send 1, .send 1, .send 1]

/-- Neither half of it holds of every run: a save takes the version back to 0,
and of two updates at once one is lost. -/
theorem version_not_kept :
    (¬ ∀ (id : Text) (h : Hashes) (acts acts' : List ClientAct) (t u : Clients),
      Steps (Clients.step id) Free (.init h) acts t → Steps (Clients.step id) Free t acts' u →
        storedVersion t.hashes id ≤ storedVersion u.hashes id) ∧
      ¬ ∀ (id : Text) (h : Hashes) (acts : List ClientAct) (t : Clients),
        Steps (Clients.step id) Free (.init h) acts t →
          storedVersion h id + t.updates ≤ storedVersion t.hashes id := by
  refine ⟨fun h => ?_, fun h => ?_⟩
  · let t := after (Clients.step "id".toList) (.init ∅) updateThenSave
    have hle := h "id".toList ∅ updateThenSave thenSave t
      (after (Clients.step "id".toList) t thenSave) (.of_after (by decide +kernel))
      (.of_after (by decide +kernel))
    revert hle
    decide +kernel
  · have hle := h "id".toList ∅ atOnce (after (Clients.step "id".toList) (.init ∅) atOnce)
      (.of_after (by decide +kernel))
    revert hle
    decide +kernel

end RedisHaTool.Checkpoint
