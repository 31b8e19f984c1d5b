import RedisHaTool.Proofs.OneElected

/-!
# Whose key it is

`renew` and `resign` ask with a `GET` whose the key is, and then extend or
delete it with a command of its own. A key that ends between the two may be
another node's by the time of the second. As long as no other node takes the key
while a call stands between them, every `EXPIRE` and `DEL` that finds a key finds
the caller's.
-/

namespace RedisHaTool.Cluster

open Lib

variable {s t u : Elections} {own : Nat → Text}

/-- A call that has seen its own value, before its `EXPIRE` or `DEL`. -/
def CallPc.isChecked : CallPc → Bool
  | .extending | .deleting => true
  | .campaign _ | .acquired _ | .elected | .renew | .renewing _ | .lost | .resign
  | .resigning _ | .deleted | .cleared | .returned _ => false

/-- The next step of a call, or its next command, which fails and is executed
all the same. -/
def ElectionAct.executes (act : ElectionAct) (c : Nat) : Prop :=
  act = .proceed c ∨ act = .fail c true

/-- Each node campaigns with its own value. -/
def OwnValues (own : Nat → Text) (act : ElectionAct) : Prop :=
  ∀ i value, act = .campaign i value → value = own i

/-- An `EXPIRE` or a `DEL` finds the caller's value, if it finds a key. -/
def Elections.ActsOnOwn (s : Elections) (own : Nat → Text) (act : ElectionAct) : Prop :=
  ∀ c call, act.executes c → s.calls[c]? = some call → call.pc.isChecked = true →
    ∀ entry ∈ s.lookup, entry.value = own call.election

/-- No `SET` of a node takes the key while a call of another is about to extend
or to delete it. -/
def Elections.Uncontested (s : Elections) (act : ElectionAct) : Prop :=
  ∀ c i value, act.executes c → s.calls[c]? = some { election := i, pc := .campaign value } →
    s.lookup = none → ∀ call ∈ s.calls, call.pc.isChecked = true → call.election = i

/-! ## What a call knows -/

/-- The value a call carries is that of its node, and what it has checked
holds. -/
def Elections.CallOwn (s : Elections) (own : Nat → Text) (i : Nat) : CallPc → Prop
  | .campaign value | .acquired value | .renewing value | .resigning value => value = own i
  | .extending | .deleting => ∀ entry ∈ s.lookup, entry.value = own i
  | .elected | .renew | .lost | .resign | .deleted | .cleared | .returned _ => True

structure Elections.Owned (s : Elections) (own : Nat → Text) : Prop where
  values : ∀ i value, s.elections[i]?.bind RedisElection.leaderValue = some value → value = own i
  calls : ∀ call ∈ s.calls, s.CallOwn own call.election call.pc

theorem owned_init (nodes : Nat) (own : Nat → Text) : (Elections.init nodes).Owned own where
  values := by
    intro i value h
    rw [Elections.init, List.getElem?_replicate] at h
    split at h <;> cases h
  calls := fun _ hmem => (List.not_mem_nil hmem).elim

theorem Elections.Owned.actsOnOwn (h : s.Owned own) (act : ElectionAct) :
    s.ActsOnOwn own act := by
  intro c call hact hcall hchecked
  have hown := h.calls call (List.mem_of_getElem? hcall)
  rcases call with ⟨i, pc⟩
  cases pc with
  | extending | deleting => exact hown
  | campaign | acquired | elected | renew | renewing | lost | resign | resigning | deleted
  | cleared | returned => cases hchecked

/-! ## One step -/

/-- A key whose value was the same before. -/
def Elections.SameKey (s t : Elections) : Prop :=
  ∀ entry ∈ t.lookup, ∃ entry' ∈ s.lookup, entry'.value = entry.value

theorem Elections.SameKey.of_key (hkey : t.key = s.key) (hnow : s.now ≤ t.now) :
    s.SameKey t := by
  intro entry hentry
  obtain ⟨hin, hle⟩ := Option.filter_eq_some_iff.1 hentry
  rw [hkey] at hin
  have hlive : s.now ≤ entry.expiresAt := Nat.le_trans hnow (of_decide_eq_true hle)
  exact ⟨entry, Option.filter_eq_some_iff.2 ⟨hin, decide_eq_true hlive⟩, rfl⟩

theorem sameKey_expire (s : Elections) : s.SameKey s.expire := by
  intro entry hentry
  obtain ⟨hin, -⟩ := Option.filter_eq_some_iff.1 hentry
  obtain ⟨entry', hin', rfl⟩ := Option.map_eq_some_iff.1 hin
  exact ⟨entry', hin', rfl⟩

theorem sameKey_del (s : Elections) : s.SameKey s.del := by
  intro entry hentry
  cases hentry

theorem Elections.CallOwn.of_sameKey {i : Nat} {pc : CallPc} (h : s.CallOwn own i pc)
    (hkey : s.SameKey t) : t.CallOwn own i pc := by
  cases pc with
  | extending | deleting =>
      intro entry hentry
      obtain ⟨entry', hentry', hvalue⟩ := hkey entry hentry
      rw [← hvalue]
      exact h entry' hentry'
  | campaign | acquired | elected | renew | renewing | lost | resign | resigning | deleted
  | cleared | returned => exact h

/-- What neither sets the key nor stores a value. -/
theorem Elections.Owned.of_sameKey (h : s.Owned own) (hkey : s.SameKey t)
    (helections : t.elections = s.elections) (hcalls : t.calls = s.calls) : t.Owned own where
  values := by
    rw [helections]
    exact h.values
  calls := by
    rw [hcalls]
    exact fun call hmem => (h.calls call hmem).of_sameKey hkey

theorem Elections.Owned.setCall {c i : Nat} {pc : CallPc} (h : t.Owned own)
    (hpc : t.CallOwn own i pc) : (t.setCall c i pc).Owned own where
  values := h.values
  calls := by
    intro call hmem
    rcases List.mem_or_eq_of_mem_set hmem with hmem | rfl
    · exact h.calls call hmem
    · exact hpc

theorem Elections.Owned.pushCall {i : Nat} {pc : CallPc} (h : t.Owned own)
    (hpc : t.CallOwn own i pc) : (t.pushCall i pc).Owned own where
  values := h.values
  calls := by
    intro call hmem
    rcases List.mem_append.1 hmem with hmem | hmem
    · exact h.calls call hmem
    · obtain rfl := List.mem_singleton.1 hmem
      exact hpc

/-- An object changes, and what it says of its value, if anything, is right. -/
theorem Elections.Owned.modify {i : Nat} {f : RedisElection → RedisElection} (h : t.Owned own)
    (hf : ∀ e value, t.elections[i]? = some e → (f e).leaderValue = some value → value = own i) :
    Elections.Owned { t with elections := t.elections.modify i f } own where
  values := by
    intro j value hvalue
    obtain ⟨e, he, hvalue⟩ := Option.bind_eq_some_iff.1 hvalue
    rw [List.getElem?_modify] at he
    obtain ⟨e', he', rfl⟩ := Option.map_eq_some_iff.1 he
    by_cases hij : i = j
    · subst hij
      rw [if_pos rfl] at hvalue
      exact hf e' value he' hvalue
    · rw [if_neg hij] at hvalue
      refine h.values j value ?_
      rw [he']
      exact hvalue
  calls := h.calls

theorem Elections.Owned.setLeader (h : t.Owned own) (i : Nat) (isLeader : Bool) :
    (t.setLeader i isLeader).Owned own := by
  refine h.modify fun e value he hvalue => h.values i value ?_
  rw [he]
  exact hvalue

theorem Elections.Owned.startRenewTask (h : t.Owned own) : t.startRenewTask.Owned own where
  values := by
    intro i value hvalue
    rw [Elections.startRenewTask, List.getElem?_append] at hvalue
    split at hvalue
    · exact h.values i value hvalue
    · obtain ⟨e, he, hvalue⟩ := Option.bind_eq_some_iff.1 hvalue
      rw [List.mem_singleton.1 (List.mem_of_getElem? he)] at hvalue
      cases hvalue
  calls := h.calls

/-- A `SET` in which no call stands between its commands but those of the node
itself. -/
theorem Elections.Owned.set {i : Nat} (h : s.Owned own)
    (hnone : ∀ call ∈ s.calls, call.pc.isChecked = true → call.election = i) :
    (s.set (own i)).Owned own where
  values := h.values
  calls := by
    intro call hmem
    have hown := h.calls call hmem
    have hi := hnone call hmem
    rcases call with ⟨j, pc⟩
    cases pc with
    | extending | deleting =>
        intro entry hentry
        obtain ⟨hin, -⟩ := Option.filter_eq_some_iff.1 hentry
        obtain rfl := Option.some.inj hin
        rw [hi rfl]
    | campaign | acquired | elected | renew | renewing | lost | resign | resigning | deleted
    | cleared | returned => exact hown

theorem owned_of_read {c i : Nat} {next : Text → CallPc} (hs : s.Owned own)
    (h : (if s.readable i then
        match s.elections[i]?.bind RedisElection.leaderValue with
        | none => some (s.setCall c i (.returned false))
        | some value => some (s.setCall c i (next value))
      else none) = some t)
    (hnext : ∀ value, value = own i → s.CallOwn own i (next value)) : t.Owned own := by
  split at h
  · cases hvalue : s.elections[i]?.bind RedisElection.leaderValue with
    | none =>
        rw [hvalue] at h
        obtain rfl := Option.some.inj h
        exact hs.setCall trivial
    | some value =>
        rw [hvalue] at h
        obtain rfl := Option.some.inj h
        exact hs.setCall (hnext value (hs.values i value hvalue))
  · cases h

/-- What `GET` answers is what the key holds. -/
theorem value_of_lookup {value : Text} (h : s.lookup.map KeyEntry.value = some value) :
    ∀ entry ∈ s.lookup, entry.value = value := by
  intro entry hentry
  rw [Option.mem_def.1 hentry] at h
  exact Option.some.inj h

/-- A `GET` that is to answer the node's own value. -/
theorem owned_of_get {c i : Nat} {value : Text} {checked other : CallPc} (hs : s.Owned own)
    (hvalue : value = own i)
    (h : (if s.lookup.map KeyEntry.value = some value then some (s.setCall c i checked)
      else some (s.setCall c i other)) = some t)
    (hown : (∀ entry ∈ s.lookup, entry.value = own i) → s.CallOwn own i checked)
    (hother : s.CallOwn own i other) : t.Owned own := by
  subst hvalue
  split at h
  · next hlookup =>
      obtain rfl := Option.some.inj h
      exact hs.setCall (hown (value_of_lookup hlookup))
  · obtain rfl := Option.some.inj h
    exact hs.setCall hother

theorem owned_proceed {c i : Nat} {pc : CallPc} (hs : s.Owned own)
    (hC : s.Uncontested (.proceed c)) (hcall : s.calls[c]? = some { election := i, pc })
    (h : s.proceed c i pc = some t) : t.Owned own := by
  have hpc := hs.calls _ (List.mem_of_getElem? hcall)
  cases pc with
  | campaign value =>
      obtain rfl : value = own i := hpc
      rw [Elections.proceed] at h
      split at h
      · next hfree =>
          obtain rfl := Option.some.inj h
          exact (hs.set (hC c i _ (Or.inl rfl) hcall hfree)).setCall rfl
      · obtain rfl := Option.some.inj h
        exact hs.setCall trivial
  | acquired value =>
      rw [Elections.proceed] at h
      split at h
      · obtain rfl := Option.some.inj h
        refine Elections.Owned.setCall (hs.modify fun e stored _ hstored => ?_) trivial
        rw [← Option.some.inj hstored]
        exact hpc
      · cases h
  | elected =>
      obtain rfl := Option.some.inj h
      exact (hs.setLeader i true).startRenewTask.setCall trivial
  | renew => exact owned_of_read hs h fun _ hvalue => hvalue
  | renewing value => exact owned_of_get hs hpc h id trivial
  | extending =>
      obtain rfl := Option.some.inj h
      exact (hs.of_sameKey (sameKey_expire s) rfl rfl).setCall trivial
  | lost =>
      obtain rfl := Option.some.inj h
      exact (hs.setLeader i false).setCall trivial
  | resign => exact owned_of_read hs h fun _ hvalue => hvalue
  | resigning value => exact owned_of_get hs hpc h id trivial
  | deleting =>
      obtain rfl := Option.some.inj h
      exact (hs.of_sameKey (sameKey_del s) rfl rfl).setCall trivial
  | deleted =>
      obtain rfl := Option.some.inj h
      exact (hs.setLeader i false).setCall trivial
  | cleared | returned => cases h

theorem owned_failing {c i : Nat} {pc : CallPc} {executed : Bool} (hs : s.Owned own)
    (hC : s.Uncontested (.fail c executed)) (hcall : s.calls[c]? = some { election := i, pc })
    (h : s.failing executed pc = some u) : u.Owned own := by
  have hpc := hs.calls _ (List.mem_of_getElem? hcall)
  cases pc with
  | campaign value =>
      obtain rfl : value = own i := hpc
      obtain rfl := Option.some.inj h
      split
      · next hset =>
          obtain ⟨rfl, hfree⟩ := hset
          exact hs.set (hC c i _ (Or.inr rfl) hcall hfree)
      · exact hs
  | renewing | resigning =>
      obtain rfl := Option.some.inj h
      exact hs
  | extending =>
      obtain rfl := Option.some.inj h
      split
      · exact hs.of_sameKey (sameKey_expire s) rfl rfl
      · exact hs
  | deleting =>
      obtain rfl := Option.some.inj h
      split
      · exact hs.of_sameKey (sameKey_del s) rfl rfl
      · exact hs
  | acquired | elected | renew | lost | resign | deleted | cleared | returned => cases h

theorem owned_of_call {i : Nat} {pc : CallPc} (hs : s.Owned own) (h : s.call i pc = some t)
    (hpc : s.CallOwn own i pc) : t.Owned own := by
  rw [Elections.call] at h
  split at h
  · obtain rfl := Option.some.inj h
    exact hs.pushCall hpc
  · cases h

theorem owned_step {act : ElectionAct} (hs : s.Owned own) (hown : OwnValues own act)
    (hC : s.Uncontested act) (h : s.step act = some t) : t.Owned own := by
  cases act with
  | campaign i value => exact owned_of_call hs h (hown i value rfl)
  | renew i => exact owned_of_call hs h trivial
  | resign i => exact owned_of_call hs h trivial
  | proceed c =>
      rw [Elections.step] at h
      split at h
      · next call hcall => exact owned_proceed hs hC hcall h
      · cases h
  | fail c executed =>
      rw [Elections.step] at h
      split at h
      · next call hcall =>
          obtain ⟨u, hfail, rfl⟩ := Option.map_eq_some_iff.1 h
          exact (owned_failing hs hC hcall hfail).setCall trivial
      · cases h
  | tick k =>
      rw [Elections.step] at h
      split at h
      · next i tick htask =>
          split at h
          · cases h
          · split at h
            · obtain rfl := Option.some.inj h
              have hpush : (s.pushCall i .renew).Owned own := hs.pushCall trivial
              exact hpush.of_sameKey (.of_key rfl (Nat.le_refl _)) rfl rfl
            · obtain rfl := Option.some.inj h
              exact hs.of_sameKey (.of_key rfl (Nat.le_refl _)) rfl rfl
      · cases h
  | renewed k =>
      rw [Elections.step] at h
      split at h
      · split at h
        · obtain rfl := Option.some.inj h
          exact hs.of_sameKey (.of_key rfl (Nat.le_refl _)) rfl rfl
        · obtain rfl := Option.some.inj h
          exact (hs.setLeader _ false).of_sameKey (.of_key rfl (Nat.le_refl _)) rfl rfl
        · cases h
      · cases h
  | elapse milliseconds =>
      obtain rfl := Option.some.inj h
      exact hs.of_sameKey (.of_key rfl (Nat.le_add_right _ _)) rfl rfl

/-- After a `SET` in between the other node's call is about to act on a key that
is not its own. -/
theorem not_actsOnOwn_of_contested {act : ElectionAct} (hs : s.Owned own)
    (hown : Function.Injective own) (hC : ¬ s.Uncontested act) (h : s.step act = some t) :
    ∃ next, ¬ t.ActsOnOwn own next := by
  simp only [Elections.Uncontested, not_forall] at hC
  obtain ⟨c, i, value, hact, hcall, hfree, call, hmem, hchecked, hne⟩ := hC
  obtain rfl : value = own i := hs.calls _ (List.mem_of_getElem? hcall)
  obtain ⟨d, hd⟩ := List.mem_iff_getElem?.1 hmem
  have hcd : c ≠ d := by
    rintro rfl
    rw [hcall] at hd
    obtain rfl := Option.some.inj hd
    cases hchecked
  obtain ⟨pc, rfl⟩ : ∃ pc, t = (s.set (own i)).setCall c i pc := by
    rcases hact with rfl | rfl
    · simp only [Elections.step, hcall, Elections.proceed, hfree] at h
      exact ⟨_, (Option.some.inj h).symm⟩
    · simp only [Elections.step, hcall, Elections.failing, hfree] at h
      exact ⟨_, (Option.some.inj h).symm⟩
  refine ⟨.proceed d, fun hacts => hne (hown ?_)⟩
  have hlive : s.now ≤ s.deadline := Nat.le_add_right _ _
  have hlater : ((s.set (own i)).setCall c i pc).calls[d]? = some call := by
    rw [← hd]
    exact List.getElem?_set_ne hcd
  exact (hacts d call (Or.inl rfl) hlater hchecked { value := own i, expiresAt := s.deadline }
    (Option.filter_eq_some_iff.2 ⟨rfl, decide_eq_true hlive⟩)).symm

/-! ## Every run -/

/-- Every `EXPIRE` and `DEL` of a run finds the caller's value where it finds a
key, as long as no other node takes the key between a call's `GET` and its
second command. -/
theorem actsOnOwn_of_uncontested {nodes : Nat} {acts : List ElectionAct}
    (hrun : Steps Elections.step (fun s act => OwnValues own act ∧ s.Uncontested act)
      (.init nodes) acts s) (act : ElectionAct) : s.ActsOnOwn own act := by
  have howned : s.Owned own :=
    hrun.invariant (fun _ _ _ hs hC hstep => owned_step hs hC.1 hC.2 hstep) (owned_init nodes own)
  exact howned.actsOnOwn act

/-- The condition of the run, as a test. -/
def Elections.ownUncontested (s : Elections) (own : Nat → Text) : ElectionAct → Bool
  | .campaign i value => value == own i
  | .proceed c | .fail c true =>
      match s.calls[c]? with
      | some { election := i, pc := .campaign _ } =>
          s.lookup != none || s.calls.all fun call => !call.pc.isChecked || call.election == i
      | _ => true
  | _ => true

theorem ownUncontested_of_test {act : ElectionAct} (h : s.ownUncontested own act = true) :
    OwnValues own act ∧ s.Uncontested act := by
  constructor
  · rintro i value rfl
    exact eq_of_beq h
  · intro c i value hact hcall hfree call hmem hchecked
    have htest : (s.calls.all fun call => !call.pc.isChecked || call.election == i) = true := by
      rcases hact with rfl | rfl <;>
        simpa only [Elections.ownUncontested, hcall, hfree, bne_self_eq_false, Bool.false_or]
          using h
    have hi := List.all_eq_true.1 htest call hmem
    rw [hchecked] at hi
    simpa using hi

/-- The values of the nodes of an example. -/
def someValues (i : Nat) : Text := List.replicate (i + 1) 'n'

theorem someValues_injective : Function.Injective someValues := by
  intro i j h
  have hlen := congrArg List.length h
  rw [someValues, someValues, List.length_replicate, List.length_replicate] at hlen
  exact Nat.succ.inj hlen

/-- One node leads and is about to resign; the other waits. -/
def resignsInTime : List ElectionAct :=
  [.campaign 0 (someValues 0), .proceed 0, .proceed 0, .proceed 0, .campaign 1 (someValues 1),
   .proceed 1, .resign 0, .proceed 2, .proceed 2]

theorem actsOnOwn_of_uncontested_inTime :
    (after Elections.step (.init 2) resignsInTime).ActsOnOwn someValues (.proceed 2) :=
  actsOnOwn_of_uncontested (.of_test (fun s => s.ownUncontested someValues) (by decide +kernel)
    fun _ _ => ownUncontested_of_test) (.proceed 2)

/-- The key runs out before the `DEL`, and the other node takes it. -/
def resignsLate : List ElectionAct :=
  [.campaign 0 (someValues 0), .proceed 0, .proceed 0, .proceed 0, .resign 0, .proceed 1,
   .proceed 1, .elapse 10001, .campaign 1 (someValues 1), .proceed 2]

def ownValue (own : Nat → Text) : ElectionAct → Bool
  | .campaign i value => value == own i
  | _ => true

theorem ownValue_of_test {act : ElectionAct} (h : ownValue own act = true) :
    OwnValues own act := by
  rintro i value rfl
  exact eq_of_beq h

theorem not_actsOnOwn :
    ¬ ∀ (own : Nat → Text) (nodes : Nat) (acts : List ElectionAct) (s : Elections)
        (act : ElectionAct), Function.Injective own →
      Steps Elections.step (fun _ act => OwnValues own act) (.init nodes) acts s →
        s.ActsOnOwn own act := by
  intro h
  have hrun : Steps Elections.step (fun _ act => OwnValues someValues act) (.init 2) resignsLate
      (after Elections.step (.init 2) resignsLate) :=
    .of_test (fun _ => ownValue someValues) (by decide +kernel) fun _ _ => ownValue_of_test
  have hacts := h _ 2 resignsLate _ (.proceed 1) someValues_injective hrun
  have hother := hacts 1 { election := 0, pc := .deleting } (Or.inl rfl) (by decide +kernel) rfl
    { value := someValues 1, expiresAt := 20001 } (by decide +kernel)
  exact absurd hother (by decide)

end RedisHaTool.Cluster
