import RedisHaTool.Cluster.Election

/-!
# One leader by election

A node becomes leader by a `SET` that found the key absent, and what keeps the
others out is that the key stays as long as the node leads. The task that is to
renew it looks at an object of its own, whose flag nobody sets, and is over at
its first tick; and a `resign` deletes the key before it clears the flag. So the
election is as good as the key: where a `SET` finds it absent only once nobody
leads, there is one leader at most.
-/

namespace RedisHaTool.Cluster

open Lib

variable {s t u : Elections}

/-! ## One step -/

/-- On the way from a `SET` that took the key to the flag. -/
def CallPc.isClaim : CallPc → Bool
  | .acquired _ | .elected => true
  | _ => false

def CallPc.isResign : CallPc → Bool
  | .resign | .resigning _ | .deleting | .deleted | .cleared => true
  | _ => false

/-- What a step does, by the branch it takes. Where only the place of a call
changes one branch stands for all. -/
inductive ElectionStep (s : Elections) : ElectionAct → Elections → Prop where
  | called (act : ElectionAct) (i : Nat) (pc : CallPc) (hi : i < s.nodes)
      (hclaim : pc.isClaim = false)
      (hresign : pc.isResign = true → act = .resign i) :
      ElectionStep s act (s.pushCall i pc)
  | acquired (c i : Nat) (value : Text)
      (h : s.calls[c]? = some { election := i, pc := .campaign value })
      (hfree : s.lookup = none) :
      ElectionStep s (.proceed c) ((s.set value).setCall c i (.acquired value))
  | storeValue (c i : Nat) (value : Text)
      (h : s.calls[c]? = some { election := i, pc := .acquired value }) :
      ElectionStep s (.proceed c)
        (Elections.setCall { s with elections := s.elections.modify i fun e =>
          { e with leaderValue := some value } } c i .elected)
  | elected (c i : Nat) (h : s.calls[c]? = some { election := i, pc := .elected }) :
      ElectionStep s (.proceed c)
        ((s.setLeader i true).startRenewTask.setCall c i (.returned true))
  | moved (c i : Nat) (pc pc' : CallPc) (h : s.calls[c]? = some { election := i, pc })
      (hclaim : pc'.isClaim = false)
      (hresign : pc'.isResign = true → pc.isResign = true) :
      ElectionStep s (.proceed c) (s.setCall c i pc')
  | extended (c i : Nat) (h : s.calls[c]? = some { election := i, pc := .extending }) :
      ElectionStep s (.proceed c) (s.expire.setCall c i (.returned true))
  | deleted (c i : Nat) (h : s.calls[c]? = some { election := i, pc := .deleting }) :
      ElectionStep s (.proceed c) (s.del.setCall c i .deleted)
  | cleared (c i : Nat) (pc pc' : CallPc) (h : s.calls[c]? = some { election := i, pc })
      (hclaim : pc'.isClaim = false)
      (hresign : pc'.isResign = true → pc.isResign = true) :
      ElectionStep s (.proceed c) ((s.setLeader i false).setCall c i pc')
  | failed (c i : Nat) (pc : CallPc) (executed : Bool) (u : Elections)
      (h : s.calls[c]? = some { election := i, pc }) (hfail : s.failing executed pc = some u) :
      ElectionStep s (.fail c executed) (u.setCall c i (.returned false))
  | stops (k i : Nat) (tick : Nat)
      (h : s.tasks[k]? = some { election := i, pc := .waiting tick }) :
      ElectionStep s (.tick k) (s.setTask k i .ended)
  | ticked (k i : Nat) (tick : Nat)
      (h : s.tasks[k]? = some { election := i, pc := .waiting tick })
      (hleader : s.isLeader i = true) :
      ElectionStep s (.tick k)
        ((s.pushCall i .renew).setTask k i (.renewing tick s.calls.length))
  | renewed (k i : Nat) (tick c : Nat) (pc : TaskPc)
      (h : s.tasks[k]? = some { election := i, pc := .renewing tick c }) :
      ElectionStep s (.renewed k) (s.setTask k i pc)
  | gaveUp (k i : Nat) (tick c : Nat)
      (h : s.tasks[k]? = some { election := i, pc := .renewing tick c }) :
      ElectionStep s (.renewed k) ((s.setLeader i false).setTask k i .ended)
  | elapse (milliseconds : Nat) :
      ElectionStep s (.elapse milliseconds) { s with now := s.now + milliseconds }

theorem electionStep_of_call {act : ElectionAct} {i : Nat} {pc : CallPc}
    (h : s.call i pc = some t) (hclaim : pc.isClaim = false)
    (hresign : pc.isResign = true → act = .resign i) : ElectionStep s act t := by
  rw [Elections.call] at h
  split at h
  · next hi =>
      obtain rfl := Option.some.inj h
      exact .called act i pc hi hclaim hresign
  · cases h

/-- Before `GET` there is the value of the object to read. -/
theorem electionStep_of_read {c i : Nat} {pc : CallPc} {next : Text → CallPc}
    (hpc : s.calls[c]? = some { election := i, pc })
    (hclaim : ∀ value, (next value).isClaim = false)
    (hresign : ∀ value, (next value).isResign = true → pc.isResign = true)
    (h : (if s.readable i then
        match s.elections[i]?.bind RedisElection.leaderValue with
        | none => some (s.setCall c i (.returned false))
        | some value => some (s.setCall c i (next value))
      else none) = some t) : ElectionStep s (.proceed c) t := by
  split at h
  · cases hvalue : s.elections[i]?.bind RedisElection.leaderValue with
    | none =>
        rw [hvalue] at h
        obtain rfl := Option.some.inj h
        exact .moved c i pc _ hpc rfl fun h => by cases h
    | some value =>
        rw [hvalue] at h
        obtain rfl := Option.some.inj h
        exact .moved c i pc _ hpc (hclaim value) (hresign value)
  · cases h

theorem electionStep_of_proceed {c i : Nat} {pc : CallPc}
    (hpc : s.calls[c]? = some { election := i, pc }) (h : s.proceed c i pc = some t) :
    ElectionStep s (.proceed c) t := by
  cases pc with
  | campaign value =>
      rw [Elections.proceed] at h
      cases hlookup : s.lookup with
      | none =>
          rw [hlookup] at h
          obtain rfl := Option.some.inj h
          exact .acquired c i value hpc hlookup
      | some entry =>
          rw [hlookup] at h
          obtain rfl := Option.some.inj h
          exact .moved c i _ _ hpc rfl fun h => by cases h
  | acquired value =>
      rw [Elections.proceed] at h
      split at h
      · obtain rfl := Option.some.inj h
        exact .storeValue c i value hpc
      · cases h
  | elected =>
      obtain rfl := Option.some.inj h
      exact .elected c i hpc
  | renew => exact electionStep_of_read hpc (fun _ => rfl) (fun _ h => by cases h) h
  | renewing value =>
      rw [Elections.proceed] at h
      split at h
      · obtain rfl := Option.some.inj h
        exact .moved c i _ _ hpc rfl fun h => by cases h
      · obtain rfl := Option.some.inj h
        exact .moved c i _ _ hpc rfl fun h => by cases h
  | extending =>
      obtain rfl := Option.some.inj h
      exact .extended c i hpc
  | lost =>
      obtain rfl := Option.some.inj h
      exact .cleared c i _ _ hpc rfl fun h => by cases h
  | resign => exact electionStep_of_read hpc (fun _ => rfl) (fun _ _ => rfl) h
  | resigning value =>
      rw [Elections.proceed] at h
      split at h
      · obtain rfl := Option.some.inj h
        exact .moved c i _ _ hpc rfl fun _ => rfl
      · obtain rfl := Option.some.inj h
        exact .moved c i _ _ hpc rfl fun _ => rfl
  | deleting =>
      obtain rfl := Option.some.inj h
      exact .deleted c i hpc
  | deleted =>
      obtain rfl := Option.some.inj h
      exact .cleared c i _ _ hpc rfl fun _ => rfl
  | cleared => cases h
  | returned ok => cases h

theorem electionStep_of_step {act : ElectionAct} (h : s.step act = some t) :
    ElectionStep s act t := by
  cases act with
  | campaign i value => exact electionStep_of_call h rfl fun h => by cases h
  | renew i => exact electionStep_of_call h rfl fun h => by cases h
  | resign i => exact electionStep_of_call h rfl fun _ => rfl
  | proceed c =>
      rw [Elections.step] at h
      split at h
      · next call hcall => exact electionStep_of_proceed hcall h
      · cases h
  | fail c executed =>
      rw [Elections.step] at h
      split at h
      · next call hcall =>
          obtain ⟨u, hfail, rfl⟩ := Option.map_eq_some_iff.1 h
          exact .failed c call.election call.pc executed u hcall hfail
      · cases h
  | tick k =>
      rw [Elections.step] at h
      split at h
      · next i tick htask =>
          split at h
          · cases h
          · split at h
            · next hleader =>
                obtain rfl := Option.some.inj h
                exact .ticked k i tick htask hleader
            · obtain rfl := Option.some.inj h
              exact .stops k i tick htask
      · cases h
  | renewed k =>
      rw [Elections.step] at h
      split at h
      · next i tick c htask =>
          split at h
          · obtain rfl := Option.some.inj h
            exact .renewed k i tick c _ htask
          · obtain rfl := Option.some.inj h
            exact .gaveUp k i tick c htask
          · cases h
      · cases h
  | elapse milliseconds =>
      obtain rfl := Option.some.inj h
      exact .elapse milliseconds

/-! ## Who leads, or is about to -/

/-- The object says that it leads, or a campaign of it has taken the key. -/
def Elections.Claims (s : Elections) (j : Nat) : Prop :=
  s.isLeader j = true ∨ ∃ call ∈ s.calls, call.election = j ∧ call.pc.isClaim = true

/-- Whoever claims in `t` claims in `s`. -/
structure Elections.ClaimsIn (s t : Elections) : Prop where
  leaders : ∀ j, t.isLeader j = true → s.Claims j
  calls : ∀ call ∈ t.calls, call.pc.isClaim = true → s.Claims call.election

theorem Elections.ClaimsIn.claims {j : Nat} (h : s.ClaimsIn t) (hj : t.Claims j) :
    s.Claims j := by
  rcases hj with hleader | ⟨call, hmem, rfl, hclaim⟩
  · exact h.leaders j hleader
  · exact h.calls call hmem hclaim

theorem Elections.ClaimsIn.refl (s : Elections) : s.ClaimsIn s :=
  ⟨fun _ h => .inl h, fun call hmem hclaim => .inr ⟨call, hmem, rfl, hclaim⟩⟩

/-- The key, the clock and the tasks claim nothing. -/
theorem Elections.ClaimsIn.of_eq (h : s.ClaimsIn t) (helections : u.elections = t.elections)
    (hcalls : u.calls = t.calls) : s.ClaimsIn u := by
  refine ⟨fun j hj => h.leaders j ?_, fun call hmem => h.calls call (hcalls ▸ hmem)⟩
  rw [Elections.isLeader, ← helections]
  exact hj

theorem Elections.ClaimsIn.setCall {c i : Nat} {pc : CallPc} (h : s.ClaimsIn t)
    (hpc : pc.isClaim = true → s.Claims i) : s.ClaimsIn (t.setCall c i pc) := by
  refine ⟨h.leaders, ?_⟩
  intro call hmem hclaim
  rcases List.mem_or_eq_of_mem_set hmem with hmem | rfl
  · exact h.calls call hmem hclaim
  · exact hpc hclaim

theorem Elections.ClaimsIn.pushCall {i : Nat} {pc : CallPc} (h : s.ClaimsIn t)
    (hpc : pc.isClaim = false) : s.ClaimsIn (t.pushCall i pc) := by
  refine ⟨h.leaders, ?_⟩
  intro call hmem hclaim
  rcases List.mem_append.1 hmem with hmem | hmem
  · exact h.calls call hmem hclaim
  · obtain rfl := List.mem_singleton.1 hmem
    rw [hpc] at hclaim
    cases hclaim

/-- An object whose flag is stored says what is stored. -/
theorem isLeader_modify {i j : Nat} {f : RedisElection → RedisElection}
    (h : Elections.isLeader { t with elections := t.elections.modify i f } j = true) :
    (j = i ∧ ∃ e, (f e).isLeader = true) ∨ t.isLeader j = true := by
  rw [Elections.isLeader, List.getElem?_modify] at h
  by_cases hij : i = j
  · subst hij
    left
    cases he : t.elections[i]? with
    | none => simp [he] at h
    | some e => exact ⟨rfl, e, by simpa [he] using h⟩
  · right
    simpa [hij, Elections.isLeader] using h

theorem Elections.ClaimsIn.setLeader {i : Nat} (h : s.ClaimsIn t) (isLeader : Bool)
    (hi : isLeader = true → s.Claims i) : s.ClaimsIn (t.setLeader i isLeader) := by
  refine ⟨?_, h.calls⟩
  intro j hj
  rcases isLeader_modify hj with ⟨rfl, e, he⟩ | hj
  · exact hi he
  · exact h.leaders j hj

/-- The object of a renew task is a new one, and nobody's leader. -/
theorem isLeader_startRenewTask {j : Nat} (h : t.startRenewTask.isLeader j = true) :
    t.isLeader j = true := by
  rw [Elections.isLeader, Elections.startRenewTask, List.getElem?_append] at h
  split at h
  · exact h
  · rcases hn : j - t.elections.length with _ | n
    · rw [hn] at h
      cases h
    · rw [hn] at h
      cases h

theorem claims_of_call {c i : Nat} {pc : CallPc}
    (h : s.calls[c]? = some { election := i, pc }) (hpc : pc.isClaim = true) : s.Claims i :=
  .inr ⟨_, List.mem_of_getElem? h, rfl, hpc⟩

/-- A failing command changes nothing but the key. -/
theorem failing_frame {pc : CallPc} {executed : Bool} (h : s.failing executed pc = some u) :
    u.nodes = s.nodes ∧ u.elections = s.elections ∧ u.calls = s.calls ∧
      u.tasks = s.tasks := by
  cases pc with
  | campaign value | extending | deleting =>
      obtain rfl := Option.some.inj h
      split
      · exact ⟨rfl, rfl, rfl, rfl⟩
      · exact ⟨rfl, rfl, rfl, rfl⟩
  | renewing value | resigning value =>
      obtain rfl := Option.some.inj h
      exact ⟨rfl, rfl, rfl, rfl⟩
  | acquired | elected | renew | lost | resign | deleted | cleared | returned => cases h

/-- The one way to a claim is a `SET` that finds the key absent. -/
theorem claims_of_step {act : ElectionAct} (h : ElectionStep s act t) :
    s.ClaimsIn t ∨ ∃ c i value, act = .proceed c ∧
      s.calls[c]? = some { election := i, pc := .campaign value } ∧ s.lookup = none ∧
      t = (s.set value).setCall c i (.acquired value) := by
  have hs := Elections.ClaimsIn.refl s
  cases h with
  | called act i pc hi hclaim hresign => exact .inl (hs.pushCall hclaim)
  | acquired c i value h hfree => exact .inr ⟨c, i, value, rfl, h, hfree, rfl⟩
  | storeValue c i value h =>
      have hi := claims_of_call h rfl
      refine .inl (Elections.ClaimsIn.setCall ⟨?_, hs.calls⟩ fun _ => hi)
      intro j hj
      rcases isLeader_modify hj with ⟨rfl, -⟩ | hj
      · exact hi
      · exact .inl hj
  | elected c i h =>
      have hi := claims_of_call h rfl
      have hset := hs.setLeader true fun _ => hi
      refine .inl (Elections.ClaimsIn.setCall ⟨?_, hset.calls⟩ fun h => by cases h)
      exact fun j hj => hset.leaders j (isLeader_startRenewTask hj)
  | moved c i pc pc' h hclaim hresign =>
      refine .inl (hs.setCall fun h => ?_)
      rw [hclaim] at h
      cases h
  | extended c i h =>
      refine .inl (Elections.ClaimsIn.setCall (hs.of_eq rfl rfl) ?_)
      exact fun h => by cases h
  | deleted c i h =>
      refine .inl (Elections.ClaimsIn.setCall (hs.of_eq rfl rfl) ?_)
      exact fun h => by cases h
  | cleared c i pc pc' h hclaim hresign =>
      refine .inl ((hs.setLeader false fun h => by cases h).setCall fun h => ?_)
      rw [hclaim] at h
      cases h
  | failed c i pc executed u h hfail =>
      obtain ⟨-, helections, hcalls, -⟩ := failing_frame hfail
      exact .inl ((hs.of_eq helections hcalls).setCall fun h => by cases h)
  | stops k i tick h => exact .inl (hs.of_eq rfl rfl)
  | ticked k i tick h hleader => exact .inl ((hs.pushCall rfl).of_eq rfl rfl)
  | renewed k i tick c pc h => exact .inl (hs.of_eq rfl rfl)
  | gaveUp k i tick c h =>
      exact .inl ((hs.setLeader false fun h => by cases h).of_eq rfl rfl)
  | elapse milliseconds => exact .inl (hs.of_eq rfl rfl)

theorem claims_acquired {c i j : Nat} {value : Text}
    (h : ((s.set value).setCall c i (.acquired value)).Claims j) : j = i ∨ s.Claims j := by
  rcases h with hleader | ⟨call, hmem, rfl, hclaim⟩
  · exact .inr (.inl hleader)
  · rcases List.mem_or_eq_of_mem_set hmem with hmem | rfl
    · exact .inr (.inr ⟨call, hmem, rfl, hclaim⟩)
    · exact .inl rfl

/-! ## One leader -/

/-- A `SET` finds the key absent only where no other node leads or is about
to. -/
def Elections.KeyFree (s : Elections) (act : ElectionAct) : Prop :=
  ∀ c i value, act = .proceed c →
    s.calls[c]? = some { election := i, pc := .campaign value } → s.lookup = none →
    ∀ j, s.Claims j → j = i

/-- One object claims to lead, at most. -/
def Elections.OneClaim (s : Elections) : Prop := ∀ i j, s.Claims i → s.Claims j → i = j

theorem oneClaim_step {act : ElectionAct} (hs : s.OneClaim) (hC : s.KeyFree act)
    (h : ElectionStep s act t) : t.OneClaim := by
  intro i j hi hj
  rcases claims_of_step h with hin | ⟨c, k, value, rfl, hcall, hfree, rfl⟩
  · exact hs i j (hin.claims hi) (hin.claims hj)
  · have hone : ∀ j, ((s.set value).setCall c k (.acquired value)).Claims j → j = k := by
      intro j hj
      rcases claims_acquired hj with rfl | hj
      · rfl
      · exact hC c k value rfl hcall hfree j hj
    rw [hone i hi, hone j hj]

theorem isLeader_init (nodes i : Nat) : (Elections.init nodes).isLeader i = false := by
  rw [Elections.isLeader, Elections.init, List.getElem?_replicate]
  split
  · rfl
  · rfl

theorem not_claims_init (nodes i : Nat) : ¬ (Elections.init nodes).Claims i := by
  rintro (hi | ⟨call, hmem, -⟩)
  · rw [isLeader_init] at hi
    cases hi
  · cases hmem

theorem oneClaim_init (nodes : Nat) : (Elections.init nodes).OneClaim :=
  fun i _ hi => absurd hi (not_claims_init nodes i)

theorem Elections.OneClaim.atMostOneLeader (h : s.OneClaim) : s.AtMostOneLeader :=
  fun i j hi hj => h i j (.inl hi) (.inl hj)

/-- Whatever the nodes do, and whenever, at most one leads as long as no `SET`
finds the key absent while another node leads or is about to. -/
theorem atMostOneLeader_of_keyFree {nodes : Nat} {acts : List ElectionAct}
    (hrun : Steps Elections.step Elections.KeyFree (.init nodes) acts s) :
    s.AtMostOneLeader := by
  have hone : s.OneClaim :=
    hrun.invariant (fun _ _ _ hs hC hstep => oneClaim_step hs hC (electionStep_of_step hstep))
      (oneClaim_init nodes)
  exact hone.atMostOneLeader

/-- `KeyFree`, as a test. -/
def Elections.keyFree (s : Elections) : ElectionAct → Bool
  | .proceed c =>
      match s.calls[c]? with
      | some { election := i, pc := .campaign _ } =>
          s.lookup != none ||
            (List.range s.elections.length).all (fun j => !s.isLeader j || j == i) &&
              s.calls.all fun call => !call.pc.isClaim || call.election == i
      | _ => true
  | _ => true

theorem keyFree_of_test {act : ElectionAct} (h : s.keyFree act = true) : s.KeyFree act := by
  rintro c i value rfl hcall hfree j hj
  simp only [Elections.keyFree, hcall, hfree, bne_self_eq_false, Bool.false_or,
    Bool.and_eq_true, List.all_eq_true, List.mem_range] at h
  obtain ⟨hleaders, hcalls⟩ := h
  rcases hj with hleader | ⟨call, hmem, rfl, hclaim⟩
  · have hlt : j < s.elections.length := by
      by_contra hge
      rw [Elections.isLeader, List.getElem?_eq_none (by omega)] at hleader
      cases hleader
    have hj := hleaders j hlt
    rw [hleader] at hj
    simpa using hj
  · have hi := hcalls call hmem
    rw [hclaim] at hi
    simpa using hi

/-- One node leads, renews, and resigns; when its flag is cleared the other
campaigns. -/
def handOver : List ElectionAct :=
  [.campaign 0 "a".toList, .proceed 0, .proceed 0, .proceed 0, .tick 0, .elapse 5000,
   .renew 0, .proceed 1, .proceed 1, .proceed 1, .elapse 8000, .resign 0, .proceed 2,
   .proceed 2, .proceed 2, .proceed 2, .campaign 1 "b".toList, .proceed 3, .proceed 3,
   .proceed 3]

theorem atMostOneLeader_of_keyFree_handOver :
    (after Elections.step (.init 2) handOver).AtMostOneLeader :=
  atMostOneLeader_of_keyFree
    (.of_test Elections.keyFree (by decide +kernel) fun _ _ => keyFree_of_test)

/-- One node leads; the only tick of its renew task comes at once, and the key
runs out; the other campaigns. -/
def runsOut : List ElectionAct :=
  [.campaign 0 "a".toList, .proceed 0, .proceed 0, .proceed 0, .tick 0, .elapse 10001,
   .campaign 1 "b".toList, .proceed 1, .proceed 1, .proceed 1]

instance (s : Elections) (act : ElectionAct) : Decidable (s.OnTime act) :=
  match act with
  | .elapse milliseconds => inferInstanceAs (Decidable
      (∀ task ∈ s.tasks, task.pc.onTime (s.now + milliseconds) = true))
  | .campaign _ _ | .renew _ | .resign _ | .proceed _ | .fail _ _ | .tick _
  | .renewed _ => .isTrue trivial

theorem not_atMostOneLeader_onTime :
    ¬ ∀ (nodes : Nat) (acts : List ElectionAct) (s : Elections),
      Steps Elections.step Elections.OnTime (.init nodes) acts s → s.AtMostOneLeader := by
  intro h
  have hrun : Steps Elections.step Elections.OnTime (.init 2) runsOut
      (after Elections.step (.init 2) runsOut) := .of_after (by decide +kernel)
  have hone := h 2 runsOut _ hrun 0 1 (by decide +kernel) (by decide +kernel)
  cases hone

/-! ## What keeps the key -/

/-- Nobody resigns, and time does not pass the end of the key under a node that
leads or is about to. -/
def Elections.Renewed (s : Elections) : ElectionAct → Prop
  | .resign _ => False
  | .elapse milliseconds =>
      ∀ j, s.Claims j → ∀ entry ∈ s.lookup, s.now + milliseconds ≤ entry.expiresAt
  | _ => True

/-- The key is there while anybody claims to lead. -/
structure Elections.Kept (s : Elections) : Prop where
  resigns : ∀ call ∈ s.calls, call.pc.isResign = false
  key : ∀ j, s.Claims j → s.lookup ≠ none

theorem lookup_set (s : Elections) (value : Text) : (s.set value).lookup ≠ none := by
  have hle : s.now ≤ s.deadline := Nat.le_add_right _ _
  rw [Elections.lookup, Elections.set, Option.filter_some, if_pos (decide_eq_true hle)]
  exact Option.some_ne_none _

theorem lookup_expire (h : s.lookup ≠ none) : s.expire.lookup ≠ none := by
  obtain ⟨entry, hentry⟩ := Option.ne_none_iff_exists'.1 h
  have hle : s.now ≤ s.deadline := Nat.le_add_right _ _
  rw [Elections.lookup, Elections.expire, hentry, Option.map_some, Option.filter_some,
    if_pos (decide_eq_true hle)]
  exact Option.some_ne_none _

theorem lookup_elapse {milliseconds : Nat} (h : s.lookup ≠ none)
    (hle : ∀ entry ∈ s.lookup, s.now + milliseconds ≤ entry.expiresAt) :
    Elections.lookup { s with now := s.now + milliseconds } ≠ none := by
  obtain ⟨entry, hentry⟩ := Option.ne_none_iff_exists'.1 h
  have hkey : s.key = some entry := (Option.filter_eq_some_iff.1 hentry).1
  rw [Elections.lookup, hkey, Option.filter_some, if_pos (decide_eq_true (hle entry hentry))]
  exact Option.some_ne_none _

theorem failing_lookup {pc : CallPc} {executed : Bool} (hpc : pc.isResign = false)
    (h : s.failing executed pc = some u) (hs : s.lookup ≠ none) : u.lookup ≠ none := by
  cases pc with
  | campaign value =>
      obtain rfl := Option.some.inj h
      split
      · exact lookup_set s value
      · exact hs
  | extending =>
      obtain rfl := Option.some.inj h
      split
      · exact lookup_expire hs
      · exact hs
  | renewing value | resigning value =>
      obtain rfl := Option.some.inj h
      exact hs
  | deleting => cases hpc
  | acquired | elected | renew | lost | resign | deleted | cleared | returned => cases h

/-- A step that deletes nothing leaves a key that is there. -/
theorem lookup_step {act : ElectionAct} (h : ElectionStep s act t)
    (hresigns : ∀ call ∈ s.calls, call.pc.isResign = false) (hs : s.lookup ≠ none)
    (helapse : ∀ milliseconds, act = .elapse milliseconds → ∀ entry ∈ s.lookup,
      s.now + milliseconds ≤ entry.expiresAt) : t.lookup ≠ none := by
  cases h with
  | acquired c i value h hfree => exact lookup_set s value
  | extended c i h => exact lookup_expire hs
  | deleted c i h =>
      have hno := hresigns _ (List.mem_of_getElem? h)
      cases hno
  | failed c i pc executed u h hfail =>
      have hpc : pc.isResign = false := hresigns _ (List.mem_of_getElem? h)
      have hu : u.lookup ≠ none := failing_lookup hpc hfail hs
      exact hu
  | elapse milliseconds => exact lookup_elapse hs (helapse _ rfl)
  | called | storeValue | elected | moved | cleared | stops | ticked | renewed | gaveUp =>
      exact hs

theorem isResign_setCall {c i : Nat} {pc : CallPc}
    (h : ∀ call ∈ t.calls, call.pc.isResign = false) (hpc : pc.isResign = false) :
    ∀ call ∈ (t.setCall c i pc).calls, call.pc.isResign = false := by
  intro call hmem
  rcases List.mem_or_eq_of_mem_set hmem with hmem | rfl
  · exact h call hmem
  · exact hpc

theorem isResign_pushCall {i : Nat} {pc : CallPc}
    (h : ∀ call ∈ t.calls, call.pc.isResign = false) (hpc : pc.isResign = false) :
    ∀ call ∈ (t.pushCall i pc).calls, call.pc.isResign = false := by
  intro call hmem
  rcases List.mem_append.1 hmem with hmem | hmem
  · exact h call hmem
  · obtain rfl := List.mem_singleton.1 hmem
    exact hpc

/-- A call that does not resign does not begin to. -/
theorem isResign_moved {c i : Nat} {pc pc' : CallPc}
    (hs : ∀ call ∈ s.calls, call.pc.isResign = false)
    (h : s.calls[c]? = some { election := i, pc })
    (hresign : pc'.isResign = true → pc.isResign = true) : pc'.isResign = false := by
  by_contra htrue
  have hno := hs _ (List.mem_of_getElem? h)
  rw [hresign (by simpa using htrue)] at hno
  cases hno

theorem isResign_step {act : ElectionAct} (h : ElectionStep s act t)
    (hs : ∀ call ∈ s.calls, call.pc.isResign = false) (hact : ∀ i, act ≠ .resign i) :
    ∀ call ∈ t.calls, call.pc.isResign = false := by
  cases h with
  | called act i pc hi hclaim hresign =>
      refine isResign_pushCall hs ?_
      by_contra htrue
      exact hact i (hresign (by simpa using htrue))
  | acquired | storeValue | elected | extended => exact isResign_setCall hs rfl
  | moved c i pc pc' h hclaim hresign =>
      exact isResign_setCall hs (isResign_moved hs h hresign)
  | cleared c i pc pc' h hclaim hresign =>
      exact isResign_setCall hs (isResign_moved hs h hresign)
  | deleted c i h =>
      have hno := hs _ (List.mem_of_getElem? h)
      cases hno
  | failed c i pc executed u h hfail =>
      obtain ⟨-, -, hcalls, -⟩ := failing_frame hfail
      exact isResign_setCall (hcalls ▸ hs) rfl
  | ticked k i tick h hleader => exact isResign_pushCall hs rfl
  | stops | renewed | gaveUp | elapse => exact hs

theorem kept_step {act : ElectionAct} (hs : s.Kept) (hC : s.Renewed act)
    (h : ElectionStep s act t) : t.Kept := by
  have hact : ∀ i, act ≠ .resign i := by
    rintro i rfl
    exact hC
  refine ⟨isResign_step h hs.resigns hact, ?_⟩
  intro j hj
  rcases claims_of_step h with hin | ⟨c, i, value, rfl, hcall, hfree, rfl⟩
  · have hclaims := hin.claims hj
    refine lookup_step h hs.resigns (hs.key j hclaims) ?_
    rintro milliseconds rfl
    exact hC j hclaims
  · exact lookup_set s value

/-- Where the key is there while anybody claims, a `SET` that finds it absent
finds nobody claiming. -/
theorem Elections.Kept.keyFree (hs : s.Kept) (act : ElectionAct) : s.KeyFree act :=
  fun _ _ _ _ _ hfree j hj => absurd hfree (hs.key j hj)

/-- At most one node leads as long as nobody resigns and the key of a leader is
renewed in time. -/
theorem atMostOneLeader_of_renewed {nodes : Nat} {acts : List ElectionAct}
    (hrun : Steps Elections.step Elections.Renewed (.init nodes) acts s) :
    s.AtMostOneLeader := by
  have hstep : ∀ (s : Elections) (act : ElectionAct) (t : Elections),
      s.Kept ∧ s.OneClaim → s.Renewed act → s.step act = some t → t.Kept ∧ t.OneClaim := by
    rintro s act t ⟨hkept, hone⟩ hC hstep
    have hstep := electionStep_of_step hstep
    exact ⟨kept_step hkept hC hstep, oneClaim_step hone (hkept.keyFree act) hstep⟩
  have hinit : (Elections.init nodes).Kept :=
    ⟨fun _ hmem => (List.not_mem_nil hmem).elim,
      fun j hj => absurd hj (not_claims_init nodes j)⟩
  exact (hrun.invariant hstep ⟨hinit, oneClaim_init nodes⟩).2.atMostOneLeader

/-! ## The renew tasks -/

/-- Calls are made on the objects of nodes, the flag of a task's own object is
never set, and no task has come so far as to renew. -/
structure Elections.TasksIdle (s : Elections) : Prop where
  nodes : s.nodes ≤ s.elections.length
  calls : ∀ call ∈ s.calls, call.election < s.nodes
  objects : ∀ i, s.nodes ≤ i → s.isLeader i = false
  tasks : ∀ task ∈ s.tasks, s.nodes ≤ task.election ∧ ∀ tick c, task.pc ≠ .renewing tick c

theorem tasksIdle_init (nodes : Nat) : (Elections.init nodes).TasksIdle where
  nodes := Nat.le_of_eq List.length_replicate.symm
  calls := fun _ hmem => (List.not_mem_nil hmem).elim
  objects := fun i _ => isLeader_init nodes i
  tasks := fun _ hmem => (List.not_mem_nil hmem).elim

theorem Elections.TasksIdle.setCall {c i : Nat} {pc pc' : CallPc} (h : t.TasksIdle)
    (hc : t.calls[c]? = some { election := i, pc }) : (t.setCall c i pc').TasksIdle where
  nodes := h.nodes
  calls := by
    intro call hmem
    have hi : i < t.nodes := h.calls _ (List.mem_of_getElem? hc)
    rcases List.mem_or_eq_of_mem_set hmem with hmem | rfl
    · exact h.calls call hmem
    · exact hi
  objects := h.objects
  tasks := h.tasks

/-- The objects of nodes may change. -/
theorem Elections.TasksIdle.modify {i : Nat} {f : RedisElection → RedisElection}
    (h : t.TasksIdle) (hi : i < t.nodes) :
    Elections.TasksIdle { t with elections := t.elections.modify i f } where
  nodes := by
    show t.nodes ≤ (t.elections.modify i f).length
    rw [List.length_modify]
    exact h.nodes
  calls := h.calls
  objects := by
    intro j hj
    by_contra htrue
    rcases isLeader_modify (by simpa using htrue) with ⟨rfl, -⟩ | hleader
    · exact absurd hi (Nat.not_lt.2 hj)
    · rw [h.objects j hj] at hleader
      cases hleader
  tasks := h.tasks

theorem Elections.TasksIdle.startRenewTask (h : t.TasksIdle) :
    t.startRenewTask.TasksIdle where
  nodes := by
    show t.nodes ≤ (t.elections ++ [RedisElection.new]).length
    rw [List.length_append]
    exact Nat.le_trans h.nodes (Nat.le_add_right _ _)
  calls := h.calls
  objects := by
    intro j hj
    by_contra htrue
    have hleader := isLeader_startRenewTask (t := t) (j := j) (by simpa using htrue)
    rw [h.objects j hj] at hleader
    cases hleader
  tasks := by
    intro task hmem
    rcases List.mem_append.1 hmem with hmem | hmem
    · exact h.tasks task hmem
    · obtain rfl := List.mem_singleton.1 hmem
      exact ⟨h.nodes, fun tick c hpc => by cases hpc⟩

theorem Elections.TasksIdle.of_eq (h : t.TasksIdle) (hnodes : u.nodes = t.nodes)
    (helections : u.elections = t.elections) (hcalls : u.calls = t.calls)
    (htasks : u.tasks = t.tasks) : u.TasksIdle where
  nodes := by
    rw [hnodes, helections]
    exact h.nodes
  calls := by
    rw [hnodes, hcalls]
    exact h.calls
  objects := by
    intro j hj
    rw [Elections.isLeader, helections]
    exact h.objects j (hnodes ▸ hj)
  tasks := by
    rw [hnodes, htasks]
    exact h.tasks

theorem Elections.TasksIdle.pushCall {i : Nat} {pc : CallPc} (h : t.TasksIdle)
    (hi : i < t.nodes) : (t.pushCall i pc).TasksIdle where
  nodes := h.nodes
  calls := by
    intro call hmem
    rcases List.mem_append.1 hmem with hmem | hmem
    · exact h.calls call hmem
    · obtain rfl := List.mem_singleton.1 hmem
      exact hi
  objects := h.objects
  tasks := h.tasks

theorem tasksIdle_step {act : ElectionAct} (hs : s.TasksIdle) (h : ElectionStep s act t) :
    t.TasksIdle := by
  cases h with
  | called act i pc hi hclaim hresign => exact hs.pushCall hi
  | acquired c i value h hfree =>
      have hset : (s.set value).TasksIdle := hs.of_eq rfl rfl rfl rfl
      exact hset.setCall h
  | storeValue c i value h =>
      exact (hs.modify (hs.calls _ (List.mem_of_getElem? h))).setCall h
  | elected c i h =>
      have hset : (s.setLeader i true).TasksIdle :=
        hs.modify (hs.calls _ (List.mem_of_getElem? h))
      exact hset.startRenewTask.setCall h
  | moved c i pc pc' h hclaim hresign => exact hs.setCall h
  | extended c i h =>
      have hexpire : s.expire.TasksIdle := hs.of_eq rfl rfl rfl rfl
      exact hexpire.setCall h
  | deleted c i h =>
      have hdel : s.del.TasksIdle := hs.of_eq rfl rfl rfl rfl
      exact hdel.setCall h
  | cleared c i pc pc' h hclaim hresign =>
      have hset : (s.setLeader i false).TasksIdle :=
        hs.modify (hs.calls _ (List.mem_of_getElem? h))
      exact hset.setCall h
  | failed c i pc executed u h hfail =>
      obtain ⟨hnodes, helections, hcalls, htasks⟩ := failing_frame hfail
      exact (hs.of_eq hnodes helections hcalls htasks).setCall (hcalls ▸ h)
  | stops k i tick h =>
      refine ⟨hs.nodes, hs.calls, hs.objects, ?_⟩
      intro task hmem
      rcases List.mem_or_eq_of_mem_set hmem with hmem | rfl
      · exact hs.tasks task hmem
      · exact ⟨(hs.tasks _ (List.mem_of_getElem? h)).1, fun tick c hpc => by cases hpc⟩
  | ticked k i tick h hleader =>
      have hidle := hs.objects i (hs.tasks _ (List.mem_of_getElem? h)).1
      rw [hleader] at hidle
      cases hidle
  | renewed k i tick c pc h =>
      exact absurd rfl ((hs.tasks _ (List.mem_of_getElem? h)).2 tick c)
  | gaveUp k i tick c h =>
      exact absurd rfl ((hs.tasks _ (List.mem_of_getElem? h)).2 tick c)
  | elapse milliseconds => exact hs.of_eq rfl rfl rfl rfl

/-- No renew task ever renews: the object it looks at does not lead. -/
theorem not_renewing {nodes : Nat} {acts : List ElectionAct} {task : RenewTask}
    (hrun : Steps Elections.step Free (.init nodes) acts s) (htask : task ∈ s.tasks)
    (tick c : Nat) : task.pc ≠ .renewing tick c := by
  have hidle : s.TasksIdle :=
    hrun.invariant (fun _ _ _ hs _ hstep => tasksIdle_step hs (electionStep_of_step hstep))
      (tasksIdle_init nodes)
  exact (hidle.tasks task htask).2 tick c

end RedisHaTool.Cluster
