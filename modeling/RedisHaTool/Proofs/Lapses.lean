import RedisHaTool.Proofs.OneElected

/-!
# What is left of a leader

Two ends that a leadership has. A `resign` that comes to clear `leader_value`
waits for its own guard: it never returns, every later call on the object waits
behind it or fails, and the node does not lead again. And where the nodes leave
the renewing to the tasks, no key is ever extended: ten seconds after the last
`SET` it is gone, while every node that has led still says it does.
-/

namespace RedisHaTool.Cluster

open Lib

variable {s t u : Elections}

/-! ## After a resign -/

/-- What a call can come to that never gets past the lock. -/
def CallPc.isBarred : CallPc → Bool
  | .campaign _ | .acquired _ | .renew | .resign | .returned false => true
  | .elected | .renewing _ | .extending | .lost | .resigning _ | .deleting | .deleted | .cleared
  | .returned true => false

/-- Call `c` waits to clear the object's `leader_value`, and no campaign on it has
got past that; calls from the `n`-th on have not got past it either. -/
structure Elections.Barred (s : Elections) (c i n : Nat) : Prop where
  waits : s.calls[c]? = some { election := i, pc := .cleared }
  follows : s.isLeader i = false
  campaigns : ∀ call ∈ s.calls, call.election = i → call.pc ≠ .elected
  le : n ≤ s.calls.length
  later : ∀ (d : Nat) call, n ≤ d → s.calls[d]? = some call → call.election = i →
    call.pc.isBarred = true

variable {c i n : Nat}

theorem Elections.Barred.not_readable (h : s.Barred c i n) : s.readable i = false := by
  rw [Elections.readable, List.all_eq_false]
  exact ⟨_, List.mem_of_getElem? h.waits, by simp⟩

theorem Elections.Barred.not_writable (h : s.Barred c i n) : s.writable i = false := by
  rw [Elections.writable, List.all_eq_false]
  exact ⟨_, List.mem_of_getElem? h.waits, by simp [CallPc.holdsGuard]⟩

/-- What is not seen of the object. -/
theorem Elections.Barred.of_eq (h : s.Barred c i n) (hcalls : t.calls = s.calls)
    (hleader : t.isLeader i = true → s.isLeader i = true) : t.Barred c i n where
  waits := hcalls ▸ h.waits
  follows := by
    by_contra htrue
    have hs := hleader (by simpa using htrue)
    rw [h.follows] at hs
    cases hs
  campaigns := hcalls ▸ h.campaigns
  le := hcalls ▸ h.le
  later := hcalls ▸ h.later

theorem Elections.Barred.pushCall {j : Nat} {pc : CallPc} (h : s.Barred c i n)
    (hpc : pc.isBarred = true) : (s.pushCall j pc).Barred c i n where
  waits := by
    rw [Elections.pushCall, List.getElem?_append_left (List.getElem?_eq_some_iff.1 h.waits).1]
    exact h.waits
  follows := h.follows
  campaigns := by
    intro call hmem hi
    rcases List.mem_append.1 hmem with hmem | hmem
    · exact h.campaigns call hmem hi
    · obtain rfl := List.mem_singleton.1 hmem
      rintro rfl
      cases hpc
  le := by
    show n ≤ (s.calls ++ [_]).length
    rw [List.length_append]
    exact Nat.le_trans h.le (Nat.le_add_right _ _)
  later := by
    intro d call hd hcall hi
    rcases List.mem_append.1 (List.mem_of_getElem? hcall) with hmem | hmem
    · rw [Elections.pushCall, List.getElem?_append] at hcall
      split at hcall
      · exact h.later d call hd hcall hi
      · obtain rfl := List.mem_singleton.1 (List.mem_of_getElem? hcall)
        exact hpc
    · obtain rfl := List.mem_singleton.1 hmem
      exact hpc

/-- Any call but the one that waits may go on, as long as it stays out. -/
theorem Elections.Barred.setCall {d j : Nat} {pc pc' : CallPc} (h : t.Barred c i n)
    (hd : t.calls[d]? = some { election := j, pc }) (hwaits : pc ≠ .cleared)
    (helected : j = i → pc' ≠ .elected)
    (hbarred : j = i → pc.isBarred = true → pc'.isBarred = true) :
    (t.setCall d j pc').Barred c i n where
  waits := by
    have hne : d ≠ c := by
      rintro rfl
      rw [h.waits] at hd
      exact hwaits (ElectionCall.mk.inj (Option.some.inj hd)).2.symm
    rw [Elections.setCall, List.getElem?_set_ne hne]
    exact h.waits
  follows := h.follows
  campaigns := by
    intro call hmem hi
    rcases List.mem_or_eq_of_mem_set hmem with hmem | rfl
    · exact h.campaigns call hmem hi
    · exact helected hi
  le := by
    show n ≤ (t.calls.set d _).length
    rw [List.length_set]
    exact h.le
  later := by
    intro d' call hd' hcall hi
    rw [Elections.setCall, List.getElem?_set] at hcall
    by_cases hdd : d = d'
    · subst hdd
      rw [if_pos rfl] at hcall
      split at hcall
      · obtain rfl := Option.some.inj hcall
        exact hbarred hi (h.later d _ hd' hd hi)
      · cases hcall
    · rw [if_neg hdd] at hcall
      exact h.later d' call hd' hcall hi

/-- The flag of one object is cleared, or that of another is set. -/
theorem Elections.Barred.setLeader (h : s.Barred c i n) (j : Nat) (isLeader : Bool)
    (hj : isLeader = true → j ≠ i) : (s.setLeader j isLeader).Barred c i n := by
  refine h.of_eq rfl fun hleader => ?_
  rcases isLeader_modify hleader with ⟨rfl, e, he⟩ | hleader
  · exact absurd rfl (hj he)
  · exact hleader

theorem barred_of_read {d j : Nat} {pc : CallPc} {next : Text → CallPc} (hs : s.Barred c i n)
    (hd : s.calls[d]? = some { election := j, pc }) (hwaits : pc ≠ .cleared)
    (h : (if s.readable j then
        match s.elections[j]?.bind RedisElection.leaderValue with
        | none => some (s.setCall d j (.returned false))
        | some value => some (s.setCall d j (next value))
      else none) = some t) : t.Barred c i n := by
  split at h
  · next hread =>
      have hne : j ≠ i := by
        rintro rfl
        rw [hs.not_readable] at hread
        cases hread
      cases hvalue : s.elections[j]?.bind RedisElection.leaderValue with
      | none =>
          rw [hvalue] at h
          obtain rfl := Option.some.inj h
          exact hs.setCall hd hwaits (fun hj => absurd hj hne) fun hj => absurd hj hne
      | some value =>
          rw [hvalue] at h
          obtain rfl := Option.some.inj h
          exact hs.setCall hd hwaits (fun hj => absurd hj hne) fun hj => absurd hj hne
  · cases h

theorem barred_proceed {d j : Nat} {pc : CallPc} (hs : s.Barred c i n)
    (hd : s.calls[d]? = some { election := j, pc }) (h : s.proceed d j pc = some t) :
    t.Barred c i n := by
  cases pc with
  | campaign value =>
      rw [Elections.proceed] at h
      split at h
      · obtain rfl := Option.some.inj h
        have hset : (s.set value).Barred c i n := hs.of_eq rfl id
        exact hset.setCall hd (by simp) (by simp) fun _ _ => rfl
      · obtain rfl := Option.some.inj h
        exact hs.setCall hd (by simp) (by simp) fun _ _ => rfl
  | acquired value =>
      rw [Elections.proceed] at h
      split at h
      · next hwrite =>
          have hne : j ≠ i := by
            rintro rfl
            rw [hs.not_writable] at hwrite
            cases hwrite
          obtain rfl := Option.some.inj h
          have hstored : Elections.Barred { s with elections := s.elections.modify j fun e =>
              { e with leaderValue := some value } } c i n := by
            refine hs.of_eq rfl fun hleader => ?_
            rcases isLeader_modify hleader with ⟨rfl, -⟩ | hleader
            · exact absurd rfl hne
            · exact hleader
          exact hstored.setCall hd (by simp) (fun hj => absurd hj hne) fun hj => absurd hj hne
      · cases h
  | elected =>
      have hne : j ≠ i := fun hj =>
        hs.campaigns _ (List.mem_of_getElem? hd) hj rfl
      obtain rfl := Option.some.inj h
      have hset := hs.setLeader j true fun _ => hne
      have hstart : (s.setLeader j true).startRenewTask.Barred c i n :=
        hset.of_eq rfl isLeader_startRenewTask
      exact hstart.setCall hd (by simp) (by simp) fun hj => absurd hj hne
  | renew => exact barred_of_read hs hd (by simp) h
  | resign => exact barred_of_read hs hd (by simp) h
  | renewing value | resigning value =>
      rw [Elections.proceed] at h
      split at h
      · obtain rfl := Option.some.inj h
        exact hs.setCall hd (by simp) (by simp) fun _ hbarred => by cases hbarred
      · obtain rfl := Option.some.inj h
        exact hs.setCall hd (by simp) (by simp) fun _ hbarred => by cases hbarred
  | extending =>
      obtain rfl := Option.some.inj h
      have hexpire : s.expire.Barred c i n := hs.of_eq rfl id
      exact hexpire.setCall hd (by simp) (by simp) fun _ hbarred => by cases hbarred
  | deleting =>
      obtain rfl := Option.some.inj h
      have hdel : s.del.Barred c i n := hs.of_eq rfl id
      exact hdel.setCall hd (by simp) (by simp) fun _ hbarred => by cases hbarred
  | lost | deleted =>
      obtain rfl := Option.some.inj h
      have hset := hs.setLeader j false fun h => by cases h
      exact hset.setCall hd (by simp) (by simp) fun _ hbarred => by cases hbarred
  | cleared | returned => cases h

theorem barred_failing {d j : Nat} {pc : CallPc} {executed : Bool} (hs : s.Barred c i n)
    (hd : s.calls[d]? = some { election := j, pc }) (h : s.failing executed pc = some u) :
    (u.setCall d j (.returned false)).Barred c i n := by
  obtain ⟨-, helections, hcalls, -⟩ := failing_frame h
  have hu : u.Barred c i n := hs.of_eq hcalls fun hleader => by
    rw [Elections.isLeader, helections] at hleader
    exact hleader
  refine hu.setCall (hcalls ▸ hd) ?_ (by simp) fun _ _ => rfl
  rintro rfl
  cases h

theorem barred_step {act : ElectionAct} (hs : s.Barred c i n) (h : s.step act = some t) :
    t.Barred c i n := by
  have hcall : ∀ {j : Nat} {pc : CallPc}, pc.isBarred = true → s.call j pc = some t →
      t.Barred c i n := by
    intro j pc hpc hcall
    rw [Elections.call] at hcall
    split at hcall
    · obtain rfl := Option.some.inj hcall
      exact hs.pushCall hpc
    · cases hcall
  cases act with
  | campaign j value => exact hcall rfl h
  | renew j => exact hcall rfl h
  | resign j => exact hcall rfl h
  | proceed d =>
      rw [Elections.step] at h
      split at h
      · next call hd => exact barred_proceed hs hd h
      · cases h
  | fail d executed =>
      rw [Elections.step] at h
      split at h
      · next call hd =>
          obtain ⟨u, hfail, rfl⟩ := Option.map_eq_some_iff.1 h
          exact barred_failing hs hd hfail
      · cases h
  | tick k =>
      rw [Elections.step] at h
      split at h
      · split at h
        · cases h
        · split at h
          · obtain rfl := Option.some.inj h
            exact (hs.pushCall rfl).of_eq rfl id
          · obtain rfl := Option.some.inj h
            exact hs.of_eq rfl id
      · cases h
  | renewed k =>
      rw [Elections.step] at h
      split at h
      · split at h
        · obtain rfl := Option.some.inj h
          exact hs.of_eq rfl id
        · obtain rfl := Option.some.inj h
          exact (hs.setLeader _ false fun h => by cases h).of_eq rfl id
        · cases h
      · cases h
  | elapse milliseconds =>
      obtain rfl := Option.some.inj h
      exact hs.of_eq rfl id

/-- A `resign` that has deleted the key and cleared the flag never returns, no call
made on the object from then on succeeds, and the node never leads again, whatever
is called, fails or expires; unless a campaign on it had already stored its value. -/
theorem resign_never_returns {acts : List ElectionAct}
    (hwaits : s.calls[c]? = some { election := i, pc := .cleared })
    (hfollows : s.isLeader i = false)
    (hcampaigns : ∀ call ∈ s.calls, call.election = i → call.pc ≠ .elected)
    (hrun : Steps Elections.step Free s acts t) :
    t.calls[c]? = some { election := i, pc := .cleared } ∧ t.isLeader i = false ∧
      ∀ (d : Nat) call, s.calls.length ≤ d → t.calls[d]? = some call → call.election = i →
        call.pc ≠ .returned true := by
  have hlater : ∀ (d : Nat) call, s.calls.length ≤ d → s.calls[d]? = some call →
      call.election = i → call.pc.isBarred = true := by
    intro d call hd hcall
    rw [List.getElem?_eq_none hd] at hcall
    cases hcall
  have hbarred : t.Barred c i s.calls.length :=
    hrun.invariant (fun _ _ _ hs _ hstep => barred_step hs hstep)
      ⟨hwaits, hfollows, hcampaigns, Nat.le_refl _, hlater⟩
  refine ⟨hbarred.waits, hbarred.follows, fun d call hd hcall hi hpc => ?_⟩
  have hout := hbarred.later d call hd hcall hi
  rw [hpc] at hout
  cases hout

/-- The node that has resigned campaigns again, once the key is gone. -/
def resigns : List ElectionAct :=
  [.campaign 0 "a".toList, .proceed 0, .proceed 0, .proceed 0, .resign 0, .proceed 1,
   .proceed 1, .proceed 1, .proceed 1]

def campaignsAgain : List ElectionAct :=
  [.campaign 0 "a".toList, .proceed 2, .renew 0, .elapse 20000, .campaign 0 "b".toList,
   .proceed 4, .resign 0]

theorem resign_never_returns_campaignsAgain :
    (after Elections.step (after Elections.step (.init 2) resigns) campaignsAgain).isLeader 0
      = false :=
  (resign_never_returns (c := 1) (i := 0) (by decide +kernel) (by decide +kernel)
    (by decide +kernel) (.of_after (by decide +kernel))).2.1

/-! ## Without a renew -/

/-- What the nodes call is `campaign`. -/
def CampaignsOnly : ElectionAct → Prop
  | .renew _ | .resign _ => False
  | .campaign _ _ | .proceed _ | .fail _ _ | .tick _ | .renewed _ | .elapse _ => True

/-- A `SET` finds the key absent. -/
def Elections.Takes (s : Elections) (act : ElectionAct) : Prop :=
  ∃ c i value, (act = .proceed c ∨ act = .fail c true) ∧
    s.calls[c]? = some { election := i, pc := .campaign value } ∧ s.lookup = none

/-- Where a `campaign` may stand. -/
def CallPc.isCampaign : CallPc → Bool
  | .campaign _ | .acquired _ | .elected | .returned _ => true
  | .renew | .renewing _ | .extending | .lost | .resign | .resigning _ | .deleting | .deleted
  | .cleared => false

/-- Every call there has been is one of `campaign`. -/
structure Elections.Campaigning (s : Elections) : Prop where
  idle : s.TasksIdle
  calls : ∀ call ∈ s.calls, call.pc.isCampaign = true
  key : ∀ entry ∈ s.key, entry.expiresAt ≤ s.deadline

theorem campaigning_init (nodes : Nat) : (Elections.init nodes).Campaigning where
  idle := tasksIdle_init nodes
  calls := fun _ hmem => (List.not_mem_nil hmem).elim
  key := fun _ hentry => by cases hentry

/-- What one step does where nobody renews or resigns. -/
structure Elections.Outlasts (s : Elections) (act : ElectionAct) (t : Elections) : Prop where
  calls : ∀ call ∈ t.calls, call.pc.isCampaign = true
  now : s.now ≤ t.now
  leaders : ∀ j, s.isLeader j = true → t.isLeader j = true
  key : t.key = s.key ∨
    s.Takes act ∧ t.now = s.now ∧ ∃ value, t.key = some { value, expiresAt := s.deadline }

/-- An object that changes, and leads if it led. -/
theorem isLeader_modify_of {i j : Nat} {f : RedisElection → RedisElection}
    (hf : ∀ e, e.isLeader = true → (f e).isLeader = true) (h : t.isLeader j = true) :
    Elections.isLeader { t with elections := t.elections.modify i f } j = true := by
  rw [Elections.isLeader] at h ⊢
  show ((t.elections.modify i f)[j]?.map RedisElection.isLeader).getD false = true
  rw [List.getElem?_modify]
  cases he : t.elections[j]? with
  | none =>
      rw [he] at h
      cases h
  | some e =>
      rw [he] at h
      show (if i = j then f e else e).isLeader = true
      by_cases hij : i = j
      · rw [if_pos hij]
        exact hf e h
      · rw [if_neg hij]
        exact h

theorem isLeader_startRenewTask_of {j : Nat} (h : t.isLeader j = true) :
    t.startRenewTask.isLeader j = true := by
  have hlt : j < t.elections.length := by
    by_contra hge
    rw [Elections.isLeader, List.getElem?_eq_none (by omega)] at h
    cases h
  rw [Elections.isLeader, Elections.startRenewTask, List.getElem?_append_left hlt]
  exact h

theorem isCampaign_set {d j : Nat} {pc : CallPc} {calls : List ElectionCall}
    (h : ∀ call ∈ calls, call.pc.isCampaign = true) (hpc : pc.isCampaign = true) :
    ∀ call ∈ calls.set d { election := j, pc }, call.pc.isCampaign = true := by
  intro call hmem
  rcases List.mem_or_eq_of_mem_set hmem with hmem | rfl
  · exact h call hmem
  · exact hpc

theorem outlasts_proceed {d j : Nat} {pc : CallPc} (hs : s.Campaigning)
    (hd : s.calls[d]? = some { election := j, pc }) (h : s.proceed d j pc = some t) :
    s.Outlasts (.proceed d) t := by
  have hcalls := hs.calls
  have hpc := hs.calls _ (List.mem_of_getElem? hd)
  cases pc with
  | campaign value =>
      rw [Elections.proceed] at h
      split at h
      · next hfree =>
          obtain rfl := Option.some.inj h
          exact ⟨isCampaign_set hcalls rfl, Nat.le_refl _, fun _ => id,
            .inr ⟨⟨d, j, value, .inl rfl, hd, hfree⟩, rfl, value, rfl⟩⟩
      · obtain rfl := Option.some.inj h
        exact ⟨isCampaign_set hcalls rfl, Nat.le_refl _, fun _ => id, .inl rfl⟩
  | acquired value =>
      rw [Elections.proceed] at h
      split at h
      · obtain rfl := Option.some.inj h
        exact ⟨isCampaign_set hcalls rfl, Nat.le_refl _,
          fun _ => isLeader_modify_of fun _ => id, .inl rfl⟩
      · cases h
  | elected =>
      obtain rfl := Option.some.inj h
      refine ⟨isCampaign_set hcalls rfl, Nat.le_refl _, fun k hk => ?_, .inl rfl⟩
      exact isLeader_startRenewTask_of (isLeader_modify_of (fun _ _ => rfl) hk)
  | returned ok => cases h
  | renew | renewing | extending | lost | resign | resigning | deleting | deleted | cleared =>
      cases hpc

theorem outlasts_failing {d j : Nat} {pc : CallPc} {executed : Bool} (hs : s.Campaigning)
    (hd : s.calls[d]? = some { election := j, pc }) (h : s.failing executed pc = some u) :
    s.Outlasts (.fail d executed) (u.setCall d j (.returned false)) := by
  have hpc := hs.calls _ (List.mem_of_getElem? hd)
  cases pc with
  | campaign value =>
      obtain rfl := Option.some.inj h
      split
      · next hset =>
          obtain ⟨rfl, hfree⟩ := hset
          exact ⟨isCampaign_set hs.calls rfl, Nat.le_refl _, fun _ => id,
            .inr ⟨⟨d, j, value, .inr rfl, hd, hfree⟩, rfl, value, rfl⟩⟩
      · exact ⟨isCampaign_set hs.calls rfl, Nat.le_refl _, fun _ => id, .inl rfl⟩
  | acquired | elected | returned => cases h
  | renew | renewing | extending | lost | resign | resigning | deleting | deleted | cleared =>
      cases hpc

theorem outlasts_step {act : ElectionAct} (hs : s.Campaigning) (hact : CampaignsOnly act)
    (h : s.step act = some t) : s.Outlasts act t := by
  cases act with
  | campaign j value =>
      rw [Elections.step, Elections.call] at h
      split at h
      · obtain rfl := Option.some.inj h
        refine ⟨fun call hmem => ?_, Nat.le_refl _, fun _ => id, .inl rfl⟩
        rcases List.mem_append.1 hmem with hmem | hmem
        · exact hs.calls call hmem
        · obtain rfl := List.mem_singleton.1 hmem
          rfl
      · cases h
  | renew j | resign j => exact hact.elim
  | proceed d =>
      rw [Elections.step] at h
      split at h
      · next call hd => exact outlasts_proceed hs hd h
      · cases h
  | fail d executed =>
      rw [Elections.step] at h
      split at h
      · next call hd =>
          obtain ⟨u, hfail, rfl⟩ := Option.map_eq_some_iff.1 h
          exact outlasts_failing hs hd hfail
      · cases h
  | tick k =>
      rw [Elections.step] at h
      split at h
      · next j tick htask =>
          split at h
          · cases h
          · split at h
            · next hleader =>
                have hidle := hs.idle.objects j (hs.idle.tasks _ (List.mem_of_getElem? htask)).1
                rw [hleader] at hidle
                cases hidle
            · obtain rfl := Option.some.inj h
              exact ⟨hs.calls, Nat.le_refl _, fun _ => id, .inl rfl⟩
      · cases h
  | renewed k =>
      rw [Elections.step] at h
      split at h
      · next j tick d htask =>
          exact absurd rfl ((hs.idle.tasks _ (List.mem_of_getElem? htask)).2 tick d)
      · cases h
  | elapse milliseconds =>
      obtain rfl := Option.some.inj h
      exact ⟨hs.calls, Nat.le_add_right _ _, fun _ => id, .inl rfl⟩

theorem deadline_le (h : s.now ≤ t.now) : s.deadline ≤ t.deadline := Nat.add_le_add_right h _

theorem campaigning_step {act : ElectionAct} (hs : s.Campaigning) (hact : CampaignsOnly act)
    (h : s.step act = some t) : t.Campaigning := by
  have hout := outlasts_step hs hact h
  refine ⟨tasksIdle_step hs.idle (electionStep_of_step h), hout.calls, fun entry hentry => ?_⟩
  have hle := deadline_le hout.now
  rcases hout.key with hkey | ⟨-, -, value, hkey⟩
  · exact Nat.le_trans (hs.key entry (hkey ▸ hentry)) hle
  · rw [hkey] at hentry
    obtain rfl := Option.some.inj hentry
    exact hle

/-- Where the nodes only campaign, a node that leads goes on leading; and the key is
gone ten seconds after the last `SET` that found it absent, though the tasks that
are to renew it have ticked. -/
theorem leader_outlives_key {nodes : Nat} {acts acts' : List ElectionAct}
    (hrun : Steps Elections.step (fun _ act => CampaignsOnly act) (.init nodes) acts s)
    (hlater : Steps Elections.step (fun _ act => CampaignsOnly act) s acts' t) :
    (∀ i, s.isLeader i = true → t.isLeader i = true) ∧
    (Steps Elections.step (fun s act => ¬ s.Takes act) s acts' t →
      s.now + ttl * 1000 < t.now → t.lookup = none) := by
  have hs : s.Campaigning :=
    hrun.invariant (fun _ _ _ hs hact hstep => campaigning_step hs hact hstep)
      (campaigning_init nodes)
  constructor
  · have hkept : t.Campaigning ∧ ∀ i, s.isLeader i = true → t.isLeader i = true :=
      hlater.invariant
        (I := fun t => t.Campaigning ∧ ∀ i, s.isLeader i = true → t.isLeader i = true)
        (fun u act v hu hact hstep => ⟨campaigning_step hu.1 hact hstep,
          fun i hi => (outlasts_step hu.1 hact hstep).leaders i (hu.2 i hi)⟩) ⟨hs, fun _ => id⟩
    exact hkept.2
  · intro hquiet hnow
    have hkey : t.Campaigning ∧ ∀ entry ∈ t.key, entry.expiresAt ≤ s.deadline := by
      refine (hlater.and hquiet).invariant
        (I := fun t => t.Campaigning ∧ ∀ entry ∈ t.key, entry.expiresAt ≤ s.deadline)
        (fun u act v hu hact hstep => ?_) ⟨hs, hs.key⟩
      refine ⟨campaigning_step hu.1 hact.1 hstep, ?_⟩
      rcases (outlasts_step hu.1 hact.1 hstep).key with hkey | ⟨htakes, -⟩
      · exact hkey ▸ hu.2
      · exact absurd htakes hact.2
    refine Option.filter_eq_none_iff.2 fun entry hentry hlive => ?_
    exact absurd (of_decide_eq_true hlive)
      (Nat.not_le.2 (Nat.lt_of_le_of_lt (hkey.2 entry hentry) hnow))

instance : DecidablePred CampaignsOnly
  | .renew _ | .resign _ => .isFalse id
  | .campaign _ _ | .proceed _ | .fail _ _ | .tick _ | .renewed _ | .elapse _ => .isTrue trivial

/-- A node leads, its task has its tick, and time goes by. -/
def leads : List ElectionAct :=
  [.campaign 0 "a".toList, .proceed 0, .proceed 0, .proceed 0, .tick 0]

theorem leader_outlives_key_leads :
    (after Elections.step (after Elections.step (.init 2) leads) [.elapse 10001]).isLeader 0
        = true ∧
      (after Elections.step (after Elections.step (.init 2) leads) [.elapse 10001]).lookup
        = none := by
  have hlater := leader_outlives_key
    (.of_after (by decide +kernel) : Steps Elections.step (fun _ act => CampaignsOnly act)
      (.init 2) leads (after Elections.step (.init 2) leads))
    (.of_after (by decide +kernel) : Steps Elections.step (fun _ act => CampaignsOnly act)
      _ [.elapse 10001] _)
  refine ⟨hlater.1 0 (by decide +kernel), hlater.2 (.cons ?_ rfl (.refl _)) (by decide +kernel)⟩
  intro ⟨c, i, value, hact, _⟩
  rcases hact with hact | hact
  · cases hact
  · cases hact

end RedisHaTool.Cluster
