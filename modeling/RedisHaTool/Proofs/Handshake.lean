import RedisHaTool.Proofs.InputEffects
import RedisHaTool.Proofs.Steps

/-!
# The handshake

`psync_offset` is stored when the command is sent, when the reply is read, and
after every piece of the stream; the leader loads it once, whenever it is past
its wait. What it loads is the last store before it, so the task it spawns
starts at the reply's offset when the load falls between that store and the
first count.

Nothing makes it fall there. A notification that comes before the leader asks
for one is lost, the timeout ends the wait whatever the input has done, and even
a leader that is woken may load after the stream has begun.
-/

namespace RedisHaTool.Syncer

open Lib Store Checkpoint

/-! ## Stores to `psync_offset` -/

def InputOp.isStore : InputOp → Bool
  | .storePsyncOffset _ => true
  | _ => false

/-- The number of stores among some effects. -/
def stores (ops : List InputOp) : Nat := ops.countP InputOp.isStore

/-- The value an effect leaves in `psync_offset`. -/
def InputOp.stored (value : Int) : InputOp → Int
  | .storePsyncOffset offset => offset
  | _ => value

/-- The value some effects leave there. -/
def lastStore (value : Int) (ops : List InputOp) : Int := ops.foldl InputOp.stored value

@[simp] theorem stores_nil : stores [] = 0 := rfl

@[simp] theorem stores_cons (op : InputOp) (ops : List InputOp) :
    stores (op :: ops) = stores ops + if op.isStore then 1 else 0 := List.countP_cons

@[simp] theorem stores_append (ops ops' : List InputOp) :
    stores (ops ++ ops') = stores ops + stores ops' := List.countP_append

@[simp] theorem lastStore_append (value : Int) (ops ops' : List InputOp) :
    lastStore value (ops ++ ops') = lastStore (lastStore value ops) ops' :=
  List.foldl_append

/-- Without a store the value stays. -/
theorem lastStore_eq_of_stores {ops : List InputOp} (h : stores ops = 0) (value : Int) :
    lastStore value ops = value := by
  induction ops with
  | nil => rfl
  | cons op ops ih =>
      rw [stores, List.countP_cons] at h
      have hops : stores ops = 0 := by
        rw [stores]
        omega
      rw [lastStore, List.foldl_cons, ← lastStore, InputOp.stored.eq_def]
      cases op with
      | storePsyncOffset offset => simp [InputOp.isStore] at h
      | _ => exact ih hops

/-- Two beginnings of the same effects with as many stores leave the same
value. -/
theorem lastStore_of_stores {pre post pre' post' : List InputOp}
    (h : pre ++ post = pre' ++ post') (hstores : stores pre = stores pre') (value : Int) :
    lastStore value pre = lastStore value pre' := by
  rcases List.append_eq_append_iff.1 h with ⟨more, rfl, -⟩ | ⟨more, rfl, -⟩
  · rw [stores_append] at hstores
    rw [lastStore_append, lastStore_eq_of_stores (by omega : stores more = 0)]
  · rw [stores_append] at hstores
    rw [lastStore_append, lastStore_eq_of_stores (by omega : stores more = 0)]

/-! ## The window -/

/-- The stores up to the one of the reply's offset. -/
def Answer.storesBefore (self : RedisInput) : Answer → Nat
  | .fullResync _ => stores self.psyncEffects + 1
  | .continues _ => stores self.psyncEffects

theorem lastStore_psyncEffects (self : RedisInput) (value : Int) :
    lastStore value self.psyncEffects = self.requested value := by
  unfold RedisInput.psyncEffects RedisInput.requested
  split
  · next h =>
      split
      · next hq => rw [if_pos ⟨h, hq⟩]; rfl
      · next hq => rw [if_neg fun hboth => hq hboth.2]; rfl
  · next h => rw [if_neg fun hboth => h hboth.1]; rfl

/-- Once so many stores are done, the reply's offset is what is there. -/
theorem lastStore_offset {self : RedisInput} {a : Answer} {rdbPieces aofPieces : List Bytes}
    {pre post : List InputOp}
    (h : pre ++ post = self.psyncEffects ++ a.effects self rdbPieces aofPieces)
    (hstores : stores pre = a.storesBefore self) : lastStore 0 pre = a.offset self := by
  cases a with
  | fullResync f =>
      rw [Answer.effects, FullResync.effects, List.cons_append, List.append_cons] at h
      rw [lastStore_of_stores h (by rw [hstores, stores_append]; rfl), lastStore_append]
      rfl
  | continues c =>
      rw [lastStore_of_stores h hstores, lastStore_psyncEffects]
      rfl

/-- The stores the input task has done, of the effects it started with. -/
def storesDone (ops : List InputOp) (s : Sys) : Nat := stores ops - stores s.input

/-- The leader loads after the reply's offset is stored and before the first
count of what was received. -/
def LoadsInWindow (self : RedisInput) (a : Answer) (ops : List InputOp) (s : Sys) :
    Act → Prop
  | .start => storesDone ops s = a.storesBefore self
  | _ => True

instance (self : RedisInput) (a : Answer) (ops : List InputOp) (s : Sys) :
    DecidablePred (LoadsInWindow self a ops s)
  | .start => inferInstanceAs (Decidable (storesDone ops s = a.storesBefore self))
  | .input _ | .listen | .timeout | .forward _ => .isTrue trivial

/-- What `psync_offset` holds is the last store of what has been done. -/
def Stored (ops : List InputOp) (s : Sys) : Prop :=
  ∃ pre, ops = pre ++ s.input ∧ s.psyncOffset = lastStore 0 pre

/-- And what was loaded is the offset. -/
structure Loading (ops : List InputOp) (offset : Int) (s : Sys) : Prop where
  stored : Stored ops s
  initial : ∀ o f, s.leader = .forwarding o f → o = offset

@[simp] theorem perform_psyncOffset (s : Sys) (now : Nat) (op : InputOp) :
    (s.perform now op).psyncOffset = op.stored s.psyncOffset := by
  cases op with
  | writeRdb bs => exact (writeRdb_onlyFiles s bs).psyncOffset
  | flushRdb => exact (flushRdb_onlyFiles s).psyncOffset
  | writeAof bs => exact (writeAof_onlyFiles s bs).psyncOffset
  | flushAof => exact (flushAof_onlyFiles s).psyncOffset
  | _ => rfl

theorem Stored.step {ops : List InputOp} {s t : Sys} {act : Act} (h : Stored ops s)
    (hstep : s.Stepped act t) : Stored ops t := by
  obtain ⟨pre, hpre, hvalue⟩ := h
  cases hstep with
  | input op rest now hinput =>
      refine ⟨pre ++ [op], ?_, ?_⟩
      · rw [perform_input, hpre, hinput, ← List.append_cons]
      · rw [perform_psyncOffset, lastStore_append, ← hvalue]
        rfl
  | _ => exact ⟨pre, hpre, hvalue⟩

/-- The stores done are those of the beginning. -/
theorem storesDone_eq {pre ops : List InputOp} {s : Sys} (h : ops = pre ++ s.input) :
    storesDone ops s = stores pre := by
  rw [storesDone, h, stores_append, Nat.add_sub_cancel]

theorem Loading.step {self : RedisInput} {a : Answer} {rdbPieces aofPieces : List Bytes}
    {ops : List InputOp} (hops : ops = self.psyncEffects ++ a.effects self rdbPieces aofPieces)
    {s t : Sys} {act : Act} (h : Loading ops (a.offset self) s)
    (hwindow : LoadsInWindow self a ops s act) (hstep : s.Stepped act t) :
    Loading ops (a.offset self) t := by
  refine ⟨h.stored.step hstep, fun o f hf => ?_⟩
  cases hstep with
  | input op rest now hinput =>
      obtain ⟨g, hg, -⟩ := forwarding_of_perform hf
      exact h.initial o g hg
  | listen | timeout => cases hf
  | start =>
      obtain ⟨rfl, rfl⟩ := LeaderPc.forwarding.inj hf
      obtain ⟨pre, hpre, hvalue⟩ := h.stored
      rw [hvalue]
      exact lastStore_offset (hpre.symm.trans hops) ((storesDone_eq hpre).symm.trans hwindow)
  | forward o' f' f'' act events hleader hstep =>
      obtain ⟨rfl, rfl⟩ := LeaderPc.forwarding.inj hf
      exact h.initial _ f' hleader

/-- When the load falls in the window, the forwarding task starts at the offset
of the reply. -/
theorem initialOffset_loadsInWindow (self : RedisInput) (a : Answer)
    (incoming : List TcpRead) (hreply : incoming.flatMap Subtype.val = a.reply)
    (disk : Disk) (hasManager : Bool) {acts : List Act} {t : Sys}
    (hrun : (Sys.init (.new disk) hasManager (self.effects 0 incoming)).Runs
      (LoadsInWindow self a (self.effects 0 incoming)) acts t)
    {o : Int} {f : Forwarder} (hleader : t.leader = .forwarding o f) :
    o = a.offset self := by
  obtain ⟨rdbPieces, aofPieces, -, hops⟩ := effects_answer self a hreply
  have hinit : Loading (self.effects 0 incoming) (a.offset self)
      (Sys.init (.new disk) hasManager (self.effects 0 incoming)) :=
    ⟨⟨[], rfl, rfl⟩, fun o f hf => by cases hf⟩
  have hloading := hrun.invariant (fun s act t h hC hstep => h.step hops hC hstep) hinit
  exact hloading.initial o f hleader

/-! ## Sessions on concrete input -/

/-- A source with one key and one byte to say. -/
def sampleResync : FullResync :=
  { masterReplid := "a".toList, masterOffset := 5, rdb := [82], aof := [65],
    isReplid := ⟨⟨by decide, by decide⟩, by decide⟩, isI64 := by decide,
    rdb_ne := by decide, rdb_length := by decide }

/-- Its reply in one read. -/
def sampleReads : List TcpRead := [⟨sampleResync.reply, by decide⟩]

/-- The input of a process that finds no checkpoint. -/
def freshInput : RedisInput := .start "r".toList ∅ []

def freshStart : Sys := .init (.new ∅) true (freshInput.effects 0 sampleReads)

/-- The leader is waiting when it is notified, and loads at once. -/
def promptActs : List Act := .listen :: List.replicate 8 (.input 0) ++ [.start]

theorem initialOffset_loadsInWindow_sample :
    (5 : Int) = (Answer.fullResync sampleResync).offset freshInput :=
  have hrun : freshStart.Runs
      (LoadsInWindow freshInput (.fullResync sampleResync) (freshInput.effects 0 sampleReads))
      promptActs (freshStart.after promptActs) := Sys.runs_after (by decide +kernel)
  initialOffset_loadsInWindow freshInput (.fullResync sampleResync) sampleReads
    (List.append_nil _) ∅ true hrun (f := .new 5 true) (by decide +kernel)

/-- The input task is through with all it has to do when the leader begins to
wait: the notification is lost, and the timeout lets it load the first count. -/
def lateActs : List Act := List.replicate 12 (.input 0) ++ [.listen, .timeout, .start]

/-- Not every interleaving starts the task at the offset of the reply. -/
theorem initialOffset_late :
    ¬ ∀ (self : RedisInput) (a : Answer) (incoming : List TcpRead),
      incoming.flatMap Subtype.val = a.reply → ∀ (disk : Disk) (hasManager : Bool)
      (acts : List Act) (t : Sys),
      (Sys.init (.new disk) hasManager (self.effects 0 incoming)).Runs Free acts t →
      a.storesBefore self ≤ storesDone (self.effects 0 incoming) t →
      ∀ o f, t.leader = .forwarding o f → o = a.offset self := by
  intro h
  have hrun : freshStart.Runs Free lateActs (freshStart.after lateActs) :=
    Sys.runs_free (by decide +kernel)
  have hleader : (freshStart.after lateActs).leader = .forwarding 6 (.new 6 true) := by
    decide +kernel
  have hoffset := h freshInput (.fullResync sampleResync) sampleReads (List.append_nil _) ∅
    true lateActs _ hrun (by decide +kernel) 6 _ hleader
  exact absurd hoffset (by decide)

end RedisHaTool.Syncer
