import RedisHaTool.Proofs.RdbRounds

/-!
# The parser halts

On every input, well formed or not, `parse` answers, fails or panics: the budget
of its loops is never what stops it. Every method leaves no more of the input
than it was given, and whatever starts with `read_byte` leaves less, which is
every round of the main loop but the last and every round over a module's data.
-/

namespace RedisHaTool.Rdb

open Lib

variable {σ α : Type} {callback : BinEntry → EStateM (Fault SyncError) σ Unit}

/-- A callback that does not run out of budget itself. -/
def HaltingCallback (callback : BinEntry → EStateM (Fault SyncError) σ Unit) : Prop :=
  ∀ entry s t, callback entry s ≠ .error .fuel t

theorem GoesOn.bounded {m : ParseM σ α} (h : GoesOn (· ≠ .fuel) m) :
    Bounded RdbParser.left m := by
  intro p
  have hleft := h.left p
  cases heq : m p with
  | ok a q =>
      rw [heq] at hleft
      exact hleft
  | error e q =>
      rw [heq] at hleft
      exact ⟨h.raises p e q heq, hleft⟩

theorem bounded_onReader {m : Rd α} (h : BoundedReader m) :
    Bounded RdbParser.left (onReader m : ParseM σ α) :=
  (goesOn_onReader (fun _ he => he) h).bounded

theorem bounded_modifyState (f : RdbParserState → RdbParserState) :
    Bounded RdbParser.left (modifyState f : ParseM σ Unit) := by
  intro p
  show p.reader.length ≤ p.reader.length
  exact Nat.le_refl _

theorem bounded_parseRecord (h : HaltingCallback callback) (opcode : UInt8) :
    Bounded RdbParser.left (parseRecord callback opcode) := by
  have hcallback : ∀ entry, Raises (· ≠ .fuel) (callback entry) := by
    intro entry s e t heq hfuel
    exact h entry s t (hfuel ▸ heq)
  exact (goesOn_parseRecord (fun _ he => he) hcallback opcode).bounded

theorem bounded_parseStep (h : HaltingCallback callback) :
    Bounded RdbParser.left (parseStep callback) := by
  refine Bounded.get.bind fun p => ?_
  split
  · exact Bounded.pure _
  · refine (bounded_onReader plain_readByte.bounded).bind fun opcode => ?_
    split
    · exact (bounded_modifyState _).bind fun _ => Bounded.pure _
    · exact (bounded_parseRecord h opcode).bind fun _ => Bounded.pure _

/-- Whatever the input, the budget is not what ends `parse`. -/
theorem parse_halts (h : HaltingCallback callback) (p q : RdbParser σ) :
    parse callback p ≠ .error .fuel q := by
  have hloop : Bounded RdbParser.left (do
      let p ← get
      loopFuel (parseStep callback) (p.reader.length + 1)
      pure ([] : List RdbAuxField)) := by
    show Bounded RdbParser.left
      ((fun p => loopFuel (parseStep callback) (p.left + 1) p : ParseM σ Unit) >>= fun _ =>
        pure [])
    exact (Bounded.loopFuel (bounded_parseStep h) fun _ _ => Round.takes).bind
      fun _ => Bounded.pure []
  have hparse : Bounded RdbParser.left (parse callback) :=
    (bounded_onReader plain_readMagic.bounded).bind fun _ =>
      (bounded_onReader plain_readVersion.bounded).bind fun _ =>
        (bounded_modifyState _).bind fun _ => hloop
  intro heq
  exact (hparse.of_error heq).1 rfl

end RedisHaTool.Rdb
