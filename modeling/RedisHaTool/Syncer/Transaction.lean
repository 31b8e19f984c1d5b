import RedisHaTool.Lib.Text

/-!
# The transaction tracker

`syncer/transaction.rs`: five states, told of one command after another, and what
the commands themselves say: what came after a `MULTI`, and whether it is ended.

`EXEC` is answered in `In` only, where `DISCARD` is answered in `Begin` too. So a
transaction with nothing between `MULTI` and `EXEC` is not seen to end.
-/

namespace RedisHaTool.Syncer

open Lib

inductive TransactionStatus where
  | no
  | barrier
  | begin
  | in_
  | commit
  deriving DecidableEq

structure Transaction where
  status : TransactionStatus

namespace Transaction

def multi : Text := "MULTI".toList
def exec : Text := "EXEC".toList
def discard : Text := "DISCARD".toList

def new : Transaction := { status := .no }

/-- `process_command`: the tracker afterwards, and whether the command is one of
a transaction. -/
def processCommand (tx : Transaction) (cmd : Text) : Transaction × Bool :=
  if cmd = multi then
    ({ tx with status := .begin }, false)
  else if cmd = exec then
    if tx.status = .in_ then ({ tx with status := .commit }, false) else (tx, false)
  else if cmd = discard then
    if tx.status = .in_ ∨ tx.status = .begin then ({ tx with status := .no }, false)
    else (tx, false)
  else if tx.status = .begin then
    ({ tx with status := .in_ }, true)
  else if tx.status = .in_ then
    (tx, true)
  else if tx.status = .commit then
    ({ tx with status := .no }, false)
  else
    (tx, false)

/-- `is_in_transaction` -/
def isInTransaction (tx : Transaction) : Bool := tx.status = .begin ∨ tx.status = .in_

/-- The tracker after one command after another. -/
def processAll (tx : Transaction) (cmds : List Text) : Transaction :=
  cmds.foldl (fun tx cmd => (tx.processCommand cmd).1) tx

/-- A command that the tracker does not know by name. -/
def Ordinary (cmd : Text) : Prop := cmd ≠ multi ∧ cmd ≠ exec ∧ cmd ≠ discard

instance (cmd : Text) : Decidable (Ordinary cmd) := by
  unfold Ordinary; infer_instance

/-! ## What the commands say -/

/-- A `MULTI`, with `P` of what follows it. -/
def AfterMulti (P : List Text → Prop) (cmds : List Text) : Prop :=
  ∃ pre post, cmds = pre ++ multi :: post ∧ P post

/-- Neither `EXEC` nor `DISCARD`. -/
def Unended (post : List Text) : Prop := ∀ cmd ∈ post, cmd ≠ exec ∧ cmd ≠ discard

/-- Nothing but `EXEC`. -/
def Execs (post : List Text) : Prop := ∃ k, post = List.replicate k exec

/-- `EXEC` at once, and then ordinary commands only. -/
def ExecAtOnce (post : List Text) : Prop :=
  ∃ k ordinary, post = List.replicate (k + 1) exec ++ ordinary ∧ ∀ cmd ∈ ordinary, Ordinary cmd

end Transaction

end RedisHaTool.Syncer
