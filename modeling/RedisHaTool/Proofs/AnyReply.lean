import Mathlib.Data.List.Basic
import RedisHaTool.Proofs.InputEffects

/-!
# Whatever the source sends

A source may send anything: half a reply, a line that is none, a file that ends
too soon. What the input task does then still has one of a few shapes, and they
say what the leader relies on. It is told to start once at most, after all of the
announced RDB file has been written and flushed, and before the first byte of the
stream is stored; and what is stored are the bytes that came after the reply, in
order, with none left out in between.
-/

namespace RedisHaTool.Syncer

open Lib Resp

/-! ## Reading -/

def InputOp.rdbBytes : InputOp → Bytes
  | .writeRdb bs => bs
  | _ => []

def InputOp.aofBytes : InputOp → Bytes
  | .writeAof bs => bs
  | _ => []

/-- What is written to the RDB file. -/
def rdbWritten (ops : List InputOp) : Bytes := ops.flatMap InputOp.rdbBytes

/-- What is written to the segment. -/
def aofWritten (ops : List InputOp) : Bytes := ops.flatMap InputOp.aofBytes

@[simp] theorem rdbWritten_append (ops ops' : List InputOp) :
    rdbWritten (ops ++ ops') = rdbWritten ops ++ rdbWritten ops' := List.flatMap_append

@[simp] theorem aofWritten_append (ops ops' : List InputOp) :
    aofWritten (ops ++ ops') = aofWritten ops ++ aofWritten ops' := List.flatMap_append

/-- The RDB file is flushed, and not written to after that. -/
def FlushedLast (ops : List InputOp) : Prop :=
  ∃ written after, ops = written ++ .flushRdb :: after ∧ ∀ bs, .writeRdb bs ∉ after

theorem FlushedLast.append {ops : List InputOp} (h : FlushedLast ops) (before : List InputOp) :
    FlushedLast (before ++ ops) := by
  obtain ⟨written, after, rfl, hafter⟩ := h
  exact ⟨before ++ written, after, (List.append_assoc _ _ _).symm, hafter⟩

/-- What is done when the leader is never told to start, these bytes having come: an
announced file has not come to its end. -/
structure NeverReady (bs : Bytes) (ops : List InputOp) : Prop where
  never : .notifyReady ∉ ops
  noStream : aofWritten ops = []
  part : ∀ runId offset size, .getRdbWriter runId offset size ∈ ops →
    ((rdbWritten ops).length : Int) < size
  stored : ∃ head rest, bs = head ++ rdbWritten ops ++ rest

/-- What is done when the leader is told to start, before that and after it, these
bytes having come. -/
structure ReadyAt (bs : Bytes) (pre post : List InputOp) : Prop where
  first : .notifyReady ∉ pre
  last : .notifyReady ∉ post
  noStream : aofWritten pre = []
  noRdb : rdbWritten post = []
  whole : ∀ runId offset size, .getRdbWriter runId offset size ∈ pre →
    FlushedLast pre ∧ ((rdbWritten pre).length : Int) = size
  stored : ∃ head rest, bs = head ++ rdbWritten pre ++ aofWritten post ++ rest

/-- The leader is never told to start, or it is, as above. -/
def Orderly (bs : Bytes) (ops : List InputOp) : Prop :=
  NeverReady bs ops ∨
    ∃ pre post, ops = pre ++ .notifyReady :: post ∧ ReadyAt bs pre post

theorem NeverReady.refused (bs : Bytes) : NeverReady bs [] where
  never := List.not_mem_nil
  noStream := rfl
  part _ _ _ hmem := absurd hmem List.not_mem_nil
  stored := ⟨[], bs, rfl⟩

theorem Orderly.head {bs : Bytes} {ops : List InputOp} (h : Orderly bs ops) (head : Bytes) :
    Orderly (head ++ bs) ops := by
  rcases h with h | ⟨pre, post, hops, h⟩
  · obtain ⟨head', rest, hbs⟩ := h.stored
    refine .inl ⟨h.never, h.noStream, h.part, head ++ head', rest, ?_⟩
    rw [hbs]
    simp only [List.append_assoc]
  · obtain ⟨head', rest, hbs⟩ := h.stored
    refine .inr ⟨pre, post, hops, h.first, h.last, h.noStream, h.noRdb, h.whole,
      head ++ head', rest, ?_⟩
    rw [hbs]
    simp only [List.append_assoc]

/-- Effects before that have to do with neither of the files. -/
theorem Orderly.quiet {bs : Bytes} {ops quiet : List InputOp} (h : Orderly bs ops)
    (hquiet : ∀ op ∈ quiet, op ≠ .notifyReady ∧ op.rdbBytes = [] ∧ op.aofBytes = [] ∧
      ∀ runId offset size, op ≠ .getRdbWriter runId offset size) : Orderly bs (quiet ++ ops) := by
  have hready : .notifyReady ∉ quiet := fun hmem => (hquiet _ hmem).1 rfl
  have hrdb : rdbWritten quiet = [] :=
    List.flatMap_eq_nil_iff.2 fun op hop => (hquiet op hop).2.1
  have haof : aofWritten quiet = [] :=
    List.flatMap_eq_nil_iff.2 fun op hop => (hquiet op hop).2.2.1
  rcases h with h | ⟨pre, post, rfl, h⟩
  · refine .inl ⟨?_, ?_, ?_, ?_⟩
    · exact fun hmem => (List.mem_append.1 hmem).elim hready h.never
    · rw [aofWritten_append, haof, h.noStream]
      rfl
    · intro runId offset size hmem
      rw [rdbWritten_append, hrdb]
      rcases List.mem_append.1 hmem with hmem | hmem
      · exact absurd rfl ((hquiet _ hmem).2.2.2 runId offset size)
      · exact h.part runId offset size hmem
    · rw [rdbWritten_append, hrdb]
      exact h.stored
  · refine .inr ⟨quiet ++ pre, post, (List.append_assoc _ _ _).symm, ?_, h.last, ?_, h.noRdb,
      ?_, ?_⟩
    · exact fun hmem => (List.mem_append.1 hmem).elim hready h.first
    · rw [aofWritten_append, haof, h.noStream]
      rfl
    · intro runId offset size hmem
      rcases List.mem_append.1 hmem with hmem | hmem
      · exact absurd rfl ((hquiet _ hmem).2.2.2 runId offset size)
      · obtain ⟨hflush, hsize⟩ := h.whole runId offset size hmem
        rw [rdbWritten_append, hrdb]
        exact ⟨hflush.append quiet, hsize⟩
    · rw [rdbWritten_append, hrdb]
      exact h.stored

end RedisHaTool.Syncer
