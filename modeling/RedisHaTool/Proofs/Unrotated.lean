import RedisHaTool.Proofs.Rotation

/-!
# The segment of a boxed writer is never left

`AofWriter` moves to a new file in `rotate_if_needed` alone, and nobody who has
the writer from `get_aof_writer` can call it. So its one file takes in all that
is ever written, and a bound on the length of a segment holds exactly as long as
the whole stream is within it.
-/

namespace RedisHaTool.Store

open Lib

/-! ## What the property is about -/

def totalLength (writes : List Bytes) : Nat := (writes.map List.length).sum

/-- The length of the longest of some writes. -/
def longest (writes : List Bytes) : Nat := (writes.map List.length).foldr max 0

/-- The file at a path has grown, and is longer than the bound. -/
def GrownBeyond (bound : Nat) (before after : Disk) (path : Path) : Prop :=
  (before.contents path).length < (after.contents path).length ∧
    bound < (after.contents path).length

@[simp] theorem totalLength_nil : totalLength [] = 0 := rfl

@[simp] theorem totalLength_cons (bs : Bytes) (writes : List Bytes) :
    totalLength (bs :: writes) = bs.length + totalLength writes := by
  simp [totalLength]

@[simp] theorem totalLength_append (first rest : List Bytes) :
    totalLength (first ++ rest) = totalLength first + totalLength rest := by
  simp [totalLength]

@[simp] theorem writesOf_cons_write (bs : Bytes) (calls : List AofCall) :
    writesOf (.write bs :: calls) = bs :: writesOf calls := rfl

theorem totalLength_writesOf_cons (call : AofCall) (calls : List AofCall) :
    totalLength (writesOf (call :: calls))
      = call.accepted.length + totalLength (writesOf calls) := by
  cases call with
  | write bs => exact totalLength_cons bs (writesOf calls)
  | flush => exact (Nat.zero_add _).symm
  | rotateIfNeeded => exact (Nat.zero_add _).symm
  | failed reached => exact (Nat.zero_add _).symm

theorem writesOf_append (first rest : List AofCall) :
    writesOf (first ++ rest) = writesOf first ++ writesOf rest := List.filterMap_append

/-! ## Every call -/

/-- The writer is at the file it began with, which with the buffer holds all that
was accepted, and no other file has changed. -/
structure Growing (path : Path) (disk₀ : Disk) (accepted : Nat) (t : AofWriter × Disk) : Prop where
  path_eq : t.1.writer.path = path
  file : (t.2.contents path ++ t.1.writer.buf).length = accepted
  written : t.1.written = accepted
  fits : accepted < 2 ^ 64
  only : OnlyAt path disk₀ t.2

variable {path : Path} {disk₀ : Disk} {accepted : Nat} {t t' : AofWriter × Disk}

theorem Growing.accept (h : Growing path disk₀ accepted t) {bs : Bytes}
    (hstep : Accepts t t' bs) (hfits : accepted + bs.length < 2 ^ 64) :
    Growing path disk₀ (accepted + bs.length) t' := by
  obtain rfl := h.path_eq
  constructor
  case path_eq => exact hstep.path
  case file => rw [hstep.file, List.length_append, h.file]
  case written => rw [hstep.written, h.written]
  case fits => exact hfits
  case only => exact h.only.trans hstep.only

/-- What a call accepts can be counted. -/
theorem Growing.fits_of_call (h : Growing path disk₀ accepted t) {call : AofCall}
    (hcall : AofWriter.call t call = some t') : accepted + call.accepted.length < 2 ^ 64 := by
  cases call with
  | write bs =>
      have hwrite : t.1.write bs t.2 = some t' := hcall
      rw [AofWriter.write_eq] at hwrite
      split at hwrite
      · next hfits => exact h.written ▸ hfits
      · cases hwrite
  | flush => exact h.fits
  | rotateIfNeeded => exact h.fits
  | failed reached => exact h.fits

theorem Growing.calls {calls : List AofCall}
    (hrun : Steps AofWriter.call AofWriter.Boxed t calls t') (h : Growing path disk₀ accepted t) :
    Growing path disk₀ (accepted + totalLength (writesOf calls)) t' := by
  induction hrun generalizing accepted with
  | refl t => exact h
  | @cons t u v call calls hboxed hcall _ ih =>
      have hpresent : t.1.writer.path ∈ t.2 := h.path_eq ▸ h.only.1
      have hnext := ih (h.accept (accepts_of_call hpresent hcall hboxed) (h.fits_of_call hcall))
      rwa [totalLength_writesOf_cons, ← Nat.add_assoc]

theorem Growing.init (s : FileStorer) (runId : Text) (offset : Int) (logSize now : Nat) :
    Growing (segmentPath runId offset) (AofWriter.start s runId offset logSize now).2 0
      (AofWriter.start s runId offset logSize now) where
  path_eq := rfl
  file := congrArg List.length
    ((List.append_nil _).trans (contents_create_self s.disk (segmentPath runId offset)))
  written := rfl
  fits := by omega
  only := .refl (onlyAt_insert _ s.disk _).1

/-- As long as they can be counted, any writes can be made. -/
theorem exists_writes (writes : List Bytes) (h : t.1.written + totalLength writes < 2 ^ 64) :
    ∃ t', Steps AofWriter.call AofWriter.Boxed t (writes.map .write) t' := by
  induction writes generalizing t with
  | nil => exact ⟨t, .refl t⟩
  | cons bs writes ih =>
      rw [totalLength_cons] at h
      have hcall : ∃ u : AofWriter × Disk, t.1.write bs t.2 = some u ∧
          u.1.written = t.1.written + bs.length := by
        rw [AofWriter.write_eq, if_pos (by omega)]
        exact ⟨_, rfl, rfl⟩
      obtain ⟨u, hcall, hwritten⟩ := hcall
      obtain ⟨t', hrun⟩ := ih (t := u) (by omega)
      exact ⟨t', .cons (fun heq => by cases heq) hcall hrun⟩

theorem writesOf_map_write (writes : List Bytes) : writesOf (writes.map .write) = writes := by
  induction writes with
  | nil => rfl
  | cons bs writes ih => rw [List.map_cons, writesOf_cons_write, ih]

/-- Flushed after them, the one file holds them all. -/
theorem exists_flushed (s : FileStorer) (runId : Text) (offset : Int) (logSize now : Nat)
    {writes : List Bytes} (hcount : totalLength writes < 2 ^ 64) :
    ∃ calls t, Steps AofWriter.call AofWriter.Boxed
        (AofWriter.start s runId offset logSize now) calls t ∧ writesOf calls = writes ∧
      (t.2.contents (segmentPath runId offset)).length = totalLength writes := by
  have hinit := Growing.init s runId offset logSize now
  obtain ⟨t, hrun⟩ := exists_writes (t := AofWriter.start s runId offset logSize now) writes
    (by rw [hinit.written]; omega)
  have hflush : Steps AofWriter.call AofWriter.Boxed t [.flush] (t.1.flush t.2) :=
    .cons (fun heq => by cases heq) rfl (.refl _)
  have hwrites : writesOf (writes.map .write ++ [.flush]) = writes := by
    rw [writesOf_append, writesOf_map_write]
    exact List.append_nil writes
  refine ⟨_, _, hrun.append hflush, hwrites, ?_⟩
  have hfile := (hinit.calls (hrun.append hflush)).file
  rw [hwrites, Nat.zero_add, List.length_append] at hfile
  exact hfile

/-- Whenever some writes are made through the writer of `get_aof_writer`, with
flushes and failed calls among them, no file ever grows beyond the limit for a
segment and one write, exactly if all that is written is within that itself, as
far as it can be counted. -/
theorem boxed_bounded_iff (s : FileStorer) (runId : Text) (offset : Int) (logSize now : Nat)
    (writes : List Bytes) :
    (∀ calls t, Steps AofWriter.call AofWriter.Boxed
        (AofWriter.start s runId offset logSize now) calls t → writesOf calls <+: writes →
      ∀ path, ¬ GrownBeyond (logSize + longest writes)
        (AofWriter.start s runId offset logSize now).2 t.2 path) ↔
      ∀ first, first <+: writes → totalLength first < 2 ^ 64 →
        totalLength first ≤ logSize + longest writes := by
  constructor
  · intro hbound first hfirst hcount
    obtain ⟨calls, t, hrun, rfl, hfile⟩ := exists_flushed s runId offset logSize now hcount
    have hnot := hbound calls t hrun hfirst (segmentPath runId offset)
    have hempty : ((AofWriter.start s runId offset logSize now).2.contents
        (segmentPath runId offset)).length = 0 :=
      congrArg List.length (contents_create_self s.disk (segmentPath runId offset))
    rw [GrownBeyond, hfile, hempty] at hnot
    omega
  · intro htotal calls t hrun hwrites path hgrown
    have hgrowing := (Growing.init s runId offset logSize now).calls hrun
    rw [Nat.zero_add] at hgrowing
    by_cases hpath : path = segmentPath runId offset
    · have hfile := hgrowing.file
      have hle := htotal _ hwrites hgrowing.fits
      have hlarge := hgrown.2
      rw [List.length_append, ← hpath] at hfile
      omega
    · have hsame := hgrowing.only.contents hpath
      have hmore := hgrown.1
      rw [hsame] at hmore
      exact Nat.lt_irrefl _ hmore

/-- Three writes of one byte each are a file of three bytes, where one byte is
the limit for a segment. -/
def threeWrites : List AofCall := [.write [1], .write [2], .write [3], .flush]

theorem threeWrites_boxed :
    Steps AofWriter.call AofWriter.Boxed (AofWriter.start (.new ∅) "r".toList 0 1 0) threeWrites
      (after AofWriter.call (AofWriter.start (.new ∅) "r".toList 0 1 0) threeWrites) :=
  .of_after (by decide +kernel)

theorem not_boxed_bounded :
    ¬ ∀ (s : FileStorer) (runId : Text) (offset : Int) (logSize now : Nat) (writes : List Bytes),
      IsI64 offset → 0 < logSize →
      ∀ calls t, Steps AofWriter.call AofWriter.Boxed
        (AofWriter.start s runId offset logSize now) calls t → writesOf calls <+: writes →
      ∀ path, ¬ GrownBeyond (logSize + longest writes)
        (AofWriter.start s runId offset logSize now).2 t.2 path := by
  intro h
  refine h (.new ∅) "r".toList 0 1 0 [[1], [2], [3]] ⟨by omega, by omega⟩ Nat.one_pos threeWrites
    _ threeWrites_boxed (List.prefix_refl _) (segmentPath "r".toList 0) ⟨?_, ?_⟩
  · decide +kernel
  · decide +kernel

end RedisHaTool.Store
