import Mathlib.Data.List.Infix

/-!
# Where a concatenation may be cut

A sequence that is put together from pieces can be taken apart again between any
two of them, and nowhere else. Two ways to cut the same sequence are compared by
the places where they cut it.
-/

namespace RedisHaTool.Lib

section Cuts

variable {α : Type} {pieces : List (List α)}

/-- The first `n` elements of the concatenation are a whole number of pieces. -/
def IsCut (pieces : List (List α)) (n : Nat) : Prop :=
  ∃ done, done <+: pieces ∧ done.flatten.length = n

instance : DecidablePred (IsCut pieces) := fun n =>
  decidable_of_iff (∃ done ∈ pieces.inits, done.flatten.length = n) (by
    simp only [List.mem_inits, IsCut])

theorem isCut_zero : IsCut pieces 0 := ⟨[], List.nil_prefix, rfl⟩

theorem isCut_length : IsCut pieces pieces.flatten.length :=
  ⟨pieces, List.prefix_rfl, rfl⟩

theorem isCut_append {done rest : List (List α)} (h : pieces = done ++ rest) :
    IsCut pieces done.flatten.length :=
  ⟨done, h ▸ List.prefix_append done rest, rfl⟩

/-- A cut has all the pieces before it, or a next one after it. -/
theorem IsCut.next {n : Nat} (h : IsCut pieces n) :
    n = pieces.flatten.length ∨
      ∃ done piece rest, pieces = done ++ piece :: rest ∧ done.flatten.length = n := by
  obtain ⟨done, ⟨rest, rfl⟩, rfl⟩ := h
  cases rest with
  | nil => exact .inl (by rw [List.append_nil])
  | cons piece rest => exact .inr ⟨done, piece, rest, rfl, rfl⟩

theorem isCut_cons {piece : List α} {n : Nat} :
    IsCut (piece :: pieces) n ↔ n = 0 ∨ ∃ m, IsCut pieces m ∧ n = piece.length + m := by
  constructor
  · rintro ⟨done, hprefix, rfl⟩
    rcases List.prefix_cons_iff.1 hprefix with rfl | ⟨done, rfl, hdone⟩
    · exact .inl rfl
    · exact .inr ⟨_, ⟨done, hdone, rfl⟩, by simp⟩
  · rintro (rfl | ⟨m, ⟨done, hdone, rfl⟩, rfl⟩)
    · exact isCut_zero
    · exact ⟨piece :: done, List.cons_prefix_cons.2 ⟨rfl, hdone⟩, by simp⟩

/-- No cut lies beyond the end. -/
theorem IsCut.le_length {n : Nat} (h : IsCut pieces n) : n ≤ pieces.flatten.length := by
  obtain ⟨done, ⟨rest, rfl⟩, rfl⟩ := h
  simp

/-- Without what comes before some place in a piece, the cuts are the ones after
that place, and the new beginning. -/
theorem isCut_rest (done : List (List α)) (front back : List α) (n : Nat) :
    IsCut (back :: pieces) n ↔
      n = 0 ∨
        IsCut (done ++ (front ++ back) :: pieces) (done.flatten.length + front.length + n) := by
  induction done with
  | nil =>
      simp only [List.nil_append, List.flatten_nil, List.length_nil, Nat.zero_add, isCut_cons,
        List.length_append]
      constructor
      · rintro (h | ⟨m, hm, rfl⟩)
        · exact .inl h
        · exact .inr (.inr ⟨m, hm, by omega⟩)
      · rintro (h | h | ⟨m, hm, h⟩)
        · exact .inl h
        · exact .inl (by omega)
        · exact .inr ⟨m, hm, by omega⟩
  | cons piece done ih =>
      rw [ih, List.cons_append, isCut_cons, List.flatten_cons, List.length_append]
      constructor
      · rintro (h | h)
        · exact .inl h
        · exact .inr (.inr ⟨_, h, by omega⟩)
      · rintro (h | h | ⟨m, hm, h⟩)
        · exact .inl h
        · exact .inl (by omega)
        · refine .inr ?_
          have hm' : m = done.flatten.length + front.length + n := by omega
          exact hm' ▸ hm

end Cuts

end RedisHaTool.Lib
