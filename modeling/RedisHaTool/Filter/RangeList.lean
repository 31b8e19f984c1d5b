import Mathlib.Data.List.Sort
import RedisHaTool.Lib.Text

/-!
# Lists of slot ranges

`filter/range_list.rs`, and `SlotRange` from `config/mod.rs`. The ranges are
sorted by where they start and those that overlap or touch are merged; a range
that ends before it starts is kept, and holds no slot.
-/

namespace RedisHaTool.Filter

open Lib

structure SlotRange where
  startSlot : UInt16
  endSlot : UInt16
  deriving DecidableEq, Repr

def SlotRange.contains (r : SlotRange) (slot : UInt16) : Bool :=
  slot ≥ r.startSlot && slot ≤ r.endSlot

structure RangeList where
  ranges : List (UInt16 × UInt16)
  deriving DecidableEq, Repr

def RangeList.new : RangeList := { ranges := [] }

/-- The merging loop of `from_config`, with the range at hand and those to come;
`none` where `current.1 + 1` overflows. -/
def mergeRanges : UInt16 × UInt16 → List (UInt16 × UInt16) →
    Option (List (UInt16 × UInt16))
  | current, [] => some [current]
  | current, next :: ranges =>
      if current.2 = 65535 then none
      else if next.1 ≤ current.2 + 1 then
        mergeRanges (current.1, max current.2 next.2) ranges
      else (mergeRanges next ranges).map (current :: ·)

/-- `sort_by_key(|r| r.0)`, which is stable. -/
def sortRanges (ranges : List (UInt16 × UInt16)) : List (UInt16 × UInt16) :=
  ranges.insertionSort fun a b => a.1 ≤ b.1

/-- `RangeList::from_config`, `none` where it panics. -/
def RangeList.fromConfig (slotRanges : List SlotRange) : Option RangeList :=
  match sortRanges (slotRanges.map fun r => (r.startSlot, r.endSlot)) with
  | [] => some { ranges := [] }
  | current :: ranges => (mergeRanges current ranges).map fun ranges => { ranges }

/-- The ranges of a list, as `add` hands them to `from_config` again. -/
def RangeList.slotRanges (l : RangeList) : List SlotRange :=
  l.ranges.map fun r => { startSlot := r.1, endSlot := r.2 }

/-- `RangeList::add`, `none` where it panics. -/
def RangeList.add (l : RangeList) (startSlot endSlot : UInt16) : Option RangeList :=
  fromConfig (l.slotRanges ++ [⟨startSlot, endSlot⟩])

/-- The sum that `total_coverage` makes, with the total so far; `none` where
`end - start + 1` or the sum overflows. -/
def sumSizes (total : UInt32) : List (UInt16 × UInt16) → Option UInt32
  | [] => some total
  | (startSlot, endSlot) :: ranges =>
      if endSlot < startSlot then none
      else if endSlot - startSlot = 65535 then none
      else
        let size := (endSlot - startSlot + 1).toUInt32
        if total.toNat + size.toNat < 2 ^ 32 then sumSizes (total + size) ranges else none

/-- `RangeList::total_coverage`, `none` where it panics. -/
def RangeList.totalCoverage (l : RangeList) : Option UInt32 := sumSizes 0 l.ranges

/-- The loop of `RangeList::contains`, which gives up at a range that starts
past the slot. -/
def containsSlot (slot : UInt16) : List (UInt16 × UInt16) → Bool
  | [] => false
  | (startSlot, endSlot) :: ranges =>
      if slot ≥ startSlot && slot ≤ endSlot then true
      else if slot < startSlot then false
      else containsSlot slot ranges

def RangeList.contains (l : RangeList) (slot : UInt16) : Bool :=
  containsSlot slot l.ranges

def RangeList.len (l : RangeList) : Nat := l.ranges.length

def RangeList.isEmpty (l : RangeList) : Bool := l.ranges.isEmpty

/-! ## What a list of ranges covers -/

/-- A slot inside one of the ranges. -/
def Covers (ranges : List (UInt16 × UInt16)) (slot : UInt16) : Prop :=
  ∃ r ∈ ranges, r.1 ≤ slot ∧ slot ≤ r.2

theorem covers_cons {r : UInt16 × UInt16} {ranges : List (UInt16 × UInt16)}
    {slot : UInt16} :
    Covers (r :: ranges) slot ↔ (r.1 ≤ slot ∧ slot ≤ r.2) ∨ Covers ranges slot := by
  simp [Covers]

/-- In order of where they start. -/
abbrev Ordered (ranges : List (UInt16 × UInt16)) : Prop :=
  ranges.Pairwise fun a b => a.1 ≤ b.1

theorem toNat_max (a b : UInt16) : (max a b).toNat = max a.toNat b.toNat := by
  show (if a ≤ b then b else a).toNat = _
  split
  · next h => rw [UInt16.le_iff_toNat_le] at h; omega
  · next h => rw [UInt16.le_iff_toNat_le] at h; omega

/-- A range that starts no later than another and reaches up to it covers,
stretched to the later end, what the two cover. This holds of empty ranges
too. -/
theorem touching {s s' e e' slot : UInt16} (hs : s ≤ s') (he : e ≠ 65535)
    (htouch : s' ≤ e + 1) :
    (s ≤ slot ∧ slot ≤ max e e') ↔ (s ≤ slot ∧ slot ≤ e) ∨ (s' ≤ slot ∧ slot ≤ e') := by
  have hne : e.toNat ≠ 65535 := fun h => he (UInt16.toNat_inj.1 h)
  have hlt : e.toNat < 65536 := e.toNat_lt
  have hsucc : (e + 1).toNat = e.toNat + 1 := by
    rw [UInt16.toNat_add]
    show (e.toNat + 1) % 65536 = _
    omega
  rw [UInt16.le_iff_toNat_le] at hs htouch
  rw [hsucc] at htouch
  simp only [UInt16.le_iff_toNat_le, toNat_max]
  omega

/-- Merging keeps the slots that are covered, and the order. -/
theorem mergeRanges_spec {current : UInt16 × UInt16}
    {ranges merged : List (UInt16 × UInt16)}
    (h : mergeRanges current ranges = some merged)
    (hordered : Ordered (current :: ranges)) :
    (∀ slot, Covers merged slot ↔ Covers (current :: ranges) slot) ∧
      Ordered merged ∧ ∀ r ∈ merged, current.1 ≤ r.1 := by
  induction ranges generalizing current merged with
  | nil =>
      obtain rfl := Option.some.inj h
      exact ⟨fun _ => Iff.rfl, hordered, by simp⟩
  | cons next ranges ih =>
      rw [mergeRanges] at h
      obtain ⟨hfirst, hrest⟩ := List.pairwise_cons.1 hordered
      have hnext := hfirst next List.mem_cons_self
      split at h
      · cases h
      · next hmax =>
          split at h
          · next htouch =>
              have hordered' : Ordered ((current.1, max current.2 next.2) :: ranges) :=
                List.pairwise_cons.2 ⟨fun r hr => hfirst r (List.mem_cons_of_mem next hr),
                  (List.pairwise_cons.1 hrest).2⟩
              obtain ⟨hcovers, hmerged, hstart⟩ := ih h hordered'
              refine ⟨fun slot => ?_, hmerged, hstart⟩
              rw [hcovers, covers_cons, covers_cons, covers_cons, ← or_assoc]
              exact or_congr_left (touching hnext hmax htouch)
          · next htouch =>
              obtain ⟨merged', hmerge, rfl⟩ := Option.map_eq_some_iff.1 h
              obtain ⟨hcovers, hmerged, hstart⟩ := ih hmerge hrest
              have hle : ∀ r ∈ merged', current.1 ≤ r.1 := fun r hr =>
                UInt16.le_trans hnext (hstart r hr)
              refine ⟨fun slot => ?_, List.pairwise_cons.2 ⟨hle, hmerged⟩, ?_⟩
              · rw [covers_cons, covers_cons, hcovers]
              · intro r hr
                rcases List.mem_cons.1 hr with rfl | hr
                · exact UInt16.le_refl _
                · exact hle r hr

/-- Merging does not overflow where no range ends at the last number there
is. -/
theorem exists_mergeRanges {current : UInt16 × UInt16}
    {ranges : List (UInt16 × UInt16)} (h : ∀ r ∈ current :: ranges, r.2 < 65535) :
    ∃ merged, mergeRanges current ranges = some merged ∧ merged ≠ [] := by
  induction ranges generalizing current with
  | nil => exact ⟨_, rfl, by simp⟩
  | cons next ranges ih =>
      have hcurrent := h current List.mem_cons_self
      have hnext := h next (by simp)
      have hrest : ∀ r ∈ ranges, r.2 < 65535 := fun r hr => h r (by simp [hr])
      rw [mergeRanges, if_neg (UInt16.ne_of_lt hcurrent)]
      split
      · refine ih fun r hr => ?_
        rcases List.mem_cons.1 hr with rfl | hr
        · show max current.2 next.2 < 65535
          rw [UInt16.lt_iff_toNat_lt] at hcurrent hnext ⊢
          rw [toNat_max]
          omega
        · exact hrest r hr
      · obtain ⟨merged, hmerge, -⟩ := ih fun r hr => h r (List.mem_cons_of_mem current hr)
        exact ⟨current :: merged, by rw [hmerge]; rfl, by simp⟩

/-- In an ordered list the loop may stop where it does. -/
theorem containsSlot_iff {ranges : List (UInt16 × UInt16)} (h : Ordered ranges)
    (slot : UInt16) : containsSlot slot ranges = true ↔ Covers ranges slot := by
  induction ranges with
  | nil => simp [containsSlot, Covers]
  | cons r ranges ih =>
      obtain ⟨hfirst, hrest⟩ := List.pairwise_cons.1 h
      rw [containsSlot.eq_2, covers_cons, ← ih hrest]
      split
      · next hin =>
          simp only [Bool.and_eq_true, decide_eq_true_eq, ge_iff_le] at hin
          simp [hin]
      · next hout =>
          simp only [Bool.and_eq_true, decide_eq_true_eq, ge_iff_le] at hout
          split
          · next hpast =>
              -- Nothing after this range starts at or before the slot.
              have hnone : ¬ Covers ranges slot := by
                rintro ⟨r', hr', hstart, -⟩
                exact absurd (UInt16.le_trans (hfirst r' hr') hstart) (UInt16.not_le.2 hpast)
              rw [ih hrest]
              simp [hout, hnone]
          · simp [hout]

theorem ordered_sortRanges (ranges : List (UInt16 × UInt16)) :
    Ordered (sortRanges ranges) :=
  List.pairwise_insertionSort _ ranges

theorem mem_sortRanges {ranges : List (UInt16 × UInt16)} {r : UInt16 × UInt16} :
    r ∈ sortRanges ranges ↔ r ∈ ranges := List.mem_insertionSort _

/-- The list built from a configuration holds the slots its ranges hold, and is
empty where the configuration is. -/
theorem RangeList.fromConfig_spec {slotRanges : List SlotRange}
    (h : ∀ r ∈ slotRanges, r.endSlot < 65535) :
    ∃ l, RangeList.fromConfig slotRanges = some l ∧
      (l.isEmpty = true ↔ slotRanges = []) ∧
      ∀ slot, l.contains slot = true ↔ ∃ r ∈ slotRanges, r.contains slot = true := by
  have hcovers : ∀ slot, Covers (sortRanges (slotRanges.map fun r => (r.startSlot, r.endSlot)))
      slot ↔ ∃ r ∈ slotRanges, r.contains slot = true := by
    intro slot
    simp [Covers, mem_sortRanges, SlotRange.contains]
  have hordered := ordered_sortRanges (slotRanges.map fun r => (r.startSlot, r.endSlot))
  have hends : ∀ r ∈ sortRanges (slotRanges.map fun r => (r.startSlot, r.endSlot)),
      r.2 < 65535 := by
    intro r hr
    obtain ⟨r', hr', rfl⟩ := List.mem_map.1 (mem_sortRanges.1 hr)
    exact h r' hr'
  have hempty : sortRanges (slotRanges.map fun r => (r.startSlot, r.endSlot)) = [] ↔
      slotRanges = [] := by
    rw [← List.length_eq_zero_iff, sortRanges, List.length_insertionSort, List.length_map,
      List.length_eq_zero_iff]
  rw [RangeList.fromConfig]
  cases hsort : sortRanges (slotRanges.map fun r => (r.startSlot, r.endSlot)) with
  | nil =>
      rw [hsort] at hcovers hempty
      refine ⟨{ ranges := [] }, rfl, by simp [RangeList.isEmpty, ← hempty], fun slot => ?_⟩
      rw [← hcovers]
      exact containsSlot_iff List.Pairwise.nil slot
  | cons current ranges =>
      rw [hsort] at hcovers hempty hordered hends
      obtain ⟨merged, hmerge, hne⟩ := exists_mergeRanges hends
      obtain ⟨hsame, hmerged, -⟩ := mergeRanges_spec hmerge hordered
      refine ⟨{ ranges := merged }, by simp [hmerge], ?_, fun slot => ?_⟩
      · simp [RangeList.isEmpty, hne, ← hempty]
      · rw [← hcovers, ← hsame]
        exact containsSlot_iff hmerged slot

end RedisHaTool.Filter
