import RedisHaTool.Filter.RangeList
import Mathlib.Data.FinEnum
import Mathlib.Data.Set.Card
import Mathlib.Order.Interval.Finset.Nat

/-!
# What a range list stores

Merging leaves the ranges in order and a slot or more between any two of them,
and that is what the sum of their sizes rests on: no slot is in two of them, so
it counts the slots covered, each once.

All of it is arithmetic on 16 bits, and the second half says when none of it
overflows. The loop needs the number after the end of a range that another one
follows; the sum needs the number of slots from the start to the end of a merged
range, and that is not there for a range that ends before it starts, nor for the
one that has every slot.
-/

namespace RedisHaTool.Filter

open Lib

/-! ## Order and gaps -/

/-- At least one slot lies between two of the ranges. -/
abbrev Separated (ranges : List (UInt16 × UInt16)) : Prop :=
  ranges.Pairwise fun a b => a.2.toNat + 1 < b.1.toNat

theorem toNat_succ {e : UInt16} (h : e ≠ 65535) : (e + 1).toNat = e.toNat + 1 := by
  have hne : e.toNat ≠ 65535 := fun he => h (UInt16.toNat_inj.1 he)
  have hlt : e.toNat < 65536 := e.toNat_lt
  rw [UInt16.toNat_add]
  show (e.toNat + 1) % 65536 = _
  omega

/-- The loop puts a range away only when the next one starts past the slot after
it. -/
theorem mergeRanges_separated {current : UInt16 × UInt16}
    {ranges merged : List (UInt16 × UInt16)}
    (h : mergeRanges current ranges = some merged)
    (hordered : Ordered (current :: ranges)) : Separated merged := by
  induction ranges generalizing current merged with
  | nil =>
      obtain rfl := Option.some.inj h
      exact List.pairwise_singleton _ _
  | cons next ranges ih =>
      rw [mergeRanges] at h
      obtain ⟨hfirst, hrest⟩ := List.pairwise_cons.1 hordered
      split at h
      · cases h
      · next hmax =>
          split at h
          · have hordered' : Ordered ((current.1, max current.2 next.2) :: ranges) :=
              List.pairwise_cons.2 ⟨fun r hr => hfirst r (List.mem_cons_of_mem next hr),
                (List.pairwise_cons.1 hrest).2⟩
            exact ih h hordered'
          · next hgap =>
              obtain ⟨merged', hmerge, rfl⟩ := Option.map_eq_some_iff.1 h
              obtain ⟨-, -, hstart⟩ := mergeRanges_spec hmerge hrest
              refine List.pairwise_cons.2 ⟨fun r hr => ?_, ih hmerge hrest⟩
              have hnext := hstart r hr
              rw [UInt16.le_iff_toNat_le, toNat_succ hmax] at hgap
              rw [UInt16.le_iff_toNat_le] at hnext
              omega

/-! ## The number of slots -/

theorem injective_toNat : Function.Injective UInt16.toNat := fun _ _ h => UInt16.toNat_inj.1 h

theorem ncard_slots {startSlot endSlot : UInt16} (h : startSlot ≤ endSlot) :
    {slot : UInt16 | startSlot ≤ slot ∧ slot ≤ endSlot}.ncard =
      endSlot.toNat - startSlot.toNat + 1 := by
  have himage : UInt16.toNat '' {slot | startSlot ≤ slot ∧ slot ≤ endSlot} =
      ↑(Finset.Icc startSlot.toNat endSlot.toNat) := by
    ext n
    simp only [Set.mem_image, Set.mem_ofPred_eq, Finset.coe_Icc, Set.mem_Icc,
      UInt16.le_iff_toNat_le]
    constructor
    · rintro ⟨slot, hslot, rfl⟩
      exact hslot
    · intro hn
      have hlt : n < UInt16.size := lt_of_le_of_lt hn.2 endSlot.toNat_lt
      refine ⟨UInt16.ofNatLT n hlt, ?_, UInt16.toNat_ofNatLT ..⟩
      rw [UInt16.toNat_ofNatLT]
      exact hn
  rw [← Set.ncard_image_of_injective _ injective_toNat, himage, Set.ncard_coe_finset, Nat.card_Icc]
  rw [UInt16.le_iff_toNat_le] at h
  omega

theorem ncard_le_slots (s : Set UInt16) : s.ncard ≤ 65536 := by
  have hsubset : UInt16.toNat '' s ⊆ ↑(Finset.range 65536) := by
    rintro n ⟨slot, -, rfl⟩
    exact Finset.mem_coe.2 (Finset.mem_range.2 slot.toNat_lt)
  have hle := Set.ncard_le_ncard hsubset (Finset.finite_toSet _)
  rw [Set.ncard_coe_finset, Finset.card_range] at hle
  rw [← Set.ncard_image_of_injective _ injective_toNat]
  exact hle

theorem ncard_covers_nil : {slot | Covers [] slot}.ncard = 0 := by
  have hempty : {slot | Covers [] slot} = ∅ := by
    ext slot
    simp [Covers]
  rw [hempty, Set.ncard_empty]

/-- No slot of the first range is in another one. -/
theorem ncard_covers_cons {r : UInt16 × UInt16} {ranges : List (UInt16 × UInt16)}
    (hr : r.1 ≤ r.2) (hgaps : ∀ r' ∈ ranges, r.2.toNat + 1 < r'.1.toNat) :
    {slot | Covers (r :: ranges) slot}.ncard =
      r.2.toNat - r.1.toNat + 1 + {slot | Covers ranges slot}.ncard := by
  have hunion : {slot | Covers (r :: ranges) slot} =
      {slot | r.1 ≤ slot ∧ slot ≤ r.2} ∪ {slot | Covers ranges slot} := by
    ext slot
    exact covers_cons
  have hdisjoint : Disjoint {slot | r.1 ≤ slot ∧ slot ≤ r.2} {slot | Covers ranges slot} := by
    refine Set.disjoint_left.2 fun slot hslot => ?_
    rintro ⟨r', hr', hstart, -⟩
    have hgap := hgaps r' hr'
    have hend := UInt16.le_iff_toNat_le.1 hslot.2
    rw [UInt16.le_iff_toNat_le] at hstart
    omega
  rw [hunion, Set.ncard_union_eq hdisjoint, ncard_slots hr]

/-- A range whose size is a `u16`. -/
def Sized (r : UInt16 × UInt16) : Prop := r.1 ≤ r.2 ∧ r.2 - r.1 ≠ 65535

theorem size_toNat {r : UInt16 × UInt16} (h : Sized r) :
    (r.2 - r.1 + 1).toUInt32.toNat = r.2.toNat - r.1.toNat + 1 := by
  rw [UInt16.toNat_toUInt32, toNat_succ h.2, UInt16.toNat_sub_of_le _ _ h.1]

/-- The sum of the sizes is the number of slots covered. -/
theorem exists_sumSizes {ranges : List (UInt16 × UInt16)} (hseparated : Separated ranges)
    (hsized : ∀ r ∈ ranges, Sized r) {total : UInt32}
    (htotal : total.toNat + {slot | Covers ranges slot}.ncard < 2 ^ 32) :
    ∃ sum, sumSizes total ranges = some sum ∧
      sum.toNat = total.toNat + {slot | Covers ranges slot}.ncard := by
  induction ranges generalizing total with
  | nil => exact ⟨total, rfl, by rw [ncard_covers_nil]; rfl⟩
  | cons r ranges ih =>
      obtain ⟨hgaps, hrest⟩ := List.pairwise_cons.1 hseparated
      have hr := hsized r List.mem_cons_self
      have hcard := ncard_covers_cons hr.1 hgaps
      have hsize := size_toNat hr
      have hfits : total.toNat + (r.2 - r.1 + 1).toUInt32.toNat < 2 ^ 32 := by omega
      have hadd : (total + (r.2 - r.1 + 1).toUInt32).toNat =
          total.toNat + (r.2 - r.1 + 1).toUInt32.toNat := by
        rw [UInt32.toNat_add]
        exact Nat.mod_eq_of_lt hfits
      have hrest' : (total + (r.2 - r.1 + 1).toUInt32).toNat +
          {slot | Covers ranges slot}.ncard < 2 ^ 32 := by omega
      obtain ⟨sum, hsum, htoNat⟩ :=
        ih hrest (fun r' hr' => hsized r' (List.mem_cons_of_mem r hr')) hrest'
      refine ⟨sum, ?_, by omega⟩
      show (if r.2 < r.1 then none else if r.2 - r.1 = 65535 then none
        else if total.toNat + (r.2 - r.1 + 1).toUInt32.toNat < 2 ^ 32 then
          sumSizes (total + (r.2 - r.1 + 1).toUInt32) ranges else none) = some sum
      rw [if_neg (UInt16.not_lt.2 hr.1), if_neg hr.2, if_pos hfits]
      exact hsum

theorem sized_of_sumSizes {ranges : List (UInt16 × UInt16)} {total sum : UInt32}
    (h : sumSizes total ranges = some sum) : ∀ r ∈ ranges, Sized r := by
  induction ranges generalizing total with
  | nil => exact fun _ hr => absurd hr List.not_mem_nil
  | cons r ranges ih =>
      rw [sumSizes] at h
      split at h
      · cases h
      · next hle =>
          split at h
          · cases h
          · next hsize =>
              simp only [] at h
              split at h
              · intro r' hr'
                rcases List.mem_cons.1 hr' with rfl | hr'
                · exact ⟨UInt16.not_lt.1 hle, hsize⟩
                · exact ih h r' hr'
              · cases h

/-! ## Lists built from a configuration -/

/-- The ranges of a configuration as `from_config` merges them: in the order of
their starts, and ties as they came. -/
def inOrder (slotRanges : List SlotRange) : List (UInt16 × UInt16) :=
  sortRanges (slotRanges.map fun r => (r.startSlot, r.endSlot))

theorem mem_inOrder {slotRanges : List SlotRange} {r : UInt16 × UInt16} :
    r ∈ inOrder slotRanges ↔ ∃ r' ∈ slotRanges, (r'.startSlot, r'.endSlot) = r := by
  rw [inOrder, mem_sortRanges, List.mem_map]

theorem covers_inOrder {slotRanges : List SlotRange} {slot : UInt16} :
    Covers (inOrder slotRanges) slot ↔ ∃ r ∈ slotRanges, r.contains slot = true := by
  simp [Covers, mem_inOrder, SlotRange.contains]

/-- What `from_config` makes of ranges in order. -/
def mergeAll : List (UInt16 × UInt16) → Option (List (UInt16 × UInt16))
  | [] => some []
  | current :: ranges => mergeRanges current ranges

theorem fromConfig_eq (slotRanges : List SlotRange) :
    RangeList.fromConfig slotRanges =
      (mergeAll (inOrder slotRanges)).map fun ranges => { ranges } := by
  rw [RangeList.fromConfig, ← inOrder]
  cases inOrder slotRanges with
  | nil => rfl
  | cons current ranges => rfl

theorem mergeAll_spec {ranges merged : List (UInt16 × UInt16)}
    (h : mergeAll ranges = some merged) (hordered : Ordered ranges) :
    (∀ slot, Covers merged slot ↔ Covers ranges slot) ∧ Ordered merged ∧ Separated merged := by
  cases ranges with
  | nil =>
      obtain rfl := Option.some.inj h
      exact ⟨fun _ => Iff.rfl, .nil, .nil⟩
  | cons current ranges =>
      obtain ⟨hcovers, hmerged, -⟩ := mergeRanges_spec h hordered
      exact ⟨hcovers, hmerged, mergeRanges_separated h hordered⟩

/-- Every list that is built has its ranges in order with gaps between them, and
holds the slots of the configuration. -/
theorem fromConfig_some {slotRanges : List SlotRange} {l : RangeList}
    (h : RangeList.fromConfig slotRanges = some l) :
    Separated l.ranges ∧
      (∀ slot, Covers l.ranges slot ↔ ∃ r ∈ slotRanges, r.contains slot = true) ∧
      ∀ slot, l.contains slot = true ↔ ∃ r ∈ slotRanges, r.contains slot = true := by
  rw [fromConfig_eq] at h
  obtain ⟨merged, hmerge, rfl⟩ := Option.map_eq_some_iff.1 h
  obtain ⟨hcovers, hordered, hseparated⟩ := mergeAll_spec hmerge (ordered_sortRanges _)
  have hsame : ∀ slot, Covers merged slot ↔ ∃ r ∈ slotRanges, r.contains slot = true :=
    fun slot => (hcovers slot).trans covers_inOrder
  exact ⟨hseparated, hsame, fun slot => (containsSlot_iff hordered slot).trans (hsame slot)⟩

/-- The coverage of a list is the number of slots that its configuration has. -/
theorem exists_totalCoverage {slotRanges : List SlotRange} {l : RangeList}
    (h : RangeList.fromConfig slotRanges = some l) (hsized : ∀ r ∈ l.ranges, Sized r) :
    ∃ n, l.totalCoverage = some n ∧
      n.toNat = {slot | ∃ r ∈ slotRanges, r.contains slot = true}.ncard := by
  obtain ⟨hseparated, hcovers, -⟩ := fromConfig_some h
  have hset : {slot | Covers l.ranges slot} =
      {slot | ∃ r ∈ slotRanges, r.contains slot = true} := Set.ext hcovers
  have hle := ncard_le_slots {slot | Covers l.ranges slot}
  have htotal : (0 : UInt32).toNat + {slot | Covers l.ranges slot}.ncard < 2 ^ 32 := by
    show 0 + _ < _
    omega
  obtain ⟨n, hn, htoNat⟩ := exists_sumSizes hseparated hsized htotal
  refine ⟨n, hn, ?_⟩
  rw [htoNat, hset]
  exact Nat.zero_add _

/-! ## Ranges within bounds -/

/-- From a start to an end no earlier, and a slot left after it. -/
def Bounded (r : UInt16 × UInt16) : Prop := r.1 ≤ r.2 ∧ r.2 < 65535

theorem Bounded.sized {r : UInt16 × UInt16} (h : Bounded r) : Sized r := by
  refine ⟨h.1, fun hsize => ?_⟩
  have hsub := congrArg UInt16.toNat hsize
  have hlt := UInt16.lt_iff_toNat_lt.1 h.2
  rw [UInt16.toNat_sub_of_le _ _ h.1] at hsub
  change r.2.toNat - r.1.toNat = 65535 at hsub
  change r.2.toNat < 65535 at hlt
  omega

theorem Bounded.merge {r r' : UInt16 × UInt16} (h : Bounded r) (h' : Bounded r') :
    Bounded (r.1, max r.2 r'.2) := by
  unfold Bounded at h h' ⊢
  simp only [UInt16.le_iff_toNat_le, UInt16.lt_iff_toNat_lt, toNat_max] at h h' ⊢
  omega

/-- Merging ranges within bounds keeps them within bounds. -/
theorem mergeRanges_bounded {current : UInt16 × UInt16}
    {ranges merged : List (UInt16 × UInt16)} (h : mergeRanges current ranges = some merged)
    (hbounded : ∀ r ∈ current :: ranges, Bounded r) : ∀ r ∈ merged, Bounded r := by
  induction ranges generalizing current merged with
  | nil =>
      obtain rfl := Option.some.inj h
      exact hbounded
  | cons next ranges ih =>
      have hcurrent := hbounded current List.mem_cons_self
      have hrest : ∀ r ∈ next :: ranges, Bounded r :=
        fun r hr => hbounded r (List.mem_cons_of_mem current hr)
      rw [mergeRanges] at h
      split at h
      · cases h
      · split at h
        · refine ih h fun r hr => ?_
          rcases List.mem_cons.1 hr with rfl | hr
          · exact hcurrent.merge (hrest next List.mem_cons_self)
          · exact hrest r (List.mem_cons_of_mem next hr)
        · obtain ⟨merged', hmerge, rfl⟩ := Option.map_eq_some_iff.1 h
          intro r hr
          rcases List.mem_cons.1 hr with rfl | hr
          · exact hcurrent
          · exact ih hmerge hrest r hr

/-- The ranges stored are in increasing order, with a slot or more between two of
them. -/
structure RangeList.Stored (l : RangeList) : Prop where
  separated : Separated l.ranges
  bounded : ∀ r ∈ l.ranges, Bounded r

theorem fromConfig_bounded {slotRanges : List SlotRange}
    (h : ∀ r ∈ slotRanges, Bounded (r.startSlot, r.endSlot)) :
    ∃ l, RangeList.fromConfig slotRanges = some l ∧ l.Stored ∧
      (∀ slot, l.contains slot = true ↔ ∃ r ∈ slotRanges, r.contains slot = true) ∧
      ∃ n, l.totalCoverage = some n ∧
        n.toNat = {slot | ∃ r ∈ slotRanges, r.contains slot = true}.ncard := by
  obtain ⟨l, hl, -, -⟩ := RangeList.fromConfig_spec fun r hr => (h r hr).2
  obtain ⟨hseparated, -, hcontains⟩ := fromConfig_some hl
  have hbounded : ∀ r ∈ l.ranges, Bounded r := by
    rw [fromConfig_eq] at hl
    obtain ⟨merged, hmerge, rfl⟩ := Option.map_eq_some_iff.1 hl
    have hinput : ∀ r ∈ inOrder slotRanges, Bounded r := by
      intro r hr
      obtain ⟨r', hr', rfl⟩ := mem_inOrder.1 hr
      exact h r' hr'
    cases hsort : inOrder slotRanges with
    | nil =>
        rw [hsort] at hmerge
        obtain rfl := Option.some.inj hmerge
        exact fun r hr => absurd hr List.not_mem_nil
    | cons current ranges =>
        rw [hsort] at hmerge hinput
        exact mergeRanges_bounded hmerge hinput
  exact ⟨l, hl, ⟨hseparated, hbounded⟩, hcontains,
    exists_totalCoverage hl fun r hr => (hbounded r hr).sized⟩

theorem RangeList.Stored.contains_iff {l : RangeList} (h : l.Stored) (slot : UInt16) :
    l.contains slot = true ↔ Covers l.ranges slot := by
  refine containsSlot_iff ?_ slot
  refine h.separated.imp_of_mem fun {a b} ha hb hgap => ?_
  have hle := UInt16.le_iff_toNat_le.1 (h.bounded a ha).1
  rw [UInt16.le_iff_toNat_le]
  omega

theorem contains_slotRanges {l : RangeList} {startSlot endSlot slot : UInt16} :
    (∃ r ∈ l.slotRanges ++ [⟨startSlot, endSlot⟩], r.contains slot = true) ↔
      Covers l.ranges slot ∨ (startSlot ≤ slot ∧ slot ≤ endSlot) := by
  simp [RangeList.slotRanges, Covers, SlotRange.contains, or_and_right, exists_or]

/-- One range more: the old slots and those of the range. -/
theorem RangeList.Stored.add {l : RangeList} (h : l.Stored) {startSlot endSlot : UInt16}
    (hnew : Bounded (startSlot, endSlot)) :
    ∃ l', l.add startSlot endSlot = some l' ∧ l'.Stored ∧
      ∀ slot, l'.contains slot = true ↔
        l.contains slot = true ∨ (startSlot ≤ slot ∧ slot ≤ endSlot) := by
  have hbounded : ∀ r ∈ l.slotRanges ++ [⟨startSlot, endSlot⟩],
      Bounded (r.startSlot, r.endSlot) := by
    intro r hr
    rcases List.mem_append.1 hr with hr | hr
    · obtain ⟨r', hr', rfl⟩ := List.mem_map.1 hr
      exact h.bounded r' hr'
    · obtain rfl := List.mem_singleton.1 hr
      exact hnew
  obtain ⟨l', hl', hstored, hcontains, -⟩ := fromConfig_bounded hbounded
  refine ⟨l', hl', hstored, fun slot => ?_⟩
  rw [hcontains, contains_slotRanges, h.contains_iff]

/-- `add` of one range after another. -/
def RangeList.addAll (l : RangeList) (more : List SlotRange) : Option RangeList :=
  more.foldlM (fun l r => l.add r.startSlot r.endSlot) l

theorem RangeList.Stored.addAll {more : List SlotRange} {l : RangeList} (h : l.Stored)
    (hmore : ∀ r ∈ more, Bounded (r.startSlot, r.endSlot)) :
    ∃ l', l.addAll more = some l' ∧ l'.Stored ∧
      ∀ slot, l'.contains slot = true ↔
        l.contains slot = true ∨ ∃ r ∈ more, r.contains slot = true := by
  induction more generalizing l with
  | nil => exact ⟨l, rfl, h, fun slot => by simp⟩
  | cons r more ih =>
      obtain ⟨l₁, hl₁, hstored₁, hcontains₁⟩ := h.add (hmore r List.mem_cons_self)
      obtain ⟨l', hl', hstored, hcontains⟩ :=
        ih hstored₁ fun r' hr' => hmore r' (List.mem_cons_of_mem r hr')
      refine ⟨l', ?_, hstored, fun slot => ?_⟩
      · rw [RangeList.addAll, List.foldlM_cons, hl₁]
        exact hl'
      · rw [hcontains, hcontains₁, List.exists_mem_cons_iff, or_assoc]
        simp [SlotRange.contains]

/-- Ranges with a start no later than their end and an end below 65535 are stored
in order with gaps, hold their slots and no others, and are counted right; and so
it stays as further ones are added. -/
theorem fromConfig_represents (slotRanges : List SlotRange)
    (h : ∀ r ∈ slotRanges, r.startSlot ≤ r.endSlot ∧ r.endSlot < 65535) :
    ∃ l, RangeList.fromConfig slotRanges = some l ∧ l.Stored ∧
      (∀ slot, l.contains slot = true ↔ ∃ r ∈ slotRanges, r.contains slot = true) ∧
      (∃ n, l.totalCoverage = some n ∧
        n.toNat = {slot | ∃ r ∈ slotRanges, r.contains slot = true}.ncard) ∧
      ∀ more : List SlotRange,
        (∀ r ∈ more, r.startSlot ≤ r.endSlot ∧ r.endSlot < 65535) →
        ∃ l', l.addAll more = some l' ∧ l'.Stored ∧
          ∀ slot, l'.contains slot = true ↔
            l.contains slot = true ∨ ∃ r ∈ more, r.contains slot = true := by
  obtain ⟨l, hl, hstored, hcontains, hcoverage⟩ := fromConfig_bounded h
  exact ⟨l, hl, hstored, hcontains, hcoverage, fun _ hmore => hstored.addAll hmore⟩

theorem fromConfig_represents_overlapping :
    ∃ l, RangeList.fromConfig [⟨200, 300⟩, ⟨0, 100⟩, ⟨50, 150⟩] = some l ∧ l.Stored := by
  have h : ∀ r ∈ ([⟨200, 300⟩, ⟨0, 100⟩, ⟨50, 150⟩] : List SlotRange),
      r.startSlot ≤ r.endSlot ∧ r.endSlot < 65535 := by decide
  obtain ⟨l, hl, hstored, -⟩ := fromConfig_represents _ h
  exact ⟨l, hl, hstored⟩

/-! ## Overflow -/

/-- No range with the last number for its end has another one after it. -/
def EndsLast (ranges : List (UInt16 × UInt16)) : Prop :=
  ∀ pre r post, ranges = pre ++ r :: post → r.2 = 65535 → post = []

theorem endsLast_cons {r : UInt16 × UInt16} {ranges : List (UInt16 × UInt16)} :
    EndsLast (r :: ranges) ↔ (r.2 = 65535 → ranges = []) ∧ EndsLast ranges := by
  constructor
  · intro h
    refine ⟨h [] r ranges rfl, fun pre r' post heq => ?_⟩
    exact h (r :: pre) r' post (by rw [heq, List.cons_append])
  · rintro ⟨hr, h⟩ pre r' post heq hend
    cases pre with
    | nil =>
        obtain ⟨rfl, rfl⟩ := List.cons.inj heq
        exact hr hend
    | cons p pre => exact h pre r' post (List.cons.inj heq).2 hend

theorem max_eq_last {e e' : UInt16} (h : e ≠ 65535) : max e e' = 65535 ↔ e' = 65535 := by
  have hlast : (65535 : UInt16).toNat = 65535 := rfl
  have hne : e.toNat ≠ 65535 := fun he => h (UInt16.toNat_inj.1 he)
  have hlt := e.toNat_lt
  have hlt' := e'.toNat_lt
  rw [← UInt16.toNat_inj, ← UInt16.toNat_inj, toNat_max, hlast]
  omega

theorem mergeRanges_isSome_iff {current : UInt16 × UInt16} {ranges : List (UInt16 × UInt16)} :
    (∃ merged, mergeRanges current ranges = some merged) ↔ EndsLast (current :: ranges) := by
  induction ranges generalizing current with
  | nil =>
      refine ⟨fun _ => ?_, fun _ => ⟨_, rfl⟩⟩
      refine endsLast_cons.2 ⟨fun _ => rfl, fun pre r post heq => ?_⟩
      exact absurd heq (by simp)
  | cons next ranges ih =>
      rw [mergeRanges, endsLast_cons]
      split
      · next hend => simp [hend]
      · next hend =>
          simp only [hend, false_implies, true_and]
          split
          · rw [ih, endsLast_cons, endsLast_cons, max_eq_last hend]
          · rw [← ih]
            simp

theorem mergeAll_isSome_iff {ranges : List (UInt16 × UInt16)} :
    (∃ merged, mergeAll ranges = some merged) ↔ EndsLast ranges := by
  cases ranges with
  | nil => exact ⟨fun _ pre r post heq => absurd heq (by simp), fun _ => ⟨[], rfl⟩⟩
  | cons current ranges => exact mergeRanges_isSome_iff

/-! ### Ranges that end before they start -/

/-- One range that starts where another one does, and has a slot. -/
def Stretches (r : UInt16 × UInt16) (post : List (UInt16 × UInt16)) : Prop :=
  r.2.toNat + 1 = r.1.toNat ∧ ∃ q ∈ post, q.1 = r.1 ∧ q.1 ≤ q.2

/-- Each range that ends before it starts is reached, where `reach` is the number
after the furthest end so far, or stretched. -/
def Absorbed : Nat → List (UInt16 × UInt16) → Prop
  | _, [] => True
  | reach, r :: ranges =>
      (r.2 < r.1 → r.1.toNat ≤ reach ∨ Stretches r ranges) ∧
        Absorbed (max reach (r.2.toNat + 1)) ranges

/-- An end that none of the ranges starts at or before does not matter. -/
theorem absorbed_max {reach gone : Nat} {ranges : List (UInt16 × UInt16)}
    (h : ∀ r ∈ ranges, gone < r.1.toNat) :
    Absorbed (max gone reach) ranges ↔ Absorbed reach ranges := by
  induction ranges generalizing reach with
  | nil => exact Iff.rfl
  | cons r ranges ih =>
      have hr := h r List.mem_cons_self
      have hreach : r.1.toNat ≤ max gone reach ↔ r.1.toNat ≤ reach := by omega
      rw [Absorbed, Absorbed, hreach, Nat.max_assoc,
        ih fun r' hr' => h r' (List.mem_cons_of_mem r hr')]

/-- Merging with a range that touches changes what has to stretch it into what
is left to do so. -/
theorem stretches_merge {r next : UInt16 × UInt16} {ranges : List (UInt16 × UInt16)}
    (hle : r.1.toNat ≤ next.1.toNat) (htouch : next.1.toNat ≤ r.2.toNat + 1) :
    (max r.2 next.2 < r.1 → Stretches (r.1, max r.2 next.2) ranges) ↔
      (r.2 < r.1 → Stretches r (next :: ranges)) := by
  rw [UInt16.lt_iff_toNat_lt, UInt16.lt_iff_toNat_lt, toNat_max]
  by_cases hr : r.2.toNat < r.1.toNat
  · have hstart : next.1 = r.1 := UInt16.toNat_inj.1 (by omega)
    by_cases hnext : next.1 ≤ next.2
    · have hslot := UInt16.le_iff_toNat_le.1 hnext
      refine ⟨fun _ _ => ⟨by omega, next, List.mem_cons_self, hstart, hnext⟩, fun _ hmax => ?_⟩
      omega
    · have hslot := UInt16.not_le.1 hnext
      rw [UInt16.lt_iff_toNat_lt] at hslot
      have hmax : max r.2 next.2 = r.2 := by
        rw [← UInt16.toNat_inj, toNat_max]
        omega
      have hmaxNat : max r.2.toNat next.2.toNat = r.2.toNat := by omega
      rw [hmax, hmaxNat]
      simp [Stretches, hnext]
  · refine ⟨fun _ h => absurd h hr, fun _ h => ?_⟩
    omega

/-- A merged range has a slot when the one it starts with does, or is stretched. -/
theorem mergeRanges_nonempty_iff {current : UInt16 × UInt16}
    {ranges merged : List (UInt16 × UInt16)} (h : mergeRanges current ranges = some merged)
    (hordered : Ordered (current :: ranges)) :
    (∀ r ∈ merged, r.1 ≤ r.2) ↔
      (current.2 < current.1 → Stretches current ranges) ∧
        Absorbed (current.2.toNat + 1) ranges := by
  induction ranges generalizing current merged with
  | nil =>
      obtain rfl := Option.some.inj h
      simp [Stretches, Absorbed]
  | cons next ranges ih =>
      rw [mergeRanges] at h
      obtain ⟨hfirst, hrest⟩ := List.pairwise_cons.1 hordered
      have hnext := UInt16.le_iff_toNat_le.1 (hfirst next List.mem_cons_self)
      split at h
      · cases h
      · next hmax =>
          split at h
          · next htouch =>
              rw [UInt16.le_iff_toNat_le, toNat_succ hmax] at htouch
              have hordered' : Ordered ((current.1, max current.2 next.2) :: ranges) :=
                List.pairwise_cons.2 ⟨fun r hr => hfirst r (List.mem_cons_of_mem next hr),
                  (List.pairwise_cons.1 hrest).2⟩
              have hreach : max (current.2.toNat + 1) (next.2.toNat + 1) =
                  (max current.2 next.2).toNat + 1 := by rw [toNat_max]; omega
              have hreached : next.2 < next.1 →
                  next.1.toNat ≤ current.2.toNat + 1 ∨ Stretches next ranges :=
                fun _ => .inl htouch
              rw [ih h hordered', Absorbed, hreach, stretches_merge hnext htouch,
                and_iff_right hreached]
          · next hgap =>
              obtain ⟨merged', hmerge, rfl⟩ := Option.map_eq_some_iff.1 h
              rw [UInt16.le_iff_toNat_le, toNat_succ hmax] at hgap
              -- Nothing from here on starts where the range put away does.
              have hnot : ¬ Stretches current (next :: ranges) := by
                rintro ⟨hend, q, hq, hstart, -⟩
                have hfrom : next.1 ≤ q.1 := by
                  rcases List.mem_cons.1 hq with rfl | hq
                  · exact UInt16.le_refl _
                  · exact (List.pairwise_cons.1 hrest).1 q hq
                rw [UInt16.le_iff_toNat_le, hstart] at hfrom
                omega
              have hlater : ∀ r ∈ ranges, current.2.toNat + 1 < r.1.toNat := by
                intro r hr
                have hfrom := UInt16.le_iff_toNat_le.1 ((List.pairwise_cons.1 hrest).1 r hr)
                omega
              rw [List.forall_mem_cons, ih hmerge hrest, Absorbed, absorbed_max hlater,
                or_iff_right hgap, ← UInt16.not_lt]
              simp only [hnot, imp_false]

/-- The same of the ranges one at a time, each with those before it and those
after it. -/
theorem absorbed_iff {reach : Nat} {ranges : List (UInt16 × UInt16)} :
    Absorbed reach ranges ↔
      ∀ pre r post, ranges = pre ++ r :: post → r.2 < r.1 →
        (r.1.toNat ≤ reach ∨ ∃ p ∈ pre, r.1.toNat ≤ p.2.toNat + 1) ∨ Stretches r post := by
  induction ranges generalizing reach with
  | nil => exact ⟨fun _ pre r post heq => absurd heq (by simp), fun _ => trivial⟩
  | cons r ranges ih =>
      rw [Absorbed, ih]
      constructor
      · rintro ⟨hr, hranges⟩ pre r' post heq hlt
        cases pre with
        | nil =>
            obtain ⟨rfl, rfl⟩ := List.cons.inj heq
            exact (hr hlt).imp_left .inl
        | cons p pre =>
            obtain ⟨rfl, rfl⟩ := List.cons.inj heq
            refine (hranges pre r' post rfl hlt).imp_left fun h => ?_
            rw [List.exists_mem_cons_iff]
            rcases h with h | h
            · rcases le_max_iff.1 h with h | h
              · exact .inl h
              · exact .inr (.inl h)
            · exact .inr (.inr h)
      · intro h
        refine ⟨fun hlt => ?_, fun pre r' post heq hlt => ?_⟩
        · simpa using h [] r ranges rfl hlt
        · refine (h (r :: pre) r' post (by rw [heq, List.cons_append]) hlt).imp_left fun h => ?_
          rw [List.exists_mem_cons_iff] at h
          rcases h with h | h | h
          · exact .inl (le_max_iff.2 (.inl h))
          · exact .inl (le_max_iff.2 (.inr h))
          · exact .inr h

/-! ### All slots in one range -/

/-- Two ranges of a list with gaps, in either order. -/
theorem Separated.gap {ranges : List (UInt16 × UInt16)} (h : Separated ranges)
    {r r' : UInt16 × UInt16} (hr : r ∈ ranges) (hr' : r' ∈ ranges) (hne : r ≠ r') :
    r.2.toNat + 1 < r'.1.toNat ∨ r'.2.toNat + 1 < r.1.toNat := by
  induction h with
  | nil => exact absurd hr List.not_mem_nil
  | cons hfirst _ ih =>
      rcases List.mem_cons.1 hr with rfl | htail
      · rcases List.mem_cons.1 hr' with rfl | htail'
        · exact absurd rfl hne
        · exact .inl (hfirst r' htail')
      · rcases List.mem_cons.1 hr' with rfl | htail'
        · exact .inr (hfirst r htail)
        · exact ih htail htail'

theorem sub_eq_last_iff {r : UInt16 × UInt16} (h : r.1 ≤ r.2) :
    r.2 - r.1 = 65535 ↔ r.1.toNat = 0 ∧ r.2.toNat = 65535 := by
  have hlast : (65535 : UInt16).toNat = 65535 := rfl
  have hlt := r.2.toNat_lt
  rw [← UInt16.toNat_inj, UInt16.toNat_sub_of_le _ _ h, hlast]
  rw [UInt16.le_iff_toNat_le] at h
  omega

/-- With gaps between them, only one range on its own can leave no slot out. -/
theorem uncovered_iff {ranges : List (UInt16 × UInt16)} (hseparated : Separated ranges)
    (hslots : ∀ r ∈ ranges, r.1 ≤ r.2) :
    (∃ slot, ¬ Covers ranges slot) ↔ ∀ r ∈ ranges, r.2 - r.1 ≠ 65535 := by
  constructor
  · rintro ⟨slot, hslot⟩ r hr hall
    obtain ⟨hstart, hend⟩ := (sub_eq_last_iff (hslots r hr)).1 hall
    refine hslot ⟨r, hr, ?_⟩
    have hlt := slot.toNat_lt
    rw [UInt16.le_iff_toNat_le, UInt16.le_iff_toNat_le]
    omega
  · intro hnot
    by_contra hall
    simp only [not_exists, not_not] at hall
    obtain ⟨r, hr, hstart, -⟩ := hall 0
    have hstart : r.1.toNat = 0 := Nat.le_zero.1 (UInt16.le_iff_toNat_le.1 hstart)
    have hend : r.2 ≠ 65535 := by
      intro hend
      refine hnot r hr ((sub_eq_last_iff (hslots r hr)).2 ⟨hstart, ?_⟩)
      rw [hend]
      rfl
    -- The slot after the first range is in a range that starts too early.
    obtain ⟨r', hr', hstart', hend'⟩ := hall (r.2 + 1)
    rw [UInt16.le_iff_toNat_le, toNat_succ hend] at hstart' hend'
    have hne : r ≠ r' := by
      rintro rfl
      omega
    rcases hseparated.gap hr hr' hne with h | h
    · omega
    · omega

/-- Ranges in order whose merging and whose sizes stay within 16 bits. -/
structure NoOverflow (ranges : List (UInt16 × UInt16)) : Prop where
  endsLast : EndsLast ranges
  uncovered : ∃ slot, ¬ Covers ranges slot
  absorbed : ∀ pre r post, ranges = pre ++ r :: post → r.2 < r.1 →
    (∃ p ∈ pre, r.1.toNat ≤ p.2.toNat + 1) ∨ Stretches r post

theorem mergeAll_nonempty_iff {ranges merged : List (UInt16 × UInt16)}
    (h : mergeAll ranges = some merged) (hordered : Ordered ranges) :
    (∀ r ∈ merged, r.1 ≤ r.2) ↔ Absorbed 0 ranges := by
  cases ranges with
  | nil =>
      obtain rfl := Option.some.inj h
      simp [Absorbed]
  | cons current ranges =>
      rw [mergeRanges_nonempty_iff h hordered, Absorbed, Nat.zero_max]
      have hstart : current.2 < current.1 → ¬ current.1.toNat ≤ 0 := by
        intro hlt hle
        rw [UInt16.lt_iff_toNat_lt] at hlt
        omega
      refine and_congr_left fun _ => ⟨fun hr hlt => .inr (hr hlt), fun hr hlt => ?_⟩
      exact (hr hlt).resolve_left (hstart hlt)

theorem noOverflow_iff_mergeAll {ranges : List (UInt16 × UInt16)} (hordered : Ordered ranges) :
    NoOverflow ranges ↔ ∃ merged, mergeAll ranges = some merged ∧ ∀ r ∈ merged, Sized r := by
  have habsorbed : Absorbed 0 ranges ↔ ∀ pre r post, ranges = pre ++ r :: post → r.2 < r.1 →
      (∃ p ∈ pre, r.1.toNat ≤ p.2.toNat + 1) ∨ Stretches r post := by
    rw [absorbed_iff]
    refine forall_congr' fun pre => forall_congr' fun r => forall_congr' fun post =>
      forall_congr' fun _ => forall_congr' fun hlt => ?_
    have hstart : ¬ r.1.toNat ≤ 0 := by
      rw [UInt16.lt_iff_toNat_lt] at hlt
      omega
    rw [or_iff_right hstart]
  constructor
  · rintro ⟨hends, ⟨slot, hslot⟩, hinverted⟩
    obtain ⟨merged, hmerge⟩ := mergeAll_isSome_iff.2 hends
    obtain ⟨hcovers, -, hseparated⟩ := mergeAll_spec hmerge hordered
    have hslots := (mergeAll_nonempty_iff hmerge hordered).2 (habsorbed.2 hinverted)
    have hsizes := (uncovered_iff hseparated hslots).1 ⟨slot, (hcovers slot).not.2 hslot⟩
    exact ⟨merged, hmerge, fun r hr => ⟨hslots r hr, hsizes r hr⟩⟩
  · rintro ⟨merged, hmerge, hsized⟩
    obtain ⟨hcovers, -, hseparated⟩ := mergeAll_spec hmerge hordered
    have hslots : ∀ r ∈ merged, r.1 ≤ r.2 := fun r hr => (hsized r hr).1
    obtain ⟨slot, hslot⟩ := (uncovered_iff hseparated hslots).2 fun r hr => (hsized r hr).2
    exact ⟨mergeAll_isSome_iff.1 ⟨merged, hmerge⟩, ⟨slot, (hcovers slot).not.1 hslot⟩,
      habsorbed.1 ((mergeAll_nonempty_iff hmerge hordered).1 hslots)⟩

theorem fromConfig_computes_iff (slotRanges : List SlotRange) :
    (∃ l, RangeList.fromConfig slotRanges = some l ∧ ∃ n, l.totalCoverage = some n) ↔
      NoOverflow (inOrder slotRanges) := by
  have hordered : Ordered (inOrder slotRanges) := ordered_sortRanges _
  rw [noOverflow_iff_mergeAll hordered]
  constructor
  · rintro ⟨l, hl, n, hn⟩
    rw [fromConfig_eq] at hl
    obtain ⟨merged, hmerge, rfl⟩ := Option.map_eq_some_iff.1 hl
    exact ⟨merged, hmerge, sized_of_sumSizes hn⟩
  · rintro ⟨merged, hmerge, hsized⟩
    have hl : RangeList.fromConfig slotRanges = some { ranges := merged } := by
      rw [fromConfig_eq, hmerge]
      rfl
    obtain ⟨n, hn, -⟩ := exists_totalCoverage hl hsized
    exact ⟨_, hl, n, hn⟩

/-- When nothing overflows: for the ranges of a configuration, and for those of
any list with one more. -/
theorem slots_no_overflow_iff (slotRanges : List SlotRange) (l : RangeList)
    (startSlot endSlot : UInt16) :
    ((∃ l', RangeList.fromConfig slotRanges = some l' ∧ ∃ n, l'.totalCoverage = some n) ↔
        NoOverflow (inOrder slotRanges)) ∧
      ((∃ l', l.add startSlot endSlot = some l' ∧ ∃ n, l'.totalCoverage = some n) ↔
        NoOverflow (inOrder (l.slotRanges ++ [⟨startSlot, endSlot⟩]))) :=
  ⟨fromConfig_computes_iff slotRanges, fromConfig_computes_iff _⟩

/-- The coverage of one range that has every slot is one more than fits. -/
theorem all_slots_overflow :
    ¬ ∀ slotRanges : List SlotRange,
      ∃ l, RangeList.fromConfig slotRanges = some l ∧ ∃ n, l.totalCoverage = some n := by
  intro h
  obtain ⟨l, hl, n, hn⟩ := h [⟨0, 65535⟩]
  obtain rfl := Option.some.inj hl
  cases hn

end RedisHaTool.Filter
