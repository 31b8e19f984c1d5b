import RedisHaTool.Proofs.SlotRanges

/-!
# One list for one set of slots

Ranges with gaps between them can be read off the slots that they cover: the
first starts at the least of these, ends before the next that is missing, and the
rest is what lies beyond. So the list that is stored depends on the slots and on
nothing else, neither on the order of the configuration nor on how it cuts its
ranges nor on whether they are added one by one; and it is the shortest there is,
since no range reaches over a gap.
-/

namespace RedisHaTool.Filter

variable {r r' : UInt16 × UInt16} {ranges ranges' : List (UInt16 × UInt16)} {slot : UInt16}

/-! ## Reading the ranges off the slots -/

theorem covers_start (hr : Bounded r) : Covers (r :: ranges) r.1 :=
  ⟨r, List.mem_cons_self, UInt16.le_refl r.1, hr.1⟩

/-- Everything in the ranges behind the first one is past its end. -/
theorem lt_of_covers_tail (h : Separated (r :: ranges)) (hslot : Covers ranges slot) :
    r.2.toNat + 1 < slot.toNat := by
  obtain ⟨r', hr', hstart, -⟩ := hslot
  have hgap := (List.pairwise_cons.1 h).1 r' hr'
  rw [UInt16.le_iff_toNat_le] at hstart
  omega

theorem le_of_covers (h : Separated (r :: ranges)) (hr : Bounded r)
    (hslot : Covers (r :: ranges) slot) : r.1 ≤ slot := by
  rcases covers_cons.1 hslot with hin | hpast
  · exact hin.1
  · have hle := UInt16.le_iff_toNat_le.1 hr.1
    have hlt := lt_of_covers_tail h hpast
    rw [UInt16.le_iff_toNat_le]
    omega

theorem covers_tail_iff (h : Separated (r :: ranges)) :
    Covers ranges slot ↔ Covers (r :: ranges) slot ∧ r.2 < slot := by
  rw [covers_cons, UInt16.lt_iff_toNat_lt]
  constructor
  · intro hpast
    have hlt := lt_of_covers_tail h hpast
    exact ⟨.inr hpast, by omega⟩
  · rintro ⟨hin | hpast, hlt⟩
    · rw [UInt16.le_iff_toNat_le, UInt16.le_iff_toNat_le] at hin
      omega
    · exact hpast

theorem Bounded.succ_end (hr : Bounded r) : (r.2 + 1).toNat = r.2.toNat + 1 :=
  toNat_succ (UInt16.ne_of_lt hr.2)

/-- The slot after a range is in none of them. -/
theorem not_covers_succ_end (h : Separated ranges) (hbounded : ∀ r ∈ ranges, Bounded r)
    (hr : r ∈ ranges) : ¬ Covers ranges (r.2 + 1) := by
  rintro ⟨r', hr', hstart, hend⟩
  have hle := UInt16.le_iff_toNat_le.1 (hbounded r hr).1
  rw [UInt16.le_iff_toNat_le, (hbounded r hr).succ_end] at hstart hend
  have hne : r ≠ r' := by
    rintro rfl
    omega
  rcases h.gap hr hr' hne with hgap | hgap
  · omega
  · omega

/-- Two first ranges that start together: the one ends no later, since the slot
after the other is missing. -/
theorem end_le (h : Separated (r :: ranges)) (hbounded : ∀ q ∈ r :: ranges, Bounded q)
    (hstart : r'.1 = r.1)
    (hslots : ∀ slot, Covers (r' :: ranges') slot → Covers (r :: ranges) slot) :
    r'.2 ≤ r.2 := by
  have hr := hbounded r List.mem_cons_self
  have hle := UInt16.le_iff_toNat_le.1 hr.1
  have hmissing := not_covers_succ_end h hbounded List.mem_cons_self
  rw [UInt16.le_iff_toNat_le]
  by_contra hlt
  refine hmissing (hslots _ ⟨r', List.mem_cons_self, ?_⟩)
  rw [UInt16.le_iff_toNat_le, UInt16.le_iff_toNat_le, hr.succ_end, hstart]
  omega

theorem eq_of_covers (h : Separated ranges) (h' : Separated ranges')
    (hbounded : ∀ r ∈ ranges, Bounded r) (hbounded' : ∀ r ∈ ranges', Bounded r)
    (hsame : ∀ slot, Covers ranges slot ↔ Covers ranges' slot) : ranges = ranges' := by
  have hnone : ∀ slot, ¬ Covers [] slot := by simp [Covers]
  induction ranges generalizing ranges' with
  | nil =>
      cases ranges' with
      | nil => rfl
      | cons r' ranges' =>
          have hstart : Covers (r' :: ranges') r'.1 :=
            covers_start (hbounded' r' List.mem_cons_self)
          exact absurd ((hsame r'.1).2 hstart) (hnone r'.1)
  | cons r ranges ih =>
      have hr := hbounded r List.mem_cons_self
      cases ranges' with
      | nil => exact absurd ((hsame r.1).1 (covers_start hr)) (hnone r.1)
      | cons r' ranges' =>
          have hr' := hbounded' r' List.mem_cons_self
          have hstart : r.1 = r'.1 := UInt16.le_antisymm
            (le_of_covers h hr ((hsame r'.1).2 (covers_start hr')))
            (le_of_covers h' hr' ((hsame r.1).1 (covers_start hr)))
          have hend : r.2 = r'.2 := UInt16.le_antisymm
            (end_le h' hbounded' hstart fun slot => (hsame slot).1)
            (end_le h hbounded hstart.symm fun slot => (hsame slot).2)
          obtain rfl : r = r' := Prod.ext hstart hend
          have htails : ∀ slot, Covers ranges slot ↔ Covers ranges' slot := fun slot => by
            rw [covers_tail_iff h, covers_tail_iff h', hsame]
          rw [ih (List.pairwise_cons.1 h).2 (List.pairwise_cons.1 h').2
            (fun q hq => hbounded q (List.mem_cons_of_mem r hq))
            (fun q hq => hbounded' q (List.mem_cons_of_mem r hq)) htails]

/-! ## No shorter list -/

/-- A range that holds the starts of two of them holds the gap between. -/
theorem start_injective (h : Separated ranges) (hbounded : ∀ r ∈ ranges, Bounded r)
    (hslots : ∀ slot, Covers ranges' slot → Covers ranges slot) {q : UInt16 × UInt16}
    (hq : q ∈ ranges') (hr : r ∈ ranges) (hr' : r' ∈ ranges)
    (hin : q.1 ≤ r.1 ∧ r.1 ≤ q.2) (hin' : q.1 ≤ r'.1 ∧ r'.1 ≤ q.2) : r = r' := by
  by_contra hne
  rw [UInt16.le_iff_toNat_le, UInt16.le_iff_toNat_le] at hin hin'
  have hle := UInt16.le_iff_toNat_le.1 (hbounded r hr).1
  have hle' := UInt16.le_iff_toNat_le.1 (hbounded r' hr').1
  rcases h.gap hr hr' hne with hgap | hgap
  · refine not_covers_succ_end h hbounded hr (hslots _ ⟨q, hq, ?_⟩)
    rw [UInt16.le_iff_toNat_le, UInt16.le_iff_toNat_le, (hbounded r hr).succ_end]
    omega
  · refine not_covers_succ_end h hbounded hr' (hslots _ ⟨q, hq, ?_⟩)
    rw [UInt16.le_iff_toNat_le, UInt16.le_iff_toNat_le, (hbounded r' hr').succ_end]
    omega

theorem separated_nodup (h : Separated ranges) (hbounded : ∀ r ∈ ranges, Bounded r) :
    ranges.Nodup := by
  refine h.imp_of_mem fun {a b} ha _ hgap hab => ?_
  have hle := UInt16.le_iff_toNat_le.1 (hbounded a ha).1
  rw [← hab] at hgap
  omega

theorem length_le_of_covers (h : Separated ranges) (hbounded : ∀ r ∈ ranges, Bounded r)
    (hsame : ∀ slot, Covers ranges slot ↔ Covers ranges' slot) :
    ranges.length ≤ ranges'.length := by
  -- Each range is sent to one that holds its start.
  have hholder : ∀ r, ∃ q, r ∈ ranges → q ∈ ranges' ∧ q.1 ≤ r.1 ∧ r.1 ≤ q.2 := by
    intro r
    by_cases hr : r ∈ ranges
    · obtain ⟨q, hq⟩ := (hsame r.1).1 ⟨r, hr, UInt16.le_refl r.1, (hbounded r hr).1⟩
      exact ⟨q, fun _ => hq⟩
    · exact ⟨r, fun hmem => absurd hmem hr⟩
  choose holder hholder using hholder
  have hmaps : ∀ r ∈ ranges.toFinset, holder r ∈ ranges'.toFinset := by
    intro r hr
    exact List.mem_toFinset.2 (hholder r (List.mem_toFinset.1 hr)).1
  have hinjective : Set.InjOn holder ranges.toFinset := by
    intro r hr r' hr' heq
    have hr := List.mem_toFinset.1 hr
    have hr' := List.mem_toFinset.1 hr'
    obtain ⟨hq, hin⟩ := hholder r hr
    obtain ⟨-, hin'⟩ := hholder r' hr'
    rw [← heq] at hin'
    exact start_injective h hbounded (fun slot => (hsame slot).2) hq hr hr' hin hin'
  calc ranges.length = ranges.toFinset.card :=
        (List.toFinset_card_of_nodup (separated_nodup h hbounded)).symm
    _ ≤ ranges'.toFinset.card := Finset.card_le_card_of_injOn holder hmaps hinjective
    _ ≤ ranges'.length := List.toFinset_card_le ranges'

/-! ## What is stored -/

theorem RangeList.stored_new : RangeList.new.Stored :=
  ⟨.nil, fun _ hr => absurd hr List.not_mem_nil⟩

theorem RangeList.Stored.ext {l l' : RangeList} (h : l.Stored) (h' : l'.Stored)
    (hsame : ∀ slot, l.contains slot = true ↔ l'.contains slot = true) : l = l' := by
  have hranges : l.ranges = l'.ranges :=
    eq_of_covers h.separated h'.separated h.bounded h'.bounded fun slot => by
      rw [← h.contains_iff, ← h'.contains_iff, hsame]
  cases l
  cases l'
  rw [RangeList.mk.injEq]
  exact hranges

theorem RangeList.Stored.len_le {l : RangeList} (h : l.Stored) {slotRanges : List SlotRange}
    (hsame : ∀ slot, l.contains slot = true ↔ ∃ r ∈ slotRanges, r.contains slot = true) :
    l.len ≤ slotRanges.length := by
  have hcovers : ∀ slot, Covers l.ranges slot ↔
      Covers (slotRanges.map fun r => (r.startSlot, r.endSlot)) slot := by
    intro slot
    rw [← h.contains_iff, hsame]
    simp [Covers, SlotRange.contains]
  have hle := length_le_of_covers h.separated h.bounded hcovers
  rwa [List.length_map] at hle

/-- Two configurations of ranges within bounds that have the same slots are stored
as the same list, which is also what the ranges of either come to when they are
added one after another, and which no configuration with these slots is shorter
than. -/
theorem fromConfig_canonical {slotRanges slotRanges' : List SlotRange}
    (h : ∀ r ∈ slotRanges, r.startSlot ≤ r.endSlot ∧ r.endSlot < 65535)
    (h' : ∀ r ∈ slotRanges', r.startSlot ≤ r.endSlot ∧ r.endSlot < 65535)
    (hsame : ∀ slot, (∃ r ∈ slotRanges, r.contains slot = true) ↔
      ∃ r ∈ slotRanges', r.contains slot = true) :
    ∃ l, RangeList.fromConfig slotRanges = some l ∧ RangeList.fromConfig slotRanges' = some l ∧
      RangeList.new.addAll slotRanges' = some l ∧ l.len ≤ slotRanges'.length := by
  obtain ⟨l, hl, hstored, hcontains, -⟩ := fromConfig_bounded h
  obtain ⟨l', hl', hstored', hcontains', -⟩ := fromConfig_bounded h'
  obtain ⟨added, hadded, hstoredAdded, hcontainsAdded⟩ := RangeList.stored_new.addAll h'
  have hslots : ∀ slot, l.contains slot = true ↔ ∃ r ∈ slotRanges', r.contains slot = true :=
    fun slot => (hcontains slot).trans (hsame slot)
  have hlist : l = l' := hstored.ext hstored' fun slot => (hslots slot).trans (hcontains' slot).symm
  have hempty : ∀ slot, RangeList.new.contains slot = false := fun slot => rfl
  have hlistAdded : l = added := hstored.ext hstoredAdded fun slot => by
    rw [hslots, hcontainsAdded, hempty]
    simp
  exact ⟨l, hl, hlist ▸ hl', hlistAdded ▸ hadded, hstored.len_le hslots⟩

theorem fromConfig_canonical_cutTwice :
    ∃ l, RangeList.fromConfig [⟨0, 100⟩, ⟨200, 300⟩] = some l ∧
      RangeList.fromConfig [⟨200, 250⟩, ⟨0, 100⟩, ⟨230, 300⟩] = some l ∧
      RangeList.new.addAll [⟨200, 250⟩, ⟨0, 100⟩, ⟨230, 300⟩] = some l ∧ l.len ≤ 3 := by
  refine fromConfig_canonical (by decide) (by decide) fun slot => ?_
  simp [SlotRange.contains, UInt16.le_iff_toNat_le]
  omega

end RedisHaTool.Filter
