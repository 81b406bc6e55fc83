import CProfiler.Verification.Intervals.Trees

/-! # Queries

A search for a range asks the nodes for its begin and for every boundary in it. In a tree of
separated ranges that finds what meets the range, and nothing is missed. -/

namespace CProfiler.Intervals

open Foundation Model Model.Intervals

variable {α D : Type} [LinearOrder α]

/-! ## Intervals and ranges -/

/-- The interval and the half-open range have a point in common. -/
def Meets (begin end_ : α) (iv : Interval α D) : Prop := iv.begin < end_ ∧ begin < iv.end_

/-- The interval lies in the range. -/
def Within (begin end_ : α) (iv : Interval α D) : Prop := begin ≤ iv.begin ∧ iv.end_ ≤ end_

instance (begin end_ : α) (iv : Interval α D) : Decidable (Meets begin end_ iv) :=
  inferInstanceAs (Decidable (_ ∧ _))

instance (begin end_ : α) (iv : Interval α D) : Decidable (Within begin end_ iv) :=
  inferInstanceAs (Decidable (_ ∧ _))

variable {begin end_ : α} {iv : Interval α D}

/-- What `overlaps` says with its four cases. -/
theorem overlaps_iff (hiv : iv.begin < iv.end_) (h : begin < end_) :
    iv.overlaps begin end_ = true ↔ Meets begin end_ iv := by
  simp only [Interval.overlaps, Bool.or_eq_true, Bool.and_eq_true, decide_eq_true_eq, Meets]
  refine ⟨fun hover => ?_, fun hmeets => ?_⟩
  · rcases hover with ((hb | he) | hb) | he
    · exact ⟨hb.2, hb.1.trans_lt hiv⟩
    · exact ⟨hiv.trans_le he.2, he.1⟩
    · exact ⟨hb.1.trans_lt h, hb.2⟩
    · exact ⟨he.1, h.trans_le he.2⟩
  · rcases le_total begin iv.begin with hle | hle
    · exact .inl (.inl (.inl ⟨hle, hmeets.1⟩))
    · exact .inl (.inr ⟨hle, hmeets.2⟩)

/-- A range is met at its begin or at the begin of the interval. -/
theorem meets_iff (hiv : iv.begin < iv.end_) (h : begin < end_) : Meets begin end_ iv ↔
    ends.Holds iv begin ∨ (begin ≤ iv.begin ∧ iv.begin < end_) := by
  refine ⟨fun hmeets => ?_, fun hor => ?_⟩
  · rcases le_total begin iv.begin with hle | hle
    · exact .inr ⟨hle, hmeets.1⟩
    · exact .inl ⟨hle, hmeets.2⟩
  · rcases hor with hholds | hin
    · exact ⟨hholds.1.trans_lt h, hholds.2⟩
    · exact ⟨hin.2, hin.1.trans_lt hiv⟩

variable [LinearOrder D] {t : IntervalTree α D}

/-! ## Points -/

/-- A search for a point never finds anything else, whatever the intervals are. -/
theorem searchAt_subset (h : Kept t) (p : α) :
    t.searchAt p ⊆ t.allIntervals.filter (fun iv => iv.containsPoint p) := by
  rw [IntervalTree.searchAt]
  split_ifs with hnone
  · exact Finset.empty_subset _
  · have hsub := searchPoint_subset p t.topNode ∅
    rwa [Finset.empty_union, h.content] at hsub

theorem searchAt_eq (h : Exact t) (p : α) :
    t.searchAt p = t.allIntervals.filter (fun iv => iv.containsPoint p) := by
  rw [IntervalTree.searchAt]
  split_ifs with hnone
  · rw [h.isNone_iff.mp hnone, Finset.filter_empty]
  · rw [searchPoint_eq h.ordered, Finset.empty_union, h.content]

theorem overlapsPoint_eq_true_iff (h : Exact t) (p : α) :
    t.overlapsPoint p = true ↔ ∃ iv ∈ t.allIntervals, iv.containsPoint p = true := by
  rw [IntervalTree.overlapsPoint]
  split_ifs with hcard
  · rw [Finset.card_eq_zero.mp hcard]
    simp
  · rw [containsPoint_eq_true_iff h.ordered, h.content]

/-! ## Ranges -/

/-- The bounds that a range search asks for. -/
theorem mem_bounds (h : Kept t) (hlt : begin < end_) (p : α) :
    p ∈ t.boundaryTable.keysBetween (t.boundaryTable.bisectLeft begin)
        (t.boundaryTable.bisectLeft end_) ↔
      (∃ iv ∈ t.allIntervals, iv.begin = p ∨ iv.end_ = p) ∧ begin ≤ p ∧ p < end_ := by
  rw [SortedMap.mem_keysBetween_bisectLeft _ hlt.le, h.counts.mem_keys_iff,
    boundaries_ne_zero_iff]

/-- What a range search collects. -/
theorem search_of_lt (h : Exact t) (hlt : begin < end_) :
    t.topNode.searchPoint begin ∅ ∪ t.topNode.searchOverlap (t.boundaryTable.keysBetween
        (t.boundaryTable.bisectLeft begin) (t.boundaryTable.bisectLeft end_)) =
      t.allIntervals.filter (Meets begin end_) := by
  rw [searchPoint_eq h.ordered, searchOverlap_eq h.ordered, Finset.empty_union, h.content,
    ← Finset.filter_or]
  refine Finset.filter_congr fun iv hiv => ?_
  have hproper := h.proper iv hiv
  simp only [containsPoint_iff, mem_bounds h.toKept hlt]
  refine ⟨fun hor => ?_, fun hmeets => ?_⟩
  · rcases hor with hholds | ⟨p, ⟨_, hp⟩, hholds⟩
    · exact (meets_iff hproper hlt).mpr (.inl hholds)
    · exact ⟨hholds.1.trans_lt hp.2, hp.1.trans_lt hholds.2⟩
  · rcases (meets_iff hproper hlt).mp hmeets with hholds | hin
    · exact .inl hholds
    · exact .inr ⟨iv.begin, ⟨⟨iv, hiv, .inl rfl⟩, hin⟩, le_rfl, hproper⟩

/-- A range search finds what meets the range, a strict one what lies in it. -/
theorem search_eq (h : Exact t) (begin end_ : α) (strict : Bool) :
    t.search begin end_ strict = t.allIntervals.filter (fun iv =>
      begin < end_ ∧ Meets begin end_ iv ∧ (strict = true → Within begin end_ iv)) := by
  rw [IntervalTree.search]
  by_cases hnone : t.topNode.isNone = true
  · rw [if_pos hnone, h.isNone_iff.mp hnone, Finset.filter_empty]
  · rw [if_neg hnone]
    by_cases hlt : begin < end_
    · simp only [ge_iff_le, not_le.mpr hlt, if_false, search_of_lt h hlt, hlt, true_and]
      cases strict with
      | true =>
          rw [if_pos rfl, Finset.filter_filter]
          exact Finset.filter_congr fun iv _ => by simp [Within]
      | false => simp
    · simp [not_lt.mp hlt, hlt]

theorem overlapsRange_eq_true_iff (h : Exact t) (begin end_ : α) :
    t.overlapsRange begin end_ = true ↔
      begin < end_ ∧ ∃ iv ∈ t.allIntervals, Meets begin end_ iv := by
  have hany : (t.boundaryTable.entries.map Prod.fst).any
      (fun bound => decide (begin < bound) && decide (bound < end_) && t.overlapsPoint bound) =
        true ↔ ∃ p, (∃ iv ∈ t.allIntervals, iv.begin = p ∨ iv.end_ = p) ∧
          (begin < p ∧ p < end_) ∧ ∃ iv ∈ t.allIntervals, iv.containsPoint p = true := by
    rw [List.any_eq_true]
    simp only [SortedMap.mem_keys_iff, h.counts.mem_keys_iff, boundaries_ne_zero_iff,
      Bool.and_eq_true, decide_eq_true_eq, overlapsPoint_eq_true_iff h]
  rw [IntervalTree.overlapsRange]
  split_ifs with hcard hge hbegin
  · rw [Finset.card_eq_zero.mp hcard]
    simp
  · simp [not_lt.mpr hge]
  · rw [overlapsPoint_eq_true_iff h] at hbegin
    rcases hbegin with ⟨iv, hiv, hp⟩
    have hlt := not_le.mp hge
    exact ⟨fun _ => ⟨hlt, iv, hiv, (meets_iff (h.proper iv hiv) hlt).mpr
      (.inl (containsPoint_iff.mp hp))⟩, fun _ => rfl⟩
  · rw [overlapsPoint_eq_true_iff h] at hbegin
    have hlt := not_le.mp hge
    rw [hany]
    refine ⟨fun hex => ?_, fun hex => ?_⟩
    · rcases hex with ⟨p, _, hp, iv, hiv, hholds⟩
      rw [containsPoint_iff] at hholds
      exact ⟨hlt, iv, hiv, hholds.1.trans_lt hp.2, hp.1.trans hholds.2⟩
    · rcases hex with ⟨_, iv, hiv, hmeets⟩
      have hproper := h.proper iv hiv
      rcases (meets_iff hproper hlt).mp hmeets with hholds | hin
      · exact absurd ⟨iv, hiv, containsPoint_iff.mpr hholds⟩ hbegin
      · have hhit : iv.containsPoint iv.begin = true := containsPoint_iff.mpr ⟨le_rfl, hproper⟩
        have hne : begin ≠ iv.begin := fun heq => hbegin ⟨iv, hiv, heq ▸ hhit⟩
        exact ⟨iv.begin, ⟨iv, hiv, .inl rfl⟩, ⟨lt_of_le_of_ne hin.1 hne, hin.2⟩, iv, hiv, hhit⟩

end CProfiler.Intervals
