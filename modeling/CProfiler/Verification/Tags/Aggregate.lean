import CProfiler.Foundation.SortedSums
import CProfiler.Verification.Tags.Merge
import Mathlib.Algebra.BigOperators.Group.List.Lemmas
import Mathlib.Algebra.Ring.Int.Defs

/-! Aggregation over cumulative data: each range contributes the difference of two
running totals, and a range below every sample contributes the grand total. -/

namespace CProfiler.Tags

open Model Foundation

variable {κ : Type}

/-! ## Running totals -/

@[simp] theorem length_cumsum (acc : κ → ℤ) (l : List (Sample κ)) :
    (cumsum acc l).length = l.length := by
  induction l generalizing acc with
  | nil => rfl
  | cons row l ih => simp [cumsum, ih]

@[simp] theorem map_addr_cumsum (acc : κ → ℤ) (l : List (Sample κ)) :
    (cumsum acc l).map Sample.addr = l.map Sample.addr := by
  induction l generalizing acc with
  | nil => rfl
  | cons row l ih => simp [cumsum, ih]

/-- Row `n` of the running totals holds the sum of the first `n + 1` rows. -/
theorem counts_cumsum (acc : κ → ℤ) (l : List (Sample κ)) (n : ℕ)
    (hn : n < (cumsum acc l).length) (c : κ) :
    (cumsum acc l)[n].counts c = acc c + ((l.take (n + 1)).map (fun row => row.counts c)).sum := by
  induction l generalizing acc n with
  | nil => simp [cumsum] at hn
  | cons row l ih =>
      cases n with
      | zero => simp [cumsum]
      | succ n =>
          have hn' : n < (cumsum (fun c => acc c + row.counts c) l).length := by
            simpa [cumsum] using hn
          simpa [cumsum, add_assoc] using ih _ n hn'

/-- `searchsorted` sees only the addresses, so it can be read off the sorted rows. -/
theorem searchsorted_cumsum (acc : κ → ℤ) (l : List (Sample κ)) (v : ℤ) :
    searchsorted (cumsum acc l) v = l.findIdx (fun row => decide (v ≤ row.addr)) := by
  have h : ∀ l : List (Sample κ), searchsorted l v =
      (l.map Sample.addr).findIdx (fun a => decide (v ≤ a)) := by
    intro l
    rw [searchsorted, List.findIdx_map]
    rfl
  rw [h, map_addr_cumsum, ← h, searchsorted]

/-! ## One range -/

/-- The counter of `c` over the rows whose address satisfies `p`. -/
abbrev total (table : List (Sample κ)) (c : κ) (p : ℤ → Prop) [DecidablePred p] : ℤ :=
  sumWhere (fun row : Sample κ => row.counts c) (fun row => p row.addr) table

/-- The column sum that a search below every sample picks up through position `-1`. -/
def wrapped (table : List (Sample κ)) (c : κ) (v : ℤ) : ℤ :=
  if ∀ row ∈ table, v ≤ row.addr then (table.map (fun row => row.counts c)).sum else 0

theorem searchsorted_eq_zero_iff (l : List (Sample κ)) (hne : l ≠ [])
    (hs : l.Pairwise (fun x y => x.addr ≤ y.addr)) (v : ℤ) :
    searchsorted (cumsum (fun _ => 0) l) v = 0 ↔ ∀ row ∈ l, v ≤ row.addr := by
  rw [searchsorted_cumsum]
  exact findIdx_eq_zero_iff v hne hs

/-- The running total at the position before the first address that reaches `v`.
When every address reaches `v` this is position `-1`, the last row. -/
theorem irow_searchsorted (l : List (Sample κ)) (hne : l ≠ [])
    (hs : l.Pairwise (fun x y => x.addr ≤ y.addr)) (v : ℤ) :
    ∃ row,
      irow (cumsum (fun _ => 0) l) ((searchsorted (cumsum (fun _ => 0) l) v : ℤ) - 1) = .ok row ∧
      ∀ c, row.counts c = total l c (· < v) + wrapped l c v := by
  have hzero := searchsorted_eq_zero_iff l hne hs v
  cases hn : searchsorted (cumsum (fun _ => 0) l) v with
  | zero =>
      have hall := hzero.mp hn
      have hcum : cumsum (fun _ => 0) l ≠ [] := by
        rw [← List.length_pos_iff, length_cumsum]
        exact List.length_pos_iff.mpr hne
      refine ⟨(cumsum (fun _ => 0) l).getLast hcum, pyGet_neg_one _ hcum, fun c => ?_⟩
      have hnone : total l c (· < v) = 0 :=
        sumWhere_of_forall_not fun row hrow => not_lt_of_ge (hall row hrow)
      rw [hnone, zero_add, wrapped, if_pos hall, List.getLast_eq_getElem]
      simp only [counts_cumsum, length_cumsum, zero_add]
      rw [Nat.sub_add_cancel (List.length_pos_iff.mpr hne), List.take_length]
  | succ n =>
      have hsome : ¬ ∀ row ∈ l, v ≤ row.addr := by
        rw [← hzero, hn]
        exact Nat.succ_ne_zero n
      have hlt : n < (cumsum (fun _ => 0) l).length := by
        have hle : searchsorted (cumsum (fun _ => 0) l) v ≤ l.length := by
          rw [searchsorted_cumsum]
          exact List.findIdx_le_length
        rw [length_cumsum]
        omega
      refine ⟨(cumsum (fun _ => 0) l)[n], ?_, fun c => ?_⟩
      · simpa [irow] using pyGet_natCast _ n hlt
      · rw [counts_cumsum, zero_add, ← hn, searchsorted_cumsum, wrapped, if_neg hsome, add_zero]
        exact sum_take_findIdx _ hs v

/-- A range counts its own rows, and all rows once more when it lies below the first. -/
theorem aggregateStep_spec (l : List (Sample κ)) (hne : l ≠ [])
    (hs : l.Pairwise (fun x y => x.addr ≤ y.addr)) (acc : Sample κ) (r : Range) (hr : r.1 ≤ r.2) :
    ∃ row, aggregateStep (cumsum (fun _ => 0) l) acc r = .ok row ∧
      ∀ c, row.counts c =
        acc.counts c + (total l c (fun a => r.1 ≤ a ∧ a ≤ r.2) + wrapped l c (r.2 + 1)) := by
  have hsplit : ∀ c, total l c (· < r.2 + 1) =
      total l c (· < r.1) + total l c (fun a => r.1 ≤ a ∧ a ≤ r.2) := by
    intro c
    rw [← sumWhere_or (fun row _ => by omega)]
    exact sumWhere_congr fun row _ => by omega
  have hzero := searchsorted_eq_zero_iff l hne hs r.1
  obtain ⟨first, hfirst, hfirstc⟩ := irow_searchsorted l hne hs r.1
  obtain ⟨last, hlast, hlastc⟩ := irow_searchsorted l hne hs (r.2 + 1)
  by_cases hstart : searchsorted (cumsum (fun _ => 0) l) r.1 = 0
  · refine ⟨acc + last, ?_, fun c => ?_⟩
    · simp only [aggregateStep]
      rw [if_neg (by omega), hlast]
      rfl
    · have hnone : total l c (· < r.1) = 0 :=
        sumWhere_of_forall_not fun row hrow => not_lt_of_ge (hzero.mp hstart row hrow)
      rw [Sample.counts_add, hlastc, hsplit, hnone, zero_add]
  · refine ⟨acc + (last - first), ?_, fun c => ?_⟩
    · simp only [aggregateStep]
      rw [if_pos (by omega), hlast, hfirst]
      rfl
    · have hfree : wrapped l c r.1 = 0 := if_neg fun h => hstart (hzero.mpr h)
      rw [Sample.counts_add, Sample.counts_sub, hlastc, hfirstc, hsplit, hfree]
      omega

/-! ## All ranges -/

/-- The sum of what each range contributes. -/
def contributions (l : List (Sample κ)) (c : κ) (ranges : List Range) : ℤ :=
  (ranges.map (fun r => total l c (fun a => r.1 ≤ a ∧ a ≤ r.2) + wrapped l c (r.2 + 1))).sum

theorem foldlM_aggregateStep (l : List (Sample κ)) (hne : l ≠ [])
    (hs : l.Pairwise (fun x y => x.addr ≤ y.addr)) (ranges : List Range) (ho : Ordered ranges)
    (acc : Sample κ) :
    ∃ row, ranges.foldlM (aggregateStep (cumsum (fun _ => 0) l)) acc = .ok row ∧
      ∀ c, row.counts c = acc.counts c + contributions l c ranges := by
  induction ranges generalizing acc with
  | nil => exact ⟨acc, rfl, fun c => by simp [contributions]⟩
  | cons r ranges ih =>
      obtain ⟨hr, ho⟩ := List.forall_mem_cons.mp ho
      obtain ⟨next, hnext, hnextc⟩ := aggregateStep_spec l hne hs acc r hr
      obtain ⟨row, hrow, hrowc⟩ := ih ho next
      refine ⟨row, ?_, fun c => ?_⟩
      · rw [List.foldlM_cons, hnext]
        exact hrow
      · rw [hrowc, hnextc]
        simp [contributions, add_assoc]

/-- `aggregate` over cumulative data succeeds and adds up the contributions. -/
theorem aggregate_spec (order : AddrSort κ) (table : List (Sample κ)) (hne : table ≠ [])
    (ranges : List Range) (ho : Ordered ranges) :
    ∃ row, aggregate ranges (makeCumulative order table) = .ok row ∧
      ∀ c, row.counts c = contributions table c ranges := by
  have hperm := order.perm table
  have hsorted : order.sort table ≠ [] := fun h => hne (List.nil_perm.mp (h ▸ hperm))
  have hcontr : ∀ c, contributions (order.sort table) c ranges = contributions table c ranges := by
    intro c
    refine congrArg List.sum (List.map_congr_left fun r _ => ?_)
    have hwrap : wrapped (order.sort table) c (r.2 + 1) = wrapped table c (r.2 + 1) := by
      simp only [wrapped, hperm.mem_iff, (hperm.map _).sum_eq]
    rw [total, sumWhere_perm _ hperm, hwrap]
  obtain ⟨first, hfirst⟩ : ∃ first, irow (makeCumulative order table) 0 = .ok first := by
    have hpos : 0 < (makeCumulative order table).length := by
      rw [makeCumulative, length_cumsum]
      exact List.length_pos_iff.mpr hsorted
    exact ⟨_, pyGet_natCast _ 0 hpos⟩
  obtain ⟨row, hrow, hrowc⟩ :=
    foldlM_aggregateStep _ hsorted (order.ascending table) ranges ho (first - first)
  refine ⟨{ row with addr := -1 }, ?_, fun c => ?_⟩
  · simp only [aggregate, hfirst, bind, Except.bind]
    rw [makeCumulative, hrow]
    rfl
  · rw [← hcontr]
    simpa using hrowc c

/-! ## Disjoint ranges -/

variable (table : List (Sample κ))

/-- Ranges that share no address count each row they cover once. -/
theorem sum_total_eq_covered (c : κ) {ranges : List Range} (h : Apart ranges) :
    (ranges.map (fun r => total table c (fun a => r.1 ≤ a ∧ a ≤ r.2))).sum =
      total table c (Covered ranges) := by
  induction ranges with
  | nil =>
      refine (sumWhere_of_forall_not fun row _ => ?_).symm
      rintro ⟨r, hr, _⟩
      exact absurd hr List.not_mem_nil
  | cons r ranges ih =>
      obtain ⟨hr, hrest⟩ := List.pairwise_cons.mp h
      rw [List.map_cons, List.sum_cons, ih hrest, ← sumWhere_or]
      · refine sumWhere_congr fun row _ => ?_
        simp [Covered]
      · intro row _ hboth
        obtain ⟨hin, s, hs, hsin⟩ := hboth
        exact hr s hs row.addr ⟨hin, hsin⟩

/-- Every range that ends below the first sample adds the column total. -/
theorem sum_wrapped (c : κ) (ends : List ℤ) :
    (ends.map (fun e => wrapped table c (e + 1))).sum =
      ends.countP (fun e => decide (∀ row ∈ table, e < row.addr)) *
        (table.map (fun row => row.counts c)).sum := by
  induction ends with
  | nil => simp
  | cons e ends ih =>
      rw [List.map_cons, List.sum_cons, ih, List.countP_cons, wrapped]
      simp only [Int.add_one_le_iff]
      by_cases h : ∀ row ∈ table, e < row.addr
      · rw [if_pos h, if_pos (decide_eq_true h)]
        push_cast
        rw [Int.add_mul, Int.one_mul, Int.add_comm]
      · rw [if_neg h, if_neg (by simpa using h), zero_add, Nat.add_zero]

/-- The plain scan: in every column the sum over the rows whose address lies in a range. -/
def PlainSum (ranges : List Range) (row : Sample κ) : Prop :=
  ∀ c, row.counts c = total table c (Covered ranges)

/-- Aggregating disjoint ranges is the plain scan exactly when no range ends below the
first sample, or every column sums to zero. -/
theorem aggregate_plain_iff (order : AddrSort κ) (hne : table ≠ []) (ranges : List Range)
    (ho : Ordered ranges) (ha : Apart ranges) :
    ∃ row, aggregate ranges (makeCumulative order table) = .ok row ∧
      (PlainSum table ranges row ↔
        (∀ r ∈ ranges, ∃ s ∈ table, s.addr ≤ r.2) ∨
          ∀ c, (table.map (fun s => s.counts c)).sum = 0) := by
  obtain ⟨row, hok, hcounts⟩ := aggregate_spec order table hne ranges ho
  refine ⟨row, hok, ?_⟩
  have hsum : ∀ c, row.counts c = total table c (Covered ranges) +
      (ranges.map Prod.snd).countP (fun e => decide (∀ s ∈ table, e < s.addr)) *
        (table.map (fun s => s.counts c)).sum := by
    intro c
    rw [hcounts, contributions, List.sum_map_add, sum_total_eq_covered table c ha, ← sum_wrapped,
      List.map_map]
    rfl
  have hzero : (ranges.map Prod.snd).countP (fun e => decide (∀ s ∈ table, e < s.addr)) = 0 ↔
      ∀ r ∈ ranges, ∃ s ∈ table, s.addr ≤ r.2 := by
    simp [List.countP_eq_zero]
  rw [← hzero]
  constructor
  · intro h
    by_contra hnot
    obtain ⟨hcount, hcol⟩ := not_or.mp hnot
    obtain ⟨c, hc⟩ := not_forall.mp hcol
    have hprod := hsum c
    rw [h c, left_eq_add, Int.mul_eq_zero] at hprod
    rcases hprod with hprod | hprod
    · exact hcount (by exact_mod_cast hprod)
    · exact hc hprod
  · intro h c
    rw [hsum, add_eq_left, Int.mul_eq_zero]
    rcases h with h | h
    · exact .inl (by exact_mod_cast h)
    · exact .inr (h c)

/-- Sorting by insertion is one of the orders `DataFrame.sort` can produce. -/
def insertionOrder : AddrSort κ where
  sort table := table.insertionSort (fun x y => x.addr ≤ y.addr)
  perm table := List.perm_insertionSort _ table
  ascending table := by
    have : Std.Total (fun x y : Sample κ => x.addr ≤ y.addr) := ⟨fun x y => le_total x.addr y.addr⟩
    have : IsTrans (Sample κ) (fun x y => x.addr ≤ y.addr) := ⟨fun _ _ _ => le_trans⟩
    exact List.pairwise_insertionSort _ table

/-- A table of one sample. -/
def oneSample : List (Sample Unit) := [⟨15, fun _ => 1⟩]

theorem aggregate_plain_iff_oneSample :
    ∃ row, aggregate [(20, 30), (10, 15)] (makeCumulative insertionOrder oneSample) = .ok row ∧
      (PlainSum oneSample [(20, 30), (10, 15)] row ↔
        (∀ r ∈ [((20 : ℤ), (30 : ℤ)), (10, 15)], ∃ s ∈ oneSample, s.addr ≤ r.2) ∨
          ∀ c, (oneSample.map (fun s => s.counts c)).sum = 0) :=
  aggregate_plain_iff oneSample insertionOrder (by decide) _ (by decide)
    (by simp [Apart]; omega)

/-- A range before the only sample yields its counter instead of zero. -/
theorem aggregate_counts_range_below :
    oneSample ≠ [] ∧ Ordered [((0 : ℤ), (0 : ℤ))] ∧ Apart [((0 : ℤ), (0 : ℤ))] ∧
      ∃ row, aggregate [(0, 0)] (makeCumulative insertionOrder oneSample) = .ok row ∧
        ¬ PlainSum oneSample [(0, 0)] row := by
  refine ⟨by decide, by decide, by simp [Apart], _, rfl, ?_⟩
  intro h
  exact absurd (h ()) (by decide)

end CProfiler.Tags
