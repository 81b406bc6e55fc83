import CProfiler.Foundation.Ranges
import CProfiler.Model.Tags

/-! Merging of address ranges: what the loop keeps of the ranges it reads. -/

namespace CProfiler.Tags

open Model Foundation

/-- Merged ranges are separated and ordered. They keep the half-open covers and the
least start of the input, and each of them contains two addresses or starts first. -/
structure MergeSpec (input output : List Range) : Prop where
  sameSpan : SameSpan output input
  ordered : Ordered output
  separated : Separated output
  significant : significant output = output

theorem sortByStart_perm (l : List Range) : (sortByStart l).Perm l :=
  List.perm_insertionSort _ l

theorem sortByStart_sorted (l : List Range) :
    (sortByStart l).Pairwise (fun x y => x.1 ≤ y.1) := by
  have : Std.Total (fun x y : Range => x.1 ≤ y.1) := ⟨fun x y => le_total x.1 y.1⟩
  have : IsTrans Range (fun x y => x.1 ≤ y.1) := ⟨fun _ _ _ => le_trans⟩
  exact List.pairwise_insertionSort _ l

theorem sortByStart_eq_cons {l : List Range} (h : l ≠ []) :
    ∃ first rest, sortByStart l = first :: rest :=
  List.exists_cons_of_ne_nil fun hnil => h (List.nil_perm.mp (hnil ▸ sortByStart_perm l))

theorem merge_of_sorted {l rest : List Range} {first : Range}
    (h : sortByStart l = first :: rest) : merge l = .ok (mergeLoop first rest) := by
  rw [merge, h]

theorem mergeLoop_ne_nil (last : Range) (rest : List Range) : mergeLoop last rest ≠ [] := by
  induction rest generalizing last with
  | nil => simp [mergeLoop]
  | cons r rest ih =>
      rw [mergeLoop]
      split
      · exact ih _
      · split
        · simp
        · exact ih _

/-- Merging fails only on the empty list, and never returns it. -/
theorem merge_ok {l : List Range} (h : l ≠ []) : ∃ m, merge l = .ok m ∧ m ≠ [] := by
  rcases sortByStart_eq_cons h with ⟨first, rest, hsort⟩
  exact ⟨_, merge_of_sorted hsort, mergeLoop_ne_nil first rest⟩

theorem merge_ok_iff (l : List Range) : (∃ m, merge l = .ok m) ↔ l ≠ [] := by
  constructor
  · rintro ⟨m, hm⟩ rfl
    cases hm
  · intro h
    rcases merge_ok h with ⟨m, hm, -⟩
    exact ⟨m, hm⟩

theorem merge_ne_nil {l m : List Range} (h : merge l = .ok m) : m ≠ [] := by
  rcases merge_ok ((merge_ok_iff l).mp ⟨m, h⟩) with ⟨m', hm', hne⟩
  obtain rfl := Except.ok.inj (h.symm.trans hm')
  exact hne

/-- The loop of `merge` on starts in ascending order. The first range of the result
keeps the carried start, and the ranges after it are wide. -/
theorem mergeLoop_spec (a b : ℤ) (rest : List Range) (hab : a ≤ b) (ho : Ordered rest)
    (hs : rest.Pairwise (fun x y => x.1 ≤ y.1)) (ha : ∀ r ∈ rest, a ≤ r.1) :
    ∃ e tail, mergeLoop (a, b) rest = (a, e) :: tail ∧ b ≤ e ∧
      (∀ r ∈ tail, e < r.1 ∧ r.1 < r.2) ∧ Separated tail ∧
      SameSpan ((a, e) :: tail) ((a, b) :: rest) := by
  induction rest generalizing a b with
  | nil => exact ⟨b, [], rfl, le_rfl, by simp, List.Pairwise.nil, SameSpan.refl _⟩
  | cons r rest ih =>
      obtain ⟨c, d⟩ := r
      obtain ⟨hc, hs⟩ := List.pairwise_cons.mp hs
      obtain ⟨hac, ha⟩ := List.forall_mem_cons.mp ha
      obtain ⟨hcd, ho⟩ := List.forall_mem_cons.mp ho
      rw [mergeLoop]
      by_cases hjoin : c ≤ b ∧ b < d
      · rw [if_pos hjoin]
        obtain ⟨e, tail, hout, hde, htail, hsep, hspan⟩ := ih a d (hac.trans hcd) ho hs ha
        exact ⟨e, tail, hout, hjoin.2.le.trans hde, htail, hsep,
          hspan.trans (SameSpan.hull hac hjoin.1 hjoin.2 rest)⟩
      rw [if_neg hjoin]
      by_cases hnew : b < c ∧ c < d
      · rw [if_pos hnew]
        obtain ⟨e, tail, hout, hde, htail, hsep, hspan⟩ := ih c d hcd ho hs hc
        refine ⟨b, (c, e) :: tail, by rw [hout], le_rfl, ?_, ?_, hspan.cons (a, b)⟩
        · refine List.forall_mem_cons.mpr ⟨⟨hnew.1, hnew.2.trans_le hde⟩, fun r hr => ?_⟩
          exact ⟨hnew.1.trans ((hnew.2.trans_le hde).trans (htail r hr).1), (htail r hr).2⟩
        · exact List.pairwise_cons.mpr ⟨fun r hr => (htail r hr).1, hsep⟩
      · rw [if_neg hnew]
        obtain ⟨e, tail, hout, hbe, htail, hsep, hspan⟩ := ih a b hab ho hs ha
        -- With `c ≤ d` the dropped range is a single address or ends at `b` at the latest.
        exact ⟨e, tail, hout, hbe, htail, hsep,
          hspan.trans (SameSpan.absorb hac (by omega) rest)⟩

/-- `merge` succeeds on every non-empty list of ordered ranges. -/
theorem merge_spec (l : List Range) (hne : l ≠ []) (ho : Ordered l) :
    ∃ m, merge l = .ok m ∧ MergeSpec l m := by
  have hperm := sortByStart_perm l
  have hsorted := sortByStart_sorted l
  obtain ⟨⟨a, b⟩, rest, hsort⟩ := sortByStart_eq_cons hne
  rw [hsort] at hperm hsorted
  obtain ⟨ha, hs⟩ := List.pairwise_cons.mp hsorted
  have hord : Ordered ((a, b) :: rest) := fun r hr => ho r (hperm.mem_iff.mp hr)
  obtain ⟨hab, hrest⟩ := List.forall_mem_cons.mp hord
  obtain ⟨e, tail, hout, hbe, htail, hsep, hspan⟩ := mergeLoop_spec a b rest hab hrest hs ha
  refine ⟨(a, e) :: tail, (merge_of_sorted hsort).trans (congrArg _ hout), ?_, ?_, ?_, ?_⟩
  · exact hspan.trans (SameSpan.of_perm hperm)
  · exact List.forall_mem_cons.mpr ⟨hab.trans hbe, fun r hr => (htail r hr).2.le⟩
  · exact List.pairwise_cons.mpr ⟨fun r hr => (htail r hr).1, hsep⟩
  · refine List.filter_eq_self.mpr (List.forall_mem_cons.mpr ⟨?_, fun r hr => ?_⟩)
    · refine decide_eq_true (.inr (List.forall_mem_cons.mpr ⟨le_rfl, fun s hs => ?_⟩))
      exact (hab.trans hbe).trans (htail s hs).1.le
    · exact decide_eq_true (.inl (htail r hr).2)

/-! ## The union -/

/-- The output starts in strictly ascending order, no two of its ranges share an
address, and together they cover the addresses of the input. -/
structure UnionOf (input output : List Range) : Prop where
  starts : output.Pairwise (fun x y => x.1 < y.1)
  apart : Apart output
  covered : ∀ a, Covered output a ↔ Covered input a

/-- `merge` computes the union exactly when every one-address range starts where the
list starts or lies in a longer range: the loop passes over it otherwise. -/
theorem merge_union_iff (l : List Range) (hne : l ≠ []) (ho : Ordered l) :
    ∃ m, merge l = .ok m ∧
      (UnionOf l m ↔ ∀ r ∈ l, r.1 = r.2 →
        (∀ s ∈ l, r.1 ≤ s.1) ∨ ∃ s ∈ l, s.1 < s.2 ∧ s.1 ≤ r.1 ∧ r.1 ≤ s.2) := by
  obtain ⟨m, hok, hspec⟩ := merge_spec l hne ho
  have hcov : ∀ a, Covered m a ↔ Covered (significant l) a := by
    intro a
    rw [← hspec.sameSpan.covered_significant hspec.ordered ho, hspec.significant]
  refine ⟨m, hok, ?_⟩
  rw [← covered_significant_iff_covered ho]
  constructor
  · intro h a
    rw [← hcov, h.covered]
  · intro h
    refine ⟨hspec.separated.starts hspec.ordered, hspec.separated.apart, fun a => ?_⟩
    rw [hcov, h]

theorem merge_union_iff_docstring :
    ∃ m, merge [(1, 2), (2, 3), (5, 6)] = .ok m ∧
      (UnionOf [(1, 2), (2, 3), (5, 6)] m ↔ ∀ r ∈ [((1 : ℤ), (2 : ℤ)), (2, 3), (5, 6)], r.1 = r.2 →
        (∀ s ∈ [((1 : ℤ), (2 : ℤ)), (2, 3), (5, 6)], r.1 ≤ s.1) ∨
          ∃ s ∈ [((1 : ℤ), (2 : ℤ)), (2, 3), (5, 6)], s.1 < s.2 ∧ s.1 ≤ r.1 ∧ r.1 ≤ s.2) :=
  merge_union_iff _ (by decide) (by decide)

/-- The address `5` is in no range of the result. -/
theorem merge_drops_single_address :
    Ordered [((1 : ℤ), (2 : ℤ)), (5, 5)] ∧
      ∃ m, merge [(1, 2), (5, 5)] = .ok m ∧ ¬ UnionOf [(1, 2), (5, 5)] m := by
  refine ⟨by decide, [(1, 2)], rfl, ?_⟩
  intro h
  exact absurd ((h.covered 5).mpr (by decide)) (by decide)

end CProfiler.Tags
