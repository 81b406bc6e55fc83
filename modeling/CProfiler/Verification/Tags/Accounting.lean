import CProfiler.Verification.Tags.Aggregate
import CProfiler.Verification.Tags.Finalizing

/-! Samples of a finalized tag tree against the rows that its ranges own. -/

namespace CProfiler.Tags

open Model Foundation

variable {κ : Type}

/-! ## Subtrees -/

mutual

/-- The tag and its descendants, parents first. -/
def nodes : Tag κ → List (Tag κ)
  | .mk ranges label children samples => .mk ranges label children samples :: nodesAll children

def nodesAll : List (Tag κ) → List (Tag κ)
  | [] => []
  | child :: rest => nodes child ++ nodesAll rest

end

/-- The own ranges of a tag and of all its descendants. -/
def allRanges (t : Tag κ) : List Range := (nodes t).flatMap Tag.ranges

/-- Every own range of the tree is ordered, and every subtree holds a range. -/
def WellFormed (t : Tag κ) : Prop := ∀ s ∈ nodes t, Ordered s.ranges ∧ allRanges s ≠ []

instance (t : Tag κ) : Decidable (WellFormed t) := List.decidableBAll _ _

theorem mem_nodes_self (t : Tag κ) : t ∈ nodes t := by
  cases t
  exact List.mem_cons_self

theorem nodesAll_eq_flatMap (ts : List (Tag κ)) : nodesAll ts = ts.flatMap nodes := by
  induction ts with
  | nil => rfl
  | cons t ts ih => rw [nodesAll, ih, List.flatMap_cons]

theorem nodes_eq (t : Tag κ) : nodes t = t :: t.children.flatMap nodes := by
  cases t with
  | mk ranges label children samples => rw [nodes, nodesAll_eq_flatMap]; rfl

theorem allRanges_eq (t : Tag κ) : allRanges t = t.ranges ++ t.children.flatMap allRanges := by
  rw [allRanges, nodes_eq, List.flatMap_cons, List.flatMap_assoc]
  rfl

theorem WellFormed.child {t s : Tag κ} (h : WellFormed t) (hs : s ∈ t.children) :
    WellFormed s := by
  intro r hr
  refine h r ?_
  rw [nodes_eq]
  exact List.mem_cons_of_mem t (List.mem_flatMap.mpr ⟨s, hs, hr⟩)

mutual

theorem nodes_subset : ∀ (t : Tag κ), ∀ s ∈ nodes t, nodes s ⊆ nodes t
  | .mk ranges label children samples, s, hs => by
      rcases List.mem_cons.mp hs with rfl | hs
      · exact List.Subset.refl _
      · exact List.Subset.trans (nodesAll_subset children s hs) (List.subset_cons_self _ _)

theorem nodesAll_subset : ∀ (ts : List (Tag κ)), ∀ s ∈ nodesAll ts, nodes s ⊆ nodesAll ts
  | [], s, hs => absurd hs List.not_mem_nil
  | t :: ts, s, hs => by
      rcases List.mem_append.mp hs with hs | hs
      · exact List.Subset.trans (nodes_subset t s hs) (List.subset_append_left _ _)
      · exact List.Subset.trans (nodesAll_subset ts s hs) (List.subset_append_right _ _)

end

theorem WellFormed.descendant {t s : Tag κ} (h : WellFormed t) (hs : s ∈ nodes t) :
    WellFormed s := fun r hr => h r (nodes_subset t s hs hr)

theorem WellFormed.ordered {t : Tag κ} (h : WellFormed t) : Ordered (allRanges t) := by
  intro r hr
  obtain ⟨s, hs, hrs⟩ := List.mem_flatMap.mp hr
  exact (h s hs).1 r hrs

/-! ## What finalizing computes -/

/-- A finalized tag holds the merged ranges of its subtree and their contributions. -/
structure Finalized (table : List (Sample κ)) (t t' : Tag κ) : Prop where
  merged : MergeSpec (allRanges t) t'.ranges
  samples : ∃ row, t'.getSamples = some row ∧
    ∀ c, row.counts c = contributions table c t'.ranges

theorem sameSpan_flatMap {table : List (Sample κ)} {ts ts' : List (Tag κ)}
    (h : List.Forall₂ (Finalized table) ts ts') :
    SameSpan (ts'.flatMap Tag.ranges) (ts.flatMap allRanges) ∧
      Ordered (ts'.flatMap Tag.ranges) := by
  induction h with
  | nil => exact ⟨SameSpan.refl _, fun r hr => absurd hr List.not_mem_nil⟩
  | cons hhead _ ih =>
      simp only [List.flatMap_cons]
      refine ⟨hhead.merged.sameSpan.append ih.1, fun r hr => ?_⟩
      exact (List.mem_append.mp hr).elim (hhead.merged.ordered r) (ih.2 r)

variable (order : AddrSort κ) (table : List (Sample κ))

mutual

/-- Finalizing a well-formed tree over a non-empty table succeeds at every tag. -/
theorem finalize_spec (hne : table ≠ []) :
    ∀ t : Tag κ, WellFormed t →
      ∃ t', t.finalize (some (makeCumulative order table)) = .ok t' ∧
        List.Forall₂ (Finalized table) (nodes t) (nodes t')
  | .mk own label children samples, h => by
      obtain ⟨children', hchildren, hlist, hnodes⟩ := finalizeAll_spec hne children fun c hc =>
        h.child (t := .mk own label children samples) hc
      obtain ⟨hspan, hord⟩ := sameSpan_flatMap hlist
      have hself := h _ (mem_nodes_self _)
      have hall := allRanges_eq (.mk own label children samples)
      have hordered : Ordered (own ++ children'.flatMap Tag.ranges) := fun r hr =>
        (List.mem_append.mp hr).elim (hself.1 r) (hord r)
      have hsame : SameSpan (own ++ children'.flatMap Tag.ranges)
          (allRanges (.mk own label children samples)) := by
        rw [hall]
        exact (SameSpan.refl own).append hspan
      have hnonempty : own ++ children'.flatMap Tag.ranges ≠ [] := fun h0 =>
        hself.2 (hsame.eq_nil h0)
      obtain ⟨ranges, hmerge, hspec⟩ := merge_spec _ hnonempty hordered
      obtain ⟨row, hrow, hcounts⟩ := aggregate_spec order table hne ranges hspec.ordered
      have hfeed : Tag.feed ranges (some (makeCumulative order table)) samples =
          .ok (some row) := by
        rw [Tag.feed, hrow]
        rfl
      refine ⟨.mk ranges label children' (some row), ?_, ?_⟩
      · exact finalize_eq_ok_iff.mpr ⟨children', ranges, _, hchildren, hmerge, hfeed, rfl⟩
      · rw [nodes, nodes]
        refine .cons ⟨⟨hspec.sameSpan.trans hsame, hspec.ordered, hspec.separated,
          hspec.significant⟩, row, rfl, hcounts⟩ hnodes

theorem finalizeAll_spec (hne : table ≠ []) :
    ∀ ts : List (Tag κ), (∀ t ∈ ts, WellFormed t) →
      ∃ ts', Tag.finalizeAll (some (makeCumulative order table)) ts = .ok ts' ∧
        List.Forall₂ (Finalized table) ts ts' ∧
        List.Forall₂ (Finalized table) (nodesAll ts) (nodesAll ts')
  | [], _ => ⟨[], rfl, .nil, .nil⟩
  | t :: ts, h => by
      obtain ⟨hhead, htail⟩ := List.forall_mem_cons.mp h
      obtain ⟨t', ht, hnodes⟩ := finalize_spec hne t hhead
      obtain ⟨ts', hts, hlist, hall⟩ := finalizeAll_spec hne ts htail
      refine ⟨t' :: ts', ?_, .cons ?_ hlist, ?_⟩
      · exact finalizeAll_cons_eq_ok_iff.mpr ⟨t', ts', ht, hts, rfl⟩
      · rw [nodes_eq, nodes_eq] at hnodes
        exact (List.forall₂_cons.mp hnodes).1
      · rw [nodesAll, nodesAll]
        exact List.rel_append hnodes hall

end

/-! ## The accounting of a tree -/

/-- The number of separate runs of ranges of the subtree that lie below every sample. -/
def belowCount (t : Tag κ) : ℕ :=
  (runEnds (significant (allRanges t))).countP (fun e => decide (∀ row ∈ table, e < row.addr))

/-- The counter over the rows owned by the subtree, each row once. -/
def owned (t : Tag κ) (c : κ) : ℤ := total table c (Covered (allRanges t))

/-- The counter over the rows owned only by single addresses that do not start the subtree. -/
def dropped (t : Tag κ) (c : κ) : ℤ :=
  total table c (fun a => Covered (allRanges t) a ∧ ¬ Covered (significant (allRanges t)) a)

/-- Every tag of the finalized tree holds, in every column, the sum over its own rows. -/
def Accounted (t t' : Tag κ) : Prop :=
  List.Forall₂ (fun s s' => ∃ row, s'.getSamples = some row ∧ ∀ c, row.counts c = owned table s c)
    (nodes t) (nodes t')

/-- Samples count the owned rows, without the dropped ones, and the whole table once
more for each run of ranges below the first sample. -/
theorem Finalized.counts {t t' : Tag κ} (ho : Ordered (allRanges t)) (h : Finalized table t t')
    (c : κ) :
    contributions table c t'.ranges =
      owned table t c - dropped table t c +
        belowCount table t * (table.map (fun row => row.counts c)).sum := by
  have hcov : ∀ a, Covered t'.ranges a ↔ Covered (significant (allRanges t)) a := by
    intro a
    rw [← h.merged.sameSpan.covered_significant h.merged.ordered ho, h.merged.significant]
  have hspan : ∀ a, Spanned t'.ranges a ↔ Spanned (significant (allRanges t)) a := fun a => by
    rw [spanned_significant, h.merged.sameSpan.spanned]
  have hsub : Ordered (significant (allRanges t)) := fun r hr => ho r (mem_significant.mp hr).1
  have hends := h.merged.separated.ends_perm_runEnds h.merged.ordered hsub hcov hspan
  have hkept : total table c (Covered t'.ranges) = owned table t c - dropped table t c := by
    have hsplit : owned table t c =
        total table c (Covered (significant (allRanges t))) + dropped table t c := by
      rw [dropped, ← sumWhere_or]
      · refine sumWhere_congr fun row _ => ?_
        have := Covered.of_significant (l := allRanges t) (a := row.addr)
        tauto
      · rintro row - ⟨h1, _, h2⟩
        exact h2 h1
    have hcongr : total table c (Covered t'.ranges) =
        total table c (Covered (significant (allRanges t))) :=
      sumWhere_congr fun row _ => hcov row.addr
    omega
  have hbelow : (t'.ranges.map (fun r => wrapped table c (r.2 + 1))).sum =
      belowCount table t * (table.map (fun row => row.counts c)).sum := by
    have hmap := sum_wrapped table c (t'.ranges.map Prod.snd)
    rw [List.map_map, hends.countP_eq] at hmap
    exact hmap
  rw [contributions, List.sum_map_add, sum_total_eq_covered table c h.merged.separated.apart,
    hkept, hbelow]

theorem forall₂_iff_forall {α β : Type*} {R P : α → β → Prop} {Q : α → Prop} {l : List α}
    {m : List β} (h : List.Forall₂ R l m) (hPQ : ∀ a ∈ l, ∀ b, R a b → (P a b ↔ Q a)) :
    List.Forall₂ P l m ↔ ∀ a ∈ l, Q a := by
  induction h with
  | nil => simp
  | cons hab _ ih =>
      obtain ⟨hhead, htail⟩ := List.forall_mem_cons.mp hPQ
      rw [List.forall₂_cons, List.forall_mem_cons, hhead _ hab, ih htail]

/-- Finalizing accounts for every sample exactly when, at every tag and in every column,
the dropped rows sum to the column total times the number of runs below the first sample. -/
theorem finalize_accounted_iff (hne : table ≠ []) (t : Tag κ) (h : WellFormed t) :
    ∃ t', t.finalize (some (makeCumulative order table)) = .ok t' ∧
      (Accounted table t t' ↔ ∀ s ∈ nodes t, ∀ c,
        dropped table s c = belowCount table s * (table.map (fun row => row.counts c)).sum) := by
  obtain ⟨t', hok, hnodes⟩ := finalize_spec order table hne t h
  refine ⟨t', hok, forall₂_iff_forall hnodes fun s hs s' hfin => ?_⟩
  have hcounts := hfin.counts table (h.descendant hs).ordered
  obtain ⟨row, hrow, hrowc⟩ := hfin.samples
  constructor
  · rintro ⟨row', hrow', heq⟩ c
    obtain rfl : row' = row := Option.some.inj (hrow'.symm.trans hrow)
    have h1 := hcounts c
    rw [← hrowc, heq] at h1
    omega
  · intro hzero
    refine ⟨row, hrow, fun c => ?_⟩
    have h1 := hcounts c
    rw [hzero c] at h1
    rw [hrowc, h1]
    omega

/-! ## The tree of the tag view -/

/-- The root of the tag view, with the range `(0, 0)`, over one function. -/
def rootTag : Tag Unit :=
  (Tag.new (some (0, 0)) ['R', 'O', 'O', 'T']).addChild (Tag.new (some (10, 20)) ['f'])

theorem finalize_accounted_iff_rootTag :
    ∃ t', rootTag.finalize (some (makeCumulative insertionOrder oneSample)) = .ok t' ∧
      (Accounted oneSample rootTag t' ↔ ∀ s ∈ nodes rootTag, ∀ c,
        dropped oneSample s c =
          belowCount oneSample s * (oneSample.map (fun row => row.counts c)).sum) :=
  finalize_accounted_iff insertionOrder oneSample (by decide) rootTag (by decide)

/-- The range of the root lies below the sample, which the root counts twice. -/
theorem finalize_rootTag_counts_twice :
    (∀ s ∈ nodes rootTag, s.ranges.length ≤ 1) ∧ WellFormed rootTag ∧ oneSample ≠ [] ∧
      ∃ t', rootTag.finalize (some (makeCumulative insertionOrder oneSample)) = .ok t' ∧
        ¬ Accounted oneSample rootTag t' := by
  refine ⟨by decide, by decide, by decide, _, rfl, ?_⟩
  intro h
  obtain ⟨⟨row, hrow, hcounts⟩, _⟩ := List.forall₂_cons.mp h
  obtain rfl := Option.some.inj hrow
  exact absurd (hcounts ()) (by decide)

end CProfiler.Tags
