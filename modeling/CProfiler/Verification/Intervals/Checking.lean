import CProfiler.Verification.Intervals.Commands

/-! # Checking

What `verify` asserts of a tree follows from what the tree keeps. -/

namespace CProfiler.Intervals

open Foundation Model Model.Intervals

variable {α D : Type} [LinearOrder α]

variable {side : Bool} {x : α} {s : Finset (Interval α D)} {l r : Node α D} {d : ℕ} {b : ℤ}

/-! ## The nodes -/

/-- The center of a child lies on its side of the node. -/
theorem xCenter_further {t : Node α D} (ht : Sound t)
    (hbeyond : ∀ iv ∈ t.sCenter, ends.Beyond side x iv) {p : α} (hp : t.xCenter? = some p) :
    Ends.Further side x p := by
  cases t with
  | nil => exact absurd hp (by simp [Node.xCenter?])
  | node y s' l' r' d' b' =>
      rw [Node.xCenter?, Option.some.injEq] at hp
      subst hp
      rcases ht.1.nonempty with ⟨iv, hiv⟩
      exact (hbeyond iv hiv).further (ht.1.holds iv hiv)

variable [LinearOrder D]

/-- The assertions of `verify` hold when no interval reaches over a node above it. -/
theorem verify_node {t : Node α D} (ht : Sound t) (ho : Ordered t) (hb : Balanced t)
    {parents : Finset α} (hparents : ∀ iv ∈ t.allChildren, ∀ p ∈ parents, ¬ ends.Holds iv p) :
    t.verify parents = true := by
  induction t generalizing parents with
  | nil => rfl
  | node x s l r d b ihl ihr =>
      rcases ht with ⟨hx, ⟨_, hbalance⟩, hl, hr⟩
      rcases ho with ⟨hbeyondl, hbeyondr, hol, hor⟩
      rcases hb with ⟨hfit, hbl, hbr⟩
      have hsubl : l.allChildren ⊆ (Node.node x s l r d b).allChildren :=
        Finset.subset_union_right.trans Finset.subset_union_left
      have hsubr : r.allChildren ⊆ (Node.node x s l r d b).allChildren := Finset.subset_union_right
      have hsmall : b.natAbs < 2 := by omega
      have hcenter : ∀ iv ∈ s, iv.begin < iv.end_ ∧ iv.containsPoint x = true ∧
          ∀ parent ∈ parents, iv.containsPoint parent = false := by
        intro iv hiv
        refine ⟨(hx.holds iv hiv).lt, containsPoint_iff.mpr (hx.holds iv hiv), fun p hp => ?_⟩
        rw [← Bool.not_eq_true, containsPoint_iff]
        exact hparents iv (sCenter_subset _ hiv) p hp
      have hleft : l.xCenter?.all (fun leftX => decide (leftX < x)) = true := by
        cases hp : l.xCenter? with
        | none => rfl
        | some p => exact decide_eq_true (xCenter_further hl
            (fun iv hiv => hbeyondl iv (sCenter_subset l hiv)) hp)
      have hright : r.xCenter?.all (fun rightX => decide (rightX > x)) = true := by
        cases hp : r.xCenter? with
        | none => rfl
        | some p => exact decide_eq_true (xCenter_further hr
            (fun iv hiv => hbeyondr iv (sCenter_subset r hiv)) hp)
      have hbelow : ∀ (side : Bool) (t : Node α D),
          t.allChildren ⊆ (Node.node x s l r d b).allChildren →
          (∀ iv ∈ t.allChildren, ends.Beyond side x iv) →
            ∀ iv ∈ t.allChildren, ∀ p ∈ insert x parents, ¬ ends.Holds iv p := by
        intro side t hsub hbeyond iv hiv p hp
        rcases Finset.mem_insert.mp hp with rfl | hp
        · exact (hbeyond iv hiv).not_holds
        · exact hparents iv (hsub hiv) p hp
      rw [Node.verify, ihl hl hol hbl (hbelow false l hsubl hbeyondl),
        ihr hr hor hbr (hbelow true r hsubr hbeyondr), hleft, hright]
      simp only [Bool.and_true, Bool.and_eq_true, decide_eq_true_eq]
      exact ⟨⟨⟨hsmall, hbalance⟩, hx.nonempty⟩, hcenter⟩

/-! ## The tree -/

/-- `verify` finds nothing wrong with a balanced tree of separated ranges. -/
theorem verify_exact {t : IntervalTree α D} (h : Exact t) (hb : Balanced t.topNode) :
    t.verify = true := by
  have htable := h.counts.entries_eq (counts_sort t.allIntervals)
  rw [IntervalTree.verify]
  by_cases hne : t.allIntervals.Nonempty
  · rw [if_pos hne, verify_node h.sound h.ordered hb
      (fun _ _ p hp => absurd hp (Finset.notMem_empty p))]
    simp only [Bool.and_true, Bool.and_eq_true, decide_eq_true_eq]
    refine ⟨⟨h.content, fun iv hiv => ?_⟩, htable⟩
    rw [← Bool.not_eq_true, isNull_eq_true_iff, not_not]
    exact h.proper iv hiv
  · have hempty := Finset.not_nonempty_iff_eq_empty.mp hne
    rw [if_neg hne, h.isNone_iff.mpr hempty, htable, hempty, Finset.sort_empty]
    rfl

end CProfiler.Intervals
