import CProfiler.Verification.Tags.SharedTags

/-! # Shared tags as trees

Whether the children of several parents are one object or copies of it makes no difference:
finalizing over objects returns what finalizing the tree of copies returns. -/

namespace CProfiler.Tags

open Model Foundation TagHeap

variable {κ : Type} {cumulativeDf : Option (List (Sample κ))} {heap heap' heap₁ : TagHeap κ}
  {self : ℕ}

/-! ## Trees of settled tags -/

theorem finalizeAll_congr {f g : ℕ → Tag κ} {children : List ℕ}
    (h : ∀ c ∈ children, (f c).finalize cumulativeDf = (g c).finalize cumulativeDf) :
    Tag.finalizeAll cumulativeDf (children.map f) =
      Tag.finalizeAll cumulativeDf (children.map g) := by
  induction children with
  | nil => rfl
  | cons c children ih =>
      rcases List.forall_mem_cons.mp h with ⟨hc, hchildren⟩
      rw [List.map_cons, List.map_cons, Tag.finalizeAll, Tag.finalizeAll, hc, ih hchildren]

/-- The ranges of the trees are those of the objects, where the depth is enough for one. -/
theorem flatMap_ranges_treeAt {depth : ℕ} {children : List ℕ}
    (h : ∀ c ∈ children, Shallow (childrenOf heap) depth c) :
    (children.map (treeAt depth heap)).flatMap Tag.ranges = rangesOf heap children := by
  rw [List.flatMap_map, rangesOf]
  refine List.flatMap_congr fun c hc => ?_
  cases depth with
  | zero => exact (h c hc).elim
  | succ depth => rfl

/-- The tree of a settled tag is finalized already. -/
theorem finalize_treeAt_settled {depth : ℕ} {t : ℕ} (ht : Settled cumulativeDf heap t)
    (hshallow : Shallow (childrenOf heap) depth t) :
    (treeAt depth heap t).finalize cumulativeDf = .ok (treeAt depth heap t) := by
  induction depth generalizing t with
  | zero => exact hshallow.elim
  | succ depth ih =>
      rcases allBelow_iff.mp ht with ⟨⟨hmerged, hfed⟩, hchildren⟩
      have hranges : ((heap t).children.map (treeAt depth heap)).flatMap Tag.ranges =
          rangesOf heap (heap t).children := flatMap_ranges_treeAt hshallow
      rw [Merged, ← hranges] at hmerged
      exact finalize_eq_ok_iff.mpr ⟨_, _, _,
        finalizeAll_map fun c hc => ih (hchildren c hc) (hshallow c hc), hmerged, hfed, rfl⟩

/-- Over settled children finalizing comes down to merging and feeding. -/
theorem finalize_treeAt_succ {depth : ℕ} {t : ℕ}
    (hchildren : ∀ c ∈ (heap t).children, Settled cumulativeDf heap c)
    (hshallow : ∀ c ∈ (heap t).children, Shallow (childrenOf heap) depth c) :
    (treeAt (depth + 1) heap t).finalize cumulativeDf = (do
      let ranges ← merge ((heap t).ranges ++ rangesOf heap (heap t).children)
      let samples ← Tag.feed ranges cumulativeDf (heap t).samples
      return .mk ranges (heap t).label ((heap t).children.map (treeAt depth heap)) samples) := by
  have hall : Tag.finalizeAll cumulativeDf ((heap t).children.map (treeAt depth heap)) =
      .ok ((heap t).children.map (treeAt depth heap)) :=
    finalizeAll_map fun c hc => finalize_treeAt_settled (hchildren c hc) (hshallow c hc)
  rw [treeAt, Tag.finalize, hall, ← flatMap_ranges_treeAt hshallow]
  rfl

/-- The tree of a settled tag stays. -/
theorem treeAt_of_keeps (h : Keeps cumulativeDf heap heap') {depth : ℕ} {t : ℕ}
    (ht : Settled cumulativeDf heap t) : treeAt depth heap' t = treeAt depth heap t := by
  induction depth generalizing t with
  | zero => rfl
  | succ depth ih =>
      have hmap : (heap t).children.map (treeAt depth heap') =
          (heap t).children.map (treeAt depth heap) :=
        List.map_congr_left fun c hc => ih (ht.child hc)
      rw [treeAt, treeAt, h.settled t ht, hmap]

/-! ## One pass -/

/-- Finalizing the tree of any tag gives the same as before. -/
def SameTrees (cumulativeDf : Option (List (Sample κ))) (heap heap' : TagHeap κ) : Prop :=
  ∀ depth t, Shallow (childrenOf heap) depth t →
    (treeAt depth heap' t).finalize cumulativeDf = (treeAt depth heap t).finalize cumulativeDf

theorem SameTrees.trans (h : SameTrees cumulativeDf heap heap₁)
    (h' : SameTrees cumulativeDf heap₁ heap') (hchildren : childrenOf heap₁ = childrenOf heap) :
    SameTrees cumulativeDf heap heap' := fun depth t ht =>
  (h' depth t (hchildren ▸ ht)).trans (h depth t ht)

/-- Merged ranges in place of the old ones. -/
theorem sameTrees_update {ranges : List Range} {samples : Option (Sample κ)}
    (hchildren : ∀ c ∈ (heap self).children, Settled cumulativeDf heap c)
    (hmerge : merge ((heap self).ranges ++ rangesOf heap (heap self).children) = .ok ranges)
    (hfeed : Tag.feed ranges cumulativeDf samples =
      Tag.feed ranges cumulativeDf (heap self).samples)
    (hself : heap' self = { heap self with ranges := ranges, samples := samples })
    (hother : ∀ t, t ≠ self → heap' t = heap t) : SameTrees cumulativeDf heap heap' := by
  intro depth
  induction depth with
  | zero => exact fun t ht => ht.elim
  | succ depth ih =>
      intro t ht
      have hall : Tag.finalizeAll cumulativeDf ((heap t).children.map (treeAt depth heap')) =
          Tag.finalizeAll cumulativeDf ((heap t).children.map (treeAt depth heap)) :=
        finalizeAll_congr fun c hc => ih c (ht c hc)
      rcases eq_or_ne t self with rfl | hne
      · have hsettled : Tag.finalizeAll cumulativeDf ((heap t).children.map (treeAt depth heap)) =
            .ok ((heap t).children.map (treeAt depth heap)) :=
          finalizeAll_map fun c hc => finalize_treeAt_settled (hchildren c hc) (ht c hc)
        have hranges : ((heap t).children.map (treeAt depth heap)).flatMap Tag.ranges =
            rangesOf heap (heap t).children := flatMap_ranges_treeAt ht
        have hagain : merge (ranges ++ rangesOf heap (heap t).children) = .ok ranges :=
          merge_absorbs hmerge fun r hr => List.mem_append_right _ hr
        rw [treeAt, treeAt, Tag.finalize, Tag.finalize, hself, hall, hsettled]
        simp only [bind, Except.bind, hranges, hmerge, hagain, hfeed]
      · rw [treeAt, treeAt, Tag.finalize, Tag.finalize, hother t hne, hall]

/-- A call that changes the trees as finalizing the tree of its tag does. -/
structure Unfolds (cumulativeDf : Option (List (Sample κ))) (heap : TagHeap κ) (t : ℕ)
    (res : Except PyError Unit) (heap' : TagHeap κ) : Prop where
  same : SameTrees cumulativeDf heap heap'
  tree : ∀ depth, Shallow (childrenOf heap) depth t →
    (treeAt depth heap t).finalize cumulativeDf = res.map fun _ => treeAt depth heap' t

/-- Every call does so. -/
def Unfolding (cumulativeDf : Option (List (Sample κ)))
    (visit : Visit κ) : Prop :=
  ∀ heap t res heap', visit heap t = some (res, heap') → Unfolds cumulativeDf heap t res heap'

section Calls

variable {visit : Visit κ}

theorem childLoop_unfolds (hkeeps : Settling cumulativeDf visit)
    (hvisit : Unfolding cumulativeDf visit) {childranges : List Range} {children : List ℕ}
    {res : Except PyError (List Range)}
    (h : childLoop visit heap childranges children = some (res, heap')) :
    SameTrees cumulativeDf heap heap' ∧ ∀ depth,
      (∀ c ∈ children, Shallow (childrenOf heap) depth c) →
        Tag.finalizeAll cumulativeDf (children.map (treeAt depth heap)) =
          res.map fun _ => children.map (treeAt depth heap') := by
  induction children generalizing heap childranges with
  | nil =>
      cases h
      exact ⟨fun _ _ _ => rfl, fun _ _ => rfl⟩
  | cons c children ih =>
      rcases childLoop_cons_iff.mp h with ⟨e, hc, rfl⟩ | ⟨heap₁, hc, h⟩
      · have hunfolds := hvisit _ _ _ _ hc
        refine ⟨hunfolds.same, fun depth hshallow => ?_⟩
        rw [List.map_cons, Tag.finalizeAll, hunfolds.tree depth (hshallow c List.mem_cons_self)]
        rfl
      · rcases hkeeps _ _ _ _ hc with ⟨hfirst, hsettled⟩
        have hunfolds := hvisit _ _ _ _ hc
        rcases ih h with ⟨hsame, hrest⟩
        have hkept := (childLoop_spec hkeeps h).1
        refine ⟨hunfolds.same.trans hsame hfirst.childrenOf_eq, fun depth hshallow => ?_⟩
        rcases List.forall_mem_cons.mp hshallow with ⟨hself, hchildren⟩
        have hall : Tag.finalizeAll cumulativeDf (children.map (treeAt depth heap)) =
            Tag.finalizeAll cumulativeDf (children.map (treeAt depth heap₁)) :=
          finalizeAll_congr fun c hc => (hunfolds.same depth c (hchildren c hc)).symm
        rw [List.map_cons, Tag.finalizeAll, hunfolds.tree depth hself, hall,
          hrest depth (hfirst.childrenOf_eq ▸ hchildren), List.map_cons,
          treeAt_of_keeps hkept (hsettled rfl)]
        cases res with
        | error e => rfl
        | ok ranges => rfl

/-- The loop has changed no tree, and has settled the children. -/
structure Looped (cumulativeDf : Option (List (Sample κ))) (heap : TagHeap κ) (t : ℕ)
    (childranges : List Range) (heap₁ : TagHeap κ) : Prop where
  same : SameTrees cumulativeDf heap heap₁
  childrenOf_eq : childrenOf heap₁ = childrenOf heap
  settled : ∀ c ∈ (heap₁ t).children, Settled cumulativeDf heap₁ c
  ranges_eq : childranges = rangesOf heap₁ (heap₁ t).children

theorem looped_of_childLoop (hkeeps : Settling cumulativeDf visit)
    (hvisit : Unfolding cumulativeDf visit) {childranges : List Range}
    (h : childLoop visit heap [] (heap self).children = some (.ok childranges, heap₁)) :
    Looped cumulativeDf heap self childranges heap₁ := by
  rcases childLoop_spec hkeeps h with ⟨hkept, hdone⟩
  rcases hdone childranges rfl with ⟨hsettled, hranges⟩
  rw [← hkept.children] at hsettled hranges
  exact ⟨(childLoop_unfolds hkeeps hvisit h).1, hkept.childrenOf_eq, hsettled, hranges⟩

/-- What is written to the tag itself changes no tree either. -/
theorem Outcome.sameTrees (hkeeps : Settling cumulativeDf visit)
    (hvisit : Unfolding cumulativeDf visit) {res : Except PyError Unit}
    (h : Outcome cumulativeDf visit heap self res heap') : SameTrees cumulativeDf heap heap' := by
  cases h with
  | child hloop => exact (childLoop_unfolds hkeeps hvisit hloop).1
  | merge hloop hmerge => exact (childLoop_unfolds hkeeps hvisit hloop).1
  | feed hloop hmerge hfeed =>
      rcases looped_of_childLoop hkeeps hvisit hloop with ⟨hsame, heq, hsettled, rfl⟩
      refine hsame.trans (sameTrees_update hsettled hmerge rfl ?_ ?_) heq
      · exact Function.update_self _ _ _
      · exact fun t ht => Function.update_of_ne ht _ _
  | done hloop hmerge hfeed =>
      rcases looped_of_childLoop hkeeps hvisit hloop with ⟨hsame, heq, hsettled, rfl⟩
      have hagain := (feed_feed hfeed).trans hfeed.symm
      rw [setSamples_setRanges]
      refine hsame.trans (sameTrees_update hsettled hmerge hagain ?_ ?_) heq
      · exact Function.update_self _ _ _
      · exact fun t ht => Function.update_of_ne ht _ _

/-- The tree of the tag is finalized as the tag is, down to the exception. -/
theorem Outcome.unfolds (hkeeps : Settling cumulativeDf visit)
    (hvisit : Unfolding cumulativeDf visit) {res : Except PyError Unit}
    (h : Outcome cumulativeDf visit heap self res heap') :
    Unfolds cumulativeDf heap self res heap' := by
  refine ⟨h.sameTrees hkeeps hvisit, fun depth hshallow => ?_⟩
  cases depth with
  | zero => exact hshallow.elim
  | succ depth =>
      cases h with
      | child hloop =>
          rw [treeAt, Tag.finalize, (childLoop_unfolds hkeeps hvisit hloop).2 depth hshallow]
          rfl
      | merge hloop hmerge =>
          rcases looped_of_childLoop hkeeps hvisit hloop with ⟨hsame, heq, hsettled, rfl⟩
          rw [← heq] at hshallow
          rw [← hsame (depth + 1) self (heq ▸ hshallow),
            finalize_treeAt_succ hsettled hshallow, hmerge]
          rfl
      | feed hloop hmerge hfeed =>
          rcases looped_of_childLoop hkeeps hvisit hloop with ⟨hsame, heq, hsettled, rfl⟩
          rw [← heq] at hshallow
          rw [← hsame (depth + 1) self (heq ▸ hshallow),
            finalize_treeAt_succ hsettled hshallow, hmerge]
          simp only [bind, Except.bind, hfeed]
          rfl
      | done hloop hmerge hfeed =>
          have hdone := Outcome.done hloop hmerge hfeed
          rcases hdone.keeps hkeeps with ⟨hkept, hself⟩
          rw [← hdone.sameTrees hkeeps hvisit (depth + 1) self hshallow]
          exact finalize_treeAt_settled (hself rfl) (hkept.childrenOf_eq ▸ hshallow)

end Calls

theorem unfolding_finalize (cumulativeDf : Option (List (Sample κ))) (fuel : ℕ) :
    Unfolding cumulativeDf (TagHeap.finalize cumulativeDf fuel) := by
  induction fuel with
  | zero =>
      intro heap t res heap' h
      cases h
  | succ fuel ih =>
      exact fun heap t res heap' h =>
        (finalize_succ_iff.mp h).unfolds (settling_finalize cumulativeDf fuel) ih

/-- A call over objects, and the same call over the trees of copies. -/
theorem finalize_unfolds {fuel : ℕ} {res : Except PyError Unit}
    (h : TagHeap.finalize cumulativeDf fuel heap self = some (res, heap')) :
    Unfolds cumulativeDf heap self res heap' :=
  unfolding_finalize cumulativeDf fuel heap self res heap' h

/-- A call that ends returns exactly when every leaf of the tree has a range and no table
without rows is fed. -/
theorem finalize_returns_iff {fuel : ℕ} {res : Except PyError Unit}
    (h : TagHeap.finalize cumulativeDf fuel heap self = some (res, heap'))
    (hshallow : Shallow (childrenOf heap) fuel self) :
    res = .ok () ↔ LeavesRanged (treeAt fuel heap self) ∧ cumulativeDf ≠ some [] := by
  rw [← finalize_ok_iff, (finalize_unfolds h).tree fuel hshallow]
  cases res with
  | error e => simp [Except.map]
  | ok u => simp [Except.map]

end CProfiler.Tags
