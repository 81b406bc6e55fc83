import CProfiler.Verification.Tags.Unfolding

/-! # Finalizing twice

A second `finalize` reads merged ranges together with those of the children they came from. -/

namespace CProfiler.Tags

open Model Foundation TagHeap

variable {κ : Type} {cumulativeDf : Option (List (Sample κ))} {heap heap' heap₁ : TagHeap κ}
  {self : ℕ}

/-! ## Settled ranges -/

/-- The ranges of a tag and of all its descendants are merged. -/
def RangesSettled (heap : TagHeap κ) (t : ℕ) : Prop := AllBelow (childrenOf heap) (Merged heap) t

theorem Settled.ranges {t : ℕ} (h : Settled cumulativeDf heap t) : RangesSettled heap t :=
  h.imp fun _ _ hself => hself.1

/-- Every tag has kept its children and its ranges. -/
structure SameRanges (heap heap' : TagHeap κ) : Prop where
  children : ∀ t, (heap' t).children = (heap t).children
  ranges : ∀ t, (heap' t).ranges = (heap t).ranges

namespace SameRanges

theorem refl (heap : TagHeap κ) : SameRanges heap heap := ⟨fun _ => rfl, fun _ => rfl⟩

theorem trans (h : SameRanges heap heap₁) (h' : SameRanges heap₁ heap') :
    SameRanges heap heap' where
  children t := (h'.children t).trans (h.children t)
  ranges t := (h'.ranges t).trans (h.ranges t)

theorem rangesOf_eq (h : SameRanges heap heap') (children : List ℕ) :
    rangesOf heap' children = rangesOf heap children :=
  rangesOf_congr fun c _ => h.ranges c

theorem childrenOf_eq (h : SameRanges heap heap') : childrenOf heap' = childrenOf heap :=
  funext h.children

theorem rangesSettled (h : SameRanges heap heap') {t : ℕ} (ht : RangesSettled heap t) :
    RangesSettled heap' t := by
  rw [RangesSettled, h.childrenOf_eq]
  refine ht.imp fun u _ hself => ?_
  rw [Merged, h.ranges, h.children, h.rangesOf_eq]
  exact hself

/-- Writing an object with the old children and ranges. -/
theorem update {object : TagObject κ} (hchildren : object.children = (heap self).children)
    (hranges : object.ranges = (heap self).ranges) :
    SameRanges heap (Function.update heap self object) := by
  refine ⟨fun t => ?_, fun t => ?_⟩
  all_goals
    rcases eq_or_ne t self with rfl | hne
    · simp_all
    · simp [hne]

end SameRanges

/-- The loop over children whose ranges are settled collects the ranges that they have. -/
theorem childLoop_same {visit : Visit κ}
    (hvisit : ∀ heap c res heap', RangesSettled heap c → visit heap c = some (res, heap') →
      SameRanges heap heap')
    {childranges : List Range} {children : List ℕ} {res : Except PyError (List Range)}
    (hchildren : ∀ c ∈ children, RangesSettled heap c)
    (h : childLoop visit heap childranges children = some (res, heap')) :
    SameRanges heap heap' ∧
      ∀ ranges, res = .ok ranges → ranges = childranges ++ rangesOf heap children := by
  induction children generalizing heap childranges with
  | nil =>
      cases h
      refine ⟨SameRanges.refl _, fun ranges hranges => ?_⟩
      rw [rangesOf, List.flatMap_nil, List.append_nil]
      exact (Except.ok.inj hranges).symm
  | cons c children ih =>
      rcases List.forall_mem_cons.mp hchildren with ⟨hself, hchildren⟩
      rcases childLoop_cons_iff.mp h with ⟨e, hc, rfl⟩ | ⟨heap₁, hc, h⟩
      · exact ⟨hvisit _ _ _ _ hself hc, by rintro ranges ⟨⟩⟩
      · have hsame := hvisit _ _ _ _ hself hc
        rcases ih (fun c hc => hsame.rangesSettled (hchildren c hc)) h with ⟨hrest, hdone⟩
        refine ⟨hsame.trans hrest, fun ranges hranges => ?_⟩
        rw [hdone ranges hranges, hsame.ranges, hsame.rangesOf_eq, rangesOf, rangesOf,
          List.flatMap_cons, List.append_assoc]

/-- Finalizing a tag whose ranges are settled changes no ranges, whatever it is fed. -/
theorem finalize_same {fuel : ℕ} {res : Except PyError Unit} (hself : RangesSettled heap self)
    (h : TagHeap.finalize cumulativeDf fuel heap self = some (res, heap')) :
    SameRanges heap heap' := by
  induction fuel generalizing heap self res heap' with
  | zero => cases h
  | succ fuel ih =>
      have hvisit : ∀ heap c res heap', RangesSettled heap c →
          TagHeap.finalize cumulativeDf fuel heap c = some (res, heap') →
          SameRanges heap heap' := fun _ _ _ _ => ih
      have hchildren : ∀ c ∈ (heap self).children, RangesSettled heap c := fun c hc =>
        hself.child hc
      have hupdate : ∀ {childranges ranges : List Range} {heap₁ : TagHeap κ},
          childLoop (TagHeap.finalize cumulativeDf fuel) heap [] (heap self).children =
            some (.ok childranges, heap₁) →
          merge ((heap₁ self).ranges ++ childranges) = .ok ranges →
          SameRanges heap heap₁ ∧ ranges = (heap₁ self).ranges := by
        intro childranges ranges heap₁ hloop hmerge
        rcases childLoop_same hvisit hchildren hloop with ⟨hsame, hdone⟩
        rw [hdone childranges rfl, List.nil_append, hsame.ranges] at hmerge
        rw [hsame.ranges]
        exact ⟨hsame, Except.ok.inj (hmerge.symm.trans hself.self)⟩
      cases finalize_succ_iff.mp h with
      | child hloop => exact (childLoop_same hvisit hchildren hloop).1
      | merge hloop hmerge => exact (childLoop_same hvisit hchildren hloop).1
      | feed hloop hmerge hfeed =>
          rcases hupdate hloop hmerge with ⟨hsame, hranges⟩
          exact hsame.trans (SameRanges.update rfl hranges)
      | done hloop hmerge hfeed =>
          rcases hupdate hloop hmerge with ⟨hsame, hranges⟩
          rw [setSamples_setRanges]
          exact hsame.trans (SameRanges.update rfl hranges)

/-! ## A second pass -/

/-- After a `finalize` that returns, a second one of the same tag leaves the ranges of every
tag unchanged, whichever samples it is fed, and it raises for a table without rows only. -/
theorem finalize_idempotent (h : Finalizes cumulativeDf heap self (.ok ()) heap')
    (cumulativeDf' : Option (List (Sample κ))) :
    (∃ res heap'', Finalizes cumulativeDf' heap' self res heap'' ∧
      (res = .ok () ↔ cumulativeDf' ≠ some [])) ∧
    ∀ res heap'', Finalizes cumulativeDf' heap' self res heap'' →
      ∀ tag, (heap'' tag).ranges = (heap' tag).ranges := by
  rcases h with ⟨fuel, hrun⟩
  rcases finalize_keeps hrun with ⟨hkeeps, hsettled⟩
  constructor
  · have hshallow := finalize_shallow hrun
    have htree : (treeAt fuel heap self).finalize cumulativeDf = .ok (treeAt fuel heap' self) :=
      (finalize_unfolds hrun).tree fuel hshallow
    have hleaves : LeavesRanged (treeAt fuel heap' self) := fun s hs _ =>
      finalize_ranged _ _ htree s hs
    rw [← hkeeps.childrenOf_eq] at hshallow
    have hends : ∃ res heap'', TagHeap.finalize cumulativeDf' fuel heap' self =
      some (res, heap'') := exists_finalize_of_shallow hshallow
    rcases hends with ⟨res, heap'', hagain⟩
    refine ⟨res, heap'', ⟨fuel, hagain⟩, ?_⟩
    rw [finalize_returns_iff hagain hshallow]
    exact and_iff_right hleaves
  · rintro res heap'' ⟨fuel', hagain⟩ tag
    exact (finalize_same (hsettled rfl).ranges hagain).ranges tag

/-- Two classes that share the tag of one function, with ranges that overlap, in no order. -/
def sharedFunction : TagHeap Unit
  | 0 => ⟨[], ['R'], [1, 2], none⟩
  | 1 => ⟨[], ['A'], [3], none⟩
  | 2 => ⟨[(90, 80)], ['B'], [3], none⟩
  | _ => ⟨[(64, 79), (16, 31), (20, 70)], ['f'], [], none⟩

theorem finalize_idempotent_sharedFunction :
    ∃ heap', Finalizes none sharedFunction 0 (.ok ()) heap' ∧
      (heap' 0).ranges = [(16, 79)] ∧ (heap' 2).ranges = [(16, 79)] ∧
      ∀ res heap'', Finalizes (some oneSample) heap' 0 res heap'' →
        ∀ tag, (heap'' tag).ranges = (heap' tag).ranges := by
  have hrun : ∃ heap', TagHeap.finalize none 3 sharedFunction 0 = some (.ok (), heap') ∧
      (heap' 0).ranges = [(16, 79)] ∧ (heap' 2).ranges = [(16, 79)] :=
    ⟨_, rfl, by decide, by decide⟩
  rcases hrun with ⟨heap', hrun, hroot, hclass⟩
  exact ⟨heap', ⟨3, hrun⟩, hroot, hclass,
    (finalize_idempotent ⟨3, hrun⟩ (some oneSample)).2⟩

end CProfiler.Tags
