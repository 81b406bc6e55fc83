import CProfiler.Foundation.SharedTrees
import CProfiler.Model.TagHeap
import CProfiler.Verification.Tags.Absorption
import CProfiler.Verification.Tags.Building

/-! # Shared tags

Finalizing over objects: a tag that has been finalized, with all its descendants, is settled,
and no later `finalize` of any tag changes it. -/

namespace CProfiler.Tags

open Model Foundation TagHeap

variable {κ : Type} {cumulativeDf : Option (List (Sample κ))} {heap heap' heap₁ : TagHeap κ}
  {self : ℕ}

/-! ## One call -/

/-- How a call ends that visits the children by `visit`: an error of a child, of `merge` or of
`feed`, or the new ranges and samples. -/
inductive Outcome (cumulativeDf : Option (List (Sample κ))) (visit : Visit κ) (heap : TagHeap κ)
    (self : ℕ) : Except PyError Unit → TagHeap κ → Prop
  | child {e : PyError} {heap₁ : TagHeap κ}
      (hloop : childLoop visit heap [] (heap self).children = some (.error e, heap₁)) :
      Outcome cumulativeDf visit heap self (.error e) heap₁
  | merge {childranges : List Range} {e : PyError} {heap₁ : TagHeap κ}
      (hloop : childLoop visit heap [] (heap self).children = some (.ok childranges, heap₁))
      (hmerge : Model.merge ((heap₁ self).ranges ++ childranges) = .error e) :
      Outcome cumulativeDf visit heap self (.error e) heap₁
  | feed {childranges ranges : List Range} {e : PyError} {heap₁ : TagHeap κ}
      (hloop : childLoop visit heap [] (heap self).children = some (.ok childranges, heap₁))
      (hmerge : Model.merge ((heap₁ self).ranges ++ childranges) = .ok ranges)
      (hfeed : Tag.feed ranges cumulativeDf (heap₁ self).samples = .error e) :
      Outcome cumulativeDf visit heap self (.error e) (heap₁.setRanges self ranges)
  | done {childranges ranges : List Range} {samples : Option (Sample κ)} {heap₁ : TagHeap κ}
      (hloop : childLoop visit heap [] (heap self).children = some (.ok childranges, heap₁))
      (hmerge : Model.merge ((heap₁ self).ranges ++ childranges) = .ok ranges)
      (hfeed : Tag.feed ranges cumulativeDf (heap₁ self).samples = .ok samples) :
      Outcome cumulativeDf visit heap self (.ok ())
        ((heap₁.setRanges self ranges).setSamples self samples)

/-- The loop ends at the first child, or goes on behind it. -/
theorem childLoop_cons_iff {visit : Visit κ} {childranges : List Range} {c : ℕ}
    {children : List ℕ} {res : Except PyError (List Range)} :
    childLoop visit heap childranges (c :: children) = some (res, heap') ↔
      (∃ e, visit heap c = some (.error e, heap') ∧ res = .error e) ∨
        ∃ heap₁, visit heap c = some (.ok (), heap₁) ∧
          childLoop visit heap₁ (childranges ++ (heap₁ c).ranges) children = some (res, heap') := by
  rw [childLoop]
  cases hvisit : visit heap c with
  | none => simp
  | some outcome =>
      rcases outcome with ⟨e | u, heap₁⟩
      · simp [eq_comm, and_comm]
      · simp

@[simp] theorem samples_setRanges (ranges : List Range) :
    ((heap.setRanges self ranges) self).samples = (heap self).samples := by
  simp [setRanges]

theorem finalize_succ_iff {fuel : ℕ} {res : Except PyError Unit} :
    TagHeap.finalize cumulativeDf (fuel + 1) heap self = some (res, heap') ↔
      Outcome cumulativeDf (TagHeap.finalize cumulativeDf fuel) heap self res heap' := by
  rw [TagHeap.finalize]
  constructor
  · intro h
    split at h
    · cases h
    · rename_i e heap₁ hloop
      cases h
      exact .child hloop
    · rename_i childranges heap₁ hloop
      split at h
      · rename_i e hmerge
        cases h
        exact .merge hloop hmerge
      · rename_i ranges hmerge
        simp only [samples_setRanges] at h
        split at h
        · rename_i e hfeed
          cases h
          exact .feed hloop hmerge hfeed
        · rename_i samples hfeed
          cases h
          exact .done hloop hmerge hfeed
  · intro h
    cases h with
    | child hloop => simp only [hloop]
    | merge hloop hmerge => simp only [hloop, hmerge]
    | feed hloop hmerge hfeed => simp only [hloop, hmerge, samples_setRanges, hfeed]
    | done hloop hmerge hfeed => simp only [hloop, hmerge, samples_setRanges, hfeed]

/-! ## Settled tags -/

/-- The references to the children of every tag. -/
def childrenOf (heap : TagHeap κ) (t : ℕ) : List ℕ := (heap t).children

/-- The ranges of the children, one after another. -/
def rangesOf (heap : TagHeap κ) (children : List ℕ) : List Range :=
  children.flatMap fun c => (heap c).ranges

/-- Merging the ranges of a tag with those of its children returns its ranges. -/
def Merged (heap : TagHeap κ) (t : ℕ) : Prop :=
  merge ((heap t).ranges ++ rangesOf heap (heap t).children) = .ok (heap t).ranges

/-- Feeding a tag returns its samples. -/
def Fed (cumulativeDf : Option (List (Sample κ))) (heap : TagHeap κ) (t : ℕ) : Prop :=
  Tag.feed (heap t).ranges cumulativeDf (heap t).samples = .ok (heap t).samples

/-- A tag and all its descendants are as finalizing leaves them. -/
def Settled (cumulativeDf : Option (List (Sample κ))) (heap : TagHeap κ) (t : ℕ) : Prop :=
  AllBelow (childrenOf heap) (fun u => Merged heap u ∧ Fed cumulativeDf heap u) t

/-- Settled tags stay as they are, and the others keep their children and labels. -/
structure Keeps (cumulativeDf : Option (List (Sample κ))) (heap heap' : TagHeap κ) : Prop where
  children : ∀ t, (heap' t).children = (heap t).children
  label : ∀ t, (heap' t).label = (heap t).label
  settled : ∀ t, Settled cumulativeDf heap t → heap' t = heap t

theorem rangesOf_congr {children : List ℕ}
    (h : ∀ c ∈ children, (heap' c).ranges = (heap c).ranges) :
    rangesOf heap' children = rangesOf heap children :=
  List.flatMap_congr h

namespace Keeps

theorem childrenOf_eq (h : Keeps cumulativeDf heap heap') : childrenOf heap' = childrenOf heap :=
  funext h.children

theorem settled_of (h : Keeps cumulativeDf heap heap') {t : ℕ}
    (ht : Settled cumulativeDf heap t) : Settled cumulativeDf heap' t := by
  rw [Settled, h.childrenOf_eq]
  refine ht.imp fun u hu hself => ?_
  have hranges : rangesOf heap' (heap u).children = rangesOf heap (heap u).children :=
    rangesOf_congr fun c hc => by rw [h.settled c (hu.child hc)]
  rw [Merged, Fed, h.settled u hu, hranges]
  exact hself

theorem refl (heap : TagHeap κ) : Keeps cumulativeDf heap heap :=
  ⟨fun _ => rfl, fun _ => rfl, fun _ _ => rfl⟩

theorem trans (h : Keeps cumulativeDf heap heap₁) (h' : Keeps cumulativeDf heap₁ heap') :
    Keeps cumulativeDf heap heap' where
  children t := (h'.children t).trans (h.children t)
  label t := (h'.label t).trans (h.label t)
  settled t ht := (h'.settled t (h.settled_of ht)).trans (h.settled t ht)

/-- Writing an object that is the old one where that is settled. -/
theorem update {object : TagObject κ} (hchildren : object.children = (heap self).children)
    (hlabel : object.label = (heap self).label)
    (hsettled : Settled cumulativeDf heap self → object = heap self) :
    Keeps cumulativeDf heap (Function.update heap self object) := by
  refine ⟨fun t => ?_, fun t => ?_, fun t ht => ?_⟩
  all_goals
    rcases eq_or_ne t self with rfl | hne
    · simp_all
    · simp [hne]

end Keeps

/-! ## One pass -/

theorem feed_feed {ranges : List Range} {samples samples' : Option (Sample κ)}
    (h : Tag.feed ranges cumulativeDf samples = .ok samples') :
    Tag.feed ranges cumulativeDf samples' = .ok samples' := by
  cases cumulativeDf with
  | none => rfl
  | some df => exact h

theorem setSamples_setRanges (ranges : List Range) (samples : Option (Sample κ)) :
    (heap.setRanges self ranges).setSamples self samples =
      Function.update heap self { heap self with ranges := ranges, samples := samples } := by
  simp [setRanges, setSamples]

/-- Every call keeps what is settled, and settles its tag when it returns. -/
def Settling (cumulativeDf : Option (List (Sample κ)))
    (visit : Visit κ) : Prop :=
  ∀ heap t res heap', visit heap t = some (res, heap') →
    Keeps cumulativeDf heap heap' ∧ (res = .ok () → Settled cumulativeDf heap' t)

/-- The loop keeps what is settled, and ends with settled children and their ranges. -/
theorem childLoop_spec {visit : Visit κ} (hvisit : Settling cumulativeDf visit)
    {childranges : List Range} {children : List ℕ} {res : Except PyError (List Range)}
    (h : childLoop visit heap childranges children = some (res, heap')) :
    Keeps cumulativeDf heap heap' ∧ ∀ ranges, res = .ok ranges →
      (∀ c ∈ children, Settled cumulativeDf heap' c) ∧
        ranges = childranges ++ rangesOf heap' children := by
  induction children generalizing heap childranges with
  | nil =>
      cases h
      refine ⟨Keeps.refl _, fun ranges hranges => ⟨by simp, ?_⟩⟩
      rw [rangesOf, List.flatMap_nil, List.append_nil]
      exact (Except.ok.inj hranges).symm
  | cons c children ih =>
      rcases childLoop_cons_iff.mp h with ⟨e, hc, rfl⟩ | ⟨heap₁, hc, h⟩
      · refine ⟨(hvisit _ _ _ _ hc).1, ?_⟩
        rintro ranges ⟨⟩
      · rcases hvisit _ _ _ _ hc with ⟨hkeeps, hsettled⟩
        rcases ih h with ⟨hrest, hdone⟩
        refine ⟨hkeeps.trans hrest, fun ranges hranges => ?_⟩
        rcases hdone ranges hranges with ⟨hchildren, heq⟩
        have hself := hsettled rfl
        refine ⟨List.forall_mem_cons.mpr ⟨hrest.settled_of hself, hchildren⟩, ?_⟩
        rw [heq, rangesOf, rangesOf, List.flatMap_cons, hrest.settled c hself, List.append_assoc]

/-- The tag itself, once its children are settled. -/
theorem settled_update {ranges : List Range} {samples : Option (Sample κ)}
    (hchildren : ∀ c ∈ (heap self).children, Settled cumulativeDf heap c)
    (hmerge : merge ((heap self).ranges ++ rangesOf heap (heap self).children) = .ok ranges)
    (hfeed : Tag.feed ranges cumulativeDf (heap self).samples = .ok samples) :
    let heap' := Function.update heap self { heap self with ranges := ranges, samples := samples }
    Keeps cumulativeDf heap heap' ∧ Settled cumulativeDf heap' self := by
  intro heap'
  have hkeeps : Keeps cumulativeDf heap heap' := by
    refine Keeps.update rfl rfl fun hself => ?_
    rcases hself.self with ⟨hmerged, hfed⟩
    obtain rfl := Except.ok.inj (hmerge.symm.trans hmerged)
    obtain rfl := Except.ok.inj (hfeed.symm.trans hfed)
    rfl
  have hself : heap' self = { heap self with ranges := ranges, samples := samples } :=
    Function.update_self _ _ _
  refine ⟨hkeeps, allBelow_iff.mpr ⟨⟨?_, ?_⟩, fun c hc => hkeeps.settled_of (hchildren c ?_)⟩⟩
  · have hranges : rangesOf heap' (heap self).children = rangesOf heap (heap self).children :=
      rangesOf_congr fun c hc => by rw [hkeeps.settled c (hchildren c hc)]
    rw [Merged, hself, hranges]
    exact merge_absorbs hmerge fun r hr => List.mem_append_right _ hr
  · rw [Fed, hself]
    exact feed_feed hfeed
  · rwa [childrenOf, hkeeps.children] at hc

/-- A call keeps what is settled and settles its tag if the calls for its children do so. -/
theorem Outcome.keeps {visit : Visit κ}
    (hvisit : Settling cumulativeDf visit) {res : Except PyError Unit}
    (h : Outcome cumulativeDf visit heap self res heap') :
    Keeps cumulativeDf heap heap' ∧ (res = .ok () → Settled cumulativeDf heap' self) := by
  cases h with
  | child hloop => exact ⟨(childLoop_spec hvisit hloop).1, by rintro ⟨⟩⟩
  | merge hloop hmerge => exact ⟨(childLoop_spec hvisit hloop).1, by rintro ⟨⟩⟩
  | @feed childranges ranges e heap₁ hloop hmerge hfeed =>
      rcases childLoop_spec hvisit hloop with ⟨hkeeps, hdone⟩
      refine ⟨hkeeps.trans (Keeps.update rfl rfl fun hself => ?_), by rintro ⟨⟩⟩
      rcases hdone childranges rfl with ⟨-, rfl⟩
      rw [List.nil_append, ← hkeeps.children] at hmerge
      rw [Except.ok.inj (hmerge.symm.trans hself.self.1)]
  | @done childranges ranges samples heap₁ hloop hmerge hfeed =>
      rcases childLoop_spec hvisit hloop with ⟨hkeeps, hdone⟩
      rcases hdone childranges rfl with ⟨hchildren, rfl⟩
      rw [List.nil_append, ← hkeeps.children] at hmerge
      rw [← hkeeps.children] at hchildren
      rw [setSamples_setRanges]
      rcases settled_update hchildren hmerge hfeed with ⟨hupdate, hself⟩
      exact ⟨hkeeps.trans hupdate, fun _ => hself⟩

theorem settling_finalize (cumulativeDf : Option (List (Sample κ))) (fuel : ℕ) :
    Settling cumulativeDf (TagHeap.finalize cumulativeDf fuel) := by
  induction fuel with
  | zero =>
      intro heap t res heap' h
      cases h
  | succ fuel ih => exact fun heap t res heap' h => (finalize_succ_iff.mp h).keeps ih

/-- One call keeps what is settled, and settles the tag when it returns. -/
theorem finalize_keeps {fuel : ℕ} {res : Except PyError Unit}
    (h : TagHeap.finalize cumulativeDf fuel heap self = some (res, heap')) :
    Keeps cumulativeDf heap heap' ∧ (res = .ok () → Settled cumulativeDf heap' self) :=
  settling_finalize cumulativeDf fuel heap self res heap' h

/-- What returns has only paths that the fuel bounds. -/
theorem finalize_shallow {fuel : ℕ}
    (h : TagHeap.finalize cumulativeDf fuel heap self = some (.ok (), heap')) :
    Shallow (childrenOf heap) fuel self := by
  induction fuel generalizing heap self heap' with
  | zero => cases h
  | succ fuel ih =>
      have hloop : ∀ (children : List ℕ) (heap heap' : TagHeap κ) (acc ranges : List Range),
          childLoop (TagHeap.finalize cumulativeDf fuel) heap acc children =
            some (.ok ranges, heap') →
          ∀ c ∈ children, Shallow (childrenOf heap) fuel c := by
        intro children
        induction children with
        | nil => exact fun _ _ _ _ _ c hc => absurd hc List.not_mem_nil
        | cons c children ihc =>
            intro heap heap' acc ranges hloop
            rcases childLoop_cons_iff.mp hloop with ⟨e, -, herror⟩ | ⟨heap₁, hc, hloop⟩
            · cases herror
            · have hrest := ihc _ _ _ _ hloop
              rw [(finalize_keeps hc).1.childrenOf_eq] at hrest
              exact List.forall_mem_cons.mpr ⟨ih hc, hrest⟩
      cases finalize_succ_iff.mp h with
      | done hchildren _ _ => exact hloop _ _ _ _ _ hchildren

/-- Where the fuel bounds every path, a call ends. -/
theorem exists_finalize_of_shallow {fuel : ℕ} (h : Shallow (childrenOf heap) fuel self) :
    ∃ res heap', TagHeap.finalize cumulativeDf fuel heap self = some (res, heap') := by
  induction fuel generalizing heap self with
  | zero => exact h.elim
  | succ fuel ih =>
      have hloop : ∀ (children : List ℕ) (heap : TagHeap κ) (acc : List Range),
          (∀ c ∈ children, Shallow (childrenOf heap) fuel c) →
          ∃ res heap', childLoop (TagHeap.finalize cumulativeDf fuel) heap acc children =
            some (res, heap') := by
        intro children
        induction children with
        | nil => exact fun heap acc _ => ⟨_, heap, rfl⟩
        | cons c children ihc =>
            intro heap acc hall
            rcases List.forall_mem_cons.mp hall with ⟨hc, hall⟩
            rcases ih hc with ⟨res, heap₁, hrun⟩
            cases res with
            | error e => exact ⟨_, _, childLoop_cons_iff.mpr (.inl ⟨e, hrun, rfl⟩)⟩
            | ok u =>
                rw [← (finalize_keeps hrun).1.childrenOf_eq] at hall
                rcases ihc heap₁ (acc ++ (heap₁ c).ranges) hall with ⟨res, heap', hrest⟩
                exact ⟨res, heap', childLoop_cons_iff.mpr (.inr ⟨heap₁, hrun, hrest⟩)⟩
      rcases hloop (heap self).children heap [] h with ⟨loop, heap₁, hrun⟩
      cases loop with
      | error e => exact ⟨_, _, finalize_succ_iff.mpr (.child hrun)⟩
      | ok childranges =>
          cases hmerge : merge ((heap₁ self).ranges ++ childranges) with
          | error e => exact ⟨_, _, finalize_succ_iff.mpr (.merge hrun hmerge)⟩
          | ok ranges =>
              cases hfeed : Tag.feed ranges cumulativeDf (heap₁ self).samples with
              | error e => exact ⟨_, _, finalize_succ_iff.mpr (.feed hrun hmerge hfeed)⟩
              | ok samples => exact ⟨_, _, finalize_succ_iff.mpr (.done hrun hmerge hfeed)⟩

end CProfiler.Tags
