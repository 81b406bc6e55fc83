import CProfiler.Verification.Intervals.Commands

/-! # Merging

`merge_overlaps` and `merge_equals` go through the sorted intervals and extend the last interval of
the result or begin another one. What they leave is described by the ranges and, for the data, by
the intervals that went into each. -/

namespace CProfiler.Intervals

open Foundation Model Model.Intervals

variable {α D : Type} [LinearOrder α]

/-! ## The loop -/

section Loop

variable (joins : Interval α D → Interval α D → Bool) (pyNone : D)
  (dataReducer : Option (D → D → D)) (dataInitializer : Option D)

/-- Only an initializer without a reducer cannot be used. -/
def Usable : Prop := dataInitializer.isSome = true → dataReducer.isSome = true

/-- Data to which more data are added. -/
def combine (current new : D) : D :=
  (dataReducer.map (fun reduce => reduce current new)).getD pyNone

/-- The data of a series that begins. -/
def firstData (first : D) : D :=
  match dataInitializer, dataReducer with
  | some initial, some reduce => reduce initial first
  | _, _ => first

/-- The data of a whole series. -/
def reduced : List D → D
  | [] => pyNone
  | first :: rest =>
      rest.foldl (combine pyNone dataReducer) (firstData dataReducer dataInitializer first)

def begun (higher : Interval α D) : Interval α D :=
  { higher with data := firstData dataReducer dataInitializer higher.data }

def extended (lower higher : Interval α D) : Interval α D :=
  ⟨lower.begin, max lower.end_ higher.end_, combine pyNone dataReducer lower.data higher.data⟩

/-- A turn, the last interval first. -/
def gather (merged : List (Interval α D)) (higher : Interval α D) : List (Interval α D) :=
  match merged with
  | [] => [begun dataReducer dataInitializer higher]
  | lower :: earlier =>
      if joins lower higher then extended pyNone dataReducer lower higher :: earlier
      else begun dataReducer dataInitializer higher :: lower :: earlier

variable {joins pyNone dataReducer dataInitializer}

omit [LinearOrder α] in
theorem newSeries_eq (h : Usable dataReducer dataInitializer) (m : IntervalTree.Merging α D)
    (higher : Interval α D) : IntervalTree.newSeries dataReducer dataInitializer m higher =
      .ok ⟨begun dataReducer dataInitializer higher :: m.merged,
        (begun dataReducer dataInitializer higher).data⟩ := by
  cases dataInitializer with
  | none => rfl
  | some initial =>
      cases dataReducer with
      | none => exact absurd (h rfl) Bool.false_ne_true
      | some reduce => rfl

/-- `current_reduced` holds the data of the last interval. -/
theorem mergeTurn_eq (h : Usable dataReducer dataInitializer) {m : IntervalTree.Merging α D}
    (hm : ∀ lower earlier, m.merged = lower :: earlier → m.currentReduced = lower.data)
    (higher : Interval α D) : ∃ m', IntervalTree.mergeTurn joins pyNone dataReducer dataInitializer
      m higher = .ok m' ∧
        m'.merged = gather joins pyNone dataReducer dataInitializer m.merged higher ∧
        ∀ lower earlier, m'.merged = lower :: earlier → m'.currentReduced = lower.data := by
  rcases m with ⟨merged, current⟩
  have hhead : ∀ (x : Interval α D) (xs : List (Interval α D)) lower earlier,
      x :: xs = lower :: earlier → x.data = lower.data := by
    intro x xs lower earlier heq
    rw [(List.cons.inj heq).1]
  cases merged with
  | nil => exact ⟨_, newSeries_eq h _ higher, rfl, hhead _ _⟩
  | cons lower earlier =>
      have hcurrent : current = lower.data := hm lower earlier rfl
      subst hcurrent
      by_cases hjoin : joins lower higher = true
      · exact ⟨⟨extended pyNone dataReducer lower higher :: earlier, _⟩, if_pos hjoin,
          (if_pos hjoin).symm, hhead _ _⟩
      · exact ⟨⟨begun dataReducer dataInitializer higher :: lower :: earlier, _⟩,
          (if_neg hjoin).trans (newSeries_eq h _ higher), (if_neg hjoin).symm, hhead _ _⟩

theorem mergeLoop_eq (h : Usable dataReducer dataInitializer) (l : List (Interval α D)) :
    IntervalTree.mergeLoop joins pyNone dataReducer dataInitializer l =
      .ok (l.foldl (gather joins pyNone dataReducer dataInitializer) []).reverse := by
  have hfold : ∀ m : IntervalTree.Merging α D,
      (∀ lower earlier, m.merged = lower :: earlier → m.currentReduced = lower.data) →
        ∃ m', l.foldlM (IntervalTree.mergeTurn joins pyNone dataReducer dataInitializer) m =
          .ok m' ∧ m'.merged =
            l.foldl (gather joins pyNone dataReducer dataInitializer) m.merged := by
    induction l with
    | nil => exact fun m _ => ⟨m, rfl, rfl⟩
    | cons higher l ih =>
        intro m hm
        rcases mergeTurn_eq h hm higher with ⟨m', hm', hmerged, hcurrent⟩
        rcases ih m' hcurrent with ⟨m'', hm'', hmerged'⟩
        refine ⟨m'', ?_, ?_⟩
        · rw [List.foldlM_cons, hm']
          exact hm''
        · rw [hmerged', hmerged, List.foldl_cons]
  rcases hfold ⟨[], pyNone⟩ (fun _ _ heq => nomatch heq) with ⟨m, hm, hmerged⟩
  rw [IntervalTree.mergeLoop, hm]
  exact congrArg (fun merged => Except.ok merged.reverse) hmerged

/-- The first interval asks for the reducer that is not there. -/
theorem mergeLoop_error (h : ¬ Usable dataReducer dataInitializer) {l : List (Interval α D)}
    (hl : l ≠ []) :
    IntervalTree.mergeLoop joins pyNone dataReducer dataInitializer l = .error .typeError := by
  cases l with
  | nil => exact absurd rfl hl
  | cons higher l =>
      cases dataInitializer with
      | none => exact absurd (fun hnone => absurd hnone Bool.false_ne_true) h
      | some initial =>
          cases dataReducer with
          | none => rfl
          | some reduce => exact absurd (fun _ => rfl) h

theorem reduced_append {l : List D} (hl : l ≠ []) (new : D) :
    reduced pyNone dataReducer dataInitializer (l ++ [new]) =
      combine pyNone dataReducer (reduced pyNone dataReducer dataInitializer l) new := by
  cases l with
  | nil => exact absurd rfl hl
  | cons first rest => rw [List.cons_append, reduced, reduced, List.foldl_append]; rfl

end Loop

/-! ## Overlapping ranges -/

section Overlaps

variable {pyNone : D} {dataReducer : Option (D → D → D)} {dataInitializer : Option D}

/-- The data of the intervals that lie in a range. -/
def dataWithin (l : List (Interval α D)) (m : Interval α D) : List D :=
  (l.filter (fun iv => decide (Within m.begin m.end_ iv))).map Interval.data

theorem dataWithin_append_of_within {l : List (Interval α D)} {m iv : Interval α D}
    (h : Within m.begin m.end_ iv) : dataWithin (l ++ [iv]) m = dataWithin l m ++ [iv.data] := by
  have hlast : [iv].filter (fun iv => decide (Within m.begin m.end_ iv)) = [iv] :=
    List.filter_cons_of_pos (decide_eq_true h)
  rw [dataWithin, List.filter_append, hlast, List.map_append]
  rfl

theorem dataWithin_append_of_not_within {l : List (Interval α D)} {m iv : Interval α D}
    (h : ¬ Within m.begin m.end_ iv) : dataWithin (l ++ [iv]) m = dataWithin l m := by
  have hlast : [iv].filter (fun iv => decide (Within m.begin m.end_ iv)) = [] := by
    rw [List.filter_eq_nil_iff]
    intro k hk
    rw [List.mem_singleton.mp hk, decide_eq_true_eq]
    exact h
  rw [dataWithin, List.filter_append, hlast, List.append_nil]
  rfl

variable (pyNone dataReducer dataInitializer) in
/-- Merged intervals, the last one first, and what went into them. -/
structure Gathered (l merged : List (Interval α D)) : Prop where
  gaps : merged.Pairwise (fun later earlier => earlier.end_ < later.begin)
  proper : ∀ m ∈ merged, m.begin < m.end_
  home : ∀ iv ∈ l, ∃ m ∈ merged, Within m.begin m.end_ iv
  covered : ∀ m ∈ merged, ∀ p, ends.Holds m p → ∃ iv ∈ l, ends.Holds iv p
  begins : ∀ m ∈ merged, ∃ iv ∈ l, iv.begin = m.begin
  data : ∀ m ∈ merged, m.data = reduced pyNone dataReducer dataInitializer (dataWithin l m)

variable {l earlier : List (Interval α D)} {lower higher : Interval α D}

/-- The first interval, or one behind a gap. -/
theorem Gathered.begin {merged : List (Interval α D)}
    (h : Gathered pyNone dataReducer dataInitializer l merged) (hl : ∀ iv ∈ l, iv.begin < iv.end_)
    (hproper : higher.begin < higher.end_) (hgap : ∀ m ∈ merged, m.end_ < higher.begin) :
    Gathered pyNone dataReducer dataInitializer (l ++ [higher])
      (begun dataReducer dataInitializer higher :: merged) where
  gaps := List.pairwise_cons.mpr ⟨hgap, h.gaps⟩
  proper := fun m hm => by
    rcases List.mem_cons.mp hm with rfl | hm
    · exact hproper
    · exact h.proper m hm
  home := fun iv hiv => by
    rcases List.mem_append.mp hiv with hiv | hiv
    · rcases h.home iv hiv with ⟨m, hm, hwithin⟩
      exact ⟨m, List.mem_cons_of_mem _ hm, hwithin⟩
    · rw [List.mem_singleton.mp hiv]
      exact ⟨_, List.mem_cons_self, le_rfl, le_rfl⟩
  covered := fun m hm p hp => by
    rcases List.mem_cons.mp hm with rfl | hm
    · exact ⟨higher, List.mem_append_right _ (List.mem_singleton_self _), hp⟩
    · rcases h.covered m hm p hp with ⟨iv, hiv, hivp⟩
      exact ⟨iv, List.mem_append_left _ hiv, hivp⟩
  begins := fun m hm => by
    rcases List.mem_cons.mp hm with rfl | hm
    · exact ⟨higher, List.mem_append_right _ (List.mem_singleton_self _), rfl⟩
    · rcases h.begins m hm with ⟨iv, hiv, hbegin⟩
      exact ⟨iv, List.mem_append_left _ hiv, hbegin⟩
  data := fun m hm => by
    rcases List.mem_cons.mp hm with rfl | hm
    · have hnone : dataWithin l (begun dataReducer dataInitializer higher) = [] := by
        rw [dataWithin, List.map_eq_nil_iff, List.filter_eq_nil_iff]
        intro iv hiv hwithin
        rcases h.home iv hiv with ⟨m, hm, _, hend⟩
        have hbegin : higher.begin ≤ iv.begin := (of_decide_eq_true hwithin).1
        exact absurd ((hl iv hiv).trans_le (hend.trans (hgap m hm).le)) (not_lt.mpr hbegin)
      have hwithin : Within higher.begin higher.end_ higher := ⟨le_rfl, le_rfl⟩
      rw [dataWithin_append_of_within (m := begun dataReducer dataInitializer higher) hwithin,
        hnone]
      rfl
    · have hnot : ¬ Within m.begin m.end_ higher := fun hwithin =>
        absurd (hproper.trans_le hwithin.2) (not_lt.mpr (hgap m hm).le)
      rw [dataWithin_append_of_not_within hnot]
      exact h.data m hm

/-- An interval that reaches the last one. -/
theorem Gathered.extend
    (h : Gathered pyNone dataReducer dataInitializer l (lower :: earlier))
    (hl : ∀ iv ∈ l, iv.begin < iv.end_) (hsorted : ∀ iv ∈ l, iv.begin ≤ higher.begin)
    (hproper : higher.begin < higher.end_) (hjoin : higher.begin ≤ lower.end_) :
    Gathered pyNone dataReducer dataInitializer (l ++ [higher])
      (extended pyNone dataReducer lower higher :: earlier) := by
  rcases List.pairwise_cons.mp h.gaps with ⟨hgap, hgaps⟩
  have hmem : lower ∈ lower :: earlier := List.mem_cons_self
  have hbegin : lower.begin ≤ higher.begin := by
    rcases h.begins lower hmem with ⟨iv, hiv, heq⟩
    exact heq ▸ hsorted iv hiv
  -- what lies in the last range has not gone into an earlier one
  have hlast : ∀ iv ∈ l, lower.begin ≤ iv.begin → Within lower.begin lower.end_ iv := by
    intro iv hiv hle
    rcases h.home iv hiv with ⟨m, hm, hwithin⟩
    rcases List.mem_cons.mp hm with rfl | hm
    · exact hwithin
    · have hlt := ((hl iv hiv).trans_le hwithin.2).trans (hgap m hm)
      exact absurd hlt (not_lt.mpr hle)
  refine {
    gaps := List.pairwise_cons.mpr ⟨hgap, hgaps⟩
    proper := fun m hm => ?_
    home := fun iv hiv => ?_
    covered := fun m hm p hp => ?_
    begins := fun m hm => ?_
    data := fun m hm => ?_ }
  · rcases List.mem_cons.mp hm with rfl | hm
    · exact (h.proper lower hmem).trans_le (le_max_left _ _)
    · exact h.proper m (List.mem_cons_of_mem _ hm)
  · rcases List.mem_append.mp hiv with hiv | hiv
    · rcases h.home iv hiv with ⟨m, hm, hwithin⟩
      rcases List.mem_cons.mp hm with rfl | hm
      · exact ⟨_, List.mem_cons_self, hwithin.1, hwithin.2.trans (le_max_left _ _)⟩
      · exact ⟨m, List.mem_cons_of_mem _ hm, hwithin⟩
    · rw [List.mem_singleton.mp hiv]
      exact ⟨_, List.mem_cons_self, hbegin, le_max_right _ _⟩
  · rcases List.mem_cons.mp hm with rfl | hm
    · by_cases hlt : p < lower.end_
      · rcases h.covered lower hmem p ⟨hp.1, hlt⟩ with ⟨iv, hiv, hivp⟩
        exact ⟨iv, List.mem_append_left _ hiv, hivp⟩
      · have hge := not_lt.mp hlt
        refine ⟨higher, List.mem_append_right _ (List.mem_singleton_self _), hjoin.trans hge, ?_⟩
        exact (lt_max_iff.mp hp.2).resolve_left hlt
    · rcases h.covered m (List.mem_cons_of_mem _ hm) p hp with ⟨iv, hiv, hivp⟩
      exact ⟨iv, List.mem_append_left _ hiv, hivp⟩
  · rcases List.mem_cons.mp hm with rfl | hm
    · rcases h.begins lower hmem with ⟨iv, hiv, heq⟩
      exact ⟨iv, List.mem_append_left _ hiv, heq⟩
    · rcases h.begins m (List.mem_cons_of_mem _ hm) with ⟨iv, hiv, heq⟩
      exact ⟨iv, List.mem_append_left _ hiv, heq⟩
  · rcases List.mem_cons.mp hm with rfl | hm
    · have hsame : dataWithin l (extended pyNone dataReducer lower higher) =
          dataWithin l lower := by
        rw [dataWithin, dataWithin]
        congr 1
        refine List.filter_congr fun iv hiv => decide_eq_decide.mpr ⟨fun hw => ?_, fun hw => ?_⟩
        · exact hlast iv hiv hw.1
        · exact ⟨hw.1, hw.2.trans (le_max_left _ _)⟩
      have hne : dataWithin l lower ≠ [] := by
        rcases h.begins lower hmem with ⟨iv, hiv, heq⟩
        refine List.ne_nil_of_mem (List.mem_map_of_mem (a := iv) (List.mem_filter.mpr ⟨hiv, ?_⟩))
        exact decide_eq_true (hlast iv hiv heq.ge)
      have hwithin : Within lower.begin (max lower.end_ higher.end_) higher :=
        ⟨hbegin, le_max_right _ _⟩
      rw [dataWithin_append_of_within (m := extended pyNone dataReducer lower higher) hwithin,
        hsame, reduced_append hne, ← h.data lower hmem]
      rfl
    · have hnot : ¬ Within m.begin m.end_ higher := fun hwithin =>
        absurd ((hproper.trans_le hwithin.2).trans (hgap m hm)) (not_lt.mpr hbegin)
      rw [dataWithin_append_of_not_within hnot]
      exact h.data m (List.mem_cons_of_mem _ hm)

/-- When `merge_overlaps` joins. -/
def reachesOver (lower higher : Interval α D) : Bool := decide (higher.begin ≤ lower.end_)

/-- The whole loop, over intervals sorted by their begins. -/
theorem gathered_foldl (hl : ∀ iv ∈ l, iv.begin < iv.end_)
    (hsorted : l.Pairwise (fun a b => a.begin ≤ b.begin)) :
    Gathered pyNone dataReducer dataInitializer l
      (l.foldl (gather reachesOver pyNone dataReducer dataInitializer) []) := by
  induction l using List.reverseRecOn with
  | nil =>
      exact {
        gaps := List.Pairwise.nil
        proper := fun m hm => absurd hm List.not_mem_nil
        home := fun iv hiv => absurd hiv List.not_mem_nil
        covered := fun m hm => absurd hm List.not_mem_nil
        begins := fun m hm => absurd hm List.not_mem_nil
        data := fun m hm => absurd hm List.not_mem_nil }
  | append_singleton l higher ih =>
      rcases List.pairwise_append.mp hsorted with ⟨hsorted, _, hlast⟩
      have hproper : higher.begin < higher.end_ :=
        hl higher (List.mem_append_right _ (List.mem_singleton_self _))
      have hl' : ∀ iv ∈ l, iv.begin < iv.end_ := fun iv hiv => hl iv (List.mem_append_left _ hiv)
      have hle : ∀ iv ∈ l, iv.begin ≤ higher.begin :=
        fun iv hiv => hlast iv hiv higher (List.mem_singleton_self _)
      have h := ih hl' hsorted
      rw [List.foldl_append, List.foldl_cons, List.foldl_nil]
      generalize l.foldl (gather reachesOver pyNone dataReducer dataInitializer) [] = merged at h
      cases merged with
      | nil => exact h.begin hl' hproper (fun m hm => absurd hm List.not_mem_nil)
      | cons lower earlier =>
          rw [gather]
          by_cases hjoin : reachesOver lower higher = true
          · rw [if_pos hjoin]
            exact h.extend hl' hle hproper (of_decide_eq_true hjoin)
          · rw [if_neg hjoin]
            have hgap : lower.end_ < higher.begin := not_le.mp fun hge => hjoin (decide_eq_true hge)
            refine h.begin hl' hproper fun m hm => ?_
            rcases List.mem_cons.mp hm with rfl | hm
            · exact hgap
            · have hlt := (List.pairwise_cons.mp h.gaps).1 m hm
              exact (hlt.trans (h.proper lower List.mem_cons_self)).trans hgap

end Overlaps

/-! ## Equal ranges -/

section Equals

variable {pyNone : D} {dataReducer : Option (D → D → D)} {dataInitializer : Option D}

/-- The range of an interval, in the order of `__cmp__`. -/
def range (iv : Interval α D) : α ×ₗ α := toLex (iv.begin, iv.end_)

/-- The data of the intervals with the same range. -/
def dataAt (l : List (Interval α D)) (m : Interval α D) : List D :=
  (l.filter (fun iv => decide (range iv = range m))).map Interval.data

variable (pyNone dataReducer dataInitializer) in
/-- Merged intervals, the last one first: one for every range. -/
structure Paired (l merged : List (Interval α D)) : Prop where
  ascending : merged.Pairwise (fun later earlier => range earlier < range later)
  home : ∀ iv ∈ l, ∃ m ∈ merged, range m = range iv
  source : ∀ m ∈ merged, ∃ iv ∈ l, range iv = range m
  data : ∀ m ∈ merged, m.data = reduced pyNone dataReducer dataInitializer (dataAt l m)

/-- When `merge_equals` joins. -/
def rangeMatches (lower higher : Interval α D) : Bool :=
  decide (higher.begin = lower.begin) && decide (higher.end_ = lower.end_)

omit [LinearOrder α] in
theorem range_eq_iff {i j : Interval α D} :
    range i = range j ↔ i.begin = j.begin ∧ i.end_ = j.end_ := by
  rw [range, range, EmbeddingLike.apply_eq_iff_eq, Prod.mk.injEq]

theorem dataAt_append {l : List (Interval α D)} {m iv : Interval α D} :
    dataAt (l ++ [iv]) m = if range iv = range m then dataAt l m ++ [iv.data] else dataAt l m := by
  have hlast : [iv].filter (fun iv => decide (range iv = range m)) =
      if range iv = range m then [iv] else [] := by
    rw [List.filter_cons, List.filter_nil]
    simp only [decide_eq_true_eq]
  rw [dataAt, List.filter_append, hlast]
  split_ifs
  · rw [List.map_append]
    rfl
  · rw [List.append_nil]
    rfl

variable {l earlier : List (Interval α D)} {lower higher : Interval α D}

/-- The first interval of a range. -/
theorem Paired.begin {merged : List (Interval α D)}
    (h : Paired pyNone dataReducer dataInitializer l merged)
    (hlt : ∀ m ∈ merged, range m < range higher) :
    Paired pyNone dataReducer dataInitializer (l ++ [higher])
      (begun dataReducer dataInitializer higher :: merged) where
  ascending := List.pairwise_cons.mpr ⟨hlt, h.ascending⟩
  home := fun iv hiv => by
    rcases List.mem_append.mp hiv with hiv | hiv
    · rcases h.home iv hiv with ⟨m, hm, hrange⟩
      exact ⟨m, List.mem_cons_of_mem _ hm, hrange⟩
    · rw [List.mem_singleton.mp hiv]
      exact ⟨_, List.mem_cons_self, rfl⟩
  source := fun m hm => by
    rcases List.mem_cons.mp hm with rfl | hm
    · exact ⟨higher, List.mem_append_right _ (List.mem_singleton_self _), rfl⟩
    · rcases h.source m hm with ⟨iv, hiv, hrange⟩
      exact ⟨iv, List.mem_append_left _ hiv, hrange⟩
  data := fun m hm => by
    rcases List.mem_cons.mp hm with rfl | hm
    · have hsame : range higher = range (begun dataReducer dataInitializer higher) := rfl
      have hnone : dataAt l (begun dataReducer dataInitializer higher) = [] := by
        rw [dataAt, List.map_eq_nil_iff, List.filter_eq_nil_iff]
        intro iv hiv hrange
        rcases h.home iv hiv with ⟨m, hm, hm'⟩
        exact absurd (hm'.trans (of_decide_eq_true hrange)) (hlt m hm).ne
      rw [dataAt_append, if_pos hsame, hnone]
      rfl
    · rw [dataAt_append, if_neg (hlt m hm).ne']
      exact h.data m hm

/-- Another interval of the last range. -/
theorem Paired.extend (h : Paired pyNone dataReducer dataInitializer l (lower :: earlier))
    (hrange : range higher = range lower) :
    Paired pyNone dataReducer dataInitializer (l ++ [higher])
      (extended pyNone dataReducer lower higher :: earlier) := by
  rcases List.pairwise_cons.mp h.ascending with ⟨hlt, hascending⟩
  have hends := range_eq_iff.mp hrange
  have hsame : range (extended pyNone dataReducer lower higher) = range lower := by
    rw [range_eq_iff, extended, hends.2, max_self]
    exact ⟨rfl, rfl⟩
  refine {
    ascending := List.pairwise_cons.mpr ⟨fun m hm => hsame.symm ▸ hlt m hm, hascending⟩
    home := fun iv hiv => ?_
    source := fun m hm => ?_
    data := fun m hm => ?_ }
  · rcases List.mem_append.mp hiv with hiv | hiv
    · rcases h.home iv hiv with ⟨m, hm, hm'⟩
      rcases List.mem_cons.mp hm with rfl | hm
      · exact ⟨_, List.mem_cons_self, hsame.trans hm'⟩
      · exact ⟨m, List.mem_cons_of_mem _ hm, hm'⟩
    · rw [List.mem_singleton.mp hiv]
      exact ⟨_, List.mem_cons_self, hsame.trans hrange.symm⟩
  · rcases List.mem_cons.mp hm with rfl | hm
    · exact ⟨higher, List.mem_append_right _ (List.mem_singleton_self _), hrange.trans hsame.symm⟩
    · rcases h.source m (List.mem_cons_of_mem _ hm) with ⟨iv, hiv, hm'⟩
      exact ⟨iv, List.mem_append_left _ hiv, hm'⟩
  · rcases List.mem_cons.mp hm with rfl | hm
    · have hdata : dataAt l (extended pyNone dataReducer lower higher) = dataAt l lower := by
        rw [dataAt, dataAt, hsame]
      have hne : dataAt l lower ≠ [] := by
        rcases h.source lower List.mem_cons_self with ⟨iv, hiv, hm'⟩
        exact List.ne_nil_of_mem (List.mem_map_of_mem (a := iv)
          (List.mem_filter.mpr ⟨hiv, decide_eq_true hm'⟩))
      rw [dataAt_append, if_pos (hrange.trans hsame.symm), hdata, reduced_append hne,
        ← h.data lower List.mem_cons_self]
      rfl
    · rw [dataAt_append, if_neg (hrange ▸ (hlt m hm).ne')]
      exact h.data m (List.mem_cons_of_mem _ hm)

/-- The whole loop, over intervals sorted by their ranges. -/
theorem paired_foldl (hsorted : l.Pairwise (fun a b => range a ≤ range b)) :
    Paired pyNone dataReducer dataInitializer l
      (l.foldl (gather rangeMatches pyNone dataReducer dataInitializer) []) := by
  induction l using List.reverseRecOn with
  | nil =>
      exact {
        ascending := List.Pairwise.nil
        home := fun iv hiv => absurd hiv List.not_mem_nil
        source := fun m hm => absurd hm List.not_mem_nil
        data := fun m hm => absurd hm List.not_mem_nil }
  | append_singleton l higher ih =>
      rcases List.pairwise_append.mp hsorted with ⟨hsorted, _, hlast⟩
      have h := ih hsorted
      rw [List.foldl_append, List.foldl_cons, List.foldl_nil]
      generalize l.foldl (gather rangeMatches pyNone dataReducer dataInitializer) [] = merged at h
      cases merged with
      | nil => exact h.begin (fun m hm => absurd hm List.not_mem_nil)
      | cons lower earlier =>
          have hmatch : rangeMatches lower higher = true ↔ range higher = range lower := by
            rw [rangeMatches, Bool.and_eq_true, decide_eq_true_eq, decide_eq_true_eq, range_eq_iff]
          rw [gather]
          by_cases hjoin : rangeMatches lower higher = true
          · rw [if_pos hjoin]
            exact h.extend (hmatch.mp hjoin)
          · rw [if_neg hjoin]
            have hlt : range lower < range higher := by
              rcases h.source lower List.mem_cons_self with ⟨iv, hiv, hrange⟩
              have hle := hlast iv hiv higher (List.mem_singleton_self _)
              exact lt_of_le_of_ne (hrange ▸ hle) fun heq => hjoin (hmatch.mpr heq.symm)
            refine h.begin fun m hm => ?_
            rcases List.mem_cons.mp hm with rfl | hm
            · exact hlt
            · exact ((List.pairwise_cons.mp h.ascending).1 m hm).trans hlt

end Equals

/-! ## The trees -/

section Trees

variable [LinearOrder D] {t : IntervalTree α D} {limit : ℕ} {pyNone : D}
  {dataReducer : Option (D → D → D)} {dataInitializer : Option D}

theorem range_le_of_le {i j : Interval α D} (h : i ≤ j) : range i ≤ range j := by
  have hle : i.fields ≤ j.fields := h
  rw [Prod.Lex.le_iff] at hle ⊢
  rcases hle with hlt | ⟨heq, hrest⟩
  · exact .inl hlt
  · rw [Prod.Lex.le_iff] at hrest
    exact .inr ⟨heq, hrest.elim le_of_lt fun h => le_of_eq h.1⟩

omit [LinearOrder D] in
variable (pyNone dataReducer dataInitializer) in
/-- The merged intervals are no more than the intervals. -/
theorem length_gather_le (joins : Interval α D → Interval α D → Bool) (l : List (Interval α D)) :
    (l.foldl (gather joins pyNone dataReducer dataInitializer) []).length ≤ l.length := by
  have hstep : ∀ (merged : List (Interval α D)) higher,
      (gather joins pyNone dataReducer dataInitializer merged higher).length ≤
        merged.length + 1 := by
    intro merged higher
    cases merged with
    | nil => exact le_rfl
    | cons lower earlier =>
        rw [gather]
        split_ifs
        · exact Nat.le_succ _
        · exact le_rfl
  induction l using List.reverseRecOn with
  | nil => exact le_rfl
  | append_singleton l higher ih =>
      rw [List.foldl_append, List.foldl_cons, List.foldl_nil, List.length_append]
      exact (hstep _ higher).trans (Nat.succ_le_succ ih)

/-- The tree over merged intervals that lie apart. -/
theorem init_merged {merged : List (Interval α D)} (hproper : ∀ m ∈ merged, m.begin < m.end_)
    (hsc : Scattered merged.toFinset) (hlength : merged.length ≤ t.allIntervals.card)
    (hlimit : Enough limit t.allIntervals.card) :
    ∃ t', IntervalTree.init limit merged.toFinset = .ok t' ∧ Stands t' merged.toFinset :=
  init_stands (fun m hm => hproper m (List.mem_toFinset.mp hm)) hsc
    (hlimit.mono ((List.toFinset_card_le merged).trans hlength))

/-- A tree of nothing is in order. -/
theorem Kept.stands_empty (h : Kept t) (hempty : t.allIntervals = ∅) : Stands t ∅ := by
  have hnil := isNone_eq_true_iff.mp (h.isNone_iff.mpr hempty)
  refine ⟨{ h with separated := ?_, ordered := ?_ }, hempty, ?_⟩
  · rw [hempty]
    exact fun i hi => absurd hi (Finset.notMem_empty i)
  · rw [hnil]
    trivial
  · rw [hnil]
    trivial

/-- Gaps between the merged intervals, the last one first. -/
theorem scattered_of_gaps {merged : List (Interval α D)}
    (hgaps : merged.Pairwise (fun later earlier => earlier.end_ < later.begin)) :
    Scattered merged.toFinset := by
  induction merged with
  | nil => exact fun i hi => absurd (List.mem_toFinset.mp hi) List.not_mem_nil
  | cons m merged ih =>
      rcases List.pairwise_cons.mp hgaps with ⟨hgap, hgaps⟩
      intro i hi j hj hij
      rw [List.mem_toFinset, List.mem_cons] at hi hj
      rcases hi with rfl | hi
      · rcases hj with rfl | hj
        · exact absurd rfl hij
        · exact .inr (hgap j hj).le
      · rcases hj with rfl | hj
        · exact .inl (hgap i hi).le
        · exact ih hgaps i (List.mem_toFinset.mpr hi) j (List.mem_toFinset.mpr hj) hij

/-- One interval for each of some separated ranges. -/
theorem scattered_of_ranges {merged : List (Interval α D)} {s : Finset (Interval α D)}
    (hsep : Separated s)
    (hascending : merged.Pairwise (fun later earlier => range earlier < range later))
    (hsource : ∀ m ∈ merged, ∃ iv ∈ s, range iv = range m) : Scattered merged.toFinset := by
  have hranges : ∀ i ∈ merged, ∀ j ∈ merged, i ≠ j → range i ≠ range j := by
    have hsymm : Std.Symm (fun i j : Interval α D => range i ≠ range j) := ⟨fun _ _ h => h.symm⟩
    exact fun i hi j hj => (hascending.imp fun h => h.ne').forall hi hj
  intro i hi j hj hij
  rw [List.mem_toFinset] at hi hj
  rcases hsource i hi with ⟨iv, hiv, hi'⟩
  rcases hsource j hj with ⟨jv, hjv, hj'⟩
  have hi' := range_eq_iff.mp hi'
  have hj' := range_eq_iff.mp hj'
  rcases hsep iv hiv jv hjv with hsame | hapart
  · refine absurd (range_eq_iff.mpr ?_) (hranges i hi j hj hij)
    exact ⟨hi'.1.symm.trans (hsame.1.trans hj'.1), hi'.2.symm.trans (hsame.2.trans hj'.2)⟩
  · have hor : iv.end_ ≤ jv.begin ∨ jv.end_ ≤ iv.begin := hapart
    rwa [hi'.1, hi'.2, hj'.1, hj'.2] at hor

theorem mergeOverlaps_stands (h : Kept t) (husable : Usable dataReducer dataInitializer)
    (hlimit : Enough limit t.allIntervals.card) :
    ∃ t' merged, t.mergeOverlaps limit pyNone dataReducer dataInitializer = .ok t' ∧
      Gathered pyNone dataReducer dataInitializer (t.allIntervals.sort (· ≤ ·)) merged ∧
      Stands t' merged.toFinset := by
  have hproper : ∀ iv ∈ t.allIntervals.sort (· ≤ ·), iv.begin < iv.end_ :=
    fun iv hiv => h.proper iv ((Finset.mem_sort _).mp hiv)
  have hsorted := (Finset.pairwise_sort t.allIntervals (· ≤ ·)).imp begin_le_of_le
  have hgathered : Gathered pyNone dataReducer dataInitializer _ _ :=
    gathered_foldl hproper hsorted
  have hlength := length_gather_le pyNone dataReducer dataInitializer reachesOver
    (t.allIntervals.sort (· ≤ ·))
  have hloop : IntervalTree.mergeLoop (fun lower higher => decide (higher.begin ≤ lower.end_))
      pyNone dataReducer dataInitializer (t.allIntervals.sort (· ≤ ·)) =
        .ok ((t.allIntervals.sort (· ≤ ·)).foldl
          (gather reachesOver pyNone dataReducer dataInitializer) []).reverse :=
    mergeLoop_eq husable _
  rw [IntervalTree.mergeOverlaps]
  by_cases hempty : t.allIntervals = ∅
  · rw [if_pos hempty]
    rw [hempty, Finset.sort_empty] at hgathered ⊢
    exact ⟨t, [], rfl, hgathered, h.stands_empty hempty⟩
  · rw [if_neg hempty, hloop]
    generalize (t.allIntervals.sort (· ≤ ·)).foldl
      (gather reachesOver pyNone dataReducer dataInitializer) [] = merged at *
    rw [Finset.length_sort] at hlength
    rcases init_merged hgathered.proper (scattered_of_gaps hgathered.gaps) hlength hlimit with
      ⟨t', ht', hstands⟩
    refine ⟨t', merged, ?_, hgathered, hstands⟩
    simp only [bind, Except.bind, List.toFinset_reverse]
    exact ht'

theorem mergeEquals_kept (h : Kept t) (husable : Usable dataReducer dataInitializer)
    (hlimit : room t.allIntervals.card + 8 ≤ limit) :
    ∃ t' merged, t.mergeEquals limit pyNone dataReducer dataInitializer = .ok t' ∧
      Paired pyNone dataReducer dataInitializer (t.allIntervals.sort (· ≤ ·)) merged ∧
      Kept t' ∧ t'.allIntervals = merged.toFinset ∧ (Separated t.allIntervals → Exact t') := by
  have hsorted := (Finset.pairwise_sort t.allIntervals (· ≤ ·)).imp range_le_of_le
  have hpaired : Paired pyNone dataReducer dataInitializer _ _ := paired_foldl hsorted
  have hlength := length_gather_le pyNone dataReducer dataInitializer rangeMatches
    (t.allIntervals.sort (· ≤ ·))
  have hloop : IntervalTree.mergeLoop (fun lower higher =>
      decide (higher.begin = lower.begin) && decide (higher.end_ = lower.end_)) pyNone
      dataReducer dataInitializer (t.allIntervals.sort (· ≤ ·)) =
        .ok ((t.allIntervals.sort (· ≤ ·)).foldl
          (gather rangeMatches pyNone dataReducer dataInitializer) []).reverse :=
    mergeLoop_eq husable _
  rw [IntervalTree.mergeEquals]
  by_cases hempty : t.allIntervals = ∅
  · rw [if_pos hempty]
    rw [hempty, Finset.sort_empty] at hpaired ⊢
    have hstands := h.stands_empty hempty
    exact ⟨t, [], rfl, hpaired, h, hempty, fun _ => hstands.exact_⟩
  · rw [if_neg hempty, hloop]
    generalize (t.allIntervals.sort (· ≤ ·)).foldl
      (gather rangeMatches pyNone dataReducer dataInitializer) [] = merged at *
    rw [Finset.length_sort] at hlength
    have hsource : ∀ m ∈ merged, ∃ iv ∈ t.allIntervals, range iv = range m := by
      intro m hm
      rcases hpaired.source m hm with ⟨iv, hiv, hrange⟩
      exact ⟨iv, (Finset.mem_sort _).mp hiv, hrange⟩
    have hproper : ∀ m ∈ merged.toFinset, m.begin < m.end_ := by
      intro m hm
      rcases hsource m (List.mem_toFinset.mp hm) with ⟨iv, hiv, hrange⟩
      have hends := range_eq_iff.mp hrange
      exact hends.1 ▸ hends.2 ▸ h.proper iv hiv
    have hcard : merged.toFinset.card ≤ t.allIntervals.card :=
      (List.toFinset_card_le merged).trans hlength
    have hroom : room merged.toFinset.card + 8 ≤ limit := by
      simp only [room] at hlimit ⊢
      omega
    rcases init_kept hproper hroom with ⟨t', ht', -, -⟩
    rcases kept_of_init ht' with ⟨hkept, hset, hexact⟩
    refine ⟨t', merged, ?_, hpaired, hkept, hset, fun hsep => hexact ?_⟩
    · simp only [bind, Except.bind, List.toFinset_reverse]
      exact ht'
    · exact (scattered_of_ranges hsep hpaired.ascending hsource).separated

end Trees

end CProfiler.Intervals
