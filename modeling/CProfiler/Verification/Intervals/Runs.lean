import CProfiler.Verification.Intervals.Checking
import CProfiler.Verification.Intervals.Cutting
import CProfiler.Verification.Intervals.Merging

/-! # Runs of the interval tree

A tree of separated ranges is the set of its intervals to everyone who uses it, after any commands.
A tree of any intervals holds each of them once, although a search may miss some. -/

namespace CProfiler.Intervals

open Foundation Model Model.Intervals

variable {α D : Type} [LinearOrder α] [LinearOrder D] {t : IntervalTree α D}
  {s : Finset (Interval α D)} {limit : ℕ}

/-! ## Separated ranges -/

/-- What a tree answers about the set that it stands for. -/
structure Answers (t : IntervalTree α D) (s : Finset (Interval α D)) : Prop where
  allIntervals : t.allIntervals = s
  searchAt : ∀ p, t.searchAt p = s.filter (fun iv => iv.begin ≤ p ∧ p < iv.end_)
  search : ∀ b e strict, t.search b e strict = s.filter (fun iv =>
    b < e ∧ Meets b e iv ∧ (strict = true → Within b e iv))
  overlapsPoint : ∀ p, t.overlapsPoint p = true ↔ ∃ iv ∈ s, iv.begin ≤ p ∧ p < iv.end_
  overlapsRange : ∀ b e, t.overlapsRange b e = true ↔ b < e ∧ ∃ iv ∈ s, Meets b e iv

theorem Stands.answers (h : Stands t s) : Answers t s := by
  have hset := h.allIntervals
  subst hset
  refine ⟨rfl, fun p => ?_, search_eq h.exact_, fun p => ?_, overlapsRange_eq_true_iff h.exact_⟩
  · rw [searchAt_eq h.exact_]
    exact Finset.filter_congr fun iv _ => containsPoint_iff
  · rw [overlapsPoint_eq_true_iff h.exact_]
    exact exists_congr fun iv => and_congr_right fun _ => containsPoint_iff

/-- A tree that is built from a set and goes through commands. -/
def session (limit : ℕ) (s : Finset (Interval α D)) (commands : List (Command α D)) :
    Except PyError (IntervalTree α D) := do
  let t ← IntervalTree.init limit s
  commands.foldlM (fun t c => c.run limit t) t

theorem session_stands (hs : ∀ iv ∈ s, iv.begin < iv.end_) (hsc : Scattered s)
    {commands : List (Command α D)}
    (halong : Along (fun s c => Command.effect s c) (Tame limit) s commands) :
    Follows Stands (session limit s commands) (commands.foldlM (fun s c => c.effect s) s) := by
  rcases init_stands hs hsc halong.start.enough with ⟨t, ht, hstands⟩
  rw [session, ht]
  exact commands_follow hstands halong

/-- Through any run in which the ranges stay separated a tree answers as the set does, and it
refuses what the set refuses. -/
theorem session_answers (hs : ∀ iv ∈ s, iv.begin < iv.end_) (hsc : Scattered s)
    {commands : List (Command α D)}
    (halong : Along (fun s c => Command.effect s c) (Tame limit) s commands) :
    Follows Answers (session limit s commands) (commands.foldlM (fun s c => c.effect s) s) :=
  (session_stands hs hsc halong).imp fun _ _ h => h.answers

/-- Two intervals of which one is taken away and the other one is cut. -/
theorem along_pair : Along (fun s c => Command.effect s c) (Tame 12)
    ({⟨0, 4, 7⟩, ⟨6, 9, 8⟩} : Finset (Interval ℕ ℕ))
    [.remove ⟨6, 9, 8⟩, .slice 2 (fun iv _ => iv.data)] := by
  have henough : Enough 12 2 := enough_of_lt_fib (h := 2) (by decide) (by decide)
  have hremove : Command.effect ({⟨0, 4, 7⟩, ⟨6, 9, 8⟩} : Finset (Interval ℕ ℕ))
      (.remove ⟨6, 9, 8⟩) = .ok {⟨0, 4, 7⟩} := by decide
  have hslice : Command.effect ({⟨0, 4, 7⟩} : Finset (Interval ℕ ℕ))
      (.slice 2 (fun iv _ => iv.data)) = .ok {⟨0, 2, 7⟩, ⟨2, 4, 7⟩} := by decide
  have hlast : Along (fun s c => Command.effect s c) (Tame 12)
      ({⟨0, 2, 7⟩, ⟨2, 4, 7⟩} : Finset (Interval ℕ ℕ)) [] := ⟨by decide, henough⟩
  exact .cons ⟨by decide, henough⟩ hremove
    (.cons ⟨by decide, henough.mono (by decide)⟩ hslice hlast)

theorem session_answers_pair : Follows Answers
    (session 12 {⟨0, 4, 7⟩, ⟨6, 9, 8⟩} [.remove ⟨6, 9, 8⟩, .slice 2 (fun iv _ => iv.data)])
    (.ok ({⟨0, 2, 7⟩, ⟨2, 4, 7⟩} : Finset (Interval ℕ ℕ))) :=
  session_answers (by decide) (by decide) along_pair

/-- Through such a run the tree stays balanced and passes its own check. -/
theorem session_verifies (hs : ∀ iv ∈ s, iv.begin < iv.end_) (hsc : Scattered s)
    {commands : List (Command α D)}
    (halong : Along (fun s c => Command.effect s c) (Tame limit) s commands) :
    Follows (fun t s => t.verify = true ∧ Nat.fib (height t.topNode + 2) ≤ s.card + 1)
      (session limit s commands) (commands.foldlM (fun s c => c.effect s) s) := by
  refine (session_stands hs hsc halong).imp fun t s h => ?_
  have hsound := h.exact_.sound
  refine ⟨verify_exact h.exact_ h.balanced, ?_⟩
  rw [← hsound.depth_eq_height, ← h.allIntervals, ← h.exact_.entries_eq]
  exact (fib_depth_le hsound h.balanced).trans (Nat.succ_le_succ hsound.countNodes_le)

theorem session_verifies_pair :
    Follows (fun t s => t.verify = true ∧ Nat.fib (height t.topNode + 2) ≤ s.card + 1)
    (session 12 {⟨0, 4, 7⟩, ⟨6, 9, 8⟩} [.remove ⟨6, 9, 8⟩, .slice 2 (fun iv _ => iv.data)])
    (.ok ({⟨0, 2, 7⟩, ⟨2, 4, 7⟩} : Finset (Interval ℕ ℕ))) :=
  session_verifies (by decide) (by decide) along_pair

/-! ## Any intervals -/

/-- A tree that is built from a set, and more intervals. -/
def fill (limit : ℕ) (s : Finset (Interval α D)) (l : List (Interval α D)) :
    Except PyError (IntervalTree α D) := do
  let t ← IntervalTree.init limit s
  t.update limit l

/-- Whatever the limit, an update that succeeds adds all the intervals. -/
theorem kept_of_update {t' : IntervalTree α D} {l : List (Interval α D)} (h : Kept t)
    (hupdate : t.update limit l = .ok t') :
    Kept t' ∧ t'.allIntervals = t.allIntervals ∪ l.toFinset := by
  rw [IntervalTree.update] at hupdate
  induction l generalizing t with
  | nil =>
      cases hupdate
      exact ⟨h, by simp⟩
  | cons iv l ih =>
      rw [List.foldlM_cons] at hupdate
      cases hadd : t.add limit iv with
      | error e =>
          rw [hadd] at hupdate
          cases hupdate
      | ok t₁ =>
          rw [hadd] at hupdate
          rcases kept_of_add h hadd with ⟨h₁, hset₁⟩
          rcases ih h₁ hupdate with ⟨h', hset'⟩
          rw [hset', hset₁, List.toFinset_cons, Finset.union_insert, Finset.insert_union]
          exact ⟨h', rfl⟩

theorem kept_of_fill {l : List (Interval α D)} (h : fill limit s l = .ok t) :
    Kept t ∧ t.allIntervals = s ∪ l.toFinset := by
  rw [fill] at h
  cases hinit : IntervalTree.init limit s with
  | error e =>
      rw [hinit] at h
      cases h
  | ok t₁ =>
      rw [hinit] at h
      rcases kept_of_init hinit with ⟨h₁, hset₁, _⟩
      rcases kept_of_update h₁ h with ⟨hkept, hset⟩
      exact ⟨hkept, hset₁ ▸ hset⟩

/-- With room for all the intervals an update fails at an empty one and at nothing else. -/
theorem update_kept {l : List (Interval α D)} (h : Kept t)
    (hlimit : room (t.allIntervals ∪ l.toFinset).card + 6 ≤ limit) :
    ((∀ iv ∈ l, iv.begin < iv.end_) ∧ ∃ t', t.update limit l = .ok t') ∨
      (¬ (∀ iv ∈ l, iv.begin < iv.end_) ∧ t.update limit l = .error .valueError) := by
  rw [IntervalTree.update]
  induction l generalizing t with
  | nil => exact .inl ⟨fun iv hiv => absurd hiv List.not_mem_nil, t, rfl⟩
  | cons iv l ih =>
      rw [List.foldlM_cons]
      by_cases hiv : iv ∈ t.allIntervals
      · have hadd : t.add limit iv = .ok t := if_pos hiv
        have hunion : t.allIntervals ∪ (iv :: l).toFinset = t.allIntervals ∪ l.toFinset := by
          rw [List.toFinset_cons, Finset.union_insert, Finset.insert_eq_of_mem]
          exact Finset.mem_union_left _ hiv
        rw [hadd]
        rw [hunion] at hlimit
        simp only [List.forall_mem_cons, h.proper iv hiv, true_and]
        exact ih h hlimit
      · by_cases hnull : iv.begin < iv.end_
        · have hunion : t.allIntervals ∪ (iv :: l).toFinset =
              insert iv t.allIntervals ∪ l.toFinset := by
            rw [List.toFinset_cons, Finset.union_insert, Finset.insert_union]
          have hcard : t.allIntervals.card + 1 ≤
              (t.allIntervals ∪ (iv :: l).toFinset).card := by
            rw [hunion, ← Finset.card_insert_of_notMem hiv]
            exact Finset.card_le_card Finset.subset_union_left
          have hroom : room (t.allIntervals.card + 1) + 6 ≤ limit := by
            simp only [room] at hlimit ⊢
            omega
          rcases add_kept h hiv hnull hroom with ⟨t₁, ht₁, h₁, hset⟩
          rw [ht₁]
          rw [hunion, ← hset] at hlimit
          simp only [List.forall_mem_cons, hnull, true_and]
          exact ih h₁ hlimit
        · refine .inr ⟨fun hall => hnull (hall iv List.mem_cons_self), ?_⟩
          rw [IntervalTree.add, if_neg hiv, if_pos (isNull_eq_true_iff.mpr hnull)]
          rfl

/-- What a tree of any intervals holds: each interval at one node, each boundary as often as it is
one, and nothing that a search could find by mistake. -/
structure Holds (t : IntervalTree α D) (s : Finset (Interval α D)) : Prop where
  allIntervals : t.allIntervals = s
  content : t.topNode.allChildren = s
  entries_eq : entries t.topNode = s.card
  boundaries_eq : t.boundaryTable.Counts (boundaries s)
  searchAt_subset : ∀ p, t.searchAt p ⊆ s.filter (fun iv => iv.begin ≤ p ∧ p < iv.end_)

theorem Kept.holds (h : Kept t) : Holds t t.allIntervals where
  allIntervals := rfl
  content := h.content
  entries_eq := h.entries_eq
  boundaries_eq := h.counts
  searchAt_subset := fun p => by
    have hfilter : t.allIntervals.filter (fun iv => iv.containsPoint p) =
        t.allIntervals.filter (fun iv => iv.begin ≤ p ∧ p < iv.end_) :=
      Finset.filter_congr fun iv _ => containsPoint_iff
    exact hfilter ▸ searchAt_subset h p

/-- Overlapping or not, all the intervals are held, unless one is empty. -/
theorem fill_holds {l : List (Interval α D)} (hlimit : room (s ∪ l.toFinset).card + 8 ≤ limit) :
    Follows Holds (fill limit s l) (if ∀ iv ∈ s ∪ l.toFinset, iv.begin < iv.end_
      then .ok (s ∪ l.toFinset) else .error .valueError) := by
  by_cases hs : ∀ iv ∈ s, iv.begin < iv.end_
  · have hcard : s.card ≤ (s ∪ l.toFinset).card := Finset.card_le_card Finset.subset_union_left
    have hroom : room s.card + 8 ≤ limit := by
      simp only [room] at hlimit ⊢
      omega
    rcases init_kept hs hroom with ⟨t, ht, hkept, rfl⟩
    have hfill : fill limit t.allIntervals l = t.update limit l := by rw [fill, ht]; rfl
    have hall : (∀ iv ∈ t.allIntervals ∪ l.toFinset, iv.begin < iv.end_) ↔
        ∀ iv ∈ l, iv.begin < iv.end_ := by
      refine ⟨fun h iv hiv => ?_, fun h iv hiv => ?_⟩
      · exact h iv (Finset.mem_union_right _ (List.mem_toFinset.mpr hiv))
      · rcases Finset.mem_union.mp hiv with hiv | hiv
        · exact hs iv hiv
        · exact h iv (List.mem_toFinset.mp hiv)
    rw [hfill]
    rcases update_kept (l := l) hkept (le_trans (by omega) hlimit) with
      ⟨hl, t', ht'⟩ | ⟨hl, herror⟩
    · rcases kept_of_update hkept ht' with ⟨hkept', hset⟩
      rw [if_pos (hall.mpr hl), Follows.ok_iff]
      exact ⟨t', ht', hset ▸ hkept'.holds⟩
    · rw [if_neg (fun h => hl (hall.mp h)), Follows.error_iff]
      exact herror
  · have hnull : ∃ iv ∈ s, iv.isNull = true := by
      by_contra hnone
      refine hs fun iv hiv => ?_
      by_contra hge
      exact hnone ⟨iv, hiv, isNull_eq_true_iff.mpr hge⟩
    have hnot : ¬ ∀ iv ∈ s ∪ l.toFinset, iv.begin < iv.end_ :=
      fun h => hs fun iv hiv => h iv (Finset.mem_union_left _ hiv)
    rw [if_neg hnot, Follows.error_iff, fill, IntervalTree.init, if_pos hnull]
    rfl

theorem fill_holds_overlap : Follows Holds
    (fill 44 {⟨0, 4, 7⟩} [⟨2, 6, 8⟩, ⟨2, 6, 9⟩])
    (.ok ({⟨0, 4, 7⟩, ⟨2, 6, 8⟩, ⟨2, 6, 9⟩} : Finset (Interval ℕ ℕ))) :=
  fill_holds (by decide)

/-! ## Merging -/

section Merging

variable (pyNone : D) {dataReducer : Option (D → D → D)} {dataInitializer : Option D}
  {l : List (Interval α D)}

/-- Merged intervals have gaps between them, cover what was covered, and each has the data of the
intervals in it, reduced in their order. -/
theorem fill_mergeOverlaps (dataReducer : Option (D → D → D)) (dataInitializer : Option D)
    (h : fill limit s l = .ok t)
    (hlimit : Enough limit t.allIntervals.card) :
    (Usable dataReducer dataInitializer →
      ∃ t', t.mergeOverlaps limit pyNone dataReducer dataInitializer = .ok t' ∧
        Stands t' t'.allIntervals ∧
        (∀ i ∈ t'.allIntervals, ∀ j ∈ t'.allIntervals, i ≠ j →
          i.end_ < j.begin ∨ j.end_ < i.begin) ∧
        (∀ p, Covered t'.allIntervals p ↔ Covered t.allIntervals p) ∧
        ∀ m ∈ t'.allIntervals, m.data = reduced pyNone dataReducer dataInitializer
          (dataWithin (t.allIntervals.sort (· ≤ ·)) m)) ∧
    (¬ Usable dataReducer dataInitializer → t.allIntervals ≠ ∅ →
      t.mergeOverlaps limit pyNone dataReducer dataInitializer = .error .typeError) := by
  rcases kept_of_fill h with ⟨hkept, _⟩
  refine ⟨fun husable => ?_, fun husable hne => ?_⟩
  · rcases mergeOverlaps_stands hkept husable hlimit with
      ⟨t', merged, ht', hgathered, hstands⟩
    have hset := hstands.allIntervals
    refine ⟨t', ht', hset ▸ hstands, ?_, fun p => ?_, fun m hm => ?_⟩
    · have hsymm : Std.Symm (fun i j : Interval α D => i.end_ < j.begin ∨ j.end_ < i.begin) :=
        ⟨fun _ _ h => h.symm⟩
      have hgaps : merged.Pairwise (fun i j => i.end_ < j.begin ∨ j.end_ < i.begin) :=
        hgathered.gaps.imp Or.inr
      intro i hi j hj hij
      rw [hset, List.mem_toFinset] at hi hj
      exact hgaps.forall hi hj hij
    · rw [hset]
      refine ⟨fun hcovered => ?_, fun hcovered => ?_⟩
      · rcases hcovered with ⟨m, hm, hp⟩
        rcases hgathered.covered m (List.mem_toFinset.mp hm) p hp with ⟨iv, hiv, hivp⟩
        exact ⟨iv, (Finset.mem_sort _).mp hiv, hivp⟩
      · rcases hcovered with ⟨iv, hiv, hp⟩
        rcases hgathered.home iv ((Finset.mem_sort _).mpr hiv) with ⟨m, hm, hwithin⟩
        exact ⟨m, List.mem_toFinset.mpr hm, hwithin.1.trans hp.1, hp.2.trans_le hwithin.2⟩
    · rw [hset, List.mem_toFinset] at hm
      exact hgathered.data m hm
  · have hsort : t.allIntervals.sort (· ≤ ·) ≠ [] := by
      intro hnil
      refine hne (Finset.card_eq_zero.mp ?_)
      rw [← Finset.length_sort (· ≤ ·), hnil]
      rfl
    rw [IntervalTree.mergeOverlaps, if_neg hne, mergeLoop_error husable hsort]
    rfl

/-- No interval is empty. -/
theorem exists_fill (limit : ℕ) (s : Finset (Interval α D)) (l : List (Interval α D))
    (hproper : ∀ iv ∈ s ∪ l.toFinset, iv.begin < iv.end_)
    (hlimit : room (s ∪ l.toFinset).card + 8 ≤ limit) :
    ∃ t, fill limit s l = .ok t ∧ t.allIntervals = s ∪ l.toFinset := by
  have hcard : s.card ≤ (s ∪ l.toFinset).card := Finset.card_le_card Finset.subset_union_left
  have hroom : room s.card + 8 ≤ limit := by
    simp only [room] at hlimit ⊢
    omega
  rcases init_kept (fun iv hiv => hproper iv (Finset.mem_union_left _ hiv)) hroom with
    ⟨t, ht, hkept, rfl⟩
  rcases update_kept (l := l) hkept (le_trans (by omega) hlimit) with ⟨_, t', ht'⟩ | ⟨hnull, _⟩
  · refine ⟨t', ?_, (kept_of_update hkept ht').2⟩
    rw [fill, ht]
    exact ht'
  · exact absurd (fun iv hiv => hproper iv (Finset.mem_union_right _ (List.mem_toFinset.mpr hiv)))
      hnull

theorem fill_mergeOverlaps_sums : ∃ t t' : IntervalTree ℕ ℕ,
    fill 44 {⟨0, 4, 7⟩} [⟨2, 6, 8⟩, ⟨9, 10, 3⟩] = .ok t ∧
      t.mergeOverlaps 44 0 (some fun x y => x + y) none = .ok t' ∧
        Stands t' t'.allIntervals ∧ (Covered t'.allIntervals 5 ↔ Covered t.allIntervals 5) := by
  rcases exists_fill 44 {⟨0, 4, 7⟩} [⟨2, 6, 8⟩, ⟨9, 10, 3⟩] (by decide) (by decide) with
    ⟨t, ht, hset⟩
  have hcard : t.allIntervals.card = 3 := by rw [hset]; rfl
  have henough : Enough 44 3 := enough_of_lt_fib (h := 3) (by decide) (by decide)
  have hmerge := fill_mergeOverlaps 0 (some fun x y => x + y) none ht (hcard.symm ▸ henough)
  rcases hmerge.1 (fun _ => rfl) with ⟨t', ht', hstands, _, hcovered, _⟩
  exact ⟨t, t', ht, ht', hstands, hcovered 5⟩

/-- After `merge_equals` there is one interval for each range, with the data of all the intervals
of that range, and ranges that do not overlap are still searched without a miss. -/
theorem fill_mergeEquals (h : fill limit s l = .ok t)
    (hlimit : room t.allIntervals.card + 8 ≤ limit)
    (husable : Usable dataReducer dataInitializer) :
    ∃ t', t.mergeEquals limit pyNone dataReducer dataInitializer = .ok t' ∧
      Holds t' t'.allIntervals ∧ (Separated t.allIntervals → Exact t') ∧
      t'.allIntervals.image range = t.allIntervals.image range ∧
      Set.InjOn range (t'.allIntervals : Set (Interval α D)) ∧
      ∀ m ∈ t'.allIntervals, m.data = reduced pyNone dataReducer dataInitializer
        (dataAt (t.allIntervals.sort (· ≤ ·)) m) := by
  rcases kept_of_fill h with ⟨hkept, _⟩
  rcases mergeEquals_kept hkept husable hlimit with
    ⟨t', merged, ht', hpaired, hkept', hset, hexact⟩
  refine ⟨t', ht', hkept'.holds, hexact, ?_, ?_, fun m hm => ?_⟩
  · ext r
    rw [Finset.mem_image, Finset.mem_image, hset]
    refine ⟨fun hex => ?_, fun hex => ?_⟩
    · rcases hex with ⟨m, hm, rfl⟩
      rcases hpaired.source m (List.mem_toFinset.mp hm) with ⟨iv, hiv, hrange⟩
      exact ⟨iv, (Finset.mem_sort _).mp hiv, hrange⟩
    · rcases hex with ⟨iv, hiv, rfl⟩
      rcases hpaired.home iv ((Finset.mem_sort _).mpr hiv) with ⟨m, hm, hrange⟩
      exact ⟨m, List.mem_toFinset.mpr hm, hrange⟩
  · have hsymm : Std.Symm (fun i j : Interval α D => range i ≠ range j) := ⟨fun _ _ h => h.symm⟩
    have hranges : merged.Pairwise (fun i j => range i ≠ range j) :=
      hpaired.ascending.imp fun h => h.ne'
    intro i hi j hj hrange
    rw [Finset.mem_coe, hset, List.mem_toFinset] at hi hj
    by_contra hij
    exact hranges.forall hi hj hij hrange
  · rw [hset, List.mem_toFinset] at hm
    exact hpaired.data m hm

/-- Two of three intervals have one range; their data are added. -/
theorem fill_mergeEquals_sums : ∃ t t' : IntervalTree ℕ ℕ,
    fill 44 {⟨0, 2, 7⟩} [⟨2, 6, 8⟩, ⟨2, 6, 9⟩] = .ok t ∧
      t.mergeEquals 44 0 (some fun x y => x + y) none = .ok t' ∧ Exact t' ∧
        t'.allIntervals = {⟨0, 2, 7⟩, ⟨2, 6, 17⟩} := by
  rcases exists_fill 44 {⟨0, 2, 7⟩} [⟨2, 6, 8⟩, ⟨2, 6, 9⟩] (by decide) (by decide) with
    ⟨t, ht, hset⟩
  have hlimit : room t.allIntervals.card + 8 ≤ 44 := by
    rw [hset]
    decide
  have husable : Usable (some fun x y : ℕ => x + y) none := fun _ => rfl
  rcases fill_mergeEquals 0 ht hlimit husable with ⟨t', ht', _, hexact, hranges, _, hdata⟩
  rw [hset] at hexact hranges
  refine ⟨t, t', ht, ht', hexact (by decide), ?_⟩
  have hsort : t.allIntervals.sort (· ≤ ·) = [⟨0, 2, 7⟩, ⟨2, 6, 8⟩, ⟨2, 6, 9⟩] := by
    have hnodup : ([⟨0, 2, 7⟩, ⟨2, 6, 8⟩, ⟨2, 6, 9⟩] : List (Interval ℕ ℕ)).Nodup := by decide
    rw [hset]
    exact (List.toFinset_sort (· ≤ ·) hnodup).mpr (by decide)
  rw [hsort] at hdata
  have hmerged : ∀ m ∈ t'.allIntervals, (range m = toLex (0, 2) → m = ⟨0, 2, 7⟩) ∧
      (range m = toLex (2, 6) → m = ⟨2, 6, 17⟩) := by
    intro m hm
    have hm' := hdata m hm
    rcases m with ⟨b, e, d⟩
    refine ⟨fun hrange => ?_, fun hrange => ?_⟩
    · cases hrange
      rw [Interval.mk.injEq]
      exact ⟨rfl, rfl, hm'⟩
    · cases hrange
      rw [Interval.mk.injEq]
      exact ⟨rfl, rfl, hm'⟩
  have hrange : ∀ r, r ∈ t'.allIntervals.image range ↔ r = toLex (0, 2) ∨ r = toLex (2, 6) := by
    intro r
    rw [hranges]
    simp [range, eq_comm]
  ext m
  rw [Finset.mem_insert, Finset.mem_singleton]
  refine ⟨fun hm => ?_, fun hm => ?_⟩
  · exact ((hrange _).mp (Finset.mem_image_of_mem range hm)).imp (hmerged m hm).1 (hmerged m hm).2
  · rcases hm with rfl | rfl
    · rcases Finset.mem_image.mp ((hrange _).mpr (.inl rfl)) with ⟨m, hm, hat⟩
      exact (hmerged m hm).1 hat ▸ hm
    · rcases Finset.mem_image.mp ((hrange _).mpr (.inr rfl)) with ⟨m, hm, hat⟩
      exact (hmerged m hm).2 hat ▸ hm

end Merging

end CProfiler.Intervals
