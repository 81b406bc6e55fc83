import CProfiler.Foundation.Simulation
import CProfiler.Verification.Intervals.Queries

/-! # The tree as a set

To those who use it a tree is a finite set of intervals. Each command of the tree does to the nodes
what it says of the set, through any run in which the ranges stay separated. -/

namespace CProfiler.Intervals

open Foundation Model Model.Intervals

variable {α D : Type} [LinearOrder α] [LinearOrder D]

/-! ## Commands -/

inductive Command (α D : Type) where
  | add (interval : Interval α D)
  | remove (interval : Interval α D)
  | discard (interval : Interval α D)
  | removeOverlapAt (point : α)
  | removeOverlap (begin end_ : α)
  | removeEnvelop (begin end_ : α)
  | chop (begin end_ : α) (datafunc : Interval α D → Bool → D)
  | slice (point : α) (datafunc : Interval α D → Bool → D)

/-- What a command does to a tree. -/
def Command.run (limit : ℕ) (t : IntervalTree α D) :
    Command α D → Except PyError (IntervalTree α D)
  | .add iv => t.add limit iv
  | .remove iv => t.remove limit iv
  | .discard iv => t.discard limit iv
  | .removeOverlapAt p => t.removeOverlapAt limit p
  | .removeOverlap b e => t.removeOverlap limit b e
  | .removeEnvelop b e => t.removeEnvelop limit b e
  | .chop b e datafunc => t.chop limit b e datafunc
  | .slice p datafunc => t.slice limit p datafunc

/-- The interval begins before the point and reaches over it. -/
def Lower (p : α) (iv : Interval α D) : Prop := iv.begin < p ∧ p < iv.end_

/-- The interval reaches over the point, and may begin there. -/
def Upper (p : α) (iv : Interval α D) : Prop := iv.begin ≤ p ∧ p < iv.end_

instance (p : α) (iv : Interval α D) : Decidable (Lower p iv) :=
  inferInstanceAs (Decidable (_ ∧ _))

instance (p : α) (iv : Interval α D) : Decidable (Upper p iv) :=
  inferInstanceAs (Decidable (_ ∧ _))

/-- The part of an interval before a point. -/
def lowerPart (p : α) (datafunc : Interval α D → Bool → D) (iv : Interval α D) : Interval α D :=
  ⟨iv.begin, p, datafunc iv true⟩

/-- The part of an interval from a point on. -/
def upperPart (p : α) (datafunc : Interval α D → Bool → D) (iv : Interval α D) : Interval α D :=
  ⟨p, iv.end_, datafunc iv false⟩

/-- The set after a chop. An interval that begins at the end of the chop is cut, too, although
nothing of it is chopped off. -/
def chopped (s : Finset (Interval α D)) (b e : α) (datafunc : Interval α D → Bool → D) :
    Finset (Interval α D) :=
  s.filter (fun iv => ¬ (b < e ∧ Within b e iv) ∧ ¬ Lower b iv ∧ ¬ Upper e iv) ∪
    ((s.filter (Lower b)).image (lowerPart b datafunc) ∪
      (s.filter (Upper e)).image (upperPart e datafunc))

/-- The set after a slice. -/
def sliced (s : Finset (Interval α D)) (p : α) (datafunc : Interval α D → Bool → D) :
    Finset (Interval α D) :=
  s.filter (fun iv => ¬ Lower p iv) ∪ ((s.filter (Lower p)).image (lowerPart p datafunc) ∪
    (s.filter (Lower p)).image (upperPart p datafunc))

/-- What a command does to a set of intervals. -/
def Command.effect (s : Finset (Interval α D)) :
    Command α D → Except PyError (Finset (Interval α D))
  | .add iv =>
      if iv ∈ s then .ok s
      else if iv.begin < iv.end_ then .ok (insert iv s)
      else .error .valueError
  | .remove iv => if iv ∈ s then .ok (s.erase iv) else .error .valueError
  | .discard iv => .ok (s.erase iv)
  | .removeOverlapAt p => .ok (s.filter (fun iv => ¬ Upper p iv))
  | .removeOverlap b e => .ok (s.filter (fun iv => ¬ (b < e ∧ Meets b e iv)))
  | .removeEnvelop b e => .ok (s.filter (fun iv => ¬ (b < e ∧ Within b e iv)))
  | .chop b e datafunc => .ok (chopped s b e datafunc)
  | .slice p datafunc => .ok (sliced s p datafunc)

/-! ## Lists of changes -/

variable {t : IntervalTree α D} {s : Finset (Interval α D)} {limit : ℕ}

/-- Some command succeeds and leaves a tree for the set. -/
def Reaches (x : Except PyError (IntervalTree α D)) (s : Finset (Interval α D)) : Prop :=
  ∃ t, x = .ok t ∧ Stands t s

theorem removes_stands {l : List (Interval α D)} (h : Stands t s) (hnodup : l.Nodup)
    (hl : ∀ iv ∈ l, iv ∈ s) (hlimit : Enough limit s.card) :
    Reaches (l.foldlM (fun t iv => t.remove limit iv) t) (s \ l.toFinset) := by
  induction l generalizing t s with
  | nil => exact ⟨t, rfl, by simpa using h⟩
  | cons iv l ih =>
      rcases List.nodup_cons.mp hnodup with ⟨hnot, hnodup⟩
      rcases remove_stands h (hl iv List.mem_cons_self) hlimit with ⟨t', ht', hstands⟩
      rw [List.foldlM_cons, ht', List.toFinset_cons, Finset.sdiff_insert, ← Finset.erase_sdiff_comm]
      refine ih hstands hnodup (fun k hk => Finset.mem_erase.mpr ⟨fun heq => hnot (heq ▸ hk),
        hl k (List.mem_cons_of_mem _ hk)⟩) (hlimit.mono ?_)
      exact Finset.card_le_card (Finset.erase_subset _ _)

theorem discards_stands {l : List (Interval α D)} (h : Stands t s)
    (hlimit : Enough limit s.card) : Reaches (t.differenceUpdate limit l) (s \ l.toFinset) := by
  rw [IntervalTree.differenceUpdate]
  induction l generalizing t s with
  | nil => exact ⟨t, rfl, by simpa using h⟩
  | cons iv l ih =>
      rcases discard_stands h hlimit iv with ⟨t', ht', hstands⟩
      rw [List.foldlM_cons, ht', List.toFinset_cons, Finset.sdiff_insert, ← Finset.erase_sdiff_comm]
      exact ih hstands (hlimit.mono (Finset.card_le_card (Finset.erase_subset _ _)))

theorem adds_stands {l : List (Interval α D)} (h : Stands t s)
    (hnull : ∀ iv ∈ l, iv.begin < iv.end_) (hsep : Separated (s ∪ l.toFinset))
    (hlimit : Enough limit (s ∪ l.toFinset).card) :
    Reaches (t.update limit l) (s ∪ l.toFinset) := by
  rw [IntervalTree.update]
  induction l generalizing t s with
  | nil => exact ⟨t, rfl, by simpa using h⟩
  | cons iv l ih =>
      have hless := hlimit.mono (Finset.card_le_card (Finset.subset_union_left))
      rw [List.toFinset_cons, Finset.union_insert, ← Finset.insert_union] at hsep hlimit ⊢
      rcases add_stands h (hnull iv List.mem_cons_self) (hsep.subset Finset.subset_union_left)
        hless with ⟨t', ht', hstands⟩
      rw [List.foldlM_cons, ht']
      exact ih hstands (fun k hk => hnull k (List.mem_cons_of_mem _ hk)) hsep hlimit

/-! ## One command -/

theorem removeAll_stands {hitlist : Finset (Interval α D)} (h : Stands t s)
    (hhits : hitlist ⊆ s) (hlimit : Enough limit s.card) :
    Reaches (t.removeAll limit hitlist) (s \ hitlist) := by
  have hremoves := removes_stands h (Finset.sort_nodup hitlist (· ≤ ·))
    (fun iv hiv => hhits ((Finset.mem_sort _).mp hiv)) hlimit
  rwa [Finset.sort_toFinset] at hremoves

omit [LinearOrder D] in
theorem upper_iff {p : α} {iv : Interval α D} : iv.containsPoint p = true ↔ Upper p iv :=
  containsPoint_iff

theorem removeOverlapAt_stands (h : Stands t s) (hlimit : Enough limit s.card) (p : α) :
    Reaches (t.removeOverlapAt limit p) (s.filter (fun iv => ¬ Upper p iv)) := by
  rw [IntervalTree.removeOverlapAt, searchAt_eq h.exact_, h.allIntervals]
  simp only [upper_iff, Finset.filter_not]
  exact removeAll_stands h (Finset.filter_subset _ _) hlimit

theorem removeOverlap_stands (h : Stands t s) (hlimit : Enough limit s.card) (b e : α) :
    Reaches (t.removeOverlap limit b e) (s.filter (fun iv => ¬ (b < e ∧ Meets b e iv))) := by
  rw [IntervalTree.removeOverlap, search_eq h.exact_, h.allIntervals]
  simp only [Bool.false_eq_true, false_implies, and_true, Finset.filter_not]
  exact removeAll_stands h (Finset.filter_subset _ _) hlimit

omit [LinearOrder D] in
theorem within_meets {b e : α} {iv : Interval α D} (hiv : iv.begin < iv.end_) :
    b < e ∧ Meets b e iv ∧ Within b e iv ↔ b < e ∧ Within b e iv := by
  refine ⟨fun h => ⟨h.1, h.2.2⟩, fun h => ⟨h.1, ?_, h.2⟩⟩
  exact ⟨hiv.trans_le h.2.2, h.2.1.trans_lt hiv⟩

theorem removeEnvelop_stands (h : Stands t s) (hlimit : Enough limit s.card) (b e : α) :
    Reaches (t.removeEnvelop limit b e) (s.filter (fun iv => ¬ (b < e ∧ Within b e iv))) := by
  have hhits : t.search b e true = s.filter (fun iv => b < e ∧ Within b e iv) := by
    rw [search_eq h.exact_, h.allIntervals]
    refine Finset.filter_congr fun iv hiv => ?_
    simp only [true_implies, within_meets (h.exact_.proper iv (h.allIntervals.symm ▸ hiv))]
  rw [IntervalTree.removeEnvelop, hhits, Finset.filter_not]
  exact removeAll_stands h (Finset.filter_subset _ _) hlimit

theorem lowerHits_eq (h : Stands t s) (p : α) :
    (t.searchAt p).filter (fun iv => iv.begin < p) = s.filter (Lower p) := by
  rw [searchAt_eq h.exact_, h.allIntervals, Finset.filter_filter]
  refine Finset.filter_congr fun iv _ => ?_
  rw [upper_iff, Upper, Lower]
  exact ⟨fun hp => ⟨hp.2, hp.1.2⟩, fun hp => ⟨⟨hp.1.le, hp.2⟩, hp.1⟩⟩

theorem upperHits_eq (h : Stands t s) (p : α) :
    (t.searchAt p).filter (fun iv => iv.end_ > p) = s.filter (Upper p) := by
  rw [searchAt_eq h.exact_, h.allIntervals, Finset.filter_filter]
  refine Finset.filter_congr fun iv _ => ?_
  rw [upper_iff, Upper]
  exact ⟨fun hp => hp.1, fun hp => ⟨hp, hp.2⟩⟩

theorem chop_stands (h : Stands t s) {b e : α} {datafunc : Interval α D → Bool → D}
    (hsep : Separated (chopped s b e datafunc)) (hlimit : Enough limit s.card)
    (hlimit' : Enough limit (chopped s b e datafunc).card) :
    Reaches (t.chop limit b e datafunc) (chopped s b e datafunc) := by
  rw [IntervalTree.chop, lowerHits_eq h, upperHits_eq h]
  generalize hlow : s.filter (Lower b) = low
  generalize hup : s.filter (Upper e) = up
  have hless : ∀ {s' : Finset (Interval α D)}, s' ⊆ s → Enough limit s'.card :=
    fun hsub => hlimit.mono (Finset.card_le_card hsub)
  rcases removeEnvelop_stands h hlimit b e with ⟨t₁, ht₁, h₁⟩
  rcases discards_stands (l := low.sort (· ≤ ·)) h₁ (hless (Finset.filter_subset _ _)) with
    ⟨t₂, ht₂, h₂⟩
  rcases discards_stands (l := up.sort (· ≤ ·)) h₂
    (hless (Finset.sdiff_subset.trans (Finset.filter_subset _ _))) with ⟨t₃, ht₃, h₃⟩
  rw [Finset.sort_toFinset, Finset.sort_toFinset] at h₃
  have hset : ((s.filter (fun iv => ¬ (b < e ∧ Within b e iv)) \ low) \ up) ∪
      (low.image (lowerPart b datafunc) ∪ up.image (upperPart e datafunc)) =
        chopped s b e datafunc := by
    rw [chopped, hlow, hup]
    congr 1
    ext iv
    rw [← hlow, ← hup]
    simp only [Finset.mem_sdiff, Finset.mem_filter]
    tauto
  generalize hins : low.image (lowerPart b datafunc) ∪ up.image (upperPart e datafunc) = ins
    at hset
  have hnull : ∀ iv ∈ ins.sort (· ≤ ·), iv.begin < iv.end_ := by
    intro iv hiv
    rw [Finset.mem_sort, ← hins, Finset.mem_union, Finset.mem_image, Finset.mem_image] at hiv
    rcases hiv with ⟨k, hk, rfl⟩ | ⟨k, hk, rfl⟩
    · rw [← hlow, Finset.mem_filter] at hk
      exact hk.2.1
    · rw [← hup, Finset.mem_filter] at hk
      exact hk.2.2
  rw [← hset, ← Finset.sort_toFinset ins (· ≤ ·)] at hsep hlimit'
  have hadds := adds_stands h₃ hnull hsep hlimit'
  rw [Finset.sort_toFinset, hset, ← hins] at hadds
  simp only [bind, Except.bind, ht₁, ht₂, ht₃]
  exact hadds

theorem slice_stands (h : Stands t s) {p : α} {datafunc : Interval α D → Bool → D}
    (hsep : Separated (sliced s p datafunc)) (hlimit : Enough limit s.card)
    (hlimit' : Enough limit (sliced s p datafunc).card) :
    Reaches (t.slice limit p datafunc) (sliced s p datafunc) := by
  rw [IntervalTree.slice, lowerHits_eq h]
  generalize hlow : s.filter (Lower p) = low
  rcases discards_stands (l := low.sort (· ≤ ·)) h hlimit with ⟨t₁, ht₁, h₁⟩
  rw [Finset.sort_toFinset] at h₁
  have hset : (s \ low) ∪ (low.image (lowerPart p datafunc) ∪ low.image (upperPart p datafunc)) =
      sliced s p datafunc := by
    rw [sliced, Finset.filter_not, hlow]
  generalize hins : low.image (lowerPart p datafunc) ∪ low.image (upperPart p datafunc) = ins
    at hset
  have hnull : ∀ iv ∈ ins.sort (· ≤ ·), iv.begin < iv.end_ := by
    intro iv hiv
    rw [Finset.mem_sort, ← hins, Finset.mem_union, Finset.mem_image, Finset.mem_image] at hiv
    rcases hiv with ⟨k, hk, rfl⟩ | ⟨k, hk, rfl⟩
    · rw [← hlow, Finset.mem_filter] at hk
      exact hk.2.1
    · rw [← hlow, Finset.mem_filter] at hk
      exact hk.2.2
  rw [← hset, ← Finset.sort_toFinset ins (· ≤ ·)] at hsep hlimit'
  have hadds := adds_stands h₁ hnull hsep hlimit'
  rw [Finset.sort_toFinset, hset, ← hins] at hadds
  simp only [bind, Except.bind, ht₁]
  exact hadds

/-! ## Runs -/

/-- The sets of a run: separated, and not too many for the recursion limit. -/
structure Tame (limit : ℕ) (s : Finset (Interval α D)) : Prop where
  separated : Separated s
  enough : Enough limit s.card

theorem command_follows (h : Stands t s) (c : Command α D) (hs : Tame limit s)
    (hs' : ∀ s', c.effect s = .ok s' → Tame limit s') :
    Follows Stands (c.run limit t) (c.effect s) := by
  have hset := h.allIntervals
  have hlimit := hs.enough
  cases c with
  | add iv =>
      rw [Command.effect] at hs' ⊢
      by_cases hiv : iv ∈ s
      · rw [if_pos hiv]
        exact Follows.ok_iff.mpr ⟨t, if_pos (hset.symm ▸ hiv), h⟩
      · rw [if_neg hiv] at hs' ⊢
        have hnot : iv ∉ t.allIntervals := hset.symm ▸ hiv
        by_cases hnull : iv.begin < iv.end_
        · rw [if_pos hnull] at hs' ⊢
          exact Follows.ok_iff.mpr (add_stands h hnull (hs' _ rfl).separated hlimit)
        · rw [if_neg hnull, Follows.error_iff, Command.run, IntervalTree.add, if_neg hnot,
            if_pos (isNull_eq_true_iff.mpr hnull)]
  | remove iv =>
      rw [Command.effect]
      by_cases hiv : iv ∈ s
      · rw [if_pos hiv]
        exact Follows.ok_iff.mpr (remove_stands h hiv hlimit)
      · have hnot : iv ∉ t.allIntervals := hset.symm ▸ hiv
        rw [if_neg hiv, Follows.error_iff, Command.run, IntervalTree.remove, if_pos hnot]
  | discard iv => exact Follows.ok_iff.mpr (discard_stands h hlimit iv)
  | removeOverlapAt p => exact Follows.ok_iff.mpr (removeOverlapAt_stands h hlimit p)
  | removeOverlap b e => exact Follows.ok_iff.mpr (removeOverlap_stands h hlimit b e)
  | removeEnvelop b e => exact Follows.ok_iff.mpr (removeEnvelop_stands h hlimit b e)
  | chop b e datafunc =>
      have htame := hs' _ rfl
      exact Follows.ok_iff.mpr (chop_stands h htame.separated hlimit htame.enough)
  | slice p datafunc =>
      have htame := hs' _ rfl
      exact Follows.ok_iff.mpr (slice_stands h htame.separated hlimit htame.enough)

/-- The runs of trees follow those of sets. -/
theorem commands_follow (h : Stands t s) {commands : List (Command α D)}
    (halong : Along (fun s c => Command.effect s c) (Tame limit) s commands) :
    Follows Stands (commands.foldlM (fun t c => c.run limit t) t)
      (commands.foldlM (fun s c => c.effect s) s) :=
  Follows.foldlM (fun _ _ c hs hs' hst => command_follows hst c hs hs') halong h

end CProfiler.Intervals
