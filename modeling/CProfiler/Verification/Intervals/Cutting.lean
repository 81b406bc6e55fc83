import CProfiler.Verification.Intervals.Commands

/-! # Cutting

What is left of the points of a set after a chop and after a slice. Cutting never makes separated
ranges overlap. -/

namespace CProfiler.Intervals

open Foundation Model Model.Intervals

variable {α D : Type} [LinearOrder α] [LinearOrder D]

/-- The points that some interval of the set holds. -/
def Covered (s : Finset (Interval α D)) (p : α) : Prop := ∃ iv ∈ s, ends.Holds iv p

variable {s : Finset (Interval α D)} {b e p : α} {datafunc : Interval α D → Bool → D}
  {iv : Interval α D}

/-! ## What is in the sets -/

theorem mem_chopped : iv ∈ chopped s b e datafunc ↔
    (iv ∈ s ∧ ¬ (b < e ∧ Within b e iv) ∧ ¬ Lower b iv ∧ ¬ Upper e iv) ∨
      (∃ k ∈ s, Lower b k ∧ lowerPart b datafunc k = iv) ∨
        ∃ k ∈ s, Upper e k ∧ upperPart e datafunc k = iv := by
  simp only [chopped, Finset.mem_union, Finset.mem_filter, Finset.mem_image, and_assoc]

theorem mem_sliced : iv ∈ sliced s p datafunc ↔
    (iv ∈ s ∧ ¬ Lower p iv) ∨ (∃ k ∈ s, Lower p k ∧ lowerPart p datafunc k = iv) ∨
      ∃ k ∈ s, Lower p k ∧ upperPart p datafunc k = iv := by
  simp only [sliced, Finset.mem_union, Finset.mem_filter, Finset.mem_image, and_assoc]

/-! ## Points -/

/-- Chopping takes away the points of the range and no others. -/
theorem covered_chopped (hbe : b ≤ e) :
    Covered (chopped s b e datafunc) p ↔ Covered s p ∧ ¬ (b ≤ p ∧ p < e) := by
  refine ⟨fun hcovered => ?_, fun hleft => ?_⟩
  · rcases hcovered with ⟨iv, hiv, hp⟩
    rcases mem_chopped.mp hiv with
      ⟨hiv, hwithin, hlow, hup⟩ | ⟨k, hk, hlow, rfl⟩ | ⟨k, hk, hup, rfl⟩
    · refine ⟨⟨iv, hiv, hp⟩, fun hin => hwithin ⟨hin.1.trans_lt hin.2, ?_, ?_⟩⟩
      · exact not_lt.mp fun hlt => hlow ⟨hlt, hin.1.trans_lt hp.2⟩
      · exact not_lt.mp fun hlt => hup ⟨hp.1.trans hin.2.le, hlt⟩
    · have hlt : p < b := hp.2
      exact ⟨⟨k, hk, hp.1, hlt.trans hlow.2⟩, fun hin => absurd hlt (not_lt.mpr hin.1)⟩
    · have hle : e ≤ p := hp.1
      exact ⟨⟨k, hk, hup.1.trans hle, hp.2⟩, fun hin => absurd hin.2 (not_lt.mpr hle)⟩
  · rcases hleft with ⟨⟨iv, hiv, hp⟩, hout⟩
    by_cases hup : Upper e iv ∧ e ≤ p
    · exact ⟨_, mem_chopped.mpr (.inr (.inr ⟨iv, hiv, hup.1, rfl⟩)), hup.2, hp.2⟩
    · by_cases hlow : Lower b iv ∧ p < b
      · exact ⟨_, mem_chopped.mpr (.inr (.inl ⟨iv, hiv, hlow.1, rfl⟩)), hp.1, hlow.2⟩
      · -- neither part holds the point, so the interval is left as it is
        refine ⟨iv, mem_chopped.mpr (.inl ⟨hiv, fun hwithin => ?_, fun hiv => ?_,
          fun hiv => ?_⟩), hp⟩
        · exact hout ⟨hwithin.2.1.trans hp.1, hp.2.trans_le hwithin.2.2⟩
        · have hle : b ≤ p := not_lt.mp fun hlt => hlow ⟨hiv, hlt⟩
          have hge : e ≤ p := not_lt.mp fun hlt => hout ⟨hle, hlt⟩
          exact hup ⟨⟨hiv.1.le.trans hbe, hge.trans_lt hp.2⟩, hge⟩
        · have hlt : p < e := not_le.mp fun hge => hup ⟨hiv, hge⟩
          have hltb : p < b := not_le.mp fun hle => hout ⟨hle, hlt⟩
          exact hlow ⟨⟨hp.1.trans_lt hltb, hbe.trans_lt hiv.2⟩, hltb⟩

/-- Slicing takes no point away. -/
theorem covered_sliced {q : α} : Covered (sliced s p datafunc) q ↔ Covered s q := by
  refine ⟨fun hcovered => ?_, fun hcovered => ?_⟩
  · rcases hcovered with ⟨iv, hiv, hq⟩
    rcases mem_sliced.mp hiv with ⟨hiv, _⟩ | ⟨k, hk, hlow, rfl⟩ | ⟨k, hk, hlow, rfl⟩
    · exact ⟨iv, hiv, hq⟩
    · exact ⟨k, hk, hq.1, hq.2.trans hlow.2⟩
    · exact ⟨k, hk, hlow.1.le.trans hq.1, hq.2⟩
  · rcases hcovered with ⟨iv, hiv, hq⟩
    by_cases hlow : Lower p iv
    · rcases lt_or_ge q p with hlt | hge
      · exact ⟨_, mem_sliced.mpr (.inr (.inl ⟨iv, hiv, hlow, rfl⟩)), hq.1, hlt⟩
      · exact ⟨_, mem_sliced.mpr (.inr (.inr ⟨iv, hiv, hlow, rfl⟩)), hge, hq.2⟩
    · exact ⟨iv, mem_sliced.mpr (.inl ⟨hiv, hlow⟩), hq⟩

/-- No interval reaches over a point that the set has been sliced at. -/
theorem not_lower_of_sliced (hiv : iv ∈ sliced s p datafunc) : ¬ Lower p iv := by
  rcases mem_sliced.mp hiv with ⟨_, hlow⟩ | ⟨k, _, _, rfl⟩ | ⟨k, _, _, rfl⟩
  · exact hlow
  · exact fun hlow => lt_irrefl p hlow.2
  · exact fun hlow => lt_irrefl p hlow.1

/-- Of a set that has been sliced already the slice is the set. -/
theorem sliced_eq_self (h : ∀ iv ∈ s, ¬ Lower p iv) : sliced s p datafunc = s := by
  have hnone : s.filter (Lower p) = ∅ := Finset.filter_eq_empty_iff.mpr fun iv hiv => h iv hiv
  rw [sliced, hnone, Finset.image_empty, Finset.image_empty, Finset.union_empty,
    Finset.union_empty, Finset.filter_true_of_mem h]

/-- Nothing but the intervals that the chop cuts off or cuts through is changed. -/
theorem mem_chopped_of_outside (hiv : iv ∈ s) (hproper : iv.begin < iv.end_)
    (hout : iv.end_ ≤ b ∨ e < iv.begin) (hbe : b ≤ e) : iv ∈ chopped s b e datafunc := by
  refine mem_chopped.mpr (.inl ⟨hiv, fun h => ?_, fun h => ?_, fun h => ?_⟩)
  · rcases hout with hle | hlt
    · exact absurd (h.2.1.trans_lt hproper) (not_lt.mpr hle)
    · exact absurd (hproper.trans_le h.2.2) (not_lt.mpr hlt.le)
  · rcases hout with hle | hlt
    · exact absurd h.2 (not_lt.mpr hle)
    · exact absurd (h.1.trans_le hbe) (not_lt.mpr hlt.le)
  · rcases hout with hle | hlt
    · exact absurd (hbe.trans_lt h.2) (not_lt.mpr hle)
    · exact absurd h.1 (not_le.mpr hlt)

/-! ## Ranges -/

/-- A property of the range of an interval, whatever its data are. -/
def Ranged (P : Interval α D → Prop) : Prop :=
  ∀ i j : Interval α D, i.begin = j.begin → i.end_ = j.end_ → P i → P j

omit [LinearOrder D] in
theorem ranged_lower (p : α) : Ranged (Lower (D := D) p) :=
  fun _ _ hb he h => ⟨hb ▸ h.1, he ▸ h.2⟩

omit [LinearOrder D] in
theorem ranged_upper (p : α) : Ranged (Upper (D := D) p) :=
  fun _ _ hb he h => ⟨hb ▸ h.1, he ▸ h.2⟩

/-- What becomes of an interval that is cut: the whole, the part before `b`, or the part from `e`
on. -/
inductive Piece (low up : Interval α D → Prop) (b e : α) (k : Interval α D) :
    Interval α D → Prop where
  | whole (hlow : ¬ low k) (hup : ¬ up k) : Piece low up b e k k
  | lower (hlow : low k) (data : D) : Piece low up b e k ⟨k.begin, b, data⟩
  | upper (hup : up k) (data : D) : Piece low up b e k ⟨e, k.end_, data⟩

variable {low up : Interval α D → Prop}

omit [LinearOrder D] in
/-- The pieces lie in the interval. -/
theorem Piece.within {k : Interval α D} (h : Piece low up b e k iv)
    (hlow : ∀ i, low i → b ≤ i.end_) (hup : ∀ i, up i → i.begin ≤ e) :
    k.begin ≤ iv.begin ∧ iv.end_ ≤ k.end_ := by
  cases h with
  | whole _ _ => exact ⟨le_rfl, le_rfl⟩
  | lower h _ => exact ⟨le_rfl, hlow k h⟩
  | upper h _ => exact ⟨hup k h, le_rfl⟩

omit [LinearOrder D] in
/-- Pieces of one range are the same range, or lie on the two sides of the cut. -/
theorem Piece.apart {i j i' j' : Interval α D} (hi : Piece low up b e i i')
    (hj : Piece low up b e j j') (hb : i.begin = j.begin) (he : i.end_ = j.end_) (hbe : b ≤ e)
    (hlow : Ranged low) (hup : Ranged up) : ends.Apart i' j' := by
  cases hi with
  | whole hnlow hnup =>
      cases hj with
      | whole _ _ => exact .inl ⟨hb, he⟩
      | lower h _ => exact absurd (hlow j i hb.symm he.symm h) hnlow
      | upper h _ => exact absurd (hup j i hb.symm he.symm h) hnup
  | lower h _ =>
      cases hj with
      | whole hnlow _ => exact absurd (hlow i j hb he h) hnlow
      | lower _ _ => exact .inl ⟨hb, rfl⟩
      | upper _ _ => exact .inr (.inl hbe)
  | upper h _ =>
      cases hj with
      | whole _ hnup => exact absurd (hup i j hb he h) hnup
      | lower _ _ => exact .inr (.inr hbe)
      | upper _ _ => exact .inl ⟨rfl, he⟩

omit [LinearOrder D] in
/-- A set of pieces of separated intervals is separated. -/
theorem separated_of_pieces {s' : Finset (Interval α D)} (h : Separated s) (hbe : b ≤ e)
    (hs' : ∀ iv ∈ s', ∃ k ∈ s, Piece low up b e k iv) (hlow : Ranged low) (hup : Ranged up)
    (hlowb : ∀ i, low i → b ≤ i.end_) (hupe : ∀ i, up i → i.begin ≤ e) : Separated s' := by
  intro i' hi' j' hj'
  rcases hs' i' hi' with ⟨i, hi, hi'⟩
  rcases hs' j' hj' with ⟨j, hj, hj'⟩
  have hwi := hi'.within hlowb hupe
  have hwj := hj'.within hlowb hupe
  rcases h i hi j hj with heq | hij | hji
  · exact hi'.apart hj' heq.1 heq.2 hbe hlow hup
  · exact .inr (.inl (hwi.2.trans (hij.trans hwj.1)))
  · exact .inr (.inr (hwj.2.trans (hji.trans hwi.1)))

/-- A chop from `b` on to `e` keeps separated ranges separated. -/
theorem separated_chopped (h : Separated s) (hbe : b ≤ e) :
    Separated (chopped s b e datafunc) := by
  refine separated_of_pieces h hbe (fun iv hiv => ?_) (ranged_lower b) (ranged_upper e)
    (fun _ hlow => hlow.2.le) (fun _ hup => hup.1)
  rcases mem_chopped.mp hiv with ⟨hiv, _, hlow, hup⟩ | ⟨k, hk, hlow, rfl⟩ | ⟨k, hk, hup, rfl⟩
  · exact ⟨iv, hiv, .whole hlow hup⟩
  · exact ⟨k, hk, .lower hlow _⟩
  · exact ⟨k, hk, .upper hup _⟩

/-- A slice keeps separated ranges separated. -/
theorem separated_sliced (h : Separated s) : Separated (sliced s p datafunc) := by
  refine separated_of_pieces h le_rfl (fun iv hiv => ?_) (ranged_lower p) (ranged_lower p)
    (fun _ hlow => hlow.2.le) (fun _ hup => hup.1.le)
  rcases mem_sliced.mp hiv with ⟨hiv, hlow⟩ | ⟨k, hk, hlow, rfl⟩ | ⟨k, hk, hlow, rfl⟩
  · exact ⟨iv, hiv, .whole hlow hlow⟩
  · exact ⟨k, hk, .lower hlow _⟩
  · exact ⟨k, hk, .upper hlow _⟩

/-! ## The trees -/

variable {t : IntervalTree α D} {limit : ℕ}

/-- The pieces are at most two for every interval. -/
theorem card_pieces_le (keep low up : Interval α D → Prop) [DecidablePred keep]
    [DecidablePred low] [DecidablePred up] (f g : Interval α D → Interval α D)
    (hkeep : ∀ iv, keep iv → ¬ low iv ∧ ¬ up iv) :
    (s.filter keep ∪ ((s.filter low).image f ∪ (s.filter up).image g)).card ≤ 2 * s.card := by
  have hunion := Finset.card_union_le (s.filter keep)
    ((s.filter low).image f ∪ (s.filter up).image g)
  have hunion' := Finset.card_union_le ((s.filter low).image f) ((s.filter up).image g)
  have hlow : ((s.filter low).image f).card ≤ (s.filter low).card := Finset.card_image_le
  have hup : ((s.filter up).image g).card ≤ (s.filter up).card := Finset.card_image_le
  have hsum : ∀ q : Interval α D → Prop, [DecidablePred q] → (∀ iv, keep iv → ¬ q iv) →
      (s.filter keep).card + (s.filter q).card ≤ s.card := by
    intro q _ hq
    rw [← Finset.card_union_of_disjoint (Finset.disjoint_filter.mpr fun iv _ => hq iv)]
    exact Finset.card_le_card (Finset.union_subset (Finset.filter_subset _ _)
      (Finset.filter_subset _ _))
  have hsumlow := hsum low fun iv h => (hkeep iv h).1
  have hsumup := hsum up fun iv h => (hkeep iv h).2
  omega

theorem card_chopped_le : (chopped s b e datafunc).card ≤ 2 * s.card :=
  card_pieces_le _ (Lower b) (Upper e) _ _ fun _ h => ⟨h.2.1, h.2.2⟩

theorem card_sliced_le : (sliced s p datafunc).card ≤ 2 * s.card :=
  card_pieces_le _ (Lower p) (Lower p) _ _ fun _ h => ⟨h, h⟩

/-- What a chop leaves of a tree: no point of the range, and everything else. -/
theorem chop_covered (datafunc : Interval α D → Bool → D) (h : Stands t s) (hbe : b ≤ e)
    (hlimit : Enough limit (2 * s.card)) :
    ∃ t', t.chop limit b e datafunc = .ok t' ∧ Stands t' (chopped s b e datafunc) ∧
      (∀ p, Covered t'.allIntervals p ↔ Covered t.allIntervals p ∧ ¬ (b ≤ p ∧ p < e)) ∧
      ∀ iv ∈ t.allIntervals, iv.end_ ≤ b ∨ e < iv.begin → iv ∈ t'.allIntervals := by
  have hsep : Separated s := h.allIntervals ▸ h.exact_.separated
  have hsep' : Separated (chopped s b e datafunc) := separated_chopped hsep hbe
  rcases chop_stands h hsep' (hlimit.mono (Nat.le_mul_of_pos_left _ Nat.two_pos))
    (hlimit.mono card_chopped_le) with ⟨t', ht', hstands⟩
  refine ⟨t', ht', hstands, fun p => ?_, fun iv hiv hout => ?_⟩
  · rw [hstands.allIntervals, h.allIntervals]
    exact covered_chopped hbe
  · rw [hstands.allIntervals]
    exact mem_chopped_of_outside (h.allIntervals ▸ hiv) (h.exact_.proper iv hiv) hout hbe

/-- Two intervals of one range, of which one is added behind, and a neighbour. -/
def neighbours : Except PyError (IntervalTree ℕ ℕ) := do
  let t ← IntervalTree.init 18 {⟨0, 9, 7⟩, ⟨9, 12, 3⟩}
  t.add 18 ⟨0, 9, 8⟩

theorem exists_neighbours :
    ∃ t, neighbours = .ok t ∧ Stands t {⟨0, 9, 8⟩, ⟨0, 9, 7⟩, ⟨9, 12, 3⟩} := by
  have henough : Enough 18 2 := enough_of_lt_fib (h := 2) (by decide) (by decide)
  have hproper : ∀ iv ∈ ({⟨0, 9, 7⟩, ⟨9, 12, 3⟩} : Finset (Interval ℕ ℕ)), iv.begin < iv.end_ := by
    decide
  rcases init_stands hproper (by decide) henough with ⟨t, ht, hstands⟩
  have hnull : (⟨0, 9, 8⟩ : Interval ℕ ℕ).begin < 9 := by decide
  rcases add_stands hstands hnull (by decide) henough with ⟨t', ht', hstands'⟩
  refine ⟨t', ?_, hstands'⟩
  rw [neighbours, ht]
  exact ht'

theorem chop_covered_middle : ∃ t t' : IntervalTree ℕ ℕ,
    neighbours = .ok t ∧ t.chop 18 3 10 (fun iv _ => iv.data) = .ok t' ∧
      (∀ p, Covered t'.allIntervals p ↔ Covered t.allIntervals p ∧ ¬ (3 ≤ p ∧ p < 10)) ∧
        t'.allIntervals = {⟨0, 3, 7⟩, ⟨0, 3, 8⟩, ⟨10, 12, 3⟩} := by
  rcases exists_neighbours with ⟨t, ht, hstands⟩
  have henough : Enough 18 6 := enough_of_lt_fib (h := 3) (by decide) (by decide)
  have hle : 3 ≤ 10 := by decide
  rcases chop_covered (fun iv _ => iv.data) hstands hle henough with
    ⟨t', ht', hstands', hcovered, _⟩
  refine ⟨t, t', ht, ht', hcovered, hstands'.allIntervals.trans ?_⟩
  decide

/-- A slice cuts every interval that reaches over the point, and another one at the same point
changes nothing more. -/
theorem slice_covered (p : α) (datafunc : Interval α D → Bool → D) (h : Stands t s)
    (hlimit : Enough limit (2 * s.card)) :
    ∃ t', t.slice limit p datafunc = .ok t' ∧ Stands t' (sliced s p datafunc) ∧
      (∀ q, Covered t'.allIntervals q ↔ Covered t.allIntervals q) ∧
      (∀ iv ∈ t'.allIntervals, ¬ Lower p iv) ∧
      ∃ t'', t'.slice limit p datafunc = .ok t'' ∧ Stands t'' (sliced s p datafunc) := by
  have hsep : Separated s := h.allIntervals ▸ h.exact_.separated
  have hsep' : Separated (sliced s p datafunc) := separated_sliced hsep
  have hlimit' : Enough limit (sliced s p datafunc).card := hlimit.mono card_sliced_le
  rcases slice_stands h hsep' (hlimit.mono (Nat.le_mul_of_pos_left _ Nat.two_pos)) hlimit' with
    ⟨t', ht', hstands⟩
  have hcut : ∀ iv ∈ sliced s p datafunc, ¬ Lower p iv := fun iv hiv => not_lower_of_sliced hiv
  have hself : sliced (sliced s p datafunc) p datafunc = sliced s p datafunc := sliced_eq_self hcut
  have hagain : Reaches (t'.slice limit p datafunc) (sliced (sliced s p datafunc) p datafunc) :=
    slice_stands hstands (hself.symm ▸ hsep') hlimit' (hself.symm ▸ hlimit')
  rw [hself] at hagain
  refine ⟨t', ht', hstands, fun q => ?_, fun iv hiv => ?_, hagain⟩
  · rw [hstands.allIntervals, h.allIntervals]
    exact covered_sliced
  · exact hcut iv (hstands.allIntervals ▸ hiv)

theorem slice_covered_middle : ∃ t t' : IntervalTree ℕ ℕ,
    neighbours = .ok t ∧ t.slice 18 3 (fun iv _ => iv.data) = .ok t' ∧
      (∀ q, Covered t'.allIntervals q ↔ Covered t.allIntervals q) ∧
        t'.allIntervals = {⟨0, 3, 7⟩, ⟨3, 9, 7⟩, ⟨0, 3, 8⟩, ⟨3, 9, 8⟩, ⟨9, 12, 3⟩} := by
  rcases exists_neighbours with ⟨t, ht, hstands⟩
  have henough : Enough 18 6 := enough_of_lt_fib (h := 3) (by decide) (by decide)
  rcases slice_covered 3 (fun iv _ => iv.data) hstands henough with
    ⟨t', ht', hstands', hcovered, _⟩
  refine ⟨t, t', ht, ht', hcovered, hstands'.allIntervals.trans ?_⟩
  decide

end CProfiler.Intervals
