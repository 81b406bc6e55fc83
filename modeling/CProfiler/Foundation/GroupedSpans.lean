import CProfiler.Foundation.SpanTable

/-! Tables of intervals that arrive in groups. Of two groups with an interval at the same
start the later one overwrites the other's entry; the order of the groups is immaterial when
their last intervals there answer alike. -/

namespace CProfiler.Foundation.LabelledInterval

variable {γ ω : Type*} {M a : ℕ}

/-! ## The last interval with a start -/

theorem lastStart_append_iff {l l' : List (LabelledInterval ω)} {i : LabelledInterval ω} :
    LastStart (l ++ l') i ↔ LastStart l' i ∨ LastStart l i ∧ ∀ j ∈ l', j.start ≠ i.start := by
  constructor
  · rintro ⟨pre, post, heq, hpost⟩
    rcases List.append_eq_append_iff.mp heq with ⟨mid, rfl, rfl⟩ | ⟨mid, rfl, hcons⟩
    · exact .inl ⟨mid, post, rfl, hpost⟩
    · cases mid with
      | nil => exact .inl ⟨[], post, by simpa using hcons.symm, hpost⟩
      | cons k mid =>
          obtain ⟨rfl, rfl⟩ := List.cons.inj hcons
          exact .inr ⟨⟨pre, mid, rfl, fun j hj => hpost j (List.mem_append_left _ hj)⟩,
            fun j hj => hpost j (List.mem_append_right _ hj)⟩
  · rintro (⟨pre, post, rfl, hpost⟩ | ⟨⟨pre, post, rfl, hpost⟩, hafter⟩)
    · exact ⟨l ++ pre, post, by simp, hpost⟩
    · refine ⟨pre, post ++ l', by simp, fun j hj => ?_⟩
      rcases List.mem_append.mp hj with hj | hj
      · exact hpost j hj
      · exact hafter j hj

theorem LastStart.unique {l : List (LabelledInterval ω)} {i j : LabelledInterval ω}
    (hi : LastStart l i) (hj : LastStart l j) (hstart : i.start = j.start) : i = j := by
  obtain ⟨pre, post, rfl, hpost⟩ := hi
  rcases lastStart_append_iff.mp hj with hj | ⟨-, hafter⟩
  · rcases lastStart_append_iff (l := [i]).mp hj with ⟨pre', post', rfl, -⟩ | ⟨hj, -⟩
    · exact absurd hstart.symm (hpost j (by simp))
    · exact (List.mem_singleton.mp hj.mem).symm
  · exact absurd hstart (hafter i List.mem_cons_self)

theorem exists_governs {l : List (LabelledInterval ω)} {j : LabelledInterval ω} (hj : j ∈ l)
    (hle : j.start ≤ a) : ∃ i, Governs l a i := by
  cases hnear : nearest a (l.map (entry 1)) with
  | none =>
      exact absurd hle (not_le.mpr (nearest_eq_none_iff.mp hnear _ (List.mem_map_of_mem hj)))
  | some x =>
      obtain ⟨i, -, hi⟩ := exists_of_nearest hnear
      exact ⟨i, hi⟩

theorem Governs.unique {l : List (LabelledInterval ω)} {i j : LabelledInterval ω}
    (hi : Governs l a i) (hj : Governs l a j) : i = j := by
  have hij := hj.greatest i hi.last.mem hi.start_le
  have hji := hi.greatest j hj.last.mem hj.start_le
  exact hi.last.unique hj.last (le_antisymm hij hji)

/-! ## Groups -/

variable (f : γ → List (LabelledInterval ω))

/-- The last interval of all groups is the last one of its own. -/
theorem exists_group {us : List γ} {i : LabelledInterval ω} (h : LastStart (us.flatMap f) i) :
    ∃ u ∈ us, LastStart (f u) i := by
  induction us with
  | nil =>
      obtain ⟨pre, post, hnil, -⟩ := h
      simp at hnil
  | cons u us ih =>
      rw [List.flatMap_cons] at h
      rcases lastStart_append_iff.mp h with h | ⟨h, -⟩
      · obtain ⟨v, hv, hlast⟩ := ih h
        exact ⟨v, List.mem_cons_of_mem _ hv, hlast⟩
      · exact ⟨u, List.mem_cons_self, h⟩

/-- Two intervals with one start answer alike up to the next start: both are empty or none
is, when they do not start at `0`; at `0`, where an empty interval reaches everything, they
have the same value, and one that stops stops behind the next start. -/
def Agree (l : List (LabelledInterval ω)) (i j : LabelledInterval ω) : Prop :=
  (0 < i.start → (i.stop = i.start ↔ j.stop = j.start)) ∧
    (i.start = 0 → i.value = j.value ∧
      (i.stop = 0 → j.stop ≠ 0 → ∃ p ∈ l, 0 < p.start ∧ p.start ≤ j.stop))

/-- The last intervals of the groups agree at each start, except the greatest, above which
nothing is found. -/
def OrderFree (us : List γ) : Prop :=
  ∀ u ∈ us, ∀ v ∈ us, ∀ i j, LastStart (f u) i → LastStart (f v) j → i.start = j.start →
    (∃ p ∈ us.flatMap f, i.start < p.start) → Agree (us.flatMap f) i j

variable {f} {us us' : List γ}

theorem mem_flatMap_iff_of_perm (hperm : us'.Perm us) {i : LabelledInterval ω} :
    i ∈ us'.flatMap f ↔ i ∈ us.flatMap f :=
  (hperm.flatMap_right f).mem_iff

theorem OrderFree.of_perm (h : OrderFree f us) (hperm : us'.Perm us) : OrderFree f us' := by
  rintro u hu v hv i j hi hj hstart ⟨p, hp, hlt⟩
  have hagree := h u (hperm.mem_iff.mp hu) v (hperm.mem_iff.mp hv) i j hi hj hstart
    ⟨p, (mem_flatMap_iff_of_perm hperm).mp hp, hlt⟩
  refine ⟨hagree.1, fun hzero => ⟨(hagree.2 hzero).1, fun hempty hstop => ?_⟩⟩
  obtain ⟨q, hq, hbound⟩ := (hagree.2 hzero).2 hempty hstop
  exact ⟨q, (mem_flatMap_iff_of_perm hperm).mpr hq, hbound⟩

theorem Disjoint.of_perm (h : Disjoint M (us.flatMap f)) (hperm : us'.Perm us) :
    Disjoint M (us'.flatMap f) where
  ordered := fun i hi => h.ordered i ((mem_flatMap_iff_of_perm hperm).mp hi)
  bounded := fun i hi => h.bounded i ((mem_flatMap_iff_of_perm hperm).mp hi)
  apart := (hperm.flatMap_right f).symm.pairwise h.apart fun hij a hj hi => hij a hi hj

theorem Disjoint.reaches_iff {l : List (LabelledInterval ω)} (h : Disjoint M l)
    {i : LabelledInterval ω} (hi : i ∈ l) (hle : i.start ≤ a) (ha : a < M) :
    a ≤ (i.stop + M - 1) % M ↔ a < i.stop ∨ i.stop = 0 := by
  rw [h.separate.reaches_iff hi hle ha, and_iff_left (h.bounded i hi).le]

/-- Where the groups agree, what is found in one order is found in another. -/
theorem OrderFree.lookup_eq_some (hfree : OrderFree f us) (h : Disjoint M (us.flatMap f))
    (hperm : us'.Perm us) (ha : a < M) {w : ω}
    (hfound : (lookup M a (us'.flatMap f)).map Prod.snd = some w) :
    (lookup M a (us.flatMap f)).map Prod.snd = some w := by
  have hmem : ∀ {i}, i ∈ us'.flatMap f ↔ i ∈ us.flatMap f := mem_flatMap_iff_of_perm hperm
  obtain ⟨⟨p, hp, hap⟩, i, hi, hreach, rfl⟩ := (lookup_eq_some_iff w).mp hfound
  have hi' := hmem.mp hi.last.mem
  obtain ⟨j, hj⟩ := exists_governs hi' hi.start_le
  have hstart : i.start = j.start :=
    le_antisymm (hj.greatest i hi' hi.start_le) (hi.greatest j (hmem.mpr hj.last.mem) hj.start_le)
  refine (lookup_eq_some_iff i.value).mpr ⟨⟨p, hmem.mp hp, hap⟩, j, hj, ?_⟩
  rw [h.reaches_iff hi' hi.start_le ha] at hreach
  rw [h.reaches_iff hj.last.mem hj.start_le ha]
  obtain ⟨u, hu, hui⟩ := exists_group f hi.last
  obtain ⟨v, hv, hvj⟩ := exists_group f hj.last
  obtain ⟨hpos, hzero⟩ := hfree u (hperm.mem_iff.mp hu) v hv i j hui hvj hstart
    ⟨p, hmem.mp hp, hi.start_le.trans_lt hap⟩
  have hordi := h.ordered i hi'
  have hordj := h.ordered j hj.last.mem
  have hsame : i.start < i.stop → j.start < j.stop → i = j := fun hli hlj =>
    h.separate.eq_of_covers hi' hj.last.mem ⟨le_refl _, hli⟩ ⟨hstart.ge, hstart.trans_lt hlj⟩
  rcases Nat.eq_zero_or_pos i.start with hk | hk
  · obtain ⟨hvalue, hbehind⟩ := hzero hk
    refine ⟨?_, hvalue.symm⟩
    rcases Nat.eq_zero_or_pos j.stop with hj0 | hj0
    · exact .inr hj0
    · rcases Nat.eq_zero_or_pos i.stop with hi0 | hi0
      · obtain ⟨q, hq, hqpos, hqj⟩ := hbehind hi0 hj0.ne'
        have hbeyond : ¬ q.start ≤ a := fun hqa => by
          have hqs := hj.greatest q hq hqa
          omega
        exact .inl ((not_le.mp hbeyond).trans_le hqj)
      · have hij := hsame (hk.trans_lt hi0) ((hstart.symm.trans hk).trans_lt hj0)
        rwa [← hij]
  · have hia := hreach.resolve_right (hk.trans_le hordi).ne'
    have hlt := hi.start_le.trans_lt hia
    have hij := hsame hlt (lt_of_le_of_ne hordj fun heq => hlt.ne' ((hpos hk).mpr heq.symm))
    rw [← hij]
    exact ⟨.inl hia, rfl⟩

theorem exists_perm_last {u : γ} (hu : u ∈ us) : ∃ rest : List γ, (rest ++ [u]).Perm us := by
  obtain ⟨pre, post, rfl⟩ := List.append_of_mem hu
  exact ⟨pre ++ post, (List.perm_append_singleton u _).trans List.perm_middle.symm⟩

/-- With the group last, its last interval with a start governs up to the next start. -/
theorem governs_of_last {rest : List γ} {u : γ} {i : LabelledInterval ω}
    (hperm : (rest ++ [u]).Perm us) (hi : LastStart (f u) i) (hle : i.start ≤ a)
    (hclear : ∀ p ∈ us.flatMap f, i.start < p.start → a < p.start) :
    Governs ((rest ++ [u]).flatMap f) a i where
  last := by
    rw [List.flatMap_append, List.flatMap_singleton]
    exact lastStart_append_iff.mpr (.inl hi)
  start_le := hle
  greatest := fun j hj hja => by
    by_contra hlt
    have hbeyond := hclear j ((mem_flatMap_iff_of_perm hperm).mp hj) (by omega)
    omega

section

variable (h : Disjoint M (us.flatMap f))

include h

/-- When the order does not matter, the last intervals of two groups with one start answer
alike up to the next start: one order has the one group last, another the other. -/
theorem reach_alike (hall : ∀ us' : List γ, us'.Perm us → ∀ a < M,
      (lookup M a (us'.flatMap f)).map Prod.snd = (lookup M a (us.flatMap f)).map Prod.snd)
    {u v : γ} (hu : u ∈ us) (hv : v ∈ us) {i j : LabelledInterval ω} (hi : LastStart (f u) i)
    (hj : LastStart (f v) j) (hstart : i.start = j.start) (ha : a < M) (hle : i.start ≤ a)
    (htop : ∃ p ∈ us.flatMap f, a < p.start)
    (hclear : ∀ p ∈ us.flatMap f, i.start < p.start → a < p.start) :
    ((a < i.stop ∨ i.stop = 0) ↔ (a < j.stop ∨ j.stop = 0)) ∧
      (a < i.stop ∨ i.stop = 0 → i.value = j.value) := by
  obtain ⟨p, hp, hap⟩ := htop
  obtain ⟨rest, hu_last⟩ := exists_perm_last hu
  obtain ⟨rest', hv_last⟩ := exists_perm_last hv
  have hgi := governs_of_last hu_last hi hle hclear
  have hgj := governs_of_last hv_last hj (hstart ▸ hle) (hstart ▸ hclear)
  have heq := (hall _ hu_last a ha).trans (hall _ hv_last a ha).symm
  rw [hgi.lookup ⟨p, (mem_flatMap_iff_of_perm hu_last).mpr hp, hap⟩,
    hgj.lookup ⟨p, (mem_flatMap_iff_of_perm hv_last).mpr hp, hap⟩] at heq
  have hri := h.reaches_iff (List.mem_flatMap.mpr ⟨u, hu, hi.mem⟩) hle ha
  have hrj := h.reaches_iff (List.mem_flatMap.mpr ⟨v, hv, hj.mem⟩) (hstart ▸ hle) ha
  rw [← hri, ← hrj]
  by_cases hreachi : a ≤ (i.stop + M - 1) % M
  · by_cases hreachj : a ≤ (j.stop + M - 1) % M
    · simpa [hreachi, hreachj] using heq
    · simp [hreachi, hreachj] at heq
  · by_cases hreachj : a ≤ (j.stop + M - 1) % M
    · simp [hreachi, hreachj] at heq
    · simp [hreachi, hreachj]

/-- The answers to all queries are the same in every order of the groups, if and only if the
groups agree. -/
theorem lookup_perm_iff :
    (∀ us' : List γ, us'.Perm us → ∀ a < M, (lookup M a (us'.flatMap f)).map Prod.snd =
        (lookup M a (us.flatMap f)).map Prod.snd) ↔ OrderFree f us := by
  constructor
  · intro hall u hu v hv i j hi hj hstart ⟨p, hp, hlt⟩
    have hmemi : i ∈ us.flatMap f := List.mem_flatMap.mpr ⟨u, hu, hi.mem⟩
    have hmemj : j ∈ us.flatMap f := List.mem_flatMap.mpr ⟨v, hv, hj.mem⟩
    have hordi := h.ordered i hmemi
    have hordj := h.ordered j hmemj
    have hpoint := reach_alike h hall hu hv hi hj hstart
      (hordi.trans_lt (h.bounded i hmemi)) (le_refl _) ⟨p, hp, hlt⟩ fun _ _ hlt => hlt
    refine ⟨fun hk => ?_, fun hk => ⟨hpoint.2 (by omega), fun hempty hstop => ?_⟩⟩
    · have hboth := hpoint.1
      omega
    · by_contra hnone
      have hbehind : ∀ q ∈ us.flatMap f, i.start < q.start → j.stop < q.start :=
        fun q hq hpos => not_le.mp fun hle => hnone ⟨q, hq, by omega, hle⟩
      have hboth := (reach_alike h hall hu hv hi hj hstart (h.bounded j hmemj) (by omega)
        ⟨p, hp, hbehind p hp hlt⟩ hbehind).1
      omega
  · intro hfree us' hperm a ha
    refine Option.ext fun w => ⟨hfree.lookup_eq_some h hperm ha, ?_⟩
    exact (hfree.of_perm hperm).lookup_eq_some (h.of_perm hperm) hperm.symm ha

end

end CProfiler.Foundation.LabelledInterval
