import CProfiler.Verification.Tags.Merge

/-! # Merging again

The result of `merge` absorbs the ranges it came from: merging it again, with any of them
added, returns it. Starts and ends may be in any order. -/

namespace CProfiler.Tags

open Model

/-- Wide ranges, each of which starts after the end before it. -/
def Chained : ℤ → List Range → Prop
  | _, [] => True
  | e, t :: tail => e < t.1 ∧ t.1 < t.2 ∧ Chained t.2 tail

/-- The range holds at most one address, or lies in one of the others. -/
def Absorbed (m : List Range) (r : Range) : Prop :=
  r.2 ≤ r.1 ∨ ∃ s ∈ m, s.1 ≤ r.1 ∧ r.2 ≤ s.2

theorem Chained.of_mem {e : ℤ} {tail : List Range} (h : Chained e tail) {t : Range}
    (ht : t ∈ tail) : e < t.1 ∧ t.1 < t.2 := by
  induction tail generalizing e with
  | nil => exact absurd ht List.not_mem_nil
  | cons u tail ih =>
      rcases h with ⟨hlt, hwide, hrest⟩
      rcases List.mem_cons.mp ht with rfl | ht
      · exact ⟨hlt, hwide⟩
      · exact ⟨hlt.trans (hwide.trans (ih hrest ht).1), (ih hrest ht).2⟩

theorem Absorbed.mono {m m' : List Range} {r : Range} (h : Absorbed m r)
    (hsub : ∀ s ∈ m, Absorbed m' s) : Absorbed m' r := by
  rcases h with hnarrow | ⟨s, hs, hstart, hend⟩
  · exact .inl hnarrow
  · rcases hsub s hs with hnarrow | ⟨s', hs', hstart', hend'⟩
    · exact .inl (hend.trans (hnarrow.trans hstart))
    · exact .inr ⟨s', hs', hstart'.trans hstart, hend.trans hend'⟩

theorem absorbed_of_mem {m : List Range} {r : Range} (h : r ∈ m) : Absorbed m r :=
  .inr ⟨r, h, le_rfl, le_rfl⟩

/-- The loop of `merge` chains its ranges, and absorbs those that it reads. -/
theorem mergeLoop_chained (a b : ℤ) (rest : List Range)
    (hs : ((a, b) :: rest).Pairwise (fun x y => x.1 ≤ y.1)) :
    ∃ e tail, mergeLoop (a, b) rest = (a, e) :: tail ∧ b ≤ e ∧ Chained e tail ∧
      (∀ t ∈ tail, a ≤ t.1) ∧ ∀ r ∈ rest, Absorbed ((a, e) :: tail) r := by
  induction rest generalizing a b with
  | nil => exact ⟨b, [], rfl, le_rfl, trivial, by simp, by simp⟩
  | cons r rest ih =>
      obtain ⟨c, d⟩ := r
      obtain ⟨ha, hs⟩ := List.pairwise_cons.mp hs
      obtain ⟨hac, ha⟩ := List.forall_mem_cons.mp ha
      obtain ⟨hc, hrest⟩ := List.pairwise_cons.mp hs
      rw [mergeLoop]
      by_cases hjoin : c ≤ b ∧ b < d
      · rw [if_pos hjoin]
        obtain ⟨e, tail, hout, hde, hchain, hstart, habs⟩ :=
          ih a d (List.pairwise_cons.mpr ⟨ha, hrest⟩)
        refine ⟨e, tail, hout, hjoin.2.le.trans hde, hchain, hstart, ?_⟩
        exact List.forall_mem_cons.mpr ⟨.inr ⟨_, List.mem_cons_self, hac, hde⟩, habs⟩
      rw [if_neg hjoin]
      by_cases hnew : b < c ∧ c < d
      · rw [if_pos hnew]
        obtain ⟨e, tail, hout, hde, hchain, hstart, habs⟩ := ih c d hs
        refine ⟨b, (c, e) :: tail, by rw [hout], le_rfl, ⟨hnew.1, hnew.2.trans_le hde, hchain⟩,
          List.forall_mem_cons.mpr ⟨hac, fun t ht => hac.trans (hstart t ht)⟩, ?_⟩
        have hsub : ∀ s ∈ (c, e) :: tail, Absorbed ((a, b) :: (c, e) :: tail) s :=
          fun s hs => absorbed_of_mem (List.mem_cons_of_mem _ hs)
        refine List.forall_mem_cons.mpr ⟨?_, fun r hr => (habs r hr).mono hsub⟩
        exact .inr ⟨(c, e), List.mem_cons_of_mem _ List.mem_cons_self, le_rfl, hde⟩
      · rw [if_neg hnew]
        obtain ⟨e, tail, hout, hbe, hchain, hstart, habs⟩ :=
          ih a b (List.pairwise_cons.mpr ⟨ha, hrest⟩)
        refine ⟨e, tail, hout, hbe, hchain, hstart, List.forall_mem_cons.mpr ⟨?_, habs⟩⟩
        -- The range passed over ends at `b` at the latest, or holds one address at most.
        rcases le_or_gt d c with hdc | hcd
        · exact .inl hdc
        · exact .inr ⟨(a, e), List.mem_cons_self, hac, by omega⟩

/-- What the loop has still to read, when it carries `(a, b)` and is to return the chain of
`(a, e)` and `tail`: it absorbs the rest, and the rest still holds what is missing of it. -/
structure Rereads (rest : List Range) (a b e : ℤ) (tail : List Range) : Prop where
  last : b = e ∨ a ≤ b ∧ b < e ∧ (a, e) ∈ rest
  chained : Chained e tail
  mem : ∀ t ∈ tail, t ∈ rest
  sorted : rest.Pairwise (fun x y => x.1 ≤ y.1)
  starts : ∀ r ∈ rest, a ≤ r.1
  absorbed : ∀ r ∈ rest, Absorbed ((a, e) :: tail) r

namespace Rereads

variable {rest tail : List Range} {a b c d e : ℤ}

theorem first_le (h : Rereads ((c, d) :: rest) a b e tail) {s : Range}
    (hs : s ∈ (c, d) :: rest) : c ≤ s.1 := by
  rcases List.mem_cons.mp hs with rfl | hs
  · exact le_rfl
  · exact (List.pairwise_cons.mp h.sorted).1 s hs

theorem mem_rest (h : Rereads ((c, d) :: rest) a b e tail) (hnot : (c, d) ∉ tail) :
    ∀ t ∈ tail, t ∈ rest := by
  intro t ht
  refine (List.mem_cons.mp (h.mem t ht)).resolve_left ?_
  rintro rfl
  exact hnot ht

theorem not_mem_of_le (h : Rereads ((c, d) :: rest) a b e tail) (hde : d ≤ e) :
    (c, d) ∉ tail := by
  intro hin
  rcases h.chained.of_mem hin with ⟨hec, hcd⟩
  exact absurd (hec.trans hcd) (not_lt.mpr hde)

/-- Reading a range that is not in the chain and leaves `(a, b)` as it is. -/
theorem pass (h : Rereads ((c, d) :: rest) a b e tail) (hnot : (c, d) ∉ tail)
    (hlast : b = e ∨ (a, e) ≠ (c, d)) : Rereads rest a b e tail where
  last := by
    rcases h.last with hbe | ⟨hab, hbe, hin⟩
    · exact .inl hbe
    · exact .inr ⟨hab, hbe, (List.mem_cons.mp hin).resolve_left (hlast.resolve_left hbe.ne)⟩
  chained := h.chained
  mem := h.mem_rest hnot
  sorted := (List.pairwise_cons.mp h.sorted).2
  starts := fun r hr => h.starts r (List.mem_cons_of_mem _ hr)
  absorbed := fun r hr => h.absorbed r (List.mem_cons_of_mem _ hr)

/-- Reading more of the first range of the chain. -/
theorem join (h : Rereads ((a, d) :: rest) a b e tail) (hbd : b < d) (hde : d ≤ e) :
    Rereads rest a d e tail where
  last := by
    rcases hde.eq_or_lt with heq | hlt
    · exact .inl heq
    · rcases h.last with rfl | ⟨hab, -, hin⟩
      · exact absurd hde (not_le.mpr hbd)
      · refine .inr ⟨hab.trans hbd.le, hlt, (List.mem_cons.mp hin).resolve_left fun heq => ?_⟩
        rcases Prod.mk.inj heq with ⟨-, rfl⟩
        exact lt_irrefl _ hlt
  chained := h.chained
  mem := h.mem_rest (h.not_mem_of_le hde)
  sorted := (List.pairwise_cons.mp h.sorted).2
  starts := fun r hr => h.starts r (List.mem_cons_of_mem _ hr)
  absorbed := fun r hr => h.absorbed r (List.mem_cons_of_mem _ hr)

/-- Reading the first part of the next range of the chain. -/
theorem next {e₁ : ℤ} (h : Rereads ((c, d) :: rest) a b e ((c, e₁) :: tail)) (hcd : c < d)
    (hde : d ≤ e₁) : Rereads rest c d e₁ tail := by
  rcases h.chained with ⟨hec, hwide, hrest⟩
  have hafter : ∀ u ∈ tail, c < u.1 := fun u hu => hwide.trans (hrest.of_mem hu).1
  refine ⟨?_, hrest, fun u hu => ?_, (List.pairwise_cons.mp h.sorted).2,
    (List.pairwise_cons.mp h.sorted).1, fun u hu => ?_⟩
  · rcases hde.eq_or_lt with heq | hlt
    · exact .inl heq
    · have hin := h.mem _ List.mem_cons_self
      refine .inr ⟨hcd.le, hlt, (List.mem_cons.mp hin).resolve_left fun heq => ?_⟩
      rcases Prod.mk.inj heq with ⟨-, rfl⟩
      exact lt_irrefl _ hlt
  · refine (List.mem_cons.mp (h.mem u (List.mem_cons_of_mem _ hu))).resolve_left ?_
    rintro rfl
    exact lt_irrefl _ (hafter _ hu)
  · rcases h.absorbed u (List.mem_cons_of_mem _ hu) with hnarrow | ⟨s, hs, hstart, hend⟩
    · exact .inl hnarrow
    · rcases List.mem_cons.mp hs with rfl | hs
      · -- A range that ends by `e` and starts by `c` at the earliest holds no address.
        have hcu : c ≤ u.1 := (List.pairwise_cons.mp h.sorted).1 u hu
        exact .inl (hend.trans (hec.le.trans hcu))
      · exact .inr ⟨s, hs, hstart, hend⟩

/-- A range that a later one of the chain absorbs starts with the next one. -/
theorem exists_next (h : Rereads ((c, d) :: rest) a b e tail) {t : Range} (ht : t ∈ tail)
    (hstart : t.1 ≤ c) : b = e ∧ ∃ e₁ tail', t = (c, e₁) ∧ tail = (c, e₁) :: tail' := by
  have het := (h.chained.of_mem ht).1
  constructor
  · rcases h.last with hbe | ⟨hab, hbe, hin⟩
    · exact hbe
    · have := h.first_le hin
      simp only at this
      omega
  · cases tail with
    | nil => exact absurd ht List.not_mem_nil
    | cons u tail =>
        obtain ⟨u, e₁⟩ := u
        have hcu : c ≤ u := h.first_le (h.mem _ List.mem_cons_self)
        rcases List.mem_cons.mp ht with rfl | hlater
        · obtain rfl : u = c := le_antisymm hstart hcu
          exact ⟨e₁, tail, rfl, rfl⟩
        · have hlt := (h.chained.2.2.of_mem hlater).1
          have hwide := h.chained.2.1
          simp only at hlt hwide
          omega

end Rereads

/-- The loop returns a chain that absorbs all it reads, if the chain is among what it reads. -/
theorem mergeLoop_rereads {rest : List Range} {a b e : ℤ} {tail : List Range}
    (h : Rereads rest a b e tail) : mergeLoop (a, b) rest = (a, e) :: tail := by
  induction rest generalizing a b e tail with
  | nil =>
      have htail : tail = [] := List.eq_nil_iff_forall_not_mem.mpr fun t ht =>
        List.not_mem_nil (h.mem t ht)
      rcases h.last with rfl | ⟨-, -, hin⟩
      · rw [mergeLoop, htail]
      · exact absurd hin List.not_mem_nil
  | cons r rest ih =>
      obtain ⟨c, d⟩ := r
      rw [mergeLoop]
      rcases le_or_gt d c with hdc | hcd
      · -- A range of one address at most is passed over.
        rw [if_neg (by omega), if_neg (by omega)]
        refine ih (h.pass (fun hin => absurd (h.chained.of_mem hin).2 (not_lt.mpr hdc)) ?_)
        rcases h.last with hbe | ⟨hab, hbe, -⟩
        · exact .inl hbe
        · refine .inr fun heq => ?_
          rcases Prod.mk.inj heq with ⟨rfl, rfl⟩
          exact absurd (hab.trans_lt hbe) (not_lt.mpr hdc)
      rcases (h.absorbed _ List.mem_cons_self).resolve_left (not_le.mpr hcd) with
        ⟨t, ht, hstart, hend⟩
      rcases List.mem_cons.mp ht with rfl | ht
      · rcases le_or_gt d b with hdb | hbd
        · rw [if_neg (by omega), if_neg (by omega)]
          refine ih (h.pass (h.not_mem_of_le hend) ?_)
          rcases h.last with hbe | ⟨-, hbe, -⟩
          · exact .inl hbe
          · refine .inr fun heq => ?_
            rcases Prod.mk.inj heq with ⟨-, rfl⟩
            exact absurd hbe (not_lt.mpr hdb)
        · rcases h.last with rfl | ⟨hab, -, hin⟩
          · exact absurd hend (not_le.mpr hbd)
          · obtain rfl : c = a := le_antisymm (h.first_le hin) hstart
            rw [if_pos ⟨hab, hbd⟩]
            exact ih (h.join hbd hend)
      · rcases h.exists_next ht hstart with ⟨rfl, e₁, tail', rfl, rfl⟩
        have hbc := h.chained.1
        rw [if_neg (by omega), if_pos ⟨hbc, hcd⟩, ih (h.next hcd hend)]

theorem sortByStart_cons {r : Range} {l : List Range} (h : ∀ s ∈ l, r.1 ≤ s.1) :
    sortByStart (r :: l) = r :: sortByStart l := by
  rw [sortByStart, List.insertionSort_cons, ← sortByStart]
  cases hsort : sortByStart l with
  | nil => rfl
  | cons s rest =>
      have hs : s ∈ l := (sortByStart_perm l).mem_iff.mp (hsort ▸ List.mem_cons_self)
      exact List.orderedInsert_cons_of_le _ rest (h s hs)

/-- `merge` returns its result again, whichever of the ranges it came from are added. -/
theorem merge_absorbs {l m sub : List Range} (h : merge l = .ok m) (hsub : ∀ r ∈ sub, r ∈ l) :
    merge (m ++ sub) = .ok m := by
  have hperm := sortByStart_perm l
  have hsorted := sortByStart_sorted l
  obtain ⟨⟨a, b⟩, rest, hsort⟩ := sortByStart_eq_cons ((merge_ok_iff l).mp ⟨m, h⟩)
  rw [hsort] at hperm hsorted
  obtain ⟨e, tail, hout, hbe, hchain, htail, habs⟩ := mergeLoop_chained a b rest hsorted
  rw [merge_of_sorted hsort, hout] at h
  obtain rfl := Except.ok.inj h
  have hstarts : ∀ r ∈ l, a ≤ r.1 := fun r hr => by
    rcases List.mem_cons.mp (hperm.mem_iff.mpr hr) with rfl | hr
    · exact le_rfl
    · exact (List.pairwise_cons.mp hsorted).1 r hr
  have hl : ∀ r ∈ l, Absorbed ((a, e) :: tail) r := fun r hr => by
    rcases List.mem_cons.mp (hperm.mem_iff.mpr hr) with rfl | hr
    · exact .inr ⟨(a, e), List.mem_cons_self, le_rfl, hbe⟩
    · exact habs r hr
  have hafter : ∀ r ∈ tail ++ sub, a ≤ r.1 := fun r hr =>
    (List.mem_append.mp hr).elim (htail r) fun hr => hstarts r (hsub r hr)
  have hmem : ∀ r, r ∈ sortByStart (tail ++ sub) ↔ r ∈ tail ++ sub := fun r =>
    (sortByStart_perm _).mem_iff
  rw [merge, List.cons_append, sortByStart_cons hafter]
  refine congrArg Except.ok (mergeLoop_rereads ?_)
  refine ⟨.inl rfl, hchain, fun t ht => (hmem t).mpr (List.mem_append_left _ ht),
    sortByStart_sorted _, fun r hr => ?_, fun r hr => ?_⟩
  · exact hafter r ((hmem r).mp hr)
  · rcases List.mem_append.mp ((hmem r).mp hr) with hr | hr
    · exact absorbed_of_mem (List.mem_cons_of_mem _ hr)
    · exact hl r (hsub r hr)

end CProfiler.Tags
