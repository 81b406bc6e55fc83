import CProfiler.Verification.Intervals.Building

/-! # Trees

The set, the nodes and the boundary table of an interval tree tell the same story. Whatever the
intervals are, adding them keeps it so; removing them does where the ranges are separated. -/

namespace CProfiler.Intervals

open Foundation Model Model.Intervals

variable {α D : Type} [LinearOrder α]

/-! ## The boundary table -/

section Boundaries

variable [DecidableEq D] {s : Finset (Interval α D)} {iv : Interval α D} {m : SortedMap α ℕ}

/-- The intervals that begin or end at a bound. -/
def boundaries (s : Finset (Interval α D)) (bound : α) : ℕ :=
  (s.filter (fun iv => iv.begin = bound)).card + (s.filter (fun iv => iv.end_ = bound)).card

omit [DecidableEq D] in
theorem boundaries_ne_zero_iff {bound : α} :
    boundaries s bound ≠ 0 ↔ ∃ iv ∈ s, iv.begin = bound ∨ iv.end_ = bound := by
  rw [boundaries, ← Nat.pos_iff_ne_zero, Nat.add_pos_iff_pos_or_pos, Finset.card_pos,
    Finset.card_pos]
  simp only [Finset.Nonempty, Finset.mem_filter]
  refine ⟨fun h => ?_, fun h => ?_⟩
  · rcases h with ⟨iv, hiv, hb⟩ | ⟨iv, hiv, he⟩
    · exact ⟨iv, hiv, .inl hb⟩
    · exact ⟨iv, hiv, .inr he⟩
  · rcases h with ⟨iv, hiv, hb | he⟩
    · exact .inl ⟨iv, hiv, hb⟩
    · exact .inr ⟨iv, hiv, he⟩

theorem boundaries_insert (hiv : iv ∉ s) (bound : α) : boundaries (insert iv s) bound =
    boundaries s bound + (if iv.begin = bound then 1 else 0) +
      (if iv.end_ = bound then 1 else 0) := by
  have hnot : ∀ p : Interval α D → Prop, [DecidablePred p] → iv ∉ s.filter p :=
    fun p _ h => hiv (Finset.mem_filter.mp h).1
  rw [boundaries, boundaries, Finset.filter_insert, Finset.filter_insert]
  split_ifs with hb he he
  · rw [Finset.card_insert_of_notMem (hnot _), Finset.card_insert_of_notMem (hnot _)]
    omega
  · rw [Finset.card_insert_of_notMem (hnot _)]
    omega
  · rw [Finset.card_insert_of_notMem (hnot _)]
    omega
  · omega

theorem counts_addBoundaries (h : m.Counts (boundaries s)) (hiv : iv ∉ s) :
    (IntervalTree.addBoundaries m iv).Counts (boundaries (insert iv s)) := by
  have hcounts := (h.increment iv.begin).increment iv.end_
  intro bound
  rw [boundaries_insert hiv]
  exact hcounts bound

theorem counts_removeBoundaries (h : m.Counts (boundaries s)) (hiv : iv ∈ s)
    (hnull : iv.begin < iv.end_) :
    ∃ m', IntervalTree.removeBoundaries m iv = .ok m' ∧ m'.Counts (boundaries (s.erase iv)) := by
  have hsplit := boundaries_insert (Finset.notMem_erase iv s)
  rw [Finset.insert_erase hiv] at hsplit
  have hbegin : boundaries s iv.begin ≠ 0 := boundaries_ne_zero_iff.mpr ⟨iv, hiv, .inl rfl⟩
  rcases h.decrement? hbegin with ⟨m₁, hm₁, h₁⟩
  have hend : boundaries s iv.end_ - (if iv.begin = iv.end_ then 1 else 0) ≠ 0 := by
    rw [if_neg hnull.ne]
    exact boundaries_ne_zero_iff.mpr ⟨iv, hiv, .inr rfl⟩
  rcases h₁.decrement? hend with ⟨m₂, hm₂, h₂⟩
  refine ⟨m₂, ?_, fun bound => ?_⟩
  · rw [IntervalTree.removeBoundaries, hm₁]
    simp only [hm₂]
  · have hcount : boundaries s bound - (if iv.begin = bound then 1 else 0) -
        (if iv.end_ = bound then 1 else 0) = boundaries (s.erase iv) bound := by
      rw [hsplit bound]
      omega
    rw [← hcount]
    exact h₂ bound

/-- The table that is built from nothing. -/
theorem counts_foldl {l : List (Interval α D)} (hnodup : l.Nodup) (hnot : ∀ iv ∈ l, iv ∉ s)
    (h : m.Counts (boundaries s)) :
    (l.foldl IntervalTree.addBoundaries m).Counts (boundaries (s ∪ l.toFinset)) := by
  induction l generalizing m s with
  | nil => simpa using h
  | cons iv l ih =>
      rcases List.nodup_cons.mp hnodup with ⟨hiv, hnodup⟩
      rw [List.foldl_cons, List.toFinset_cons, Finset.union_insert, ← Finset.insert_union]
      refine ih hnodup (fun k hk hmem => ?_) (counts_addBoundaries h (hnot iv List.mem_cons_self))
      rcases Finset.mem_insert.mp hmem with rfl | hmem
      · exact hiv hk
      · exact hnot k (List.mem_cons_of_mem _ hk) hmem

end Boundaries

variable [LinearOrder D]

theorem counts_sort (s : Finset (Interval α D)) :
    ((s.sort (· ≤ ·)).foldl IntervalTree.addBoundaries SortedMap.empty).Counts (boundaries s) := by
  have hempty : (SortedMap.empty : SortedMap α ℕ).Counts
      (boundaries (∅ : Finset (Interval α D))) := SortedMap.counts_empty
  have hcounts := counts_foldl (Finset.sort_nodup s (· ≤ ·))
    (fun iv _ => Finset.notMem_empty iv) hempty
  rwa [Finset.empty_union, Finset.sort_toFinset] at hcounts

/-! ## What every tree keeps -/

/-- The nodes hold the set, each interval once, and the table its boundaries. -/
structure Kept (t : IntervalTree α D) : Prop where
  proper : ∀ iv ∈ t.allIntervals, iv.begin < iv.end_
  sound : Sound t.topNode
  content : t.topNode.allChildren = t.allIntervals
  entries_eq : entries t.topNode = t.allIntervals.card
  counts : t.boundaryTable.Counts (boundaries t.allIntervals)

/-- A tree of separated ranges, in order. -/
structure Exact (t : IntervalTree α D) : Prop extends Kept t where
  separated : Separated t.allIntervals
  ordered : Ordered t.topNode

/-- No interval is held by two nodes when there are as many entries as intervals. -/
theorem card_le_entries (t : Node α D) : t.allChildren.card ≤ entries t := by
  induction t with
  | nil => exact le_rfl
  | node x s l r d b ihl ihr =>
      have hcard := Finset.card_union_le (s ∪ l.allChildren) r.allChildren
      have hcard' := Finset.card_union_le s l.allChildren
      rw [Node.allChildren, entries]
      omega

omit [LinearOrder D] in
theorem isNull_eq_true_iff {iv : Interval α D} : iv.isNull = true ↔ ¬ iv.begin < iv.end_ := by
  rw [Interval.isNull, decide_eq_true_eq, not_lt, ge_iff_le]

variable {t : IntervalTree α D} {iv : Interval α D} {limit : ℕ}

theorem Kept.isNone_iff (h : Kept t) : t.topNode.isNone = true ↔ t.allIntervals = ∅ := by
  rw [isNone_eq_true_iff, ← h.content]
  refine ⟨fun hnil => hnil ▸ rfl, fun hempty => ?_⟩
  cases htop : t.topNode with
  | nil => rfl
  | node x s l r d b =>
      have hsound := h.sound
      rw [htop] at hsound hempty
      rcases hsound.1.nonempty with ⟨iv, hiv⟩
      have hmem := sCenter_subset (.node x s l r d b) hiv
      rw [hempty] at hmem
      exact absurd hmem (Finset.notMem_empty iv)

/-! ## Building -/

/-- The tree over nodes that have been built from the set. -/
theorem init_of_built {s : Finset (Interval α D)} (hs : ∀ iv ∈ s, iv.begin < iv.end_)
    {top : Node α D} (htop : Node.fromIntervals limit (s.sort (· ≤ ·)) = .ok top)
    (hbuilt : Built (s.sort (· ≤ ·)) top) :
    ∃ t, IntervalTree.init limit s = .ok t ∧ Kept t ∧ t.allIntervals = s ∧ t.topNode = top := by
  have hnull : ¬ ∃ iv ∈ s, iv.isNull = true := by
    intro hex
    rcases hex with ⟨iv, hiv, hnull⟩
    exact isNull_eq_true_iff.mp hnull (hs iv hiv)
  have hcontent := hbuilt.content
  rw [Finset.sort_toFinset] at hcontent
  have hentries := hbuilt.entries_le
  rw [Finset.length_sort] at hentries
  have hcard := card_le_entries top
  rw [hcontent] at hcard
  refine ⟨⟨s, top, _⟩, ?_, {
    proper := hs
    sound := hbuilt.sound
    content := hcontent
    entries_eq := le_antisymm hentries hcard
    counts := counts_sort s }, rfl, rfl⟩
  rw [IntervalTree.init, if_neg hnull, htop]
  rfl

/-- A tree is built from any intervals. -/
theorem init_kept {s : Finset (Interval α D)} (hs : ∀ iv ∈ s, iv.begin < iv.end_)
    (hlimit : room s.card + 8 ≤ limit) :
    ∃ t, IntervalTree.init limit s = .ok t ∧ Kept t ∧ t.allIntervals = s := by
  rcases (specs s.card).from_ limit (s.sort (· ≤ ·))
    (fun iv hiv => hs iv ((Finset.mem_sort _).mp hiv)) (Finset.length_sort _).le hlimit with
    ⟨top, htop, hbuilt⟩
  rcases init_of_built hs htop hbuilt with ⟨t, ht, hkept, hset, _⟩
  exact ⟨t, ht, hkept, hset⟩

/-- Of separated ranges it is one in order, with no more levels than the number of intervals has
bits. -/
theorem init_exact {s : Finset (Interval α D)} (hs : ∀ iv ∈ s, iv.begin < iv.end_)
    (hsep : Separated s) {k : ℕ} (hk : s.card < 2 ^ k) (hlimit : 3 * k + 3 ≤ limit) :
    ∃ t, IntervalTree.init limit s = .ok t ∧ Exact t ∧ t.allIntervals = s ∧
      t.topNode.depth ≤ k := by
  have hnull : ∀ iv ∈ s.sort (· ≤ ·), iv.begin < iv.end_ :=
    fun iv hiv => hs iv ((Finset.mem_sort _).mp hiv)
  have hsortsep : Separated (s.sort (· ≤ ·)).toFinset := by
    rw [Finset.sort_toFinset]
    exact hsep
  rcases from_within hnull hsortsep (by rw [Finset.length_sort]; exact hk) hlimit with
    ⟨top, htop, hdepth⟩
  have hbuilt := built_of_from hnull htop
  rcases init_of_built hs htop hbuilt with ⟨t, ht, hkept, hset, rfl⟩
  exact ⟨t, ht, { hkept with separated := hset.symm ▸ hsep, ordered := hbuilt.ordered hsortsep },
    hset, hdepth⟩

/-- Whatever the limit, a tree that has been built keeps all this. -/
theorem kept_of_init {s : Finset (Interval α D)} (h : IntervalTree.init limit s = .ok t) :
    Kept t ∧ t.allIntervals = s ∧ (Separated s → Exact t) := by
  have hs : ∀ iv ∈ s, iv.begin < iv.end_ := by
    intro iv hiv
    by_contra hnull
    rw [IntervalTree.init, if_pos ⟨iv, hiv, isNull_eq_true_iff.mpr hnull⟩] at h
    cases h
  cases htop : Node.fromIntervals limit (s.sort (· ≤ ·)) with
  | error e =>
      have hnull : ¬ ∃ iv ∈ s, iv.isNull = true := by
        intro hex
        rcases hex with ⟨iv, hiv, hnull⟩
        exact isNull_eq_true_iff.mp hnull (hs iv hiv)
      rw [IntervalTree.init, if_neg hnull, htop] at h
      cases h
  | ok top =>
      have hbuilt := built_of_from (fun iv hiv => hs iv ((Finset.mem_sort _).mp hiv)) htop
      rcases init_of_built hs htop hbuilt with ⟨t', ht', hkept, hset, rfl⟩
      rw [ht'] at h
      cases h
      have hsort : (s.sort (· ≤ ·)).toFinset = s := Finset.sort_toFinset s _
      exact ⟨hkept, hset, fun hsep => { hkept with
        separated := hset.symm ▸ hsep
        ordered := hbuilt.ordered (hsort.symm ▸ hsep) }⟩

/-! ## Standing for a set -/

/-- The tree stands for the set, in order and balanced. -/
structure Stands (t : IntervalTree α D) (s : Finset (Interval α D)) : Prop where
  exact_ : Exact t
  allIntervals : t.allIntervals = s
  balanced : Balanced t.topNode

/-- Enough of the recursion limit for balanced trees of that many intervals. -/
def Enough (limit n : ℕ) : Prop := ∀ h, Nat.fib (h + 2) ≤ n + 1 → 3 * h + 6 ≤ limit

theorem Enough.mono {n n' : ℕ} (h : Enough limit n) (hle : n' ≤ n) : Enough limit n' :=
  fun k hk => h k (hk.trans (Nat.succ_le_succ hle))

/-- A limit for all the numbers below a Fibonacci number. -/
theorem enough_of_lt_fib {n h : ℕ} (hn : n + 1 < Nat.fib (h + 3)) (hlimit : 3 * h + 6 ≤ limit) :
    Enough limit n := by
  intro k hk
  have hle : k ≤ h := by
    refine not_lt.mp fun hlt => absurd (hk.trans_lt hn) (not_lt.mpr ?_)
    exact Nat.fib_mono (Nat.add_le_add_right hlt 2)
  omega

theorem Stands.enough {s : Finset (Interval α D)} (h : Stands t s) (hlimit : Enough limit s.card) :
    3 * t.topNode.depth + 6 ≤ limit := by
  refine hlimit _ ((fib_depth_le h.exact_.sound h.balanced).trans (Nat.succ_le_succ ?_))
  rw [← h.allIntervals, ← h.exact_.entries_eq]
  exact h.exact_.sound.countNodes_le

/-- Disjoint ranges make a balanced tree at once. -/
theorem init_stands {s : Finset (Interval α D)} (hs : ∀ iv ∈ s, iv.begin < iv.end_)
    (hsc : Scattered s) (hlimit : Enough limit s.card) :
    ∃ t, IntervalTree.init limit s = .ok t ∧ Stands t s := by
  have hnull : ∀ iv ∈ s.sort (· ≤ ·), iv.begin < iv.end_ :=
    fun iv hiv => hs iv ((Finset.mem_sort _).mp hiv)
  have hsize := hlimit _ (fib_size_le s.card)
  have hsort : (s.sort (· ≤ ·)).toFinset = s := Finset.sort_toFinset s _
  rcases from_scattered hnull (hsort.symm ▸ hsc) (Finset.sort_nodup s _)
    (by rw [Finset.length_sort]; exact Nat.lt_size_self _)
    (show 2 * s.card.size + 1 ≤ limit by omega)
    with ⟨top, htop, hb, -⟩
  have hbuilt := built_of_from hnull htop
  rcases init_of_built hs htop hbuilt with ⟨t, ht, hkept, hset, rfl⟩
  refine ⟨t, ht, { hkept with separated := ?_, ordered := ?_ }, hset, hb⟩
  · exact hset.symm ▸ hsc.separated
  · exact hbuilt.ordered (hsort.symm ▸ hsc.separated)

/-! ## Adding -/

/-- The tree over a node to which an interval has been added. -/
theorem add_of_inserted (h : Kept t) (hiv : iv ∉ t.allIntervals) (hnull : iv.begin < iv.end_)
    {top : Node α D} (htop : t.topNode ≠ .nil → t.topNode.add limit iv = .ok top)
    (hnone : t.topNode = .nil → top = Node.fromInterval iv)
    (hinserted : Inserted t.topNode iv top) :
    ∃ t', t.add limit iv = .ok t' ∧ Kept t' ∧ t'.allIntervals = insert iv t.allIntervals ∧
      t'.topNode = top := by
  have hcontent : top.allChildren = insert iv t.allIntervals := h.content ▸ hinserted.content
  have hcard := Finset.card_insert_of_notMem hiv
  refine ⟨⟨insert iv t.allIntervals, top, IntervalTree.addBoundaries t.boundaryTable iv⟩, ?_, {
    proper := ?_
    sound := hinserted.sound
    content := hcontent
    entries_eq := ?_
    counts := counts_addBoundaries h.counts hiv }, rfl, rfl⟩
  · have hnot : ¬ iv.isNull = true := fun h => isNull_eq_true_iff.mp h hnull
    rw [IntervalTree.add, if_neg hiv, if_neg hnot]
    cases hnil : t.topNode.isNone with
    | true =>
        rw [if_pos rfl, hnone (isNone_eq_true_iff.mp hnil)]
        rfl
    | false =>
        have hne : t.topNode ≠ .nil := fun h => by simp [h, Node.isNone] at hnil
        rw [if_neg Bool.false_ne_true, htop hne]
        rfl
  · intro k hk
    rcases Finset.mem_insert.mp hk with rfl | hk
    · exact hnull
    · exact h.proper k hk
  · have hle := hinserted.entries_le
    have hge := card_le_entries top
    rw [hcontent] at hge
    rw [h.entries_eq] at hle
    exact le_antisymm (hle.trans hcard.ge) hge

/-- A new interval is added whatever the others are. -/
theorem add_kept (h : Kept t) (hiv : iv ∉ t.allIntervals) (hnull : iv.begin < iv.end_)
    (hlimit : room (t.allIntervals.card + 1) + 6 ≤ limit) :
    ∃ t', t.add limit iv = .ok t' ∧ Kept t' ∧ t'.allIntervals = insert iv t.allIntervals := by
  by_cases hnil : t.topNode = .nil
  · have hinserted : Inserted t.topNode iv (Node.fromInterval iv) :=
      hnil.symm ▸ inserted_fromInterval hnull
    rcases add_of_inserted h hiv hnull (fun hne => absurd hnil hne)
      (fun _ => rfl) hinserted with ⟨t', ht', hkept, hset, -⟩
    exact ⟨t', ht', hkept, hset⟩
  · rcases add_spec h.sound hnil hnull (by rw [h.entries_eq]) hlimit with ⟨top, htop, hinserted⟩
    rcases add_of_inserted h hiv hnull (fun _ => htop) (fun h => absurd h hnil) hinserted with
      ⟨t', ht', hkept, hset, -⟩
    exact ⟨t', ht', hkept, hset⟩

/-- Whatever the limit, adding keeps all this. -/
theorem kept_of_add {t' : IntervalTree α D} (h : Kept t) (hadd : t.add limit iv = .ok t') :
    Kept t' ∧ t'.allIntervals = insert iv t.allIntervals := by
  by_cases hiv : iv ∈ t.allIntervals
  · rw [IntervalTree.add, if_pos hiv] at hadd
    cases hadd
    exact ⟨h, (Finset.insert_eq_of_mem hiv).symm⟩
  · have hnull : iv.begin < iv.end_ := by
      by_contra hnull
      rw [IntervalTree.add, if_neg hiv, if_pos (isNull_eq_true_iff.mpr hnull)] at hadd
      cases hadd
    have hnot : ¬ iv.isNull = true := fun h => isNull_eq_true_iff.mp h hnull
    have hnode : ∃ top, (t.topNode ≠ .nil → t.topNode.add limit iv = .ok top) ∧
        (t.topNode = .nil → top = Node.fromInterval iv) ∧ Inserted t.topNode iv top := by
      by_cases hnil : t.topNode = .nil
      · exact ⟨Node.fromInterval iv, fun hne => absurd hnil hne, fun _ => rfl,
          hnil.symm ▸ inserted_fromInterval hnull⟩
      · have hsome : ¬ t.topNode.isNone = true := fun h => hnil (isNone_eq_true_iff.mp h)
        cases htop : t.topNode.add limit iv with
        | error e =>
            rw [IntervalTree.add, if_neg hiv, if_neg hnot, if_neg hsome, htop] at hadd
            cases hadd
        | ok top =>
            exact ⟨top, fun _ => rfl, fun h => absurd h hnil,
              inserted_of_add h.sound hnil hnull htop⟩
    rcases hnode with ⟨top, htop, hnone, hinserted⟩
    rcases add_of_inserted h hiv hnull htop hnone hinserted with ⟨t'', ht'', hkept, hset, -⟩
    rw [ht''] at hadd
    cases hadd
    exact ⟨hkept, hset⟩

variable {s : Finset (Interval α D)}

theorem add_stands (h : Stands t s) (hnull : iv.begin < iv.end_)
    (hsep : Separated (insert iv s)) (hlimit : Enough limit s.card) :
    ∃ t', t.add limit iv = .ok t' ∧ Stands t' (insert iv s) := by
  have hset := h.allIntervals
  subst hset
  by_cases hiv : iv ∈ t.allIntervals
  · rw [Finset.insert_eq_of_mem hiv]
    exact ⟨t, if_pos hiv, h⟩
  · have hexact := h.exact_
    have hnode : ∃ top, (t.topNode ≠ .nil → t.topNode.add limit iv = .ok top) ∧
        (t.topNode = .nil → top = Node.fromInterval iv) ∧ Inserted t.topNode iv top := by
      by_cases hnil : t.topNode = .nil
      · exact ⟨Node.fromInterval iv, fun hne => absurd hnil hne, fun _ => rfl,
          hnil.symm ▸ inserted_fromInterval hnull⟩
      · have hdepth := h.enough hlimit
        rcases add_within hexact.sound hnil hnull hexact.ordered
          (hexact.content.symm ▸ hsep) le_rfl (show 3 * t.topNode.depth + 5 ≤ limit by omega) with
          ⟨top, htop, -⟩
        exact ⟨top, fun _ => htop, fun h => absurd h hnil,
          inserted_of_add hexact.sound hnil hnull htop⟩
    rcases hnode with ⟨top, htop, hnone, hinserted⟩
    rcases add_of_inserted hexact.toKept hiv hnull htop hnone hinserted with
      ⟨t', ht', hkept, hset, rfl⟩
    rcases hinserted.ordered (hexact.content.symm ▸ hsep) hexact.ordered with ⟨ho, hbalanced⟩
    exact ⟨t', ht', { hkept with separated := hset.symm ▸ hsep, ordered := ho }, hset,
      (hbalanced h.balanced).1⟩

/-! ## Removing -/

/-- What `remove` and `discard` do with an interval that is there. -/
theorem removed_stands (h : Stands t s) (hiv : iv ∈ s)
    (hlimit : 3 * t.topNode.depth + 4 ≤ limit) (raise : Bool) :
    ∃ top done table, Node.removeIntervalHelper limit t.topNode iv raise = .ok (top, done) ∧
      IntervalTree.removeBoundaries t.boundaryTable iv = .ok table ∧
      Stands ⟨t.allIntervals.erase iv, top, table⟩ (s.erase iv) := by
  have hset := h.allIntervals
  subst hset
  have hexact := h.exact_
  have hsep : Separated t.topNode.allChildren := hexact.content.symm ▸ hexact.separated
  have hmem : iv ∈ t.topNode.allChildren := hexact.content.symm ▸ hiv
  rcases removeIntervalHelper_within hexact.sound hexact.ordered hsep hmem le_rfl hlimit raise with
    ⟨top, done, htop, -⟩
  have hremoved := removed_of_helper hexact.sound hexact.ordered hsep hmem htop
  rcases counts_removeBoundaries hexact.counts hiv (hexact.proper iv hiv) with
    ⟨table, htable, hcounts⟩
  have hcontent : top.allChildren = t.allIntervals.erase iv := hexact.content ▸ hremoved.content
  refine ⟨top, done, table, htop, htable, {
    proper := fun k hk => hexact.proper k (Finset.mem_of_mem_erase hk)
    sound := hremoved.sound
    content := hcontent
    entries_eq := ?_
    counts := hcounts
    separated := hexact.separated.subset (Finset.erase_subset _ _)
    ordered := hremoved.ordered }, rfl, (hremoved.balanced h.balanced).1⟩
  have hlt := hremoved.entries_lt
  have hge := card_le_entries top
  have hcard := Finset.card_erase_of_mem hiv
  rw [hexact.entries_eq] at hlt
  rw [hcontent] at hge
  change entries top = (t.allIntervals.erase iv).card
  omega

theorem remove_stands (h : Stands t s) (hiv : iv ∈ s) (hlimit : Enough limit s.card) :
    ∃ t', t.remove limit iv = .ok t' ∧ Stands t' (s.erase iv) := by
  have hdepth := h.enough hlimit
  obtain ⟨limit, rfl⟩ : ∃ k, limit = k + 1 := ⟨limit - 1, by omega⟩
  rcases removed_stands h hiv (show 3 * t.topNode.depth + 4 ≤ limit by omega) true with
    ⟨top, done, table, htop, htable, hstands⟩
  refine ⟨_, ?_, hstands⟩
  rw [IntervalTree.remove, if_neg (not_not.mpr (h.allIntervals.symm ▸ hiv)), Node.remove, htop]
  simp only [bind, Except.bind, htable]
  rfl

theorem discard_stands (h : Stands t s) (hlimit : Enough limit s.card) (iv : Interval α D) :
    ∃ t', t.discard limit iv = .ok t' ∧ Stands t' (s.erase iv) := by
  have hdepth := h.enough hlimit
  by_cases hiv : iv ∈ s
  · rcases removed_stands h hiv (show 3 * t.topNode.depth + 4 ≤ limit by omega) false with
      ⟨top, done, table, htop, htable, hstands⟩
    refine ⟨_, ?_, hstands⟩
    rw [IntervalTree.discard, if_neg (not_not.mpr (h.allIntervals.symm ▸ hiv)), Node.discard, htop]
    simp only [bind, Except.bind, htable]
    rfl
  · rw [Finset.erase_eq_of_notMem hiv]
    exact ⟨t, if_pos (h.allIntervals.symm ▸ hiv), h⟩

end CProfiler.Intervals
