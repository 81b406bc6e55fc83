import CProfiler.Verification.Intervals.Nodes

/-! # Rebalancing

`rotate`, `prune`, `pop_greatest_child` and `from_intervals` call one another on smaller and smaller
trees. Each is described once, for trees of a bounded number of entries, and the descriptions are
joined by induction on that number. Nothing is assumed about the intervals but that they are not
empty; that they keep the order is said of separated ones only. -/

namespace CProfiler.Intervals

open Foundation Model Model.Intervals

variable {α D : Type} [LinearOrder α] [LinearOrder D]

/-! ## What a rebuilt tree keeps -/

/-- The tree holds what the other one held. -/
structure Rebuilt (t t' : Node α D) : Prop where
  sound : Sound t'
  content : t'.allChildren = t.allChildren
  entries_le : entries t' ≤ entries t
  ordered : Separated t.allChildren → Ordered t → Ordered t'

theorem Rebuilt.trans {t t' t'' : Node α D} (h : Rebuilt t t') (h' : Rebuilt t' t'') :
    Rebuilt t t'' where
  sound := h'.sound
  content := h'.content.trans h.content
  entries_le := h'.entries_le.trans h.entries_le
  ordered := fun hsep ho => h'.ordered (h.content ▸ hsep) (h.ordered hsep ho)

theorem Rebuilt.refl {t : Node α D} (h : Sound t) : Rebuilt t t where
  sound := h
  content := rfl
  entries_le := le_rfl
  ordered := fun _ ho => ho

/-- The center and the children are in order; what the node says of its depth is not known. -/
def Loose : Node α D → Prop
  | .nil => False
  | .node x s l r _ _ => Center x s ∧ Sound l ∧ Sound r

variable {side : Bool} {x : α} {s : Finset (Interval α D)} {outer inner l r : Node α D} {d : ℕ}
  {b : ℤ}

omit [LinearOrder D] in
theorem loose_sided : Loose (sided side x s outer inner d b) ↔
    Center x s ∧ Sound outer ∧ Sound inner := by
  cases side with
  | true => rw [sided, Loose, and_comm (a := Sound inner)]
  | false => rfl

theorem Rebuilt.refresh {t : Node α D} (h : Loose t) : Rebuilt t t.refreshBalance := by
  cases t with
  | nil => exact h.elim
  | node x s l r d b =>
      exact {
        sound := sound_refreshBalance h.1 h.2.1 h.2.2
        content := rfl
        entries_le := le_rfl
        ordered := fun _ ho => ho }

/-- Replacing a child by a rebuilt one. -/
theorem Rebuilt.child {outer' : Node α D} (hx : Center x s) (hinner : Sound inner)
    (h : Rebuilt outer outer') :
    Rebuilt (sided side x s outer inner d b)
      (sided side x s outer' inner d b).refreshBalance := by
  rw [refreshBalance_sided]
  refine {
    sound := sound_sided.mpr ⟨hx, ⟨rfl, rfl⟩, h.sound, hinner⟩
    content := by rw [allChildren_sided, allChildren_sided, h.content]
    entries_le := ?_
    ordered := fun hsep ho => ?_ }
  · have hle := h.entries_le
    rw [entries_sided, entries_sided]
    omega
  · rw [allChildren_sided] at hsep
    rw [ordered_sided] at ho ⊢
    have hsub : outer.allChildren ⊆ s ∪ (outer.allChildren ∪ inner.allChildren) :=
      Finset.subset_union_left.trans Finset.subset_union_right
    exact ⟨h.content ▸ ho.1, ho.2.1, h.ordered (hsep.subset hsub) ho.2.2.1, ho.2.2.2⟩

/-- A rebuilt tree of some intervals is not `None`. -/
theorem Rebuilt.ne_nil {t t' : Node α D} (h : Rebuilt t t') (hloose : Loose t) : t' ≠ .nil := by
  rintro rfl
  cases t with
  | nil => exact hloose.elim
  | node x s l r d b =>
      rcases hloose.1.nonempty with ⟨iv, hiv⟩
      have hmem : iv ∈ (Node.nil : Node α D).allChildren := by
        rw [h.content, Node.allChildren]
        exact Finset.mem_union_left _ (Finset.mem_union_left _ hiv)
      exact Finset.notMem_empty iv hmem

/-! ## The descriptions -/

/-- What is left of the recursion limit for a tree of that many entries. -/
def room (m : ℕ) : ℕ := 12 * m

variable (α D) in
def RotateSpec (m : ℕ) : Prop :=
  ∀ (limit : ℕ) (t : Node α D), Loose t → entries t ≤ m → room m + 5 ≤ limit →
    ∃ t', Node.rotate limit t = .ok t' ∧ Rebuilt t t'

variable (α D) in
/-- `srotate` does not need to know which child is the deeper one. -/
def SrotateSpec (m : ℕ) : Prop :=
  ∀ (limit : ℕ) (t : Node α D), Sound t → (∃ i, t.getitem i ≠ .nil) → entries t ≤ m →
    room m + 3 ≤ limit → ∃ t', Node.srotate limit t = .ok t' ∧ Rebuilt t t'

/-- Something has been taken away and the depth has not dropped by more than one. -/
def Shrunk (d d' : ℕ) : Prop := d' ≤ d ∧ d ≤ d' + 1

/-- The node that has lost its own intervals is gone. -/
structure Pruned (x : α) (l r t' : Node α D) : Prop where
  sound : Sound t'
  content : t'.allChildren = l.allChildren ∪ r.allChildren
  entries_le : entries t' ≤ entries l + entries r
  ordered : Separated (l.allChildren ∪ r.allChildren) → Ordered (.node x ∅ l r 0 0) →
    Ordered t' ∧ (Balanced (.node x ∅ l r 0 0) →
      Balanced t' ∧ Shrunk (1 + max l.depth r.depth) t'.depth)

variable (α D) in
def PruneSpec (m : ℕ) : Prop :=
  ∀ (limit : ℕ) (x : α) (l r : Node α D) (d : ℕ) (b : ℤ), Sound l → Sound r →
    entries l + entries r ≤ m → room m + 8 ≤ limit →
    ∃ t', Node.prune limit (.node x ∅ l r d b) = .ok t' ∧ Pruned x l r t'

/-- The center that has been popped, with its intervals, and the tree that remains. -/
structure Popped (t : Node α D) (x : α) (s : Finset (Interval α D)) (t' : Node α D) : Prop where
  center : Center x s
  sound : Sound t'
  content : s ∪ t'.allChildren = t.allChildren
  entries_le : s.card + entries t' ≤ entries t
  ordered : Separated t.allChildren → Ordered t →
    (Ordered t' ∧ ∀ iv ∈ t'.allChildren, ends.Beyond false x iv) ∧
      (Balanced t → Balanced t' ∧ Shrunk t.depth t'.depth)

variable (α D) in
def PopSpec (m : ℕ) : Prop :=
  ∀ (limit : ℕ) (t : Node α D), Sound t → t ≠ .nil → entries t ≤ m → room m + 9 ≤ limit →
    ∃ x s l r d b t', Node.popGreatestChild limit t = .ok (.node x s l r d b, t') ∧
      Popped t x s t'

/-- The tree holds the intervals of the list. -/
structure Built (ivs : List (Interval α D)) (t : Node α D) : Prop where
  sound : Sound t
  content : t.allChildren = ivs.toFinset
  entries_le : entries t ≤ ivs.length
  ordered : Separated ivs.toFinset → Ordered t

variable (α D) in
def FromSpec (m : ℕ) : Prop :=
  ∀ (limit : ℕ) (ivs : List (Interval α D)), (∀ iv ∈ ivs, iv.begin < iv.end_) → ivs.length ≤ m →
    room m + 8 ≤ limit → ∃ t, Node.fromIntervals limit ivs = .ok t ∧ Built ivs t

/-! ## Moving intervals up -/

/-- Removing an interval of the center leaves the node, as long as another one is left. -/
theorem remove_center {iv : Interval α D} (hiv : iv ∈ s) (hx : ends.Holds iv x)
    (hrest : (s.erase iv).Nonempty) (limit : ℕ) :
    Node.remove (limit + 2) (.node x s l r d b) iv = .ok (.node x (s.erase iv) l r d b) := by
  have hhit : (Node.node x s l r d b).centerHit iv = true := containsPoint_iff.mpr hx
  rw [Node.remove, Node.removeIntervalHelper]
  simp only [hhit, if_true, hiv, not_true_eq_false, if_false, hrest]
  rfl

/-- Removing the last interval of the center prunes the node. -/
theorem remove_last {iv : Interval α D} (hx : ends.Holds iv x) (limit : ℕ) :
    Node.remove (limit + 2) (.node x {iv} l r d b) iv =
      Node.prune limit (.node x ∅ l r d b) := by
  have hhit : (Node.node x {iv} l r d b).centerHit iv = true := containsPoint_iff.mpr hx
  have herase : ({iv} : Finset (Interval α D)).erase iv = ∅ := by simp
  rw [Node.remove, Node.removeIntervalHelper]
  simp only [hhit, if_true, Finset.mem_singleton, not_true_eq_false, if_false,
    Node.setCenter, herase, Finset.not_nonempty_empty]
  cases Node.prune limit (.node x ∅ l r d b) with
  | error e => rfl
  | ok t => rfl

/-- Removing some, but not all, intervals of the center. -/
theorem foldlM_remove_center {ps : List (Interval α D)} (hnodup : ps.Nodup)
    (hps : ∀ iv ∈ ps, iv ∈ s) (hx : Center x s) (hrest : ∃ iv ∈ s, iv ∉ ps) (limit : ℕ) :
    ps.foldlM (fun t iv => Node.remove (limit + 2) t iv) (.node x s l r d b) =
      .ok (.node x (s \ ps.toFinset) l r d b) := by
  induction ps generalizing s with
  | nil => simp [pure, Except.pure]
  | cons p ps ih =>
      rcases List.nodup_cons.mp hnodup with ⟨hp, hnodup⟩
      rcases hrest with ⟨q, hq, hqps⟩
      rw [List.mem_cons, not_or] at hqps
      have hmem : q ∈ s.erase p := Finset.mem_erase.mpr ⟨hqps.1, hq⟩
      have hpm := hps p List.mem_cons_self
      rw [List.foldlM_cons, remove_center hpm (hx.holds p hpm) ⟨q, hmem⟩ limit]
      change ps.foldlM (fun t iv => Node.remove (limit + 2) t iv) (.node x (s.erase p) l r d b) = _
      rw [ih hnodup ?_ ⟨⟨q, hmem⟩, fun iv hiv => hx.holds iv (Finset.mem_of_mem_erase hiv)⟩
        ⟨q, hmem, hqps.2⟩]
      · rw [List.toFinset_cons, Finset.sdiff_insert, Finset.erase_sdiff_comm]
      · intro iv hiv
        exact Finset.mem_erase.mpr ⟨fun heq => hp (heq ▸ hiv), hps iv (List.mem_cons_of_mem _ hiv)⟩

/-- What is left when intervals of the center have moved up. -/
structure Lowered (t : Node α D) (promotees : Finset (Interval α D)) (t' : Node α D) : Prop where
  sound : Sound t'
  content : promotees ∪ t'.allChildren = t.allChildren
  entries_le : promotees.card + entries t' ≤ entries t
  same : promotees = ∅ → t' = t

/-- Some intervals stay in the center. -/
theorem lowered_some {promotees : Finset (Interval α D)} (ht : Sound (.node x s l r d b))
    (hsub : promotees ⊂ s) (hne : promotees.Nonempty) (limit : ℕ) :
    ∃ t', (promotees.sort (· ≤ ·)).foldlM (fun t iv => Node.remove (limit + 2) t iv)
        (.node x s l r d b) = .ok t' ∧ Lowered (.node x s l r d b) promotees t' := by
  rcases ht with ⟨hx, hd, hl, hr⟩
  rcases Finset.exists_of_ssubset hsub with ⟨q, hq, hqp⟩
  have hrest : (s \ promotees).Nonempty := ⟨q, Finset.mem_sdiff.mpr ⟨hq, hqp⟩⟩
  refine ⟨.node x (s \ promotees) l r d b, ?_, {
    sound := ⟨⟨hrest, fun iv hiv => hx.holds iv (Finset.mem_sdiff.mp hiv).1⟩, hd, hl, hr⟩
    content := ?_
    entries_le := ?_
    same := fun hempty => absurd hempty hne.ne_empty }⟩
  · rw [foldlM_remove_center (Finset.sort_nodup _ _)
      (fun iv hiv => hsub.subset ((Finset.mem_sort _).mp hiv)) hx
      ⟨q, hq, fun hin => hqp ((Finset.mem_sort _).mp hin)⟩, Finset.sort_toFinset]
  · rw [Node.allChildren, Node.allChildren, ← Finset.union_assoc, ← Finset.union_assoc,
      Finset.union_sdiff_of_subset hsub.subset]
  · rw [entries, entries, ← Finset.card_sdiff_add_card_eq_card hsub.subset]
    omega

/-- All of them move up, the last one prunes the node. -/
theorem lowered_all {m : ℕ} (hprune : PruneSpec α D m) (ht : Sound (.node x s l r d b))
    (hm : entries l + entries r ≤ m) {limit : ℕ} (hlimit : room m + 8 ≤ limit) :
    ∃ t', (s.sort (· ≤ ·)).foldlM (fun t iv => Node.remove (limit + 2) t iv)
        (.node x s l r d b) = .ok t' ∧ Lowered (.node x s l r d b) s t' := by
  rcases ht with ⟨hx, hd, hl, hr⟩
  have hsort : s.sort (· ≤ ·) ≠ [] := by
    intro hnil
    rcases hx.nonempty with ⟨iv, hiv⟩
    have hmem : iv ∈ s.sort (· ≤ ·) := (Finset.mem_sort _).mpr hiv
    rw [hnil] at hmem
    exact List.not_mem_nil hmem
  obtain ⟨ps, last, hsplit⟩ : ∃ ps last, s.sort (· ≤ ·) = ps ++ [last] :=
    ⟨_, _, (List.dropLast_append_getLast hsort).symm⟩
  have hmem : ∀ iv, iv ∈ s ↔ iv ∈ ps ∨ iv = last := by
    intro iv
    rw [← Finset.mem_sort (· ≤ ·), hsplit, List.mem_append, List.mem_singleton]
  have hnodup : (ps ++ [last]).Nodup := hsplit ▸ Finset.sort_nodup s (· ≤ ·)
  have hlast : last ∉ ps := by
    intro hin
    exact (List.nodup_append.mp hnodup).2.2 last hin last (List.mem_singleton_self _) rfl
  have hlasts : last ∈ s := (hmem last).mpr (.inr rfl)
  have hdiff : s \ ps.toFinset = {last} := by
    ext iv
    rw [Finset.mem_sdiff, hmem, List.mem_toFinset, Finset.mem_singleton]
    refine ⟨fun h => h.1.resolve_left h.2, fun h => ⟨.inr h, ?_⟩⟩
    rw [h]
    exact hlast
  rcases hprune limit x l r d b hl hr hm hlimit with ⟨t', hok, hpruned⟩
  refine ⟨t', ?_, {
    sound := hpruned.sound
    content := by rw [hpruned.content, Node.allChildren, Finset.union_assoc]
    entries_le := ?_
    same := fun hempty => absurd hempty hx.nonempty.ne_empty }⟩
  · rw [hsplit, List.foldlM_append, foldlM_remove_center (List.nodup_append.mp hnodup).1
      (fun iv hiv => (hmem iv).mpr (.inl hiv)) hx ⟨last, hlasts, hlast⟩, hdiff]
    simp only [bind, Except.bind, List.foldlM_cons, List.foldlM_nil]
    rw [remove_last (hx.holds last hlasts), hok]
    rfl
  · have hle := hpruned.entries_le
    rw [entries]
    omega

theorem foldlM_remove {m limit : ℕ} (hprune : PruneSpec α D m) {t : Node α D} (ht : Sound t)
    (hm : entries t ≤ m) (hlimit : room m + 10 ≤ limit) {promotees : Finset (Interval α D)}
    (hsub : promotees ⊆ t.sCenter) :
    ∃ t', (promotees.sort (· ≤ ·)).foldlM (fun t iv => Node.remove limit t iv) t = .ok t' ∧
      Lowered t promotees t' := by
  obtain ⟨limit, rfl⟩ : ∃ k, limit = k + 2 := ⟨limit - 2, by omega⟩
  rcases promotees.eq_empty_or_nonempty with rfl | hne
  · exact ⟨t, by simp [pure, Except.pure],
      { sound := ht, content := Finset.empty_union _, entries_le := by simp, same := fun _ => rfl }⟩
  cases t with
  | nil => exact absurd (hsub hne.choose_spec) (Finset.notMem_empty _)
  | node x s l r d b =>
      rcases hsub.eq_or_ssubset with rfl | hssub
      · exact lowered_all hprune ht (by rw [entries] at hm; omega) (by omega)
      · exact lowered_some ht hssub hne limit

end CProfiler.Intervals
