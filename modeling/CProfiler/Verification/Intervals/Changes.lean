import CProfiler.Verification.Intervals.Pruning

/-! # Adding and removing

What `add` and `remove` do to a tree of any shape: an interval is inserted whatever the others are,
and one that is there can be removed as long as the ranges are separated. -/

namespace CProfiler.Intervals

open Foundation Model Model.Intervals

variable {α D : Type} [LinearOrder α] [LinearOrder D]

variable {side : Bool} {x : α} {s : Finset (Interval α D)} {outer inner l r : Node α D} {d : ℕ}
  {b : ℤ} {iv : Interval α D}

/-- A node whose child has been changed, with children two apart at most. -/
theorem rotate_balanced_sided (hx : Center x s) (houter : Sound outer) (hinner : Sound inner)
    (hbouter : Balanced outer) (hbinner : Balanced inner)
    (hle : outer.depth ≤ inner.depth + 2 ∧ inner.depth ≤ outer.depth + 2)
    (hsep : Separated (sided side x s outer inner d b).allChildren)
    (ho : Ordered (sided side x s outer inner d b)) {limit : ℕ} (hlimit : 4 ≤ limit) :
    ∃ t', Node.rotate limit (sided side x s outer inner d b) = .ok t' ∧ Balanced t' ∧
      Leveled outer.depth inner.depth t'.depth := by
  cases side with
  | true =>
      rcases rotate_balanced ⟨hx, hinner, houter⟩ hbinner hbouter ⟨hle.2, hle.1⟩ hsep ho hlimit with
        ⟨t', ht', hb, hlevel⟩
      exact ⟨t', ht', hb, hlevel.symm⟩
  | false => exact rotate_balanced ⟨hx, houter, hinner⟩ hbouter hbinner hle hsep ho hlimit

/-! ## Adding -/

/-- The tree holds one interval more. -/
structure Inserted (t : Node α D) (iv : Interval α D) (t' : Node α D) : Prop where
  sound : Sound t'
  content : t'.allChildren = insert iv t.allChildren
  entries_le : entries t' ≤ entries t + 1
  ordered : Separated (insert iv t.allChildren) → Ordered t →
    Ordered t' ∧ (Balanced t → Balanced t' ∧ Shrunk t'.depth t.depth)

omit [LinearOrder D] in
theorem sound_fromInterval (hnull : iv.begin < iv.end_) : Sound (Node.fromInterval iv) := by
  refine ⟨⟨Finset.singleton_nonempty iv, fun k hk => ?_⟩, ⟨rfl, rfl⟩, trivial, trivial⟩
  rw [Finset.mem_singleton.mp hk]
  exact ⟨le_rfl, hnull⟩

theorem allChildren_fromInterval : (Node.fromInterval iv).allChildren = {iv} := by
  rw [Node.fromInterval, Node.leaf, Node.allChildren, Node.allChildren, Finset.union_empty,
    Finset.union_empty]

/-- Adding where there was no child. -/
theorem inserted_fromInterval (hnull : iv.begin < iv.end_) :
    Inserted .nil iv (Node.fromInterval iv) where
  sound := sound_fromInterval hnull
  content := allChildren_fromInterval
  entries_le := by simp [Node.fromInterval, Node.leaf, entries]
  ordered := fun _ _ => by
    simp [Node.fromInterval, Node.leaf, Ordered, Balanced, Shrunk, Node.depth, Node.allChildren]

/-- An interval that holds the center joins the node. -/
theorem inserted_center (ht : Sound (.node x s l r d b)) (hiv : ends.Holds iv x) :
    Inserted (.node x s l r d b) iv (.node x (insert iv s) l r d b) where
  sound := by
    refine ⟨⟨Finset.insert_nonempty iv s, fun k hk => ?_⟩, ht.2⟩
    rcases Finset.mem_insert.mp hk with rfl | hk
    · exact hiv
    · exact ht.1.holds k hk
  content := by
    rw [Node.allChildren, Node.allChildren, Finset.insert_union, Finset.insert_union]
  entries_le := by
    have hcard := Finset.card_insert_le iv s
    rw [entries, entries]
    omega
  ordered := fun _ ho => ⟨ho, fun hb => ⟨hb, le_rfl, Nat.le_succ _⟩⟩

theorem Inserted.content_sided {outer' : Node α D} (h : Inserted outer iv outer') :
    (sided side x s outer' inner d b).allChildren =
      insert iv (sided side x s outer inner d b).allChildren := by
  rw [allChildren_sided, allChildren_sided, h.content, Finset.insert_union, Finset.union_insert]

/-- The node is in order when an interval has been added to a child. -/
theorem Inserted.grown {outer' : Node α D} (h : Inserted outer iv outer')
    (hbeyond : ends.Beyond side x iv)
    (hsep : Separated (insert iv (sided side x s outer inner d b).allChildren))
    (ho : Ordered (sided side x s outer inner d b)) :
    Separated (sided side x s outer' inner d b).allChildren ∧
      Ordered (sided side x s outer' inner d b) ∧
      (Balanced outer → Balanced outer' ∧ Shrunk outer'.depth outer.depth) := by
  rw [← h.content_sided] at hsep
  have hsub : insert iv outer.allChildren ⊆ (sided side x s outer' inner d b).allChildren := by
    rw [allChildren_sided, h.content]
    exact Finset.subset_union_left.trans Finset.subset_union_right
  rw [ordered_sided] at ho
  rcases h.ordered (hsep.subset hsub) ho.2.2.1 with ⟨ho', hgrown⟩
  refine ⟨hsep, ordered_sided.mpr ⟨fun k hk => ?_, ho.2.1, ho', ho.2.2.2⟩, hgrown⟩
  rw [h.content, Finset.mem_insert] at hk
  rcases hk with rfl | hk
  · exact hbeyond
  · exact ho.1 k hk

/-- Adding to a child; the last hypothesis is about the balance of the whole. -/
theorem Inserted.child {outer' t' : Node α D} (h : Inserted outer iv outer')
    (hbeyond : ends.Beyond side x iv) (hrebuilt : Rebuilt (sided side x s outer' inner d b) t')
    (hbalance : Separated (sided side x s outer' inner d b).allChildren →
      Ordered (sided side x s outer' inner d b) → Balanced (sided side x s outer inner d b) →
        Balanced outer' → Shrunk outer'.depth outer.depth → Balanced t' ∧ Shrunk t'.depth d) :
    Inserted (sided side x s outer inner d b) iv t' := by
  refine {
    sound := hrebuilt.sound
    content := hrebuilt.content.trans h.content_sided
    entries_le := ?_
    ordered := fun hsep ho => ?_ }
  · have hle := hrebuilt.entries_le
    have hle' := h.entries_le
    rw [entries_sided] at hle ⊢
    omega
  · rcases h.grown hbeyond hsep ho with ⟨hsep', ho', hgrown⟩
    refine ⟨hrebuilt.ordered hsep' ho', fun hbal => ?_⟩
    rw [depth_sided]
    rcases hgrown (balanced_sided.mp hbal).2.1 with ⟨hbal', hshrunk⟩
    exact hbalance hsep' ho' hbal hbal' hshrunk

omit [LinearOrder D] in
/-- The side to which `hit_branch` points. -/
theorem beyond_of_miss (hmiss : ¬ ends.Holds iv x) (hside : decide (x < iv.begin) = side) :
    ends.Beyond side x iv := by
  have hbeyond := Ends.beyond_of_not_holds hmiss
  change ends.Beyond (decide (x < iv.begin)) x iv at hbeyond
  rw [hside] at hbeyond
  exact hbeyond

/-- `add` goes to the side on which the interval lies. -/
theorem add_sided (hmiss : ¬ ends.Holds iv x) (hside : decide (x < iv.begin) = side)
    (limit : ℕ) : Node.add (limit + 1) (sided side x s outer inner d b) iv =
      if outer.isNone then .ok (sided side x s (Node.fromInterval iv) inner d b).refreshBalance
      else (do
        let child ← Node.add limit outer iv
        Node.rotate limit (sided side x s child inner d b)) := by
  have hhit : iv.containsPoint x = false := by
    rw [← Bool.not_eq_true, containsPoint_iff]
    exact hmiss
  cases side with
  | true =>
      rw [sided, Node.add]
      simp only [Node.centerHit, hhit, Node.hitBranch, gt_iff_lt, hside]
      cases outer with
      | nil => rfl
      | node => rfl
  | false =>
      rw [sided, Node.add]
      simp only [Node.centerHit, hhit, Node.hitBranch, gt_iff_lt, hside]
      cases outer with
      | nil => rfl
      | node => rfl

/-- One step down. -/
theorem add_step (ht : Sound (sided side x s outer inner d b)) (hmiss : ¬ ends.Holds iv x)
    (hside : decide (x < iv.begin) = side) (hnull : iv.begin < iv.end_) {m limit : ℕ}
    (hm : entries (sided side x s outer inner d b) + 1 ≤ m) (hlimit : room m + 5 ≤ limit)
    (ih : outer ≠ .nil → ∃ t', Node.add limit outer iv = .ok t' ∧ Inserted outer iv t') :
    ∃ t', Node.add (limit + 1) (sided side x s outer inner d b) iv = .ok t' ∧
      Inserted (sided side x s outer inner d b) iv t' := by
  have hbeyond := beyond_of_miss hmiss hside
  rcases sound_sided.mp ht with ⟨hx, ⟨hd, -⟩, houter, hinner⟩
  rw [entries_sided] at hm
  rw [add_sided hmiss hside]
  cases hnil : outer.isNone with
  | true =>
      rw [isNone_eq_true_iff] at hnil
      subst hnil
      rw [if_pos rfl]
      have hnew := inserted_fromInterval hnull
      have hloose : Loose (sided side x s (Node.fromInterval iv) inner d b) :=
        loose_sided.mpr ⟨hx, hnew.sound, hinner⟩
      refine ⟨_, rfl, hnew.child hbeyond (Rebuilt.refresh hloose) fun _ _ hbal _ _ => ?_⟩
      have hdepth : (Node.fromInterval iv).depth = 1 := rfl
      have hempty : (Node.nil : Node α D).depth = 0 := rfl
      rw [balanced_sided] at hbal
      rw [refreshBalance_sided, balanced_sided, depth_sided, Shrunk, hd, hdepth, hempty]
      exact ⟨⟨⟨by omega, by omega⟩, ⟨⟨le_rfl.trans (Nat.le_succ _), Nat.le_succ _⟩, trivial,
        trivial⟩, hbal.2.2⟩, by omega, by omega⟩
  | false =>
      have hne : outer ≠ .nil := fun h => by simp [h, Node.isNone] at hnil
      rw [if_neg Bool.false_ne_true]
      rcases ih hne with ⟨child, hchild, hinserted⟩
      have hloose : Loose (sided side x s child inner d b) :=
        loose_sided.mpr ⟨hx, hinserted.sound, hinner⟩
      have hle := hinserted.entries_le
      rcases (specs m).rotate limit _ hloose (by rw [entries_sided]; omega) hlimit with
        ⟨t', ht', hrebuilt⟩
      refine ⟨t', ?_, hinserted.child hbeyond hrebuilt fun hsep ho hbal hbchild hgrown => ?_⟩
      · simp only [bind, Except.bind, hchild]
        exact ht'
      · rw [balanced_sided] at hbal
        rw [Shrunk] at hgrown
        rcases rotate_balanced_sided hx hinserted.sound hinner hbchild hbal.2.2
          ⟨by omega, by omega⟩ hsep ho (show 4 ≤ limit by omega) with ⟨t'', ht'', hbt'', hlevel⟩
        have hsame : t'' = t' := Except.ok.inj (ht''.symm.trans ht')
        subst hsame
        rw [Leveled] at hlevel
        rw [Shrunk, hd]
        exact ⟨hbt'', by omega, by omega⟩

theorem add_spec {t : Node α D} (ht : Sound t) (hne : t ≠ .nil) (hnull : iv.begin < iv.end_)
    {m limit : ℕ} (hm : entries t + 1 ≤ m) (hlimit : room m + 6 ≤ limit) :
    ∃ t', Node.add limit t iv = .ok t' ∧ Inserted t iv t' := by
  induction t generalizing m limit with
  | nil => exact absurd rfl hne
  | node x s l r d b ihl ihr =>
      have hcard : 0 < s.card := Finset.card_pos.mpr ht.1.nonempty
      have hroom : room (m - 1) + 12 = room m := by
        simp only [room]
        omega
      obtain ⟨limit, rfl⟩ : ∃ k, limit = k + 1 := ⟨limit - 1, by omega⟩
      by_cases hhit : ends.Holds iv x
      · refine ⟨_, ?_, inserted_center ht hhit⟩
        have hcenter : (Node.node x s l r d b).centerHit iv = true := containsPoint_iff.mpr hhit
        rw [Node.add]
        exact if_pos hcenter
      · rw [entries] at hm
        cases hside : decide (x < iv.begin) with
        | true =>
            have hsided : Sound (sided true x s r l d b) := ht
            exact add_step (m := m) hsided hhit hside hnull (by rw [entries_sided]; omega)
              (by omega) (fun hr => ihr ht.2.2.2 hr (m := m - 1) (by omega) (by omega))
        | false =>
            have hsided : Sound (sided false x s l r d b) := ht
            exact add_step (m := m) hsided hhit hside hnull (by rw [entries_sided]; omega)
              (by omega) (fun hl => ihl ht.2.2.1 hl (m := m - 1) (by omega) (by omega))

/-! ## Removing -/

/-- The tree holds one interval less; nothing above has to be done if `done` has been set. -/
structure Removed (t : Node α D) (iv : Interval α D) (t' : Node α D) (done : Bool) : Prop where
  sound : Sound t'
  content : t'.allChildren = t.allChildren.erase iv
  entries_lt : entries t' < entries t
  ordered : Ordered t'
  balanced : Balanced t → Balanced t' ∧ Shrunk t.depth t'.depth
  same : done = true → t'.depth = t.depth

/-- The intervals of the children do not hold the center. -/
theorem mem_center_of_holds (ho : Ordered (.node x s l r d b)) (hiv : ends.Holds iv x)
    (hmem : iv ∈ (Node.node x s l r d b).allChildren) :
    iv ∈ s ∧ iv ∉ l.allChildren ∧ iv ∉ r.allChildren := by
  have hl : iv ∉ l.allChildren := fun h => (ho.1 iv h).not_holds hiv
  have hr : iv ∉ r.allChildren := fun h => (ho.2.1 iv h).not_holds hiv
  rw [Node.allChildren, Finset.mem_union, Finset.mem_union] at hmem
  tauto

/-- Another interval stays in the center. -/
theorem removed_center (ht : Sound (.node x s l r d b)) (ho : Ordered (.node x s l r d b))
    (hiv : ends.Holds iv x) (hmem : iv ∈ (Node.node x s l r d b).allChildren)
    (hrest : (s.erase iv).Nonempty) :
    Removed (.node x s l r d b) iv (.node x (s.erase iv) l r d b) true := by
  rcases mem_center_of_holds ho hiv hmem with ⟨hs, hl, hr⟩
  refine {
    sound := ⟨⟨hrest, fun k hk => ht.1.holds k (Finset.mem_of_mem_erase hk)⟩, ht.2⟩
    content := ?_
    entries_lt := ?_
    ordered := ho
    balanced := fun hb => ⟨hb, le_rfl, Nat.le_succ _⟩
    same := fun _ => rfl }
  · rw [Node.allChildren, Node.allChildren, Finset.erase_union_distrib,
      Finset.erase_union_distrib, Finset.erase_eq_of_notMem hl, Finset.erase_eq_of_notMem hr]
  · have hcard := Finset.card_erase_lt_of_mem hs
    rw [entries, entries]
    omega

/-- The center has lost its last interval. -/
theorem Pruned.removed {t' : Node α D} (h : Pruned x l r t') (ht : Sound (.node x s l r d b))
    (ho : Ordered (.node x s l r d b)) (hsep : Separated (Node.node x s l r d b).allChildren)
    (hiv : ends.Holds iv x) (hmem : iv ∈ (Node.node x s l r d b).allChildren)
    (hempty : s.erase iv = ∅) : Removed (.node x s l r d b) iv t' false := by
  rcases mem_center_of_holds ho hiv hmem with ⟨hs, hl, hr⟩
  have hsub : l.allChildren ∪ r.allChildren ⊆ (Node.node x s l r d b).allChildren := by
    rw [Node.allChildren, Finset.union_assoc]
    exact Finset.subset_union_right
  rcases h.ordered (hsep.subset hsub) ho with ⟨ho', hshrunk⟩
  refine {
    sound := h.sound
    content := ?_
    entries_lt := ?_
    ordered := ho'
    balanced := fun hb => ?_
    same := fun hfalse => absurd hfalse Bool.false_ne_true }
  · rw [h.content, Node.allChildren, Finset.erase_union_distrib, Finset.erase_union_distrib,
      Finset.erase_eq_of_notMem hl, Finset.erase_eq_of_notMem hr, hempty, Finset.empty_union]
  · have hle := h.entries_le
    have hcard : 0 < s.card := Finset.card_pos.mpr ht.1.nonempty
    rw [entries]
    omega
  · rw [Node.depth, ht.2.1.1]
    exact hshrunk hb

/-- `remove_interval_helper` goes to the side on which the interval lies. -/
theorem removeIntervalHelper_sided (hmiss : ¬ ends.Holds iv x)
    (hside : decide (x < iv.begin) = side) (hne : outer ≠ .nil) (limit : ℕ) (raise : Bool) :
    Node.removeIntervalHelper (limit + 1) (sided side x s outer inner d b) iv raise = (do
      let (child, done) ← Node.removeIntervalHelper limit outer iv raise
      if done then return (sided side x s child inner d b, true)
      else
        let rotated ← Node.rotate limit (sided side x s child inner d b)
        return (rotated, false)) := by
  have hhit : iv.containsPoint x = false := by
    rw [← Bool.not_eq_true, containsPoint_iff]
    exact hmiss
  cases side with
  | true =>
      rw [sided, Node.removeIntervalHelper]
      simp only [Node.centerHit, hhit, Node.hitBranch, gt_iff_lt, hside]
      cases outer with
      | nil => exact absurd rfl hne
      | node => rfl
  | false =>
      rw [sided, Node.removeIntervalHelper]
      simp only [Node.centerHit, hhit, Node.hitBranch, gt_iff_lt, hside]
      cases outer with
      | nil => exact absurd rfl hne
      | node => rfl

/-- The side on which the interval lies holds it, and nothing else does. -/
theorem mem_outer (ht : Sound (sided side x s outer inner d b))
    (ho : Ordered (sided side x s outer inner d b)) (hmiss : ¬ ends.Holds iv x)
    (hbeyond : ends.Beyond side x iv)
    (hmem : iv ∈ (sided side x s outer inner d b).allChildren) :
    iv ∉ s ∧ iv ∈ outer.allChildren ∧ iv ∉ inner.allChildren := by
  rcases ht.holds_of_mem hmem with ⟨p, hp⟩
  rw [ordered_sided] at ho
  rw [allChildren_sided, Finset.mem_union, Finset.mem_union] at hmem
  have hs : iv ∉ s := fun h => hmiss ((sound_sided.mp ht).1.holds iv h)
  have hinner : iv ∉ inner.allChildren := fun h => hbeyond.not_other hp (ho.2.1 iv h)
  tauto

/-- The node with a child that has lost an interval, before it is rotated. -/
structure Lost (t : Node α D) (iv : Interval α D) (t' : Node α D) : Prop where
  content : t'.allChildren = t.allChildren.erase iv
  entries_lt : entries t' < entries t
  ordered : Ordered t'
  separated : Separated t'.allChildren

theorem Removed.child {outer' : Node α D} {done : Bool} (h : Removed outer iv outer' done)
    (hs : iv ∉ s) (hinner : iv ∉ inner.allChildren) (ho : Ordered (sided side x s outer inner d b))
    (hsep : Separated (sided side x s outer inner d b).allChildren) :
    Lost (sided side x s outer inner d b) iv (sided side x s outer' inner d b) := by
  have hcontent : (sided side x s outer' inner d b).allChildren =
      (sided side x s outer inner d b).allChildren.erase iv := by
    rw [allChildren_sided, allChildren_sided, h.content, Finset.erase_union_distrib,
      Finset.erase_union_distrib, Finset.erase_eq_of_notMem hs, Finset.erase_eq_of_notMem hinner]
  refine {
    content := hcontent
    entries_lt := ?_
    ordered := ?_
    separated := hcontent ▸ hsep.subset (Finset.erase_subset _ _) }
  · have hlt := h.entries_lt
    rw [entries_sided, entries_sided]
    omega
  · rw [ordered_sided] at ho ⊢
    refine ⟨fun k hk => ho.1 k ?_, ho.2.1, h.ordered, ho.2.2.2⟩
    rw [h.content] at hk
    exact Finset.mem_of_mem_erase hk

/-- One step down. -/
theorem remove_step (ht : Sound (sided side x s outer inner d b))
    (ho : Ordered (sided side x s outer inner d b))
    (hsep : Separated (sided side x s outer inner d b).allChildren) (hmiss : ¬ ends.Holds iv x)
    (hside : decide (x < iv.begin) = side)
    (hmem : iv ∈ (sided side x s outer inner d b).allChildren) {m limit : ℕ}
    (hm : entries (sided side x s outer inner d b) ≤ m) (hlimit : room m + 8 ≤ limit)
    (raise : Bool)
    (ih : iv ∈ outer.allChildren → ∃ t' done,
      Node.removeIntervalHelper limit outer iv raise = .ok (t', done) ∧ Removed outer iv t' done) :
    ∃ t' done, Node.removeIntervalHelper (limit + 1) (sided side x s outer inner d b) iv raise =
        .ok (t', done) ∧ Removed (sided side x s outer inner d b) iv t' done := by
  have hbeyond := beyond_of_miss hmiss hside
  rcases mem_outer ht ho hmiss hbeyond hmem with ⟨hs, houtermem, hinnermem⟩
  have hne : outer ≠ .nil := by
    rintro rfl
    exact Finset.notMem_empty iv houtermem
  rcases sound_sided.mp ht with ⟨hx, ⟨hd, hb⟩, houter, hinner⟩
  rcases ih houtermem with ⟨child, done, hchild, hremoved⟩
  have hlost := hremoved.child hs hinnermem ho hsep
  rw [removeIntervalHelper_sided hmiss hside hne, hchild]
  cases done with
  | true =>
      have hsame := hremoved.same rfl
      refine ⟨_, true, rfl, {
        sound := sound_sided.mpr ⟨hx, ⟨hsame ▸ hd, hsame ▸ hb⟩, hremoved.sound, hinner⟩
        content := hlost.content
        entries_lt := hlost.entries_lt
        ordered := hlost.ordered
        balanced := fun hbal => ?_
        same := fun _ => ?_ }⟩
      · rw [balanced_sided] at hbal ⊢
        rw [depth_sided, depth_sided]
        exact ⟨⟨hsame ▸ hbal.1, (hremoved.balanced hbal.2.1).1, hbal.2.2⟩, le_rfl, Nat.le_succ _⟩
      · rw [depth_sided, depth_sided]
  | false =>
      have hloose : Loose (sided side x s child inner d b) :=
        loose_sided.mpr ⟨hx, hremoved.sound, hinner⟩
      have hle := hlost.entries_lt.le.trans hm
      rcases (specs m).rotate limit _ hloose hle (by omega) with ⟨t', ht', hrebuilt⟩
      refine ⟨t', false, ?_, {
        sound := hrebuilt.sound
        content := hrebuilt.content.trans hlost.content
        entries_lt := hrebuilt.entries_le.trans_lt hlost.entries_lt
        ordered := hrebuilt.ordered hlost.separated hlost.ordered
        balanced := fun hbal => ?_
        same := fun hfalse => absurd hfalse Bool.false_ne_true }⟩
      · simp only [bind, Except.bind, ht']
        rfl
      · rw [balanced_sided] at hbal
        rcases hremoved.balanced hbal.2.1 with ⟨hbchild, hshrunk⟩
        have hwide := hshrunk
        rw [Shrunk] at hwide
        rcases rotate_balanced_sided hx hremoved.sound hinner hbchild hbal.2.2
          ⟨by omega, by omega⟩ hlost.separated hlost.ordered (show 4 ≤ limit by omega) with
          ⟨t'', ht'', hbt'', hlevel⟩
        have hsame : t'' = t' := Except.ok.inj (ht''.symm.trans ht')
        subst hsame
        rw [depth_sided, hd]
        exact ⟨hbt'', hlevel.shrunk hbal.1 hshrunk⟩

/-- In an ordered tree of separated ranges every interval can be removed. -/
theorem removeIntervalHelper_spec {t : Node α D} (ht : Sound t) (ho : Ordered t)
    (hsep : Separated t.allChildren) (hmem : iv ∈ t.allChildren) {m limit : ℕ}
    (hm : entries t ≤ m) (hlimit : room m + 9 ≤ limit) (raise : Bool) :
    ∃ t' done, Node.removeIntervalHelper limit t iv raise = .ok (t', done) ∧
      Removed t iv t' done := by
  induction t generalizing m limit with
  | nil => exact absurd hmem (Finset.notMem_empty iv)
  | node x s l r d b ihl ihr =>
      have hcard : 0 < s.card := Finset.card_pos.mpr ht.1.nonempty
      have hsum : entries (.node x s l r d b) = s.card + entries l + entries r := rfl
      have hroom : room (m - 1) + 12 = room m := by
        simp only [room]
        omega
      obtain ⟨limit, rfl⟩ : ∃ k, limit = k + 1 := ⟨limit - 1, by omega⟩
      by_cases hhit : ends.Holds iv x
      · have hcenter : (Node.node x s l r d b).centerHit iv = true := containsPoint_iff.mpr hhit
        have hs := (mem_center_of_holds ho hhit hmem).1
        rw [Node.removeIntervalHelper]
        simp only [hcenter, if_true, hs, not_true_eq_false, if_false]
        by_cases hrest : (s.erase iv).Nonempty
        · rw [if_pos hrest]
          exact ⟨_, true, rfl, removed_center ht ho hhit hmem hrest⟩
        · have hempty : s.erase iv = ∅ := Finset.not_nonempty_iff_eq_empty.mp hrest
          rcases (specs m).prune limit x l r d b ht.2.2.1 ht.2.2.2 (by omega) (by omega) with
            ⟨t', ht', hpruned⟩
          rw [if_neg hrest, hempty, Node.setCenter, ht']
          exact ⟨t', false, rfl, hpruned.removed ht ho hsep hhit hmem hempty⟩
      · have hsubl : l.allChildren ⊆ (Node.node x s l r d b).allChildren :=
          Finset.subset_union_right.trans Finset.subset_union_left
        have hsubr : r.allChildren ⊆ (Node.node x s l r d b).allChildren :=
          Finset.subset_union_right
        cases hside : decide (x < iv.begin) with
        | true =>
            have hsided : Sound (sided true x s r l d b) := ht
            exact remove_step (m := m) hsided ho hsep hhit hside hmem hm (by omega) raise
              (fun hr => ihr ht.2.2.2 ho.2.2.2 (hsep.subset hsubr) hr (m := m - 1) (by omega)
                (by omega))
        | false =>
            have hsided : Sound (sided false x s l r d b) := ht
            exact remove_step (m := m) hsided ho hsep hhit hside hmem hm (by omega) raise
              (fun hl => ihl ht.2.2.1 ho.2.2.1 (hsep.subset hsubl) hl (m := m - 1) (by omega)
                (by omega))

end CProfiler.Intervals
