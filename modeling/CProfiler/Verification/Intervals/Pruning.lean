import CProfiler.Verification.Intervals.Rotations

/-! # Building and pruning

A tree is built around the interval in the middle. A node that has lost its intervals is replaced
by the greatest child on its left, whose center moves as far up as it can. -/

namespace CProfiler.Intervals

open Foundation Model Model.Intervals

variable {α D : Type} [LinearOrder α] [LinearOrder D]

variable {x : α} {s : Finset (Interval α D)} {l r : Node α D} {d : ℕ} {b : ℤ}

/-! ## Building -/

theorem length_filter_three {β : Type*} (p q : β → Bool) (l : List β) :
    (l.filter p).length + (l.filter (fun k => !p k && q k)).length +
      (l.filter (fun k => !p k && !q k)).length = l.length := by
  induction l with
  | nil => rfl
  | cons k l ih =>
      cases hp : p k with
      | true =>
          simp only [List.filter_cons, hp, List.length_cons, if_true, Bool.not_true,
            Bool.false_and, Bool.false_eq_true, if_false]
          omega
      | false =>
          cases hq : q k with
          | true =>
              simp only [List.filter_cons, hp, hq, List.length_cons, if_true, Bool.not_true,
                Bool.not_false, Bool.and_false, Bool.and_true, Bool.false_eq_true, if_false]
              omega
          | false =>
              simp only [List.filter_cons, hp, hq, List.length_cons, if_true, Bool.not_false,
                Bool.and_false, Bool.and_true, Bool.false_eq_true, if_false]
              omega

/-- The three parts of a list of intervals, around the begin of one of them. -/
structure Parts (ivs : List (Interval α D)) (x : α) : Prop where
  center : Center x (ivs.filter (fun k => !decide (k.end_ ≤ x) && !decide (k.begin > x))).toFinset
  length_left : (ivs.filter (fun k => decide (k.end_ ≤ x))).length < ivs.length
  length_right :
    (ivs.filter (fun k => !decide (k.end_ ≤ x) && decide (k.begin > x))).length < ivs.length

theorem parts_of_mem {ivs : List (Interval α D)} {iv : Interval α D} (hiv : iv ∈ ivs)
    (hnull : iv.begin < iv.end_) : Parts ivs iv.begin := by
  have hmem : iv ∈ ivs.filter
      (fun k => !decide (k.end_ ≤ iv.begin) && !decide (k.begin > iv.begin)) := by
    rw [List.mem_filter]
    simp [hiv, hnull]
  have hpos := List.length_pos_of_mem hmem
  have hsum := length_filter_three (fun k : Interval α D => decide (k.end_ ≤ iv.begin))
    (fun k => decide (k.begin > iv.begin)) ivs
  refine ⟨⟨⟨iv, List.mem_toFinset.mpr hmem⟩, fun k hk => ?_⟩, by omega, by omega⟩
  rw [List.mem_toFinset, List.mem_filter] at hk
  have hbounds := hk.2
  simp only [Bool.and_eq_true, Bool.not_eq_true', decide_eq_false_iff_not] at hbounds
  exact ⟨not_lt.mp hbounds.2, not_le.mp hbounds.1⟩

/-- The node over the trees of the two outer parts, before it is rotated. -/
structure Assembled (ivs : List (Interval α D)) (t : Node α D) : Prop where
  loose : Loose t
  content : t.allChildren = ivs.toFinset
  entries_le : entries t ≤ ivs.length
  ordered : Separated ivs.toFinset → Ordered t

theorem Parts.assembled {ivs : List (Interval α D)} (h : Parts ivs x)
    (hl : Built (ivs.filter (fun k => decide (k.end_ ≤ x))) l)
    (hr : Built (ivs.filter (fun k => !decide (k.end_ ≤ x) && decide (k.begin > x))) r) :
    Assembled ivs (.node x (ivs.filter
      (fun k => !decide (k.end_ ≤ x) && !decide (k.begin > x))).toFinset l r d b) := by
  have hsum := length_filter_three (fun k : Interval α D => decide (k.end_ ≤ x))
    (fun k => decide (k.begin > x)) ivs
  have hsubset : ∀ p : Interval α D → Bool, (ivs.filter p).toFinset ⊆ ivs.toFinset := by
    intro p k hk
    exact List.mem_toFinset.mpr (List.mem_filter.mp (List.mem_toFinset.mp hk)).1
  refine {
    loose := ⟨h.center, hl.sound, hr.sound⟩
    content := ?_
    entries_le := ?_
    ordered := fun hsep => ⟨fun k hk => ?_, fun k hk => ?_, ?_, ?_⟩ }
  · rw [Node.allChildren, hl.content, hr.content]
    ext k
    simp only [Finset.mem_union, List.mem_toFinset, List.mem_filter, Bool.and_eq_true,
      Bool.not_eq_true', decide_eq_false_iff_not, decide_eq_true_eq]
    tauto
  · have hcard := List.toFinset_card_le (ivs.filter
      (fun k => !decide (k.end_ ≤ x) && !decide (k.begin > x)))
    have hlel := hl.entries_le
    have hler := hr.entries_le
    rw [entries]
    omega
  · rw [hl.content, List.mem_toFinset, List.mem_filter, decide_eq_true_eq] at hk
    exact hk.2
  · rw [hr.content, List.mem_toFinset, List.mem_filter, Bool.and_eq_true,
      decide_eq_true_eq] at hk
    exact hk.2.2
  · exact hl.ordered (hsep.subset (hsubset _))
  · exact hr.ordered (hsep.subset (hsubset _))

/-- Building around one of the intervals. -/
theorem init_spec {m : ℕ} (hrotate : RotateSpec α D m) (hfrom : ∀ k < m, FromSpec α D k)
    {limit : ℕ} {ivs : List (Interval α D)} (hne : ivs ≠ [])
    (hnull : ∀ iv ∈ ivs, iv.begin < iv.end_) (hm : ivs.length ≤ m)
    (hlimit : room m + 7 ≤ limit) :
    ∃ t, Node.initFromSorted limit ivs = .ok t ∧ Built ivs t := by
  obtain ⟨limit, rfl⟩ : ∃ k, limit = k + 1 := ⟨limit - 1, by omega⟩
  have hlen : ivs.length / 2 < ivs.length :=
    Nat.div_lt_self (List.length_pos_iff.mpr hne) Nat.one_lt_two
  have hget : ivs[ivs.length / 2]? = some ivs[ivs.length / 2] := List.getElem?_eq_getElem hlen
  have hmem : ivs[ivs.length / 2] ∈ ivs := List.getElem_mem hlen
  generalize hiv : ivs[ivs.length / 2] = iv at hget hmem
  have hparts := parts_of_mem hmem (hnull iv hmem)
  have hroom : room (m - 1) + 12 = room m := by
    simp only [room]
    omega
  have hsub : ∀ p : Interval α D → Bool, ∀ k ∈ ivs.filter p, k.begin < k.end_ :=
    fun p k hk => hnull k (List.mem_filter.mp hk).1
  have hleft := hparts.length_left
  have hright := hparts.length_right
  rcases hfrom (m - 1) (by omega) limit (ivs.filter (fun k => decide (k.end_ ≤ iv.begin)))
    (hsub _) (by omega) (by omega) with ⟨l, hl, hbuiltl⟩
  rcases hfrom (m - 1) (by omega) limit
    (ivs.filter (fun k => !decide (k.end_ ≤ iv.begin) && decide (k.begin > iv.begin)))
    (hsub _) (by omega) (by omega) with ⟨r, hr, hbuiltr⟩
  have hassembled := hparts.assembled (d := 0) (b := 0) hbuiltl hbuiltr
  rcases hrotate limit _ hassembled.loose (hassembled.entries_le.trans hm) (by omega) with
    ⟨t, ht, hrebuilt⟩
  refine ⟨t, ?_, {
    sound := hrebuilt.sound
    content := hrebuilt.content.trans hassembled.content
    entries_le := hrebuilt.entries_le.trans hassembled.entries_le
    ordered := fun hsep =>
      hrebuilt.ordered (hassembled.content.symm ▸ hsep) (hassembled.ordered hsep) }⟩
  rw [Node.initFromSorted, hget]
  simp only [bind, Except.bind, hl, hr]
  exact ht

theorem from_spec {m : ℕ} (hrotate : RotateSpec α D m) (hfrom : ∀ k < m, FromSpec α D k) :
    FromSpec α D m := by
  intro limit ivs hnull hm hlimit
  obtain ⟨limit, rfl⟩ : ∃ k, limit = k + 1 := ⟨limit - 1, by omega⟩
  rw [Node.fromIntervals]
  by_cases hne : ivs = []
  · subst hne
    exact ⟨.nil, if_pos rfl,
      { sound := trivial, content := rfl, entries_le := le_rfl, ordered := fun _ => trivial }⟩
  · rw [if_neg hne]
    have hperm := List.mergeSort_perm ivs (fun a b => decide (a ≤ b))
    have hnesort : ivs.mergeSort (fun a b => decide (a ≤ b)) ≠ [] := by
      intro hnil
      rw [hnil] at hperm
      exact hne hperm.nil_eq.symm
    rcases init_spec hrotate hfrom hnesort (fun iv hiv => hnull iv (hperm.mem_iff.mp hiv))
      (hperm.length_eq ▸ hm) (show room m + 7 ≤ limit by omega) with ⟨t, ht, hbuilt⟩
    have hset := List.toFinset_eq_of_perm _ _ hperm
    exact ⟨t, ht,
      { sound := hbuilt.sound
        content := hset ▸ hbuilt.content
        entries_le := hperm.length_eq ▸ hbuilt.entries_le
        ordered := hset ▸ hbuilt.ordered }⟩

/-! ## The new center -/

omit [LinearOrder D] in
/-- Moving up to an end below the greatest one. -/
theorem foldl_newX {top newX : α} {rest : List (Interval α D)} (h : ∀ iv ∈ rest, iv.end_ ≤ top)
    (hlt : newX < top) :
    newX ≤ rest.foldl (fun newX iv => if iv.end_ = top then newX else max newX iv.end_) newX ∧
      rest.foldl (fun newX iv => if iv.end_ = top then newX else max newX iv.end_) newX < top := by
  induction rest generalizing newX with
  | nil => exact ⟨le_rfl, hlt⟩
  | cons iv rest ih =>
      have hrest : ∀ iv ∈ rest, iv.end_ ≤ top := fun k hk => h k (List.mem_cons_of_mem _ hk)
      rw [List.foldl_cons]
      split_ifs with heq
      · exact ih hrest hlt
      · have hend : iv.end_ < top := lt_of_le_of_ne (h iv List.mem_cons_self) heq
        rcases ih hrest (max_lt hlt hend) with ⟨hle, hlt'⟩
        exact ⟨(le_max_left _ _).trans hle, hlt'⟩

/-- The new center lies at or above the old one, in one of the intervals. -/
theorem newXCenter_spec (hx : Center x s) :
    ∃ newX, Node.newXCenter x s = .ok newX ∧ x ≤ newX ∧ ∃ iv ∈ s, ends.Holds iv newX := by
  have hmem : ∀ iv, iv ∈ ((s.sort (· ≤ ·)).mergeSort (fun a b =>
      decide (toLex (a.end_, a.begin) ≤ toLex (b.end_, b.begin)))).reverse ↔ iv ∈ s := by
    intro iv
    rw [List.mem_reverse, List.mem_mergeSort, Finset.mem_sort]
  have hsorted := List.pairwise_reverse.mpr (@List.pairwise_mergeSort _
    (fun a b : Interval α D => decide (toLex (a.end_, a.begin) ≤ toLex (b.end_, b.begin)))
    (fun a b c hab hbc => by
      rw [decide_eq_true_eq] at hab hbc ⊢
      exact hab.trans hbc)
    (fun a b => by
      rw [Bool.or_eq_true, decide_eq_true_eq, decide_eq_true_eq]
      exact le_total _ _)
    (s.sort (· ≤ ·)))
  rw [Node.newXCenter]
  generalize ((s.sort (· ≤ ·)).mergeSort (fun a b =>
      decide (toLex (a.end_, a.begin) ≤ toLex (b.end_, b.begin)))).reverse = ivs at hmem hsorted ⊢
  cases ivs with
  | nil =>
      rcases hx.nonempty with ⟨iv, hiv⟩
      exact absurd ((hmem iv).mpr hiv) List.not_mem_nil
  | cons top rest =>
      have htop : top ∈ s := (hmem top).mp List.mem_cons_self
      have hends : ∀ iv ∈ rest, iv.end_ ≤ top.end_ := by
        intro iv hiv
        have hle := (List.pairwise_cons.mp hsorted).1 iv hiv
        rw [decide_eq_true_eq, Prod.Lex.le_iff] at hle
        rcases hle with hlt | heq
        · exact le_of_lt hlt
        · exact le_of_eq heq.1
      rcases foldl_newX hends (hx.holds top htop).2 with ⟨hle, hlt⟩
      exact ⟨_, rfl, hle, top, htop, (hx.holds top htop).1.trans hle, hlt⟩

/-! ## Popping the greatest child -/

/-- Separated intervals that all hold one point are in the center. -/
theorem sCenter_eq_allChildren {t : Node α D} {p : α} (ht : Sound t) (ho : Ordered t)
    (hsep : Separated t.allChildren) (hp : ∀ iv ∈ t.allChildren, ends.Holds iv p) :
    t.sCenter = t.allChildren := by
  cases t with
  | nil => rfl
  | node x s l r d b =>
      rcases ht.1.nonempty with ⟨c, hc⟩
      have hcall : c ∈ (Node.node x s l r d b).allChildren := sCenter_subset _ hc
      have hheld : ∀ k ∈ (Node.node x s l r d b).allChildren, ends.Holds k x := by
        intro k hk
        have hsame := (hsep k hk c hcall).eq_of_holds (hp k hk) (hp c hcall)
        have hcx := ht.1.holds c hc
        exact ⟨hsame.1 ▸ hcx.1, hsame.2 ▸ hcx.2⟩
      have hl : l.allChildren = ∅ := by
        rw [Finset.eq_empty_iff_forall_notMem]
        intro k hk
        exact (ho.1 k hk).not_holds (hheld k
          (Finset.mem_union_left _ (Finset.mem_union_right _ hk)))
      have hr : r.allChildren = ∅ := by
        rw [Finset.eq_empty_iff_forall_notMem]
        intro k hk
        exact (ho.2.1 k hk).not_holds (hheld k (Finset.mem_union_right _ hk))
      rw [Node.sCenter, Node.allChildren, hl, hr, Finset.union_empty, Finset.union_empty]

/-- The rightmost node gives up the intervals that hold its new center. -/
theorem pop_leaf {m : ℕ} (hfrom : FromSpec α D m) {limit : ℕ}
    (ht : Sound (.node x s l .nil d b)) (hm : entries (.node x s l .nil d b) ≤ m)
    (hlimit : room m + 8 ≤ limit) :
    ∃ y c cl cr cd cb t', Node.popGreatestChild (limit + 1) (.node x s l .nil d b) =
      .ok (.node y c cl cr cd cb, t') ∧ Popped (.node x s l .nil d b) y c t' := by
  rcases ht with ⟨hx, hd, hl, hnil⟩
  rcases newXCenter_spec hx with ⟨newX, hnewX, hle, top, htop, htopX⟩
  have hset : ((s.filter (fun iv => iv.containsPoint newX)).sort (· ≤ ·)).toFinset =
      s.filter (fun iv => iv.containsPoint newX) := Finset.sort_toFinset _ _
  have hcard := Finset.card_filter_le s (fun iv => iv.containsPoint newX)
  rw [entries, entries] at hm
  rcases hfrom limit ((s.filter (fun iv => iv.containsPoint newX)).sort (· ≤ ·))
    (fun iv hiv => by
      rw [Finset.mem_sort, Finset.mem_filter] at hiv
      exact (hx.holds iv hiv.1).lt)
    (by rw [Finset.length_sort]; omega) hlimit with ⟨child, hchild, hbuilt⟩
  have hcontent := hbuilt.content.trans hset
  cases child with
  | nil =>
      have hmem : top ∈ s.filter (fun iv => iv.containsPoint newX) :=
        Finset.mem_filter.mpr ⟨htop, containsPoint_iff.mpr htopX⟩
      rw [← hcontent] at hmem
      exact absurd hmem (Finset.notMem_empty top)
  | node y c cl cr cd cb =>
      have hcsub : c ⊆ s.filter (fun iv => iv.containsPoint newX) := by
        rw [← hcontent]
        exact sCenter_subset (.node y c cl cr cd cb)
      have hcs : c ⊆ s := hcsub.trans (Finset.filter_subset _ _)
      have hcenter : Center newX c :=
        ⟨hbuilt.sound.1.nonempty, fun iv hiv =>
          containsPoint_iff.mp (Finset.mem_filter.mp (hcsub hiv)).2⟩
      have hcardc := Finset.card_sdiff_add_card_eq_card hcs
      have hbeyond : Ordered (.node x s l .nil d b) →
          ∀ iv ∈ l.allChildren, ends.Beyond false newX iv :=
        fun ho iv hiv => le_trans (ho.1 iv hiv) hle
      by_cases hrest : (s \ c).Nonempty
      · refine ⟨newX, c, cl, cr, cd, cb, .node x (s \ c) l .nil d b, ?_, {
          center := hcenter
          sound := ⟨⟨hrest, fun iv hiv => hx.holds iv (Finset.mem_sdiff.mp hiv).1⟩, hd, hl, hnil⟩
          content := ?_
          entries_le := ?_
          ordered := fun hsep ho => ?_ }⟩
        · rw [Node.popGreatestChild, hnewX]
          simp only [bind, Except.bind, hchild]
          exact if_pos hrest
        · rw [Node.allChildren, ← Finset.union_assoc, ← Finset.union_assoc,
            Finset.union_sdiff_of_subset hcs]
          rfl
        · rw [entries, entries, entries]
          omega
        · -- separated intervals all move into the new center
          have hseps : Separated s := hsep.subset (sCenter_subset (.node x s l .nil d b))
          have hall : s.filter (fun iv => iv.containsPoint newX) = s := by
            rw [Finset.filter_eq_self]
            intro iv hiv
            have hsame := (hseps iv hiv top htop).eq_of_holds (hx.holds iv hiv) (hx.holds top htop)
            exact containsPoint_iff.mpr ⟨hsame.1 ▸ htopX.1, hsame.2 ▸ htopX.2⟩
          have hc : c = s := by
            have hchildsep : Separated (Node.node y c cl cr cd cb).allChildren := by
              rw [hcontent, hall]
              exact hseps
            have hlistsep : Separated
                ((s.filter (fun iv => iv.containsPoint newX)).sort (· ≤ ·)).toFinset := by
              rw [hset, hall]
              exact hseps
            have heq := sCenter_eq_allChildren hbuilt.sound (hbuilt.ordered hlistsep) hchildsep
              (fun iv hiv => by
                rw [hcontent] at hiv
                exact containsPoint_iff.mp (Finset.mem_filter.mp hiv).2)
            rw [hcontent, hall] at heq
            exact heq
          rw [hc, Finset.sdiff_self] at hrest
          exact absurd hrest Finset.not_nonempty_empty
      · have hempty : s \ c = ∅ := Finset.not_nonempty_iff_eq_empty.mp hrest
        have hc : c = s := Finset.Subset.antisymm hcs (Finset.sdiff_eq_empty_iff_subset.mp hempty)
        refine ⟨newX, c, cl, cr, cd, cb, l, ?_, {
          center := hcenter
          sound := hl
          content := ?_
          entries_le := ?_
          ordered := fun _ ho => ⟨⟨ho.2.2.1, hbeyond ho⟩, fun hb => ⟨hb.2.1, ?_⟩⟩ }⟩
        · rw [Node.popGreatestChild, hnewX]
          simp only [bind, Except.bind, hchild]
          exact if_neg hrest
        · rw [hc, Node.allChildren, Node.allChildren, Finset.union_empty]
        · rw [hc, entries, entries]
          omega
        · rw [Shrunk, Node.depth, hd.1, Node.depth]
          omega

/-- What lies left of a center that has been popped. -/
theorem Popped.beyond {y : α} {c : Finset (Interval α D)} {r' : Node α D} (h : Popped r y c r')
    (hx : Center x s) (hsep : Separated (Node.node x s l r d b).allChildren)
    (ho : Ordered (.node x s l r d b)) :
    ∀ iv ∈ (Node.node x s l r' d b).allChildren, ends.Beyond false y iv := by
  rcases ho with ⟨hl, hr, hol, hor⟩
  rcases h.center.nonempty with ⟨top, htop⟩
  have hholds : ends.Holds top y := h.center.holds top htop
  have htopr : top ∈ r.allChildren := by
    rw [← h.content]
    exact Finset.mem_union_left _ htop
  have hbeyond : ends.Beyond true x top := hr top htopr
  have hsub : r.allChildren ⊆ (Node.node x s l r d b).allChildren := Finset.subset_union_right
  intro iv hiv
  rw [Node.allChildren, Finset.mem_union, Finset.mem_union] at hiv
  rcases hiv with (hs | hleft) | hright
  · have hall : iv ∈ (Node.node x s l r d b).allChildren := sCenter_subset _ hs
    exact (hsep iv hall top (hsub htopr)).beyond (hx.holds iv hs) hbeyond hholds
  · exact Ends.Beyond.of_further (hl iv hleft) (hbeyond.further hholds)
  · exact (h.ordered (hsep.subset hsub) hor).1.2 iv hright

/-- The node is still in order when its right child has been popped. -/
theorem Popped.remains {y : α} {c : Finset (Interval α D)} {r' : Node α D} (h : Popped r y c r')
    (hsep : Separated (Node.node x s l r d b).allChildren) (ho : Ordered (.node x s l r d b)) :
    Separated (Node.node x s l r' d b).allChildren ∧ Ordered (.node x s l r' d b) := by
  have hsub : r'.allChildren ⊆ r.allChildren := by
    rw [← h.content]
    exact Finset.subset_union_right
  have hsubr : r.allChildren ⊆ (Node.node x s l r d b).allChildren := Finset.subset_union_right
  refine ⟨hsep.subset (Finset.union_subset_union_right hsub), ho.1,
    fun iv hiv => ho.2.1 iv (hsub hiv), ho.2.2.1, ?_⟩
  exact (h.ordered (hsep.subset hsubr) ho.2.2.2).1.1

/-- The popped center with the intervals of the rebuilt top that reach it, and what stays there. -/
structure Moved (t : Node α D) (y : α) (c moved : Finset (Interval α D)) (t' : Node α D) :
    Prop where
  center : Center y (c ∪ moved)
  content : (c ∪ moved) ∪ (t'.setCenter (t'.sCenter \ moved)).allChildren = t.allChildren
  entries_le : (c ∪ moved).card + entries (t'.setCenter (t'.sCenter \ moved)) ≤ entries t
  stay : Separated t.allChildren → Ordered t →
    moved = ∅ ∧ Ordered t' ∧ ∀ iv ∈ t'.allChildren, ends.Beyond false y iv

theorem Popped.moved {y : α} {c : Finset (Interval α D)} {r' t' : Node α D}
    (h : Popped r y c r') (hx : Center x s) (ht' : Rebuilt (.node x s l r' d b) t') :
    Moved (.node x s l r d b) y c (t'.sCenter.filter (fun iv => iv.containsPoint y)) t' := by
  generalize hmoved : t'.sCenter.filter (fun iv => iv.containsPoint y) = moved
  have hsub : moved ⊆ t'.sCenter := hmoved ▸ Finset.filter_subset _ _
  have hcontent : c ∪ t'.allChildren = (Node.node x s l r d b).allChildren := by
    rw [ht'.content, Node.allChildren, Node.allChildren, ← h.content]
    ext iv
    simp only [Finset.mem_union]
    tauto
  refine {
    center := ?_
    content := ?_
    entries_le := ?_
    stay := fun hsep ho => ?_ }
  · refine ⟨h.center.nonempty.mono Finset.subset_union_left, fun iv hiv => ?_⟩
    rcases Finset.mem_union.mp hiv with hc | hm
    · exact h.center.holds iv hc
    · rw [← hmoved, Finset.mem_filter] at hm
      exact containsPoint_iff.mp hm.2
  · rw [← hcontent]
    cases t' with
    | nil => rw [Finset.subset_empty.mp hsub, Finset.union_empty]; rfl
    | node x' s' l' r'' d' b' =>
        rw [Node.setCenter, Node.sCenter, Node.allChildren, Node.allChildren]
        ext iv
        have hin : iv ∈ moved → iv ∈ s' := fun h => hsub h
        simp only [Finset.mem_union, Finset.mem_sdiff]
        tauto
  · have hle := h.entries_le
    have hle' := ht'.entries_le
    have hcard := Finset.card_union_le c moved
    rw [entries] at hle' ⊢
    cases t' with
    | nil =>
        rw [Finset.subset_empty.mp hsub, Finset.union_empty]
        rw [Node.setCenter, entries]
        omega
    | node x' s' l' r'' d' b' =>
        have hdiff := Finset.card_sdiff_add_card_eq_card hsub
        rw [Node.sCenter] at hdiff
        rw [entries] at hle'
        rw [Node.sCenter, Node.setCenter, entries]
        omega
  · have hbeyond := h.beyond hx hsep ho
    rw [← ht'.content] at hbeyond
    rcases h.remains hsep ho with ⟨hsep', ho'⟩
    refine ⟨?_, ht'.ordered hsep' ho', hbeyond⟩
    rw [← hmoved, Finset.filter_eq_empty_iff]
    intro iv hiv hhit
    exact (hbeyond iv (sCenter_subset t' hiv)).not_holds (containsPoint_iff.mp hhit)

/-- What the greatest child of the right child leaves is rotated, and pruned if nothing stays. -/
theorem popGreatestChild_node {limit : ℕ} (hr : r ≠ .nil) {y : α} {c : Finset (Interval α D)}
    {cl cr r' newSelf : Node α D} {cd : ℕ} {cb : ℤ}
    (hr' : Node.popGreatestChild limit r = .ok (.node y c cl cr cd cb, r'))
    (hnewSelf : Node.rotate limit (Node.node x s l r' d b).refreshBalance = .ok newSelf) :
    Node.popGreatestChild (limit + 1) (.node x s l r d b) = (do
      let moved := newSelf.sCenter.filter (fun iv => iv.containsPoint y)
      let newSelf := newSelf.setCenter (newSelf.sCenter \ moved)
      let greatestChild := Node.node y (c ∪ moved) cl cr cd cb
      if newSelf.sCenter.Nonempty then return (greatestChild, newSelf)
      else
        let newSelf ← Node.prune limit newSelf
        return (greatestChild, newSelf)) := by
  cases r with
  | nil => exact absurd rfl hr
  | node =>
      rw [Node.popGreatestChild, hr']
      · simp only [bind, Except.bind, hnewSelf]
        rfl
      · exact fun heq => nomatch heq

theorem pop_node {m : ℕ} (hpop : ∀ k < m, PopSpec α D k) (hrotate : RotateSpec α D m)
    (hprune : PruneSpec α D m) {limit : ℕ} (ht : Sound (.node x s l r d b)) (hr : r ≠ .nil)
    (hm : entries (.node x s l r d b) ≤ m) (hlimit : room m + 8 ≤ limit) :
    ∃ y c cl cr cd cb t', Node.popGreatestChild (limit + 1) (.node x s l r d b) =
      .ok (.node y c cl cr cd cb, t') ∧ Popped (.node x s l r d b) y c t' := by
  rcases ht with ⟨hx, hd, hl, hsr⟩
  have hcards : 0 < s.card := Finset.card_pos.mpr hx.nonempty
  have hmsum : s.card + entries l + entries r ≤ m := hm
  have hroom : room (m - 1) + 12 = room m := by
    simp only [room]
    omega
  rcases hpop (m - 1) (by omega) limit r hsr hr (by omega) (by omega) with
    ⟨y, c, cl, cr, cd, cb, r', hr', hpopped⟩
  have hler := hpopped.entries_le
  have hloose : Loose (.node x s l r' d b) := ⟨hx, hl, hpopped.sound⟩
  have hfresh := Rebuilt.refresh hloose
  have hsum : entries (.node x s l r' d b) = s.card + entries l + entries r' := rfl
  rcases hrotate limit _ (hfresh.sound.loose (hfresh.ne_nil hloose))
    (hfresh.entries_le.trans (by omega)) (by omega) with ⟨newSelf, hnewSelf, hrotated⟩
  have hrebuilt := hfresh.trans hrotated
  have hmoved := hpopped.moved hx hrebuilt
  have hbalanced : Separated (Node.node x s l r d b).allChildren →
      Ordered (.node x s l r d b) → Balanced (.node x s l r d b) →
        Balanced newSelf ∧ Shrunk d newSelf.depth := by
    intro hsep ho hb
    have hsubr : r.allChildren ⊆ (Node.node x s l r d b).allChildren := Finset.subset_union_right
    rcases (hpopped.ordered (hsep.subset hsubr) ho.2.2.2).2 hb.2.2 with ⟨hb', hshrunk⟩
    rcases hpopped.remains hsep ho with ⟨hsep', ho'⟩
    rcases hb with ⟨hfit, hbl, -⟩
    have hwide := hshrunk
    rw [Shrunk] at hwide
    rcases rotate_balanced (d := 1 + max l.depth r'.depth) (b := (r'.depth : ℤ) - l.depth)
      ⟨hx, hl, hpopped.sound⟩ hbl hb' ⟨by omega, by omega⟩ hsep' ho' (show 4 ≤ limit by omega) with
      ⟨t', ht', hbt', hlevel⟩
    have hsame : t' = newSelf := Except.ok.inj (ht'.symm.trans hnewSelf)
    subst hsame
    refine ⟨hbt', ?_⟩
    rw [hd.1, max_comm]
    exact hlevel.symm.shrunk ⟨hfit.2, hfit.1⟩ hshrunk
  rw [popGreatestChild_node hr hr' hnewSelf]
  generalize newSelf.sCenter.filter (fun iv => iv.containsPoint y) = moved at hmoved
  cases newSelf with
  | nil => exact absurd rfl (hrebuilt.ne_nil hloose)
  | node x' c' l' r'' d' b' =>
      have hsound := hrebuilt.sound
      by_cases hrest : ( c' \ moved).Nonempty
      · refine ⟨y, c ∪ moved, cl, cr, cd, cb, .node x' ( c' \ moved) l' r'' d' b', if_pos hrest, {
          center := hmoved.center
          sound := ⟨⟨hrest, fun iv hiv => hsound.1.holds iv (Finset.mem_sdiff.mp hiv).1⟩, hsound.2⟩
          content := hmoved.content
          entries_le := hmoved.entries_le
          ordered := fun hsep ho => ?_ }⟩
        rcases hmoved.stay hsep ho with ⟨rfl, ho', hbeyond⟩
        rw [Finset.sdiff_empty]
        exact ⟨⟨ho', hbeyond⟩, hbalanced hsep ho⟩
      · have hempty : c' \ moved = ∅ := Finset.not_nonempty_iff_eq_empty.mp hrest
        have hrebuiltle := hrebuilt.entries_le
        rw [entries] at hrebuiltle
        rcases hprune limit x' l' r'' d' b' hsound.2.2.1 hsound.2.2.2 (by omega) hlimit with
          ⟨t', ht', hpruned⟩
        have hmovedcontent := hmoved.content
        have hmovedle := hmoved.entries_le
        rw [Node.sCenter, hempty, Node.setCenter, Node.allChildren, Finset.empty_union]
          at hmovedcontent
        rw [Node.sCenter, hempty, Node.setCenter, entries, Finset.card_empty, Nat.zero_add]
          at hmovedle
        refine ⟨y, c ∪ moved, cl, cr, cd, cb, t', ?_, {
          center := hmoved.center
          sound := hpruned.sound
          content := hpruned.content ▸ hmovedcontent
          entries_le := (Nat.add_le_add_left hpruned.entries_le _).trans hmovedle
          ordered := fun hsep ho => ?_ }⟩
        · simp only [Node.sCenter, Node.setCenter, hempty]
          rw [if_neg Finset.not_nonempty_empty, ht']
          rfl
        · rcases hmoved.stay hsep ho with ⟨rfl, -, -⟩
          rw [Finset.sdiff_empty] at hrest
          exact absurd hsound.1.nonempty hrest

theorem pop_spec {m : ℕ} (hpop : ∀ k < m, PopSpec α D k) (hfrom : FromSpec α D m)
    (hrotate : RotateSpec α D m) (hprune : PruneSpec α D m) : PopSpec α D m := by
  intro limit t ht hne hm hlimit
  obtain ⟨limit, rfl⟩ : ∃ k, limit = k + 1 := ⟨limit - 1, by omega⟩
  cases t with
  | nil => exact absurd rfl hne
  | node x s l r d b =>
      by_cases hr : r = .nil
      · subst hr
        exact pop_leaf hfrom ht hm (by omega)
      · exact pop_node hpop hrotate hprune ht hr hm (by omega)

/-! ## Pruning -/

/-- The greatest child on the left is in order over what remains there and the right child. -/
theorem Popped.heir {y : α} {c : Finset (Interval α D)} {l' : Node α D} (h : Popped l y c l')
    (hsep : Separated (l.allChildren ∪ r.allChildren)) (ho : Ordered (.node x ∅ l r 0 0)) :
    Separated (Node.node y c l' r d b).allChildren ∧ Ordered (.node y c l' r d b) := by
  have hcontent : (Node.node y c l' r d b).allChildren = l.allChildren ∪ r.allChildren := by
    rw [Node.allChildren, h.content]
  rcases h.center.nonempty with ⟨top, htop⟩
  have htopl : top ∈ l.allChildren := by
    rw [← h.content]
    exact Finset.mem_union_left _ htop
  have hbeyond : ends.Beyond false x top := ho.1 top htopl
  rcases (h.ordered (hsep.subset Finset.subset_union_left) ho.2.2.1).1 with ⟨hol, hleft⟩
  refine ⟨hcontent ▸ hsep, hleft, fun iv hiv => ?_, hol, ho.2.2.2⟩
  exact Ends.Beyond.of_further (ho.2.1 iv hiv)
    (hbeyond.further (h.center.holds top htop))

/-- The greatest child on the left takes the place of the node. -/
theorem Popped.pruned {y : α} {c : Finset (Interval α D)} {l' t' : Node α D} {limit : ℕ}
    (h : Popped l y c l') (hr : Sound r) (hrebuilt : Rebuilt (.node y c l' r d b) t')
    (hlimit : 4 ≤ limit) (ht' : Node.rotate limit (.node y c l' r d b) = .ok t') :
    Pruned x l r t' := by
  have hcontent : (Node.node y c l' r d b).allChildren = l.allChildren ∪ r.allChildren := by
    rw [Node.allChildren, h.content]
  refine {
    sound := hrebuilt.sound
    content := hrebuilt.content.trans hcontent
    entries_le := ?_
    ordered := fun hsep ho => ?_ }
  · have hle := hrebuilt.entries_le
    have hle' := h.entries_le
    rw [entries] at hle
    omega
  · have hshrunk := (h.ordered (hsep.subset Finset.subset_union_left) ho.2.2.1).2
    rcases h.heir (d := d) (b := b) hsep ho with ⟨hsep', ho'⟩
    refine ⟨hrebuilt.ordered hsep' ho', fun hb => ?_⟩
    rcases hb with ⟨hfit, hbl, hbr⟩
    rcases hshrunk hbl with ⟨hbl', hshrunk⟩
    have hwide := hshrunk
    rw [Shrunk] at hwide
    rcases rotate_balanced ⟨h.center, h.sound, hr⟩ hbl' hbr ⟨by omega, by omega⟩ hsep' ho' hlimit
      with ⟨t'', ht'', hbt'', hlevel⟩
    have hsame : t'' = t' := Except.ok.inj (ht''.symm.trans ht')
    subst hsame
    exact ⟨hbt'', hlevel.shrunk hfit hshrunk⟩

theorem prune_spec {m : ℕ} (hpop : ∀ k < m, PopSpec α D k) (hrotate : RotateSpec α D m) :
    PruneSpec α D m := by
  intro limit x l r d b hl hr hm hlimit
  obtain ⟨limit, rfl⟩ : ∃ k, limit = k + 1 := ⟨limit - 1, by omega⟩
  rw [Node.prune]
  cases hlnil : l.isNone with
  | true =>
      rw [isNone_eq_true_iff] at hlnil
      subst hlnil
      rw [if_pos rfl]
      refine ⟨r, rfl, {
        sound := hr
        content := (Finset.empty_union _).symm
        entries_le := by omega
        ordered := fun _ ho => ⟨ho.2.2.2, fun hb => ⟨hb.2.2, ?_⟩⟩ }⟩
      rw [Shrunk, Node.depth]
      omega
  | false =>
      have hlne : l ≠ .nil := fun h => by simp [h, Node.isNone] at hlnil
      rw [if_neg Bool.false_ne_true]
      cases hrnil : r.isNone with
      | true =>
          rw [isNone_eq_true_iff] at hrnil
          subst hrnil
          rw [if_pos rfl]
          refine ⟨l, rfl, {
            sound := hl
            content := (Finset.union_empty _).symm
            entries_le := by omega
            ordered := fun _ ho => ⟨ho.2.2.1, fun hb => ⟨hb.2.1, ?_⟩⟩ }⟩
          rw [Shrunk, Node.depth]
          omega
      | false =>
          have hrne : r ≠ .nil := fun h => by simp [h, Node.isNone] at hrnil
          rw [if_neg Bool.false_ne_true]
          have hlpos := hl.entries_pos hlne
          have hrpos := hr.entries_pos hrne
          have hroom : room (m - 1) + 12 = room m := by
            simp only [room]
            omega
          rcases hpop (m - 1) (by omega) limit l hl hlne (by omega) (by omega) with
            ⟨y, c, cl, cr, cd, cb, l', hl', hpopped⟩
          have hle := hpopped.entries_le
          have hloose : Loose (Node.node y c l' r (1 + max l'.depth r.depth)
              ((r.depth : ℤ) - l'.depth)) := ⟨hpopped.center, hpopped.sound, hr⟩
          rcases hrotate limit _ hloose (by rw [entries]; omega) (by omega) with
            ⟨t', ht', hrebuilt⟩
          refine ⟨t', ?_, hpopped.pruned hr hrebuilt (show 4 ≤ limit by omega) ht'⟩
          simp only [bind, Except.bind, hl']
          exact ht'

/-! ## All of them -/

/-- What the mutually recursive functions do with trees of that many entries. -/
structure Specs (α D : Type) [LinearOrder α] [LinearOrder D] (m : ℕ) : Prop where
  rotate : RotateSpec α D m
  prune : PruneSpec α D m
  pop : PopSpec α D m
  from_ : FromSpec α D m

theorem specs (m : ℕ) : Specs α D m := by
  induction m using Nat.strong_induction_on with
  | _ m ih =>
      have hrotate : RotateSpec α D m :=
        rotate_spec (srotate_spec (fun k hk => (ih k hk).rotate) (fun k hk => (ih k hk).prune))
      have hfrom : FromSpec α D m := from_spec hrotate (fun k hk => (ih k hk).from_)
      have hprune : PruneSpec α D m := prune_spec (fun k hk => (ih k hk).pop) hrotate
      exact {
        rotate := hrotate
        prune := hprune
        pop := pop_spec (fun k hk => (ih k hk).pop) hfrom hrotate hprune
        from_ := hfrom }

end CProfiler.Intervals
