import CProfiler.Verification.Intervals.Rebalancing

/-! # Rotations

A rotation moves the intervals that reach over the new top up to it. Separated intervals never
reach that far: what held the old center lies on the near side of the new one. -/

namespace CProfiler.Intervals

open Foundation Model Model.Intervals

variable {α D : Type} [LinearOrder α] [LinearOrder D]

/-! ## What a rotation needs -/

omit [LinearOrder D] in
theorem Sound.loose {t : Node α D} (h : Sound t) (hne : t ≠ .nil) : Loose t := by
  cases t with
  | nil => exact absurd rfl hne
  | node x s l r d b => exact ⟨h.1, h.2.2.1, h.2.2.2⟩

omit [LinearOrder D] in
/-- The sides of a sound node. -/
theorem Sound.exists_sided {t : Node α D} (h : Sound t) (hne : t ≠ .nil) (side : Bool) :
    ∃ x s, t = sided side x s (t.getitem side) (t.getitem (!side)) t.depth t.balance ∧
      Center x s ∧ (t.depth = 1 + max (t.getitem side).depth (t.getitem (!side)).depth ∧
        t.balance = tilt side (((t.getitem side).depth : ℤ) - (t.getitem (!side)).depth)) ∧
      Sound (t.getitem side) ∧ Sound (t.getitem (!side)) := by
  cases t with
  | nil => exact absurd rfl hne
  | node x s l r d b =>
      have heq := node_eq_sided side x s l r d b
      have hside := h
      rw [heq, sound_sided] at hside
      exact ⟨x, s, heq, hside⟩

/-- Replacing a child of a sound node by a rebuilt one. -/
theorem Rebuilt.setitem {t c : Node α D} {side : Bool} (ht : Sound t) (hne : t ≠ .nil)
    (h : Rebuilt (t.getitem side) c) : Rebuilt t (t.setitem side c).refreshBalance := by
  rcases ht.exists_sided hne side with ⟨x, s, htx, hx, -, -, hother⟩
  generalize t.getitem side = outer at htx h
  generalize t.getitem (!side) = inner at htx hother
  rw [htx, setitem_sided]
  exact h.child hx hother

omit [LinearOrder D] in
/-- `srotate` finds a child on the side that it takes for the heavy one. -/
theorem Sound.heavy_ne_nil {t : Node α D} (h : Sound t) (hchild : ∃ i, t.getitem i ≠ .nil) :
    t.getitem t.rightHeavy ≠ .nil := by
  cases t with
  | nil =>
      rcases hchild with ⟨i, hi⟩
      exact absurd rfl hi
  | node x s l r d b =>
      rcases h with ⟨_, ⟨_, hb⟩, hl, hr⟩
      intro hnil
      by_cases hpos : b > 0
      · have hr0 : r = .nil := by
          simpa [Node.rightHeavy, Node.balance, hpos, Node.getitem] using hnil
        have hdepth : r.depth = 0 := hr0 ▸ rfl
        omega
      · have hl0 : l = .nil := by
          simpa [Node.rightHeavy, Node.balance, hpos, Node.getitem] using hnil
        have hdepth : l.depth = 0 := hl0 ▸ rfl
        rcases hchild with ⟨i, hi⟩
        cases i with
        | true =>
            have hpositive := hr.depth_pos hi
            omega
        | false => exact hi hl0

variable {side : Bool} {x y : α} {s s' : Finset (Interval α D)} {far near other : Node α D}
  {d d' : ℕ} {b b' : ℤ}

/-- The intervals below the new top lie on its near side. -/
theorem near_of_rotation (hx : Center x s) (hy : Center y s')
    (hsep : Separated (sided side x s (sided side y s' far near d' b') other d b).allChildren)
    (ho : Ordered (sided side x s (sided side y s' far near d' b') other d b)) :
    ∀ iv ∈ (sided side x s near other d b).allChildren, ends.Beyond (!side) y iv := by
  rw [allChildren_sided, allChildren_sided] at hsep
  rw [ordered_sided, ordered_sided] at ho
  rw [allChildren_sided] at ho
  rcases ho with ⟨houter, hother, ⟨_, hnear, _, _⟩, _⟩
  rcases hy.nonempty with ⟨top, htop⟩
  have hbeyond : ends.Beyond side x top := houter top (Finset.mem_union_left _ htop)
  have hholds : ends.Holds top y := hy.holds top htop
  intro iv hiv
  rw [allChildren_sided, Finset.mem_union, Finset.mem_union] at hiv
  rcases hiv with hs | hn | hoth
  · have hapart : ends.Apart iv top := by
      refine hsep iv (Finset.mem_union_left _ hs) top (Finset.mem_union_right _ ?_)
      exact Finset.mem_union_left _ (Finset.mem_union_left _ htop)
    exact hapart.beyond (hx.holds iv hs) hbeyond hholds
  · exact hnear iv hn
  · exact (hother iv hoth).of_further (hbeyond.further hholds)

/-- What goes below the new top is in order. -/
theorem below_of_rotation
    (hsep : Separated (sided side x s (sided side y s' far near d' b') other d b).allChildren)
    (ho : Ordered (sided side x s (sided side y s' far near d' b') other d b)) :
    Separated (sided side x s near other d b).allChildren ∧
      Ordered (sided side x s near other d b) := by
  refine ⟨hsep.subset fun iv hiv => ?_, ?_⟩
  · rw [allChildren_sided] at hiv
    rw [allChildren_sided, allChildren_sided]
    simp only [Finset.mem_union] at hiv ⊢
    tauto
  · rw [ordered_sided, ordered_sided] at ho
    rcases ho with ⟨houter, hotherb, ⟨_, _, _, honear⟩, hoother⟩
    refine ordered_sided.mpr ⟨fun iv hiv => houter iv ?_, hotherb, honear, hoother⟩
    rw [allChildren_sided]
    exact Finset.mem_union_right _ (Finset.mem_union_right _ hiv)

/-! ## A single rotation -/

/-- A single rotation, seen from the side that comes up. -/
theorem srotate_sided (hside : decide (b > 0) = side) (limit : ℕ) :
    Node.srotate (limit + 1) (sided side x s (sided side y s' far near d' b') other d b) = (do
      let lower ← Node.rotate limit (sided side x s near other d b)
      let promotees := lower.sCenter.filter (fun iv => iv.containsPoint y)
      let lower ← (promotees.sort (· ≤ ·)).foldlM (fun lower iv => Node.remove limit lower iv) lower
      return (sided side y (s' ∪ promotees) far lower d' b').refreshBalance) := by
  have hheavy : (sided side x s (sided side y s' far near d' b') other d b).rightHeavy = side :=
    rightHeavy_sided.trans hside
  cases side with
  | true =>
      rw [sided, sided] at hheavy ⊢
      rw [Node.srotate]
      simp only [hheavy]
      rfl
  | false =>
      rw [sided, sided] at hheavy ⊢
      rw [Node.srotate]
      simp only [hheavy]
      rfl

/-- The old top goes below the new one, with what was between the two. -/
theorem srotate_sided_spec {m limit : ℕ} (hrotate : RotateSpec α D m) (hprune : PruneSpec α D m)
    (hx : Center x s) (hsave : Sound (sided side y s' far near d' b')) (hother : Sound other)
    (hm : entries (sided side x s near other d b) ≤ m) (hlimit : room m + 10 ≤ limit)
    (hside : decide (b > 0) = side) :
    ∃ t', Node.srotate (limit + 1)
        (sided side x s (sided side y s' far near d' b') other d b) = .ok t' ∧
      Rebuilt (sided side x s (sided side y s' far near d' b') other d b) t' := by
  rcases sound_sided.mp hsave with ⟨hy, -, hfar, hnear⟩
  rcases hrotate limit (sided side x s near other d b) (loose_sided.mpr ⟨hx, hnear, hother⟩) hm
    (by omega) with ⟨lower, hlower, hrebuilt⟩
  rcases foldlM_remove hprune hrebuilt.sound (hrebuilt.entries_le.trans hm) hlimit
    (Finset.filter_subset (fun iv => iv.containsPoint y) lower.sCenter)
    with ⟨lower', hlower', hlowered⟩
  rw [srotate_sided hside, hlower]
  simp only [bind, Except.bind, hlower']
  refine ⟨_, rfl, ?_⟩
  generalize hpromotees : lower.sCenter.filter (fun iv => iv.containsPoint y) = promotees
    at hlowered
  have hcenter : Center y (s' ∪ promotees) := by
    refine ⟨hy.nonempty.mono Finset.subset_union_left, fun iv hiv => ?_⟩
    rcases Finset.mem_union.mp hiv with h | h
    · exact hy.holds iv h
    · rw [← hpromotees, Finset.mem_filter] at h
      exact containsPoint_iff.mp h.2
  have hcontent : promotees ∪ lower'.allChildren =
      s ∪ (near.allChildren ∪ other.allChildren) := by
    rw [hlowered.content, hrebuilt.content, allChildren_sided]
  rw [refreshBalance_sided]
  refine {
    sound := sound_sided.mpr ⟨hcenter, ⟨rfl, rfl⟩, hfar, hlowered.sound⟩
    content := ?_
    entries_le := ?_
    ordered := fun hsep ho => ?_ }
  · rw [allChildren_sided, allChildren_sided, allChildren_sided]
    ext iv
    have hmem := Finset.ext_iff.mp hcontent iv
    simp only [Finset.mem_union] at hmem ⊢
    tauto
  · have hcard := Finset.card_union_le s' promotees
    have hle := hlowered.entries_le
    have hle' := hrebuilt.entries_le
    rw [entries_sided] at hle' ⊢
    rw [entries_sided, entries_sided]
    omega
  · have hbelow : ∀ iv ∈ lower.allChildren, ends.Beyond (!side) y iv := by
      intro iv hiv
      exact near_of_rotation hx hy hsep ho iv (hrebuilt.content ▸ hiv)
    -- so nothing moves up
    have hempty : promotees = ∅ := by
      rw [← hpromotees, Finset.filter_eq_empty_iff]
      intro iv hiv hhit
      exact (hbelow iv (sCenter_subset lower hiv)).not_holds (containsPoint_iff.mp hhit)
    have hsame := hlowered.same hempty
    subst hsame
    rcases below_of_rotation hsep ho with ⟨hlowsep, hlowo⟩
    rw [ordered_sided, ordered_sided] at ho
    exact ordered_sided.mpr
      ⟨ho.2.2.1.1, hbelow, ho.2.2.1.2.2.1, hrebuilt.ordered hlowsep hlowo⟩

theorem srotate_spec {m : ℕ} (hrotate : ∀ k < m, RotateSpec α D k)
    (hprune : ∀ k < m, PruneSpec α D k) : SrotateSpec α D m := by
  intro limit t ht hchild hm hlimit
  have hheavy := ht.heavy_ne_nil hchild
  have hne : t ≠ .nil := by
    rintro rfl
    exact hheavy rfl
  have hpos := ht.entries_pos hne
  obtain ⟨limit, rfl⟩ : ∃ k, limit = k + 1 := ⟨limit - 1, by omega⟩
  rcases ht.exists_sided hne t.rightHeavy with ⟨x, s, htx, hx, -, hsave, hother⟩
  rcases hsave.exists_sided hheavy t.rightHeavy with ⟨y, s', hsavey, hy, -, -, -⟩
  have hside : decide (t.balance > 0) = t.rightHeavy := rfl
  generalize t.rightHeavy = side at htx hside hsave hother hsavey
  rw [hsavey] at htx hsave
  have hcard : 0 < s'.card := Finset.card_pos.mpr hy.nonempty
  have hroom : room (m - 1) + 12 = room m := by
    simp only [room]
    omega
  rw [htx]
  refine srotate_sided_spec (hrotate (m - 1) (by omega)) (hprune (m - 1) (by omega)) hx hsave
    hother ?_ (by omega) hside
  rw [htx, entries_sided, entries_sided] at hm
  rw [entries_sided]
  omega

/-! ## Double rotations -/

variable (α D) in
/-- The child that is rotated first leans to one side. -/
def DrotateSpec (m : ℕ) : Prop :=
  ∀ (limit : ℕ) (t : Node α D), Sound t → (t.getitem t.rightHeavy).balance ≠ 0 → entries t ≤ m →
    room m + 4 ≤ limit → ∃ t', Node.drotate limit t = .ok t' ∧ Rebuilt t t'

omit [LinearOrder D] in
/-- A node that leans to a side has a child there. -/
theorem Sound.exists_child {t : Node α D} (h : Sound t) (hb : t.balance ≠ 0) :
    ∃ i, t.getitem i ≠ .nil := by
  cases t with
  | nil => exact absurd rfl hb
  | node x s l r d b =>
      rcases h with ⟨_, ⟨_, rfl⟩, _, _⟩
      by_contra hno
      have hl : l = .nil := by
        by_contra hne
        exact hno ⟨false, hne⟩
      have hr : r = .nil := by
        by_contra hne
        exact hno ⟨true, hne⟩
      rw [hl, hr] at hb
      exact hb rfl

theorem drotate_spec {m : ℕ} (hsrotate : SrotateSpec α D m) : DrotateSpec α D m := by
  intro limit t ht hlean hm hlimit
  obtain ⟨limit, rfl⟩ : ∃ k, limit = k + 1 := ⟨limit - 1, by omega⟩
  have hne : t ≠ .nil := by
    rintro rfl
    exact hlean rfl
  have hsavene : t.getitem t.rightHeavy ≠ .nil := by
    intro hnil
    rw [hnil] at hlean
    exact hlean rfl
  rcases ht.exists_sided hne t.rightHeavy with ⟨x, s, htx, hx, -, hsave, -⟩
  have hle : entries (t.getitem t.rightHeavy) ≤ m := by
    have hsum := hm
    rw [htx, entries_sided] at hsum
    omega
  rcases hsrotate limit _ hsave (hsave.exists_child hlean) hle (by omega) with
    ⟨child, hchild, hrebuilt⟩
  have hself := hrebuilt.setitem ht hne
  have hchildne : (t.setitem t.rightHeavy child).refreshBalance.getitem t.rightHeavy ≠ .nil := by
    generalize t.rightHeavy = side at htx hsave hsavene hrebuilt
    rw [htx, setitem_sided, refreshBalance_sided, getitem_sided]
    exact hrebuilt.ne_nil (hsave.loose hsavene)
  rcases hsrotate limit _ hself.sound ⟨_, hchildne⟩ (hself.entries_le.trans hm) (by omega) with
    ⟨t', ht', hrebuilt'⟩
  refine ⟨t', ?_, hself.trans hrebuilt'⟩
  rw [Node.drotate]
  simp only [bind, Except.bind, hchild]
  exact ht'

/-! ## Rotating where it is needed -/

/-- A node within the balance is only refreshed. -/
theorem rotate_of_lt {l r : Node α D} (hb : ((r.depth : ℤ) - l.depth).natAbs < 2) (limit : ℕ) :
    Node.rotate (limit + 1) (.node x s l r d b) =
      .ok (Node.node x s l r d b).refreshBalance := by
  rw [Node.rotate]
  exact if_pos hb

/-- A node out of balance rotates once or twice, as its heavy child leans. -/
theorem rotate_of_ge {l r : Node α D} (hb : ¬ ((r.depth : ℤ) - l.depth).natAbs < 2)
    {t : Node α D} (ht : (Node.node x s l r d b).refreshBalance = t)
    (hchild : t.getitem t.rightHeavy ≠ .nil) (limit : ℕ) :
    Node.rotate (limit + 1) (.node x s l r d b) =
      if t.rightHeavy = (t.getitem t.rightHeavy).rightHeavy ∨
          (t.getitem t.rightHeavy).balance = 0 then Node.srotate limit t
      else Node.drotate limit t := by
  rw [Node.rotate]
  simp only [ht]
  have hbalance : ¬ t.balance.natAbs < 2 := by
    rw [← ht]
    exact hb
  rw [if_neg hbalance]

theorem rotate_spec {m : ℕ} (hsrotate : SrotateSpec α D m) : RotateSpec α D m := by
  intro limit t hloose hm hlimit
  obtain ⟨limit, rfl⟩ : ∃ k, limit = k + 1 := ⟨limit - 1, by omega⟩
  cases t with
  | nil => exact hloose.elim
  | node x s l r d b =>
      by_cases hb : ((r.depth : ℤ) - l.depth).natAbs < 2
      · exact ⟨_, rotate_of_lt hb limit, Rebuilt.refresh hloose⟩
      · have hrefresh := Rebuilt.refresh hloose
        generalize ht : (Node.node x s l r d b).refreshBalance = t at hrefresh
        have hlean : t.balance ≠ 0 := by
          rw [← ht]
          change (r.depth : ℤ) - l.depth ≠ 0
          omega
        have hchild := hrefresh.sound.exists_child hlean
        have hle : entries t ≤ m := hrefresh.entries_le.trans hm
        rw [rotate_of_ge hb ht (hrefresh.sound.heavy_ne_nil hchild)]
        split_ifs with hsame
        · rcases hsrotate limit t hrefresh.sound hchild hle (by omega) with ⟨t', ht', hrebuilt⟩
          exact ⟨t', ht', hrefresh.trans hrebuilt⟩
        · rw [not_or] at hsame
          rcases drotate_spec hsrotate limit t hrefresh.sound hsame.2 hle (by omega) with
            ⟨t', ht', hrebuilt⟩
          exact ⟨t', ht', hrefresh.trans hrebuilt⟩

/-! ## Balance

Of children whose depths differ by two at most, when nothing moves up. -/

omit [LinearOrder D] in
theorem decide_tilt_pos {z : ℤ} (h : 0 < z) : decide (tilt side z > 0) = side := by
  cases side with
  | true => exact decide_eq_true h
  | false => exact decide_eq_false (by rw [tilt]; omega)

omit [LinearOrder D] in
theorem decide_tilt_neg {z : ℤ} (h : z < 0) : decide (tilt side z > 0) = !side := by
  cases side with
  | true => exact decide_eq_false (by rw [tilt]; omega)
  | false => exact decide_eq_true (by rw [tilt]; omega)

/-- Children within the balance are not rotated. -/
theorem rotate_sided {outer inner : Node α D}
    (hb : outer.depth ≤ inner.depth + 1 ∧ inner.depth ≤ outer.depth + 1) (limit : ℕ) :
    Node.rotate (limit + 1) (sided side x s outer inner d b) =
      .ok (sided side x s outer inner d b).refreshBalance := by
  cases side with
  | true => exact rotate_of_lt (by omega) limit
  | false => exact rotate_of_lt (by omega) limit

/-- A single rotation over which no interval reaches, of children that fit. -/
theorem srotate_stay (hside : decide (b > 0) = side)
    (hb : near.depth ≤ other.depth + 1 ∧ other.depth ≤ near.depth + 1)
    (hstay : ∀ iv ∈ s, ¬ ends.Holds iv y) (limit : ℕ) :
    Node.srotate (limit + 2) (sided side x s (sided side y s' far near d' b') other d b) =
      .ok (sided side y s' far (sided side x s near other d b).refreshBalance d' b').refreshBalance
    := by
  rw [srotate_sided hside, rotate_sided hb, refreshBalance_sided (x := x)]
  have hempty : s.filter (fun iv => iv.containsPoint y) = ∅ := by
    rw [Finset.filter_eq_empty_iff]
    intro iv hiv hhit
    exact hstay iv hiv (containsPoint_iff.mp hhit)
  simp only [bind, Except.bind, sCenter_sided, hempty, Finset.sort_empty, List.foldlM_nil,
    Finset.union_empty]
  rfl

omit [LinearOrder D] in
/-- What holds one center does not hold another one beyond it. -/
theorem Center.stay (hx : Center x s) (hy : Center y s')
    (hapart : ∀ i ∈ s, ∀ j ∈ s', ends.Apart i j) (hbeyond : ∀ iv ∈ s', ends.Beyond side x iv) :
    ∀ iv ∈ s, ¬ ends.Holds iv y := by
  intro iv hiv
  rcases hy.nonempty with ⟨top, htop⟩
  exact ((hapart iv hiv top htop).beyond (hx.holds iv hiv) (hbeyond top htop)
    (hy.holds top htop)).not_holds

/-- The depth after a rotation. -/
def Leveled (outer inner d : ℕ) : Prop :=
  max outer inner ≤ d ∧ d ≤ max outer inner + 1 ∧
    (outer ≤ inner + 1 → inner ≤ outer + 1 → d = max outer inner + 1)

omit [LinearOrder α] [LinearOrder D] in
theorem refreshBalance_heavy {outer inner : Node α D} (h : outer.depth = inner.depth + 2) :
    (sided side x s outer inner d b).refreshBalance =
      sided side x s outer inner (1 + outer.depth) (tilt side 2) := by
  have hmax : max outer.depth inner.depth = outer.depth := by omega
  have hdiff : (outer.depth : ℤ) - inner.depth = 2 := by omega
  rw [refreshBalance_sided, hmax, hdiff]

/-- A child that is deeper by two is rotated up, after one of its own if that is the deeper one. -/
theorem rotate_sided_heavy {outer inner : Node α D} (h : outer.depth = inner.depth + 2)
    (limit : ℕ) : Node.rotate (limit + 1) (sided side x s outer inner d b) =
      if side = outer.rightHeavy ∨ outer.balance = 0 then
        Node.srotate limit (sided side x s outer inner (1 + outer.depth) (tilt side 2))
      else Node.drotate limit (sided side x s outer inner (1 + outer.depth) (tilt side 2)) := by
  have hne : outer ≠ .nil := by
    intro hnil
    rw [hnil, Node.depth] at h
    omega
  have hrefresh : (sided side x s outer inner d b).refreshBalance =
      sided side x s outer inner (1 + outer.depth) (tilt side 2) := refreshBalance_heavy h
  have hright : (sided side x s outer inner (1 + outer.depth) (tilt side 2)).rightHeavy = side :=
    rightHeavy_sided.trans (decide_tilt_pos two_pos)
  have hchild : (sided side x s outer inner (1 + outer.depth) (tilt side 2)).getitem
      (sided side x s outer inner (1 + outer.depth) (tilt side 2)).rightHeavy = outer := by
    rw [hright, getitem_sided]
  have hwide : ∀ l r : Node α D, Node.node x s l r d b = sided side x s outer inner d b →
      ¬ ((r.depth : ℤ) - l.depth).natAbs < 2 := by
    intro l r heq
    cases side with
    | true =>
        cases heq
        omega
    | false =>
        cases heq
        omega
  have hnode : ∃ l r, Node.node x s l r d b = sided side x s outer inner d b := by
    cases side with
    | true => exact ⟨_, _, rfl⟩
    | false => exact ⟨_, _, rfl⟩
  rcases hnode with ⟨l, r, heq⟩
  rw [← heq, rotate_of_ge (hwide l r heq) (heq ▸ hrefresh) (hchild.symm ▸ hne), hchild, hright]

/-- The child that comes up is not the shallower of its own children. -/
theorem rotate_single (hb' : b' = tilt side ((far.depth : ℤ) - near.depth))
    (hd' : d' = 1 + max far.depth near.depth) (hfit : far.depth ≤ near.depth + 1)
    (hle : near.depth ≤ far.depth) (hfar : Balanced far) (hnear : Balanced near)
    (hother : Balanced other) (hheavy : d' = other.depth + 2)
    (hstay : ∀ iv ∈ s, ¬ ends.Holds iv y) (limit : ℕ) :
    ∃ t', Node.rotate (limit + 3) (sided side x s (sided side y s' far near d' b') other d b) =
      .ok t' ∧ Balanced t' ∧ Leveled d' other.depth t'.depth := by
  have hlean : side = (sided side y s' far near d' b').rightHeavy ∨
      (sided side y s' far near d' b').balance = 0 := by
    rw [rightHeavy_sided, balance_sided, hb']
    rcases hle.eq_or_lt with heq | hlt
    · right
      rw [heq, sub_self]
      cases side with
      | true => rfl
      | false => rfl
    · exact .inl (decide_tilt_pos (by omega)).symm
  have hdepth : (sided side y s' far near d' b').depth = other.depth + 2 := by
    rw [depth_sided, hheavy]
  rw [rotate_sided_heavy hdepth, if_pos hlean,
    srotate_stay (decide_tilt_pos two_pos) (by omega) hstay]
  refine ⟨_, rfl, ?_⟩
  rw [refreshBalance_sided, refreshBalance_sided, balanced_sided, balanced_sided, depth_sided,
    depth_sided]
  refine ⟨⟨⟨by omega, by omega⟩, hfar, ⟨by omega, by omega⟩, hnear, hother⟩, ?_⟩
  rw [Leveled]
  omega

omit [LinearOrder α] [LinearOrder D] in
theorem sided_not (outer inner : Node α D) :
    sided (!side) x s outer inner d b = sided side x s inner outer d b := by
  cases side with
  | true => rfl
  | false => rfl

/-- The inner child of the deeper child comes up over both. -/
theorem rotate_double {z : α} {s'' : Finset (Interval α D)} {nn nf : Node α D} {d'' : ℕ} {b'' : ℤ}
    (hb' : b' = tilt side (-1)) (hd'' : d'' = 1 + max nn.depth nf.depth)
    (hfit : nn.depth ≤ nf.depth + 1 ∧ nf.depth ≤ nn.depth + 1) (hlt : d'' = far.depth + 1)
    (hfar : Balanced far) (hnn : Balanced nn) (hnf : Balanced nf) (hother : Balanced other)
    (hheavy : far.depth = other.depth) (hd' : d' = far.depth + 2)
    (hstay : ∀ iv ∈ s, ¬ ends.Holds iv z) (hstay' : ∀ iv ∈ s', ¬ ends.Holds iv z) (limit : ℕ) :
    ∃ t', Node.rotate (limit + 4)
        (sided side x s (sided side y s' far (sided (!side) z s'' nn nf d'' b'') d' b') other d b) =
      .ok t' ∧ Balanced t' ∧ Leveled d' other.depth t'.depth := by
  have hlean : ¬ (side = (sided side y s' far (sided (!side) z s'' nn nf d'' b'') d' b').rightHeavy ∨
      (sided side y s' far (sided (!side) z s'' nn nf d'' b'') d' b').balance = 0) := by
    rw [rightHeavy_sided, balance_sided, hb', decide_tilt_neg (by omega)]
    cases side with
    | true => simp [tilt]
    | false => simp [tilt]
  have hdepth : (sided side y s' far (sided (!side) z s'' nn nf d'' b'') d' b').depth =
      other.depth + 2 := by
    rw [depth_sided]
    omega
  have hside' : decide (b' > 0) = !side := hb' ▸ decide_tilt_neg (by omega)
  -- the inner child comes up over the child, then over the node
  obtain ⟨lower, hlower⟩ : ∃ lower, (sided side y s' far nf d' b').refreshBalance = lower :=
    ⟨_, rfl⟩
  have hlowerdepth : lower.depth = 1 + max far.depth nf.depth := by
    rw [← hlower, refreshBalance_sided, depth_sided]
  have hlowerbalanced : Balanced lower := by
    rw [← hlower, refreshBalance_sided, balanced_sided]
    exact ⟨⟨by omega, by omega⟩, hfar, hnf⟩
  have hfirst : Node.srotate (limit + 2)
      (sided side y s' far (sided (!side) z s'' nn nf d'' b'') d' b') =
        .ok (sided side z s'' lower nn d'' b'').refreshBalance := by
    have hrotated : Node.srotate (limit + 2)
        (sided (!side) y s' (sided (!side) z s'' nn nf d'' b'') far d' b') =
          .ok (sided (!side) z s'' nn (sided (!side) y s' nf far d' b').refreshBalance
            d'' b'').refreshBalance := srotate_stay hside' ⟨by omega, by omega⟩ hstay' limit
    simp only [sided_not, hlower] at hrotated ⊢
    exact hrotated
  have hchilddepth : (sided side z s'' lower nn d'' b'').refreshBalance.depth =
      other.depth + 2 := by
    rw [refreshBalance_sided, depth_sided]
    omega
  rw [rotate_sided_heavy hdepth, if_neg hlean, Node.drotate, rightHeavy_sided,
    decide_tilt_pos two_pos, getitem_sided, hfirst]
  simp only [bind, Except.bind]
  rw [setitem_sided, refreshBalance_heavy hchilddepth, refreshBalance_sided (x := z),
    srotate_stay (decide_tilt_pos two_pos) (by omega) hstay]
  refine ⟨_, rfl, ?_⟩
  rw [refreshBalance_sided, refreshBalance_sided, balanced_sided, balanced_sided, depth_sided,
    depth_sided]
  refine ⟨⟨⟨by omega, by omega⟩, hlowerbalanced, ⟨by omega, by omega⟩, hnn, hother⟩, ?_⟩
  rw [Leveled]
  omega

/-- A child that has shrunk, seen from above. -/
theorem Leveled.shrunk {outer outer' inner d : ℕ} (h : Leveled outer' inner d)
    (hfit : outer ≤ inner + 1 ∧ inner ≤ outer + 1) (hshrunk : Shrunk outer outer') :
    Shrunk (1 + max outer inner) d := by
  rw [Leveled] at h
  rw [Shrunk] at hshrunk ⊢
  omega

theorem Leveled.symm {outer inner d : ℕ} (h : Leveled outer inner d) : Leveled inner outer d := by
  rw [Leveled] at h ⊢
  omega

/-- One child is deeper by two: it comes up, or its inner child does. -/
theorem rotate_heavy {outer inner : Node α D} (hx : Center x s) (houter : Sound outer)
    (hbouter : Balanced outer) (hbinner : Balanced inner)
    (hheavy : outer.depth = inner.depth + 2)
    (hsep : Separated (sided side x s outer inner d b).allChildren)
    (ho : Ordered (sided side x s outer inner d b)) (limit : ℕ) :
    ∃ t', Node.rotate (limit + 4) (sided side x s outer inner d b) = .ok t' ∧ Balanced t' ∧
      Leveled outer.depth inner.depth t'.depth := by
  have hne : outer ≠ .nil := by
    intro hnil
    rw [hnil, Node.depth] at hheavy
    omega
  rcases houter.exists_sided hne side with ⟨y, s', heq, hy, ⟨hd', hb'⟩, hfar, hnear⟩
  generalize outer.getitem side = far at heq hd' hb' hfar
  generalize outer.getitem (!side) = near at heq hd' hb' hnear
  generalize outer.depth = d' at *
  generalize outer.balance = b' at *
  subst heq
  rw [balanced_sided] at hbouter
  rw [allChildren_sided, allChildren_sided] at hsep
  rw [ordered_sided, ordered_sided, allChildren_sided] at ho
  have hapart : ∀ i ∈ s, ∀ j ∈ s' ∪ (far.allChildren ∪ near.allChildren), ends.Apart i j :=
    fun i hi j hj => hsep i (Finset.mem_union_left _ hi) j
      (Finset.mem_union_right _ (Finset.mem_union_left _ hj))
  by_cases hle : near.depth ≤ far.depth
  · have hstay := hx.stay hy (fun i hi j hj => hapart i hi j (Finset.mem_union_left _ hj))
      (fun iv hiv => ho.1 iv (Finset.mem_union_left _ hiv))
    exact rotate_single hb' hd' hbouter.1.1 hle hbouter.2.1 hbouter.2.2 hbinner hheavy hstay
      (limit + 1)
  · have hnearne : near ≠ .nil := by
      intro hnil
      rw [hnil, Node.depth] at hle
      omega
    have hdiff : (far.depth : ℤ) - near.depth = -1 := by omega
    rw [hdiff] at hb'
    rcases hnear.exists_sided hnearne (!side) with ⟨z, s'', heq, hz, ⟨hd'', _⟩, _, _⟩
    generalize near.getitem (!side) = nn at heq hd''
    generalize near.getitem (!!side) = nf at heq hd''
    generalize near.depth = d'' at *
    generalize near.balance = b'' at *
    subst heq
    have hsub : s'' ⊆ (sided (!side) z s'' nn nf d'' b'').allChildren := by
      rw [allChildren_sided]
      exact Finset.subset_union_left
    have hstay := hx.stay hz
      (fun i hi j hj => hapart i hi j
        (Finset.mem_union_right _ (Finset.mem_union_right _ (hsub hj))))
      (fun iv hiv => ho.1 iv (Finset.mem_union_right _ (Finset.mem_union_right _ (hsub hiv))))
    have hstay' := hy.stay hz
      (fun i hi j hj => hsep i
        (Finset.mem_union_right _ (Finset.mem_union_left _ (Finset.mem_union_left _ hi))) j
        (Finset.mem_union_right _ (Finset.mem_union_left _ (Finset.mem_union_right _
          (Finset.mem_union_right _ (hsub hj))))))
      (fun iv hiv => ho.2.2.1.2.1 iv (hsub hiv))
    rcases hbouter with ⟨hfit, hbfar, hbnear⟩
    rw [balanced_sided] at hbnear
    exact rotate_double hb' hd'' hbnear.1 (by omega) hbfar hbnear.2.1 hbnear.2.2 hbinner (by omega)
      (by omega) hstay hstay' limit

/-- Rotating restores the balance of two balanced children that are two apart at most. -/
theorem rotate_balanced {l r : Node α D} (ht : Loose (.node x s l r d b)) (hl : Balanced l)
    (hr : Balanced r) (hle : l.depth ≤ r.depth + 2 ∧ r.depth ≤ l.depth + 2)
    (hsep : Separated (Node.node x s l r d b).allChildren) (ho : Ordered (.node x s l r d b))
    {limit : ℕ} (hlimit : 4 ≤ limit) :
    ∃ t', Node.rotate limit (.node x s l r d b) = .ok t' ∧ Balanced t' ∧
      Leveled l.depth r.depth t'.depth := by
  obtain ⟨limit, rfl⟩ : ∃ k, limit = k + 4 := ⟨limit - 4, by omega⟩
  rcases ht with ⟨hx, hsl, hsr⟩
  by_cases hfit : l.depth ≤ r.depth + 1 ∧ r.depth ≤ l.depth + 1
  · refine ⟨_, rotate_of_lt (by omega) (limit + 3), ⟨hfit, hl, hr⟩, ?_⟩
    rw [Node.refreshBalance, Node.depth, Leveled]
    omega
  · by_cases hright : l.depth ≤ r.depth
    · have hsepr : Separated (sided true x s r l d b).allChildren := hsep
      rcases rotate_heavy hx hsr hr hl (by omega) hsepr ho limit with
        ⟨t', ht', hb, hlevel⟩
      exact ⟨t', ht', hb, hlevel.symm⟩
    · have hsepl : Separated (sided false x s l r d b).allChildren := hsep
      exact rotate_heavy hx hsl hl hr (by omega) hsepl ho limit

end CProfiler.Intervals
