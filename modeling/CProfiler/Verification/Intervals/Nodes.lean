import CProfiler.Foundation.Spans
import CProfiler.Model.IntervalTree

/-! # Nodes of the interval tree

What every node keeps, whatever the intervals are, and what orders them when no two different
ranges overlap. Both sides of a node are treated at once. -/

namespace CProfiler.Intervals

open Foundation Model Model.Intervals

variable {α D : Type}

/-! ## Sides -/

variable {side : Bool} {x : α} {s s' : Finset (Interval α D)} {outer inner : Node α D} {d : ℕ}
  {b : ℤ}

/-- The node with this child on the side and that one on the other side. -/
def sided (side : Bool) (x : α) (s : Finset (Interval α D)) (outer inner : Node α D) (d : ℕ)
    (b : ℤ) : Node α D :=
  match side with
  | true => .node x s inner outer d b
  | false => .node x s outer inner d b

/-- A balance as seen from a side. -/
def tilt (side : Bool) (z : ℤ) : ℤ :=
  match side with
  | true => z
  | false => -z

/-- Every node is one seen from either side. -/
theorem node_eq_sided (side : Bool) (x : α) (s : Finset (Interval α D)) (l r : Node α D) (d : ℕ)
    (b : ℤ) : Node.node x s l r d b = sided side x s ((Node.node x s l r d b).getitem side)
      ((Node.node x s l r d b).getitem (!side)) d b := by
  cases side with
  | true => rfl
  | false => rfl

@[simp] theorem getitem_sided : (sided side x s outer inner d b).getitem side = outer := by
  cases side with
  | true => rfl
  | false => rfl

@[simp] theorem getitem_sided_other :
    (sided side x s outer inner d b).getitem (!side) = inner := by
  cases side with
  | true => rfl
  | false => rfl

@[simp] theorem setitem_sided (n : Node α D) :
    (sided side x s outer inner d b).setitem side n = sided side x s n inner d b := by
  cases side with
  | true => rfl
  | false => rfl

@[simp] theorem setitem_sided_other (n : Node α D) :
    (sided side x s outer inner d b).setitem (!side) n = sided side x s outer n d b := by
  cases side with
  | true => rfl
  | false => rfl

@[simp] theorem setCenter_sided :
    (sided side x s outer inner d b).setCenter s' = sided side x s' outer inner d b := by
  cases side with
  | true => rfl
  | false => rfl

@[simp] theorem sCenter_sided : (sided side x s outer inner d b).sCenter = s := by
  cases side with
  | true => rfl
  | false => rfl

@[simp] theorem depth_sided : (sided side x s outer inner d b).depth = d := by
  cases side with
  | true => rfl
  | false => rfl

@[simp] theorem balance_sided : (sided side x s outer inner d b).balance = b := by
  cases side with
  | true => rfl
  | false => rfl

theorem rightHeavy_sided : (sided side x s outer inner d b).rightHeavy = decide (b > 0) := by
  cases side with
  | true => rfl
  | false => rfl

theorem refreshBalance_sided :
    (sided side x s outer inner d b).refreshBalance =
      sided side x s outer inner (1 + max outer.depth inner.depth)
        (tilt side ((outer.depth : ℤ) - inner.depth)) := by
  cases side with
  | true =>
      rw [max_comm]
      rfl
  | false =>
      rw [tilt, neg_sub]
      rfl

theorem isNone_eq_true_iff {t : Node α D} : t.isNone = true ↔ t = .nil := by
  cases t with
  | nil => simp [Node.isNone]
  | node => simp [Node.isNone]

/-- The number of places that hold an interval. -/
def entries : Node α D → ℕ
  | .nil => 0
  | .node _ s l r _ _ => s.card + entries l + entries r

theorem entries_sided : entries (sided side x s outer inner d b) =
    s.card + entries outer + entries inner := by
  cases side with
  | true =>
      rw [sided, entries]
      omega
  | false => rfl

/-- The depths of two children never differ by more than one. -/
def Balanced : Node α D → Prop
  | .nil => True
  | .node _ _ l r _ _ => (l.depth ≤ r.depth + 1 ∧ r.depth ≤ l.depth + 1) ∧ Balanced l ∧ Balanced r

theorem balanced_sided : Balanced (sided side x s outer inner d b) ↔
    (outer.depth ≤ inner.depth + 1 ∧ inner.depth ≤ outer.depth + 1) ∧ Balanced outer ∧
      Balanced inner := by
  cases side with
  | true => rw [sided, Balanced, and_comm (a := Balanced inner), and_comm (a := inner.depth ≤ _)]
  | false => rfl

variable [LinearOrder α]

@[simp] theorem centerHit_sided (iv : Interval α D) :
    (sided side x s outer inner d b).centerHit iv = iv.containsPoint x := by
  cases side with
  | true => rfl
  | false => rfl

/-! ## Intervals -/

/-- The ends of an interval. -/
def ends : Ends (Interval α D) α := ⟨Interval.begin, Interval.end_⟩

theorem containsPoint_iff {iv : Interval α D} {p : α} :
    iv.containsPoint p = true ↔ ends.Holds iv p := by
  simp [Interval.containsPoint, Ends.Holds, ends]

/-- Two intervals have the same range or do not overlap. -/
def Separated (s : Finset (Interval α D)) : Prop := ∀ i ∈ s, ∀ j ∈ s, ends.Apart i j

instance (s : Finset (Interval α D)) : Decidable (Separated s) :=
  inferInstanceAs (Decidable (∀ i ∈ s, ∀ j ∈ s, ends.Apart i j))

theorem Separated.subset {s t : Finset (Interval α D)} (h : Separated t) (hst : s ⊆ t) :
    Separated s :=
  fun i hi j hj => h i (hst hi) j (hst hj)

/-! ## What every node keeps -/

/-- The intervals of a node, of which there are some, hold its center. -/
structure Center (x : α) (s : Finset (Interval α D)) : Prop where
  nonempty : s.Nonempty
  holds : ∀ iv ∈ s, ends.Holds iv x

/-- Centers are proper, and depth and balance are those of the children. -/
def Sound : Node α D → Prop
  | .nil => True
  | .node x s l r d b => Center x s ∧ (d = 1 + max l.depth r.depth ∧ b = (r.depth : ℤ) - l.depth) ∧
      Sound l ∧ Sound r

theorem sound_sided : Sound (sided side x s outer inner d b) ↔ Center x s ∧
    (d = 1 + max outer.depth inner.depth ∧ b = tilt side ((outer.depth : ℤ) - inner.depth)) ∧
      Sound outer ∧ Sound inner := by
  cases side with
  | true => rw [sided, Sound, max_comm, and_comm (a := Sound inner), tilt]
  | false => rw [sided, Sound, tilt, neg_sub]

/-- A node that has been refreshed is sound if its center is proper and its children are sound. -/
theorem sound_refreshBalance (hx : Center x s) {l r : Node α D} (hl : Sound l) (hr : Sound r) :
    Sound (Node.node x s l r d b).refreshBalance :=
  ⟨hx, ⟨rfl, rfl⟩, hl, hr⟩

theorem Sound.depth_pos {t : Node α D} (h : Sound t) (hne : t ≠ .nil) : 0 < t.depth := by
  cases t with
  | nil => exact absurd rfl hne
  | node x s l r d b =>
      have hd : d = 1 + max l.depth r.depth := h.2.1.1
      rw [Node.depth]
      omega

theorem Sound.entries_pos {t : Node α D} (h : Sound t) (hne : t ≠ .nil) : 0 < entries t := by
  cases t with
  | nil => exact absurd rfl hne
  | node x s l r d b =>
      have hs : 0 < s.card := Finset.card_pos.mpr h.1.nonempty
      rw [entries]
      omega

variable [LinearOrder D]

theorem allChildren_sided : (sided side x s outer inner d b).allChildren =
    s ∪ (outer.allChildren ∪ inner.allChildren) := by
  cases side with
  | true =>
      rw [Finset.union_comm outer.allChildren, ← Finset.union_assoc]
      rfl
  | false =>
      rw [← Finset.union_assoc]
      rfl

/-- The intervals on either side of a center lie beyond it. -/
def Ordered : Node α D → Prop
  | .nil => True
  | .node x _ l r _ _ => (∀ iv ∈ l.allChildren, ends.Beyond false x iv) ∧
      (∀ iv ∈ r.allChildren, ends.Beyond true x iv) ∧ Ordered l ∧ Ordered r

theorem ordered_sided : Ordered (sided side x s outer inner d b) ↔
    (∀ iv ∈ outer.allChildren, ends.Beyond side x iv) ∧
      (∀ iv ∈ inner.allChildren, ends.Beyond (!side) x iv) ∧ Ordered outer ∧ Ordered inner := by
  cases side with
  | true => exact ⟨fun h => ⟨h.2.1, h.1, h.2.2.2, h.2.2.1⟩, fun h => ⟨h.2.1, h.1, h.2.2.2, h.2.2.1⟩⟩
  | false => exact Iff.rfl

theorem sCenter_subset (t : Node α D) : t.sCenter ⊆ t.allChildren := by
  cases t with
  | nil => exact Finset.Subset.refl _
  | node x s l r d b => exact Finset.subset_union_left.trans Finset.subset_union_left

/-- The intervals of a sound node are not empty. -/
theorem Sound.holds_of_mem {t : Node α D} (h : Sound t) {iv : Interval α D}
    (hiv : iv ∈ t.allChildren) : ∃ p, ends.Holds iv p := by
  induction t with
  | nil => exact absurd hiv (Finset.notMem_empty iv)
  | node x s l r d b ihl ihr =>
      rw [Node.allChildren, Finset.mem_union, Finset.mem_union] at hiv
      rcases hiv with (hs | hl) | hr
      · exact ⟨x, h.1.holds iv hs⟩
      · exact ihl h.2.2.1 hl
      · exact ihr h.2.2.2 hr

/-! ## Searching -/

/-- A search adds nothing but intervals of the tree that contain the point. -/
theorem searchPoint_subset (p : α) (t : Node α D) (result : Finset (Interval α D)) :
    t.searchPoint p result ⊆ result ∪ t.allChildren.filter (fun iv => iv.containsPoint p) := by
  induction t generalizing result with
  | nil => exact Finset.subset_union_left
  | node x s l r d b ihl ihr =>
      intro iv hiv
      rw [Node.searchPoint] at hiv
      simp only [Node.allChildren, Finset.mem_union, Finset.mem_filter]
      split_ifs at hiv with hlt hgt
      · have hmem := ihl _ hiv
        simp only [Finset.mem_union, Finset.mem_filter] at hmem
        tauto
      · have hmem := ihr _ hiv
        simp only [Finset.mem_union, Finset.mem_filter] at hmem
        tauto
      · simp only [Finset.mem_union, Finset.mem_filter] at hiv
        tauto

/-- In an ordered tree a search adds exactly the intervals that contain the point. -/
theorem searchPoint_eq {t : Node α D} (ho : Ordered t) (p : α) (result : Finset (Interval α D)) :
    t.searchPoint p result =
      result ∪ t.allChildren.filter (fun iv => iv.containsPoint p) := by
  induction t generalizing result with
  | nil => exact (Finset.union_empty result).symm
  | node x s l r d b ihl ihr =>
      rcases ho with ⟨hl, hr, hol, hor⟩
      -- the side that is not searched holds no interval with the point
      have hmissl : ¬ p < x → ∀ iv ∈ l.allChildren, ¬ iv.containsPoint p = true := by
        intro hlt iv hiv
        rw [containsPoint_iff]
        rcases eq_or_lt_of_le (not_lt.mp hlt) with heq | hgt
        · exact heq ▸ (hl iv hiv).not_holds
        · exact (hl iv hiv).not_holds_of_further hgt
      have hmissr : ¬ x < p → ∀ iv ∈ r.allChildren, ¬ iv.containsPoint p = true := by
        intro hgt iv hiv
        rw [containsPoint_iff]
        rcases eq_or_lt_of_le (not_lt.mp hgt) with heq | hlt
        · exact heq ▸ (hr iv hiv).not_holds
        · exact (hr iv hiv).not_holds_of_further hlt
      rw [Node.searchPoint, Node.allChildren, Finset.filter_union, Finset.filter_union]
      split_ifs with hlt hgt
      · rw [ihl hol, Finset.filter_eq_empty_iff.mpr (hmissr (not_lt.mpr hlt.le)), Finset.union_empty,
          Finset.union_assoc]
      · rw [ihr hor, Finset.filter_eq_empty_iff.mpr (hmissl hlt), Finset.union_empty,
          Finset.union_assoc]
      · rw [Finset.filter_eq_empty_iff.mpr (hmissl hlt),
          Finset.filter_eq_empty_iff.mpr (hmissr hgt), Finset.union_empty, Finset.union_empty]

theorem searchOverlap_eq {t : Node α D} (ho : Ordered t) (points : List α) :
    t.searchOverlap points =
      t.allChildren.filter (fun iv => ∃ p ∈ points, iv.containsPoint p = true) := by
  have hfold : ∀ result : Finset (Interval α D),
      points.foldl (fun result j => t.searchPoint j result) result =
        result ∪ t.allChildren.filter (fun iv => ∃ p ∈ points, iv.containsPoint p = true) := by
    induction points with
    | nil =>
        intro result
        simp
    | cons p points ih =>
        intro result
        rw [List.foldl_cons, ih, searchPoint_eq ho, Finset.union_assoc, ← Finset.filter_or]
        simp only [List.mem_cons, exists_eq_or_imp]
  rw [Node.searchOverlap, hfold, Finset.empty_union]

/-- The descent for an overlap finds one exactly when there is one. -/
theorem containsPoint_eq_true_iff {t : Node α D} (ho : Ordered t) (p : α) :
    t.containsPoint p = true ↔ ∃ iv ∈ t.allChildren, iv.containsPoint p = true := by
  induction t with
  | nil => simp [Node.containsPoint, Node.allChildren]
  | node x s l r d b ihl ihr =>
      rcases ho with ⟨hl, hr, hol, hor⟩
      simp only [Node.allChildren, Finset.mem_union, or_and_right, exists_or]
      rw [Node.containsPoint]
      split_ifs with hs hgt
      · exact ⟨fun _ => .inl (.inl hs), fun _ => rfl⟩
      · rw [ihr hor]
        refine ⟨fun h => .inr h, fun h => ?_⟩
        rcases h with (h | ⟨iv, hiv, hp⟩) | h
        · exact absurd h hs
        · exact absurd (containsPoint_iff.mp hp)
            ((hl iv hiv).not_holds_of_further hgt)
        · exact h
      · rw [ihl hol]
        refine ⟨fun h => .inl (.inr h), fun h => ?_⟩
        rcases h with (h | h) | ⟨iv, hiv, hp⟩
        · exact absurd h hs
        · exact h
        · rcases eq_or_lt_of_le (not_lt.mp hgt) with heq | hlt
          · exact absurd (containsPoint_iff.mp hp) (heq ▸ (hr iv hiv).not_holds)
          · exact absurd (containsPoint_iff.mp hp)
              ((hr iv hiv).not_holds_of_further hlt)

end CProfiler.Intervals
