import Mathlib.Order.Basic
import Mathlib.Data.List.Dedup
import Mathlib.Data.List.MinMax
import Mathlib.Data.List.Nodup

/-! Lists of closed ranges over a linear order, compared by the points between
consecutive members that they cover. A range of a single point contributes
nothing to either half-open cover, so equality of the half-open covers and of the
least start is coarser than equality of the closed covers. -/

namespace CProfiler.Foundation

variable {α : Type*} [LinearOrder α]

/-! ## Covers -/

/-- Some range of the list contains the point. -/
def Covered (l : List (α × α)) (a : α) : Prop := ∃ r ∈ l, r.1 ≤ a ∧ a ≤ r.2

/-- Some range of the list contains the point and reaches beyond it. -/
def Spanned (l : List (α × α)) (a : α) : Prop := ∃ r ∈ l, r.1 ≤ a ∧ a < r.2

/-- Some range of the list contains the point and starts before it. -/
def SpannedLeft (l : List (α × α)) (a : α) : Prop := ∃ r ∈ l, r.1 < a ∧ a ≤ r.2

/-- The point is the least start of the list. -/
def LeastStart (l : List (α × α)) (a : α) : Prop := (∃ r ∈ l, r.1 = a) ∧ ∀ r ∈ l, a ≤ r.1

instance (l : List (α × α)) (a : α) : Decidable (Covered l a) := List.decidableBEx _ l

instance (l : List (α × α)) (a : α) : Decidable (Spanned l a) := List.decidableBEx _ l

/-- No range ends before it starts. -/
def Ordered (l : List (α × α)) : Prop := ∀ r ∈ l, r.1 ≤ r.2

/-- Each range ends before the next one starts. -/
def Separated (l : List (α × α)) : Prop := l.Pairwise (fun x y => x.2 < y.1)

/-- No two ranges of the list share a point. -/
def Apart (l : List (α × α)) : Prop :=
  l.Pairwise (fun x y => ∀ a, ¬ ((x.1 ≤ a ∧ a ≤ x.2) ∧ y.1 ≤ a ∧ a ≤ y.2))

instance (l : List (α × α)) : Decidable (Ordered l) := List.decidableBAll _ l

theorem Separated.apart {l : List (α × α)} (hs : Separated l) : Apart l := by
  refine hs.imp fun hxy a h => ?_
  exact absurd (h.2.1.trans h.1.2) (not_le_of_gt hxy)

/-- Ordered ranges that are separated start in strictly ascending order. -/
theorem Separated.starts {l : List (α × α)} (hs : Separated l) (ho : Ordered l) :
    l.Pairwise (fun x y => x.1 < y.1) := by
  refine List.Pairwise.imp_of_mem (fun hx _ hxy => ?_) hs
  exact (ho _ hx).trans_lt hxy

/-! ## Significant ranges -/

/-- The ranges that contain two points, or start where the list starts. -/
def significant (l : List (α × α)) : List (α × α) :=
  l.filter (fun r => decide (r.1 < r.2 ∨ ∀ s ∈ l, r.1 ≤ s.1))

theorem mem_significant {l : List (α × α)} {r : α × α} :
    r ∈ significant l ↔ r ∈ l ∧ (r.1 < r.2 ∨ ∀ s ∈ l, r.1 ≤ s.1) := by
  simp [significant]

/-- The closed cover of the significant ranges is determined by the half-open covers
and the least start. -/
theorem covered_significant {l : List (α × α)} (ho : Ordered l) (a : α) :
    Covered (significant l) a ↔ Spanned l a ∨ SpannedLeft l a ∨ LeastStart l a := by
  constructor
  · rintro ⟨r, hr, hle, hge⟩
    obtain ⟨hmem, hwide | hleast⟩ := mem_significant.mp hr
    · rcases lt_or_eq_of_le hge with hlt | heq
      · exact .inl ⟨r, hmem, hle, hlt⟩
      · exact .inr (.inl ⟨r, hmem, heq ▸ hwide, hge⟩)
    · rcases lt_or_eq_of_le hle with hlt | heq
      · exact .inr (.inl ⟨r, hmem, hlt, hge⟩)
      · exact .inr (.inr ⟨⟨r, hmem, heq⟩, fun s hs => heq ▸ hleast s hs⟩)
  · rintro (⟨r, hr, hle, hlt⟩ | ⟨r, hr, hlt, hge⟩ | ⟨⟨r, hr, rfl⟩, hleast⟩)
    · exact ⟨r, mem_significant.mpr ⟨hr, .inl (hle.trans_lt hlt)⟩, hle, hlt.le⟩
    · exact ⟨r, mem_significant.mpr ⟨hr, .inl (hlt.trans_le hge)⟩, hlt.le, hge⟩
    · exact ⟨r, mem_significant.mpr ⟨hr, .inr hleast⟩, le_rfl, ho r hr⟩

theorem spanned_significant (l : List (α × α)) (a : α) :
    Spanned (significant l) a ↔ Spanned l a := by
  constructor
  · rintro ⟨r, hr, h⟩
    exact ⟨r, (mem_significant.mp hr).1, h⟩
  · rintro ⟨r, hr, hle, hlt⟩
    exact ⟨r, mem_significant.mpr ⟨hr, .inl (hle.trans_lt hlt)⟩, hle, hlt⟩

theorem Covered.of_significant {l : List (α × α)} {a : α} (h : Covered (significant l) a) :
    Covered l a := by
  obtain ⟨r, hr, hc⟩ := h
  exact ⟨r, (mem_significant.mp hr).1, hc⟩

/-- The significant ranges cover the whole list exactly when every single point of it
starts first or lies in a range of two points. -/
theorem covered_significant_iff_covered {l : List (α × α)} (ho : Ordered l) :
    (∀ a, Covered (significant l) a ↔ Covered l a) ↔
      ∀ r ∈ l, r.1 = r.2 →
        (∀ s ∈ l, r.1 ≤ s.1) ∨ ∃ s ∈ l, s.1 < s.2 ∧ s.1 ≤ r.1 ∧ r.1 ≤ s.2 := by
  constructor
  · intro h r hr _
    obtain ⟨s, hs, hle, hge⟩ := (h r.1).mpr ⟨r, hr, le_rfl, ho r hr⟩
    obtain ⟨hmem, hwide | hleast⟩ := mem_significant.mp hs
    · exact .inr ⟨s, hmem, hwide, hle, hge⟩
    · rcases lt_or_eq_of_le (ho s hmem) with hwide | hpoint
      · exact .inr ⟨s, hmem, hwide, hle, hge⟩
      · have heq : r.1 = s.1 := le_antisymm (hpoint ▸ hge) hle
        exact .inl fun t ht => heq ▸ hleast t ht
  · intro h a
    refine ⟨Covered.of_significant, ?_⟩
    intro hcov
    obtain ⟨r, hr, hle, hge⟩ := hcov
    rcases lt_or_eq_of_le (ho r hr) with hwide | hpoint
    · exact ⟨r, mem_significant.mpr ⟨hr, .inl hwide⟩, hle, hge⟩
    · rcases h r hr hpoint with hleast | ⟨s, hs, hwide, hsle, hsge⟩
      · exact ⟨r, mem_significant.mpr ⟨hr, .inr hleast⟩, hle, hge⟩
      · have heq : a = r.1 := le_antisymm (hpoint ▸ hge) hle
        exact ⟨s, mem_significant.mpr ⟨hs, .inl hwide⟩, heq ▸ hsle, heq ▸ hsge⟩

/-! ## Appending -/

theorem spanned_append (l m : List (α × α)) (a : α) :
    Spanned (l ++ m) a ↔ Spanned l a ∨ Spanned m a := by
  simp only [Spanned, List.mem_append, or_and_right, exists_or]

theorem spannedLeft_append (l m : List (α × α)) (a : α) :
    SpannedLeft (l ++ m) a ↔ SpannedLeft l a ∨ SpannedLeft m a := by
  simp only [SpannedLeft, List.mem_append, or_and_right, exists_or]

theorem leastStart_append (l m : List (α × α)) (a : α) :
    LeastStart (l ++ m) a ↔
      (LeastStart l a ∧ ∀ r ∈ m, a ≤ r.1) ∨ (LeastStart m a ∧ ∀ r ∈ l, a ≤ r.1) := by
  simp only [LeastStart, List.mem_append, or_imp, forall_and, or_and_right, exists_or]
  constructor
  · rintro (⟨hl, hle, hle'⟩ | ⟨hm, hle, hle'⟩)
    · exact .inl ⟨⟨hl, hle⟩, hle'⟩
    · exact .inr ⟨⟨hm, hle'⟩, hle⟩
  · rintro (⟨⟨hl, hle⟩, hle'⟩ | ⟨⟨hm, hle'⟩, hle⟩)
    · exact .inl ⟨hl, hle, hle'⟩
    · exact .inr ⟨hm, hle, hle'⟩

theorem exists_leastStart {l : List (α × α)} (h : l ≠ []) : ∃ a, LeastStart l a := by
  cases hmin : l.argmin Prod.fst with
  | none => exact absurd (List.argmin_eq_none.mp hmin) h
  | some r =>
      exact ⟨r.1, ⟨r, List.argmin_mem hmin, rfl⟩, fun s hs => List.le_of_mem_argmin hs hmin⟩

/-! ## Equality up to single points -/

/-- Two lists with the same half-open covers and the same least start. -/
structure SameSpan (l m : List (α × α)) : Prop where
  spanned : ∀ a, Spanned l a ↔ Spanned m a
  spannedLeft : ∀ a, SpannedLeft l a ↔ SpannedLeft m a
  leastStart : ∀ a, LeastStart l a ↔ LeastStart m a

namespace SameSpan

variable {l m k : List (α × α)}

theorem refl (l : List (α × α)) : SameSpan l l :=
  ⟨fun _ => Iff.rfl, fun _ => Iff.rfl, fun _ => Iff.rfl⟩

theorem trans (h : SameSpan l m) (h' : SameSpan m k) : SameSpan l k :=
  ⟨fun a => (h.spanned a).trans (h'.spanned a),
    fun a => (h.spannedLeft a).trans (h'.spannedLeft a),
    fun a => (h.leastStart a).trans (h'.leastStart a)⟩

theorem of_perm (h : l.Perm m) : SameSpan l m :=
  ⟨fun a => by simp only [Spanned, h.mem_iff], fun a => by simp only [SpannedLeft, h.mem_iff],
    fun a => by simp only [LeastStart, h.mem_iff]⟩

theorem covered_significant (h : SameSpan l m) (hl : Ordered l) (hm : Ordered m) (a : α) :
    Covered (significant l) a ↔ Covered (significant m) a := by
  rw [Foundation.covered_significant hl, Foundation.covered_significant hm, h.spanned,
    h.spannedLeft, h.leastStart]

theorem eq_nil (h : SameSpan l m) (hl : l = []) : m = [] := by
  by_contra hm
  obtain ⟨a, ha⟩ := exists_leastStart hm
  obtain ⟨⟨r, hr, _⟩, _⟩ := (h.leastStart a).mpr ha
  simp [hl] at hr

theorem symm (h : SameSpan l m) : SameSpan m l :=
  ⟨fun a => (h.spanned a).symm, fun a => (h.spannedLeft a).symm, fun a => (h.leastStart a).symm⟩

/-- The bounds below all starts are the same. -/
theorem startsFrom (h : SameSpan l m) (a : α) : (∀ r ∈ l, a ≤ r.1) ↔ ∀ r ∈ m, a ≤ r.1 := by
  have hle : ∀ {l m : List (α × α)}, SameSpan l m → (∀ r ∈ l, a ≤ r.1) → ∀ r ∈ m, a ≤ r.1 := by
    intro l m h hl r hr
    obtain ⟨b, hb⟩ := exists_leastStart (List.ne_nil_of_mem hr)
    obtain ⟨⟨s, hs, rfl⟩, _⟩ := (h.leastStart b).mpr hb
    exact (hl s hs).trans (hb.2 r hr)
  exact ⟨hle h, hle h.symm⟩

theorem append {l' m' : List (α × α)} (h : SameSpan l m) (h' : SameSpan l' m') :
    SameSpan (l ++ l') (m ++ m') := by
  refine ⟨fun a => ?_, fun a => ?_, fun a => ?_⟩
  · rw [spanned_append, spanned_append, h.spanned, h'.spanned]
  · rw [spannedLeft_append, spannedLeft_append, h.spannedLeft, h'.spannedLeft]
  · rw [leastStart_append, leastStart_append]
    simp only [h.leastStart, h'.leastStart, h.startsFrom, h'.startsFrom]

theorem cons (r : α × α) (h : SameSpan l m) : SameSpan (r :: l) (r :: m) :=
  append (refl [r]) h

/-- Two ranges that meet, the second ending last, span what their hull spans. -/
theorem hull {a b c d : α} (hac : a ≤ c) (hcb : c ≤ b) (hbd : b < d) (l : List (α × α)) :
    SameSpan ((a, d) :: l) ((a, b) :: (c, d) :: l) := by
  refine append (m := [(a, b), (c, d)]) (l := [(a, d)]) ⟨fun x => ?_, fun x => ?_, fun x => ?_⟩
    (refl l)
  · simp only [Spanned, List.mem_cons, List.not_mem_nil, or_false, exists_eq_or_imp,
      exists_eq_left]
    constructor
    · rintro ⟨hax, hxd⟩
      rcases lt_or_ge x b with hxb | hbx
      · exact .inl ⟨hax, hxb⟩
      · exact .inr ⟨hcb.trans hbx, hxd⟩
    · rintro (⟨hax, hxb⟩ | ⟨hcx, hxd⟩)
      · exact ⟨hax, hxb.trans hbd⟩
      · exact ⟨hac.trans hcx, hxd⟩
  · simp only [SpannedLeft, List.mem_cons, List.not_mem_nil, or_false, exists_eq_or_imp,
      exists_eq_left]
    constructor
    · rintro ⟨hax, hxd⟩
      rcases le_or_gt x b with hxb | hbx
      · exact .inl ⟨hax, hxb⟩
      · exact .inr ⟨hcb.trans_lt hbx, hxd⟩
    · rintro (⟨hax, hxb⟩ | ⟨hcx, hxd⟩)
      · exact ⟨hax, hxb.trans hbd.le⟩
      · exact ⟨hac.trans_lt hcx, hxd⟩
  · simp only [LeastStart, List.mem_cons, List.not_mem_nil, or_false, exists_eq_or_imp,
      exists_eq_left, forall_eq_or_imp, forall_eq]
    constructor
    · rintro ⟨rfl, hle⟩
      exact ⟨.inl rfl, hle, hac⟩
    · rintro ⟨rfl | rfl, hle, -⟩
      · exact ⟨rfl, hle⟩
      · exact ⟨le_antisymm hac hle, hle⟩

/-- A range adds nothing when it is a single point or lies in the range before it,
provided that it does not start first. -/
theorem absorb {a b c d : α} (hac : a ≤ c) (hin : c = d ∨ d ≤ b) (l : List (α × α)) :
    SameSpan ((a, b) :: l) ((a, b) :: (c, d) :: l) := by
  refine append (m := [(a, b), (c, d)]) (l := [(a, b)]) ⟨fun x => ?_, fun x => ?_, fun x => ?_⟩
    (refl l)
  · simp only [Spanned, List.mem_cons, List.not_mem_nil, or_false, exists_eq_or_imp,
      exists_eq_left]
    refine ⟨.inl, ?_⟩
    rintro (h | ⟨hcx, hxd⟩)
    · exact h
    · rcases hin with rfl | hdb
      · exact absurd hxd (not_lt_of_ge hcx)
      · exact ⟨hac.trans hcx, hxd.trans_le hdb⟩
  · simp only [SpannedLeft, List.mem_cons, List.not_mem_nil, or_false, exists_eq_or_imp,
      exists_eq_left]
    refine ⟨.inl, ?_⟩
    rintro (h | ⟨hcx, hxd⟩)
    · exact h
    · rcases hin with rfl | hdb
      · exact absurd hxd (not_le_of_gt hcx)
      · exact ⟨hac.trans_lt hcx, hxd.trans hdb⟩
  · simp only [LeastStart, List.mem_cons, List.not_mem_nil, or_false, exists_eq_or_imp,
      exists_eq_left, forall_eq_or_imp, forall_eq]
    constructor
    · rintro ⟨rfl, hle⟩
      exact ⟨.inl rfl, hle, hac⟩
    · rintro ⟨rfl | rfl, hle, -⟩
      · exact ⟨rfl, hle⟩
      · exact ⟨le_antisymm hac hle, hle⟩

end SameSpan

/-! ## Ends of the cover -/

/-- The ends at which the closed cover stops, each listed once. -/
def runEnds (l : List (α × α)) : List α :=
  (l.map Prod.snd).dedup.filter (fun e => decide (¬ Spanned l e))

theorem mem_runEnds {l : List (α × α)} (ho : Ordered l) (e : α) :
    e ∈ runEnds l ↔ Covered l e ∧ ¬ Spanned l e := by
  simp only [runEnds, List.mem_filter, List.mem_dedup, List.mem_map, decide_eq_true_eq]
  constructor
  · rintro ⟨⟨r, hr, rfl⟩, hs⟩
    exact ⟨⟨r, hr, ho r hr, le_rfl⟩, hs⟩
  · rintro ⟨⟨r, hr, hle, hge⟩, hs⟩
    refine ⟨⟨r, hr, ?_⟩, hs⟩
    by_contra hne
    exact hs ⟨r, hr, hle, lt_of_le_of_ne hge (Ne.symm hne)⟩

theorem nodup_runEnds (l : List (α × α)) : (runEnds l).Nodup :=
  (List.nodup_dedup _).filter _

/-- In separated ranges the ends are distinct and none is spanned. -/
theorem Separated.ends {l : List (α × α)} (hs : Separated l) (ho : Ordered l) :
    (l.map Prod.snd).Nodup ∧ ∀ r ∈ l, ¬ Spanned l r.2 := by
  induction l with
  | nil => simp
  | cons x l ih =>
      obtain ⟨hx, hs⟩ := List.pairwise_cons.mp hs
      obtain ⟨hnodup, hfree⟩ := ih hs (fun r hr => ho r (List.mem_cons_of_mem x hr))
      have hafter : ∀ r ∈ l, x.2 < r.2 := fun r hr =>
        (hx r hr).trans_le (ho r (List.mem_cons_of_mem x hr))
      refine ⟨?_, ?_⟩
      · refine List.nodup_cons.mpr ⟨?_, hnodup⟩
        rintro hmem
        obtain ⟨r, hr, heq⟩ := List.mem_map.mp hmem
        exact absurd heq (ne_of_gt (hafter r hr))
      · rintro r hr ⟨s, hsmem, hle, hlt⟩
        rcases List.mem_cons.mp hr with rfl | hrl <;> rcases List.mem_cons.mp hsmem with rfl | hsl
        · exact lt_irrefl _ hlt
        · exact absurd (hx s hsl) (not_lt_of_ge hle)
        · exact absurd (hafter r hrl) (not_lt_of_gt hlt)
        · exact hfree r hrl ⟨s, hsl, hle, hlt⟩

/-- Separated ranges with the covers of `l` end exactly at its run ends. -/
theorem Separated.ends_perm_runEnds {l m : List (α × α)} (hs : Separated m) (hom : Ordered m)
    (hol : Ordered l) (hcov : ∀ a, Covered m a ↔ Covered l a)
    (hspan : ∀ a, Spanned m a ↔ Spanned l a) : (m.map Prod.snd).Perm (runEnds l) := by
  obtain ⟨hnodup, hfree⟩ := hs.ends hom
  refine (List.perm_ext_iff_of_nodup hnodup (nodup_runEnds l)).mpr fun e => ?_
  rw [mem_runEnds hol, ← hcov, ← hspan]
  constructor
  · intro he
    obtain ⟨r, hr, rfl⟩ := List.mem_map.mp he
    exact ⟨⟨r, hr, hom r hr, le_rfl⟩, hfree r hr⟩
  · rintro ⟨⟨r, hr, hle, hge⟩, hns⟩
    refine List.mem_map.mpr ⟨r, hr, ?_⟩
    by_contra hne
    exact hns ⟨r, hr, hle, lt_of_le_of_ne hge (Ne.symm hne)⟩

end CProfiler.Foundation
