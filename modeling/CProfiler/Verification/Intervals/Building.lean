import CProfiler.Verification.Intervals.Limits
import Mathlib.Data.Nat.Fib.Basic
import Mathlib.Data.Nat.Size

/-! # Building

The interval in the middle of a sorted list leaves at most half of the list on either side, so that
a tree of separated ranges has no more levels than its number of intervals has bits. Of disjoint
ranges it is balanced, and never rotated. -/

namespace CProfiler.Intervals

open Foundation Model Model.Intervals

variable {α D : Type} [LinearOrder α] [LinearOrder D] {limit : ℕ}

/-! ## Halves -/

section

variable {β : Type*} {p : β → Bool} {m : ℕ} {xs : List β}

theorem length_filter_le_of_drop (h : ∀ k ∈ xs.drop m, p k = false) :
    (xs.filter p).length ≤ m := by
  have hnil : (xs.drop m).filter p = [] := by
    rw [List.filter_eq_nil_iff]
    intro k hk
    rw [h k hk]
    exact Bool.false_ne_true
  rw [← List.take_append_drop m xs, List.filter_append, hnil, List.append_nil]
  exact (List.length_filter_le _ _).trans (List.length_take_le _ _)

theorem length_filter_le_of_take (h : ∀ k ∈ xs.take m, p k = false) :
    (xs.filter p).length ≤ xs.length - m := by
  have hnil : (xs.take m).filter p = [] := by
    rw [List.filter_eq_nil_iff]
    intro k hk
    rw [h k hk]
    exact Bool.false_ne_true
  have hsplit : xs.filter p = (xs.drop m).filter p := by
    conv_lhs => rw [← List.take_append_drop m xs, List.filter_append, hnil, List.nil_append]
  rw [hsplit, ← List.length_drop]
  exact List.length_filter_le _ _

end

theorem begin_le_of_le {i j : Interval α D} (h : i ≤ j) : i.begin ≤ j.begin := by
  have hle : i.fields ≤ j.fields := h
  rw [Prod.Lex.le_iff] at hle
  rcases hle with hlt | heq
  · exact le_of_lt hlt
  · exact le_of_eq heq.1

/-- The two halves of a sorted list around the interval in the middle. -/
theorem halves_le {ivs : List (Interval α D)} (hnull : ∀ iv ∈ ivs, iv.begin < iv.end_)
    (hsorted : ivs.Pairwise (fun a b => a ≤ b)) {m : ℕ} (hm : m < ivs.length) :
    (ivs.filter (fun k => decide (k.end_ ≤ ivs[m].begin))).length ≤ m ∧
      (ivs.filter (fun k => !decide (k.end_ ≤ ivs[m].begin) &&
        decide (k.begin > ivs[m].begin))).length ≤ ivs.length - (m + 1) := by
  refine ⟨length_filter_le_of_drop fun k hk => ?_, length_filter_le_of_take fun k hk => ?_⟩
  · have hge : ivs[m].begin ≤ k.begin := by
      have hrest := hsorted.sublist (List.drop_sublist m ivs)
      rw [List.drop_eq_getElem_cons hm] at hk hrest
      rcases List.mem_cons.mp hk with rfl | hk
      · exact le_rfl
      · exact begin_le_of_le ((List.pairwise_cons.mp hrest).1 k hk)
    rw [decide_eq_false_iff_not, not_le]
    exact hge.trans_lt (hnull k (List.mem_of_mem_drop hk))
  · have hle : k.begin ≤ ivs[m].begin := by
      rcases List.mem_take_iff_getElem.mp hk with ⟨i, hi, rfl⟩
      rcases Nat.eq_or_lt_of_le (Nat.le_of_lt_succ (lt_of_lt_of_le hi (Nat.min_le_left _ _))) with
        heq | hlt
      · subst heq
        exact le_rfl
      · exact begin_le_of_le (List.pairwise_iff_getElem.mp hsorted i m _ hm hlt)
    rw [decide_eq_false (not_lt.mpr hle), Bool.and_false]

/-- What is built from a list: the trees of two halves under the interval in the middle. -/
structure Split (ivs sorted : List (Interval α D)) (iv : Interval α D) : Prop where
  perm : sorted.Perm ivs
  mem : iv ∈ sorted
  left_le : (sorted.filter (fun k => decide (k.end_ ≤ iv.begin))).length ≤ ivs.length / 2
  right_le : (sorted.filter
    (fun k => !decide (k.end_ ≤ iv.begin) && decide (k.begin > iv.begin))).length ≤
      ivs.length - (ivs.length / 2 + 1)
  eq : ∀ limit, Node.fromIntervals (limit + 2) ivs = (do
    let leftNode ← Node.fromIntervals limit
      (sorted.filter (fun k => decide (k.end_ ≤ iv.begin)))
    let rightNode ← Node.fromIntervals limit
      (sorted.filter (fun k => !decide (k.end_ ≤ iv.begin) && decide (k.begin > iv.begin)))
    Node.rotate limit (.node iv.begin (sorted.filter
      (fun k => !decide (k.end_ ≤ iv.begin) && !decide (k.begin > iv.begin))).toFinset
      leftNode rightNode 0 0))

theorem exists_split {ivs : List (Interval α D)} (hnull : ∀ iv ∈ ivs, iv.begin < iv.end_)
    (hne : ivs ≠ []) : ∃ sorted iv, Split ivs sorted iv := by
  have hperm := List.mergeSort_perm ivs (fun a b => decide (a ≤ b))
  have hsorted : (ivs.mergeSort (fun a b => decide (a ≤ b))).Pairwise (fun a b => a ≤ b) := by
    refine (List.pairwise_mergeSort (fun a b c hab hbc => ?_) (fun a b => ?_) ivs).imp
      of_decide_eq_true
    · rw [decide_eq_true_eq] at hab hbc ⊢
      exact hab.trans hbc
    · rw [Bool.or_eq_true, decide_eq_true_eq, decide_eq_true_eq]
      exact le_total a b
  have hsortednull : ∀ iv ∈ ivs.mergeSort (fun a b => decide (a ≤ b)), iv.begin < iv.end_ :=
    fun iv hiv => hnull iv (hperm.mem_iff.mp hiv)
  have hlength := hperm.length_eq
  have hlen : ivs.length / 2 < (ivs.mergeSort (fun a b => decide (a ≤ b))).length := by
    rw [hlength]
    exact Nat.div_lt_self (List.length_pos_iff.mpr hne) Nat.one_lt_two
  rcases halves_le hsortednull hsorted hlen with ⟨hleft, hright⟩
  rw [hlength] at hright
  refine ⟨_, _, hperm, List.getElem_mem hlen, hleft, hright, fun limit => ?_⟩
  rw [Node.fromIntervals, if_neg hne, Node.initFromSorted, hlength,
    List.getElem?_eq_getElem hlen]

section

variable {k : ℕ} {ivs : List (Interval α D)}

/-- Building takes three calls for a level, and there are no more levels than bits. -/
theorem from_within (hnull : ∀ iv ∈ ivs, iv.begin < iv.end_) (hsep : Separated ivs.toFinset)
    (hk : ivs.length < 2 ^ k) (hlimit : 3 * k + 3 ≤ limit) :
    ∃ t, Node.fromIntervals limit ivs = .ok t ∧ t.depth ≤ k := by
  induction k generalizing ivs limit with
  | zero =>
      have hnil : ivs = [] := List.length_eq_zero_iff.mp (by omega)
      obtain ⟨limit, rfl⟩ : ∃ k, limit = k + 1 := ⟨limit - 1, by omega⟩
      rw [Node.fromIntervals, if_pos hnil]
      exact ⟨.nil, rfl, le_rfl⟩
  | succ k ih =>
      obtain ⟨limit, rfl⟩ : ∃ k, limit = k + 2 := ⟨limit - 2, by omega⟩
      by_cases hne : ivs = []
      · rw [Node.fromIntervals, if_pos hne]
        exact ⟨.nil, rfl, Nat.zero_le _⟩
      · rcases exists_split hnull hne with ⟨sorted, iv, hperm, hmem, hleft, hright, heq⟩
        have hsortednull : ∀ k ∈ sorted, k.begin < k.end_ :=
          fun k hk => hnull k (hperm.mem_iff.mp hk)
        have hparts := parts_of_mem hmem (hsortednull iv hmem)
        rw [Nat.pow_succ] at hk
        have hsortedsep : Separated sorted.toFinset :=
          (List.toFinset_eq_of_perm _ _ hperm).symm ▸ hsep
        have hsubnull : ∀ p : Interval α D → Bool, ∀ k ∈ sorted.filter p, k.begin < k.end_ :=
          fun p k hk => hsortednull k (List.mem_filter.mp hk).1
        have hsubsep : ∀ p : Interval α D → Bool, Separated (sorted.filter p).toFinset := by
          intro p
          refine hsortedsep.subset fun k hk => ?_
          exact List.mem_toFinset.mpr (List.mem_filter.mp (List.mem_toFinset.mp hk)).1
        have hlimit' : 3 * k + 3 ≤ limit := by omega
        rcases ih (hsubnull _) (hsubsep (fun k => decide (k.end_ ≤ iv.begin))) (by omega)
          hlimit' with ⟨l, hl, hdepthl⟩
        rcases ih (hsubnull _)
          (hsubsep (fun k => !decide (k.end_ ≤ iv.begin) && decide (k.begin > iv.begin)))
          (by omega) hlimit' with ⟨r, hr, hdepthr⟩
        have hassembled := hparts.assembled (d := 0) (b := 0) (built_of_from (hsubnull _) hl)
          (built_of_from (hsubnull _) hr)
        rcases rotate_within hassembled.loose (hassembled.content.symm ▸ hsortedsep)
          (hassembled.ordered hsortedsep) hdepthl hdepthr (show 3 * k + 4 ≤ limit by omega) with
          ⟨t, ht, hdepth⟩
        refine ⟨t, ?_, hdepth⟩
        rw [heq, hl, hr]
        exact ht

end

/-! ## Building from disjoint ranges -/

/-- No two intervals share a point. -/
def Scattered (s : Finset (Interval α D)) : Prop :=
  ∀ i ∈ s, ∀ j ∈ s, i ≠ j → i.end_ ≤ j.begin ∨ j.end_ ≤ i.begin

instance (s : Finset (Interval α D)) : Decidable (Scattered s) :=
  inferInstanceAs (Decidable (∀ i ∈ s, ∀ j ∈ s, i ≠ j → i.end_ ≤ j.begin ∨ j.end_ ≤ i.begin))

omit [LinearOrder D] in
theorem Scattered.separated {s : Finset (Interval α D)} (h : Scattered s) : Separated s := by
  intro i hi j hj
  by_cases hij : i = j
  · exact .inl ⟨hij ▸ rfl, hij ▸ rfl⟩
  · exact .inr (h i hi j hj hij)

omit [LinearOrder D] in
theorem Scattered.subset {s s' : Finset (Interval α D)} (h : Scattered s) (hsub : s' ⊆ s) :
    Scattered s' :=
  fun i hi j hj => h i (hsub hi) j (hsub hj)

/-- Around one of disjoint intervals the center is that interval. -/
theorem Scattered.length_center {ivs : List (Interval α D)} (h : Scattered ivs.toFinset)
    (hnodup : ivs.Nodup) {iv : Interval α D} (hiv : iv ∈ ivs) (hnull : iv.begin < iv.end_) :
    (ivs.filter (fun k => !decide (k.end_ ≤ iv.begin) && !decide (k.begin > iv.begin))).length ≤
      1 := by
  have hsame : ∀ k ∈ ivs.filter
      (fun k => !decide (k.end_ ≤ iv.begin) && !decide (k.begin > iv.begin)), k = iv := by
    intro k hk
    rw [List.mem_filter, Bool.and_eq_true, Bool.not_eq_true', Bool.not_eq_true',
      decide_eq_false_iff_not, decide_eq_false_iff_not, not_le, not_lt] at hk
    by_contra hne
    rcases h k (List.mem_toFinset.mpr hk.1) iv (List.mem_toFinset.mpr hiv) hne with hki | hik
    · exact absurd hk.2.1 (not_lt.mpr hki)
    · exact absurd (hnull.trans_le (hik.trans hk.2.2)) (lt_irrefl _)
  have hnodup' := hnodup.filter
    (fun k => !decide (k.end_ ≤ iv.begin) && !decide (k.begin > iv.begin))
  generalize ivs.filter (fun k => !decide (k.end_ ≤ iv.begin) && !decide (k.begin > iv.begin)) =
    center at hsame hnodup'
  have hsub : center ⊆ [iv] := fun k hk => List.mem_singleton.mpr (hsame k hk)
  exact (List.subperm_of_subset hnodup' hsub).length_le

theorem size_half {n : ℕ} (hn : 0 < n) : n.size = 1 + (n / 2).size := by
  refine le_antisymm ?_ ?_
  · have hlt := Nat.lt_size_self (n / 2)
    rw [Nat.size_le, Nat.pow_add]
    omega
  · rw [Nat.add_comm, Nat.succ_le_iff, Nat.lt_size]
    rcases Nat.eq_zero_or_pos (n / 2).size with hzero | hpos
    · rw [hzero]
      exact hn
    · have hle := Nat.lt_size.mp (show (n / 2).size - 1 < (n / 2).size by omega)
      have hpow : 2 ^ (n / 2).size = 2 * 2 ^ ((n / 2).size - 1) := by
        rw [← Nat.pow_succ', Nat.succ_eq_add_one, Nat.sub_add_cancel hpos]
      omega

/-- The tree of disjoint intervals has the depth of a full one. -/
theorem from_scattered {k : ℕ} {ivs : List (Interval α D)}
    (hnull : ∀ iv ∈ ivs, iv.begin < iv.end_) (hsc : Scattered ivs.toFinset) (hnodup : ivs.Nodup)
    (hk : ivs.length < 2 ^ k) {limit : ℕ} (hlimit : 2 * k + 1 ≤ limit) :
    ∃ t, Node.fromIntervals limit ivs = .ok t ∧ Balanced t ∧ t.depth = ivs.length.size := by
  induction k generalizing ivs limit with
  | zero =>
      have hnil : ivs = [] := List.length_eq_zero_iff.mp (by omega)
      obtain ⟨limit, rfl⟩ : ∃ k, limit = k + 1 := ⟨limit - 1, by omega⟩
      rw [Node.fromIntervals, if_pos hnil, hnil]
      exact ⟨.nil, rfl, trivial, rfl⟩
  | succ k ih =>
      obtain ⟨limit, rfl⟩ : ∃ k, limit = k + 2 := ⟨limit - 2, by omega⟩
      by_cases hne : ivs = []
      · rw [Node.fromIntervals, if_pos hne, hne]
        exact ⟨.nil, rfl, trivial, rfl⟩
      · rcases exists_split hnull hne with ⟨sorted, iv, hperm, hmem, hleft, hright, heq⟩
        have hsortednull : ∀ k ∈ sorted, k.begin < k.end_ :=
          fun k hk => hnull k (hperm.mem_iff.mp hk)
        have hsortedsc : Scattered sorted.toFinset :=
          (List.toFinset_eq_of_perm _ _ hperm).symm ▸ hsc
        have hsortednodup : sorted.Nodup := hperm.nodup_iff.mpr hnodup
        have hlength := hperm.length_eq
        have hpos : 0 < ivs.length := List.length_pos_iff.mpr hne
        -- one interval is in the center, so the halves have all the others
        have hcenter := hsortedsc.length_center hsortednodup hmem (hsortednull iv hmem)
        have hsum := length_filter_three (fun k : Interval α D => decide (k.end_ ≤ iv.begin))
          (fun k => decide (k.begin > iv.begin)) sorted
        rw [Nat.pow_succ] at hk
        have hsubnull : ∀ p : Interval α D → Bool, ∀ k ∈ sorted.filter p, k.begin < k.end_ :=
          fun p k hk => hsortednull k (List.mem_filter.mp hk).1
        have hsubsc : ∀ p : Interval α D → Bool, Scattered (sorted.filter p).toFinset := by
          intro p
          refine hsortedsc.subset fun k hk => ?_
          exact List.mem_toFinset.mpr (List.mem_filter.mp (List.mem_toFinset.mp hk)).1
        have hlimit' : 2 * k + 1 ≤ limit := by omega
        rcases ih (hsubnull _) (hsubsc (fun k => decide (k.end_ ≤ iv.begin)))
          (hsortednodup.filter _) (by omega) hlimit' with ⟨l, hl, hbl, hdepthl⟩
        rcases ih (hsubnull _)
          (hsubsc (fun k => !decide (k.end_ ≤ iv.begin) && decide (k.begin > iv.begin)))
          (hsortednodup.filter _) (by omega) hlimit' with ⟨r, hr, hbr, hdepthr⟩
        generalize (sorted.filter (fun k => decide (k.end_ ≤ iv.begin))).length = nl at *
        generalize (sorted.filter (fun k => !decide (k.end_ ≤ iv.begin) &&
          decide (k.begin > iv.begin))).length = nr at *
        have hnl : nl = ivs.length / 2 := by omega
        have hsize := size_half hpos
        have hmono := Nat.size_le_size (show nr ≤ nl by omega)
        have hclose : nl.size ≤ nr.size + 1 := by
          rcases Nat.eq_zero_or_pos nl with hzero | hnlpos
          · rw [hzero]
            exact Nat.zero_le _
          · have hhalf := size_half hnlpos
            have hle := Nat.size_le_size (show nl / 2 ≤ nr by omega)
            omega
        rw [← hnl] at hsize
        refine ⟨(Node.node iv.begin (sorted.filter (fun k => !decide (k.end_ ≤ iv.begin) &&
          !decide (k.begin > iv.begin))).toFinset l r 0 0).refreshBalance, ?_,
          ⟨⟨by omega, by omega⟩, hbl, hbr⟩, ?_⟩
        · rw [heq, hl, hr]
          obtain ⟨limit, rfl⟩ : ∃ k, limit = k + 1 := ⟨limit - 1, by omega⟩
          exact rotate_of_lt (by omega) limit
        · change 1 + max l.depth r.depth = _
          omega

variable {t : Node α D}

/-! ## The depth -/

omit [LinearOrder α] [LinearOrder D] in
/-- The number of nodes on the longest way down. -/
def height : Node α D → ℕ
  | .nil => 0
  | .node _ _ l r _ _ => 1 + max (height l) (height r)

omit [LinearOrder D] in
theorem Sound.depth_eq_height (ht : Sound t) : t.depth = height t := by
  induction t with
  | nil => rfl
  | node x s l r d b ihl ihr =>
      rcases ht with ⟨_, ⟨hd, _⟩, hl, hr⟩
      rw [Node.depth, height, hd, ihl hl, ihr hr]

omit [LinearOrder D] in
/-- A node holds an interval. -/
theorem Sound.countNodes_le (ht : Sound t) : t.countNodes ≤ entries t := by
  induction t with
  | nil => exact le_rfl
  | node x s l r d b ihl ihr =>
      rcases ht with ⟨hx, _, hl, hr⟩
      have hcard : 0 < s.card := Finset.card_pos.mpr hx.nonempty
      have hlle := ihl hl
      have hrle := ihr hr
      rw [Node.countNodes, entries]
      omega

omit [LinearOrder D] in
/-- The sparsest balanced trees are counted by the Fibonacci numbers. -/
theorem fib_depth_le (ht : Sound t) (hb : Balanced t) :
    Nat.fib (t.depth + 2) ≤ t.countNodes + 1 := by
  induction t with
  | nil => exact Nat.le_refl 1
  | node x s l r d b ihl ihr =>
      rcases ht with ⟨_, ⟨hd, _⟩, hl, hr⟩
      rcases hb with ⟨hfit, hbl, hbr⟩
      have hlfib := ihl hl hbl
      have hrfib := ihr hr hbr
      rw [Node.depth, hd, Node.countNodes]
      -- one child is as deep as that, the other one at most one less
      by_cases hle : l.depth ≤ r.depth
      · have hmono : Nat.fib (r.depth + 1) ≤ Nat.fib (l.depth + 2) := Nat.fib_mono (by omega)
        have hdepth : 1 + max l.depth r.depth + 2 = r.depth + 1 + 2 := by omega
        have hfib : Nat.fib (r.depth + 1 + 2) = Nat.fib (r.depth + 1) + Nat.fib (r.depth + 2) :=
          Nat.fib_add_two
        rw [hdepth, hfib]
        omega
      · have hmono : Nat.fib (l.depth + 1) ≤ Nat.fib (r.depth + 2) := Nat.fib_mono (by omega)
        have hdepth : 1 + max l.depth r.depth + 2 = l.depth + 1 + 2 := by omega
        have hfib : Nat.fib (l.depth + 1 + 2) = Nat.fib (l.depth + 1) + Nat.fib (l.depth + 2) :=
          Nat.fib_add_two
        rw [hdepth, hfib]
        omega

theorem fib_le_pow (k : ℕ) : Nat.fib (k + 3) ≤ 2 ^ k + 1 := by
  induction k using Nat.twoStepInduction with
  | zero => exact le_rfl
  | one => exact le_rfl
  | more k ih ih' =>
      have hfib : Nat.fib (k + 2 + 3) = Nat.fib (k + 3) + Nat.fib (k + 1 + 3) := Nat.fib_add_two
      have hpos : 0 < 2 ^ k := Nat.two_pow_pos k
      rw [Nat.pow_succ] at ih'
      rw [hfib, Nat.pow_succ, Nat.pow_succ]
      omega

/-- A full tree is one of the sparse ones at least. -/
theorem fib_size_le (n : ℕ) : Nat.fib (n.size + 2) ≤ n + 1 := by
  rcases Nat.eq_zero_or_pos n with hzero | hpos
  · rw [hzero]
    exact le_rfl
  · have hsize := Nat.size_pos.mpr hpos
    have hle := Nat.lt_size.mp (show n.size - 1 < n.size by omega)
    have hfib := fib_le_pow (n.size - 1)
    rw [show n.size + 2 = n.size - 1 + 3 by omega]
    omega

end CProfiler.Intervals
