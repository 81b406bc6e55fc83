import Mathlib.Algebra.BigOperators.Group.List.Basic
import Mathlib.Algebra.GroupWithZero.Nat
import Mathlib.Order.Lattice

/-! Sums over the members of a list that satisfy a predicate, and their
computation from the prefixes of a list sorted by a key. -/

namespace CProfiler.Foundation

variable {α κ M : Type*}

/-! ## Sums over a selection -/

section SumWhere

variable [AddCommMonoid M] (w : α → M)

/-- The sum of `w` over the members of `l` that satisfy `p`. -/
def sumWhere (p : α → Prop) [DecidablePred p] (l : List α) : M :=
  ((l.filter (fun x => decide (p x))).map w).sum

variable {w} (p q : α → Prop) [DecidablePred p] [DecidablePred q]

@[simp] theorem sumWhere_nil : sumWhere w p [] = 0 := rfl

theorem sumWhere_cons (x : α) (l : List α) :
    sumWhere w p (x :: l) = (if p x then w x else 0) + sumWhere w p l := by
  by_cases h : p x <;> simp [sumWhere, h]

theorem sumWhere_perm {l l' : List α} (h : l.Perm l') : sumWhere w p l = sumWhere w p l' :=
  ((h.filter _).map w).sum_eq

variable {p q}

theorem sumWhere_congr {l : List α} (h : ∀ x ∈ l, (p x ↔ q x)) :
    sumWhere w p l = sumWhere w q l := by
  have hfilter : l.filter (fun x => decide (p x)) = l.filter (fun x => decide (q x)) :=
    List.filter_congr fun x hx => by simp [h x hx]
  rw [sumWhere, hfilter, sumWhere]

theorem sumWhere_of_forall_not {l : List α} (h : ∀ x ∈ l, ¬ p x) : sumWhere w p l = 0 := by
  unfold sumWhere
  rw [List.filter_eq_nil_iff.mpr fun x hx => by simpa using h x hx]
  rfl

/-- Disjoint selections add up. -/
theorem sumWhere_or {l : List α} (h : ∀ x ∈ l, ¬ (p x ∧ q x)) :
    sumWhere w (fun x => p x ∨ q x) l = sumWhere w p l + sumWhere w q l := by
  induction l with
  | nil => simp
  | cons x l ih =>
      have hx := h x List.mem_cons_self
      rw [sumWhere_cons, sumWhere_cons, sumWhere_cons,
        ih fun y hy => h y (List.mem_cons_of_mem x hy)]
      by_cases hp : p x <;> by_cases hq : q x
      · exact absurd ⟨hp, hq⟩ hx
      · simp [hp, hq, add_assoc]
      · simp [hp, hq, add_left_comm]
      · simp [hp, hq]

end SumWhere

/-! ## Sums by key -/

/-- A sum over a list, taken key by key. -/
theorem sum_count_mul [DecidableEq κ] (f : κ → ℕ) {keys xs : List κ} (hnodup : keys.Nodup)
    (hsub : ∀ x ∈ xs, x ∈ keys) :
    (keys.map (fun k => xs.count k * f k)).sum = (xs.map f).sum := by
  induction xs with
  | nil => simp
  | cons x xs ih =>
      obtain ⟨hx, hxs⟩ := List.forall_mem_cons.mp hsub
      have hone : (keys.map (fun k => if k = x then f k else 0)).sum = f x := by
        rw [List.sum_map_eq_nsmul_single x _ (fun k hk _ => if_neg hk), if_pos rfl,
          hnodup.count, if_pos hx, one_nsmul]
      rw [List.map_cons, List.sum_cons, ← ih hxs, ← hone, ← List.sum_map_add]
      refine congrArg List.sum (List.map_congr_left fun k _ => ?_)
      by_cases hk : k = x
      · rw [hk, List.count_cons_self, if_pos rfl, Nat.add_mul, Nat.one_mul, Nat.add_comm]
      · rw [List.count_cons_of_ne (Ne.symm hk), if_neg hk, Nat.zero_add]

/-! ## Prefixes of a sorted list -/

section Sorted

variable [LinearOrder κ] {key : α → κ} {l : List α}

/-- In a list sorted by `key`, the members before the first key that reaches `v`
are those whose key lies below `v`. -/
theorem take_findIdx_eq_filter (hs : l.Pairwise (fun x y => key x ≤ key y)) (v : κ) :
    l.take (l.findIdx (fun x => decide (v ≤ key x))) =
      l.filter (fun x => decide (key x < v)) := by
  induction l with
  | nil => rfl
  | cons x l ih =>
      obtain ⟨hx, hs⟩ := List.pairwise_cons.mp hs
      by_cases hv : v ≤ key x
      · have hnone : l.filter (fun y => decide (key y < v)) = [] :=
          List.filter_eq_nil_iff.mpr fun y hy => by
            simpa using hv.trans (hx y hy)
        simp [List.findIdx_cons, hv, not_lt_of_ge hv, hnone]
      · simp [List.findIdx_cons, hv, lt_of_not_ge hv, ih hs]

theorem findIdx_eq_zero_iff (v : κ) (hne : l ≠ [])
    (hs : l.Pairwise (fun x y => key x ≤ key y)) :
    l.findIdx (fun x => decide (v ≤ key x)) = 0 ↔ ∀ x ∈ l, v ≤ key x := by
  obtain ⟨x, l, rfl⟩ := List.exists_cons_of_ne_nil hne
  have hx := (List.pairwise_cons.mp hs).1
  by_cases hv : v ≤ key x
  · simp only [List.findIdx_cons, hv, decide_true, cond_true, List.mem_cons, forall_eq_or_imp,
      true_and, true_iff]
    exact fun y hy => hv.trans (hx y hy)
  · simp [List.findIdx_cons, hv]

/-- The sum over the prefix before the first key that reaches `v`. -/
theorem sum_take_findIdx [AddCommMonoid M] (w : α → M)
    (hs : l.Pairwise (fun x y => key x ≤ key y)) (v : κ) :
    ((l.take (l.findIdx (fun x => decide (v ≤ key x)))).map w).sum =
      sumWhere w (fun x => key x < v) l := by
  rw [take_findIdx_eq_filter hs]
  rfl

end Sorted

end CProfiler.Foundation
