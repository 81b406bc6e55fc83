import Mathlib.Data.List.Basic
import Mathlib.Order.Lattice

/-! Loops over sorted things that write a section whenever the key changes and at the end. If the
order tells the keys apart, each key gets one section, with all that has the key. -/

namespace CProfiler.Foundation

variable {α κ β ω : Type*} [DecidableEq κ]

/-- The sections, from the key of the last thing and what has come since the key changed. -/
def breakOn (key : α → κ) (emit : κ → List α → List β) : κ → List α → List α → List β
  | k, group, [] => emit k group
  | k, group, x :: xs =>
      if key x = k then breakOn key emit k (group ++ [x]) xs
      else emit k group ++ breakOn key emit (key x) [x] xs

variable {key : α → κ} {emit : κ → List α → List β} [LinearOrder ω] {rank : κ → ω}

/-- What all has one key is left whole by that key, and out by another. -/
theorem filter_of_key {k : κ} {group : List α} (h : ∀ x ∈ group, key x = k) (k' : κ) :
    group.filter (fun x => key x = k') = if k = k' then group else [] := by
  by_cases hk : k = k'
  · rw [if_pos hk]
    exact List.filter_eq_self.mpr fun x hx => decide_eq_true ((h x hx).trans hk)
  · rw [if_neg hk]
    refine List.filter_eq_nil_iff.mpr fun x hx heq => hk ?_
    exact (h x hx).symm.trans (of_decide_eq_true heq)

variable (key rank) in
/-- The order of the keys tells apart those that occur. -/
def Separates (l : List α) : Prop :=
  ∀ x ∈ l, ∀ y ∈ l, rank (key x) = rank (key y) → key x = key y

/-- Inside a group. -/
theorem breakOn_group (l : List α) :
    ∀ (k : κ) (group : List α), group ≠ [] → (∀ x ∈ group, key x = k) →
      Separates key rank (group ++ l) →
      (group ++ l).Pairwise (fun x y => rank (key x) ≤ rank (key y)) →
        ∃ keys : List κ, keys.Pairwise (fun a b => rank a < rank b) ∧
          (∀ k', k' ∈ keys ↔ ∃ x ∈ group ++ l, key x = k') ∧
          breakOn key emit k group l =
            keys.flatMap (fun k' => emit k' ((group ++ l).filter (fun x => key x = k'))) := by
  induction l with
  | nil =>
      intro k group hne hgroup _ _
      refine ⟨[k], List.pairwise_singleton _ k, fun k' => ?_, ?_⟩
      · rw [List.append_nil, List.mem_singleton]
        refine ⟨fun h => ?_, fun h => ?_⟩
        · rcases List.exists_mem_of_ne_nil group hne with ⟨x, hx⟩
          exact ⟨x, hx, (hgroup x hx).trans h.symm⟩
        · rcases h with ⟨x, hx, rfl⟩
          exact hgroup x hx
      · rw [List.append_nil, List.flatMap_singleton, filter_of_key hgroup, if_pos rfl, breakOn]
  | cons x xs ih =>
      intro k group hne hgroup hinj hsorted
      by_cases hx : key x = k
      · have happend : group ++ x :: xs = (group ++ [x]) ++ xs := by simp
        have hsame : ∀ y ∈ group ++ [x], key y = k := by
          intro y hy
          rcases List.mem_append.mp hy with hy | hy
          · exact hgroup y hy
          · rw [List.mem_singleton.mp hy, hx]
        rw [breakOn, if_pos hx, happend]
        exact ih k _ (by simp) hsame (happend ▸ hinj) (happend ▸ hsorted)
      · rcases List.pairwise_append.mp hsorted with ⟨_, hrest, hbetween⟩
        rcases List.exists_mem_of_ne_nil group hne with ⟨y, hy⟩
        -- the keys behind the break lie above that of the group
        have habove : ∀ z ∈ x :: xs, rank k < rank (key z) := by
          have hfirst : rank k < rank (key x) := by
            have hle := hbetween y hy x List.mem_cons_self
            have hne := hinj y (List.mem_append_left _ hy) x
              (List.mem_append_right _ List.mem_cons_self)
            rw [hgroup y hy] at hle hne
            exact lt_of_le_of_ne hle fun heq => hx (hne heq).symm
          intro z hz
          rcases List.mem_cons.mp hz with rfl | hz
          · exact hfirst
          · exact hfirst.trans_le ((List.pairwise_cons.mp hrest).1 z hz)
        have hinj' : Separates key rank (x :: xs) := fun z hz z' hz' =>
          hinj z (List.mem_append_right _ hz) z' (List.mem_append_right _ hz')
        rcases ih (key x) [x] (List.cons_ne_nil x []) (by simp) hinj' hrest with
          ⟨keys, hkeys, hmem, heq⟩
        have hlater : ∀ k' ∈ keys, rank k < rank k' := by
          intro k' hk'
          rcases (hmem k').mp hk' with ⟨z, hz, rfl⟩
          exact habove z hz
        refine ⟨k :: keys, List.pairwise_cons.mpr ⟨hlater, hkeys⟩, fun k' => ?_, ?_⟩
        · rw [List.mem_cons, hmem k']
          refine ⟨fun h => ?_, fun h => ?_⟩
          · rcases h with rfl | h
            · exact ⟨y, List.mem_append_left _ hy, hgroup y hy⟩
            · rcases h with ⟨z, hz, hk'⟩
              exact ⟨z, List.mem_append_right _ hz, hk'⟩
          · rcases h with ⟨z, hz, rfl⟩
            rcases List.mem_append.mp hz with hz | hz
            · exact .inl (hgroup z hz)
            · exact .inr ⟨z, hz, rfl⟩
        · have hnone : (x :: xs).filter (fun z => key z = k) = [] :=
            List.filter_eq_nil_iff.mpr fun z hz hk =>
              (habove z hz).ne (congrArg rank (of_decide_eq_true hk)).symm
          rw [breakOn, if_neg hx, heq, List.flatMap_cons, List.filter_append, hnone,
            List.append_nil, filter_of_key hgroup, if_pos rfl]
          congr 1
          refine List.flatMap_congr fun k' hk' => ?_
          rw [List.filter_append group, filter_of_key hgroup,
            if_neg fun h => (hlater k' hk').ne (congrArg rank h), List.nil_append]
          rfl

/-- From a key that has no section without anything in it. -/
theorem breakOn_eq {l : List α} {k : κ} (hstart : emit k [] = [])
    (hinj : Separates key rank l) (hsorted : l.Pairwise (fun x y => rank (key x) ≤ rank (key y))) :
    ∃ keys : List κ, keys.Pairwise (fun a b => rank a < rank b) ∧
      (∀ k', k' ∈ keys ↔ ∃ x ∈ l, key x = k') ∧
      breakOn key emit k [] l = keys.flatMap (fun k' => emit k' (l.filter (fun x => key x = k'))) :=
  by
  cases l with
  | nil => exact ⟨[], List.Pairwise.nil, by simp, hstart⟩
  | cons x xs =>
      have hfirst : breakOn key emit k [] (x :: xs) = breakOn key emit (key x) [x] xs := by
        rw [breakOn]
        by_cases hx : key x = k
        · rw [if_pos hx, hx, List.nil_append]
        · rw [if_neg hx, hstart, List.nil_append]
      rw [hfirst]
      exact breakOn_group xs (key x) [x] (List.cons_ne_nil x []) (by simp) hinj hsorted

end CProfiler.Foundation
