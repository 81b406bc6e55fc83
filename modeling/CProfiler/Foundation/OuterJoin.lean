import Mathlib.Algebra.BigOperators.Group.List.Lemmas
import Mathlib.Algebra.BigOperators.Group.List.Basic
import Mathlib.Data.Multiset.Bind
import Mathlib.Tactic.Abel

/-! Full outer joins of two lists over an arbitrary matching relation. A join is
compared with its left list through a function that cannot tell a pair from its
left half: what the join adds is the repeated elements and the unmatched ones of
the right list. -/

namespace CProfiler.Foundation

variable {α β γ : Type*} (meets : α → β → Bool) (pair : α → β → γ) (left : α → γ) (right : β → γ)

def partners (ys : List β) (x : α) : List β :=
  ys.filter (meets x)

/-- The elements of `ys` that no element of `xs` meets. -/
def lonely (xs : List α) (ys : List β) : List β :=
  ys.filter (fun y => xs.all (fun x => !meets x y))

def matchedPairs (xs : List α) (ys : List β) : List γ :=
  xs.flatMap (fun x => (partners meets ys x).map (pair x))

/-- The pairs of a left element, or the element by itself where it has none. -/
def joinedWith (ys : List β) (x : α) : List γ :=
  match partners meets ys x with
  | [] => [left x]
  | ps => ps.map (pair x)

def outerJoin (xs : List α) (ys : List β) : List γ :=
  xs.flatMap (joinedWith meets pair left ys) ++ (lonely meets xs ys).map right

section Membership

variable {meets} {xs : List α} {ys : List β}

@[simp] theorem mem_partners {x : α} {y : β} :
    y ∈ partners meets ys x ↔ y ∈ ys ∧ meets x y = true := by
  simp [partners]

@[simp] theorem mem_lonely {y : β} :
    y ∈ lonely meets xs ys ↔ y ∈ ys ∧ ∀ x ∈ xs, meets x y = false := by
  simp [lonely]

theorem partners_eq_nil {x : α} :
    partners meets ys x = [] ↔ ∀ y ∈ ys, meets x y = false := by
  simp [partners]

theorem mem_lonely_flip {x : α} :
    x ∈ lonely (flip meets) ys xs ↔ x ∈ xs ∧ partners meets ys x = [] := by
  simp [partners_eq_nil, flip]

end Membership

/-- The order of the join's elements aside, it is the matched pairs and the
unmatched elements of either list. -/
theorem outerJoin_perm_parts (xs : List α) (ys : List β) :
    (outerJoin meets pair left right xs ys).Perm
      (matchedPairs meets pair xs ys ++
        ((lonely (flip meets) ys xs).map left ++ (lonely meets xs ys).map right)) := by
  unfold outerJoin
  rw [← List.append_assoc]
  apply List.Perm.append_right
  -- the right list is fixed while the left one is taken apart
  suffices h : ∀ zs : List α,
      (zs.flatMap (joinedWith meets pair left ys)).Perm
        (zs.flatMap (fun x => (partners meets ys x).map (pair x)) ++
          (zs.filter (fun x => ys.all (fun y => !meets x y))).map left) from h xs
  intro zs
  induction zs with
  | nil => simp
  | cons z zs ih =>
      cases hz : partners meets ys z with
      | nil =>
          have hall : ys.all (fun y => !meets z y) = true := by
            have h := partners_eq_nil.mp hz
            simpa using h
          simp only [List.flatMap_cons, joinedWith, hz, List.map_nil, List.nil_append,
            List.filter_cons, hall, if_true, List.map_cons, List.singleton_append]
          exact (List.Perm.cons (left z) ih).trans List.perm_middle.symm
      | cons p ps =>
          have hall : ys.all (fun y => !meets z y) = false := by
            have hp : p ∈ partners meets ys z := by simp [hz]
            have hp := mem_partners.mp hp
            apply Bool.eq_false_iff.mpr
            intro h
            have := List.all_eq_true.mp h p hp.1
            simp [hp.2] at this
          simp only [List.flatMap_cons, joinedWith, hz, List.filter_cons, hall, Bool.false_eq_true,
            if_false, List.append_assoc]
          exact List.Perm.append_left _ ih

theorem matchedPairs_flip_perm (xs : List α) (ys : List β) :
    (matchedPairs meets pair xs ys).Perm (matchedPairs (flip meets) (flip pair) ys xs) := by
  have hfilter (x : α) : (partners meets ys x).map (pair x) =
      ys.flatMap (fun y => if meets x y then [pair x y] else []) := by
    induction ys with
    | nil => rfl
    | cons y ys ih =>
        by_cases h : meets x y
        · simpa [partners, h] using ih
        · simpa [partners, h] using ih
  have hflip (y : β) : (partners (flip meets) xs y).map (flip pair y) =
      xs.flatMap (fun x => if meets x y then [pair x y] else []) := by
    induction xs with
    | nil => rfl
    | cons x xs ih =>
        by_cases h : meets x y
        · simpa [partners, flip, h] using ih
        · simpa [partners, flip, h] using ih
  unfold matchedPairs
  simp only [hfilter, hflip]
  apply Multiset.coe_eq_coe.mp
  simpa using Multiset.bind_bind (xs : Multiset α) (ys : Multiset β)
    (f := fun x y => ((if meets x y then [pair x y] else [] : List γ) : Multiset γ))

/-- Either list may be taken as the left one. -/
theorem outerJoin_flip_perm (xs : List α) (ys : List β) :
    (outerJoin meets pair left right xs ys).Perm
      (outerJoin (flip meets) (flip pair) right left ys xs) := by
  apply (outerJoin_perm_parts meets pair left right xs ys).trans
  apply List.Perm.trans _ (outerJoin_perm_parts (flip meets) (flip pair) right left ys xs).symm
  apply (matchedPairs_flip_perm meets pair xs ys).append
  exact List.perm_append_comm

/-- An element of the join has a left half, or is unmatched on the right. -/
theorem mem_outerJoin {xs : List α} {ys : List β} {z : γ} :
    z ∈ outerJoin meets pair left right xs ys ↔
      (∃ x ∈ xs, ∃ y ∈ ys, meets x y = true ∧ z = pair x y) ∨
        (∃ x ∈ xs, partners meets ys x = [] ∧ z = left x) ∨
          ∃ y ∈ lonely meets xs ys, z = right y := by
  rw [(outerJoin_perm_parts meets pair left right xs ys).mem_iff]
  simp only [matchedPairs, List.mem_append, List.mem_flatMap, List.mem_map, mem_partners,
    mem_lonely_flip, and_assoc, eq_comm (a := z)]

section Sums

variable {M : Type*} [AddCommMonoid M]

/-- What the join adds to a sum over its left list: the copies of an element
beyond its first, and the unmatched elements of the right list. -/
def surplus (xs : List α) (ys : List β) (ofLeft : α → M) (ofRight : β → M) : M :=
  (xs.map (fun x => ((partners meets ys x).length - 1) • ofLeft x)).sum +
    ((lonely meets xs ys).map ofRight).sum

private theorem sum_joinedWith {ys : List β} {x : α} {total : γ → M} {v : M}
    (hpair : ∀ y ∈ ys, meets x y = true → total (pair x y) = v) (hleft : total (left x) = v) :
    ((joinedWith meets pair left ys x).map total).sum =
      v + ((partners meets ys x).length - 1) • v := by
  unfold joinedWith
  cases hp : partners meets ys x with
  | nil => simp [hleft]
  | cons p ps =>
      have hconst : ((p :: ps).map (pair x)).map total = List.replicate (ps.length + 1) v := by
        apply List.eq_replicate_iff.mpr
        constructor
        · simp
        · intro w hw
          simp only [List.map_map, List.mem_map, Function.comp_apply] at hw
          obtain ⟨y, hy, rfl⟩ := hw
          have hy : y ∈ partners meets ys x := by simpa [hp] using hy
          exact hpair y (mem_partners.mp hy).1 (mem_partners.mp hy).2
      simp only [hconst, List.sum_replicate, List.length_cons, Nat.add_sub_cancel]
      exact succ_nsmul' v ps.length

theorem sum_outerJoin {xs : List α} {ys : List β} {total : γ → M} {ofLeft : α → M}
    {ofRight : β → M} (hpair : ∀ x ∈ xs, ∀ y ∈ ys, meets x y = true → total (pair x y) = ofLeft x)
    (hleft : ∀ x ∈ xs, total (left x) = ofLeft x)
    (hright : ∀ y ∈ ys, total (right y) = ofRight y) :
    ((outerJoin meets pair left right xs ys).map total).sum =
      (xs.map ofLeft).sum + surplus meets xs ys ofLeft ofRight := by
  have htail : (lonely meets xs ys).map (fun y => total (right y)) =
      (lonely meets xs ys).map ofRight := by
    apply List.map_congr_left
    intro y hy
    exact hright y (mem_lonely.mp hy).1
  have hhead : ((xs.flatMap (joinedWith meets pair left ys)).map total).sum =
      (xs.map ofLeft).sum +
        (xs.map (fun x => ((partners meets ys x).length - 1) • ofLeft x)).sum := by
    clear htail hright
    induction xs with
    | nil => simp
    | cons x xs ih =>
        have hx := sum_joinedWith meets pair left (hpair x (by simp)) (hleft x (by simp))
        have ih := ih (fun w hw => hpair w (by simp [hw])) (fun w hw => hleft w (by simp [hw]))
        simp only [List.flatMap_cons, List.map_append, List.sum_append, List.map_cons,
          List.sum_cons, hx, ih]
        abel
  unfold outerJoin surplus
  rw [List.map_append, List.sum_append, hhead, List.map_map]
  simp only [Function.comp_def, htail, add_assoc]

end Sums

end CProfiler.Foundation
