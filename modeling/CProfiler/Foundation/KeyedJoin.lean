import CProfiler.Foundation.OuterJoin
import Mathlib.Data.List.Perm.Basic
import Mathlib.Data.List.Flatten

/-! Full outer joins of lists whose elements carry a key, where elements of one key
meet. A list is told, up to its order, by its groups of one key, and joining works
group by group: where joined elements keep their key and pairing is associative,
so is the join, and lists that commute with each other may be joined in any order. -/

namespace CProfiler.Foundation

variable {α β γ κ : Type*}

/-! ## Outer joins of permuted lists -/

section Permuted

variable (meets : α → β → Bool) (pair : α → β → γ) (left : α → γ) (right : β → γ)

theorem outerJoin_nil_left (ys : List β) :
    outerJoin meets pair left right [] ys = ys.map right := by
  simp [outerJoin, lonely]

theorem outerJoin_nil_right (xs : List α) :
    outerJoin meets pair left right xs [] = xs.map left := by
  unfold outerJoin
  simp only [lonely, List.filter_nil, List.map_nil, List.append_nil]
  induction xs with
  | nil => rfl
  | cons x xs ih => simp [joinedWith, partners, ih]

theorem outerJoin_perm_left {xs xs' : List α} (h : xs.Perm xs') (ys : List β) :
    (outerJoin meets pair left right xs ys).Perm (outerJoin meets pair left right xs' ys) := by
  have hlonely : lonely meets xs ys = lonely meets xs' ys := by
    apply List.filter_congr
    intro y _
    exact h.all_eq
  unfold outerJoin
  rw [hlonely]
  exact (h.flatMap_right _).append_right _

theorem outerJoin_perm_right (xs : List α) {ys ys' : List β} (h : ys.Perm ys') :
    (outerJoin meets pair left right xs ys).Perm (outerJoin meets pair left right xs ys') := by
  apply (outerJoin_flip_perm meets pair left right xs ys).trans
  apply (outerJoin_perm_left (flip meets) (flip pair) right left h xs).trans
  exact (outerJoin_flip_perm meets pair left right xs ys').symm

/-- Only the pairs of elements that meet matter. -/
theorem outerJoin_congr_pair {xs : List α} {ys : List β} {pair' : α → β → γ}
    (h : ∀ x ∈ xs, ∀ y ∈ ys, meets x y = true → pair x y = pair' x y) :
    outerJoin meets pair left right xs ys = outerJoin meets pair' left right xs ys := by
  unfold outerJoin
  congr 1
  apply List.flatMap_congr
  intro x hx
  have hpartners : (partners meets ys x).map (pair x) = (partners meets ys x).map (pair' x) := by
    apply List.map_congr_left
    intro y hy
    exact h x hx y (mem_partners.mp hy).1 (mem_partners.mp hy).2
  unfold joinedWith
  cases hp : partners meets ys x with
  | nil => rfl
  | cons y rest =>
      rw [hp] at hpartners
      exact hpartners

end Permuted

/-! ## Elements of one key -/

section Keyed

variable [DecidableEq κ] (key : γ → κ) (pair : γ → γ → γ)

/-- Elements meet when they have the same key. -/
def keyedJoin (xs ys : List γ) : List γ :=
  outerJoin (fun x y => key x = key y) pair id id xs ys

def ofKey (k : κ) (xs : List γ) : List γ :=
  xs.filter (fun x => key x = k)

/-- The join of two lists of one and the same key. -/
def pairAll (xs ys : List γ) : List γ :=
  if xs.isEmpty then ys else if ys.isEmpty then xs else xs.flatMap (fun x => ys.map (pair x))

theorem perm_of_ofKey_eq {xs ys : List γ} (h : ∀ k, ofKey key k xs = ofKey key k ys) :
    xs.Perm ys := by
  classical
  apply List.perm_iff_count.mpr
  intro x
  have hcount (zs : List γ) : (ofKey key (key x) zs).count x = zs.count x :=
    List.count_filter (by simp)
  rw [← hcount xs, ← hcount ys, h]

variable {key pair}

theorem partners_eq_ofKey (ys : List γ) (x : γ) :
    partners (fun x y => key x = key y) ys x = ofKey key (key x) ys := by
  unfold partners ofKey
  apply List.filter_congr
  intro y _
  simp [eq_comm]

theorem pairAll_of_ne_nil {xs ys : List γ} (hx : xs ≠ []) (hy : ys ≠ []) :
    pairAll pair xs ys = xs.flatMap (fun x => ys.map (pair x)) := by
  simp [pairAll, hx, hy]

@[simp] theorem pairAll_nil_left (ys : List γ) : pairAll pair [] ys = ys := by
  simp [pairAll]

@[simp] theorem pairAll_nil_right (xs : List γ) : pairAll pair xs [] = xs := by
  cases xs <;> simp [pairAll]

theorem pairAll_assoc (hassoc : ∀ x y z, pair (pair x y) z = pair x (pair y z))
    (xs ys zs : List γ) :
    pairAll pair (pairAll pair xs ys) zs = pairAll pair xs (pairAll pair ys zs) := by
  by_cases hx : xs = []
  · simp [hx]
  by_cases hy : ys = []
  · simp [hy]
  by_cases hz : zs = []
  · simp [hz]
  have hne {as bs : List γ} (ha : as ≠ []) (hb : bs ≠ []) :
      as.flatMap (fun a => bs.map (pair a)) ≠ [] := by
    cases as with
    | nil => exact absurd rfl ha
    | cons a as => simp [hb]
  rw [pairAll_of_ne_nil hx hy, pairAll_of_ne_nil hy hz, pairAll_of_ne_nil (hne hx hy) hz,
    pairAll_of_ne_nil hx (hne hy hz), List.flatMap_assoc]
  apply List.flatMap_congr
  intro x _
  have hpair (y : γ) : pair (pair x y) = fun z => pair x (pair y z) := funext (hassoc x y)
  simp only [List.map_flatMap, List.flatMap_map, List.map_map, Function.comp_def, hpair]

section Groups

theorem ofKey_lonely (k : κ) (xs ys : List γ) :
    ofKey key k (lonely (fun x y => key x = key y) xs ys) =
      if (ofKey key k xs).isEmpty then ofKey key k ys else [] := by
  split
  · rename_i hempty
    have hnone := List.filter_eq_nil_iff.mp (List.isEmpty_iff.mp hempty)
    unfold ofKey lonely
    rw [List.filter_filter]
    apply List.filter_congr
    intro y _
    by_cases hy : key y = k
    · simpa [hy] using hnone
    · simp [hy]
  · rename_i hsome
    obtain ⟨x, hx⟩ := List.exists_mem_of_ne_nil _ (fun h => hsome (List.isEmpty_iff.mpr h))
    obtain ⟨hx, hk⟩ := List.mem_filter.mp hx
    have hk : key x = k := of_decide_eq_true hk
    apply List.filter_eq_nil_iff.mpr
    intro y hy hky
    have hmiss : key x ≠ key y := of_decide_eq_false ((mem_lonely.mp hy).2 x hx)
    exact hmiss (hk.trans (of_decide_eq_true hky).symm)

theorem flatMap_ofKey_joinedWith (k : κ) (xs ys : List γ) :
    (ofKey key k xs).flatMap (joinedWith (fun x y => key x = key y) pair id ys) =
      if (ofKey key k ys).isEmpty then ofKey key k xs
      else (ofKey key k xs).flatMap (fun x => (ofKey key k ys).map (pair x)) := by
  have hpartners : ∀ x ∈ ofKey key k xs,
      partners (fun x y => key x = key y) ys x = ofKey key k ys := by
    intro x hx
    have hk : key x = k := of_decide_eq_true (List.mem_filter.mp hx).2
    rw [partners_eq_ofKey, hk]
  cases hys : ofKey key k ys with
  | nil =>
      rw [List.isEmpty_nil, if_pos rfl]
      conv_rhs => rw [← List.flatMap_singleton' (ofKey key k xs)]
      apply List.flatMap_congr
      intro x hx
      simp [joinedWith, hpartners x hx, hys]
  | cons y rest =>
      rw [if_neg (by simp)]
      apply List.flatMap_congr
      intro x hx
      simp only [joinedWith, hpartners x hx, hys]

variable (hkey : ∀ x y, key x = key y → key (pair x y) = key x)
include hkey

theorem key_of_mem_joinedWith {ys : List γ} {x z : γ}
    (hz : z ∈ joinedWith (fun x y => key x = key y) pair id ys x) : key z = key x := by
  unfold joinedWith at hz
  cases hp : partners (fun x y => key x = key y) ys x with
  | nil =>
      rw [hp] at hz
      exact congrArg key (List.mem_singleton.mp hz)
  | cons y rest =>
      rw [hp] at hz
      obtain ⟨w, hw, rfl⟩ := List.mem_map.mp hz
      rw [← hp] at hw
      exact hkey x w (of_decide_eq_true (mem_partners.mp hw).2)

/-- What joining makes of an element stays in the element's group. -/
theorem ofKey_flatMap_joinedWith (k : κ) (xs ys : List γ) :
    ofKey key k (xs.flatMap (joinedWith (fun x y => key x = key y) pair id ys)) =
      (ofKey key k xs).flatMap (joinedWith (fun x y => key x = key y) pair id ys) := by
  unfold ofKey
  induction xs with
  | nil => rfl
  | cons x xs ih =>
      rw [List.flatMap_cons, List.filter_append, ih]
      by_cases hx : key x = k
      · rw [List.filter_cons_of_pos (by simpa using hx), List.flatMap_cons]
        congr 1
        apply List.filter_eq_self.mpr
        intro z hz
        simpa [key_of_mem_joinedWith hkey hz] using hx
      · have hnone : (joinedWith (fun x y => key x = key y) pair id ys x).filter
            (fun z => key z = k) = [] := by
          apply List.filter_eq_nil_iff.mpr
          intro z hz
          simpa [key_of_mem_joinedWith hkey hz] using hx
        rw [List.filter_cons_of_neg (by simpa using hx), hnone, List.nil_append]

/-- Joining works group by group. -/
theorem ofKey_keyedJoin (k : κ) (xs ys : List γ) :
    ofKey key k (keyedJoin key pair xs ys) =
      pairAll pair (ofKey key k xs) (ofKey key k ys) := by
  have happend : ofKey key k (keyedJoin key pair xs ys) =
      ofKey key k (xs.flatMap (joinedWith (fun x y => key x = key y) pair id ys)) ++
        ofKey key k ((lonely (fun x y => key x = key y) xs ys).map id) :=
    List.filter_append _ _
  rw [happend, List.map_id, ofKey_flatMap_joinedWith hkey, flatMap_ofKey_joinedWith, ofKey_lonely]
  unfold pairAll
  cases ofKey key k xs <;> cases ofKey key k ys <;> simp

theorem keyedJoin_assoc (hassoc : ∀ x y z, pair (pair x y) z = pair x (pair y z))
    (xs ys zs : List γ) :
    (keyedJoin key pair (keyedJoin key pair xs ys) zs).Perm
      (keyedJoin key pair xs (keyedJoin key pair ys zs)) := by
  apply perm_of_ofKey_eq key
  intro k
  simp only [ofKey_keyedJoin hkey, pairAll_assoc hassoc]

end Groups

/-- Lists commute where the pairs of their elements do. -/
theorem keyedJoin_comm {xs ys : List γ}
    (hcomm : ∀ x ∈ xs, ∀ y ∈ ys, key x = key y → pair x y = pair y x) :
    (keyedJoin key pair xs ys).Perm (keyedJoin key pair ys xs) := by
  have hflip : (flip fun x y => decide (key x = key y)) = fun x y => decide (key x = key y) := by
    funext y x
    simp [flip, eq_comm]
  have hpair : outerJoin (fun x y => key x = key y) (flip pair) id id ys xs =
      outerJoin (fun x y => key x = key y) pair id id ys xs := by
    apply outerJoin_congr_pair
    intro y hy x hx hmeets
    exact hcomm x hx y hy (of_decide_eq_true hmeets).symm
  have hperm := outerJoin_flip_perm (fun x y => decide (key x = key y)) pair id id xs ys
  rw [hflip, hpair] at hperm
  exact hperm

theorem foldl_keyedJoin_perm_init {xs xs' : List γ} (h : xs.Perm xs') (ls : List (List γ)) :
    (ls.foldl (keyedJoin key pair) xs).Perm (ls.foldl (keyedJoin key pair) xs') := by
  induction ls generalizing xs xs' with
  | nil => exact h
  | cons ys ls ih => exact ih (outerJoin_perm_left _ _ _ _ h ys)

/-- Lists that commute with each other are joined to the same elements in any order. -/
theorem foldl_keyedJoin_perm (hkey : ∀ x y, key x = key y → key (pair x y) = key x)
    (hassoc : ∀ x y z, pair (pair x y) z = pair x (pair y z)) {ls ls' : List (List γ)}
    (h : ls.Perm ls')
    (hcomm : ∀ xs ∈ ls, ∀ ys ∈ ls, (keyedJoin key pair xs ys).Perm (keyedJoin key pair ys xs))
    (init : List γ) :
    (ls.foldl (keyedJoin key pair) init).Perm (ls'.foldl (keyedJoin key pair) init) := by
  induction h generalizing init with
  | nil => exact List.Perm.refl init
  | cons xs _ ih =>
      apply ih
      intro ys hys zs hzs
      exact hcomm ys (List.mem_cons_of_mem _ hys) zs (List.mem_cons_of_mem _ hzs)
  | swap xs ys ls =>
      simp only [List.foldl_cons]
      apply foldl_keyedJoin_perm_init
      apply (keyedJoin_assoc hkey hassoc init ys xs).trans
      apply List.Perm.trans _ (keyedJoin_assoc hkey hassoc init xs ys).symm
      exact outerJoin_perm_right _ _ _ _ init (hcomm ys (by simp) xs (by simp))
  | trans hfirst _ ih ih' =>
      apply (ih hcomm init).trans
      apply ih'
      intro xs hxs ys hys
      exact hcomm xs (hfirst.mem_iff.mpr hxs) ys (hfirst.mem_iff.mpr hys)

end Keyed

end CProfiler.Foundation
