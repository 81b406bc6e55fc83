import CProfiler.Foundation.LeafPositions
import CProfiler.Foundation.Staircases
import CProfiler.Model.HeaderView
import Mathlib.Tactic.Ring

/-! Where the cells of a header stand along its sections: a cell reaches from the first section
below it to the last, whichever section it is painted for. -/

namespace CProfiler.Headers

open Foundation Foundation.Rose Model Model.HeaderView

/-! ## The leaf of a section -/

/-- A search for the leaf `sectionIndex` over further leaves, after the leaf `n`. -/
def searched (sectionIndex n : ℤ) (leaves : List (List ℕ)) : Option (List ℕ) × ℤ :=
  if n < sectionIndex ∧ sectionIndex ≤ n + leaves.length then
    (leaves[(sectionIndex - n - 1).toNat]?, sectionIndex)
  else (none, n + leaves.length)

variable {sectionIndex n : ℤ}

theorem searched_map (f : List ℕ → List ℕ) (leaves : List (List ℕ)) :
    searched sectionIndex n (leaves.map f) =
      ((searched sectionIndex n leaves).1.map f, (searched sectionIndex n leaves).2) := by
  rw [searched, searched, List.length_map, List.getElem?_map]
  split_ifs <;> rfl

theorem searched_append (leaves leaves' : List (List ℕ)) :
    searched sectionIndex n (leaves ++ leaves') =
      match searched sectionIndex n leaves with
      | (some p, m) => (some p, m)
      | (none, m) => searched sectionIndex m leaves' := by
  rw [searched, searched, List.length_append]
  by_cases hfirst : n < sectionIndex ∧ sectionIndex ≤ n + leaves.length
  · have hlt : (sectionIndex - n - 1).toNat < leaves.length := by omega
    have hall : n < sectionIndex ∧ sectionIndex ≤ n + (leaves.length + leaves'.length : ℕ) := by
      omega
    rw [if_pos hfirst, if_pos hall, List.getElem?_append_left hlt,
      List.getElem?_eq_getElem hlt]
  · rw [if_neg hfirst]
    simp only [searched]
    by_cases hall : n < sectionIndex ∧ sectionIndex ≤ n + (leaves.length + leaves'.length : ℕ)
    · have hle : leaves.length ≤ (sectionIndex - n - 1).toNat := by omega
      have hsecond : n + leaves.length < sectionIndex ∧
          sectionIndex ≤ n + leaves.length + leaves'.length := by omega
      rw [if_pos hall, if_pos hsecond, List.getElem?_append_right hle]
      congr 2
      omega
    · have hsecond : ¬ (n + leaves.length < sectionIndex ∧
          sectionIndex ≤ n + leaves.length + leaves'.length) := by omega
      rw [if_neg hall, if_neg hsecond, Nat.cast_add, add_assoc]

theorem findLeaf_eq {a : PyStr} {cs : List QStandardItem}
    (hcs : ∀ n, findLeafAmong sectionIndex cs 0 n = searched sectionIndex n (leafPositions cs)) :
    findLeaf sectionIndex (.node a cs) n = searched sectionIndex n (leavesOf cs) := by
  cases cs with
  | nil =>
      rw [findLeaf, leavesOf, List.isEmpty_nil, if_pos rfl, searched, List.length_singleton]
      by_cases hat : n + 1 = sectionIndex
      · have hzero : (sectionIndex - n - 1).toNat = 0 := by omega
        have hmet : n < sectionIndex ∧ sectionIndex ≤ n + (1 : ℕ) := by omega
        rw [if_pos hat, if_pos hmet, hzero, hat]
        rfl
      · have hmiss : ¬ (n < sectionIndex ∧ sectionIndex ≤ n + (1 : ℕ)) := by omega
        rw [if_neg hat, if_neg hmiss]
        rfl
  | cons c cs =>
      rw [findLeaf, hcs, leavesOf, List.isEmpty_cons, if_neg Bool.false_ne_true]

theorem findLeafAmong_eq (forest : List QStandardItem) : ∀ (i : ℕ) (n : ℤ),
    findLeafAmong sectionIndex forest i n =
      searched sectionIndex n (leafPositionsFrom i forest) := by
  induction forest using Rose.forest_induction with
  | nil =>
      intro i n
      have hmiss : ¬ (n < sectionIndex ∧ sectionIndex ≤ n + (0 : ℕ)) := by omega
      rw [findLeafAmong, leafPositionsFrom_nil, searched, List.length_nil, if_neg hmiss,
        Nat.cast_zero, add_zero]
  | cons a cs rest ihcs ihrest =>
      intro i n
      rw [findLeafAmong, findLeaf_eq (ihcs 0), leafPositionsFrom_cons, searched_append,
        searched_map]
      rcases searched sectionIndex n (leavesOf cs) with ⟨_ | p, m⟩
      · exact ihrest (i + 1) m
      · rfl

/-- The leaf that is found for a section is that of its number. -/
theorem leafIndex_eq_getElem? (header : QStandardItemModel) (k : ℕ) :
    leafIndex header k = (leafPositions header)[k]? := by
  rw [leafIndex, findLeafAmong_eq, ← leafPositions, searched]
  split_ifs with h
  · have hk : ((k : ℤ) - -1 - 1).toNat = k := by omega
    rw [hk]
  · have hle : (leafPositions header).length ≤ k := by omega
    exact (List.getElem?_eq_none hle).symm

theorem leafIndex_of_neg (header : QStandardItemModel) {logicalIndex : ℤ} (h : logicalIndex < 0) :
    leafIndex header logicalIndex = none := by
  rw [leafIndex, findLeafAmong_eq, searched, if_neg (by omega)]

/-! ## The leaves below a cell -/

theorem searchLeafsAmong_eq (forest : List QStandardItem) : ∀ (i : ℕ) (position : List ℕ),
    searchLeafsAmong forest i position =
      (leafPositionsFrom i forest).map (position ++ ·) := by
  induction forest using Rose.forest_induction with
  | nil =>
      intro i position
      rw [searchLeafsAmong, leafPositionsFrom_nil]
      rfl
  | cons a cs rest ihcs ihrest =>
      intro i position
      have hitem : searchLeafs (.node a cs) (position ++ [i]) =
          (leavesOf cs).map (position ++ i :: ·) := by
        cases cs with
        | nil => rw [searchLeafs, leavesOf, List.isEmpty_nil, if_pos rfl]; rfl
        | cons c cs =>
            rw [searchLeafs, ihcs, leavesOf, List.isEmpty_cons, if_neg Bool.false_ne_true,
              leafPositions]
            simp only [List.append_assoc, List.singleton_append]
      rw [searchLeafsAmong, hitem, ihrest, leafPositionsFrom_cons, List.map_append, List.map_map]
      rfl

theorem leafs_eq {header cs : List QStandardItem} {q : List ℕ} (hq : q ≠ [])
    (hat : childrenAt header q = some cs) :
    leafs header q = (leafPositions cs).map (q ++ ·) := by
  rw [leafs, if_neg hq, hat, Option.getD_some, searchLeafsAmong_eq, leafPositions]

section Cell

variable {header : QStandardItemModel} {k : ℕ} {p q : List ℕ}

theorem ne_nil_of_leaf (hk : (leafPositions header)[k]? = some p) : header ≠ [] := by
  intro hnil
  rw [hnil, leafPositions, leafPositionsFrom_nil] at hk
  cases hk

/-- A leaf has no leaves below it but itself; another cell has the leaves of its children. -/
theorem leafs_cases (hk : (leafPositions header)[k]? = some p) (hq : q ≠ []) (hbegins : q <+: p) :
    (q = p ∧ leafs header q = [] ∧ leavesBelow q (leafPositions header) = [p]) ∨
      (q ≠ p ∧ leafs header q = leavesBelow q (leafPositions header)) := by
  have hleaf := (childrenAt_of_mem (List.mem_of_getElem? hk)).2
  rcases childrenAt_above hleaf hbegins with ⟨cs, hat, hend⟩
  have hbelow := leavesBelow_leafPositions (ne_nil_of_leaf hk) hat
  by_cases hqp : q = p
  · rw [hqp] at hat hbelow hq ⊢
    have hnil : cs = [] := Option.some.inj (hat.symm.trans hleaf)
    rw [hnil] at hat hbelow
    refine .inl ⟨rfl, ?_, ?_⟩
    · rw [leafs_eq hq hat, leafPositions, leafPositionsFrom_nil]
      rfl
    · rw [hbelow, leavesOf, List.isEmpty_nil, if_pos rfl, List.map_singleton, List.append_nil]
  · have hne : cs.isEmpty = false := by
      rw [List.isEmpty_eq_false_iff]
      exact fun hnil => hqp (hend hnil)
    refine .inr ⟨hqp, ?_⟩
    rw [leafs_eq hq hat, hbelow, leavesOf, hne, if_neg Bool.false_ne_true]

theorem firstBelow_leaf (hk : (leafPositions header)[k]? = some p)
    (hself : leavesBelow p (leafPositions header) = [p]) :
    firstBelow p (leafPositions header) = k := by
  have hbelow := (together_leafPositions p header).getElem?_leavesBelow hk List.prefix_rfl
  have hlt := (List.getElem?_eq_some_iff.mp hbelow.2).1
  rw [hself, List.length_singleton] at hlt
  omega

/-- Of a cell that is no leaf, the leaf of a section has the number of the section. -/
theorem indexIn_leavesBelow (hk : (leafPositions header)[k]? = some p) (hbegins : q <+: p) :
    indexIn (leavesBelow q (leafPositions header)) p =
      .ok (k - firstBelow q (leafPositions header)) := by
  have hat := ((together_leafPositions q header).getElem?_leavesBelow hk hbegins).2
  have hnodup : (leavesBelow q (leafPositions header)).Nodup :=
    (nodup_leafPositions header).filter _
  rcases List.getElem?_eq_some_iff.mp hat with ⟨hlt, hget⟩
  rw [indexIn, if_pos (List.mem_of_getElem? hat)]
  conv_lhs => rw [← hget]
  rw [hnodup.idxOf_getElem]

end Cell

/-! ## Positions of sections -/

section Positions

variable {σ : Type} (hv : View σ)

theorem rises_sectionPosition : Rises (sectionPosition hv) := by
  intro k
  rw [sectionPosition]
  omega

theorem foldl_widths (a n : ℕ) (width : ℤ) :
    (List.range n).foldl (fun (width : ℤ) (i : ℕ) => width + hv.sectionSize (a + i)) width =
      width + (sectionPosition hv (a + n) - sectionPosition hv a) := by
  induction n with
  | zero => simp
  | succ n ih =>
      rw [List.range_succ, List.foldl_append, ih, List.foldl_cons, List.foldl_nil, ← add_assoc,
        sectionPosition, Nat.cast_add]
      ring

theorem foldl_lefts (a n : ℕ) (left : ℤ) :
    (List.range n).reverse.foldl
        (fun (left : ℤ) (i : ℕ) => left - hv.sectionSize (a + i)) left =
      left - (sectionPosition hv (a + n) - sectionPosition hv a) := by
  induction n generalizing left with
  | zero => simp
  | succ n ih =>
      rw [List.range_succ, List.reverse_append, List.reverse_singleton, List.singleton_append,
        List.foldl_cons, ih, ← add_assoc, sectionPosition, Nat.cast_add]
      ring

variable {header : QStandardItemModel} {k : ℕ} {p q : List ℕ}

/-- The section after the last one below a cell. -/
def endBelow (q : List ℕ) (leaves : List (List ℕ)) : ℕ :=
  firstBelow q leaves + (leavesBelow q leaves).length

theorem currentCellLeft_eq (hk : (leafPositions header)[k]? = some p) (hq : q ≠ [])
    (hbegins : q <+: p) (left : ℤ) :
    currentCellLeft header hv q p k left = .ok (left - (sectionPosition hv k -
      sectionPosition hv (firstBelow q (leafPositions header)))) := by
  have hbelow := (together_leafPositions q header).getElem?_leavesBelow hk hbegins
  rcases leafs_cases hk hq hbegins with ⟨rfl, hnone, hself⟩ | ⟨_, hleafs⟩
  · rw [currentCellLeft, hnone, firstBelow_leaf hk hself, sub_self, sub_zero]
    rfl
  · have hpos : (leavesBelow q (leafPositions header)).length > 0 :=
      List.length_pos_of_mem (List.mem_of_getElem? hbelow.2)
    have hsection : (k : ℤ) - (k - firstBelow q (leafPositions header) : ℕ) =
        firstBelow q (leafPositions header) := by omega
    have hend : firstBelow q (leafPositions header) +
        (k - firstBelow q (leafPositions header)) = k := by omega
    rw [currentCellLeft, hleafs, if_pos hpos, indexIn_leavesBelow hk hbegins]
    simp only [bind, Except.bind, pure, Except.pure, hsection]
    rw [foldl_lefts, hend]

theorem currentCellWidth_eq (hk : (leafPositions header)[k]? = some p) (hq : q ≠ [])
    (hbegins : q <+: p) :
    currentCellWidth header hv q p k = .ok (sectionPosition hv
      (endBelow q (leafPositions header)) -
        sectionPosition hv (firstBelow q (leafPositions header))) := by
  have hbelow := (together_leafPositions q header).getElem?_leavesBelow hk hbegins
  rw [endBelow]
  rcases leafs_cases hk hq hbegins with ⟨rfl, hnone, hself⟩ | ⟨_, hleafs⟩
  · rw [currentCellWidth, hnone, hself, firstBelow_leaf hk hself, List.length_singleton,
      sectionPosition, add_sub_cancel_left]
    rfl
  · have hpos : (leavesBelow q (leafPositions header)).length ≠ 0 :=
      (List.length_pos_of_mem (List.mem_of_getElem? hbelow.2)).ne'
    have hsection : (k : ℤ) - (k - firstBelow q (leafPositions header) : ℕ) =
        firstBelow q (leafPositions header) := by omega
    rw [currentCellWidth, hleafs, if_neg hpos, indexIn_leavesBelow hk hbegins]
    simp only [bind, Except.bind, pure, Except.pure, hsection]
    rw [foldl_widths, zero_add]

end Positions

end CProfiler.Headers
