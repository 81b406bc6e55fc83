import CProfiler.Verification.Headers.HeaderTiles

/-! What is updated when a section gets another size. -/

namespace CProfiler.Headers

open Foundation Foundation.Rose Model Model.HeaderView

variable {σ : Type} {header : QStandardItemModel} {hv : View σ} {o : Orientation} {k i : ℕ}
  {p : List ℕ}

/-- The sections below the same item of the first level. -/
theorem sameRoot_iff (hk : (leafPositions header)[k]? = some p) (hi : i < k) :
    (leafIndex header i).map findRootIndex = some (findRootIndex p) ↔
      firstBelow (findRootIndex p) (leafPositions header) ≤ i := by
  have htogether := together_leafPositions (findRootIndex p) header
  have hroot : findRootIndex p <+: p := List.take_prefix _ _
  have hbetween := (htogether.prefix_iff hk).mp hroot
  have hlt : i < (leafPositions header).length :=
    hi.trans (List.getElem?_eq_some_iff.mp hk).1
  have hleaf : (leafPositions header)[i]? = some (leafPositions header)[i] :=
    List.getElem?_eq_getElem hlt
  have hbegins := htogether.prefix_iff hleaf
  generalize (leafPositions header)[i] = p' at hleaf hbegins
  have hlength : (findRootIndex p).length = 1 := by
    have hpos := List.length_pos_iff.mpr (childrenAt_of_mem (List.mem_of_getElem? hk)).1
    rw [findRootIndex, List.length_take]
    omega
  have hsame : findRootIndex p' = findRootIndex p ↔ findRootIndex p <+: p' := by
    rw [List.prefix_iff_eq_take, hlength]
    exact eq_comm
  rw [leafIndex_eq_getElem?, hleaf, Option.map_some, Option.some.injEq, hsame, hbegins]
  exact ⟨fun h => h.1, fun h => ⟨h, hi.trans hbetween.2⟩⟩

/-- A section whose leaf has no parent raises `ValueError`. Below an item of the first level the
sections to the left are updated, as far as the second one below the item. -/
theorem onSectionResized_spec (header : QStandardItemModel) (hv : View σ) (o : Orientation)
    (hvisible : hv.isSectionHidden k = false) (hp : leafIndex header k = some p) :
    (p.length = 1 → onSectionResized header hv o k = .error .valueError) ∧
      (p.length ≠ 1 → ∃ updates, onSectionResized header hv o k = .ok updates ∧
        ∀ r, r ∈ updates ↔ ∃ i : ℕ, i + 1 < k ∧
          (leafIndex header i).map findRootIndex = some (findRootIndex p) ∧
            r = updateRect hv o (i + 1 : ℕ)) := by
  have hk := (leafIndex_eq_getElem? header k).symm.trans hp
  have hroot : findRootIndex p <+: p := List.take_prefix _ _
  have hpos := List.length_pos_iff.mpr (childrenAt_of_mem (List.mem_of_getElem? hk)).1
  have hne : findRootIndex p ≠ [] := by
    rw [findRootIndex, Ne, List.take_eq_nil_iff, not_or]
    exact ⟨one_ne_zero, List.ne_nil_of_length_pos hpos⟩
  rw [onSectionResized, hvisible, if_neg Bool.false_ne_true, hp]
  rcases leafs_cases hk hne hroot with ⟨hself, hnone, _⟩ | ⟨hparent, hleafs⟩
  · have hone : p.length = 1 := by
      have hlength := congrArg List.length hself
      rw [findRootIndex, List.length_take] at hlength
      omega
    refine ⟨fun _ => ?_, fun h => absurd hone h⟩
    simp only [hnone]
    rfl
  · have hdeep : p.length ≠ 1 := by
      intro hone
      exact hparent (List.take_of_length_le hone.le)
    refine ⟨fun h => absurd h hdeep, fun _ => ?_⟩
    simp only [hleafs, indexIn_leavesBelow hk hroot]
    refine ⟨_, rfl, fun r => ?_⟩
    rw [List.mem_map]
    have hfirst := ((together_leafPositions (findRootIndex p) header).prefix_iff hk).mp hroot
    refine ⟨fun h => ?_, fun h => ?_⟩
    · rcases h with ⟨n, hn, rfl⟩
      have hlt := List.mem_range.mp hn
      refine ⟨k - n - 2, by omega, (sameRoot_iff hk (by omega)).mpr (by omega), ?_⟩
      congr 1
      omega
    · rcases h with ⟨i, hi, hsame, rfl⟩
      have hle := (sameRoot_iff hk (Nat.lt_of_succ_lt hi)).mp hsame
      refine ⟨k - i - 2, List.mem_range.mpr (by omega), ?_⟩
      congr 1
      omega

example : onSectionResized [.node ['a'] []] narrowView .horizontal 0 = .error .valueError := by
  rfl

theorem onSectionResized_spec_threeColumns :
    narrowView.isSectionHidden (2 : ℕ) = false ∧ leafIndex threeColumns (2 : ℕ) = some [0, 2] ∧
      ∃ updates, onSectionResized threeColumns narrowView .horizontal (2 : ℕ) = .ok updates ∧
        ∀ r, r ∈ updates ↔ ∃ i : ℕ, i + 1 < 2 ∧
          (leafIndex threeColumns i).map findRootIndex = some (findRootIndex [0, 2]) ∧
            r = updateRect narrowView .horizontal (i + 1 : ℕ) :=
  ⟨rfl, rfl, (onSectionResized_spec threeColumns narrowView .horizontal rfl rfl).2 (by decide)⟩

end CProfiler.Headers
