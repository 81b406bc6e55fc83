import CProfiler.Verification.Headers.Painting

/-! The cells that are painted section by section tile the header. -/

namespace CProfiler.Headers

open Foundation Foundation.Rose Model Model.HeaderView

section Tiles

variable {σ : Type} {header : QStandardItemModel} {hv : View σ} {o : Orientation}
  {offset depth : ℤ} {p q : List ℕ} {j k : ℕ}

/-! ## The whole header -/

/-- A cell as it is painted for one of the sections. -/
def Painted (header : QStandardItemModel) (hv : View σ) (o : Orientation) (offset depth : ℤ)
    (cell : List ℕ × Rect) : Prop :=
  ∃ k < (leafPositions header).length, ∃ cells,
    paintSection header hv o (sectionRect hv o offset depth k) k = .ok cells ∧ cell ∈ cells

/-- What the sections of a header take together, one for each leaf. -/
def headerRect (header : QStandardItemModel) (hv : View σ) (o : Orientation)
    (offset depth : ℤ) : Rect :=
  o.rect offset 0 (sectionPosition hv (leafPositions header).length) depth

def alongOf : Orientation → ℤ → ℤ → ℤ
  | .horizontal, x, _ => x
  | .vertical, _, y => y

def acrossOf : Orientation → ℤ → ℤ → ℤ
  | .horizontal, _, y => y
  | .vertical, x, _ => x

theorem contains_rect {along across length x y : ℤ} :
    (o.rect along across length depth).Contains x y ↔
      (along ≤ alongOf o x y ∧ alongOf o x y < along + length) ∧
        across ≤ acrossOf o x y ∧ acrossOf o x y < across + depth := by
  cases o with
  | horizontal => simp only [Orientation.rect, Rect.Contains, alongOf, acrossOf, and_assoc]
  | vertical =>
      simp only [Orientation.rect, Rect.Contains, alongOf, acrossOf]
      tauto

theorem sectionRect_isValid {x y : ℤ} (h : (sectionRect hv o offset depth k).Contains x y) :
    (sectionRect hv o offset depth k).isValid = true := by
  rcases h with ⟨hleft, hright, htop, hbottom⟩
  rw [Rect.isValid, Bool.and_eq_true, decide_eq_true_iff, decide_eq_true_iff]
  omega

/-- Painted is a cell above the leaf of a section, in the rectangle of the cell. -/
theorem Painted.elim (hstyle : SameDecorations hv o) {cell : List ℕ × Rect}
    (h : Painted header hv o offset depth cell) :
    cell.1 ≠ [] ∧ cell.2 = cellRect header hv o offset depth cell.1 := by
  rcases h with ⟨k, hk, cells, hpaint, hcell⟩
  have hleaf : (leafPositions header)[k]? = some (leafPositions header)[k] :=
    List.getElem?_eq_getElem hk
  by_cases hvalid : (sectionRect hv o offset depth k).isValid = true
  · rw [paintSection_eq hstyle hleaf hvalid] at hpaint
    rw [← Except.ok.inj hpaint] at hcell
    rcases List.mem_map.mp hcell with ⟨q, hq, rfl⟩
    exact ⟨(mem_parentIndexes_iff_begins.mp hq).1, rfl⟩
  · rw [paintSection, if_neg hvalid] at hpaint
    rw [← Except.ok.inj hpaint] at hcell
    exact absurd hcell List.not_mem_nil

/-- Above a section and a stair on the way to its leaf stands the cell of that stair. -/
theorem cellRect_contains_iff {x y : ℤ} (hq : q ≠ []) (hk : (leafPositions header)[k]? = some p)
    (hrises : Rises (stairs hv o depth p))
    (halong : sectionPosition hv k ≤ alongOf o x y - offset ∧
      alongOf o x y - offset < sectionPosition hv (k + 1))
    (hacross : stairs hv o depth p j ≤ acrossOf o x y ∧
      acrossOf o x y < stairs hv o depth p (j + 1)) (hj : j < p.length) :
    (cellRect header hv o offset depth q).Contains x y ↔ q = p.take (j + 1) := by
  have htogether := together_leafPositions q header
  have hspan := (rises_sectionPosition hv).span_iff
    (a := firstBelow q (leafPositions header)) (b := endBelow q (leafPositions header)) halong
  rw [endBelow, ← htogether.prefix_iff hk, ← endBelow] at hspan
  have halong' : (offset + sectionPosition hv (firstBelow q (leafPositions header)) ≤
        alongOf o x y ∧ alongOf o x y <
      offset + sectionPosition hv (firstBelow q (leafPositions header)) +
        (sectionPosition hv (endBelow q (leafPositions header)) -
          sectionPosition hv (firstBelow q (leafPositions header)))) ↔ q <+: p := by
    rw [← hspan]
    omega
  by_cases hbegins : q <+: p
  · rcases mem_parentIndexes.mp (mem_parentIndexes_iff_begins.mpr ⟨hq, hbegins⟩) with
      ⟨i, hi, rfl⟩
    rw [cellRect_take hk hi, contains_rect, halong', add_sub_cancel]
    refine ⟨fun h => ?_, fun h => ?_⟩
    · rw [hrises.step_unique h.2 hacross]
    · have hij := congrArg List.length h
      rw [List.length_take, List.length_take] at hij
      have heq : i = j := by omega
      rw [heq]
      exact ⟨List.take_prefix _ _, hacross⟩
  · refine ⟨fun h => ?_, fun h => absurd ?_ hbegins⟩
    · rw [cellRect, contains_rect, halong'] at h
      exact absurd h.1 hbegins
    · rw [h]
      exact List.take_prefix _ _

/-- Where no cell has a negative depth and the header is as deep as its sections ask for, the
cells tile it: each point lies in the rectangle of one painted cell. -/
theorem paintSection_tiles (header : QStandardItemModel) (hv : View σ) (o : Orientation)
    {offset depth : ℤ} (hstyle : SameDecorations hv o)
    (hcell : ∀ q st, 0 ≤ o.across (cellSize hv q st))
    (hroom : ∀ (k : ℕ) size, sectionSizeFromContents header hv o k = some size →
      o.across size ≤ depth)
    {x y : ℤ} (hpoint : (headerRect header hv o offset depth).Contains x y) :
    ∃! cell, Painted header hv o offset depth cell ∧ cell.2.Contains x y := by
  rcases contains_rect.mp hpoint with ⟨halong, hacross⟩
  obtain ⟨k, hk, hsection⟩ : ∃ k < (leafPositions header).length,
      sectionPosition hv k ≤ alongOf o x y - offset ∧
        alongOf o x y - offset < sectionPosition hv (k + 1) :=
    exists_step (by rw [sectionPosition]; omega) (by omega)
  have hleaf : (leafPositions header)[k]? = some (leafPositions header)[k] :=
    List.getElem?_eq_getElem hk
  generalize (leafPositions header)[k] = p at hleaf
  have hpos : 0 < p.length :=
    List.length_pos_iff.mpr (childrenAt_of_mem (List.mem_of_getElem? hleaf)).1
  have hrises : Rises (stairs hv o depth p) := by
    rcases across_sectionSizeFromContents hstyle hleaf with ⟨size, hsize, hsum⟩
    have hfits := hroom k size hsize
    have hown : 0 ≤ depthOf hv o p := hcell p _
    exact rises_stairs (fun q => hcell q _) (by omega)
  have hfirst : stairs hv o depth p 0 = 0 := by
    rw [stairs, if_pos hpos]
    rfl
  have hlast : stairs hv o depth p p.length = depth := by
    rw [stairs, if_neg (lt_irrefl _)]
  obtain ⟨j, hj, hstair⟩ : ∃ j < p.length, stairs hv o depth p j ≤ acrossOf o x y ∧
      acrossOf o x y < stairs hv o depth p (j + 1) :=
    exists_step (by rw [hfirst]; exact hacross.1) (by rw [hlast]; omega)
  have hvalid : (sectionRect hv o offset depth k).isValid = true := by
    refine sectionRect_isValid (x := x) (y := y) (contains_rect.mpr ⟨?_, hacross⟩)
    rw [sectionPosition] at hsection
    omega
  have hne : p.take (j + 1) ≠ [] := by
    rw [Ne, List.take_eq_nil_iff, not_or]
    exact ⟨Nat.succ_ne_zero j, List.ne_nil_of_length_pos hpos⟩
  refine ⟨(p.take (j + 1), cellRect header hv o offset depth (p.take (j + 1))), ⟨⟨k, hk, _,
    paintSection_eq hstyle hleaf hvalid, List.mem_map_of_mem
      (mem_parentIndexes.mpr ⟨j, hj, rfl⟩)⟩, ?_⟩, fun cell hpainted => ?_⟩
  · exact (cellRect_contains_iff hne hleaf hrises hsection hstair hj).mpr rfl
  · rcases hpainted.1.elim hstyle with ⟨hq, hrect⟩
    have hcontains := hpainted.2
    rw [hrect] at hcontains
    have heq := (cellRect_contains_iff hq hleaf hrises hsection hstair hj).mp hcontains
    exact Prod.ext heq (hrect.trans (by rw [heq]))

end Tiles

/-- Three columns below one item. -/
def threeColumns : QStandardItemModel :=
  [.node ['m'] [.node ['a'] [], .node ['b'] [], .node ['c'] []]]

/-- A window 30 wide with sections of 10, and cells as deep as 7. -/
def narrowView : View Unit where
  sectionSize := fun _ => 10
  sectionViewportPosition := fun logicalIndex => 10 * logicalIndex
  isSectionHidden := fun _ => false
  viewport := ⟨30, 20⟩
  isRightToLeft := false
  styleOptionForCell := fun _ => ()
  withoutSortIndicator := fun _ => ()
  decorationsSize := fun _ => ⟨2, 7⟩
  sizeHint := fun _ => none
  textSize := fun _ => ⟨4, 5⟩
  emptyTextSize := fun _ => ⟨0, 5⟩
  rotated := fun _ => false

example : paintSection threeColumns narrowView .horizontal
    (sectionRect narrowView .horizontal 0 20 1) 1 =
      .ok [([0], ⟨0, 0, 30, 7⟩), ([0, 1], ⟨10, 7, 10, 13⟩)] := by
  rfl

theorem leafPositions_threeColumns : leafPositions threeColumns = [[0, 0], [0, 1], [0, 2]] := by
  simp [leafPositions, leafPositionsFrom, threeColumns]

theorem paintSection_tiles_threeColumns :
    ∃! cell, Painted threeColumns narrowView .horizontal 0 20 cell ∧ cell.2.Contains 13 4 := by
  refine paintSection_tiles threeColumns narrowView .horizontal (fun _ _ => rfl)
    (fun _ _ => Int.le_of_lt (by decide : (0 : ℤ) < 7)) (fun k size hsize => ?_)
    (by rw [headerRect, leafPositions_threeColumns]; decide)
  have hasked : ∀ k < 3, sectionSizeFromContents threeColumns narrowView .horizontal (k : ℕ) =
      some ⟨6, 14⟩ := by decide
  by_cases hk : k < 3
  · rw [Option.some.inj (hsize.symm.trans (hasked k hk))]
    decide
  · rw [sectionSizeFromContents, leafIndex_eq_getElem?, leafPositions_threeColumns,
      List.getElem?_eq_none (Nat.not_lt.mp hk)] at hsize
    cases hsize

end CProfiler.Headers
