import CProfiler.Verification.Headers.CellSpans
import Mathlib.Data.List.Infix

/-! The cells that are painted for a section: a cell has one rectangle for all sections below it,
and the cells on the way to a leaf lie one behind the other. -/

namespace CProfiler.Headers

open Foundation Foundation.Rose Model Model.HeaderView

/-! ## Indexes on the way to a leaf -/

theorem getElem?_parentIndexes (p : List ℕ) (j : ℕ) :
    (parentIndexes p)[j]? = if j < p.length then some (p.take (j + 1)) else none := by
  rw [parentIndexes, List.getElem?_tail]
  split_ifs with hj
  · have hlt : j + 1 < p.inits.length := by
      rw [List.length_inits]
      omega
    rw [List.getElem?_eq_getElem hlt, List.getElem_inits]
  · refine List.getElem?_eq_none ?_
    rw [List.length_inits]
    omega

theorem length_parentIndexes (p : List ℕ) : (parentIndexes p).length = p.length := by
  rw [parentIndexes, List.length_tail, List.length_inits, Nat.add_sub_cancel]

theorem mem_parentIndexes {p q : List ℕ} :
    q ∈ parentIndexes p ↔ ∃ j < p.length, q = p.take (j + 1) := by
  rw [List.mem_iff_getElem?]
  refine exists_congr fun j => ?_
  rw [getElem?_parentIndexes]
  split_ifs with hj
  · simp only [Option.some.injEq, hj, true_and]
    exact eq_comm
  · simp only [hj, false_and]

theorem mem_parentIndexes_iff_begins {p q : List ℕ} :
    q ∈ parentIndexes p ↔ q ≠ [] ∧ q <+: p := by
  rw [mem_parentIndexes]
  refine ⟨fun h => ?_, fun h => ?_⟩
  · rcases h with ⟨j, hj, rfl⟩
    refine ⟨fun hnil => ?_, List.take_prefix _ _⟩
    have hlength := congrArg List.length hnil
    rw [List.length_take, List.length_nil] at hlength
    omega
  · rcases h with ⟨hne, hbegins⟩
    have hpos := List.length_pos_iff.mpr hne
    have hle := hbegins.length_le
    refine ⟨q.length - 1, by omega, ?_⟩
    rw [Nat.sub_add_cancel hpos]
    exact List.prefix_iff_eq_take.mp hbegins

theorem parentIndexes_take (p : List ℕ) (m : ℕ) :
    parentIndexes (p.take m) = (parentIndexes p).take m := by
  refine List.ext_getElem? fun j => ?_
  rw [List.getElem?_take, getElem?_parentIndexes, getElem?_parentIndexes, List.length_take]
  by_cases hj : j < m
  · rw [if_pos hj, List.take_take, Nat.min_eq_left (Nat.succ_le_of_lt hj)]
    simp only [lt_min_iff, hj, true_and]
  · rw [if_neg hj, if_neg (by omega)]

section Painting

variable {σ : Type} (header : QStandardItemModel) (hv : View σ) (o : Orientation)

/-! ## How deep the cells are -/

/-- How deep a cell above the leaves is. -/
def depthOf (q : List ℕ) : ℤ := o.across (cellSize hv q (hv.styleOptionForCell 0))

/-- How deep the first cells on the way to a leaf are together. -/
def depthAbove (p : List ℕ) (n : ℕ) : ℤ := (((parentIndexes p).take n).map (depthOf hv o)).sum

/-- How far the cells on the way to a leaf begin from the edge; the leaf reaches to the other. -/
def stairs (depth : ℤ) (p : List ℕ) (j : ℕ) : ℤ :=
  if j < p.length then depthAbove hv o p j else depth

/-- The rectangle of a cell. -/
def cellRect (offset depth : ℤ) (q : List ℕ) : Rect :=
  let leaves := leafPositions header
  let start := depthAbove hv o q (q.length - 1)
  o.rect (offset + sectionPosition hv (firstBelow q leaves)) start
    (sectionPosition hv (endBelow q leaves) - sectionPosition hv (firstBelow q leaves))
    (if (leafs header q).length = 0 then depth - start else depthOf hv o q)

variable {header hv o} {offset depth : ℤ} {p q : List ℕ} {j k : ℕ}

theorem depthAbove_succ (hj : j < p.length) :
    depthAbove hv o p (j + 1) = depthAbove hv o p j + depthOf hv o (p.take (j + 1)) := by
  rw [depthAbove, List.take_add_one, getElem?_parentIndexes, if_pos hj, Option.toList_some,
    List.map_append, List.sum_append, List.map_singleton, List.sum_singleton, depthAbove]

theorem depthAbove_take {m : ℕ} (hj : j ≤ m) :
    depthAbove hv o (p.take m) j = depthAbove hv o p j := by
  rw [depthAbove, parentIndexes_take, List.take_take, Nat.min_eq_left hj, depthAbove]

/-- The style adds to the depth of a cell alike for all sections. -/
def SameDecorations (hv : View σ) (o : Orientation) : Prop :=
  ∀ st st', o.across (hv.decorationsSize st) = o.across (hv.decorationsSize st')

theorem across_cellSize (hstyle : SameDecorations hv o) (q : List ℕ) (st : σ) :
    o.across (cellSize hv q st) = depthOf hv o q := by
  have hsame := hstyle st (hv.styleOptionForCell 0)
  cases o with
  | horizontal =>
      rw [Orientation.across, Orientation.across] at hsame
      simp only [depthOf, Orientation.across, cellSize, Size.expandedTo, Size.sub, Size.add, hsame]
  | vertical =>
      rw [Orientation.across, Orientation.across] at hsame
      simp only [depthOf, Orientation.across, cellSize, Size.expandedTo, Size.sub, Size.add, hsame]

theorem across_foldl (hstyle : SameDecorations hv o) (st : σ) (indexes : List (List ℕ)) (s : Size) :
    o.across (indexes.foldl (fun s index => s.below o (cellSize hv index st)) s) =
      o.across s + (indexes.map (depthOf hv o)).sum := by
  induction indexes generalizing s with
  | nil => rw [List.foldl_nil, List.map_nil, List.sum_nil, add_zero]
  | cons q indexes ih =>
      rw [List.foldl_cons, ih, List.map_cons, List.sum_cons, ← add_assoc,
        ← across_cellSize hstyle q st]
      cases o <;> rfl

/-- A section asks for room for all cells on the way to its leaf. -/
theorem across_sectionSizeFromContents (hstyle : SameDecorations hv o)
    (hk : (leafPositions header)[k]? = some p) :
    ∃ size, sectionSizeFromContents header hv o k = some size ∧
      o.across size = depthOf hv o p + depthAbove hv o p (p.length - 1) := by
  refine ⟨_, by rw [sectionSizeFromContents, leafIndex_eq_getElem?, hk]; rfl, ?_⟩
  simp only
  rw [across_foldl hstyle, across_cellSize hstyle, depthAbove, List.map_reverse,
    List.sum_reverse, List.dropLast_eq_take, length_parentIndexes]

/-- How deep a cell on the way to a leaf is. -/
theorem stairs_succ_sub (hv : View σ) (o : Orientation) (depth : ℤ) (hj : j < p.length) :
    stairs hv o depth p (j + 1) - stairs hv o depth p j =
      if p.take (j + 1) = p then depth - stairs hv o depth p j
      else depthOf hv o (p.take (j + 1)) := by
  by_cases hlast : j + 1 < p.length
  · have hne : p.take (j + 1) ≠ p := by
      intro heq
      have hlength := congrArg List.length heq
      rw [List.length_take] at hlength
      omega
    rw [if_neg hne, stairs, stairs, if_pos hlast, if_pos hj, depthAbove_succ hj,
      add_sub_cancel_left]
  · have hend : stairs hv o depth p (j + 1) = depth := by rw [stairs, if_neg hlast]
    rw [if_pos (List.take_of_length_le (by omega)), hend]

theorem rises_stairs (hcell : ∀ q, 0 ≤ depthOf hv o q)
    (hroom : depthAbove hv o p (p.length - 1) ≤ depth) : Rises (stairs hv o depth p) := by
  intro j
  rw [stairs, stairs]
  by_cases hlast : j + 1 < p.length
  · rw [if_pos (Nat.lt_of_succ_lt hlast), if_pos hlast,
      depthAbove_succ (Nat.lt_of_succ_lt hlast)]
    exact le_add_of_nonneg_right (hcell _)
  · rw [if_neg hlast]
    split_ifs with hj
    · have heq : j = p.length - 1 := by omega
      rw [heq]
      exact hroom
    · exact le_rfl

theorem length_leafs_eq_zero (hk : (leafPositions header)[k]? = some p) (hq : q ≠ [])
    (hbegins : q <+: p) : (leafs header q).length = 0 ↔ q = p := by
  rcases leafs_cases hk hq hbegins with ⟨hqp, hnone, _⟩ | ⟨hqp, hleafs⟩
  · rw [hnone]
    exact ⟨fun _ => hqp, fun _ => rfl⟩
  · have hat := ((together_leafPositions q header).getElem?_leavesBelow hk hbegins).2
    have hpos := List.length_pos_of_mem (List.mem_of_getElem? hat)
    rw [hleafs]
    exact ⟨fun h => absurd h hpos.ne', fun h => absurd h hqp⟩

/-- A cell reaches from its stair to the next one. -/
theorem cellRect_take (hk : (leafPositions header)[k]? = some p) (hj : j < p.length) :
    cellRect header hv o offset depth (p.take (j + 1)) =
      o.rect (offset + sectionPosition hv (firstBelow (p.take (j + 1)) (leafPositions header)))
        (stairs hv o depth p j)
        (sectionPosition hv (endBelow (p.take (j + 1)) (leafPositions header)) -
          sectionPosition hv (firstBelow (p.take (j + 1)) (leafPositions header)))
        (stairs hv o depth p (j + 1) - stairs hv o depth p j) := by
  have hstart : depthAbove hv o (p.take (j + 1)) ((p.take (j + 1)).length - 1) =
      stairs hv o depth p j := by
    have hlength : (p.take (j + 1)).length - 1 = j := by
      rw [List.length_take]
      omega
    rw [hlength, depthAbove_take (Nat.le_succ j), stairs, if_pos hj]
  have hne : p.take (j + 1) ≠ [] := by
    rw [Ne, List.take_eq_nil_iff, not_or]
    exact ⟨Nat.succ_ne_zero j, List.ne_nil_of_length_pos (Nat.zero_lt_of_lt hj)⟩
  rw [stairs_succ_sub hv o depth hj]
  simp only [cellRect, hstart, length_leafs_eq_zero hk hne (List.take_prefix (j + 1) p)]

/-! ## One section -/

/-- The cell of either orientation. -/
def paintCell (header : QStandardItemModel) (hv : View σ) : Orientation → List ℕ → List ℕ → ℤ →
    σ → Rect → ℤ → Except PyError (Rect × ℤ)
  | .horizontal => paintHorizontalCell header hv
  | .vertical => paintVerticalCell header hv

/-- Where a rectangle begins across the sections. -/
def startAcross : Orientation → Rect → ℤ
  | .horizontal, r => r.top
  | .vertical, r => r.left

theorem paintSection_of_leaf {rect : Rect} {logicalIndex : ℤ} (hvalid : rect.isValid = true)
    (hp : leafIndex header logicalIndex = some p) :
    paintSection header hv o rect logicalIndex =
      paintCells (fun cellIndex start => paintCell header hv o cellIndex p logicalIndex
        (hv.styleOptionForCell logicalIndex) rect start) (parentIndexes p)
        (startAcross o rect) := by
  rw [paintSection, if_pos hvalid, hp]
  cases o <;> rfl

theorem paintCell_eq (hstyle : SameDecorations hv o) (hk : (leafPositions header)[k]? = some p)
    (hq : q ≠ []) (hbegins : q <+: p) (st : σ) (start : ℤ) :
    let leaves := leafPositions header
    let depth' := if q = p then depth - start else depthOf hv o q
    paintCell header hv o q p k st (sectionRect hv o offset depth k) start =
      .ok (o.rect (offset + sectionPosition hv (firstBelow q leaves)) start
        (sectionPosition hv (endBelow q leaves) - sectionPosition hv (firstBelow q leaves)) depth',
        start + depth') := by
  cases o with
  | horizontal =>
      have hdepth : ∀ st, (cellSize hv q st).height = depthOf hv .horizontal q :=
        across_cellSize hstyle q
      simp only [paintCell, paintHorizontalCell, sectionRect, Orientation.rect,
        currentCellLeft_eq hv hk hq hbegins, currentCellWidth_eq hv hk hq hbegins, hdepth, bind,
        Except.bind, pure, Except.pure, Except.ok.injEq, Prod.mk.injEq, Rect.mk.injEq, and_true]
      ring
  | vertical =>
      have hdepth : ∀ st, (cellSize hv q st).width = depthOf hv .vertical q :=
        across_cellSize hstyle q
      simp only [paintCell, paintVerticalCell, sectionRect, Orientation.rect,
        currentCellLeft_eq hv hk hq hbegins, currentCellWidth_eq hv hk hq hbegins, hdepth, bind,
        Except.bind, pure, Except.pure, Except.ok.injEq, Prod.mk.injEq, Rect.mk.injEq, and_true,
        true_and]
      ring

theorem paintCells_eq {paint : List ℕ → ℤ → Except PyError (Rect × ℤ)} {rectOf : List ℕ → Rect}
    {indexes : List (List ℕ)} (start : ℕ → ℤ) (hpaint : ∀ j q, indexes[j]? = some q →
      paint q (start j) = .ok (rectOf q, start (j + 1))) :
    paintCells paint indexes (start 0) = .ok (indexes.map (fun q => (q, rectOf q))) := by
  induction indexes generalizing start with
  | nil => rfl
  | cons q indexes ih =>
      rw [paintCells, hpaint 0 q rfl]
      have hrest := ih (fun j => start (j + 1)) fun j q' hq' => hpaint (j + 1) q' hq'
      simp only [zero_add] at hrest
      simp only [bind, Except.bind, zero_add, hrest]
      rfl

/-- The cells on the way to the leaf of a section, each in its rectangle. -/
theorem paintSection_eq (hstyle : SameDecorations hv o) (hk : (leafPositions header)[k]? = some p)
    (hvalid : (sectionRect hv o offset depth k).isValid = true) :
    paintSection header hv o (sectionRect hv o offset depth k) k =
      .ok ((parentIndexes p).map (fun q => (q, cellRect header hv o offset depth q))) := by
  have hpos : 0 < p.length :=
    List.length_pos_iff.mpr (childrenAt_of_mem (List.mem_of_getElem? hk)).1
  have hstart : startAcross o (sectionRect hv o offset depth k) = stairs hv o depth p 0 := by
    rw [stairs, if_pos hpos]
    cases o <;> rfl
  rw [paintSection_of_leaf hvalid ((leafIndex_eq_getElem? header k).trans hk), hstart]
  refine paintCells_eq (stairs hv o depth p) fun j q hq => ?_
  have hparent := mem_parentIndexes_iff_begins.mp (List.mem_of_getElem? hq)
  rw [getElem?_parentIndexes] at hq
  split_ifs at hq with hj
  have hqj : p.take (j + 1) = q := Option.some.inj hq
  have hdeep := stairs_succ_sub hv o depth hj
  rw [hqj] at hdeep
  rw [paintCell_eq hstyle hk hparent.1 hparent.2, ← hqj, cellRect_take hk hj, hqj]
  simp only [← hdeep, add_sub_cancel]

theorem exists_paintCells {paint : List ℕ → ℤ → Except PyError (Rect × ℤ)}
    {indexes : List (List ℕ)} (hpaint : ∀ q ∈ indexes, ∀ start, ∃ cell, paint q start = .ok cell)
    (start : ℤ) : ∃ cells, paintCells paint indexes start = .ok cells := by
  induction indexes generalizing start with
  | nil => exact ⟨[], rfl⟩
  | cons q indexes ih =>
      rcases hpaint q List.mem_cons_self start with ⟨cell, hcell⟩
      rcases ih (fun q' hq' => hpaint q' (List.mem_cons_of_mem _ hq')) cell.2 with ⟨cells, hcells⟩
      refine ⟨(q, cell.1) :: cells, ?_⟩
      rw [paintCells, hcell]
      simp only [bind, Except.bind, hcells]
      rfl

theorem exists_paintCell (hk : (leafPositions header)[k]? = some p) (hq : q ≠ [])
    (hbegins : q <+: p) (st : σ) (rect : Rect) (start : ℤ) :
    ∃ cell, paintCell header hv o q p k st rect start = .ok cell := by
  cases o with
  | horizontal =>
      simp only [paintCell, paintHorizontalCell, currentCellLeft_eq hv hk hq hbegins,
        currentCellWidth_eq hv hk hq hbegins]
      exact ⟨_, rfl⟩
  | vertical =>
      simp only [paintCell, paintVerticalCell, currentCellLeft_eq hv hk hq hbegins,
        currentCellWidth_eq hv hk hq hbegins]
      exact ⟨_, rfl⟩

/-- Painting a section never fails: a leaf is found among those of each cell above it. -/
theorem paintSection_returns (header : QStandardItemModel) (hv : View σ) (o : Orientation)
    (rect : Rect) (logicalIndex : ℤ) :
    ∃ cells, paintSection header hv o rect logicalIndex = .ok cells := by
  by_cases hvalid : rect.isValid = true
  · cases hleaf : leafIndex header logicalIndex with
    | none => exact ⟨[], by rw [paintSection, if_pos hvalid, hleaf]⟩
    | some p =>
        rw [paintSection_of_leaf hvalid hleaf]
        have hnonneg : 0 ≤ logicalIndex := by
          by_contra hneg
          rw [leafIndex_of_neg header (not_le.mp hneg)] at hleaf
          cases hleaf
        lift logicalIndex to ℕ using hnonneg
        rw [leafIndex_eq_getElem?] at hleaf
        refine exists_paintCells (fun q hq start => ?_) _
        have hparent := mem_parentIndexes_iff_begins.mp hq
        exact exists_paintCell hleaf hparent.1 hparent.2 _ rect start
  · exact ⟨[], by rw [paintSection, if_neg hvalid]⟩

end Painting

end CProfiler.Headers
