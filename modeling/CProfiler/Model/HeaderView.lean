import CProfiler.Model.HeaderModel
import CProfiler.Model.Session

/-! How `gui/HierarchicalHeaderView.py` paints the header of a section: a cell for each item on the
way to its leaf. How much room the section asks for, and what is painted again when it gets
another size. -/

namespace CProfiler.Model

namespace HeaderView

open Foundation.Rose (childrenAt)

/-- `QSize` -/
structure Size where
  width : ℤ
  height : ℤ
  deriving DecidableEq, Repr

namespace Size

def add (s s' : Size) : Size := ⟨s.width + s'.width, s.height + s'.height⟩

def sub (s s' : Size) : Size := ⟨s.width - s'.width, s.height - s'.height⟩

def transpose (s : Size) : Size := ⟨s.height, s.width⟩

def expandedTo (s s' : Size) : Size := ⟨max s.width s'.width, max s.height s'.height⟩

end Size

/-- `QRect` -/
structure Rect where
  left : ℤ
  top : ℤ
  width : ℤ
  height : ℤ
  deriving DecidableEq, Repr

namespace Rect

def isValid (r : Rect) : Bool := 0 < r.width && 0 < r.height

def Contains (r : Rect) (x y : ℤ) : Prop :=
  r.left ≤ x ∧ x < r.left + r.width ∧ r.top ≤ y ∧ y < r.top + r.height

instance (r : Rect) (x y : ℤ) : Decidable (r.Contains x y) :=
  inferInstanceAs (Decidable (_ ∧ _ ∧ _ ∧ _))

end Rect

/-- What Qt knows of the header: its sections by their logical indices, the style options `σ`, and
what the font, the text and the roles of a cell make of its size. -/
structure View (σ : Type) where
  sectionSize : ℤ → ℕ
  sectionViewportPosition : ℤ → ℤ
  isSectionHidden : ℤ → Bool
  viewport : Size
  isRightToLeft : Bool
  styleOptionForCell : ℤ → σ
  withoutSortIndicator : σ → σ
  decorationsSize : σ → Size
  sizeHint : List ℕ → Option Size
  textSize : List ℕ → Size
  emptyTextSize : List ℕ → Size
  rotated : List ℕ → Bool

/-! ## Leaves -/

mutual

def searchLeafs : QStandardItem → List ℕ → List (List ℕ)
  | .node _ [], curentIndex => [curentIndex]
  | .node _ (c :: cs), curentIndex => searchLeafsAmong (c :: cs) 0 curentIndex

/-- The loop over the columns from the `i`-th on. -/
def searchLeafsAmong : List QStandardItem → ℕ → List ℕ → List (List ℕ)
  | [], _, _ => []
  | c :: cs, i, curentIndex =>
      searchLeafs c (curentIndex ++ [i]) ++ searchLeafsAmong cs (i + 1) curentIndex

end

/-- A position without steps is that of the invalid index. -/
def leafs (headerModel : QStandardItemModel) (searchedIndex : List ℕ) : List (List ℕ) :=
  if searchedIndex = [] then []
  else searchLeafsAmong ((childrenAt headerModel searchedIndex).getD []) 0 searchedIndex

/-- The indexes from the root to a leaf. -/
def parentIndexes (index : List ℕ) : List (List ℕ) := index.inits.tail

def findRootIndex (index : List ℕ) : List ℕ := index.take 1

/-- `leafsList.index(leafIndex)` -/
def indexIn (leafsList : List (List ℕ)) (leafIndex : List ℕ) : Except PyError ℕ :=
  if leafIndex ∈ leafsList then .ok (leafsList.idxOf leafIndex) else .error .valueError

/-! ## Cells -/

section Cells

variable {σ : Type} (headerModel : QStandardItemModel) (hv : View σ)

/-- `QSize()` is `(-1, -1)`. -/
def cellSize (leafIndex : List ℕ) (styleOptions : σ) : Size :=
  let res := (hv.sizeHint leafIndex).getD ⟨-1, -1⟩
  let size := if hv.rotated leafIndex then (hv.textSize leafIndex).transpose
    else hv.textSize leafIndex
  res.expandedTo ((size.add (hv.decorationsSize styleOptions)).sub (hv.emptyTextSize leafIndex))

def currentCellWidth (searchedIndex leafIndex : List ℕ) (sectionIndex : ℤ) : Except PyError ℤ :=
  let leafsList := leafs headerModel searchedIndex
  if leafsList.length = 0 then .ok (hv.sectionSize sectionIndex)
  else do
    let n ← indexIn leafsList leafIndex
    let firstLeafSectionIndex := sectionIndex - n
    return (List.range leafsList.length).foldl
      (fun (width : ℤ) (i : ℕ) => width + hv.sectionSize (firstLeafSectionIndex + i)) 0

def currentCellLeft (searchedIndex leafIndex : List ℕ) (sectionIndex left : ℤ) :
    Except PyError ℤ :=
  let leafsList := leafs headerModel searchedIndex
  if leafsList.length > 0 then do
    let n ← indexIn leafsList leafIndex
    let firstLeafSectionIndex := sectionIndex - n
    return (List.range n).reverse.foldl
      (fun (left : ℤ) (i : ℕ) => left - hv.sectionSize (firstLeafSectionIndex + i)) left
  else .ok left

/-- The rectangle of the cell, and where the next one begins. -/
def paintHorizontalCell (cellIndex leafIndex : List ℕ) (logicalLeafIndex : ℤ) (styleOptions : σ)
    (sectionRect : Rect) (top : ℤ) : Except PyError (Rect × ℤ) := do
  let uniopt := if (leafs headerModel cellIndex).length ≠ 0 then
    hv.withoutSortIndicator styleOptions else styleOptions
  let height := if cellIndex = leafIndex then sectionRect.height - top
    else (cellSize hv cellIndex uniopt).height
  let left ← currentCellLeft headerModel hv cellIndex leafIndex logicalLeafIndex sectionRect.left
  let width ← currentCellWidth headerModel hv cellIndex leafIndex logicalLeafIndex
  return (⟨left, top, width, height⟩, top + height)

def paintVerticalCell (cellIndex leafIndex : List ℕ) (logicalLeafIndex : ℤ) (styleOptions : σ)
    (sectionRect : Rect) (left : ℤ) : Except PyError (Rect × ℤ) := do
  let width := if cellIndex = leafIndex then sectionRect.width - left
    else (cellSize hv cellIndex styleOptions).width
  let top ← currentCellLeft headerModel hv cellIndex leafIndex logicalLeafIndex sectionRect.top
  let height ← currentCellWidth headerModel hv cellIndex leafIndex logicalLeafIndex
  return (⟨left, top, width, height⟩, left + width)

/-- The loop over the indexes, as the cells with their rectangles. -/
def paintCells (paint : List ℕ → ℤ → Except PyError (Rect × ℤ)) :
    List (List ℕ) → ℤ → Except PyError (List (List ℕ × Rect))
  | [], _ => .ok []
  | cellIndex :: indexes, start => do
    let cell ← paint cellIndex start
    let cells ← paintCells paint indexes cell.2
    return (cellIndex, cell.1) :: cells

def paintHorizontalSection (sectionRect : Rect) (logicalLeafIndex : ℤ) (styleOptions : σ)
    (leafIndex : List ℕ) : Except PyError (List (List ℕ × Rect)) :=
  paintCells (fun cellIndex top => paintHorizontalCell headerModel hv cellIndex leafIndex
    logicalLeafIndex styleOptions sectionRect top) (parentIndexes leafIndex) sectionRect.top

def paintVerticalSection (sectionRect : Rect) (logicalLeafIndex : ℤ) (styleOptions : σ)
    (leafIndex : List ℕ) : Except PyError (List (List ℕ × Rect)) :=
  paintCells (fun cellIndex left => paintVerticalCell headerModel hv cellIndex leafIndex
    logicalLeafIndex styleOptions sectionRect left) (parentIndexes leafIndex) sectionRect.left

/-- The base class paints nothing in an invalid rectangle. -/
def paintSection (o : Orientation) (rect : Rect) (logicalIndex : ℤ) :
    Except PyError (List (List ℕ × Rect)) :=
  if rect.isValid then
    match leafIndex headerModel logicalIndex with
    | none => .ok []
    | some leafIndex =>
      match o with
      | .horizontal => paintHorizontalSection headerModel hv rect logicalIndex
          (hv.styleOptionForCell logicalIndex) leafIndex
      | .vertical => paintVerticalSection headerModel hv rect logicalIndex
          (hv.styleOptionForCell logicalIndex) leafIndex
  else .ok []

/-- A size with that of the cell above it. -/
def Size.below (o : Orientation) (s above : Size) : Size :=
  match o with
  | .horizontal => { s with height := s.height + above.height }
  | .vertical => { s with width := s.width + above.width }

/-- The size, if the header has a leaf for the section. -/
def sectionSizeFromContents (o : Orientation) (logicalIndex : ℤ) : Option Size :=
  (leafIndex headerModel logicalIndex).map (fun curLeafIndex =>
    let styleOption := hv.styleOptionForCell logicalIndex
    (parentIndexes curLeafIndex).dropLast.reverse.foldl
      (fun s index => s.below o (cellSize hv index styleOption))
      (cellSize hv curLeafIndex styleOption))

/-! ## Resizing -/

/-- What is updated from a section on. -/
def updateRect (o : Orientation) (logicalIndex : ℤ) : Rect :=
  let pos := hv.sectionViewportPosition logicalIndex
  match o with
  | .horizontal =>
    if hv.isRightToLeft then ⟨0, 0, pos + hv.sectionSize logicalIndex, hv.viewport.height⟩
    else ⟨pos, 0, hv.viewport.width - pos, hv.viewport.height⟩
  | .vertical => ⟨0, pos, hv.viewport.width, hv.viewport.height - pos⟩

/-- The updates, before `normalized`. The range goes down from `n` and stops before `1`. -/
def onSectionResized (o : Orientation) (logicalIndex : ℤ) : Except PyError (List Rect) :=
  if hv.isSectionHidden logicalIndex then .ok []
  else
    match leafIndex headerModel logicalIndex with
    | none => .ok []
    | some leafIndex => do
      let n ← indexIn (leafs headerModel (findRootIndex leafIndex)) leafIndex
      return (List.range (n - 1)).map (fun (i : ℕ) => updateRect hv o (logicalIndex - (i + 1)))

end Cells

end HeaderView

/-! ## Where Qt paints -/

namespace Orientation

def across : Orientation → HeaderView.Size → ℤ
  | horizontal, s => s.height
  | vertical, s => s.width

/-- A rectangle by its begin along and across the sections, its length and its depth. -/
def rect (o : Orientation) (along across length depth : ℤ) : HeaderView.Rect :=
  match o with
  | horizontal => ⟨along, across, length, depth⟩
  | vertical => ⟨across, along, depth, length⟩

end Orientation

namespace HeaderView

variable {σ : Type} (hv : View σ)

/-- Where a section begins: none was moved, and they run from left to right. -/
def sectionPosition : ℕ → ℤ
  | 0 => 0
  | k + 1 => sectionPosition k + hv.sectionSize k

/-- The rectangle of a section in a header that begins at `offset`. -/
def sectionRect (o : Orientation) (offset depth : ℤ) (logicalIndex : ℕ) : Rect :=
  o.rect (offset + sectionPosition hv logicalIndex) 0 (hv.sectionSize logicalIndex) depth

end HeaderView

end CProfiler.Model
