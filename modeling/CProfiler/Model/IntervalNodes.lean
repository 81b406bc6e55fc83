import CProfiler.Model.Python
import Mathlib.Data.Finset.Sort
import Mathlib.Data.Prod.Lex

/-! The intervals and the nodes of the interval tree that `elf/elffile.py` searches for symbols,
`elf/intervaltree/interval.py` and `elf/intervaltree/node.py`. Sets are finite sets, read in
ascending order where the source goes through one. -/

namespace CProfiler.Model.Intervals

/-! ## Intervals -/

/-- A half-open interval. -/
@[ext] structure Interval (α D : Type) where
  begin : α
  end_ : α
  data : D
  deriving DecidableEq, Repr

variable {α D : Type}

namespace Interval

/-- What `__cmp__` compares: begins, then ends, then data. -/
def fields (iv : Interval α D) : α ×ₗ α ×ₗ D := toLex (iv.begin, toLex (iv.end_, iv.data))

theorem fields_injective : Function.Injective (fields (α := α) (D := D)) := by
  intro a b h
  simp only [fields, EmbeddingLike.apply_eq_iff_eq, Prod.mk.injEq] at h
  exact Interval.ext h.1 h.2.1 h.2.2

variable [LinearOrder α] [LinearOrder D]

instance : LinearOrder (Interval α D) := LinearOrder.lift' fields fields_injective

instance : IsTrans (Interval α D) (fun a b => a ≤ b) := ⟨fun _ _ _ => le_trans⟩

instance : Std.Antisymm (fun a b : Interval α D => a ≤ b) := ⟨fun _ _ => le_antisymm⟩

instance : Std.Total (fun a b : Interval α D => a ≤ b) := ⟨le_total⟩

def containsPoint (iv : Interval α D) (p : α) : Bool := iv.begin ≤ p && p < iv.end_

def isNull (iv : Interval α D) : Bool := iv.begin ≥ iv.end_

/-- `overlaps` with a range. -/
def overlaps (iv : Interval α D) (begin end_ : α) : Bool :=
  (begin ≤ iv.begin && iv.begin < end_) || (begin < iv.end_ && iv.end_ ≤ end_) ||
    (iv.begin ≤ begin && begin < iv.end_) || (iv.begin < end_ && end_ ≤ iv.end_)

end Interval

variable [LinearOrder α] [LinearOrder D]

/-! ## Nodes -/

/-- A node, or `None`. -/
inductive Node (α D : Type) where
  | nil
  | node (xCenter : α) (sCenter : Finset (Interval α D)) (leftNode rightNode : Node α D)
      (depth : ℕ) (balance : ℤ)
  deriving DecidableEq

namespace Node

def xCenter? : Node α D → Option α
  | .nil => none
  | .node x _ _ _ _ _ => some x

def depth : Node α D → ℕ
  | .nil => 0
  | .node _ _ _ _ depth _ => depth

def balance : Node α D → ℤ
  | .nil => 0
  | .node _ _ _ _ _ balance => balance

/-- `balance > 0` -/
def rightHeavy (n : Node α D) : Bool := decide (n.balance > 0)

def sCenter : Node α D → Finset (Interval α D)
  | .nil => ∅
  | .node _ sCenter _ _ _ _ => sCenter

def isNone : Node α D → Bool
  | .nil => true
  | .node .. => false

/-- `__getitem__`: the right child for `True`, the left one for `False`. -/
def getitem : Node α D → Bool → Node α D
  | .nil, _ => .nil
  | .node _ _ leftNode rightNode _ _, index => if index then rightNode else leftNode

/-- `__setitem__` -/
def setitem : Node α D → Bool → Node α D → Node α D
  | .nil, _, _ => .nil
  | .node x s leftNode rightNode d b, key, value =>
      if key then .node x s leftNode value d b else .node x s value rightNode d b

/-- `s_center` replaced. -/
def setCenter (n : Node α D) (s : Finset (Interval α D)) : Node α D :=
  match n with
  | .nil => .nil
  | .node x _ leftNode rightNode d b => .node x s leftNode rightNode d b

/-- `x_center` replaced. -/
def setXCenter (n : Node α D) (x : α) : Node α D :=
  match n with
  | .nil => .nil
  | .node _ s leftNode rightNode d b => .node x s leftNode rightNode d b

def centerHit (n : Node α D) (interval : Interval α D) : Bool :=
  match n with
  | .nil => false
  | .node x _ _ _ _ _ => interval.containsPoint x

def hitBranch (n : Node α D) (interval : Interval α D) : Bool :=
  match n with
  | .nil => false
  | .node x _ _ _ _ _ => interval.begin > x

def refreshBalance : Node α D → Node α D
  | .nil => .nil
  | .node x s leftNode rightNode _ _ =>
      .node x s leftNode rightNode (1 + max leftNode.depth rightNode.depth)
        ((rightNode.depth : ℤ) - leftNode.depth)

/-- `Node(center, intervals)` with no children, as `__init__` leaves it. -/
def leaf (center : α) (intervals : Finset (Interval α D)) : Node α D :=
  .node center intervals .nil .nil 1 0

/-- `from_interval` -/
def fromInterval (interval : Interval α D) : Node α D := leaf interval.begin {interval}

/-- The new center of `pop_greatest_child`: the greatest end but the last, or the old center. -/
def newXCenter (x : α) (s : Finset (Interval α D)) : Except PyError α :=
  let ivs := (s.sort (· ≤ ·)).mergeSort
    (fun a b => decide (toLex (a.end_, a.begin) ≤ toLex (b.end_, b.begin)))
  match ivs.reverse with
  | [] => .error .indexError
  | maxIv :: rest => .ok (rest.foldl
      (fun newX nextMaxIv => if nextMaxIv.end_ = maxIv.end_ then newX else max newX nextMaxIv.end_)
      x)

/-- A call that the recursion limit of the interpreter does not allow. -/
def tooDeep {ρ : Type} : Except PyError ρ := .error (.exception "maximum recursion depth exceeded")

/-! ## Rebalancing

The numbers are what is left of the recursion limit. -/

mutual

/-- `rotate` -/
def rotate : ℕ → Node α D → Except PyError (Node α D)
  | 0, _ => tooDeep
  | _ + 1, .nil => .error .attributeError
  | limit + 1, .node x s leftNode rightNode d b =>
      let self := (Node.node x s leftNode rightNode d b).refreshBalance
      if self.balance.natAbs < 2 then .ok self
      else
        let myHeavy := self.rightHeavy
        match self.getitem myHeavy with
        | .nil => .error .attributeError
        | child =>
            let childHeavy := child.rightHeavy
            if myHeavy = childHeavy ∨ child.balance = 0 then srotate limit self
            else drotate limit self

/-- `srotate` -/
def srotate : ℕ → Node α D → Except PyError (Node α D)
  | 0, _ => tooDeep
  | _ + 1, .nil => .error .attributeError
  | limit + 1, .node x s leftNode rightNode d b => do
      let self := Node.node x s leftNode rightNode d b
      let heavy := self.rightHeavy
      match self.getitem heavy with
      | .nil => .error .typeError
      | save =>
          let lower ← rotate limit (self.setitem heavy (save.getitem (!heavy)))
          -- intervals that reach over the new top move up to it
          let promotees := lower.sCenter.filter (fun iv => save.centerHit iv)
          let lower ← (promotees.sort (· ≤ ·)).foldlM (fun lower iv => remove limit lower iv) lower
          return ((save.setitem (!heavy) lower).setCenter (save.sCenter ∪ promotees)).refreshBalance

/-- `drotate` -/
def drotate : ℕ → Node α D → Except PyError (Node α D)
  | 0, _ => tooDeep
  | limit + 1, self => do
      let myHeavy := self.rightHeavy
      let child ← srotate limit (self.getitem myHeavy)
      srotate limit (self.setitem myHeavy child).refreshBalance

/-- `remove` -/
def remove : ℕ → Node α D → Interval α D → Except PyError (Node α D)
  | 0, _, _ => tooDeep
  | limit + 1, self, interval => do
      let removed ← removeIntervalHelper limit self interval true
      return removed.1

/-- `remove_interval_helper`, and whether `done` has been set. -/
def removeIntervalHelper : ℕ → Node α D → Interval α D → Bool → Except PyError (Node α D × Bool)
  | 0, _, _, _ => tooDeep
  | _ + 1, .nil, _, _ => .error .attributeError
  | limit + 1, .node x s leftNode rightNode d b, interval, shouldRaiseError =>
      let self := Node.node x s leftNode rightNode d b
      if self.centerHit interval then
        if interval ∉ s then
          if shouldRaiseError then .error .keyError else .ok (self, true)
        else
          let s := s.erase interval
          if s.Nonempty then .ok (self.setCenter s, true)
          else do
            let pruned ← prune limit (self.setCenter s)
            return (pruned, false)
      else
        let direction := self.hitBranch interval
        match self.getitem direction with
        | .nil => if shouldRaiseError then .error .valueError else .ok (self, true)
        | child => do
            let (child, done) ← removeIntervalHelper limit child interval shouldRaiseError
            let self := self.setitem direction child
            if done then return (self, true)
            else
              let rotated ← rotate limit self
              return (rotated, false)

/-- `prune` -/
def prune : ℕ → Node α D → Except PyError (Node α D)
  | 0, _ => tooDeep
  | _ + 1, .nil => .error .attributeError
  | limit + 1, .node _ _ leftNode rightNode _ _ =>
      if leftNode.isNone then .ok rightNode
      else if rightNode.isNone then .ok leftNode
      else do
        let (heir, leftNode) ← popGreatestChild limit leftNode
        rotate limit ((heir.setitem false leftNode).setitem true rightNode).refreshBalance

/-- `pop_greatest_child` -/
def popGreatestChild : ℕ → Node α D → Except PyError (Node α D × Node α D)
  | 0, _ => tooDeep
  | _ + 1, .nil => .error .attributeError
  | limit + 1, .node x s leftNode .nil d b => do
      let newX ← newXCenter x s
      let newCenter := (s.filter (fun iv => iv.containsPoint newX)).sort (· ≤ ·)
      match ← fromIntervals limit newCenter with
      | .nil => .error .attributeError
      | child =>
          let child := child.setXCenter newX
          let s := s \ child.sCenter
          if s.Nonempty then return (child, .node x s leftNode .nil d b)
          else return (child, leftNode)
  | limit + 1, .node x s leftNode rightNode d b => do
      let (greatestChild, rightNode) ← popGreatestChild limit rightNode
      let newSelf ← rotate limit (Node.node x s leftNode rightNode d b).refreshBalance
      let moved := newSelf.sCenter.filter (fun iv => greatestChild.centerHit iv)
      let newSelf := newSelf.setCenter (newSelf.sCenter \ moved)
      let greatestChild := greatestChild.setCenter (greatestChild.sCenter ∪ moved)
      if newSelf.sCenter.Nonempty then return (greatestChild, newSelf)
      else
        let newSelf ← prune limit newSelf
        return (greatestChild, newSelf)

/-- `from_intervals`, of any iterable. -/
def fromIntervals : ℕ → List (Interval α D) → Except PyError (Node α D)
  | 0, _ => tooDeep
  | limit + 1, intervals =>
      if intervals = [] then .ok .nil
      else initFromSorted limit (intervals.mergeSort (fun a b => decide (a ≤ b)))

/-- `init_from_sorted` -/
def initFromSorted : ℕ → List (Interval α D) → Except PyError (Node α D)
  | 0, _ => tooDeep
  | limit + 1, intervals =>
      match intervals[intervals.length / 2]? with
      | none => .ok .nil
      | some centerIv => do
          let x := centerIv.begin
          let sLeft := intervals.filter (fun k => decide (k.end_ ≤ x))
          let sRight := intervals.filter (fun k => !decide (k.end_ ≤ x) && decide (k.begin > x))
          let sCenter := intervals.filter (fun k => !decide (k.end_ ≤ x) && !decide (k.begin > x))
          let leftNode ← fromIntervals limit sLeft
          let rightNode ← fromIntervals limit sRight
          rotate limit (.node x sCenter.toFinset leftNode rightNode 0 0)

end

/-- `discard` -/
def discard (limit : ℕ) (self : Node α D) (interval : Interval α D) :
    Except PyError (Node α D) := do
  let discarded ← removeIntervalHelper limit self interval false
  return discarded.1

/-- `add` -/
def add : ℕ → Node α D → Interval α D → Except PyError (Node α D)
  | 0, _, _ => tooDeep
  | _ + 1, .nil, _ => .error .attributeError
  | limit + 1, .node x s leftNode rightNode d b, interval =>
      let self := Node.node x s leftNode rightNode d b
      if self.centerHit interval then .ok (self.setCenter (insert interval s))
      else
        let direction := self.hitBranch interval
        match self.getitem direction with
        | .nil => .ok (self.setitem direction (fromInterval interval)).refreshBalance
        | child => do
            let child ← add limit child interval
            rotate limit (self.setitem direction child)

/-! ## Queries -/

/-- `search_point`, adding to the set that is passed in. -/
def searchPoint (point : α) : Node α D → Finset (Interval α D) → Finset (Interval α D)
  | .nil, result => result
  | .node x s leftNode rightNode _ _, result =>
      let result := result ∪ s.filter (fun k => k.containsPoint point)
      if point < x then leftNode.searchPoint point result
      else if x < point then rightNode.searchPoint point result
      else result

/-- `search_overlap` -/
def searchOverlap (n : Node α D) (pointList : List α) : Finset (Interval α D) :=
  pointList.foldl (fun result j => n.searchPoint j result) ∅

/-- `contains_point` -/
def containsPoint (p : α) : Node α D → Bool
  | .nil => false
  | .node x s leftNode rightNode _ _ =>
      if ∃ iv ∈ s, iv.containsPoint p then true
      else if p > x then rightNode.containsPoint p
      else leftNode.containsPoint p

/-- `all_children` -/
def allChildren : Node α D → Finset (Interval α D)
  | .nil => ∅
  | .node _ s leftNode rightNode _ _ => s ∪ leftNode.allChildren ∪ rightNode.allChildren

/-- `count_nodes` -/
def countNodes : Node α D → ℕ
  | .nil => 0
  | .node _ _ leftNode rightNode _ _ => 1 + leftNode.countNodes + rightNode.countNodes

/-- `verify`, which passes when no assertion fails. -/
def verify : Node α D → Finset α → Bool
  | .nil, _ => true
  | .node x s leftNode rightNode _ b, parents =>
      decide (b.natAbs < 2) &&
        decide (b = (rightNode.depth : ℤ) - leftNode.depth) &&
        decide s.Nonempty &&
        decide (∀ iv ∈ s, iv.begin < iv.end_ ∧ iv.containsPoint x = true ∧
          ∀ parent ∈ parents, iv.containsPoint parent = false) &&
        leftNode.xCenter?.all (fun leftX => decide (leftX < x)) &&
        leftNode.verify (insert x parents) &&
        rightNode.xCenter?.all (fun rightX => decide (rightX > x)) &&
        rightNode.verify (insert x parents)

end Node

end CProfiler.Model.Intervals
