import CProfiler.Model.Tags
import Mathlib.Logic.Function.Basic

/-! `finalize` of `tags/tag.py` over the objects themselves: a tag that several parents list
is one object, which each of them finalizes. -/

namespace CProfiler.Model

variable {κ : Type}

/-- The fields of a `Tag` object, whose children are references. -/
structure TagObject (κ : Type) where
  ranges : List Range
  label : PyStr
  children : List ℕ
  samples : Option (Sample κ)

/-- The objects behind the references. -/
abbrev TagHeap (κ : Type) := ℕ → TagObject κ

namespace TagHeap

/-- `self.ranges = ranges` -/
def setRanges (heap : TagHeap κ) (self : ℕ) (ranges : List Range) : TagHeap κ :=
  Function.update heap self { heap self with ranges := ranges }

/-- `self.samples = samples` -/
def setSamples (heap : TagHeap κ) (self : ℕ) (samples : Option (Sample κ)) : TagHeap κ :=
  Function.update heap self { heap self with samples := samples }

/-- What a method does with a tag: its result, if there is one, and the objects it leaves. -/
abbrev Visit (κ : Type) := TagHeap κ → ℕ → Option (Except PyError Unit × TagHeap κ)

/-- The loop over the children in `finalize`, which collects `childranges`. -/
def childLoop (visit : Visit κ) :
    TagHeap κ → List Range → List ℕ → Option (Except PyError (List Range) × TagHeap κ)
  | heap, childranges, [] => some (.ok childranges, heap)
  | heap, childranges, child :: rest =>
      match visit heap child with
      | none => none
      | some (.error e, heap) => some (.error e, heap)
      | some (.ok (), heap) => childLoop visit heap (childranges ++ (heap child).ranges) rest

/-- `finalize`, with what it has changed when it raises. The fuel bounds the depth of the
recursion, and there is no result without enough of it. -/
def finalize (cumulativeDf : Option (List (Sample κ))) : ℕ → Visit κ
  | 0, _, _ => none
  | fuel + 1, heap, self =>
      match childLoop (finalize cumulativeDf fuel) heap [] (heap self).children with
      | none => none
      | some (.error e, heap) => some (.error e, heap)
      | some (.ok childranges, heap) =>
          match merge ((heap self).ranges ++ childranges) with
          | .error e => some (.error e, heap)
          | .ok ranges =>
              let heap := heap.setRanges self ranges
              match Tag.feed ranges cumulativeDf (heap self).samples with
              | .error e => some (.error e, heap)
              | .ok samples => some (.ok (), heap.setSamples self samples)

/-- `finalize` ends with a result, and leaves these objects. -/
def Finalizes (cumulativeDf : Option (List (Sample κ))) (heap : TagHeap κ) (self : ℕ)
    (result : Except PyError Unit) (heap' : TagHeap κ) : Prop :=
  ∃ fuel, finalize cumulativeDf fuel heap self = some (result, heap')

/-- The tree of tags down to a depth. -/
def treeAt : ℕ → TagHeap κ → ℕ → Tag κ
  | 0, _, _ => Tag.new none []
  | depth + 1, heap, self =>
      .mk (heap self).ranges (heap self).label
        ((heap self).children.map (treeAt depth heap)) (heap self).samples

end TagHeap

end CProfiler.Model
