import CProfiler.Model.FnCollector
import CProfiler.Model.Tags

/-! The tag trees that `tags/tag.py` builds from a function table. -/

namespace CProfiler.Model

variable {κ : Type}

/-- The tag of one function, built from `int(row["start"])`, `int(row["end"])` and the name. -/
def rowTag (row : FunctionRow) : Tag κ := Tag.new (some (row.start, row.stop)) row.name

/-- `functionTag`: one child for each row, finalized without samples. -/
def functionTag (df : List FunctionRow) : Except PyError (Tag κ) :=
  let functions : Tag κ := Tag.new none ['F', 'u', 'n', 'c', 't', 'i', 'o', 'n', 's']
  (df.foldl (fun functions row => functions.addChild (rowTag row)) functions).finalize none

/-- The list with its last member that satisfies `p` replaced. -/
def replaceLast {α : Type*} (p : α → Bool) (x : α) : List α → List α
  | [] => []
  | y :: ys =>
      if ys.any p then y :: replaceLast p x ys
      else if p y then x :: ys
      else y :: ys

/-- The tree after the tag that `lookup` found has become `child`. The parent shares that
tag with its dictionary, so it is the last child with the label. -/
def Tag.withChild (parent child : Tag κ) : Tag κ :=
  .mk parent.ranges parent.label
    (replaceLast (fun t => t.label = child.label) child parent.children) parent.getSamples

/-- The second loop of `classTag`: each row with a class adds its function to its class. -/
def classTagStep (functions rootTag : Tag κ) (row : FunctionRow) : Except PyError (Tag κ) := do
  match ← extractClassname row with
  | none => return rootTag
  | some classname =>
      let clTag ← rootTag.lookup classname
      let fnTag ← functions.lookup row.name
      return rootTag.withChild (clTag.addChild fnTag)

/-- `classTag`. -/
def classTag (df : List FunctionRow) : Except PyError (Tag κ) := do
  let classnames ← getClassnames df
  let functions ← functionTag df
  let rootTag : Tag κ := Tag.new none ['C', 'l', 'a', 's', 's', 'e', 's']
  let rootTag := classnames.foldl (fun root c => root.addChild (Tag.new none c)) rootTag
  let rootTag ← df.foldlM (classTagStep functions) rootTag
  rootTag.finalize none

end CProfiler.Model
