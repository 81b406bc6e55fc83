import CProfiler.Model.Python
import Mathlib.Data.List.Dedup
import Mathlib.Data.List.Infix

/-! Class names of demangled functions, from `symcollector/fncollector.py`. -/

namespace CProfiler.Model

/-- A row of a function table. -/
structure FunctionRow where
  start : ℤ
  stop : ℤ
  name : PyStr
  deriving DecidableEq

/-- `name[:name.rindex("(")]` when there is a parenthesis. -/
def cutParentheses (name : PyStr) : PyStr :=
  if '(' ∈ name then name.take (name.length - 1 - name.reverse.findIdx (· = '(')) else name

/-- The text ends with `operator` and one or two more characters. -/
def endsWithOperator (chopped : PyStr) (symbol : PyStr) : Bool :=
  (['o', 'p', 'e', 'r', 'a', 't', 'o', 'r'] ++ symbol).isSuffixOf chopped

/-- The loop of `extractClassname`, which returns the position of the separator it
stops at. Every turn moves `index` to the left and a position before `-len(name)` is an
error, so that `2 * len(name) + 1` turns are never exceeded. -/
def separatorIndex (name : PyStr) : ℕ → ℤ → ℤ → Except PyError ℤ
  | 0, _, _ => .error .indexError
  | fuel + 1, index, depth => do
      let ch ← pyGet name index
      if ch = ':' ∧ depth = 0 then
        return index
      else
        let chopped := pySliceTo name index
        if endsWithOperator chopped ['>', '>'] ∨ endsWithOperator chopped ['<', '<'] then
          separatorIndex name fuel (index - 10) depth
        else if endsWithOperator chopped ['>'] ∨ endsWithOperator chopped ['<'] then
          separatorIndex name fuel (index - 9) depth
        else
          let depth := if ch = '>' then depth + 1 else depth
          let depth := if ch = '<' then depth - 1 else depth
          separatorIndex name fuel (index - 1) depth

/-- `extractClassname`: the scope before the last `::` outside angle brackets. -/
def extractClassname (row : FunctionRow) : Except PyError (Option PyStr) :=
  let name := cutParentheses row.name
  if [':', ':'] <:+: name then do
    let index ← separatorIndex name (2 * name.length + 1) (name.length - 1) 0
    return some (pySliceTo name (index - 1))
  else
    return none

/-- `drop_duplicates`, which keeps the first of equal rows. -/
def dropDuplicates {α : Type*} [DecidableEq α] (l : List α) : List α := l.reverse.dedup.reverse

/-- `getClassnames`: duplicates are dropped first, and then the missing names. -/
def getClassnames (df : List FunctionRow) : Except PyError (List PyStr) := do
  let classnames ← df.mapM extractClassname
  return (dropDuplicates classnames).filterMap id

end CProfiler.Model
