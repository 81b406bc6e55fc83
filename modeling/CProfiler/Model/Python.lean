import CProfiler.Foundation.Walks
import Mathlib.Data.Int.Notation
import Mathlib.Data.List.Basic

/-! Sequence indexing and slicing of the source language, with negative positions counted
from the end, and the exceptions that the modelled functions can raise. -/

namespace CProfiler.Model

inductive PyError where
  | indexError
  | keyError
  | typeError
  | unboundLocalError
  | valueError
  | attributeError
  | assertionError
  | overflowError
  | concatenateException
  | elfFileError (message : String)
  | exception (message : String)
  deriving DecidableEq, Repr

/-- Text is kept as its characters, so that slices and scans are list functions. -/
abbrev PyStr := List Char

instance : LawfulBEq PyStr := inferInstance

variable {α : Type*}

/-- A run that returns has returned from its first step. -/
theorem bind_eq_ok {α β : Type} {x : Except PyError α} {f : α → Except PyError β} {b : β}
    (h : x >>= f = .ok b) : ∃ a, x = .ok a ∧ f a = .ok b := by
  cases x with
  | error e => cases h
  | ok a => exact ⟨a, rfl, h⟩

/-- `l[i]`: a negative `i` counts from the end. -/
def pyGet (l : List α) (i : ℤ) : Except PyError α :=
  let position := if 0 ≤ i then i else i + l.length
  if position < 0 then .error .indexError
  else
    match l[position.toNat]? with
    | some x => .ok x
    | none => .error .indexError

/-- `l[:i]`: a negative `i` counts from the end, and any bound is allowed. -/
def pySliceTo (l : List α) (i : ℤ) : List α :=
  if 0 ≤ i then l.take i.toNat else l.take (i + l.length).toNat

/-- `slice(start, stop, step)`; `none` where a bound is left out. -/
structure PySlice where
  start : Option ℤ
  stop : Option ℤ
  step : Option ℤ

namespace PySlice

def stride (r : PySlice) : ℤ := r.step.getD 1

/-- A bound of a slice of `n` items: a negative one counts from the end, and one that lies
outside is moved to where a walk with the slice's step begins or ends. -/
def clip (r : PySlice) (n : ℕ) (i : ℤ) : ℤ :=
  let shifted := if i < 0 then i + n else i
  if r.stride < 0 then max (-1) (min shifted (n - 1)) else max 0 (min shifted n)

/-- Where the slice starts, `slice.indices(n)[0]`. -/
def first (r : PySlice) (n : ℕ) : ℤ :=
  match r.start with
  | some i => r.clip n i
  | none => if r.stride < 0 then n - 1 else 0

/-- Where the slice stops, `slice.indices(n)[1]`. -/
def last (r : PySlice) (n : ℕ) : ℤ :=
  match r.stop with
  | some i => r.clip n i
  | none => if r.stride < 0 then -1 else n

/-- The number of positions that the slice selects. -/
def count (r : PySlice) (n : ℕ) : ℕ :=
  if r.stride < 0 then Foundation.steps (r.first n - r.last n) (-r.stride)
  else Foundation.steps (r.last n - r.first n) r.stride

/-- `l[start:stop:step]`, for a step other than 0. -/
def select (r : PySlice) (l : List α) : List α :=
  (List.range (r.count l.length)).filterMap
    (fun k : ℕ => l[(r.first l.length + k * r.stride).toNat]?)

end PySlice

theorem pyGet_natCast (l : List α) (n : ℕ) (h : n < l.length) :
    pyGet l n = .ok l[n] := by
  simp [pyGet, h]

/-- Position `-1` is the last element. -/
theorem pyGet_neg_one (l : List α) (h : l ≠ []) :
    pyGet l (-1) = .ok (l.getLast h) := by
  have hpos : 0 < l.length := List.length_pos_iff.mpr h
  have hidx : (-1 + (l.length : ℤ)).toNat = l.length - 1 := by omega
  have hnonneg : ¬ (-1 + (l.length : ℤ)) < 0 := by omega
  have hlast : l.length - 1 < l.length := by omega
  simp [pyGet, hnonneg, hidx, List.getLast_eq_getElem, List.getElem?_eq_getElem hlast]

end CProfiler.Model
