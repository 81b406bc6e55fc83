import Mathlib.Algebra.Order.Group.Abs
import CProfiler.Model.InstListSwig
import CProfiler.Verification.InstLists.SliceLoop

/-! # Indexing and iteration

Iteration and indexing share `iter_error`. The handler of `next` clears what `next` has set;
for `__getitem__` there is no handler, so that what it sets stays. -/

namespace CProfiler.InstLists

open CProfiler.Foundation CProfiler.Model

variable {ι : Type}

/-! ## Iteration -/

/-- From any position on, iteration yields the rest of the list and stops. -/
theorem iterTurn_returns (l : InstList ι) (yielded : List ι) {pos : ℕ} (hpos : pos ≤ l.size) :
    Returns iterTurn ⟨yielded, ⟨l, pos⟩, false⟩
      (yielded ++ l.instArray.drop pos, .stopIteration) := by
  induction hrest : l.size - pos generalizing pos yielded with
  | zero =>
      have hend : ¬ pos < l.size := by omega
      have hdrop : l.instArray.drop pos = [] := List.drop_eq_nil_of_le (by
        change l.size ≤ pos
        omega)
      refine Returns.of_done ?_
      simp [iterTurn, InstListIter.next, hend, hdrop]
  | succ rest ih =>
      have hlt : pos < l.size := by omega
      have hdrop : l.instArray.drop pos =
          l.instArray.get ⟨pos, hlt⟩ :: l.instArray.drop (pos + 1) :=
        List.drop_eq_getElem_cons hlt
      have hturn : iterTurn ⟨yielded, ⟨l, pos⟩, false⟩ =
          .next ⟨yielded ++ [l.instArray.get ⟨pos, hlt⟩], ⟨l, pos + 1⟩, false⟩ := by
        simp [iterTurn, InstListIter.next, hlt]
      have hnext := ih (yielded ++ [l.instArray.get ⟨pos, hlt⟩]) hlt (by omega)
      rw [hdrop, ← List.singleton_append, ← List.append_assoc]
      exact Returns.of_next hturn hnext

/-- Iteration over a list yields its instructions. -/
theorem iterates_clear (l : InstList ι) : Iterates l false l.instArray .stopIteration := by
  simpa [Iterates, InstList.iter] using iterTurn_returns l [] (Nat.zero_le _)

/-- With `iter_error` left set, the process ends at the first `next`. -/
theorem iterates_set (l : InstList ι) : Iterates l true [] .aborted := Returns.of_done rfl

/-! ## Indexing -/

/-- The indices for which `__getitem__` has an instruction: `abs` makes the bounds the same
on both sides, and the index is a C `int`. -/
def InRange (n : ℕ) (i : ℤ) : Prop := (-(n : ℤ) < i ∧ i < n) ∧ -2 ^ 31 < i ∧ i < 2 ^ 31

/-- `abs(i) >= size`, on an `int` and a `size_t`. -/
theorem toSizeT_intAbs_ge_iff {n : ℕ} {i : ℤ} (hn : n < 2 ^ 60) (hge : -2 ^ 31 ≤ i)
    (hlt : i < 2 ^ 31) : toSizeT (intAbs i) ≥ n ↔ ¬ InRange n i := by
  unfold intAbs InRange
  by_cases hmin : i = -2 ^ 31
  · have hlarge := toSizeT_of_neg (z := i) (by omega) (by omega)
    rw [if_pos hmin]
    omega
  · rw [if_neg hmin]
    have hsmall := toSizeT_of_nonneg (abs_nonneg i) (by
      rcases abs_cases i with ⟨habs, -⟩ | ⟨habs, -⟩ <;> omega)
    rcases abs_cases i with ⟨habs, -⟩ | ⟨habs, -⟩ <;> omega

/-- What indexing does: in range it is Python's, and otherwise it returns `None` and leaves
`iter_error` set, or nothing is known of it. -/
theorem getItem_cases (l : HeldList ι) (iterError : Bool) (i : ℤ) :
    (InRange l.size i ∧ ∃ inst,
        l.instArray[(if i < 0 then l.size + i else i).toNat]? = some inst ∧
        getItem l.toInstList iterError i = (.inst inst, iterError)) ∨
      (¬ InRange l.size i ∧
        (getItem l.toInstList iterError i = (.null, true) ∨
          getItem l.toInstList iterError i = (.undefined, iterError))) := by
  have hsize : l.size < 2 ^ 60 := Nat.lt_of_le_of_lt l.fits l.addressable
  unfold getItem
  by_cases hint : -2 ^ 31 ≤ i ∧ i < 2 ^ 31
  · have habs := toSizeT_intAbs_ge_iff hsize hint.1 hint.2
    rw [if_pos hint, getItemInt]
    by_cases hrange : InRange l.size i
    · rw [if_neg (fun hge => habs.mp hge hrange)]
      have hbounds := hrange.1
      refine .inl ⟨hrange, ?_⟩
      by_cases hneg : i < 0
      · have hunsigned := toSizeT_of_neg hneg (by omega)
        have hposition : (l.size + toSizeT i) % 2 ^ 64 = (l.size + i).toNat := by omega
        have hlt : (l.size + i).toNat < l.instArray.length := by
          change _ < l.size
          omega
        have hread := List.getElem?_eq_getElem hlt
        simp only [if_pos hneg, instListGet, hposition, hread]
        exact ⟨_, rfl, rfl⟩
      · have hlt : i.toNat < l.instArray.length := by
          change _ < l.size
          omega
        have hread := List.getElem?_eq_getElem hlt
        simp only [if_neg hneg, instListGet, hread]
        exact ⟨_, rfl, rfl⟩
    · rw [if_pos (habs.mpr hrange)]
      exact .inr ⟨hrange, .inl rfl⟩
  · rw [if_neg hint]
    refine .inr ⟨fun hrange => hint ?_, .inr rfl⟩
    have hlarge := hrange.2
    omega

/-! ## Exactness -/

/-- What the outcome of `list[i]` has to be, by what iteration yields: `IndexError` for the
indices out of range, and otherwise the instruction at the position. -/
structure AgreesWith (yielded : List ι) (i : ℤ) (outcome : Outcome ι) : Prop where
  raises_iff : outcome = .raised .indexError ↔ i < -(yielded.length : ℤ) ∨ yielded.length ≤ i
  yields : -(yielded.length : ℤ) ≤ i → i < yielded.length →
    ∃ inst, yielded[(if i < 0 then yielded.length + i else i).toNat]? = some inst ∧
      outcome = .inst inst

/-- Iteration over the list yields as many instructions as it has and stops, and indexing
agrees with it. -/
def IndexesAsIterated (l : InstList ι) (iterError : Bool) (i : ℤ) : Prop :=
  ∃ yielded, Iterates l iterError yielded .stopIteration ∧ yielded.length = l.size ∧
    AgreesWith yielded i (getItem l iterError i).1

/-- Out of range there is neither an error raised nor an instruction. -/
theorem inRange_of_indexesAsIterated {l : HeldList ι} {iterError : Bool} {i : ℤ}
    (h : IndexesAsIterated l.toInstList iterError i) : InRange l.size i := by
  rcases h with ⟨yielded, -, -, hagrees⟩
  rcases getItem_cases l iterError i with ⟨hrange, -⟩ | ⟨-, hfail⟩
  · exact hrange
  · have hwithin : ¬ (i < -(yielded.length : ℤ) ∨ yielded.length ≤ i) := by
      rw [← hagrees.raises_iff]
      rcases hfail with hitem | hitem <;> simp [hitem]
    rcases hagrees.yields (by omega) (by omega) with ⟨inst, -, hinst⟩
    rcases hfail with hitem | hitem <;> simp [hitem] at hinst

/-- Indexing agrees with iteration exactly when `iter_error` is clear and the index is in
range, so that `IndexError` is never raised. -/
theorem indexesAsIterated_iff (l : HeldList ι) (iterError : Bool) (i : ℤ) :
    IndexesAsIterated l.toInstList iterError i ↔
      iterError = false ∧ (-(l.size : ℤ) < i ∧ i < l.size) ∧ -2 ^ 31 < i ∧ i < 2 ^ 31 := by
  refine ⟨fun h => ⟨?_, inRange_of_indexesAsIterated h⟩, fun h => ?_⟩
  · rcases h with ⟨yielded, hiterates, -⟩
    cases iterError with
    | true =>
        have hended := congrArg Prod.snd (hiterates.unique (iterates_set l.toInstList))
        cases hended
    | false => rfl
  · rcases h with ⟨rfl, hrange⟩
    refine ⟨l.instArray, iterates_clear l.toInstList, rfl, ?_⟩
    rcases getItem_cases l false i with ⟨-, inst, hread, hitem⟩ | ⟨hout, -⟩
    · rw [hitem]
      have hbounds := hrange.1
      refine ⟨⟨fun h => (by cases h), fun h => ?_⟩, fun _ _ => ⟨inst, hread, rfl⟩⟩
      change i < -(l.size : ℤ) ∨ (l.size : ℤ) ≤ i at h
      omega
    · exact absurd hrange hout

def twoInsts : HeldList ℕ where
  base := 0
  capacity := instListInitCapacity
  instArray := [10, 20]
  fits := by decide
  addressable := by decide

/-- `list[2]` of two instructions is `None`, and the next iteration ends the process; nor is
`list[-2]` the first of them. -/
theorem outOfRange_not_indexesAsIterated :
    getItem twoInsts.toInstList false 2 = (.null, true) ∧
      Iterates twoInsts.toInstList true [] .aborted ∧
      ¬ IndexesAsIterated twoInsts.toInstList false 2 ∧
      ¬ IndexesAsIterated twoInsts.toInstList false (-2) := by
  refine ⟨rfl, iterates_set _, fun h => ?_, fun h => ?_⟩
  · have hrange : (2 : ℤ) < 2 := (inRange_of_indexesAsIterated h).1.2
    omega
  · have hrange : (-2 : ℤ) < -2 := (inRange_of_indexesAsIterated h).1.1
    omega

/-! ## Runs of calls -/

/-- The calls that share `iter_error`. -/
inductive Call (ι : Type) where
  | index (l : HeldList ι) (i : ℤ)
  | next (it : InstListIter ι)

namespace Call

/-- The outcome of a call, and `iter_error` after it. -/
def run (iterError : Bool) : Call ι → Outcome ι × Bool
  | index l i => getItem l.toInstList iterError i
  | next it => ((it.next iterError).1, (it.next iterError).2.2)

/-- An index of the call is in range. -/
def IndexInRange : Call ι → Prop
  | index l i => InRange l.size i
  | next _ => True

/-- A call whose index is in range leaves `iter_error` clear, and does not end the process. -/
theorem run_clear {c : Call ι} (h : c.IndexInRange) :
    (c.run false).2 = false ∧ (c.run false).1 ≠ .aborted := by
  cases c with
  | index l i =>
      rcases getItem_cases l false i with ⟨-, inst, -, hitem⟩ | ⟨hout, -⟩
      · simp [run, hitem]
      · exact absurd h hout
  | next it =>
      simp only [run, InstListIter.next, Bool.false_eq_true, if_false]
      split <;> simp

/-- `iter_error` after a run of calls. -/
def iterErrorAfter (calls : List (Call ι)) : Bool :=
  calls.foldl (fun iterError c => (c.run iterError).2) false

/-- A run whose indices are in range leaves `iter_error` clear. -/
theorem iterErrorAfter_eq_false {calls : List (Call ι)} (h : ∀ c ∈ calls, c.IndexInRange) :
    iterErrorAfter calls = false := by
  induction calls using List.reverseRecOn with
  | nil => rfl
  | append_singleton calls c ih =>
      have hbefore := ih (fun c hc => h c (List.mem_append_left _ hc))
      have hclear := run_clear (h c (by simp))
      unfold iterErrorAfter at hbefore ⊢
      rw [List.foldl_append, hbefore]
      exact hclear.1

end Call

end CProfiler.InstLists
