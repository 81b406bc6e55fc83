import CProfiler.Model.InstListSwig
import CProfiler.Verification.InstLists.Capacity

/-! # The loop of a slice

`__getitem__` walks from `start` in steps of `step` while it is below `stop`, all three
converted to `size_t`. A negative number is then above every position of a list. -/

namespace CProfiler.InstLists

open CProfiler.Foundation CProfiler.Model

variable {ι : Type} {m : Allocator}

/-! ## Unsigned bounds -/

theorem toSizeT_of_nonneg {z : ℤ} (h : 0 ≤ z) (hlt : z < 2 ^ 64) : (toSizeT z : ℤ) = z := by
  unfold toSizeT
  omega

theorem toSizeT_of_neg {z : ℤ} (h : z < 0) (hle : -2 ^ 64 ≤ z) :
    (toSizeT z : ℤ) = z + 2 ^ 64 := by
  unfold toSizeT
  omega

theorem toSizeT_add (z step : ℤ) :
    (toSizeT z + toSizeT step) % 2 ^ 64 = toSizeT (z + step) := by
  unfold toSizeT
  omega

/-! ## The loop -/

/-- The instructions that the loop reads from a signed position on. -/
def SliceWalk (l : InstList ι) (stop step : ℤ) : ℤ → List ι → Prop :=
  Walk (fun z => toSizeT z < toSizeT stop) (fun z => z + step)
    (fun z => instListGet l (toSizeT z))

/-- A turn of the loop ends it, reads an instruction and appends it, or goes wrong. -/
theorem sliceTurn_cases (m : Allocator) (l : InstList ι) (stop step z : ℤ) (ret : RawList ι) :
    (¬ toSizeT z < toSizeT stop ∧
        sliceTurn m l stop step ⟨toSizeT z, ret⟩ = .done (.ok ret)) ∨
      (toSizeT z < toSizeT stop ∧ ∃ inst roomy, instListGet l (toSizeT z) = some inst ∧
        ret.append m inst = .ok roomy ∧
        sliceTurn m l stop step ⟨toSizeT z, ret⟩ = .next ⟨toSizeT (z + step), roomy⟩) ∨
      (toSizeT z < toSizeT stop ∧
        (∀ inst roomy, instListGet l (toSizeT z) = some inst → ret.append m inst ≠ .ok roomy) ∧
        ∃ error, sliceTurn m l stop step ⟨toSizeT z, ret⟩ = .done (.error error)) := by
  by_cases hlt : toSizeT z < toSizeT stop
  · rw [sliceTurn, if_pos hlt]
    cases hget : instListGet l (toSizeT z) with
    | none => exact .inr (.inr ⟨hlt, fun _ _ h => (by cases h), _, rfl⟩)
    | some inst =>
        cases happend : ret.append m inst with
        | error fault =>
            refine .inr (.inr ⟨hlt, fun inst' roomy h => ?_, .memory fault, by simp [happend]⟩)
            obtain rfl : inst = inst' := Option.some.inj h
            rw [happend]
            exact fun h => nomatch h
        | ok roomy =>
            refine .inr (.inl ⟨hlt, inst, roomy, rfl, happend, ?_⟩)
            simp [happend, ← toSizeT_add]
  · exact .inl ⟨hlt, if_neg hlt⟩

/-- The loop returns exactly when its walk ends and there was room for what it read. -/
theorem sliceTurn_returns_iff {l : InstList ι} {stop step z : ℤ} {ret ret' : RawList ι} :
    Returns (sliceTurn m l stop step) ⟨toSizeT z, ret⟩ (.ok ret') ↔
      ∃ insts, SliceWalk l stop step z insts ∧ ret.appendAll m insts = .ok ret' := by
  refine ⟨fun h => ?_, fun h => ?_⟩
  · rcases h with ⟨fuel, hfuel⟩
    induction fuel generalizing z ret with
    | zero => cases hfuel
    | succ fuel ih =>
        rcases sliceTurn_cases m l stop step z ret with ⟨hstop, hturn⟩ |
          ⟨hlt, inst, roomy, hget, happend, hturn⟩ | ⟨-, -, error, hturn⟩
        · rw [runLoop_done hturn] at hfuel
          exact ⟨[], .stop hstop, by simpa using hfuel⟩
        · rw [runLoop_next hturn] at hfuel
          rcases ih hfuel with ⟨insts, hwalk, hall⟩
          refine ⟨inst :: insts, .turn hlt hget hwalk, ?_⟩
          rw [RawList.appendAll_cons, happend]
          exact hall
        · rw [runLoop_done hturn] at hfuel
          cases hfuel
  · rcases h with ⟨insts, hwalk, hall⟩
    induction hwalk generalizing ret with
    | @stop z hstop =>
        rcases sliceTurn_cases m l stop step z ret with ⟨-, hturn⟩ | ⟨hlt, -⟩ | ⟨hlt, -⟩
        · obtain rfl : ret = ret' := Except.ok.inj hall
          exact Returns.of_done hturn
        · exact absurd hlt hstop
        · exact absurd hlt hstop
    | @turn z inst insts hgo hread hrest ih =>
        rw [RawList.appendAll_cons] at hall
        rcases sliceTurn_cases m l stop step z ret with ⟨hstop, -⟩ |
          ⟨-, inst', roomy, hget, happend, hturn⟩ | ⟨-, hfail, -⟩
        · exact absurd hgo hstop
        · obtain rfl : inst = inst' := Option.some.inj (hread.symm.trans hget)
          rw [happend] at hall
          exact Returns.of_next hturn (ih hall)
        · cases happend : ret.append m inst with
          | error fault =>
              rw [happend] at hall
              cases hall
          | ok roomy => exact absurd happend (hfail inst roomy hread)

/-- A slice returns exactly when its memory is granted, and its walk ends and leaves room. -/
theorem getSlice_ok_iff {l : InstList ι} {r : PySlice} {indices : SliceIndices}
    (h : pySliceGetIndices r l.size = some indices) {ret : RawList ι} :
    GetSlice m l r (.ok ret) ↔ m.grants sizeofInstList = true ∧
      ∃ insts, SliceWalk l indices.stop indices.step indices.start insts ∧
        built m (.initSize (toSizeT (indices.stop - indices.start))) insts = .ok ret := by
  have hbuilt (insts : List ι) :
      built m (.initSize (toSizeT (indices.stop - indices.start))) insts =
        (instListInitSize m none (toSizeT (indices.stop - indices.start))).bind
          (fun l => l.appendAll m insts) := rfl
  simp only [GetSlice, h, sliceInit, hbuilt]
  cases hstruct : m.grants sizeofInstList with
  | false => simp
  | true =>
      cases hinit : instListInitSize (ι := ι) m none
          (toSizeT (indices.stop - indices.start)) with
      | error fault => simp [Except.bind]
      | ok new => simpa [Except.bind] using sliceTurn_returns_iff

/-- The slice returns, with the instructions that Python's slicing selects. -/
def SlicesAsPython (m : Allocator) (l : InstList ι) (r : PySlice) : Prop :=
  ∃ ret, GetSlice m l r (.ok ret) ∧ ret.contents = (r.select l.instArray).map some

/-- The slice is right exactly when the walk reads what Python selects, and its memory is
granted. -/
theorem slicesAsPython_iff_walk {l : InstList ι} {r : PySlice} {indices : SliceIndices}
    (h : pySliceGetIndices r l.size = some indices) :
    SlicesAsPython m l r ↔
      (m.grants sizeofInstList = true ∧
        m.grants (slotBytes (toSizeT (indices.stop - indices.start))) = true ∧
        Room m (slotsIn (toSizeT (indices.stop - indices.start)))
          (r.select l.instArray).length) ∧
      SliceWalk l indices.stop indices.step indices.start (r.select l.instArray) := by
  have hbuilds := built_eq_ok_iff m (.initSize (toSizeT (indices.stop - indices.start)))
    (r.select l.instArray)
  simp only [Creation.requested] at hbuilds
  refine ⟨fun hslices => ?_, fun hcond => ?_⟩
  · rcases hslices with ⟨ret, hget, hcontents⟩
    rcases (getSlice_ok_iff h).mp hget with ⟨hstruct, insts, hwalk, hbuilt⟩
    have hfilled := filled_of_built hbuilt
    have hsame : insts = r.select l.instArray :=
      List.map_injective_iff.mpr (Option.some_injective ι)
        (hfilled.contents_eq.symm.trans hcontents)
    rw [hsame] at hwalk hbuilt
    exact ⟨⟨hstruct, hbuilds.mp ⟨ret, hbuilt⟩⟩, hwalk⟩
  · rcases hcond with ⟨⟨hstruct, hmemory⟩, hwalk⟩
    rcases hbuilds.mpr hmemory with ⟨ret, hbuilt⟩
    exact ⟨ret, (getSlice_ok_iff h).mpr ⟨hstruct, _, hwalk, hbuilt⟩,
      (filled_of_built hbuilt).contents_eq⟩

end CProfiler.InstLists
