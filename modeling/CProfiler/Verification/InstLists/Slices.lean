import CProfiler.Verification.InstLists.SliceLoop

/-! # Slices of instruction lists

Python moves the bounds of a slice into the list. `PySlice_GetIndices` shifts the negative
ones and no more, and `__getitem__` compares them as unsigned numbers. -/

namespace CProfiler.InstLists

open CProfiler.Foundation CProfiler.Model

variable {ι : Type} {m : Allocator}

/-! ## Bounds -/

/-- A bound that is given fits a `Py_ssize_t`. -/
def FitsSsizeT (bound : Option ℤ) : Prop := ∀ i ∈ bound, -2 ^ 63 ≤ i ∧ i < 2 ^ 63

/-- A bound of a slice of `n` items, shifted by the size when it is negative. -/
def shifted (n : ℕ) (default : ℤ) (bound : Option ℤ) : ℤ :=
  bound.elim default (fun i => if i < 0 then i + n else i)

/-- Where a slice of `n` items starts for `PySlice_GetIndices`: nothing is moved into the
list. -/
def startOf (n : ℕ) (r : PySlice) : ℤ :=
  shifted n (if r.stride < 0 then n - 1 else 0) r.start

/-- Where a slice of `n` items stops for `PySlice_GetIndices`. -/
def stopOf (n : ℕ) (r : PySlice) : ℤ :=
  shifted n (if r.stride < 0 then -1 else n) r.stop

theorem pyIntAsSsizeT_eq_some_iff {i j : ℤ} :
    pyIntAsSsizeT i = some j ↔ (-2 ^ 63 ≤ i ∧ i < 2 ^ 63) ∧ i = j := by
  unfold pyIntAsSsizeT
  split
  case isTrue hfits => exact ⟨fun h => ⟨hfits, Option.some.inj h⟩, fun h => congrArg some h.2⟩
  case isFalse hfits => exact ⟨fun h => (by cases h), fun h => absurd h.1 hfits⟩

theorem pyIntAsSsizeT_stride_iff {r : PySlice} {step : ℤ} :
    pyIntAsSsizeT r.stride = some step ↔ FitsSsizeT r.step ∧ r.stride = step := by
  rw [pyIntAsSsizeT_eq_some_iff, PySlice.stride, FitsSsizeT]
  cases r.step with
  | none => simp
  | some i => simp

theorem pySliceBound_eq_some_iff {n : ℕ} {default z : ℤ} {bound : Option ℤ} :
    pySliceBound n default bound = some z ↔
      FitsSsizeT bound ∧ shifted n default bound = z := by
  unfold pySliceBound FitsSsizeT shifted
  cases bound with
  | none => simp
  | some i => simp [pyIntAsSsizeT_eq_some_iff, and_assoc]

/-- `PySlice_GetIndices` has a result when every bound fits: the bounds, shifted. -/
theorem pySliceGetIndices_spec {n : ℕ} {r : PySlice} {indices : SliceIndices}
    (h : pySliceGetIndices r n = some indices) :
    (FitsSsizeT r.start ∧ FitsSsizeT r.stop ∧ FitsSsizeT r.step) ∧
      indices.start = startOf n r ∧ indices.stop = stopOf n r ∧ indices.step = r.stride := by
  rcases Option.bind_eq_some_iff.mp h with ⟨step, hstep, h⟩
  rcases Option.bind_eq_some_iff.mp h with ⟨start, hstart, h⟩
  rcases Option.map_eq_some_iff.mp h with ⟨stop, hstop, rfl⟩
  rcases pyIntAsSsizeT_stride_iff.mp hstep with ⟨hstepFits, rfl⟩
  rcases pySliceBound_eq_some_iff.mp hstart with ⟨hstartFits, rfl⟩
  rcases pySliceBound_eq_some_iff.mp hstop with ⟨hstopFits, rfl⟩
  exact ⟨⟨hstartFits, hstopFits, hstepFits⟩, rfl, rfl, rfl⟩

theorem exists_pySliceGetIndices {n : ℕ} {r : PySlice} (hstart : FitsSsizeT r.start)
    (hstop : FitsSsizeT r.stop) (hstep : FitsSsizeT r.step) :
    ∃ indices, pySliceGetIndices r n = some indices := by
  simp only [pySliceGetIndices, pyIntAsSsizeT_stride_iff.mpr ⟨hstep, rfl⟩,
    pySliceBound_eq_some_iff.mpr ⟨hstart, rfl⟩, pySliceBound_eq_some_iff.mpr ⟨hstop, rfl⟩]
  exact ⟨_, rfl⟩

/-- The bounds of a slice of `n` items, each a `Py_ssize_t`. -/
structure SliceBounds (n : ℕ) (start stop step : ℤ) : Prop where
  size_lt : n < 2 ^ 60
  start_ge : -2 ^ 63 ≤ start
  start_lt : start < 2 ^ 63
  stop_ge : -2 ^ 63 ≤ stop
  stop_lt : stop < 2 ^ 63
  step_ge : -2 ^ 63 ≤ step
  step_lt : step < 2 ^ 63

/-- A bound that fits still does when it was shifted by the size. -/
theorem shifted_fits {n : ℕ} {default : ℤ} {bound : Option ℤ} (hn : n < 2 ^ 60)
    (hfits : FitsSsizeT bound) (hle : -1 ≤ default) (hlt : default ≤ n) :
    -2 ^ 63 ≤ shifted n default bound ∧ shifted n default bound < 2 ^ 63 := by
  unfold shifted
  cases bound with
  | none =>
      rw [Option.elim_none]
      omega
  | some i =>
      have hi := hfits i rfl
      rw [Option.elim_some]
      split <;> omega

theorem sliceBounds_of_fits {n : ℕ} {r : PySlice} (hn : n < 2 ^ 60) (hstart : FitsSsizeT r.start)
    (hstop : FitsSsizeT r.stop) (hstep : FitsSsizeT r.step) :
    SliceBounds n (startOf n r) (stopOf n r) r.stride := by
  have hfirst : -2 ^ 63 ≤ startOf n r ∧ startOf n r < 2 ^ 63 :=
    shifted_fits hn hstart (by split <;> omega) (by split <;> omega)
  have hlast : -2 ^ 63 ≤ stopOf n r ∧ stopOf n r < 2 ^ 63 :=
    shifted_fits hn hstop (by split <;> omega) (by split <;> omega)
  have hstride := (pyIntAsSsizeT_eq_some_iff.mp (pyIntAsSsizeT_stride_iff.mpr ⟨hstep, rfl⟩)).1
  exact ⟨hn, hfirst.1, hfirst.2, hlast.1, hlast.2, hstride.1, hstride.2⟩

/-! ## Positions -/

/-- A bound of the slice as Python moves it into a list of `n` items. -/
def clamp (n : ℕ) (step z : ℤ) : ℤ :=
  if step < 0 then max (-1) (min z (n - 1)) else max 0 (min z n)

theorem clamp_eq {n : ℕ} {step z : ℤ} (h : 0 ≤ z) (hlt : z < n) : clamp n step z = z := by
  unfold clamp
  split <;> omega

theorem first_eq (n : ℕ) (r : PySlice) : r.first n = clamp n r.stride (startOf n r) := by
  unfold PySlice.first startOf shifted
  cases r.start with
  | some i => rfl
  | none =>
      simp only [Option.elim_none, clamp]
      split <;> omega

theorem last_eq (n : ℕ) (r : PySlice) : r.last n = clamp n r.stride (stopOf n r) := by
  unfold PySlice.last stopOf shifted
  cases r.stop with
  | some i => rfl
  | none =>
      simp only [Option.elim_none, clamp]
      split <;> omega

section Select

variable {n : ℕ} {r : PySlice}

/-- How many positions are selected, by the distance from the first. -/
theorem lt_count_iff (hstep : r.stride ≠ 0) (k : ℕ) :
    k < r.count n ↔
      if r.stride < 0 then r.last n < r.first n + k * r.stride
      else r.first n + k * r.stride < r.last n := by
  unfold PySlice.count
  split
  case isTrue hneg =>
      rw [lt_steps_iff (by omega), Int.mul_neg]
      omega
  case isFalse hpos =>
      rw [lt_steps_iff (by omega)]
      omega

/-- Python selects positions of the list only. -/
theorem position_bounds (hstep : r.stride ≠ 0) {k : ℕ} (hk : k < r.count n) :
    0 ≤ r.first n + k * r.stride ∧ r.first n + k * r.stride < n := by
  have hfirst := first_eq n r
  have hlast := last_eq n r
  rw [lt_count_iff hstep] at hk
  unfold clamp at hfirst hlast
  by_cases hneg : r.stride < 0
  · have hsteps : k * r.stride ≤ 0 := Int.mul_nonpos_of_nonneg_of_nonpos (by omega) (by omega)
    rw [if_pos hneg] at hk hfirst hlast
    omega
  · have hsteps : 0 ≤ k * r.stride := Int.mul_nonneg (by omega) (by omega)
    rw [if_neg hneg] at hk hfirst hlast
    omega

/-- The selected instructions, one for each position. -/
theorem select_spec {l : List ι} (hstep : r.stride ≠ 0) :
    (r.select l).length = r.count l.length ∧ ∀ k < r.count l.length,
      (r.select l)[k]? = l[(r.first l.length + k * r.stride).toNat]? := by
  unfold PySlice.select
  refine filterMap_range (fun k hk => ?_)
  have hbounds := position_bounds hstep hk
  rw [List.getElem?_eq_getElem (by omega)]
  rfl

end Select

/-! ## The walk against Python's positions -/

/-- The slices of `n` items whose walk stays with Python's positions. -/
def Orderly (n : ℕ) (start stop step : ℤ) : Prop :=
  if step < 0 then
    (0 ≤ stop ∧ stop ≤ start ∧ (start = stop ∨ (n : ℤ) - 1 ≤ stop)) ∨
      (start < 0 ∧ 0 ≤ stop) ∨
      (stop < 0 ∧ 0 ≤ start ∧ start < n ∧
        ∀ k : ℕ, 0 ≤ start + k * step → stop ≤ start + (k + 1 : ℕ) * step) ∨
      (start < 0 ∧ stop ≤ start)
  else
    (0 ≤ start ∧ 0 ≤ stop ∧ ∀ k : ℕ, n ≤ start + k * step → stop ≤ start + k * step) ∨
      (start < 0 ∧ 0 ≤ stop ∧ (n = 0 ∨ stop = 0)) ∨
      (start < 0 ∧ stop ≤ start)

/-- A walk of `count` turns from `start`, which is Python's first position if there is one. -/
structure InStep (first start stop step : ℤ) (count : ℕ) : Prop where
  reads : ∀ k < count, first = start ∧ start + k * step < toSizeT stop
  ends : toSizeT stop ≤ toSizeT (start + count * step)

/-- The walk reads what Python selects exactly when it starts at Python's first position,
if there is one, and stops after as many turns. -/
theorem sliceWalk_select_iff {l : InstList ι} {r : PySlice} {start stop : ℤ}
    (b : SliceBounds l.size start stop r.stride) (hstep : r.stride ≠ 0)
    (hfirst : r.first l.size = clamp l.size r.stride start) :
    SliceWalk l stop r.stride start (r.select l.instArray) ↔
      InStep (r.first l.size) start stop r.stride (r.count l.size) := by
  rcases b with ⟨hsize, hge, hlt, -, hstopLt, -, -⟩
  rcases select_spec (l := l.instArray) hstep with ⟨hlength, hget⟩
  change (r.select l.instArray).length = r.count l.size at hlength
  change ∀ k < r.count l.size, _ = l.instArray[(r.first l.size + k * r.stride).toNat]? at hget
  unfold SliceWalk
  rw [walk_iff_iterate, hlength, Nat.not_lt]
  simp only [iterate_add, instListGet]
  refine ⟨fun ⟨h, hends⟩ => ⟨fun k hk => ?_, hends⟩, fun ⟨h, hends⟩ => ⟨fun k hk => ?_, hends⟩⟩
  · -- The first number read is a position of the list, so that it was not negative.
    have hzero := h 0 (by omega)
    have hpos := position_bounds (n := l.size) hstep (k := 0) (by omega)
    rw [hget 0 (by omega)] at hzero
    simp only [Nat.cast_zero, Int.zero_mul, Int.add_zero] at hzero hpos
    have hposition : (r.first l.size).toNat < l.instArray.length := by
      change _ < l.size
      omega
    rw [List.getElem?_eq_getElem hposition] at hzero
    rcases List.getElem?_eq_some_iff.mp hzero.2 with ⟨hread, -⟩
    change _ < l.size at hread
    have hstart : 0 ≤ start := by
      by_contra hneg
      have hunsigned := toSizeT_of_neg (z := start) (by omega) (by omega)
      omega
    have hsmall := toSizeT_of_nonneg hstart (by omega)
    have hsame : r.first l.size = start := hfirst.trans (clamp_eq hstart (by omega))
    have hk' := position_bounds hstep hk
    rw [hsame] at hk'
    have hunsigned := toSizeT_of_nonneg hk'.1 (by omega)
    have hbelow := (h k hk).1
    exact ⟨hsame, by omega⟩
  · rcases h k hk with ⟨hsame, hbelow⟩
    have hk' := position_bounds hstep hk
    rw [hsame] at hk'
    have hunsigned := toSizeT_of_nonneg hk'.1 (by omega)
    refine ⟨by omega, ?_⟩
    rw [hget k hk, hsame]
    congr 1
    omega

/-! ## Signs -/

section Signs

variable {n count : ℕ} {start stop step : ℤ}

/-- A walk that is over before its first turn. -/
theorem inStep_zero_iff {first : ℤ} (hcount : count = 0) :
    InStep first start stop step count ↔ toSizeT stop ≤ toSizeT start := by
  subst hcount
  refine ⟨fun h => ?_, fun h => ⟨fun k hk => absurd hk (Nat.not_lt_zero k), ?_⟩⟩
  · simpa using h.ends
  · simpa using h

/-- Forwards from a start that is not negative: a step that leaves the list has to leave
`stop` behind, too. -/
theorem inStep_forwards_iff (hn : n < 2 ^ 60) (hstep : 0 < step)
    (hstepLt : step < 2 ^ 63) (hstart : 0 ≤ start) (hstartLt : start < 2 ^ 63) (hstop : 0 ≤ stop)
    (hstopLt : stop < 2 ^ 63)
    (hcount : ∀ k : ℕ, k < count ↔ max 0 (min start n) + k * step < max 0 (min stop n)) :
    InStep (max 0 (min start n)) start stop step count ↔
      ∀ k : ℕ, n ≤ start + k * step → stop ≤ start + k * step := by
  have hsmall := toSizeT_of_nonneg hstop (by omega)
  have hnonneg (k : ℕ) : 0 ≤ k * step := Int.mul_nonneg (by omega) (by omega)
  refine ⟨fun h k hk => ?_, fun h => ⟨fun k hk => ?_, ?_⟩⟩
  · rcases h with ⟨hread, hend⟩
    by_contra hlt
    have hpast : count ≤ k := by
      by_contra hbefore
      have hfirst := (hread k (by omega)).1
      have hbelow := (hcount k).mp (by omega)
      omega
    have hsteps : count * step ≤ k * step :=
      Int.mul_le_mul_of_nonneg_right (by omega) (by omega)
    have hcounted := hnonneg count
    have hunsigned := toSizeT_of_nonneg (z := start + count * step) (by omega) (by omega)
    omega
  · have hbelow := (hcount k).mp hk
    have hk' := hnonneg k
    omega
  · have hover : stop ≤ start + count * step := by
      have hnot := mt (hcount count).mpr (Nat.lt_irrefl count)
      have hleft := h count
      have hcounted := hnonneg count
      omega
    have hunsigned : (toSizeT (start + count * step) : ℤ) = start + count * step := by
      refine toSizeT_of_nonneg (by omega) ?_
      cases count with
      | zero =>
          rw [Nat.cast_zero, Int.zero_mul]
          omega
      | succ count =>
          have hbelow := (hcount count).mp (Nat.lt_succ_self count)
          have hcounted := hnonneg count
          rw [Nat.cast_succ, Int.add_mul, Int.one_mul]
          omega
    omega

/-- Forwards, the walk may leave the list only by a step over `stop`. -/
theorem orderly_iff_of_pos (b : SliceBounds n start stop step) (hstep : 0 < step)
    (hcount : ∀ k : ℕ, k < count ↔ clamp n step start + k * step < clamp n step stop) :
    InStep (clamp n step start) start stop step count ↔ Orderly n start stop step := by
  rcases b with ⟨hn, hstartGe, hstartLt, hstopGe, hstopLt, -, hstepLt⟩
  have hzero := hcount 0
  have hforwards : ¬ step < 0 := by omega
  unfold clamp at hcount hzero ⊢
  unfold Orderly
  simp only [Nat.cast_zero, Int.zero_mul, Int.add_zero, if_neg hforwards] at hcount hzero ⊢
  by_cases hstop : stop < 0
  · have hlarge := toSizeT_of_neg hstop (by omega)
    rw [inStep_zero_iff (by omega)]
    by_cases hstart : start < 0
    · have hstartLarge := toSizeT_of_neg hstart (by omega)
      refine ⟨fun h => .inr (.inr ⟨hstart, by omega⟩), fun h => ?_⟩
      rcases h with ⟨h, -⟩ | ⟨-, h, -⟩ | ⟨-, h⟩ <;> omega
    · have hstartSmall := toSizeT_of_nonneg (z := start) (by omega) (by omega)
      refine ⟨fun h => by omega, fun h => ?_⟩
      rcases h with ⟨-, h, -⟩ | ⟨-, h, -⟩ | ⟨h, -⟩ <;> omega
  · have hsmall := toSizeT_of_nonneg (z := stop) (by omega) (by omega)
    by_cases hstart : start < 0
    · have hstartLarge := toSizeT_of_neg hstart (by omega)
      refine ⟨fun h => ?_, fun h => ?_⟩
      · have hnone : count = 0 := by
          by_contra hsome
          have hfirst := (h.reads 0 (by omega)).1
          omega
        exact .inr (.inl ⟨hstart, by omega, by omega⟩)
      · have hnone : count = 0 := by
          rcases h with ⟨h, -⟩ | ⟨-, -, h⟩ | ⟨-, h⟩ <;> omega
        rw [inStep_zero_iff hnone]
        omega
    · rw [inStep_forwards_iff hn hstep hstepLt (by omega) hstartLt (by omega) hstopLt hcount]
      refine ⟨fun h => .inl ⟨by omega, by omega, h⟩, fun h => ?_⟩
      rcases h with ⟨-, -, h⟩ | ⟨h, -⟩ | ⟨h, -⟩
      · exact h
      · exact absurd h hstart
      · exact absurd h hstart

/-- Backwards to a negative `stop`: the first number below zero must not be below `stop`. -/
theorem inStep_backwards_iff (hn : n < 2 ^ 60) (hstep : step < 0)
    (hstepGe : -2 ^ 63 ≤ step) (hstart : 0 ≤ start) (hstartLt : start < 2 ^ 63) (hstop : stop < 0)
    (hstopGe : -2 ^ 63 ≤ stop)
    (hcount : ∀ k : ℕ, k < count ↔ -1 < max (-1) (min start (n - 1)) + k * step) :
    InStep (max (-1) (min start (n - 1))) start stop step count ↔
      start < n ∧
        ∀ k : ℕ, 0 ≤ start + k * step → stop ≤ start + (k + 1 : ℕ) * step := by
  have hlarge := toSizeT_of_neg hstop (by omega)
  have hnonpos (k : ℕ) : k * step ≤ 0 :=
    Int.mul_nonpos_of_nonneg_of_nonpos (by omega) (by omega)
  have hnext (k : ℕ) : ((k + 1 : ℕ) : ℤ) * step = k * step + step := by
    rw [Nat.cast_succ, Int.add_mul, Int.one_mul]
  have hzero := hcount 0
  rw [Nat.cast_zero, Int.zero_mul, Int.add_zero] at hzero
  refine ⟨fun h => ?_, fun h => ⟨fun k hk => ?_, ?_⟩⟩
  · rcases h with ⟨hread, hend⟩
    have hpos : 0 < count := by
      by_contra hnone
      obtain rfl : count = 0 := by omega
      have hsmall := toSizeT_of_nonneg hstart (by omega)
      rw [Nat.cast_zero, Int.zero_mul, Int.add_zero] at hend
      omega
    have hfirst := (hread 0 hpos).1
    refine ⟨by omega, fun k hk => ?_⟩
    have hcounted := (hcount k).mpr (by omega)
    by_cases hlast : k + 1 < count
    · have hbefore := (hcount (k + 1)).mp hlast
      omega
    · obtain rfl : count = k + 1 := by omega
      by_contra hover
      have hunsigned := toSizeT_of_neg (z := start + (k + 1 : ℕ) * step) (by omega)
        (by rw [hnext]; omega)
      omega
  · have hbelow := (hcount k).mp hk
    have hk' := hnonpos k
    omega
  · have hpos : 0 < count := hzero.mpr (by omega)
    obtain ⟨last, rfl⟩ : ∃ last, count = last + 1 := ⟨count - 1, by omega⟩
    have hbefore := (hcount last).mp (Nat.lt_succ_self last)
    have hnot := mt (hcount (last + 1)).mpr (Nat.lt_irrefl (last + 1))
    have hover := h.2 last (by omega)
    have hunsigned := toSizeT_of_neg (z := start + (last + 1 : ℕ) * step) (by omega) (by omega)
    omega

/-- Backwards, the walk is empty unless `stop` is negative, and then it has to be low enough. -/
theorem orderly_iff_of_neg (b : SliceBounds n start stop step) (hstep : step < 0)
    (hcount : ∀ k : ℕ, k < count ↔ clamp n step stop < clamp n step start + k * step) :
    InStep (clamp n step start) start stop step count ↔ Orderly n start stop step := by
  rcases b with ⟨hn, hstartGe, hstartLt, hstopGe, hstopLt, hstepGe, -⟩
  have hzero := hcount 0
  unfold clamp at hcount hzero ⊢
  unfold Orderly
  simp only [Nat.cast_zero, Int.zero_mul, Int.add_zero, if_pos hstep] at hcount hzero ⊢
  by_cases hstart : start < 0
  · -- Python starts before the first position, so that nothing is selected.
    have hlarge := toSizeT_of_neg hstart (by omega)
    rw [inStep_zero_iff (by omega)]
    by_cases hstop : stop < 0
    · have hstopLarge := toSizeT_of_neg hstop (by omega)
      refine ⟨fun h => .inr (.inr (.inr ⟨hstart, by omega⟩)), fun h => ?_⟩
      rcases h with ⟨h, -⟩ | ⟨-, h⟩ | ⟨-, h, -⟩ | ⟨-, h⟩ <;> omega
    · have hstopSmall := toSizeT_of_nonneg (z := stop) (by omega) (by omega)
      exact ⟨fun _ => .inr (.inl ⟨hstart, by omega⟩), fun _ => by omega⟩
  · have hsmall := toSizeT_of_nonneg (z := start) (by omega) (by omega)
    by_cases hstop : stop < 0
    · have hlast : max (-1) (min stop (n - 1)) = (-1 : ℤ) := by omega
      rw [hlast] at hcount
      rw [inStep_backwards_iff hn hstep hstepGe (by omega) hstartLt hstop hstopGe hcount]
      refine ⟨fun h => .inr (.inr (.inl ⟨hstop, by omega, h⟩)), fun h => ?_⟩
      rcases h with ⟨h, -⟩ | ⟨h, -⟩ | ⟨-, -, h⟩ | ⟨h, -⟩
      · exact absurd hstop (by omega)
      · exact absurd h hstart
      · exact h
      · exact absurd h hstart
    · have hstopSmall := toSizeT_of_nonneg (z := stop) (by omega) (by omega)
      refine ⟨fun h => ?_, fun h => ?_⟩
      · have hnone : count = 0 := by
          by_contra hsome
          have hread := (h.reads 0 (by omega)).2
          rw [Nat.cast_zero, Int.zero_mul] at hread
          omega
        rw [inStep_zero_iff hnone] at h
        exact .inl ⟨by omega, by omega, by omega⟩
      · rcases h with h | ⟨h, -⟩ | ⟨h, -⟩ | ⟨h, -⟩
        · rw [inStep_zero_iff (by omega)]
          omega
        · exact absurd h hstart
        · exact absurd h hstop
        · exact absurd h hstart

end Signs

/-! ## Exactness -/

/-- The slices of `n` items that come out as in Python: every bound fits, the memory is
granted for as many instructions as Python selects, and the bounds are in order. -/
structure Sliceable (m : Allocator) (n : ℕ) (r : PySlice) : Prop where
  start_fits : FitsSsizeT r.start
  stop_fits : FitsSsizeT r.stop
  step_fits : FitsSsizeT r.step
  struct_granted : m.grants sizeofInstList = true
  array_granted : m.grants (slotBytes (toSizeT (stopOf n r - startOf n r))) = true
  room : Room m (slotsIn (toSizeT (stopOf n r - startOf n r))) (r.count n)
  orderly : Orderly n (startOf n r) (stopOf n r) r.stride

theorem sliceWalk_iff_orderly {l : InstList ι} {r : PySlice} (hstep : r.stride ≠ 0)
    (b : SliceBounds l.size (startOf l.size r) (stopOf l.size r) r.stride) :
    SliceWalk l (stopOf l.size r) r.stride (startOf l.size r) (r.select l.instArray) ↔
      Orderly l.size (startOf l.size r) (stopOf l.size r) r.stride := by
  have hcount := lt_count_iff (n := l.size) hstep
  rw [sliceWalk_select_iff b hstep (first_eq l.size r)]
  rw [first_eq l.size r, last_eq l.size r] at *
  by_cases hneg : r.stride < 0
  · simp only [if_pos hneg] at hcount
    exact orderly_iff_of_neg b hneg hcount
  · simp only [if_neg hneg] at hcount
    exact orderly_iff_of_pos b (by omega) hcount

/-- Slicing follows Python on exactly the slices whose bounds stay in order as unsigned
numbers, and whose difference asks for memory that is granted. -/
theorem slicesAsPython_iff (m : Allocator) (l : HeldList ι) (r : PySlice)
    (hstep : r.stride ≠ 0) :
    SlicesAsPython m l.toInstList r ↔ Sliceable m l.size r := by
  have hsize : l.size < 2 ^ 60 := Nat.lt_of_le_of_lt l.fits l.addressable
  have hselected : (r.select l.instArray).length = r.count l.size := (select_spec hstep).1
  refine ⟨fun h => ?_, fun h => ?_⟩
  · cases hindices : pySliceGetIndices r l.size with
    | none =>
        rcases h with ⟨ret, hret, -⟩
        simp [GetSlice, hindices] at hret
    | some indices =>
        rcases pySliceGetIndices_spec hindices with
          ⟨⟨hstartFits, hstopFits, hstepFits⟩, hstart, hstop, hstride⟩
        have b := sliceBounds_of_fits hsize hstartFits hstopFits hstepFits
        rw [slicesAsPython_iff_walk hindices, hselected, hstart, hstop, hstride,
          sliceWalk_iff_orderly hstep b] at h
        rcases h with ⟨⟨hstruct, harray, hroom⟩, horderly⟩
        exact ⟨hstartFits, hstopFits, hstepFits, hstruct, harray, hroom, horderly⟩
  · rcases exists_pySliceGetIndices (n := l.size) h.start_fits h.stop_fits h.step_fits with
      ⟨indices, hindices⟩
    rcases pySliceGetIndices_spec hindices with ⟨-, hstart, hstop, hstride⟩
    have b := sliceBounds_of_fits hsize h.start_fits h.stop_fits h.step_fits
    rw [slicesAsPython_iff_walk hindices, hselected, hstart, hstop, hstride,
      sliceWalk_iff_orderly hstep b]
    exact ⟨⟨h.struct_granted, h.array_granted, h.room⟩, h.orderly⟩

def threeInsts : HeldList ℕ where
  base := 0
  capacity := instListInitCapacity
  instArray := [10, 20, 30]
  fits := Nat.le_of_ble_eq_true rfl
  addressable := Nat.le_of_ble_eq_true rfl

/-- `list[0::2]` of three instructions is the first and the third. -/
theorem slicesAsPython_iff_evenPositions :
    SlicesAsPython .ample threeInsts.toInstList ⟨some 0, none, some 2⟩ := by
  refine (slicesAsPython_iff .ample threeInsts ⟨some 0, none, some 2⟩ (by decide)).mpr ?_
  refine ⟨?_, ?_, ?_, rfl, rfl, ?_, .inl ⟨by decide, by decide, fun _ h => h⟩⟩
  · simp [FitsSsizeT]
  · simp [FitsSsizeT]
  · simp [FitsSsizeT]
  · unfold Room
    decide

/-- `list[::-1]`: `stop - start` is negative, so that more memory is asked for than there
is, and the process ends. -/
theorem reversed_not_slicesAsPython :
    GetSlice .ample threeInsts.toInstList ⟨none, none, some (-1)⟩ (.error (.memory .exit)) ∧
      ¬ SlicesAsPython .ample threeInsts.toInstList ⟨none, none, some (-1)⟩ := by
  refine ⟨rfl, fun h => ?_⟩
  rcases h with ⟨ret, hret, -⟩
  change Except.ok ret = Except.error (SliceError.memory .exit) at hret
  cases hret

end CProfiler.InstLists
