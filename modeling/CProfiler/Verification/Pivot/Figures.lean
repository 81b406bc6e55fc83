import CProfiler.Verification.Pivot.Chosen

/-! One displayed value after another: when its pivot table is made, and that the
loop over the displayed values leaves that table in its result. -/

namespace CProfiler.Pivot

open Model Foundation

variable {V G : Type} [LinearOrder V]

/-! ## Hex columns -/

/-- The condition on one column under which it is written in hex. -/
def HexableAt (hex : V → Option V) (t : Table V) (name : ColName) : Prop :=
  name ∈ t.columns → ∀ row ∈ t.rows, ((row name).bind hex).isSome

omit [LinearOrder V] in
theorem hexable_iff {hex : V → Option V} {t : Table V} :
    Hexable hex t ↔ HexableAt hex t bbColumn ∧ HexableAt hex t bb1Column := by
  simp [Hexable, HexableAt, hexColumns]

omit [LinearOrder V] in
theorem columnToHex_ok {hex : V → Option V} {t : Table V} {name : ColName}
    (h : HexableAt hex t name) :
    ∃ d, columnToHex hex t name = .ok d ∧
      ∀ other, other ≠ name → (HexableAt hex d other ↔ HexableAt hex t other) := by
  unfold columnToHex
  by_cases hname : name ∈ t.columns
  · have hall : t.rows.all (fun row => ((row name).bind hex).isSome) = true := by
      simpa using h hname
    rw [if_pos hname, if_pos hall]
    refine ⟨_, rfl, ?_⟩
    intro other hother
    simp [HexableAt, Table.apply, hother]
  · rw [if_neg hname]
    exact ⟨t, rfl, fun _ _ => Iff.rfl⟩

omit [LinearOrder V] in
theorem columnToHex_error {hex : V → Option V} {t : Table V} {name : ColName}
    (h : ¬ HexableAt hex t name) : columnToHex hex t name = .error .typeError := by
  have hname : name ∈ t.columns := by
    by_contra hno
    exact h (fun hin => absurd hin hno)
  have hall : ¬ t.rows.all (fun row => ((row name).bind hex).isSome) = true := by
    intro hall
    exact h (fun _ => by simpa using hall)
  unfold columnToHex
  rw [if_pos hname, if_neg hall]

/-! ## One displayed value -/

section Displayed

variable [AddMonoid G] (engine : Engine V G) {filtered : List (Path × DataFrame V)}
  {columnTuples rowTuples displayedTuples : List ColumnTuple}
  (aggfunc : List (Option V) → Option G) {displayed : ColumnTuple} {t : Table V}

theorem pivotDisplayed_eq (ht : neededTable engine.order filtered
      (dfColumnDict displayed columnTuples rowTuples displayedTuples) = .ok t)
    (hhex : Hexable engine.hex t) :
    pivotDisplayed engine filtered columnTuples rowTuples displayedTuples aggfunc displayed =
      pivotTable t displayed.2 (rowTuples.map Prod.snd) (columnTuples.map Prod.snd) 0 aggfunc := by
  obtain ⟨hbb, hbb1⟩ := hexable_iff.mp hhex
  obtain ⟨d, hd, hother⟩ := columnToHex_ok hbb
  obtain ⟨d', hd', -⟩ := columnToHex_ok ((hother bb1Column (by decide)).mpr hbb1)
  have hcollects := collects_foldl (displayed :: (columnTuples ++ rowTuples ++ displayedTuples))
  have hchosen : ∀ name ∈ displayed.2 :: (rowTuples.map Prod.snd ++ columnTuples.map Prod.snd),
      name ∈ (dfColumnDict displayed columnTuples rowTuples displayedTuples).flatMap Prod.snd := by
    intro name hname
    simp only [List.mem_cons, List.mem_append, List.mem_map] at hname
    obtain rfl | ⟨u, hu, rfl⟩ | ⟨u, hu, rfl⟩ := hname
    · exact hcollects.names displayed (by simp)
    · exact hcollects.names u (by simp [hu])
    · exact hcollects.names u (by simp [hu])
  unfold pivotDisplayed
  simp only [ht, hd, hd', bind, Except.bind]
  exact pivotTable_dropUnchosen t hchosen 0 aggfunc

theorem pivotDisplayed_error_of_hex (ht : neededTable engine.order filtered
      (dfColumnDict displayed columnTuples rowTuples displayedTuples) = .ok t)
    (hhex : ¬ Hexable engine.hex t) :
    pivotDisplayed engine filtered columnTuples rowTuples displayedTuples aggfunc displayed =
      .error .typeError := by
  unfold pivotDisplayed
  simp only [ht, bind, Except.bind]
  by_cases hbb : HexableAt engine.hex t bbColumn
  · obtain ⟨d, hd, hother⟩ := columnToHex_ok hbb
    have hbb1 : ¬ HexableAt engine.hex d bb1Column := by
      intro h
      exact hhex (hexable_iff.mpr ⟨hbb, (hother bb1Column (by decide)).mp h⟩)
    simp only [hd, columnToHex_error hbb1]
  · simp only [columnToHex_error hbb]

theorem pivotDisplayed_error_of_needed {e : PyError} (ht : neededTable engine.order filtered
      (dfColumnDict displayed columnTuples rowTuples displayedTuples) = .error e) :
    pivotDisplayed engine filtered columnTuples rowTuples displayedTuples aggfunc displayed =
      .error e := by
  unfold pivotDisplayed
  simp only [ht, bind, Except.bind]

/-- A frame comes out of the loop only if every displayed value has one. -/
theorem foldlM_outputTurn_ok (hall : ∀ v ∈ displayedTuples, ∃ frame,
      pivotDisplayed engine filtered columnTuples rowTuples displayedTuples aggfunc v = .ok frame)
    {todo : List ColumnTuple} (htodo : ∀ v ∈ todo, v ∈ displayedTuples)
    (out : List (ColumnTuple × PivotedFrame V G)) :
    ∃ out', todo.foldlM (outputTurn engine filtered columnTuples rowTuples displayedTuples aggfunc)
      out = .ok out' := by
  induction todo generalizing out with
  | nil => exact ⟨out, rfl⟩
  | cons v todo ih =>
      obtain ⟨frame, hframe⟩ := hall v (htodo v (by simp))
      obtain ⟨out', hout'⟩ := ih (fun w hw => htodo w (by simp [hw])) (dictSet out v frame)
      refine ⟨out', ?_⟩
      simp only [List.foldlM_cons, outputTurn, hframe, bind, Except.bind, pure, Except.pure]
      exact hout'

theorem foldlM_outputTurn_get {todo : List ColumnTuple}
    {out out' : List (ColumnTuple × PivotedFrame V G)}
    (hrun : todo.foldlM (outputTurn engine filtered columnTuples rowTuples displayedTuples aggfunc)
      out = .ok out') :
    (∀ v ∈ todo, dictGet out' v =
      pivotDisplayed engine filtered columnTuples rowTuples displayedTuples aggfunc v) ∧
      (∀ v ∉ todo, dictGet out' v = dictGet out v) ∧
      ∀ v ∈ todo, ∃ frame,
        pivotDisplayed engine filtered columnTuples rowTuples displayedTuples aggfunc v =
          .ok frame := by
  induction todo generalizing out with
  | nil =>
      cases hrun
      simp
  | cons w todo ih =>
      rw [List.foldlM_cons] at hrun
      cases hframe :
        pivotDisplayed engine filtered columnTuples rowTuples displayedTuples aggfunc w with
      | error e => simp [outputTurn, hframe, bind, Except.bind] at hrun
      | ok frame =>
          simp only [outputTurn, hframe, bind, Except.bind, pure, Except.pure] at hrun
          obtain ⟨hin, hout, hall⟩ := ih hrun
          refine ⟨?_, ?_, ?_⟩
          · intro v hv
            by_cases hmem : v ∈ todo
            · exact hin v hmem
            · have hvw : v = w := by simpa [hmem] using hv
              rw [hout v hmem, hvw, hframe, dictGet_dictSet_self]
          · intro v hv
            have hvw : v ≠ w := by
              intro h
              exact hv (by simp [h])
            rw [hout v (fun h => hv (by simp [h])), dictGet_dictSet_ne out frame hvw]
          · intro v hv
            cases List.mem_cons.mp hv with
            | inl h => exact ⟨frame, h ▸ hframe⟩
            | inr h => exact hall v h

end Displayed

/-! ## Filters -/

omit [LinearOrder V] in
theorem filterFrame_ok {evalQuery : DataFrame V → PyStr → Except PyError (Row V → Bool)}
    {filters : List Filter} {entry kept : Path × DataFrame V}
    (h : filterFrame evalQuery filters entry = .ok kept) :
    kept.1 = entry.1 ∧ kept.2.resetIndex.columns = entry.2.resetIndex.columns := by
  unfold filterFrame at h
  split at h
  · cases h
    exact ⟨rfl, rfl⟩
  · obtain ⟨holds, -, h⟩ := bind_eq_ok h
    cases h
    exact ⟨rfl, rfl⟩

omit [LinearOrder V] in
theorem applyFilters_get {evalQuery : DataFrame V → PyStr → Except PyError (Row V → Bool)}
    {dataFrames filtered : List (Path × DataFrame V)} {filters : List Filter}
    (hrun : applyFilters evalQuery dataFrames filters = .ok filtered) {path : Path}
    {df : DataFrame V} (hdf : dictGet dataFrames path = .ok df) :
    ∃ kept, dictGet filtered path = .ok kept ∧ kept.resetIndex.columns = df.resetIndex.columns := by
  unfold applyFilters at hrun
  induction dataFrames generalizing filtered with
  | nil => simp [dictGet] at hdf
  | cons entry dataFrames ih =>
      rw [List.mapM_cons] at hrun
      obtain ⟨kept, hkept, hrun⟩ := bind_eq_ok hrun
      obtain ⟨rest, hrest, hrun⟩ := bind_eq_ok hrun
      cases hrun
      have hentry := filterFrame_ok hkept
      by_cases hpath : entry.1 = path
      · have hdf : entry.2 = df := by simpa [dictGet, hpath] using hdf
        refine ⟨kept.2, ?_, hdf ▸ hentry.2⟩
        simp [dictGet, hentry.1, hpath]
      · have hdf : dictGet dataFrames path = .ok df := by simpa [dictGet, hpath] using hdf
        obtain ⟨keptDf, hget, hcolumns⟩ := ih hrest hdf
        refine ⟨keptDf, ?_, hcolumns⟩
        simpa [dictGet, hentry.1, hpath] using hget

/-! ## The figures of one displayed value -/

/-- The pivoted frame that the loop leaves in `output_data_frames` for `displayed`. -/
def figuresFor [AddMonoid G] (engine : Engine V G) (dataFrames : List (Path × DataFrame V))
    (columnTuples rowTuples displayedTuples : List ColumnTuple) (filters : List Filter)
    (displayed : ColumnTuple) : Except PyError (PivotedFrame V G) := do
  let out ← outputDataFrames engine dataFrames columnTuples rowTuples displayedTuples filters none
  dictGet out displayed

theorem figuresFor_ok_iff [AddMonoid G] (engine : Engine V G)
    {dataFrames : List (Path × DataFrame V)}
    {columnTuples rowTuples displayedTuples : List ColumnTuple} {filters : List Filter}
    {displayed : ColumnTuple} (hdisplayed : displayed ∈ displayedTuples)
    (frame : PivotedFrame V G) :
    figuresFor engine dataFrames columnTuples rowTuples displayedTuples filters displayed
        = .ok frame ↔
      ∃ filtered, applyFilters engine.evalQuery dataFrames filters = .ok filtered ∧
        (∀ v ∈ displayedTuples, ∃ f, pivotDisplayed engine filtered columnTuples rowTuples
          displayedTuples (sumAgg engine.amount) v = .ok f) ∧
        pivotDisplayed engine filtered columnTuples rowTuples displayedTuples
          (sumAgg engine.amount) displayed = .ok frame := by
  unfold figuresFor outputDataFrames
  simp only [Option.getD_none]
  constructor
  · intro h
    obtain ⟨out, hout, hget⟩ := bind_eq_ok h
    obtain ⟨filtered, hfiltered, hrun⟩ := bind_eq_ok hout
    obtain ⟨hin, -, hall⟩ := foldlM_outputTurn_get engine (sumAgg engine.amount) hrun
    exact ⟨filtered, hfiltered, hall, (hin displayed hdisplayed).symm.trans hget⟩
  · intro h
    obtain ⟨filtered, hfiltered, hall, hframe⟩ := h
    obtain ⟨out, hrun⟩ := foldlM_outputTurn_ok engine (sumAgg engine.amount) hall
      (fun v hv => hv) []
    obtain ⟨hin, -, -⟩ := foldlM_outputTurn_get engine (sumAgg engine.amount) hrun
    simp only [hfiltered, bind, Except.bind] at hrun ⊢
    simp only [hrun]
    exact (hin displayed hdisplayed).trans hframe

end CProfiler.Pivot
