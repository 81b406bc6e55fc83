import CProfiler.Model.Pivot
import Mathlib.Data.List.Zip

/-! The labels that `_concat_data_frames` puts over the columns of the pivoted frames,
which it takes from the first frame alone. -/

namespace CProfiler.Pivot

open Model

variable {V G : Type} [LinearOrder V]

/-- Under every label of the frame of `v`, with the name of `v` behind it, stand the
values of `v`. -/
def LabelsMatch (frames : List (ColumnTuple × PivotedFrame V G)) (out : ConcatenatedFrame V G) :
    Prop :=
  ∀ entry ∈ frames, ∀ c ∈ entry.2.columns,
    (∃ s ∈ out.series, s.1 = (c, entry.1.2)) ∧
      ∀ s ∈ out.series, s.1 = (c, entry.1.2) →
        ∀ r ∈ entry.2.index, s.2 r = some (entry.2.cell r c)

/-- The frames can stand under the first one's labels: these have at most two
components, single ones are strings by the first of them, the other frames have the
same labels, and displayed values of one name have the same values. -/
structure Aligned (isStr : V → Bool) (levels : ℕ) (first : PivotedFrame V G)
    (frames : List (ColumnTuple × PivotedFrame V G)) : Prop where
  nonempty : first.columns ≠ []
  levels_le : levels ≤ 2
  str : ∀ v rest, first.columns = [v] :: rest → isStr v = true
  columns : ∀ entry ∈ frames, entry.2.columns = first.columns
  names : ∀ e ∈ frames, ∀ e' ∈ frames, e.1.2 = e'.1.2 → ∀ c ∈ e.2.columns, ∀ r ∈ e.2.index,
    r ∈ e'.2.index ∧ e'.2.cell r c = e.2.cell r c

/-! ## Interleaving -/

theorem zip_flatMap {α β γ : Type} (l : List α) {f : α → List β} {g : α → List γ}
    (h : ∀ x ∈ l, (f x).length = (g x).length) :
    (l.flatMap f).zip (l.flatMap g) = l.flatMap (fun x => (f x).zip (g x)) := by
  induction l with
  | nil => rfl
  | cons x l ih =>
      simp only [List.flatMap_cons]
      rw [List.zip_append (h x (by simp)), ih (fun y hy => h y (by simp [hy]))]

/-- The labels of the product stand over the interleaved columns block by block. -/
theorem zip_interleaved (frames : List (ColumnTuple × PivotedFrame V G)) (l1 : List (Label V))
    (shorten : Label V → Label V) :
    (l1.flatMap (fun c => (frames.map (fun e => e.1.2)).map (fun name => (shorten c, name)))).zip
        ((List.range l1.length).flatMap (fun i => frames.map (fun e => e.2.iloc i))) =
      l1.zipIdx.flatMap (fun p => frames.map (fun e => ((shorten p.1, e.1.2), e.2.iloc p.2))) := by
  have hlabels :
      l1.flatMap (fun c => (frames.map (fun e => e.1.2)).map (fun name => (shorten c, name)))
      = l1.zipIdx.flatMap (fun p => frames.map (fun e => (shorten p.1, e.1.2))) := by
    conv_lhs => rw [← List.zipIdx_map_fst 0 l1, List.flatMap_map]
    simp only [List.map_map, Function.comp_def]
  have hcolumns : (List.range l1.length).flatMap (fun i => frames.map (fun e => e.2.iloc i)) =
      l1.zipIdx.flatMap (fun p => frames.map (fun e => e.2.iloc p.2)) := by
    rw [List.range_eq_range', ← List.zipIdx_map_snd 0 l1, List.flatMap_map]
  rw [hlabels, hcolumns, zip_flatMap _ (by simp)]
  simp only [List.zip_map']

theorem mem_interleaved {frames : List (ColumnTuple × PivotedFrame V G)} {l1 : List (Label V)}
    {shorten : Label V → Label V} {s : (Label V × ColName) × (Label V → Option G)} :
    s ∈ l1.zipIdx.flatMap (fun p => frames.map (fun e => ((shorten p.1, e.1.2), e.2.iloc p.2))) ↔
      ∃ c i, l1[i]? = some c ∧ ∃ e ∈ frames, s = ((shorten c, e.1.2), e.2.iloc i) := by
  simp only [List.mem_flatMap, List.mem_map, Prod.exists, List.mem_zipIdx_iff_getElem?,
    eq_comm (a := s)]

/-! ## The three outcomes -/

section Outcomes

variable (isStr : V → Bool) {first : ColumnTuple × PivotedFrame V G}
  {rest : List (ColumnTuple × PivotedFrame V G)}

theorem concatDataFrames_exception
    (h : ∃ e ∈ first :: rest, e.2.columns.length ≠ first.2.columns.length) :
    concatDataFrames isStr (first :: rest) = .error .concatenateException := by
  have hany :
      (first :: rest).any (fun e => e.2.columns.length ≠ first.2.columns.length) = true := by
    obtain ⟨e, he, hne⟩ := h
    exact List.any_eq_true.mpr ⟨e, he, by simpa using hne⟩
  simp only [concatDataFrames, hany, if_true]

/-- With one count of columns the outcome is that of the labels. -/
theorem concatDataFrames_eq
    (h : ∀ e ∈ first :: rest, e.2.columns.length = first.2.columns.length) :
    concatDataFrames isStr (first :: rest) =
      (concatLabels isStr first.2.columns ((first :: rest).map (fun e => e.1.2))).map (fun l3 =>
        { index := ((first :: rest).flatMap (fun e => e.2.index)).dedup
          series := l3.zip ((List.range first.2.columns.length).flatMap (fun columnIdx =>
            (first :: rest).map (fun e => e.2.iloc columnIdx))) }) := by
  have hany :
      (first :: rest).any (fun e => e.2.columns.length ≠ first.2.columns.length) = false := by
    apply List.any_eq_false.mpr
    intro e he
    simpa using h e he
  simp only [concatDataFrames, hany, Bool.false_eq_true, if_false]
  cases concatLabels isStr first.2.columns ((first :: rest).map (fun e => e.1.2)) <;> rfl

end Outcomes

omit [LinearOrder V] in
/-- Labels of up to two components get through, except single ones that are no string. -/
theorem concatLabels_ok_iff (isStr : V → Bool) {l1 : List (Label V)} (l2 : List ColName)
    {levels : ℕ} (hpos : 0 < levels) (hlevels : ∀ c ∈ l1, c.length = levels)
    (l3 : List (Label V × ColName)) :
    concatLabels isStr l1 l2 = .ok l3 ↔
      l1 ≠ [] ∧ (∀ v rest, l1 = [v] :: rest → isStr v = true) ∧
        l3 = l1.flatMap (fun c => l2.map (fun name => (c.take 2, name))) := by
  cases l1 with
  | nil => simp [concatLabels]
  | cons c l1 =>
      cases c with
      | nil =>
          have := hlevels [] (by simp)
          simp at this
          omega
      | cons v vs =>
          cases vs with
          | nil =>
              have hone : ∀ c ∈ [v] :: l1, c.take 2 = c := by
                intro c hc
                apply List.take_of_length_le
                have hv := hlevels [v] (by simp)
                have := hlevels c hc
                simp at hv
                omega
              have hproduct : ([v] :: l1).flatMap (fun c => l2.map (fun name => (c.take 2, name))) =
                  ([v] :: l1).flatMap (fun c => l2.map (fun name => (c, name))) := by
                apply List.flatMap_congr
                intro c hc
                rw [hone c hc]
              rw [hproduct]
              unfold concatLabels
              by_cases hstr : isStr v
              · simp [hstr, eq_comm (b := l3)]
              · simp [hstr]
          | cons w ws =>
              simp [concatLabels, eq_comm (b := l3)]

omit [LinearOrder V] in
theorem concatLabels_ne_exception (isStr : V → Bool) (l1 : List (Label V)) (l2 : List ColName) :
    concatLabels isStr l1 l2 ≠ .error .concatenateException := by
  unfold concatLabels
  split
  · simp
  · simp
  · split <;> simp
  · simp

/-! ## Labels and data -/

section Match

variable {isStr : V → Bool} {levels : ℕ} {first : ColumnTuple × PivotedFrame V G}
  {frames : List (ColumnTuple × PivotedFrame V G)}

/-- The frame built from the labels `l1` and the columns of `frames`. -/
def Interleaves (l1 : List (Label V)) (frames : List (ColumnTuple × PivotedFrame V G))
    (out : ConcatenatedFrame V G) : Prop :=
  ∀ s, s ∈ out.series ↔
    ∃ c i, l1[i]? = some c ∧ ∃ e ∈ frames, s = ((c.take 2, e.1.2), e.2.iloc i)

theorem levels_le_of_labelsMatch {out : ConcatenatedFrame V G} (hfirst : first ∈ frames)
    (hlevels : ∀ e ∈ frames, ∀ c ∈ e.2.columns, c.length = levels)
    (hnonempty : first.2.columns ≠ []) (hout : Interleaves first.2.columns frames out)
    (hmatch : LabelsMatch frames out) : levels ≤ 2 := by
  obtain ⟨c, hc⟩ := List.exists_mem_of_ne_nil _ hnonempty
  obtain ⟨s, hs, hlabel⟩ := (hmatch first hfirst c hc).1
  obtain ⟨c', i, -, e, -, rfl⟩ := (hout s).mp hs
  have hshort : c'.take 2 = c := congrArg Prod.fst hlabel
  have hlength := hlevels first hfirst c hc
  rw [← hshort, List.length_take] at hlength
  omega

omit [LinearOrder V] in
theorem take_of_levels_le {c : Label V} (hlevels : c.length = levels) (hle : levels ≤ 2) :
    c.take 2 = c :=
  List.take_of_length_le (by omega)

theorem columns_eq_of_labelsMatch {out : ConcatenatedFrame V G} (hfirst : first ∈ frames)
    (hlevels : ∀ e ∈ frames, ∀ c ∈ e.2.columns, c.length = levels) (hle : levels ≤ 2)
    (hout : Interleaves first.2.columns frames out) (hmatch : LabelsMatch frames out)
    {e : ColumnTuple × PivotedFrame V G} (he : e ∈ frames)
    (hcount : e.2.columns.length = first.2.columns.length) : e.2.columns = first.2.columns := by
  have hsubset : e.2.columns ⊆ first.2.columns := by
    intro c hc
    obtain ⟨s, hs, hlabel⟩ := (hmatch e he c hc).1
    obtain ⟨c', i, hc', e', -, rfl⟩ := (hout s).mp hs
    have hmem : c' ∈ first.2.columns := List.mem_of_getElem? hc'
    have hshort : c'.take 2 = c := congrArg Prod.fst hlabel
    rw [take_of_levels_le (hlevels first hfirst c' hmem) hle] at hshort
    exact hshort ▸ hmem
  have hnodup : e.2.columns.Nodup := e.2.columns_sorted.imp (fun h => ne_of_lt h)
  have hperm := (hnodup.subperm hsubset).perm_of_length_le (le_of_eq hcount.symm)
  exact (sorted_eq_iff e.2.columns_sorted first.2.columns_sorted).mpr (fun key => hperm.mem_iff)

theorem iloc_eq {e : PivotedFrame V G} {i : ℕ} {c : Label V} (hc : e.columns[i]? = some c)
    (r : Label V) : e.iloc i r = if r ∈ e.index then some (e.cell r c) else none := by
  simp only [PivotedFrame.iloc, hc]

theorem aligned_of_labelsMatch {out : ConcatenatedFrame V G} (hfirst : first ∈ frames)
    (hlevels : ∀ e ∈ frames, ∀ c ∈ e.2.columns, c.length = levels)
    (hcount : ∀ e ∈ frames, e.2.columns.length = first.2.columns.length)
    (hnonempty : first.2.columns ≠ [])
    (hstr : ∀ v rest, first.2.columns = [v] :: rest → isStr v = true)
    (hout : Interleaves first.2.columns frames out) (hmatch : LabelsMatch frames out) :
    Aligned isStr levels first.2 frames := by
  have hle := levels_le_of_labelsMatch hfirst hlevels hnonempty hout hmatch
  have hcolumns (e : ColumnTuple × PivotedFrame V G) (he : e ∈ frames) :=
    columns_eq_of_labelsMatch hfirst hlevels hle hout hmatch he (hcount e he)
  refine ⟨hnonempty, hle, hstr, hcolumns, ?_⟩
  intro e he e' he' hname c hc r hr
  obtain ⟨i, hi⟩ := List.mem_iff_getElem?.mp (hcolumns e he ▸ hc)
  have hseries : ((c.take 2, e'.1.2), e'.2.iloc i) ∈ out.series :=
    (hout _).mpr ⟨c, i, hi, e', he', rfl⟩
  have hlabel : (c.take 2, e'.1.2) = (c, e.1.2) := by
    rw [take_of_levels_le (hlevels e he c hc) hle, hname]
  have hcell : e'.2.iloc i r = some (e.2.cell r c) := (hmatch e he c hc).2 _ hseries hlabel r hr
  rw [iloc_eq (by rw [hcolumns e' he']; exact hi)] at hcell
  by_cases hr' : r ∈ e'.2.index
  · rw [if_pos hr'] at hcell
    exact ⟨hr', Option.some.inj hcell⟩
  · rw [if_neg hr'] at hcell
    cases hcell

theorem labelsMatch_of_aligned {out : ConcatenatedFrame V G}
    (hlevels : ∀ e ∈ frames, ∀ c ∈ e.2.columns, c.length = levels)
    (haligned : Aligned isStr levels first.2 frames)
    (hout : Interleaves first.2.columns frames out) : LabelsMatch frames out := by
  intro e he c hc
  have hshort := take_of_levels_le (hlevels e he c hc) haligned.levels_le
  constructor
  · obtain ⟨i, hi⟩ := List.mem_iff_getElem?.mp (haligned.columns e he ▸ hc)
    refine ⟨((c.take 2, e.1.2), e.2.iloc i), (hout _).mpr ⟨c, i, hi, e, he, rfl⟩, ?_⟩
    rw [hshort]
  · intro s hs hlabel r hr
    obtain ⟨c', i, hi, e', he', rfl⟩ := (hout s).mp hs
    have hi' : e'.2.columns[i]? = some c' := by rw [haligned.columns e' he', hi]
    have hc' : c' = c := by
      rw [← take_of_levels_le (hlevels e' he' c' (List.mem_of_getElem? hi')) haligned.levels_le]
      exact congrArg Prod.fst hlabel
    have hname : e.1.2 = e'.1.2 := (congrArg Prod.snd hlabel).symm
    obtain ⟨hr', hcell⟩ := haligned.names e he e' he' hname c hc r hr
    have hvalue : e'.2.iloc i r = some (e'.2.cell r c') := by
      rw [iloc_eq hi', if_pos hr']
    exact hvalue.trans (by rw [hc', hcell])

end Match

/-- The concatenation refuses the frames or labels every value rightly exactly if the
counts of columns differ or the frames are aligned with the first one's labels. -/
theorem concatenated_labels_iff (isStr : V → Bool) (first : ColumnTuple × PivotedFrame V G)
    (rest : List (ColumnTuple × PivotedFrame V G)) (levels : ℕ) (hpos : 0 < levels)
    (hlevels : ∀ e ∈ first :: rest, ∀ c ∈ e.2.columns, c.length = levels) :
    (concatDataFrames isStr (first :: rest) = .error .concatenateException ∨
      ∃ out, concatDataFrames isStr (first :: rest) = .ok out ∧
        LabelsMatch (first :: rest) out) ↔
    (∃ e ∈ first :: rest, e.2.columns.length ≠ first.2.columns.length) ∨
      Aligned isStr levels first.2 (first :: rest) := by
  by_cases hcounts : ∃ e ∈ first :: rest, e.2.columns.length ≠ first.2.columns.length
  · simp only [concatDataFrames_exception isStr hcounts, true_or, true_iff]
    exact Or.inl hcounts
  · have hcount : ∀ e ∈ first :: rest, e.2.columns.length = first.2.columns.length := by
      intro e he
      by_contra hne
      exact hcounts ⟨e, he, hne⟩
    have hfirst := hlevels first (by simp)
    have hlabels := concatLabels_ok_iff isStr ((first :: rest).map (fun e => e.1.2)) hpos hfirst
    have hout : Interleaves first.2.columns (first :: rest)
        { index := ((first :: rest).flatMap (fun e => e.2.index)).dedup
          series := (first.2.columns.flatMap (fun c =>
            ((first :: rest).map (fun e => e.1.2)).map (fun name => (c.take 2, name)))).zip
              ((List.range first.2.columns.length).flatMap (fun columnIdx =>
                (first :: rest).map (fun e => e.2.iloc columnIdx))) } := by
      intro s
      rw [zip_interleaved]
      exact mem_interleaved
    rw [concatDataFrames_eq isStr hcount]
    simp only [hcounts, false_or]
    constructor
    · intro h
      cases hl3 : concatLabels isStr first.2.columns ((first :: rest).map (fun e => e.1.2)) with
      | error e =>
          rw [hl3] at h
          cases h with
          | inl herror =>
              cases herror
              exact absurd hl3 (concatLabels_ne_exception isStr _ _)
          | inr hok =>
              obtain ⟨out, hok, -⟩ := hok
              cases hok
      | ok l3 =>
          obtain ⟨hnonempty, hstr, rfl⟩ := (hlabels l3).mp hl3
          rw [hl3] at h
          cases h with
          | inl herror => cases herror
          | inr hok =>
              obtain ⟨out, hok, hmatch⟩ := hok
              cases hok
              exact aligned_of_labelsMatch (by simp) hlevels hcount hnonempty hstr hout hmatch
    · intro haligned
      have hl3 := (hlabels _).mpr ⟨haligned.nonempty, haligned.str, rfl⟩
      rw [hl3]
      exact Or.inr ⟨_, rfl, labelsMatch_of_aligned hlevels haligned hout⟩

/-! ## One column with a number for its label -/

/-- One row and one column under numbers. -/
def numberedFrame (figure : ℤ) : PivotedFrame ℤ ℤ where
  index := [[1]]
  columns := [[4]]
  cell := fun _ _ => figure
  index_sorted := List.pairwise_singleton _ _
  columns_sorted := List.pairwise_singleton _ _

def numberedFrames : List (ColumnTuple × PivotedFrame ℤ ℤ) :=
  [((['a'], ['t']), numberedFrame 10), ((['b'], ['n']), numberedFrame 5)]

theorem concatenated_labels_iff_numbered :
    (concatDataFrames (fun _ => false) numberedFrames = .error .concatenateException ∨
      ∃ out, concatDataFrames (fun _ => false) numberedFrames = .ok out ∧
        LabelsMatch numberedFrames out) ↔
    (∃ e ∈ numberedFrames, e.2.columns.length ≠ (numberedFrame 10).columns.length) ∨
      Aligned (fun _ => false) 1 (numberedFrame 10) numberedFrames := by
  apply concatenated_labels_iff (fun _ => false) ((['a'], ['t']), numberedFrame 10)
    [((['b'], ['n']), numberedFrame 5)] 1 (by decide)
  intro e he c hc
  simp only [List.mem_cons, List.not_mem_nil, or_false] at he
  obtain rfl | rfl := he
  · simp [numberedFrame] at hc
    simp [hc]
  · simp [numberedFrame] at hc
    simp [hc]

/-- Labels that are numbers leave `l3` unbound. -/
theorem numbered_labels_unbound :
    ¬ (concatDataFrames (fun _ => false) numberedFrames = .error .concatenateException ∨
      ∃ out, concatDataFrames (fun _ => false) numberedFrames = .ok out ∧
        LabelsMatch numberedFrames out) := by
  have hrun : concatDataFrames (fun _ => false) numberedFrames = .error .unboundLocalError := rfl
  rw [hrun]
  intro h
  cases h with
  | inl h => cases h
  | inr h =>
      obtain ⟨out, h, -⟩ := h
      cases h

end CProfiler.Pivot
