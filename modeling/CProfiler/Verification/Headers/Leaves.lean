import CProfiler.Model.HeaderModel
import Mathlib.Data.List.Destutter

/-! The header of a `MultiIndex`: run-length grouping along the rightmost spine, and the leaves
that are found again by their numbers. -/

namespace CProfiler.Headers

open Foundation Foundation.Rose Model

variable {L : Type} [BEq L]

/-! ## The spine of the cursor -/

section Filling

variable (str : L → PyStr)

abbrev LabelFrame (L : Type) := Frame L PyStr

/-- The labels of a spine, each with the position of its cell. -/
def cells : List ℕ → List (LabelFrame L) → List (L × List ℕ)
  | _, [] => []
  | position, frame :: frames =>
      (frame.tag, position ++ [frame.lefts.length]) ::
        cells (position ++ [frame.lefts.length]) frames

omit [BEq L] in
theorem length_cells (position : List ℕ) (frames : List (LabelFrame L)) :
    (cells position frames).length = frames.length := by
  induction frames generalizing position with
  | nil => rfl
  | cons frame frames ih => simp [cells, ih]

omit [BEq L] in
theorem cells_append (position : List ℕ) (frames frames' : List (LabelFrame L)) :
    cells position (frames ++ frames') =
      cells position frames ++ cells (position ++ spine frames) frames' := by
  induction frames generalizing position with
  | nil => simp [cells, spine]
  | cons frame frames ih => simp [cells, spine, ih]

/-- A filling whose cursor is the spine of its tree. -/
def spineFilling (depth : ℕ) (frames : List (LabelFrame L)) : Filling L where
  headerModel := plug str frames []
  lastItems := (cells [] frames).map some ++ List.replicate (depth - frames.length) none

variable {str} {depth : ℕ} {before rest frames : List (LabelFrame L)} {label : L}

omit [BEq L] in
theorem lastItems_append (before rest : List (LabelFrame L)) :
    (spineFilling str depth (before ++ rest)).lastItems =
      (cells [] before).map some ++ ((cells (spine before) rest).map some ++
        List.replicate (depth - (before ++ rest).length) none) := by
  simp [spineFilling, cells_append]

/-- The same label again: nothing happens. -/
theorem labelTurn_same {frame : LabelFrame L} (hlabel : (frame.tag == label) = true) :
    labelTurn str (spineFilling str depth (before ++ frame :: rest)) (label, before.length) =
      .ok (spineFilling str depth (before ++ frame :: rest)) := by
  have hlast : (spineFilling str depth (before ++ frame :: rest)).lastItems[before.length]? =
      some (some (frame.tag, spine before ++ [frame.lefts.length])) := by
    rw [lastItems_append]
    simp [cells, length_cells]
  simp only [labelTurn, hlast, Option.any_some, hlabel, if_true]

omit [BEq L] in
/-- The cell of the level above is the end of the spine so far. -/
theorem parent_eq (before rest : List (LabelFrame L)) :
    (if before.length = 0 then some []
      else (((spineFilling str depth (before ++ rest)).lastItems[before.length - 1]?).join.map
        Prod.snd)) = some (spine before) := by
  induction before using List.reverseRecOn with
  | nil => rfl
  | append_singleton init frame _ =>
      have hlength : (init ++ [frame]).length - 1 = init.length := by simp
      have hne : (init ++ [frame]).length ≠ 0 := by simp
      rw [if_neg hne, hlength, List.append_assoc, lastItems_append]
      simp [cells, length_cells, spine]

omit [BEq L] in
theorem columnCount_spine (before rest : List (LabelFrame L)) :
    columnCount (spineFilling str depth (before ++ rest)).headerModel (spine before) =
      (plug str rest []).length := by
  rw [columnCount, spineFilling, plug_append, childrenAt_plug]
  rfl

variable (str before rest) in
/-- A new label: the spine is cut above its level, and what was below stays to the left. -/
theorem labelTurn_new (hdepth : (before ++ rest).length ≤ depth) (hlevel : before.length < depth)
    (hnew : ∀ frame ∈ rest.head?, ¬ (frame.tag == label) = true) :
    labelTurn str (spineFilling str depth (before ++ rest)) (label, before.length) =
      .ok (spineFilling str depth (before ++ [⟨plug str rest [], label⟩])) := by
  obtain ⟨lastCell, hlast, hdiffers⟩ : ∃ lastCell,
      (spineFilling str depth (before ++ rest)).lastItems[before.length]? = some lastCell ∧
        ¬ lastCell.any (fun cell => cell.1 == label) = true := by
    rw [lastItems_append]
    cases rest with
    | nil =>
        have hmore : 0 < depth - before.length := by omega
        refine ⟨none, ?_, by simp⟩
        rw [List.append_nil, List.getElem?_append_right (by simp [length_cells])]
        simp [cells, length_cells, hmore]
    | cons frame rest =>
        refine ⟨some (frame.tag, spine before ++ [frame.lefts.length]), ?_, ?_⟩
        · simp [cells, length_cells]
        · simpa using hnew
  have hmodel : appendAt (.node (str label) [])
      (spineFilling str depth (before ++ rest)).headerModel (spine before) =
        plug str (before ++ [⟨plug str rest [], label⟩]) [] := by
    rw [spineFilling, plug_append, appendAt_plug, plug_append]
    rfl
  have hitems : (spineFilling str depth (before ++ rest)).lastItems.take before.length =
      (cells [] before).map some := by
    rw [lastItems_append]
    exact List.take_left' (by simp [length_cells])
  have hlength : (spineFilling str depth (before ++ rest)).lastItems.length = depth := by
    rw [spineFilling]
    simp only [List.length_append, List.length_map, length_cells, List.length_replicate]
    simp only [List.length_append] at hdepth
    omega
  have hcut : (spineFilling str depth (before ++ [⟨plug str rest [], label⟩])).lastItems =
      (cells [] before).map some ++ some (label, spine before ++ [(plug str rest []).length]) ::
        List.replicate (depth - (before.length + 1)) none := by
    rw [lastItems_append]
    simp [cells]
  simp only [labelTurn, hlast, hdiffers, parent_eq, columnCount_spine, hmodel, hitems, hlength]
  rw [← hcut]
  rfl

/-! ## One tuple -/

variable (str depth) in
/-- Below a new label every label is new. -/
theorem labelTurns_below (tuple : List L) (before : List (LabelFrame L))
    (hdepth : before.length + tuple.length ≤ depth) :
    (tuple.zipIdx before.length).foldlM (labelTurn str) (spineFilling str depth before) =
      .ok (spineFilling str depth (before ++ chain tuple)) := by
  induction tuple generalizing before with
  | nil => simp [chain, pure, Except.pure]
  | cons label tuple ih =>
      rw [List.length_cons] at hdepth
      have hturn : labelTurn str (spineFilling str depth (before ++ [])) (label, before.length) =
          .ok (spineFilling str depth (before ++ [⟨plug str [] [], label⟩])) :=
        labelTurn_new str before [] (by simp; omega) (by omega) (by simp)
      rw [List.append_nil] at hturn
      have hrest := ih (before ++ [⟨plug str [] [], label⟩]) (by simp; omega)
      rw [List.length_append, List.length_singleton] at hrest
      rw [List.zipIdx_cons, List.foldlM_cons, hturn]
      refine hrest.trans ?_
      simp [chain, plug]

variable (str) in
/-- The spine after a tuple: the labels that stay, and the rest of the tuple below them. -/
def regroup : List (LabelFrame L) → List L → List (LabelFrame L)
  | frame :: frames, label :: tuple =>
      if frame.tag == label then frame :: regroup frames tuple
      else ⟨plug str (frame :: frames) [], label⟩ :: chain tuple
  | [], tuple => chain tuple
  | frames, [] => frames

theorem labelTurns_eq (tuple : List L) (before rest : List (LabelFrame L))
    (hrest : rest.length = tuple.length) (hdepth : before.length + tuple.length ≤ depth) :
    (tuple.zipIdx before.length).foldlM (labelTurn str) (spineFilling str depth (before ++ rest)) =
      .ok (spineFilling str depth (before ++ regroup str rest tuple)) := by
  induction tuple generalizing before rest with
  | nil =>
      rw [List.length_eq_zero_iff.mp hrest]
      simp [regroup, chain, pure, Except.pure]
  | cons label tuple ih =>
      cases rest with
      | nil => simp at hrest
      | cons frame rest =>
          simp only [List.length_cons, Nat.add_right_cancel_iff] at hrest
          rw [List.length_cons] at hdepth
          rw [List.zipIdx_cons, List.foldlM_cons, regroup]
          by_cases hlabel : (frame.tag == label) = true
          · have hnext := ih (before ++ [frame]) rest hrest (by simp; omega)
            rw [List.length_append, List.length_singleton, List.append_assoc, List.append_assoc]
              at hnext
            rw [labelTurn_same hlabel, if_pos hlabel]
            exact hnext
          · have hnext := labelTurns_below str depth tuple
              (before ++ [⟨plug str (frame :: rest) [], label⟩]) (by simp; omega)
            rw [List.length_append, List.length_singleton, List.append_assoc] at hnext
            rw [labelTurn_new str before (frame :: rest) (by simp; omega) (by omega)
              (by simpa using hlabel), if_neg hlabel]
            exact hnext

/-! ## Leaves of the tree -/

theorem regroup_of_beq {frames : List (LabelFrame L)} {tuple : List L}
    (h : (frames.map Frame.tag == tuple) = true) : regroup str frames tuple = frames := by
  induction frames generalizing tuple with
  | nil =>
      cases tuple with
      | nil => rfl
      | cons label tuple => cases h
  | cons frame frames ih =>
      cases tuple with
      | nil => cases h
      | cons label tuple =>
          rw [List.map_cons, List.cons_beq_cons, Bool.and_eq_true] at h
          rw [regroup, if_pos h.1, ih h.2]

/-- Labels that compare equal are the same. -/
def SameLabels (tuple tuple' : List L) : Prop :=
  ∀ (level : ℕ) (a b : L), tuple[level]? = some a → tuple'[level]? = some b →
    (a == b) = true → a = b

theorem SameLabels.head {a b : L} {tuple tuple' : List L}
    (h : SameLabels (a :: tuple) (b :: tuple')) (hab : (a == b) = true) : a = b :=
  h 0 a b rfl rfl hab

theorem SameLabels.tail {a b : L} {tuple tuple' : List L}
    (h : SameLabels (a :: tuple) (b :: tuple')) : SameLabels tuple tuple' :=
  fun level => h (level + 1)

variable (str) in
theorem tags_regroup {frames : List (LabelFrame L)} {tuple : List L}
    (hlength : frames.length = tuple.length) (hsame : SameLabels (frames.map Frame.tag) tuple) :
    (regroup str frames tuple).map Frame.tag = tuple := by
  induction frames generalizing tuple with
  | nil =>
      rw [List.length_eq_zero_iff.mp hlength.symm]
      rfl
  | cons frame frames ih =>
      cases tuple with
      | nil => simp at hlength
      | cons label tuple =>
          rw [List.map_cons] at hsame
          rw [regroup]
          by_cases hlabel : (frame.tag == label) = true
          · rw [if_pos hlabel, List.map_cons, ih (by simpa using hlength) hsame.tail,
              hsame.head hlabel]
          · rw [if_neg hlabel]
            simp [chain, Function.comp_def]

/-- A tuple that differs from the last one has a leaf of its own, behind the others. -/
theorem leafPaths_regroup {frames : List (LabelFrame L)} {tuple : List L}
    (hlength : frames.length = tuple.length) (hsame : SameLabels (frames.map Frame.tag) tuple)
    (hdiffers : ¬ (frames.map Frame.tag == tuple) = true) :
    leafPaths (plug str (regroup str frames tuple) []) =
      leafPaths (plug str frames []) ++ [tuple.map str] := by
  induction frames generalizing tuple with
  | nil =>
      rw [List.length_eq_zero_iff.mp hlength.symm] at hdiffers
      exact absurd rfl hdiffers
  | cons frame frames ih =>
      cases tuple with
      | nil => simp at hlength
      | cons label tuple =>
          rw [List.map_cons] at hsame
          rw [regroup]
          by_cases hlabel : (frame.tag == label) = true
          · have hbelow : ¬ (frames.map Frame.tag == tuple) = true := by
              intro h
              apply hdiffers
              rw [List.map_cons, List.cons_beq_cons, hlabel, h]
              rfl
            have hframes : frames ≠ [] := by
              intro hnil
              rw [hnil] at hlength hbelow
              have htuple : tuple = [] := List.length_eq_zero_iff.mp (by simpa using hlength.symm)
              exact hbelow (by rw [htuple]; rfl)
            have hregrouped : regroup str frames tuple ≠ [] := by
              intro hnil
              have htags := tags_regroup str (by simpa using hlength) hsame.tail
              rw [hnil] at htags
              apply hframes
              have hzero : tuple.length = 0 := by rw [← htags]; rfl
              exact List.length_eq_zero_iff.mp (by simpa [hzero] using hlength)
            rw [if_pos hlabel, plug, plug, leafPaths_append, leafPaths_append, leafPaths_cons,
              leafPaths_cons, plug_isEmpty_of_ne_nil str hframes,
              plug_isEmpty_of_ne_nil str hregrouped, ih (by simpa using hlength) hsame.tail hbelow]
            simp [leafPaths, hsame.head hlabel]
          · have hchain : plug str (⟨plug str (frame :: frames) [], label⟩ :: chain tuple) [] =
                plug str (frame :: frames) [] ++ plug str (chain (label :: tuple)) [] := by
              simp [plug, chain]
            rw [if_neg hlabel, hchain, leafPaths_append, leafPaths_chain str (List.cons_ne_nil _ _)]

/-! ## All tuples -/

/-- Tuples that follow one another and differ. -/
abbrev Differs (tuple tuple' : List L) : Prop := ¬ (tuple == tuple') = true

/-- The tree gets one leaf for each run of equal tuples. -/
theorem tupleTurns_eq (tuples : List (List L)) (frames : List (LabelFrame L))
    (hframes : frames.length = depth) (hlength : ∀ t ∈ tuples, t.length = depth)
    (hsame : ∀ t ∈ frames.map Frame.tag :: tuples, ∀ t' ∈ tuples, SameLabels t t')
    {earlier : List (List PyStr)}
    (hleaves : leafPaths (plug str frames []) = earlier ++ [(frames.map Frame.tag).map str]) :
    ∃ f, tuples.foldlM (tupleTurn str) (spineFilling str depth frames) = .ok f ∧
      leafPaths f.headerModel =
        earlier ++ ((frames.map Frame.tag :: tuples).destutter Differs).map (List.map str) := by
  induction tuples generalizing frames earlier with
  | nil => exact ⟨_, rfl, by simp [spineFilling, hleaves]⟩
  | cons tuple tuples ih =>
      obtain ⟨htuple, hrest⟩ := List.forall_mem_cons.mp hlength
      have hturn : tupleTurn str (spineFilling str depth frames) tuple =
          .ok (spineFilling str depth (regroup str frames tuple)) :=
        labelTurns_eq tuple [] frames (hframes.trans htuple.symm) (by simp [htuple])
      have hsameTuple : SameLabels (frames.map Frame.tag) tuple :=
        hsame _ List.mem_cons_self _ List.mem_cons_self
      have htags := tags_regroup str (hframes.trans htuple.symm) hsameTuple
      rw [List.foldlM_cons, hturn]
      by_cases hequal : (frames.map Frame.tag == tuple) = true
      · have hsameRest : ∀ t ∈ frames.map Frame.tag :: tuples, ∀ t' ∈ tuples, SameLabels t t' := by
          intro t ht t' ht'
          refine hsame t ?_ t' (List.mem_cons_of_mem _ ht')
          rcases List.mem_cons.mp ht with hhead | htail
          · exact hhead ▸ List.mem_cons_self
          · exact List.mem_cons_of_mem _ (List.mem_cons_of_mem _ htail)
        obtain ⟨f, hf, hpaths⟩ := ih frames hframes hrest hsameRest hleaves
        refine ⟨f, ?_, ?_⟩
        · rw [regroup_of_beq hequal]
          exact hf
        · rw [hpaths, List.destutter_cons_cons, if_neg (not_not.mpr hequal), List.destutter_cons']
      · have hnext : leafPaths (plug str (regroup str frames tuple) []) =
            (earlier ++ [(frames.map Frame.tag).map str]) ++
              [((regroup str frames tuple).map Frame.tag).map str] := by
          rw [leafPaths_regroup (hframes.trans htuple.symm) hsameTuple hequal, hleaves, htags]
        have hlengthNext : (regroup str frames tuple).length = depth := by
          have hcount := congrArg List.length htags
          rw [List.length_map] at hcount
          exact hcount.trans htuple
        obtain ⟨f, hf, hpaths⟩ := ih (regroup str frames tuple) hlengthNext hrest
          (by rw [htags]; exact fun t ht t' ht' => hsame t (List.mem_cons_of_mem _ ht) t'
                (List.mem_cons_of_mem _ ht')) hnext
        refine ⟨f, hf, ?_⟩
        rw [hpaths, htags, List.destutter_cons_cons, if_pos hequal, List.destutter_cons']
        simp

/-- A new header has one leaf for each run of equal tuples of the index. -/
theorem fillMulti_eq (index : MultiIndex L) (hne : index.tuples ≠ []) :
    ∃ header, fillMulti str [] index = .ok header ∧
      leafPaths header = (index.tuples.destutter Differs).map (List.map str) := by
  obtain ⟨first, tuples, htuples⟩ := List.exists_cons_of_ne_nil hne
  have hlength := index.length_eq
  have hsame : ∀ t ∈ index.tuples, ∀ t' ∈ index.tuples, SameLabels t t' := index.same
  rw [htuples] at hlength hsame
  obtain ⟨hfirst, hrest⟩ := List.forall_mem_cons.mp hlength
  have hnonempty : first ≠ [] := List.length_pos_iff.mp (hfirst ▸ index.nlevels_pos)
  have hstart : (⟨[], List.replicate first.length none⟩ : Filling L) =
      spineFilling str index.nlevels [] := by
    rw [hfirst]
    rfl
  have hturn : tupleTurn str (spineFilling str index.nlevels []) first =
      .ok (spineFilling str index.nlevels (chain first)) := by
    exact labelTurns_below str index.nlevels first [] (by simp [hfirst])
  have htags : (chain first : List (LabelFrame L)).map Frame.tag = first := by
    simp [chain, Function.comp_def]
  obtain ⟨f, hf, hpaths⟩ := tupleTurns_eq tuples (chain first)
    (by simp [chain, hfirst]) hrest
    (by rw [htags]; exact fun t ht t' ht' => hsame t ht t' (List.mem_cons_of_mem _ ht'))
    (by rw [leafPaths_chain str hnonempty, htags, List.nil_append])
  refine ⟨f.headerModel, ?_, ?_⟩
  · have hall : (first :: tuples).foldlM (tupleTurn str)
        ⟨[], List.replicate first.length none⟩ = .ok f := by
      rw [List.foldlM_cons, hstart, hturn]
      exact hf
    rw [fillMulti, htuples]
    simp only [hall]
    rfl
  · rw [hpaths, htags, htuples, List.nil_append]

end Filling

/-! ## Leaves by number -/

/-- How a search that has met `n` leaves by its start goes on over the paths of further leaves:
it stops at the leaf of the number `sectionIndex`, which has the labels `labels`, or meets all. -/
structure Searches (sectionIndex n : ℤ) (paths : List (List PyStr))
    (result : Option (List ℕ) × ℤ) (labels : List ℕ → Option (List PyStr)) : Prop where
  found : ∀ k : ℕ, sectionIndex = n + 1 + k → k < paths.length →
    ∃ position, result = (some position, sectionIndex) ∧ labels position = paths[k]?
  missed : sectionIndex ≤ n ∨ n + paths.length < sectionIndex → result = (none, n + paths.length)

theorem searches_cases (sectionIndex n : ℤ) (l : ℕ) :
    (∃ k : ℕ, sectionIndex = n + 1 + k ∧ k < l) ∨ (sectionIndex ≤ n ∨ n + l < sectionIndex) := by
  by_cases h : n < sectionIndex ∧ sectionIndex ≤ n + l
  · exact Or.inl ⟨(sectionIndex - n - 1).toNat, by omega, by omega⟩
  · exact Or.inr (by omega)

theorem searches_findLeaf {sectionIndex n : ℤ} {a : PyStr} {cs : List QStandardItem}
    (hcs : Searches sectionIndex n (leafPaths cs) (findLeafAmong sectionIndex cs 0 n)
      (labelsAt cs)) :
    Searches sectionIndex n (leafPaths [.node a cs]) (findLeaf sectionIndex (.node a cs) n)
      (fun position => (labelsAt cs position).map (a :: ·)) := by
  cases cs with
  | nil =>
      have hpaths : leafPaths [Rose.node a []] = [[a]] := by simp [leafPaths]
      rw [hpaths]
      constructor
      · intro k hk hlt
        have hzero : k = 0 := by simpa using hlt
        subst hzero
        exact ⟨[], by simp [findLeaf, hk], by simp [labelsAt]⟩
      · intro hmiss
        have hne : n + 1 ≠ sectionIndex := by
          rw [List.length_singleton] at hmiss
          omega
        simp [findLeaf, hne]
  | cons c cs =>
      have hpaths : leafPaths [Rose.node a (c :: cs)] = (leafPaths (c :: cs)).map (a :: ·) := by
        simp [leafPaths]
      rw [hpaths, findLeaf]
      constructor
      · intro k hk hlt
        obtain ⟨position, hresult, hlabels⟩ := hcs.found k hk (by simpa using hlt)
        exact ⟨position, hresult, by rw [hlabels, List.getElem?_map]⟩
      · rw [List.length_map]
        exact hcs.missed

theorem searches_findLeafAmong (sectionIndex : ℤ) (forest : List QStandardItem) :
    ∀ (before : List QStandardItem) (n : ℤ), Searches sectionIndex n (leafPaths forest)
      (findLeafAmong sectionIndex forest before.length n) (labelsAt (before ++ forest)) := by
  induction forest using Rose.forest_induction with
  | nil =>
      intro before n
      constructor
      · intro k _ hlt
        simp [leafPaths] at hlt
      · intro _
        simp [findLeafAmong, leafPaths]
  | cons a cs rest ihcs ihrest =>
      intro before n
      have hitem := searches_findLeaf (a := a) (ihcs [] n)
      have hpaths : leafPaths (.node a cs :: rest) = leafPaths [.node a cs] ++ leafPaths rest :=
        leafPaths_append [.node a cs] rest
      have hat : (before ++ Rose.node a cs :: rest)[before.length]? = some (.node a cs) := by simp
      rcases searches_cases sectionIndex n (leafPaths [Rose.node a cs]).length with
        ⟨k, hk, hlt⟩ | hmiss
      · obtain ⟨position, hresult, hlabels⟩ := hitem.found k hk hlt
        have hresult' : findLeafAmong sectionIndex (.node a cs :: rest) before.length n =
            (some (before.length :: position), sectionIndex) := by
          rw [findLeafAmong, hresult]
        rw [hresult', hpaths]
        constructor
        · intro k' hk' _
          have hsame : k' = k := by omega
          refine ⟨_, rfl, ?_⟩
          rw [hsame, List.getElem?_append_left hlt, ← hlabels, labelsAt, hat]
          rfl
        · rw [List.length_append]
          omega
      · have hresult : findLeafAmong sectionIndex (.node a cs :: rest) before.length n =
            findLeafAmong sectionIndex rest (before.length + 1)
              (n + (leafPaths [Rose.node a cs]).length) := by
          rw [findLeafAmong, hitem.missed hmiss]
        have hnext := ihrest (before ++ [.node a cs]) (n + (leafPaths [Rose.node a cs]).length)
        rw [List.length_append, List.length_singleton, List.append_assoc, List.singleton_append]
          at hnext
        rw [hresult, hpaths]
        constructor
        · intro k hk hlt
          rw [List.length_append] at hlt
          have hle : (leafPaths [Rose.node a cs]).length ≤ k := by omega
          obtain ⟨position, hfound, hlabels⟩ :=
            hnext.found (k - (leafPaths [Rose.node a cs]).length) (by omega) (by omega)
          exact ⟨position, hfound, by rw [hlabels, List.getElem?_append_right hle]⟩
        · intro hmissed
          rw [List.length_append] at hmissed ⊢
          rw [hnext.missed (by omega)]
          simp only [Prod.mk.injEq, true_and]
          omega

/-- The leaf that is found for a section is the one of that number, from the left. -/
theorem leafIndex_eq {header : QStandardItemModel} {i : ℕ} (hi : i < (leafPaths header).length) :
    ∃ position, leafIndex header i = some position ∧
      labelsAt header position = (leafPaths header)[i]? := by
  obtain ⟨position, hresult, hlabels⟩ :=
    (searches_findLeafAmong i header [] (-1)).found i (by omega) hi
  refine ⟨position, ?_, hlabels⟩
  rw [leafIndex]
  exact congrArg Prod.fst hresult

/-! ## One leaf for each entry -/

/-- As many leaves as entries, and the leaf of each number has the labels of that entry. -/
structure OneLeafEach (str : L → PyStr) (index : MultiIndex L) (header : QStandardItemModel) :
    Prop where
  leaves : (leafPaths header).length = index.tuples.length
  found : ∀ (i : ℕ) (tuple : List L), index.tuples[i]? = some tuple →
    ∃ position, leafIndex header i = some position ∧
      labelsAt header position = some (tuple.map str)

theorem oneLeafEach_iff {str : L → PyStr} {index : MultiIndex L} {header : QStandardItemModel}
    (hpaths : leafPaths header = (index.tuples.destutter Differs).map (List.map str)) :
    OneLeafEach str index header ↔ index.tuples.IsChain Differs := by
  rw [← List.destutter_eq_self_iff]
  constructor
  · intro h
    have hlength := h.leaves
    rw [hpaths, List.length_map] at hlength
    exact (List.destutter_sublist Differs index.tuples).eq_of_length hlength
  · intro h
    rw [h] at hpaths
    have hlength : (leafPaths header).length = index.tuples.length := by
      rw [hpaths, List.length_map]
    refine ⟨hlength, ?_⟩
    intro i tuple hi
    obtain ⟨position, hfound, hlabels⟩ :=
      leafIndex_eq (hlength ▸ (List.getElem?_eq_some_iff.mp hi).1)
    refine ⟨position, hfound, ?_⟩
    rw [hlabels, hpaths, List.getElem?_map, hi]
    rfl

/-- A header that is filled from an index with entries has one leaf for each of them if and
only if no two entries that follow one another have all labels equal. -/
theorem fillHeaderModel_oneLeafEach_iff (str : L → PyStr)
    (standardItem : L → Except PyError QStandardItem) (index : MultiIndex L)
    (hne : index.tuples ≠ []) :
    (∃ header, fillHeaderModel str standardItem [] (.multi index) = (header, none) ∧
        OneLeafEach str index header) ↔
      index.tuples.IsChain (fun tuple tuple' => ¬ (tuple == tuple') = true) := by
  obtain ⟨header, hfill, hpaths⟩ := fillMulti_eq index hne
  rw [fillHeaderModel, hfill]
  simp only [Prod.mk.injEq, and_true, exists_eq_left']
  exact oneLeafEach_iff hpaths

/-- Two columns with the same labels. -/
def twinColumns : MultiIndex PyStr where
  nlevels := 2
  tuples := [[['a'], ['b']], [['a'], ['b']]]
  nlevels_pos := by decide
  length_eq := by decide
  same _ _ _ _ _ _ _ _ _ h := eq_of_beq h

def textItem (s : PyStr) : Except PyError QStandardItem := .ok (.node s [])

theorem fillHeaderModel_oneLeafEach_iff_twinColumns :
    (∃ header, fillHeaderModel id textItem [] (.multi twinColumns) = (header, none) ∧
        OneLeafEach id twinColumns header) ↔
      twinColumns.tuples.IsChain (fun tuple tuple' => ¬ (tuple == tuple') = true) :=
  fillHeaderModel_oneLeafEach_iff id textItem twinColumns (by decide)

/-- Both columns share one leaf. -/
theorem twinColumns_oneLeaf :
    ¬ ∃ header, fillHeaderModel id textItem [] (.multi twinColumns) = (header, none) ∧
      OneLeafEach id twinColumns header := by
  intro h
  obtain ⟨header, hfill, hone⟩ := h
  have hfilled : fillHeaderModel id textItem [] (.multi twinColumns) =
      ([.node ['a'] [.node ['b'] []]], none) := rfl
  have hheader : header = [.node ['a'] [.node ['b'] []]] :=
    congrArg Prod.fst (hfill.symm.trans hfilled)
  have hleaves := hone.leaves
  rw [hheader] at hleaves
  simp [leafPaths, twinColumns] at hleaves

end CProfiler.Headers
