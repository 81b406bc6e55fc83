import CProfiler.Verification.Pivot.Joins
import Mathlib.Data.List.Permutation

/-! The table that one displayed value is pivoted from: which frames the chosen
columns need, and what their join shows in whatever order they are joined. -/

namespace CProfiler.Pivot

open Model Foundation

/-! ## Dictionaries -/

section Dicts

variable {κ β : Type} [DecidableEq κ]

theorem dictGet_dictSet_self (d : List (κ × β)) (key : κ) (value : β) :
    dictGet (dictSet d key value) key = .ok value := by
  unfold dictGet dictSet
  by_cases h : d.any (fun entry => entry.1 = key)
  · rw [if_pos h]
    induction d with
    | nil => simp at h
    | cons entry d ih =>
        by_cases he : entry.1 = key
        · simp [he]
        · have h : d.any (fun entry => entry.1 = key) := by simpa [he] using h
          simpa [he] using ih h
  · rw [if_neg h]
    have hnone : d.find? (fun entry => entry.1 = key) = none := by
      apply List.find?_eq_none.mpr
      intro entry hentry he
      exact h (List.any_eq_true.mpr ⟨entry, hentry, he⟩)
    simp [List.find?_append, hnone]

theorem dictGet_dictSet_ne (d : List (κ × β)) {key key' : κ} (value : β) (hne : key' ≠ key) :
    dictGet (dictSet d key value) key' = dictGet d key' := by
  unfold dictGet dictSet
  by_cases h : d.any (fun entry => entry.1 = key)
  · rw [if_pos h]
    clear h
    induction d with
    | nil => rfl
    | cons entry d ih =>
        by_cases he : entry.1 = key
        · simpa [he, hne.symm] using ih
        · by_cases hkey : entry.1 = key'
          · subst hkey
            simp [hne]
          · simpa [he, hkey] using ih
  · rw [if_neg h]
    simp [List.find?_append, hne.symm]

end Dicts

/-! ## The chosen columns -/

theorem addColumn_keys (d : List (Path × List ColName)) (t : ColumnTuple) :
    (addColumn d t).map Prod.fst =
      if t.1 ∈ d.map Prod.fst then d.map Prod.fst else d.map Prod.fst ++ [t.1] := by
  have hany : d.any (fun entry => entry.1 = t.1) = true ↔ t.1 ∈ d.map Prod.fst := by
    simp
  unfold addColumn
  by_cases h : t.1 ∈ d.map Prod.fst
  · rw [if_pos h, if_pos (hany.mpr h), List.map_map]
    apply List.map_congr_left
    intro entry _
    by_cases he : entry.1 = t.1 <;> simp [he]
  · rw [if_neg h, if_neg (fun hd => h (hany.mp hd))]
    simp

theorem mem_addColumn_names {d : List (Path × List ColName)} {t : ColumnTuple} {name : ColName} :
    name = t.2 ∨ name ∈ d.flatMap Prod.snd → name ∈ (addColumn d t).flatMap Prod.snd := by
  intro h
  unfold addColumn
  by_cases hany : d.any (fun entry => entry.1 = t.1)
  · rw [if_pos hany]
    cases h with
    | inl hname =>
        obtain ⟨entry, hentry, he⟩ := List.any_eq_true.mp hany
        have he : entry.1 = t.1 := by simpa using he
        apply List.mem_flatMap.mpr
        refine ⟨_, List.mem_map.mpr ⟨entry, hentry, rfl⟩, ?_⟩
        simp [he, hname]
    | inr hold =>
        obtain ⟨entry, hentry, hname⟩ := List.mem_flatMap.mp hold
        apply List.mem_flatMap.mpr
        refine ⟨_, List.mem_map.mpr ⟨entry, hentry, rfl⟩, ?_⟩
        by_cases he : entry.1 = t.1
        · simp [he, hname]
        · simpa [he] using hname
  · rw [if_neg hany]
    cases h with
    | inl hname => simp [hname]
    | inr hold =>
        rw [List.flatMap_append]
        exact List.mem_append_left _ hold

/-- What collecting columns establishes: each file once, and every column's name. -/
structure Collects (tuples : List ColumnTuple) (d : List (Path × List ColName)) : Prop where
  nodup : (d.map Prod.fst).Nodup
  keys : ∀ path, path ∈ d.map Prod.fst ↔ ∃ t ∈ tuples, t.1 = path
  names : ∀ t ∈ tuples, t.2 ∈ d.flatMap Prod.snd

theorem collects_foldl (tuples : List ColumnTuple) :
    Collects tuples (tuples.foldl addColumn []) := by
  induction tuples using List.reverseRecOn with
  | nil => exact ⟨by simp, by simp, by simp⟩
  | append_singleton tuples t ih =>
      rw [List.foldl_append, List.foldl_cons, List.foldl_nil]
      constructor
      · rw [addColumn_keys]
        by_cases h : t.1 ∈ (tuples.foldl addColumn []).map Prod.fst
        · rw [if_pos h]
          exact ih.nodup
        · rw [if_neg h]
          exact ih.nodup.append (List.nodup_singleton _) (by simpa using h)
      · intro path
        rw [addColumn_keys]
        by_cases h : t.1 ∈ (tuples.foldl addColumn []).map Prod.fst
        · rw [if_pos h, ih.keys]
          simp only [List.mem_append, List.mem_singleton, or_and_right, exists_or, exists_eq_left]
          constructor
          · exact Or.inl
          · intro hpath
            cases hpath with
            | inl hpath => exact hpath
            | inr hpath => exact hpath ▸ (ih.keys t.1).mp h
        · rw [if_neg h, List.mem_append, ih.keys]
          simp only [List.mem_append, List.mem_singleton, or_and_right, exists_or, exists_eq_left,
            eq_comm (a := path)]
      · intro u hu
        apply mem_addColumn_names
        cases List.mem_append.mp hu with
        | inl hold => exact Or.inr (ih.names u hold)
        | inr hnew => exact Or.inl (by rw [List.mem_singleton.mp hnew])

section NeededTable

variable {V : Type} [LinearOrder V] (order : DictOrder) {dataFrames : List (Path × DataFrame V)}
  {dict : List (Path × List ColName)}

theorem neededTable_one {path : Path} {df : DataFrame V} (hkeys : dict.map Prod.fst = [path])
    (hdf : dictGet dataFrames path = .ok df) :
    neededTable order dataFrames dict = .ok df.resetIndex := by
  have hlength : dict.length = 1 := by simpa using congrArg List.length hkeys
  have horder : order.keys [path] = [path] := List.perm_singleton.mp (order.perm [path])
  unfold neededTable
  rw [if_neg (by omega), hkeys, horder]
  simp [hdf]

theorem mergeTurn_of_shares {a : Table V} {path : Path} {df : DataFrame V}
    (hdf : dictGet dataFrames path = .ok df)
    (hshares : ∃ name ∈ a.columns, name ∈ df.resetIndex.columns) :
    mergeTurn dataFrames a path =
      .ok (a.merge df.resetIndex (a.columns.filter (· ∈ df.resetIndex.columns))) := by
  have hlength : ¬ (a.columns.filter (· ∈ df.resetIndex.columns)).length = 0 := by
    obtain ⟨name, ha, hb⟩ := hshares
    intro hzero
    have hnil := List.length_eq_zero_iff.mp hzero
    have hmem : name ∈ a.columns.filter (· ∈ df.resetIndex.columns) := by simp [ha, hb]
    simp [hnil] at hmem
  simp only [mergeTurn, hdf, findCommonColumns, if_neg hlength, bind, Except.bind, pure,
    Except.pure]

theorem mergeTurn_of_not_shares {a : Table V} {path : Path} {df : DataFrame V}
    (hdf : dictGet dataFrames path = .ok df)
    (hshares : ¬ ∃ name ∈ a.columns, name ∈ df.resetIndex.columns) :
    ∃ e, mergeTurn dataFrames a path = .error e := by
  have hlength : (a.columns.filter (· ∈ df.resetIndex.columns)).length = 0 := by
    apply List.length_eq_zero_iff.mpr
    apply List.filter_eq_nil_iff.mpr
    intro name ha hb
    exact hshares ⟨name, ha, by simpa using hb⟩
  unfold mergeTurn findCommonColumns
  simp only [hdf, if_pos hlength, bind, Except.bind]
  exact ⟨_, rfl⟩

/-- Two frames are joined in either order, if they have a column in common. -/
theorem neededTable_two {A B : Path} {dfA dfB : DataFrame V}
    (hkeys : (dict.map Prod.fst).Perm [A, B])
    (hA : dictGet dataFrames A = .ok dfA) (hB : dictGet dataFrames B = .ok dfB) :
    if ∃ name ∈ dfA.resetIndex.columns, name ∈ dfB.resetIndex.columns then
      ∃ t, neededTable order dataFrames dict = .ok t ∧ Joined dfA.resetIndex dfB.resetIndex t
    else ∃ e, neededTable order dataFrames dict = .error e := by
  have hlength : 1 < dict.length := by
    have := hkeys.length_eq
    simp at this
    omega
  have hneeded (p q : Path) (dfP dfQ : DataFrame V)
      (horder : order.keys (dict.map Prod.fst) = [p, q])
      (hp : dictGet dataFrames p = .ok dfP) (hq : dictGet dataFrames q = .ok dfQ) :
      neededTable order dataFrames dict = mergeTurn dataFrames dfP.resetIndex q := by
    unfold neededTable mergeChosen
    rw [if_pos hlength, horder]
    simp only [hp, bind, Except.bind, List.foldlM_cons, List.foldlM_nil]
    cases mergeTurn dataFrames dfP.resetIndex q <;> rfl
  have hperm : (order.keys (dict.map Prod.fst)).Perm [A, B] := (order.perm _).trans hkeys
  have hcases := List.perm_pair.mp hperm
  split
  · rename_i hshares
    cases hcases with
    | inl horder =>
        rw [hneeded A B dfA dfB horder hA hB]
        exact ⟨_, mergeTurn_of_shares hB hshares, joined_merge _ _⟩
    | inr horder =>
        rw [hneeded B A dfB dfA horder hB hA]
        have hshares' : ∃ name ∈ dfB.resetIndex.columns, name ∈ dfA.resetIndex.columns := by
          obtain ⟨name, ha, hb⟩ := hshares
          exact ⟨name, hb, ha⟩
        exact ⟨_, mergeTurn_of_shares hA hshares', (joined_merge _ _).symm⟩
  · rename_i hshares
    cases hcases with
    | inl horder =>
        rw [hneeded A B dfA dfB horder hA hB]
        exact mergeTurn_of_not_shares hB hshares
    | inr horder =>
        rw [hneeded B A dfB dfA horder hB hA]
        apply mergeTurn_of_not_shares hA
        intro h
        obtain ⟨name, hb, ha⟩ := h
        exact hshares ⟨name, ha, hb⟩

end NeededTable

end CProfiler.Pivot
