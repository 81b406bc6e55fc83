import CProfiler.Verification.Tags.Accounting
import CProfiler.Verification.Tags.Classes

/-! # Building tag trees

Finalizing fails at a tag that has neither a range nor a child, and on samples without rows.
The trees of `functionTag` and `classTag` are traced back to the rows of their table. -/

namespace CProfiler.Tags

open Model Foundation

variable {κ : Type}

/-! ## The steps of finalizing -/

/-- The position before one that a search returns is a row of the table. -/
theorem irow_before_searchsorted {df : List (Sample κ)} (h : df ≠ []) (v : ℤ) :
    ∃ row, irow df ((searchsorted df v : ℤ) - 1) = .ok row := by
  have hle : searchsorted df v ≤ df.length := List.findIdx_le_length
  cases hn : searchsorted df v with
  | zero => exact ⟨_, pyGet_neg_one df h⟩
  | succ n =>
      have hlt : n < df.length := by omega
      refine ⟨df[n], ?_⟩
      simpa [irow] using pyGet_natCast df n hlt

theorem exists_aggregateStep {df : List (Sample κ)} (h : df ≠ []) (total : Sample κ) (r : Range) :
    ∃ total', aggregateStep df total r = .ok total' := by
  rcases irow_before_searchsorted h (r.2 + 1) with ⟨last, hlast⟩
  rcases irow_before_searchsorted h r.1 with ⟨first, hfirst⟩
  simp only [aggregateStep, hlast, hfirst]
  split
  · exact ⟨_, rfl⟩
  · exact ⟨_, rfl⟩

theorem exists_foldlM {α β ε : Type*} {f : β → α → Except ε β}
    (h : ∀ b a, ∃ b', f b a = .ok b') (l : List α) (b : β) : ∃ b', l.foldlM f b = .ok b' := by
  induction l generalizing b with
  | nil => exact ⟨b, rfl⟩
  | cons a l ih =>
      rcases h b a with ⟨next, hnext⟩
      rcases ih next with ⟨b', hb'⟩
      refine ⟨b', ?_⟩
      rw [List.foldlM_cons, hnext]
      exact hb'

/-- Samples can be added up for any ranges, over any table that has a row. -/
theorem aggregate_ok_iff (ranges : List Range) (df : List (Sample κ)) :
    (∃ row, aggregate ranges df = .ok row) ↔ df ≠ [] := by
  constructor
  · rintro ⟨row, hrow⟩ rfl
    cases hrow
  · intro h
    have hpos : 0 < df.length := List.length_pos_iff.mpr h
    have hfirst : irow df 0 = .ok df[0] := pyGet_natCast df 0 hpos
    rcases exists_foldlM (exists_aggregateStep h) ranges (df[0] - df[0]) with ⟨total, htotal⟩
    refine ⟨{ total with addr := -1 }, ?_⟩
    simp only [aggregate, hfirst, bind, Except.bind, htotal]
    rfl

/-- A tag can be fed unless there are samples without rows. -/
theorem feed_ok_iff (ranges : List Range) (cumulativeDf : Option (List (Sample κ)))
    (samples : Option (Sample κ)) :
    (∃ samples', Tag.feed ranges cumulativeDf samples = .ok samples') ↔ cumulativeDf ≠ some [] := by
  cases cumulativeDf with
  | none => simp [Tag.feed]
  | some df =>
      have hiff := aggregate_ok_iff ranges df
      cases hrow : aggregate ranges df with
      | error e => simpa [Tag.feed, hrow, Except.map] using hiff
      | ok row => simpa [Tag.feed, hrow, Except.map] using hiff

/-! ## Finalizing -/

/-- Every tag without children has a range. -/
def LeavesRanged (t : Tag κ) : Prop := ∀ s ∈ nodes t, s.children = [] → s.ranges ≠ []

theorem leavesRanged_iff (t : Tag κ) :
    LeavesRanged t ↔ (t.children = [] → t.ranges ≠ []) ∧ ∀ s ∈ t.children, LeavesRanged s := by
  rw [LeavesRanged, nodes_eq, List.forall_mem_cons]
  refine and_congr_right fun _ => ?_
  simp only [LeavesRanged, List.mem_flatMap]
  constructor
  · exact fun h s hs r hr => h r ⟨s, hs, hr⟩
  · rintro h r ⟨s, hs, hr⟩
    exact h s hs r hr

mutual

/-- Every tag of a finalized tree has a range. -/
theorem finalize_ranged {cumulativeDf : Option (List (Sample κ))} :
    ∀ t t' : Tag κ, t.finalize cumulativeDf = .ok t' → ∀ s ∈ nodes t', s.ranges ≠ []
  | .mk own label children samples, t', h => by
      rcases finalize_eq_ok_iff.mp h with ⟨children', ranges, samples', hall, hmerge, -, rfl⟩
      rw [nodes]
      exact List.forall_mem_cons.mpr ⟨merge_ne_nil hmerge, finalizeAll_ranged children _ hall⟩

theorem finalizeAll_ranged {cumulativeDf : Option (List (Sample κ))} :
    ∀ ts ts' : List (Tag κ), Tag.finalizeAll cumulativeDf ts = .ok ts' →
      ∀ s ∈ nodesAll ts', s.ranges ≠ []
  | [], ts', h => by
      obtain rfl := Except.ok.inj h
      exact fun s hs => absurd hs List.not_mem_nil
  | t :: ts, ts', h => by
      rcases finalizeAll_cons_eq_ok_iff.mp h with ⟨t', rest', hfin, hall, rfl⟩
      intro s hs
      rcases List.mem_append.mp hs with hs | hs
      · exact finalize_ranged t t' hfin s hs
      · exact finalizeAll_ranged ts rest' hall s hs

end

mutual

/-- Where every leaf has a range, merging never meets the empty list. -/
theorem exists_finalize {cumulativeDf : Option (List (Sample κ))} (hdf : cumulativeDf ≠ some []) :
    ∀ t : Tag κ, LeavesRanged t → ∃ t', t.finalize cumulativeDf = .ok t'
  | .mk own label children samples, h => by
      rcases (leavesRanged_iff _).mp h with ⟨hleaf, hchildren⟩
      rcases exists_finalizeAll hdf children hchildren with ⟨children', hall, hranged⟩
      have hne : own ++ children'.flatMap Tag.ranges ≠ [] := by
        intro hnil
        rcases List.append_eq_nil_iff.mp hnil with ⟨hown, hflat⟩
        cases children with
        | nil => exact hleaf rfl hown
        | cons child rest =>
            rcases finalizeAll_cons_eq_ok_iff.mp hall with ⟨child', rest', -, -, rfl⟩
            exact hranged child' List.mem_cons_self
              (List.flatMap_eq_nil_iff.mp hflat child' List.mem_cons_self)
      rcases (merge_ok_iff _).mpr hne with ⟨ranges, hmerge⟩
      rcases (feed_ok_iff ranges cumulativeDf samples).mpr hdf with ⟨samples', hfeed⟩
      exact ⟨_, finalize_eq_ok_iff.mpr ⟨children', ranges, samples', hall, hmerge, hfeed, rfl⟩⟩

theorem exists_finalizeAll {cumulativeDf : Option (List (Sample κ))}
    (hdf : cumulativeDf ≠ some []) :
    ∀ ts : List (Tag κ), (∀ t ∈ ts, LeavesRanged t) →
      ∃ ts', Tag.finalizeAll cumulativeDf ts = .ok ts' ∧ ∀ t ∈ ts', t.ranges ≠ []
  | [], _ => ⟨[], rfl, fun t ht => absurd ht List.not_mem_nil⟩
  | t :: ts, h => by
      rcases List.forall_mem_cons.mp h with ⟨ht, hts⟩
      rcases exists_finalize hdf t ht with ⟨t', hfin⟩
      rcases exists_finalizeAll hdf ts hts with ⟨ts', hall, hranged⟩
      exact ⟨t' :: ts', finalizeAll_cons_eq_ok_iff.mpr ⟨t', ts', hfin, hall, rfl⟩,
        List.forall_mem_cons.mpr ⟨finalize_ranged t t' hfin t' (mem_nodes_self t'), hranged⟩⟩

end

mutual

theorem leavesRanged_of_finalize {cumulativeDf : Option (List (Sample κ))} :
    ∀ t t' : Tag κ, t.finalize cumulativeDf = .ok t' → LeavesRanged t
  | .mk own label children samples, t', h => by
      rcases finalize_eq_ok_iff.mp h with ⟨children', ranges, samples', hall, hmerge, -, -⟩
      refine (leavesRanged_iff _).mpr ⟨?_, leavesRanged_of_finalizeAll children children' hall⟩
      rintro (rfl : children = []) (rfl : own = [])
      obtain rfl := Except.ok.inj hall
      cases hmerge

theorem leavesRanged_of_finalizeAll {cumulativeDf : Option (List (Sample κ))} :
    ∀ ts ts' : List (Tag κ), Tag.finalizeAll cumulativeDf ts = .ok ts' →
      ∀ t ∈ ts, LeavesRanged t
  | [], _, _ => fun t ht => absurd ht List.not_mem_nil
  | t :: ts, ts', h => by
      rcases finalizeAll_cons_eq_ok_iff.mp h with ⟨t', rest', hfin, hall, -⟩
      exact List.forall_mem_cons.mpr
        ⟨leavesRanged_of_finalize t t' hfin, leavesRanged_of_finalizeAll ts rest' hall⟩

end

/-- Finalizing succeeds exactly when every leaf has a range and no table without rows is fed. -/
theorem finalize_ok_iff (cumulativeDf : Option (List (Sample κ))) (t : Tag κ) :
    (∃ t', t.finalize cumulativeDf = .ok t') ↔ LeavesRanged t ∧ cumulativeDf ≠ some [] := by
  constructor
  · rintro ⟨t', h⟩
    refine ⟨leavesRanged_of_finalize t t' h, ?_⟩
    cases t with
    | mk own label children samples =>
        rcases finalize_eq_ok_iff.mp h with ⟨-, ranges, samples', -, -, hfeed, -⟩
        exact (feed_ok_iff ranges cumulativeDf samples).mp ⟨samples', hfeed⟩
  · rintro ⟨h, hdf⟩
    exact exists_finalize hdf t h

/-- Finalizing under a new root, which has its range from `bounds` if there is one. -/
def finalizeUnder (bounds : Option Range) (label : PyStr)
    (cumulativeDf : Option (List (Sample κ))) (t : Tag κ) : Except PyError (Tag κ) :=
  ((Tag.new bounds label).addChild t).finalize cumulativeDf

/-- A finalized tree can be finalized again under any root. -/
theorem finalizeUnder_ok_iff (bounds : Option Range) (label : PyStr)
    (cumulativeDf : Option (List (Sample κ))) {t : Tag κ} (h : ∀ s ∈ nodes t, s.ranges ≠ []) :
    (∃ t', finalizeUnder bounds label cumulativeDf t = .ok t') ↔ cumulativeDf ≠ some [] := by
  have hleaves : LeavesRanged ((Tag.new bounds label).addChild t) := by
    refine (leavesRanged_iff _).mpr ⟨fun hnil => ?_, fun s hs => ?_⟩
    · cases hnil
    · obtain rfl := List.mem_singleton.mp hs
      exact fun r hr _ => h r hr
  rw [finalizeUnder, finalize_ok_iff]
  exact and_iff_right hleaves

/-! ## The two builders -/

theorem functionTag_eq (df : List FunctionRow) :
    functionTag df = (Tag.mk [] ['F', 'u', 'n', 'c', 't', 'i', 'o', 'n', 's']
      (df.map rowTag) none : Tag κ).finalize none := by
  rw [functionTag, ← List.foldl_map, foldl_addChild]
  rfl

theorem functionTag_ok_iff (df : List FunctionRow) :
    (∃ t : Tag κ, functionTag df = .ok t) ↔ df ≠ [] := by
  constructor
  · rintro ⟨t, ht⟩ rfl
    cases ht
  · intro h
    rcases functionTag_spec (κ := κ) df h with ⟨functions, hok, -⟩
    exact ⟨functions, hok⟩

theorem functionTag_ranged {df : List FunctionRow} {t : Tag κ} (h : functionTag df = .ok t) :
    ∀ s ∈ nodes t, s.ranges ≠ [] := by
  rw [functionTag_eq] at h
  exact finalize_ranged _ t h

theorem classTag_ranged {df : List FunctionRow} {t : Tag κ} (h : classTag df = .ok t) :
    ∀ s ∈ nodes t, s.ranges ≠ [] := by
  rcases bind_eq_ok h with ⟨classnames, -, h⟩
  rcases bind_eq_ok h with ⟨functions, -, h⟩
  rcases bind_eq_ok h with ⟨rootTag, -, h⟩
  exact finalize_ranged rootTag t h

/-- Without a class the root of the class tags is left without children. -/
theorem classTag_ok_iff (df : List FunctionRow)
    (hok : ∀ row ∈ df, ∃ c, extractClassname row = .ok c) :
    (∃ t : Tag κ, classTag df = .ok t) ↔ ∃ row ∈ df, ∃ c, InClass c row := by
  constructor
  · rintro ⟨t, h⟩
    rcases getClassnames_spec df hok with ⟨names, hnames, hnodup, hmem⟩
    rcases bind_eq_ok h with ⟨classnames, hclassnames, h⟩
    obtain rfl := Except.ok.inj (hnames.symm.trans hclassnames)
    rcases bind_eq_ok h with ⟨functions, hfunctions, h⟩
    rcases bind_eq_ok h with ⟨rootTag, hroot, h⟩
    by_contra hnone
    have hnil : names = [] := List.eq_nil_iff_forall_not_mem.mpr fun c hc => by
      rcases (hmem c).mp hc with ⟨row, hrow, hclass⟩
      exact hnone ⟨row, hrow, c, hclass⟩
    subst hnil
    rcases functionTag_spec (κ := κ) df ((functionTag_ok_iff df).mp ⟨functions, hfunctions⟩) with
      ⟨functions', hfunctions', hchildren⟩
    obtain rfl := Except.ok.inj (hfunctions.symm.trans hfunctions')
    have hfold := foldlM_classTagStep hchildren hnodup hok hmem [] df fun _ h => h
    obtain rfl := Except.ok.inj (hfold.symm.trans hroot)
    cases h
  · intro hclass
    rcases classTag_spec (κ := κ) df hok hclass with ⟨root, -, hroot, -⟩
    exact ⟨root, hroot⟩

/-- A tree is returned, and finalizing it under the new root does not fail. -/
def Constructed (tree : Except PyError (Tag κ)) (bounds : Option Range) (label : PyStr)
    (cumulativeDf : Option (List (Sample κ))) : Prop :=
  ∃ t, tree = .ok t ∧ ∃ t', finalizeUnder bounds label cumulativeDf t = .ok t'

/-- Both builders return a tree, and it can be finalized under a new root, exactly when some
function has a class and no table without rows is fed. -/
theorem construction_succeeds_iff (df : List FunctionRow)
    (hok : ∀ row ∈ df, ∃ c, extractClassname row = .ok c) (bounds : Option Range)
    (label : PyStr) (cumulativeDf : Option (List (Sample κ))) :
    Constructed (functionTag df) bounds label cumulativeDf ∧
        Constructed (classTag df) bounds label cumulativeDf ↔
      (∃ row ∈ df, ∃ c, InClass c row) ∧ cumulativeDf ≠ some [] := by
  constructor
  · rintro ⟨-, t, ht, hunder⟩
    exact ⟨(classTag_ok_iff df hok).mp ⟨t, ht⟩,
      (finalizeUnder_ok_iff bounds label cumulativeDf (classTag_ranged ht)).mp hunder⟩
  · rintro ⟨hclass, hdf⟩
    rcases (classTag_ok_iff (κ := κ) df hok).mpr hclass with ⟨classes, hclasses⟩
    have hne : df ≠ [] := by
      rcases hclass with ⟨row, hrow, -⟩
      exact List.ne_nil_of_mem hrow
    rcases (functionTag_ok_iff (κ := κ) df).mpr hne with ⟨functions, hfunctions⟩
    exact ⟨⟨functions, hfunctions,
        (finalizeUnder_ok_iff bounds label cumulativeDf (functionTag_ranged hfunctions)).mpr hdf⟩,
      classes, hclasses,
        (finalizeUnder_ok_iff bounds label cumulativeDf (classTag_ranged hclasses)).mpr hdf⟩

/-- A method and a function of C. -/
def mixedBinary : List FunctionRow :=
  [⟨16, 31, ['A', ':', ':', 'f', '(', ')']⟩, ⟨64, 79, ['m', 'a', 'i', 'n']⟩]

theorem construction_succeeds_iff_mixedBinary :
    Constructed (functionTag mixedBinary) (some (0, 0)) ['R'] (some oneSample) ∧
        Constructed (classTag mixedBinary) (some (0, 0)) ['R'] (some oneSample) := by
  refine (construction_succeeds_iff mixedBinary ?_ _ _ _).mpr
    ⟨⟨_, List.mem_cons_self, ['A'], by decide⟩, by simp [oneSample]⟩
  exact List.forall_mem_cons.mpr ⟨⟨some ['A'], by decide⟩,
    List.forall_mem_cons.mpr ⟨⟨none, by decide⟩, by simp⟩⟩

/-- An empty table fails in `functionTag`, and the table of a binary in C in `classTag`. -/
theorem construction_fails_without_class :
    (functionTag [] : Except PyError (Tag Unit)) = .error .indexError ∧
      (∀ row ∈ [(⟨64, 79, ['m', 'a', 'i', 'n']⟩ : FunctionRow)],
        extractClassname row = .ok none) ∧
      (classTag [⟨64, 79, ['m', 'a', 'i', 'n']⟩] : Except PyError (Tag Unit)) =
        .error .indexError :=
  ⟨rfl, by decide, rfl⟩

end CProfiler.Tags
