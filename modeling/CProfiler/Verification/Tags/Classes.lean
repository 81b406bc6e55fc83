import CProfiler.Foundation.Simulation
import CProfiler.Model.ClassTags
import CProfiler.Verification.Tags.Finalizing
import Mathlib.Data.List.Nodup

/-! Class tags: which functions a class tag lists, and with which ranges. -/

namespace CProfiler.Tags

open Foundation Model

variable {κ : Type}

/-- The class extracted from the name of the row. -/
def InClass (c : PyStr) (row : FunctionRow) : Prop := extractClassname row = .ok (some c)

instance (c : PyStr) (row : FunctionRow) : Decidable (InClass c row) :=
  inferInstanceAs (Decidable (_ = _))

/-- The extracted class, where extraction does not fail. -/
def className (row : FunctionRow) : Option PyStr :=
  match extractClassname row with
  | .ok c => c
  | .error _ => none

/-- Extraction reads only the name. -/
theorem extractClassname_congr {r s : FunctionRow} (h : r.name = s.name) :
    extractClassname r = extractClassname s := by
  rw [extractClassname, extractClassname, h]

/-! ## Class names -/

theorem getClassnames_spec (df : List FunctionRow)
    (hok : ∀ row ∈ df, ∃ c, extractClassname row = .ok c) :
    ∃ names, getClassnames df = .ok names ∧ names.Nodup ∧
      ∀ c, c ∈ names ↔ ∃ row ∈ df, InClass c row := by
  have hg : ∀ row ∈ df, extractClassname row = .ok (className row) := fun row hrow => by
    obtain ⟨c, hc⟩ := hok row hrow
    rw [hc, className, hc]
  refine ⟨(dropDuplicates (df.map className)).filterMap id, ?_, ?_, fun c => ?_⟩
  · rw [getClassnames, mapM_eq_ok _ className df hg]
    rfl
  · refine List.Nodup.filterMap ?_ (List.nodup_reverse.mpr (List.nodup_dedup _))
    intro a b c ha hb
    rw [Option.mem_def, id] at ha hb
    rw [ha, hb]
  · simp only [dropDuplicates, List.mem_filterMap, List.mem_reverse, List.mem_dedup, List.mem_map,
      id, InClass]
    constructor
    · rintro ⟨_, ⟨row, hrow, rfl⟩, hc⟩
      exact ⟨row, hrow, by rw [hg row hrow, hc]⟩
    · rintro ⟨row, hrow, hc⟩
      exact ⟨className row, ⟨row, hrow, rfl⟩, Except.ok.inj ((hg row hrow).symm.trans hc)⟩

/-! ## Function tags -/

@[simp] theorem finalize_rowTag (row : FunctionRow) :
    (rowTag row : Tag κ).finalize none = .ok (rowTag row) := rfl

theorem finalizeAll_rowTag (rows : List FunctionRow) :
    Tag.finalizeAll none (rows.map rowTag : List (Tag κ)) = .ok (rows.map rowTag) :=
  finalizeAll_map fun row _ => finalize_rowTag row

/-- A tag over function tags keeps them when it is finalized. -/
theorem finalize_over_rows (label : PyStr) (rows : List FunctionRow) (h : rows ≠ []) :
    ∃ m, m ≠ [] ∧ (Tag.mk [] label (rows.map rowTag) none : Tag κ).finalize none =
      .ok (.mk m label (rows.map rowTag) none) := by
  have hne : (rows.map rowTag : List (Tag κ)).flatMap Tag.ranges ≠ [] := by
    obtain ⟨row, rows, rfl⟩ := List.exists_cons_of_ne_nil h
    simp [rowTag, Tag.new, Tag.ranges]
  obtain ⟨m, hm, hmne⟩ := merge_ok hne
  exact ⟨m, hmne, finalize_eq_ok_iff.mpr ⟨_, m, none, finalizeAll_rowTag rows, hm, rfl, rfl⟩⟩

theorem foldl_addChild (children : List (Tag κ)) (parent : Tag κ) :
    children.foldl Tag.addChild parent =
      .mk parent.ranges parent.label (parent.children ++ children) parent.getSamples := by
  induction children generalizing parent with
  | nil => cases parent; simp [Tag.ranges, Tag.label, Tag.children, Tag.getSamples]
  | cons child children ih =>
      rw [List.foldl_cons, ih]
      simp [Tag.addChild, Tag.ranges, Tag.label, Tag.children, Tag.getSamples]

theorem functionTag_spec (df : List FunctionRow) (h : df ≠ []) :
    ∃ functions : Tag κ, functionTag df = .ok functions ∧ functions.children = df.map rowTag := by
  obtain ⟨m, _, hm⟩ :=
    finalize_over_rows (κ := κ) ['F', 'u', 'n', 'c', 't', 'i', 'o', 'n', 's'] df h
  refine ⟨.mk m ['F', 'u', 'n', 'c', 't', 'i', 'o', 'n', 's'] (df.map rowTag) none, ?_, rfl⟩
  rw [functionTag, ← List.foldl_map, foldl_addChild]
  exact hm

/-- The row whose tag a lookup by the name of `row` finds: the last one of that name. -/
def lastNamesake (df : List FunctionRow) (row : FunctionRow) : FunctionRow :=
  (df.reverse.find? (fun r => r.name = row.name)).getD row

theorem lastNamesake_spec {df : List FunctionRow} {row : FunctionRow} (h : row ∈ df) :
    df.reverse.find? (fun r => r.name = row.name) = some (lastNamesake df row) ∧
      lastNamesake df row ∈ df ∧ (lastNamesake df row).name = row.name := by
  cases hfind : df.reverse.find? (fun r => r.name = row.name) with
  | none =>
      have := List.find?_eq_none.mp hfind row (List.mem_reverse.mpr h)
      simp at this
  | some r =>
      have hr : lastNamesake df row = r := by rw [lastNamesake, hfind]; rfl
      rw [hr]
      exact ⟨rfl, List.mem_reverse.mp (List.mem_of_find?_eq_some hfind),
        by simpa using List.find?_some hfind⟩

theorem lastNamesake_congr {df : List FunctionRow} {r s : FunctionRow} (hr : r ∈ df) (hs : s ∈ df)
    (hname : r.name = s.name) : lastNamesake df r = lastNamesake df s := by
  have h := (lastNamesake_spec hr).1
  rw [hname, (lastNamesake_spec hs).1] at h
  exact (Option.some.inj h).symm

theorem lookup_rowTag {functions : Tag κ} {df : List FunctionRow}
    (hc : functions.children = df.map rowTag) {row : FunctionRow} (h : row ∈ df) :
    functions.lookup row.name = .ok (rowTag (lastNamesake df row)) := by
  have hfind : (functions.children.reverse.find? fun t => t.label = row.name) =
      some (rowTag (lastNamesake df row)) := by
    rw [hc, ← List.map_reverse, List.find?_map]
    exact congrArg (Option.map rowTag) (lastNamesake_spec h).1
  rw [Tag.lookup, hfind]

/-! ## Class tags -/

theorem replaceLast_map {α β : Type*} [DecidableEq β] (label : α → β) (g : β → α)
    (hg : ∀ b, label (g b) = b) (x : α) {names : List β} (hnodup : names.Nodup) {c : β}
    (hc : c ∈ names) :
    replaceLast (fun t => label t = c) x (names.map g) =
      names.map (fun b => if b = c then x else g b) := by
  induction names with
  | nil => exact absurd hc List.not_mem_nil
  | cons b names ih =>
      obtain ⟨hb, hnodup⟩ := List.nodup_cons.mp hnodup
      have hany : (names.map g).any (fun t => label t = c) = decide (c ∈ names) := by
        rw [Bool.eq_iff_iff]
        simp [hg]
      rw [List.map_cons, replaceLast, hany]
      by_cases hcn : c ∈ names
      · have hbc : b ≠ c := fun h => hb (h ▸ hcn)
        rw [if_pos (by simpa using hcn), ih hnodup hcn, List.map_cons, if_neg hbc]
      · obtain rfl : c = b := (List.mem_cons.mp hc).resolve_right hcn
        rw [if_neg (by simpa using hcn), if_pos (by simp [hg]), List.map_cons, if_pos rfl]
        congr 1
        refine List.map_congr_left fun b' hb' => (if_neg ?_).symm
        rintro rfl
        exact hcn hb'

theorem find?_reverse_map {α β : Type*} [DecidableEq β] (label : α → β) (g : β → α)
    (hg : ∀ b, label (g b) = b) {names : List β} {c : β} (hc : c ∈ names) :
    (names.map g).reverse.find? (fun t => label t = c) = some (g c) := by
  rw [← List.map_reverse, List.find?_map]
  have hcomp : ((fun t => decide (label t = c)) ∘ g) = fun b => decide (b = c) := by
    funext b
    simp [hg]
  rw [hcomp]
  cases hfind : names.reverse.find? (fun b => decide (b = c)) with
  | none =>
      have := List.find?_eq_none.mp hfind c (List.mem_reverse.mpr hc)
      simp at this
  | some b =>
      obtain rfl : b = c := by simpa using List.find?_some hfind
      rfl

/-- The tag of class `c` after the rows `done`: for each of its rows, the function tag
found under the name of the row. -/
def classTagAfter (df done : List FunctionRow) (c : PyStr) : Tag κ :=
  .mk [] c ((done.filter (fun row => InClass c row)).map (fun row => rowTag (lastNamesake df row)))
    none

/-- The root after the rows `done`, over the class names in order. -/
def rootAfter (df : List FunctionRow) (names : List PyStr) (done : List FunctionRow) : Tag κ :=
  .mk [] ['C', 'l', 'a', 's', 's', 'e', 's'] (names.map (classTagAfter df done)) none

/-- One row is added to its own class and to no other. -/
theorem classTagStep_spec {df : List FunctionRow} {names : List PyStr} {functions : Tag κ}
    (hf : functions.children = df.map rowTag) (hnodup : names.Nodup) (done : List FunctionRow)
    {row : FunctionRow} (hrow : row ∈ df) {c : Option PyStr} (hclass : extractClassname row = .ok c)
    (hc : ∀ c', c = some c' → c' ∈ names) :
    classTagStep functions (rootAfter df names done) row =
      .ok (rootAfter df names (done ++ [row])) := by
  have hother : ∀ b, c ≠ some b →
      (classTagAfter df (done ++ [row]) b : Tag κ) = classTagAfter df done b := by
    intro b hb
    have hnot : ¬ InClass b row := fun h => hb (Except.ok.inj (hclass.symm.trans h))
    simp [classTagAfter, List.filter_append, hnot]
  cases c with
  | none =>
      have hsame : (rootAfter df names (done ++ [row]) : Tag κ) = rootAfter df names done := by
        rw [rootAfter, rootAfter, List.map_congr_left fun b _ => hother b (by simp)]
      rw [classTagStep, hclass, hsame]
      rfl
  | some c =>
      have hin : InClass c row := hclass
      have hlook : (rootAfter df names done : Tag κ).lookup c = .ok (classTagAfter df done c) := by
        rw [Tag.lookup]
        have hfind := find?_reverse_map Tag.label (classTagAfter (κ := κ) df done)
          (fun _ => rfl) (hc c rfl)
        rw [rootAfter, Tag.children, hfind]
      have hadd : (classTagAfter df done c : Tag κ).addChild (rowTag (lastNamesake df row)) =
          classTagAfter df (done ++ [row]) c := by
        simp [classTagAfter, Tag.addChild, Tag.ranges, Tag.label, Tag.children, Tag.getSamples,
          List.filter_append, hin]
      rw [classTagStep, hclass]
      simp only [bind, Except.bind, hlook, lookup_rowTag hf hrow, hadd]
      have hrep := replaceLast_map Tag.label (classTagAfter (κ := κ) df done) (fun _ => rfl)
        (classTagAfter df (done ++ [row]) c) hnodup (hc c rfl)
      have hmap : names.map (fun b => if b = c then classTagAfter df (done ++ [row]) c
          else (classTagAfter df done b : Tag κ)) =
            names.map (classTagAfter df (done ++ [row])) := by
        refine List.map_congr_left fun b _ => ?_
        by_cases hb : b = c
        · rw [if_pos hb, hb]
        · rw [if_neg hb, hother b fun h => hb (Option.some.inj h).symm]
      simp only [Tag.withChild, rootAfter, Tag.ranges, Tag.label, Tag.children, Tag.getSamples]
      rw [← hmap, ← hrep]
      rfl

/-- All rows are added without a failing lookup. -/
theorem foldlM_classTagStep {df : List FunctionRow} {names : List PyStr} {functions : Tag κ}
    (hf : functions.children = df.map rowTag) (hnodup : names.Nodup)
    (hok : ∀ row ∈ df, ∃ c, extractClassname row = .ok c)
    (hmem : ∀ c, c ∈ names ↔ ∃ row ∈ df, InClass c row) (done rows : List FunctionRow)
    (hsub : ∀ row ∈ rows, row ∈ df) :
    rows.foldlM (classTagStep functions) (rootAfter df names done) =
      .ok (rootAfter df names (done ++ rows)) := by
  induction rows generalizing done with
  | nil => rw [List.append_nil]; rfl
  | cons row rows ih =>
      obtain ⟨hrow, hsub⟩ := List.forall_mem_cons.mp hsub
      obtain ⟨c, hclass⟩ := hok row hrow
      have hstep := classTagStep_spec hf hnodup done hrow hclass fun c' hc' =>
        (hmem c').mpr ⟨row, hrow, by rw [InClass, hclass, hc']⟩
      have hrest := ih (done ++ [row]) hsub
      rw [List.append_assoc, List.singleton_append] at hrest
      rw [List.foldlM_cons, hstep]
      exact hrest

theorem map_eq_of_forall₂ {α β γ : Type*} {f : α → γ} {g : β → γ} {l : List α} {m : List β}
    (h : List.Forall₂ (fun a b => g b = f a) l m) : m.map g = l.map f := by
  induction h with
  | nil => rfl
  | cons hab _ ih => rw [List.map_cons, List.map_cons, hab, ih]

/-- Finalizing the root keeps the children of every class tag. -/
theorem finalize_rootAfter (df : List FunctionRow) {names : List PyStr} (hne : names ≠ [])
    (hmem : ∀ c ∈ names, ∃ row ∈ df, InClass c row) :
    ∃ root : Tag κ, (rootAfter df names df).finalize none = .ok root ∧
      root.children.map (fun t => (t.label, t.children)) =
        names.map (fun c => (c, (classTagAfter df df c).children)) := by
  have hone : ∀ t ∈ names.map (classTagAfter (κ := κ) df df), ∃ t', t.finalize none = .ok t' ∧
      ((t'.label, t'.children) = (t.label, t.children) ∧ t'.ranges ≠ []) := by
    intro t ht
    obtain ⟨c, hc, rfl⟩ := List.mem_map.mp ht
    obtain ⟨row, hrow, hin⟩ := hmem c hc
    have hrows : (df.filter (fun row => InClass c row)).map (lastNamesake df) ≠ [] := by
      simpa [List.filter_eq_nil_iff] using ⟨row, hrow, hin⟩
    obtain ⟨m, hm, hfin⟩ := finalize_over_rows (κ := κ) c _ hrows
    rw [List.map_map] at hfin
    exact ⟨_, hfin, rfl, hm⟩
  obtain ⟨tags, htags, hforall⟩ := exists_finalizeAll_of_forall hone
  have hmap := map_eq_of_forall₂ (hforall.imp fun _ _ h => h.1)
  have hne' : tags.flatMap Tag.ranges ≠ [] := by
    obtain ⟨c, names, rfl⟩ := List.exists_cons_of_ne_nil hne
    rw [List.map_cons] at hforall
    cases hforall with
    | cons hfirst _ =>
        rw [List.flatMap_cons]
        exact List.append_ne_nil_of_left_ne_nil hfirst.2 _
  obtain ⟨m, hm, _⟩ := merge_ok hne'
  refine ⟨.mk m ['C', 'l', 'a', 's', 's', 'e', 's'] tags none, ?_, ?_⟩
  · exact finalize_eq_ok_iff.mpr ⟨tags, m, none, htags, hm, rfl, rfl⟩
  · rw [Tag.children, hmap, List.map_map]
    rfl

/-- `classTag` succeeds, and a class tag lists for each row of the class, in order, the
last function of the name of the row. -/
theorem classTag_spec (df : List FunctionRow)
    (hok : ∀ row ∈ df, ∃ c, extractClassname row = .ok c)
    (hclass : ∃ row ∈ df, ∃ c, InClass c row) :
    ∃ (root : Tag κ) (names : List PyStr), classTag df = .ok root ∧ names.Nodup ∧
      (∀ c, c ∈ names ↔ ∃ row ∈ df, InClass c row) ∧
      root.children.map (fun t => (t.label, t.children)) =
        names.map (fun c => (c, (df.filter (fun row => InClass c row)).map
          (fun row => rowTag (lastNamesake df row)))) := by
  obtain ⟨row, hrow, c, hc⟩ := hclass
  obtain ⟨names, hnames, hnodup, hmem⟩ := getClassnames_spec df hok
  obtain ⟨functions, hfun, hchildren⟩ := functionTag_spec (κ := κ) df (List.ne_nil_of_mem hrow)
  have hne : names ≠ [] := List.ne_nil_of_mem ((hmem c).mpr ⟨row, hrow, hc⟩)
  have hin : ∀ c ∈ names, ∃ row ∈ df, InClass c row := fun c hc => (hmem c).mp hc
  obtain ⟨root, hroot, hmap⟩ := finalize_rootAfter (κ := κ) df hne hin
  refine ⟨root, names, ?_, hnodup, hmem, hmap⟩
  have hstart : names.foldl (fun root c => root.addChild (Tag.new none c))
      (Tag.new none ['C', 'l', 'a', 's', 's', 'e', 's'] : Tag κ) = rootAfter df names [] := by
    rw [← List.foldl_map (f := fun c => Tag.new none c) (g := Tag.addChild), foldl_addChild]
    rfl
  have hfold := foldlM_classTagStep hchildren hnodup hok hmem [] df fun _ h => h
  rw [List.nil_append] at hfold
  simp only [classTag, hnames, hfun, bind, Except.bind, hstart, hfold]
  exact hroot

/-! ## Functions kept by their classes -/

/-- Class tags are distinct, there is one for each extracted class, and its children
correspond one to one to the rows of the class, each with the range of its row. -/
structure FunctionsKept (df : List FunctionRow) (root : Tag κ) : Prop where
  labels_nodup : (root.children.map Tag.label).Nodup
  labels : ∀ c, c ∈ root.children.map Tag.label ↔ ∃ row ∈ df, InClass c row
  children : ∀ clTag ∈ root.children,
    (clTag.children.map (fun t => (t.label, t.ranges))).Perm
      ((df.filter (fun row => InClass clTag.label row)).map
        (fun row => (row.name, [(row.start, row.stop)])))

/-- No function is lost from its class exactly when rows of the same name that have a
class have the same range. -/
theorem classTag_functionsKept_iff (df : List FunctionRow)
    (hok : ∀ row ∈ df, ∃ c, extractClassname row = .ok c)
    (hclass : ∃ row ∈ df, ∃ c, InClass c row) :
    ∃ root : Tag κ, classTag df = .ok root ∧
      (FunctionsKept df root ↔ ∀ r ∈ df, ∀ s ∈ df, r.name = s.name → (∃ c, InClass c r) →
        (r.start, r.stop) = (s.start, s.stop)) := by
  obtain ⟨root, names, hroot, hnodup, hmem, hmap⟩ := classTag_spec (κ := κ) df hok hclass
  have hlabels : root.children.map Tag.label = names := by
    have h := congrArg (List.map Prod.fst) hmap
    simpa [List.map_map, Function.comp_def] using h
  have hchildren : ∀ t ∈ root.children, t.label ∈ names ∧
      t.children.map (fun t => (t.label, t.ranges)) =
        (df.filter (fun row => InClass t.label row)).map (fun row =>
          (row.name, [((lastNamesake df row).start, (lastNamesake df row).stop)])) := by
    intro t ht
    have hin : (t.label, t.children) ∈ root.children.map (fun t => (t.label, t.children)) :=
      List.mem_map.mpr ⟨t, ht, rfl⟩
    rw [hmap] at hin
    obtain ⟨c, hc, heq⟩ := List.mem_map.mp hin
    obtain ⟨rfl, hcs⟩ := Prod.mk.inj heq
    refine ⟨hc, ?_⟩
    rw [← hcs, List.map_map]
    refine List.map_congr_left fun row hrow => ?_
    have hname := (lastNamesake_spec (List.mem_of_mem_filter hrow)).2.2
    rw [← hname]
    rfl
  refine ⟨root, hroot, ?_, ?_⟩
  · rintro ⟨_, hlabel, hperm⟩ r hr s hs hname ⟨c, hc⟩
    -- Both rows carry the range of the last row of their name.
    have hlast : ∀ q ∈ df, InClass c q →
        (q.start, q.stop) = ((lastNamesake df q).start, (lastNamesake df q).stop) := by
      intro q hq hqc
      obtain ⟨t, ht, rfl⟩ := List.mem_map.mp ((hlabel c).mpr ⟨q, hq, hqc⟩)
      have hmemq := (hperm t ht).mem_iff.mpr (List.mem_map.mpr
        ⟨q, List.mem_filter.mpr ⟨hq, decide_eq_true hqc⟩, rfl⟩)
      rw [(hchildren t ht).2] at hmemq
      obtain ⟨q', hq', heq⟩ := List.mem_map.mp hmemq
      obtain ⟨hn, hrange⟩ := Prod.mk.inj heq
      rw [← lastNamesake_congr (List.mem_of_mem_filter hq') hq hn]
      exact (List.singleton_inj.mp hrange).symm
    rw [hlast r hr hc, hlast s hs ((extractClassname_congr hname).symm.trans hc),
      lastNamesake_congr hr hs hname]
  · intro hsame
    refine ⟨hlabels ▸ hnodup, fun c => by rw [hlabels, hmem], fun t ht => ?_⟩
    rw [(hchildren t ht).2]
    refine List.Perm.of_eq (List.map_congr_left fun row hrow => ?_)
    obtain ⟨hrow, hc⟩ := List.mem_filter.mp hrow
    obtain ⟨_, hmemq, hn⟩ := lastNamesake_spec hrow
    have hrange := hsame row hrow _ hmemq hn.symm ⟨t.label, of_decide_eq_true hc⟩
    rw [Prod.mk.injEq] at hrange ⊢
    exact ⟨rfl, by rw [hrange.1, hrange.2]⟩

/-- Two static functions of one class and name. -/
def namesakes : List FunctionRow :=
  [⟨16, 31, ['A', ':', ':', 'f', '(', ')']⟩, ⟨64, 79, ['A', ':', ':', 'f', '(', ')']⟩]

theorem classTag_functionsKept_iff_namesakes :
    ∃ root : Tag Unit, classTag namesakes = .ok root ∧
      (FunctionsKept namesakes root ↔ ∀ r ∈ namesakes, ∀ s ∈ namesakes, r.name = s.name →
        (∃ c, InClass c r) → (r.start, r.stop) = (s.start, s.stop)) := by
  refine classTag_functionsKept_iff namesakes ?_ ?_
  · exact List.forall_mem_cons.mpr ⟨⟨some ['A'], by decide⟩,
      List.forall_mem_cons.mpr ⟨⟨some ['A'], by decide⟩, by simp⟩⟩
  · exact ⟨_, List.mem_cons_self, ['A'], by decide⟩

/-- The class tag lists the second function twice and the first not at all. -/
theorem classTag_namesakes_loses_function :
    (∀ row ∈ namesakes, extractClassname row = .ok (some ['A'])) ∧
      ∃ root : Tag Unit, classTag namesakes = .ok root ∧ ¬ FunctionsKept namesakes root := by
  refine ⟨by decide, _, rfl, ?_⟩
  rintro ⟨_, _, hperm⟩
  have h := hperm _ List.mem_cons_self
  have hmem := h.mem_iff (a := (['A', ':', ':', 'f', '(', ')'], [(16, 31)]))
  exact absurd (hmem.mpr (by decide)) (by decide)

end CProfiler.Tags
