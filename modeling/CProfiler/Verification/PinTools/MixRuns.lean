import CProfiler.Foundation.GuardedRuns
import CProfiler.Verification.PinTools.MixStrings

/-! # Counters in a run

A step of Pin moves one counter of `insmix`, and only while the controller has counting on. So the
counter of a block is the number of times that the block was entered meanwhile. -/

namespace CProfiler.PinTools.Insmix

open Foundation Model Model.Insmix Process

variable {setting : Setting} {run : List (Process × Event)} {p p' : Process} {g : Globals}

/-! ## What happens in a run -/

/-- An event with instructions that the tool can sum up. -/
def RegularEvent : Event → Prop
  | .image inss => ∀ ins ∈ inss, Regular ins
  | .trace t => ∀ bbl ∈ t.bbls, RegularCode bbl.inss
  | _ => True

/-- The block that is entered in a step while counting is on. -/
def enteredBy (q : Process × Event) : Option ℕ :=
  match q.2 with
  | .enter block => if q.1.globals.enabled = 0 then none else some block
  | _ => none

def entered (run : List (Process × Event)) : List ℕ := run.filterMap enteredBy

/-- The opcode of the predicated instruction that is executed in a step while counting is on. -/
def predicatedBy (q : Process × Event) : Option ℕ :=
  match q.2 with
  | .predicated block position =>
      if q.1.globals.enabled = 0 then none
      else ((((q.1.codeCache[block]?).bind (·[position]?)).filter Ins.isPredicated)).map
        (·.opcode.toNat)
  | _ => none

def predicated (run : List (Process × Event)) : List ℕ := run.filterMap predicatedBy

/-- The instructions of the images that are loaded in a step. -/
def loadedBy (q : Process × Event) : List Ins :=
  match q.2 with
  | .image inss => inss
  | _ => []

def loaded (run : List (Process × Event)) : List Ins := run.flatMap loadedBy

theorem filterMap_one {α β : Type*} (f : α → Option β) (a : α) :
    [a].filterMap f = (f a).toList := by
  rw [List.filterMap_cons, List.filterMap_nil]
  cases f a with
  | none => rfl
  | some b => rfl

theorem entered_append (run : List (Process × Event)) (q : Process × Event) :
    entered (run ++ [q]) = entered run ++ (enteredBy q).toList := by
  rw [entered, List.filterMap_append, filterMap_one, ← entered]

theorem predicated_append (run : List (Process × Event)) (q : Process × Event) :
    predicated (run ++ [q]) = predicated run ++ (predicatedBy q).toList := by
  rw [predicated, List.filterMap_append, filterMap_one, ← predicated]

theorem loaded_append (run : List (Process × Event)) (q : Process × Event) :
    loaded (run ++ [q]) = loaded run ++ loadedBy q := by
  rw [loaded, List.flatMap_append, List.flatMap_singleton, ← loaded]

/-! ## Counts -/

theorem toUInt64_add (m n : ℕ) : (m + n).toUInt64 = m.toUInt64 + n.toUInt64 := UInt64.ofNat_add m n

theorem nsmul_toUInt64 (m n : ℕ) : m • n.toUInt64 = (m * n).toUInt64 := by
  induction m with
  | zero => rw [zero_nsmul, Nat.zero_mul]; rfl
  | succ m ih => rw [succ_nsmul, ih, Nat.add_mul, Nat.one_mul, toUInt64_add]

theorem sum_toUInt64 (l : List ℕ) : (l.map Nat.toUInt64).sum = l.sum.toUInt64 := by
  induction l with
  | nil => rfl
  | cons n l ih => rw [List.map_cons, List.sum_cons, List.sum_cons, ih, toUInt64_add]

/-! ## Images -/

theorem map_toNat_insIndices {ins : Ins} (h : Regular ins) :
    ((insIndices ins).map Nat.toUInt16).map UInt16.toNat = insIndices ins := by
  rw [List.map_map]
  refine (List.map_congr_left fun i hi => ?_).trans (List.map_id _)
  have hlt : i < 65536 := by
    have hbounds := insIndices_bounds h hi
    simp only [maxIndex] at hbounds
    omega
  exact UInt16.toNat_ofNat_of_lt hlt

/-- The static counters after more instructions. -/
def countStatic (stats : Stats) (inss : List Ins) : Stats where
  unpredicated := fun i => stats.unpredicated i +
    ((blockIndices (inss.filter (fun ins => !ins.isPredicated))).count i).toUInt64
  predicated := fun i => stats.predicated i +
    ((blockIndices (inss.filter Ins.isPredicated)).count i).toUInt64
  predicatedTrue := stats.predicatedTrue

theorem imageIns_eq {ins : Ins} (h : Regular ins) (stats : Stats) :
    imageIns stats ins = .ok (countStatic stats [ins]) := by
  have hcount : ∀ counters : ℕ → UInt64,
      ((insIndices ins).map Nat.toUInt16).foldl (fun h i => addAt h i.toNat 1) counters =
        fun i => counters i + ((insIndices ins).count i).toUInt64 := by
    intro counters
    funext i
    rw [foldl_addAt, map_toNat_insIndices h]
    congr 1
    exact (nsmul_toUInt64 _ 1).trans (by rw [Nat.mul_one])
  have hzero : ∀ counters : ℕ → UInt64, counters = fun i => counters i + Nat.toUInt64 0 :=
    fun counters => funext fun i => (add_zero (counters i)).symm
  rw [imageIns, generateIndexString_eq h.toSized]
  simp only [bind, Except.bind, hcount]
  cases hp : ins.isPredicated with
  | true =>
      rw [if_pos rfl, countStatic, List.filter_cons_of_pos hp,
        List.filter_cons_of_neg (by simp [hp])]
      simp only [List.filter_nil, blockIndices, List.flatMap_nil, List.flatMap_singleton,
        List.count_nil, ← hzero]
      rfl
  | false =>
      rw [if_neg Bool.false_ne_true, countStatic, List.filter_cons_of_pos (by simp [hp]),
        List.filter_cons_of_neg (by simp [hp])]
      simp only [List.filter_nil, blockIndices, List.flatMap_nil, List.flatMap_singleton,
        List.count_nil, ← hzero]
      rfl

theorem countStatic_nil (stats : Stats) : countStatic stats [] = stats := by
  have hzero : ∀ counters : ℕ → UInt64, (fun i => counters i + Nat.toUInt64 0) = counters :=
    fun counters => funext fun i => add_zero (counters i)
  simp only [countStatic, List.filter_nil, blockIndices, List.flatMap_nil, List.count_nil, hzero]

theorem countStatic_append (stats : Stats) (inss more : List Ins) :
    countStatic stats (inss ++ more) = countStatic (countStatic stats inss) more := by
  simp only [countStatic, List.filter_append, blockIndices, List.flatMap_append, List.count_append,
    toUInt64_add, add_assoc]

theorem image_eq {inss : List Ins} (h : ∀ ins ∈ inss, Regular ins) (g : Globals) :
    image g inss =
      .ok { g with globalStatsStatic := countStatic g.globalStatsStatic inss } := by
  have hfold : ∀ (inss : List Ins) (stats : Stats), (∀ ins ∈ inss, Regular ins) →
      inss.foldlM imageIns stats = .ok (countStatic stats inss) := by
    intro inss
    induction inss with
    | nil => exact fun stats _ => congrArg Except.ok (countStatic_nil stats).symm
    | cons ins inss ih =>
        intro stats h
        rcases List.forall_mem_cons.mp h with ⟨hins, hinss⟩
        rw [List.foldlM_cons, imageIns_eq hins]
        simp only [bind, Except.bind]
        rw [ih _ hinss, ← countStatic_append, List.singleton_append]
  rw [image, hfold inss _ h]
  rfl

/-! ## Traces -/

theorem foldlM_traceBbl {bbls : List Bbl} (h : ∀ bbl ∈ bbls, RegularCode bbl.inss) (rtnNum : ℕ)
    (hlist : g.statsList = (List.range g.heap.length).map some) :
    bbls.foldlM (traceBbl rtnNum) g = .ok { g with
      heap := g.heap ++ bbls.map (newBlock rtnNum)
      statsList := (List.range (g.heap ++ bbls.map (newBlock rtnNum)).length).map some } := by
  induction bbls generalizing g with
  | nil =>
      rw [List.map_nil, List.append_nil, ← hlist]
      rfl
  | cons bbl bbls ih =>
      rcases List.forall_mem_cons.mp h with ⟨hbbl, hbbls⟩
      rw [List.foldlM_cons, traceBbl_eq hbbl.length fun ins hins => (hbbl.regular ins hins).toSized]
      simp only [bind, Except.bind]
      rw [ih hbbls]
      · simp only [List.append_assoc, List.map_cons, List.singleton_append]
      · rw [hlist, List.length_append, List.length_singleton, List.range_succ, List.map_append,
          List.map_singleton]

/-- The routine of a trace entered into the table. -/
def enterRtn (table : SortedMap ℕ RtnTableEntry) (entry : ℕ × RtnTableEntry) :
    SortedMap ℕ RtnTableEntry :=
  if (table.find? entry.1).isNone then table.insert entry.1 entry.2 else table

theorem find?_enterRtn (table : SortedMap ℕ RtnTableEntry) (entry : ℕ × RtnTableEntry) :
    (enterRtn table entry).find? entry.1 ≠ none ∧
      ∀ n, table.find? n ≠ none → (enterRtn table entry).find? n = table.find? n := by
  rw [enterRtn]
  cases hfind : table.find? entry.1 with
  | none =>
      rw [Option.isNone_none, if_pos rfl]
      refine ⟨?_, fun n hn => ?_⟩
      · rw [SortedMap.find?_insert, if_pos rfl]
        exact Option.some_ne_none _
      · have hne : n ≠ entry.1 := fun heq => hn ((congrArg table.find? heq).trans hfind)
        rw [SortedMap.find?_insert, if_neg hne.symm]
  | some found =>
      rw [Option.isNone_some, if_neg Bool.false_ne_true, hfind]
      exact ⟨Option.some_ne_none _, fun n _ => rfl⟩

/-- A trace remembers its blocks. -/
theorem trace_eq {knobs : Knobs} {t : Trace} (h : ∀ bbl ∈ t.bbls, RegularCode bbl.inss)
    (hlist : g.statsList = (List.range g.heap.length).map some) :
    trace knobs g t = .ok (if knobs.noSharedLibs && t.inSharedLib then g else { g with
      rtnTable := enterRtn g.rtnTable (rtnEntry t.rtn)
      heap := g.heap ++ t.bbls.map (newBlock (rtnEntry t.rtn).1)
      statsList := (List.range
        (g.heap ++ t.bbls.map (newBlock (rtnEntry t.rtn).1)).length).map some }) := by
  rw [trace]
  cases hskip : knobs.noSharedLibs && t.inSharedLib with
  | true => rfl
  | false =>
      rw [if_neg Bool.false_ne_true, if_neg Bool.false_ne_true]
      have htable : (if (g.rtnTable.find? (rtnEntry t.rtn).1).isNone then
          { g with rtnTable := g.rtnTable.insert (rtnEntry t.rtn).1 (rtnEntry t.rtn).2 } else g) =
          { g with rtnTable := enterRtn g.rtnTable (rtnEntry t.rtn) } := by
        rw [enterRtn]
        cases (g.rtnTable.find? (rtnEntry t.rtn).1).isNone with
        | true => rfl
        | false => rfl
      simp only [htable]
      exact foldlM_traceBbl h _ hlist

/-! ## Counting -/

/-- What does not read the counter of a block stays as it is. -/
theorem map_docount {β : Type*} {w : BblStats → β} (h : ∀ b c, w { b with counter := c } = w b)
    (g : Globals) (block : ℕ) : (docount g block).heap.map w = g.heap.map w := by
  refine List.ext_getElem? fun k => ?_
  rw [docount, List.getElem?_map, List.getElem?_map, List.getElem?_modify]
  cases g.heap[k]? with
  | none => rfl
  | some b =>
      by_cases hk : block = k
      · exact congrArg some ((congrArg w (if_pos hk)).trans (h b _))
      · exact congrArg some (congrArg w (if_neg hk))

/-- What the counters of the tool are worth behind a run. -/
structure Tracks (setting : Setting) (run : List (Process × Event)) (p : Process) : Prop where
  code : p.globals.heap.map (fun b => (b.stats, b.numins)) =
    p.codeCache.map (fun inss => (blockString inss, inss.length.toUInt32))
  regular : ∀ inss ∈ p.codeCache, RegularCode inss
  statsList : p.globals.statsList = (List.range p.globals.heap.length).map some
  table : ∀ n ∈ p.globals.heap.map BblStats.rtnNum, p.globals.rtnTable.find? n ≠ none
  enabled : p.globals.enabled = 0 ∨ p.globals.enabled = 1
  entered : ∀ k ∈ entered run, k < p.codeCache.length
  counter : ∀ k b, p.globals.heap[k]? = some b → b.counter = ((Insmix.entered run).count k).toUInt64
  static : p.globals.globalStatsStatic = countStatic Stats.clear (loaded run)
  unpredicated : p.globals.globalStatsDynamic.unpredicated = fun _ => 0
  predicated : p.globals.globalStatsDynamic.predicated = fun _ => 0
  predicatedTrue : setting.knobs.profilePredicated = true →
    p.globals.globalStatsDynamic.predicatedTrue =
      fun i => ((Insmix.predicated run).count i).toUInt64
  opcodes : ∀ i ∈ Insmix.predicated run, i < indexSpecial

theorem Tracks.length (h : Tracks setting run p) :
    p.globals.heap.length = p.codeCache.length := by
  have hlength := congrArg List.length h.code
  rwa [List.length_map, List.length_map] at hlength

theorem tracks_initial (setting : Setting) : Tracks setting [] initial where
  code := rfl
  regular := fun inss hinss => absurd hinss List.not_mem_nil
  statsList := rfl
  table := fun n hn => absurd hn List.not_mem_nil
  enabled := .inl rfl
  entered := fun k hk => absurd hk List.not_mem_nil
  counter := fun k b hb => by cases hb
  static := rfl
  unpredicated := rfl
  predicated := rfl
  predicatedTrue := fun _ => rfl
  opcodes := fun i hi => absurd hi List.not_mem_nil

/-- A step in which nothing is executed while counting is on. -/
theorem Tracks.idle (h : Tracks setting run p) {e : Event} (hentered : enteredBy (p, e) = none)
    (hpredicated : predicatedBy (p, e) = none) {stats : Stats}
    (hstats : stats = countStatic p.globals.globalStatsStatic (loadedBy (p, e))) :
    Tracks setting (run ++ [(p, e)])
      { p with globals := { p.globals with globalStatsStatic := stats } } := by
  have hrun₁ : Insmix.entered (run ++ [(p, e)]) = Insmix.entered run := by
    rw [entered_append, hentered, Option.toList_none, List.append_nil]
  have hrun₂ : Insmix.predicated (run ++ [(p, e)]) = Insmix.predicated run := by
    rw [predicated_append, hpredicated, Option.toList_none, List.append_nil]
  refine { h with entered := ?_, counter := ?_, static := ?_, predicatedTrue := ?_, opcodes := ?_ }
  · rw [hrun₁]
    exact h.entered
  · rw [hrun₁]
    exact h.counter
  · rw [loaded_append, countStatic_append, ← h.static]
    exact hstats
  · rw [hrun₂]
    exact h.predicatedTrue
  · rw [hrun₂]
    exact h.opcodes

theorem Tracks.image (h : Tracks setting run p) {inss : List Ins}
    (hregular : ∀ ins ∈ inss, Regular ins) (hstep : step setting p (.image inss) = some p') :
    Tracks setting (run ++ [(p, .image inss)]) p' := by
  rw [step] at hstep
  cases honly : setting.knobs.profileDynamicOnly with
  | true =>
      rw [honly, if_pos rfl] at hstep
      cases hstep
  | false =>
      rw [honly, if_neg Bool.false_ne_true, image_eq hregular] at hstep
      cases hstep
      exact h.idle rfl rfl rfl

theorem Tracks.trace (h : Tracks setting run p) {t : Trace}
    (hregular : ∀ bbl ∈ t.bbls, RegularCode bbl.inss)
    (hstep : step setting p (.trace t) = some p') :
    Tracks setting (run ++ [(p, .trace t)]) p' := by
  have hidle : Tracks setting (run ++ [(p, .trace t)]) p :=
    h.idle rfl rfl (countStatic_nil _).symm
  rw [step, trace_eq hregular h.statsList] at hstep
  cases hskip : setting.knobs.noSharedLibs && t.inSharedLib with
  | true =>
      rw [instrumented, hskip, if_pos rfl, if_pos rfl] at hstep
      cases hstep
      rw [List.append_nil]
      exact hidle
  | false =>
      rw [instrumented, hskip, if_neg Bool.false_ne_true, if_neg Bool.false_ne_true] at hstep
      cases hstep
      have htable := find?_enterRtn p.globals.rtnTable (rtnEntry t.rtn)
      refine { hidle with
        code := ?_, regular := ?_, statsList := rfl, table := ?_, entered := ?_, counter := ?_ }
      · simp only [List.map_append, h.code, List.map_map]
        refine congrArg (_ ++ ·) (List.map_congr_left fun bbl _ => ?_)
        exact Prod.ext rfl (numins_newBlock (rtnEntry t.rtn).1 bbl)
      · intro inss hinss
        rcases List.mem_append.mp hinss with hinss | hinss
        · exact h.regular inss hinss
        · rcases List.mem_map.mp hinss with ⟨bbl, hbbl, rfl⟩
          exact hregular bbl hbbl
      · intro n hn
        rw [List.map_append] at hn
        rcases List.mem_append.mp hn with hn | hn
        · exact fun hnone => h.table n hn ((htable.2 n (h.table n hn)).symm.trans hnone)
        · rw [List.map_map] at hn
          rcases List.mem_map.mp hn with ⟨bbl, _, rfl⟩
          exact htable.1
      · intro k hk
        exact (hidle.entered k hk).trans_le (by rw [List.length_append]; exact Nat.le_add_right _ _)
      · intro k b hb
        by_cases hlt : k < p.globals.heap.length
        · rw [List.getElem?_append_left hlt] at hb
          exact hidle.counter k b hb
        · rw [List.getElem?_append_right (Nat.not_lt.mp hlt), List.getElem?_map] at hb
          rcases Option.map_eq_some_iff.mp hb with ⟨bbl, _, rfl⟩
          have hnew : k ∉ Insmix.entered (run ++ [(p, .trace t)]) := fun hk =>
            hlt (h.length ▸ hidle.entered k hk)
          rw [List.count_eq_zero_of_not_mem hnew]
          rfl

theorem Tracks.enter (h : Tracks setting run p) {block : ℕ}
    (hstep : step setting p (.enter block) = some p') :
    Tracks setting (run ++ [(p, .enter block)]) p' := by
  have hpredicated : Insmix.predicated (run ++ [(p, .enter block)]) = Insmix.predicated run :=
    (predicated_append run _).trans (List.append_nil _)
  have hloaded : loaded (run ++ [(p, .enter block)]) = loaded run :=
    (loaded_append run _).trans (List.append_nil _)
  have hentered : Insmix.entered (run ++ [(p, .enter block)]) = Insmix.entered run ++
      (if p.globals.enabled = 0 then none else some block).toList := entered_append run _
  rw [step] at hstep
  by_cases hblock : block < p.codeCache.length
  · rw [if_pos hblock] at hstep
    cases hstep
    refine { h with
      code := ?_, statsList := ?_, table := ?_, entered := ?_, counter := ?_, static := ?_,
      predicatedTrue := ?_, opcodes := ?_ }
    · exact (map_docount (fun b c => rfl) _ _).trans h.code
    · exact h.statsList.trans (by rw [docount, List.length_modify])
    · intro n hn
      have hsame : (docount p.globals block).heap.map BblStats.rtnNum =
          p.globals.heap.map BblStats.rtnNum := map_docount (fun b c => rfl) _ _
      exact h.table n (hsame ▸ hn)
    · intro k hk
      rw [hentered] at hk
      rcases List.mem_append.mp hk with hk | hk
      · exact h.entered k hk
      · split_ifs at hk with hzero
        · cases hk
        · rw [Option.mem_toList.mp hk |> Option.some.inj |>.symm]
          exact hblock
    · intro k b hb
      rw [docount, List.getElem?_modify] at hb
      rcases Option.map_eq_some_iff.mp hb with ⟨b', hb', rfl⟩
      rw [hentered, List.count_append, toUInt64_add, ← h.counter k b' hb']
      rcases h.enabled with hzero | hone
      · rw [hzero, if_pos rfl]
        split_ifs
        · rfl
        · exact (add_zero _).symm
      · have hne : (1 : UInt32) ≠ 0 := by decide
        rw [hone, if_neg hne, Option.toList_some, List.count_singleton]
        by_cases hk : block = k
        · rw [if_pos hk, if_pos (beq_iff_eq.mpr hk)]
          rfl
        · rw [if_neg hk, if_neg (fun heq => hk (beq_iff_eq.mp heq))]
          exact (add_zero _).symm
    · rw [hloaded]
      exact h.static
    · rw [hpredicated]
      exact h.predicatedTrue
    · rw [hpredicated]
      exact h.opcodes
  · rw [if_neg hblock] at hstep
    cases hstep

theorem Tracks.predicatedStep (h : Tracks setting run p) {block position : ℕ}
    (hstep : step setting p (.predicated block position) = some p') :
    Tracks setting (run ++ [(p, .predicated block position)]) p' := by
  let e : Event := .predicated block position
  have hentered : Insmix.entered (run ++ [(p, e)]) = Insmix.entered run :=
    (entered_append run _).trans (List.append_nil _)
  have hloaded : loaded (run ++ [(p, e)]) = loaded run :=
    (loaded_append run _).trans (List.append_nil _)
  rw [step] at hstep
  rcases Option.bind_eq_some_iff.mp hstep with ⟨inss, hinss, hstep⟩
  rcases Option.bind_eq_some_iff.mp hstep with ⟨ins, hins, hstep⟩
  have hregular : Regular ins :=
    (h.regular inss (List.mem_of_getElem? hinss)).regular ins (List.mem_of_getElem? hins)
  have hpredicated : Insmix.predicated (run ++ [(p, e)]) = Insmix.predicated run ++
      (if p.globals.enabled = 0 then none
        else if ins.isPredicated then some ins.opcode.toNat else none).toList := by
    rw [predicated_append]
    simp only [predicatedBy, e, hinss, Option.bind_some, hins, Option.filter_some]
    split_ifs
    all_goals rfl
  have hopcodes : ∀ i ∈ Insmix.predicated (run ++ [(p, e)]), i < indexSpecial := by
    intro i hi
    rw [hpredicated] at hi
    rcases List.mem_append.mp hi with hi | hi
    · exact h.opcodes i hi
    · split_ifs at hi
      · cases hi
      · rw [Option.toList_some, List.mem_singleton] at hi
        exact hi ▸ hregular.opcode.2
      · cases hi
  -- what holds whether or not the call is there
  have hkeep : ∀ counters : ℕ → UInt64,
      (setting.knobs.profilePredicated = true →
        counters = fun i => ((Insmix.predicated (run ++ [(p, e)])).count i).toUInt64) →
      Tracks setting (run ++ [(p, e)]) { p with globals := { p.globals with
        globalStatsDynamic := { p.globals.globalStatsDynamic with predicatedTrue := counters } } } := by
    intro counters hcounters
    refine { h with
      entered := ?_, counter := ?_, static := ?_, predicatedTrue := hcounters, opcodes := hopcodes }
    · rw [hentered]
      exact h.entered
    · rw [hentered]
      exact h.counter
    · rw [hloaded]
      exact h.static
  cases hcall : ins.isPredicated && setting.knobs.profilePredicated with
  | true =>
      rw [if_pos hcall] at hstep
      cases hstep
      rcases (Bool.and_eq_true _ _).mp hcall with ⟨hp, hknob⟩
      refine hkeep _ fun _ => ?_
      funext i
      rw [addAt_apply, h.predicatedTrue hknob, hpredicated, List.count_append, toUInt64_add,
        if_pos hp]
      congr 1
      rcases h.enabled with hzero | hone
      · rw [hzero, if_pos rfl]
        exact ite_self _
      · have hne : (1 : UInt32) ≠ 0 := by decide
        rw [hone, if_neg hne, Option.toList_some, List.count_singleton]
        by_cases hi : ins.opcode.toNat = i
        · rw [if_pos hi, if_pos (beq_iff_eq.mpr hi)]
          rfl
        · rw [if_neg hi, if_neg (fun heq => hi (beq_iff_eq.mp heq))]
          rfl
  | false =>
      rw [if_neg (by rw [hcall]; exact Bool.false_ne_true)] at hstep
      cases hstep
      refine hkeep _ fun hknob => ?_
      have hp : ins.isPredicated = false := by
        rwa [hknob, Bool.and_true] at hcall
      rw [hpredicated, hp, if_neg Bool.false_ne_true, ite_self, Option.toList_none, List.append_nil]
      exact h.predicatedTrue hknob

/-- The controller turns counting on and off. -/
theorem Tracks.control (h : Tracks setting run p) {ev : ControlEvent}
    (hstep : step setting p (.control ev) = some p') :
    Tracks setting (run ++ [(p, .control ev)]) p' := by
  have hidle : Tracks setting (run ++ [(p, .control ev)]) p :=
    h.idle rfl rfl (countStatic_nil _).symm
  cases ev with
  | start =>
      cases hstep
      exact { hidle with enabled := .inr rfl }
  | stop =>
      cases hstep
      exact { hidle with enabled := .inl rfl }
  | other => cases hstep

/-- A step of the tool keeps count, until it writes its output. -/
theorem Tracks.step (h : Tracks setting run p) {e : Event} (hregular : RegularEvent e)
    (hquiet : e ≠ .syscall 24) (hstep : step setting p e = some p') :
    Tracks setting (run ++ [(p, e)]) p' := by
  cases e with
  | image inss => exact h.image hregular hstep
  | trace t => exact h.trace hregular hstep
  | enter block => exact h.enter hstep
  | predicated block position => exact h.predicatedStep hstep
  | control ev => exact h.control hstep
  | syscall code =>
      have hcode : code ≠ 24 := fun heq => hquiet (congrArg Event.syscall heq)
      rw [Process.step, if_neg hcode] at hstep
      cases hstep
      exact h.idle rfl rfl (countStatic_nil _).symm

/-- Events that the tool is made for, none of them the system call that it takes for the end. -/
def Quiet (run : List (Process × Event)) : Prop :=
  ∀ q ∈ run, RegularEvent q.2 ∧ q.2 ≠ .syscall 24

theorem tracks_of_run (hrun : Run (Process.step setting) initial run p) (hquiet : Quiet run) :
    Tracks setting run p := by
  induction hrun with
  | refl => exact tracks_initial setting
  | @step run p e p' _ hstep ih =>
      rcases List.forall_mem_append.mp hquiet with ⟨hbefore, hlast⟩
      have hevent := hlast (p, e) List.mem_cons_self
      exact (ih hbefore).step hevent.1 hevent.2 hstep

end CProfiler.PinTools.Insmix
