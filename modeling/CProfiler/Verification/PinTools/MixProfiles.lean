import CProfiler.Verification.PinTools.MixOutput

/-! # What `insmix` writes

The output of a run: its mix, the sections of the routines and the lines of the blocks. A system
call that `insmix` takes for the end spoils the rest of the run. -/

namespace CProfiler.PinTools.Insmix

open Foundation Model Model.Insmix Process

variable {setting : Setting} {run : List (Process × Event)} {p : Process}

/-! ## The end of a run -/

theorem loaded_regular (hquiet : Quiet run) : ∀ ins ∈ loaded run, Regular ins := by
  intro ins hins
  rcases List.mem_flatMap.mp hins with ⟨q, hq, hins⟩
  have hevent := (hquiet q hq).1
  rw [loadedBy] at hins
  cases hq : q.2 with
  | image inss =>
      rw [hq] at hins hevent
      exact hevent ins hins
  | trace t => rw [hq] at hins; cases hins
  | enter block => rw [hq] at hins; cases hins
  | predicated block position => rw [hq] at hins; cases hins
  | control ev => rw [hq] at hins; cases hins
  | syscall code => rw [hq] at hins; cases hins

/-- The line of a block. -/
def lineOf (run : List (Process × Event)) (p : Process) (k : ℕ) : BblLine where
  addr := ((p.globals.heap[k]?).map BblStats.addr).getD 0
  counter := timesEntered run k
  numins := (codeOf p k).length.toUInt32
  size := ((p.globals.heap[k]?).map BblStats.size).getD 0

/-- What `Fini` writes when the process ends. -/
def finalOutput (setting : Setting) (p : Process) : Except Insmix.Fault Output :=
  (fini setting.opcodeStringShort setting.stdSort setting.uninitialised setting.knobs
    p.globals).map Prod.fst

/-- All parts of the output, with the order of the blocks. -/
structure Writes (setting : Setting) (run : List (Process × Event)) (p : Process) (ks : List ℕ)
    (out : Output) : Prop where
  static : out.staticCounts = profileRows setting.opcodeStringShort
    (mix ((loaded run).filter (fun ins => !ins.isPredicated)))
    (mix ((loaded run).filter Ins.isPredicated)) none
  dynamic : out.dynamicCounts = profileRows setting.opcodeStringShort (mix (executed run p))
    (fun _ => 0) (if setting.knobs.profilePredicated then
      some (tally (predicated run).length (predicated run)) else none)
  rtn : out.rtnCounts = breakOn (rtnOf p) (rtnSection setting run p) 0 [] ks
  bblcnt : out.bblcnt = ks.map (lineOf run p)

theorem addTotal_static {stats : Stats} (hquiet : Quiet run)
    (hstats : stats = countStatic Stats.clear (loaded run)) :
    addTotal stats.unpredicated = mix ((loaded run).filter (fun ins => !ins.isPredicated)) ∧
      addTotal stats.predicated = mix ((loaded run).filter Ins.isPredicated) := by
  have hregular := loaded_regular hquiet
  rw [hstats]
  simp only [countStatic, Stats.clear, zero_add]
  exact ⟨addTotal_mix fun ins hins => hregular ins (List.mem_of_mem_filter hins),
    addTotal_mix fun ins hins => hregular ins (List.mem_of_mem_filter hins)⟩

/-- All strings of all blocks. -/
theorem foldl_addString (h : Tracks setting run p) {ks : List ℕ}
    (hks : ks.Perm (List.range p.codeCache.length)) :
    addTotal (ks.foldl (addString run p) (fun _ => 0)) = mix (executed run p) := by
  have hfold : ks.foldl (addString run p) (fun _ => 0) =
      fun i => ((blockIndices (executed run p)).count i).toUInt64 := by
    funext i
    have hstrings := foldl_strings (fun k => blockIndices (codeOf p k)) (timesEntered run) ks
      (fun _ => (0 : UInt64)) i
    rw [zero_add] at hstrings
    refine hstrings.trans (weight_eq (hks.nodup_iff.mpr List.nodup_range) (fun k hk => ?_)
      (fun k _ => rfl) i)
    exact hks.mem_iff.mpr (List.mem_range.mpr (h.entered k hk))
  rw [hfold]
  exact addTotal_mix (h.flatMap_regular _)

theorem fini_writes (hrun : Run (Process.step setting) initial run p) (hquiet : Quiet run)
    (hsort : Sorts setting.stdSort) :
    ∃ ks : List ℕ, ks.Perm (List.range p.codeCache.length) ∧
      ks.Pairwise (fun j k => (addressOf p j).toNat ≤ (addressOf p k).toNat) ∧
      ∃ out, finalOutput setting p = .ok out ∧ Writes setting run p ks out := by
  have h := tracks_of_run hrun hquiet
  rcases sortStats_eq h hsort with ⟨ks, hks, hsorted, hsortStats⟩
  have hlt : ∀ k ∈ ks, k < p.codeCache.length := fun k hk =>
    List.mem_range.mp (hks.mem_iff.mp hk)
  have hstart : Within run p [] ⟨0, setting.uninitialised, p.globals.globalStatsDynamic, []⟩ :=
    ⟨fun hpos => absurd hpos (lt_irrefl 0), fun hpos => absurd hpos (lt_irrefl 0)⟩
  rcases finiLoop_eq h ks [] _ hlt hstart with ⟨s, hloop, hsections, hdynamic⟩
  have hstatic := addTotal_static hquiet h.static
  refine ⟨ks, hks, hsorted, {
    staticCounts := profileRows setting.opcodeStringShort
      (addTotal p.globals.globalStatsStatic.unpredicated)
      (addTotal p.globals.globalStatsStatic.predicated) none
    rtnCounts := s.sections
    dynamicCounts := profileRows setting.opcodeStringShort (addTotal s.dynamic.unpredicated)
      (addTotal s.dynamic.predicated)
      (if setting.knobs.profilePredicated then some (addTotal s.dynamic.predicatedTrue) else none)
    bblcnt := (((ks.map some ++ [none]).takeWhile Option.isSome).filterMap
      (fun ptr : BblPtr => ptr.bind (p.globals.heap[·]?))).map bblLine }, ?_, ?_⟩
  · rw [finalOutput, fini, dumpStats_eq, hsortStats]
    simp only [bind, Except.bind, hloop, dumpStats_eq]
    rfl
  · refine ⟨?_, ?_, ?_, ?_⟩
    · rw [hstatic.1, hstatic.2]
    · have hunpredicated : s.dynamic.unpredicated = ks.foldl (addString run p) (fun _ => 0) := by
        rw [hdynamic, ← h.unpredicated]
      have hpredicated : s.dynamic.predicated = fun _ => 0 := by
        rw [hdynamic, ← h.predicated]
      have htrue : s.dynamic.predicatedTrue = p.globals.globalStatsDynamic.predicatedTrue := by
        rw [hdynamic]
      rw [hunpredicated, hpredicated, htrue, foldl_addString h hks, addTotal_zero]
      cases hknob : setting.knobs.profilePredicated with
      | false => rw [if_neg Bool.false_ne_true, if_neg Bool.false_ne_true]
      | true =>
          have hlow : (predicated run).countP (fun i => decide (i < indexSpecial)) =
              (predicated run).length :=
            List.countP_eq_length.mpr fun i hi => decide_eq_true (h.opcodes i hi)
          have htotal : indexTotal ∉ predicated run := fun hmem =>
            lt_irrefl _ (h.opcodes _ hmem)
          rw [h.predicatedTrue hknob, addTotal_count htotal, hlow]
    · exact hsections
    · have htake : (ks.map some ++ [none]).takeWhile Option.isSome = ks.map some := by
        rw [List.takeWhile_append_of_pos fun ptr hptr => ?_]
        · rw [List.takeWhile_cons_of_neg (by simp), List.append_nil]
        · rcases List.mem_map.mp hptr with ⟨k, _, rfl⟩
          rfl
      have hline : ∀ k ∈ ks, (p.globals.heap[k]?).map bblLine = some (lineOf run p k) := by
        intro k hk
        rcases h.block (hlt k hk) with ⟨b, hb, hcounter, _, hnumins, _, _⟩
        simp only [hb, Option.map_some, bblLine, lineOf, hcounter, hnumins, Option.getD_some]
      rw [htake, List.filterMap_map, List.map_filterMap]
      exact (List.filterMap_congr hline).trans (congrFun List.filterMap_eq_map ks)

/-! ## A short run -/

def shortTrace (id : ℕ) (address : UInt64) : Trace :=
  ⟨some ⟨id, address, "f"⟩, false, [⟨address, [load, move]⟩]⟩

/-- Two routines; the first block is entered once before counting is on. -/
def shortEvents : List Event :=
  [.trace (shortTrace 2 0x1000), .trace (shortTrace 1 0x2000), .enter 0, .control .start,
    .enter 0, .predicated 0 1, .enter 1, .enter 0, .control .stop]

/-- A stable sort by the address. -/
def stableSort (l : List (ℕ × UInt64)) : List (ℕ × UInt64) :=
  l.mergeSort (fun x y => decide (x.2.toNat ≤ y.2.toNat))

def shortSetting : Setting where
  knobs := ⟨true, true, true, false⟩
  opcodeStringShort := fun i => toString i
  stdSort := stableSort
  uninitialised := Stats.clear

theorem sorts_stableSort : Sorts stableSort := by
  intro l
  refine ⟨List.mergeSort_perm _ _, ?_⟩
  have hsorted := @List.pairwise_mergeSort (ℕ × UInt64) (fun x y =>
    decide (x.2.toNat ≤ y.2.toNat)) (fun x y z hxy hyz => decide_eq_true
      ((of_decide_eq_true hxy).trans (of_decide_eq_true hyz))) (fun x y => by
        rw [Bool.or_eq_true, decide_eq_true_eq, decide_eq_true_eq]
        exact le_total _ _) l
  exact hsorted.imp fun hxy hlt =>
    Nat.not_lt.mpr (of_decide_eq_true hxy) (UInt64.lt_iff_toNat_lt.mp hlt)

theorem regularCode_short : RegularCode [load, move] where
  regular := by
    intro ins hins
    rcases List.mem_cons.mp hins with rfl | hins
    · exact ⟨⟨(fun _ => by decide), (fun h => by cases h)⟩, by decide⟩
    · rw [List.mem_singleton.mp hins]
      exact ⟨⟨(fun h => by cases h), (fun h => by cases h)⟩, by decide⟩
  length := by decide

theorem regular_shortEvents : ∀ e ∈ shortEvents, RegularEvent e ∧ e ≠ .syscall 24 := by
  have htrace : ∀ id address, ∀ bbl ∈ (shortTrace id address).bbls, RegularCode bbl.inss :=
    fun id address bbl hbbl => by
      rw [List.mem_singleton.mp hbbl]
      exact regularCode_short
  intro e he
  simp only [shortEvents, List.mem_cons, List.not_mem_nil, or_false] at he
  rcases he with rfl | rfl | rfl | rfl | rfl | rfl | rfl | rfl | rfl
  case inl => exact ⟨htrace 2 0x1000, fun heq => by cases heq⟩
  case inr.inl => exact ⟨htrace 1 0x2000, fun heq => by cases heq⟩
  all_goals exact ⟨trivial, fun heq => by cases heq⟩

/-- What is asked of the short run. -/
def Short (run : List (Process × Event)) (p : Process) : Prop :=
  executed run p = [load, move, load, move, load, move] ∧ predicated run = [9] ∧
    p.codeCache.length = 2 ∧ ∀ j < p.codeCache.length, ∀ k < p.codeCache.length,
      addressOf p j = addressOf p k → rtnOf p j = rtnOf p k

instance (run : List (Process × Event)) (p : Process) : Decidable (Short run p) := by
  unfold Short
  infer_instance

theorem exists_short : ∃ run p, Run (Process.step shortSetting) initial run p ∧ Quiet run ∧
    Short run p := by
  have hany : (record (Process.step shortSetting) initial shortEvents).any
      (fun run => Short run.1 run.2) = true := by
    decide +kernel
  rcases (Option.any_eq_true _ _).mp hany with ⟨run, hrecord, hshort⟩
  refine ⟨run.1, run.2, Run.of_record hrecord, fun q hq => ?_, of_decide_eq_true hshort⟩
  have hevent : q.2 ∈ shortEvents := events_of_record hrecord ▸ List.mem_map_of_mem hq
  exact regular_shortEvents q.2 hevent

/-! ## The profiles -/

/-- The counts of a run are the mix of what it executed, and of what its images hold. -/
theorem finalOutput_mix (hrun : Run (Process.step setting) initial run p) (hquiet : Quiet run)
    (hsort : Sorts setting.stdSort) :
    ∃ out, finalOutput setting p = .ok out ∧
      out.dynamicCounts = profileRows setting.opcodeStringShort (mix (executed run p))
        (fun _ => 0) (if setting.knobs.profilePredicated then
          some (tally (predicated run).length (predicated run)) else none) ∧
      out.staticCounts = profileRows setting.opcodeStringShort
        (mix ((loaded run).filter (fun ins => !ins.isPredicated)))
        (mix ((loaded run).filter Ins.isPredicated)) none := by
  rcases fini_writes hrun hquiet hsort with ⟨ks, _, _, out, hout, hwrites⟩
  exact ⟨out, hout, hwrites.dynamic, hwrites.static⟩

theorem finalOutput_mix_short :
    ∃ run p, executed run p = [load, move, load, move, load, move] ∧
      ∃ out, finalOutput shortSetting p = .ok out ∧
        out.dynamicCounts = profileRows shortSetting.opcodeStringShort (mix (executed run p))
          (fun _ => 0) (some (tally (predicated run).length (predicated run))) := by
  rcases exists_short with ⟨run, p, hrun, hquiet, hshort⟩
  rcases finalOutput_mix hrun hquiet sorts_stableSort with ⟨out, hout, hdynamic, _⟩
  exact ⟨run, p, hshort.1, out, hout, hdynamic⟩

theorem executed_weight (h : Tracks setting run p) {ks : List ℕ}
    (hks : ks.Perm (List.range p.codeCache.length)) (n : ℕ) :
    addTotal (weight run p (ks.filter (fun k => rtnOf p k = n))) = mix (executedIn run p n) := by
  have hweight : weight run p (ks.filter (fun k => rtnOf p k = n)) =
      fun i => ((blockIndices (executedIn run p n)).count i).toUInt64 := by
    funext i
    refine weight_eq ((hks.nodup_iff.mpr List.nodup_range).filter _) (fun k hk => ?_)
      (fun k hk => ?_) i
    · rcases List.mem_filter.mp hk with ⟨hk, hrtn⟩
      have hmem := hks.mem_iff.mpr (List.mem_range.mpr (h.entered k hk))
      exact List.mem_filter.mpr ⟨hmem, hrtn⟩
    · have hrtn : decide (rtnOf p k = n) = true := (List.mem_filter.mp hk).2
      exact (List.count_filter (p := fun k => decide (rtnOf p k = n)) hrtn).symm
  rw [hweight]
  exact addTotal_mix (h.flatMap_regular _)

/-- The section of a routine with all of its blocks. -/
def rtnCountsOf (setting : Setting) (run : List (Process × Event)) (p : Process) (n : ℕ) :
    RtnCounts :=
  ⟨n, (rtnEntryOf p n).name, (rtnEntryOf p n).address,
    profileRows setting.opcodeStringShort (mix (executedIn run p n)) (fun _ => 0) none⟩

theorem flatMap_rtnSection (h : Tracks setting run p) {ks : List ℕ}
    (hks : ks.Perm (List.range p.codeCache.length))
    (hroutines : setting.knobs.profileRoutines = true) (keys : List ℕ) :
    keys.flatMap (fun n => rtnSection setting run p n (ks.filter (fun k => rtnOf p k = n))) =
      (keys.filter (fun n => 0 < n)).map (rtnCountsOf setting run p) := by
  induction keys with
  | nil => rfl
  | cons n keys ih =>
      rw [List.flatMap_cons, ih, rtnSection, hroutines, Bool.and_true, executed_weight h hks,
        List.filter_cons]
      by_cases hpos : 0 < n
      · rw [if_pos (decide_eq_true hpos), if_pos (decide_eq_true hpos), List.map_cons, rtnCountsOf,
          List.singleton_append]
      · have hzero : ¬ decide (0 < n) = true := fun heq => hpos (of_decide_eq_true heq)
        rw [if_neg hzero, if_neg hzero, List.nil_append]

/-- Each known routine with instrumented blocks has one section, the sections are in the order of
the addresses, and each is the mix of what was executed of its routine. -/
theorem finalOutput_rtnCounts (hrun : Run (Process.step setting) initial run p)
    (hquiet : Quiet run) (hsort : Sorts setting.stdSort)
    (hroutines : setting.knobs.profileRoutines = true)
    (haddress : ∀ j < p.codeCache.length, ∀ k < p.codeCache.length,
      addressOf p j = addressOf p k → rtnOf p j = rtnOf p k) :
    ∃ (out : Output) (numbers : List ℕ), finalOutput setting p = .ok out ∧
      numbers.Pairwise (fun m n => (rtnEntryOf p m).address < (rtnEntryOf p n).address) ∧
      (∀ n, n ∈ numbers ↔ 0 < n ∧ ∃ k < p.codeCache.length, rtnOf p k = n) ∧
      out.rtnCounts = numbers.map (rtnCountsOf setting run p) := by
  have h := tracks_of_run hrun hquiet
  rcases fini_writes hrun hquiet hsort with ⟨ks, hks, hsorted, out, hout, hwrites⟩
  have hlt : ∀ k, k ∈ ks ↔ k < p.codeCache.length := fun k => hks.mem_iff.trans List.mem_range
  have hseparates : Separates (rtnOf p) (fun n => (rtnEntryOf p n).address.toNat) ks :=
    fun j hj k hk heq => haddress j ((hlt j).mp hj) k ((hlt k).mp hk) (UInt64.toNat_inj.mp heq)
  have hstart : rtnSection setting run p 0 [] = [] := by
    rw [rtnSection, if_neg]
    exact Bool.false_ne_true
  rcases breakOn_eq hstart hseparates hsorted with ⟨keys, hkeys, hmem, hbreak⟩
  refine ⟨out, keys.filter (fun n => 0 < n), hout, ?_, fun n => ?_, ?_⟩
  · exact (hkeys.imp fun hkey => UInt64.lt_iff_toNat_lt.mpr hkey).filter _
  · rw [List.mem_filter, hmem, decide_eq_true_eq, and_comm]
    refine and_congr_right fun _ => exists_congr fun k => ?_
    rw [hlt]
  · rw [hwrites.rtn, hbreak]
    exact flatMap_rtnSection h hks hroutines keys

theorem finalOutput_rtnCounts_short :
    ∃ run p, executed run p = [load, move, load, move, load, move] ∧
      ∃ (out : Output) (numbers : List ℕ), finalOutput shortSetting p = .ok out ∧
        (∀ n, n ∈ numbers ↔ 0 < n ∧ ∃ k < p.codeCache.length, rtnOf p k = n) ∧
        out.rtnCounts = numbers.map (rtnCountsOf shortSetting run p) := by
  rcases exists_short with ⟨run, p, hrun, hquiet, hshort⟩
  rcases finalOutput_rtnCounts hrun hquiet sorts_stableSort rfl hshort.2.2.2 with
    ⟨out, numbers, hout, _, hmem, hcounts⟩
  exact ⟨run, p, hshort.1, out, numbers, hout, hmem, hcounts⟩

/-- The counters of the blocks times their lengths add up to the total of the mix. -/
theorem finalOutput_bblcnt (hrun : Run (Process.step setting) initial run p)
    (hquiet : Quiet run) (hsort : Sorts setting.stdSort) :
    ∃ out, finalOutput setting p = .ok out ∧
      out.bblcnt.Perm ((List.range p.codeCache.length).map (lineOf run p)) ∧
      (out.bblcnt.map (fun line => line.counter * line.numins.toUInt64)).sum =
        mix (executed run p) indexTotal := by
  have h := tracks_of_run hrun hquiet
  rcases fini_writes hrun hquiet hsort with ⟨ks, hks, _, out, hout, hwrites⟩
  refine ⟨out, hout, ?_, ?_⟩
  · rw [hwrites.bblcnt]
    exact hks.map _
  · have hline : ∀ k ∈ ks, (lineOf run p k).counter * (lineOf run p k).numins.toUInt64 =
        ((entered run).count k * (codeOf p k).length).toUInt64 := by
      intro k hk
      have hlength : (codeOf p k).length < 2 ^ 32 := by
        have hregular := (h.regular_codeOf k).length
        omega
      have hnumins : ((codeOf p k).length.toUInt32).toUInt64 = (codeOf p k).length.toUInt64 := by
        have hsmall : (codeOf p k).length.toUInt32.toNat = (codeOf p k).length :=
          UInt32.toNat_ofNat_of_lt hlength
        rw [← UInt64.toNat_inj, UInt32.toNat_toUInt64, hsmall]
        exact (UInt64.toNat_ofNat_of_lt (hlength.trans (by decide))).symm
      rw [lineOf, hnumins]
      exact (UInt64.ofNat_mul _ _).symm
    have hexecuted : (executed run p).length =
        (ks.map (fun k => (entered run).count k * (codeOf p k).length)).sum := by
      rw [sum_count_mul _ (hks.nodup_iff.mpr List.nodup_range) fun k hk =>
        hks.mem_iff.mpr (List.mem_range.mpr (h.entered k hk)), executed, List.length_flatMap]
    rw [hwrites.bblcnt, List.map_map, mix, tally, if_pos rfl, hexecuted, ← sum_toUInt64,
      List.map_map]
    exact congrArg List.sum (List.map_congr_left hline)

theorem finalOutput_bblcnt_short :
    ∃ run p, executed run p = [load, move, load, move, load, move] ∧
      ∃ out, finalOutput shortSetting p = .ok out ∧
        (out.bblcnt.map (fun line => line.counter * line.numins.toUInt64)).sum =
          mix (executed run p) indexTotal := by
  rcases exists_short with ⟨run, p, hrun, hquiet, hshort⟩
  rcases finalOutput_bblcnt hrun hquiet sorts_stableSort with ⟨out, hout, _, hsum⟩
  exact ⟨run, p, hshort.1, out, hout, hsum⟩

end CProfiler.PinTools.Insmix
