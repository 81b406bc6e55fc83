import CProfiler.Foundation.ControlBreaks
import CProfiler.Foundation.SortedSums
import CProfiler.Verification.PinTools.MixRuns

/-! # The profiles of a run

`Fini` multiplies out the counters and the strings of the blocks. What it writes is the mix of the
instructions that were executed while counting was on, for the program and for each routine. -/

namespace CProfiler.PinTools.Insmix

open Foundation Model Model.Insmix Process

variable {setting : Setting} {run : List (Process × Event)} {p : Process}

/-! ## Mixes -/

/-- The counters of some indices, with a number at `*total`. -/
def tally (total : ℕ) (indices : List ℕ) (i : ℕ) : UInt64 :=
  if i = indexTotal then total.toUInt64 else (indices.count i).toUInt64

/-- The mix of some instructions: how many there are of each opcode and of each kind of access. -/
def mix (inss : List Ins) : ℕ → UInt64 := tally inss.length (blockIndices inss)

/-- The lines of a profile. -/
def profileRows (names : ℕ → String) (unpredicated predicated : ℕ → UInt64)
    (predicatedTrue : Option (ℕ → UInt64)) : List Row :=
  ((List.range maxIndex).filter (fun i => !(unpredicated i == 0 && predicated i == 0))).map
    (fun i => ⟨i, ((indexToOpcodeString names i).toOption).getD "", unpredicated i, predicated i,
      predicatedTrue.map (· i)⟩)

/-- Every index has a name. -/
theorem indexToOpcodeString_eq (names : ℕ → String) (i : ℕ) :
    indexToOpcodeString names i =
      .ok (((indexToOpcodeString names i).toOption).getD "") := by
  have hname : ∃ name, indexToOpcodeString names i = .ok name := by
    rw [indexToOpcodeString]
    split_ifs with hspecial htotal hread hwrite hatomic hstackRead hstackWrite hipRead hipWrite
    case neg =>
      rw [isMemReadIndex, Bool.and_eq_true, decide_eq_true_eq, decide_eq_true_eq] at hread
      rw [isMemWriteIndex, Bool.and_eq_true, decide_eq_true_eq, decide_eq_true_eq] at hwrite
      simp only [indexTotal, indexMemAtomic, indexStackRead, indexStackWrite, indexIprelRead,
        indexIprelWrite, indexMemReadSize, indexMemWriteSize, indexSpecialEnd, indexSpecial,
        maxMemSize] at *
      omega
    all_goals exact ⟨_, rfl⟩
  rcases hname with ⟨name, hname⟩
  rw [hname]
  rfl

theorem addTotal_zero : addTotal (fun _ => 0) = fun _ => 0 := by
  funext i
  have hsum : ((List.range indexSpecial).map (fun _ => (0 : UInt64))).sum = 0 :=
    List.sum_eq_zero fun x hx => by
      rcases List.mem_map.mp hx with ⟨_, _, rfl⟩
      rfl
  rw [addTotal, foldl_addAt_range (show indexSpecial ≤ indexTotal from le_rfl), hsum, ite_self,
    add_zero]

/-- `DumpStats` adds up the opcodes. -/
theorem addTotal_count {indices : List ℕ} (h : indexTotal ∉ indices) :
    addTotal (fun i => (indices.count i).toUInt64) =
      tally (indices.countP (fun i => decide (i < indexSpecial))) indices := by
  funext i
  have hsum : ((List.range indexSpecial).map (fun i => (indices.count i).toUInt64)).sum =
      (indices.countP (fun i => decide (i < indexSpecial))).toUInt64 := by
    rw [← sum_map_count, ← sum_toUInt64, List.map_map]
    rfl
  rw [addTotal, foldl_addAt_range (show indexSpecial ≤ indexTotal from le_rfl), hsum, tally]
  by_cases hi : indexTotal = i
  · rw [if_pos hi, if_pos hi.symm, ← hi, List.count_eq_zero_of_not_mem h]
    exact zero_add _
  · rw [if_neg hi, if_neg (Ne.symm hi), add_zero]

theorem addTotal_mix {inss : List Ins} (h : ∀ ins ∈ inss, Regular ins) :
    addTotal (fun i => ((blockIndices inss).count i).toUInt64) = mix inss := by
  rw [addTotal_count fun hmem => (blockIndices_bounds h hmem).2.1 rfl, countP_blockIndices h, mix]

theorem dumpStats_eq (names : ℕ → String) (stats : Stats) (predicatedTrue : Bool) :
    dumpStats names stats predicatedTrue = .ok
      (profileRows names (addTotal stats.unpredicated) (addTotal stats.predicated)
        (if predicatedTrue then some (addTotal stats.predicatedTrue) else none),
      ⟨addTotal stats.unpredicated, addTotal stats.predicated, addTotal stats.predicatedTrue⟩) := by
  rw [dumpStats]
  simp only [bind, Except.bind]
  rw [mapM_eq_ok _ (fun i => (⟨i, ((indexToOpcodeString names i).toOption).getD "",
    addTotal stats.unpredicated i, addTotal stats.predicated i,
    if predicatedTrue then some (addTotal stats.predicatedTrue i) else none⟩ : Row)) _]
  · cases predicatedTrue with
    | true => rfl
    | false => rfl
  · intro i _
    rw [indexToOpcodeString_eq]
    rfl

/-! ## Blocks -/

/-- The instructions of a block. -/
def codeOf (p : Process) (k : ℕ) : List Ins := p.codeCache.getD k []

/-- The routine of a block. -/
def rtnOf (p : Process) (k : ℕ) : ℕ := (p.globals.heap[k]?.map BblStats.rtnNum).getD 0

/-- What the tool knows of a routine. -/
def rtnEntryOf (p : Process) (n : ℕ) : RtnTableEntry := (p.globals.rtnTable.find? n).getD ⟨0, ""⟩

/-- The instructions that were executed while counting was on, in order. -/
def executed (run : List (Process × Event)) (p : Process) : List Ins :=
  (entered run).flatMap (codeOf p)

/-- Those of a routine. -/
def executedIn (run : List (Process × Event)) (p : Process) (n : ℕ) : List Ins :=
  ((entered run).filter (fun k => rtnOf p k = n)).flatMap (codeOf p)

/-- The number of times that a block was entered while counting was on, as it is counted. -/
def timesEntered (run : List (Process × Event)) (k : ℕ) : UInt64 :=
  ((entered run).count k).toUInt64

theorem Tracks.block (h : Tracks setting run p) {k : ℕ} (hk : k < p.codeCache.length) :
    ∃ b, p.globals.heap[k]? = some b ∧ b.counter = timesEntered run k ∧
      b.stats = blockString (codeOf p k) ∧ b.numins = (codeOf p k).length.toUInt32 ∧
      b.rtnNum = rtnOf p k ∧
        p.globals.rtnTable.find? (rtnOf p k) = some (rtnEntryOf p (rtnOf p k)) := by
  have hheap : k < p.globals.heap.length := h.length ▸ hk
  have hb := List.getElem?_eq_getElem hheap
  generalize p.globals.heap[k] = b at hb
  have hcode := congrArg (·[k]?) h.code
  simp only [List.getElem?_map, hb, List.getElem?_eq_getElem hk, Option.map_some] at hcode
  have hstats := Prod.mk.inj (Option.some.inj hcode)
  have hcache : codeOf p k = p.codeCache[k] := by
    rw [codeOf, List.getD_eq_getElem?_getD, List.getElem?_eq_getElem hk, Option.getD_some]
  have hrtn : b.rtnNum = rtnOf p k := by
    rw [rtnOf, hb, Option.map_some, Option.getD_some]
  have hknown : p.globals.rtnTable.find? (rtnOf p k) ≠ none :=
    h.table _ (hrtn ▸ List.mem_map_of_mem (List.mem_of_getElem? hb))
  refine ⟨b, hb, h.counter k b hb, ?_, ?_, hrtn, ?_⟩
  · rw [hcache]
    exact hstats.1
  · rw [hcache]
    exact hstats.2
  · cases hfind : p.globals.rtnTable.find? (rtnOf p k) with
    | none => exact absurd hfind hknown
    | some entry => rw [rtnEntryOf, hfind, Option.getD_some]

theorem Tracks.regular_codeOf (h : Tracks setting run p) (k : ℕ) : RegularCode (codeOf p k) := by
  rw [codeOf, List.getD_eq_getElem?_getD]
  cases hk : p.codeCache[k]? with
  | none => exact ⟨fun ins hins => absurd hins List.not_mem_nil, by decide⟩
  | some inss => exact h.regular inss (List.mem_of_getElem? hk)

theorem Tracks.flatMap_regular (h : Tracks setting run p) (ks : List ℕ) :
    ∀ ins ∈ ks.flatMap (codeOf p), Regular ins := by
  intro ins hins
  rcases List.mem_flatMap.mp hins with ⟨k, _, hins⟩
  exact (h.regular_codeOf k).regular ins hins

/-- What the blocks of some keys put on a counter. -/
def weight (run : List (Process × Event)) (p : Process) (ks : List ℕ) (i : ℕ) : UInt64 :=
  (ks.map (fun k => (blockIndices (codeOf p k)).count i • timesEntered run k)).sum

/-- Counters times strings are the indices of what was executed. -/
theorem weight_eq {keys ks : List ℕ} (hnodup : keys.Nodup) (hsub : ∀ k ∈ ks, k ∈ keys)
    (hcount : ∀ k ∈ keys, (entered run).count k = ks.count k) (i : ℕ) :
    weight run p keys i = ((blockIndices (ks.flatMap (codeOf p))).count i).toUInt64 := by
  have hindices : blockIndices (ks.flatMap (codeOf p)) =
      ks.flatMap (fun k => blockIndices (codeOf p k)) :=
    List.flatMap_assoc
  have hterm : keys.map (fun k => (blockIndices (codeOf p k)).count i • timesEntered run k) =
      (keys.map (fun k => ks.count k * (blockIndices (codeOf p k)).count i)).map Nat.toUInt64 := by
    rw [List.map_map]
    refine List.map_congr_left fun k hk => ?_
    rw [timesEntered, hcount k hk, nsmul_toUInt64, Nat.mul_comm]
    rfl
  rw [weight, hterm, sum_toUInt64, sum_count_mul _ hnodup hsub, hindices, List.count_flatMap]
  rfl

/-! ## The loop -/

/-- The inner loop adds the counter of the block at each of its indices. -/
theorem addStats_eq (c : UInt64) {indices : List ℕ} (h : ∀ i ∈ indices, 0 < i ∧ i < maxIndex)
    (s : FiniState) :
    addStats c (indices.map Nat.toUInt16 ++ [0]) s = .ok { s with
      dynamicRtn := { s.dynamicRtn with
        unpredicated := indices.foldl (fun h i => addAt h i c) s.dynamicRtn.unpredicated }
      dynamic := { s.dynamic with
        unpredicated := indices.foldl (fun h i => addAt h i c) s.dynamic.unpredicated } } := by
  induction indices generalizing s with
  | nil => rfl
  | cons i indices ih =>
      rcases List.forall_mem_cons.mp h with ⟨hi, hrest⟩
      have hlt : i < 65536 := hi.2.trans (by decide)
      have hnat : i.toUInt16.toNat = i := UInt16.toNat_ofNat_of_lt hlt
      have hne : i.toUInt16 ≠ 0 := fun heq => hi.1.ne' (hnat.symm.trans (congrArg _ heq))
      rw [List.map_cons, List.cons_append, addStats, if_neg hne, hnat, if_pos hi.2, ih hrest]
      rfl

/-- The section of a routine, from the blocks that came since the one before it. -/
def rtnSection (setting : Setting) (run : List (Process × Event)) (p : Process) (n : ℕ)
    (ks : List ℕ) : List RtnCounts :=
  if n > 0 && setting.knobs.profileRoutines then
    [⟨n, (rtnEntryOf p n).name, (rtnEntryOf p n).address,
      profileRows setting.opcodeStringShort (addTotal (weight run p ks)) (fun _ => 0) none⟩]
  else []

/-- The loop of `Fini` within the blocks of a routine. -/
structure Within (run : List (Process × Event)) (p : Process) (ks : List ℕ) (s : FiniState) :
    Prop where
  dynamicRtn : 0 < s.rtnNum → s.dynamicRtn = { Stats.clear with unpredicated := weight run p ks }
  known : 0 < s.rtnNum → p.globals.rtnTable.find? s.rtnNum = some (rtnEntryOf p s.rtnNum)

theorem endRtn_eq (setting : Setting) {ks : List ℕ} {s : FiniState} (h : Within run p ks s) :
    ∃ stats, endRtn setting.opcodeStringShort setting.knobs p.globals s = .ok { s with
      dynamicRtn := stats
      sections := s.sections ++ rtnSection setting run p s.rtnNum ks } := by
  rw [endRtn, rtnSection]
  cases hends : decide (s.rtnNum > 0) && setting.knobs.profileRoutines with
  | false =>
      rw [if_neg Bool.false_ne_true, if_neg Bool.false_ne_true, List.append_nil]
      exact ⟨s.dynamicRtn, rfl⟩
  | true =>
      have hpos : 0 < s.rtnNum := of_decide_eq_true ((Bool.and_eq_true _ _).mp hends).1
      rw [if_pos rfl, if_pos rfl, dumpStats_eq, h.known hpos, h.dynamicRtn hpos]
      simp only [bind, Except.bind, Stats.clear, addTotal_zero]
      exact ⟨_, rfl⟩

/-- The counters after the string of a block. -/
def addString (run : List (Process × Event)) (p : Process) (counters : ℕ → UInt64) (k : ℕ) :
    ℕ → UInt64 :=
  (blockIndices (codeOf p k)).foldl (fun h i => addAt h i (timesEntered run k)) counters

theorem weight_append (ks : List ℕ) (k : ℕ) :
    addString run p (weight run p ks) k = weight run p (ks ++ [k]) := by
  funext i
  have hstring := foldl_addAt (fun j => j) (blockIndices (codeOf p k)) (weight run p ks)
    (timesEntered run k) i
  rw [List.map_id'] at hstring
  rw [addString, hstring, weight, weight, List.map_append, List.sum_append, List.map_singleton,
    List.sum_singleton]

/-- What the inner loop makes of a block. -/
def addBlock (run : List (Process × Event)) (p : Process) (s : FiniState) (k : ℕ) : FiniState :=
  { s with
    dynamicRtn := { s.dynamicRtn with
      unpredicated := addString run p s.dynamicRtn.unpredicated k }
    dynamic := { s.dynamic with unpredicated := addString run p s.dynamic.unpredicated k } }

theorem within_addBlock (h : Tracks setting run p) {k : ℕ} (hk : k < p.codeCache.length)
    {group : List ℕ} {s : FiniState} (hnum : s.rtnNum = rtnOf p k)
    (hstats : 0 < s.rtnNum →
      s.dynamicRtn = { Stats.clear with unpredicated := weight run p group }) :
    Within run p (group ++ [k]) (addBlock run p s k) where
  dynamicRtn := fun hpos => by
    simp only [addBlock, hstats hpos, weight_append]
  known := fun _ => by
    rcases h.block hk with ⟨b, _, _, _, _, _, hknown⟩
    simp only [addBlock, hnum]
    exact hknown

/-- The loop of `Fini` writes the sections of the routines and adds up all blocks. -/
theorem finiLoop_eq (h : Tracks setting run p) (ks : List ℕ) :
    ∀ (group : List ℕ) (s : FiniState), (∀ k ∈ ks, k < p.codeCache.length) →
      Within run p group s →
        ∃ s', finiLoop setting.opcodeStringShort setting.knobs p.globals (ks.map some ++ [none]) s =
            .ok s' ∧
          s'.sections =
            s.sections ++ breakOn (rtnOf p) (rtnSection setting run p) s.rtnNum group ks ∧
          s'.dynamic = { s.dynamic with
            unpredicated := ks.foldl (addString run p) s.dynamic.unpredicated } := by
  induction ks with
  | nil =>
      intro group s _ hwithin
      rcases endRtn_eq setting hwithin with ⟨stats, hend⟩
      exact ⟨_, hend, rfl, rfl⟩
  | cons k ks ih =>
      intro group s hks hwithin
      rcases List.forall_mem_cons.mp hks with ⟨hk, hks⟩
      rcases h.block hk with ⟨b, hb, hcounter, hstats, _, hrtn, _⟩
      have hadd : ∀ s : FiniState, addStats b.counter b.stats s = .ok (addBlock run p s k) := by
        intro s
        rw [hcounter, hstats]
        exact addStats_eq _ (fun i hi =>
          have hbounds := blockIndices_bounds (h.regular_codeOf k).regular hi
          ⟨hbounds.1, hbounds.2.2⟩) s
      rw [List.map_cons, List.cons_append, finiLoop, hb]
      simp only [beginRtn, bind, hrtn]
      by_cases hsame : s.rtnNum = rtnOf p k
      · have hnext := within_addBlock h hk hsame hwithin.dynamicRtn
        rcases ih (group ++ [k]) _ hks hnext with ⟨s', hs', hsections, hdynamic⟩
        rw [if_pos hsame, breakOn, if_pos hsame.symm]
        simp only [Except.bind, hadd]
        exact ⟨s', hs', hsections, hdynamic⟩
      · rcases endRtn_eq setting hwithin with ⟨stats, hend⟩
        have hnext : Within run p ([] ++ [k]) (addBlock run p {
            rtnNum := rtnOf p k
            dynamicRtn := Stats.clear
            dynamic := s.dynamic
            sections := s.sections ++ rtnSection setting run p s.rtnNum group } k) :=
          within_addBlock h hk rfl fun _ => rfl
        rcases ih ([] ++ [k]) _ hks hnext with ⟨s', hs', hsections, hdynamic⟩
        rw [if_neg hsame, hend, breakOn, if_neg (Ne.symm hsame), ← List.append_assoc]
        simp only [Except.bind, hadd]
        exact ⟨s', hs', hsections, hdynamic⟩

/-! ## The order of the blocks -/

/-- What `std::sort` promises. -/
def Sorts (stdSort : List (ℕ × UInt64) → List (ℕ × UInt64)) : Prop :=
  ∀ l, (stdSort l).Perm l ∧ (stdSort l).Pairwise (fun x y => ¬ y.2 < x.2)

/-- The address of the routine of a block. -/
def addressOf (p : Process) (k : ℕ) : UInt64 := (rtnEntryOf p (rtnOf p k)).address

theorem Tracks.follow (h : Tracks setting run p) {k : ℕ} (hk : k < p.codeCache.length) :
    ∃ b, follow p.globals (some k) = .ok (b, addressOf p k) := by
  rcases h.block hk with ⟨b, hb, _, _, _, hrtn, hknown⟩
  refine ⟨b, ?_⟩
  simp only [Insmix.follow, hb, hrtn, hknown, addressOf]

theorem sortStats_eq (h : Tracks setting run p) (hsort : Sorts setting.stdSort) :
    ∃ ks : List ℕ, ks.Perm (List.range p.codeCache.length) ∧
      ks.Pairwise (fun j k => (addressOf p j).toNat ≤ (addressOf p k).toNat) ∧
      sortStats setting.stdSort p.globals = .ok (ks.map some) := by
  have hlist := h.statsList
  rw [h.length] at hlist
  rw [sortStats, hlist, List.length_map, List.length_range]
  by_cases hfew : p.codeCache.length < 2
  · rw [if_pos hfew]
    refine ⟨_, List.Perm.refl _, ?_, rfl⟩
    rcases Nat.le_one_iff_eq_zero_or_eq_one.mp (Nat.le_of_lt_succ hfew) with hnone | hone
    · rw [hnone]
      exact List.Pairwise.nil
    · rw [hone]
      exact List.pairwise_singleton _ 0
  · have hkeyed : ((List.range p.codeCache.length).map some).mapM (fun ptr => do
        let followed ← Insmix.follow p.globals ptr
        return (ptr.getD 0, followed.2)) =
        .ok (((List.range p.codeCache.length).map some).map
          (fun ptr => (ptr.getD 0, addressOf p (ptr.getD 0)))) := by
      refine mapM_eq_ok _ _ _ fun ptr hptr => ?_
      rcases List.mem_map.mp hptr with ⟨k, hk, rfl⟩
      rcases h.follow (List.mem_range.mp hk) with ⟨b, hb⟩
      rw [hb]
      rfl
    rw [List.map_map] at hkeyed
    rw [if_neg hfew, hkeyed]
    rcases hsort ((List.range p.codeCache.length).map
      ((fun ptr : BblPtr => (ptr.getD 0, addressOf p (ptr.getD 0))) ∘ some)) with ⟨hperm, hpairs⟩
    have hkeys : ∀ x ∈ setting.stdSort ((List.range p.codeCache.length).map
        ((fun ptr : BblPtr => (ptr.getD 0, addressOf p (ptr.getD 0))) ∘ some)),
        x.2 = addressOf p x.1 := by
      intro x hx
      rcases List.mem_map.mp (hperm.mem_iff.mp hx) with ⟨k, _, rfl⟩
      rfl
    refine ⟨_, (hperm.map Prod.fst).trans ?_, ?_, (List.map_map).symm ▸ rfl⟩
    · rw [List.map_map]
      exact List.Perm.of_eq (List.map_id _)
    · rw [List.pairwise_map]
      refine hpairs.imp_of_mem fun hx hy hlt => ?_
      rw [hkeys _ hx, hkeys _ hy, UInt64.lt_iff_toNat_lt] at hlt
      exact Nat.not_lt.mp hlt

end CProfiler.PinTools.Insmix
