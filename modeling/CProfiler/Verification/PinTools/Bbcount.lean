import CProfiler.Foundation.GuardedRuns
import CProfiler.Model.PinBbcount

/-! The blocks that `bbcount` prints against the blocks that the threads execute: every
call stands on the head of its trace, so entering a trace records all of it. -/

namespace CProfiler.PinTools

open Foundation Model Model.Bbcount Model.Bbcount.Process

variable {p p' : Process} {run : List (Process × Event)}

/-- Start address, end address, size and instruction count of a block. -/
def describe (b : Bbl) : BasicBlock where
  startAddress := b.address
  endAddress := b.address + b.size.toUInt64
  size := b.size.toUInt64
  insNum := b.numIns

def callFor (b : Bbl) : Call := ⟨b.numIns, b.size, b.address⟩

/-! ## Calls -/

/-- The loop of `Trace` leaves all calls on the head. -/
theorem trace_cons (head : Bbl) (tail : List Bbl) :
    trace (head :: tail) =
      ⟨head, (head :: tail).map callFor⟩ :: tail.map (fun b => ⟨b, []⟩) := by
  have hloop : ∀ (bbls : List Bbl) (calls : List Call) (rest : InstrumentedTrace),
      bbls.foldl (fun t b => bblInsertCall t traceBblHead ⟨b.numIns, b.size, b.address⟩)
        (⟨head, calls⟩ :: rest) = ⟨head, calls ++ bbls.map callFor⟩ :: rest := by
    intro bbls
    induction bbls with
    | nil => simp
    | cons b bbls ih =>
        intro calls rest
        simpa [bblInsertCall, traceBblHead, callFor] using ih (calls ++ [callFor b]) rest
  simpa [trace] using hloop (head :: tail) [] (tail.map (fun b => ⟨b, []⟩))

theorem map_bbl_trace (bbls : List Bbl) : (trace bbls).map InstrumentedBbl.bbl = bbls := by
  cases bbls with
  | nil => rfl
  | cons head tail => simp [trace_cons, Function.comp_def]

theorem mem_blocks_docount (g : Globals) (b : Bbl) (block : BasicBlock) :
    block ∈ (fini (docount g (callFor b))).blocks ↔ block = describe b ∨ block ∈ (fini g).blocks :=
  SortedMap.mem_keys_insert g.basicBlocks (describe b) block ()

theorem mem_blocks_foldl (bbls : List Bbl) (g : Globals) (block : BasicBlock) :
    block ∈ (fini ((bbls.map callFor).foldl docount g)).blocks ↔
      block ∈ (fini g).blocks ∨ ∃ b ∈ bbls, describe b = block := by
  induction bbls generalizing g with
  | nil => simp
  | cons b bbls ih =>
      rw [List.map_cons, List.foldl_cons, ih, mem_blocks_docount]
      simp only [List.mem_cons, exists_eq_or_imp, or_assoc]
      rw [eq_comm, or_left_comm]

/-! ## Runs -/

/-- The block that a thread enters in a step. -/
def executedBy (s : Process × Event) : Option Bbl :=
  ((s.1.entered s.2).bind List.head?).map InstrumentedBbl.bbl

/-- The blocks executed in a run, in order. -/
def executed (run : List (Process × Event)) : List Bbl := run.filterMap executedBy

/-- All blocks of the trace that a thread enters at its head in a step. -/
def traceOf (s : Process × Event) : List Bbl :=
  match s.2 with
  | .enter _ _ => ((s.1.entered s.2).getD []).map InstrumentedBbl.bbl
  | _ => []

/-- The blocks of the traces entered in a run. -/
def traced (run : List (Process × Event)) : List Bbl := run.flatMap traceOf

/-- What the tool has recorded: the traces that were entered, block by block. -/
structure Tracks (run : List (Process × Event)) (p : Process) : Prop where
  cache : ∀ t ∈ p.codeCache, ∃ head tail, t = trace (head :: tail)
  recorded : ∀ block, block ∈ (fini p.globals).blocks ↔ ∃ b ∈ traced run, describe b = block
  following : ∀ tid t, p.threads tid = some t → ∀ b ∈ t, b.calls = [] ∧ b.bbl ∈ traced run
  executed : ∀ b ∈ executed run, b ∈ traced run

theorem tracks_initial : Tracks [] initial := by
  refine ⟨fun t ht => absurd ht List.not_mem_nil, fun block => ?_, fun tid t h => ?_, ?_⟩
  · simp [initial, fini, SortedMap.empty, traced]
  · cases h
  · simp [PinTools.executed]

theorem executed_append (run : List (Process × Event)) (s : Process × Event) :
    executed (run ++ [s]) = executed run ++ (executedBy s).toList := by
  simp only [executed, List.filterMap_append, List.filterMap_cons, List.filterMap_nil]
  cases executedBy s <;> rfl

theorem traced_append (run : List (Process × Event)) (s : Process × Event) :
    traced (run ++ [s]) = traced run ++ traceOf s := by
  simp [traced]

/-- A step that runs no block. -/
theorem Tracks.idle (h : Tracks run p) {e : Event} (hnone : p.entered e = none)
    (hcache : ∀ t ∈ p'.codeCache, ∃ head tail, t = trace (head :: tail))
    (hrecorded : (fini p'.globals).blocks = (fini p.globals).blocks)
    (hthreads : ∀ tid t, p'.threads tid = some t → t = [] ∨ p.threads tid = some t) :
    Tracks (run ++ [(p, e)]) p' := by
  have htrace : traceOf (p, e) = [] := by
    cases e <;> simp [traceOf, hnone]
  have hexecuted : executedBy (p, e) = none := by
    simp [executedBy, hnone]
  have htraced : traced (run ++ [(p, e)]) = traced run := by
    rw [traced_append, htrace, List.append_nil]
  constructor
  · exact hcache
  · intro block
    rw [hrecorded, htraced]
    exact h.recorded block
  · intro tid t ht b hb
    rw [htraced]
    cases hthreads tid t ht with
    | inl hnil => simp [hnil] at hb
    | inr hold => exact h.following tid t hold b hb
  · intro b hb
    rw [executed_append, hexecuted, Option.toList_none, List.append_nil] at hb
    rw [htraced]
    exact h.executed b hb

/-- A step that runs the block `b`. -/
theorem Tracks.runBlock (h : Tracks run p) {e : Event} {tid : ℕ} {b : InstrumentedBbl}
    {rest : InstrumentedTrace} (hentered : p.entered e = some (b :: rest))
    (hcalls : b.calls = (traceOf (p, e)).map callFor)
    (htrace : ∀ c ∈ b :: rest, c.bbl ∈ traced run ∨ c.bbl ∈ traceOf (p, e))
    (hrest : ∀ c ∈ rest, c.calls = []) :
    Tracks (run ++ [(p, e)]) (p.runBlock tid b rest) := by
  constructor
  · exact h.cache
  · intro block
    rw [Process.runBlock, hcalls, mem_blocks_foldl, h.recorded, traced_append]
    simp only [List.mem_append, or_and_right, exists_or]
  · intro tid' t ht c hc
    rw [traced_append, List.mem_append]
    have hthreads : (p.runBlock tid b rest).threads =
        Function.update p.threads tid (some rest) := rfl
    rw [hthreads] at ht
    by_cases htid : tid' = tid
    · rw [htid, Function.update_self] at ht
      cases ht
      exact ⟨hrest c hc, htrace c (List.mem_cons_of_mem b hc)⟩
    · rw [Function.update_of_ne htid] at ht
      obtain ⟨hnone, hmem⟩ := h.following tid' t ht c hc
      exact ⟨hnone, .inl hmem⟩
  · intro c hc
    rw [traced_append, List.mem_append]
    rw [executed_append, List.mem_append] at hc
    cases hc with
    | inl hold => exact .inl (h.executed c hold)
    | inr hnew =>
        have hc : c = b.bbl := by simpa [executedBy, hentered, eq_comm] using hnew
        rw [hc]
        exact htrace b List.mem_cons_self

theorem Tracks.step (h : Tracks run p) {e : Event} (hstep : p.step e = some p') :
    Tracks (run ++ [(p, e)]) p' := by
  cases e with
  | instrument head tail =>
      cases hstep
      refine h.idle rfl ?_ rfl (fun tid t ht => .inr ht)
      intro t ht
      cases List.mem_append.mp ht with
      | inl hold => exact h.cache t hold
      | inr hnew => exact ⟨head, tail, List.mem_singleton.mp hnew⟩
  | threadStart tid =>
      simp only [Process.step] at hstep
      split at hstep
      · cases hstep
      · obtain ⟨g, hg, hp'⟩ := Option.bind_eq_some_iff.mp hstep
        cases hp'
        have hblocks : (fini g).blocks = (fini p.globals).blocks := by
          simp only [Bbcount.threadStart] at hg
          split at hg
          · cases hg
            rfl
          · cases hg
        refine h.idle rfl h.cache hblocks ?_
        intro tid' t ht
        simp only at ht
        by_cases htid : tid' = tid
        · rw [htid, Function.update_self] at ht
          exact .inl (Option.some.inj ht).symm
        · rw [Function.update_of_ne htid] at ht
          exact .inr ht
  | enter tid position =>
      simp only [Process.step] at hstep
      split at hstep
      · rename_i b rest hentered
        cases hstep
        obtain ⟨_, -, hposition⟩ := Option.bind_eq_some_iff.mp hentered
        obtain ⟨head, tail, htrace⟩ := h.cache _ (List.mem_of_getElem? hposition)
        have hblocks : traceOf (p, .enter tid position) = head :: tail := by
          simp only [traceOf, hentered, Option.getD_some]
          rw [htrace, map_bbl_trace]
        rw [trace_cons] at htrace
        obtain ⟨rfl, rfl⟩ := List.cons.inj htrace
        apply h.runBlock hentered
        · rw [hblocks]
        · intro c hc
          rw [hblocks, ← map_bbl_trace (head :: tail), trace_cons]
          exact .inr (List.mem_map_of_mem hc)
        · intro c hc
          obtain ⟨b, -, rfl⟩ := List.mem_map.mp hc
          rfl
      · cases hstep
  | next tid =>
      simp only [Process.step] at hstep
      split at hstep
      · rename_i b rest hentered
        cases hstep
        have hfollowing := h.following tid (b :: rest) hentered
        apply h.runBlock hentered
        · exact (hfollowing b List.mem_cons_self).1
        · intro c hc
          exact .inl (hfollowing c hc).2
        · intro c hc
          exact (hfollowing c (List.mem_cons_of_mem b hc)).1
      · cases hstep

theorem tracks_of_run (hrun : Run Process.step initial run p) : Tracks run p := by
  induction hrun with
  | refl => exact tracks_initial
  | step _ hs ih => exact ih.step hs

/-! ## Recorded and executed blocks -/

/-- `Fini` prints the description of a block exactly if the block was executed. -/
def PrintsExecuted (run : List (Process × Event)) (p : Process) : Prop :=
  ∀ block, block ∈ (fini p.globals).blocks ↔ ∃ b ∈ executed run, describe b = block

/-- The tool prints the executed blocks exactly when every block of every trace that was
entered has the description of a block that was executed. -/
theorem printsExecuted_of_run_iff (hrun : Run Process.step initial run p) :
    PrintsExecuted run p ↔ ∀ b ∈ traced run, ∃ c ∈ executed run, describe c = describe b := by
  have h := tracks_of_run hrun
  constructor
  · intro hprints b hb
    exact (hprints (describe b)).mp ((h.recorded (describe b)).mpr ⟨b, hb, rfl⟩)
  · intro hall block
    rw [h.recorded]
    constructor
    · intro hrecorded
      obtain ⟨b, hb, rfl⟩ := hrecorded
      exact hall b hb
    · intro hexecuted
      obtain ⟨b, hb, rfl⟩ := hexecuted
      exact ⟨b, h.executed b hb, rfl⟩

/-- Two blocks of one trace. -/
def firstBbl : Bbl := ⟨0x400000, 4, 2⟩

def secondBbl : Bbl := ⟨0x400004, 3, 1⟩

/-- A thread that runs the trace to its end. -/
theorem printsExecuted_of_run_iff_twoBlocks :
    ∃ run p, Run Process.step initial run p ∧ executed run = [firstBbl, secondBbl] ∧
      (PrintsExecuted run p ↔
        ∀ b ∈ traced run, ∃ c ∈ executed run, describe c = describe b) := by
  have hsome : (record Process.step initial [.threadStart 0, .instrument firstBbl [secondBbl],
      .enter 0 0, .next 0]).any (fun run => executed run.1 = [firstBbl, secondBbl]) = true := by
    decide +kernel
  obtain ⟨run, p, hrun, hexecuted⟩ := exists_run_of_record hsome
  exact ⟨run, p, hrun, hexecuted, printsExecuted_of_run_iff hrun⟩

/-- A thread that leaves the trace after its first block: the second one is printed. -/
theorem printsExecuted_fails :
    ¬ ∀ run p, Run Process.step initial run p → PrintsExecuted run p := by
  intro h
  have hany : (record Process.step initial [.threadStart 0, .instrument firstBbl [secondBbl],
      .enter 0 0]).any (fun run => (fini run.2.globals).blocks =
        [describe firstBbl, describe secondBbl] ∧ executed run.1 = [firstBbl]) = true := by
    decide +kernel
  obtain ⟨run, p, hrun, hprinted, hexecuted⟩ := exists_run_of_record hany
  have hsecond : describe secondBbl ∈ (fini p.globals).blocks := by simp [hprinted]
  obtain ⟨b, hb, hdescribe⟩ := (h run p hrun _).mp hsecond
  rw [hexecuted, List.mem_singleton] at hb
  rw [hb] at hdescribe
  exact absurd hdescribe (by decide)

end CProfiler.PinTools
