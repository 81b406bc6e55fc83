import CProfiler.Verification.PinTools.MixProfiles

/-! # Ends before the end

`insmix` takes a system call for the end of the process, writes its output and leaves a null
pointer among its blocks. Once that has happened it has no second output. -/

namespace CProfiler.PinTools.Insmix

open Foundation Model Model.Insmix Process

variable {setting : Setting} {run : List (Process × Event)} {p p' : Process} {g g' : Globals}

/-! ## What a call adds to the list -/

theorem traceBbl_grows {rtnNum : ℕ} {bbl : Bbl} (h : traceBbl rtnNum g bbl = .ok g') :
    g'.heap.length = g.heap.length + 1 ∧ ∃ ptr, g'.statsList = g.statsList ++ [ptr] := by
  simp only [traceBbl, bind, Except.bind] at h
  cases hstrings : bbl.inss.mapM (fun ins => generateIndexString ins true) with
  | error fault =>
      rw [hstrings] at h
      cases h
  | ok strings =>
      rw [hstrings] at h
      simp only at h
      split_ifs at h
      cases h
      exact ⟨List.length_append, _, rfl⟩

theorem foldlM_traceBbl_grows {rtnNum : ℕ} {bbls : List Bbl}
    (h : bbls.foldlM (traceBbl rtnNum) g = .ok g') :
    g'.heap.length = g.heap.length + bbls.length ∧
      ∃ more : List BblPtr, g'.statsList = g.statsList ++ more ∧ more.length = bbls.length := by
  induction bbls generalizing g with
  | nil =>
      cases h
      exact ⟨rfl, [], (List.append_nil _).symm, rfl⟩
  | cons bbl bbls ih =>
      rw [List.foldlM_cons] at h
      cases hbbl : traceBbl rtnNum g bbl with
      | error fault =>
          rw [hbbl] at h
          cases h
      | ok mid =>
          rw [hbbl] at h
          rcases traceBbl_grows hbbl with ⟨hheap, ptr, hlist⟩
          rcases ih h with ⟨hheap', more, hlist', hmore⟩
          refine ⟨?_, ptr :: more, ?_, ?_⟩
          · rw [hheap', hheap, List.length_cons, Nat.add_assoc, Nat.add_comm 1]
          · rw [hlist', hlist, List.append_assoc, List.singleton_append]
          · rw [List.length_cons, List.length_cons, hmore]

theorem trace_grows {knobs : Knobs} {t : Trace} (h : trace knobs g t = .ok g') :
    g'.heap.length = g.heap.length + (instrumented knobs t).length ∧
      ∃ more : List BblPtr, g'.statsList = g.statsList ++ more ∧
        more.length = (instrumented knobs t).length := by
  rw [trace] at h
  rw [instrumented]
  cases hskip : knobs.noSharedLibs && t.inSharedLib with
  | true =>
      rw [hskip, if_pos rfl] at h
      cases h
      exact ⟨rfl, [], (List.append_nil _).symm, rfl⟩
  | false =>
      rw [hskip, if_neg Bool.false_ne_true] at h
      rw [if_neg Bool.false_ne_true, List.length_map]
      have hgrows := foldlM_traceBbl_grows h
      split_ifs at hgrows
      all_goals exact hgrows

/-- `Fini` leaves the null pointer. -/
theorem fini_terminates (hsort : Sorts setting.stdSort) {out : Output}
    (h : fini setting.opcodeStringShort setting.stdSort setting.uninitialised setting.knobs g =
      .ok (out, g')) :
    g'.heap = g.heap ∧ none ∈ g'.statsList ∧ g'.statsList.length = g.statsList.length + 1 := by
  rw [fini, dumpStats_eq] at h
  simp only [bind, Except.bind] at h
  cases hsorted : sortStats setting.stdSort g with
  | error fault =>
      rw [hsorted] at h
      cases h
  | ok sorted =>
      have hlength : sorted.length = g.statsList.length := by
        rw [sortStats] at hsorted
        split_ifs at hsorted
        · cases hsorted
          rfl
        · simp only [bind, Except.bind] at hsorted
          split at hsorted
          · cases hsorted
          · rename_i keyed hkeyed
            cases hsorted
            rw [List.length_map, (hsort keyed).1.length_eq, length_of_mapM hkeyed]
      rw [hsorted] at h
      simp only at h
      cases hloop : finiLoop setting.opcodeStringShort setting.knobs g (sorted ++ [none])
          ⟨0, setting.uninitialised, g.globalStatsDynamic, []⟩ with
      | error fault =>
          rw [hloop] at h
          cases h
      | ok s =>
          rw [hloop] at h
          simp only [dumpStats_eq] at h
          have hpair := Except.ok.inj h
          rw [← (Prod.mk.inj hpair).2]
          refine ⟨rfl, List.mem_append_right _ (List.mem_singleton_self none), ?_⟩
          rw [List.length_append, List.length_singleton, hlength]

/-! ## Runs -/

/-- The call that `insmix` takes for the end. -/
def Ended (run : List (Process × Event)) : Prop := ∃ q ∈ run, q.2 = .syscall 24

/-- The list has all blocks, and the null pointer once there has been an end. -/
structure Listed (run : List (Process × Event)) (p : Process) : Prop where
  length : p.globals.heap.length = p.codeCache.length
  listed : p.codeCache.length ≤ p.globals.statsList.length
  ended : Ended run → none ∈ p.globals.statsList ∧
    p.codeCache.length < p.globals.statsList.length

/-- A step that adds blocks, or nothing. -/
theorem Listed.grow (h : Listed run p) {e : Event} (hcall : e ≠ .syscall 24)
    {more : List BblPtr} {blocks : List (List Ins)}
    (hheap : p'.globals.heap.length = p.globals.heap.length + blocks.length)
    (hcache : p'.codeCache = p.codeCache ++ blocks)
    (hlist : p'.globals.statsList = p.globals.statsList ++ more)
    (hmore : more.length = blocks.length) : Listed (run ++ [(p, e)]) p' := by
  have hlength := h.length
  have hlisted := h.listed
  refine ⟨?_, ?_, fun hended => ?_⟩
  · rw [hheap, hcache, List.length_append, hlength]
  · rw [hcache, hlist, List.length_append, List.length_append]
    omega
  · have hbefore : Ended run := by
      rcases hended with ⟨q, hq, hcall'⟩
      rcases List.mem_append.mp hq with hq | hq
      · exact ⟨q, hq, hcall'⟩
      · rw [List.mem_singleton.mp hq] at hcall'
        exact absurd hcall' hcall
    rcases h.ended hbefore with ⟨hnone, hlt⟩
    rw [hcache, hlist, List.length_append, List.length_append]
    exact ⟨List.mem_append_left _ hnone, by omega⟩

theorem Listed.same (h : Listed run p) {e : Event} (hcall : e ≠ .syscall 24)
    (hheap : p'.globals.heap.length = p.globals.heap.length) (hcache : p'.codeCache = p.codeCache)
    (hlist : p'.globals.statsList = p.globals.statsList) : Listed (run ++ [(p, e)]) p' := by
  have hheap' : p'.globals.heap.length =
      p.globals.heap.length + ([] : List (List Ins)).length := hheap
  exact h.grow hcall hheap' (hcache.trans (List.append_nil _).symm)
    (hlist.trans (List.append_nil _).symm) rfl

theorem Listed.step (hsort : Sorts setting.stdSort) (h : Listed run p) {e : Event}
    (hstep : step setting p e = some p') : Listed (run ++ [(p, e)]) p' := by
  cases e with
  | image inss =>
      rw [Process.step] at hstep
      split_ifs at hstep
      rcases Option.bind_eq_some_iff.mp hstep with ⟨g, hg, hp⟩
      cases hp
      rw [image] at hg
      cases hfold : inss.foldlM imageIns p.globals.globalStatsStatic with
      | error fault =>
          rw [hfold] at hg
          cases hg
      | ok stats =>
          rw [hfold] at hg
          cases hg
          exact h.same (fun heq => by cases heq) rfl rfl rfl
  | trace t =>
      rcases Option.bind_eq_some_iff.mp hstep with ⟨g, hg, hp⟩
      cases hp
      cases htrace : trace setting.knobs p.globals t with
      | error fault =>
          rw [htrace] at hg
          cases hg
      | ok g' =>
          rw [htrace] at hg
          cases hg
          rcases trace_grows htrace with ⟨hheap, more, hlist, hmore⟩
          exact h.grow (fun heq => by cases heq) hheap rfl hlist hmore
  | enter block =>
      rw [Process.step] at hstep
      split_ifs at hstep
      cases hstep
      exact h.same (fun heq => by cases heq) (List.length_modify _ _ _) rfl rfl
  | predicated block position =>
      rcases Option.bind_eq_some_iff.mp hstep with ⟨inss, _, hstep⟩
      rcases Option.bind_eq_some_iff.mp hstep with ⟨ins, _, hstep⟩
      split_ifs at hstep
      · cases hstep
        exact h.same (fun heq => by cases heq) rfl rfl rfl
      · cases hstep
        exact h.same (fun heq => by cases heq) rfl rfl rfl
  | control ev =>
      rcases Option.bind_eq_some_iff.mp hstep with ⟨g, hg, hp⟩
      cases hp
      cases ev with
      | start =>
          cases hg
          exact h.same (fun heq => by cases heq) rfl rfl rfl
      | stop =>
          cases hg
          exact h.same (fun heq => by cases heq) rfl rfl rfl
      | other => cases hg
  | syscall code =>
      rw [Process.step] at hstep
      by_cases hcode : code = 24
      · rw [if_pos hcode] at hstep
        rcases Option.bind_eq_some_iff.mp hstep with ⟨out, hout, hp⟩
        cases hp
        cases hfini : fini setting.opcodeStringShort setting.stdSort setting.uninitialised
            setting.knobs p.globals with
        | error fault =>
            rw [hfini] at hout
            cases hout
        | ok pair =>
            rw [hfini] at hout
            cases hout
            rcases fini_terminates hsort hfini with ⟨hheap, hnone, hlength⟩
            have hlisted := h.listed
            refine ⟨?_, ?_, fun _ => ⟨hnone, ?_⟩⟩
            · rw [hheap]
              exact h.length
            · simp only [hlength]
              omega
            · simp only [hlength]
              omega
      · rw [if_neg hcode] at hstep
        cases hstep
        refine h.same (fun heq => hcode ?_) rfl rfl rfl
        cases heq
        rfl

theorem listed_of_run (hsort : Sorts setting.stdSort)
    (hrun : Run (Process.step setting) initial run p) : Listed run p := by
  induction hrun with
  | refl => exact ⟨rfl, le_rfl, fun hended => by rcases hended with ⟨q, hq, _⟩; cases hq⟩
  | step _ hstep ih => exact ih.step hsort hstep

theorem follow_error {ptr : BblPtr} {fault : Insmix.Fault} (h : follow g ptr = .error fault) :
    fault = .nullPointer := by
  cases ptr with
  | none =>
      cases h
      rfl
  | some k =>
      simp only [follow] at h
      split at h
      · cases h
        rfl
      · split at h
        · cases h
          rfl
        · cases h

/-- After an end, a process with instrumented blocks gets no further than the null pointer. -/
theorem fini_after_end (hrun : Run (Process.step setting) initial run p)
    (hsort : Sorts setting.stdSort) (hended : Ended run) (hblocks : p.codeCache ≠ []) :
    fini setting.opcodeStringShort setting.stdSort setting.uninitialised setting.knobs p.globals =
      .error .nullPointer := by
  have h := listed_of_run hsort hrun
  rcases h.ended hended with ⟨hnone, hlt⟩
  have hpos := List.length_pos_of_ne_nil hblocks
  have hsorted : sortStats setting.stdSort p.globals = .error .nullPointer := by
    rw [sortStats, if_neg (by omega)]
    have hfollow : p.globals.statsList.mapM (fun ptr => do
        let followed ← follow p.globals ptr
        return (ptr.getD 0, followed.2)) = .error .nullPointer := by
      refine mapM_eq_error (fun ptr fault hfault => ?_) hnone rfl
      cases hptr : follow p.globals ptr with
      | error fault' =>
          rw [hptr] at hfault
          cases hfault
          exact follow_error hptr
      | ok followed =>
          rw [hptr] at hfault
          cases hfault
    rw [hfollow]
    rfl
  rw [fini, dumpStats_eq, hsorted]
  rfl

theorem fini_after_end_short :
    ∃ run p, Run (Process.step shortSetting) initial run p ∧ Ended run ∧
      fini shortSetting.opcodeStringShort shortSetting.stdSort shortSetting.uninitialised
        shortSetting.knobs p.globals = .error .nullPointer := by
  rcases exists_short with ⟨run, p, hrun, hquiet, hshort⟩
  rcases fini_writes hrun hquiet sorts_stableSort with ⟨ks, _, _, out, hout, _⟩
  rw [finalOutput] at hout
  cases hfini : fini shortSetting.opcodeStringShort shortSetting.stdSort shortSetting.uninitialised
      shortSetting.knobs p.globals with
  | error fault =>
      rw [hfini] at hout
      cases hout
  | ok pair =>
      have hstep : Process.step shortSetting p (.syscall 24) = some
          { p with globals := pair.2, outputs := p.outputs ++ [pair.1] } := by
        rw [Process.step, if_pos rfl, hfini]
        rfl
      have hended : Ended (run ++ [(p, .syscall 24)]) :=
        ⟨_, List.mem_append_right _ (List.mem_singleton_self _), rfl⟩
      have hblocks : p.codeCache ≠ [] := fun hnil => by
        have hlength := hshort.2.2.1
        rw [hnil] at hlength
        cases hlength
      exact ⟨_, _, hrun.step hstep, hended,
        fini_after_end (hrun.step hstep) sorts_stableSort hended hblocks⟩

end CProfiler.PinTools.Insmix
