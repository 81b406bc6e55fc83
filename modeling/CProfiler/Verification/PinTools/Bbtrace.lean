import CProfiler.Foundation.GuardedRuns
import CProfiler.Verification.PinTools.Summaries

/-! The trace files of `bbtrace` over all orders of events: what each thread's file holds
before, while and after the thread runs, and what an image does that is loaded later. -/

namespace CProfiler.PinTools

open Foundation Model Model.Bbtrace Model.Bbtrace.Globals Model.Bbtrace.Process

/-! ## Blocks and their numbers -/

/-- The blocks are numbered in order, the map points to each of them once and under its
own key, and every call to the block of its addresses. -/
structure Numbered (g : Globals) (calls : List (Bbl × BlockPtr)) : Prop where
  ids : g.blocks.map Block.id = (List.range g.blocks.length).map (· + 1)
  next : g.currentId = g.blocks.length + 1
  mapped : (g.blockMap.map Prod.snd).Perm (List.range g.blocks.length)
  keyed : ∀ entry ∈ g.blockMap, ∃ b, g.blocks[entry.2]? = some b ∧ b.key = entry.1
  proper : ∀ entry ∈ g.blockMap, entry.1.isPoint = false
  called : ∀ c ∈ calls, ∃ b, g.blocks[c.2]? = some b ∧
    b.key.start = c.1.insHead ∧ b.key.end_ = c.1.insTail

/-- `g'` has more blocks than `g`, which nobody has executed. -/
structure Extends (g g' : Globals) : Prop where
  profiles : g'.profiles = g.profiles
  blocks : ∃ new, g'.blocks = g.blocks ++ new ∧ ∀ b ∈ new, ∀ t, b.globalBlockCount t = 0

theorem Extends.refl (g : Globals) : Extends g g := ⟨rfl, [], by simp, by simp⟩

theorem Extends.trans {g g' g'' : Globals} (h : Extends g g') (h' : Extends g' g'') :
    Extends g g'' := by
  obtain ⟨new, hnew, hzero⟩ := h.blocks
  obtain ⟨new', hnew', hzero'⟩ := h'.blocks
  refine ⟨h'.profiles.trans h.profiles, new ++ new', ?_, ?_⟩
  · rw [hnew', hnew, List.append_assoc]
  · intro b hb
    cases List.mem_append.mp hb with
    | inl hb => exact hzero b hb
    | inr hb => exact hzero' b hb

theorem Numbered.nodup {g : Globals} {calls : List (Bbl × BlockPtr)} (h : Numbered g calls) :
    (g.blocks.map Block.id).Nodup := by
  rw [h.ids]
  exact List.nodup_range.map (fun _ _ => Nat.succ.inj)

theorem Numbered.id_eq {g : Globals} {calls : List (Bbl × BlockPtr)} (h : Numbered g calls) {i : ℕ}
    {b : Block} (hb : g.blocks[i]? = some b) : b.id = i + 1 := by
  obtain ⟨hi, rfl⟩ := List.getElem?_eq_some_iff.mp hb
  have hid := congrArg (fun l : List ℕ => l[i]?) h.ids
  simpa [hi] using hid

theorem isPoint_bbl (bbl : Bbl) :
    BlockKey.isPoint ⟨bbl.insHead, bbl.insTail, bbl.size⟩ = false := by
  have hasc := bbl.ascending
  have hnear := bbl.near
  have hcount := bbl.numIns.toNat_lt
  have hhead := bbl.insHead.toNat_lt
  have htail := bbl.insTail.toNat_lt
  simp only [BlockKey.isPoint, decide_eq_false_iff_not]
  intro hone
  have hsub := congrArg UInt64.toNat hone
  rw [UInt64.toNat_sub] at hsub
  simp only [UInt64.reduceToNat] at hsub
  omega

/-- Blocks that are not above each other have the same addresses. -/
theorem eq_of_not_lt {a b : BlockKey} (ha : a.isPoint = false) (hb : b.isPoint = false)
    (hab : a.lt b = false) (hba : b.lt a = false) : a.start = b.start ∧ a.end_ = b.end_ := by
  simp only [BlockKey.lt, ha, hb, Bool.false_eq_true, if_false] at hab hba
  by_cases hstart : a.start = b.start
  · rw [if_pos hstart] at hab
    rw [if_pos hstart.symm] at hba
    exact ⟨hstart, UInt64.le_antisymm (by simpa using hba) (by simpa using hab)⟩
  · rw [if_neg hstart] at hab
    rw [if_neg (Ne.symm hstart)] at hba
    exact absurd (UInt64.le_antisymm (by simpa using hba) (by simpa using hab)) hstart

theorem find_spec {m : BlockMap} {key : BlockKey} {block : BlockPtr}
    (h : m.find key = some block) :
    ∃ entry ∈ m, entry.2 = block ∧ entry.1.lt key = false ∧ key.lt entry.1 = false := by
  unfold BlockMap.find at h
  split at h
  · rename_i entry hentry
    split at h
    · cases h
    · rename_i hlt
      cases h
      exact ⟨entry, List.mem_of_find?_eq_some hentry, rfl,
        by simpa using List.find?_some hentry, by simpa using hlt⟩
  · cases h

theorem insert_perm (key : BlockKey) (block : BlockPtr) (m : BlockMap) :
    (m.insert key block).Perm ((key, block) :: m) := by
  induction m with
  | nil => exact List.Perm.refl _
  | cons entry rest ih =>
      rw [BlockMap.insert]
      split
      · exact List.Perm.refl _
      · exact (ih.cons entry).trans (List.Perm.swap _ _ _)

theorem Numbered.lookup {g : Globals} {calls : List (Bbl × BlockPtr)} (h : Numbered g calls)
    (bbl : Bbl) :
    Numbered (g.lookupBlock bbl).1 (calls ++ [(bbl, (g.lookupBlock bbl).2)]) ∧
      Extends g (g.lookupBlock bbl).1 := by
  unfold lookupBlock
  simp only
  split
  · rename_i block hfind
    obtain ⟨entry, hentry, rfl, hlt, hlt'⟩ := find_spec hfind
    obtain ⟨b, hb, hkey⟩ := h.keyed entry hentry
    obtain ⟨hstart, hend⟩ := eq_of_not_lt (h.proper entry hentry) (isPoint_bbl bbl) hlt hlt'
    refine ⟨⟨h.ids, h.next, h.mapped, h.keyed, h.proper, ?_⟩, Extends.refl g⟩
    intro c hc
    cases List.mem_append.mp hc with
    | inl hold => exact h.called c hold
    | inr hnew =>
        rw [List.mem_singleton.mp hnew]
        exact ⟨b, hb, hkey ▸ hstart, hkey ▸ hend⟩
  · generalize hblock : (⟨⟨bbl.insHead, bbl.insTail, bbl.size⟩, bbl.numIns.toNat, g.currentId,
      fun _ => 0⟩ : Block) = block
    have hold : ∀ (i : ℕ) b, g.blocks[i]? = some b → (g.blocks ++ [block])[i]? = some b := by
      intro i b hb
      have hi : i < g.blocks.length := (List.getElem?_eq_some_iff.mp hb).1
      rw [List.getElem?_append_left hi, hb]
    have hperm := insert_perm ⟨bbl.insHead, bbl.insTail, bbl.size⟩ g.blocks.length g.blockMap
    have hlast : (g.blocks ++ [block])[g.blocks.length]? = some block := by simp
    constructor
    · constructor
      · simp [h.ids, h.next, ← hblock, List.range_succ]
      · simp [h.next]
      · simp only [List.length_append, List.length_singleton, List.range_succ]
        refine (hperm.map Prod.snd).trans ?_
        exact (h.mapped.cons _).trans (List.perm_append_singleton _ _).symm
      · intro entry hentry
        cases List.mem_cons.mp (hperm.mem_iff.mp hentry) with
        | inl hnew => exact ⟨block, hnew ▸ hlast, by rw [hnew, ← hblock]⟩
        | inr hmem =>
            obtain ⟨b, hb, hkey⟩ := h.keyed entry hmem
            exact ⟨b, hold _ b hb, hkey⟩
      · intro entry hentry
        cases List.mem_cons.mp (hperm.mem_iff.mp hentry) with
        | inl hnew => exact hnew ▸ isPoint_bbl bbl
        | inr hmem => exact h.proper entry hmem
      · intro c hc
        cases List.mem_append.mp hc with
        | inl hmem =>
            obtain ⟨b, hb, haddresses⟩ := h.called c hmem
            exact ⟨b, hold _ b hb, haddresses⟩
        | inr hnew =>
            rw [List.mem_singleton.mp hnew]
            exact ⟨block, hlast, by rw [← hblock], by rw [← hblock]⟩
    · refine ⟨rfl, [block], rfl, ?_⟩
      intro b hb t
      rw [List.mem_singleton.mp hb, ← hblock]

theorem Numbered.trace {g : Globals} {old : List (Bbl × BlockPtr)} (bbls : List Bbl)
    (calls : List (Bbl × BlockPtr)) (h : Numbered g (old ++ calls)) :
    Numbered (g.trace calls bbls).1 (old ++ (g.trace calls bbls).2) ∧
      Extends g (g.trace calls bbls).1 := by
  induction bbls generalizing g calls with
  | nil => exact ⟨h, Extends.refl g⟩
  | cons bbl bbls ih =>
      obtain ⟨hnumbered, hextends⟩ := h.lookup bbl
      rw [List.append_assoc] at hnumbered
      obtain ⟨hrest, hextends'⟩ := ih _ hnumbered
      exact ⟨hrest, hextends.trans hextends'⟩

/-! ## Executions -/

/-- The block that a thread executes in a step, with its number. -/
def executionBy (t : ℕ) (s : Process × Event) : Option (Bbl × ℕ) :=
  match s.2 with
  | .execute tid position => do
    let call ← s.1.codeCache[position]?
    let b ← s.1.globals.blocks[call.2]?
    if tid = t then some (call.1, b.id) else none
  | _ => none

/-- The blocks that a thread has executed in a run, in order. -/
def executions (run : List (Process × Event)) (t : ℕ) : List (Bbl × ℕ) :=
  run.filterMap (executionBy t)

/-- An image is loaded after thread 0 has finished. -/
def LateImage (s : Process × Event) : Prop :=
  s.1.phase 0 = .finished ∧ ∃ name low offset, s.2 = .image name low offset

/-- The file of the thread has been started anew after the thread has finished. -/
def Restarted (run : List (Process × Event)) (t : ℕ) : Prop := t = 0 ∧ ∃ s ∈ run, LateImage s

/-! ## Threads -/

/-- What a file holds of a thread that has not finished. -/
structure Pending (f : Profile) (executed : List (Bbl × ℕ)) : Prop where
  plain : ∀ line ∈ f.bbFile.lines, isPlain line = true
  ids : f.bbFile.lines.filterMap idOf = executed.map Prod.snd
  uncounted : f.globalInstructionCount = 0

/-- What a file holds of a thread in each of its phases. -/
def Kept (run : List (Process × Event)) (blocks : List Block) (t : ℕ) (f : Profile) :
    Phase → Prop
  | .fresh => executions run t = [] ∧ Pending f []
  | .live => f.bbFile.isOpen = true ∧ Pending f (executions run t)
  | .finished =>
      (Restarted run t → f.bbFile.lines.filterMap countOf = []) ∧
        (¬ Restarted run t → f.bbFile.isOpen = false ∧
          Agrees blocks (executions run t) f.bbFile.lines)

/-- What holds of the tool between any two events. -/
structure Consistent (run : List (Process × Event)) (p : Process) : Prop where
  numbered : Numbered p.globals p.codeCache
  counted : ∀ b ∈ p.globals.blocks, ∀ t,
    b.globalBlockCount t = ((executions run t).map Prod.snd).count b.id
  named : ∀ t, ∀ e ∈ executions run t, ∃ b ∈ p.globals.blocks,
    b.id = e.2 ∧ b.key.start = e.1.insHead ∧ b.key.end_ = e.1.insTail
  kept : ∀ t, Kept run p.globals.blocks t (p.globals.profiles t) (p.phase t)
  restarted : ∀ t, Restarted run t → p.phase t = .finished

theorem consistent_initial : Consistent [] Process.initial := by
  constructor
  · exact ⟨rfl, rfl, List.Perm.refl _, by simp [initial], by simp [initial], by simp [initial]⟩
  · simp [initial]
  · simp [executions]
  · intro t
    exact ⟨rfl, by simp [initial], rfl, rfl⟩
  · intro t h
    obtain ⟨-, s, hs, -⟩ := h
    exact absurd hs List.not_mem_nil

section Frames

variable {run : List (Process × Event)} {p : Process} {e : Event}

theorem executions_append (s : Process × Event) (t : ℕ) :
    executions (run ++ [s]) t = executions run t ++ (executionBy t s).toList := by
  simp only [executions, List.filterMap_append, List.filterMap_cons, List.filterMap_nil]
  cases executionBy t s <;> rfl

theorem restarted_append (s : Process × Event) (t : ℕ) :
    Restarted (run ++ [s]) t ↔ Restarted run t ∨ (t = 0 ∧ LateImage s) := by
  simp [Restarted, or_and_right, exists_or, and_or_left]

theorem executions_of_idle (he : ∀ tid position, e ≠ .execute tid position) (t : ℕ) :
    executions (run ++ [(p, e)]) t = executions run t := by
  rw [executions_append]
  cases e with
  | execute tid position => exact absurd rfl (he tid position)
  | _ => exact List.append_nil _

theorem restarted_of_noImage (he : ∀ name low offset, e ≠ .image name low offset) (t : ℕ) :
    Restarted (run ++ [(p, e)]) t ↔ Restarted run t := by
  rw [restarted_append, or_iff_left]
  intro hlate
  obtain ⟨-, -, name, low, offset, himage⟩ := hlate
  exact he name low offset himage

/-- A thread that a step leaves alone, while blocks may be added. -/
theorem Kept.frame {run' : List (Process × Event)} {blocks blocks' : List Block} {t : ℕ}
    {f : Profile} {phase : Phase} (h : Kept run blocks t f phase)
    (hexecutions : executions run' t = executions run t)
    (hrestarted : Restarted run' t ↔ Restarted run t) (hgrown : Grown blocks blocks')
    (hnodup : (blocks.map Block.id).Nodup) (hnodup' : (blocks'.map Block.id).Nodup) :
    Kept run' blocks' t f phase := by
  cases phase with
  | fresh => exact ⟨hexecutions.trans h.1, h.2⟩
  | live => exact ⟨h.1, hexecutions ▸ h.2⟩
  | finished =>
      refine ⟨fun hr => h.1 (hrestarted.mp hr), fun hr => ?_⟩
      obtain ⟨hclosed, hagrees⟩ := h.2 (fun hr' => hr (hrestarted.mpr hr'))
      exact ⟨hclosed, hexecutions ▸ hagrees.grow hgrown hnodup hnodup'⟩

theorem grown_refl (blocks : List Block) : Grown blocks blocks :=
  fun b hb => ⟨b, hb, rfl, rfl, rfl⟩

theorem Extends.grown {g g' : Globals} (h : Extends g g') : Grown g.blocks g'.blocks := by
  obtain ⟨new, hnew, -⟩ := h.blocks
  exact fun b hb => ⟨b, by simp [hnew, hb], rfl, rfl, rfl⟩

/-- A step that changes files and phases alone. -/
theorem Consistent.files (h : Consistent run p) {run' : List (Process × Event)}
    {profiles : ℕ → Profile} {phase : ℕ → Phase} {imgId : ℕ} {aborted : Bool}
    (hexecutions : ∀ t, executions run' t = executions run t)
    (hkept : ∀ t, Kept run' p.globals.blocks t (profiles t) (phase t))
    (hrestarted : ∀ t, Restarted run' t → phase t = .finished) :
    Consistent run'
      { p with
        globals := { p.globals with currentImgId := imgId, profiles := profiles }
        phase := phase
        aborted := aborted } := by
  constructor
  · exact ⟨h.numbered.ids, h.numbered.next, h.numbered.mapped, h.numbered.keyed, h.numbered.proper,
      h.numbered.called⟩
  · intro b hb t
    rw [hexecutions]
    exact h.counted b hb t
  · intro t e he
    rw [hexecutions] at he
    exact h.named t e he
  · exact hkept
  · exact hrestarted

/-! ## Images -/

/-- An image starts the file of thread 0 if it is closed, and adds its own line at most. -/
theorem image_spec (g : Globals) (name : String) (low offset : UInt64) :
    ∃ imgId added, (∀ line ∈ added, isPlain line = true ∧ idOf line = none) ∧
      (g.image name low offset).1 = { g with
        currentImgId := imgId
        profiles := Function.update g.profiles 0
          ⟨⟨true,
              (if (g.profiles 0).bbFile.isOpen then (g.profiles 0).bbFile.lines else []) ++ added⟩,
            (g.profiles 0).globalInstructionCount⟩ } := by
  have hopened : ∀ f : OutFile, (if f.isOpen then f else OutFile.opened) =
      ⟨true, if f.isOpen then f.lines else []⟩ := by
    intro f
    obtain ⟨isOpen, lines⟩ := f
    cases isOpen <;> rfl
  have hstart : (if (g.profiles 0).bbFile.isOpen then g else g.openFile 0) = { g with
      profiles := Function.update g.profiles 0
        ⟨⟨true, if (g.profiles 0).bbFile.isOpen then (g.profiles 0).bbFile.lines else []⟩,
          (g.profiles 0).globalInstructionCount⟩ } := by
    rw [← hopened]
    cases hopen : (g.profiles 0).bbFile.isOpen with
    | false => rfl
    | true => simp
  unfold Globals.image
  rw [hstart]
  by_cases himages : g.currentImgId < maxImages - 1
  · refine ⟨g.currentImgId + 1, [.image name low offset], ?_, ?_⟩
    · intro line hline
      rw [List.mem_singleton.mp hline]
      exact ⟨rfl, rfl⟩
    · simp [himages, setFile, OutFile.write]
  · refine ⟨g.currentImgId, [], fun line hline => absurd hline List.not_mem_nil, ?_⟩
    simp [himages]

/-- What an image does to the file of thread 0: a thread that has finished loses it. -/
theorem Kept.image {run' : List (Process × Event)} {blocks : List Block} {f : Profile}
    {phase : Phase} (h : Kept run blocks 0 f phase)
    (hexecutions : executions run' 0 = executions run 0)
    (hrestarted : Restarted run' 0 ↔ Restarted run 0 ∨ phase = .finished) {added : List Line}
    (hadded : ∀ line ∈ added, isPlain line = true ∧ idOf line = none) :
    Kept run' blocks 0 ⟨⟨true, (if f.bbFile.isOpen then f.bbFile.lines else []) ++ added⟩,
      f.globalInstructionCount⟩ phase := by
  have haddedPlain : ∀ line ∈ added, isPlain line = true := fun line hline => (hadded line hline).1
  have haddedIds : added.filterMap idOf = [] :=
    List.filterMap_eq_nil_iff.mpr fun line hline => (hadded line hline).2
  have hplain : (∀ line ∈ f.bbFile.lines, isPlain line = true) →
      ∀ line ∈ f.bbFile.lines ++ added, isPlain line = true := by
    intro hf line hline
    exact (List.mem_append.mp hline).elim (hf line) (haddedPlain line)
  cases phase with
  | fresh =>
      obtain ⟨hnone, hpending⟩ := h
      refine ⟨hexecutions.trans hnone, ?_, ?_, hpending.uncounted⟩
      · cases f.bbFile.isOpen with
        | false => exact haddedPlain
        | true => exact hplain hpending.plain
      · cases f.bbFile.isOpen with
        | false => exact haddedIds
        | true => simpa [List.filterMap_append, haddedIds] using hpending.ids
  | live =>
      obtain ⟨hopen, hpending⟩ := h
      simp only [hopen, if_true]
      refine ⟨rfl, hplain hpending.plain, ?_, hpending.uncounted⟩
      rw [List.filterMap_append, haddedIds, List.append_nil, hexecutions]
      exact hpending.ids
  | finished =>
      refine ⟨fun _ => ?_, fun hnot => absurd (hrestarted.mpr (.inr rfl)) hnot⟩
      simp only
      rw [List.filterMap_append, countOf_of_plain haddedPlain, List.append_nil]
      by_cases hbefore : Restarted run 0
      · have hcounts := h.1 hbefore
        cases f.bbFile.isOpen with
        | false => rfl
        | true => exact hcounts
      · rw [(h.2 hbefore).1]
        rfl

theorem Consistent.image (h : Consistent run p) (name : String) (low offset : UInt64)
    (aborted : Bool) : Consistent (run ++ [(p, .image name low offset)])
      { p with globals := (p.globals.image name low offset).1, aborted := aborted } := by
  obtain ⟨imgId, added, hadded, heq⟩ := image_spec p.globals name low offset
  have hexecutions : ∀ t, executions (run ++ [(p, .image name low offset)]) t = executions run t :=
    executions_of_idle nofun
  have hnodup := h.numbered.nodup
  rw [heq]
  apply h.files hexecutions
  · intro t
    by_cases ht : t = 0
    · subst ht
      simp only [Function.update_self]
      refine (h.kept 0).image (hexecutions 0) ?_ hadded
      simp [restarted_append, LateImage]
    · simp only [Function.update_of_ne ht]
      refine (h.kept t).frame (hexecutions t) ?_ (grown_refl _) hnodup hnodup
      simp [restarted_append, ht]
  · intro t ht
    rw [restarted_append] at ht
    cases ht with
    | inl hbefore => exact h.restarted t hbefore
    | inr hlate => exact hlate.1 ▸ hlate.2.1

/-! ## Instrumentation -/

theorem Consistent.instrument (h : Consistent run p) (bbls : List Bbl) :
    Consistent (run ++ [(p, .instrument bbls)])
      { p with
        globals := (p.globals.trace [] bbls).1
        codeCache := p.codeCache ++ (p.globals.trace [] bbls).2 } := by
  have hexecutions : ∀ t, executions (run ++ [(p, .instrument bbls)]) t = executions run t :=
    executions_of_idle nofun
  have hrestarted : ∀ t, Restarted (run ++ [(p, .instrument bbls)]) t ↔ Restarted run t :=
    restarted_of_noImage nofun
  have hcached : Numbered p.globals (p.codeCache ++ []) := by
    rw [List.append_nil]
    exact h.numbered
  obtain ⟨hnumbered, hextends⟩ := hcached.trace bbls []
  generalize (p.globals.trace [] bbls).1 = g at hnumbered hextends ⊢
  have hgrown := hextends.grown
  obtain ⟨new, hnew, hzero⟩ := hextends.blocks
  constructor
  · exact hnumbered
  · intro b hb t
    rw [hexecutions]
    simp only at hb
    rw [hnew] at hb
    cases List.mem_append.mp hb with
    | inl hold => exact h.counted b hold t
    | inr hb =>
        -- A new block has a number that no thread has written yet.
        rw [hzero b hb t, eq_comm, List.count_eq_zero]
        intro hid
        obtain ⟨e, he, hid⟩ := List.mem_map.mp hid
        obtain ⟨b', hb', hid', -⟩ := h.named t e he
        have hnodup := hnumbered.nodup
        rw [hnew, List.map_append] at hnodup
        have hdisjoint := (List.nodup_append.mp hnodup).2.2
        exact hdisjoint _ (List.mem_map_of_mem hb') _ (List.mem_map_of_mem hb) (hid'.trans hid)
  · intro t e he
    rw [hexecutions] at he
    obtain ⟨b, hb, hnamed⟩ := h.named t e he
    exact ⟨b, by simp [hnew, hb], hnamed⟩
  · intro t
    simp only
    rw [hextends.profiles]
    exact (h.kept t).frame (hexecutions t) (hrestarted t) hgrown h.numbered.nodup hnumbered.nodup
  · intro t ht
    exact h.restarted t ((hrestarted t).mp ht)

/-! ## Threads that start and finish -/

theorem Consistent.threadStart (h : Consistent run p) {tid : ℕ} (hfresh : p.phase tid = .fresh) :
    Consistent (run ++ [(p, .threadStart tid)])
      { p with
        globals := p.globals.threadStart tid
        phase := Function.update p.phase tid .live } := by
  have hexecutions : ∀ t, executions (run ++ [(p, .threadStart tid)]) t = executions run t :=
    executions_of_idle nofun
  have hrestarted : ∀ t, Restarted (run ++ [(p, .threadStart tid)]) t ↔ Restarted run t :=
    restarted_of_noImage nofun
  have hnodup := h.numbered.nodup
  have hkept := h.kept tid
  rw [hfresh] at hkept
  obtain ⟨hnone, hpending⟩ := hkept
  obtain ⟨f, hstart, hopen, hblank⟩ : ∃ f, p.globals.threadStart tid =
      { p.globals with profiles := Function.update p.globals.profiles tid f } ∧
        f.bbFile.isOpen = true ∧ Pending f [] := by
    unfold Globals.threadStart
    cases hopen : (p.globals.profiles tid).bbFile.isOpen with
    | true => exact ⟨p.globals.profiles tid, by simp, hopen, hpending⟩
    | false =>
        refine ⟨_, rfl, rfl, ⟨?_, rfl, hpending.uncounted⟩⟩
        exact fun line hline => absurd hline List.not_mem_nil
  rw [hstart]
  apply h.files hexecutions
  · intro t
    by_cases ht : t = tid
    · subst ht
      simp only [Function.update_self]
      exact ⟨hopen, by rw [hexecutions, hnone]; exact hblank⟩
    · simp only [Function.update_of_ne ht]
      exact (h.kept t).frame (hexecutions t) (hrestarted t) (grown_refl _) hnodup hnodup
  · intro t ht
    have hfinished := h.restarted t ((hrestarted t).mp ht)
    have hne : t ≠ tid := fun heq => by simp [heq, hfresh] at hfinished
    simpa [Function.update_of_ne hne] using hfinished

/-- The file of a thread that finishes: the summary is written over all blocks. -/
theorem Consistent.threadFini_spec (h : Consistent run p) {tid : ℕ} (hlive : p.phase tid = .live) :
    ∃ lines count, p.globals.threadFini tid =
      ({ p.globals with
          profiles := Function.update p.globals.profiles tid ⟨⟨false, lines⟩, count⟩ }, true) ∧
        Agrees p.globals.blocks (executions run tid) lines := by
  have hkept := h.kept tid
  rw [hlive] at hkept
  obtain ⟨hopen, hpending⟩ := hkept
  have hloop := foldl_emitBlock hopen p.globals.blockMap h.numbered.keyed
  obtain ⟨hlines, hcount⟩ := summary_perm tid h.numbered.mapped
  rw [hcount] at hloop
  have hagrees := agrees_of_summary hpending.plain hpending.ids (h.named tid) h.numbered.nodup
    (fun b hb => h.counted b hb tid) hlines
  refine ⟨_, (p.globals.blocks.map (fun b =>
    b.globalBlockCount tid * b.staticInstructionCount)).sum, ?_, hagrees⟩
  simp [Globals.threadFini, hopen, emitProgramEnd, hloop, emitted, setFile, OutFile.write,
    OutFile.close, hpending.uncounted]

theorem Consistent.threadFini (h : Consistent run p) {tid : ℕ} (hlive : p.phase tid = .live) :
    Consistent (run ++ [(p, .threadFini tid)])
      { p with
        globals := (p.globals.threadFini tid).1
        phase := Function.update p.phase tid .finished
        aborted := !(p.globals.threadFini tid).2 } := by
  have hexecutions : ∀ t, executions (run ++ [(p, .threadFini tid)]) t = executions run t :=
    executions_of_idle nofun
  have hrestarted : ∀ t, Restarted (run ++ [(p, .threadFini tid)]) t ↔ Restarted run t :=
    restarted_of_noImage nofun
  have hnodup := h.numbered.nodup
  obtain ⟨lines, count, hfini, hagrees⟩ := h.threadFini_spec hlive
  rw [hfini]
  apply h.files hexecutions
  · intro t
    by_cases ht : t = tid
    · subst ht
      simp only [Function.update_self]
      refine ⟨fun hr => ?_, fun _ => ⟨rfl, by rw [hexecutions]; exact hagrees⟩⟩
      have hfinished := h.restarted t ((hrestarted t).mp hr)
      simp [hlive] at hfinished
    · simp only [Function.update_of_ne ht]
      exact (h.kept t).frame (hexecutions t) (hrestarted t) (grown_refl _) hnodup hnodup
  · intro t ht
    by_cases heq : t = tid
    · simp [heq]
    · simpa [Function.update_of_ne heq] using h.restarted t ((hrestarted t).mp ht)

/-! ## Executions of blocks -/

theorem getElem?_execute {blocks : List Block} (block tid : ℕ) {i : ℕ} {b : Block}
    (hb : blocks[i]? = some b) :
    (blocks.modify block (fun b => b.execute tid))[i]? =
      some (if block = i then b.execute tid else b) := by
  rw [List.getElem?_modify, hb]
  split <;> rfl

theorem sameBlock_execute (b : Block) (tid : ℕ) (c : Prop) [Decidable c] :
    SameBlock b (if c then b.execute tid else b) := by
  split
  · exact ⟨rfl, rfl, rfl⟩
  · exact ⟨rfl, rfl, rfl⟩

theorem Numbered.execute {g : Globals} {calls : List (Bbl × BlockPtr)} (h : Numbered g calls)
    (block tid : ℕ) (profiles : ℕ → Profile) :
    Numbered { g with
      blocks := g.blocks.modify block (fun b => b.execute tid)
      profiles := profiles } calls := by
  constructor
  · simp only [List.length_modify]
    rw [← h.ids]
    exact map_modify_of_eq (f := fun b => b.execute tid) (g := Block.id) (fun _ => rfl)
      g.blocks block
  · simp only [List.length_modify]
    exact h.next
  · simp only [List.length_modify]
    exact h.mapped
  · intro entry hentry
    obtain ⟨b, hb, hkey⟩ := h.keyed entry hentry
    exact ⟨_, getElem?_execute block tid hb, (sameBlock_execute b tid _).key.trans hkey⟩
  · exact h.proper
  · intro c hc
    obtain ⟨b, hb, hstart, hend⟩ := h.called c hc
    have hkey := (sameBlock_execute b tid (block = c.2)).key
    exact ⟨_, getElem?_execute block tid hb, hkey ▸ hstart, hkey ▸ hend⟩

theorem grown_execute (blocks : List Block) (block tid : ℕ) :
    Grown blocks (blocks.modify block (fun b => b.execute tid)) := by
  intro b hb
  obtain ⟨i, hi⟩ := List.mem_iff_getElem?.mp hb
  exact ⟨_, List.mem_of_getElem? (getElem?_execute block tid hi), sameBlock_execute b tid _⟩

/-- The count of a block for a thread goes up if the thread has executed that block. -/
theorem Numbered.count_execute {g : Globals} {calls : List (Bbl × BlockPtr)}
    (h : Numbered g calls) {block tid i : ℕ} {b c : Block} (hb : g.blocks[block]? = some b)
    (hc : g.blocks[i]? = some c) (t : ℕ) :
    (if block = i then c.execute tid else c).globalBlockCount t =
      c.globalBlockCount t + if tid = t ∧ b.id = c.id then 1 else 0 := by
  by_cases hcalled : block = i
  · obtain rfl : c = b := Option.some.inj (hc.symm.trans (hcalled ▸ hb))
    rw [if_pos hcalled]
    by_cases ht : tid = t
    · simp [Block.execute, ht]
    · simp [Block.execute, ht, Function.update_of_ne (Ne.symm ht)]
  · have hne : b.id ≠ c.id := by
      rw [h.id_eq hb, h.id_eq hc]
      exact fun heq => hcalled (Nat.succ.inj heq)
    simp [hcalled, hne]

/-- The number of one more block is written. -/
theorem Pending.write {f : Profile} {executed : List (Bbl × ℕ)} (h : Pending f executed)
    (hopen : f.bbFile.isOpen = true) (bbl : Bbl) (id : ℕ) :
    Pending { f with bbFile := f.bbFile.write (.id id) } (executed ++ [(bbl, id)]) := by
  simp only [OutFile.write, hopen, if_true]
  constructor
  · intro line hline
    cases List.mem_append.mp hline with
    | inl hold => exact h.plain line hold
    | inr hnew =>
        rw [List.mem_singleton.mp hnew]
        rfl
  · simp [List.filterMap_append, h.ids, idOf]
  · exact h.uncounted

/-- A live thread executes a block: its count goes up, and its number is written. -/
theorem executions_execute {tid position : ℕ} {call : Bbl × BlockPtr}
    (hcall : p.codeCache[position]? = some call) {b : Block}
    (hb : p.globals.blocks[call.2]? = some b) (t : ℕ) :
    executions (run ++ [(p, .execute tid position)]) t =
      executions run t ++ if tid = t then [(call.1, b.id)] else [] := by
  rw [executions_append]
  by_cases ht : tid = t <;> simp [executionBy, hcall, hb, ht]

/-- `countBlock` counts in the block and writes its number to the file of the thread. -/
theorem countBlock_eq (g : Globals) {block : BlockPtr} {b : Block}
    (hb : g.blocks[block]? = some b) (tid : ℕ) :
    g.countBlock block tid = { g with
      blocks := g.blocks.modify block (fun b => b.execute tid)
      profiles := Function.update g.profiles tid
        { g.profiles tid with bbFile := (g.profiles tid).bbFile.write (.id b.id) } } := by
  simp [countBlock, hb, setFile, Block.execute]

theorem Consistent.execute (h : Consistent run p) {tid position : ℕ} {call : Bbl × BlockPtr}
    (hlive : p.phase tid = .live) (hcall : p.codeCache[position]? = some call) :
    Consistent (run ++ [(p, .execute tid position)])
      { p with globals := p.globals.countBlock call.2 tid } := by
  obtain ⟨b, hb, hstart, hend⟩ := h.numbered.called call (List.mem_of_getElem? hcall)
  have hexecutions : ∀ t, executions (run ++ [(p, .execute tid position)]) t =
      executions run t ++ if tid = t then [(call.1, b.id)] else [] :=
    executions_execute hcall hb
  have hrestarted : ∀ t, Restarted (run ++ [(p, .execute tid position)]) t ↔ Restarted run t :=
    restarted_of_noImage nofun
  have hgrown := grown_execute p.globals.blocks call.2 tid
  have hnumbered := h.numbered.execute call.2 tid (Function.update p.globals.profiles tid
    { p.globals.profiles tid with
      bbFile := (p.globals.profiles tid).bbFile.write (.id b.id) })
  rw [countBlock_eq p.globals hb]
  constructor
  · exact hnumbered
  · intro c' hc' t
    obtain ⟨i, hi⟩ := List.mem_iff_getElem?.mp hc'
    have hlength : i < p.globals.blocks.length := by
      simpa using (List.getElem?_eq_some_iff.mp hi).1
    have hc := List.getElem?_eq_getElem hlength
    generalize p.globals.blocks[i] = c at hc
    simp only [getElem?_execute call.2 tid hc, Option.some.injEq] at hi
    rw [← hi, h.numbered.count_execute hb hc t, (sameBlock_execute c tid _).id,
      h.counted c (List.mem_of_getElem? hc) t, hexecutions, List.map_append, List.count_append]
    by_cases ht : tid = t
    · simp [ht, List.count_singleton]
    · simp [ht]
  · intro t e he
    rw [hexecutions] at he
    obtain ⟨c, hc, hid, haddresses⟩ : ∃ c ∈ p.globals.blocks,
        c.id = e.2 ∧ c.key.start = e.1.insHead ∧ c.key.end_ = e.1.insTail := by
      cases List.mem_append.mp he with
      | inl hold => exact h.named t e hold
      | inr hnew =>
          have he : e = (call.1, b.id) := by
            by_cases ht : tid = t
            · simpa [ht] using hnew
            · simp [ht] at hnew
          rw [he]
          exact ⟨b, List.mem_of_getElem? hb, rfl, hstart, hend⟩
    obtain ⟨c', hc', hsame⟩ := hgrown c hc
    exact ⟨c', hc', hsame.id.trans hid, hsame.key ▸ haddresses⟩
  · intro t
    by_cases ht : t = tid
    · subst ht
      have hkept := h.kept t
      rw [hlive] at hkept
      obtain ⟨hopen, hpending⟩ := hkept
      simp only [Function.update_self, hlive]
      refine ⟨by simp [OutFile.write, hopen], ?_⟩
      rw [hexecutions, if_pos rfl]
      exact hpending.write hopen call.1 b.id
    · simp only [Function.update_of_ne ht]
      refine (h.kept t).frame ?_ (hrestarted t) hgrown h.numbered.nodup hnumbered.nodup
      simp [hexecutions, Ne.symm ht]
  · intro t ht
    exact h.restarted t ((hrestarted t).mp ht)

/-! ## Runs -/

theorem Consistent.step (h : Consistent run p) {p' : Process} (hstep : p.step e = some p') :
    Consistent (run ++ [(p, e)]) p' := by
  unfold Process.step at hstep
  split at hstep
  · cases hstep
  · cases e with
    | image name low offset =>
        cases hstep
        exact h.image name low offset _
    | instrument bbls =>
        cases hstep
        exact h.instrument bbls
    | threadStart tid =>
        simp only at hstep
        split at hstep
        · rename_i hstart
          cases hstep
          exact h.threadStart hstart.2
        · cases hstep
    | threadFini tid =>
        simp only at hstep
        split at hstep
        · rename_i hlive
          cases hstep
          exact h.threadFini hlive
        · cases hstep
    | execute tid position =>
        simp only at hstep
        split at hstep
        · rename_i call hlive hcall
          cases hstep
          exact h.execute hlive hcall
        · cases hstep

end Frames

variable {run : List (Process × Event)} {p : Process}

theorem consistent_of_run (hrun : Run Process.step Process.initial run p) : Consistent run p := by
  induction hrun with
  | refl => exact consistent_initial
  | step _ hs ih => exact ih.step hs

/-- The file of a finished thread agrees with its executions exactly unless the thread is
the first one and an image has been loaded after it finished. -/
theorem agrees_of_run_iff (hrun : Run Process.step Process.initial run p) {t : ℕ}
    (hfinished : p.phase t = .finished) :
    Agrees p.globals.blocks (executions run t) (p.globals.profiles t).bbFile.lines ↔
      ¬ (t = 0 ∧ ∃ s ∈ run, LateImage s) := by
  have hkept := (consistent_of_run hrun).kept t
  rw [hfinished] at hkept
  constructor
  · intro hagrees hrestarted
    have hnone := hkept.1 hrestarted
    rw [hagrees.instructions] at hnone
    cases hnone
  · intro hnot
    exact (hkept.2 hnot).2

/-- A loop body of two instructions. -/
def loopBody : Bbl := ⟨0x400000, 0x400004, 6, 2, by decide, by decide⟩

/-- A thread that runs the loop twice after the image is loaded. -/
theorem agrees_of_run_iff_loop :
    ∃ run p, Run Process.step Process.initial run p ∧ p.phase 0 = .finished ∧
      (Agrees p.globals.blocks (executions run 0) (p.globals.profiles 0).bbFile.lines ↔
        ¬ (0 = 0 ∧ ∃ s ∈ run, LateImage s)) := by
  have hsome : (record Process.step Process.initial [.image "a.out" 0x400000 0, .threadStart 0,
      .instrument [loopBody], .execute 0 0, .execute 0 0, .threadFini 0]).any
        (fun run => run.2.phase 0 = .finished) = true := by
    decide +kernel
  obtain ⟨run, p, hrun, hphase⟩ := exists_run_of_record hsome
  exact ⟨run, p, hrun, hphase, agrees_of_run_iff hrun hphase⟩

/-- An image that another thread loads empties the file of the finished thread 0. -/
theorem agrees_fails :
    ¬ ∀ run p t, Run Process.step Process.initial run p → p.phase t = .finished →
      Agrees p.globals.blocks (executions run t) (p.globals.profiles t).bbFile.lines := by
  intro h
  have hsome : (record Process.step Process.initial [.threadStart 0, .threadStart 1,
      .instrument [loopBody], .execute 0 0, .threadFini 0, .image "libm.so" 0x500000 0]).any
        (fun run => run.2.phase 0 = .finished ∧ (run.2.globals.profiles 0).bbFile.lines =
          [.image "libm.so" 0x500000 0]) = true := by
    decide +kernel
  obtain ⟨run, p, hrun, hphase, hlines⟩ := exists_run_of_record hsome
  have hcount := (h run p 0 hrun hphase).instructions
  rw [hlines] at hcount
  cases hcount

end CProfiler.PinTools
