import CProfiler.Verification.Disass.Retry

/-! # Chains of basic blocks

Without `to` the range of `get_basic_block` ends where the number of bytes read says, and
`get_basic_blocks` goes on at the number of instructions. -/

namespace CProfiler.Disass

open CProfiler.Foundation CProfiler.Model

variable {ι : Type} (d : LocalDecoder ι) (env : Surroundings) (m : ElfModule)

/-! ## A block without `to` -/

/-- The bytes of the file from an offset on. -/
def fileFrom (offset k : ℕ) : UInt8 := m.contents.getD (offset + k) 0

/-- The instructions that lie one behind the other in the bytes `[offset, stop)` of the file. -/
def Instructions (offset stop : ℕ) (is : List ι) : Prop :=
  Tiling (fitting d.toDecoder (fileFrom m offset) (stop - offset)) d.length 0 is

/-- The number of bytes that a request at the offset reads. Without `to` it is taken for the
end of the range. -/
def readEnd (offset chunkSize : ℕ) : ℕ := min chunkSize (m.contents.length - offset)

/-- The instructions of the block at the offset: those before the end of the first request,
or, when there are none, before the end of the second. -/
def OpenBlock (offset : ℕ) (is : List ι) : Prop :=
  offset ≤ readEnd m offset 64 ∧ is ≠ [] ∧
    (Instructions d m offset (readEnd m offset 64) is ∨
      Instructions d m offset (readEnd m offset 64) [] ∧
        Instructions d m offset (readEnd m offset 128) is)

variable {m} {offset : ℕ}

theorem chunkLength_none (chunkSize : ℕ) :
    chunkLength m offset none chunkSize = (readEnd m offset chunkSize : ℤ) - offset := by
  rw [chunkLength, blockLength, length_chunkBytes, readEnd]

theorem converts_none_iff (chunkSize : ℕ) :
    Converts m offset none chunkSize ↔ offset ≤ readEnd m offset chunkSize ∧
      readEnd m offset chunkSize - offset < 2 ^ 32 ∧ offset < 2 ^ 32 := by
  rw [Converts, chunkLength_none]
  omega

theorem chunkMemory_eq_fileFrom {chunkSize k : ℕ} (hk : k < readEnd m offset chunkSize) :
    chunkMemory env m offset chunkSize k = fileFrom m offset k := by
  rw [readEnd] at hk
  rw [chunkMemory, Surroundings.memory, chunkBytes, fileFrom, List.getD_eq_getElem?_getD,
    List.getD_eq_getElem?_getD, List.getElem?_take_of_lt (by omega), List.getElem?_drop,
    List.getElem?_eq_getElem (by omega : offset + k < m.contents.length)]
  rfl

theorem size_eq_zero_iff_nil {l : InstList ι} : l.size = 0 ↔ l.instArray = [] :=
  List.length_eq_zero_iff

theorem turnOf_eq_done_iff {chunkSize : ℕ} {bb l : InstList ι} :
    .done (.ok l) = turnOf chunkSize bb ↔ l = bb ∧ bb.instArray ≠ [] := by
  rw [turnOf]
  split_ifs with hsize
  · simp [size_eq_zero_iff_nil.mp hsize]
  · simp [mt size_eq_zero_iff_nil.mpr hsize]

theorem turnOf_eq_next_iff {chunkSize next : ℕ} {bb : InstList ι} :
    .next next = turnOf chunkSize bb ↔ next = chunkSize * 2 ∧ bb.instArray = [] := by
  rw [turnOf]
  split_ifs with hsize
  · simp [size_eq_zero_iff_nil.mp hsize]
  · simp [mt size_eq_zero_iff_nil.mpr hsize]

theorem instructions_nil_iff {stop : ℕ} :
    Instructions d m offset stop [] ↔
      d.decode (window (fileFrom m offset) 0 (stop - offset)) = none :=
  Tiling.nil_iff

/-- A request whose end is not before the offset is disassembled up to there. -/
theorem exists_turnEnds_none {chunkSize : ℕ} (hreads : Reads env chunkSize)
    (hchunk : chunkSize < 2 ^ 32 - 1) (hle : offset ≤ readEnd m offset chunkSize) :
    ∃ bb, bb.base = offset ∧ Instructions d m offset (readEnd m offset chunkSize) bb.instArray ∧
      TurnEnds (getBasicBlockTurn d.toDecoder env m offset none) chunkSize
        (turnOf chunkSize bb) := by
  have hend : readEnd m offset chunkSize ≤ chunkSize := Nat.min_le_left _ _
  obtain ⟨bb, hbb, hbase, htiling⟩ :=
    disassemble_tiling d (chunkMemory env m offset chunkSize) offset
      (show readEnd m offset chunkSize - offset < 2 ^ 32 - 1 by omega)
  refine ⟨bb, hbase, ?_, (turnEnds_iff d.toDecoder env m offset none).mpr (.inr
    ⟨hreads, (converts_none_iff chunkSize).mpr ⟨hle, by omega, by omega⟩, bb, ?_, rfl⟩)⟩
  · have hread : ∀ off, fitting d.toDecoder (chunkMemory env m offset chunkSize)
        (readEnd m offset chunkSize - offset) off =
        fitting d.toDecoder (fileFrom m offset) (readEnd m offset chunkSize - offset) (0 + off) :=
      fun off => by
        rw [Nat.zero_add, fitting, fitting,
          window_congr fun k hk => chunkMemory_eq_fileFrom env (by omega)]
    exact htiling.shift hread
  · rw [chunkLength_none]
    convert hbb using 1
    omega

/-- When even the second request holds no instruction at the offset, no larger one does. -/
theorem decode_eq_none (hoff : offset ≤ readEnd m offset 64)
    (hnone : Instructions d m offset (readEnd m offset 128) []) {chunkSize n : ℕ}
    (hn : n ≤ readEnd m offset chunkSize - offset) :
    d.decode (window (chunkMemory env m offset chunkSize) 0 n) = none := by
  by_contra hsome
  obtain ⟨i, hi⟩ := Option.ne_none_iff_exists'.mp hsome
  have hlength := d.length_le hi
  have hin := d.length_le_of_decode hi
  have hown := d.decode_window hi (le_refl (d.length i))
  have hwindow : window (chunkMemory env m offset chunkSize) 0 (d.length i) =
      window (fileFrom m offset) 0 (d.length i) :=
    window_congr fun k hk => by
      rw [Nat.zero_add]
      exact chunkMemory_eq_fileFrom env (by omega)
  rw [hwindow] at hown
  have hwide := d.decode_window (m := readEnd m offset 128 - offset) hown (by
    simp only [readEnd] at *
    omega)
  rw [(instructions_nil_iff d).mp hnone] at hwide
  cases hwide

/-- Then no turn ends with a list. -/
theorem not_turnEnds_ok (hoff : offset ≤ readEnd m offset 64)
    (hnone : Instructions d m offset (readEnd m offset 128) []) {chunkSize : ℕ}
    {l : InstList ι} :
    ¬ TurnEnds (getBasicBlockTurn d.toDecoder env m offset none) chunkSize (.done (.ok l)) := by
  intro hturn
  rcases (turnEnds_iff d.toDecoder env m offset none).mp hturn with
    ⟨-, hdone⟩ | ⟨-, hconv, bb, hbb, hdone⟩
  · cases hdone
  obtain ⟨hle, hlen, -⟩ := (converts_none_iff chunkSize).mp hconv
  have hlength : (chunkLength m offset none chunkSize).toNat =
      readEnd m offset chunkSize - offset := by
    rw [chunkLength_none]
    omega
  rw [hlength] at hbb
  have hnothing : ∀ n, n ≤ readEnd m offset chunkSize - offset →
      d.decode (window (chunkMemory env m offset chunkSize) 0 n) = none :=
    fun n hn => decode_eq_none d env hoff hnone hn
  have hzero : bb.size = 0 := by
    rcases Nat.lt_or_ge (readEnd m offset chunkSize - offset) (2 ^ 32 - 1) with hshort | hlong
    · exact (size_eq_zero_iff _ _ _ hshort hbb).mpr fun n _ hn => hnothing n hn
    · -- the longest range is never left from its first position
      have hring : readEnd m offset chunkSize - offset = 2 ^ 32 - 1 := by omega
      rw [hring] at hbb hnothing
      have hpath := (exists_disassembles_iff_ringPath _ _ offset).mp ⟨bb, hbb⟩
      rcases Relation.ReflTransGen.cases_head hpath with hzero | ⟨q, ⟨n, -, -, -, hdec, -⟩, -⟩
      · cases hzero
      · exact absurd (hnothing (n % 2 ^ 32) (by omega)) hdec
  exact (turnOf_eq_done_iff.mp hdone).2 (size_eq_zero_iff_nil.mp hzero)

section

variable {sec : Section} (hsec : m.elf.getSectionByOffset offset = .ok sec)
  (hreads : Reads env 128)

include hsec hreads

/-- What `get_basic_block(module, offset)` returns is the block at the offset. -/
theorem openBlock_of_gets {l : InstList ι}
    (h : GetsBasicBlock d.toDecoder env m offset none (.ok l)) :
    l.base = offset ∧ OpenBlock d m offset l.instArray := by
  have hsteady := steady_getBasicBlockTurn d.toDecoder env m offset none
  have hreads' : Reads env 64 := fun limit hlimit => le_trans (by decide) (hreads limit hlimit)
  rw [getsBasicBlock_iff _ _ _ _ _ hsec] at h
  by_cases hoff : offset ≤ readEnd m offset 64
  · have hoff' : offset ≤ readEnd m offset 128 := by
      simp only [readEnd] at *
      omega
    obtain ⟨bb, hbase, hfirst, hturn⟩ := exists_turnEnds_none d env hreads' (by decide) hoff
    obtain ⟨bb', hbase', hsecond, hturn'⟩ := exists_turnEnds_none d env hreads (by decide) hoff'
    rcases h.cases with hdone | ⟨next, hnext, hrest⟩
    · obtain ⟨rfl, hne⟩ := turnOf_eq_done_iff.mp (hdone.unique hsteady hturn)
      exact ⟨hbase, hoff, hne, .inl hfirst⟩
    · obtain ⟨rfl, hnil⟩ := turnOf_eq_next_iff.mp (hnext.unique hsteady hturn)
      rw [hnil] at hfirst
      rcases hrest.cases with hdone | ⟨next, hnext, hrest⟩
      · obtain ⟨rfl, hne⟩ := turnOf_eq_done_iff.mp (hdone.unique hsteady hturn')
        exact ⟨hbase', hoff, hne, .inr ⟨hfirst, hsecond⟩⟩
      · obtain ⟨-, hnil'⟩ := turnOf_eq_next_iff.mp (hnext.unique hsteady hturn')
        rw [hnil'] at hsecond
        obtain ⟨chunkSize, -, hdone⟩ := hrest.last
        exact absurd hdone (not_turnEnds_ok d env hoff hsecond)
  · rcases h.cases with hdone | ⟨next, hnext, -⟩
    · rcases (turnEnds_iff _ env m offset none).mp hdone with ⟨-, heq⟩ | ⟨-, hconv, -⟩
      · cases heq
      · exact absurd ((converts_none_iff 64).mp hconv).1 hoff
    · rcases (turnEnds_iff _ env m offset none).mp hnext with ⟨-, heq⟩ | ⟨-, hconv, -⟩
      · cases heq
      · exact absurd ((converts_none_iff 64).mp hconv).1 hoff

/-- The block at the offset is found. -/
theorem exists_gets_of_openBlock {is : List ι} (h : OpenBlock d m offset is) :
    ∃ l : InstList ι, GetsBasicBlock d.toDecoder env m offset none (.ok l) ∧
      l.base = offset ∧ l.instArray = is := by
  have hsteady := steady_getBasicBlockTurn d.toDecoder env m offset none
  have hreads' : Reads env 64 := fun limit hlimit => le_trans (by decide) (hreads limit hlimit)
  obtain ⟨hoff, hne, his⟩ := h
  have hoff' : offset ≤ readEnd m offset 128 := by
    simp only [readEnd] at *
    omega
  obtain ⟨bb, hbase, hfirst, hturn⟩ := exists_turnEnds_none d env hreads' (by decide) hoff
  obtain ⟨bb', hbase', hsecond, hturn'⟩ := exists_turnEnds_none d env hreads (by decide) hoff'
  simp only [getsBasicBlock_iff _ _ _ _ _ hsec]
  rcases his with his | ⟨hnil, his⟩
  · obtain rfl := hfirst.unique his
    rw [← turnOf_eq_done_iff.mpr ⟨rfl, hne⟩] at hturn
    exact ⟨bb, .of_done hturn, hbase, rfl⟩
  · have hempty := hfirst.unique hnil
    obtain rfl := hsecond.unique his
    rw [← turnOf_eq_next_iff.mpr ⟨rfl, hempty⟩] at hturn
    rw [← turnOf_eq_done_iff.mpr ⟨rfl, hne⟩] at hturn'
    exact ⟨bb', .of_next hsteady hturn (.of_done hturn'), hbase', rfl⟩

end

/-! ## The chain -/

theorem located_of_gets {l : InstList ι} {toOffset : Option ℤ}
    (h : GetsBasicBlock d.toDecoder env m offset toOffset (.ok l)) :
    ∃ sec, m.elf.getSectionByOffset offset = .ok sec := by
  obtain ⟨fuel, hfuel⟩ := h
  rw [getBasicBlock] at hfuel
  cases hsec : m.elf.getSectionByOffset offset with
  | ok sec => exact ⟨sec, rfl⟩
  | error e =>
      rw [hsec] at hfuel
      cases hfuel

theorem getBasicBlock_mono {fuel fuel' : ℕ} (hle : fuel ≤ fuel') {toOffset : Option ℤ}
    {r : Except PyError (InstList ι)}
    (h : getBasicBlock d.toDecoder env m offset toOffset fuel = some r) :
    getBasicBlock d.toDecoder env m offset toOffset fuel' = some r := by
  rw [getBasicBlock] at h ⊢
  cases hsec : m.elf.getSectionByOffset offset with
  | ok sec =>
      rw [hsec] at h
      exact runNested_mono (steady_getBasicBlockTurn _ env m offset toOffset) hle h
  | error e =>
      rw [hsec] at h
      exact h

section

variable (m) (stop : ℕ)

theorem steady_getBasicBlocksTurn : Steady (getBasicBlocksTurn d.toDecoder env m stop) := by
  intro fuel fuel' s t hle h
  rw [getBasicBlocksTurn] at h ⊢
  split_ifs at h ⊢ with hguard
  · obtain ⟨r, hr, ht⟩ := Option.map_eq_some_iff.mp h
    exact Option.map_eq_some_iff.mpr ⟨r, getBasicBlock_mono d env hle hr, ht⟩
  · exact h

variable {m stop}

/-- Before `stop` a turn raises with `get_basic_block` or appends its block. -/
theorem turnEnds_blocks_iff {s : BlocksState ι} (hlt : s.curStart < stop)
    {t : Turn (BlocksState ι) (Except PyError (List (InstList ι)))} :
    TurnEnds (getBasicBlocksTurn d.toDecoder env m stop) s t ↔
      (∃ e, GetsBasicBlock d.toDecoder env m s.curStart none (.error e) ∧
        t = .done (.error e)) ∨
      ∃ bb, GetsBasicBlock d.toDecoder env m s.curStart none (.ok bb) ∧
        t = .next ⟨bb.size, s.ret ++ [bb]⟩ := by
  simp only [TurnEnds, getBasicBlocksTurn, if_pos hlt, Option.map_eq_some_iff]
  constructor
  · rintro ⟨fuel, r, hr, rfl⟩
    cases r with
    | error e => exact .inl ⟨e, ⟨fuel, hr⟩, rfl⟩
    | ok bb => exact .inr ⟨bb, ⟨fuel, hr⟩, rfl⟩
  · rintro (⟨e, ⟨fuel, hr⟩, rfl⟩ | ⟨bb, ⟨fuel, hr⟩, rfl⟩)
    · exact ⟨fuel, _, hr, rfl⟩
    · exact ⟨fuel, _, hr, rfl⟩

theorem turnEnds_blocks_stop_iff {s : BlocksState ι} (hge : stop ≤ s.curStart)
    {t : Turn (BlocksState ι) (Except PyError (List (InstList ι)))} :
    TurnEnds (getBasicBlocksTurn d.toDecoder env m stop) s t ↔ t = .done (.ok s.ret) := by
  simp only [TurnEnds, getBasicBlocksTurn, if_neg (Nat.not_lt.mpr hge), Option.some.injEq,
    exists_const]
  exact eq_comm

/-- The blocks found so far stay at the front. -/
theorem prefix_of_reached {s t : BlocksState ι}
    (h : ReachedNested (getBasicBlocksTurn d.toDecoder env m stop) s t) : s.ret <+: t.ret := by
  induction h with
  | start => exact List.prefix_rfl
  | @next t u _ hturn ih =>
      rcases Nat.lt_or_ge t.curStart stop with hlt | hge
      · rcases (turnEnds_blocks_iff d env hlt).mp hturn with ⟨e, -, heq⟩ | ⟨bb, -, heq⟩
        · cases heq
        · cases heq
          exact ih.trans (List.prefix_append _ _)
      · cases (turnEnds_blocks_stop_iff d env hge).mp hturn

theorem prefix_of_returns {s : BlocksState ι} {blocks : List (InstList ι)}
    (h : ReturnsNested (getBasicBlocksTurn d.toDecoder env m stop) s (.ok blocks)) :
    s.ret <+: blocks := by
  obtain ⟨t, ht, hdone⟩ := h.last
  rcases Nat.lt_or_ge t.curStart stop with hlt | hge
  · rcases (turnEnds_blocks_iff d env hlt).mp hdone with ⟨e, -, heq⟩ | ⟨bb, -, heq⟩
    · cases heq
    · cases heq
  · cases (turnEnds_blocks_stop_iff d env hge).mp hdone
    exact prefix_of_reached d env ht

variable (m) (stop)

/-- The blocks lie one behind the other from a position on, and end at `stop` or behind it. -/
def BlocksTile : ℕ → List (InstList ι) → Prop
  | pos, [] => stop ≤ pos
  | pos, bb :: rest => bb.base = pos ∧ BlocksTile (pos + (bb.instArray.map d.length).sum) rest

/-- The loop, at `curStart` with some blocks found, terminates with further blocks that tile
the range from a position on. -/
def TilesFrom (curStart pos : ℕ) (ret : List (InstList ι)) : Prop :=
  ∃ rest, ReturnsNested (getBasicBlocksTurn d.toDecoder env m stop) ⟨curStart, ret⟩
    (.ok (ret ++ rest)) ∧ BlocksTile d stop pos rest

variable {m stop} {curStart pos : ℕ} {ret : List (InstList ι)}

theorem tilesFrom_stop_iff (hge : stop ≤ curStart) :
    TilesFrom d env m stop curStart pos ret ↔ stop ≤ pos := by
  have hdone : ReturnsNested (getBasicBlocksTurn d.toDecoder env m stop) ⟨curStart, ret⟩
      (.ok ret) :=
    .of_done ((turnEnds_blocks_stop_iff d env hge).mpr rfl)
  constructor
  · rintro ⟨rest, hrest, htile⟩
    have heq := Except.ok.inj (hrest.unique (steady_getBasicBlocksTurn d env m stop) hdone)
    rw [List.append_right_eq_self.mp heq] at htile
    exact htile
  · exact fun hle => ⟨[], by rwa [List.append_nil], hle⟩

section

variable (hreads : Reads env 128)

include hreads

theorem tilesFrom_iff (hlt : curStart < stop) :
    TilesFrom d env m stop curStart pos ret ↔
      curStart = pos ∧ ∃ bb, GetsBasicBlock d.toDecoder env m curStart none (.ok bb) ∧
        TilesFrom d env m stop bb.size (pos + (bb.instArray.map d.length).sum) (ret ++ [bb]) := by
  have hsteady := steady_getBasicBlocksTurn d env m stop
  constructor
  · rintro ⟨rest, hrest, htile⟩
    rcases hrest.cases with hdone | ⟨s, hnext, hrest⟩
    · rcases (turnEnds_blocks_iff d env hlt).mp hdone with ⟨e, -, heq⟩ | ⟨bb, -, heq⟩
      · cases heq
      · cases heq
    rcases (turnEnds_blocks_iff d env hlt).mp hnext with ⟨e, -, heq⟩ | ⟨bb, hbb, heq⟩
    · cases heq
    cases heq
    obtain ⟨rest', hrest'⟩ := prefix_of_returns d env hrest
    rw [List.append_assoc] at hrest'
    obtain rfl : [bb] ++ rest' = rest := List.append_cancel_left hrest'
    obtain ⟨sec, hsec⟩ := located_of_gets d env hbb
    refine ⟨(openBlock_of_gets d env hsec hreads hbb).1.symm.trans htile.1, bb, hbb, rest', ?_,
      htile.2⟩
    rwa [List.append_assoc]
  · rintro ⟨rfl, bb, hbb, rest, hrest, htile⟩
    obtain ⟨sec, hsec⟩ := located_of_gets d env hbb
    refine ⟨[bb] ++ rest, .of_next hsteady ((turnEnds_blocks_iff d env hlt).mpr
      (.inr ⟨bb, hbb, rfl⟩)) ?_, (openBlock_of_gets d env hsec hreads hbb).1, htile⟩
    rwa [← List.append_assoc]

/-- Where the count of instructions does not reach `stop` it has to be the next position,
which it is only for instructions of one byte at the very start of the file. -/
theorem tilesFrom_self_iff (hlt : curStart < stop) :
    TilesFrom d env m stop curStart curStart ret ↔
      ∃ bb, GetsBasicBlock d.toDecoder env m curStart none (.ok bb) ∧ (stop ≤ bb.size ∨
        curStart = 0 ∧ (bb.instArray.map d.length).sum = bb.size ∧
          TilesFrom d env m stop bb.size bb.size (ret ++ [bb])) := by
  rw [tilesFrom_iff d env hreads hlt]
  simp only [true_and]
  refine exists_congr fun bb => and_congr_right fun hbb => ?_
  obtain ⟨sec, hsec⟩ := located_of_gets d env hbb
  obtain ⟨-, -, -, his⟩ := openBlock_of_gets d env hsec hreads hbb
  have hsum : bb.size ≤ (bb.instArray.map d.length).sum := by
    rcases his with his | ⟨-, his⟩
    · exact his.length_le_sum fun _ _ hi => d.length_pos hi
    · exact his.length_le_sum fun _ _ hi => d.length_pos hi
  rcases Nat.lt_or_ge bb.size stop with hnext | hge
  · constructor
    · intro h
      have heq := ((tilesFrom_iff d env hreads hnext).mp h).1
      obtain rfl : curStart = 0 := by omega
      have hexact : (bb.instArray.map d.length).sum = bb.size := by omega
      rw [hexact, Nat.zero_add] at h
      exact .inr ⟨rfl, hexact, h⟩
    · rintro (hge | ⟨rfl, hexact, h⟩)
      · omega
      · rwa [hexact, Nat.zero_add]
  · refine iff_of_true ((tilesFrom_stop_iff d env hge).mpr ?_) (.inl hge)
    omega

end

end

/-! ## Blocks that tile the range -/

variable (m) in
/-- The block at the offset holds `stop` instructions. -/
def CountsTo (stop offset : ℕ) : Prop := ∃ is, OpenBlock d m offset is ∧ stop ≤ is.length

variable {stop : ℕ}

theorem exists_gets_count_iff {sec : Section} (hsec : m.elf.getSectionByOffset offset = .ok sec)
    (hreads : Reads env 128) :
    (∃ bb : InstList ι, GetsBasicBlock d.toDecoder env m offset none (.ok bb) ∧ stop ≤ bb.size) ↔
      CountsTo d m stop offset := by
  constructor
  · rintro ⟨bb, hbb, hcount⟩
    exact ⟨bb.instArray, (openBlock_of_gets d env hsec hreads hbb).2, hcount⟩
  · rintro ⟨is, his, hcount⟩
    obtain ⟨bb, hbb, -, rfl⟩ := exists_gets_of_openBlock d env hsec hreads his
    exact ⟨bb, hbb, hcount⟩

/-- Behind the first 64 bytes of the file no block holds as many instructions as its range
would need. -/
theorem not_countsTo (hoff : 64 ≤ offset) (hlt : offset < stop) : ¬ CountsTo d m stop offset := by
  rintro ⟨is, ⟨-, hne, his⟩, hcount⟩
  have hbound : ∀ {chunkSize}, Instructions d m offset (readEnd m offset chunkSize) is →
      is.length ≤ chunkSize - offset := fun {chunkSize} h => by
    have hsum := h.sum_le (n := readEnd m offset chunkSize - offset)
      (fun _ _ hi => fitting_le d hi) (Nat.zero_le _)
    have hlength := h.length_le_sum fun _ _ hi => d.length_pos hi
    have hend : readEnd m offset chunkSize ≤ chunkSize := Nat.min_le_left _ _
    omega
  have hpos := List.length_pos_iff.mpr hne
  rcases his with his | ⟨-, his⟩
  · have hle := hbound his
    omega
  · have hle := hbound his
    omega

theorem located_of_lt {sec : Section} (hsec : m.elf.getSectionByOffset (0 : ℕ) = .ok sec)
    (hlt : offset < sec.shOffset + sec.shSize) :
    ∃ sec', m.elf.getSectionByOffset offset = .ok sec' := by
  rw [ELFFile.getSectionByOffset] at hsec ⊢
  cases hfind : m.elf.sections.find? (ELFFile.offsetInsideSection (0 : ℕ)) with
  | none =>
      rw [hfind] at hsec
      cases hsec
  | some found =>
      rw [hfind] at hsec
      obtain rfl := Except.ok.inj hsec
      have hinside := List.find?_some hfind
      rw [ELFFile.offsetInsideSection, decide_eq_true_iff] at hinside
      obtain ⟨sec', hsec'⟩ : ∃ sec',
          m.elf.sections.find? (ELFFile.offsetInsideSection offset) = some sec' := by
        refine Option.isSome_iff_exists.mp (List.find?_isSome.mpr
          ⟨found, List.mem_of_find?_eq_some hfind, ?_⟩)
        rw [ELFFile.offsetInsideSection, decide_eq_true_iff]
        omega
      exact ⟨sec', by rw [hsec']⟩

/-- `get_basic_blocks(module, start, stop)` terminates with blocks that tile the range exactly
when the first block already counts `stop` instructions, or when the range starts with the
file and the block at its start has only instructions of one byte and the next one counts
that many. -/
theorem get_basic_blocks_tile_iff (d : LocalDecoder ι) (env : Surroundings) (m : ElfModule)
    (start stop : ℕ) (sec : Section) (hsec : m.elf.getSectionByOffset start = .ok sec)
    (hlt : start < stop) (hin : stop ≤ sec.shOffset + sec.shSize) (hreads : Reads env 128) :
    ((∃ blocks, GetsBasicBlocks d.toDecoder env m start stop (.ok blocks) ∧
        BlocksTile d stop start blocks) ↔
      CountsTo d m stop start ∨ start = 0 ∧ ∃ is, OpenBlock d m 0 is ∧
        (is.map d.length).sum = is.length ∧ CountsTo d m stop is.length) ∧
    (64 ≤ start → ¬ ∃ blocks, GetsBasicBlocks d.toDecoder env m start stop (.ok blocks) ∧
      BlocksTile d stop start blocks) := by
  have hiff : (∃ blocks, GetsBasicBlocks d.toDecoder env m start stop (.ok blocks) ∧
        BlocksTile d stop start blocks) ↔
      CountsTo d m stop start ∨ start = 0 ∧ ∃ is, OpenBlock d m 0 is ∧
        (is.map d.length).sum = is.length ∧ CountsTo d m stop is.length := by
    rw [show (∃ blocks, GetsBasicBlocks d.toDecoder env m start stop (.ok blocks) ∧
      BlocksTile d stop start blocks) ↔ TilesFrom d env m stop start start [] from Iff.rfl,
      tilesFrom_self_iff d env hreads hlt]
    constructor
    · rintro ⟨bb, hbb, hcount | ⟨rfl, hexact, htiles⟩⟩
      · exact .inl ((exists_gets_count_iff d env hsec hreads).mp ⟨bb, hbb, hcount⟩)
      · rcases Nat.lt_or_ge bb.size stop with hnext | hge
        · have hopen := (openBlock_of_gets d env hsec hreads hbb).2
          obtain ⟨bb', hbb', hcount | ⟨hzero, -⟩⟩ :=
            (tilesFrom_self_iff d env hreads hnext).mp htiles
          · obtain ⟨sec', hsec'⟩ := located_of_gets d env hbb'
            exact .inr ⟨rfl, bb.instArray, hopen, hexact,
              (exists_gets_count_iff d env hsec' hreads).mp ⟨bb', hbb', hcount⟩⟩
          · exact absurd (size_eq_zero_iff_nil.mp hzero) hopen.2.1
        · exact .inl ((exists_gets_count_iff d env hsec hreads).mp ⟨bb, hbb, hge⟩)
    · rintro (hcounts | ⟨rfl, is, hopen, hexact, hcounts⟩)
      · obtain ⟨bb, hbb, hcount⟩ := (exists_gets_count_iff d env hsec hreads).mpr hcounts
        exact ⟨bb, hbb, .inl hcount⟩
      · obtain ⟨bb, hbb, -, rfl⟩ := exists_gets_of_openBlock d env hsec hreads hopen
        refine ⟨bb, hbb, ?_⟩
        rcases Nat.lt_or_ge bb.size stop with hnext | hge
        · obtain ⟨sec', hsec'⟩ := located_of_lt hsec (hnext.trans_le hin)
          obtain ⟨bb', hbb', hcount⟩ := (exists_gets_count_iff d env hsec' hreads).mpr hcounts
          exact .inr ⟨rfl, hexact, (tilesFrom_self_iff d env hreads hnext).mpr
            ⟨bb', hbb', .inl hcount⟩⟩
        · exact .inl hge
  refine ⟨hiff, fun hoff htile => ?_⟩
  rcases hiff.mp htile with hcounts | ⟨rfl, -⟩
  · exact not_countsTo d hoff hlt hcounts
  · omega

theorem get_basic_blocks_tile_iff_nopModule :
    ((∃ blocks, GetsBasicBlocks shortDecoder.toDecoder zeroSurroundings nopModule 64 136
          (.ok blocks) ∧ BlocksTile shortDecoder 136 64 blocks) ↔
      CountsTo shortDecoder nopModule 136 64 ∨ 64 = 0 ∧ ∃ is,
        OpenBlock shortDecoder nopModule 0 is ∧
        (is.map shortDecoder.length).sum = is.length ∧
        CountsTo shortDecoder nopModule 136 is.length) ∧
    (64 ≤ 64 → ¬ ∃ blocks, GetsBasicBlocks shortDecoder.toDecoder zeroSurroundings nopModule 64 136
      (.ok blocks) ∧ BlocksTile shortDecoder 136 64 blocks) :=
  get_basic_blocks_tile_iff shortDecoder zeroSurroundings nopModule 64 136
    ⟨.other 1, 6, 0, 64, 72⟩ (by decide +kernel) (by decide) (by decide)
    (fun limit hlimit => by
      obtain rfl := Option.some.inj hlimit
      decide)

/-- The whole section decodes, but the block that the second request gives holds 63
instructions, and the next block is looked for at offset 63, in the header. -/
theorem get_basic_blocks_nopModule :
    Instructions shortDecoder nopModule 64 136
      (.jmp 0 :: List.replicate 62 .nop ++ List.replicate 8 .ret) ∧
    (∃ e, GetsBasicBlocks shortDecoder.toDecoder zeroSurroundings nopModule 64 136 (.error e)) ∧
    ¬ ∃ blocks, GetsBasicBlocks shortDecoder.toDecoder zeroSurroundings nopModule 64 136
      (.ok blocks) ∧ BlocksTile shortDecoder 136 64 blocks := by
  have hraises : (runNested
      (getBasicBlocksTurn shortDecoder.toDecoder zeroSurroundings nopModule 136) 80
      ⟨64, []⟩).map (fun r => r.map (fun blocks => blocks.map InstList.instArray)) =
      some (.error (.elfFileError "There is no section that contains given offset: 63")) := by
    decide +kernel
  have hdecodes : (runLoop (disassembleTurn shortDecoder.toDecoder (fileFrom nopModule 64) 72) 80
      (disassembleInit 64)).map InstList.instArray =
      some (.jmp 0 :: List.replicate 62 .nop ++ List.replicate 8 .ret) := by decide +kernel
  obtain ⟨r, hr, hmap⟩ := Option.map_eq_some_iff.mp hraises
  cases r with
  | ok blocks => cases hmap
  | error e =>
      refine ⟨?_, ⟨e, 80, hr⟩, ?_⟩
      · obtain ⟨l, hl, harray⟩ := Option.map_eq_some_iff.mp hdecodes
        obtain ⟨l', hl', -, htiling⟩ :=
          disassemble_tiling shortDecoder (fileFrom nopModule 64) 64
            (show 72 < 2 ^ 32 - 1 by decide)
        obtain rfl := Returns.unique ⟨80, hl⟩ hl'
        rw [harray] at htiling
        exact htiling
      · rintro ⟨blocks, hblocks, -⟩
        cases hblocks.unique (steady_getBasicBlocksTurn shortDecoder zeroSurroundings nopModule 136)
          ⟨80, hr⟩

end CProfiler.Disass
