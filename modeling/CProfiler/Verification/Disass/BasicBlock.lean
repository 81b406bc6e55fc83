import CProfiler.Model.GetBasicBlock
import CProfiler.Verification.Disass.Loops
import CProfiler.Verification.Elf.Files

/-! # Reading one basic block

Which bytes `get_basic_block` disassembles, and when its retry loop ends. -/

namespace CProfiler.Disass

open CProfiler.Foundation CProfiler.Model

variable {ι : Type}

/-! ## `_disassemble` with any decoder -/

section

variable (d : Decoder ι) (data : ℕ → UInt8) {length : ℕ} (base : ℕ)

/-- Between two turns: the window is not empty and ends by the end of the buffer, or right
behind it. -/
structure WindowInv (length : ℕ) (s : DisassState ι) : Prop where
  start_lt : s.start < s.stop
  stop_le : s.stop ≤ length + 1

theorem windowInv_init : WindowInv length (disassembleInit (ι := ι) base) where
  start_lt := Nat.one_pos
  stop_le := by simp [disassembleInit]

theorem disassembleTurn_next {s t : DisassState ι}
    (h : disassembleTurn d data length s = .next t) :
    s.start < length ∧ s.stop ≤ length ∧ t.stop = (s.stop + 1) % 2 ^ 32 ∧
      (t.start = s.start ∨ t.start = s.stop) := by
  rw [disassembleTurn] at h
  split_ifs at h with hguard
  split at h <;>
    · cases h
      exact ⟨hguard.1, hguard.2, rfl, by simp⟩

theorem windowInv_next (hlen : length < 2 ^ 32 - 1) {s t : DisassState ι}
    (hs : WindowInv length s) (h : disassembleTurn d data length s = .next t) :
    WindowInv length t := by
  obtain ⟨-, hstop, hnext, hstart⟩ := disassembleTurn_next d data h
  have hlt := hs.start_lt
  rw [Nat.mod_eq_of_lt (by omega)] at hnext
  constructor
  · rcases hstart with hstart | hstart <;> omega
  · omega

theorem windowInv_reached (hlen : length < 2 ^ 32 - 1) {s : DisassState ι}
    (h : Reached (disassembleTurn d data length) (disassembleInit base) s) :
    WindowInv length s := by
  induction h with
  | start => exact windowInv_init base
  | next _ hturn ih => exact windowInv_next d data hlen ih hturn

/-- Below the wrap of the counters `_disassemble` terminates, whatever the decoder does. -/
theorem exists_disassembles (hlen : length < 2 ^ 32 - 1) :
    ∃ l, Disassembles d data length base l := by
  obtain ⟨l, hl, -⟩ := exists_returns (WindowInv length) (fun _ => True)
    (fun s : DisassState ι => length + 1 - s.stop)
    (show ∀ s, WindowInv length s → (disassembleTurn d data length s).Good _ _ _ s from
      fun s hs => by
      cases hturn : disassembleTurn d data length s with
      | done r => trivial
      | next t =>
          obtain ⟨-, hstop, hnext, -⟩ := disassembleTurn_next d data hturn
          rw [Nat.mod_eq_of_lt (by omega)] at hnext
          refine ⟨windowInv_next d data hlen hs hturn, ?_⟩
          simp only [hnext]
          omega)
    (windowInv_init base)
  exact ⟨l, hl⟩

/-- Every position of the buffer is the end of some window. -/
theorem exists_reached_stop (hlen : length < 2 ^ 32) {k : ℕ} (hk : 1 ≤ k) (hkl : k ≤ length) :
    ∃ s, Reached (disassembleTurn d data length) (disassembleInit base) s ∧
      s.stop = k ∧ s.start < k := by
  induction k, hk using Nat.le_induction with
  | base => exact ⟨_, .start, rfl, Nat.one_pos⟩
  | succ k hk ih =>
      obtain ⟨s, hs, hstop, hstart⟩ := ih (by omega)
      cases hturn : disassembleTurn d data length s with
      | done r =>
          rw [disassembleTurn, if_pos ⟨by omega, by omega⟩] at hturn
          split at hturn <;> cases hturn
      | next t =>
          obtain ⟨-, -, hnext, hstart'⟩ := disassembleTurn_next d data hturn
          rw [Nat.mod_eq_of_lt (by omega)] at hnext
          exact ⟨t, hs.next hturn, by omega, by omega⟩

theorem window_congr {data data' : ℕ → UInt8} {off n : ℕ}
    (h : ∀ k < n, data (off + k) = data' (off + k)) : window data off n = window data' off n :=
  List.map_congr_left fun k hk => h k (List.mem_range.mp hk)

/-- Buffers with the same bytes up to the length are disassembled alike. -/
theorem disassembleTurn_congr {data data' : ℕ → UInt8} (hlen : length < 2 ^ 32)
    (hdata : ∀ k < length, data k = data' k) {s : DisassState ι} (hs : s.start < s.stop) :
    disassembleTurn d data length s = disassembleTurn d data' length s := by
  by_cases hguard : s.start < length ∧ s.stop ≤ length
  · have hwindow : window data s.start (s.stop - s.start) =
        window data' s.start (s.stop - s.start) :=
      window_congr fun k hk => hdata _ (by omega)
    rw [disassembleTurn, if_pos hguard, disassembleTurn, if_pos hguard,
      sub_word hs.le (by omega), hwindow]
  · rw [disassembleTurn, if_neg hguard, disassembleTurn, if_neg hguard]

theorem disassembles_congr {data data' : ℕ → UInt8} (hlen : length < 2 ^ 32 - 1)
    (hdata : ∀ k < length, data k = data' k) {l : InstList ι}
    (h : Disassembles d data length base l) : Disassembles d data' length base l := by
  have hword : length < 2 ^ 32 := by omega
  obtain ⟨fuel, hfuel⟩ := h
  suffices hrun : ∀ fuel s, WindowInv length s → runLoop (disassembleTurn d data length) fuel s =
      runLoop (disassembleTurn d data' length) fuel s by
    exact ⟨fuel, by rw [← hrun fuel _ (windowInv_init base), hfuel]⟩
  clear hfuel fuel
  intro fuel
  induction fuel with
  | zero => simp [runLoop]
  | succ fuel ih =>
      intro s hs
      have hturn := disassembleTurn_congr d hword hdata hs.start_lt
      cases hcase : disassembleTurn d data length s with
      | done r => rw [runLoop_done hcase, runLoop_done (hturn.symm.trans hcase)]
      | next t =>
          rw [runLoop_next hcase, runLoop_next (hturn.symm.trans hcase)]
          exact ih t (windowInv_next d data hlen hs hcase)

end

/-! ## A turn of the retry loop -/

variable (d : Decoder ι) (env : Surroundings) (m : ElfModule) (offset : ℕ) (toOffset : Option ℤ)

/-- The file takes a request of this size. -/
def Reads (chunkSize : ℕ) : Prop := ∀ limit ∈ env.readLimit, chunkSize ≤ limit

/-- The bytes that a request at the offset reads. -/
def chunkBytes (chunkSize : ℕ) : List UInt8 := (m.contents.drop offset).take chunkSize

/-- The memory and the length handed to `_disassemble`. -/
def chunkMemory (chunkSize : ℕ) : ℕ → UInt8 :=
  env.memory chunkSize (chunkBytes m offset chunkSize)

def chunkLength (chunkSize : ℕ) : ℤ := blockLength (chunkBytes m offset chunkSize) offset toOffset

/-- The wrapper takes the length and the offset. -/
def Converts (chunkSize : ℕ) : Prop :=
  0 ≤ chunkLength m offset toOffset chunkSize ∧
    chunkLength m offset toOffset chunkSize < 2 ^ 32 ∧ offset < 2 ^ 32

theorem read_of_reads {chunkSize : ℕ} (h : Reads env chunkSize) :
    env.read m offset chunkSize = .ok (chunkBytes m offset chunkSize) := by
  rw [Surroundings.read]
  cases hlimit : env.readLimit with
  | none => rfl
  | some limit => exact if_pos (h limit hlimit)

theorem read_of_not_reads {chunkSize : ℕ} (h : ¬ Reads env chunkSize) :
    env.read m offset chunkSize = .error .overflowError := by
  rw [Surroundings.read]
  cases hlimit : env.readLimit with
  | none =>
      refine absurd (fun limit hmem => ?_) h
      rw [hlimit] at hmem
      cases hmem
  | some limit =>
      refine if_neg fun hle => h fun other hmem => ?_
      rw [hlimit] at hmem
      obtain rfl := Option.some.inj hmem
      exact hle

/-- How a turn ends with a list. -/
def turnOf (chunkSize : ℕ) (bb : InstList ι) : Turn ℕ (Except PyError (InstList ι)) :=
  if bb.size = 0 then .next (chunkSize * 2) else .done (.ok bb)

/-- A turn raises when the request is too large or the numbers do not fit. -/
theorem getBasicBlockTurn_error {chunkSize : ℕ}
    (h : ¬ (Reads env chunkSize ∧ Converts m offset toOffset chunkSize)) (fuel : ℕ) :
    getBasicBlockTurn d env m offset toOffset fuel chunkSize =
      some (.done (.error .overflowError)) := by
  by_cases hreads : Reads env chunkSize
  · have hguard : ¬ (0 ≤ blockLength (chunkBytes m offset chunkSize) offset toOffset ∧
        blockLength (chunkBytes m offset chunkSize) offset toOffset < 2 ^ 32 ∧
        0 ≤ (offset : ℤ) ∧ (offset : ℤ) < 2 ^ 32) := by
      rintro ⟨hpos, hlt, -, hoffset⟩
      exact h ⟨hreads, hpos, hlt, by omega⟩
    rw [getBasicBlockTurn, read_of_reads env m offset hreads]
    simp only [disassembleX64, if_neg hguard, Option.map_some]
  · rw [getBasicBlockTurn, read_of_not_reads env m offset hreads]

/-- Otherwise it is a run of `_disassemble`. -/
theorem getBasicBlockTurn_eq {chunkSize : ℕ} (hreads : Reads env chunkSize)
    (hconv : Converts m offset toOffset chunkSize) (fuel : ℕ) :
    getBasicBlockTurn d env m offset toOffset fuel chunkSize =
      (runLoop (disassembleTurn d (chunkMemory env m offset chunkSize)
        (chunkLength m offset toOffset chunkSize).toNat) fuel
        (disassembleInit offset)).map (turnOf chunkSize) := by
  obtain ⟨hpos, hlt, hoffset⟩ := hconv
  have hguard : 0 ≤ blockLength (chunkBytes m offset chunkSize) offset toOffset ∧
      blockLength (chunkBytes m offset chunkSize) offset toOffset < 2 ^ 32 ∧
      0 ≤ (offset : ℤ) ∧ (offset : ℤ) < 2 ^ 32 :=
    ⟨hpos, hlt, by omega, by omega⟩
  rw [getBasicBlockTurn, read_of_reads env m offset hreads]
  simp only [disassembleX64, if_pos hguard, Option.map_map, Int.toNat_natCast]
  rfl

/-- A turn raises, or ends with what `_disassemble` returns. -/
theorem turnEnds_iff {chunkSize : ℕ} {t : Turn ℕ (Except PyError (InstList ι))} :
    TurnEnds (getBasicBlockTurn d env m offset toOffset) chunkSize t ↔
      (¬ (Reads env chunkSize ∧ Converts m offset toOffset chunkSize) ∧
        t = .done (.error .overflowError)) ∨
      Reads env chunkSize ∧ Converts m offset toOffset chunkSize ∧
        ∃ bb, Disassembles d (chunkMemory env m offset chunkSize)
          (chunkLength m offset toOffset chunkSize).toNat offset bb ∧ t = turnOf chunkSize bb := by
  by_cases h : Reads env chunkSize ∧ Converts m offset toOffset chunkSize
  · have hturn := getBasicBlockTurn_eq d env m offset toOffset h.1 h.2
    simp only [TurnEnds, hturn, h, not_true_eq_false, false_and, false_or, true_and]
    constructor
    · rintro ⟨fuel, hfuel⟩
      obtain ⟨bb, hbb, rfl⟩ := Option.map_eq_some_iff.mp hfuel
      exact ⟨bb, ⟨fuel, hbb⟩, rfl⟩
    · rintro ⟨bb, ⟨fuel, hbb⟩, rfl⟩
      exact ⟨fuel, by rw [hbb, Option.map_some]⟩
  · have hturn := getBasicBlockTurn_error d env m offset toOffset h
    simp only [TurnEnds, hturn, Option.some.injEq, exists_const]
    constructor
    · rintro rfl
      exact .inl ⟨h, rfl⟩
    · rintro (⟨-, rfl⟩ | ⟨hreads, hconv, -⟩)
      · rfl
      · exact absurd ⟨hreads, hconv⟩ h

theorem steady_getBasicBlockTurn : Steady (getBasicBlockTurn d env m offset toOffset) := by
  intro fuel fuel' chunkSize t hle h
  rw [getBasicBlockTurn] at h ⊢
  cases hread : env.read m offset chunkSize with
  | error e =>
      rw [hread] at h
      exact h
  | ok bytes =>
      rw [hread] at h
      obtain ⟨result, hresult, ht⟩ := Option.map_eq_some_iff.mp h
      refine Option.map_eq_some_iff.mpr ⟨result, ?_, ht⟩
      rw [disassembleX64] at hresult ⊢
      split_ifs at hresult ⊢ with hguard
      · obtain ⟨bb, hbb, hok⟩ := Option.map_eq_some_iff.mp hresult
        exact Option.map_eq_some_iff.mpr ⟨bb, runLoop_mono hle hbb, hok⟩
      · exact hresult

/-- Within a section `get_basic_block` is its retry loop. -/
theorem getsBasicBlock_iff {sec : Section} (hsec : m.elf.getSectionByOffset offset = .ok sec)
    {r : Except PyError (InstList ι)} :
    GetsBasicBlock d env m offset toOffset r ↔
      ReturnsNested (getBasicBlockTurn d env m offset toOffset) 64 r := by
  simp only [GetsBasicBlock, getBasicBlock, hsec, ReturnsNested]

/-! ## Exactly the requested bytes -/

/-- With the file read by a request, the decoder is asked about `count` bytes from `start`. -/
def Asks (chunkSize start count : ℕ) : Prop :=
  ReachedNested (getBasicBlockTurn d env m offset toOffset) 64 chunkSize ∧
    Reads env chunkSize ∧ Converts m offset toOffset chunkSize ∧
    ∃ s, Reached (disassembleTurn d (chunkMemory env m offset chunkSize)
        (chunkLength m offset toOffset chunkSize).toNat) (disassembleInit offset) s ∧
      s.start < (chunkLength m offset toOffset chunkSize).toNat ∧
      s.stop ≤ (chunkLength m offset toOffset chunkSize).toNat ∧
      start = s.start ∧ count = (s.stop + 2 ^ 32 - s.start) % 2 ^ 32

/-- The decoder is never asked about a byte beyond those that were read. -/
def AsksWithin : Prop :=
  ∀ chunkSize start count, Asks d env m offset toOffset chunkSize start count →
    start + count ≤ (chunkBytes m offset chunkSize).length

/-- The bytes `[offset, stop)` of the file. -/
def fileBytes (stop : ℕ) : List UInt8 := (m.contents.drop offset).take (stop - offset)

/-- The list is what `_disassemble` gives on the bytes `[offset, stop)` of the file. -/
def ExactBlock (stop : ℕ) (l : InstList ι) : Prop :=
  Disassembles d (fun k => (fileBytes m offset stop).getD k 0) (fileBytes m offset stop).length
    offset l

variable {d env m offset} {stop : ℕ}

theorem chunkLength_to (hle : offset ≤ stop) (chunkSize : ℕ) :
    (chunkLength m offset (some (stop : ℤ)) chunkSize).toNat = stop - offset := by
  rw [chunkLength, blockLength]
  omega

theorem converts_to_iff (hle : offset ≤ stop) (chunkSize : ℕ) :
    Converts m offset (some (stop : ℤ)) chunkSize ↔
      stop - offset < 2 ^ 32 ∧ offset < 2 ^ 32 := by
  rw [Converts, chunkLength, blockLength]
  omega

theorem length_chunkBytes (chunkSize : ℕ) :
    (chunkBytes m offset chunkSize).length = min chunkSize (m.contents.length - offset) := by
  rw [chunkBytes, List.length_take, List.length_drop]

/-- The requests grow from 64 bytes on. -/
theorem le_of_reachedNested {chunkSize : ℕ}
    (h : ReachedNested (getBasicBlockTurn d env m offset toOffset) 64 chunkSize) :
    64 ≤ chunkSize := by
  induction h with
  | start => exact le_refl _
  | next _ hturn ih =>
      rcases (turnEnds_iff d env m offset toOffset).mp hturn with
        ⟨-, hdone⟩ | ⟨-, -, bb, -, hbb⟩
      · cases hdone
      · rw [turnOf] at hbb
        split_ifs at hbb
        cases hbb
        omega

/-- A short range within the file is asked about within any request. -/
theorem asksWithin_of_short (hlt : offset < stop) (hshort : stop - offset ≤ 64)
    (hfile : stop ≤ m.contents.length) : AsksWithin d env m offset (some (stop : ℤ)) := by
  rintro chunkSize start count ⟨hreached, -, -, s, hs, hstart, hstop, rfl, rfl⟩
  rw [chunkLength_to hlt.le] at hs hstart hstop
  have hchunk := le_of_reachedNested _ hreached
  have hinv := windowInv_reached d _ offset (by omega) hs
  have hless := hinv.start_lt
  rw [sub_word hless.le (by omega), length_chunkBytes]
  omega

/-- The last window ends with the requested range, so that the range is within the first
request and within the file. -/
theorem short_of_asksWithin (hlt : offset < stop) (hreads : Reads env 64)
    (hconv : stop - offset < 2 ^ 32 ∧ offset < 2 ^ 32)
    (h : AsksWithin d env m offset (some (stop : ℤ))) :
    stop - offset ≤ 64 ∧ stop ≤ m.contents.length := by
  obtain ⟨s, hs, hstop, hstart⟩ := exists_reached_stop d (chunkMemory env m offset 64) offset
    hconv.1 (by omega : 1 ≤ stop - offset) (le_refl _)
  have hwithin := h 64 s.start ((s.stop + 2 ^ 32 - s.start) % 2 ^ 32)
    ⟨.start, hreads, (converts_to_iff hlt.le 64).mpr hconv, s, by rwa [chunkLength_to hlt.le],
      by rw [chunkLength_to hlt.le]; omega, by rw [chunkLength_to hlt.le]; omega, rfl, rfl⟩
  rw [sub_word (by omega) (by omega), length_chunkBytes] at hwithin
  omega

/-- The memory at a request agrees with the file as far as a short range goes. -/
theorem chunkMemory_eq (hlt : offset < stop) (hshort : stop - offset ≤ 64)
    (hfile : stop ≤ m.contents.length) {chunkSize k : ℕ} (hchunk : 64 ≤ chunkSize)
    (hk : k < stop - offset) :
    chunkMemory env m offset chunkSize k = (fileBytes m offset stop).getD k 0 := by
  rw [chunkMemory, Surroundings.memory, chunkBytes, fileBytes, List.getD_eq_getElem?_getD,
    List.getD_eq_getElem?_getD, List.getElem?_take_of_lt (by omega),
    List.getElem?_take_of_lt hk, List.getElem?_drop,
    List.getElem?_eq_getElem (by omega : offset + k < m.contents.length)]
  rfl

theorem exactBlock_of_short (hlt : offset < stop) (hshort : stop - offset ≤ 64)
    (hfile : stop ≤ m.contents.length) {l : InstList ι}
    (h : ReturnsNested (getBasicBlockTurn d env m offset (some (stop : ℤ))) 64 (.ok l)) :
    ExactBlock d m offset stop l := by
  obtain ⟨chunkSize, hreached, hturn⟩ := h.last
  have hchunk := le_of_reachedNested _ hreached
  rcases (turnEnds_iff d env m offset _).mp hturn with ⟨-, hdone⟩ | ⟨-, -, bb, hbb, hturn⟩
  · cases hdone
  · rw [turnOf] at hturn
    split_ifs at hturn
    cases hturn
    rw [chunkLength_to hlt.le] at hbb
    have hlen : (fileBytes m offset stop).length = stop - offset := by
      rw [fileBytes, List.length_take, List.length_drop]
      omega
    rw [ExactBlock, hlen]
    exact disassembles_congr d offset (by omega)
      (fun k hk => chunkMemory_eq hlt hshort hfile hchunk hk) hbb

/-- `get_basic_block` stays within the bytes it has read, and returns the disassembly of the
requested ones, exactly when the numbers do not fit the wrapper (and it raises) or the range
has at most 64 bytes and lies within the file. Whenever it returns, the latter is the case. -/
theorem get_basic_block_exact_iff (d : Decoder ι) (env : Surroundings) (m : ElfModule)
    (offset stop : ℕ) (sec : Section) (hsec : m.elf.getSectionByOffset offset = .ok sec)
    (hlt : offset < stop) (hreads : Reads env 64) :
    ((∀ l, GetsBasicBlock d env m offset (some (stop : ℤ)) (.ok l) →
        ExactBlock d m offset stop l) ∧ AsksWithin d env m offset (some (stop : ℤ)) ↔
      2 ^ 32 ≤ stop - offset ∨ 2 ^ 32 ≤ offset ∨
        stop - offset ≤ 64 ∧ stop ≤ m.contents.length) ∧
    ∀ l, GetsBasicBlock d env m offset (some (stop : ℤ)) (.ok l) →
      (ExactBlock d m offset stop l ∧ AsksWithin d env m offset (some (stop : ℤ)) ↔
        stop - offset ≤ 64 ∧ stop ≤ m.contents.length) := by
  simp only [getsBasicBlock_iff d env m offset _ hsec]
  have hraises : ¬ (stop - offset < 2 ^ 32 ∧ offset < 2 ^ 32) → ∀ l : InstList ι,
      ¬ ReturnsNested (getBasicBlockTurn d env m offset (some (stop : ℤ))) 64 (.ok l) := by
    intro hno l hl
    obtain ⟨chunkSize, -, hturn⟩ := hl.last
    rcases (turnEnds_iff d env m offset _).mp hturn with ⟨-, hdone⟩ | ⟨-, hconv, -⟩
    · cases hdone
    · exact hno ((converts_to_iff hlt.le chunkSize).mp hconv)
  constructor
  · constructor
    · rintro ⟨-, hwithin⟩
      by_cases hconv : stop - offset < 2 ^ 32 ∧ offset < 2 ^ 32
      · exact .inr (.inr (short_of_asksWithin hlt hreads hconv hwithin))
      · omega
    · intro hcond
      by_cases hshort : stop - offset ≤ 64 ∧ stop ≤ m.contents.length
      · exact ⟨fun l hl => exactBlock_of_short hlt hshort.1 hshort.2 hl,
          asksWithin_of_short hlt hshort.1 hshort.2⟩
      · have hno : ¬ (stop - offset < 2 ^ 32 ∧ offset < 2 ^ 32) := by omega
        refine ⟨fun l hl => absurd hl (hraises hno l), ?_⟩
        rintro chunkSize start count ⟨-, -, hconv, -⟩
        exact absurd ((converts_to_iff hlt.le chunkSize).mp hconv) hno
  · intro l hl
    have hconv : stop - offset < 2 ^ 32 ∧ offset < 2 ^ 32 := by
      by_contra hno
      exact hraises hno l hl
    constructor
    · rintro ⟨-, hwithin⟩
      exact short_of_asksWithin hlt hreads hconv hwithin
    · rintro ⟨hshort, hfile⟩
      exact ⟨exactBlock_of_short hlt hshort hfile hl, asksWithin_of_short hlt hshort hfile⟩

/-! ## A block longer than the first request -/

/-- A relocatable file: the header, `.text` at 64, the names of the sections, and, from a
multiple of eight on, the section headers. -/
def objectFile (text : List UInt8) : ElfModule :=
  let names := Elf.nameBytes ["", ".text", ".shstrtab"]
  let namesEnd := 64 + text.length + names.length
  let gap := (8 - namesEnd % 8) % 8
  { elf := ⟨[], [⟨.other 0, 0, 0, 0, 0⟩, ⟨.other 1, 6, 0, 64, text.length⟩,
      ⟨.other 3, 0, 0, 64 + text.length, names.length⟩]⟩
    contents := Elf.ehdrBytes 1 0 (namesEnd + gap) 0 3 2 ++ text ++ names ++
      List.replicate gap 0 ++ Elf.shdrBytes 0 0 0 0 0 0 0 0 0 0 ++
      Elf.shdrBytes 1 1 6 0 64 text.length 0 0 16 0 ++
      Elf.shdrBytes 7 3 0 0 (64 + text.length) names.length 0 0 1 0 }

/-- `JMP` to the next instruction, 62 times `NOP` and 8 times `RET`. -/
def nopModule : ElfModule :=
  objectFile ([0xEB, 0x00] ++ List.replicate 62 0x90 ++ List.replicate 8 0xC3)

/-- The section headers in the bytes are those that pyelftools knows. -/
example : (List.range 3).map (fun i => let s := elfShdr (fun k => nopModule.contents.getD k 0) i
      (s.shOffset, s.shSize)) = nopModule.elf.sections.map (fun s => (s.shOffset, s.shSize)) := by
  decide +kernel

/-- A file object that takes any `long`, and zeros behind the bytes that it has read. -/
def zeroSurroundings : Surroundings := ⟨some (2 ^ 63 - 1), fun _ _ => 0⟩

theorem reads_zeroSurroundings : Reads zeroSurroundings 64 := by
  intro limit hlimit
  obtain rfl := Option.some.inj hlimit
  decide

theorem get_basic_block_exact_iff_nopModule :
    ((∀ l, GetsBasicBlock shortDecoder.toDecoder zeroSurroundings nopModule 64
          (some ((128 : ℕ) : ℤ)) (.ok l) →
        ExactBlock shortDecoder.toDecoder nopModule 64 128 l) ∧
      AsksWithin shortDecoder.toDecoder zeroSurroundings nopModule 64 (some ((128 : ℕ) : ℤ)) ↔
      2 ^ 32 ≤ 128 - 64 ∨ 2 ^ 32 ≤ 64 ∨ 128 - 64 ≤ 64 ∧ 128 ≤ nopModule.contents.length) ∧
    ∀ l, GetsBasicBlock shortDecoder.toDecoder zeroSurroundings nopModule 64
        (some ((128 : ℕ) : ℤ)) (.ok l) →
      (ExactBlock shortDecoder.toDecoder nopModule 64 128 l ∧
          AsksWithin shortDecoder.toDecoder zeroSurroundings nopModule 64 (some ((128 : ℕ) : ℤ)) ↔
        128 - 64 ≤ 64 ∧ 128 ≤ nopModule.contents.length) :=
  get_basic_block_exact_iff shortDecoder.toDecoder zeroSurroundings nopModule 64 128
    ⟨.other 1, 6, 0, 64, 72⟩ (by decide +kernel) (by decide) reads_zeroSurroundings

/-- Of the 72 requested bytes only 64 are read; the last instructions come from the zeros
behind them. -/
theorem get_basic_block_nopModule :
    (getBasicBlock shortDecoder.toDecoder zeroSurroundings nopModule 64
        (some ((136 : ℕ) : ℤ)) 80).map (fun r => r.map InstList.instArray) =
      some (.ok (.jmp 0 :: List.replicate 62 .nop ++ List.replicate 4 .add)) ∧
    (runLoop (disassembleTurn shortDecoder.toDecoder
        (fun k => (fileBytes nopModule 64 136).getD k 0) (fileBytes nopModule 64 136).length) 80
        (disassembleInit 64)).map InstList.instArray =
      some (.jmp 0 :: List.replicate 62 .nop ++ List.replicate 8 .ret) ∧
    ¬ ∀ l, GetsBasicBlock shortDecoder.toDecoder zeroSurroundings nopModule 64
        (some ((136 : ℕ) : ℤ)) (.ok l) →
      ExactBlock shortDecoder.toDecoder nopModule 64 136 l := by
  have hget : (getBasicBlock shortDecoder.toDecoder zeroSurroundings nopModule 64
        (some ((136 : ℕ) : ℤ)) 80).map (fun r => r.map InstList.instArray) =
      some (.ok (.jmp 0 :: List.replicate 62 .nop ++ List.replicate 4 .add)) := by decide +kernel
  have hexact : (runLoop (disassembleTurn shortDecoder.toDecoder
        (fun k => (fileBytes nopModule 64 136).getD k 0) (fileBytes nopModule 64 136).length) 80
        (disassembleInit 64)).map InstList.instArray =
      some (.jmp 0 :: List.replicate 62 .nop ++ List.replicate 8 .ret) := by decide +kernel
  refine ⟨hget, hexact, fun hall => ?_⟩
  obtain ⟨r, hr, harray⟩ := Option.map_eq_some_iff.mp hget
  obtain ⟨l', hl', harray'⟩ := Option.map_eq_some_iff.mp hexact
  cases r with
  | error e => cases harray
  | ok l =>
      obtain rfl : l = l' := Returns.unique (hall l ⟨80, hr⟩) ⟨80, hl'⟩
      have heq : .jmp 0 :: List.replicate 62 ShortInst.nop ++ List.replicate 4 .add =
          .jmp 0 :: List.replicate 62 .nop ++ List.replicate 8 .ret :=
        (Except.ok.inj harray).symm.trans harray'
      exact absurd heq (by decide)

end CProfiler.Disass
