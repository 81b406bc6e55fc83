import CProfiler.Verification.Disass.BasicBlock
import Mathlib.Logic.Relation

/-! # The end of the retry loop

`get_basic_block` reads again, twice as much, as long as nothing decodes. -/

namespace CProfiler.Disass

open CProfiler.Foundation CProfiler.Model

variable {ι : Type} (d : Decoder ι)

/-! ## Lists without instructions -/

section

variable (data : ℕ → UInt8) {length : ℕ} (base : ℕ)

/-- Nothing decodes at the start of the buffer. -/
def NothingAtStart (length : ℕ) : Prop :=
  ∀ n, 1 ≤ n → n ≤ length → d.decode (window data 0 n) = none

/-- As long as no instruction is found, all windows so far have failed at the start. -/
def FoundInv (s : DisassState ι) : Prop :=
  s.ret.size = 0 → s.start = 0 ∧ ∀ n, 1 ≤ n → n < s.stop → d.decode (window data 0 n) = none

theorem foundInv_reached (hlen : length < 2 ^ 32 - 1) {s : DisassState ι}
    (h : Reached (disassembleTurn d data length) (disassembleInit base) s) :
    FoundInv d data s := by
  induction h with
  | start => exact fun _ => ⟨rfl, fun n hn hlt => absurd hlt (by simp [disassembleInit]; omega)⟩
  | @next t u ht hturn ih =>
      have hinv := windowInv_reached d data base hlen ht
      have hlt := hinv.start_lt
      rw [disassembleTurn] at hturn
      split_ifs at hturn with hguard
      rw [sub_word hlt.le (by omega), Nat.mod_eq_of_lt (by omega)] at hturn
      split at hturn
      · cases hturn
        intro hsize
        simp [InstList.size] at hsize
      · rename_i hdec
        cases hturn
        intro hsize
        obtain ⟨hstart, hfailed⟩ := ih hsize
        refine ⟨hstart, fun n hn hnext => ?_⟩
        rcases Nat.lt_or_ge n t.stop with hbefore | hlast
        · exact hfailed n hn hbefore
        · obtain rfl : n = t.stop := by
            simp only at hnext
            omega
          rwa [hstart, Nat.sub_zero] at hdec

theorem nothing_found (hlen : length < 2 ^ 32 - 1) (h : NothingAtStart d data length)
    {s : DisassState ι} (hs : Reached (disassembleTurn d data length) (disassembleInit base) s) :
    s.start = 0 ∧ s.ret.size = 0 := by
  induction hs with
  | start => exact ⟨rfl, rfl⟩
  | @next t u ht hturn ih =>
      have hlt := (windowInv_reached d data base hlen ht).start_lt
      rw [disassembleTurn] at hturn
      split_ifs at hturn with hguard
      have hnone := h t.stop (by omega) hguard.2
      rw [sub_word hlt.le (by omega), ih.1, Nat.sub_zero, hnone] at hturn
      cases hturn
      exact ⟨rfl, ih.2⟩

/-- `_disassemble` finds no instruction iff nothing decodes at the start. -/
theorem size_eq_zero_iff (hlen : length < 2 ^ 32 - 1) {l : InstList ι}
    (h : Disassembles d data length base l) : l.size = 0 ↔ NothingAtStart d data length := by
  obtain ⟨s, hs, hdone⟩ := h.last
  rw [disassembleTurn] at hdone
  split_ifs at hdone with hguard
  · split at hdone <;> cases hdone
  · cases hdone
    constructor
    · intro hsize
      obtain ⟨hstart, hfailed⟩ := foundInv_reached d data base hlen hs hsize
      exact fun n hn hle => hfailed n hn (by omega)
    · exact fun hnothing => (nothing_found d data base hlen hnothing hs).2

end

/-! ## A range of `2^32 - 1` bytes

With this length the test of `stop` never fails and the counters go round: `_disassemble`
ends only when an instruction ends exactly with the range. -/

section

variable (data : ℕ → UInt8)

/-- Position `q` is the first one, round the counters from `p`, at which a window decodes. -/
def RingStep (p q : ℕ) : Prop :=
  ∃ n, 0 < n ∧ n ≤ 2 ^ 32 ∧ q = (p + n) % 2 ^ 32 ∧
    d.decode (window data p (n % 2 ^ 32)) ≠ none ∧
    ∀ k, 0 < k → k < n → d.decode (window data p k) = none

/-- The windows lead from the start of the range to its end. -/
def RingPath (p : ℕ) : Prop := Relation.ReflTransGen (RingStep d data) p (2 ^ 32 - 1)

/-- The width of the window, when its end is `n` positions behind the start. -/
theorem ring_width {p n : ℕ} (hp : p < 2 ^ 32) :
    ((p + n) % 2 ^ 32 + 2 ^ 32 - p) % 2 ^ 32 = n % 2 ^ 32 := by
  omega

theorem ring_next (p n : ℕ) : ((p + n) % 2 ^ 32 + 1) % 2 ^ 32 = (p + (n + 1)) % 2 ^ 32 := by
  omega

/-- A run that ends has followed the windows to the end of the range. -/
theorem ringPath_of_run {fuel : ℕ} {s : DisassState ι} {n : ℕ} {l : InstList ι}
    (hstart : s.start < 2 ^ 32) (hn : 0 < n) (hle : n ≤ 2 ^ 32)
    (hstop : s.stop = (s.start + n) % 2 ^ 32)
    (hfailed : ∀ k, 0 < k → k < n → d.decode (window data s.start k) = none)
    (hrun : runLoop (disassembleTurn d data (2 ^ 32 - 1)) fuel s = some l) :
    RingPath d data s.start := by
  induction fuel generalizing s n with
  | zero => cases hrun
  | succ fuel ih =>
      by_cases hguard : s.start < 2 ^ 32 - 1 ∧ s.stop ≤ 2 ^ 32 - 1
      · have hwidth : (s.stop + 2 ^ 32 - s.start) % 2 ^ 32 = n % 2 ^ 32 := by
          rw [hstop, ring_width hstart]
        cases hdec : d.decode (window data s.start (n % 2 ^ 32)) with
        | some xedd =>
            have hturn : disassembleTurn d data (2 ^ 32 - 1) s =
                .next ⟨s.stop, (s.stop + 1) % 2 ^ 32, s.ret.append xedd⟩ := by
              rw [disassembleTurn, if_pos hguard, hwidth, hdec]
            rw [runLoop_next hturn] at hrun
            have hrest := ih (s := ⟨s.stop, (s.stop + 1) % 2 ^ 32, s.ret.append xedd⟩) (n := 1)
              (by rw [hstop]; exact Nat.mod_lt _ (by decide)) (by decide) (by decide) rfl
              (fun k hk hlt => absurd hlt (by omega)) hrun
            exact Relation.ReflTransGen.head
              ⟨n, hn, hle, hstop, by rw [hdec]; simp, hfailed⟩ hrest
        | none =>
            have hturn : disassembleTurn d data (2 ^ 32 - 1) s =
                .next { s with stop := (s.stop + 1) % 2 ^ 32 } := by
              rw [disassembleTurn, if_pos hguard, hwidth, hdec]
            rw [runLoop_next hturn] at hrun
            rcases Nat.lt_or_ge n (2 ^ 32) with hlt | hge
            · refine ih (s := { s with stop := (s.stop + 1) % 2 ^ 32 }) (n := n + 1) hstart
                (by omega) (by omega) ?_ ?_ hrun
              · simp only [hstop, ring_next]
              · intro k hk hkn
                rcases Nat.lt_or_ge k n with hbefore | hlast
                · exact hfailed k hk hbefore
                · obtain rfl : k = n := by omega
                  rwa [Nat.mod_eq_of_lt hlt] at hdec
            · -- the whole ring has failed: the next turn starts over
              refine ih (s := { s with stop := (s.stop + 1) % 2 ^ 32 }) (n := 1) hstart
                (by decide) (by decide) ?_ (fun k hk hkn => absurd hkn (by omega)) hrun
              simp only [hstop]
              omega
      · have hend : s.start = 2 ^ 32 - 1 := by
          have : s.stop < 2 ^ 32 := by
            rw [hstop]
            exact Nat.mod_lt _ (by decide)
          omega
        rw [RingPath, hend]

/-- The windows that fail are passed one by one. -/
theorem returns_of_failed {start n : ℕ} {ret l : InstList ι} (hstart : start < 2 ^ 32 - 1)
    (hn : 1 ≤ n) (hle : n ≤ 2 ^ 32)
    (hfailed : ∀ k, 0 < k → k < n → d.decode (window data start k) = none)
    (h : Returns (disassembleTurn d data (2 ^ 32 - 1)) ⟨start, (start + n) % 2 ^ 32, ret⟩ l) :
    Returns (disassembleTurn d data (2 ^ 32 - 1)) ⟨start, (start + 1) % 2 ^ 32, ret⟩ l := by
  induction n, hn using Nat.le_induction with
  | base => exact h
  | succ n hn ih =>
      refine ih (by omega) (fun k hk hlt => hfailed k hk (by omega)) (Returns.of_next ?_ h)
      have hguard : start < 2 ^ 32 - 1 ∧ (start + n) % 2 ^ 32 ≤ 2 ^ 32 - 1 := by omega
      rw [disassembleTurn, if_pos hguard, ring_width (by omega),
        Nat.mod_eq_of_lt (by omega : n < 2 ^ 32), hfailed n hn (by omega), ring_next]

/-- A run that follows the windows ends, and it has found an instruction unless it was at
the end already. -/
theorem returns_of_ringPath {p : ℕ} (hp : p < 2 ^ 32) (h : RingPath d data p) (ret : InstList ι) :
    ∃ l, Returns (disassembleTurn d data (2 ^ 32 - 1)) ⟨p, (p + 1) % 2 ^ 32, ret⟩ l ∧
      ret.size ≤ l.size ∧ (p < 2 ^ 32 - 1 → l.size ≠ 0) := by
  have hend : ∀ ret : InstList ι, Returns (disassembleTurn d data (2 ^ 32 - 1))
      ⟨2 ^ 32 - 1, (2 ^ 32 - 1 + 1) % 2 ^ 32, ret⟩ ret := fun ret =>
    Returns.of_done (if_neg fun hguard => Nat.lt_irrefl _ hguard.1)
  induction h using Relation.ReflTransGen.head_induction_on generalizing ret with
  | refl => exact ⟨ret, hend ret, le_refl _, fun hlt => absurd hlt (Nat.lt_irrefl _)⟩
  | @head p q hstep _ ih =>
      rcases Nat.lt_or_ge p (2 ^ 32 - 1) with hlt | hge
      · obtain ⟨n, hn, hle, rfl, hdec, hfailed⟩ := hstep
        obtain ⟨xedd, hxedd⟩ := Option.ne_none_iff_exists'.mp hdec
        obtain ⟨l, hl, hsize, -⟩ := ih (Nat.mod_lt _ (by decide)) (ret.append xedd)
        have hgrown : (ret.append xedd).size = ret.size + 1 := by
          rw [InstList.size, InstList.append_instArray, List.length_append, List.length_singleton]
          rfl
        refine ⟨l, returns_of_failed d data hlt hn hle hfailed (Returns.of_next ?_ hl),
          by omega, fun _ => by omega⟩
        have hguard : p < 2 ^ 32 - 1 ∧ (p + n) % 2 ^ 32 ≤ 2 ^ 32 - 1 := by omega
        rw [disassembleTurn, if_pos hguard, ring_width hp, hxedd]
      · obtain rfl : p = 2 ^ 32 - 1 := by omega
        exact ⟨ret, hend ret, le_refl _, fun hlt => absurd hlt (Nat.lt_irrefl _)⟩

variable (base : ℕ)

/-- On the longest range `_disassemble` ends iff the windows lead to its end. -/
theorem exists_disassembles_iff_ringPath :
    (∃ l, Disassembles d data (2 ^ 32 - 1) base l) ↔ RingPath d data 0 := by
  constructor
  · rintro ⟨l, fuel, hrun⟩
    exact ringPath_of_run d data (s := disassembleInit base) (n := 1) (Nat.two_pow_pos 32)
      (by decide) (by decide) rfl (fun k hk hlt => absurd hlt (by omega)) hrun
  · intro hpath
    obtain ⟨l, hl, -⟩ := returns_of_ringPath d data (by decide) hpath (instListInit base)
    exact ⟨l, hl⟩

theorem size_ne_zero_of_ringPath (hpath : RingPath d data 0) {l : InstList ι}
    (h : Disassembles d data (2 ^ 32 - 1) base l) : l.size ≠ 0 := by
  obtain ⟨l', hl', -, hsize⟩ := returns_of_ringPath d data (by decide) hpath (instListInit base)
  obtain rfl := h.unique hl'
  exact hsize (by decide)

end

/-! ## The retry loop -/

variable {d} {env : Surroundings} {m : ElfModule} {offset stop : ℕ}

/-- The sizes of the requests. -/
theorem exists_of_reachedNested {toOffset : Option ℤ} {chunkSize : ℕ}
    (h : ReachedNested (getBasicBlockTurn d env m offset toOffset) 64 chunkSize) :
    ∃ k, chunkSize = 64 * 2 ^ k := by
  induction h with
  | start => exact ⟨0, rfl⟩
  | next _ hturn ih =>
      obtain ⟨k, rfl⟩ := ih
      rcases (turnEnds_iff d env m offset toOffset).mp hturn with
        ⟨-, hdone⟩ | ⟨-, -, bb, -, hbb⟩
      · cases hdone
      · rw [turnOf] at hbb
        split_ifs at hbb
        cases hbb
        exact ⟨k + 1, by rw [Nat.pow_succ, Nat.mul_assoc]⟩

section

variable (hle : offset ≤ stop) (hconv : stop - offset < 2 ^ 32 ∧ offset < 2 ^ 32)

include hle hconv

/-- A range of `2^32 - 1` bytes is disassembled in the first turn or never. -/
theorem exists_returns_ring_iff (hreads : Reads env 64) (hring : stop - offset = 2 ^ 32 - 1) :
    (∃ r, ReturnsNested (getBasicBlockTurn d env m offset (some (stop : ℤ))) 64 r) ↔
      RingPath d (chunkMemory env m offset 64) 0 := by
  constructor
  · rintro ⟨r, hr⟩
    obtain ⟨t, ht⟩ : ∃ t, TurnEnds (getBasicBlockTurn d env m offset (some (stop : ℤ))) 64 t := by
      rcases hr.cases with hdone | ⟨_, hnext, -⟩
      · exact ⟨_, hdone⟩
      · exact ⟨_, hnext⟩
    rcases (turnEnds_iff d env m offset _).mp ht with ⟨hno, -⟩ | ⟨-, -, bb, hbb, -⟩
    · exact absurd ⟨hreads, (converts_to_iff hle 64).mpr hconv⟩ hno
    · rw [chunkLength_to hle, hring] at hbb
      exact (exists_disassembles_iff_ringPath d _ offset).mp ⟨bb, hbb⟩
  · intro hpath
    obtain ⟨bb, hbb⟩ := (exists_disassembles_iff_ringPath d _ offset).mpr hpath
    have hsize := size_ne_zero_of_ringPath d _ offset hpath hbb
    refine ⟨.ok bb, .of_done ((turnEnds_iff d env m offset _).mpr (.inr
      ⟨hreads, (converts_to_iff hle 64).mpr hconv, bb, ?_, by rw [turnOf, if_neg hsize]⟩))⟩
    rwa [chunkLength_to hle, hring]

variable (d env m) in
/-- On a shorter range every turn ends; it is the last one when the request is too large or
something decodes. -/
theorem turnEnds_short (hshort : stop - offset < 2 ^ 32 - 1) (chunkSize : ℕ) :
    (Reads env chunkSize ∧ NothingAtStart d (chunkMemory env m offset chunkSize) (stop - offset) ∧
      TurnEnds (getBasicBlockTurn d env m offset (some (stop : ℤ))) chunkSize
        (.next (chunkSize * 2))) ∨
    (¬ (Reads env chunkSize ∧
        NothingAtStart d (chunkMemory env m offset chunkSize) (stop - offset)) ∧
      ∃ r, TurnEnds (getBasicBlockTurn d env m offset (some (stop : ℤ))) chunkSize (.done r)) := by
  by_cases hreads : Reads env chunkSize
  · obtain ⟨bb, hbb⟩ :=
      exists_disassembles d (chunkMemory env m offset chunkSize) offset hshort
    have hsize := size_eq_zero_iff d _ offset hshort hbb
    have hturn : TurnEnds (getBasicBlockTurn d env m offset (some (stop : ℤ))) chunkSize
        (turnOf chunkSize bb) :=
      (turnEnds_iff d env m offset _).mpr (.inr ⟨hreads, (converts_to_iff hle _).mpr hconv, bb,
        by rwa [chunkLength_to hle], rfl⟩)
    by_cases hzero : bb.size = 0
    · rw [turnOf, if_pos hzero] at hturn
      exact .inl ⟨hreads, hsize.mp hzero, hturn⟩
    · rw [turnOf, if_neg hzero] at hturn
      exact .inr ⟨fun h => hzero (hsize.mpr h.2), _, hturn⟩
  · exact .inr ⟨fun h => hreads h.1, _,
      (turnEnds_iff d env m offset _).mpr (.inl ⟨fun h => hreads h.1, rfl⟩)⟩

/-- A shorter range is tried until something decodes or the request grows too large. -/
theorem exists_returns_short_iff (hshort : stop - offset < 2 ^ 32 - 1) :
    (∃ r, ReturnsNested (getBasicBlockTurn d env m offset (some (stop : ℤ))) 64 r) ↔
      env.readLimit ≠ none ∨
        ∃ k, ¬ NothingAtStart d (chunkMemory env m offset (64 * 2 ^ k)) (stop - offset) := by
  have hsteady := steady_getBasicBlockTurn d env m offset (some (stop : ℤ))
  constructor
  · rintro ⟨r, hr⟩
    obtain ⟨chunkSize, hreached, hdone⟩ := hr.last
    obtain ⟨k, rfl⟩ := exists_of_reachedNested hreached
    rcases turnEnds_short d env m hle hconv hshort (64 * 2 ^ k) with
      ⟨-, -, hnext⟩ | ⟨hlast, -⟩
    · cases hdone.unique hsteady hnext
    · by_cases hreads : Reads env (64 * 2 ^ k)
      · exact .inr ⟨k, fun hnothing => hlast ⟨hreads, hnothing⟩⟩
      · refine .inl fun hnone => hreads fun limit hmem => ?_
        rw [hnone] at hmem
        cases hmem
  · intro hcond
    obtain ⟨k, hk⟩ : ∃ k, ¬ (Reads env (64 * 2 ^ k) ∧
        NothingAtStart d (chunkMemory env m offset (64 * 2 ^ k)) (stop - offset)) := by
      rcases hcond with hlimit | ⟨k, hk⟩
      · obtain ⟨limit, hlimit⟩ := Option.ne_none_iff_exists'.mp hlimit
        refine ⟨limit, fun h => ?_⟩
        have hbound := h.1 limit hlimit
        have hpow : limit < 2 ^ limit := Nat.lt_two_pow_self
        omega
      · exact ⟨k, fun h => hk h.2⟩
    refine exists_returnsNested_of_sequence hsteady (f := fun k => 64 * 2 ^ k) (k := k) ?_ ?_
    · intro j
      rcases turnEnds_short d env m hle hconv hshort (64 * 2 ^ j) with
        ⟨-, -, hnext⟩ | ⟨-, hdone⟩
      · left
        simpa only [Nat.pow_succ, Nat.mul_assoc] using hnext
      · exact .inr hdone
    · rcases turnEnds_short d env m hle hconv hshort (64 * 2 ^ k) with
        ⟨hreads, hnothing, -⟩ | ⟨-, hdone⟩
      · exact absurd ⟨hreads, hnothing⟩ hk
      · exact hdone

end

/-- `get_basic_block` ends exactly when the first request or the conversions of the wrapper
fail, when a range of `2^32 - 1` bytes is run through to its end, or when on a shorter one
the requests are bounded or some window at its start decodes. -/
theorem get_basic_block_terminates_iff (d : Decoder ι) (env : Surroundings) (m : ElfModule)
    (offset stop : ℕ) (sec : Section) (hsec : m.elf.getSectionByOffset offset = .ok sec)
    (hle : offset ≤ stop) :
    (∃ r, GetsBasicBlock d env m offset (some (stop : ℤ)) r) ↔
      ¬ Reads env 64 ∨ 2 ^ 32 ≤ stop - offset ∨ 2 ^ 32 ≤ offset ∨
      (stop - offset = 2 ^ 32 - 1 ∧ RingPath d (chunkMemory env m offset 64) 0) ∨
      (stop - offset < 2 ^ 32 - 1 ∧ (env.readLimit ≠ none ∨
        ∃ k, ¬ NothingAtStart d (chunkMemory env m offset (64 * 2 ^ k)) (stop - offset))) := by
  simp only [getsBasicBlock_iff d env m offset _ hsec]
  have hraises : ¬ (Reads env 64 ∧ stop - offset < 2 ^ 32 ∧ offset < 2 ^ 32) →
      ∃ r, ReturnsNested (getBasicBlockTurn d env m offset (some (stop : ℤ))) 64 r := fun hno =>
    ⟨_, .of_done ((turnEnds_iff d env m offset _).mpr (.inl
      ⟨fun h => hno ⟨h.1, (converts_to_iff hle 64).mp h.2⟩, rfl⟩))⟩
  by_cases hreads : Reads env 64
  · by_cases hconv : stop - offset < 2 ^ 32 ∧ offset < 2 ^ 32
    · have hlength : ¬ 2 ^ 32 ≤ stop - offset := by omega
      have hoffset : ¬ 2 ^ 32 ≤ offset := by omega
      simp only [hreads, not_true_eq_false, hlength, hoffset, false_or]
      rcases Nat.lt_or_ge (stop - offset) (2 ^ 32 - 1) with hshort | hlong
      · have hring : ¬ stop - offset = 2 ^ 32 - 1 := by omega
        simp only [hshort, hring, true_and, false_and, false_or]
        exact exists_returns_short_iff hle hconv hshort
      · have hring : stop - offset = 2 ^ 32 - 1 := by omega
        simp only [hring, Nat.lt_irrefl, true_and, false_and, or_false]
        exact exists_returns_ring_iff hle hconv hreads hring
    · refine iff_of_true (hraises fun h => hconv h.2) ?_
      omega
  · exact iff_of_true (hraises fun h => hreads h.1) (.inl hreads)

/-- An empty range ends when the requests do. -/
theorem get_basic_block_terminates_iff_nopModule :
    (∃ r, GetsBasicBlock shortDecoder.toDecoder zeroSurroundings nopModule 64
        (some ((64 : ℕ) : ℤ)) r) ↔
      ¬ Reads zeroSurroundings 64 ∨ 2 ^ 32 ≤ 64 - 64 ∨ 2 ^ 32 ≤ 64 ∨
      (64 - 64 = 2 ^ 32 - 1 ∧
        RingPath shortDecoder.toDecoder (chunkMemory zeroSurroundings nopModule 64 64) 0) ∨
      (64 - 64 < 2 ^ 32 - 1 ∧ (zeroSurroundings.readLimit ≠ none ∨
        ∃ k, ¬ NothingAtStart shortDecoder.toDecoder
          (chunkMemory zeroSurroundings nopModule 64 (64 * 2 ^ k)) (64 - 64))) :=
  get_basic_block_terminates_iff shortDecoder.toDecoder zeroSurroundings nopModule 64 64
    ⟨.other 1, 6, 0, 64, 72⟩ (by decide +kernel) (le_refl _)

/-! ## A range that is run round for ever -/

/-- A file whose `.text` is one byte, `PUSH ES`, which is no instruction of x86-64. -/
def pushEsModule : ElfModule := objectFile [0x06]

theorem decode_pushEs (n : ℕ) :
    shortDecoder.decode (window (chunkMemory zeroSurroundings pushEsModule 64 64) 0 n) = none := by
  cases n with
  | zero => rfl
  | succ n =>
      rw [window, List.range_succ_eq_map, List.map_cons]
      rfl

/-- `get_basic_block(module, 64, 64 + 2**32 - 1)` neither returns nor raises. -/
theorem get_basic_block_pushEsModule :
    pushEsModule.elf.getSectionByOffset 64 = .ok ⟨.other 1, 6, 0, 64, 1⟩ ∧
    zeroSurroundings.readLimit = some (2 ^ 63 - 1) ∧
    ¬ ∃ r, GetsBasicBlock shortDecoder.toDecoder zeroSurroundings pushEsModule 64
      (some ((64 + (2 ^ 32 - 1) : ℕ) : ℤ)) r := by
  have hsec : pushEsModule.elf.getSectionByOffset 64 = .ok ⟨.other 1, 6, 0, 64, 1⟩ := by
    decide +kernel
  refine ⟨hsec, rfl, ?_⟩
  simp only [getsBasicBlock_iff _ _ _ _ _ hsec]
  rw [exists_returns_ring_iff (Nat.le_add_right _ _) (by decide) reads_zeroSurroundings rfl]
  intro hpath
  rcases Relation.ReflTransGen.cases_head hpath with hzero | ⟨q, ⟨n, -, -, -, hdec, -⟩, -⟩
  · cases hzero
  · exact hdec (decode_pushEs _)

end CProfiler.Disass
