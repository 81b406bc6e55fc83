import CProfiler.Foundation.Sweep
import CProfiler.Model.XedBbChop

/-! # The sweep of a code section

In a well-formed image the sections lie in the file, so the sweep of a section never
wraps: it visits the positions of a linear sweep and collects their cut points. -/

namespace CProfiler.BbChop

open CProfiler.Foundation CProfiler.Model

/-! ## Well-formed images -/

/-- An image of `fsize` bytes whose code sections lie in it, behind the file header. -/
structure SectionsInside (elfData : ElfData) (fsize : ℕ) : Prop where
  fsize_lt : fsize < 2 ^ 32
  sections_inside : ∀ i < (elfHdr elfData).eShnum, ∀ s, hasName elfData i s = true →
    64 ≤ (elfShdr elfData i).shOffset ∧
      (elfShdr elfData i).shOffset + (elfShdr elfData i).shSize ≤ fsize

/-- An ELF64 image of `fsize` bytes: its section headers, symbols and code sections lie in
the file, the sections behind the file header; there is a symbol table. -/
structure WellFormed (elfData : ElfData) (fsize : ℕ) : Prop where
  fsize_lt : fsize < 2 ^ 32
  headers_inside : (elfHdr elfData).eShoff + 64 * (elfHdr elfData).eShnum ≤ fsize
  sections_lt : (elfHdr elfData).eShnum < 2 ^ 15
  symtab_exists : ∃ i < (elfHdr elfData).eShnum, (elfShdr elfData i).shType = shtSymtab
  symbols_lt : ∀ i < (elfHdr elfData).eShnum, (elfShdr elfData i).shType = shtSymtab →
    (elfShdr elfData i).shSize / (elfShdr elfData i).shEntsize < 2 ^ 16
  symbols_inside : ∀ i < (elfHdr elfData).eShnum, (elfShdr elfData i).shType = shtSymtab →
    (elfShdr elfData i).shOffset + (elfShdr elfData i).shSize ≤ fsize
  sections_inside : ∀ i < (elfHdr elfData).eShnum, ∀ s, hasName elfData i s = true →
    64 ≤ (elfShdr elfData i).shOffset ∧
      (elfShdr elfData i).shOffset + (elfShdr elfData i).shSize ≤ fsize

/-- Where a section starts and ends, as the sweep takes it. -/
def sectionStart (elfData : ElfData) (s : ElfSection) : ℕ := (getSectionsInfo elfData).bases s

def sectionEnd (elfData : ElfData) (s : ElfSection) : ℕ :=
  ((getSectionsInfo elfData).bases s + (getSectionsInfo elfData).sizes s) % 2 ^ 64

/-! ## Recorded sections -/

/-- The last section of the image that bears the name of `s`. -/
structure LastNamed (elfData : ElfData) (s : ElfSection) (i : ℕ) : Prop where
  lt : i < (elfHdr elfData).eShnum
  named : hasName elfData i s = true
  last : ∀ j, i < j → j < (elfHdr elfData).eShnum → hasName elfData j s = false

/-- No section of the image bears the name of `s`. -/
def Unnamed (elfData : ElfData) (s : ElfSection) : Prop :=
  ∀ i < (elfHdr elfData).eShnum, hasName elfData i s = false

theorem LastNamed.unique {elfData : ElfData} {s : ElfSection} {i j : ℕ}
    (hi : LastNamed elfData s i) (hj : LastNamed elfData s j) : i = j := by
  rcases Nat.lt_trichotomy i j with hlt | heq | hgt
  · have := hi.last j hlt hj.lt
    rw [hj.named] at this
    cases this
  · exact heq
  · have := hj.last i hgt hi.lt
    rw [hi.named] at this
    cases this

theorem Unnamed.not_lastNamed {elfData : ElfData} {s : ElfSection} (h : Unnamed elfData s)
    (i : ℕ) : ¬ LastNamed elfData s i := by
  intro hi
  have := h i hi.lt
  rw [hi.named] at this
  cases this

/-- What one turn of `get_sections_info` records for a section. -/
theorem recordSection_turn (elfData : ElfData) (i : ℕ) (info : SectionsInfo) (t : ElfSection) :
    let info' := [ElfSection.text, .init, .fini, .plt].foldl (recordSection elfData i) info
    (hasName elfData i t = true → info'.bases t = (elfShdr elfData i).shOffset ∧
      info'.sizes t = (elfShdr elfData i).shSize) ∧
    (hasName elfData i t = false → info'.bases t = info.bases t ∧
      info'.sizes t = info.sizes t) := by
  have hkeep : ∀ (info : SectionsInfo) (s : ElfSection), s ≠ t ∨ hasName elfData i s = false →
      (recordSection elfData i info s).bases t = info.bases t ∧
        (recordSection elfData i info s).sizes t = info.sizes t := by
    intro info s hs
    cases hname : hasName elfData i s with
    | false => simp [recordSection, hname]
    | true =>
        have hne : t ≠ s := by
          rintro rfl
          simp [hname] at hs
        simp [recordSection, hname, Function.update_of_ne hne]
  have htake : ∀ info : SectionsInfo, hasName elfData i t = true →
      (recordSection elfData i info t).bases t = (elfShdr elfData i).shOffset ∧
        (recordSection elfData i info t).sizes t = (elfShdr elfData i).shSize := by
    intro info hname
    simp [recordSection, hname]
  simp only [List.foldl_cons, List.foldl_nil]
  constructor
  · intro hname
    cases t <;> simp [hkeep, htake, hname]
  · intro hname
    cases t <;> simp [hkeep, hname]

/-- The vectors hold the last section of each name, and zeros when there is none. -/
theorem getSectionsInfo_cases (elfData : ElfData) (s : ElfSection) :
    (Unnamed elfData s ∧ (getSectionsInfo elfData).bases s = 0 ∧
      (getSectionsInfo elfData).sizes s = 0) ∨
    ∃ i, LastNamed elfData s i ∧
      (getSectionsInfo elfData).bases s = (elfShdr elfData i).shOffset ∧
      (getSectionsInfo elfData).sizes s = (elfShdr elfData i).shSize := by
  have hset := fun info n hname => (recordSection_turn elfData n info s).1 hname
  have hkeep := fun info n (hname : ¬ hasName elfData n s = true) =>
    (recordSection_turn elfData n info s).2 (Bool.eq_false_iff.mpr hname)
  have hlast := foldl_range_last
    (fun info i => [ElfSection.text, .init, .fini, .plt].foldl (recordSection elfData i) info)
    ⟨fun _ => 0, fun _ => 0⟩ (fun i => hasName elfData i s = true)
    (fun info => info.bases s = 0 ∧ info.sizes s = 0)
    (fun i info => info.bases s = (elfShdr elfData (i : ℕ)).shOffset ∧
      info.sizes s = (elfShdr elfData (i : ℕ)).shSize)
    ⟨rfl, rfl⟩ hset
    (fun info n hname hinfo => ⟨(hkeep info n hname).1.trans hinfo.1,
      (hkeep info n hname).2.trans hinfo.2⟩)
    (fun info n _ hname hinfo => ⟨(hkeep info n hname).1.trans hinfo.1,
      (hkeep info n hname).2.trans hinfo.2⟩) (elfHdr elfData).eShnum
  rcases hlast with ⟨hnone, hinfo⟩ | ⟨i, hi, hnamed, hafter, hinfo⟩
  · exact .inl ⟨fun i hi => Bool.eq_false_iff.mpr (hnone i hi), hinfo⟩
  · exact .inr ⟨i, ⟨hi, hnamed, fun j hij hj => Bool.eq_false_iff.mpr (hafter j hij hj)⟩, hinfo⟩

/-- A recorded section is empty, or the section of a header with its name. -/
def Recorded (elfData : ElfData) (info : SectionsInfo) : Prop :=
  ∀ s, (info.bases s = 0 ∧ info.sizes s = 0) ∨
    ∃ i < (elfHdr elfData).eShnum, hasName elfData i s = true ∧
      info.bases s = (elfShdr elfData i).shOffset ∧ info.sizes s = (elfShdr elfData i).shSize

theorem getSectionsInfo_recorded (elfData : ElfData) :
    Recorded elfData (getSectionsInfo elfData) := by
  intro s
  rcases getSectionsInfo_cases elfData s with ⟨-, hinfo⟩ | ⟨i, hi, hinfo⟩
  · exact .inl hinfo
  · exact .inr ⟨i, hi.lt, hi.named, hinfo⟩

namespace SectionsInside

variable {elfData : ElfData} {fsize : ℕ}

theorem section_inside (h : SectionsInside elfData fsize) (s : ElfSection) :
    (getSectionsInfo elfData).bases s + (getSectionsInfo elfData).sizes s ≤ fsize := by
  rcases getSectionsInfo_recorded elfData s with ⟨hbase, hsize⟩ | ⟨i, hi, hname, hbase, hsize⟩
  · omega
  · have hinside := (h.sections_inside i hi s hname).2
    omega

theorem sectionEnd_eq (h : SectionsInside elfData fsize) (s : ElfSection) :
    sectionEnd elfData s =
      (getSectionsInfo elfData).bases s + (getSectionsInfo elfData).sizes s := by
  have hinside := h.section_inside s
  have hlt := h.fsize_lt
  exact Nat.mod_eq_of_lt (by omega)

theorem sectionEnd_le (h : SectionsInside elfData fsize) (s : ElfSection) :
    sectionEnd elfData s ≤ fsize := by
  rw [h.sectionEnd_eq]
  exact h.section_inside s

/-- A section that is not empty lies behind the header of the file. -/
theorem header_le_sectionStart (h : SectionsInside elfData fsize) {s : ElfSection}
    (hne : sectionStart elfData s < sectionEnd elfData s) : 64 ≤ sectionStart elfData s := by
  rw [h.sectionEnd_eq] at hne
  rcases getSectionsInfo_recorded elfData s with ⟨hbase, hsize⟩ | ⟨i, hi, hname, hbase, hsize⟩
  · simp only [sectionStart] at hne
    omega
  · have hinside := (h.sections_inside i hi s hname).1
    rw [sectionStart, hbase]
    exact hinside

end SectionsInside

namespace WellFormed

variable {elfData : ElfData} {fsize : ℕ}

theorem sectionsInside (h : WellFormed elfData fsize) : SectionsInside elfData fsize :=
  ⟨h.fsize_lt, h.sections_inside⟩

theorem sectionEnd_le (h : WellFormed elfData fsize) (s : ElfSection) :
    sectionEnd elfData s ≤ fsize :=
  h.sectionsInside.sectionEnd_le s

end WellFormed

/-! ## Positions and instructions of a sweep -/

variable {ι : Type} (d : Decoder ι) (elfData : ElfData)

/-- The address of the next turn, away from the end of the address space. -/
def sweepNext (p : ℕ) : ℕ := skip (decodeAt d elfData) d.length p

/-- The sweep of a section decodes the instruction at the address, in one of its turns. -/
def SweptAt (s : ElfSection) (p : ℕ) (i : ι) : Prop :=
  ∃ addrs t, Reached (sweepTurn d elfData (sectionEnd elfData s))
      ⟨sectionStart elfData s, addrs⟩ t ∧
    t.decodeWindowStart = p ∧ p < sectionEnd elfData s ∧ decodeAt d elfData p = some i

/-- The addresses that the sweep inserts for an instruction. -/
def cuts (p : ℕ) (i : ι) : Finset ℕ := insertCuts d p i ∅

theorem mem_insertCuts {x p : ℕ} {i : ι} {addrs : Finset ℕ} :
    x ∈ insertCuts d p i addrs ↔ x ∈ cuts d p i ∨ x ∈ addrs := by
  simp only [cuts, insertCuts]
  split
  · split
    · simp [or_assoc]
    · simp
  · simp

theorem decodeAt_length {p : ℕ} {i : ι} (h : decodeAt d elfData p = some i) :
    1 ≤ d.length i ∧ d.length i ≤ 15 := ⟨d.length_pos h, d.length_le h⟩

theorem lt_sweepNext (p : ℕ) : p < sweepNext d elfData p :=
  lt_skip (fun _ _ h => (decodeAt_length d elfData h).1) p

theorem sweepNext_le (p : ℕ) : sweepNext d elfData p ≤ p + 15 := by
  cases h : decodeAt d elfData p with
  | none => simp [sweepNext, skip, h]
  | some i =>
      have hlen := (decodeAt_length d elfData h).2
      rw [sweepNext, skip_of_some h]
      omega

/-! ## One turn -/

/-- The cut points of the instruction at an address, if there is one. -/
def turnAddrs (p : ℕ) (addrs : Finset ℕ) : Finset ℕ :=
  match decodeAt d elfData p with
  | some i => insertCuts d p i addrs
  | none => addrs

theorem mem_turnAddrs {x p : ℕ} {addrs : Finset ℕ} :
    x ∈ turnAddrs d elfData p addrs ↔
      (∃ i, decodeAt d elfData p = some i ∧ x ∈ cuts d p i) ∨ x ∈ addrs := by
  cases h : decodeAt d elfData p with
  | none => simp [turnAddrs, h]
  | some i => simp [turnAddrs, h, mem_insertCuts]

variable {stop : ℕ}

theorem sweepTurn_of_lt (hstop : stop ≤ 2 ^ 32) {t : SweepState} (h : t.decodeWindowStart < stop) :
    sweepTurn d elfData stop t = .next ⟨sweepNext d elfData t.decodeWindowStart,
      turnAddrs d elfData t.decodeWindowStart t.addrs⟩ := by
  have hle := sweepNext_le d elfData t.decodeWindowStart
  cases hdec : decodeAt d elfData t.decodeWindowStart with
  | none =>
      simp only [sweepNext, skip, hdec] at hle ⊢
      simp only [sweepTurn, if_pos h, hdec, turnAddrs]
      rw [Nat.mod_eq_of_lt (by omega)]
  | some i =>
      simp only [sweepNext, skip, hdec] at hle ⊢
      simp only [sweepTurn, if_pos h, hdec, turnAddrs]
      rw [Nat.mod_eq_of_lt (by omega)]

theorem sweepTurn_of_le {t : SweepState} (h : stop ≤ t.decodeWindowStart) :
    sweepTurn d elfData stop t = .done t.addrs := by
  rw [sweepTurn, if_neg (by omega)]

/-! ## The positions of the loop -/

/-- The loop starts its turns at the positions of the linear sweep. -/
theorem visits_of_reached (hstop : stop ≤ 2 ^ 32) {t t' : SweepState}
    (h : Reached (sweepTurn d elfData stop) t t') :
    Visits (sweepNext d elfData) stop t.decodeWindowStart t'.decodeWindowStart := by
  induction h with
  | start => exact Visits.refl _
  | @next u u' _ hturn ih =>
      rcases Nat.lt_or_ge u.decodeWindowStart stop with hlt | hge
      · rw [sweepTurn_of_lt d elfData hstop hlt] at hturn
        obtain rfl := Turn.next.inj hturn
        exact ih.turn hlt
      · rw [sweepTurn_of_le d elfData hge] at hturn
        simp at hturn

theorem reached_of_visits (hstop : stop ≤ 2 ^ 32) {base p : ℕ} (addrs : Finset ℕ)
    (h : Visits (sweepNext d elfData) stop base p) :
    ∃ t, Reached (sweepTurn d elfData stop) ⟨base, addrs⟩ t ∧ t.decodeWindowStart = p := by
  induction h with
  | refl => exact ⟨_, .start, rfl⟩
  | tail _ hstep ih =>
      rcases hstep with ⟨hlt, rfl⟩
      rcases ih with ⟨t, ht, rfl⟩
      exact ⟨_, ht.next (sweepTurn_of_lt d elfData hstop hlt), rfl⟩

variable {elfData} in
theorem SectionsInside.sweptAt_iff {fsize : ℕ} (h : SectionsInside elfData fsize)
    {s : ElfSection} {p : ℕ} {i : ι} :
    SweptAt d elfData s p i ↔
      Visits (sweepNext d elfData) (sectionEnd elfData s) (sectionStart elfData s) p ∧
        p < sectionEnd elfData s ∧ decodeAt d elfData p = some i := by
  have hend := h.sectionEnd_le s
  have hlt := h.fsize_lt
  constructor
  · rintro ⟨addrs, t, ht, rfl, hp, hdec⟩
    exact ⟨visits_of_reached d elfData (by omega) ht, hp, hdec⟩
  · rintro ⟨hvisit, hp, hdec⟩
    rcases reached_of_visits d elfData (by omega) ∅ hvisit with ⟨t, ht, rfl⟩
    exact ⟨∅, t, ht, rfl, hp, hdec⟩

/-! ## The addresses collected by a sweep -/

/-- Between two turns, the cut points of all instructions behind are collected. -/
structure SweepInv (stop base : ℕ) (addrs : Finset ℕ) (t : SweepState) : Prop where
  visits : Visits (sweepNext d elfData) stop base t.decodeWindowStart
  mem_iff : ∀ x, x ∈ t.addrs ↔ x ∈ addrs ∨
    ∃ p i, Visits (sweepNext d elfData) stop base p ∧ p < stop ∧ p < t.decodeWindowStart ∧
      decodeAt d elfData p = some i ∧ x ∈ cuts d p i

/-- What the sweep of a section collects. -/
def SweepPost (stop base : ℕ) (addrs addrs' : Finset ℕ) : Prop :=
  ∀ x, x ∈ addrs' ↔ x ∈ addrs ∨
    ∃ p i, Visits (sweepNext d elfData) stop base p ∧ p < stop ∧
      decodeAt d elfData p = some i ∧ x ∈ cuts d p i

theorem sweepTurn_good (hstop : stop ≤ 2 ^ 32) {base : ℕ} {addrs : Finset ℕ} {t : SweepState}
    (h : SweepInv d elfData stop base addrs t) :
    (sweepTurn d elfData stop t).Good (SweepInv d elfData stop base addrs)
      (fun t => stop - t.decodeWindowStart)
      (SweepPost d elfData stop base addrs) t := by
  rcases Nat.lt_or_ge t.decodeWindowStart stop with hlt | hge
  · rw [sweepTurn_of_lt d elfData hstop hlt]
    have hnext := lt_sweepNext d elfData t.decodeWindowStart
    refine ⟨⟨h.visits.turn hlt, ?_⟩, ?_⟩
    · intro x
      rw [mem_turnAddrs, h.mem_iff]
      constructor
      · rintro (⟨i, hdec, hx⟩ | hx | ⟨p, i, hp, hstop', hbehind, hdec, hx⟩)
        · exact .inr ⟨_, i, h.visits, hlt, hnext, hdec, hx⟩
        · exact .inl hx
        · exact .inr ⟨p, i, hp, hstop', hbehind.trans hnext, hdec, hx⟩
      · rintro (hx | ⟨p, i, hp, hstop', hbehind, hdec, hx⟩)
        · exact .inr (.inl hx)
        · rcases Nat.lt_trichotomy p t.decodeWindowStart with hbefore | heq | hafter
          · exact .inr (.inr ⟨p, i, hp, hstop', hbefore, hdec, hx⟩)
          · exact .inl ⟨i, heq ▸ hdec, heq ▸ hx⟩
          · -- the sweep has no position between two turns
            have hle := h.visits.next_le (fun q _ => lt_sweepNext d elfData q) hp hafter
            simp only at hbehind
            omega
    · simp only
      omega
  · rw [sweepTurn_of_le d elfData hge]
    intro x
    rw [h.mem_iff]
    constructor
    · rintro (hx | ⟨p, i, hp, hstop', -, hdec, hx⟩)
      · exact .inl hx
      · exact .inr ⟨p, i, hp, hstop', hdec, hx⟩
    · rintro (hx | ⟨p, i, hp, hstop', hdec, hx⟩)
      · exact .inl hx
      · exact .inr ⟨p, i, hp, hstop', hstop'.trans_le hge, hdec, hx⟩

/-- The sweep of a section terminates with the cut points of its instructions added. -/
theorem exists_sweep (hstop : stop ≤ 2 ^ 32) (base : ℕ) (addrs : Finset ℕ) :
    ∃ addrs', Returns (sweepTurn d elfData stop) ⟨base, addrs⟩ addrs' ∧
      SweepPost d elfData stop base addrs addrs' := by
  apply exists_returns (SweepInv d elfData stop base addrs) _ (fun t => stop - t.decodeWindowStart)
    (fun _ h => sweepTurn_good d elfData hstop h)
  refine ⟨Visits.refl _, ?_⟩
  intro x
  constructor
  · exact .inl
  · rintro (hx | ⟨p, i, hp, -, hbehind, -, -⟩)
    · exact hx
    · have hle := hp.le (fun q _ => lt_sweepNext d elfData q)
      simp only at hbehind
      omega

end CProfiler.BbChop
