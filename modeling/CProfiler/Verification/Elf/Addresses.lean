import CProfiler.Model.ElfFile

/-! Virtual addresses against file offsets: which headers make the two searches of
`get_offset_for_virtual_address` right, and that the way back always raises. -/

namespace CProfiler.Elf

open Model ELFFile

variable (f : ELFFile) (v : ℤ)

/-! ## From addresses to offsets -/

/-- The bytes that the segment has in the file are loaded over the address. -/
def Holds (s : Segment) (v : ℤ) : Prop := s.pVaddr ≤ v ∧ v < s.pVaddr + s.pFilesz

instance (s : Segment) (v : ℤ) : Decidable (Holds s v) :=
  inferInstanceAs (Decidable (s.pVaddr ≤ v ∧ v < s.pVaddr + s.pFilesz))

/-- The address is translated by the loadable segments that hold it, and by none if no
segment holds it. -/
structure Translates : Prop where
  loaded : ∀ s ∈ f.segments, s.pType = .ptLoad → Holds s v →
    (∃ t, f.getSegmentByVirtualAddress v = some t ∧ Holds t v) ∧
      f.getOffsetForVirtualAddress v = some (s.pOffset + (v - s.pVaddr))
  outside : (∀ s ∈ f.segments, ¬ Holds s v) →
    f.getSegmentByVirtualAddress v = none ∧ f.getOffsetForVirtualAddress v = none

/-- The segment starts above the address, or has its first byte there. -/
def StartsFrom (s : Segment) (v : ℤ) : Prop := v < s.pVaddr ∨ (v = s.pVaddr ∧ 0 < s.pFilesz)

/-- The first segment that starts from `v` on starts at `v`, and the first section that
lies in it lies at the offset `o` of the file. -/
def StartsAt (o : ℤ) : Prop :=
  ∃ before t after, f.segments = before ++ t :: after ∧ (∀ b ∈ before, ¬ StartsFrom b v) ∧
    v = t.pVaddr ∧ 0 < t.pFilesz ∧
    ∃ others sec rest, f.sections = others ++ sec :: rest ∧
      (∀ b ∈ others, t.sectionInSegment b = false) ∧ t.sectionInSegment sec = true ∧
      sec.shOffset = o

variable {f v}

theorem getSegmentByVirtualAddress_eq_some_iff (t : Segment) :
    f.getSegmentByVirtualAddress v = some t ↔ StartsFrom t v ∧
      ∃ before after, f.segments = before ++ t :: after ∧ ∀ b ∈ before, ¬ StartsFrom b v := by
  have hsearch : ∀ s : Segment,
      (s.pVaddr ≥ v ∧ v < s.pVaddr + s.pFilesz) ↔ StartsFrom s v := by
    intro s
    unfold StartsFrom
    omega
  simp only [getSegmentByVirtualAddress, hsearch, List.find?_eq_some_iff_append,
    decide_eq_true_eq, Bool.not_eq_true', decide_eq_false_iff_not, exists_and_right]

theorem getSegmentByVirtualAddress_eq_none_iff :
    f.getSegmentByVirtualAddress v = none ↔ ∀ s ∈ f.segments, ¬ StartsFrom s v := by
  rw [getSegmentByVirtualAddress, List.find?_eq_none]
  refine forall₂_congr fun s _ => not_congr ?_
  unfold StartsFrom
  rw [decide_eq_true_iff]
  omega

theorem getOffsetForVirtualAddress_eq_some_iff {t : Segment}
    (ht : f.getSegmentByVirtualAddress v = some t) (hv : v = t.pVaddr) (o : ℤ) :
    f.getOffsetForVirtualAddress v = some o ↔
      ∃ others sec rest, f.sections = others ++ sec :: rest ∧
        (∀ b ∈ others, t.sectionInSegment b = false) ∧ t.sectionInSegment sec = true ∧
        sec.shOffset = o := by
  unfold getOffsetForVirtualAddress
  simp only [ht, Option.bind_eq_bind, Option.bind_some, Option.bind_eq_some_iff,
    List.find?_eq_some_iff_append, Option.pure_def, Option.some.injEq]
  constructor
  · intro h
    obtain ⟨sec, ⟨hin, others, rest, hsplit, hnone⟩, ho⟩ := h
    refine ⟨others, sec, rest, hsplit, fun b hb => by simpa using hnone b hb, hin, ?_⟩
    omega
  · intro h
    obtain ⟨others, sec, rest, hsplit, hnone, hin, ho⟩ := h
    refine ⟨sec, ⟨hin, others, rest, hsplit, fun b hb => by simpa using hnone b hb⟩, ?_⟩
    omega

theorem StartsFrom.holds_iff {t : Segment} (h : StartsFrom t v) :
    Holds t v ↔ v = t.pVaddr ∧ 0 < t.pFilesz := by
  unfold StartsFrom at h
  unfold Holds
  omega

/-- A segment that holds the address is found and translates it exactly when the
headers start at the address. -/
theorem loaded_iff_startsAt (o : ℤ) :
    ((∃ t, f.getSegmentByVirtualAddress v = some t ∧ Holds t v) ∧
      f.getOffsetForVirtualAddress v = some o) ↔ StartsAt f v o := by
  constructor
  · intro h
    obtain ⟨⟨t, ht, hholds⟩, ho⟩ := h
    obtain ⟨hstarts, before, after, hsplit, hbefore⟩ :=
      (getSegmentByVirtualAddress_eq_some_iff t).mp ht
    obtain ⟨hv, hsize⟩ := hstarts.holds_iff.mp hholds
    exact ⟨before, t, after, hsplit, hbefore, hv, hsize,
      (getOffsetForVirtualAddress_eq_some_iff ht hv o).mp ho⟩
  · intro h
    obtain ⟨before, t, after, hsplit, hbefore, hv, hsize, hsections⟩ := h
    have hstarts : StartsFrom t v := .inr ⟨hv, hsize⟩
    have ht : f.getSegmentByVirtualAddress v = some t :=
      (getSegmentByVirtualAddress_eq_some_iff t).mpr ⟨hstarts, before, after, hsplit, hbefore⟩
    exact ⟨⟨t, ht, hstarts.holds_iff.mpr ⟨hv, hsize⟩⟩,
      (getOffsetForVirtualAddress_eq_some_iff ht hv o).mpr hsections⟩

theorem getOffsetForVirtualAddress_eq_none (h : f.getSegmentByVirtualAddress v = none) :
    f.getOffsetForVirtualAddress v = none := by
  rw [getOffsetForVirtualAddress, h]
  rfl

/-- An address that no segment holds is found nowhere exactly when no segment lies above. -/
theorem outside_iff (hnone : ∀ s ∈ f.segments, ¬ Holds s v) :
    (f.getSegmentByVirtualAddress v = none ∧ f.getOffsetForVirtualAddress v = none) ↔
      ∀ s ∈ f.segments, s.pVaddr ≤ v := by
  have hsearch : f.getSegmentByVirtualAddress v = none ↔ ∀ s ∈ f.segments, s.pVaddr ≤ v := by
    rw [getSegmentByVirtualAddress_eq_none_iff]
    refine forall₂_congr fun s hs => ?_
    have hout := hnone s hs
    unfold Holds at hout
    unfold StartsFrom
    omega
  constructor
  · intro h
    exact hsearch.mp h.1
  · intro h
    have hfound := hsearch.mpr h
    exact ⟨hfound, getOffsetForVirtualAddress_eq_none hfound⟩

variable (f v)

/-- The headers decide which addresses are translated rightly: the searches look for a
segment that starts at the address or above it, not below. -/
theorem translates_iff :
    Translates f v ↔
      (∀ s ∈ f.segments, s.pType = .ptLoad → Holds s v →
        StartsAt f v (s.pOffset + (v - s.pVaddr))) ∧
      ((∀ s ∈ f.segments, ¬ Holds s v) → ∀ s ∈ f.segments, s.pVaddr ≤ v) := by
  constructor
  · intro h
    refine ⟨fun s hs htype hholds => ?_, fun hnone => ?_⟩
    · exact (loaded_iff_startsAt _).mp (h.loaded s hs htype hholds)
    · exact (outside_iff hnone).mp (h.outside hnone)
  · intro h
    refine ⟨fun s hs htype hholds => ?_, fun hnone => ?_⟩
    · exact (loaded_iff_startsAt _).mpr (h.1 s hs htype hholds)
    · exact (outside_iff hnone).mpr (h.2 hnone)

/-- Loadable segments lie apart in memory and keep, in the file, the segments that they
overlap in memory. -/
def WellLaidOut : Prop :=
  f.segments.Pairwise (fun s t => s.pType = .ptLoad → t.pType = .ptLoad →
    ∀ a : ℤ, ¬ (Holds s a ∧ Holds t a)) ∧
  ∀ s ∈ f.segments, s.pType = .ptLoad → ∀ t ∈ f.segments, (∃ a : ℤ, Holds s a ∧ Holds t a) →
    s.pOffset ≤ t.pOffset ∧ t.pOffset + t.pFilesz ≤ s.pOffset + s.pFilesz

/-- One loadable segment at `0x400000` with the null section and a `.text` of 16 bytes. -/
def oneSegment : ELFFile where
  segments := [⟨.ptLoad, 0, 0x400000, 0x100, 0x100⟩]
  sections := [⟨.other 0, 0, 0, 0, 0⟩, ⟨.other 1, 0x6, 0x400010, 0x10, 0x10⟩]

theorem oneSegment_wellLaidOut : WellLaidOut oneSegment := by
  constructor
  · exact List.pairwise_singleton _ _
  · intro s hs _ t ht _
    rw [List.mem_singleton.mp hs, List.mem_singleton.mp ht]
    exact ⟨le_rfl, le_rfl⟩

/-- The first instruction of `.text` is not found. -/
theorem oneSegment_not_translated :
    WellLaidOut oneSegment ∧ ¬ Translates oneSegment 0x400010 := by
  refine ⟨oneSegment_wellLaidOut, fun h => ?_⟩
  have hsome := (h.loaded _ (List.mem_singleton_self _) rfl (by decide)).2
  exact absurd hsome (by decide)

/-! ## From offsets to addresses -/

variable (sec : Section) (o : ℤ)

/-- The offset lies in a section with bytes in the file, in just one loadable segment. -/
structure LoadedOnce : Prop where
  mem : sec ∈ f.sections
  backed : sec.shType ≠ .shtNobits
  inside : sec.shOffset ≤ o ∧ o < sec.shOffset + sec.shSize
  once : (f.segments.filter (fun s => s.pType = .ptLoad ∧ s.sectionInSegment sec)).length = 1

/-- The offset is translated to an address of the section, and back. -/
def RoundTrips : Prop :=
  f.getVirtualAddressForOffset o = .ok (sec.shAddr + (o - sec.shOffset)) ∧
    f.getOffsetForVirtualAddress (sec.shAddr + (o - sec.shOffset)) = some o

/-- The call raises at every offset: no section is found, or no segment, or a segment is
taken for its address. -/
theorem getVirtualAddressForOffset_error : ∃ e, f.getVirtualAddressForOffset o = .error e := by
  cases hsection : f.getSectionByOffset o with
  | error e => exact ⟨e, by simp [getVirtualAddressForOffset, hsection, bind, Except.bind]⟩
  | ok found =>
      cases hsegment : f.getSectionVirtualAddress found with
      | error e =>
          exact ⟨e, by simp [getVirtualAddressForOffset, hsection, hsegment, bind, Except.bind]⟩
      | ok segment =>
          refine ⟨.typeError, ?_⟩
          simp [getVirtualAddressForOffset, hsection, hsegment, bind, Except.bind, Segment.add]

/-- No offset makes the round trip. -/
theorem not_roundTrips : ¬ RoundTrips f sec o := by
  intro h
  obtain ⟨e, he⟩ := getVirtualAddressForOffset_error f o
  rw [RoundTrips, he] at h
  cases h.1

/-- Neither does the first byte of `.text`. -/
theorem oneSegment_no_roundTrip :
    ∃ sec, LoadedOnce oneSegment sec 0x10 ∧ ¬ RoundTrips oneSegment sec 0x10 := by
  refine ⟨⟨.other 1, 0x6, 0x400010, 0x10, 0x10⟩, ⟨?_, ?_, ?_, ?_⟩, ?_⟩
  · decide
  · decide
  · decide
  · decide
  · intro h
    exact absurd h.1 (by decide)

end CProfiler.Elf
