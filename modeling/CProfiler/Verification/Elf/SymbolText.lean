import CProfiler.Model.SymbolText
import CProfiler.Verification.Elf.Files

/-! # The text of a symbol

`get_symbol_text` takes the physical address of a segment off the address of the symbol, as
if the segment began at the start of the file, and goes back to where its own search for the
symbol has left the stream. -/

namespace CProfiler.Elf

open Model SymbolFile

variable {f : SymbolFile} {name : PyStr}

/-! ## The searches -/

theorem run_bind_ok {α β : Type} {x : Stream α} {k : α → Stream β} {position position' : ℕ}
    {a : α} (h : x.run position = .ok (a, position')) :
    (x >>= k).run position = (k a).run position' := by
  rw [StateT.run_bind, h]
  rfl

theorem readParsed_run {α : Type} (p : Parsed α) (position : ℕ) :
    (readParsed p).run position = .ok (p.value, p.readTo) := rfl

/-- The symbol bears the name. -/
def Bears (name : PyStr) (p : Parsed Symbol) : Bool := p.value.name = name

/-- The section lies in the segment. -/
def Contains (sec : Section) (p : Parsed PhysicalSegment) : Bool := p.value.sectionInSegment sec

theorem readNames_run (symbols : List (Parsed Symbol)) (position : ℕ) :
    ∃ position', (symbols.mapM fun p => Symbol.name <$> readParsed p).run position =
      .ok (symbols.map fun p => p.value.name, position') := by
  induction symbols generalizing position with
  | nil => exact ⟨position, rfl⟩
  | cons p symbols ih =>
      rcases ih p.readTo with ⟨position', hrest⟩
      have hname : (Symbol.name <$> readParsed p).run position =
          .ok (p.value.name, p.readTo) := rfl
      refine ⟨position', ?_⟩
      rw [List.mapM_cons, run_bind_ok hname, run_bind_ok hrest]
      rfl

/-- The names are those of the symbol table, wherever the stream stood. -/
theorem getSymbolNames_run {symtab : Parsed (List (Parsed Symbol))} (h : f.symtab = some symtab)
    (position : ℕ) : ∃ position', f.getSymbolNames.run position =
      .ok (symtab.value.map fun p => p.value.name, position') := by
  rcases readNames_run symtab.value symtab.readTo with ⟨position', hnames⟩
  refine ⟨position', ?_⟩
  rw [getSymbolNames, iterSymbols, h, run_bind_ok (readParsed_run symtab position)]
  exact hnames

/-- The search for a symbol ends with the first one of the name, and the stream behind it. -/
theorem searchSymbol_run {symbols : List (Parsed Symbol)} {first : Parsed Symbol}
    (h : symbols.find? (Bears name) = some first) (position : ℕ) :
    (searchSymbol name symbols).run position = .ok (first.value, first.readTo) := by
  induction symbols generalizing position with
  | nil => cases h
  | cons p symbols ih =>
      rw [searchSymbol, run_bind_ok (readParsed_run p position)]
      by_cases hname : p.value.name = name
      · rw [List.find?_cons_of_pos (by simpa [Bears] using hname)] at h
        obtain rfl : p = first := Option.some.inj h
        rw [if_pos hname]
        rfl
      · rw [List.find?_cons_of_neg (by simpa [Bears] using hname)] at h
        rw [if_neg hname]
        exact ih h p.readTo

theorem getSymbolByName_run {symtab : Parsed (List (Parsed Symbol))} {first : Parsed Symbol}
    (h : f.symtab = some symtab) (hfirst : symtab.value.find? (Bears name) = some first)
    (position : ℕ) :
    (f.getSymbolByName name).run position = .ok (first.value, first.readTo) := by
  rw [getSymbolByName, iterSymbols, h, run_bind_ok (readParsed_run symtab position)]
  exact searchSymbol_run hfirst symtab.readTo

/-- The search for a segment ends with the first one that the section lies in. -/
theorem searchSegment_run {sec : NamedSection} {segments : List (Parsed PhysicalSegment)}
    {loader : Parsed PhysicalSegment}
    (h : segments.find? (Contains sec.toSection) = some loader) (position : ℕ) :
    (searchSegment (some sec) segments).run position =
      .ok (loader.value.pPaddr, loader.readTo) := by
  induction segments generalizing position with
  | nil => cases h
  | cons p segments ih =>
      rw [searchSegment, run_bind_ok (readParsed_run p position)]
      by_cases hin : p.value.sectionInSegment sec.toSection = true
      · rw [List.find?_cons_of_pos (by simpa [Contains] using hin)] at h
        obtain rfl : p = loader := Option.some.inj h
        simp only [hin, if_true]
        rfl
      · rw [List.find?_cons_of_neg (by simpa [Contains] using hin)] at h
        simp only [if_neg hin]
        exact ih h p.readTo

theorem getTextOffset_run {text : Parsed NamedSection} {loader : Parsed PhysicalSegment}
    (htext : f.parsedSection ".text".toList = some text)
    (hloader : f.segments.find? (Contains text.value.toSection) = some loader) (position : ℕ) :
    f.getTextOffset.run position = .ok (loader.value.pPaddr, loader.readTo) := by
  have hsection : (f.getSectionByName ".text".toList).run position =
      .ok (some text.value, text.readTo) := by
    rw [getSectionByName, htext]
    rfl
  rw [getTextOffset, run_bind_ok hsection]
  exact searchSegment_run hloader text.readTo

/-! ## The text -/

/-- A symbol as the searches find it: the first one of the name, the section `.text`, and
the first segment with that section in it. -/
structure Located (f : SymbolFile) (name : PyStr) (first : Parsed Symbol)
    (text : Parsed NamedSection) (loader : Parsed PhysicalSegment) : Prop where
  symbol_eq : ∃ symtab, f.symtab = some symtab ∧ symtab.value.find? (Bears name) = some first
  text_eq : f.parsedSection ".text".toList = some text
  loader_eq : f.segments.find? (Contains text.value.toSection) = some loader

section

variable {first : Parsed Symbol} {text : Parsed NamedSection} {loader : Parsed PhysicalSegment}

theorem seek_natCast_run (n position : ℕ) : (seek n).run position = .ok ((), n) := by
  rw [seek, if_neg (by omega)]
  rfl

/-- What `get_symbol_text` does: it reads from the difference of the two addresses on, and
leaves the stream where the symbol has been read. -/
theorem getSymbolText_run (h : Located f name first text loader) (position : ℕ) :
    (f.getSymbolText name).run position =
      if first.value.stValue < loader.value.pPaddr then .error (.exception "Invalid argument")
      else .ok ((f.contents.drop (first.value.stValue - loader.value.pPaddr)).take
        first.value.stSize, first.readTo) := by
  rcases h.symbol_eq with ⟨symtab, hsymtab, hfirst⟩
  rcases getSymbolNames_run hsymtab position with ⟨position', hnames⟩
  have hmem : name ∈ symtab.value.map fun p => p.value.name := by
    have hname := List.find?_some hfirst
    rw [Bears, decide_eq_true_eq] at hname
    exact List.mem_map.mpr ⟨first, List.mem_of_find?_eq_some hfirst, hname⟩
  have hnotin : ¬ name ∉ symtab.value.map fun p => p.value.name := not_not.mpr hmem
  have htext := getTextOffset_run h.text_eq h.loader_eq position'
  have hsymbol := getSymbolByName_run hsymtab hfirst loader.readTo
  rw [getSymbolText, run_bind_ok hnames]
  simp only [if_neg hnotin]
  rw [run_bind_ok htext, run_bind_ok hsymbol,
    run_bind_ok (show (get : Stream ℕ).run first.readTo = .ok (_, first.readTo) from rfl)]
  by_cases hlow : first.value.stValue < loader.value.pPaddr
  · rw [if_pos hlow, seek, if_pos (by omega)]
    rfl
  · have hoffset : (first.value.stValue : ℤ) - loader.value.pPaddr =
        ((first.value.stValue - loader.value.pPaddr : ℕ) : ℤ) := by omega
    rw [if_neg hlow, hoffset, run_bind_ok (seek_natCast_run _ _)]
    rfl

/-- The bytes of the file from an offset on, if it has them. -/
def fileBytes (contents : List UInt8) (offset : ℤ) (size : ℕ) : Option (List UInt8) :=
  if 0 ≤ offset ∧ offset + size ≤ contents.length then
    some ((contents.drop offset.toNat).take size)
  else none

/-- Where the bytes of a symbol of `.text` lie in the file. -/
def textOffset (text : NamedSection) (symbol : Symbol) : ℤ :=
  (text.shOffset : ℤ) + symbol.stValue - text.shAddr

/-- The call returns the bytes of the symbol, and leaves the stream where it was. -/
def ReadsText (f : SymbolFile) (name : PyStr) (text : NamedSection) (symbol : Symbol)
    (position : ℕ) : Prop :=
  ∃ bytes, (f.getSymbolText name).run position = .ok (bytes, position) ∧
    fileBytes f.contents (textOffset text symbol) symbol.stSize = some bytes

/-- The stream stands where reading the symbol leaves it; the file has the bytes of the
symbol; and the addresses of `.text` are its offsets moved by the address taken off, or the
same bytes stand by chance at the wrong offset. -/
structure InPlace (f : SymbolFile) (text : NamedSection) (loader : PhysicalSegment)
    (first : Parsed Symbol) (position : ℕ) : Prop where
  position_eq : position = first.readTo
  start_le : 0 ≤ textOffset text first.value
  end_le : textOffset text first.value + first.value.stSize ≤ f.contents.length
  moved : text.shAddr = loader.pPaddr + text.shOffset ∨
    loader.pPaddr ≤ first.value.stValue ∧
      (f.contents.drop (first.value.stValue - loader.pPaddr)).take first.value.stSize =
        (f.contents.drop (textOffset text first.value).toNat).take first.value.stSize

theorem readsText_iff_inPlace (h : Located f name first text loader) (position : ℕ) :
    ReadsText f name text.value first.value position ↔
      InPlace f text.value loader.value first position := by
  have hrun := getSymbolText_run h position
  unfold ReadsText
  rw [hrun]
  refine ⟨fun hreads => ?_, fun hplace => ?_⟩
  · rcases hreads with ⟨bytes, hresult, hbytes⟩
    by_cases hlow : first.value.stValue < loader.value.pPaddr
    · rw [if_pos hlow] at hresult
      cases hresult
    · rw [if_neg hlow] at hresult
      rcases Prod.mk.inj (Except.ok.inj hresult) with ⟨hread, hposition⟩
      unfold fileBytes at hbytes
      split at hbytes
      case isTrue hinside =>
          refine ⟨hposition.symm, hinside.1, hinside.2, .inr ⟨Nat.not_lt.mp hlow, ?_⟩⟩
          exact hread.trans (Option.some.inj hbytes).symm
      case isFalse => cases hbytes
  · rcases hplace with ⟨hposition, hstart, hend, hmoved⟩
    have hsame : loader.value.pPaddr ≤ first.value.stValue ∧
        (f.contents.drop (first.value.stValue - loader.value.pPaddr)).take first.value.stSize =
          (f.contents.drop (textOffset text.value first.value).toNat).take
            first.value.stSize := by
      rcases hmoved with hshift | hsame
      · have hoffset : (textOffset text.value first.value).toNat =
            first.value.stValue - loader.value.pPaddr := by
          unfold textOffset
          omega
        unfold textOffset at hstart
        exact ⟨by omega, by rw [hoffset]⟩
      · exact hsame
    rw [if_neg (Nat.not_lt.mpr hsame.1), hposition, hsame.2]
    exact ⟨_, rfl, if_pos ⟨hstart, hend⟩⟩

/-- A symbol table with a symbol of the name, and a section `.text` that a loadable segment
contains: the call returns the bytes of the first symbol of the name, and leaves the stream
where it was, exactly when that symbol is in place for the first segment with `.text` in it. -/
theorem getSymbolText_iff (f : SymbolFile) {symtab : Parsed (List (Parsed Symbol))}
    (hsymtab : f.symtab = some symtab) {name : PyStr} {first : Parsed Symbol}
    (hfirst : symtab.value.find? (Bears name) = some first) {text : Parsed NamedSection}
    (htext : f.parsedSection ".text".toList = some text)
    (hload : ∃ p ∈ f.segments, p.value.pType = .ptLoad ∧ p.value.pPaddr = p.value.pVaddr ∧
      Contains text.value.toSection p = true) (position : ℕ) :
    ∃ loader, f.segments.find? (Contains text.value.toSection) = some loader ∧
      (ReadsText f name text.value first.value position ↔
        InPlace f text.value loader.value first position) := by
  rcases hload with ⟨p, hp, -, -, hcontains⟩
  cases hloader : f.segments.find? (Contains text.value.toSection) with
  | none => exact absurd hcontains (List.find?_eq_none.mp hloader p hp)
  | some loader =>
      have hlocated := Located.mk ⟨symtab, hsymtab, hfirst⟩ htext hloader
      exact ⟨loader, rfl, readsText_iff_inPlace hlocated position⟩

end

/-! ## A file with headers in front of the code -/

/-- `.text`, loaded from the address 0x401080 on. -/
def pageText : NamedSection where
  shType := .other 1
  shFlags := 0x6
  shAddr := 0x401080
  shOffset := 128
  shSize := 8
  name := ".text".toList

/-- The segment with `.text`, which begins behind the headers. -/
def pageSegment : PhysicalSegment where
  pType := .ptLoad
  pOffset := 128
  pVaddr := 0x401080
  pFilesz := 8
  pMemsz := 8
  pPaddr := 0x401080

/-- The symbol `f`, the first four bytes of `.text`. Its name, at 185, is read in a piece of
64 bytes. -/
def pageSymbol : Parsed Symbol := ⟨⟨['f'], 0x401080, 4, 1⟩, 249⟩

/-- The symbol of index 0. -/
def nullSymbol : Parsed Symbol := ⟨⟨[], 0, 0, 0⟩, 248⟩

/-- An executable: `.text` at 128, the symbols at 136, their names at 184, the names of the
sections at 187 and the section headers at 224. The name of a section is read last, for
`.symtab` that of its string table. -/
def twoPages : SymbolFile where
  contents := ehdrBytes 2 64 224 1 5 4 ++ phdrBytes 5 128 0x401080 8 0x1000 ++
    List.replicate 8 0 ++ [0x90, 0x90, 0x90, 0xC3, 0xCC, 0xCC, 0xCC, 0xCC] ++
    symBytes 0 0 0 0 0 ++ symBytes 1 0x12 1 0x401080 4 ++ nameBytes ["", "f"] ++
    nameBytes ["", ".text", ".symtab", ".strtab", ".shstrtab"] ++ List.replicate 4 0 ++
    shdrBytes 0 0 0 0 0 0 0 0 0 0 ++ shdrBytes 1 1 6 0x401080 128 8 0 0 1 0 ++
    shdrBytes 7 2 0 0 136 48 3 1 8 24 ++ shdrBytes 15 3 0 0 184 3 0 0 1 0 ++
    shdrBytes 23 3 0 0 187 33 0 0 1 0
  sections := [⟨⟨⟨.other 0, 0, 0, 0, 0⟩, []⟩, 251⟩, ⟨pageText, 252⟩,
    ⟨⟨⟨.other 2, 0, 0, 136, 48⟩, ".symtab".toList⟩, 266⟩,
    ⟨⟨⟨.other 3, 0, 0, 184, 3⟩, ".strtab".toList⟩, 266⟩,
    ⟨⟨⟨.other 3, 0, 0, 187, 33⟩, ".shstrtab".toList⟩, 274⟩]
  segments := [⟨pageSegment, 120⟩]
  symtab := some ⟨[nullSymbol, pageSymbol], 266⟩

/-- The section headers in the bytes are those that pyelftools knows. -/
example : (List.range 5).map (fun i => let s := elfShdr (fun k => twoPages.contents.getD k 0) i
      (s.shOffset, s.shSize)) =
    twoPages.sections.map (fun p => (p.value.shOffset, p.value.shSize)) := by
  decide +kernel

theorem located_twoPages :
    Located twoPages ['f'] pageSymbol ⟨pageText, 252⟩ ⟨pageSegment, 120⟩ where
  symbol_eq := ⟨_, rfl, rfl⟩
  text_eq := by decide +kernel
  loader_eq := by decide +kernel

theorem getSymbolText_iff_twoPages :
    ∃ loader, twoPages.segments.find? (Contains pageText.toSection) = some loader ∧
      (ReadsText twoPages ['f'] pageText pageSymbol.value 249 ↔
        InPlace twoPages pageText loader.value pageSymbol 249) :=
  getSymbolText_iff twoPages rfl
    (rfl : [nullSymbol, pageSymbol].find? (Bears ['f']) = some pageSymbol) located_twoPages.text_eq
    ⟨⟨pageSegment, 120⟩, List.mem_singleton_self _, rfl, rfl, by decide⟩ 249

/-- The bytes of `f` are those at the offset 128 of the file. The magic number at its start is
returned, and the stream, which stood there, is left behind the name of the symbol. -/
theorem twoPages_not_readsText :
    (twoPages.getSymbolText ['f']).run 0 = .ok ([0x7f, 0x45, 0x4c, 0x46], 249) ∧
      fileBytes twoPages.contents (textOffset pageText pageSymbol.value) 4 =
        some [0x90, 0x90, 0x90, 0xC3] ∧
      ¬ ReadsText twoPages ['f'] pageText pageSymbol.value 0 := by
  have hrun : (twoPages.getSymbolText ['f']).run 0 = .ok ([0x7f, 0x45, 0x4c, 0x46], 249) := by
    decide +kernel
  refine ⟨hrun, by decide +kernel, fun h => ?_⟩
  rcases h with ⟨bytes, hread, -⟩
  cases hrun.symm.trans hread

end CProfiler.Elf
