import CProfiler.Verification.Tags.Merge
import Mathlib.Data.List.Forall2

/-! Finalizing taken apart: what a tag and its children have become. -/

namespace CProfiler.Tags

open Model

variable {κ : Type} {cumulativeDf : Option (List (Sample κ))}

/-- What a tag has become when it is finalized. -/
theorem finalize_eq_ok_iff {own : List Range} {label : PyStr} {children : List (Tag κ)}
    {samples : Option (Sample κ)} {t' : Tag κ} :
    (Tag.mk own label children samples).finalize cumulativeDf = .ok t' ↔
      ∃ children' ranges samples', Tag.finalizeAll cumulativeDf children = .ok children' ∧
        merge (own ++ children'.flatMap Tag.ranges) = .ok ranges ∧
        Tag.feed ranges cumulativeDf samples = .ok samples' ∧
        t' = .mk ranges label children' samples' := by
  rw [Tag.finalize]
  constructor
  · intro h
    rcases bind_eq_ok h with ⟨children', hchildren, h⟩
    rcases bind_eq_ok h with ⟨ranges, hranges, h⟩
    rcases bind_eq_ok h with ⟨samples', hsamples, h⟩
    exact ⟨children', ranges, samples', hchildren, hranges, hsamples, (Except.ok.inj h).symm⟩
  · rintro ⟨children', ranges, samples', hchildren, hranges, hsamples, rfl⟩
    simp only [hchildren, hranges, hsamples, bind, Except.bind]
    rfl

theorem finalizeAll_cons_eq_ok_iff {child : Tag κ} {rest ts' : List (Tag κ)} :
    Tag.finalizeAll cumulativeDf (child :: rest) = .ok ts' ↔
      ∃ child' rest', child.finalize cumulativeDf = .ok child' ∧
        Tag.finalizeAll cumulativeDf rest = .ok rest' ∧ ts' = child' :: rest' := by
  rw [Tag.finalizeAll]
  constructor
  · intro h
    rcases bind_eq_ok h with ⟨child', hchild, h⟩
    rcases bind_eq_ok h with ⟨rest', hrest, h⟩
    exact ⟨child', rest', hchild, hrest, (Except.ok.inj h).symm⟩
  · rintro ⟨child', rest', hchild, hrest, rfl⟩
    simp only [hchild, hrest, bind, Except.bind]
    rfl

/-- The children are finalized one by one. -/
theorem finalizeAll_eq_ok_iff {ts ts' : List (Tag κ)} :
    Tag.finalizeAll cumulativeDf ts = .ok ts' ↔
      List.Forall₂ (fun t t' => t.finalize cumulativeDf = .ok t') ts ts' := by
  induction ts generalizing ts' with
  | nil =>
      rw [List.forall₂_nil_left_iff]
      exact ⟨fun h => (Except.ok.inj h).symm, fun h => by rw [h]; rfl⟩
  | cons t ts ih =>
      rw [finalizeAll_cons_eq_ok_iff, List.forall₂_cons_left_iff]
      constructor
      · rintro ⟨t', rest', ht, hrest, rfl⟩
        exact ⟨t', rest', ht, ih.mp hrest, rfl⟩
      · rintro ⟨t', rest', ht, hrest, rfl⟩
        exact ⟨t', rest', ht, ih.mpr hrest, rfl⟩

/-- Children that are finalized already stay. -/
theorem finalizeAll_map {α : Type*} {f : α → Tag κ} {l : List α}
    (h : ∀ a ∈ l, (f a).finalize cumulativeDf = .ok (f a)) :
    Tag.finalizeAll cumulativeDf (l.map f) = .ok (l.map f) := by
  refine finalizeAll_eq_ok_iff.mpr (List.forall₂_same.mpr fun t ht => ?_)
  rcases List.mem_map.mp ht with ⟨a, ha, rfl⟩
  exact h a ha

/-- What holds of every child and what it becomes. -/
theorem exists_finalizeAll_of_forall {P : Tag κ → Tag κ → Prop} {ts : List (Tag κ)}
    (h : ∀ t ∈ ts, ∃ t', t.finalize cumulativeDf = .ok t' ∧ P t t') :
    ∃ ts', Tag.finalizeAll cumulativeDf ts = .ok ts' ∧ List.Forall₂ P ts ts' := by
  induction ts with
  | nil => exact ⟨[], rfl, .nil⟩
  | cons t ts ih =>
      rcases List.forall_mem_cons.mp h with ⟨⟨t', ht, hP⟩, hrest⟩
      rcases ih hrest with ⟨ts', hts, hall⟩
      exact ⟨t' :: ts', finalizeAll_cons_eq_ok_iff.mpr ⟨t', ts', ht, hts, rfl⟩, .cons hP hall⟩

end CProfiler.Tags
