import Mathlib.Logic.Equiv.Defs

/-! Choosers of which each holds at most one thing, and no two the same. A thing is
blocked for a chooser while another one holds it. -/

namespace CProfiler.Foundation

variable {ι κ : Type*}

def Blocked (holds : ι → κ → Prop) (i : ι) (x : κ) : Prop :=
  ∃ j, j ≠ i ∧ holds j x

def Exclusive (holds : ι → κ → Prop) : Prop :=
  ∀ i j x, holds i x → holds j x → i = j

/-- Chooser `s` lets go of what it holds and takes `new`. -/
def reselect [DecidableEq ι] (holds : ι → κ → Prop) (s : ι) (new : Option κ) : ι → κ → Prop :=
  fun i x => if i = s then new = some x else holds i x

theorem blocked_congr {holds holds' : ι → κ → Prop} (h : ∀ i x, holds i x ↔ holds' i x) (i : ι)
    (x : κ) : Blocked holds i x ↔ Blocked holds' i x := by
  simp only [Blocked, h]

theorem exclusive_congr {holds holds' : ι → κ → Prop} (h : ∀ i x, holds i x ↔ holds' i x) :
    Exclusive holds ↔ Exclusive holds' := by
  simp only [Exclusive, h]

theorem not_blocked_of_empty {holds : ι → κ → Prop} (h : ∀ i x, ¬ holds i x) (i : ι) (x : κ) :
    ¬ Blocked holds i x := by
  intro hblocked
  obtain ⟨j, -, hj⟩ := hblocked
  exact h j x hj

theorem exclusive_of_empty {holds : ι → κ → Prop} (h : ∀ i x, ¬ holds i x) : Exclusive holds :=
  fun i _ x hi _ => absurd hi (h i x)

/-- For a chooser that holds nothing, what is blocked is what anyone holds. -/
theorem blocked_of_idle {holds : ι → κ → Prop} {i : ι} {x : κ} (hidle : ¬ holds i x) :
    Blocked holds i x ↔ ∃ j, holds j x := by
  constructor
  · intro h
    obtain ⟨j, -, hj⟩ := h
    exact ⟨j, hj⟩
  · intro h
    obtain ⟨j, hj⟩ := h
    refine ⟨j, ?_, hj⟩
    intro hji
    exact hidle (hji ▸ hj)

section Reselect

variable [DecidableEq ι] {holds : ι → κ → Prop} {s : ι} {new : Option κ}

theorem blocked_reselect_self (x : κ) : Blocked (reselect holds s new) s x ↔ Blocked holds s x := by
  apply exists_congr
  intro j
  apply and_congr_right
  intro hj
  simp [reselect, hj]

theorem blocked_reselect_of_ne (hexcl : Exclusive holds) {i : ι} (hi : i ≠ s) (x : κ) :
    Blocked (reselect holds s new) i x ↔ new = some x ∨ (Blocked holds i x ∧ ¬ holds s x) := by
  constructor
  · intro h
    obtain ⟨j, hji, hj⟩ := h
    by_cases hjs : j = s
    · exact Or.inl (by simpa [reselect, hjs] using hj)
    · have hj : holds j x := by simpa [reselect, hjs] using hj
      exact Or.inr ⟨⟨j, hji, hj⟩, fun hs => hjs (hexcl j s x hj hs)⟩
  · intro h
    cases h with
    | inl hnew => exact ⟨s, hi.symm, by simp [reselect, hnew]⟩
    | inr hold =>
        obtain ⟨⟨j, hji, hj⟩, hs⟩ := hold
        have hjs : j ≠ s := fun h => hs (h ▸ hj)
        exact ⟨j, hji, by simpa [reselect, hjs] using hj⟩

/-- Taking what is not blocked keeps the choosers apart. -/
theorem exclusive_reselect (hexcl : Exclusive holds)
    (hfree : ∀ x, new = some x → ¬ Blocked holds s x) : Exclusive (reselect holds s new) := by
  intro i j x hi hj
  by_cases his : i = s
  · by_cases hjs : j = s
    · exact his.trans hjs.symm
    · have hnew : new = some x := by simpa [reselect, his] using hi
      have hj : holds j x := by simpa [reselect, hjs] using hj
      exact absurd ⟨j, hjs, hj⟩ (hfree x hnew)
  · have hi : holds i x := by simpa [reselect, his] using hi
    by_cases hjs : j = s
    · have hnew : new = some x := by simpa [reselect, hjs] using hj
      exact absurd ⟨i, his, hi⟩ (hfree x hnew)
    · have hj : holds j x := by simpa [reselect, hjs] using hj
      exact hexcl i j x hi hj

end Reselect

/-! ## Choosers that trade places -/

theorem blocked_comp (holds : ι → κ → Prop) (e : Equiv.Perm ι) (i : ι) (x : κ) :
    Blocked (fun j => holds (e j)) i x ↔ Blocked holds (e i) x := by
  constructor
  · intro h
    obtain ⟨j, hji, hj⟩ := h
    exact ⟨e j, fun he => hji (e.injective he), hj⟩
  · intro h
    obtain ⟨j, hji, hj⟩ := h
    refine ⟨e.symm j, ?_, by simpa using hj⟩
    intro he
    exact hji (by simp [← he])

theorem exclusive_comp {holds : ι → κ → Prop} (hexcl : Exclusive holds) (e : Equiv.Perm ι) :
    Exclusive (fun j => holds (e j)) := by
  intro i j x hi hj
  exact e.injective (hexcl (e i) (e j) x hi hj)

end CProfiler.Foundation
