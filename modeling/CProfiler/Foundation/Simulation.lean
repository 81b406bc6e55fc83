import Mathlib.Data.List.Basic

/-! Machines that may fail, and runs of one that follow those of an abstract one: to the same error,
or to related states. -/

namespace CProfiler.Foundation

universe u v

variable {ε ι : Type*} {σ σ' : Type u} {τ τ' : Type v}

/-- The same error, or related states. -/
def Follows (R : σ → τ → Prop) : Except ε σ → Except ε τ → Prop
  | .ok s, .ok t => R s t
  | .error e, .error e' => e = e'
  | _, _ => False

/-- Steps that all succeed. -/
theorem mapM_eq_ok {α β ε : Type*} (f : α → Except ε β) (g : α → β) (l : List α)
    (h : ∀ x ∈ l, f x = .ok (g x)) : l.mapM f = .ok (l.map g) := by
  induction l with
  | nil => rfl
  | cons x l ih =>
      obtain ⟨hx, hl⟩ := List.forall_mem_cons.mp h
      rw [List.mapM_cons, hx, ih hl]
      rfl

theorem length_of_mapM {α β ε : Type*} {f : α → Except ε β} {l : List α} {l' : List β}
    (h : l.mapM f = .ok l') : l'.length = l.length := by
  induction l generalizing l' with
  | nil =>
      cases h
      rfl
  | cons x l ih =>
      rw [List.mapM_cons] at h
      cases hx : f x with
      | error e =>
          rw [hx] at h
          cases h
      | ok y =>
          cases hl : l.mapM f with
          | error e =>
              rw [hx, hl] at h
              cases h
          | ok ys =>
              rw [hx, hl] at h
              cases h
              rw [List.length_cons, ih hl, List.length_cons]

theorem forall_of_mapM {α β ε : Type*} {f : α → Except ε β} {l : List α} {l' : List β}
    (h : l.mapM f = .ok l') : ∀ x ∈ l, ∃ y, f x = .ok y := by
  induction l generalizing l' with
  | nil => exact fun x hx => absurd hx List.not_mem_nil
  | cons x l ih =>
      rw [List.mapM_cons] at h
      cases hx : f x with
      | error e =>
          rw [hx] at h
          cases h
      | ok y =>
          cases hl : l.mapM f with
          | error e =>
              rw [hx, hl] at h
              cases h
          | ok ys => exact List.forall_mem_cons.mpr ⟨⟨y, hx⟩, ih hl⟩

/-- Steps with one way to fail, of which one does. -/
theorem mapM_eq_error {α β ε : Type*} {f : α → Except ε β} {e : ε} {l : List α}
    (hfail : ∀ x e', f x = .error e' → e' = e) {x : α} (hx : x ∈ l) (hfx : f x = .error e) :
    l.mapM f = .error e := by
  induction l with
  | nil => cases hx
  | cons y l ih =>
      rw [List.mapM_cons]
      cases hy : f y with
      | error e' => exact congrArg Except.error (hfail y e' hy)
      | ok z =>
          have hmem : x ∈ l := by
            rcases List.mem_cons.mp hx with rfl | hmem
            · cases hfx.symm.trans hy
            · exact hmem
          rw [ih hmem]
          rfl

variable {R : σ → τ → Prop} {R' : σ' → τ' → Prop}

theorem Follows.ok_iff {x : Except ε σ} {t : τ} : Follows R x (.ok t) ↔ ∃ s, x = .ok s ∧ R s t := by
  cases x with
  | error e => simp [Follows]
  | ok s => simp [Follows]

theorem Follows.error_iff {x : Except ε σ} {e : ε} :
    Follows R x (.error e) ↔ x = .error e := by
  cases x with
  | error e' => simp [Follows]
  | ok s => simp [Follows]

theorem Follows.imp {x : Except ε σ} {y : Except ε τ} {R' : σ → τ → Prop} (h : Follows R x y)
    (himp : ∀ s t, R s t → R' s t) : Follows R' x y := by
  cases y with
  | error e => exact Follows.error_iff.mpr (Follows.error_iff.mp h)
  | ok t =>
      rcases Follows.ok_iff.mp h with ⟨s, hs, hst⟩
      exact Follows.ok_iff.mpr ⟨s, hs, himp s t hst⟩

theorem Follows.bind {x : Except ε σ} {y : Except ε τ} {f : σ → Except ε σ'} {g : τ → Except ε τ'}
    (h : Follows R x y) (hfg : ∀ s t, y = .ok t → R s t → Follows R' (f s) (g t)) :
    Follows R' (x >>= f) (y >>= g) := by
  cases y with
  | error e =>
      rw [Follows.error_iff.mp h]
      rfl
  | ok t =>
      rcases Follows.ok_iff.mp h with ⟨s, rfl, hs⟩
      exact hfg s t rfl hs

/-- Every state on the way has the property. -/
def Along (spec : τ → ι → Except ε τ) (P : τ → Prop) : τ → List ι → Prop
  | t, [] => P t
  | t, i :: l => P t ∧ ∀ t', spec t i = .ok t' → Along spec P t' l

variable {step : σ → ι → Except ε σ} {spec : τ → ι → Except ε τ} {P : τ → Prop}

theorem Along.start {t : τ} {l : List ι} (h : Along spec P t l) : P t := by
  cases l with
  | nil => exact h
  | cons i l => exact h.1

theorem Along.cons {t t' : τ} {i : ι} {l : List ι} (ht : P t) (hi : spec t i = .ok t')
    (h : Along spec P t' l) : Along spec P t (i :: l) := by
  refine ⟨ht, fun t'' ht'' => ?_⟩
  rw [hi] at ht''
  cases ht''
  exact h

/-- A step that follows makes whole runs follow. -/
theorem Follows.foldlM
    (hstep : ∀ s t i, P t → (∀ t', spec t i = .ok t' → P t') → R s t →
      Follows R (step s i) (spec t i))
    {l : List ι} {s : σ} {t : τ} (h : Along spec P t l) (hst : R s t) :
    Follows R (l.foldlM step s) (l.foldlM spec t) := by
  induction l generalizing s t with
  | nil => exact hst
  | cons i l ih =>
      rw [List.foldlM_cons, List.foldlM_cons]
      have hnext : ∀ t', spec t i = .ok t' → P t' := fun t' ht' => (h.2 t' ht').start
      refine Follows.bind (R := R) (hstep s t i h.1 hnext hst) ?_
      intro s' t' ht' hst'
      exact ih (h.2 t' ht') hst'

end CProfiler.Foundation
