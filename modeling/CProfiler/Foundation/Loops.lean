import Mathlib.Data.Nat.Basic

/-! Loops as a body that either goes on from a new state or leaves with a result.
The runner is fuelled; a loop returns when some amount of fuel is enough. -/

namespace CProfiler.Foundation

/-- How one turn of a loop ends. -/
inductive Turn (σ ρ : Type*) where
  | next (s : σ)
  | done (r : ρ)

variable {σ ρ : Type*}

/-- At most `fuel` turns of the loop, from the given state. -/
def runLoop (body : σ → Turn σ ρ) : ℕ → σ → Option ρ
  | 0, _ => none
  | fuel + 1, s =>
      match body s with
      | .next s' => runLoop body fuel s'
      | .done r => some r

/-- The loop terminates from the state, with the result. -/
def Returns (body : σ → Turn σ ρ) (s : σ) (r : ρ) : Prop := ∃ fuel, runLoop body fuel s = some r

/-- The states at which a loop starts a turn. -/
inductive Reached (body : σ → Turn σ ρ) (s : σ) : σ → Prop
  | start : Reached body s s
  | next {t t' : σ} : Reached body s t → body t = .next t' → Reached body s t'

variable {body : σ → Turn σ ρ}

/-! ## One turn -/

theorem runLoop_next {s s' : σ} (h : body s = .next s') (fuel : ℕ) :
    runLoop body (fuel + 1) s = runLoop body fuel s' := by
  simp [runLoop, h]

theorem runLoop_done {s : σ} {r : ρ} (h : body s = .done r) (fuel : ℕ) :
    runLoop body (fuel + 1) s = some r := by
  simp [runLoop, h]

theorem Returns.of_done {s : σ} {r : ρ} (h : body s = .done r) : Returns body s r :=
  ⟨1, runLoop_done h 0⟩

theorem Returns.of_next {s s' : σ} {r : ρ} (h : body s = .next s') (hr : Returns body s' r) :
    Returns body s r := by
  rcases hr with ⟨fuel, hfuel⟩
  exact ⟨fuel + 1, by rw [runLoop_next h, hfuel]⟩

/-- What the last turn of a run started from. -/
theorem Returns.last {s : σ} {r : ρ} (h : Returns body s r) :
    ∃ t, Reached body s t ∧ body t = .done r := by
  rcases h with ⟨fuel, hfuel⟩
  suffices hrun : ∀ fuel t, Reached body s t → runLoop body fuel t = some r →
      ∃ t, Reached body s t ∧ body t = .done r from hrun fuel s .start hfuel
  clear hfuel fuel
  intro fuel
  induction fuel with
  | zero =>
      intro t _ hrun
      simp [runLoop] at hrun
  | succ fuel ih =>
      intro t ht hrun
      cases hbody : body t with
      | next t' =>
          rw [runLoop_next hbody] at hrun
          exact ih t' (ht.next hbody) hrun
      | done r' =>
          rw [runLoop_done hbody] at hrun
          obtain rfl : r' = r := Option.some.inj hrun
          exact ⟨t, ht, hbody⟩

/-! ## Determinism -/

/-- More fuel does not change a result. -/
theorem runLoop_mono {s : σ} {r : ρ} {fuel fuel' : ℕ} (hle : fuel ≤ fuel')
    (h : runLoop body fuel s = some r) : runLoop body fuel' s = some r := by
  induction fuel generalizing s fuel' with
  | zero => simp [runLoop] at h
  | succ fuel ih =>
      cases fuel' with
      | zero => omega
      | succ fuel' =>
          cases hbody : body s with
          | next s' =>
              rw [runLoop_next hbody] at h ⊢
              exact ih (by omega) h
          | done r' =>
              rw [runLoop_done hbody] at h ⊢
              exact h

theorem Returns.unique {s : σ} {r r' : ρ} (h : Returns body s r) (h' : Returns body s r') :
    r = r' := by
  rcases h with ⟨fuel, hfuel⟩
  rcases h' with ⟨fuel', hfuel'⟩
  have hr := runLoop_mono (Nat.le_max_left fuel fuel') hfuel
  have hr' := runLoop_mono (Nat.le_max_right fuel fuel') hfuel'
  exact Option.some.inj (hr.symm.trans hr')

/-! ## Invariants and measures -/

/-- A turn keeps the invariant and lowers the measure, or leaves with a good result. -/
def Turn.Good (inv : σ → Prop) (μ : σ → ℕ) (post : ρ → Prop) (s : σ) : Turn σ ρ → Prop
  | .next s' => inv s' ∧ μ s' < μ s
  | .done r => post r

/-- A loop whose turns keep an invariant and lower a measure terminates, with a
result for which the postcondition holds. -/
theorem exists_returns (inv : σ → Prop) (post : ρ → Prop) (μ : σ → ℕ)
    (hturn : ∀ s, inv s → (body s).Good inv μ post s) {s : σ} (hinv : inv s) :
    ∃ r, Returns body s r ∧ post r := by
  induction hn : μ s using Nat.strongRecOn generalizing s with
  | ind n ih =>
      have hgood := hturn s hinv
      cases hbody : body s with
      | next s' =>
          rw [hbody] at hgood
          rcases hgood with ⟨hinv', hlt⟩
          rcases ih (μ s') (by omega) hinv' rfl with ⟨r, hr, hpost⟩
          exact ⟨r, hr.of_next hbody, hpost⟩
      | done r =>
          rw [hbody] at hgood
          exact ⟨r, Returns.of_done hbody, hgood⟩

/-! ## Loops over the numbers below a bound -/

/-- A loop that records something at the numbers of a kind, and nothing at others, ends with
what it recorded at the last of them, or with what it began with. -/
theorem foldl_range_last (f : σ → ℕ → σ) (init : σ) (kind : ℕ → Prop) (began : σ → Prop)
    (recorded : ℕ → σ → Prop) (hinit : began init) (hset : ∀ s n, kind n → recorded n (f s n))
    (hbegan : ∀ s n, ¬ kind n → began s → began (f s n))
    (hrecorded : ∀ s n i, ¬ kind n → recorded i s → recorded i (f s n)) (n : ℕ) :
    ((∀ i < n, ¬ kind i) ∧ began ((List.range n).foldl f init)) ∨
      ∃ i < n, kind i ∧ (∀ j, i < j → j < n → ¬ kind j) ∧
        recorded i ((List.range n).foldl f init) := by
  induction n with
  | zero => exact .inl ⟨fun i hi => absurd hi (Nat.not_lt_zero i), hinit⟩
  | succ n ih =>
      rw [List.range_succ, List.foldl_append, List.foldl_cons, List.foldl_nil]
      by_cases hkind : kind n
      · exact .inr ⟨n, by omega, hkind, fun j hj hlt => absurd hlt (by omega), hset _ n hkind⟩
      · have hlast : ∀ j < n + 1, ¬ j < n → ¬ kind j := by
          intro j hj hge
          obtain rfl : j = n := by omega
          exact hkind
        rcases ih with ⟨hnone, hstart⟩ | ⟨i, hi, hmatch, hafter, hstate⟩
        · refine .inl ⟨fun i hi => ?_, hbegan _ n hkind hstart⟩
          by_cases hlt : i < n
          · exact hnone i hlt
          · exact hlast i hi hlt
        · refine .inr ⟨i, by omega, hmatch, fun j hij hj => ?_, hrecorded _ n i hkind hstate⟩
          by_cases hlt : j < n
          · exact hafter j hij hlt
          · exact hlast j hj hlt

end CProfiler.Foundation
