import CProfiler.Foundation.Loops

/-! Loops whose turns run loops of their own. A turn is given fuel too, and ends when some
amount of fuel is enough. -/

namespace CProfiler.Foundation

variable {σ ρ : Type*}

/-- At most `fuel` turns of the loop, from the given state, with no more fuel for each. -/
def runNested (body : ℕ → σ → Option (Turn σ ρ)) : ℕ → σ → Option ρ
  | 0, _ => none
  | fuel + 1, s =>
      match body fuel s with
      | some (.next s') => runNested body fuel s'
      | some (.done r) => some r
      | none => none

/-- More fuel does not change how a turn ends. -/
def Steady (body : ℕ → σ → Option (Turn σ ρ)) : Prop :=
  ∀ fuel fuel' s t, fuel ≤ fuel' → body fuel s = some t → body fuel' s = some t

/-- The turn ends. -/
def TurnEnds (body : ℕ → σ → Option (Turn σ ρ)) (s : σ) (t : Turn σ ρ) : Prop :=
  ∃ fuel, body fuel s = some t

/-- The loop terminates from the state, with the result. -/
def ReturnsNested (body : ℕ → σ → Option (Turn σ ρ)) (s : σ) (r : ρ) : Prop :=
  ∃ fuel, runNested body fuel s = some r

/-- The states at which the loop starts a turn. -/
inductive ReachedNested (body : ℕ → σ → Option (Turn σ ρ)) (s : σ) : σ → Prop
  | start : ReachedNested body s s
  | next {t t' : σ} : ReachedNested body s t → TurnEnds body t (.next t') →
      ReachedNested body s t'

variable {body : ℕ → σ → Option (Turn σ ρ)}

/-! ## One turn -/

theorem runNested_next {s s' : σ} {fuel : ℕ} (h : body fuel s = some (.next s')) :
    runNested body (fuel + 1) s = runNested body fuel s' := by
  rw [runNested, h]

theorem runNested_done {s : σ} {r : ρ} {fuel : ℕ} (h : body fuel s = some (.done r)) :
    runNested body (fuel + 1) s = some r := by
  rw [runNested, h]

/-- A run starts with a turn that ends. -/
theorem ReturnsNested.cases {s : σ} {r : ρ} (h : ReturnsNested body s r) :
    TurnEnds body s (.done r) ∨ ∃ s', TurnEnds body s (.next s') ∧ ReturnsNested body s' r := by
  obtain ⟨fuel, hfuel⟩ := h
  cases fuel with
  | zero => cases hfuel
  | succ fuel =>
      cases hbody : body fuel s with
      | none =>
          rw [runNested, hbody] at hfuel
          cases hfuel
      | some turn =>
          cases turn with
          | next s' =>
              rw [runNested_next hbody] at hfuel
              exact .inr ⟨s', ⟨fuel, hbody⟩, fuel, hfuel⟩
          | done r' =>
              rw [runNested_done hbody] at hfuel
              obtain rfl := Option.some.inj hfuel
              exact .inl ⟨fuel, hbody⟩

theorem ReturnsNested.of_done {s : σ} {r : ρ} (h : TurnEnds body s (.done r)) :
    ReturnsNested body s r := by
  obtain ⟨fuel, hfuel⟩ := h
  exact ⟨fuel + 1, runNested_done hfuel⟩

/-! ## Steady bodies -/

section

variable (hbody : Steady body)

include hbody

theorem TurnEnds.unique {s : σ} {t t' : Turn σ ρ} (h : TurnEnds body s t)
    (h' : TurnEnds body s t') : t = t' := by
  obtain ⟨fuel, hfuel⟩ := h
  obtain ⟨fuel', hfuel'⟩ := h'
  have hmax := hbody _ _ _ _ (Nat.le_max_left fuel fuel') hfuel
  have hmax' := hbody _ _ _ _ (Nat.le_max_right fuel fuel') hfuel'
  exact Option.some.inj (hmax.symm.trans hmax')

/-- More fuel does not change a result. -/
theorem runNested_mono {s : σ} {r : ρ} {fuel fuel' : ℕ} (hle : fuel ≤ fuel')
    (h : runNested body fuel s = some r) : runNested body fuel' s = some r := by
  induction fuel generalizing s fuel' with
  | zero => cases h
  | succ fuel ih =>
      obtain ⟨fuel', rfl⟩ : ∃ f, fuel' = f + 1 := ⟨fuel' - 1, by omega⟩
      cases hturn : body fuel s with
      | none =>
          rw [runNested, hturn] at h
          cases h
      | some turn =>
          have hmore := hbody _ _ _ _ (by omega : fuel ≤ fuel') hturn
          cases turn with
          | next s' =>
              rw [runNested_next hturn] at h
              rw [runNested_next hmore]
              exact ih (by omega) h
          | done r' =>
              rw [runNested_done hturn] at h
              rw [runNested_done hmore]
              exact h

theorem ReturnsNested.of_next {s s' : σ} {r : ρ} (h : TurnEnds body s (.next s'))
    (hr : ReturnsNested body s' r) : ReturnsNested body s r := by
  obtain ⟨fuel, hfuel⟩ := h
  obtain ⟨fuel', hfuel'⟩ := hr
  refine ⟨max fuel fuel' + 1, ?_⟩
  rw [runNested_next (hbody _ _ _ _ (Nat.le_max_left fuel fuel') hfuel)]
  exact runNested_mono hbody (Nat.le_max_right fuel fuel') hfuel'

/-- A loop that goes through a sequence of states returns, once a turn of the sequence is the
last one. -/
theorem exists_returnsNested_of_sequence {f : ℕ → σ}
    (hturn : ∀ k, TurnEnds body (f k) (.next (f (k + 1))) ∨ ∃ r, TurnEnds body (f k) (.done r))
    {k : ℕ} (hdone : ∃ r, TurnEnds body (f k) (.done r)) : ∃ r, ReturnsNested body (f 0) r := by
  induction k generalizing f with
  | zero =>
      obtain ⟨r, hr⟩ := hdone
      exact ⟨r, .of_done hr⟩
  | succ k ih =>
      rcases hturn 0 with hnext | ⟨r, hr⟩
      · obtain ⟨r, hr⟩ := ih (f := fun j => f (j + 1)) (fun j => hturn (j + 1)) hdone
        exact ⟨r, .of_next hbody hnext hr⟩
      · exact ⟨r, .of_done hr⟩

theorem ReturnsNested.unique {s : σ} {r r' : ρ} (h : ReturnsNested body s r)
    (h' : ReturnsNested body s r') : r = r' := by
  obtain ⟨fuel, hfuel⟩ := h
  obtain ⟨fuel', hfuel'⟩ := h'
  have hmax := runNested_mono hbody (Nat.le_max_left fuel fuel') hfuel
  have hmax' := runNested_mono hbody (Nat.le_max_right fuel fuel') hfuel'
  exact Option.some.inj (hmax.symm.trans hmax')

end

/-! ## Invariants -/

/-- What the last turn of a run started from. -/
theorem ReturnsNested.last {s : σ} {r : ρ} (h : ReturnsNested body s r) :
    ∃ t, ReachedNested body s t ∧ TurnEnds body t (.done r) := by
  obtain ⟨fuel, hfuel⟩ := h
  suffices hrun : ∀ fuel t, ReachedNested body s t → runNested body fuel t = some r →
      ∃ t, ReachedNested body s t ∧ TurnEnds body t (.done r) from hrun fuel s .start hfuel
  clear hfuel fuel
  intro fuel
  induction fuel with
  | zero =>
      intro t _ hrun
      cases hrun
  | succ fuel ih =>
      intro t ht hrun
      cases hbody : body fuel t with
      | none =>
          rw [runNested, hbody] at hrun
          cases hrun
      | some turn =>
          cases turn with
          | next t' =>
              rw [runNested_next hbody] at hrun
              exact ih t' (ht.next ⟨fuel, hbody⟩) hrun
          | done r' =>
              rw [runNested_done hbody] at hrun
              obtain rfl := Option.some.inj hrun
              exact ⟨t, ht, fuel, hbody⟩

end CProfiler.Foundation
