import Mathlib.Data.List.Induction

/-! Runs of a partial step function that remember the state before every step, so that
a condition can be asked of the steps of a run; and sequences of actions that may fail to
terminate. -/

namespace CProfiler.Foundation

variable {σ α : Type*} (step : σ → α → Option σ)

inductive Run (start : σ) : List (σ × α) → σ → Prop where
  | refl : Run start [] start
  | step {trace s a s'} : Run start trace s → step s a = some s' →
      Run start (trace ++ [(s, a)]) s'

variable {step} {start : σ}

/-- An invariant of the steps that meet `guard` holds wherever a run of such steps leads. -/
theorem Run.invariant (inv : σ → Prop) (guard : σ → α → Prop) (hstart : inv start)
    (hstep : ∀ s a s', inv s → guard s a → step s a = some s' → inv s')
    {trace : List (σ × α)} {s : σ} (hrun : Run step start trace s)
    (hguard : ∀ p ∈ trace, guard p.1 p.2) : inv s := by
  induction hrun with
  | refl => exact hstart
  | @step _ s a s' _ hs ih =>
      exact hstep s a s' (ih (fun p hp => hguard p (by simp [hp]))) (hguard (s, a) (by simp)) hs

/-- If a step from a reached state keeps the invariant and is itself good exactly when it
meets `guard`, the invariant holds all along a run of good steps exactly when every step
of the run meets it. -/
theorem Run.good_iff (inv : σ → Prop) (good : σ → α → σ → Prop) (guard : σ → α → Prop)
    (hstart : inv start)
    (hstep : ∀ trace s a s', Run step start trace s → inv s → step s a = some s' →
      (inv s' ∧ good s a s' ↔ guard s a))
    {trace : List (σ × α)} {s : σ} (hrun : Run step start trace s) :
    ((∀ p ∈ trace, inv p.1 ∧ ∀ s', step p.1 p.2 = some s' → good p.1 p.2 s') ∧ inv s) ↔
      ∀ p ∈ trace, guard p.1 p.2 := by
  induction hrun with
  | refl => simpa using hstart
  | @step trace s a s' hrun hs ih =>
      simp only [List.forall_mem_append, List.forall_mem_singleton]
      constructor
      · intro h
        obtain ⟨⟨hbefore, hinv, hgood⟩, hlast⟩ := h
        exact ⟨ih.mp ⟨hbefore, hinv⟩, (hstep trace s a s' hrun hinv hs).mp ⟨hlast, hgood s' hs⟩⟩
      · intro h
        obtain ⟨hbefore, hinv⟩ := ih.mpr h.1
        obtain ⟨hlast, hgood⟩ := (hstep trace s a s' hrun hinv hs).mpr h.2
        refine ⟨⟨hbefore, hinv, ?_⟩, hlast⟩
        intro t ht
        exact Option.some.inj (hs.symm.trans ht) ▸ hgood

theorem Run.invariant_iff (inv : σ → Prop) (guard : σ → α → Prop) (hstart : inv start)
    (hstep : ∀ trace s a s', Run step start trace s → inv s → step s a = some s' →
      (inv s' ↔ guard s a))
    {trace : List (σ × α)} {s : σ} (hrun : Run step start trace s) :
    ((∀ p ∈ trace, inv p.1) ∧ inv s) ↔ ∀ p ∈ trace, guard p.1 p.2 := by
  have h := hrun.good_iff inv (fun _ _ _ => True) guard hstart (by
    intro trace s a s' hrun hinv hs
    rw [and_true]
    exact hstep trace s a s' hrun hinv hs)
  simpa using h

variable (step) (start) in
/-- The run that `actions` make from `start`, if they are all possible. -/
def record (actions : List α) : Option (List (σ × α) × σ) :=
  actions.foldlM (fun run a => (step run.2 a).map (fun s => (run.1 ++ [(run.2, a)], s))) ([], start)

theorem Run.of_record {actions : List α} {run : List (σ × α) × σ}
    (h : record step start actions = some run) : Run step start run.1 run.2 := by
  induction actions using List.reverseRecOn generalizing run with
  | nil =>
      cases h
      exact .refl
  | append_singleton actions a ih =>
      rw [record, List.foldlM_append] at h
      obtain ⟨before, hbefore, hlast⟩ := Option.bind_eq_some_iff.mp h
      obtain ⟨s, hs, rfl⟩ : ∃ s, step before.2 a = some s ∧
          (before.1 ++ [(before.2, a)], s) = run := by
        simpa using hlast
      exact (ih hbefore).step hs

theorem events_of_record {actions : List α} {run : List (σ × α) × σ}
    (h : record step start actions = some run) : run.1.map Prod.snd = actions := by
  induction actions using List.reverseRecOn generalizing run with
  | nil =>
      cases h
      rfl
  | append_singleton actions a ih =>
      rw [record, List.foldlM_append] at h
      rcases Option.bind_eq_some_iff.mp h with ⟨before, hbefore, hlast⟩
      rw [List.foldlM_cons] at hlast
      rcases Option.bind_eq_some_iff.mp hlast with ⟨after, hafter, hrun⟩
      rcases Option.map_eq_some_iff.mp hafter with ⟨s, _, rfl⟩
      cases hrun
      rw [List.map_append, ih hbefore, List.map_singleton]

/-- A run that can be made, with what is decided of it. -/
theorem exists_run_of_record {actions : List α} {good : List (σ × α) × σ → Prop}
    [DecidablePred good] (h : (record step start actions).any (fun run => good run) = true) :
    ∃ trace s, Run step start trace s ∧ good (trace, s) := by
  obtain ⟨run, hrecord, hgood⟩ := Option.any_eq_true _ _ |>.mp h
  exact ⟨run.1, run.2, Run.of_record hrecord, of_decide_eq_true hgood⟩

/-! ## Actions that have to complete -/

section Completes

variable (act : σ → α → σ → Prop) (inv : σ → Prop) (guard : σ → α → Prop)

/-- The actions complete one after the other, and the invariant holds at the start and
behind each of them. -/
inductive Completes : σ → List α → Prop where
  | nil {s : σ} : inv s → Completes s []
  | cons {s s' : σ} {a : α} {actions : List α} : inv s → act s a s' → Completes s' actions →
      Completes s (a :: actions)

/-- Every action meets the guard in the state that the ones before it lead to. -/
def Guarded : σ → List α → Prop
  | _, [] => True
  | s, a :: actions => guard s a ∧ ∀ s', act s a s' → Guarded s' actions

variable {act inv guard}

theorem Completes.inv_start {s : σ} {actions : List α} (h : Completes act inv s actions) :
    inv s := by
  cases h with
  | nil hinv => exact hinv
  | cons hinv => exact hinv

/-- If an action completes with the invariant exactly when it meets the guard, all the
actions of a sequence do exactly when all of them meet it. -/
theorem completes_iff (hunique : ∀ s a t u, act s a t → act s a u → t = u)
    (hact : ∀ s a, inv s → ((∃ s', act s a s' ∧ inv s') ↔ guard s a)) {s : σ} (hs : inv s)
    (actions : List α) : Completes act inv s actions ↔ Guarded act guard s actions := by
  induction actions generalizing s with
  | nil => exact ⟨fun _ => trivial, fun _ => .nil hs⟩
  | cons a actions ih =>
      refine ⟨fun h => ?_, fun h => ?_⟩
      · cases h with
        | cons _ hstep hrest =>
            have hs' := hrest.inv_start
            refine ⟨(hact s a hs).mp ⟨_, hstep, hs'⟩, fun t ht => ?_⟩
            rw [hunique _ _ _ _ ht hstep]
            exact (ih hs').mp hrest
      · rcases (hact s a hs).mpr h.1 with ⟨s', hstep, hs'⟩
        exact .cons hs hstep ((ih hs').mpr (h.2 s' hstep))

end Completes

end CProfiler.Foundation
