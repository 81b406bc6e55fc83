import Mathlib.Data.List.Basic

/-! Searches that take the first entry to pass a test, when the entry looked for is the only
one to pass a finer test. -/

namespace CProfiler.Foundation

variable {α : Type*} {p q : α → Prop} [DecidablePred p] [DecidablePred q]

/-- The first entry that passes `q` is the one that passes `p`, and there is none if none
passes `p`. -/
structure FindsOnly (p q : α → Prop) [DecidablePred q] (l : List α) : Prop where
  found : ∀ x ∈ l, p x → l.find? (fun y => decide (q y)) = some x
  missing : (∀ x ∈ l, ¬ p x) → l.find? (fun y => decide (q y)) = none

/-- Two places of a list: one of them is the other, or comes before it. -/
theorem split_cases {before after before' after' : List α} {x x' : α}
    (h : before ++ x :: after = before' ++ x' :: after') :
    x ∈ before' ∨ x = x' ∨ x' ∈ before := by
  rcases List.append_eq_append_iff.mp h with ⟨as, rfl, hx⟩ | ⟨bs, rfl, hx⟩
  · cases as with
    | nil => exact .inr (.inl (List.cons.inj hx).1)
    | cons a as =>
        obtain rfl : x = a := (List.cons.inj hx).1
        exact .inl (by simp)
  · cases bs with
    | nil => exact .inr (.inl (List.cons.inj hx).1.symm)
    | cons b bs =>
        obtain rfl : x' = b := (List.cons.inj hx).1
        exact .inr (.inr (by simp))

/-- A coarser test finds the only entry that passes the finer one exactly when every entry
that passes the coarser test alone comes behind it. -/
theorem findsOnly_iff {l : List α} (hpq : ∀ x ∈ l, p x → q x)
    (hone : l.Pairwise fun a b => ¬ (p a ∧ p b)) :
    FindsOnly p q l ↔
      ∀ before x after, l = before ++ x :: after → q x → ¬ p x → ∃ y ∈ before, p y := by
  cases hfind : l.find? (fun y => decide (q y)) with
  | none =>
      have hnone : ∀ x ∈ l, ¬ q x := by simpa using List.find?_eq_none.mp hfind
      refine ⟨fun _ before x after hl hq => ?_, fun _ => ⟨fun x hx hp => ?_, fun _ => hfind⟩⟩
      · exact absurd hq (hnone x (by simp [hl]))
      · exact absurd (hpq x hx hp) (hnone x hx)
  | some x =>
      rcases List.find?_eq_some_iff_append.mp hfind with ⟨hqx, before, after, rfl, hbefore⟩
      have hnone : ∀ y ∈ before, ¬ q y := by
        intro y hy
        simpa using hbefore y hy
      by_cases hpx : p x
      · refine ⟨fun _ before' x' after' hl hq' hp' => ?_, fun _ => ⟨fun y hy hpy => ?_, ?_⟩⟩
        · rcases split_cases hl with hmem | rfl | hmem
          · exact ⟨x, hmem, hpx⟩
          · exact absurd hpx hp'
          · exact absurd hq' (hnone x' hmem)
        · rcases List.mem_append.mp hy with hmem | hmem
          · exact absurd (hpq y hy hpy) (hnone y hmem)
          · rcases List.mem_cons.mp hmem with rfl | hmem
            · exact hfind
            · have hafter := (List.pairwise_append.mp hone).2.1
              exact absurd ⟨hpx, hpy⟩ ((List.pairwise_cons.mp hafter).1 y hmem)
        · exact fun h => absurd hpx (h x (by simp))
      · refine ⟨fun h => ?_, fun h => ?_⟩
        · exfalso
          by_cases hany : ∃ y ∈ before ++ x :: after, p y
          · rcases hany with ⟨y, hy, hpy⟩
            obtain rfl : x = y := Option.some.inj (hfind.symm.trans (h.found y hy hpy))
            exact hpx hpy
          · have hmissing := h.missing fun y hy hpy => hany ⟨y, hy, hpy⟩
            cases hfind.symm.trans hmissing
        · rcases h before x after rfl (of_decide_eq_true hqx) hpx with ⟨y, hy, hpy⟩
          exact absurd (hpq y (by simp [hy]) hpy) (hnone y hy)

end CProfiler.Foundation
