import Mathlib.Algebra.BigOperators.Group.List.Basic
import Mathlib.Algebra.GroupWithZero.Nat

/-! Items of variable length laid one after the other, as a reader finds them:
`read off` is the item that starts at an offset, `len` its length. -/

namespace CProfiler.Foundation

variable {ι : Type*}

/-- The items found from an offset on, each starting where the previous one ends,
up to the first offset at which there is none. -/
inductive Tiling (read : ℕ → Option ι) (len : ι → ℕ) : ℕ → List ι → Prop
  | stop {off : ℕ} : read off = none → Tiling read len off []
  | next {off : ℕ} {i : ι} {is : List ι} : read off = some i →
      Tiling read len (off + len i) is → Tiling read len off (i :: is)

variable {read : ℕ → Option ι} {len : ι → ℕ}

theorem Tiling.unique {off : ℕ} {is js : List ι} (h : Tiling read len off is)
    (h' : Tiling read len off js) : is = js := by
  induction h generalizing js with
  | stop hnone =>
      cases h' with
      | stop => rfl
      | next hsome => simp [hnone] at hsome
  | next hsome _ ih =>
      cases h' with
      | stop hnone => simp [hsome] at hnone
      | next hsome' htail =>
          obtain rfl : _ = _ := Option.some.inj (hsome.symm.trans hsome')
          rw [ih htail]

theorem Tiling.nil_iff {off : ℕ} : Tiling read len off [] ↔ read off = none := by
  constructor
  · intro h
    cases h with
    | stop hnone => exact hnone
  · exact Tiling.stop

/-- The item that starts at the offset comes first. -/
theorem Tiling.of_some {off : ℕ} {i : ι} {is : List ι} (hsome : read off = some i)
    (h : Tiling read len off is) : ∃ rest, is = i :: rest ∧ Tiling read len (off + len i) rest := by
  cases h with
  | stop hnone => simp [hnone] at hsome
  | next hsome' htail =>
      obtain rfl : _ = _ := Option.some.inj (hsome.symm.trans hsome')
      exact ⟨_, rfl, htail⟩

/-- Items that end by `n` have lengths that sum to at most the distance to `n`. -/
theorem Tiling.sum_le {n off : ℕ} {is : List ι} (hfit : ∀ o i, read o = some i → o + len i ≤ n)
    (hoff : off ≤ n) (h : Tiling read len off is) : off + (is.map len).sum ≤ n := by
  induction h with
  | stop => simpa using hoff
  | next hsome _ ih =>
      have hle := ih (hfit _ _ hsome)
      simp only [List.map_cons, List.sum_cons]
      omega

/-- Items of positive length are at most as many as their lengths sum to. -/
theorem Tiling.length_le_sum {off : ℕ} {is : List ι} (hpos : ∀ o i, read o = some i → 1 ≤ len i)
    (h : Tiling read len off is) : is.length ≤ (is.map len).sum := by
  induction h with
  | stop => simp
  | next hsome _ ih =>
      have hone := hpos _ _ hsome
      simp only [List.length_cons, List.map_cons, List.sum_cons]
      omega

/-- A tiling read at a distance `a`. -/
theorem Tiling.shift {read' : ℕ → Option ι} {a : ℕ} (hread : ∀ off, read off = read' (a + off))
    {off : ℕ} {is : List ι} (h : Tiling read len off is) : Tiling read' len (a + off) is := by
  induction h with
  | @stop off hnone =>
      apply Tiling.stop
      rw [← hread off, hnone]
  | @next off i is hsome _ ih =>
      apply Tiling.next (by rw [← hread off, hsome])
      rw [Nat.add_assoc]
      exact ih

/-! ## The prefix up to the first item of a kind -/

/-- The shortest prefix that ends in an item of the kind, or the whole list. -/
def upTo (p : ι → Bool) : List ι → List ι
  | [] => []
  | i :: is => if p i then [i] else i :: upTo p is

theorem upTo_append_cons {p : ι → Bool} {pre is : List ι} {i : ι}
    (hpre : ∀ j ∈ pre, p j = false) (hi : p i = true) : upTo p (pre ++ i :: is) = pre ++ [i] := by
  induction pre with
  | nil => simp [upTo, hi]
  | cons j pre ih =>
      have hj : p j = false := hpre j (by simp)
      simp [upTo, hj, ih (fun k hk => hpre k (by simp [hk]))]

theorem upTo_eq_self {p : ι → Bool} {is : List ι} (h : ∀ j ∈ is, p j = false) :
    upTo p is = is := by
  induction is with
  | nil => rfl
  | cons j is ih =>
      have hj : p j = false := h j (by simp)
      simp [upTo, hj, ih (fun k hk => h k (by simp [hk]))]

theorem upTo_prefix (p : ι → Bool) (is : List ι) : upTo p is <+: is := by
  induction is with
  | nil => exact List.prefix_rfl
  | cons j is ih =>
      cases hj : p j with
      | true => simp [upTo, hj]
      | false => simpa [upTo, hj] using ih

/-- Either the prefix ends in the first item of the kind, or there is none. -/
theorem upTo_cases (p : ι → Bool) (is : List ι) :
    (∃ pre i, upTo p is = pre ++ [i] ∧ p i = true ∧ ∀ j ∈ pre, p j = false) ∨
      (upTo p is = is ∧ ∀ j ∈ is, p j = false) := by
  induction is with
  | nil => exact .inr ⟨rfl, by simp⟩
  | cons j is ih =>
      cases hj : p j with
      | true => exact .inl ⟨[], j, by simp [upTo, hj], hj, by simp⟩
      | false =>
          rcases ih with ⟨pre, i, heq, hi, hpre⟩ | ⟨heq, hall⟩
          · refine .inl ⟨j :: pre, i, by simp [upTo, hj, heq], hi, ?_⟩
            simpa [hj] using hpre
          · refine .inr ⟨by simp [upTo, hj, heq], ?_⟩
            simpa [hj] using hall

end CProfiler.Foundation
