import Mathlib.Data.List.Basic
import Mathlib.Data.List.Nodup

/-! Lists whose members are addressed by position and by key. -/

namespace CProfiler.Foundation

variable {α β κ : Type*}

/-! ## Changes at a position -/

theorem map_modify {f : α → α} {f' : β → β} {g : α → β} (h : ∀ x, g (f x) = f' (g x))
    (l : List α) (i : ℕ) : (l.modify i f).map g = (l.map g).modify i f' := by
  induction l generalizing i with
  | nil => simp
  | cons x l ih => cases i <;> simp [ih, h]

/-- A change that a view does not show. -/
theorem map_modify_of_eq {f : α → α} {g : α → β} (h : ∀ x, g (f x) = g x) (l : List α) (i : ℕ) :
    (l.modify i f).map g = l.map g := by
  induction l generalizing i with
  | nil => simp
  | cons x l ih => cases i <;> simp [ih, h]

/-! ## All positions -/

theorem map_getElem?_range (l : List α) :
    (List.range l.length).map (fun i => l[i]?) = l.map some := by
  apply List.ext_getElem?
  intro i
  rw [List.getElem?_map, List.getElem?_map]
  by_cases hi : i < l.length
  · simp [hi]
  · have hout : l.length ≤ i := Nat.le_of_not_lt hi
    simp [hout]

/-- Positions taken in any order give the members in some order. -/
theorem perm_of_positions {positions : List ℕ} {l : List α}
    (h : positions.Perm (List.range l.length)) :
    (positions.map (fun i => l[i]?)).Perm (l.map some) := by
  rw [← map_getElem?_range]
  exact h.map _

/-! ## Distinct keys -/

section Keys

variable [DecidableEq κ] {key : α → κ} {l : List α}

/-- Dropping a key drops the position that holds it. -/
theorem filter_key_ne_eq_eraseIdx (h : (l.map key).Nodup) {i : ℕ} {x : α} (hx : l[i]? = some x) :
    l.filter (fun y => key y ≠ key x) = l.eraseIdx i := by
  induction l generalizing i with
  | nil => cases hx
  | cons y l ih =>
      obtain ⟨hy, hl⟩ := List.nodup_cons.mp h
      cases i with
      | zero =>
          obtain rfl : y = x := by simpa using hx
          have hrest : ∀ z ∈ l, key z ≠ key y := fun z hz heq =>
            hy (heq ▸ List.mem_map_of_mem hz)
          have hkept : l.filter (fun z => key z ≠ key y) = l :=
            List.filter_eq_self.mpr fun z hz => by simpa using hrest z hz
          rw [List.filter_cons_of_neg (by simp), hkept, List.eraseIdx_cons_zero]
      | succ i =>
          have hx' : l[i]? = some x := by simpa using hx
          have hne : key y ≠ key x := fun heq =>
            hy (heq ▸ List.mem_map_of_mem (List.mem_of_getElem? hx'))
          rw [List.filter_cons_of_pos (by simpa using hne), ih hl hx', List.eraseIdx_cons_succ]

/-- Changing the entry of a key changes the position that holds it. -/
theorem map_key_eq_modify (h : (l.map key).Nodup) {i : ℕ} {x : α} (hx : l[i]? = some x)
    (f : α → α) : l.map (fun y => if key y = key x then f y else y) = l.modify i f := by
  induction l generalizing i with
  | nil => cases hx
  | cons y l ih =>
      obtain ⟨hy, hl⟩ := List.nodup_cons.mp h
      cases i with
      | zero =>
          obtain rfl : y = x := by simpa using hx
          have hrest : l.map (fun z => if key z = key y then f z else z) = l := by
            refine (List.map_congr_left fun z hz => ?_).trans (List.map_id l)
            have hne : key z ≠ key y := fun heq => hy (heq ▸ List.mem_map_of_mem hz)
            exact if_neg hne
          rw [List.map_cons, hrest, if_pos rfl, List.modify_zero_cons]
      | succ i =>
          have hx' : l[i]? = some x := by simpa using hx
          have hne : key y ≠ key x := fun heq =>
            hy (heq ▸ List.mem_map_of_mem (List.mem_of_getElem? hx'))
          rw [List.map_cons, ih hl hx', if_neg hne, List.modify_succ_cons]

theorem find?_key_eq (h : (l.map key).Nodup) {i : ℕ} {x : α} (hx : l[i]? = some x) :
    l.find? (fun y => key y = key x) = some x := by
  induction l generalizing i with
  | nil => cases hx
  | cons y l ih =>
      obtain ⟨hy, hl⟩ := List.nodup_cons.mp h
      cases i with
      | zero =>
          obtain rfl : y = x := by simpa using hx
          simp
      | succ i =>
          have hx' : l[i]? = some x := by simpa using hx
          have hne : key y ≠ key x := fun heq =>
            hy (heq ▸ List.mem_map_of_mem (List.mem_of_getElem? hx'))
          rw [List.find?_cons_of_neg (by simpa using hne)]
          exact ih hl hx'

/-- What a function makes of the members is told apart by their keys. -/
theorem filter_filterMap_of_key {f : α → Option β} {named : κ → β → Bool}
    (hnamed : ∀ x, ∀ y ∈ f x, ∀ k, named k y = decide (key x = k)) (h : (l.map key).Nodup) {x : α}
    (hx : x ∈ l) : (l.filterMap f).filter (named (key x)) = (f x).toList := by
  have hother : ∀ z, key z ≠ key x → (f z).toList.filter (named (key x)) = [] := by
    intro z hz
    cases hf : f z with
    | none => rfl
    | some y => simp [hnamed z y hf, hz]
  have hself : (f x).toList.filter (named (key x)) = (f x).toList := by
    cases hf : f x with
    | none => rfl
    | some y => simp [hnamed x y hf]
  have hcons : ∀ z l, List.filterMap f (z :: l) = (f z).toList ++ l.filterMap f := by
    intro z l
    cases hf : f z <;> simp [hf]
  have hnone : ∀ l : List α, (∀ z ∈ l, key z ≠ key x) →
      (l.filterMap f).filter (named (key x)) = [] := by
    intro l hl
    induction l with
    | nil => rfl
    | cons z l ih =>
        obtain ⟨hz, hl⟩ := List.forall_mem_cons.mp hl
        rw [hcons, List.filter_append, hother z hz, ih hl, List.append_nil]
  induction l with
  | nil => cases hx
  | cons z l ih =>
      obtain ⟨hz, hl⟩ := List.nodup_cons.mp h
      rw [hcons, List.filter_append]
      by_cases heq : z = x
      · have hrest : ∀ y ∈ l, key y ≠ key x := fun y hy hkey =>
          hz (heq ▸ hkey ▸ List.mem_map_of_mem hy)
        rw [heq, hself, hnone l hrest, List.append_nil]
      · have hmem : x ∈ l := (List.mem_cons.mp hx).resolve_left (Ne.symm heq)
        have hne : key z ≠ key x := fun hkey => hz (hkey ▸ List.mem_map_of_mem hmem)
        rw [hother z hne, List.nil_append, ih hl hmem]

end Keys

end CProfiler.Foundation
