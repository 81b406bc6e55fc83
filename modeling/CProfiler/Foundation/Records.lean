import Mathlib.Data.List.Basic

/-! Texts of lines, each closed by a separator, and lines of fields with separators between
them. -/

namespace CProfiler.Foundation

variable {α : Type*}

/-! ## Lines -/

/-- Closed lines are the lines with separators between them, and one more behind the last. -/
theorem flatMap_closed_eq (sep : α) {lines : List (List α)} (hne : lines ≠ []) :
    lines.flatMap (fun line => line ++ [sep]) = [sep].intercalate lines ++ [sep] := by
  induction lines with
  | nil => exact absurd rfl hne
  | cons line lines ih =>
      cases lines with
      | nil => simp
      | cons next lines =>
          rw [List.flatMap_cons, ih (by simp), List.intercalate_cons_cons]
          simp [List.append_assoc]

/-- Lines between separators begin as the first line does. -/
theorem head?_intercalate {q : α → Prop} (sep : α) {lines : List (List α)} (hne : lines ≠ [])
    (h : ∀ line ∈ lines, ∃ a ∈ line.head?, q a) :
    ∃ a ∈ ([sep].intercalate lines).head?, q a := by
  obtain ⟨line, rest, rfl⟩ := List.exists_cons_of_ne_nil hne
  obtain ⟨a, ha, hq⟩ := h line List.mem_cons_self
  obtain ⟨tail, rfl⟩ := List.head?_eq_some_iff.mp ha
  refine ⟨a, ?_, hq⟩
  cases rest with
  | nil => simp
  | cons next rest =>
      rw [List.intercalate_cons_cons]
      rfl

/-- Lines between separators end as the last line does. -/
theorem getLast?_intercalate {q : α → Prop} (sep : α) {lines : List (List α)} (hne : lines ≠ [])
    (h : ∀ line ∈ lines, ∃ a ∈ line.getLast?, q a) :
    ∃ a ∈ ([sep].intercalate lines).getLast?, q a := by
  induction lines with
  | nil => exact absurd rfl hne
  | cons line lines ih =>
      obtain ⟨hline, hlines⟩ := List.forall_mem_cons.mp h
      cases lines with
      | nil => simpa using hline
      | cons next lines =>
          obtain ⟨a, ha, hq⟩ := ih (by simp) hlines
          obtain ⟨front, hfront⟩ := List.getLast?_eq_some_iff.mp ha
          refine ⟨a, List.getLast?_eq_some_iff.mpr ⟨line ++ [sep] ++ front, ?_⟩, hq⟩
          rw [List.intercalate_cons_cons, hfront]
          simp [List.append_assoc]

/-- Of a text between members that stay, only what is behind it is removed. -/
theorem dropWhile_both_append {p : α → Bool} {text back : List α}
    (hfirst : ∃ a ∈ text.head?, ¬ p a) (hlast : ∃ a ∈ text.getLast?, ¬ p a)
    (hback : ∀ a ∈ back, p a) :
    (((text ++ back).dropWhile p).reverse.dropWhile p).reverse = text := by
  obtain ⟨first, hmem, hfirst⟩ := hfirst
  obtain ⟨rest, rfl⟩ := List.head?_eq_some_iff.mp hmem
  obtain ⟨last, hmem, hlast⟩ := hlast
  obtain ⟨front, hfront⟩ := List.getLast?_eq_some_iff.mp hmem
  have hkept : ((first :: rest) ++ back).dropWhile p = (first :: rest) ++ back := by
    rw [List.cons_append, List.dropWhile_cons_of_neg hfirst]
  have hbehind : (back.reverse ++ (last :: front.reverse)).dropWhile p = last :: front.reverse := by
    rw [List.dropWhile_append_of_pos (by simpa using hback), List.dropWhile_cons_of_neg hlast]
  rw [hkept, List.reverse_append, hfront, List.reverse_append, List.reverse_singleton,
    List.singleton_append, hbehind, List.reverse_cons, List.reverse_reverse]

/-! ## Fields -/

section Fields

variable [BEq α] [LawfulBEq α] {sep : α}

theorem splitOn_three {first second third : List α} (hfirst : sep ∉ first) (hsecond : sep ∉ second)
    (hthird : sep ∉ third) :
    (first ++ sep :: (second ++ sep :: third)).splitOn sep = [first, second, third] := by
  rw [List.splitOn_append_cons_self_of_not_mem hfirst,
    List.splitOn_append_cons_self_of_not_mem hsecond, List.splitOn_eq_singleton hthird]

/-- In front of a separator there are two fields at least, and the first one is the whole
text in front exactly when that holds no separator. -/
theorem exists_splitOn_append (front back : List α) :
    ∃ first second rest, (front ++ sep :: back).splitOn sep = first :: second :: rest ∧
      (sep ∉ front → first = front ∧ second :: rest = back.splitOn sep) ∧
      (sep ∈ front → first ≠ front) := by
  by_cases h : sep ∈ front
  · obtain ⟨first, tail, hfront, hfirst⟩ := List.eq_append_cons_of_mem h
    have hne : (tail ++ sep :: back).splitOn sep ≠ [] := List.splitOn_ne_nil _ _
    obtain ⟨second, rest, hrest⟩ := List.exists_cons_of_ne_nil hne
    refine ⟨first, second, rest, ?_, fun hnot => absurd h hnot, fun _ heq => ?_⟩
    · rw [hfront, List.append_assoc, List.cons_append,
        List.splitOn_append_cons_self_of_not_mem hfirst, hrest]
    · have hlength := congrArg List.length (heq.trans hfront)
      simp at hlength
  · obtain ⟨second, rest, hrest⟩ :=
      List.exists_cons_of_ne_nil (List.splitOn_ne_nil sep back)
    refine ⟨front, second, rest, ?_, fun _ => ⟨rfl, hrest.symm⟩, fun hmem => absurd hmem h⟩
    rw [List.splitOn_append_cons_self_of_not_mem h, hrest]

end Fields

end CProfiler.Foundation
