import CProfiler.Foundation.SortedMap

/-! Tables of counts, ordered by their keys: a key is in the table as long as something is counted
under it, and a stretch of keys is read through two positions. -/

namespace CProfiler.Foundation

variable {κ α : Type*} [LinearOrder κ]

namespace SortedMap

/-! ## Erasing and bisection -/

def erase (m : SortedMap κ α) (k : κ) : SortedMap κ α :=
  ⟨m.entries.filter (fun e => decide (e.1 ≠ k)), m.ascending.filter _⟩

/-- The position of the first key that is not below `a`. -/
def bisectLeft (m : SortedMap κ α) (a : κ) : ℕ := m.entries.findIdx (fun e => decide (a ≤ e.1))

/-- The keys at the positions from `i` to before `j`. -/
def keysBetween (m : SortedMap κ α) (i j : ℕ) : List κ :=
  ((m.entries.drop i).take (j - i)).map Prod.fst

theorem find?_erase (m : SortedMap κ α) (k k' : κ) :
    (m.erase k).find? k' = if k = k' then none else m.find? k' := by
  rcases m with ⟨l, hl⟩
  simp only [erase, find?]
  clear hl
  induction l with
  | nil => simp
  | cons e l ih =>
      by_cases he : e.1 = k
      · by_cases hk : k = k'
        · simp [he, hk]
        · simpa [he, hk] using ih
      · by_cases hk : k = k'
        · have hek : ¬ e.1 = k' := hk ▸ he
          simp [hk, hek]
        · by_cases hek : e.1 = k'
          · simp [hek, hk, Ne.symm hk]
          · simpa [he, hk, hek] using ih

/-- A key of the map is one that is found. -/
theorem mem_keys_iff (m : SortedMap κ α) (k : κ) :
    k ∈ m.entries.map Prod.fst ↔ m.find? k ≠ none := by
  simp only [find?, ne_eq, Option.map_eq_none_iff, List.find?_eq_none, decide_eq_true_eq, not_forall,
    not_not, List.mem_map, exists_prop]

/-- In an ascending list the keys below a bound come first. -/
theorem take_findIdx_le (a : κ) {l : List (κ × α)} (h : l.Pairwise (fun x y => x.1 < y.1)) :
    l.take (l.findIdx (fun e => decide (a ≤ e.1))) = l.filter (fun e => decide (e.1 < a)) := by
  induction l with
  | nil => rfl
  | cons e l ih =>
      rcases List.pairwise_cons.mp h with ⟨he, hl⟩
      by_cases hae : a ≤ e.1
      · have hnone : l.filter (fun e => decide (e.1 < a)) = [] := by
          rw [List.filter_eq_nil_iff]
          intro e' he' hlt
          exact absurd (of_decide_eq_true hlt) (not_lt.mpr (hae.trans (he e' he').le))
        simp [List.findIdx_cons, hae, not_lt.mpr hae, hnone]
      · rw [List.findIdx_cons, decide_eq_false hae, cond_false, List.take_succ_cons,
          List.filter_cons, decide_eq_true (not_le.mp hae), if_pos rfl, ih hl]

/-- The entries between the positions for two bounds are those with keys between the bounds. -/
theorem drop_take_findIdx_le {a b : κ} (hab : a ≤ b) {l : List (κ × α)}
    (h : l.Pairwise (fun x y => x.1 < y.1)) :
    (l.drop (l.findIdx (fun e => decide (a ≤ e.1)))).take
        (l.findIdx (fun e => decide (b ≤ e.1)) - l.findIdx (fun e => decide (a ≤ e.1))) =
      l.filter (fun e => decide (a ≤ e.1) && decide (e.1 < b)) := by
  induction l with
  | nil => rfl
  | cons e l ih =>
      rcases List.pairwise_cons.mp h with ⟨he, hl⟩
      by_cases hae : a ≤ e.1
      · have hfirst : (e :: l).findIdx (fun e => decide (a ≤ e.1)) = 0 := by
          simp [List.findIdx_cons, hae]
        rw [hfirst, List.drop_zero, Nat.sub_zero, take_findIdx_le b h]
        apply List.filter_congr
        intro e' he'
        have hae' : a ≤ e'.1 := by
          rcases List.mem_cons.mp he' with rfl | he'
          · exact hae
          · exact hae.trans (he e' he').le
        rw [decide_eq_true hae', Bool.true_and]
      · have hbe : ¬ b ≤ e.1 := fun hbe => hae (hab.trans hbe)
        have hskip : ∀ c : κ, ¬ c ≤ e.1 → (e :: l).findIdx (fun e => decide (c ≤ e.1)) =
            l.findIdx (fun e => decide (c ≤ e.1)) + 1 := by
          intro c hc
          rw [List.findIdx_cons, decide_eq_false hc, cond_false]
        rw [hskip a hae, hskip b hbe, List.drop_succ_cons, Nat.add_sub_add_right, ih hl,
          List.filter_cons, decide_eq_false hae, Bool.false_and]
        rfl

/-- Bisecting for both ends of a stretch selects the keys in it. -/
theorem mem_keysBetween_bisectLeft (m : SortedMap κ α) {a b : κ} (hab : a ≤ b) (k : κ) :
    k ∈ m.keysBetween (m.bisectLeft a) (m.bisectLeft b) ↔ m.find? k ≠ none ∧ a ≤ k ∧ k < b := by
  rw [keysBetween, bisectLeft, bisectLeft, drop_take_findIdx_le hab m.ascending, ← m.mem_keys_iff]
  simp only [List.mem_map, List.mem_filter, Bool.and_eq_true, decide_eq_true_eq]
  refine ⟨fun h => ?_, fun h => ?_⟩
  · rcases h with ⟨e, ⟨he, hbounds⟩, rfl⟩
    exact ⟨⟨e, he, rfl⟩, hbounds⟩
  · rcases h with ⟨⟨e, he, rfl⟩, hbounds⟩
    exact ⟨e, ⟨he, hbounds⟩, rfl⟩

/-- Maps in which the same is found are the same. -/
theorem entries_eq_of_find? {m m' : SortedMap κ α} (h : ∀ k, m.find? k = m'.find? k) :
    m.entries = m'.entries := by
  have hmem : ∀ (m : SortedMap κ α) (e : κ × α), e ∈ m.entries ↔ m.find? e.1 = some e.2 := by
    intro m e
    rcases m with ⟨l, hl⟩
    simp only [find?]
    induction l with
    | nil => simp
    | cons x l ih =>
        rcases List.pairwise_cons.mp hl with ⟨hx, hl⟩
        by_cases hxe : x.1 = e.1
        · have hnot : e ∉ l := fun he => (hx e he).ne hxe
          rw [List.mem_cons, or_iff_left hnot, List.find?_cons_of_pos (by simpa using hxe),
            Option.map_some, Option.some.injEq]
          exact ⟨fun heq => heq ▸ rfl, fun heq => Prod.ext hxe.symm heq.symm⟩
        · have hne : e ≠ x := fun heq => hxe (heq ▸ rfl)
          rw [List.mem_cons, or_iff_right hne, List.find?_cons_of_neg (by simpa using hxe)]
          exact ih hl
  refine List.Perm.eq_of_pairwise (fun x y _ _ hxy hyx => ?_) m.ascending m'.ascending ?_
  · exact absurd (hxy.trans hyx) (lt_irrefl _)
  · have hnodup : ∀ m : SortedMap κ α, m.entries.Nodup :=
      fun m => m.ascending.imp fun hlt heq => hlt.ne (congrArg Prod.fst heq)
    refine (List.perm_ext_iff_of_nodup (hnodup m) (hnodup m')).mpr fun e => ?_
    rw [hmem m, hmem m', h]

/-! ## Counts -/

/-- The table holds the counts, and no key whose count is zero. -/
def Counts (m : SortedMap κ ℕ) (count : κ → ℕ) : Prop :=
  ∀ k, m.find? k = if count k = 0 then none else some (count k)

/-- One more under the key. -/
def increment (m : SortedMap κ ℕ) (k : κ) : SortedMap κ ℕ :=
  match m.find? k with
  | some n => m.insert k (n + 1)
  | none => m.insert k 1

/-- One less under the key, if there is one. -/
def decrement? (m : SortedMap κ ℕ) (k : κ) : Option (SortedMap κ ℕ) :=
  match m.find? k with
  | some n => if n = 1 then some (m.erase k) else some (m.insert k (n - 1))
  | none => none

variable {m : SortedMap κ ℕ} {count : κ → ℕ}

theorem counts_empty : Counts (empty : SortedMap κ ℕ) (fun _ => 0) := fun _ => rfl

theorem Counts.mem_keys_iff (h : Counts m count) (k : κ) : m.find? k ≠ none ↔ count k ≠ 0 := by
  rw [h k]
  split_ifs with hzero
  · simp [hzero]
  · simp [hzero]

/-- The counts determine the table. -/
theorem Counts.entries_eq {m' : SortedMap κ ℕ} (h : Counts m count) (h' : Counts m' count) :
    m.entries = m'.entries :=
  entries_eq_of_find? fun k => (h k).trans (h' k).symm

theorem Counts.increment (h : Counts m count) (k : κ) :
    Counts (m.increment k) (fun k' => count k' + if k = k' then 1 else 0) := by
  intro k'
  have hfind : (m.increment k).find? k' =
      if k = k' then some (count k + 1) else m.find? k' := by
    rw [SortedMap.increment, h k]
    by_cases hzero : count k = 0
    · simp [hzero, find?_insert]
    · simp [hzero, find?_insert]
  rw [hfind, h k']
  by_cases hk : k = k'
  · simp [hk]
  · simp [hk]

/-- Taking away what has been counted succeeds. -/
theorem Counts.decrement? (h : Counts m count) {k : κ} (hpos : count k ≠ 0) :
    ∃ m', m.decrement? k = some m' ∧
      Counts m' (fun k' => count k' - if k = k' then 1 else 0) := by
  rw [SortedMap.decrement?, h k, if_neg hpos]
  by_cases hone : count k = 1
  · refine ⟨m.erase k, by simp [hone], fun k' => ?_⟩
    rw [find?_erase, h k']
    by_cases hk : k = k'
    · simp [← hk, hone]
    · simp [hk]
  · refine ⟨m.insert k (count k - 1), by simp [hone], fun k' => ?_⟩
    rw [find?_insert, h k']
    by_cases hk : k = k'
    · subst hk
      have hne : count k - 1 ≠ 0 := by omega
      simp [hne]
    · simp [hk]

end SortedMap

end CProfiler.Foundation
