import CProfiler.Foundation.RoseTree
import Mathlib.Data.List.Nodup

/-! The positions of the leaves of a forest, from left to right. Those below one node stand
together. -/

namespace CProfiler.Foundation.Rose

variable {β : Type*}

/-- The positions of the leaves, if the first tree has the number `i`. -/
def leafPositionsFrom : ℕ → List (Rose β) → List (List ℕ)
  | _, [] => []
  | i, node _ [] :: rest => [i] :: leafPositionsFrom (i + 1) rest
  | i, node _ (c :: cs) :: rest =>
      (leafPositionsFrom 0 (c :: cs)).map (i :: ·) ++ leafPositionsFrom (i + 1) rest

def leafPositions (forest : List (Rose β)) : List (List ℕ) := leafPositionsFrom 0 forest

/-- The leaves of one tree, below its root. -/
def leavesOf (cs : List (Rose β)) : List (List ℕ) := if cs.isEmpty then [[]] else leafPositions cs

theorem leafPositionsFrom_nil (i : ℕ) : leafPositionsFrom i ([] : List (Rose β)) = [] := by
  rw [leafPositionsFrom]

theorem leafPositionsFrom_cons (i : ℕ) (a : β) (cs rest : List (Rose β)) :
    leafPositionsFrom i (node a cs :: rest) =
      (leavesOf cs).map (i :: ·) ++ leafPositionsFrom (i + 1) rest := by
  cases cs with
  | nil => rw [leafPositionsFrom, leavesOf, List.isEmpty_nil, if_pos rfl]; rfl
  | cons c cs =>
      rw [leafPositionsFrom, leavesOf, List.isEmpty_cons, if_neg Bool.false_ne_true, leafPositions]

/-- A leaf begins with the number of its tree. -/
theorem mem_leafPositionsFrom {i : ℕ} {forest : List (Rose β)} {p : List ℕ} :
    p ∈ leafPositionsFrom i forest ↔
      ∃ j t p', forest[j]? = some t ∧ p = (i + j) :: p' ∧ p' ∈ leavesOf t.children := by
  induction forest generalizing i with
  | nil =>
      rw [leafPositionsFrom_nil]
      refine ⟨fun h => absurd h List.not_mem_nil, fun h => ?_⟩
      rcases h with ⟨j, t, p', ht, _⟩
      cases ht
  | cons t rest ih =>
      cases t with
      | node a cs =>
          rw [leafPositionsFrom_cons, List.mem_append, List.mem_map, ih]
          refine ⟨fun h => ?_, fun h => ?_⟩
          · rcases h with ⟨p', hp', rfl⟩ | ⟨j, t, p', ht, rfl, hp'⟩
            · exact ⟨0, node a cs, p', rfl, rfl, hp'⟩
            · exact ⟨j + 1, t, p', ht, by rw [Nat.add_assoc, Nat.add_comm 1], hp'⟩
          · rcases h with ⟨j, t, p', ht, rfl, hp'⟩
            cases j with
            | zero =>
                cases ht
                exact .inl ⟨p', hp', rfl⟩
            | succ j => exact .inr ⟨j, t, p', ht, by rw [Nat.add_assoc, Nat.add_comm 1], hp'⟩

theorem nodup_leafPositionsFrom (forest : List (Rose β)) :
    ∀ i, (leafPositionsFrom i forest).Nodup := by
  induction forest using forest_induction with
  | nil =>
      intro i
      rw [leafPositionsFrom_nil]
      exact List.nodup_nil
  | cons a cs rest ihcs ihrest =>
      intro i
      have hleaves : (leavesOf cs).Nodup := by
        rw [leavesOf]
        split_ifs
        · exact List.nodup_singleton []
        · exact ihcs 0
      rw [leafPositionsFrom_cons]
      refine (hleaves.map (List.cons_injective)).append (ihrest (i + 1)) fun p hp hp' => ?_
      rcases List.mem_map.mp hp with ⟨q, _, rfl⟩
      rcases mem_leafPositionsFrom.mp hp' with ⟨j, t, q', _, heq, _⟩
      have hnum := (List.cons.inj heq).1
      omega

theorem nodup_leafPositions (forest : List (Rose β)) : (leafPositions forest).Nodup :=
  nodup_leafPositionsFrom forest 0

/-! ## Leaves below a node -/

/-- The leaves below a position. -/
def leavesBelow (q : List ℕ) (leaves : List (List ℕ)) : List (List ℕ) := leaves.filter (q <+: ·)

/-- The leaves below a position stand side by side. -/
def Together (q : List ℕ) (leaves : List (List ℕ)) : Prop :=
  ∃ before after, leaves = before ++ leavesBelow q leaves ++ after

theorem leavesBelow_eq_nil {q : List ℕ} {leaves : List (List ℕ)} (h : ∀ p ∈ leaves, ¬ q <+: p) :
    leavesBelow q leaves = [] :=
  List.filter_eq_nil_iff.mpr fun p hp hq => h p hp (of_decide_eq_true hq)

theorem leavesBelow_map_cons (i : ℕ) (q : List ℕ) (leaves : List (List ℕ)) :
    leavesBelow (i :: q) (leaves.map (i :: ·)) = (leavesBelow q leaves).map (i :: ·) := by
  rw [leavesBelow, leavesBelow, List.filter_map]
  congr 1
  refine List.filter_congr fun p _ => ?_
  simp only [Function.comp_apply, List.cons_prefix_cons, true_and]

theorem leavesBelow_append (q : List ℕ) (leaves leaves' : List (List ℕ)) :
    leavesBelow q (leaves ++ leaves') = leavesBelow q leaves ++ leavesBelow q leaves' :=
  List.filter_append _ _

/-- No leaf of a tree is below a position in another one. -/
theorem leavesBelow_other {i j : ℕ} (h : i ≠ j) (q : List ℕ) (leaves : List (List ℕ)) :
    leavesBelow (j :: q) (leaves.map (i :: ·)) = [] := by
  refine leavesBelow_eq_nil fun p hp hbegins => h ?_
  rcases List.mem_map.mp hp with ⟨p', _, rfl⟩
  exact (List.cons_prefix_cons.mp hbegins).1.symm

theorem leavesBelow_later {i j : ℕ} (h : j < i) (q : List ℕ) (forest : List (Rose β)) :
    leavesBelow (j :: q) (leafPositionsFrom i forest) = [] := by
  refine leavesBelow_eq_nil fun p hp hbegins => ?_
  rcases mem_leafPositionsFrom.mp hp with ⟨n, t, p', _, rfl, _⟩
  have hnum := (List.cons_prefix_cons.mp hbegins).1
  omega

theorem together_root (q : List ℕ) : Together q [[]] := by
  by_cases hq : q = []
  · rw [hq]
    exact ⟨[], [], rfl⟩
  · have hnone : leavesBelow q [[]] = [] := by
      refine leavesBelow_eq_nil fun p hp hbegins => hq ?_
      rw [List.mem_singleton.mp hp] at hbegins
      exact List.prefix_nil.mp hbegins
    exact ⟨[[]], [], by rw [hnone]; rfl⟩

/-- A node has its leaves side by side. -/
theorem together_leafPositionsFrom (q : List ℕ) :
    ∀ (forest : List (Rose β)) (i : ℕ), Together q (leafPositionsFrom i forest) := by
  induction q with
  | nil =>
      intro forest i
      have hall : leavesBelow [] (leafPositionsFrom i forest) = leafPositionsFrom i forest :=
        List.filter_eq_self.mpr fun p _ => decide_eq_true List.nil_prefix
      exact ⟨[], [], by rw [hall, List.nil_append, List.append_nil]⟩
  | cons j q ihq =>
      intro forest
      induction forest with
      | nil =>
          intro i
          rw [leafPositionsFrom_nil]
          exact ⟨[], [], rfl⟩
      | cons t rest ih =>
          intro i
          cases t with
          | node a cs =>
              rw [leafPositionsFrom_cons]
              by_cases hij : i = j
              · have hrest := leavesBelow_later (by omega : j < i + 1) q rest
                have hleaves : Together q (leavesOf cs) := by
                  rw [leavesOf]
                  split_ifs
                  · exact together_root q
                  · exact ihq cs 0
                rcases hleaves with ⟨before, after, hsplit⟩
                refine ⟨before.map (i :: ·), after.map (i :: ·) ++ leafPositionsFrom (i + 1) rest,
                  ?_⟩
                rw [leavesBelow_append, hrest, List.append_nil, ← hij, leavesBelow_map_cons,
                  ← List.append_assoc, ← List.map_append, ← List.map_append, ← hsplit]
              · have hfirst := leavesBelow_other hij q (leavesOf cs)
                rcases ih (i + 1) with ⟨before, after, hsplit⟩
                refine ⟨(leavesOf cs).map (i :: ·) ++ before, after, ?_⟩
                rw [leavesBelow_append, hfirst, List.nil_append, List.append_assoc,
                  List.append_assoc, ← List.append_assoc before, ← hsplit]

theorem together_leafPositions (q : List ℕ) (forest : List (Rose β)) :
    Together q (leafPositions forest) :=
  together_leafPositionsFrom q forest 0

theorem leavesBelow_tree {forest : List (Rose β)} {j : ℕ} {t : Rose β} (ht : forest[j]? = some t)
    (i : ℕ) (q : List ℕ) : leavesBelow ((i + j) :: q) (leafPositionsFrom i forest) =
      (leavesBelow q (leavesOf t.children)).map ((i + j) :: ·) := by
  induction forest generalizing i j with
  | nil => cases ht
  | cons u rest ih =>
      cases u with
      | node a cs =>
          rw [leafPositionsFrom_cons, leavesBelow_append]
          cases j with
          | zero =>
              cases ht
              rw [leavesBelow_later (by omega), List.append_nil, Nat.add_zero,
                leavesBelow_map_cons]
              rfl
          | succ j =>
              rw [leavesBelow_other (by omega), List.nil_append, Nat.add_comm j 1,
                ← Nat.add_assoc]
              exact ih ht (i + 1)

/-- The leaves below a node are those of its children. -/
theorem leavesBelow_leavesOf {q : List ℕ} :
    ∀ {forest cs : List (Rose β)}, childrenAt forest q = some cs →
      leavesBelow q (leavesOf forest) = (leavesOf cs).map (q ++ ·) := by
  induction q with
  | nil =>
      intro forest cs h
      cases h
      rw [leavesBelow, List.filter_eq_self.mpr fun p _ => decide_eq_true List.nil_prefix]
      exact (List.map_id _).symm
  | cons j q ih =>
      intro forest cs h
      rw [childrenAt] at h
      rcases Option.bind_eq_some_iff.mp h with ⟨t, ht, hcs⟩
      have hne : forest.isEmpty = false := by
        cases forest with
        | nil => cases ht
        | cons u rest => rfl
      have htree := leavesBelow_tree ht 0 q
      rw [Nat.zero_add] at htree
      rw [leavesOf, hne, if_neg Bool.false_ne_true, leafPositions, htree, ih hcs, List.map_map]
      rfl

/-! ## Numbers of leaves -/

/-- The number of the first leaf below a position. -/
def firstBelow (q : List ℕ) (leaves : List (List ℕ)) : ℕ := leaves.findIdx (q <+: ·)

variable {q : List ℕ} {leaves : List (List ℕ)}

theorem begins_of_mem_leavesBelow {p : List ℕ} (h : p ∈ leavesBelow q leaves) : q <+: p :=
  of_decide_eq_true (List.mem_filter.mp h).2

theorem findIdx_between {before below after : List (List ℕ)} (hbefore : ∀ p ∈ before, ¬ q <+: p)
    (hbelow : ∀ p ∈ below, q <+: p) (hne : below ≠ []) :
    (before ++ below ++ after).findIdx (q <+: ·) = before.length := by
  have hnone : before.findIdx (q <+: ·) = before.length :=
    List.findIdx_eq_length_of_false fun p hp => decide_eq_false (hbefore p hp)
  rw [List.append_assoc, List.findIdx_append, hnone, if_neg (Nat.lt_irrefl _)]
  cases below with
  | nil => exact absurd rfl hne
  | cons p below =>
      rw [List.cons_append, List.findIdx_cons, decide_eq_true (hbelow p List.mem_cons_self)]
      exact Nat.zero_add _

/-- What stands before the leaves below a position, and what after them. -/
theorem Together.split (h : Together q leaves) :
    ∃ before after, leaves = before ++ leavesBelow q leaves ++ after ∧
      (∀ p ∈ before, ¬ q <+: p) ∧ (∀ p ∈ after, ¬ q <+: p) ∧
        (leavesBelow q leaves ≠ [] → firstBelow q leaves = before.length) := by
  rcases h with ⟨before, after, hsplit⟩
  have hbelow : (leavesBelow q leaves).countP (q <+: ·) = leaves.countP (q <+: ·) := by
    rw [leavesBelow, List.countP_filter]
    simp only [Bool.and_self]
  have hcount := congrArg (List.countP (q <+: ·)) hsplit
  rw [List.countP_append, List.countP_append, hbelow] at hcount
  have hnone : before.countP (q <+: ·) = 0 ∧ after.countP (q <+: ·) = 0 := by omega
  have hbefore : ∀ p ∈ before, ¬ q <+: p := fun p hp hbegins =>
    List.countP_eq_zero.mp hnone.1 p hp (decide_eq_true hbegins)
  have hafter : ∀ p ∈ after, ¬ q <+: p := fun p hp hbegins =>
    List.countP_eq_zero.mp hnone.2 p hp (decide_eq_true hbegins)
  refine ⟨before, after, hsplit, hbefore, hafter, fun hne => ?_⟩
  rw [firstBelow]
  conv_lhs => rw [hsplit]
  exact findIdx_between hbefore (fun p => begins_of_mem_leavesBelow) hne

/-- The leaves below a position have the numbers from the first on. -/
theorem Together.getElem?_leavesBelow (h : Together q leaves) {k : ℕ} {p : List ℕ}
    (hk : leaves[k]? = some p) (hbegins : q <+: p) :
    firstBelow q leaves ≤ k ∧ (leavesBelow q leaves)[k - firstBelow q leaves]? = some p := by
  rcases h.split with ⟨before, after, hsplit, hbefore, hafter, hfirst⟩
  have hmem : p ∈ leavesBelow q leaves :=
    List.mem_filter.mpr ⟨List.mem_of_getElem? hk, decide_eq_true hbegins⟩
  rw [hfirst (List.ne_nil_of_mem hmem)]
  rw [hsplit, List.append_assoc] at hk
  by_cases hlt : k < before.length
  · rw [List.getElem?_append_left hlt] at hk
    exact absurd hbegins (hbefore p (List.mem_of_getElem? hk))
  · have hle : before.length ≤ k := Nat.not_lt.mp hlt
    rw [List.getElem?_append_right hle] at hk
    by_cases hcount : k - before.length < (leavesBelow q leaves).length
    · rw [List.getElem?_append_left hcount] at hk
      exact ⟨hle, hk⟩
    · rw [List.getElem?_append_right (Nat.not_lt.mp hcount)] at hk
      exact absurd hbegins (hafter p (List.mem_of_getElem? hk))

/-- A leaf is below a position if and only if its number is. -/
theorem Together.prefix_iff (h : Together q leaves) {k : ℕ} {p : List ℕ}
    (hk : leaves[k]? = some p) :
    q <+: p ↔ firstBelow q leaves ≤ k ∧
      k < firstBelow q leaves + (leavesBelow q leaves).length := by
  refine ⟨fun hbegins => ?_, fun hbetween => ?_⟩
  · rcases h.getElem?_leavesBelow hk hbegins with ⟨hle, hat⟩
    have hlt := (List.getElem?_eq_some_iff.mp hat).1
    exact ⟨hle, by omega⟩
  · rcases h.split with ⟨before, after, hsplit, _, _, hfirst⟩
    have hne : leavesBelow q leaves ≠ [] := by
      intro hnil
      rw [hnil] at hbetween
      exact absurd hbetween.1 (Nat.not_le.mpr hbetween.2)
    rw [hfirst hne] at hbetween
    have hlt : k - before.length < (leavesBelow q leaves).length := by omega
    rw [hsplit, List.append_assoc, List.getElem?_append_right hbetween.1,
      List.getElem?_append_left hlt] at hk
    exact begins_of_mem_leavesBelow (List.mem_of_getElem? hk)

/-! ## The way to a leaf -/

theorem childrenAt_leaf {p : List ℕ} : ∀ {forest : List (Rose β)} {i : ℕ},
    p ∈ leafPositionsFrom i forest → ∃ j p', p = (i + j) :: p' ∧
      childrenAt forest (j :: p') = some [] := by
  induction p with
  | nil =>
      intro forest i h
      rcases mem_leafPositionsFrom.mp h with ⟨j, t, p', _, heq, _⟩
      cases heq
  | cons j p ih =>
      intro forest i h
      rcases mem_leafPositionsFrom.mp h with ⟨n, t, p', ht, heq, hp'⟩
      refine ⟨n, p', heq, ?_⟩
      rw [(List.cons.inj heq).2] at ih
      rw [childrenAt, ht, Option.bind_some]
      rw [leavesOf] at hp'
      split_ifs at hp' with hempty
      · rw [List.mem_singleton.mp hp', childrenAt, List.isEmpty_iff.mp hempty]
      · rcases ih hp' with ⟨m, p'', heq', hat⟩
        rw [Nat.zero_add] at heq'
        rw [heq']
        exact hat

theorem childrenAt_of_mem {forest : List (Rose β)} {p : List ℕ} (h : p ∈ leafPositions forest) :
    p ≠ [] ∧ childrenAt forest p = some [] := by
  rcases childrenAt_leaf h with ⟨j, p', heq, hat⟩
  rw [Nat.zero_add] at heq
  rw [heq]
  exact ⟨List.cons_ne_nil _ _, hat⟩

/-- On the way to a node every other node has children. -/
theorem childrenAt_above {q : List ℕ} : ∀ {forest cs : List (Rose β)} {p : List ℕ},
    childrenAt forest p = some cs → q <+: p →
      ∃ cs', childrenAt forest q = some cs' ∧ (cs' = [] → q = p) := by
  induction q with
  | nil =>
      intro forest cs p h _
      refine ⟨forest, rfl, fun hnil => ?_⟩
      cases p with
      | nil => rfl
      | cons i p =>
          rw [hnil] at h
          cases h
  | cons j q ih =>
      intro forest cs p h hbegins
      cases p with
      | nil => exact absurd (List.prefix_nil.mp hbegins) (List.cons_ne_nil _ _)
      | cons i p =>
          rcases List.cons_prefix_cons.mp hbegins with ⟨rfl, hrest⟩
          rw [childrenAt] at h
          rcases Option.bind_eq_some_iff.mp h with ⟨t, ht, hcs⟩
          rcases ih hcs hrest with ⟨cs', hat, hend⟩
          refine ⟨cs', ?_, fun hnil => congrArg _ (hend hnil)⟩
          rw [childrenAt, ht]
          exact hat

theorem leavesBelow_leafPositions {forest cs : List (Rose β)} (hne : forest ≠ []) {q : List ℕ}
    (h : childrenAt forest q = some cs) :
    leavesBelow q (leafPositions forest) = (leavesOf cs).map (q ++ ·) := by
  have hleaves := leavesBelow_leavesOf h
  rwa [leavesOf, if_neg (by rwa [List.isEmpty_iff])] at hleaves

end CProfiler.Foundation.Rose
