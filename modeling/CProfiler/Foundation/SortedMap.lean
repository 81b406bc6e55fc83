import Mathlib.Order.Basic
import Mathlib.Data.List.Basic
import Mathlib.Data.List.Sort
import Mathlib.Data.List.Induction

/-! Maps ordered by their keys, read through positions as with the iterators of an ordered
container: `upperBound` is the position of the first key above a key, the length of the
map when there is none. -/

namespace CProfiler.Foundation

variable {κ α β : Type*} [LinearOrder κ]

/-! ## The map -/

/-- A list of entries with strictly ascending keys. -/
structure SortedMap (κ α : Type*) [LinearOrder κ] where
  entries : List (κ × α)
  ascending : entries.Pairwise (fun x y => x.1 < y.1)

/-- Insertion into an ascending list; the entry of an equal key is replaced. -/
def insertEntry (k : κ) (v : α) : List (κ × α) → List (κ × α)
  | [] => [(k, v)]
  | x :: rest =>
      if k < x.1 then (k, v) :: x :: rest
      else if k = x.1 then (k, v) :: rest
      else x :: insertEntry k v rest

theorem fst_mem_insertEntry {k : κ} {v : α} {l : List (κ × α)} {x : κ × α}
    (h : x ∈ insertEntry k v l) : x = (k, v) ∨ x ∈ l := by
  induction l with
  | nil => exact .inl (List.mem_singleton.mp h)
  | cons y rest ih =>
      rw [insertEntry] at h
      split at h
      · exact List.mem_cons.mp h
      · split at h
        · rcases List.mem_cons.mp h with heq | hmem
          · exact .inl heq
          · exact .inr (List.mem_cons_of_mem _ hmem)
        · rcases List.mem_cons.mp h with heq | hmem
          · exact .inr (heq ▸ List.mem_cons_self)
          · rcases ih hmem with heq | hmem
            · exact .inl heq
            · exact .inr (List.mem_cons_of_mem _ hmem)

theorem ascending_insertEntry (k : κ) (v : α) {l : List (κ × α)}
    (h : l.Pairwise (fun x y => x.1 < y.1)) :
    (insertEntry k v l).Pairwise (fun x y => x.1 < y.1) := by
  induction l with
  | nil => simp [insertEntry]
  | cons y rest ih =>
      rcases List.pairwise_cons.mp h with ⟨hy, hrest⟩
      rw [insertEntry]
      split
      · rename_i hlt
        apply List.pairwise_cons.mpr
        refine ⟨?_, h⟩
        intro x hx
        rcases List.mem_cons.mp hx with rfl | hx
        · exact hlt
        · exact hlt.trans (hy x hx)
      · rename_i hnlt
        split
        · rename_i heq
          apply List.pairwise_cons.mpr
          refine ⟨?_, hrest⟩
          intro x hx
          rw [heq]
          exact hy x hx
        · rename_i hne
          apply List.pairwise_cons.mpr
          refine ⟨?_, ih hrest⟩
          intro x hx
          rcases fst_mem_insertEntry hx with rfl | hx
          · exact lt_of_le_of_ne (not_lt.mp hnlt) (Ne.symm hne)
          · exact hy x hx

namespace SortedMap

def empty : SortedMap κ α := ⟨[], List.Pairwise.nil⟩

def insert (m : SortedMap κ α) (k : κ) (v : α) : SortedMap κ α :=
  ⟨insertEntry k v m.entries, ascending_insertEntry k v m.ascending⟩

def find? (m : SortedMap κ α) (k : κ) : Option α :=
  (m.entries.find? (fun e => e.1 = k)).map Prod.snd

/-- The position of the first key above `a`. -/
def upperBound (m : SortedMap κ α) (a : κ) : ℕ := m.entries.findIdx (fun e => decide (a < e.1))

/-- The map after a list of insertions. -/
def ofInserts (l : List (κ × α)) : SortedMap κ α :=
  l.foldl (fun m e => m.insert e.1 e.2) empty

@[simp] theorem find?_empty (k : κ) : (empty : SortedMap κ α).find? k = none := rfl

theorem find?_insert (m : SortedMap κ α) (k : κ) (v : α) (k' : κ) :
    (m.insert k v).find? k' = if k = k' then some v else m.find? k' := by
  rcases m with ⟨l, hl⟩
  simp only [insert, find?]
  induction l with
  | nil => by_cases h : k = k' <;> simp [insertEntry, h]
  | cons y rest ih =>
      have hrest := (List.pairwise_cons.mp hl).2
      rw [insertEntry]
      split
      · by_cases h : k = k' <;> simp [h]
      · split
        · rename_i heq
          by_cases h : k = k'
          · simp [h]
          · have hy : y.1 ≠ k' := heq ▸ h
            simp [h, hy]
        · rename_i hne
          by_cases hy : y.1 = k'
          · have hk : k ≠ k' := fun h => hne (h.trans hy.symm)
            simp [hy, hk]
          · simpa [hy] using ih hrest

theorem mem_insertEntry_key (k k' : κ) (v : α) (l : List (κ × α)) :
    k' ∈ (insertEntry k v l).map Prod.fst ↔ k' = k ∨ k' ∈ l.map Prod.fst := by
  induction l with
  | nil => simp [insertEntry]
  | cons y rest ih =>
      rw [insertEntry]
      split
      · simp
      · split
        · rename_i heq
          simp [heq]
        · rw [List.map_cons, List.mem_cons, ih, List.map_cons, List.mem_cons, or_left_comm]

theorem mem_keys_insert (m : SortedMap κ α) (k k' : κ) (v : α) :
    k' ∈ (m.insert k v).entries.map Prod.fst ↔ k' = k ∨ k' ∈ m.entries.map Prod.fst :=
  mem_insertEntry_key k k' v m.entries

theorem ofInserts_append_singleton (l : List (κ × α)) (e : κ × α) :
    ofInserts (l ++ [e]) = (ofInserts l).insert e.1 e.2 := by
  simp [ofInserts]

end SortedMap

/-! ## The nearest entry of a list of insertions -/

/-- Some key of the list lies above `a`. -/
def Topped (a : κ) (l : List (κ × α)) : Prop := ∃ x ∈ l, a < x.1

instance (a : κ) (l : List (κ × α)) : Decidable (Topped a l) := List.decidableBEx _ l

/-- The entry with the greatest key at most `a`, the last of them in the list. -/
def nearest (a : κ) : List (κ × α) → Option (κ × α)
  | [] => none
  | x :: rest =>
      match nearest a rest with
      | some y => if x.1 ≤ a ∧ y.1 < x.1 then some x else some y
      | none => if x.1 ≤ a then some x else none

theorem nearest_cons (a : κ) (x : κ × α) (rest : List (κ × α)) :
    nearest a (x :: rest) = match nearest a rest with
      | some y => if x.1 ≤ a ∧ y.1 < x.1 then some x else some y
      | none => if x.1 ≤ a then some x else none := rfl

theorem nearest_le {a : κ} {l : List (κ × α)} {x : κ × α} (h : nearest a l = some x) :
    x.1 ≤ a := by
  induction l with
  | nil => simp [nearest] at h
  | cons y rest ih =>
      cases hrest : nearest a rest with
      | none =>
          simp only [nearest, hrest] at h
          split at h
          · rename_i hle
            rwa [← Option.some.inj h]
          · simp at h
      | some z =>
          simp only [nearest, hrest] at h
          split at h
          · rename_i hle
            rw [← Option.some.inj h]
            exact hle.1
          · exact ih (hrest.trans h)

theorem nearest_append (a : κ) (l l' : List (κ × α)) :
    nearest a (l ++ l') = match nearest a l, nearest a l' with
      | some x, some y => if y.1 < x.1 then some x else some y
      | some x, none => some x
      | none, r => r := by
  induction l with
  | nil => simp [nearest]
  | cons z rest ih =>
      simp only [List.cons_append, nearest, ih]
      cases hrest : nearest a rest with
      | none =>
          cases hl' : nearest a l' with
          | none => by_cases hz : z.1 ≤ a <;> simp [hz]
          | some y => by_cases hz : z.1 ≤ a <;> simp [hz]
      | some x =>
          cases hl' : nearest a l' with
          | none =>
              simp only
              split <;> rfl
          | some y =>
              simp only
              by_cases hyx : y.1 < x.1
              · by_cases hz : z.1 ≤ a ∧ x.1 < z.1
                · simp [hyx, hz, hyx.trans hz.2]
                · simp [hyx, hz]
              · by_cases hz : z.1 ≤ a ∧ x.1 < z.1
                · by_cases hyz : y.1 < z.1
                  · simp [hyx, hz, hyz]
                  · simp [hyx, hz, hyz]
                · by_cases hyz : z.1 ≤ a ∧ y.1 < z.1
                  · exact absurd ⟨hyz.1, (not_lt.mp hyx).trans_lt hyz.2⟩ hz
                  · simp [hyx, hz, hyz]

theorem nearest_append_singleton (a : κ) (l : List (κ × α)) (x : κ × α) :
    nearest a (l ++ [x]) =
      if x.1 ≤ a ∧ ∀ y ∈ nearest a l, y.1 ≤ x.1 then some x else nearest a l := by
  rw [nearest_append]
  cases h : nearest a l with
  | none => simp [nearest]
  | some y =>
      have hle := nearest_le h
      by_cases hx : x.1 ≤ a
      · by_cases hxy : x.1 < y.1
        · simp [nearest, hx, hxy]
        · simp [nearest, hx, hxy, not_lt.mp hxy]
      · simp [nearest, hx]

theorem nearest_eq_none_iff {a : κ} {l : List (κ × α)} :
    nearest a l = none ↔ ∀ x ∈ l, a < x.1 := by
  induction l with
  | nil => simp [nearest]
  | cons y rest ih =>
      cases hrest : nearest a rest with
      | none =>
          have hall := ih.mp hrest
          by_cases hy : y.1 ≤ a
          · simp [nearest, hrest, hy, not_lt.mpr hy]
          · simp [nearest, hrest, hy, not_le.mp hy]
            exact fun k v hmem => hall (k, v) hmem
      | some z =>
          have hne : ¬ ∀ x ∈ rest, a < x.1 := by
            rw [← ih, hrest]
            simp
          constructor
          · intro h
            simp only [nearest, hrest] at h
            split at h <;> simp at h
          · intro h
            exact absurd (fun x hx => h x (List.mem_cons_of_mem _ hx)) hne

theorem nearest_mem {a : κ} {l : List (κ × α)} {x : κ × α} (h : nearest a l = some x) :
    x ∈ l := by
  induction l with
  | nil => simp [nearest] at h
  | cons y rest ih =>
      cases hrest : nearest a rest with
      | none =>
          simp only [nearest, hrest] at h
          split at h
          · rw [← Option.some.inj h]
            exact List.mem_cons_self
          · simp at h
      | some z =>
          simp only [nearest, hrest] at h
          split at h
          · rw [← Option.some.inj h]
            exact List.mem_cons_self
          · exact List.mem_cons_of_mem _ (ih (hrest.trans h))

theorem nearest_cons_of_lt {a : κ} {x : κ × α} {post : List (κ × α)} (hx : x.1 ≤ a)
    (hpost : ∀ y ∈ post, y.1 ≤ a → y.1 < x.1) : nearest a (x :: post) = some x := by
  cases h : nearest a post with
  | none => simp [nearest, h, hx]
  | some y => simp [nearest, h, hx, hpost y (nearest_mem h) (nearest_le h)]

theorem exists_nearest_split {a : κ} {l : List (κ × α)} {x : κ × α} (h : nearest a l = some x) :
    ∃ pre post, l = pre ++ x :: post ∧
      (∀ y ∈ pre, y.1 ≤ a → y.1 ≤ x.1) ∧ ∀ y ∈ post, y.1 ≤ a → y.1 < x.1 := by
  induction l generalizing x with
  | nil => simp [nearest] at h
  | cons y rest ih =>
      cases hrest : nearest a rest with
      | none =>
          have hall := nearest_eq_none_iff.mp hrest
          simp only [nearest, hrest] at h
          split at h
          · obtain rfl : y = x := Option.some.inj h
            exact ⟨[], rest, rfl, by simp, fun z hz hle => absurd hle (not_le.mpr (hall z hz))⟩
          · simp at h
      | some z =>
          rcases ih hrest with ⟨pre, post, rfl, hpre, hpost⟩
          simp only [nearest, hrest] at h
          split at h
          · rename_i hy
            obtain rfl : y = x := Option.some.inj h
            refine ⟨[], _, rfl, by simp, ?_⟩
            intro w hw hle
            rcases List.mem_append.mp hw with hw | hw
            · exact (hpre w hw hle).trans_lt hy.2
            · rcases List.mem_cons.mp hw with rfl | hw
              · exact hy.2
              · exact (hpost w hw hle).trans hy.2
          · rename_i hy
            obtain rfl : z = x := Option.some.inj h
            refine ⟨y :: pre, post, rfl, ?_, hpost⟩
            intro w hw hle
            rcases List.mem_cons.mp hw with rfl | hw
            · exact not_lt.mp (fun hlt => hy ⟨hle, hlt⟩)
            · exact hpre w hw hle

/-- The entry is the last of its key in the list. -/
def LastOfKey (l : List (κ × α)) (x : κ × α) : Prop :=
  ∃ pre post, l = pre ++ x :: post ∧ ∀ y ∈ post, y.1 ≠ x.1

omit [LinearOrder κ] in
theorem LastOfKey.mem {l : List (κ × α)} {x : κ × α} (h : LastOfKey l x) : x ∈ l := by
  rcases h with ⟨pre, post, rfl, -⟩
  simp

/-- The nearest entry is the last of those with the greatest key at most `a`. -/
theorem nearest_eq_some_iff {a : κ} {l : List (κ × α)} {x : κ × α} :
    nearest a l = some x ↔
      x.1 ≤ a ∧ (∀ y ∈ l, y.1 ≤ a → y.1 ≤ x.1) ∧ LastOfKey l x := by
  constructor
  · intro h
    have hx := nearest_le h
    rcases exists_nearest_split h with ⟨pre, post, rfl, hpre, hpost⟩
    refine ⟨hx, ?_, pre, post, rfl, ?_⟩
    · intro y hy hle
      rcases List.mem_append.mp hy with hy | hy
      · exact hpre y hy hle
      · rcases List.mem_cons.mp hy with rfl | hy
        · exact le_refl _
        · exact (hpost y hy hle).le
    · intro y hy heq
      exact (hpost y hy (heq.le.trans hx)).ne heq
  · rintro ⟨hx, hmax, pre, post, rfl, hpost⟩
    have hlt : ∀ y ∈ post, y.1 ≤ a → y.1 < x.1 := by
      intro y hy hle
      exact lt_of_le_of_ne (hmax y (by simp [hy]) hle) (hpost y hy)
    rw [nearest_append, nearest_cons_of_lt hx hlt]
    cases h : nearest a pre with
    | none => rfl
    | some z =>
        have hz := hmax z (by simp [nearest_mem h]) (nearest_le h)
        simp [not_lt.mpr hz]

theorem nearest_map (a : κ) (f : α → β) (l : List (κ × α)) :
    nearest a (l.map (fun e => (e.1, f e.2))) = (nearest a l).map (fun e => (e.1, f e.2)) := by
  induction l with
  | nil => rfl
  | cons y rest ih =>
      simp only [List.map_cons, nearest, ih]
      cases nearest a rest with
      | none => simp only [Option.map_none]; split <;> rfl
      | some z => simp only [Option.map_some]; split <;> rfl

/-! ## Reading a map below an upper bound -/

/-- Inserting into an ascending list is, for the nearest entry, appending to it. -/
theorem nearest_insertEntry (a : κ) (k : κ) (v : α) {l : List (κ × α)}
    (hl : l.Pairwise (fun x y => x.1 < y.1)) :
    nearest a (insertEntry k v l) = nearest a (l ++ [(k, v)]) := by
  induction l with
  | nil => rfl
  | cons y rest ih =>
      rcases List.pairwise_cons.mp hl with ⟨hy, hrest⟩
      rw [insertEntry]
      split
      · rename_i hky
        rw [nearest_append_singleton]
        cases h : nearest a (y :: rest) with
        | none => simp [nearest_cons, h]
        | some z =>
            have hkz : k < z.1 := by
              rcases List.mem_cons.mp (nearest_mem h) with rfl | hz
              · exact hky
              · exact hky.trans (hy z hz)
            simp [nearest_cons, h, hkz.not_gt, hkz.not_ge]
      · split
        · rename_i heq
          rw [nearest_append_singleton, nearest_cons, nearest_cons]
          cases h : nearest a rest with
          | none => by_cases hk : k ≤ a <;> simp [hk, ← heq]
          | some z =>
              have hkz : k < z.1 := heq ▸ hy z (nearest_mem h)
              simp [← heq, hkz.not_gt, hkz.not_ge]
        · rw [List.cons_append, nearest_cons, nearest_cons, ih hrest]

theorem entry_before_findIdx (a : κ) {l : List (κ × α)}
    (hl : l.Pairwise (fun x y => x.1 < y.1)) :
    (if l.findIdx (fun e => decide (a < e.1)) = 0 then none
      else l[l.findIdx (fun e => decide (a < e.1)) - 1]?) = nearest a l := by
  induction l with
  | nil => rfl
  | cons y rest ih =>
      rcases List.pairwise_cons.mp hl with ⟨hy, hrest⟩
      have hih := ih hrest
      by_cases hya : a < y.1
      · have hnone : nearest a (y :: rest) = none := by
          apply nearest_eq_none_iff.mpr
          intro x hx
          rcases List.mem_cons.mp hx with rfl | hx
          · exact hya
          · exact hya.trans (hy x hx)
        simp [List.findIdx_cons, hya, hnone]
      · have hle : y.1 ≤ a := not_lt.mp hya
        have hidx : (y :: rest).findIdx (fun e => decide (a < e.1)) =
            rest.findIdx (fun e => decide (a < e.1)) + 1 := by
          simp [List.findIdx_cons, hya]
        rw [hidx, if_neg (Nat.succ_ne_zero _), Nat.add_sub_cancel, nearest_cons]
        rcases Nat.eq_zero_or_pos (rest.findIdx (fun e : κ × α => decide (a < e.1)))
          with hzero | hpos
        · rw [if_pos hzero] at hih
          simp [hzero, ← hih, hle]
        · rw [if_neg hpos.ne'] at hih
          have hlast : rest.findIdx (fun e => decide (a < e.1)) - 1 < rest.length := by
            have hlen : rest.findIdx (fun e => decide (a < e.1)) ≤ rest.length :=
              List.findIdx_le_length
            omega
          rw [List.getElem?_eq_getElem hlast] at hih
          have hlt := hy _ (List.getElem_mem hlast)
          rw [← hih, List.getElem?_cons, if_neg hpos.ne', List.getElem?_eq_getElem hlast]
          simp [hlt.not_gt]

namespace SortedMap

theorem nearest_ofInserts (a : κ) (l : List (κ × α)) :
    nearest a (ofInserts l).entries = nearest a l := by
  induction l using List.reverseRecOn with
  | nil => rfl
  | append_singleton l e ih =>
      rw [ofInserts_append_singleton, insert, nearest_insertEntry a e.1 e.2 (ofInserts l).ascending,
        nearest_append_singleton, nearest_append_singleton, ih]

theorem insertEntry_of_forall_lt {k : κ} (v : α) {l : List (κ × α)} (h : ∀ x ∈ l, x.1 < k) :
    insertEntry k v l = l ++ [(k, v)] := by
  induction l with
  | nil => rfl
  | cons y rest ih =>
      have hy := h y List.mem_cons_self
      rw [insertEntry, if_neg hy.not_gt, if_neg hy.ne', ih (fun x hx => h x (by simp [hx])),
        List.cons_append]

/-- Every map comes about by inserting its entries. -/
theorem ofInserts_entries (m : SortedMap κ α) : ofInserts m.entries = m := by
  rcases m with ⟨l, hl⟩
  induction l using List.reverseRecOn with
  | nil => rfl
  | append_singleton l e ih =>
      rcases List.pairwise_append.mp hl with ⟨hl', -, hlast⟩
      have hlt : ∀ x ∈ l, x.1 < e.1 := fun x hx => hlast x hx e (List.mem_singleton_self e)
      have hprev := ih hl'
      simp only at hprev
      simp only [ofInserts_append_singleton, hprev, insert, insertEntry_of_forall_lt e.2 hlt]

theorem topped_insertEntry (a : κ) (k : κ) (v : α) (l : List (κ × α)) :
    Topped a (insertEntry k v l) ↔ a < k ∨ Topped a l := by
  induction l with
  | nil => simp [insertEntry, Topped]
  | cons y rest ih =>
      simp only [Topped, List.mem_cons, exists_eq_or_imp] at ih ⊢
      rw [insertEntry]
      split
      · simp
      · split
        · rename_i heq
          simp [heq]
        · simp only [List.mem_cons, exists_eq_or_imp, ih]
          exact or_left_comm

theorem topped_ofInserts (a : κ) (l : List (κ × α)) :
    Topped a (ofInserts l).entries ↔ Topped a l := by
  induction l using List.reverseRecOn with
  | nil => rfl
  | append_singleton l e ih =>
      rw [ofInserts_append_singleton, insert, topped_insertEntry, ih]
      simp [Topped, or_and_right, exists_or, or_comm]

theorem upperBound_eq_length_iff (m : SortedMap κ α) (a : κ) :
    m.upperBound a = m.entries.length ↔ ¬ Topped a m.entries := by
  rw [upperBound, List.findIdx_eq_length]
  simp [Topped]

/-- What stands before the upper bound: the nearest entry, if there is one. -/
theorem entry_before_upperBound (m : SortedMap κ α) (a : κ) :
    (if m.upperBound a = 0 then none else m.entries[m.upperBound a - 1]?) =
      nearest a m.entries :=
  entry_before_findIdx a m.ascending

end SortedMap

end CProfiler.Foundation
