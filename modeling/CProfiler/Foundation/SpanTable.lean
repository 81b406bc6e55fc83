import CProfiler.Foundation.SortedMap
import Mathlib.Data.List.Pairwise

/-! Tables of spans keyed by their start, each entry with the last key it reaches. A query
finds the nearest entry below it, when that entry reaches the query and the table goes on
above it. -/

namespace CProfiler.Foundation

/-! ## Queries -/

section

variable {κ α β : Type*} [LinearOrder κ] (ending : α → κ)

/-- The entry that a table built from the insertions `l` finds for `a`. -/
def found (a : κ) (l : List (κ × α)) : Option α :=
  if Topped a l then
    match nearest a l with
    | some x => if a ≤ ending x.2 then some x.2 else none
    | none => none
  else none

theorem found_of_not_topped {a : κ} {l : List (κ × α)} (h : ¬ Topped a l) :
    found ending a l = none := if_neg h

theorem found_of_nearest {a : κ} {l : List (κ × α)} {x : κ × α} (ht : Topped a l)
    (h : nearest a l = some x) :
    found ending a l = if a ≤ ending x.2 then some x.2 else none := by
  rw [found, if_pos ht, h]

theorem found_map {ending : α → κ} {ending' : β → κ} (f : α → β)
    (hf : ∀ v, ending' (f v) = ending v) (a : κ) (l : List (κ × α)) :
    found ending' a (l.map (fun e => (e.1, f e.2))) = (found ending a l).map f := by
  have htop : Topped a (l.map (fun e => (e.1, f e.2))) ↔ Topped a l := by
    simp [Topped]
  by_cases ht : Topped a l
  · rw [found, found, if_pos (htop.mpr ht), if_pos ht, nearest_map]
    cases nearest a l with
    | none => rfl
    | some x =>
        simp only [Option.map_some, hf]
        split <;> rfl
  · rw [found_of_not_topped _ ht, found_of_not_topped _ (mt htop.mp ht), Option.map_none]

end

/-! ## Earlier entries

What the entries `E` do to a query of a table when they are inserted before the table's
own entries `O`. -/

section

variable {κ α : Type*} [LinearOrder κ]

/-- The answer stays, is replaced by an entry, or is lost. -/
inductive Effect (α : Type*) where
  | kept
  | replaced (v : α)
  | silenced

def Effect.apply : Effect α → Option α → Option α
  | .kept, own => own
  | .replaced v, _ => some v
  | .silenced, _ => none

variable (ending : α → κ) (a : κ) (E O : List (κ × α))

/-- An earlier entry starts nearer below the query than every own one: it answers when it
reaches the query and either list goes on above it, else nothing answers. -/
def shadowEffect (e : κ × α) : Effect α :=
  if (Topped a E ∨ Topped a O) ∧ a ≤ ending e.2 then .replaced e.2 else .silenced

/-- An own entry is the nearest: it answers also where only the earlier entries go on
above the query. -/
def ownEffect (o : κ × α) : Effect α :=
  if Topped a E ∧ ¬ Topped a O ∧ a ≤ ending o.2 then .replaced o.2 else .kept

/-- The effect of the earlier entries on a query. -/
def effect : Effect α :=
  match nearest a E, nearest a O with
  | some e, some o => if o.1 < e.1 then shadowEffect ending a E O e else ownEffect ending a E O o
  | some e, none => shadowEffect ending a E O e
  | none, some o => ownEffect ending a E O o
  | none, none => .kept

theorem topped_append : Topped a (E ++ O) ↔ Topped a E ∨ Topped a O := by
  simp [Topped, or_and_right, exists_or]

theorem shadowEffect_apply {e : κ × α} (h : nearest a (E ++ O) = some e) (own : Option α) :
    (shadowEffect ending a E O e).apply own = found ending a (E ++ O) := by
  by_cases ht : Topped a E ∨ Topped a O
  · rw [found_of_nearest ending ((topped_append a E O).mpr ht) h]
    by_cases hle : a ≤ ending e.2
    · simp [shadowEffect, ht, hle, Effect.apply]
    · simp [shadowEffect, hle, Effect.apply]
  · rw [found_of_not_topped ending (mt (topped_append a E O).mp ht)]
    simp [shadowEffect, ht, Effect.apply]

theorem ownEffect_apply {o : κ × α} (h : nearest a (E ++ O) = some o)
    (ho : nearest a O = some o) :
    (ownEffect ending a E O o).apply (found ending a O) = found ending a (E ++ O) := by
  by_cases htO : Topped a O
  · rw [found_of_nearest ending ((topped_append a E O).mpr (.inr htO)) h,
      found_of_nearest ending htO ho]
    simp [ownEffect, htO, Effect.apply]
  · rw [found_of_not_topped ending htO]
    by_cases htE : Topped a E
    · rw [found_of_nearest ending ((topped_append a E O).mpr (.inl htE)) h]
      by_cases hle : a ≤ ending o.2
      · simp [ownEffect, htE, htO, hle, Effect.apply]
      · simp [ownEffect, hle, Effect.apply]
    · have htop : ¬ Topped a (E ++ O) := by
        rw [topped_append]
        exact not_or.mpr ⟨htE, htO⟩
      rw [found_of_not_topped ending htop]
      simp [ownEffect, htE, Effect.apply]

/-- A table with earlier entries answers what the effect makes of its own answer. -/
theorem found_append :
    found ending a (E ++ O) = (effect ending a E O).apply (found ending a O) := by
  have happ := nearest_append a E O
  cases hE : nearest a E with
  | none =>
      cases hO : nearest a O with
      | none =>
          simp only [hE, hO] at happ
          simp [effect, hE, hO, Effect.apply, found, happ]
      | some o =>
          simp only [hE, hO] at happ
          simp only [effect, hE, hO]
          exact (ownEffect_apply ending a E O happ hO).symm
  | some e =>
      cases hO : nearest a O with
      | none =>
          simp only [hE, hO] at happ
          simp only [effect, hE, hO]
          exact (shadowEffect_apply ending a E O happ _).symm
      | some o =>
          simp only [hE, hO] at happ
          by_cases hlt : o.1 < e.1
          · simp only [if_pos hlt] at happ
            simp only [effect, hE, hO, if_pos hlt]
            exact (shadowEffect_apply ending a E O happ _).symm
          · simp only [if_neg hlt] at happ
            simp only [effect, hE, hO, if_neg hlt]
            exact (ownEffect_apply ending a E O happ hO).symm

end

/-! ## Disjoint intervals

Half-open intervals, entered with the last number they cover: one less than their stop,
computed in words below `M`. An interval without numbers gets an end before its start, or
the greatest word. -/

/-- An interval `[start, stop)` with a value. -/
structure LabelledInterval (ω : Type*) where
  start : ℕ
  stop : ℕ
  value : ω

namespace LabelledInterval

variable {ω : Type*}

def Covers (i : LabelledInterval ω) (a : ℕ) : Prop := i.start ≤ a ∧ a < i.stop

/-- The entry of the interval in a table of words below `M`. -/
def entry (M : ℕ) (i : LabelledInterval ω) : ℕ × (ℕ × ω) := (i.start, (i.stop + M - 1) % M, i.value)

/-- The interval is the last of the list with its start. -/
def LastStart (l : List (LabelledInterval ω)) (i : LabelledInterval ω) : Prop :=
  ∃ pre post, l = pre ++ i :: post ∧ ∀ j ∈ post, j.start ≠ i.start

/-- Intervals that end within the words, none before its start, no two with a number
in common. -/
structure Disjoint (M : ℕ) (l : List (LabelledInterval ω)) : Prop where
  ordered : ∀ i ∈ l, i.start ≤ i.stop
  bounded : ∀ i ∈ l, i.stop < M
  apart : l.Pairwise (fun i j => ∀ a, i.Covers a → ¬ j.Covers a)

/-- The same, where an interval may also stop at the last word or, going round, behind it. -/
structure Separate (M : ℕ) (l : List (LabelledInterval ω)) : Prop where
  ordered : ∀ i ∈ l, i.start ≤ i.stop
  short : ∀ i ∈ l, i.stop < i.start + M
  apart : l.Pairwise (fun i j => ∀ a, i.Covers a → ¬ j.Covers a)

/-- The interval is the last one with the greatest start of the list up to `a`. -/
structure Governs (l : List (LabelledInterval ω)) (a : ℕ) (i : LabelledInterval ω) : Prop where
  last : LastStart l i
  start_le : i.start ≤ a
  greatest : ∀ j ∈ l, j.start ≤ a → j.start ≤ i.start

variable {M : ℕ} {l : List (LabelledInterval ω)} {a : ℕ}

theorem LastStart.mem {i : LabelledInterval ω} (h : LastStart l i) : i ∈ l := by
  rcases h with ⟨pre, post, rfl, -⟩
  simp

/-- The entry of the table of `l` for a query. -/
def lookup (M a : ℕ) (l : List (LabelledInterval ω)) : Option (ℕ × ω) :=
  found Prod.fst a (l.map (entry M))

theorem topped_map_entry : Topped a (l.map (entry M)) ↔ ∃ i ∈ l, a < i.start := by
  simp [Topped, entry]

/-- The nearest entry belongs to the interval that governs the query. -/
theorem exists_of_nearest {x : ℕ × (ℕ × ω)} (h : nearest a (l.map (entry M)) = some x) :
    ∃ i, x = entry M i ∧ Governs l a i := by
  rcases nearest_eq_some_iff.mp h with ⟨hle, hmax, pre, post, hl, hpost⟩
  rcases List.map_eq_append_iff.mp hl with ⟨pre', post', rfl, rfl, hpost'⟩
  rcases List.map_eq_cons_iff.mp hpost' with ⟨i, post'', rfl, rfl, rfl⟩
  refine ⟨i, rfl, ⟨pre', post'', rfl, ?_⟩, hle, ?_⟩
  · intro j hj
    exact hpost (entry M j) (List.mem_map_of_mem hj)
  · intro j hj hja
    exact hmax (entry M j) (List.mem_map_of_mem hj) hja

theorem Governs.nearest {i : LabelledInterval ω} (h : Governs l a i) :
    nearest a (l.map (entry M)) = some (entry M i) := by
  rcases h with ⟨⟨pre, post, rfl, hpost⟩, hle, hmax⟩
  apply nearest_eq_some_iff.mpr
  refine ⟨hle, ?_, pre.map (entry M), post.map (entry M), by simp, ?_⟩
  · intro y hy hya
    rcases List.mem_map.mp hy with ⟨j, hj, rfl⟩
    exact hmax j hj hya
  · intro y hy
    rcases List.mem_map.mp hy with ⟨j, hj, rfl⟩
    exact hpost j hj

/-- What the interval that governs a query answers. -/
theorem Governs.lookup {i : LabelledInterval ω} (h : Governs l a i) (htop : ∃ j ∈ l, a < j.start) :
    lookup M a l =
      if a ≤ (i.stop + M - 1) % M then some ((i.stop + M - 1) % M, i.value) else none :=
  found_of_nearest Prod.fst (topped_map_entry.mpr htop) h.nearest

/-- A value is found iff the table goes on above the query and the interval that governs it
has the value, and an end that is not below it. -/
theorem lookup_eq_some_iff (w : ω) :
    (lookup M a l).map Prod.snd = some w ↔
      (∃ j ∈ l, a < j.start) ∧ ∃ i, Governs l a i ∧ a ≤ (i.stop + M - 1) % M ∧ i.value = w := by
  constructor
  · intro hfound
    rcases Option.map_eq_some_iff.mp hfound with ⟨x, hx, hxw⟩
    have htop : Topped a (l.map (entry M)) := by
      by_contra hno
      rw [lookup, found_of_not_topped _ hno] at hx
      simp at hx
    cases hnear : nearest a (l.map (entry M)) with
    | none =>
        rw [lookup, found, if_pos htop, hnear] at hx
        simp at hx
    | some y =>
        rcases exists_of_nearest hnear with ⟨i, rfl, hgoverns⟩
        rw [lookup, found_of_nearest _ htop hnear] at hx
        split at hx
        · rename_i hreach
          refine ⟨topped_map_entry.mp htop, i, hgoverns, hreach, ?_⟩
          rw [← hxw, ← Option.some.inj hx]
          rfl
        · simp at hx
  · rintro ⟨htop, i, hgoverns, hreach, rfl⟩
    rw [hgoverns.lookup htop, if_pos hreach, Option.map_some]

/-- An end reaches a query when the interval covers it and does not go round, or when the
interval stops at `0`, so that its end goes round itself. -/
theorem reaches_iff {i : LabelledInterval ω} (hord : i.start ≤ i.stop)
    (hshort : i.stop < i.start + M) (hle : i.start ≤ a) (ha : a < M) :
    a ≤ (i.stop + M - 1) % M ↔ a < i.stop ∧ i.stop ≤ M ∨ i.stop = 0 := by
  rcases Nat.eq_zero_or_pos i.stop with hzero | hpos
  · rw [hzero, Nat.zero_add, Nat.mod_eq_of_lt (by omega)]
    omega
  rcases Nat.lt_or_ge M i.stop with hround | hinside
  · have hsub : i.stop + M - 1 = i.stop - 1 - M + M + M := by omega
    rw [hsub, Nat.add_mod_right, Nat.add_mod_right, Nat.mod_eq_of_lt (by omega)]
    omega
  · have hsub : i.stop + M - 1 = i.stop - 1 + M := by omega
    rw [hsub, Nat.add_mod_right, Nat.mod_eq_of_lt (by omega)]
    omega

namespace Separate

theorem eq_of_covers (h : Separate M l) {i j : LabelledInterval ω} (hi : i ∈ l) (hj : j ∈ l) {b : ℕ}
    (hib : i.Covers b) (hjb : j.Covers b) : i = j := by
  by_contra hne
  have hsymm : Std.Symm (fun i j : LabelledInterval ω => ∀ a, i.Covers a → ¬ j.Covers a) :=
    ⟨fun _ _ hij a hja hia => hij a hia hja⟩
  exact h.apart.forall hi hj hne b hib hjb

/-- An interval other than `c` that starts within `c` holds no number. -/
theorem stop_eq_start (h : Separate M l) {c i : LabelledInterval ω} (hc : c ∈ l) (hi : i ∈ l)
    (hne : i ≠ c) (hcov : c.Covers i.start) : i.stop = i.start := by
  have hord := h.ordered i hi
  by_contra hstop
  exact hne (h.eq_of_covers hi hc ⟨le_refl _, by omega⟩ hcov)

theorem reaches_iff (h : Separate M l) {i : LabelledInterval ω} (hi : i ∈ l) (hle : i.start ≤ a)
    (ha : a < M) : a ≤ (i.stop + M - 1) % M ↔ a < i.stop ∧ i.stop ≤ M ∨ i.stop = 0 :=
  LabelledInterval.reaches_iff (h.ordered i hi) (h.short i hi) hle ha

/-- A number of the interval `c` is looked up exactly as the value `w` if and only if the
table goes on above it, no interval starts between `c`'s start and it, and the last interval
with `c`'s start, which is not empty unless it starts at `0` and does not go round, has the
value. -/
theorem lookup_covered_iff (h : Separate M l) (ha : a < M) {c : LabelledInterval ω} (hc : c ∈ l)
    (hcov : c.Covers a) (w : ω) :
    (lookup M a l).map Prod.snd = some w ↔
      (∃ j ∈ l, a < j.start) ∧ (∀ j ∈ l, c.start < j.start → ¬ j.start ≤ a) ∧
        ∃ i, LastStart l i ∧ i.start = c.start ∧ (i.stop = i.start → i.start = 0) ∧
          i.stop ≤ M ∧ i.value = w := by
  rcases hcov with ⟨hca, hac⟩
  rw [lookup_eq_some_iff]
  refine and_congr_right fun _ => ?_
  constructor
  · rintro ⟨i, ⟨hlast, hia, hmax⟩, hreach, hvalue⟩
    rw [h.reaches_iff hlast.mem hia ha] at hreach
    have hord := h.ordered i hlast.mem
    have hci := hmax c hc hca
    have hstart : i.start = c.start := by
      rcases hreach with ⟨hlt, -⟩ | hzero
      · rw [h.eq_of_covers hlast.mem hc ⟨hia, hlt⟩ ⟨hca, hac⟩]
      · omega
    refine ⟨fun j hj hcj hja => ?_, i, hlast, hstart, by omega, by omega, hvalue⟩
    have hji := hmax j hj hja
    omega
  · rintro ⟨hclear, i, hlast, hstart, hkind, hinside, hvalue⟩
    have hia : i.start ≤ a := by omega
    refine ⟨i, ⟨hlast, hia, fun j hj hja => ?_⟩, (h.reaches_iff hlast.mem hia ha).mpr ?_, hvalue⟩
    · by_contra hlt
      exact hclear j hj (by omega) hja
    · by_cases hne : i = c
      · subst hne
        exact .inl ⟨hac, hinside⟩
      · have hempty := h.stop_eq_start hc hlast.mem hne ⟨by omega, by omega⟩
        have hzero := hkind hempty
        exact .inr (by omega)

/-- A number of no interval is found if and only if the table goes on above it, no interval
starts between `0` and it, and the last interval that starts at `0` is empty. -/
theorem lookup_uncovered_iff (h : Separate M l) (ha : a < M) (hcov : ∀ i ∈ l, ¬ i.Covers a) :
    lookup M a l ≠ none ↔
      (∃ j ∈ l, a < j.start) ∧ (∀ j ∈ l, 0 < j.start → ¬ j.start ≤ a) ∧
        ∃ i, LastStart l i ∧ i.stop = 0 := by
  have hsome : lookup M a l ≠ none ↔ ∃ w, (lookup M a l).map Prod.snd = some w := by
    cases lookup M a l <;> simp
  simp only [hsome, lookup_eq_some_iff]
  constructor
  · rintro ⟨w, htop, i, ⟨hlast, hia, hmax⟩, hreach, -⟩
    rw [h.reaches_iff hlast.mem hia ha] at hreach
    have hord := h.ordered i hlast.mem
    have hstop : i.stop = 0 := by
      rcases hreach with ⟨hlt, -⟩ | hzero
      · exact absurd ⟨hia, hlt⟩ (hcov i hlast.mem)
      · exact hzero
    refine ⟨htop, fun j hj hpos hja => ?_, i, hlast, hstop⟩
    have hji := hmax j hj hja
    omega
  · rintro ⟨htop, hclear, i, hlast, hstop⟩
    have hord := h.ordered i hlast.mem
    have hia : i.start ≤ a := by omega
    refine ⟨i.value, htop, i, ⟨hlast, hia, fun j hj hja => ?_⟩,
      (h.reaches_iff hlast.mem hia ha).mpr (.inr hstop), rfl⟩
    by_contra hlt
    exact hclear j hj (by omega) hja

end Separate

namespace Disjoint

theorem separate (h : Disjoint M l) : Separate M l where
  ordered := h.ordered
  short := fun i hi => (h.bounded i hi).trans_le (Nat.le_add_left M i.start)
  apart := h.apart

/-- Intervals that end within the words do not go round. -/
theorem lookup_covered_iff (h : Disjoint M l) {c : LabelledInterval ω} (hc : c ∈ l)
    (hcov : c.Covers a) (w : ω) :
    (lookup M a l).map Prod.snd = some w ↔
      (∃ j ∈ l, a < j.start) ∧ (∀ j ∈ l, c.start < j.start → ¬ j.start ≤ a) ∧
        ∃ i, LastStart l i ∧ i.start = c.start ∧ (i.stop = i.start → i.start = 0) ∧
          i.value = w := by
  rw [h.separate.lookup_covered_iff (hcov.2.trans (h.bounded c hc)) hc hcov w]
  refine and_congr_right fun _ => and_congr_right fun _ => exists_congr fun i =>
    and_congr_right fun hlast => and_congr_right fun _ => and_congr_right fun _ => ?_
  exact and_iff_right (h.bounded i hlast.mem).le

end Disjoint

end LabelledInterval

end CProfiler.Foundation
