import CProfiler.Foundation.Tiling
import Mathlib.Logic.Relation
import Mathlib.Data.List.Sort

/-! Linear sweeps over offsets: from an offset where an item starts the sweep goes on
behind the item, from any other offset it goes on one further. -/

namespace CProfiler.Foundation

/-! ## Positions of an advancing sweep -/

/-- The position `q` is reached from `p` by steps that start before `stop`. -/
def Visits (next : ℕ → ℕ) (stop : ℕ) : ℕ → ℕ → Prop :=
  Relation.ReflTransGen (fun p q => p < stop ∧ q = next p)

section

variable {next : ℕ → ℕ} {stop : ℕ}

theorem Visits.refl (p : ℕ) : Visits next stop p p := Relation.ReflTransGen.refl

theorem Visits.turn {p q : ℕ} (h : Visits next stop p q) (hq : q < stop) :
    Visits next stop p (next q) :=
  Relation.ReflTransGen.tail h ⟨hq, rfl⟩

theorem Visits.le (hnext : ∀ p < stop, p < next p) {p q : ℕ} (h : Visits next stop p q) :
    p ≤ q := by
  induction h with
  | refl => exact le_refl _
  | tail _ hstep ih =>
      rcases hstep with ⟨hlt, rfl⟩
      exact ih.trans (hnext _ hlt).le

/-- Two positions of one sweep: the later one lies at or behind the step of the earlier. -/
theorem Visits.next_le (hnext : ∀ p < stop, p < next p) {base p q : ℕ}
    (hp : Visits next stop base p) (hq : Visits next stop base q) (hlt : p < q) :
    next p ≤ q := by
  have hunique : Relator.RightUnique (fun p q => p < stop ∧ q = next p) := by
    intro a b c hb hc
    rw [hb.2, hc.2]
  rcases Relation.ReflTransGen.total_of_right_unique hunique hp hq with hpq | hqp
  · rcases Relation.ReflTransGen.cases_head hpq with heq | ⟨r, ⟨-, rfl⟩, hrest⟩
    · omega
    · exact Visits.le hnext hrest
  · have hle := Visits.le hnext hqp
    omega

end

/-! ## Sweeping over items -/

variable {ι : Type*} (read : ℕ → Option ι) (len : ι → ℕ)

/-- Behind the item at the position, or one further where there is none. -/
def skip (p : ℕ) : ℕ :=
  match read p with
  | some i => p + len i
  | none => p + 1

variable {read len}

theorem skip_of_some {p : ℕ} {i : ι} (h : read p = some i) : skip read len p = p + len i := by
  simp [skip, h]

theorem lt_skip (hlen : ∀ p i, read p = some i → 1 ≤ len i) (p : ℕ) : p < skip read len p := by
  cases h : read p with
  | none => simp [skip, h]
  | some i =>
      have hpos := hlen p i h
      rw [skip_of_some h]
      omega

/-! ## Items with their positions -/

/-- The items of a tiling with the offsets at which they start. -/
def placed (len : ι → ℕ) : ℕ → List ι → List (ℕ × ι)
  | _, [] => []
  | off, i :: is => (off, i) :: placed len (off + len i) is

/-- Every offset between the start and a placed item lies within some placed item. -/
theorem exists_placed_within {off p q : ℕ} {j : ι} {is : List ι}
    (h : (q, j) ∈ placed len off is) (hoff : off ≤ p) (hpq : p < q) :
    ∃ r i, (r, i) ∈ placed len off is ∧ r ≤ p ∧ p < r + len i := by
  induction is generalizing off with
  | nil => simp [placed] at h
  | cons i is ih =>
      rcases List.mem_cons.mp h with heq | hmem
      · have hq : q = off := (Prod.mk.inj heq).1
        omega
      · by_cases hin : p < off + len i
        · exact ⟨off, i, List.mem_cons_self, hoff, hin⟩
        · rcases ih hmem (by omega) with ⟨r, k, hk, hrp, hpr⟩
          exact ⟨r, k, List.mem_cons_of_mem _ hk, hrp, hpr⟩

/-! ## A block of a sweep and the tiling of its bytes

The items that fit between a position and the end `b` of a block tile the block from its
start `a`, up to the first position at which nothing fits. The sweep instead goes on. -/

/-- The item at a position, when it ends by `b`. -/
def fits (read : ℕ → Option ι) (len : ι → ℕ) (b p : ℕ) : Option ι :=
  (read p).filter (fun i => p + len i ≤ b)

theorem fits_eq_some_iff {b p : ℕ} {i : ι} :
    fits read len b p = some i ↔ read p = some i ∧ p + len i ≤ b := by
  simp [fits]

theorem placed_fits {a b p : ℕ} {i : ι} {is : List ι} (ht : Tiling (fits read len b) len a is)
    (h : (p, i) ∈ placed len a is) : read p = some i ∧ p + len i ≤ b := by
  induction ht with
  | stop => simp [placed] at h
  | next hsome _ ih =>
      rcases List.mem_cons.mp h with heq | hmem
      · obtain ⟨rfl, rfl⟩ := Prod.mk.inj heq
        exact fits_eq_some_iff.mp hsome
      · exact ih hmem

/-- When the sweep and the tiling of the bytes `[a, b)` find the same items: the items of
the sweep end by `b` and do not lie behind a position of the block without an item, and
the sweep arrives at `a`, or neither finds an item. -/
structure BlockAligned (read : ℕ → Option ι) (len : ι → ℕ) (stop base a b : ℕ) : Prop where
  ends : ∀ p i, Visits (skip read len) stop base p → a ≤ p → p < b → read p = some i →
    p + len i ≤ b
  unbroken : ∀ p q, Visits (skip read len) stop base p → Visits (skip read len) stop base q →
    a ≤ p → p < q → q < b → read p = none → read q = none
  arrives : Visits (skip read len) stop base a ∨ fits read len b a = none ∧
    ∀ p, Visits (skip read len) stop base p → a ≤ p → p < b → read p = none

section

variable {stop base a b : ℕ}

/-- From a position of an aligned block on, the tiling finds exactly what the sweep finds. -/
theorem mem_placed_iff_of_visits (hlen : ∀ p i, read p = some i → 1 ≤ len i) (hb : b ≤ stop)
    (h : BlockAligned read len stop base a b) {off : ℕ} {is : List ι}
    (ht : Tiling (fits read len b) len off is) (hoff : Visits (skip read len) stop base off)
    (ha : a ≤ off) (hob : off ≤ b) (p : ℕ) (i : ι) :
    (p, i) ∈ placed len off is ↔
      Visits (skip read len) stop base p ∧ off ≤ p ∧ p < b ∧ read p = some i := by
  have hnext : ∀ p < stop, p < skip read len p := fun p _ => lt_skip hlen p
  induction ht with
  | @stop off hnone =>
      constructor
      · intro hmem
        simp [placed] at hmem
      · rintro ⟨hp, hle, hlt, hread⟩
        cases hro : read off with
        | some j =>
            have hend := h.ends off j hoff ha (by omega) hro
            rw [fits_eq_some_iff.mpr ⟨hro, hend⟩] at hnone
            simp at hnone
        | none =>
            rcases Nat.lt_or_eq_of_le hle with hlt' | heq
            · rw [h.unbroken off p hoff hp ha hlt' hlt hro] at hread
              simp at hread
            · rw [← heq, hro] at hread
              simp at hread
  | @next off j js hsome htail ih =>
      rcases fits_eq_some_iff.mp hsome with ⟨hro, hend⟩
      have hpos := hlen off j hro
      have hskip : skip read len off = off + len j := skip_of_some hro
      have hoff' : Visits (skip read len) stop base (off + len j) := by
        rw [← hskip]
        exact hoff.turn (by omega)
      have hih := ih hoff' (by omega) hend
      constructor
      · intro hmem
        rcases List.mem_cons.mp hmem with heq | hmem
        · obtain ⟨rfl, rfl⟩ := Prod.mk.inj heq
          exact ⟨hoff, le_refl _, by omega, hro⟩
        · rcases hih.mp hmem with ⟨hp, hle, hlt, hread⟩
          exact ⟨hp, by omega, hlt, hread⟩
      · rintro ⟨hp, hle, hlt, hread⟩
        rcases Nat.lt_or_eq_of_le hle with hlt' | heq
        · have hbehind := Visits.next_le hnext hoff hp hlt'
          rw [hskip] at hbehind
          exact List.mem_cons_of_mem _ (hih.mpr ⟨hp, hbehind, hlt, hread⟩)
        · subst heq
          rw [hro] at hread
          obtain rfl : j = i := Option.some.inj hread
          exact List.mem_cons_self

/-- The tiling of the bytes of a block finds exactly the items that the sweep finds in the
block if and only if the block is aligned. -/
theorem mem_placed_iff_iff_aligned (hlen : ∀ p i, read p = some i → 1 ≤ len i) (hb : b ≤ stop)
    (hab : a < b) {is : List ι} (ht : Tiling (fits read len b) len a is) :
    (∀ p i, (p, i) ∈ placed len a is ↔
      Visits (skip read len) stop base p ∧ a ≤ p ∧ p < b ∧ read p = some i) ↔
    BlockAligned read len stop base a b := by
  have hnext : ∀ p < stop, p < skip read len p := fun p _ => lt_skip hlen p
  constructor
  · intro hsame
    refine ⟨?_, ?_, ?_⟩
    · intro p i hp hap hpb hread
      exact (placed_fits ht ((hsame p i).mpr ⟨hp, hap, hpb, hread⟩)).2
    · intro p q hp hq hap hpq hqb hnone
      cases hread : read q with
      | none => rfl
      | some j =>
          have hqmem := (hsame q j).mpr ⟨hq, by omega, hqb, hread⟩
          rcases exists_placed_within hqmem hap hpq with ⟨r, i, hr, hrp, hpr⟩
          rcases (hsame r i).mp hr with ⟨hrv, -, -, hri⟩
          rcases Nat.lt_or_eq_of_le hrp with hlt | heq
          · have hbehind := Visits.next_le hnext hrv hp hlt
            rw [skip_of_some hri] at hbehind
            omega
          · rw [← heq, hri] at hnone
            simp at hnone
    · cases ht with
      | stop hnone =>
          refine .inr ⟨hnone, ?_⟩
          intro p hp hap hpb
          cases hread : read p with
          | none => rfl
          | some i =>
              have hmem := (hsame p i).mpr ⟨hp, hap, hpb, hread⟩
              simp [placed] at hmem
      | next hsome _ => exact .inl ((hsame a _).mp List.mem_cons_self).1
  · intro h
    rcases h.arrives with hvisit | ⟨hnone, hempty⟩
    · exact mem_placed_iff_of_visits hlen hb h ht hvisit (le_refl a) hab.le
    · have hnil : is = [] := ht.unique (Tiling.stop hnone)
      intro p i
      constructor
      · intro hmem
        simp [hnil, placed] at hmem
      · rintro ⟨hp, hap, hpb, hread⟩
        rw [hempty p hp hap hpb] at hread
        simp at hread

end

/-! ## Neighbours in an ascending list -/

/-- Two neighbours of a strictly ascending list are two of its members with none between. -/
theorem pair_infix_iff {l : List ℕ} (hl : l.Pairwise (· < ·)) {a b : ℕ} :
    [a, b] <:+: l ↔ a ∈ l ∧ b ∈ l ∧ a < b ∧ ∀ c ∈ l, a < c → b ≤ c := by
  constructor
  · rintro ⟨pre, post, rfl⟩
    simp only [List.append_assoc, List.pairwise_append, List.cons_append, List.nil_append,
      List.pairwise_cons, List.mem_cons] at hl
    obtain ⟨-, ⟨hab, hb, -⟩, hpre⟩ := hl
    refine ⟨by simp, by simp, hab b (.inl rfl), ?_⟩
    intro c hc hac
    simp only [List.append_assoc, List.mem_append, List.cons_append, List.nil_append,
      List.mem_cons] at hc
    rcases hc with hc | rfl | rfl | hc
    · have hca := hpre c hc a (.inl rfl)
      omega
    · omega
    · exact le_refl _
    · exact (hb c hc).le
  · rintro ⟨ha, hb, hab, hbetween⟩
    obtain ⟨pre, post, rfl⟩ := List.append_of_mem ha
    rw [List.pairwise_append, List.pairwise_cons] at hl
    obtain ⟨-, ⟨hapost, hpost⟩, hpre⟩ := hl
    have hbpost : b ∈ post := by
      rcases List.mem_append.mp hb with hbpre | hb
      · have hba := hpre b hbpre a List.mem_cons_self
        omega
      · rcases List.mem_cons.mp hb with rfl | hb
        · omega
        · exact hb
    cases post with
    | nil => simp at hbpost
    | cons c post =>
        have hbc : b ≤ c := hbetween c (by simp) (hapost c List.mem_cons_self)
        have hcb : c ≤ b := by
          rcases List.mem_cons.mp hbpost with rfl | hb'
          · exact le_refl _
          · exact ((List.pairwise_cons.mp hpost).1 b hb').le
        obtain rfl : b = c := le_antisymm hbc hcb
        exact ⟨pre, post, by simp⟩

end CProfiler.Foundation
