import CProfiler.Verification.Pivot.Frames

/-! The join of two frames, read from the columns of one of them: its own rows,
some of them repeated, and the rows of the other that none of them meets. -/

namespace CProfiler.Pivot

open Model Foundation

variable {V G : Type} [DecidableEq V]

/-- Agreement on the columns that two tables have in common. -/
def meets (a b : Table V) : Row V → Row V → Bool :=
  agreeOn (a.columns.filter (· ∈ b.columns))

/-- The rows of `b` that no row of `a` meets. -/
def strangers (a b : Table V) : List (Row V) :=
  lonely (meets a b) a.rows b.rows

theorem meets_iff {a b : Table V} {x y : Row V} :
    meets a b x y = true ↔ ∀ name ∈ a.columns, name ∈ b.columns → x name = y name := by
  simp only [meets, agreeOn, List.all_eq_true, decide_eq_true_eq, List.mem_filter, and_imp]

theorem meets_flip (a b : Table V) : flip (meets a b) = meets b a := by
  funext y x
  apply Bool.eq_iff_iff.mpr
  rw [flip, meets_iff, meets_iff]
  constructor
  · intro h name hb ha
    exact (h name ha hb).symm
  · intro h name ha hb
    exact (h name hb ha).symm

/-- `t` is a full outer join of `a` and `b`: its rows are those of the join up to
their order, and a pair shows each of its halves under the half's own columns. -/
structure Joined (a b t : Table V) : Prop where
  columns : ∀ name, name ∈ t.columns ↔ name ∈ a.columns ∨ name ∈ b.columns
  rows : ∃ pair : Row V → Row V → Row V,
    t.rows.Perm (outerJoin (meets a b) pair id id a.rows b.rows) ∧
      ∀ x ∈ a.rows, ∀ y ∈ b.rows, meets a b x y = true →
        (∀ name ∈ a.columns, pair x y name = x name) ∧ ∀ name ∈ b.columns, pair x y name = y name

theorem joinRows_left {a b : Table V} {x y : Row V} (hy : y ∈ b.rows)
    (hmeets : meets a b x y = true) {name : ColName} (hname : name ∈ a.columns) :
    joinRows x y name = x name := by
  unfold joinRows
  by_cases hb : name ∈ b.columns
  · rw [← meets_iff.mp hmeets name hname hb]
    cases x name <;> rfl
  · rw [b.absent y hy name hb]
    exact Option.or_none

theorem joinRows_right {a b : Table V} {x y : Row V} (hx : x ∈ a.rows)
    (hmeets : meets a b x y = true) {name : ColName} (hname : name ∈ b.columns) :
    joinRows x y name = y name := by
  unfold joinRows
  by_cases ha : name ∈ a.columns
  · rw [meets_iff.mp hmeets name ha hname]
    cases y name <;> rfl
  · rw [a.absent x hx name ha]
    exact Option.none_or

theorem joined_merge (a b : Table V) :
    Joined a b (a.merge b (a.columns.filter (· ∈ b.columns))) where
  columns name := by
    by_cases h : name ∈ a.columns <;> simp [Table.merge, h]
  rows := by
    refine ⟨joinRows, List.Perm.refl _, ?_⟩
    intro x hx y hy hmeets
    exact ⟨fun name hname => joinRows_left hy hmeets hname,
      fun name hname => joinRows_right hx hmeets hname⟩

theorem Joined.symm {a b t : Table V} (h : Joined a b t) : Joined b a t where
  columns name := (h.columns name).trans or_comm
  rows := by
    obtain ⟨pair, hperm, hpair⟩ := h.rows
    refine ⟨flip pair, ?_, ?_⟩
    · rw [← meets_flip a b]
      exact hperm.trans (outerJoin_flip_perm _ _ _ _ _ _)
    · intro y hy x hx hmeets
      have hmeets : meets a b x y = true := by
        rw [← meets_flip a b] at hmeets
        exact hmeets
      exact (hpair x hx y hy hmeets).symm

section Rows

variable {a b t : Table V}

/-- A property of rows that reads only columns of `a` and holds of a row of the
join holds of a row of `a` or of a stranger, and the other way round. -/
theorem Joined.exists_iff (h : Joined a b t) {p : Row V → Prop}
    (hp : ∀ row row' : Row V, (∀ name ∈ a.columns, row name = row' name) → (p row ↔ p row')) :
    (∃ row ∈ t.rows, p row) ↔ (∃ row ∈ a.rows, p row) ∨ ∃ row ∈ strangers a b, p row := by
  obtain ⟨pair, hperm, hpair⟩ := h.rows
  constructor
  · intro hrow
    obtain ⟨row, hrow, hprow⟩ := hrow
    cases (mem_outerJoin _ _ _ _).mp (hperm.mem_iff.mp hrow) with
    | inl hmatch =>
        obtain ⟨x, hx, y, hy, hmeets, rfl⟩ := hmatch
        exact Or.inl ⟨x, hx, (hp _ _ (hpair x hx y hy hmeets).1).mp hprow⟩
    | inr hrest =>
        cases hrest with
        | inl hleft =>
            obtain ⟨x, hx, -, rfl⟩ := hleft
            exact Or.inl ⟨_, hx, hprow⟩
        | inr hright =>
            obtain ⟨y, hy, rfl⟩ := hright
            exact Or.inr ⟨_, hy, hprow⟩
  · intro hrow
    cases hrow with
    | inl hown =>
        obtain ⟨x, hx, hpx⟩ := hown
        cases hpartners : partners (meets a b) b.rows x with
        | nil =>
            refine ⟨x, hperm.mem_iff.mpr ?_, hpx⟩
            exact (mem_outerJoin _ _ _ _).mpr (Or.inr (Or.inl ⟨x, hx, hpartners, rfl⟩))
        | cons y ys =>
            have hy : y ∈ partners (meets a b) b.rows x := by simp [hpartners]
            have hy := mem_partners.mp hy
            refine ⟨pair x y, hperm.mem_iff.mpr ?_, (hp _ _ (hpair x hx y hy.1 hy.2).1).mpr hpx⟩
            exact (mem_outerJoin _ _ _ _).mpr (Or.inl ⟨x, hx, y, hy.1, hy.2, rfl⟩)
    | inr hstranger =>
        obtain ⟨y, hy, hpy⟩ := hstranger
        refine ⟨y, hperm.mem_iff.mpr ?_, hpy⟩
        exact (mem_outerJoin _ _ _ _).mpr (Or.inr (Or.inr ⟨y, hy, rfl⟩))

/-- What the join adds to the figure under the labels `r` and `k`. -/
def addedFigure [AddCommMonoid G] (amount : V → G) (a b : Table V) (values : ColName)
    (rows cols : List ColName) (r k : Label V) : G :=
  surplus (meets a b) a.rows b.rows (contribution amount values rows cols r k)
    (contribution amount values rows cols r k)

theorem Joined.sum_contribution [AddCommMonoid G] (h : Joined a b t) (amount : V → G)
    {values : ColName} {rows cols : List ColName}
    (hnames : ∀ name ∈ values :: (rows ++ cols), name ∈ a.columns) (r k : Label V) :
    (t.rows.map (contribution amount values rows cols r k)).sum =
      (a.rows.map (contribution amount values rows cols r k)).sum +
        addedFigure amount a b values rows cols r k := by
  obtain ⟨pair, hperm, hpair⟩ := h.rows
  rw [(hperm.map _).sum_eq]
  apply sum_outerJoin
  · intro x hx y hy hmeets
    apply contribution_congr
    intro name hname
    exact (hpair x hx y hy hmeets).1 name (hnames name hname)
  · intro x _
    rfl
  · intro y _
    rfl

end Rows

/-! ## Hex formatting -/

def hexColumns : List ColName := [bbColumn, bb1Column]

/-- Every cell of a column that is written in hex is a number. -/
def Hexable (hex : V → Option V) (t : Table V) : Prop :=
  ∀ name ∈ hexColumns, name ∈ t.columns → ∀ row ∈ t.rows, ((row name).bind hex).isSome

/-- No stranger's row, missing under this hex column, enters the join. -/
def HexCovered (a b : Table V) : Prop :=
  ∀ name ∈ hexColumns, name ∈ a.columns → name ∉ b.columns → strangers a b = []

theorem Joined.hexable_left {a b t : Table V} (h : Joined a b t) {hex : V → Option V}
    (ht : Hexable hex t) : Hexable hex a ∧ HexCovered a b := by
  have hrows (name : ColName) (hname : name ∈ hexColumns) (ha : name ∈ a.columns) :
      (∀ row ∈ a.rows, ((row name).bind hex).isSome) ∧
        ∀ row ∈ strangers a b, ((row name).bind hex).isSome := by
    have hbad := (h.exists_iff (p := fun row => ¬ ((row name).bind hex).isSome) (by
      intro row row' hsame
      rw [hsame name ha])).not
    have hall := hbad.mp (by
      intro hrow
      obtain ⟨row, hrow, hno⟩ := hrow
      exact hno (ht name hname ((h.columns name).mpr (Or.inl ha)) row hrow))
    constructor
    · intro row hrow
      by_contra hno
      exact hall (Or.inl ⟨row, hrow, hno⟩)
    · intro row hrow
      by_contra hno
      exact hall (Or.inr ⟨row, hrow, hno⟩)
  constructor
  · intro name hname ha row hrow
    exact (hrows name hname ha).1 row hrow
  · intro name hname ha hb
    apply List.eq_nil_iff_forall_not_mem.mpr
    intro row hrow
    have hmem : row ∈ b.rows := (mem_lonely.mp hrow).1
    have hsome := (hrows name hname ha).2 row hrow
    simp [b.absent row hmem name hb] at hsome

theorem Joined.hexable_iff {a b t : Table V} (h : Joined a b t) {hex : V → Option V} :
    Hexable hex t ↔ (Hexable hex a ∧ HexCovered a b) ∧ Hexable hex b ∧ HexCovered b a := by
  constructor
  · intro ht
    exact ⟨h.hexable_left ht, h.symm.hexable_left ht⟩
  · intro hboth name hname ht row hrow
    obtain ⟨⟨ha, hab⟩, hb, hba⟩ := hboth
    -- the rows are read under the columns of the table that the hex column is of
    have hside {c d : Table V} (hjoin : Joined c d t) (hc : Hexable hex c) (hd : Hexable hex d)
        (hcd : HexCovered c d) (hin : name ∈ c.columns) : ((row name).bind hex).isSome := by
      by_contra hno
      have hrows := (hjoin.exists_iff (p := fun row => ¬ ((row name).bind hex).isSome) (by
        intro row row' hsame
        rw [hsame name hin])).mp ⟨row, hrow, hno⟩
      cases hrows with
      | inl hown =>
          obtain ⟨x, hx, hno⟩ := hown
          exact hno (hc name hname hin x hx)
      | inr hstranger =>
          obtain ⟨y, hy, hno⟩ := hstranger
          by_cases hd' : name ∈ d.columns
          · exact hno (hd name hname hd' y (mem_lonely.mp hy).1)
          · simp [hcd name hname hin hd'] at hy
    cases (h.columns name).mp ht with
    | inl hin => exact hside h ha hb hab hin
    | inr hin => exact hside h.symm hb ha hba hin

end CProfiler.Pivot
