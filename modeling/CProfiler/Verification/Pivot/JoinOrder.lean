import CProfiler.Foundation.KeyedJoin
import CProfiler.Verification.Pivot.Interference

/-! When the order in which a dictionary hands out the chosen files does not matter
to their join: the columns that are joined on are found anew for each file, from
all the files joined before it. -/

namespace CProfiler.Pivot

open Model Foundation

variable {V : Type} [LinearOrder V]

/-! ## The loop over the files -/

/-- One turn of the loop, where it finds common columns. -/
def naturalMerge (a b : Table V) : Table V :=
  a.merge b (a.columns.filter (· ∈ b.columns))

def Shares (a b : Table V) : Prop :=
  ∃ name ∈ a.columns, name ∈ b.columns

/-- Each table finds a common column with what is joined before it. -/
def LinksTo : Table V → List (Table V) → Prop
  | _, [] => True
  | t, u :: us => Shares t u ∧ LinksTo (naturalMerge t u) us

def LinksUp : List (Table V) → Prop
  | [] => False
  | t :: ts => LinksTo t ts

def emptyTable : Table V :=
  ⟨[], [], List.nodup_nil, by simp⟩

def joinAll : List (Table V) → Table V
  | [] => emptyTable
  | t :: ts => ts.foldl naturalMerge t

theorem mem_naturalMerge {a b : Table V} {name : ColName} :
    name ∈ (naturalMerge a b).columns ↔ name ∈ a.columns ∨ name ∈ b.columns :=
  (joined_merge a b).columns name

theorem mem_foldl_naturalMerge {t : Table V} {ts : List (Table V)} {name : ColName} :
    name ∈ (ts.foldl naturalMerge t).columns ↔
      name ∈ t.columns ∨ ∃ u ∈ ts, name ∈ u.columns := by
  induction ts generalizing t with
  | nil => simp
  | cons u ts ih =>
      rw [List.foldl_cons, ih, mem_naturalMerge]
      simp [or_assoc]

theorem mem_joinAll {ts : List (Table V)} {name : ColName} :
    name ∈ (joinAll ts).columns ↔ ∃ t ∈ ts, name ∈ t.columns := by
  cases ts with
  | nil => simp [joinAll, emptyTable]
  | cons t ts => simp [joinAll, mem_foldl_naturalMerge]

theorem linksTo_append {t u : Table V} {ts : List (Table V)} :
    LinksTo t (ts ++ [u]) ↔ LinksTo t ts ∧ Shares (ts.foldl naturalMerge t) u := by
  induction ts generalizing t with
  | nil => simp [LinksTo]
  | cons w ts ih => simp only [List.cons_append, LinksTo, ih, List.foldl_cons, and_assoc]

theorem LinksUp.append {ts : List (Table V)} (h : LinksUp ts) {u : Table V}
    (hshares : Shares (joinAll ts) u) : LinksUp (ts ++ [u]) := by
  cases ts with
  | nil => exact h.elim
  | cons t ts => exact linksTo_append.mpr ⟨h, hshares⟩

/-- Tables that share a column with the first one link up in any order. -/
theorem linksTo_of_shares {t : Table V} {ts : List (Table V)} (h : ∀ u ∈ ts, Shares t u) :
    LinksTo t ts := by
  induction ts generalizing t with
  | nil => trivial
  | cons u ts ih =>
      constructor
      · exact h u (by simp)
      · apply ih
        intro w hw
        obtain ⟨name, ht, hname⟩ := h w (by simp [hw])
        exact ⟨name, mem_naturalMerge.mpr (Or.inl ht), hname⟩

section Loaded

variable {dataFrames : List (Path × DataFrame V)}

/-- The frame that was loaded from a file, with its index as a column. -/
def loadedTable (dataFrames : List (Path × DataFrame V)) (path : Path) : Table V :=
  match dictGet dataFrames path with
  | .ok df => df.resetIndex
  | .error _ => emptyTable

def Loaded (dataFrames : List (Path × DataFrame V)) (paths : List Path) : Prop :=
  ∀ path ∈ paths, ∃ df, dictGet dataFrames path = .ok df

theorem foldlM_mergeTurn {paths : List Path} (hloaded : Loaded dataFrames paths) (t : Table V) :
    (LinksTo t (paths.map (loadedTable dataFrames)) →
      paths.foldlM (mergeTurn dataFrames) t =
        .ok ((paths.map (loadedTable dataFrames)).foldl naturalMerge t)) ∧
    (¬ LinksTo t (paths.map (loadedTable dataFrames)) →
      ∃ e, paths.foldlM (mergeTurn dataFrames) t = .error e) := by
  induction paths generalizing t with
  | nil => simp [LinksTo, pure, Except.pure]
  | cons path paths ih =>
      obtain ⟨df, hdf⟩ := hloaded path (by simp)
      have htable : loadedTable dataFrames path = df.resetIndex := by
        simp only [loadedTable, hdf]
      have hrest : Loaded dataFrames paths := fun p hp => hloaded p (List.mem_cons_of_mem _ hp)
      rw [List.map_cons, htable, List.foldlM_cons, LinksTo, List.foldl_cons]
      by_cases hshares : Shares t df.resetIndex
      · rw [mergeTurn_of_shares hdf hshares]
        simp only [hshares, true_and]
        exact ih hrest (naturalMerge t df.resetIndex)
      · obtain ⟨e, he⟩ := mergeTurn_of_not_shares hdf hshares
        rw [he]
        simp [hshares, bind, Except.bind]

variable {chosen : List (Path × List ColName)}

/-- `_merge` raises exactly if some file has no column in common with those before it. -/
theorem mergeChosen_spec (order : DictOrder) (hloaded : Loaded dataFrames (chosen.map Prod.fst)) :
    (LinksUp ((order.keys (chosen.map Prod.fst)).map (loadedTable dataFrames)) →
      mergeChosen order dataFrames chosen =
        .ok (joinAll ((order.keys (chosen.map Prod.fst)).map (loadedTable dataFrames)))) ∧
    (¬ LinksUp ((order.keys (chosen.map Prod.fst)).map (loadedTable dataFrames)) →
      ∃ e, mergeChosen order dataFrames chosen = .error e) := by
  have hkeys : Loaded dataFrames (order.keys (chosen.map Prod.fst)) :=
    fun path hpath => hloaded path ((order.perm _).mem_iff.mp hpath)
  unfold mergeChosen
  cases horder : order.keys (chosen.map Prod.fst) with
  | nil => simp [LinksUp]
  | cons first rest =>
      rw [horder] at hkeys
      obtain ⟨df, hdf⟩ := hkeys first (by simp)
      have htable : loadedTable dataFrames first = df.resetIndex := by
        simp only [loadedTable, hdf]
      have hfold := foldlM_mergeTurn (fun p hp => hkeys p (List.mem_cons_of_mem _ hp))
        (loadedTable dataFrames first)
      simp only [hdf, bind, Except.bind, ← htable]
      exact hfold

end Loaded

/-! ## Which orders raise -/

/-- The files fall into two groups, and no file of the one has a column in common with
a file of the other. -/
def InTwoGroups (dataFrames : List (Path × DataFrame V)) (paths : List Path) : Prop :=
  ∃ group : Path → Prop, (∃ p ∈ paths, group p) ∧ (∃ q ∈ paths, ¬ group q) ∧
    ∀ p ∈ paths, ∀ q ∈ paths, group p → ¬ group q →
      ¬ Shares (loadedTable dataFrames p) (loadedTable dataFrames q)

section Groups

variable {dataFrames : List (Path × DataFrame V)} {paths : List Path}

/-- A join never leaves the group that it begins in. -/
theorem group_of_linksTo {group : Path → Prop}
    (happart : ∀ p ∈ paths, ∀ q ∈ paths, group p → ¬ group q →
      ¬ Shares (loadedTable dataFrames p) (loadedTable dataFrames q))
    {rest : List Path} (hrest : ∀ q ∈ rest, q ∈ paths) {t : Table V}
    (ht : ∀ name ∈ t.columns, ∃ p ∈ paths, group p ∧ name ∈ (loadedTable dataFrames p).columns)
    (hlinks : LinksTo t (rest.map (loadedTable dataFrames))) : ∀ q ∈ rest, group q := by
  induction rest generalizing t with
  | nil => simp
  | cons q rest ih =>
      obtain ⟨hshares, hlinks⟩ := hlinks
      have hq : group q := by
        obtain ⟨name, hname, hnameq⟩ := hshares
        obtain ⟨p, hp, hgroup, hnamep⟩ := ht name hname
        by_contra hno
        exact happart p hp q (hrest q (by simp)) hgroup hno ⟨name, hnamep, hnameq⟩
      have hlater : ∀ r ∈ rest, group r := by
        refine ih (fun r hr => hrest r (List.mem_cons_of_mem _ hr)) ?_ hlinks
        intro name hname
        cases mem_naturalMerge.mp hname with
        | inl hold => exact ht name hold
        | inr hnew => exact ⟨q, hrest q (by simp), hq, hnew⟩
      intro r hr
      cases List.mem_cons.mp hr with
      | inl h => exact h ▸ hq
      | inr h => exact hlater r h

theorem InTwoGroups.not_linksUp (h : InTwoGroups dataFrames paths) {keys : List Path}
    (hkeys : keys.Perm paths) : ¬ LinksUp (keys.map (loadedTable dataFrames)) := by
  intro hlinks
  obtain ⟨group, ⟨p, hp, hgroup⟩, ⟨q, hq, hno⟩, happart⟩ := h
  cases keys with
  | nil => exact hlinks
  | cons first rest =>
      have hfirst : first ∈ paths := hkeys.mem_iff.mp (by simp)
      have hrest : ∀ r ∈ rest, r ∈ paths := fun r hr => hkeys.mem_iff.mp (by simp [hr])
      -- the first file's group is the one or the other
      by_cases hside : group first
      · have hall := group_of_linksTo happart hrest
          (fun name hname => ⟨first, hfirst, hside, hname⟩) hlinks
        cases List.mem_cons.mp (hkeys.mem_iff.mpr hq) with
        | inl h => exact hno (h ▸ hside)
        | inr h => exact hno (hall q h)
      · have happart' : ∀ p ∈ paths, ∀ q ∈ paths, ¬ group p → ¬ ¬ group q →
            ¬ Shares (loadedTable dataFrames p) (loadedTable dataFrames q) := by
          intro p hp q hq hnp hq' hshares
          obtain ⟨name, hnamep, hnameq⟩ := hshares
          exact happart q hq p hp (not_not.mp hq') hnp ⟨name, hnameq, hnamep⟩
        have hall : ∀ q ∈ rest, ¬ group q := group_of_linksTo happart' hrest
          (fun name hname => ⟨first, hfirst, hside, hname⟩) hlinks
        cases List.mem_cons.mp (hkeys.mem_iff.mpr hp) with
        | inl h => exact hside (h ▸ hgroup)
        | inr h => exact hall p h hgroup

/-- Unless the files fall into two groups, what is joined so far can be extended until
no file is left. -/
theorem exists_linksUp_of_prefix (hnodup : paths.Nodup) (hone : ¬ InTwoGroups dataFrames paths)
    {seen rest : List Path} (hperm : (seen ++ rest).Perm paths)
    (hlinks : LinksUp (seen.map (loadedTable dataFrames))) :
    ∃ keys : List Path, keys.Perm paths ∧ LinksUp (keys.map (loadedTable dataFrames)) := by
  induction hlength : rest.length generalizing seen rest with
  | zero =>
      rw [List.length_eq_zero_iff.mp hlength, List.append_nil] at hperm
      exact ⟨seen, hperm, hlinks⟩
  | succ n ih =>
      have hdisjoint := List.disjoint_of_nodup_append (hperm.nodup_iff.mpr hnodup)
      -- some file outside has a column in common with one inside
      have hnext : ∃ p ∈ seen, ∃ q ∈ rest,
          Shares (loadedTable dataFrames p) (loadedTable dataFrames q) := by
        by_contra hnone
        apply hone
        refine ⟨(· ∈ seen), ?_, ?_, ?_⟩
        · cases seen with
          | nil => exact hlinks.elim
          | cons p seen => exact ⟨p, hperm.mem_iff.mp (by simp), by simp⟩
        · cases rest with
          | nil => simp at hlength
          | cons q rest =>
              exact ⟨q, hperm.mem_iff.mp (by simp), fun hq => hdisjoint hq (by simp)⟩
        · intro p _ q hq hseen hout hshares
          have hq := List.mem_append.mp (hperm.mem_iff.mpr hq)
          exact hnone ⟨p, hseen, q, hq.resolve_left hout, hshares⟩
      obtain ⟨p, hp, q, hq, name, hnamep, hnameq⟩ := hnext
      have hperm' : ((seen ++ [q]) ++ rest.erase q).Perm paths := by
        rw [List.append_assoc]
        exact ((List.perm_cons_erase hq).symm.append_left seen).trans hperm
      refine ih hperm' ?_ ?_
      · rw [List.map_append]
        apply hlinks.append
        exact ⟨name, mem_joinAll.mpr ⟨_, List.mem_map.mpr ⟨p, hp, rfl⟩, hnamep⟩, hnameq⟩
      · rw [List.length_erase_of_mem hq]
        omega

theorem exists_linksUp (hnodup : paths.Nodup) (hne : paths ≠ [])
    (hone : ¬ InTwoGroups dataFrames paths) :
    ∃ keys : List Path, keys.Perm paths ∧ LinksUp (keys.map (loadedTable dataFrames)) := by
  cases paths with
  | nil => exact absurd rfl hne
  | cons first rest =>
      have hfirst : LinksUp ([first].map (loadedTable dataFrames)) := trivial
      exact exists_linksUp_of_prefix hnodup hone (List.Perm.refl (first :: rest)) hfirst

end Groups

/-! ## Files that share their common columns -/

/-- A column that two of the files have in common is a column of all of them. -/
def SharedByAll (dataFrames : List (Path × DataFrame V)) (paths : List Path) : Prop :=
  ∀ p ∈ paths, ∀ q ∈ paths, p ≠ q → ∀ name ∈ (loadedTable dataFrames p).columns,
    name ∈ (loadedTable dataFrames q).columns → ∀ r ∈ paths,
      name ∈ (loadedTable dataFrames r).columns

/-- The same table up to the order of its columns and of its rows. -/
structure SameTable (t t' : Table V) : Prop where
  columns : t.columns.Perm t'.columns
  rows : t.rows.Perm t'.rows

/-- Both runs raise, or both return the same table. -/
def SameOutcome : Except PyError (Table V) → Except PyError (Table V) → Prop
  | .error _, .error _ => True
  | .ok t, .ok t' => SameTable t t'
  | _, _ => False

/-- The cells of a row under the columns that are joined on. -/
def joinKey (names : List ColName) (row : Row V) : List (Option V) :=
  names.map row

omit [LinearOrder V] in
theorem joinKey_eq_iff {names : List ColName} {x y : Row V} :
    joinKey names x = joinKey names y ↔ ∀ name ∈ names, x name = y name :=
  List.map_inj_left

omit [LinearOrder V] in
theorem joinKey_joinRows {names : List ColName} (x y : Row V)
    (h : joinKey names x = joinKey names y) : joinKey names (joinRows x y) = joinKey names x := by
  apply joinKey_eq_iff.mpr
  intro name hname
  unfold joinRows
  rw [← joinKey_eq_iff.mp h name hname, Option.or_self]

omit [LinearOrder V] in
theorem joinRows_assoc (x y z : Row V) :
    joinRows (joinRows x y) z = joinRows x (joinRows y z) := by
  funext name
  exact Option.or_assoc

theorem rows_naturalMerge {a b : Table V} {names : List ColName}
    (h : ∀ name, name ∈ names ↔ name ∈ a.columns ∧ name ∈ b.columns) :
    (naturalMerge a b).rows = keyedJoin (joinKey names) joinRows a.rows b.rows := by
  have hmeets : agreeOn (a.columns.filter (· ∈ b.columns)) =
      fun x y : Row V => decide (joinKey names x = joinKey names y) := by
    funext x y
    apply Bool.eq_iff_iff.mpr
    rw [decide_eq_true_iff, joinKey_eq_iff]
    refine (meets_iff (a := a) (b := b)).trans ?_
    simp only [h, and_imp]
  have hrows : (naturalMerge a b).rows =
      outerJoin (agreeOn (a.columns.filter (· ∈ b.columns))) joinRows id id a.rows b.rows := rfl
  rw [hrows, hmeets]
  rfl

section Shared

variable {dataFrames : List (Path × DataFrame V)} {paths : List Path}

/-- The columns of all the files. -/
def columnsOfAll (dataFrames : List (Path × DataFrame V)) : List Path → List ColName
  | [] => []
  | first :: rest => (loadedTable dataFrames first).columns.filter
      (fun name => rest.all (fun path => name ∈ (loadedTable dataFrames path).columns))

omit [LinearOrder V] in
theorem mem_columnsOfAll (hne : paths ≠ []) {name : ColName} :
    name ∈ columnsOfAll dataFrames paths ↔
      ∀ path ∈ paths, name ∈ (loadedTable dataFrames path).columns := by
  cases paths with
  | nil => exact absurd rfl hne
  | cons first rest => simp [columnsOfAll]

theorem rows_foldl_naturalMerge (hshared : SharedByAll dataFrames paths) (hne : paths ≠ [])
    {rest : List Path} (hrest : ∀ q ∈ rest, q ∈ paths) (hnodup : rest.Nodup) {t : Table V}
    (hcolumns : ∀ name ∈ t.columns,
      ∃ p ∈ paths, p ∉ rest ∧ name ∈ (loadedTable dataFrames p).columns)
    (hcommon : ∀ name ∈ columnsOfAll dataFrames paths, name ∈ t.columns) :
    ((rest.map (loadedTable dataFrames)).foldl naturalMerge t).rows =
      (rest.map (fun p => (loadedTable dataFrames p).rows)).foldl
        (keyedJoin (joinKey (columnsOfAll dataFrames paths)) joinRows) t.rows := by
  induction rest generalizing t with
  | nil => rfl
  | cons q rest ih =>
      have hq : q ∈ paths := hrest q (by simp)
      have hnames (name : ColName) : name ∈ columnsOfAll dataFrames paths ↔
          name ∈ t.columns ∧ name ∈ (loadedTable dataFrames q).columns := by
        constructor
        · intro hname
          exact ⟨hcommon name hname, (mem_columnsOfAll hne).mp hname q hq⟩
        · intro hname
          obtain ⟨p, hp, hout, hnamep⟩ := hcolumns name hname.1
          have hpq : p ≠ q := fun h => hout (by simp [h])
          exact (mem_columnsOfAll hne).mpr (hshared p hp q hq hpq name hnamep hname.2)
      rw [List.map_cons, List.foldl_cons, List.map_cons, List.foldl_cons,
        ← rows_naturalMerge hnames]
      apply ih (fun r hr => hrest r (List.mem_cons_of_mem _ hr)) hnodup.of_cons
      · intro name hname
        cases mem_naturalMerge.mp hname with
        | inl hold =>
            obtain ⟨p, hp, hout, hnamep⟩ := hcolumns name hold
            exact ⟨p, hp, fun h => hout (List.mem_cons_of_mem _ h), hnamep⟩
        | inr hnew => exact ⟨q, hq, (List.nodup_cons.mp hnodup).1, hnew⟩
      · intro name hname
        exact mem_naturalMerge.mpr (Or.inl (hcommon name hname))

theorem rows_joinAll (hshared : SharedByAll dataFrames paths) (hnodup : paths.Nodup)
    {keys : List Path} (hkeys : keys.Perm paths) :
    (joinAll (keys.map (loadedTable dataFrames))).rows =
      (keys.map (fun p => (loadedTable dataFrames p).rows)).foldl
        (keyedJoin (joinKey (columnsOfAll dataFrames paths)) joinRows) [] := by
  cases keys with
  | nil => rfl
  | cons first rest =>
      have hfirst : first ∈ paths := hkeys.mem_iff.mp (by simp)
      have hne : paths ≠ [] := List.ne_nil_of_mem hfirst
      have hkeysNodup := List.nodup_cons.mp (hkeys.nodup_iff.mpr hnodup)
      have hnil : keyedJoin (joinKey (columnsOfAll dataFrames paths)) joinRows []
          (loadedTable dataFrames first).rows = (loadedTable dataFrames first).rows :=
        (outerJoin_nil_left _ _ _ _ _).trans (List.map_id _)
      rw [List.map_cons, List.map_cons, List.foldl_cons, hnil]
      apply rows_foldl_naturalMerge hshared hne _ hkeysNodup.2
      · intro name hname
        exact ⟨first, hfirst, hkeysNodup.1, hname⟩
      · intro name hname
        exact (mem_columnsOfAll hne).mp hname first hfirst
      · intro q hq
        exact hkeys.mem_iff.mp (List.mem_cons_of_mem _ hq)

omit [LinearOrder V] in
/-- Rows of two files that agree where all the files do can be paired either way. -/
theorem joinRows_comm_of_shared (hshared : SharedByAll dataFrames paths) {p q : Path}
    (hp : p ∈ paths) (hq : q ∈ paths) (hpq : p ≠ q) {x y : Row V}
    (hx : x ∈ (loadedTable dataFrames p).rows) (hy : y ∈ (loadedTable dataFrames q).rows)
    (hkey : joinKey (columnsOfAll dataFrames paths) x =
      joinKey (columnsOfAll dataFrames paths) y) : joinRows x y = joinRows y x := by
  funext name
  unfold joinRows
  by_cases hnamep : name ∈ (loadedTable dataFrames p).columns
  · by_cases hnameq : name ∈ (loadedTable dataFrames q).columns
    · have hall := (mem_columnsOfAll (List.ne_nil_of_mem hp)).mpr
        (hshared p hp q hq hpq name hnamep hnameq)
      rw [joinKey_eq_iff.mp hkey name hall]
    · rw [(loadedTable dataFrames q).absent y hy name hnameq, Option.or_none, Option.none_or]
  · rw [(loadedTable dataFrames p).absent x hx name hnamep, Option.or_none, Option.none_or]

theorem columns_joinAll_perm {keys keys' : List Path} (hkeys : keys.Perm keys') :
    (joinAll (keys.map (loadedTable dataFrames))).columns.Perm
      (joinAll (keys'.map (loadedTable dataFrames))).columns := by
  apply (List.perm_ext_iff_of_nodup (joinAll _).nodup (joinAll _).nodup).mpr
  intro name
  rw [mem_joinAll, mem_joinAll]
  simp only [List.mem_map, exists_exists_and_eq_and, hkeys.mem_iff]

theorem sameTable_of_shared (hshared : SharedByAll dataFrames paths) (hnodup : paths.Nodup)
    {keys keys' : List Path} (hkeys : keys.Perm paths) (hkeys' : keys'.Perm paths) :
    SameTable (joinAll (keys.map (loadedTable dataFrames)))
      (joinAll (keys'.map (loadedTable dataFrames))) where
  columns := columns_joinAll_perm (hkeys.trans hkeys'.symm)
  rows := by
    rw [rows_joinAll hshared hnodup hkeys, rows_joinAll hshared hnodup hkeys']
    apply foldl_keyedJoin_perm joinKey_joinRows joinRows_assoc
      ((hkeys.trans hkeys'.symm).map _)
    intro xs hxs ys hys
    obtain ⟨p, hp, rfl⟩ := List.mem_map.mp hxs
    obtain ⟨q, hq, rfl⟩ := List.mem_map.mp hys
    by_cases hpq : p = q
    · rw [hpq]
    · apply keyedJoin_comm
      intro x hx y hy hkey
      exact joinRows_comm_of_shared hshared (hkeys.mem_iff.mp hp) (hkeys.mem_iff.mp hq) hpq hx hy
        hkey

omit [LinearOrder V] in
/-- Where they do not fall into two groups, any two of the files share a column. -/
theorem shares_of_shared (hshared : SharedByAll dataFrames paths)
    (hone : ¬ InTwoGroups dataFrames paths) {p q : Path} (hp : p ∈ paths) (hq : q ∈ paths)
    (hpq : p ≠ q) : Shares (loadedTable dataFrames p) (loadedTable dataFrames q) := by
  by_contra hnone
  apply hone
  refine ⟨(· = p), ⟨p, hp, rfl⟩, ⟨q, hq, hpq.symm⟩, ?_⟩
  rintro _ - r hr rfl hrp hshares
  obtain ⟨name, hname, hnamer⟩ := hshares
  exact hnone ⟨name, hname, hshared _ hp r hr (Ne.symm hrp) name hname hnamer q hq⟩

theorem linksUp_of_shares (hshares : ∀ p ∈ paths, ∀ q ∈ paths, p ≠ q →
      Shares (loadedTable dataFrames p) (loadedTable dataFrames q)) (hnodup : paths.Nodup)
    (hne : paths ≠ []) {keys : List Path} (hkeys : keys.Perm paths) :
    LinksUp (keys.map (loadedTable dataFrames)) := by
  cases keys with
  | nil => exact absurd hkeys.nil_eq.symm hne
  | cons first rest =>
      have hkeysNodup := List.nodup_cons.mp (hkeys.nodup_iff.mpr hnodup)
      apply linksTo_of_shares
      intro u hu
      obtain ⟨q, hq, rfl⟩ := List.mem_map.mp hu
      refine hshares first (hkeys.mem_iff.mp (by simp)) q (hkeys.mem_iff.mp (by simp [hq])) ?_
      intro h
      exact hkeysNodup.1 (h ▸ hq)

variable {chosen : List (Path × List ColName)}

/-- Where both orders return, they return the same columns. -/
theorem mergeChosen_columns (hloaded : Loaded dataFrames (chosen.map Prod.fst))
    {order order' : DictOrder} {t t' : Table V} (ht : mergeChosen order dataFrames chosen = .ok t)
    (ht' : mergeChosen order' dataFrames chosen = .ok t') : t.columns.Perm t'.columns := by
  have hof {order : DictOrder} {t : Table V} (ht : mergeChosen order dataFrames chosen = .ok t) :
      t = joinAll ((order.keys (chosen.map Prod.fst)).map (loadedTable dataFrames)) := by
    by_cases hlinks : LinksUp ((order.keys (chosen.map Prod.fst)).map (loadedTable dataFrames))
    · exact Except.ok.inj (ht.symm.trans ((mergeChosen_spec order hloaded).1 hlinks))
    · obtain ⟨e, he⟩ := (mergeChosen_spec order hloaded).2 hlinks
      cases ht.symm.trans he
  rw [hof ht, hof ht']
  exact columns_joinAll_perm ((order.perm _).trans (order'.perm _).symm)

theorem sameOutcome_of_shared_or_groups (hloaded : Loaded dataFrames (chosen.map Prod.fst))
    (hnodup : (chosen.map Prod.fst).Nodup)
    (h : SharedByAll dataFrames (chosen.map Prod.fst) ∨
      InTwoGroups dataFrames (chosen.map Prod.fst)) (order order' : DictOrder) :
    SameOutcome (mergeChosen order dataFrames chosen) (mergeChosen order' dataFrames chosen) := by
  have hraise (h : ∀ order : DictOrder,
      ¬ LinksUp ((order.keys (chosen.map Prod.fst)).map (loadedTable dataFrames))) :
      SameOutcome (mergeChosen order dataFrames chosen)
        (mergeChosen order' dataFrames chosen) := by
    obtain ⟨e, he⟩ := (mergeChosen_spec order hloaded).2 (h order)
    obtain ⟨e', he'⟩ := (mergeChosen_spec order' hloaded).2 (h order')
    rw [he, he']
    trivial
  by_cases hgroups : InTwoGroups dataFrames (chosen.map Prod.fst)
  · exact hraise (fun order => hgroups.not_linksUp (order.perm _))
  · have hshared := h.resolve_right hgroups
    by_cases hne : chosen.map Prod.fst = []
    · apply hraise
      intro order hlinks
      have hnil := (order.perm (chosen.map Prod.fst)).trans (List.Perm.of_eq hne)
      rw [hnil.eq_nil] at hlinks
      exact hlinks
    · have hlinks (order : DictOrder) := linksUp_of_shares
        (fun p hp q hq hpq => shares_of_shared hshared hgroups hp hq hpq) hnodup hne
        (order.perm (chosen.map Prod.fst))
      rw [(mergeChosen_spec order hloaded).1 (hlinks order),
        (mergeChosen_spec order' hloaded).1 (hlinks order')]
      exact sameTable_of_shared hshared hnodup (order.perm _) (order'.perm _)

end Shared

/-! ## Files with the same columns and other rows -/

section Contents

variable {dataFrames contents : List (Path × DataFrame V)} {paths : List Path}

theorem dictGet_map {κ β β' : Type} [DecidableEq κ] (d : List (κ × β)) (g : κ → β → β')
    (key : κ) :
    dictGet (d.map (fun entry => (entry.1, g entry.1 entry.2))) key =
      (dictGet d key).map (g key) := by
  induction d with
  | nil => rfl
  | cons entry d ih =>
      by_cases h : entry.1 = key
      · simp [dictGet, h, Except.map]
      · simpa [dictGet, h] using ih

/-- The same files, under the same column names. -/
def SameColumns (dataFrames contents : List (Path × DataFrame V)) : Prop :=
  contents.map (fun entry => (entry.1, entry.2.indexName, entry.2.columns)) =
    dataFrames.map (fun entry => (entry.1, entry.2.indexName, entry.2.columns))

omit [LinearOrder V] in
theorem SameColumns.dictGet (h : SameColumns dataFrames contents) (path : Path) :
    (Model.dictGet contents path).map (fun df => (df.indexName, df.columns)) =
      (Model.dictGet dataFrames path).map (fun df => (df.indexName, df.columns)) := by
  have hcontents := dictGet_map contents (fun _ df => (df.indexName, df.columns)) path
  have hframes := dictGet_map dataFrames (fun _ df => (df.indexName, df.columns)) path
  rw [← hcontents, ← hframes]
  exact congrArg (Model.dictGet · path) h

omit [LinearOrder V] in
theorem SameColumns.columns (h : SameColumns dataFrames contents) (path : Path) :
    (loadedTable contents path).columns = (loadedTable dataFrames path).columns := by
  have hget := h.dictGet path
  unfold loadedTable
  cases hc : Model.dictGet contents path <;> cases hd : Model.dictGet dataFrames path <;>
    simp_all [Except.map, DataFrame.resetIndex, emptyTable]

omit [LinearOrder V] in
theorem SameColumns.loaded (h : SameColumns dataFrames contents)
    (hloaded : Loaded dataFrames paths) : Loaded contents paths := by
  intro path hpath
  obtain ⟨df, hdf⟩ := hloaded path hpath
  have hget := h.dictGet path
  rw [hdf] at hget
  cases hc : Model.dictGet contents path with
  | error e => simp [hc, Except.map] at hget
  | ok df => exact ⟨df, rfl⟩

omit [LinearOrder V] in
theorem SameColumns.conditions (h : SameColumns dataFrames contents) :
    (SharedByAll contents paths ↔ SharedByAll dataFrames paths) ∧
      (InTwoGroups contents paths ↔ InTwoGroups dataFrames paths) := by
  unfold SharedByAll InTwoGroups Shares
  simp only [h.columns, and_self]

variable [Inhabited V]

/-- A row with one and the same value under each of the names. -/
def constantRow (names : List ColName) : Row V :=
  fun name => if name ∈ names then some default else none

/-- A frame with one constant row, for the files of `filled`, or with none. -/
def refilled (filled : List Path) (path : Path) (df : DataFrame V) : DataFrame V where
  indexName := df.indexName
  columns := df.columns
  rows := if path ∈ filled then [constantRow (df.indexName :: df.columns)] else []
  nodup := df.nodup
  absent := by
    intro row hrow name hname
    split at hrow
    · rw [List.mem_singleton.mp hrow, constantRow, if_neg hname]
    · cases hrow

def refill (filled : List Path) (dataFrames : List (Path × DataFrame V)) :
    List (Path × DataFrame V) :=
  dataFrames.map (fun entry => (entry.1, refilled filled entry.1 entry.2))

omit [LinearOrder V] in
theorem sameColumns_refill (filled : List Path) :
    SameColumns dataFrames (refill filled dataFrames) := by
  simp [SameColumns, refill, refilled]

omit [LinearOrder V] in
theorem rows_refill (filled : List Path) (hloaded : Loaded dataFrames paths) {path : Path}
    (hpath : path ∈ paths) :
    (loadedTable (refill filled dataFrames) path).rows =
      if path ∈ filled then [constantRow (loadedTable dataFrames path).columns] else [] := by
  obtain ⟨df, hdf⟩ := hloaded path hpath
  unfold loadedTable refill
  rw [dictGet_map, hdf]
  rfl

end Contents

section Differing

variable {dataFrames : List (Path × DataFrame V)} {chosen : List (Path × List ColName)}

/-- A dictionary that hands out the paths in the order of `keys`. -/
def DictOrder.giving {keys paths : List Path} (h : keys.Perm paths) : DictOrder where
  keys := fun l => if l = paths then keys else l
  perm := by
    intro l
    split
    · rename_i hl
      exact hl ▸ h
    · exact List.Perm.refl l

@[simp] theorem giving_keys {keys paths : List Path} (h : keys.Perm paths) :
    (DictOrder.giving h).keys paths = keys :=
  if_pos rfl

/-- Where any two files share a column, every order returns. -/
theorem mergeChosen_giving {keys : List Path} (hkeys : keys.Perm (chosen.map Prod.fst))
    (hloaded : Loaded dataFrames (chosen.map Prod.fst)) (hnodup : (chosen.map Prod.fst).Nodup)
    (hne : chosen.map Prod.fst ≠ [])
    (hshares : ∀ p ∈ chosen.map Prod.fst, ∀ q ∈ chosen.map Prod.fst, p ≠ q →
      Shares (loadedTable dataFrames p) (loadedTable dataFrames q)) :
    mergeChosen (DictOrder.giving hkeys) dataFrames chosen =
      .ok (joinAll (keys.map (loadedTable dataFrames))) := by
  have hok := (mergeChosen_spec (DictOrder.giving hkeys) hloaded).1
  rw [giving_keys] at hok
  exact hok (linksUp_of_shares hshares hnodup hne hkeys)

theorem exists_perm_three {paths : List Path} {p q r : Path} (hp : p ∈ paths) (hq : q ∈ paths)
    (hr : r ∈ paths) (hpq : p ≠ q) (hpr : p ≠ r) (hqr : q ≠ r) :
    ∃ rest, (p :: q :: r :: rest).Perm paths := by
  have hq' := (List.mem_erase_of_ne hpq.symm).mpr hq
  have hr' := (List.mem_erase_of_ne hqr.symm).mpr ((List.mem_erase_of_ne hpr.symm).mpr hr)
  refine ⟨((paths.erase p).erase q).erase r, ?_⟩
  apply List.Perm.trans _ (List.perm_cons_erase hp).symm
  apply List.Perm.cons
  exact ((List.perm_cons_erase hr').symm.cons q).trans (List.perm_cons_erase hq').symm

/-- Files without a common column, joined first, raise where another order does not. -/
theorem differing_of_not_shares (hloaded : Loaded dataFrames (chosen.map Prod.fst))
    (hnodup : (chosen.map Prod.fst).Nodup)
    (hone : ¬ InTwoGroups dataFrames (chosen.map Prod.fst)) {p q : Path}
    (hp : p ∈ chosen.map Prod.fst) (hq : q ∈ chosen.map Prod.fst) (hpq : p ≠ q)
    (hnone : ¬ Shares (loadedTable dataFrames p) (loadedTable dataFrames q)) :
    ∃ order order' : DictOrder, ¬ SameOutcome (mergeChosen order dataFrames chosen)
      (mergeChosen order' dataFrames chosen) := by
  obtain ⟨keys, hkeys, hlinks⟩ := exists_linksUp hnodup (List.ne_nil_of_mem hp) hone
  have hq' : q ∈ (chosen.map Prod.fst).erase p := (List.mem_erase_of_ne hpq.symm).mpr hq
  have hperm : (p :: q :: ((chosen.map Prod.fst).erase p).erase q).Perm (chosen.map Prod.fst) :=
    (((List.perm_cons_erase hq').symm.cons p)).trans (List.perm_cons_erase hp).symm
  have hok := (mergeChosen_spec (DictOrder.giving hkeys) hloaded).1 (by
    rw [giving_keys]
    exact hlinks)
  obtain ⟨e, he⟩ := (mergeChosen_spec (DictOrder.giving hperm) hloaded).2 (by
    rw [giving_keys]
    intro hlinks
    exact hnone hlinks.1)
  refine ⟨DictOrder.giving hkeys, DictOrder.giving hperm, ?_⟩
  rw [hok, he]
  exact id

theorem rows_foldl_of_empty {t : Table V} {ts : List (Table V)} (h : ∀ u ∈ ts, u.rows = []) :
    (ts.foldl naturalMerge t).rows = t.rows := by
  induction ts generalizing t with
  | nil => rfl
  | cons u ts ih =>
      have hu : (naturalMerge t u).rows = outerJoin
          (agreeOn (t.columns.filter (· ∈ u.columns))) joinRows id id t.rows u.rows := rfl
      rw [List.foldl_cons, ih (fun w hw => h w (List.mem_cons_of_mem _ hw)), hu, h u (by simp),
        outerJoin_nil_right, List.map_id]

variable [Inhabited V]

theorem length_rows_constant {a b : Table V} (ha : a.rows = [constantRow a.columns])
    (hb : b.rows = [constantRow b.columns]) : (naturalMerge a b).rows.length = 1 := by
  have hmeets : agreeOn (a.columns.filter (· ∈ b.columns)) (constantRow a.columns : Row V)
      (constantRow b.columns) = true := by
    apply meets_iff.mpr
    intro name hnamea hnameb
    simp [constantRow, hnamea, hnameb]
  have hrows : (naturalMerge a b).rows = outerJoin
      (agreeOn (a.columns.filter (· ∈ b.columns))) joinRows id id a.rows b.rows := rfl
  rw [hrows, ha, hb]
  simp [outerJoin, joinedWith, partners, lonely, hmeets]

/-- A row without the column that is joined on meets none. -/
theorem length_rows_apart {a b c : Table V} {name : ColName} (ha : a.rows = [])
    (hb : b.rows = [constantRow b.columns]) (hc : c.rows = [constantRow c.columns])
    (hnamea : name ∈ a.columns) (hnamec : name ∈ c.columns) (hnameb : name ∉ b.columns) :
    (naturalMerge (naturalMerge a b) c).rows.length = 2 := by
  have hmeets : agreeOn ((naturalMerge a b).columns.filter (· ∈ c.columns))
      (constantRow b.columns : Row V) (constantRow c.columns) = false := by
    apply Bool.eq_false_iff.mpr
    intro h
    have hsame := meets_iff.mp h name (mem_naturalMerge.mpr (Or.inl hnamea)) hnamec
    simp [constantRow, hnamec, hnameb] at hsame
  have hfirst : (naturalMerge a b).rows = outerJoin
      (agreeOn (a.columns.filter (· ∈ b.columns))) joinRows id id a.rows b.rows := rfl
  have hrows : (naturalMerge (naturalMerge a b) c).rows = outerJoin
      (agreeOn ((naturalMerge a b).columns.filter (· ∈ c.columns))) joinRows id id
      (naturalMerge a b).rows c.rows := rfl
  rw [hrows, hfirst, ha, outerJoin_nil_left, List.map_id, hb, hc]
  simp [outerJoin, joinedWith, partners, lonely, hmeets]

/-- Where `p` and `q` have a column in common that `r` lacks, a row of `r` and one of
`q` meet, unless `r` has been joined to `p` before. -/
theorem differing_of_not_shared (hloaded : Loaded dataFrames (chosen.map Prod.fst))
    (hnodup : (chosen.map Prod.fst).Nodup)
    (hshares : ∀ p ∈ chosen.map Prod.fst, ∀ q ∈ chosen.map Prod.fst, p ≠ q →
      Shares (loadedTable dataFrames p) (loadedTable dataFrames q))
    {p q r : Path} (hp : p ∈ chosen.map Prod.fst) (hq : q ∈ chosen.map Prod.fst)
    (hr : r ∈ chosen.map Prod.fst) (hpq : p ≠ q) {name : ColName}
    (hnamep : name ∈ (loadedTable dataFrames p).columns)
    (hnameq : name ∈ (loadedTable dataFrames q).columns)
    (hnamer : name ∉ (loadedTable dataFrames r).columns) :
    ∃ order order' : DictOrder, ¬ SameOutcome (mergeChosen order (refill [r, q] dataFrames) chosen)
      (mergeChosen order' (refill [r, q] dataFrames) chosen) := by
  have hrp : r ≠ p := fun h => hnamer (h ▸ hnamep)
  have hrq : r ≠ q := fun h => hnamer (h ▸ hnameq)
  have hsame : SameColumns dataFrames (refill [r, q] dataFrames) := sameColumns_refill [r, q]
  -- the rows of the files: one of `r`, one of `q`, and none of the others
  have hfilled {x : Path} (hx : x ∈ chosen.map Prod.fst) (hin : x ∈ [r, q]) :
      (loadedTable (refill [r, q] dataFrames) x).rows =
        [constantRow (loadedTable (refill [r, q] dataFrames) x).columns] := by
    rw [rows_refill [r, q] hloaded hx, if_pos hin, hsame.columns]
  have hempty {x : Path} (hx : x ∈ chosen.map Prod.fst) (hout : x ∉ [r, q]) :
      (loadedTable (refill [r, q] dataFrames) x).rows = [] := by
    rw [rows_refill [r, q] hloaded hx, if_neg hout]
  have hpout : p ∉ [r, q] := by simp [hrp.symm, hpq]
  obtain ⟨rest, hperm⟩ := exists_perm_three hp hr hq hrp.symm hpq hrq
  have hperm' : (r :: q :: p :: rest).Perm (chosen.map Prod.fst) :=
    ((List.Perm.swap p q rest).cons r).trans ((List.Perm.swap p r (q :: rest)).trans hperm)
  have hrest : ∀ x ∈ rest, (loadedTable (refill [r, q] dataFrames) x).rows = [] := by
    intro x hx
    have hnodup := hperm.nodup_iff.mpr hnodup
    apply hempty (hperm.mem_iff.mp (by simp [hx]))
    intro hin
    simp only [List.mem_cons, List.not_mem_nil, or_false] at hin
    cases hin with
    | inl h => simp_all
    | inr h => simp_all
  refine ⟨DictOrder.giving hperm, DictOrder.giving hperm', ?_⟩
  have hshares' : ∀ x ∈ chosen.map Prod.fst, ∀ y ∈ chosen.map Prod.fst, x ≠ y →
      Shares (loadedTable (refill [r, q] dataFrames) x)
        (loadedTable (refill [r, q] dataFrames) y) := by
    unfold Shares at hshares ⊢
    simpa only [hsame.columns] using hshares
  rw [mergeChosen_giving hperm (hsame.loaded hloaded) hnodup (List.ne_nil_of_mem hp) hshares',
    mergeChosen_giving hperm' (hsame.loaded hloaded) hnodup (List.ne_nil_of_mem hp) hshares']
  intro hsameTable
  have hlength := hsameTable.rows.length_eq
  have htwo : (joinAll ((p :: r :: q :: rest).map
      (loadedTable (refill [r, q] dataFrames)))).rows.length = 2 := by
    simp only [joinAll, List.map_cons, List.foldl_cons]
    rw [rows_foldl_of_empty (by simpa using hrest)]
    rw [← hsame.columns] at hnamep hnameq hnamer
    exact length_rows_apart (hempty hp hpout) (hfilled hr (by simp)) (hfilled hq (by simp))
      hnamep hnameq hnamer
  have hone : (joinAll ((r :: q :: p :: rest).map
      (loadedTable (refill [r, q] dataFrames)))).rows.length = 1 := by
    simp only [joinAll, List.map_cons, List.foldl_cons]
    rw [← List.foldl_cons, ← List.map_cons, rows_foldl_of_empty]
    · exact length_rows_constant (hfilled hr (by simp)) (hfilled hq (by simp))
    · intro u hu
      obtain ⟨x, hx, rfl⟩ := List.mem_map.mp hu
      cases List.mem_cons.mp hx with
      | inl h => exact h ▸ hempty hp hpout
      | inr h => exact hrest x h
  omega

end Differing

/-- The order of the dictionary does not matter to the join of the chosen files, whatever
their rows, exactly if a column that two of them have in common is a column of all of
them, or no order returns because they fall into two groups. -/
theorem mergeChosen_independent_iff [Inhabited V] (dataFrames : List (Path × DataFrame V))
    (chosen : List (Path × List ColName)) (hnodup : (chosen.map Prod.fst).Nodup)
    (hloaded : Loaded dataFrames (chosen.map Prod.fst)) :
    (∀ (order order' : DictOrder) (t t' : Table V), mergeChosen order dataFrames chosen = .ok t →
      mergeChosen order' dataFrames chosen = .ok t' → t.columns.Perm t'.columns) ∧
    ((∀ contents, SameColumns dataFrames contents → ∀ order order' : DictOrder,
      SameOutcome (mergeChosen order contents chosen) (mergeChosen order' contents chosen)) ↔
    SharedByAll dataFrames (chosen.map Prod.fst) ∨
      InTwoGroups dataFrames (chosen.map Prod.fst)) := by
  constructor
  · intro order order' t t' ht ht'
    exact mergeChosen_columns hloaded ht ht'
  constructor
  · intro hindependent
    by_contra hnot
    obtain ⟨hnot, hone⟩ := not_or.mp hnot
    by_cases hshares : ∀ p ∈ chosen.map Prod.fst, ∀ q ∈ chosen.map Prod.fst, p ≠ q →
        Shares (loadedTable dataFrames p) (loadedTable dataFrames q)
    · unfold SharedByAll at hnot
      push Not at hnot
      obtain ⟨p, hp, q, hq, hpq, name, hnamep, hnameq, r, hr, hnamer⟩ := hnot
      obtain ⟨order, order', hdiffer⟩ := differing_of_not_shared hloaded hnodup hshares hp hq hr hpq
        hnamep hnameq hnamer
      exact hdiffer (hindependent _ (sameColumns_refill _) order order')
    · push Not at hshares
      obtain ⟨p, hp, q, hq, hpq, hnone⟩ := hshares
      obtain ⟨order, order', hdiffer⟩ := differing_of_not_shares hloaded hnodup hone hp hq hpq hnone
      exact hdiffer (hindependent dataFrames rfl order order')
  · intro hcondition contents hsame order order'
    apply sameOutcome_of_shared_or_groups (hsame.loaded hloaded) hnodup
    rw [hsame.conditions.1, hsame.conditions.2]
    exact hcondition

/-! ## Three files -/

/-- Modules and ticks, counts, and modules and uses, by symbol. -/
def overlappingFrames : List (Path × DataFrame ℤ) :=
  [(['a'], recordsFrame ['s'] [['m'], ['t']] (by decide) [[1, 5, 10]]),
    (['b'], recordsFrame ['s'] [['n']] countsFrame.nodup [[2, 7]]),
    (['c'], recordsFrame ['s'] [['m'], ['u']] (by decide) [[2, 5, 3]])]

/-- The same without the modules of the last file. -/
def symbolFrames : List (Path × DataFrame ℤ) :=
  [(['a'], recordsFrame ['s'] [['m'], ['t']] (by decide) [[1, 5, 10]]),
    (['b'], recordsFrame ['s'] [['n']] countsFrame.nodup [[2, 7]]),
    (['c'], recordsFrame ['s'] [['u']] (by decide) [[2, 3]])]

def threeChosen : List (Path × List ColName) :=
  [(['a'], [['t']]), (['b'], [['n']]), (['c'], [['u']])]

def listedOrder : DictOrder :=
  ⟨id, fun paths => List.Perm.refl paths⟩

def rotatedOrder : DictOrder :=
  ⟨(List.rotate · 1), fun paths => paths.rotate_perm 1⟩

theorem mergeChosen_independent_iff_symbols :
    SameOutcome (mergeChosen listedOrder symbolFrames threeChosen)
      (mergeChosen rotatedOrder symbolFrames threeChosen) := by
  have h := mergeChosen_independent_iff symbolFrames threeChosen (by decide) (by
    intro path hpath
    simp only [threeChosen, List.map_cons, List.map_nil, List.mem_cons, List.not_mem_nil,
      or_false] at hpath
    obtain rfl | rfl | rfl := hpath
    · exact ⟨_, rfl⟩
    · exact ⟨_, rfl⟩
    · exact ⟨_, rfl⟩)
  refine h.2.mpr (Or.inl ?_) symbolFrames rfl _ _
  unfold SharedByAll
  decide +kernel

/-- Joined first, the counts and the uses meet in one row; after the modules of the
first file they do not. -/
theorem overlapping_differ :
    ¬ ∀ order order' : DictOrder, SameOutcome (mergeChosen order overlappingFrames threeChosen)
      (mergeChosen order' overlappingFrames threeChosen) := by
  intro h
  have hsame := h listedOrder rotatedOrder
  have hthree : (mergeChosen listedOrder overlappingFrames threeChosen).toOption.map
      (fun t => t.rows.length) = some 3 := by
    decide +kernel
  have htwo : (mergeChosen rotatedOrder overlappingFrames threeChosen).toOption.map
      (fun t => t.rows.length) = some 2 := by
    decide +kernel
  unfold SameOutcome at hsame
  split at hsame
  · simp_all [Except.toOption]
  · rename_i ht ht'
    have hlength := hsame.rows.length_eq
    simp_all [Except.toOption]
  · exact hsame

end CProfiler.Pivot
