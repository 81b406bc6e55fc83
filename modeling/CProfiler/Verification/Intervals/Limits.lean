import CProfiler.Verification.Intervals.Changes

/-! # The recursion limit

What a call returns within some recursion limit it returns within every greater one. Where the
ranges are separated the depth of the tree says how much of the limit is needed. -/

namespace CProfiler.Intervals

open Foundation Model Model.Intervals

variable {α D : Type} [LinearOrder α] [LinearOrder D]

/-! ## Greater limits -/

section Persists

variable {ρ ρ' : Type}

/-- What the first call returns the second one returns, too. -/
def Persists (x y : Except PyError ρ) : Prop := ∀ a, x = .ok a → y = .ok a

variable {x y : Except PyError ρ} {f g : ρ → Except PyError ρ'}

theorem persists_tooDeep : Persists (Node.tooDeep : Except PyError ρ) y := fun _ h => nomatch h

theorem Persists.refl : Persists x x := fun _ h => h

theorem Persists.bind (h : Persists x y) (hfg : ∀ a, Persists (f a) (g a)) :
    Persists (x >>= f) (y >>= g) := by
  intro b hb
  cases x with
  | error e => exact nomatch hb
  | ok a =>
      rw [h a rfl]
      exact hfg a b hb

theorem Persists.ite {x' y' : Except PyError ρ} {c : Prop} [Decidable c] (h : Persists x y)
    (h' : Persists x' y') : Persists (if c then x else x') (if c then y else y') := by
  split_ifs
  · exact h
  · exact h'

theorem Persists.foldlM {ι : Type} {step step' : ρ → ι → Except PyError ρ}
    (h : ∀ a i, Persists (step a i) (step' a i)) (l : List ι) (a : ρ) :
    Persists (l.foldlM step a) (l.foldlM step' a) := by
  induction l generalizing a with
  | nil => exact Persists.refl
  | cons i l ih =>
      rw [List.foldlM_cons, List.foldlM_cons]
      exact (h a i).bind ih

end Persists

/-- Every call within the limit persists one above it. -/
structure Lasting (α D : Type) [LinearOrder α] [LinearOrder D] (n : ℕ) : Prop where
  rotate : ∀ t : Node α D, Persists (Node.rotate n t) (Node.rotate (n + 1) t)
  srotate : ∀ t : Node α D, Persists (Node.srotate n t) (Node.srotate (n + 1) t)
  drotate : ∀ t : Node α D, Persists (Node.drotate n t) (Node.drotate (n + 1) t)
  remove : ∀ (t : Node α D) iv, Persists (Node.remove n t iv) (Node.remove (n + 1) t iv)
  helper : ∀ (t : Node α D) iv raise, Persists (Node.removeIntervalHelper n t iv raise)
    (Node.removeIntervalHelper (n + 1) t iv raise)
  prune : ∀ t : Node α D, Persists (Node.prune n t) (Node.prune (n + 1) t)
  pop : ∀ t : Node α D, Persists (Node.popGreatestChild n t) (Node.popGreatestChild (n + 1) t)
  from_ : ∀ ivs : List (Interval α D),
    Persists (Node.fromIntervals n ivs) (Node.fromIntervals (n + 1) ivs)
  init : ∀ ivs : List (Interval α D),
    Persists (Node.initFromSorted n ivs) (Node.initFromSorted (n + 1) ivs)

variable {n : ℕ}

theorem Lasting.rotate_succ (h : Lasting α D n) (t : Node α D) :
    Persists (Node.rotate (n + 1) t) (Node.rotate (n + 2) t) := by
  cases t with
  | nil => exact Persists.refl
  | node x s l r d b =>
      rw [Node.rotate, Node.rotate]
      generalize (Node.node x s l r d b).refreshBalance = self
      refine Persists.ite Persists.refl ?_
      dsimp only
      cases self.getitem self.rightHeavy with
      | nil => exact Persists.refl
      | node => exact Persists.ite (h.srotate self) (h.drotate self)

theorem Lasting.srotate_succ (h : Lasting α D n) (t : Node α D) :
    Persists (Node.srotate (n + 1) t) (Node.srotate (n + 2) t) := by
  cases t with
  | nil => exact Persists.refl
  | node x s l r d b =>
      rw [Node.srotate, Node.srotate]
      generalize Node.node x s l r d b = self
      dsimp only
      cases self.getitem self.rightHeavy with
      | nil => exact Persists.refl
      | node => exact (h.rotate _).bind fun lower =>
          (Persists.foldlM (fun t iv => h.remove t iv) _ _).bind fun _ => Persists.refl

theorem Lasting.drotate_succ (h : Lasting α D n) (t : Node α D) :
    Persists (Node.drotate (n + 1) t) (Node.drotate (n + 2) t) := by
  rw [Node.drotate, Node.drotate]
  exact (h.srotate _).bind fun _ => h.srotate _

theorem Lasting.remove_succ (h : Lasting α D n) (t : Node α D) (iv : Interval α D) :
    Persists (Node.remove (n + 1) t iv) (Node.remove (n + 2) t iv) := by
  rw [Node.remove, Node.remove]
  exact (h.helper t iv true).bind fun _ => Persists.refl

theorem Lasting.helper_succ (h : Lasting α D n) (t : Node α D) (iv : Interval α D) (raise : Bool) :
    Persists (Node.removeIntervalHelper (n + 1) t iv raise)
      (Node.removeIntervalHelper (n + 2) t iv raise) := by
  cases t with
  | nil => exact Persists.refl
  | node x s l r d b =>
      rw [Node.removeIntervalHelper, Node.removeIntervalHelper]
      refine Persists.ite ?_ ?_
      · refine Persists.ite Persists.refl ?_
        exact Persists.ite Persists.refl ((h.prune _).bind fun _ => Persists.refl)
      · generalize Node.node x s l r d b = self
        dsimp only
        cases self.getitem (self.hitBranch iv) with
        | nil => exact Persists.refl
        | node =>
            refine (h.helper _ _ _).bind fun removed => ?_
            exact Persists.ite Persists.refl ((h.rotate _).bind fun _ => Persists.refl)

theorem Lasting.prune_succ (h : Lasting α D n) (t : Node α D) :
    Persists (Node.prune (n + 1) t) (Node.prune (n + 2) t) := by
  cases t with
  | nil => exact Persists.refl
  | node x s l r d b =>
      rw [Node.prune, Node.prune]
      refine Persists.ite Persists.refl (Persists.ite Persists.refl ?_)
      exact (h.pop _).bind fun _ => h.rotate _

theorem Lasting.pop_succ (h : Lasting α D n) (t : Node α D) :
    Persists (Node.popGreatestChild (n + 1) t) (Node.popGreatestChild (n + 2) t) := by
  cases t with
  | nil => exact Persists.refl
  | node x s l r d b =>
      cases r with
      | nil =>
          rw [Node.popGreatestChild, Node.popGreatestChild]
          refine Persists.refl.bind fun newX => (h.from_ _).bind fun child => ?_
          exact Persists.refl
      | node =>
          rw [Node.popGreatestChild, Node.popGreatestChild]
          · refine (h.pop _).bind fun popped => (h.rotate _).bind fun newSelf => ?_
            exact Persists.ite Persists.refl ((h.prune _).bind fun _ => Persists.refl)
          · intro heq
            cases heq
          · intro heq
            cases heq

theorem Lasting.from_succ (h : Lasting α D n) (ivs : List (Interval α D)) :
    Persists (Node.fromIntervals (n + 1) ivs) (Node.fromIntervals (n + 2) ivs) := by
  rw [Node.fromIntervals, Node.fromIntervals]
  exact Persists.ite Persists.refl (h.init _)

theorem Lasting.init_succ (h : Lasting α D n) (ivs : List (Interval α D)) :
    Persists (Node.initFromSorted (n + 1) ivs) (Node.initFromSorted (n + 2) ivs) := by
  rw [Node.initFromSorted, Node.initFromSorted]
  cases ivs[ivs.length / 2]? with
  | none => exact Persists.refl
  | some centerIv => exact (h.from_ _).bind fun _ => (h.from_ _).bind fun _ => h.rotate _

theorem lasting (n : ℕ) : Lasting α D n := by
  induction n with
  | zero =>
      exact {
        rotate := fun _ => persists_tooDeep
        srotate := fun _ => persists_tooDeep
        drotate := fun _ => persists_tooDeep
        remove := fun _ _ => persists_tooDeep
        helper := fun _ _ _ => persists_tooDeep
        prune := fun _ => persists_tooDeep
        pop := fun _ => persists_tooDeep
        from_ := fun _ => persists_tooDeep
        init := fun _ => persists_tooDeep }
  | succ n ih =>
      exact {
        rotate := ih.rotate_succ
        srotate := ih.srotate_succ
        drotate := ih.drotate_succ
        remove := ih.remove_succ
        helper := ih.helper_succ
        prune := ih.prune_succ
        pop := ih.pop_succ
        from_ := ih.from_succ
        init := ih.init_succ }

section

variable {ρ : Type} {call : ℕ → Except PyError ρ}

theorem persists_le (h : ∀ n, Persists (call n) (call (n + 1))) {n n' : ℕ} (hle : n ≤ n') :
    Persists (call n) (call n') := by
  induction hle with
  | refl => exact Persists.refl
  | step _ ih => exact fun a ha => h _ a (ih a ha)

/-- What is returned within any limit is what is returned within a large one. -/
theorem eq_of_persists (h : ∀ n, Persists (call n) (call (n + 1))) {n n' : ℕ} {a a' : ρ}
    (ha : call n = .ok a) (ha' : call n' = .ok a') : a = a' := by
  have hmax := persists_le h (Nat.le_max_left n n') a ha
  have hmax' := persists_le h (Nat.le_max_right n n') a' ha'
  exact Except.ok.inj (hmax.symm.trans hmax')

end

variable {t t' : Node α D} {limit : ℕ} {x : α} {s : Finset (Interval α D)} {l r : Node α D} {d : ℕ}
  {b : ℤ}

theorem rebuilt_of_rotate (ht : Loose t) (h : Node.rotate limit t = .ok t') : Rebuilt t t' := by
  rcases (specs (entries t)).rotate _ t ht le_rfl le_rfl with ⟨t'', ht'', hrebuilt⟩
  have hsame := eq_of_persists (fun n => (lasting n).rotate t) h ht''
  exact hsame ▸ hrebuilt

theorem rebuilt_of_srotate (ht : Sound t) (hchild : ∃ i, t.getitem i ≠ .nil)
    (h : Node.srotate limit t = .ok t') : Rebuilt t t' := by
  have hspec : SrotateSpec α D (entries t) :=
    srotate_spec (fun k _ => (specs k).rotate) (fun k _ => (specs k).prune)
  rcases hspec _ t ht hchild le_rfl le_rfl with ⟨t'', ht'', hrebuilt⟩
  have hsame := eq_of_persists (fun n => (lasting n).srotate t) h ht''
  exact hsame ▸ hrebuilt

theorem popped_of_pop (ht : Sound t) (hne : t ≠ .nil) {heir : Node α D}
    (h : Node.popGreatestChild limit t = .ok (heir, t')) :
    ∃ y c cl cr cd cb, heir = .node y c cl cr cd cb ∧ Popped t y c t' := by
  rcases (specs (entries t)).pop _ t ht hne le_rfl le_rfl with
    ⟨y, c, cl, cr, cd, cb, t'', ht'', hpopped⟩
  have hsame := eq_of_persists (fun n => (lasting n).pop t) h ht''
  rw [Prod.mk.injEq] at hsame
  exact ⟨y, c, cl, cr, cd, cb, hsame.1, hsame.2 ▸ hpopped⟩

theorem built_of_from {ivs : List (Interval α D)} (hnull : ∀ iv ∈ ivs, iv.begin < iv.end_)
    (h : Node.fromIntervals limit ivs = .ok t') : Built ivs t' := by
  rcases (specs ivs.length).from_ _ ivs hnull le_rfl le_rfl with ⟨t'', ht'', hbuilt⟩
  have hsame := eq_of_persists (fun n => (lasting n).from_ ivs) h ht''
  exact hsame ▸ hbuilt

/-! ## Rotating within the depth -/

omit [LinearOrder D] in
/-- How much deeper the heavy child is. -/
theorem Sound.heavy_depth (ht : Sound t) (hne : t ≠ .nil) :
    (t.getitem t.rightHeavy).depth =
      (t.getitem (!t.rightHeavy)).depth + t.balance.natAbs := by
  cases t with
  | nil => exact absurd rfl hne
  | node x s l r d b =>
      rcases ht with ⟨_, ⟨_, hb⟩, _, _⟩
      by_cases hpos : b > 0
      · simp only [Node.rightHeavy, Node.balance, hpos, decide_true, Node.getitem, if_true,
          Bool.not_true, Bool.false_eq_true, if_false]
        omega
      · simp only [Node.rightHeavy, Node.balance, hpos, decide_false, Node.getitem,
          Bool.false_eq_true, if_false, Bool.not_false, if_true]
        omega

variable (α D) in
/-- Rotating separated ranges whose children are that deep at most. -/
def RotatesWithin (limit h : ℕ) : Prop :=
  ∀ t : Node α D, Loose t → Separated t.allChildren → Ordered t →
    (∀ i, (t.getitem i).depth ≤ h) → ∃ t', Node.rotate limit t = .ok t' ∧ t'.depth ≤ h + 1

theorem srotate_within {h : ℕ} (hrotate : RotatesWithin α D limit h) (ht : Sound t)
    (hsep : Separated t.allChildren) (ho : Ordered t) (hchild : ∃ i, t.getitem i ≠ .nil)
    (hheavy : (t.getitem t.rightHeavy).depth ≤ h + 1)
    (hother : (t.getitem (!t.rightHeavy)).depth ≤ h) :
    ∃ t', Node.srotate (limit + 1) t = .ok t' ∧ t'.depth ≤ h + 2 := by
  have hsavene := ht.heavy_ne_nil hchild
  have hne : t ≠ .nil := by
    rintro rfl
    exact hsavene rfl
  have hside : decide (t.balance > 0) = t.rightHeavy := rfl
  rcases ht.exists_sided hne t.rightHeavy with ⟨x, s, htx, hx, -, hsave, hsother⟩
  rcases hsave.exists_sided hsavene t.rightHeavy with ⟨y, s', hsavey, hy, ⟨hd', -⟩, hfar, hnear⟩
  generalize t.rightHeavy = side at *
  generalize t.getitem (!side) = other at *
  generalize (t.getitem side).getitem side = far at *
  generalize (t.getitem side).getitem (!side) = near at *
  rw [hsavey] at htx
  generalize t.getitem side = save at *
  generalize t.depth = d at *
  generalize t.balance = b at *
  generalize save.depth = d' at *
  generalize save.balance = b' at *
  subst htx
  have hbelow := near_of_rotation hx hy hsep ho
  rcases below_of_rotation hsep ho with ⟨hlowsep, hlowo⟩
  have hloose : Loose (sided side x s near other d b) := loose_sided.mpr ⟨hx, hnear, hsother⟩
  have hdepths : ∀ i, ((sided side x s near other d b).getitem i).depth ≤ h := by
    intro i
    by_cases hi : i = side
    · rw [hi, getitem_sided]
      omega
    · rw [Bool.eq_not.mpr hi, getitem_sided_other]
      exact hother
  rcases hrotate _ hloose hlowsep hlowo hdepths with ⟨lower, hlower, hdepth⟩
  have hrebuilt := rebuilt_of_rotate hloose hlower
  have hempty : lower.sCenter.filter (fun iv => iv.containsPoint y) = ∅ := by
    rw [Finset.filter_eq_empty_iff]
    intro iv hiv hhit
    refine (hbelow iv ?_).not_holds (containsPoint_iff.mp hhit)
    rw [← hrebuilt.content]
    exact sCenter_subset lower hiv
  refine ⟨(sided side y (s' ∪ ∅) far lower d' b').refreshBalance, ?_, ?_⟩
  · rw [srotate_sided hside, hlower]
    simp only [bind, Except.bind, hempty, Finset.sort_empty, List.foldlM_nil]
    rfl
  · rw [refreshBalance_sided, depth_sided]
    omega

theorem RotatesWithin.mono {limit' h : ℕ} (hrotate : RotatesWithin α D limit h)
    (hle : limit ≤ limit') : RotatesWithin α D limit' h := by
  intro t ht hsep ho hdepths
  rcases hrotate t ht hsep ho hdepths with ⟨t', ht', hdepth⟩
  exact ⟨t', persists_le (fun n => (lasting n).rotate t) hle t' ht', hdepth⟩

theorem getitem_subset (t : Node α D) (i : Bool) : (t.getitem i).allChildren ⊆ t.allChildren := by
  cases t with
  | nil => exact Finset.Subset.refl _
  | node x s l r d b =>
      cases i with
      | true => exact Finset.subset_union_right
      | false => exact Finset.subset_union_right.trans Finset.subset_union_left

theorem Ordered.getitem (ho : Ordered t) (i : Bool) : Ordered (t.getitem i) := by
  cases t with
  | nil => trivial
  | node x s l r d b =>
      cases i with
      | true => exact ho.2.2.2
      | false => exact ho.2.2.1

omit [LinearOrder α] [LinearOrder D] in
theorem getitem_setitem (hne : t ≠ .nil) (i : Bool) (c : Node α D) :
    (t.setitem i c).refreshBalance.getitem i = c ∧
      (t.setitem i c).refreshBalance.getitem (!i) = t.getitem (!i) := by
  cases t with
  | nil => exact absurd rfl hne
  | node x s l r d b =>
      cases i with
      | true => exact ⟨rfl, rfl⟩
      | false => exact ⟨rfl, rfl⟩

omit [LinearOrder D] in
theorem Sound.getitem (ht : Sound t) (i : Bool) : Sound (t.getitem i) := by
  cases t with
  | nil => trivial
  | node x s l r d b =>
      cases i with
      | true => exact ht.2.2.2
      | false => exact ht.2.2.1

omit [LinearOrder D] in
theorem Sound.getitem_lt (ht : Sound t) (hne : t ≠ .nil) (i : Bool) :
    (t.getitem i).depth < t.depth := by
  cases t with
  | nil => exact absurd rfl hne
  | node x s l r d b =>
      have hd : d = 1 + max l.depth r.depth := ht.2.1.1
      cases i with
      | true =>
          change r.depth < d
          omega
      | false =>
          change l.depth < d
          omega

/-- A double rotation of a node whose heavy child leans inwards. -/
theorem drotate_within {h : ℕ} (hrotate : RotatesWithin α D limit h)
    (hrotate' : RotatesWithin α D limit (h + 1)) (ht : Sound t) (hsep : Separated t.allChildren)
    (ho : Ordered t) (hheavy : (t.getitem t.rightHeavy).depth ≤ h + 2)
    (hother : (t.getitem (!t.rightHeavy)).depth ≤ h)
    (hlean : (t.getitem t.rightHeavy).balance ≠ 0) :
    ∃ t', Node.drotate (limit + 2) t = .ok t' ∧ t'.depth ≤ h + 3 := by
  have hcne : t.getitem t.rightHeavy ≠ .nil := by
    intro hnil
    rw [hnil] at hlean
    exact hlean rfl
  have hne : t ≠ .nil := by
    rintro rfl
    exact hcne rfl
  have hc := ht.getitem t.rightHeavy
  have hcsep := hsep.subset (getitem_subset t t.rightHeavy)
  have hcheavy := hc.heavy_depth hcne
  have hclt := hc.getitem_lt hcne (t.getitem t.rightHeavy).rightHeavy
  rcases srotate_within hrotate hc hcsep (ho.getitem t.rightHeavy) (hc.exists_child hlean)
    (by omega) (by omega) with ⟨child, hchild, hdepth⟩
  have hrebuilt := rebuilt_of_srotate hc (hc.exists_child hlean) hchild
  have hself := hrebuilt.setitem ht hne
  rcases getitem_setitem hne t.rightHeavy child with ⟨hget, hgetother⟩
  rw [Node.drotate]
  simp only [bind, Except.bind, hchild]
  generalize hnew : (t.setitem t.rightHeavy child).refreshBalance = self at *
  have hchildne : child ≠ .nil := hrebuilt.ne_nil (hc.loose hcne)
  have hselfne : self ≠ .nil := by
    rintro rfl
    exact hchildne hget.symm
  have hselfheavy := hself.sound.heavy_depth hselfne
  have hselfsep : Separated self.allChildren := hself.content.symm ▸ hsep
  have hbounds : (self.getitem self.rightHeavy).depth ≤ h + 2 ∧
      (self.getitem (!self.rightHeavy)).depth ≤ h + 1 := by
    by_cases hsame : self.rightHeavy = t.rightHeavy
    · rw [hsame, hget, hgetother]
      exact ⟨hdepth, hother.trans (Nat.le_succ h)⟩
    · rw [Bool.eq_not.mpr hsame, Bool.not_not, hget, hgetother] at hselfheavy ⊢
      omega
  exact srotate_within hrotate' hself.sound hselfsep (hself.ordered hsep ho)
    ⟨t.rightHeavy, hget.symm ▸ hchildne⟩ hbounds.1 hbounds.2

/-- Rotations need three calls for a level. -/
theorem rotates_within (h : ℕ) : RotatesWithin α D (3 * h + 4) h := by
  induction h using Nat.strong_induction_on with
  | _ h ih =>
      intro t hloose hsep ho hdepths
      cases t with
      | nil => exact hloose.elim
      | node x s l r d b =>
          by_cases hb : ((r.depth : ℤ) - l.depth).natAbs < 2
          · refine ⟨_, rotate_of_lt hb (3 * h + 3), ?_⟩
            have hl := hdepths false
            have hr := hdepths true
            change 1 + max l.depth r.depth ≤ h + 1
            change l.depth ≤ h at hl
            change r.depth ≤ h at hr
            omega
          · have hrefresh := Rebuilt.refresh hloose
            have hsame : ∀ i, (Node.node x s l r d b).refreshBalance.getitem i =
                (Node.node x s l r d b).getitem i := fun _ => rfl
            have hbalance : (Node.node x s l r d b).refreshBalance.balance =
                (r.depth : ℤ) - l.depth := rfl
            have hne := hrefresh.ne_nil hloose
            generalize ht : (Node.node x s l r d b).refreshBalance = t at *
            have hsep' : Separated t.allChildren := hrefresh.content.symm ▸ hsep
            have ho' := hrefresh.ordered hsep ho
            have hheavy := hrefresh.sound.heavy_depth hne
            have hle := hdepths t.rightHeavy
            rw [← hsame] at hle
            have hchild : ∃ i, t.getitem i ≠ .nil :=
              hrefresh.sound.exists_child (by rw [hbalance]; omega)
            rw [rotate_of_ge hb ht (hrefresh.sound.heavy_ne_nil hchild)]
            obtain ⟨k, hk⟩ : ∃ k, (t.getitem t.rightHeavy).depth = k + 2 :=
              ⟨(t.getitem t.rightHeavy).depth - 2, by omega⟩
            split_ifs with hlean
            · have hrotate := (ih (k + 1) (by omega)).mono
                (show 3 * (k + 1) + 4 ≤ 3 * h + 2 by omega)
              rcases srotate_within hrotate hrefresh.sound hsep' ho' hchild (by omega) (by omega)
                with ⟨t', ht', hdepth⟩
              exact ⟨t', ht', by omega⟩
            · rw [not_or] at hlean
              have hrotate := (ih k (by omega)).mono (show 3 * k + 4 ≤ 3 * h + 1 by omega)
              have hrotate' := (ih (k + 1) (by omega)).mono
                (show 3 * (k + 1) + 4 ≤ 3 * h + 1 by omega)
              rcases drotate_within hrotate hrotate' hrefresh.sound hsep' ho' hk.le (by omega)
                hlean.2 with ⟨t', ht', hdepth⟩
              exact ⟨t', ht', by omega⟩

theorem rotate_within (ht : Loose (.node x s l r d b))
    (hsep : Separated (Node.node x s l r d b).allChildren) (ho : Ordered (.node x s l r d b))
    {h : ℕ} (hl : l.depth ≤ h) (hr : r.depth ≤ h) (hlimit : 3 * h + 4 ≤ limit) :
    ∃ t', Node.rotate limit (.node x s l r d b) = .ok t' ∧ t'.depth ≤ h + 1 := by
  refine (rotates_within h).mono hlimit _ ht hsep ho fun i => ?_
  cases i with
  | true => exact hr
  | false => exact hl

/-! ## Pruning within the depth -/

/-- A tree of intervals with one range is a single node. -/
theorem from_same {ivs : List (Interval α D)} (hne : ivs ≠ []) {p : α}
    (hp : ∀ iv ∈ ivs, ends.Holds iv p) (hsep : Separated ivs.toFinset) (hlimit : 3 ≤ limit) :
    ∃ y c cl cr cd cb, Node.fromIntervals limit ivs = .ok (.node y c cl cr cd cb) := by
  obtain ⟨limit, rfl⟩ : ∃ k, limit = k + 3 := ⟨limit - 3, by omega⟩
  have hperm := List.mergeSort_perm ivs (fun a b => decide (a ≤ b))
  rw [Node.fromIntervals, if_neg hne, Node.initFromSorted]
  generalize ivs.mergeSort (fun a b => decide (a ≤ b)) = sorted at hperm
  have hsortedne : sorted ≠ [] := by
    intro hnil
    rw [hnil] at hperm
    exact hne hperm.nil_eq.symm
  have hlen : sorted.length / 2 < sorted.length :=
    Nat.div_lt_self (List.length_pos_iff.mpr hsortedne) Nat.one_lt_two
  have hmem : sorted[sorted.length / 2] ∈ sorted := List.getElem_mem hlen
  rw [List.getElem?_eq_getElem hlen]
  generalize sorted[sorted.length / 2] = iv at hmem
  have hsame : ∀ k ∈ sorted, k.begin = iv.begin ∧ k.end_ = iv.end_ := by
    intro k hk
    have hkmem := hperm.mem_iff.mp hk
    have hivmem := hperm.mem_iff.mp hmem
    exact (hsep k (List.mem_toFinset.mpr hkmem) iv (List.mem_toFinset.mpr hivmem)).eq_of_holds
      (hp k hkmem) (hp iv hivmem)
  have hproper : iv.begin < iv.end_ := (hp iv (hperm.mem_iff.mp hmem)).lt
  have hleft : sorted.filter (fun k => decide (k.end_ ≤ iv.begin)) = [] := by
    rw [List.filter_eq_nil_iff]
    intro k hk
    rw [decide_eq_true_eq, (hsame k hk).2, not_le]
    exact hproper
  have hright : sorted.filter (fun k => !decide (k.end_ ≤ iv.begin) && decide (k.begin > iv.begin)) =
      [] := by
    rw [List.filter_eq_nil_iff]
    intro k hk hboth
    rw [Bool.and_eq_true, decide_eq_true_eq, (hsame k hk).1] at hboth
    exact lt_irrefl _ hboth.2
  simp only [hleft, hright]
  exact ⟨_, _, _, _, _, _, rfl⟩

/-- Popping takes three calls for a level. -/
theorem pop_within (ht : Sound t) (hne : t ≠ .nil) (hsep : Separated t.allChildren)
    (ho : Ordered t) {h : ℕ} (hdepth : t.depth ≤ h) (hlimit : 3 * h + 4 ≤ limit) :
    ∃ heir t', Node.popGreatestChild limit t = .ok (heir, t') ∧ t'.depth ≤ t.depth := by
  induction t generalizing h limit with
  | nil => exact absurd rfl hne
  | node x s l r d b _ ihr =>
      rcases ht with ⟨hx, ⟨hd, _⟩, hl, hsr⟩
      obtain ⟨limit, rfl⟩ : ∃ k, limit = k + 1 := ⟨limit - 1, by omega⟩
      change d ≤ h at hdepth
      by_cases hr : r = .nil
      · subst hr
        rcases newXCenter_spec hx with ⟨newX, hnewX, _, top, htop, htopX⟩
        have hin : ∀ iv, iv ∈ (s.filter (fun iv => iv.containsPoint newX)).sort (· ≤ ·) ↔
            iv ∈ s ∧ ends.Holds iv newX := by
          intro iv
          rw [Finset.mem_sort, Finset.mem_filter, containsPoint_iff]
        have hlistsep : Separated
            ((s.filter (fun iv => iv.containsPoint newX)).sort (· ≤ ·)).toFinset := by
          refine hsep.subset fun iv hiv => sCenter_subset _ ?_
          exact ((hin iv).mp (List.mem_toFinset.mp hiv)).1
        have hnonempty := List.ne_nil_of_mem ((hin top).mpr ⟨htop, htopX⟩)
        rcases from_same hnonempty (fun iv hiv => ((hin iv).mp hiv).2) hlistsep
          (show 3 ≤ limit by omega) with ⟨y, c, cl, cr, cd, cb, hchild⟩
        have hldepth : l.depth ≤ d := by omega
        by_cases hrest : (s \ c).Nonempty
        · refine ⟨.node newX c cl cr cd cb, .node x (s \ c) l .nil d b, ?_, le_rfl⟩
          rw [Node.popGreatestChild, hnewX]
          simp only [bind, Except.bind, hchild]
          exact if_pos hrest
        · refine ⟨.node newX c cl cr cd cb, l, ?_, hldepth⟩
          rw [Node.popGreatestChild, hnewX]
          simp only [bind, Except.bind, hchild]
          exact if_neg hrest
      · have hsubr : r.allChildren ⊆ (Node.node x s l r d b).allChildren :=
          Finset.subset_union_right
        rcases ihr hsr hr (hsep.subset hsubr) ho.2.2.2 (h := h - 1) (by omega)
          (show 3 * (h - 1) + 4 ≤ limit by omega) with ⟨heir, r', hr', hdepth'⟩
        rcases popped_of_pop hsr hr hr' with ⟨y, c, cl, cr, cd, cb, rfl, hpopped⟩
        rcases hpopped.remains hsep ho with ⟨hsep', ho'⟩
        have hloose : Loose (.node x s l r' (1 + max l.depth r'.depth)
            ((r'.depth : ℤ) - l.depth)) := ⟨hx, hl, hpopped.sound⟩
        rcases rotate_within hloose hsep' ho' (le_max_left _ _) (hdepth'.trans (le_max_right _ _))
          (show 3 * max l.depth r.depth + 4 ≤ limit by omega) with
          ⟨newSelf, hnewSelf, hnewdepth⟩
        have hrebuilt : Rebuilt (.node x s l r' d b) newSelf :=
          (Rebuilt.refresh (t := .node x s l r' d b) hloose).trans
            (rebuilt_of_rotate hloose hnewSelf)
        have hempty := ((hpopped.moved hx hrebuilt).stay hsep ho).1
        rw [popGreatestChild_node hr hr' hnewSelf]
        cases newSelf with
        | nil => exact absurd rfl (hrebuilt.ne_nil hloose)
        | node x' s' l' r'' d' b' =>
            simp only [hempty, Finset.sdiff_empty]
            refine ⟨_, _, if_pos hrebuilt.sound.1.nonempty, ?_⟩
            change d' ≤ d
            change d' ≤ max l.depth r.depth + 1 at hnewdepth
            omega

/-- Pruning takes one more. -/
theorem prune_within (hl : Sound l) (hr : Sound r)
    (hsep : Separated (l.allChildren ∪ r.allChildren)) (ho : Ordered (.node x ∅ l r 0 0)) {h : ℕ}
    (hdepthl : l.depth ≤ h) (hdepthr : r.depth ≤ h) (hlimit : 3 * h + 5 ≤ limit) :
    ∃ t', Node.prune limit (.node x ∅ l r d b) = .ok t' ∧ t'.depth ≤ h + 1 := by
  obtain ⟨limit, rfl⟩ : ∃ k, limit = k + 1 := ⟨limit - 1, by omega⟩
  rw [Node.prune]
  cases hlnil : l.isNone with
  | true => exact ⟨r, if_pos rfl, hdepthr.trans (Nat.le_succ h)⟩
  | false =>
      rw [if_neg Bool.false_ne_true]
      cases hrnil : r.isNone with
      | true => exact ⟨l, if_pos rfl, hdepthl.trans (Nat.le_succ h)⟩
      | false =>
          have hlne : l ≠ .nil := fun h => by simp [h, Node.isNone] at hlnil
          rcases pop_within hl hlne (hsep.subset Finset.subset_union_left) ho.2.2.1 hdepthl
            (show 3 * h + 4 ≤ limit by omega) with ⟨heir, l', hl', hdepth'⟩
          rcases popped_of_pop hl hlne hl' with ⟨y, c, cl, cr, cd, cb, rfl, hpopped⟩
          rcases hpopped.heir (d := 1 + max l'.depth r.depth) (b := (r.depth : ℤ) - l'.depth)
            hsep ho with ⟨hsep', ho'⟩
          rcases rotate_within ⟨hpopped.center, hpopped.sound, hr⟩ hsep' ho'
            (hdepth'.trans hdepthl) hdepthr (show 3 * h + 4 ≤ limit by omega) with ⟨t', ht', hdepth⟩
          refine ⟨t', ?_, hdepth⟩
          rw [if_neg Bool.false_ne_true]
          simp only [bind, Except.bind, hl']
          exact ht'

/-! ## Changes within the depth -/

section

variable {side : Bool} {outer inner : Node α D} {iv : Interval α D}

theorem rotate_sided_within (ht : Loose (sided side x s outer inner d b))
    (hsep : Separated (sided side x s outer inner d b).allChildren)
    (ho : Ordered (sided side x s outer inner d b)) {h : ℕ} (houter : outer.depth ≤ h)
    (hinner : inner.depth ≤ h) (hlimit : 3 * h + 4 ≤ limit) :
    ∃ t', Node.rotate limit (sided side x s outer inner d b) = .ok t' ∧ t'.depth ≤ h + 1 := by
  cases side with
  | true => exact rotate_within ht hsep ho hinner houter hlimit
  | false => exact rotate_within ht hsep ho houter hinner hlimit

theorem removed_of_helper (ht : Sound t) (ho : Ordered t) (hsep : Separated t.allChildren)
    (hmem : iv ∈ t.allChildren) {raise done : Bool}
    (h : Node.removeIntervalHelper limit t iv raise = .ok (t', done)) : Removed t iv t' done := by
  rcases removeIntervalHelper_spec ht ho hsep hmem le_rfl le_rfl raise with
    ⟨t'', done', ht'', hremoved⟩
  have hsame := eq_of_persists (fun n => (lasting n).helper t iv raise) h ht''
  rw [Prod.mk.injEq] at hsame
  rw [hsame.1, hsame.2]
  exact hremoved

/-- One step down. -/
theorem remove_step_within (ht : Sound (sided side x s outer inner d b))
    (ho : Ordered (sided side x s outer inner d b))
    (hsep : Separated (sided side x s outer inner d b).allChildren) (hmiss : ¬ ends.Holds iv x)
    (hside : decide (x < iv.begin) = side)
    (hmem : iv ∈ (sided side x s outer inner d b).allChildren) {h : ℕ} (hdepth : d ≤ h + 1)
    (hlimit : 3 * h + 4 ≤ limit) (raise : Bool)
    (ih : iv ∈ outer.allChildren → ∃ t' done,
      Node.removeIntervalHelper limit outer iv raise = .ok (t', done) ∧ t'.depth ≤ outer.depth) :
    ∃ t' done, Node.removeIntervalHelper (limit + 1) (sided side x s outer inner d b) iv raise =
        .ok (t', done) ∧ t'.depth ≤ d := by
  have hbeyond := beyond_of_miss hmiss hside
  rcases mem_outer ht ho hmiss hbeyond hmem with ⟨hs, houtermem, hinnermem⟩
  have hne : outer ≠ .nil := by
    rintro rfl
    exact Finset.notMem_empty iv houtermem
  rcases sound_sided.mp ht with ⟨hx, ⟨hd, hb⟩, houter, hinner⟩
  rcases ih houtermem with ⟨child, done, hchild, hle⟩
  have hosep := hsep
  have hoo := ho
  rw [ordered_sided] at hoo
  rw [allChildren_sided] at hosep
  have hremoved := removed_of_helper houter hoo.2.2.1
    (hosep.subset (Finset.subset_union_left.trans Finset.subset_union_right)) houtermem hchild
  have hlost := hremoved.child hs hinnermem ho hsep
  rw [removeIntervalHelper_sided hmiss hside hne, hchild]
  cases done with
  | true => exact ⟨_, true, rfl, depth_sided.le⟩
  | false =>
      have hloose : Loose (sided side x s child inner d b) :=
        loose_sided.mpr ⟨hx, hremoved.sound, hinner⟩
      rcases rotate_sided_within hloose hlost.separated hlost.ordered
        (hle.trans (le_max_left _ _)) (le_max_right _ _)
        (show 3 * max outer.depth inner.depth + 4 ≤ limit by omega) with ⟨t', ht', hdepth'⟩
      refine ⟨t', false, ?_, by omega⟩
      simp only [bind, Except.bind, ht']
      rfl

/-- Removing takes three calls for a level. -/
theorem removeIntervalHelper_within (ht : Sound t) (ho : Ordered t)
    (hsep : Separated t.allChildren) (hmem : iv ∈ t.allChildren) {h : ℕ} (hdepth : t.depth ≤ h)
    (hlimit : 3 * h + 4 ≤ limit) (raise : Bool) :
    ∃ t' done, Node.removeIntervalHelper limit t iv raise = .ok (t', done) ∧
      t'.depth ≤ t.depth := by
  induction t generalizing h limit with
  | nil => exact absurd hmem (Finset.notMem_empty iv)
  | node x s l r d b ihl ihr =>
      have hd : d = 1 + max l.depth r.depth := ht.2.1.1
      change d ≤ h at hdepth
      change ∃ (t' : Node α D) (done : Bool), _ ∧ t'.depth ≤ d
      obtain ⟨limit, rfl⟩ : ∃ k, limit = k + 1 := ⟨limit - 1, by omega⟩
      have hsubl : l.allChildren ⊆ (Node.node x s l r d b).allChildren :=
        Finset.subset_union_right.trans Finset.subset_union_left
      have hsubr : r.allChildren ⊆ (Node.node x s l r d b).allChildren := Finset.subset_union_right
      by_cases hhit : ends.Holds iv x
      · have hcenter : (Node.node x s l r d b).centerHit iv = true := containsPoint_iff.mpr hhit
        have hs := (mem_center_of_holds ho hhit hmem).1
        rw [Node.removeIntervalHelper]
        simp only [hcenter, if_true, hs, not_true_eq_false, if_false]
        by_cases hrest : (s.erase iv).Nonempty
        · rw [if_pos hrest]
          exact ⟨_, true, rfl, le_rfl⟩
        · have hempty : s.erase iv = ∅ := Finset.not_nonempty_iff_eq_empty.mp hrest
          rcases prune_within (x := x) (d := d) (b := b) ht.2.2.1 ht.2.2.2
            (hsep.subset (Finset.union_subset hsubl hsubr)) ho (le_max_left _ _) (le_max_right _ _)
            (show 3 * max l.depth r.depth + 5 ≤ limit by omega) with ⟨t', ht', hdepth'⟩
          rw [if_neg hrest, hempty, Node.setCenter, ht']
          exact ⟨t', false, rfl, by omega⟩
      · cases hside : decide (x < iv.begin) with
        | true =>
            have hsided : Sound (sided true x s r l d b) := ht
            exact remove_step_within (h := h - 1) hsided ho hsep hhit hside hmem
              (by omega) (by omega) raise (fun hr => ihr ht.2.2.2 ho.2.2.2 (hsep.subset hsubr) hr
                (h := h - 1) (by omega) (by omega))
        | false =>
            have hsided : Sound (sided false x s l r d b) := ht
            exact remove_step_within (h := h - 1) hsided ho hsep hhit hside hmem
              (by omega) (by omega) raise (fun hl => ihl ht.2.2.1 ho.2.2.1 (hsep.subset hsubl) hl
                (h := h - 1) (by omega) (by omega))

theorem add_persists (n : ℕ) (t : Node α D) (iv : Interval α D) :
    Persists (Node.add n t iv) (Node.add (n + 1) t iv) := by
  induction n generalizing t with
  | zero =>
      cases t with
      | nil => exact persists_tooDeep
      | node => exact persists_tooDeep
  | succ n ih =>
      cases t with
      | nil => exact Persists.refl
      | node x s l r d b =>
          rw [Node.add, Node.add]
          refine Persists.ite Persists.refl ?_
          generalize Node.node x s l r d b = self
          dsimp only
          cases self.getitem (self.hitBranch iv) with
          | nil => exact Persists.refl
          | node => exact (ih _).bind fun _ => (lasting n).rotate _

theorem inserted_of_add (ht : Sound t) (hne : t ≠ .nil) (hnull : iv.begin < iv.end_)
    (h : Node.add limit t iv = .ok t') : Inserted t iv t' := by
  rcases add_spec ht hne hnull le_rfl le_rfl with ⟨t'', ht'', hinserted⟩
  have hsame := eq_of_persists (fun n => add_persists n t iv) h ht''
  exact hsame ▸ hinserted

/-- One step down. -/
theorem add_step_within (ht : Sound (sided side x s outer inner d b))
    (ho : Ordered (sided side x s outer inner d b))
    (hsep : Separated (insert iv (sided side x s outer inner d b).allChildren))
    (hmiss : ¬ ends.Holds iv x) (hside : decide (x < iv.begin) = side)
    (hnull : iv.begin < iv.end_) {h : ℕ} (hdepth : d ≤ h) (hlimit : 3 * h + 4 ≤ limit)
    (ih : outer ≠ .nil → ∃ t', Node.add limit outer iv = .ok t' ∧ t'.depth ≤ outer.depth + 1) :
    ∃ t', Node.add (limit + 1) (sided side x s outer inner d b) iv = .ok t' ∧
      t'.depth ≤ d + 1 := by
  have hbeyond := beyond_of_miss hmiss hside
  rcases sound_sided.mp ht with ⟨hx, ⟨hd, -⟩, houter, hinner⟩
  rw [add_sided hmiss hside]
  cases hnil : outer.isNone with
  | true =>
      rw [if_pos rfl]
      have hone : (Node.fromInterval iv).depth = 1 := rfl
      refine ⟨_, rfl, ?_⟩
      rw [refreshBalance_sided, depth_sided, hone]
      omega
  | false =>
      have hne : outer ≠ .nil := fun h => by simp [h, Node.isNone] at hnil
      rw [if_neg Bool.false_ne_true]
      rcases ih hne with ⟨child, hchild, hle⟩
      have hinserted := inserted_of_add houter hne hnull hchild
      have hloose : Loose (sided side x s child inner d b) :=
        loose_sided.mpr ⟨hx, hinserted.sound, hinner⟩
      rcases hinserted.grown hbeyond hsep ho with ⟨hsep', ho', -⟩
      have houterlt : outer.depth < d := by omega
      rcases rotate_sided_within hloose hsep' ho' (h := d) (by omega) (by omega)
        (show 3 * d + 4 ≤ limit by omega) with ⟨t', ht', hdepth'⟩
      refine ⟨t', ?_, hdepth'⟩
      simp only [bind, Except.bind, hchild]
      exact ht'

/-- Adding takes three calls for a level. -/
theorem add_within (ht : Sound t) (hne : t ≠ .nil) (hnull : iv.begin < iv.end_) (ho : Ordered t)
    (hsep : Separated (insert iv t.allChildren)) {h : ℕ} (hdepth : t.depth ≤ h)
    (hlimit : 3 * h + 5 ≤ limit) : ∃ t', Node.add limit t iv = .ok t' ∧ t'.depth ≤ t.depth + 1 := by
  induction t generalizing h limit with
  | nil => exact absurd rfl hne
  | node x s l r d b ihl ihr =>
      have hd : d = 1 + max l.depth r.depth := ht.2.1.1
      change d ≤ h at hdepth
      obtain ⟨limit, rfl⟩ : ∃ k, limit = k + 1 := ⟨limit - 1, by omega⟩
      have hsubl : insert iv l.allChildren ⊆ insert iv (Node.node x s l r d b).allChildren :=
        Finset.insert_subset_insert iv (Finset.subset_union_right.trans Finset.subset_union_left)
      have hsubr : insert iv r.allChildren ⊆ insert iv (Node.node x s l r d b).allChildren :=
        Finset.insert_subset_insert iv Finset.subset_union_right
      by_cases hhit : ends.Holds iv x
      · have hcenter : (Node.node x s l r d b).centerHit iv = true := containsPoint_iff.mpr hhit
        refine ⟨.node x (insert iv s) l r d b, ?_, Nat.le_succ _⟩
        rw [Node.add]
        exact if_pos hcenter
      · cases hside : decide (x < iv.begin) with
        | true =>
            have hsided : Sound (sided true x s r l d b) := ht
            exact add_step_within (h := h) hsided ho hsep hhit hside hnull hdepth
              (by omega) (fun hr => ihr ht.2.2.2 hr ho.2.2.2 (hsep.subset hsubr) (h := h - 1)
                (by omega) (by omega))
        | false =>
            have hsided : Sound (sided false x s l r d b) := ht
            exact add_step_within (h := h) hsided ho hsep hhit hside hnull hdepth
              (by omega) (fun hl => ihl ht.2.2.1 hl ho.2.2.1 (hsep.subset hsubl) (h := h - 1)
                (by omega) (by omega))

end

end CProfiler.Intervals
