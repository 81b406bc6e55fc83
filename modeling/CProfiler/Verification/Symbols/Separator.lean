import CProfiler.Foundation.Brackets
import CProfiler.Model.FnCollector
import Mathlib.Algebra.BigOperators.Intervals
import Mathlib.Algebra.Order.Group.Int
import Mathlib.Order.Interval.Finset.Nat

/-! The scan of `extractClassname`, told by the depth of each position: the angle
brackets that count are those which are neither part of an operator name nor follow one. -/

namespace CProfiler.Verification

open CProfiler.Model CProfiler.Foundation

/-! ## Depth of a position -/

/-- How many symbols follow `operator` right before position `i`. -/
def operatorAt (name : PyStr) (i : ℕ) : ℕ :=
  let chopped := name.take i
  if endsWithOperator chopped ['>', '>'] ∨ endsWithOperator chopped ['<', '<'] then 2
  else if endsWithOperator chopped ['>'] ∨ endsWithOperator chopped ['<'] then 1
  else 0

/-- Position `i` is among the symbols of an operator name or right after them. The name
at the very end of the text is not recognised. -/
def Ignored (name : PyStr) (i : ℕ) : Prop :=
  ∃ j < name.length, operatorAt name j ≠ 0 ∧ i ≤ j ∧ j ≤ i + operatorAt name j

instance (name : PyStr) (i : ℕ) : Decidable (Ignored name i) :=
  inferInstanceAs (Decidable (∃ j < name.length, _))

def angle (name : PyStr) (i : ℕ) : ℤ :=
  if name[i]? = some '>' then 1 else if name[i]? = some '<' then -1 else 0

def weight (name : PyStr) (i : ℕ) : ℤ := if Ignored name i then 0 else angle name i

/-- Counted brackets to the right of position `i`, closing minus opening. -/
def level (name : PyStr) (i : ℕ) : ℤ := ∑ j ∈ Finset.Ico (i + 1) name.length, weight name j

/-- Counted brackets of the whole text, closing minus opening. -/
def total (name : PyStr) : ℤ := ∑ j ∈ Finset.Ico 0 name.length, weight name j

/-- No colon has level `z`. -/
def NoColon (name : PyStr) (z : ℤ) : Prop := ∀ i, name[i]? = some ':' → level name i ≠ z

/-- The last colon whose level is `z`. -/
structure LastColon (name : PyStr) (z : ℤ) (p : ℕ) : Prop where
  colon : name[p]? = some ':'
  level_eq : level name p = z
  last : ∀ i, p < i → name[i]? = some ':' → level name i ≠ z

theorem LastColon.lt {name : PyStr} {z : ℤ} {p : ℕ} (h : LastColon name z p) :
    p < name.length := (List.getElem?_eq_some_iff.mp h.colon).choose

theorem LastColon.unique {name : PyStr} {z : ℤ} {p q : ℕ} (hp : LastColon name z p)
    (hq : LastColon name z q) : p = q := by
  rcases Nat.lt_trichotomy p q with hlt | heq | hgt
  · exact absurd hq.level_eq (hp.last q hlt hq.colon)
  · exact heq
  · exact absurd hp.level_eq (hq.last p hgt hp.colon)

theorem LastColon.not_noColon {name : PyStr} {z : ℤ} {p : ℕ} (h : LastColon name z p) :
    ¬ NoColon name z := fun hno => hno p h.colon h.level_eq

/-- The colon that decides: the last one of level zero, or else, since the scan goes round
the text a second time with the depth it has reached, the last one of the opposite of the
total. -/
def Chosen (name : PyStr) (p : ℕ) : Prop :=
  LastColon name 0 p ∨ NoColon name 0 ∧ LastColon name (-total name) p

theorem Chosen.lt {name : PyStr} {p : ℕ} (h : Chosen name p) : p < name.length := by
  rcases h with h | ⟨-, h⟩ <;> exact h.lt

theorem Chosen.colon {name : PyStr} {p : ℕ} (h : Chosen name p) : name[p]? = some ':' := by
  rcases h with h | ⟨-, h⟩ <;> exact h.colon

theorem Chosen.unique {name : PyStr} {p q : ℕ} (hp : Chosen name p) (hq : Chosen name q) :
    p = q := by
  rcases hp with hp | ⟨hnop, hp⟩ <;> rcases hq with hq | ⟨hnoq, hq⟩
  · exact hp.unique hq
  · exact absurd hnoq hp.not_noColon
  · exact absurd hnop hq.not_noColon
  · exact hp.unique hq

theorem level_step (name : PyStr) {i : ℕ} (h : i + 1 < name.length) :
    level name i = weight name (i + 1) + level name (i + 1) :=
  Finset.sum_eq_sum_Ico_succ_bot h _

theorem total_eq (name : PyStr) (h : 0 < name.length) :
    total name = weight name 0 + level name 0 :=
  Finset.sum_eq_sum_Ico_succ_bot h _

theorem level_last (name : PyStr) : level name (name.length - 1) = 0 := by
  rw [level, Finset.Ico_eq_empty (by omega), Finset.sum_empty]

/-- Positions without counted brackets leave the level as it is. -/
theorem level_skip (name : PyStr) {m n : ℕ} (hmn : m ≤ n) (hn : n < name.length)
    (hzero : ∀ i, m < i → i ≤ n → weight name i = 0) : level name m = level name n := by
  induction n, hmn using Nat.le_induction with
  | base => rfl
  | succ n hmn ih =>
      rw [ih (by omega) (fun i hi hin => hzero i hi (by omega)), level_step name hn,
        hzero (n + 1) (by omega) (le_refl _), zero_add]

/-! ## Operator names -/

/-- The characters of a recognised operator name. -/
theorem operatorAt_spec (name : PyStr) (i : ℕ) :
    operatorAt name i = 0 ∨
      ∃ c : Char, (c = '<' ∨ c = '>') ∧ (operatorAt name i = 1 ∨ operatorAt name i = 2) ∧
        ['o', 'p', 'e', 'r', 'a', 't', 'o', 'r'] ++ List.replicate (operatorAt name i) c
          <:+ name.take i := by
  simp only [operatorAt, endsWithOperator, List.isSuffixOf_iff_suffix]
  split_ifs with h₂ h₁
  · right
    rcases h₂ with h | h
    · exact ⟨'>', by simp, by simp, h⟩
    · exact ⟨'<', by simp, by simp, h⟩
  · right
    rcases h₁ with h | h
    · exact ⟨'>', by simp, by simp, h⟩
    · exact ⟨'<', by simp, by simp, h⟩
  · exact .inl rfl

/-- A recognised operator name, character by character. -/
theorem operatorAt_chars {name : PyStr} {i : ℕ} (hne : operatorAt name i ≠ 0)
    (hi : i ≤ name.length) :
    ∃ c : Char, (c = '<' ∨ c = '>') ∧ (operatorAt name i = 1 ∨ operatorAt name i = 2) ∧
      8 + operatorAt name i ≤ i ∧
      ∀ d, d < 8 + operatorAt name i → name[i - (8 + operatorAt name i) + d]? =
        (['o', 'p', 'e', 'r', 'a', 't', 'o', 'r'] ++ List.replicate (operatorAt name i) c)[d]? := by
  obtain h | ⟨c, hc, hk, pre, hpre⟩ := operatorAt_spec name i
  · exact absurd h hne
  · have hlen : pre.length + (8 + operatorAt name i) = i := by
      have := congrArg List.length hpre
      simp only [List.length_append, List.length_cons, List.length_nil, List.length_replicate,
        List.length_take] at this
      omega
    refine ⟨c, hc, hk, by omega, fun d hd => ?_⟩
    have hd' : i - (8 + operatorAt name i) + d = pre.length + d := by omega
    have htake : (name.take i)[pre.length + d]? = name[pre.length + d]? :=
      List.getElem?_take_of_lt (by omega)
    rw [hd', ← htake, ← hpre, List.getElem?_append_right (by omega)]
    congr 1
    omega

theorem letters_of_operator :
    ∀ c ∈ ['o', 'p', 'e', 'r', 'a', 't', 'o', 'r'], c ∈ ['o', 'p', 'e', 'r', 'a', 't'] := by
  simp

theorem operatorAt_letter {name : PyStr} {n i : ℕ} (hne : operatorAt name n ≠ 0)
    (hn : n ≤ name.length) (hlo : n - (8 + operatorAt name n) ≤ i)
    (hhi : i < n - operatorAt name n) :
    ∃ c ∈ ['o', 'p', 'e', 'r', 'a', 't'], name[i]? = some c := by
  obtain ⟨c, -, hk, hle, hchars⟩ := operatorAt_chars hne hn
  have hi := hchars (i - (n - (8 + operatorAt name n))) (by omega)
  rw [show n - (8 + operatorAt name n) + (i - (n - (8 + operatorAt name n))) = i by omega] at hi
  generalize hd : i - (n - (8 + operatorAt name n)) = d at hi
  have hlt : d < 8 := by omega
  rw [List.getElem?_append_left (by simpa using hlt)] at hi
  have hget : name[i]? = some (['o', 'p', 'e', 'r', 'a', 't', 'o', 'r'].get ⟨d, hlt⟩) :=
    hi.trans (List.getElem?_eq_getElem hlt)
  exact ⟨_, letters_of_operator _ (List.get_mem _ _), hget⟩

theorem operatorAt_symbol {name : PyStr} {n i : ℕ} (hne : operatorAt name n ≠ 0)
    (hn : n ≤ name.length) (hlo : n - operatorAt name n ≤ i) (hhi : i < n) :
    name[i]? = some '<' ∨ name[i]? = some '>' := by
  obtain ⟨c, hc, hk, hle, hchars⟩ := operatorAt_chars hne hn
  have hi := hchars (i - (n - (8 + operatorAt name n))) (by omega)
  rw [show n - (8 + operatorAt name n) + (i - (n - (8 + operatorAt name n))) = i by omega,
    List.getElem?_append_right (by simp; omega), List.getElem?_replicate_of_lt (by simp; omega)]
    at hi
  rcases hc with rfl | rfl
  · exact .inl hi
  · exact .inr hi

/-- What a jump over an operator name passes is not counted. -/
theorem weight_jumped {name : PyStr} {n i : ℕ} (hne : operatorAt name n ≠ 0)
    (hn : n < name.length) (hlo : n - (8 + operatorAt name n) < i) (hhi : i ≤ n) :
    weight name i = 0 := by
  rw [weight]
  split_ifs with h
  · rfl
  · have hi : i < n - operatorAt name n := by
      by_contra hge
      exact h ⟨n, hn, hne, hhi, by omega⟩
    obtain ⟨c, hc, hget⟩ := operatorAt_letter hne hn.le hlo.le hi
    rw [angle, hget]
    rcases List.mem_cons.mp hc with rfl | hc
    · rfl
    · simp only [List.mem_cons, List.not_mem_nil, or_false] at hc
      rcases hc with rfl | rfl | rfl | rfl | rfl <;> rfl

theorem not_colon_jumped {name : PyStr} {n i : ℕ} (hne : operatorAt name n ≠ 0)
    (hn : n < name.length) (hlo : n - (8 + operatorAt name n) < i) (hhi : i < n) :
    name[i]? ≠ some ':' := by
  by_cases hi : i < n - operatorAt name n
  · obtain ⟨c, hc, hget⟩ := operatorAt_letter hne hn.le hlo.le hi
    rw [hget]
    rintro ⟨⟩
    simp at hc
  · rcases operatorAt_symbol hne hn.le (by omega) hhi with h | h <;> simp [h]

/-! ## Texts without operator names -/

section Plain

variable {name : PyStr}

theorem weight_plain (h : ¬ ['o', 'p', 'e', 'r', 'a', 't', 'o', 'r'] <:+: name) (i : ℕ) :
    weight name i = angle name i := by
  rw [weight, if_neg]
  rintro ⟨j, -, hne, -⟩
  obtain hzero | ⟨c, -, -, hsuffix⟩ := operatorAt_spec name j
  · exact hne hzero
  · exact h (((List.prefix_append _ _).isInfix.trans hsuffix.isInfix).trans
      (List.take_prefix j name).isInfix)

theorem sum_angle (name : PyStr) {i : ℕ} (hi : i ≤ name.length) :
    ∑ j ∈ Finset.Ico i name.length, angle name j = -net '<' '>' (name.drop i) := by
  induction hi using Nat.decreasingInduction with
  | self => simp
  | of_succ i hi ih =>
      rw [Finset.sum_eq_sum_Ico_succ_bot hi, ih, List.drop_eq_getElem_cons hi, net_cons, angle,
        bracket, List.getElem?_eq_getElem hi, neg_add]
      by_cases hlt : name[i] = '<'
      · simp [hlt]
      · by_cases hgt : name[i] = '>'
        · simp [hgt]
        · simp [hlt, hgt]

theorem level_plain (h : ¬ ['o', 'p', 'e', 'r', 'a', 't', 'o', 'r'] <:+: name) {i : ℕ}
    (hi : i < name.length) : level name i = -net '<' '>' (name.drop (i + 1)) := by
  rw [level, ← sum_angle name hi]
  exact Finset.sum_congr rfl fun j _ => weight_plain h j

theorem total_plain (h : ¬ ['o', 'p', 'e', 'r', 'a', 't', 'o', 'r'] <:+: name) :
    total name = -net '<' '>' name := by
  have hsum := sum_angle name (Nat.zero_le _)
  rw [List.drop_zero] at hsum
  rw [total, ← hsum]
  exact Finset.sum_congr rfl fun j _ => weight_plain h j

end Plain

/-! ## Visited positions -/

/-- The number of positions the scan moves to the left. -/
def hop (name : PyStr) (n : ℕ) : ℕ :=
  if operatorAt name n = 0 then 1 else 8 + operatorAt name n

/-- No operator name to the right jumps over position `n`. -/
def Visited (name : PyStr) (n : ℕ) : Prop :=
  ∀ j < name.length, operatorAt name j ≠ 0 → n < j → n + (8 + operatorAt name j) ≤ j

theorem visited_last (name : PyStr) : Visited name (name.length - 1) :=
  fun _ hj _ hlt => absurd hj (by omega)

/-- Two operator names that overlap are `operator>` and the `operator>>` it begins. -/
theorem operatorAt_overlap {name : PyStr} {n j : ℕ} (hn : n < name.length)
    (hne : operatorAt name n ≠ 0) (hj : operatorAt name j ≠ 0)
    (hlo : n - (8 + operatorAt name n) < j) (hhi : j < n) :
    j - (8 + operatorAt name j) = n - (8 + operatorAt name n) := by
  obtain ⟨c, hc, hk, hle, -⟩ := operatorAt_chars hne hn.le
  obtain ⟨c', hc', hk', hle', -⟩ := operatorAt_chars hj (by omega)
  -- the symbols of the inner name can only be among the symbols of the outer one
  have hsymbol : ∀ i, n - (8 + operatorAt name n) ≤ i → j - operatorAt name j ≤ i → i < j →
      n - operatorAt name n ≤ i := by
    intro i habove hi hij
    by_contra hlt
    obtain ⟨l, hl, hget⟩ := operatorAt_letter hne hn.le habove (by omega)
    rcases operatorAt_symbol hj (by omega) hi hij with h | h <;>
      · rw [h] at hget
        cases hget
        simp at hl
  have hlast := hsymbol (j - 1) (by omega) (by omega) (by omega)
  have hfirst := hsymbol (j - operatorAt name j) (by omega) (le_refl _) (by omega)
  omega

theorem visited_hop {name : PyStr} {n : ℕ} (hn : n < name.length) (hv : Visited name n)
    (hpos : hop name n ≤ n) : Visited name (n - hop name n) := by
  intro j hj hne hlt
  rcases Nat.lt_trichotomy n j with hnj | rfl | hjn
  · have := hv j hj hne hnj
    omega
  · rw [hop, if_neg hne] at hpos ⊢
    omega
  · by_cases hop0 : operatorAt name n = 0
    · rw [hop, if_pos hop0] at hlt
      omega
    · rw [hop, if_neg hop0] at hlt ⊢
      have := operatorAt_overlap hn hop0 hne hlt hjn
      obtain ⟨-, -, -, hle, -⟩ := operatorAt_chars hne (by omega)
      omega

/-- At a visited position a bracket counts if no operator name ends right before it. -/
theorem weight_visited {name : PyStr} {n : ℕ} (hn : n < name.length) (hv : Visited name n) :
    weight name n = if operatorAt name n = 0 then angle name n else 0 := by
  by_cases h0 : operatorAt name n = 0
  · have hnot : ¬ Ignored name n := by
      rintro ⟨j, hj, hne, hle, hlast⟩
      rcases Nat.eq_or_lt_of_le hle with rfl | hlt
      · exact hne h0
      · have := hv j hj hne hlt
        omega
    rw [weight, if_neg hnot, if_pos h0]
  · rw [if_neg h0]
    obtain ⟨-, -, -, hle, -⟩ := operatorAt_chars h0 hn.le
    exact weight_jumped h0 hn (by omega) (le_refl _)

theorem hop_pos (name : PyStr) (n : ℕ) : 0 < hop name n := by
  rw [hop]
  split_ifs <;> omega

/-- A jump never goes beyond the beginning of the text. -/
theorem hop_le {name : PyStr} {n : ℕ} (hn : n < name.length) (h0 : 0 < n) :
    hop name n ≤ n := by
  rw [hop]
  split_ifs with h
  · exact h0
  · obtain ⟨-, -, -, hle, -⟩ := operatorAt_chars h hn.le
    exact hle

theorem hop_zero (name : PyStr) : hop name 0 = 1 := by
  rw [hop, if_pos]
  simp [operatorAt, endsWithOperator]

/-- A hop passes one counted position, the one it starts from. -/
theorem level_hop {name : PyStr} {n : ℕ} (hn : n < name.length) (h0 : 0 < n)
    (hv : Visited name n) :
    level name (n - hop name n) =
      level name n + (if operatorAt name n = 0 then angle name n else 0) := by
  by_cases hop0 : operatorAt name n = 0
  · rw [hop, if_pos hop0, ← weight_visited hn hv, level_step name (i := n - 1) (by omega),
      Nat.sub_add_cancel h0, add_comm]
  · rw [hop, if_neg hop0, if_neg hop0, add_zero]
    exact level_skip name (by omega) hn fun i hlo hhi => weight_jumped hop0 hn hlo hhi

theorem not_colon_hop {name : PyStr} {n i : ℕ} (hn : n < name.length)
    (hlo : n - hop name n < i) (hhi : i < n) : name[i]? ≠ some ':' := by
  by_cases hop0 : operatorAt name n = 0
  · rw [hop, if_pos hop0] at hlo
    omega
  · rw [hop, if_neg hop0] at hlo
    exact not_colon_jumped hop0 hn hlo hhi

/-! ## The loop -/

section Passes

variable {name : PyStr} {off : ℤ} {n : ℕ}

theorem pyGet_pass (hoff : off = 0 ∨ off = -name.length) (hn : n < name.length) :
    pyGet name (n + off) = .ok name[n] := by
  rcases hoff with rfl | rfl
  · simpa using pyGet_natCast name n hn
  · have hneg : ¬ (0 : ℤ) ≤ n + -name.length := by omega
    have hpos : ¬ (n : ℤ) + -name.length + name.length < 0 := by omega
    have hidx : ((n : ℤ) + -name.length + name.length).toNat = n := by omega
    simp only [pyGet, if_neg hneg, if_neg hpos, hidx, List.getElem?_eq_getElem hn]

theorem pySliceTo_pass (hoff : off = 0 ∨ off = -name.length) (hn : n < name.length) :
    pySliceTo name (n + off) = name.take n := by
  rcases hoff with rfl | rfl
  · simp [pySliceTo]
  · have hneg : ¬ (0 : ℤ) ≤ n + -name.length := by omega
    have hidx : ((n : ℤ) + -name.length + name.length).toNat = n := by omega
    rw [pySliceTo, if_neg hneg, hidx]

/-- One turn of the loop, in either pass. -/
theorem separatorIndex_turn (hoff : off = 0 ∨ off = -name.length) (hn : n < name.length)
    (fuel : ℕ) (depth : ℤ) :
    separatorIndex name (fuel + 1) (n + off) depth =
      if name[n] = ':' ∧ depth = 0 then .ok (n + off)
      else separatorIndex name fuel (n + off - hop name n)
        (depth + if operatorAt name n = 0 then angle name n else 0) := by
  rw [separatorIndex, pyGet_pass hoff hn]
  change (if name[n] = ':' ∧ depth = 0 then _ else _) = _
  refine if_congr Iff.rfl rfl ?_
  simp only [pySliceTo_pass hoff hn]
  by_cases h₂ : endsWithOperator (name.take n) ['>', '>'] ∨
      endsWithOperator (name.take n) ['<', '<']
  · have hop₂ : operatorAt name n = 2 := if_pos h₂
    rw [if_pos h₂, hop, hop₂, if_neg (by decide), if_neg (by decide), add_zero]
    rfl
  · by_cases h₁ : endsWithOperator (name.take n) ['>'] ∨ endsWithOperator (name.take n) ['<']
    · have hop₁ : operatorAt name n = 1 := (if_neg h₂).trans (if_pos h₁)
      rw [if_neg h₂, if_pos h₁, hop, hop₁, if_neg (by decide), if_neg (by decide), add_zero]
      rfl
    · have hop₀ : operatorAt name n = 0 := (if_neg h₂).trans (if_neg h₁)
      rw [if_neg h₂, if_neg h₁, hop, hop₀, if_pos rfl, if_pos rfl, angle,
        List.getElem?_eq_getElem hn]
      by_cases hgt : name[n] = '>'
      · simp [hgt]
      · by_cases hlt : name[n] = '<'
        · simp [hlt, Int.sub_eq_add_neg]
        · simp [hgt, hlt]

/-- A pass from position `n` to the left stops at the last colon there whose level, with
what was counted before the pass, is zero, or goes on left of the text. -/
theorem separatorIndex_pass (hoff : off = 0 ∨ off = -name.length) (before : ℤ) (fuel : ℕ)
    (hn : n < name.length) (hv : Visited name n) (hfuel : n < fuel) :
    (∃ p ≤ n, name[p]? = some ':' ∧ level name p = -before ∧
      (∀ i, p < i → i ≤ n → name[i]? = some ':' → level name i ≠ -before) ∧
      separatorIndex name fuel (n + off) (before + level name n) = .ok (p + off)) ∨
    ((∀ i ≤ n, name[i]? = some ':' → level name i ≠ -before) ∧
      ∃ rest, fuel ≤ rest + (n + 1) ∧
        separatorIndex name fuel (n + off) (before + level name n) =
          separatorIndex name rest (off - 1) (before + total name)) := by
  induction n using Nat.strong_induction_on generalizing fuel with
  | _ n ih =>
      obtain ⟨fuel, rfl⟩ : ∃ f, fuel = f + 1 := ⟨fuel - 1, by omega⟩
      rw [separatorIndex_turn hoff hn]
      by_cases hstop : name[n] = ':' ∧ before + level name n = 0
      · left
        refine ⟨n, le_refl n, ?_, by omega, fun i hi hin => absurd hin (by omega), if_pos hstop⟩
        rw [List.getElem?_eq_getElem hn, hstop.1]
      · rw [if_neg hstop]
        -- no colon of this level between the next position and this one
        have hbetween : ∀ i, n - hop name n < i → i ≤ n → name[i]? = some ':' →
            level name i ≠ -before := by
          intro i hlo hhi hcolon hlevel
          rcases Nat.lt_or_ge i n with hlt | hge
          · exact not_colon_hop hn hlo hlt hcolon
          · obtain rfl : i = n := by omega
            rw [List.getElem?_eq_getElem hn, Option.some.injEq] at hcolon
            exact hstop ⟨hcolon, by omega⟩
        rcases Nat.eq_zero_or_pos n with rfl | hpos
        · right
          refine ⟨fun i hi => ?_, fuel, by omega, ?_⟩
          · obtain rfl : i = 0 := by omega
            intro hcolon hlevel
            rw [List.getElem?_eq_getElem hn, Option.some.injEq] at hcolon
            exact hstop ⟨hcolon, by omega⟩
          · rw [hop_zero, total_eq name hn, weight_visited hn hv]
            congr 1
            · simp
            · omega
        · have hle := hop_le hn hpos
          have hhop := hop_pos name n
          have hnext : (n : ℤ) + off - hop name n = ((n - hop name n : ℕ) : ℤ) + off := by omega
          rw [hnext, add_assoc, ← level_hop hn hpos hv]
          rcases ih (n - hop name n) (by omega) fuel (by omega) (visited_hop hn hv hle)
            (by omega) with ⟨p, hp, hcolon, hlevel, hlast, hrun⟩ | ⟨hnone, rest, hrest, hrun⟩
          · left
            refine ⟨p, by omega, hcolon, hlevel, fun i hi hin => ?_, hrun⟩
            rcases Nat.lt_or_ge (n - hop name n) i with hlt | hge
            · exact hbetween i hlt hin
            · exact hlast i hi hge
          · right
            refine ⟨fun i hi => ?_, rest, by omega, hrun⟩
            rcases Nat.lt_or_ge (n - hop name n) i with hlt | hge
            · exact hbetween i hlt hi
            · exact hnone i hge

end Passes

/-- What the loop returns: two passes over the text, and then an index error. The result
does not depend on the number of turns allowed, so that the loop ends by itself. -/
theorem separatorIndex_cases {name : PyStr} (hne : name ≠ []) {fuel : ℕ}
    (hfuel : 2 * name.length < fuel) :
    (∃ p, LastColon name 0 p ∧ separatorIndex name fuel (name.length - 1) 0 = .ok p) ∨
    (∃ p, NoColon name 0 ∧ LastColon name (-total name) p ∧
      separatorIndex name fuel (name.length - 1) 0 = .ok (p - name.length)) ∨
    (NoColon name 0 ∧ NoColon name (-total name) ∧
      separatorIndex name fuel (name.length - 1) 0 = .error .indexError) := by
  have hpos : 0 < name.length := List.length_pos_iff.mpr hne
  have hlast : name.length - 1 < name.length := by omega
  have hstart : ((name.length - 1 : ℕ) : ℤ) = name.length - 1 := by omega
  have hbound : ∀ {i : ℕ}, name[i]? = some ':' → i ≤ name.length - 1 := fun h => by
    have := (List.getElem?_eq_some_iff.mp h).choose
    omega
  rcases separatorIndex_pass (.inl rfl) 0 fuel hlast (visited_last name) (by omega) with
    ⟨p, hp, hcolon, hlevel, hafter, hrun⟩ | ⟨hnone, rest, hrest, hrun⟩
  · rw [level_last, hstart, add_zero, add_zero] at hrun
    rw [neg_zero] at hlevel hafter
    left
    exact ⟨p, ⟨hcolon, hlevel, fun i hi h => hafter i hi (hbound h) h⟩, hrun⟩
  · rw [level_last, hstart, add_zero, add_zero, zero_add, zero_sub] at hrun
    rw [neg_zero] at hnone
    have hzero : NoColon name 0 := fun i h => hnone i (hbound h) h
    have hagain : (-1 : ℤ) = ((name.length - 1 : ℕ) : ℤ) + -name.length := by omega
    right
    rcases separatorIndex_pass (.inr rfl) (total name) rest hlast (visited_last name) (by omega)
      with ⟨p, hp, hcolon, hlevel, hafter, hrun₂⟩ | ⟨hnone₂, rest₂, hrest₂, hrun₂⟩
    · rw [level_last, add_zero, ← hagain, ← hrun] at hrun₂
      left
      exact ⟨p, hzero, ⟨hcolon, hlevel, fun i hi h => hafter i hi (hbound h) h⟩, hrun₂⟩
    · rw [level_last, add_zero, ← hagain, ← hrun] at hrun₂
      right
      refine ⟨hzero, fun i h => hnone₂ i (hbound h) h, hrun₂.trans ?_⟩
      obtain ⟨left, rfl⟩ : ∃ left, rest₂ = left + 1 := ⟨rest₂ - 1, by omega⟩
      have hneg : ¬ (0 : ℤ) ≤ -name.length - 1 := by omega
      have hout : -(name.length : ℤ) - 1 + name.length < 0 := by omega
      rw [separatorIndex, pyGet, if_neg hneg]
      simp only [if_pos hout]
      rfl

/-! ## The function -/

theorem extractClassname_none {row : FunctionRow}
    (h : ¬ [':', ':'] <:+: cutParentheses row.name) : extractClassname row = .ok none := by
  rw [extractClassname, if_neg h]
  rfl

theorem extractClassname_found {row : FunctionRow} {p : ℕ}
    (h : [':', ':'] <:+: cutParentheses row.name) (hp : Chosen (cutParentheses row.name) p)
    (hpos : 0 < p) :
    extractClassname row = .ok (some ((cutParentheses row.name).take (p - 1))) := by
  have hne : cutParentheses row.name ≠ [] := List.ne_nil_of_length_pos (by have := hp.lt; omega)
  have hlt := hp.lt
  rw [extractClassname, if_pos h]
  rcases separatorIndex_cases hne (Nat.lt_succ_self _) with
    ⟨q, hq, hrun⟩ | ⟨q, hno, hq, hrun⟩ | ⟨hno, hnone, hrun⟩
  · obtain rfl : p = q := hp.unique (.inl hq)
    rw [hrun]
    have hslice := pySliceTo_pass (.inl rfl)
      (show p - 1 < (cutParentheses row.name).length by omega)
    rw [show (((p - 1 : ℕ) : ℤ) + 0) = p - 1 by omega] at hslice
    rw [← hslice]
    rfl
  · obtain rfl : p = q := hp.unique (.inr ⟨hno, hq⟩)
    rw [hrun]
    have hslice := pySliceTo_pass (.inr rfl)
      (show p - 1 < (cutParentheses row.name).length by omega)
    rw [show (((p - 1 : ℕ) : ℤ) + -(cutParentheses row.name).length) =
      p - (cutParentheses row.name).length - 1 by omega] at hslice
    rw [← hslice]
    rfl
  · rcases hp with hp | ⟨-, hp⟩
    · exact absurd hno hp.not_noColon
    · exact absurd hnone hp.not_noColon

/-- The first character is chosen in the first pass only, if at all, and then the whole text
but its last character is returned. -/
theorem extractClassname_zero {row : FunctionRow}
    (h : [':', ':'] <:+: cutParentheses row.name) (hp : Chosen (cutParentheses row.name) 0) :
    extractClassname row = .ok (some (cutParentheses row.name).dropLast) ∨
      extractClassname row = .ok (some []) := by
  have hlt := hp.lt
  have hne : cutParentheses row.name ≠ [] := List.ne_nil_of_length_pos hlt
  rw [extractClassname, if_pos h]
  rcases separatorIndex_cases hne (Nat.lt_succ_self _) with
    ⟨q, hq, hrun⟩ | ⟨q, hno, hq, hrun⟩ | ⟨hno, hnone, hrun⟩
  · obtain rfl : 0 = q := hp.unique (.inl hq)
    left
    rw [hrun]
    have hslice : pySliceTo (cutParentheses row.name) (((0 : ℕ) : ℤ) - 1) =
        (cutParentheses row.name).dropLast := by
      have hidx : ((0 : ℕ) : ℤ) - 1 + (cutParentheses row.name).length =
        ((cutParentheses row.name).length - 1 : ℕ) := by omega
      rw [pySliceTo, if_neg (by decide), hidx, Int.toNat_natCast, List.dropLast_eq_take]
    rw [← hslice]
    rfl
  · obtain rfl : 0 = q := hp.unique (.inr ⟨hno, hq⟩)
    right
    rw [hrun]
    have hslice : pySliceTo (cutParentheses row.name)
        (((0 : ℕ) : ℤ) - (cutParentheses row.name).length - 1) = [] := by
      have hidx : (((0 : ℕ) : ℤ) - (cutParentheses row.name).length - 1 +
        (cutParentheses row.name).length).toNat = 0 := by omega
      rw [pySliceTo, if_neg (by omega), hidx, List.take_zero]
    rw [← hslice]
    rfl
  · rcases hp with hp | ⟨-, hp⟩
    · exact absurd hno hp.not_noColon
    · exact absurd hnone hp.not_noColon

theorem extractClassname_error {row : FunctionRow}
    (h : [':', ':'] <:+: cutParentheses row.name)
    (hp : ∀ p, ¬ Chosen (cutParentheses row.name) p) :
    extractClassname row = .error .indexError := by
  have hne : cutParentheses row.name ≠ [] := by
    rintro hnil
    rw [hnil] at h
    exact absurd h (by decide)
  rw [extractClassname, if_pos h]
  rcases separatorIndex_cases hne (Nat.lt_succ_self _) with
    ⟨q, hq, hrun⟩ | ⟨q, hno, hq, hrun⟩ | ⟨hno, hnone, hrun⟩
  · exact absurd (.inl hq) (hp q)
  · exact absurd (.inr ⟨hno, hq⟩) (hp q)
  · rw [hrun]
    rfl

end CProfiler.Verification
