import CProfiler.Verification.Symbols.Separator

/-! Which scope `extractClassname` finds in the name of a function. -/

namespace CProfiler.Verification

open CProfiler.Model CProfiler.Foundation

/-! ## The last parenthesis -/

theorem cutParentheses_last {front back : PyStr} (h : '(' ∉ back) :
    cutParentheses (front ++ '(' :: back) = front := by
  have hfind : (front ++ '(' :: back).reverse.findIdx (· = '(') = back.length := by
    rw [List.reverse_append, List.reverse_cons, List.append_assoc,
      List.findIdx_eq (by simp)]
    constructor
    · simp
    · intro j hj
      rw [List.getElem_append_left (by simpa using hj)]
      have hmem := List.getElem_mem (l := back.reverse) (by simpa using hj)
      simp only [List.mem_reverse] at hmem
      exact decide_eq_false fun heq => h (heq ▸ hmem)
  rw [cutParentheses, if_pos (by simp), hfind]
  have hlen : (front ++ '(' :: back).length - 1 - back.length = front.length := by
    simp
  rw [hlen, List.take_left]

/-- What is cut off, if anything, begins with a parenthesis. -/
theorem cutParentheses_spec (name : PyStr) :
    name = cutParentheses name ∨ ∃ back, name = cutParentheses name ++ '(' :: back := by
  by_cases h : '(' ∈ name
  · obtain ⟨a, b, hab, ha⟩ := List.eq_append_cons_of_mem (List.mem_reverse.mpr h)
    have hname : name = b.reverse ++ '(' :: a.reverse := by
      rw [← List.reverse_reverse name, hab]
      simp
    right
    refine ⟨a.reverse, ?_⟩
    rw [hname, cutParentheses_last (by simpa using ha)]
  · exact .inl (if_neg h).symm

/-- Text before a parenthesis stays when there is another one after it. -/
theorem cutParentheses_append {front back : PyStr} (h : '(' ∈ back) :
    cutParentheses (front ++ back) = front ++ cutParentheses back := by
  obtain ⟨a, b, hab, hb⟩ := List.eq_append_cons_of_mem (List.mem_reverse.mpr h)
  have hback : back = b.reverse ++ '(' :: a.reverse := by
    rw [← List.reverse_reverse back, hab]
    simp
  have hnot : '(' ∉ a.reverse := by simpa using hb
  rw [hback, ← List.append_assoc, cutParentheses_last hnot, cutParentheses_last hnot]

/-- Text without parentheses at the end makes no difference. -/
theorem cutParentheses_append_right {front back : PyStr} (h : '(' ∈ front) (hb : '(' ∉ back) :
    cutParentheses (front ++ back) = cutParentheses front := by
  obtain ⟨a, b, hab, ha⟩ := List.eq_append_cons_of_mem (List.mem_reverse.mpr h)
  have hfront : front = b.reverse ++ '(' :: a.reverse := by
    rw [← List.reverse_reverse front, hab]
    simp
  have hnot : '(' ∉ a.reverse := by simpa using ha
  rw [hfront, cutParentheses_last hnot, List.append_assoc, List.cons_append,
    cutParentheses_last (by simp [hnot, hb])]

/-! ## Texts with a scope in front -/

section Scope

variable {scope rest : PyStr}

theorem suffix_of_suffix_colon {name front back : PyStr} (hcolon : ':' ∉ name) :
    name <:+ front ++ ':' :: back ↔ name <:+ back := by
  constructor
  · intro h
    rcases List.suffix_or_suffix_of_suffix h (List.suffix_append front (':' :: back)) with
      hin | hout
    · rcases List.suffix_cons_iff.mp hin with rfl | hback
      · simp at hcolon
      · exact hback
    · exact absurd (hout.subset (by simp)) hcolon
  · exact fun h => h.trans ⟨front ++ [':'], by simp⟩

/-- An operator name does not reach over a colon. -/
theorem operatorAt_append (hend : scope.getLast? = some ':') (i : ℕ) :
    operatorAt (scope ++ rest) (scope.length + i) = operatorAt rest i := by
  obtain ⟨front, rfl⟩ := List.getLast?_eq_some_iff.mp hend
  have hsuffix : ∀ symbol : PyStr, ':' ∉ symbol →
      endsWithOperator ((front ++ [':'] ++ rest).take ((front ++ [':']).length + i)) symbol =
        endsWithOperator (rest.take i) symbol := by
    intro symbol hsymbol
    rw [List.take_length_add_append, Bool.eq_iff_iff, endsWithOperator, endsWithOperator,
      List.isSuffixOf_iff_suffix, List.isSuffixOf_iff_suffix, List.append_assoc]
    exact suffix_of_suffix_colon (by simp [hsymbol])
  rw [operatorAt, operatorAt]
  simp only [hsuffix ['>'] (by simp), hsuffix ['<'] (by simp), hsuffix ['>', '>'] (by simp),
    hsuffix ['<', '<'] (by simp)]

theorem ignored_append (hend : scope.getLast? = some ':') (i : ℕ) :
    Ignored (scope ++ rest) (scope.length + i) ↔ Ignored rest i := by
  constructor
  · rintro ⟨j, hj, hne, hle, hlast⟩
    obtain ⟨k, rfl⟩ : ∃ k, j = scope.length + k := ⟨j - scope.length, by omega⟩
    rw [operatorAt_append hend] at hne hlast
    rw [List.length_append] at hj
    exact ⟨k, by omega, hne, by omega, by omega⟩
  · rintro ⟨k, hk, hne, hle, hlast⟩
    refine ⟨scope.length + k, by rw [List.length_append]; omega, ?_⟩
    rw [operatorAt_append hend]
    exact ⟨hne, by omega, by omega⟩

theorem weight_append (hend : scope.getLast? = some ':') (i : ℕ) :
    weight (scope ++ rest) (scope.length + i) = weight rest i := by
  have hget : (scope ++ rest)[scope.length + i]? = rest[i]? := by
    rw [List.getElem?_append_right (by omega), Nat.add_sub_cancel_left]
  rw [weight, weight, angle, angle, hget]
  exact if_congr (ignored_append hend i) rfl rfl

theorem level_append (hend : scope.getLast? = some ':') (i : ℕ) :
    level (scope ++ rest) (scope.length + i) = level rest i := by
  rw [level, level, List.length_append, Nat.add_comm scope.length rest.length,
    show scope.length + i + 1 = i + 1 + scope.length by omega,
    ← Finset.sum_Ico_add' _ (i + 1) rest.length scope.length]
  refine Finset.sum_congr rfl fun j _ => ?_
  rw [Nat.add_comm j]
  exact weight_append hend j

/-- The last character of the scope has the level of the whole rest. -/
theorem level_scope (hend : scope.getLast? = some ':') :
    level (scope ++ rest) (scope.length - 1) = total rest := by
  have hpos : 0 < scope.length := List.length_pos_iff.mpr (by rintro rfl; simp at hend)
  rw [level, total, List.length_append, Nat.add_comm scope.length rest.length,
    show scope.length - 1 + 1 = 0 + scope.length by omega,
    ← Finset.sum_Ico_add' _ 0 rest.length scope.length]
  refine Finset.sum_congr rfl fun j _ => ?_
  rw [Nat.add_comm j]
  exact weight_append hend j

/-- The scope ends with the last colon of level `z` iff the rest counts to `z` and has no
such colon. -/
theorem lastColon_scope_iff (hend : scope.getLast? = some ':') (z : ℤ) :
    LastColon (scope ++ rest) z (scope.length - 1) ↔ total rest = z ∧ NoColon rest z := by
  have hpos : 0 < scope.length := List.length_pos_iff.mpr (by rintro rfl; simp at hend)
  have hget : ∀ i, (scope ++ rest)[scope.length + i]? = rest[i]? := fun i => by
    rw [List.getElem?_append_right (by omega), Nat.add_sub_cancel_left]
  constructor
  · intro h
    refine ⟨(level_scope hend).symm.trans h.level_eq, fun i hi => ?_⟩
    rw [← level_append hend]
    exact h.last (scope.length + i) (by omega) ((hget i).trans hi)
  · rintro ⟨htotal, hno⟩
    refine ⟨?_, (level_scope hend).trans htotal, fun i hi hcolon => ?_⟩
    · rw [List.getElem?_append_left (by omega), ← hend, List.getLast?_eq_getElem?]
    · obtain ⟨k, rfl⟩ : ∃ k, i = scope.length + k := ⟨i - scope.length, by omega⟩
      rw [hget] at hcolon
      rw [level_append hend]
      exact hno k hcolon

end Scope

/-! ## Demangled names -/

/-- An identifier that is not the keyword of an operator name. -/
structure Identifier where
  text : PyStr
  nonempty : text ≠ []
  word : ∀ c ∈ text, c.isAlphanum ∨ c = '_'
  head : ∀ c ∈ text.head?, ¬ c.isDigit
  not_operator : text ≠ ['o', 'p', 'e', 'r', 'a', 't', 'o', 'r']

/-- A name between two `::`, with the template arguments it may have. -/
structure Component where
  identifier : Identifier
  arguments : Option PyStr
  balanced : ∀ a ∈ arguments, Balanced '<' '>' a

def Component.text (c : Component) : PyStr :=
  match c.arguments with
  | none => c.identifier.text
  | some a => c.identifier.text ++ '<' :: a ++ ['>']

/-- `C1::...::Cn::f(params)`, and ` const` after a member that promises it. -/
structure DemangledName where
  scopes : List Component
  function : Component
  params : PyStr
  rounds : Balanced '(' ')' params
  angles : Balanced '<' '>' params
  isConst : Bool

namespace DemangledName

variable (d : DemangledName)

def suffix : PyStr := if d.isConst then [' ', 'c', 'o', 'n', 's', 't'] else []

/-- `C1::...::Cn::` -/
def prefixText : PyStr := d.scopes.flatMap fun c => c.text ++ [':', ':']

def text : PyStr := d.prefixText ++ d.function.text ++ '(' :: (d.params ++ ')' :: d.suffix)

/-- `C1::...::Cn`, when there is a scope. -/
def scope : Option PyStr :=
  if d.scopes = [] then none else some ([':', ':'].intercalate (d.scopes.map Component.text))

/-- The function and its parameters, up to the last parenthesis that opens. -/
def rest : PyStr :=
  d.function.text ++ if '(' ∈ d.params then '(' :: cutParentheses d.params else []

/-- When the scan finds the scope: without a scope there is no `::` up to the last
parenthesis; with one, the text from the function to the last parenthesis counts to zero and
has no colon of level zero (or both passes together come out so). -/
def Separable : Prop :=
  if d.scopes = [] then ¬ [':', ':'] <:+: d.rest
  else total d.rest = 0 ∧ NoColon d.rest 0 ∨
    NoColon (d.prefixText ++ d.rest) 0 ∧ total (d.prefixText ++ d.rest) = -total d.rest ∧
      NoColon d.rest (total d.rest)

variable {d}

theorem paren_not_mem_suffix : '(' ∉ ')' :: d.suffix := by
  rw [suffix]
  split_ifs <;> decide

theorem cutParentheses_text : cutParentheses d.text = d.prefixText ++ d.rest := by
  rw [text, rest]
  by_cases h : '(' ∈ d.params
  · have hsplit : d.prefixText ++ d.function.text ++ '(' :: (d.params ++ ')' :: d.suffix) =
        d.prefixText ++ d.function.text ++ ['('] ++ (d.params ++ ')' :: d.suffix) := by simp
    rw [if_pos h, hsplit, cutParentheses_append (by simp [h]),
      cutParentheses_append_right h paren_not_mem_suffix]
    simp
  · rw [if_neg h, cutParentheses_last, List.append_nil]
    simp only [List.mem_append, not_or]
    exact ⟨h, paren_not_mem_suffix⟩

/-- The scope is the text before the function without its last `::`. -/
theorem prefixText_eq (h : d.scopes ≠ []) :
    d.prefixText = [':', ':'].intercalate (d.scopes.map Component.text) ++ [':', ':'] := by
  rw [prefixText]
  generalize d.scopes = scopes at h
  induction scopes with
  | nil => exact absurd rfl h
  | cons c scopes ih =>
      cases scopes with
      | nil => simp
      | cons b scopes =>
          rw [List.flatMap_cons, ih (by simp)]
          simp

theorem component_text_ne_nil (c : Component) : c.text ≠ [] := by
  rw [Component.text]
  cases c.arguments with
  | none => exact c.identifier.nonempty
  | some a => simp

theorem getLast?_prefixText (h : d.scopes ≠ []) : d.prefixText.getLast? = some ':' := by
  rw [prefixText_eq h]
  simp

/-- A scope holds at least one character before its `::`. -/
theorem two_lt_length_prefixText (h : d.scopes ≠ []) : 2 < d.prefixText.length := by
  obtain ⟨c, scopes, hscopes⟩ := List.exists_cons_of_ne_nil h
  have hc := List.length_pos_iff.mpr (component_text_ne_nil c)
  rw [prefixText, hscopes]
  simp
  omega

theorem infix_prefixText (h : d.scopes ≠ []) : [':', ':'] <:+: d.prefixText ++ d.rest := by
  rw [prefixText_eq h]
  exact ⟨_, _, rfl⟩

theorem scope_eq (h : d.scopes ≠ []) :
    d.scope = some ((d.prefixText ++ d.rest).take (d.prefixText.length - 2)) := by
  rw [scope, if_neg h, prefixText_eq h]
  congr 1
  simp

/-- With a scope, the chosen colon is the last one of the scope iff the name is separable. -/
theorem chosen_iff (h : d.scopes ≠ []) :
    Chosen (d.prefixText ++ d.rest) (d.prefixText.length - 1) ↔ d.Separable := by
  have hend := getLast?_prefixText h
  rw [Chosen, lastColon_scope_iff hend, lastColon_scope_iff hend, Separable, if_neg h]
  refine or_congr Iff.rfl (and_congr_right fun _ => ?_)
  constructor
  · rintro ⟨htotal, hno⟩
    exact ⟨by omega, htotal ▸ hno⟩
  · rintro ⟨htotal, hno⟩
    have heq : -total (d.prefixText ++ d.rest) = total d.rest := by omega
    rw [heq]
    exact ⟨rfl, hno⟩

end DemangledName

/-- Where there is a `::`, a result comes from a chosen colon. -/
theorem exists_chosen {row : FunctionRow} (hdouble : [':', ':'] <:+: cutParentheses row.name)
    {r : Option PyStr} (h : extractClassname row = .ok r) :
    ∃ p, Chosen (cutParentheses row.name) p := by
  by_contra hno
  rw [extractClassname_error hdouble (not_exists.mp hno)] at h
  cases h

/-- The length of the result tells which colon was chosen. -/
theorem chosen_of_take {row : FunctionRow} (hdouble : [':', ':'] <:+: cutParentheses row.name)
    {n : ℕ} (hpos : 0 < n) (hlen : n + 1 < (cutParentheses row.name).length)
    (h : extractClassname row = .ok (some ((cutParentheses row.name).take n))) :
    Chosen (cutParentheses row.name) (n + 1) := by
  obtain ⟨p, hp⟩ := exists_chosen hdouble h
  have hlt := hp.lt
  rcases Nat.eq_zero_or_pos p with rfl | hppos
  · rcases extractClassname_zero hdouble hp with hzero | hzero <;>
      · rw [h] at hzero
        have := congrArg List.length (Option.some.inj (Except.ok.inj hzero))
        simp only [List.length_take, List.length_dropLast, List.length_nil] at this
        omega
  · rw [extractClassname_found hdouble hp hppos] at h
    have := congrArg List.length (Option.some.inj (Except.ok.inj h))
    simp only [List.length_take] at this
    obtain rfl : p = n + 1 := by omega
    exact hp

/-- `extractClassname` finds the scope of a function exactly when its name is separable. -/
theorem extractClassname_scope_iff (d : DemangledName) (start stop : ℤ) :
    extractClassname ⟨start, stop, d.text⟩ = .ok d.scope ↔ d.Separable := by
  generalize hrow : FunctionRow.mk start stop d.text = row
  have hcut : cutParentheses row.name = d.prefixText ++ d.rest := by
    rw [← hrow, DemangledName.cutParentheses_text]
  by_cases hscopes : d.scopes = []
  · have hbare : d.prefixText = [] := by simp [DemangledName.prefixText, hscopes]
    have hscope : d.scope = none := if_pos hscopes
    rw [hbare, List.nil_append] at hcut
    rw [hscope, DemangledName.Separable, if_pos hscopes]
    constructor
    · intro h hdouble
      rw [extractClassname, hcut, if_pos hdouble] at h
      obtain ⟨index, -, hreturn⟩ := bind_eq_ok h
      cases hreturn
    · intro h
      exact extractClassname_none (hcut ▸ h)
  · have hdouble : [':', ':'] <:+: cutParentheses row.name := by
      rw [hcut]
      exact DemangledName.infix_prefixText hscopes
    have hlen := DemangledName.two_lt_length_prefixText hscopes
    rw [← DemangledName.chosen_iff hscopes, ← hcut, DemangledName.scope_eq hscopes, ← hcut]
    constructor
    · intro h
      have hle : d.prefixText.length ≤ (cutParentheses row.name).length := by
        rw [hcut, List.length_append]
        omega
      have hp := chosen_of_take hdouble (by omega) (by omega) h
      rwa [show d.prefixText.length - 2 + 1 = d.prefixText.length - 1 by omega] at hp
    · intro h
      rw [extractClassname_found hdouble h (by omega), Nat.sub_sub]

/-! ## Plain names -/

theorem Identifier.not_mem (identifier : Identifier) {c : Char}
    (hc : c.isAlphanum = false ∧ c ≠ '_') : c ∉ identifier.text := by
  intro hmem
  rcases identifier.word c hmem with h | h
  · rw [hc.1] at h
    cases h
  · exact hc.2 h

theorem Identifier.net_eq_zero (identifier : Identifier) :
    net '<' '>' identifier.text = 0 := by
  refine CProfiler.Foundation.net_eq_zero fun c hc => ⟨?_, ?_⟩
  · rintro rfl
    exact identifier.not_mem (by decide) hc
  · rintro rfl
    exact identifier.not_mem (by decide) hc

/-- The brackets of a component are balanced. -/
theorem Component.net_text (c : Component) : net '<' '>' c.text = 0 := by
  rw [Component.text]
  cases harguments : c.arguments with
  | none => exact c.identifier.net_eq_zero
  | some a =>
      have hsettled := (c.balanced a harguments).settled
      simp [c.identifier.net_eq_zero, hsettled, bracket]

/-- A colon of a component is within its template arguments. -/
theorem Component.net_after_colon (c : Component) {i : ℕ} (hcolon : c.text[i]? = some ':') :
    net '<' '>' (c.text.drop (i + 1)) < 0 := by
  have hword : ∀ j : ℕ, c.identifier.text[j]? ≠ some ':' := fun j hj =>
    c.identifier.not_mem (by decide) (List.mem_of_getElem? hj)
  rw [Component.text] at hcolon ⊢
  cases harguments : c.arguments with
  | none =>
      rw [harguments] at hcolon
      exact absurd hcolon (hword i)
  | some a =>
      simp only [harguments] at hcolon ⊢
      have hsuffix : ∀ s, s <:+ a → net '<' '>' s ≤ 0 := fun s hs =>
        (c.balanced a harguments).net_suffix_nonpos hs
      rcases Nat.lt_or_ge i c.identifier.text.length with hlt | hge
      · rw [List.append_assoc, List.getElem?_append_left hlt] at hcolon
        exact absurd hcolon (hword i)
      · obtain ⟨k, rfl⟩ : ∃ k, i = c.identifier.text.length + k :=
          ⟨i - c.identifier.text.length, by omega⟩
        rw [List.append_assoc, List.getElem?_append_right hge, Nat.add_sub_cancel_left] at hcolon
        cases k with
        | zero => simp at hcolon
        | succ m =>
            rw [List.cons_append, List.getElem?_cons_succ] at hcolon
            have hm : m < a.length := by
              by_contra hge
              rw [List.getElem?_append_right (by omega)] at hcolon
              have := List.mem_of_getElem? hcolon
              simp at this
            have hdrop : (c.identifier.text ++ '<' :: a ++ ['>']).drop
                (c.identifier.text.length + (m + 1) + 1) = a.drop (m + 1) ++ ['>'] := by
              rw [List.append_assoc, Nat.add_assoc, List.drop_length_add_append,
                List.cons_append, List.drop_succ_cons, List.drop_append_of_le_length (by omega)]
            have hnonpos := hsuffix _ (List.drop_suffix (m + 1) a)
            have hclose : net '<' '>' ['>'] = -1 := rfl
            rw [hdrop, net_append, hclose]
            omega

/-- A member whose parameters hold no parenthesis and whose own name has no operator in it is
found in its class, whatever its template arguments are. -/
theorem DemangledName.separable_of_plain {d : DemangledName} (hscopes : d.scopes ≠ [])
    (hparams : '(' ∉ d.params)
    (hplain : ¬ ['o', 'p', 'e', 'r', 'a', 't', 'o', 'r'] <:+: d.function.text) :
    d.Separable := by
  have hrest : d.rest = d.function.text := by rw [rest, if_neg hparams, List.append_nil]
  rw [Separable, if_neg hscopes, hrest]
  left
  refine ⟨by rw [total_plain hplain, d.function.net_text, neg_zero], fun i hi => ?_⟩
  have hlt := (List.getElem?_eq_some_iff.mp hi).choose
  have := d.function.net_after_colon hi
  rw [level_plain hplain hlt]
  omega

/-- `A::f(B::C, void (*)(int))` -/
def callbackName : DemangledName where
  scopes := [⟨⟨['A'], by simp, by simp, by simp, by simp⟩, none, by simp⟩]
  function := ⟨⟨['f'], by simp, by simp, by simp, by simp⟩, none, by simp⟩
  params := ['B', ':', ':', 'C', ',', ' ', 'v', 'o', 'i', 'd', ' ', '(', '*', ')',
    '(', 'i', 'n', 't', ')']
  rounds := by decide
  angles := by decide
  isConst := false

/-- The last parenthesis that opens is within the parameters, and the `::` before it is
taken for the one after the class. -/
theorem extractClassname_callback :
    callbackName.scope = some ['A'] ∧
      extractClassname ⟨0, 0, callbackName.text⟩ = .ok (some ['A', ':', ':', 'f', '(', 'B']) := by
  decide +kernel

/-! ## Safety -/

theorem prefix_cutParentheses (name : PyStr) : cutParentheses name <+: name := by
  rcases cutParentheses_spec name with h | ⟨back, h⟩
  · exact ⟨[], by rw [List.append_nil, ← h]⟩
  · exact ⟨'(' :: back, h.symm⟩

/-- No `::` reaches over the cut. -/
theorem not_separated_at_cut (name : PyStr) {s : PyStr}
    (hlen : s.length + 1 = (cutParentheses name).length) : ¬ s ++ [':', ':'] <+: name := by
  rintro ⟨tail, htail⟩
  have hcolon : name[s.length + 1]? = some ':' := by
    rw [← htail]
    simp
  rw [hlen] at hcolon
  rcases cutParentheses_spec name with h | ⟨back, h⟩
  · rw [← h, List.getElem?_eq_none (le_refl _)] at hcolon
    cases hcolon
  · generalize cutParentheses name = kept at h hcolon
    rw [h, List.getElem?_append_right (le_refl _), Nat.sub_self] at hcolon
    cases hcolon

/-- The first character is never the chosen colon when another colon follows it. -/
theorem Chosen.ne_zero {name : PyStr} (hdouble : name[1]? = some ':') : ¬ Chosen name 0 := by
  have hlt : 0 + 1 < name.length := (List.getElem?_eq_some_iff.mp hdouble).choose
  have hlevel : level name 0 = level name 1 := by
    rw [level_step name hlt]
    have hweight : weight name (0 + 1) = 0 := by
      rw [weight, angle]
      simp [hdouble]
    rw [hweight, zero_add]
  rintro (h | ⟨-, h⟩) <;> exact h.last 1 (by decide) hdouble (hlevel ▸ h.level_eq)

/-- What is returned for a chosen first character is not followed by `::`. -/
theorem not_separated_of_chosen_zero {row : FunctionRow}
    (hdouble : [':', ':'] <:+: cutParentheses row.name) (hp : Chosen (cutParentheses row.name) 0)
    {s : PyStr} (h : extractClassname row = .ok (some s)) : ¬ s ++ [':', ':'] <+: row.name := by
  have hlt := hp.lt
  rcases extractClassname_zero hdouble hp with hzero | hzero
  · obtain rfl := Option.some.inj (Except.ok.inj (h.symm.trans hzero))
    apply not_separated_at_cut
    rw [List.length_dropLast]
    omega
  · obtain rfl := Option.some.inj (Except.ok.inj (h.symm.trans hzero))
    intro hbegin
    obtain ⟨tail, htail⟩ : [':', ':'] <+: cutParentheses row.name :=
      List.prefix_of_prefix_length_le hbegin (prefix_cutParentheses row.name) hdouble.length_le
    exact Chosen.ne_zero (by rw [← htail]; rfl) hp

/-- The text before a `::` of the name stops at a colon of the part that is kept. -/
theorem colon_of_separated {name : PyStr} {q : ℕ} (hq : q < (cutParentheses name).length)
    (h : (cutParentheses name).take q ++ [':', ':'] <+: name) :
    (cutParentheses name)[q]? = some ':' := by
  obtain ⟨tail, htail⟩ := h
  obtain ⟨back, hback⟩ := prefix_cutParentheses name
  have hget : name[q]? = (cutParentheses name)[q]? := by
    conv_lhs => rw [← hback]
    exact List.getElem?_append_left hq
  have hlen : ((cutParentheses name).take q).length = q := by
    rw [List.length_take]
    omega
  rw [← hget, ← htail, List.append_assoc, List.getElem?_append_right (by omega), hlen]
  simp

/-- `extractClassname` returns nothing or a scope that is followed by `::` in the name
exactly when there is no `::` up to the last parenthesis, or a colon is chosen and another
one stands before it. -/
theorem extractClassname_safe_iff (row : FunctionRow) :
    (∃ r, extractClassname row = .ok r ∧ ∀ s, r = some s → s ++ [':', ':'] <+: row.name) ↔
      ([':', ':'] <:+: cutParentheses row.name →
        ∃ p, Chosen (cutParentheses row.name) (p + 1) ∧
          (cutParentheses row.name)[p]? = some ':') := by
  have hcut := prefix_cutParentheses row.name
  constructor
  · rintro ⟨r, hr, hsafe⟩ hdouble
    obtain ⟨p, hp⟩ := exists_chosen hdouble hr
    rcases Nat.eq_zero_or_pos p with rfl | hpos
    · rcases extractClassname_zero hdouble hp with hzero | hzero
      all_goals
        obtain rfl := Except.ok.inj (hr.symm.trans hzero)
        exact absurd (hsafe _ rfl) (not_separated_of_chosen_zero hdouble hp hzero)
    · obtain ⟨q, rfl⟩ : ∃ q, p = q + 1 := ⟨p - 1, by omega⟩
      have hlt := hp.lt
      rw [extractClassname_found hdouble hp hpos, Nat.add_sub_cancel] at hr
      exact ⟨q, hp, colon_of_separated (by omega) (hsafe _ (Except.ok.inj hr).symm)⟩
  · intro h
    by_cases hdouble : [':', ':'] <:+: cutParentheses row.name
    · obtain ⟨p, hp, hcolon⟩ := h hdouble
      refine ⟨_, extractClassname_found hdouble hp (Nat.succ_pos p), ?_⟩
      rintro s ⟨⟩
      have htake : (cutParentheses row.name).take (p + 1 + 1) =
          (cutParentheses row.name).take p ++ [':', ':'] := by
        rw [List.take_add_one, List.take_add_one, hcolon, hp.colon]
        simp
      rw [Nat.add_sub_cancel, ← htake]
      exact (List.take_prefix _ _).trans hcut
    · exact ⟨none, extractClassname_none hdouble, by simp⟩

/-- `A::operator>(A const&)`: the name of the operator is not recognised at the end of the
text, and its symbol counts as a bracket that is never closed. -/
theorem extractClassname_greaterThan :
    extractClassname ⟨0, 0, ['A', ':', ':', 'o', 'p', 'e', 'r', 'a', 't', 'o', 'r', '>',
      '(', 'A', ' ', 'c', 'o', 'n', 's', 't', '&', ')']⟩ = .error .indexError := by
  decide +kernel

end CProfiler.Verification
