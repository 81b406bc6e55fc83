import Mathlib.Data.List.Induction
import CProfiler.Model.InstListMemory

/-! # The capacity of an instruction list

`inst_list_init_size` records a capacity of 32 whatever the number of slots it was asked
for; from the first resize on the capacity is the number of slots that `realloc` was asked
for. -/

namespace CProfiler.InstLists

open CProfiler.Model

variable {ι : Type} {m : Allocator}

/-! ## Slots -/

theorem slotsIn_eq (slots : ℕ) : slotsIn slots = slots % 2 ^ 61 := by
  unfold slotsIn slotBytes
  omega

theorem slotBytes_eq (slots : ℕ) : slotBytes slots = 8 * slotsIn slots := by
  rw [slotsIn_eq]
  unfold slotBytes
  omega

/-- An allocation that is granted fits in the address space. -/
theorem slotsIn_lt {slots : ℕ} (h : m.grants (slotBytes slots) = true) :
    slotsIn slots < 2 ^ 60 := by
  have hbound := m.bounded h
  rw [slotBytes_eq] at hbound
  omega

/-- The capacity with which `inst_list_append` writes instruction number `size`. -/
def grown (capacity size : ℕ) : ℕ := if size = capacity then capacity * 2 + 1 else capacity

/-- The capacity recorded after so many appends. -/
def capacityAfter : ℕ → ℕ
  | 0 => instListInitCapacity
  | size + 1 => grown (capacityAfter size) size

theorem capacityAfter_succ (size : ℕ) :
    capacityAfter (size + 1) = grown (capacityAfter size) size := rfl

theorem capacityAfter_bounds (size : ℕ) :
    size ≤ capacityAfter size ∧ 32 ≤ capacityAfter size := by
  induction size with
  | zero => simp [capacityAfter, instListInitCapacity]
  | succ size ih =>
      rw [capacityAfter_succ, grown]
      split <;> omega

/-- The capacity stays as recorded for the first 32 instructions. -/
theorem capacityAfter_eq_iff (size : ℕ) : capacityAfter size = 32 ↔ size ≤ 32 := by
  induction size with
  | zero => simp [capacityAfter, instListInitCapacity]
  | succ size ih =>
      have hbounds := capacityAfter_bounds size
      rw [capacityAfter_succ, grown]
      split <;> omega

/-! ## One append -/

/-- A list that was made by `c` records the capacity and holds the instructions: up to its
first resize it has the slots that it was made with, and then as many as it records. -/
structure Filled (c : Creation) (capacity : ℕ) (l : RawList ι) (insts : List ι) : Prop where
  base_eq : l.base = c.base
  size_eq : l.size = insts.length
  capacity_eq : l.capacity = capacity
  slots_eq : l.instArray.length = if capacity = 32 then slotsIn c.requested else capacity
  capacity_lt : capacity < 2 ^ 60
  contents_eq : l.contents = insts.map some

namespace Filled

variable {c : Creation} {capacity : ℕ} {l : RawList ι} {insts : List ι}

theorem size_le_slots (h : Filled c capacity l insts) : l.size ≤ l.instArray.length := by
  have hlength := congrArg List.length h.contents_eq
  simp only [RawList.contents, List.length_take, List.length_map, ← h.size_eq] at hlength
  omega

/-- A resize that is granted keeps the instructions. -/
theorem resized (h : Filled c capacity l insts) (hcapacity : 32 ≤ capacity)
    (hgrants : m.grants (slotBytes (capacity * 2 + 1)) = true) (hfull : l.size = capacity) :
    ∃ r, l.resize m (capacity * 2 + 1) = .ok r ∧
      Filled c (capacity * 2 + 1) r insts := by
  have hlt := slotsIn_lt hgrants
  have hbound := h.capacity_lt
  have hslots : slotsIn (capacity * 2 + 1) = capacity * 2 + 1 := by
    rw [slotsIn_eq, Nat.mod_eq_of_lt (by omega)]
  have hkept : (l.instArray ++ List.replicate (capacity * 2 + 1) none).take l.size =
      l.instArray.take l.size := List.take_append_of_le_length h.size_le_slots
  refine ⟨_, if_pos hgrants, h.base_eq, h.size_eq, rfl, ?_, by omega, ?_⟩
  · rw [if_neg (by omega), hslots]
    simp
  · have hmin : min l.size (capacity * 2 + 1) = l.size := by omega
    simp only [RawList.contents, hslots, List.take_take, hmin, hkept]
    exact h.contents_eq

/-- Before the write there is room, or the resize was refused. -/
theorem withRoom_cases (h : Filled c capacity l insts) (hcapacity : 32 ≤ capacity) :
    (∃ r, l.withRoom m = .ok r ∧ Filled c (grown capacity insts.length) r insts ∧
        (insts.length = capacity → m.grants (slotBytes (capacity * 2 + 1)) = true)) ∨
      (l.withRoom m = .error .exit ∧ insts.length = capacity ∧
        m.grants (slotBytes (capacity * 2 + 1)) = false) := by
  have hsize := h.size_eq
  have hbound := h.capacity_lt
  have hnew : (capacity * 2 + 1) % 2 ^ 64 = capacity * 2 + 1 := Nat.mod_eq_of_lt (by omega)
  simp only [RawList.withRoom, grown, h.capacity_eq, hsize, hnew]
  by_cases hfull : insts.length = capacity
  · rw [if_pos hfull, if_pos hfull]
    cases hgrants : m.grants (slotBytes (capacity * 2 + 1)) with
    | true =>
        rcases h.resized hcapacity hgrants (hsize.trans hfull) with ⟨r, hr, hfilled⟩
        exact .inl ⟨r, hr, hfilled, fun _ => rfl⟩
    | false => exact .inr ⟨by simp [RawList.resize, hgrants], hfull, rfl⟩
  · rw [if_neg hfull, if_neg hfull]
    exact .inl ⟨l, rfl, h, fun heq => absurd heq hfull⟩

/-- The write goes to the slot after the last instruction, if there is one. -/
theorem write_cases (h : Filled c capacity l insts) (inst : ι) :
    (∃ r, l.write inst = .ok r ∧ Filled c capacity r (insts ++ [inst]) ∧
        insts.length < l.instArray.length) ∨
      (l.write inst = .error .outside ∧ l.instArray.length ≤ insts.length) := by
  by_cases hslot : l.size < l.instArray.length
  · refine .inl ⟨_, if_pos hslot, ⟨h.base_eq, ?_, h.capacity_eq, ?_, h.capacity_lt, ?_⟩, ?_⟩
    · simp [h.size_eq]
    · simpa using h.slots_eq
    · have hcontents := h.contents_eq
      simp only [RawList.contents] at hcontents ⊢
      rw [List.take_succ_eq_append_getElem (by simpa using hslot),
        List.take_set_of_le (Nat.le_refl _), hcontents]
      simp
    · rwa [← h.size_eq]
  · refine .inr ⟨if_neg hslot, ?_⟩
    rw [← h.size_eq]
    omega

/-- What `inst_list_append` does: it holds one instruction more, it ends the process, or it
writes outside the slots that the list was made with. -/
theorem append_cases (h : Filled c (capacityAfter insts.length) l insts) (inst : ι) :
    (∃ r, l.append m inst = .ok r ∧
        Filled c (capacityAfter (insts ++ [inst]).length) r (insts ++ [inst]) ∧
        (insts.length = capacityAfter insts.length →
          m.grants (slotBytes (capacityAfter insts.length * 2 + 1)) = true) ∧
        (insts.length < 32 → insts.length < slotsIn c.requested)) ∨
      (l.append m inst = .error .exit ∧ insts.length = capacityAfter insts.length ∧
        m.grants (slotBytes (capacityAfter insts.length * 2 + 1)) = false) ∨
      (l.append m inst = .error .outside ∧ insts.length < 32 ∧
        slotsIn c.requested ≤ insts.length) := by
  have hbounds := capacityAfter_bounds insts.length
  have hnext : (insts ++ [inst]).length = insts.length + 1 := by simp
  have hsame := capacityAfter_eq_iff (insts.length + 1)
  have hroom := capacityAfter_bounds (insts.length + 1)
  rcases h.withRoom_cases (m := m) hbounds.2 with ⟨roomy, hok, hroomy, hgrants⟩ | ⟨hexit, hfull⟩
  · have happend : l.append m inst = roomy.write inst := by
      rw [RawList.append, hok]
      rfl
    rw [← capacityAfter_succ] at hroomy
    have hslots := hroomy.slots_eq
    rw [happend, hnext]
    rcases hroomy.write_cases inst with ⟨r, hr, hfilled, hlt⟩ | ⟨hout, hge⟩
    · refine .inl ⟨r, hr, hfilled, hgrants, fun hfew => ?_⟩
      rw [if_pos (hsame.mpr (by omega))] at hslots
      omega
    · refine .inr (.inr ⟨hout, ?_⟩)
      by_cases hfew : insts.length < 32
      · rw [if_pos (hsame.mpr (by omega))] at hslots
        omega
      · rw [if_neg (by omega)] at hslots
        omega
  · refine .inr (.inl ⟨?_, hfull⟩)
    rw [RawList.append, hexit]
    rfl

end Filled

/-! ## Runs -/

/-- A list that is made and appended to. -/
def built (m : Allocator) (c : Creation) (insts : List ι) : Except Fault (RawList ι) :=
  (c.run m).bind (fun l => l.appendAll m insts)

/-- `inst_list_append` after a run of appends is a run with one append more. -/
theorem built_concat (m : Allocator) (c : Creation) (insts : List ι) (inst : ι) :
    built m c (insts ++ [inst]) = (built m c insts).bind (fun l => l.append m inst) := by
  unfold built
  cases hrun : c.run (ι := ι) m with
  | error fault => rfl
  | ok l => exact RawList.appendAll_concat m l insts inst

/-- Both ways to make a list ask for slots, and record the same capacity. -/
theorem creation_cases (m : Allocator) (c : Creation) :
    (∃ l : RawList ι, c.run m = .ok l ∧ Filled c (capacityAfter 0) l [] ∧
        m.grants (slotBytes c.requested) = true) ∨
      (c.run (ι := ι) m = .error .exit ∧ m.grants (slotBytes c.requested) = false) := by
  have hrun : c.run (ι := ι) m = instListInitSize m c.base c.requested := by
    cases c with
    | init base => rfl
    | initSize initialSize => rfl
  rw [hrun, instListInitSize]
  cases hgrants : m.grants (slotBytes c.requested) with
  | true =>
      refine .inl ⟨_, if_pos rfl, ⟨rfl, rfl, rfl, ?_, ?_, ?_⟩, rfl⟩
      · simp [capacityAfter, instListInitCapacity]
      · simp [capacityAfter, instListInitCapacity]
      · simp [RawList.contents]
  | false => exact .inr ⟨by simp, rfl⟩

/-- What the memory has to give for a list made with `initial` slots to take `count`
instructions: the slots of the first 32, and every resize on the way. -/
def Room (m : Allocator) (initial count : ℕ) : Prop :=
  ∀ size < count, (size < 32 → size < initial) ∧
    (size = capacityAfter size → m.grants (slotBytes (capacityAfter size * 2 + 1)) = true)

theorem Room.of_succ {initial count : ℕ} (h : Room m initial (count + 1)) :
    Room m initial count := fun size hsize => h size (by omega)

/-- How a run of appends ends: with the list, where there is room for every instruction;
with the process; or with a write outside the slots that the list was made with. -/
theorem built_cases (m : Allocator) (c : Creation) (insts : List ι) :
    (∃ l, built m c insts = .ok l ∧
        Filled c (capacityAfter insts.length) l insts ∧
        m.grants (slotBytes c.requested) = true ∧ Room m (slotsIn c.requested) insts.length) ∨
      (built m c insts = .error .exit ∧
        (m.grants (slotBytes c.requested) = true →
          ¬ Room m (slotsIn c.requested) insts.length)) ∨
      (built m c insts = .error .outside ∧ m.grants (slotBytes c.requested) = true ∧
        ∃ size < insts.length, size < 32 ∧ slotsIn c.requested ≤ size) := by
  induction insts using List.reverseRecOn with
  | nil =>
      rcases creation_cases (ι := ι) m c with ⟨l, hl, hfilled, hgrants⟩ | ⟨hexit, hrefused⟩
      · refine .inl ⟨l, by rw [built, hl]; rfl, hfilled, hgrants, ?_⟩
        exact fun size hsize => absurd hsize (Nat.not_lt_zero size)
      · refine .inr (.inl ⟨by rw [built, hexit]; rfl, fun hgrants => ?_⟩)
        rw [hrefused] at hgrants
        cases hgrants
  | append_singleton insts inst ih =>
      have hlength : (insts ++ [inst]).length = insts.length + 1 := by simp
      rw [built_concat, hlength]
      rcases ih with ⟨l, hok, hfilled, hgrants, hroom⟩ | ⟨hexit, hrefused⟩ |
        ⟨hout, hgrants, size, hsize, hfew⟩
      · rw [hok]
        rcases hfilled.append_cases (m := m) inst with
          ⟨r, hr, hfilled', hresize, hslot⟩ | ⟨hexit, hfull, hrefused⟩ | ⟨hout, hfew, hinitial⟩
        · refine .inl ⟨r, hr, ?_, hgrants, fun size hsize => ?_⟩
          · rwa [hlength] at hfilled'
          · by_cases hlast : size = insts.length
            · rw [hlast]
              exact ⟨hslot, hresize⟩
            · exact hroom size (by omega)
        · refine .inr (.inl ⟨hexit, fun _ hroom' => ?_⟩)
          have hgranted := (hroom' insts.length (Nat.lt_succ_self _)).2 hfull
          rw [hrefused] at hgranted
          cases hgranted
        · exact .inr (.inr ⟨hout, hgrants, insts.length, Nat.lt_succ_self _, hfew, hinitial⟩)
      · refine .inr (.inl ⟨by rw [hexit]; rfl, fun hgrants hroom => ?_⟩)
        exact hrefused hgrants hroom.of_succ
      · exact .inr (.inr ⟨by rw [hout]; rfl, hgrants, size, by omega, hfew⟩)

/-- The runs that return. -/
theorem built_eq_ok_iff (m : Allocator) (c : Creation) (insts : List ι) :
    (∃ l, built m c insts = .ok l) ↔
      m.grants (slotBytes c.requested) = true ∧ Room m (slotsIn c.requested) insts.length := by
  rcases built_cases m c insts with ⟨l, hok, -, hgrants, hroom⟩ | ⟨hexit, hrefused⟩ |
    ⟨hout, hgrants, size, hsize, hfew, hinitial⟩
  · exact ⟨fun _ => ⟨hgrants, hroom⟩, fun _ => ⟨l, hok⟩⟩
  · refine ⟨fun h => ?_, fun h => absurd h.2 (hrefused h.1)⟩
    rcases h with ⟨l, hl⟩
    rw [hexit] at hl
    cases hl
  · refine ⟨fun h => ?_, fun h => ?_⟩
    · rcases h with ⟨l, hl⟩
      rw [hout] at hl
      cases hl
    · have hslot := (h.2 size hsize).1 hfew
      omega

/-- A run that returns has what was appended, in order. -/
theorem filled_of_built {c : Creation} {insts : List ι} {l : RawList ι}
    (h : built m c insts = .ok l) : Filled c (capacityAfter insts.length) l insts := by
  rcases built_cases m c insts with ⟨l', hok, hfilled, -⟩ | ⟨hexit, -⟩ | ⟨hout, -⟩
  · obtain rfl : l' = l := Except.ok.inj (hok.symm.trans h)
    exact hfilled
  · rw [hexit] at h
    cases h
  · rw [hout] at h
    cases h

/-! ## Exactness -/

/-- The recorded capacity and size are within the allocated slots, and the list holds the
instructions in order. -/
structure Holds (l : RawList ι) (insts : List ι) : Prop where
  capacity_le : l.capacity ≤ l.instArray.length
  size_le : l.size ≤ l.capacity
  contents_eq : l.contents = insts.map some

/-- The call ends the process, or returns a list that holds the instructions; it makes no
access outside the allocated slots. -/
def EndsHolding (insts : List ι) : Except Fault (RawList ι) → Prop
  | .ok l => Holds l insts
  | .error .exit => True
  | .error .outside => False

/-- With the slots that its capacity says, a list has all that it records. -/
theorem Filled.holds {c : Creation} {l : RawList ι} {insts : List ι}
    (h : Filled c (capacityAfter insts.length) l insts) (hslots : 32 ≤ slotsIn c.requested) :
    Holds l insts := by
  have hbounds := capacityAfter_bounds insts.length
  refine ⟨?_, ?_, h.contents_eq⟩
  · rw [h.capacity_eq, h.slots_eq]
    split <;> omega
  · rw [h.capacity_eq, h.size_eq]
    exact hbounds.1

/-- A list made with 32 slots or more can be appended to for ever. -/
theorem endsHolding_of_slots {c : Creation}
    (h : m.grants (slotBytes c.requested) = true → 32 ≤ slotsIn c.requested) (insts : List ι) :
    EndsHolding insts (built m c insts) := by
  rcases built_cases m c insts with ⟨l, hok, hfilled, hgrants, -⟩ | ⟨hexit, -⟩ |
    ⟨-, hgrants, size, -, hfew, hinitial⟩
  · rw [hok]
    exact hfilled.holds (h hgrants)
  · rw [hexit]
    trivial
  · have hslots := h hgrants
    omega

/-- Whatever is appended, the list stays within its slots exactly when it was made with at
least the 32 slots that its capacity says. A request that is not granted ends the process. -/
theorem built_holds_iff (m : Allocator) (c : Creation) :
    (∀ insts : List ι, EndsHolding insts (built m c insts)) ↔
      (m.grants (slotBytes c.requested) = true → 32 ≤ c.requested % 2 ^ 61) := by
  rw [← slotsIn_eq]
  refine ⟨fun h hgrants => ?_, fun h insts => ?_⟩
  · have hempty := h []
    rcases built_cases (ι := ι) m c [] with ⟨l, hok, hfilled, -⟩ | ⟨hexit, hrefused⟩ |
      ⟨-, -, size, hsize, -⟩
    · rw [hok] at hempty
      have hcapacity := hempty.capacity_le
      rwa [hfilled.slots_eq, hfilled.capacity_eq] at hcapacity
    · refine absurd (fun size hsize => ?_) (hrefused hgrants)
      exact absurd hsize (Nat.not_lt_zero size)
    · exact absurd hsize (Nat.not_lt_zero size)
  · exact endsHolding_of_slots h insts

/-- What a slice of ten instructions makes: ten slots, and a capacity of 32. The eleventh
append writes after the last of them. -/
theorem tenSlots_not_holds :
    built .ample (.initSize 10) (List.range 11) = .error .outside ∧
      ¬ ∀ insts : List ℕ, EndsHolding insts (built .ample (.initSize 10) insts) := by
  have hrun : built .ample (.initSize 10) (List.range 11) = .error .outside := by
    rfl
  refine ⟨hrun, fun h => ?_⟩
  have hends := h (List.range 11)
  rw [hrun] at hends
  exact hends

/-! ## The lists of the decoding loops -/

theorem instListInit_appends (base : ℕ) (insts : List ι) :
    let l := insts.foldl InstList.append (instListInit base)
    l.base = base ∧ l.capacity = capacityAfter insts.length ∧ l.instArray = insts := by
  induction insts using List.reverseRecOn with
  | nil => exact ⟨rfl, rfl, rfl⟩
  | append_singleton insts inst ih =>
      simp only [List.foldl_append, List.foldl_cons, List.foldl_nil] at ih ⊢
      rcases ih with ⟨hbase, hcapacity, hinsts⟩
      refine ⟨hbase, ?_, by rw [InstList.append_instArray, hinsts]⟩
      have hsize := congrArg List.length hinsts
      simp only [InstList.append, InstList.withRoom, InstList.size, hsize, hcapacity]
      rw [List.length_append, List.length_singleton, capacityAfter_succ, grown]
      split
      case isTrue => rfl
      case isFalse => exact hcapacity

/-- The list of the decoding loops is what the memory of a list from `inst_list_init`
holds, for as long as the process runs: its instructions, base and capacity, with the
capacity within the allocated slots. -/
theorem built_init_represents (m : Allocator) (base : ℕ) (insts : List ι) :
    EndsHolding insts (built m (.init base) insts) ∧
      ∀ r, built m (.init base) insts = .ok r →
        let l := insts.foldl InstList.append (instListInit base)
        r.base = some l.base ∧ r.capacity = l.capacity ∧ r.contents = l.instArray.map some := by
  rcases instListInit_appends base insts with ⟨hbase, hcapacity, hinsts⟩
  refine ⟨endsHolding_of_slots (fun _ => ?_) insts, fun r hr => ?_⟩
  · simp [slotsIn_eq, Creation.requested, instListInitCapacity]
  · have hfilled := filled_of_built hr
    simp only [hbase, hcapacity, hinsts]
    exact ⟨hfilled.base_eq, hfilled.capacity_eq, hfilled.contents_eq⟩

end CProfiler.InstLists
