import CProfiler.Foundation.KeyedLists
import Mathlib.Data.List.Induction
import Mathlib.Data.List.InsertIdx
import Mathlib.Data.List.Pairwise

/-! A ledger of numbered entries, which are added at the end, removed from any position
and switched on and off. -/

namespace CProfiler.Foundation

variable {α : Type*}

/-- An entry with the direction in which it was switched last, if ever. -/
structure Entry (α : Type*) where
  number : ℕ
  content : α
  lastSwitch : Option Bool

namespace Entry

/-- An entry is on unless it was switched off last. -/
def on (e : Entry α) : Bool := e.lastSwitch.getD true

def switch (e : Entry α) : Entry α := { e with lastSwitch := some (!e.on) }

@[simp] theorem number_switch (e : Entry α) : e.switch.number = e.number := rfl

@[simp] theorem on_switch (e : Entry α) : e.switch.on = !e.on := rfl

/-- What `f` keeps of the content, under the same number. -/
def map {β : Type*} (f : α → β) (e : Entry α) : Entry β where
  number := e.number
  content := f e.content
  lastSwitch := e.lastSwitch

end Entry

/-- The entries that were added and not removed since, in the order of their numbers. -/
structure Ledger (α : Type*) where
  count : ℕ
  live : List (Entry α)
  ascending : (live.map Entry.number).Pairwise (· < ·)
  below : ∀ e ∈ live, e.number < count

inductive Change (α : Type*) where
  | add (content : α)
  | remove (position : ℕ)
  | switch (position : ℕ)

def Change.map {β : Type*} (f : α → β) : Change α → Change β
  | .add content => .add (f content)
  | .remove position => .remove position
  | .switch position => .switch position

namespace Ledger

def empty : Ledger α := ⟨0, [], List.Pairwise.nil, fun _ h => absurd h List.not_mem_nil⟩

def add (l : Ledger α) (content : α) : Ledger α where
  count := l.count + 1
  live := l.live ++ [⟨l.count, content, none⟩]
  ascending := by
    rw [List.map_append]
    refine List.pairwise_append.mpr ⟨l.ascending, List.pairwise_singleton _ _, ?_⟩
    intro n hn m hm
    obtain ⟨e, he, rfl⟩ := List.mem_map.mp hn
    rw [List.map_singleton, List.mem_singleton] at hm
    exact hm ▸ l.below e he
  below e he := by
    rcases List.mem_append.mp he with he | he
    · exact Nat.lt_succ_of_lt (l.below e he)
    · exact List.mem_singleton.mp he ▸ Nat.lt_succ_self _

def remove (l : Ledger α) (position : ℕ) : Ledger α where
  count := l.count
  live := l.live.eraseIdx position
  ascending := l.ascending.sublist ((List.eraseIdx_sublist _ _).map _)
  below e he := l.below e (List.mem_of_mem_eraseIdx he)

theorem map_number_modify (live : List (Entry α)) (position : ℕ) :
    (live.modify position Entry.switch).map Entry.number = live.map Entry.number :=
  map_modify_of_eq Entry.number_switch live position

def switch (l : Ledger α) (position : ℕ) : Ledger α where
  count := l.count
  live := l.live.modify position Entry.switch
  ascending := by
    rw [map_number_modify]
    exact l.ascending
  below e he := by
    have hmem : e.number ∈ l.live.map Entry.number := by
      rw [← map_number_modify l.live position]
      exact List.mem_map_of_mem he
    obtain ⟨e', he', heq⟩ := List.mem_map.mp hmem
    exact heq ▸ l.below e' he'

def apply (l : Ledger α) : Change α → Ledger α
  | .add content => l.add content
  | .remove position => l.remove position
  | .switch position => l.switch position

/-- The ledger after a history of changes. -/
def after (changes : List (Change α)) : Ledger α := changes.foldl apply empty

/-- The entries that are on. -/
def active (l : Ledger α) : List α := (l.live.filter Entry.on).map Entry.content

theorem nodup (l : Ledger α) : (l.live.map Entry.number).Nodup :=
  l.ascending.imp Nat.ne_of_lt

/-! ## What is kept of the contents -/

section Map

variable {β : Type*} (f : α → β)

/-- A history of contents, and the history of what `f` keeps of them. -/
theorem live_after_map (changes : List (Change α)) :
    (after (changes.map (Change.map f))).count = (after changes).count ∧
      (after (changes.map (Change.map f))).live = (after changes).live.map (Entry.map f) := by
  induction changes using List.reverseRecOn with
  | nil => exact ⟨rfl, rfl⟩
  | append_singleton changes change ih =>
      obtain ⟨hcount, hlive⟩ := ih
      rw [List.map_append]
      simp only [after, List.map_cons, List.map_nil, List.foldl_append, List.foldl_cons,
        List.foldl_nil] at hcount hlive ⊢
      cases change with
      | add content => simp [Change.map, apply, add, hcount, hlive, Entry.map]
      | remove position =>
          refine ⟨hcount, ?_⟩
          simp only [Change.map, apply, remove, hlive]
          rw [List.eraseIdx_map]
      | switch position =>
          refine ⟨hcount, ?_⟩
          simp only [Change.map, apply, switch, hlive]
          exact (map_modify (f := Entry.switch) (g := Entry.map f) (fun _ => rfl) _ position).symm

theorem active_after_map (changes : List (Change α)) :
    (after (changes.map (Change.map f))).active = (after changes).active.map f := by
  rw [active, (live_after_map f changes).2, active, List.filter_map, List.map_map, List.map_map]
  rfl

end Map

end Ledger

end CProfiler.Foundation
