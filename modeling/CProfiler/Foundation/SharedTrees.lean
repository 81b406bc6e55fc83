import Mathlib.Data.List.Basic
import Mathlib.Logic.Relation

/-! # Trees with shared subtrees

Nodes are references, and `children` lists those of each. A node may be listed by several
others; a tree is a node below which every path is bounded. -/

namespace CProfiler.Foundation

variable {ι : Type*} (children : ι → List ι)

/-- The second node is the first or a descendant of it. -/
def Reaches : ι → ι → Prop := Relation.ReflTransGen fun parent c => c ∈ children parent

/-- The property holds of the node and of all its descendants. -/
def AllBelow (P : ι → Prop) (node : ι) : Prop := ∀ t, Reaches children node t → P t

/-- Every path from the node downwards has fewer than `n` steps. -/
def Shallow : ℕ → ι → Prop
  | 0, _ => False
  | n + 1, node => ∀ c ∈ children node, Shallow n c

variable {children} {P Q : ι → Prop} {node c t : ι}

theorem AllBelow.self (h : AllBelow children P node) : P node := h node .refl

theorem AllBelow.of_reaches (h : AllBelow children P node) (ht : Reaches children node t) :
    AllBelow children P t := fun u hu => h u (ht.trans hu)

theorem AllBelow.child (h : AllBelow children P node) (hc : c ∈ children node) :
    AllBelow children P c := h.of_reaches (.single hc)

theorem allBelow_iff : AllBelow children P node ↔
    P node ∧ ∀ c ∈ children node, AllBelow children P c := by
  constructor
  · exact fun h => ⟨h.self, fun c hc => h.child hc⟩
  · rintro ⟨hnode, hchildren⟩ t ht
    rcases Relation.ReflTransGen.cases_head ht with rfl | ⟨c, hc, ht⟩
    · exact hnode
    · exact hchildren c hc t ht

theorem AllBelow.imp (h : AllBelow children P node)
    (himp : ∀ t, AllBelow children P t → P t → Q t) : AllBelow children Q node :=
  fun t ht => himp t (h.of_reaches ht) (h t ht)

end CProfiler.Foundation
