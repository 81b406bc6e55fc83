import Mathlib.Data.List.Basic

/-! Rose trees under positions, the paths to their leaves, and trees that grow along their
rightmost spine. A forest stands for the children of one node. -/

namespace CProfiler.Foundation

inductive Rose (β : Type*) where
  | node (label : β) (children : List (Rose β))

namespace Rose

variable {α β : Type*}

def label : Rose β → β
  | node a _ => a

def children : Rose β → List (Rose β)
  | node _ cs => cs

/-- A forest is empty, or has a first node above a forest and a forest of further nodes. -/
theorem forest_induction {motive : List (Rose β) → Prop} (nil : motive [])
    (cons : ∀ a cs rest, motive cs → motive rest → motive (node a cs :: rest))
    (forest : List (Rose β)) : motive forest := by
  match forest with
  | [] => exact nil
  | node a cs :: rest =>
      exact cons a cs rest (forest_induction nil cons cs) (forest_induction nil cons rest)

/-! ## Leaves -/

/-- The labels on the way to each leaf, from left to right. -/
def leafPaths : List (Rose β) → List (List β)
  | [] => []
  | node a [] :: rest => [a] :: leafPaths rest
  | node a (c :: cs) :: rest => (leafPaths (c :: cs)).map (a :: ·) ++ leafPaths rest

theorem leafPaths_cons (a : β) (cs rest : List (Rose β)) :
    leafPaths (node a cs :: rest) =
      (if cs.isEmpty then [[a]] else (leafPaths cs).map (a :: ·)) ++ leafPaths rest := by
  cases cs with
  | nil => simp [leafPaths]
  | cons c cs => simp [leafPaths]

theorem leafPaths_append (forest forest' : List (Rose β)) :
    leafPaths (forest ++ forest') = leafPaths forest ++ leafPaths forest' := by
  induction forest with
  | nil => simp [leafPaths]
  | cons c forest ih =>
      cases c with
      | node a cs => rw [List.cons_append, leafPaths_cons, leafPaths_cons, ih, List.append_assoc]

/-! ## Positions -/

/-- The children of the node at a position; no steps lead to the forest itself. -/
def childrenAt : List (Rose β) → List ℕ → Option (List (Rose β))
  | forest, [] => some forest
  | forest, i :: position => (forest[i]?).bind (fun c => childrenAt c.children position)

/-- The labels on the way to a position. -/
def labelsAt : List (Rose β) → List ℕ → Option (List β)
  | _, [] => some []
  | forest, i :: position =>
      (forest[i]?).bind (fun c => (labelsAt c.children position).map (c.label :: ·))

/-- A new last child for the node at a position. -/
def appendAt (cell : Rose β) : List (Rose β) → List ℕ → List (Rose β)
  | forest, [] => forest ++ [cell]
  | forest, i :: position =>
      forest.modify i (fun c => node c.label (appendAt cell c.children position))

/-! ## Spines -/

/-- A node of the rightmost spine, with the nodes to its left. -/
structure Frame (α β : Type*) where
  lefts : List (Rose β)
  tag : α

section Spine

variable (text : α → β)

/-- The forest with a spine, above the forest `inner`. -/
def plug : List (Frame α β) → List (Rose β) → List (Rose β)
  | [], inner => inner
  | frame :: frames, inner => frame.lefts ++ [node (text frame.tag) (plug frames inner)]

/-- The position of the last node of a spine. -/
def spine (frames : List (Frame α β)) : List ℕ := frames.map (fun frame => frame.lefts.length)

theorem plug_append (frames frames' : List (Frame α β)) (inner : List (Rose β)) :
    plug text (frames ++ frames') inner = plug text frames (plug text frames' inner) := by
  induction frames with
  | nil => rfl
  | cons frame frames ih => rw [List.cons_append, plug, plug, ih]

theorem childrenAt_plug (frames : List (Frame α β)) (inner : List (Rose β)) :
    childrenAt (plug text frames inner) (spine frames) = some inner := by
  induction frames with
  | nil => rfl
  | cons frame frames ih =>
      have hlast : (plug text (frame :: frames) inner)[frame.lefts.length]? =
          some (node (text frame.tag) (plug text frames inner)) := by simp [plug]
      rw [spine, List.map_cons, childrenAt, hlast]
      exact ih

theorem appendAt_plug (cell : Rose β) (frames : List (Frame α β)) (inner : List (Rose β)) :
    appendAt cell (plug text frames inner) (spine frames) =
      plug text frames (inner ++ [cell]) := by
  induction frames with
  | nil => rfl
  | cons frame frames ih =>
      rw [spine, List.map_cons, appendAt, plug, List.modify_eq_take_drop, List.take_left,
        List.drop_left, List.modifyHead_cons]
      simp only [children, label]
      rw [← spine, ih, plug]

/-- The spine of a forest whose only leaf is below `tags`. -/
def chain (tags : List α) : List (Frame α β) := tags.map (fun tag => ⟨[], tag⟩)

theorem leafPaths_chain {tags : List α} (h : tags ≠ []) :
    leafPaths (plug text (chain tags) []) = [tags.map text] := by
  induction tags with
  | nil => exact absurd rfl h
  | cons tag tags ih =>
      rw [chain, List.map_cons, ← chain, plug, List.nil_append, leafPaths_cons, leafPaths]
      cases tags with
      | nil => rfl
      | cons tag' tags =>
          rw [ih (List.cons_ne_nil _ _)]
          simp [chain, plug]

theorem plug_isEmpty_of_ne_nil {frames : List (Frame α β)} (h : frames ≠ [])
    (inner : List (Rose β)) : (plug text frames inner).isEmpty = false := by
  cases frames with
  | nil => exact absurd rfl h
  | cons frame frames => simp [plug]

end Spine

end Rose

end CProfiler.Foundation
