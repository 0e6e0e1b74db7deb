import Feather.OrderedTree.Forest

/-!
# The descendents of a tree item

`MPTreeItemUtility.m`.  The items below each child are collected with a stack, the child itself
before that and once more from the stack.
-/

namespace Feather.Extensions

open OrderedTree List

variable {β γ : Type} {f : Forest β γ}

/-- The trees of a forest, one by one. -/
def trees : Forest β γ → List (Node β γ)
  | .nil => []
  | .branch i b cs r => ⟨i, .inl b, cs⟩ :: trees r
  | .leaf i c r => ⟨i, .inr c, .nil⟩ :: trees r

/-- An item is an object, different from those below it, which are different from each other. -/
structure TreeItem (β γ : Type) extends Node β γ where
  nodup : (id :: children.ids).Nodup

/-- `while (stack.count > 0)`, at most `fuel` times. -/
def visitStack : ℕ → List (Node β γ) → List (Node β γ) → Option (List (Node β γ))
  | 0, _, _ => none
  | fuel + 1, stack, treeItems =>
    match stack.getLast? with
    | none => some treeItems
    | some last => visitStack fuel (stack.dropLast ++ trees last.children) (treeItems ++ [last])

/-- `+descendentsForTreeItem:`.  The stack is empty before each child is added to it. -/
def descendentsForTreeItem (fuel : ℕ) (treeItem : TreeItem β γ) : Option (List (Node β γ)) :=
  (trees treeItem.children).foldlM
    (fun treeItems child => visitStack fuel [child] (treeItems ++ [child])) []

/-- An item with the items below it. -/
def withDescendents (n : Node β γ) : List (Node β γ) := n :: n.children.nodes

theorem flatMap_trees (f : Forest β γ) : (trees f).flatMap withDescendents = f.nodes := by
  induction f with
  | nil => rfl
  | branch i b cs r _ ih => rw [trees, flatMap_cons, ih]; rfl
  | leaf i c r ih => rw [trees, flatMap_cons, ih]; rfl

theorem exists_visitStack {fuel : ℕ} (stack treeItems : List (Node β γ))
    (hfuel : (stack.flatMap withDescendents).length < fuel) :
    ∃ visited, visitStack fuel stack treeItems = some (treeItems ++ visited) ∧
      visited.Perm (stack.flatMap withDescendents) := by
  induction fuel generalizing stack treeItems with
  | zero => omega
  | succ fuel ih =>
    rw [visitStack]
    obtain rfl | ⟨below, last, rfl⟩ := eq_nil_or_concat' stack
    · exact ⟨[], by simp, Perm.refl _⟩
    · have hbelow : (below ++ trees last.children).flatMap withDescendents =
          below.flatMap withDescendents ++ last.children.nodes := by
        rw [flatMap_append, flatMap_trees]
      have hstack : (below ++ [last]).flatMap withDescendents =
          below.flatMap withDescendents ++ last :: last.children.nodes := by
        simp [withDescendents]
      rw [hstack, length_append, length_cons] at hfuel
      obtain ⟨visited, hvisit, hperm⟩ := ih (below ++ trees last.children)
        (treeItems ++ [last]) (by rw [hbelow, length_append]; omega)
      rw [hbelow] at hperm
      refine ⟨last :: visited, ?_, ?_⟩
      · simpa using hvisit
      · rw [hstack]
        exact (hperm.cons last).trans perm_middle.symm

/-- The children are collected twice, the items below them once. -/
theorem exists_foldlM_visitStack {fuel : ℕ} (children treeItems : List (Node β γ))
    (hfuel : (children.flatMap withDescendents).length < fuel) :
    ∃ visited, children.foldlM
        (fun treeItems child => visitStack fuel [child] (treeItems ++ [child])) treeItems =
        some (treeItems ++ visited) ∧
      visited.Perm (children ++ children.flatMap withDescendents) := by
  induction children generalizing treeItems with
  | nil => exact ⟨[], by simp, Perm.refl _⟩
  | cons child children ih =>
    rw [flatMap_cons, length_append] at hfuel
    obtain ⟨first, hfirst, hpermFirst⟩ := exists_visitStack [child]
      (treeItems ++ [child]) (show _ < fuel by rw [flatMap_singleton]; omega)
    rw [flatMap_singleton] at hpermFirst
    obtain ⟨rest, hrest, hpermRest⟩ := ih (treeItems ++ [child] ++ first) (by omega)
    refine ⟨child :: (first ++ rest), ?_, ?_⟩
    · rw [foldlM_cons, hfirst]
      simpa using hrest
    · rw [flatMap_cons]
      refine ((hpermFirst.append hpermRest).trans ?_).cons child
      exact perm_append_comm_assoc _ _ _

/-- What is asked: every proper descendant once, and nothing else. -/
def Collects (treeItem : TreeItem β γ) (treeItems : List (Node β γ)) : Prop :=
  (treeItems.map Node.id).Nodup ∧ ∀ n, n ∈ treeItems ↔ n ∈ treeItem.children.nodes

/-- The method returns, and is right exactly for an item without children. -/
theorem descendentsForTreeItem_collects_iff (treeItem : TreeItem β γ) :
    (∃ treeItems, (∀ fuel, treeItem.children.nodes.length < fuel →
        descendentsForTreeItem fuel treeItem = some treeItems) ∧ Collects treeItem treeItems) ↔
      treeItem.children = .nil := by
  have hnodes := flatMap_trees treeItem.children
  obtain ⟨visited, hvisit, hperm⟩ := exists_foldlM_visitStack (trees treeItem.children) []
    (Nat.lt_succ_self _)
  rw [hnodes] at hvisit hperm
  constructor
  · rintro ⟨treeItems, hrun, hnodup, -⟩
    obtain rfl := Option.some.inj ((hrun _ (Nat.lt_succ_self _)).symm.trans hvisit)
    have htwice := ((hperm.map Node.id).nodup_iff.1 (by simpa using hnodup))
    cases hchildren : treeItem.children with
    | nil => rfl
    | branch i b cs r =>
      rw [hchildren] at htwice
      simp [trees] at htwice
    | leaf i c r =>
      rw [hchildren] at htwice
      simp [trees] at htwice
  · intro hnil
    refine ⟨[], fun fuel _ => ?_, by simp, fun n => by simp [hnil]⟩
    rw [descendentsForTreeItem, hnil]
    rfl

/-- An item with one child: the child is returned twice. -/
theorem descendentsForTreeItem_twice :
    descendentsForTreeItem 3 (⟨⟨0, .inl (), .leaf 1 () .nil⟩, by decide⟩ : TreeItem Unit Unit) =
      some [⟨1, .inr (), .nil⟩, ⟨1, .inr (), .nil⟩] := by
  decide

end Feather.Extensions
