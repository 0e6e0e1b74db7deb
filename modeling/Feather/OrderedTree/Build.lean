import Feather.OrderedTree.Edit

/-!
# Building a tree by appending children

Nodes that stand alone at first become, one after another, the last child of another node.
-/

namespace OrderedTree

open Option

variable {β γ : Type}
variable {f g g₁ g₂ : Forest β γ} {n m : Node β γ}

namespace Forest

/-- A node that stands alone. -/
def single (i : ℕ) (b : β ⊕ γ) : Forest β γ := Node.tree ⟨i, b, nil⟩

/-- Nodes that stand alone, with consecutive identities from `m` on. -/
def singles (m : ℕ) : List (β ⊕ γ) → Forest β γ
  | [] => nil
  | b :: L => single m b ++ singles (m + 1) L

@[simp] theorem entries_single (k i : ℕ) (b : β ⊕ γ) : (single i b).entries k = [⟨k, i, b⟩] := by
  cases b <;> rfl

@[simp] theorem ids_single (i : ℕ) (b : β ⊕ γ) : (single i b).ids = [i] := by
  cases b <;> rfl

attribute [local simp] Node.tree

theorem find?_single (i : ℕ) (b : β ⊕ γ) : (single i b).find? i = some ⟨i, b, nil⟩ := by
  cases b <;> simp [single, find?]

theorem renumber_single (m i : ℕ) (b : β ⊕ γ) : (single i b).renumber m = single m b := by
  cases b <;> rfl

theorem singles_append (m : ℕ) (L M : List (β ⊕ γ)) :
    singles m (L ++ M) = singles m L ++ singles (m + L.length) M := by
  induction L generalizing m with
  | nil => rfl
  | cons b L ih =>
    rw [List.cons_append, singles, singles, ih, append_assoc, List.length_cons]
    congr 3
    omega

theorem foldr_max_le {l : List ℕ} {m : ℕ} : l.foldr max 0 ≤ m ↔ ∀ x ∈ l, x ≤ m := by
  induction l with
  | nil => simp
  | cons a l ih => simp [ih]

theorem fresh_append_single (f : Forest β γ) (b : β ⊕ γ) :
    (f ++ single f.fresh b).fresh = f.fresh + 1 := by
  have hle : (f ++ single f.fresh b).ids.foldr max 0 ≤ f.fresh := by
    rw [foldr_max_le]
    intro x hx
    rcases List.mem_append.1 (ids_append f _ ▸ hx) with hx | hx
    · exact (lt_fresh hx).le
    · simp at hx
      omega
  have hge : f.fresh < (f ++ single f.fresh b).fresh := lt_fresh (by simp)
  unfold fresh at *
  omega

theorem notMem_of_fresh_le {x : ℕ} (h : f.fresh ≤ x) : x ∉ f.ids :=
  fun hx => absurd (lt_fresh hx) (by omega)

/-! ### Attaching -/

variable {p c i : ℕ}

/-- Attaching within a part of the forest. -/
theorem attach_append_right (hp : p ∉ f.ids) (hc : c ∉ f.ids) :
    (f ++ g).attach p i c = f ++ g.attach p i c := by
  unfold attach
  rw [find?_append, find?_eq_none.2 hc, none_or]
  cases g.find? c with
  | none => rfl
  | some n =>
    simp only [remove, modifyChildren]
    rw [update_append_right hc, update_append_right hp]

theorem find?_append_of_notMem (h : p ∉ f.ids) : (f ++ g).find? p = g.find? p := by
  rw [find?_append, find?_eq_none.2 h, none_or]

theorem find?_append_of_mem (h : p ∈ f.ids) : (f ++ g).find? p = f.find? p := by
  obtain ⟨n, hn⟩ := exists_find?_of_mem h
  rw [find?_append, hn, some_or]

theorem path?_append_of_mem (h : p ∈ f.ids) : (f ++ g).path? p = f.path? p := by
  rw [path?_append]
  cases hp : f.path? p with
  | none => exact absurd h (path?_eq_none.1 hp)
  | some q => rfl

theorem path?_append_of_notMem (h : p ∉ f.ids) : (f ++ g).path? p = g.path? p := by
  rw [path?_append, path?_eq_none.2 h, none_or]

/-- Replacing the children of a node depends on the children it has. -/
theorem modifyChildren_congr {φ ψ : Forest β γ → Forest β γ} (hn : f.ids.Nodup)
    (h : f.find? p = some n) (hφ : φ n.children = ψ n.children) :
    f.modifyChildren p φ = f.modifyChildren p ψ := by
  obtain ⟨l, A, B, -, -, -, hu⟩ := entries_update hn 0 h
  refine entries_injective 0 ?_
  rw [modifyChildren, modifyChildren, hu, hu, hφ]

theorem exists_find?_tree (m : Node β γ) : ∃ m', m.tree.find? m.id = some m' ∧ m'.tree = m.tree := by
  obtain ⟨i, b | c, cs⟩ := m
  · exact ⟨⟨i, .inl b, cs⟩, by simp [find?], rfl⟩
  · exact ⟨⟨i, .inr c, nil⟩, by simp [find?], rfl⟩

theorem id_mem_tree (m : Node β γ) : m.id ∈ m.tree.ids := by
  obtain ⟨i, b | c, cs⟩ := m <;> simp

theorem remove_tree_append (m : Node β γ) (g : Forest β γ) : (m.tree ++ g).remove m.id = g := by
  obtain ⟨i, b | c, cs⟩ := m <;> simp [remove, update]

/-- A forest is empty or has a first tree. -/
@[elab_as_elim]
theorem tree_induction {motive : Forest β γ → Prop} (f : Forest β γ) (nil : motive nil)
    (tree : ∀ (m : Node β γ) (r : Forest β γ), motive r → motive (m.tree ++ r)) : motive f := by
  induction f with
  | nil => exact nil
  | branch i b cs r _ ih => exact tree ⟨i, .inl b, cs⟩ r ih
  | leaf i c r ih => exact tree ⟨i, .inr c, .nil⟩ r ih

theorem rootIDs_tree_append (m : Node β γ) (r : Forest β γ) :
    (m.tree ++ r).rootIDs = m.id :: r.rootIDs := by
  obtain ⟨i, b | c, cs⟩ := m <;> rfl

/-- A tree among others: it is found, and taken away it leaves the others. -/
theorem find?_tree_between (hnd : (g₁ ++ (m.tree ++ g₂)).ids.Nodup) :
    (∃ m', (g₁ ++ (m.tree ++ g₂)).find? m.id = some m' ∧ m'.tree = m.tree) ∧
      (g₁ ++ (m.tree ++ g₂)).remove m.id = g₁ ++ g₂ ∧ (g₁ ++ g₂).ids.Nodup := by
  simp only [ids_append] at hnd
  have hm : m.id ∉ g₁.ids := fun h =>
    (List.nodup_append.1 hnd).2.2 _ h _ (List.mem_append_left _ (id_mem_tree m)) rfl
  refine ⟨?_, ?_, ?_⟩
  · obtain ⟨m', hfind, htree⟩ := exists_find?_tree m
    refine ⟨m', ?_, htree⟩
    rw [find?_append_of_notMem hm, find?_append, hfind, some_or]
  · rw [remove, update_append_right hm]
    exact congrArg (g₁ ++ ·) (remove_tree_append m g₂)
  · rw [ids_append]
    exact hnd.sublist ((List.sublist_append_right _ _).append_left _)

theorem attach_last (hnd : (g₁ ++ (m.tree ++ g₂)).ids.Nodup) (hp : (g₁ ++ g₂).find? p = some n) :
    (g₁ ++ (m.tree ++ g₂)).attach p n.children.rootIDs.length m.id =
      (g₁ ++ g₂).modifyChildren p (fun cs => cs ++ m.tree) := by
  obtain ⟨⟨m', hfind, htree⟩, hrem, hnd'⟩ := find?_tree_between hnd
  rw [attach, hfind]
  simp only [hrem, htree]
  refine modifyChildren_congr hnd' hp ?_
  have := insertAt_append m.tree n.children nil
  simpa using this

/-- In the forest without the tree that is attached, the new parent has the same children. -/
theorem find?_of_attach (hnd : (g₁ ++ (m.tree ++ g₂)).ids.Nodup)
    (hp : (g₁ ++ g₂).find? p = some n) : (g₁ ++ (m.tree ++ g₂)).find? p = some n := by
  simp only [ids_append] at hnd
  rw [find?_append] at hp ⊢
  rcases or_eq_some_iff.1 hp with h | ⟨h1, h2⟩
  · rw [h, some_or]
  · have hpm : p ∉ m.tree.ids := fun h =>
      (List.nodup_append.1 (List.nodup_append.1 hnd).2.1).2.2 _ h _ (mem_of_find? h2) rfl
    rw [h1, none_or, find?_append_of_notMem hpm, h2]

/-- The tree that is attached has nothing above it. -/
theorem path?_of_attach (hnd : (g₁ ++ (m.tree ++ g₂)).ids.Nodup) :
    (g₁ ++ (m.tree ++ g₂)).path? m.id = some [] := by
  simp only [ids_append] at hnd
  have hm : m.id ∉ g₁.ids := fun h =>
    (List.nodup_append.1 hnd).2.2 _ h _ (List.mem_append_left _ (id_mem_tree m)) rfl
  rw [path?_append_of_notMem hm]
  obtain ⟨i, b | c, cs⟩ := m <;> simp [path?]

theorem modifyChildren_single_append (b : β) (g : Forest β γ) (φ : Forest β γ → Forest β γ) :
    (single p (.inl b) ++ g).modifyChildren p φ = branch p b (φ nil) nil ++ g := by
  simp [single, modifyChildren, update]

/-- A node appended below one that ends the listing so far comes last in the listing. -/
theorem entries_grow {t : Forest β γ} {N1 N2 : List (Entry β γ)} {l : ℕ} {b : β} {a : β ⊕ γ}
    (hn : t.ids.Nodup) (h : t.entries 0 = N1 ++ ⟨l, p, .inl b⟩ :: N2) (hN2 : ∀ d ∈ N2, l < d.level) :
    (t.modifyChildren p (fun cs => cs ++ single c a)).entries 0 =
      t.entries 0 ++ [⟨l + 1, c, a⟩] := by
  have h' : t.entries 0 = N1 ++ ⟨l, p, .inl b⟩ :: (N2 ++ []) := by rw [h, List.append_nil]
  obtain ⟨n, hfind, hlab, hcs⟩ := find?_of_entries hn h' hN2 (closes_nil l)
  rw [← hcs] at h'
  rw [entries_modifyChildren hn h' (closes_nil l), h, ← hcs]
  simp

/-- A listing whose other entries are deeper than the first is that of a single tree. -/
theorem exists_branch_of_entries {k : ℕ} {b : β} {D : List (Entry β γ)}
    (h : f.entries k = ⟨k, i, .inl b⟩ :: D) (hD : ∀ d ∈ D, k < d.level) :
    ∃ cs, f = branch i b cs nil ∧ cs.entries (k + 1) = D := by
  cases f with
  | nil => simp at h
  | leaf j c r => simp at h
  | branch j b' cs r =>
    simp only [entries_branch, List.cons.injEq] at h
    obtain ⟨⟨rfl, rfl⟩, h⟩ := h
    obtain ⟨hcs, hr⟩ := append_inj_of_closes
      (show cs.entries (k + 1) ++ r.entries k = D ++ [] by rw [h, List.append_nil])
      lt_level_of_mem_entries_succ hD (closes_entries k r) (closes_nil k)
    obtain rfl : r = nil := entries_injective k hr
    exact ⟨cs, rfl, hcs⟩

/-! ### A stack along the rightmost path -/

/-- The nodes of a stack, from its top to the root, lie on the rightmost path of a listing: one with
`l` nodes below it is at level `l`, and all that follows it is deeper. -/
def Spine (N : List (Entry β γ)) : List ℕ → Prop
  | [] => True
  | x :: stack =>
    (∃ N₁ b N₂, N = N₁ ++ ⟨stack.length, x, .inl b⟩ :: N₂ ∧ ∀ d ∈ N₂, stack.length < d.level) ∧
      Spine N stack

namespace Spine

variable {N : List (Entry β γ)} {stack : List ℕ} {e : Entry β γ}

/-- An entry below a node of the stack leaves the stack on the rightmost path. -/
theorem concat (h : Spine N stack) (he : stack.length ≤ e.level) : Spine (N ++ [e]) stack := by
  induction stack with
  | nil => trivial
  | cons x stack ih =>
    obtain ⟨⟨N1, b, N2, rfl, hN2⟩, hs⟩ := h
    rw [List.length_cons] at he
    refine ⟨⟨N1, b, N2 ++ [e], by simp, ?_⟩, ih hs (by omega)⟩
    intro d hd
    rcases List.mem_append.1 hd with hd | hd
    · exact hN2 d hd
    · obtain rfl := List.mem_singleton.1 hd
      omega

/-- A new last entry below the top of the stack goes on top of it. -/
theorem push (h : Spine N stack) (x : ℕ) (b : β) :
    Spine (N ++ [⟨stack.length, x, .inl b⟩]) (x :: stack) := by
  refine ⟨⟨N, b, [], rfl, ?_⟩, h.concat le_rfl⟩
  intro d hd
  simp at hd

theorem drop (h : Spine N stack) (n : ℕ) : Spine N (stack.drop n) := by
  induction n generalizing stack with
  | zero => exact h
  | succ n ih =>
    cases stack with
    | nil => trivial
    | cons x stack => exact ih h.2

end Spine

end Forest

end OrderedTree
