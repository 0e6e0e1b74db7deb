import Feather.OrderedTree.Family

/-!
# Replacing the children of one node

Inserting a tree into a list of children, taking one out and putting others in its place are the
same edit: the node gets a new list of children.
-/

namespace OrderedTree

open List

variable {x : ℕ}

namespace Forest

variable {β γ : Type} {f g : Forest β γ} {p q : ℕ} {b : β}
variable {cs ds : Forest β γ} {n m : Node β γ}

/-- The children of the inner node `p` become `cs`. -/
def setChildren (f : Forest β γ) (p : ℕ) (cs : Forest β γ) : Forest β γ :=
  f.modifyChildren p fun _ => cs

theorem setChildren_of_notMem (h : p ∉ f.ids) (cs : Forest β γ) : f.setChildren p cs = f :=
  modifyChildren_of_notMem h

theorem setChildren_append_left (h : p ∉ g.ids) (cs : Forest β γ) :
    (f ++ g).setChildren p cs = f.setChildren p cs ++ g :=
  update_append_left h

/-- The last list counts. -/
theorem setChildren_setChildren (p : ℕ) (cs ds f : Forest β γ) :
    (f.setChildren p cs).setChildren p ds = f.setChildren p ds := by
  unfold setChildren
  induction f with
  | nil => rfl
  | branch i b' es r ihc ihr =>
    rw [modifyChildren_branch, modifyChildren_branch]
    split_ifs with hi
    · rw [modifyChildren_branch, if_pos hi]
    · rw [modifyChildren_branch, if_neg hi, ihc, ihr]
  | leaf i d r ih =>
    rw [modifyChildren_leaf, modifyChildren_leaf]
    split_ifs with hi
    · rw [modifyChildren_leaf, if_pos hi]
    · rw [modifyChildren_leaf, if_neg hi, ih]

theorem setChildren_of_find? (hn : f.ids.Nodup) (h : f.find? p = some ⟨p, .inl b, cs⟩) :
    f.setChildren p cs = f := by
  obtain ⟨l, A, B, he, -, hB⟩ := entries_of_find? 0 h
  refine entries_injective 0 ?_
  rw [setChildren, entries_modifyChildren hn he hB, he]

theorem find?_setChildren_self (h : f.find? p = some ⟨p, .inl b, cs⟩) (ds : Forest β γ) :
    (f.setChildren p ds).find? p = some ⟨p, .inl b, ds⟩ :=
  find?_modifyChildren_self h rfl

/-- The nodes that are in the new children if they were in the old ones. -/
theorem find?_setChildren_of_ne (hn : f.ids.Nodup) (hp : f.find? p = some n)
    (hq : ds.find? q = n.children.find? q) (hqp : q ≠ p) :
    (f.setChildren p ds).find? q =
      (f.find? q).map fun m => { m with children := m.children.setChildren p ds } := by
  refine find?_modifyChildren_of_ne hn (fun n' hn' => ?_) hqp
  rw [hq, Option.some.inj (hn'.symm.trans hp)]

/-- A node that does not have `p` below it keeps what it has below it. -/
theorem find?_setChildren_frame (hn : f.ids.Nodup) (hp : f.find? p = some n)
    (hm : f.find? q = some m) (hpm : p ∉ m.children.ids) (hq : ds.find? q = n.children.find? q)
    (hqp : q ≠ p) : (f.setChildren p ds).find? q = some m := by
  rw [find?_setChildren_of_ne hn hp hq hqp, hm, Option.map_some, setChildren_of_notMem hpm]

/-- A root stands with its tree between other trees. -/
theorem exists_between_of_mem_rootIDs (hn : f.ids.Nodup) (hx : x ∈ f.rootIDs)
    (hm : f.find? x = some m) : ∃ pre post, f = pre ++ (m.tree ++ post) := by
  induction f using tree_induction with
  | nil => simp at hx
  | tree k r ih =>
    rw [ids_append, nodup_append] at hn
    by_cases hk : x ∈ k.tree.ids
    · obtain ⟨k', hk', htree⟩ := exists_find?_tree k
      rw [rootIDs_tree_append, mem_cons] at hx
      obtain rfl | hx := hx
      · rw [find?_append, hk'] at hm
        obtain rfl := Option.some.inj hm
        exact ⟨nil, r, by rw [htree, nil_append]⟩
      · exact absurd rfl (hn.2.2 x hk x (rootIDs_subset r hx))
    · rw [find?_append_of_notMem hk] at hm
      rw [rootIDs_tree_append, mem_cons] at hx
      obtain rfl | hx := hx
      · exact absurd (id_mem_tree k) hk
      · obtain ⟨pre, post, rfl⟩ := ih hn.2.1 hx hm
        exact ⟨k.tree ++ pre, post, (append_assoc _ _ _).symm⟩

/-- The node above another one has the parent of that below it, or is the parent. -/
theorem parent_mem_children {c : ℕ} (hn : f.ids.Nodup) (hc : c ∈ f.childIDs p)
    (hx : f.find? x = some n) (hcn : c ∈ n.children.ids) (hxp : x ≠ p) : p ∈ n.children.ids := by
  obtain ⟨P, hP, hPc⟩ := path?_of_mem_childIDs hn hc
  have hxc : x ≠ c := by
    rintro rfl
    exact (children_nodup hn hx).2 hcn
  have hmem : x ∈ P ++ [p] := by
    by_contra hx'
    refine notMem_tree_of_path? hn hPc hx' hxc hx ?_
    rw [ids_tree hx]
    exact mem_cons_of_mem _ hcn
  have hmem' : x ∈ P := by
    rw [mem_append, mem_singleton] at hmem
    exact hmem.resolve_right hxp
  obtain ⟨A, B, rfl⟩ := append_of_mem hmem'
  have hp := mem_tree_of_path? hn hP hx
  rw [ids_tree hx, mem_cons] at hp
  exact hp.resolve_left (Ne.symm hxp)

section Child

variable {pre post : Forest β γ} {m : Node β γ}

/-- One child replaced by other trees. -/
theorem update_child (hn : f.ids.Nodup) (hp : f.find? p = some ⟨p, .inl b, pre ++ (m.tree ++ post)⟩)
    (u : Forest β γ) : (f.update m.id fun _ => u) = f.setChildren p (pre ++ (u ++ post)) := by
  obtain ⟨l, A, B, he, -, hB⟩ := entries_of_find? 0 hp
  obtain ⟨m', hm', htree⟩ := exists_find?_tree m
  have htree' := entries_tree hm' (l + 1)
  rw [htree] at htree'
  have hlist : f.entries 0 = (A ++ ⟨l, p, .inl b⟩ :: pre.entries (l + 1)) ++
      ⟨l + 1, m.id, m'.label⟩ :: (m'.children.entries (l + 2) ++ (post.entries (l + 1) ++ B)) := by
    rw [he]
    simp [htree']
  have hclo : Closes (l + 1) (post.entries (l + 1) ++ B) :=
    (closes_entries (l + 1) post).append (hB.mono (Nat.le_succ l))
  obtain ⟨n, -, -, -, hu⟩ := update_of_entries hn hlist (fun d hd => lt_level_of_mem_entries_succ d hd)
    hclo
  refine entries_injective 0 ?_
  rw [hu, setChildren, entries_modifyChildren hn he hB]
  simp

/-- A tree of the forest goes among the children of a node elsewhere in the forest. -/
theorem attach_child {g1 g2 : Forest β γ} (hn : (g1 ++ (m.tree ++ g2)).ids.Nodup)
    (hp : (g1 ++ g2).find? p = some ⟨p, .inl b, pre ++ post⟩) :
    (g1 ++ (m.tree ++ g2)).attach p pre.rootIDs.length m.id =
      (g1 ++ g2).setChildren p (pre ++ (m.tree ++ post)) := by
  obtain ⟨hfind, hrem, hn'⟩ := find?_tree_between hn
  obtain ⟨m', hm', htree⟩ := hfind
  rw [attach, hm']
  simp only [hrem, htree]
  refine modifyChildren_congr hn' hp ?_
  exact insertAt_append m.tree pre post

end Child

/-! ### The nodes of a forest -/

/-- The nodes of a forest, wherever they are. -/
def nodePairs (f : Forest β γ) : List (ℕ × (β ⊕ γ)) := (f.entries 0).map fun e => (e.id, e.label)

theorem nodePairs_eq (k : ℕ) (f : Forest β γ) :
    f.nodePairs = (f.entries k).map fun e => (e.id, e.label) := by
  rw [nodePairs, ← map_nodes_eq_map_entries 0, map_nodes_eq_map_entries k]

@[simp] theorem nodePairs_append (f g : Forest β γ) :
    (f ++ g).nodePairs = f.nodePairs ++ g.nodePairs := by
  simp [nodePairs]

theorem map_fst_nodePairs (f : Forest β γ) : f.nodePairs.map Prod.fst = f.ids := by
  rw [nodePairs, map_map, show Prod.fst ∘ _ = Entry.id from rfl, map_id_entries]

theorem map_snd_nodePairs (f : Forest β γ) : f.nodePairs.map Prod.snd = f.labels := by
  rw [nodePairs, map_map, show Prod.snd ∘ _ = Entry.label from rfl, map_label_entries]

/-- What comes and goes in two steps, in one. -/
theorem perm_of_perm {α : Type} {a b c d e f : List α} (h1 : (a ++ b).Perm (c ++ d))
    (h2 : (d ++ e).Perm (b ++ f)) : (a ++ e).Perm (c ++ f) := by
  rw [← Multiset.coe_eq_coe, ← Multiset.coe_add, ← Multiset.coe_add] at *
  refine add_right_cancel (b := (b : Multiset α) + d) ?_
  calc (a : Multiset α) + e + (b + d) = (a + b) + (d + e) := by abel
    _ = (c + d) + (b + f) := by rw [h1, h2]
    _ = c + f + (b + d) := by abel

/-- A list of children from which one tree goes and into which others come. -/
theorem nodePairs_exchange {pre post pre' post' lead : Forest β γ} (copy t : Forest β γ)
    (h : pre' ++ post' = pre ++ (lead ++ post)) :
    ((pre' ++ (copy ++ post')).nodePairs ++ t.nodePairs).Perm
      ((pre ++ (t ++ post)).nodePairs ++ (lead.nodePairs ++ copy.nodePairs)) := by
  have hpai := congrArg nodePairs h
  simp only [nodePairs_append] at hpai ⊢
  have hsum : (pre'.nodePairs : Multiset (ℕ × (β ⊕ γ))) + post'.nodePairs =
      pre.nodePairs + (lead.nodePairs + post.nodePairs) := by
    simpa using congrArg Multiset.ofList hpai
  simp only [← Multiset.coe_eq_coe]
  calc (pre'.nodePairs : Multiset (ℕ × (β ⊕ γ))) + (copy.nodePairs + post'.nodePairs) + t.nodePairs
      = (pre'.nodePairs + post'.nodePairs) + (copy.nodePairs + t.nodePairs) := by abel
    _ = (pre.nodePairs + (lead.nodePairs + post.nodePairs)) + (copy.nodePairs + t.nodePairs) := by
      rw [hsum]
    _ = pre.nodePairs + (t.nodePairs + post.nodePairs) + (lead.nodePairs + copy.nodePairs) := by
      abel

/-- The new children come, the old ones go. -/
theorem nodePairs_setChildren (hn : f.ids.Nodup) (hp : f.find? p = some ⟨p, .inl b, cs⟩)
    (ds : Forest β γ) :
    ((f.setChildren p ds).nodePairs ++ cs.nodePairs).Perm (f.nodePairs ++ ds.nodePairs) := by
  obtain ⟨l, A, B, he, -, hB⟩ := entries_of_find? 0 hp
  let pair : Entry β γ → ℕ × (β ⊕ γ) := fun e => (e.id, e.label)
  have hold : f.nodePairs = A.map pair ++ (p, .inl b) :: (cs.nodePairs ++ B.map pair) := by
    rw [nodePairs, he, nodePairs_eq (l + 1) cs]
    simp [pair]
  have hnew : (f.setChildren p ds).nodePairs =
      A.map pair ++ (p, .inl b) :: (ds.nodePairs ++ B.map pair) := by
    rw [nodePairs, setChildren, entries_modifyChildren hn he hB, nodePairs_eq (l + 1) ds]
    simp [pair]
  rw [hold, hnew, List.append_assoc, List.append_assoc, List.cons_append, List.cons_append,
    List.append_assoc, List.append_assoc]
  refine List.Perm.append_left _ (List.Perm.cons _ ?_)
  calc List.Perm (ds.nodePairs ++ (B.map pair ++ cs.nodePairs))
        (B.map pair ++ cs.nodePairs ++ ds.nodePairs) := perm_append_comm
    List.Perm _ (cs.nodePairs ++ B.map pair ++ ds.nodePairs) :=
      perm_append_comm.append_right _
    _ = cs.nodePairs ++ (B.map pair ++ ds.nodePairs) := List.append_assoc _ _ _

theorem mem_ids_setChildren (hn : f.ids.Nodup) (hp : f.find? p = some ⟨p, .inl b, cs⟩)
    (ds : Forest β γ) (hx : x ∈ f.ids) : x ∈ (f.setChildren p ds).ids ∨ x ∈ cs.ids := by
  have hperm := (nodePairs_setChildren hn hp ds).map Prod.fst
  simp only [map_append, map_fst_nodePairs] at hperm
  exact mem_append.1 (hperm.mem_iff.2 (mem_append_left _ hx))

/-- No node is lost if the old children are among the new ones. -/
theorem ids_subset_setChildren (hn : f.ids.Nodup) (hp : f.find? p = some ⟨p, .inl b, cs⟩)
    (hcs : cs.ids ⊆ ds.ids) : f.ids ⊆ (f.setChildren p ds).ids := by
  intro x hx
  obtain h | h := mem_ids_setChildren hn hp ds hx
  · exact h
  · exact children_subset (find?_setChildren_self hp ds) (hcs h)

/-! ### Nodes below a node -/

/-- A node of the forest that is below another one is found below it. -/
theorem find?_children {y : ℕ} (hn : f.ids.Nodup) (hx : f.find? x = some n)
    (hy : f.find? y = some m) (hmem : y ∈ n.children.ids) : n.children.find? y = some m := by
  obtain ⟨k, hk⟩ := exists_find?_of_mem hmem
  have hsame := (find?_of_find?_children hn hx hk).symm.trans hy
  rw [hk, hsame]

/-- A child is in the forest as it is among the children. -/
theorem find?_child (hn : f.ids.Nodup) {pre post : Forest β γ} {t : β} (hm : m.label = .inl t)
    (hp : f.find? x = some ⟨p, .inl b, pre ++ (m.tree ++ post)⟩) : f.find? m.id = some m := by
  have hcs := (children_nodup hn hp).1
  rw [ids_append, nodup_append] at hcs
  refine find?_of_find?_children hn hp ?_
  have hpre : m.id ∉ pre.ids := fun h => hcs.2.2 _ h _ (by simp [id_mem_tree]) rfl
  obtain ⟨i, l, cs⟩ := m
  obtain rfl : l = .inl t := hm
  rw [find?_append_of_notMem hpre]
  simp [Node.tree, find?]

theorem mem_ids_between {h : Forest β γ} :
    x ∈ (f ++ (g ++ h)).ids ↔ x ∈ g.ids ∨ x ∈ (f ++ h).ids := by
  simp only [ids_append, mem_append]
  exact or_left_comm

theorem find?_skip {h : Forest β γ} (hx : x ∉ g.ids) :
    (f ++ (g ++ h)).find? x = (f ++ h).find? x := by
  rw [find?_append, find?_append_of_notMem hx, find?_append]

/-! ### The order of the nodes -/

theorem mem_ids_of_mem_nodes (h : n ∈ f.nodes) (hx : x = n.id ∨ x ∈ n.children.ids) :
    x ∈ f.ids := by
  induction f with
  | nil => simp at h
  | branch i b cs r ihc ihr =>
    rw [nodes_branch, mem_cons, mem_append] at h
    rw [ids_branch, mem_cons, mem_append]
    obtain rfl | h | h := h
    · exact hx.imp_right .inl
    · exact .inr (.inl (ihc h))
    · exact .inr (.inr (ihr h))
  | leaf i c r ih =>
    rw [nodes_leaf, mem_cons] at h
    rw [ids_leaf, mem_cons]
    obtain rfl | h := h
    · exact .inl (by simpa using hx)
    · exact .inr (ih h)

/-- Distinct nodes have distinct identities. -/
theorem eq_of_mem_nodes (hf : f.ids.Nodup) (hn : n ∈ f.nodes) (hm : m ∈ f.nodes)
    (hid : n.id = m.id) : n = m := by
  have hfind := find?_of_mem_nodes hf hn
  rw [hid, find?_of_mem_nodes hf hm, Option.some.injEq] at hfind
  exact hfind.symm

/-- In the order of the document no node comes before one that it is inside of. -/
theorem pairwise_nodes (hn : f.ids.Nodup) :
    f.nodes.Pairwise fun a b => a.id ≠ b.id ∧ a.id ∉ b.children.ids := by
  -- a node whose identity is not among the later ones may come first
  have hbef : ∀ {x : ℕ} {g : Forest β γ}, x ∉ g.ids → ∀ b ∈ g.nodes,
      x ≠ b.id ∧ x ∉ b.children.ids := by
    intro x g hx b hb
    exact ⟨fun h => hx (mem_ids_of_mem_nodes hb (.inl h)),
      fun h => hx (mem_ids_of_mem_nodes hb (.inr h))⟩
  induction f with
  | nil => exact List.Pairwise.nil
  | branch i b cs r ihc ihr =>
    obtain ⟨⟨hics, hir⟩, hcs, hr, hdj⟩ := nodup_branch.1 hn
    rw [nodes_branch, pairwise_cons, pairwise_append]
    refine ⟨fun k hk => ?_, ihc hcs, ihr hr, fun a ha => ?_⟩
    · obtain hk | hk := mem_append.1 hk
      · exact hbef hics k hk
      · exact hbef hir k hk
    · exact hbef fun h => hdj (mem_ids_of_mem_nodes ha (.inl rfl)) h
  | leaf i c r ih =>
    rw [ids_leaf, nodup_cons] at hn
    rw [nodes_leaf, pairwise_cons]
    exact ⟨hbef hn.1, ih hn.2⟩

end Forest
end OrderedTree
