import Feather.OrderedTree.Build

/-!
# Parents and children under edits

Moving trees is followed by identities only: `childIDs p` are the children of `p`, and `path?` the
nodes above a node.  A tree can be attached below `p` only if its root is neither `p` nor above `p`.
-/

namespace OrderedTree

open List Option

variable {P : List ℕ}

namespace Forest

variable {β γ : Type} {f g : Forest β γ} {x c p : ℕ}
variable {n m : Node β γ}

/-- The identities of the children of a node. -/
def childIDs (x : ℕ) (f : Forest β γ) : List ℕ :=
  ((f.find? x).map fun n => n.children.rootIDs).getD []

theorem childIDs_of_find? (h : f.find? x = some n) : f.childIDs x = n.children.rootIDs := by
  rw [childIDs, h]
  rfl

theorem childIDs_of_notMem (h : x ∉ f.ids) : f.childIDs x = [] := by
  rw [childIDs, find?_eq_none.2 h]
  rfl

theorem childIDs_append_of_mem (h : x ∈ f.ids) : (f ++ g).childIDs x = f.childIDs x := by
  rw [childIDs, find?_append_of_mem h, childIDs]

theorem childIDs_append_of_notMem (h : x ∉ f.ids) : (f ++ g).childIDs x = g.childIDs x := by
  rw [childIDs, find?_append_of_notMem h, childIDs]

theorem nodup_childIDs (hn : f.ids.Nodup) (x : ℕ) : (f.childIDs x).Nodup := by
  cases hfind : f.find? x with
  | none => simp [childIDs, hfind]
  | some n =>
    rw [childIDs_of_find? hfind]
    exact n.children.rootIDs_sublist.nodup (children_nodup hn hfind).1

/-! ### Paths -/

theorem path?_eq_nil_iff (hn : f.ids.Nodup) : f.path? x = some [] ↔ x ∈ f.rootIDs := by
  induction f with
  | nil => simp [path?]
  | branch i b cs r ihc ihr =>
    obtain ⟨-, -, hnr, hdisj⟩ := nodup_branch.1 hn
    rw [path?_branch, rootIDs_branch, mem_cons, ← ihr hnr]
    by_cases hi : i = x
    · simp [hi]
    · rw [if_neg hi]
      cases hc : cs.path? x with
      | none => simp [Ne.symm hi]
      | some q =>
        have hr : r.path? x = none := path?_eq_none.2 fun hr => hdisj (mem_of_path? hc) hr
        simp [hr, Ne.symm hi]
  | leaf i c r ih =>
    rw [ids_leaf, nodup_cons] at hn
    rw [path?_leaf, rootIDs_leaf, mem_cons, ← ih hn.2]
    by_cases hi : i = x
    · simp [hi]
    · simp [hi, Ne.symm hi]

/-- The last node on the way to a node is its parent. -/
theorem mem_childIDs_of_path? (hn : f.ids.Nodup) (h : f.path? c = some (P ++ [p])) :
    c ∈ f.childIDs p := by
  obtain ⟨n, hfind, hc⟩ := find?_of_path? hn h
  rw [childIDs_of_find? hfind]
  exact (path?_eq_nil_iff (children_nodup hn hfind).1).1 hc

/-- What lies above a child is its parent and what lies above that. -/
theorem path?_of_mem_childIDs (hn : f.ids.Nodup) (h : c ∈ f.childIDs p) :
    ∃ P, f.path? p = some P ∧ f.path? c = some (P ++ [p]) := by
  cases hfind : f.find? p with
  | none => simp [childIDs, hfind] at h
  | some n =>
    rw [childIDs_of_find? hfind] at h
    obtain ⟨P, hP, hbel⟩ := path?_of_find?_children hn hfind
    refine ⟨P, hP, ?_⟩
    exact hbel c [] ((path?_eq_nil_iff (children_nodup hn hfind).1).2 h)

/-- No child of a node is the node or above it. -/
theorem notMem_path?_of_mem_childIDs (hn : f.ids.Nodup) (h : c ∈ f.childIDs p)
    (hp : f.path? p = some P) : c ∉ P ∧ c ≠ p := by
  obtain ⟨P', hP', hc⟩ := path?_of_mem_childIDs hn h
  obtain rfl : P = P' := some.inj (hp.symm.trans hP')
  constructor
  · intro hmem
    obtain ⟨Q, R, rfl⟩ := append_of_mem hmem
    have hlong := path?_of_path?_append hn hp
    rw [hc, some.injEq] at hlong
    have := congrArg length hlong
    simp at this
  · rintro rfl
    rw [hp] at hc
    simp at hc

theorem parent?_eq_some_iff (hn : f.ids.Nodup) : f.parent? c = some p ↔ c ∈ f.childIDs p := by
  constructor
  · intro h
    rw [parent?, bind_eq_some_iff] at h
    obtain ⟨P, hP, hlast⟩ := h
    obtain ⟨Q, rfl⟩ := getLast?_eq_some_iff.1 hlast
    exact mem_childIDs_of_path? hn hP
  · intro h
    obtain ⟨P, -, hP⟩ := path?_of_mem_childIDs hn h
    rw [parent?, hP]
    simp

theorem parent?_of_path?_nil (h : f.path? c = some []) : f.parent? c = none := by
  rw [parent?, h]
  rfl

theorem notMem_childIDs_of_path?_nil (hn : f.ids.Nodup) (h : f.path? c = some []) (p : ℕ) :
    c ∉ f.childIDs p := by
  rw [← parent?_eq_some_iff hn, parent?_of_path?_nil h]
  simp

/-- A node is not in the tree of a node that is neither it nor above it. -/
theorem notMem_tree_of_path? (hn : f.ids.Nodup) (hp : f.path? p = some P) (hc : c ∉ P) (hcp : c ≠ p)
    (hm : f.find? c = some m) : p ∉ m.tree.ids := by
  rw [ids_tree hm, mem_cons, not_or]
  refine ⟨Ne.symm hcp, fun hmem => ?_⟩
  obtain ⟨Q, -, hbel⟩ := path?_of_find?_children hn hm
  cases hq : m.children.path? p with
  | none => exact path?_eq_none.1 hq hmem
  | some q =>
    have := hbel p q hq
    rw [hp, some.injEq] at this
    exact hc (by simp [this])

/-! ### Removing -/

theorem remove_branch (x i : ℕ) (b : β) (cs r : Forest β γ) : (branch i b cs r).remove x =
    if i = x then r else branch i b (cs.remove x) (r.remove x) := rfl

theorem remove_leaf (x i : ℕ) (d : γ) (r : Forest β γ) : (leaf i d r).remove x =
    if i = x then r else leaf i d (r.remove x) := rfl

theorem rootIDs_remove (hn : f.ids.Nodup) : (f.remove x).rootIDs = f.rootIDs.erase x := by
  induction f with
  | nil => rfl
  | branch i b cs r _ ih =>
    obtain ⟨-, -, hnr, -⟩ := nodup_branch.1 hn
    rw [remove_branch, rootIDs_branch]
    split_ifs with hi
    · rw [hi, erase_cons_head]
    · rw [rootIDs_branch, ih hnr, erase_cons_tail (by simpa using hi)]
  | leaf i d r ih =>
    rw [ids_leaf, nodup_cons] at hn
    rw [remove_leaf, rootIDs_leaf]
    split_ifs with hi
    · rw [hi, erase_cons_head]
    · rw [rootIDs_leaf, ih hn.2, erase_cons_tail (by simpa using hi)]

/-- The nodes that are not removed lose at most a part of what is below them. -/
theorem find?_remove (hn : f.ids.Nodup) (hm : f.find? c = some m) (hp : p ∉ m.tree.ids) :
    (f.remove c).find? p =
      (f.find? p).map fun n => { n with children := n.children.remove c } := by
  refine find?_update_of_ne hn (fun n hn' => ?_) fun hpc => hp (by simp [ids_tree hm, hpc])
  obtain rfl := some.inj (hm.symm.trans hn')
  exact (find?_eq_none.2 hp).symm

theorem path?_remove (hn : f.ids.Nodup) (hm : f.find? c = some m) (hp : p ∉ m.tree.ids) :
    (f.remove c).path? p = f.path? p := by
  refine path?_update fun n hmem hid => ?_
  obtain rfl := some.inj (hm.symm.trans (hid ▸ find?_of_mem_nodes hn hmem))
  exact (path?_eq_none.2 hp).symm

theorem childIDs_remove (hn : f.ids.Nodup) (hm : f.find? c = some m) (hp : p ∉ m.tree.ids) :
    (f.remove c).childIDs p = (f.childIDs p).erase c := by
  rw [childIDs, find?_remove hn hm hp, childIDs]
  cases hfind : f.find? p with
  | none => rfl
  | some n => exact rootIDs_remove (children_nodup hn hfind).1

/-- The first child of a node, and the forest without it. -/
theorem find?_remove_firstChild {b : β ⊕ γ} {cs : Forest β γ} (hn : f.ids.Nodup)
    (h : f.find? p = some ⟨p, b, m.tree ++ cs⟩) :
    ∃ m', f.find? m.id = some m' ∧ m'.tree = m.tree ∧
      (f.remove m.id).find? p = some ⟨p, b, cs⟩ := by
  obtain ⟨m', hm', htree⟩ := exists_find?_tree m
  have hchd : (m.tree ++ cs).find? m.id = some m' := by
    rw [find?_append, hm', some_or]
  have hfind := find?_of_find?_children hn h hchd
  have hp : p ∉ m'.tree.ids := by
    intro hmem
    refine (children_nodup hn h).2 ?_
    rw [htree] at hmem
    simp [hmem]
  refine ⟨m', hfind, htree, ?_⟩
  rw [find?_remove hn hfind hp, h, map_some, remove_tree_append]

/-! ### Detaching -/

/-- A node in a tree of the forest, looked up in that tree. -/
theorem find?_tree (hn : f.ids.Nodup) (hm : f.find? c = some m) (hp : p ∈ m.tree.ids) :
    m.tree.find? p = f.find? p := by
  have hid := find?_id hm
  rw [ids_tree hm] at hp
  rcases mem_cons.1 hp with rfl | hp
  · rw [hm]
    obtain ⟨i, b | d, cs⟩ := m
    · simp [Node.tree, find?, show i = p from hid]
    · obtain rfl : cs = nil := children_eq_nil_of_leaf hm rfl
      simp [Node.tree, find?, show i = p from hid]
  · obtain ⟨n, hfind⟩ := exists_find?_of_mem hp
    have hcp : c ≠ p := by
      rintro rfl
      exact (children_nodup hn hm).2 hp
    rw [find?_of_find?_children hn hm hfind]
    obtain ⟨i, b | d, cs⟩ := m
    · rw [Node.tree, find?_branch, if_neg (by rwa [show i = c from hid])]
      simp [show cs.find? p = some n from hfind]
    · obtain rfl : cs = nil := children_eq_nil_of_leaf hm rfl
      simp at hp

/-- No node is a child of one below it. -/
theorem notMem_childIDs_of_mem_tree (hn : f.ids.Nodup) (hm : f.find? c = some m)
    (hp : p ∈ m.tree.ids) : c ∉ f.childIDs p := by
  intro hc
  obtain ⟨P, hP, hPc⟩ := path?_of_mem_childIDs hn hc
  rw [ids_tree hm] at hp
  rcases mem_cons.1 hp with rfl | hp
  · rw [hP] at hPc
    simp at hPc
  · obtain ⟨Q, hQ, hbel⟩ := path?_of_find?_children hn hm
    cases hq : m.children.path? p with
    | none => exact path?_eq_none.1 hq hp
    | some q =>
      have hlong := hbel p q hq
      rw [hP, some.injEq] at hlong
      rw [hQ, some.injEq, hlong] at hPc
      have := congrArg length hPc
      simp at this

/-- A node is in the trees of the nodes above it. -/
theorem mem_tree_of_path? {Q : List ℕ} (hn : f.ids.Nodup) (hp : f.path? p = some (P ++ c :: Q))
    (hm : f.find? c = some m) : p ∈ m.tree.ids := by
  obtain ⟨n, hfind, hc⟩ := find?_of_path? hn hp
  obtain rfl := some.inj (hm.symm.trans hfind)
  rw [ids_tree hm]
  exact mem_cons_of_mem _ (mem_of_path? hc)

theorem find?_detach_self (hn : f.ids.Nodup) (hm : f.find? c = some m) :
    (f.detach c).find? c = some m := by
  have hc : c ∈ m.tree.ids := by simp [ids_tree hm]
  rw [detach, hm]
  rw [find?_append_of_notMem (notMem_remove hn hm c hc), find?_tree hn hm hc, hm]

theorem childIDs_detach (hn : f.ids.Nodup) (c p : ℕ) :
    (f.detach c).childIDs p = (f.childIDs p).erase c := by
  unfold detach
  cases hm : f.find? c with
  | none =>
    refine (erase_of_not_mem fun hc => find?_eq_none.1 hm ?_).symm
    obtain ⟨P, -, hP⟩ := path?_of_mem_childIDs hn hc
    exact mem_of_path? hP
  | some m =>
    by_cases hp : p ∈ m.tree.ids
    · have hni : p ∉ (f.remove c).ids := notMem_remove hn hm p hp
      rw [childIDs_append_of_notMem hni, childIDs, find?_tree hn hm hp, ← childIDs,
        erase_of_not_mem (notMem_childIDs_of_mem_tree hn hm hp)]
    · have hrest : m.tree.childIDs p = [] := childIDs_of_notMem hp
      by_cases hmem : p ∈ (f.remove c).ids
      · rw [childIDs_append_of_mem hmem, childIDs_remove hn hm hp]
      · rw [childIDs_append_of_notMem hmem, hrest, ← childIDs_remove hn hm hp,
          childIDs_of_notMem hmem]

/-- A node stays where it is if nothing above it is detached. -/
theorem path?_detach (hn : f.ids.Nodup) (hp : f.path? p = some P) (hc : c ∉ P) (hcp : c ≠ p) :
    (f.detach c).path? p = some P := by
  unfold detach
  cases hm : f.find? c with
  | none => exact hp
  | some m =>
    have hrem := path?_remove hn hm (notMem_tree_of_path? hn hp hc hcp hm)
    rw [path?_append, hrem, hp, some_or]

theorem path?_detach_self (hn : f.ids.Nodup) (hc : c ∈ f.ids) :
    (f.detach c).path? c = some [] := by
  obtain ⟨m, hm⟩ := exists_find?_of_mem hc
  have hid := find?_id hm
  have hni : c ∉ (f.remove c).ids := notMem_remove hn hm c (by simp [ids_tree hm])
  rw [detach, hm]
  rw [path?_append_of_notMem hni]
  obtain ⟨i, b | d, cs⟩ := m <;> simp [Node.tree, path?, show i = c from hid]

/-- Detaching moves nodes and leaves them as they are. -/
theorem map_label_find?_detach (hn : f.ids.Nodup) (c p : ℕ) :
    ((f.detach c).find? p).map Node.label = (f.find? p).map Node.label := by
  unfold detach
  cases hm : f.find? c with
  | none => rfl
  | some m =>
    by_cases hp : p ∈ m.tree.ids
    · rw [find?_append_of_notMem (notMem_remove hn hm p hp), find?_tree hn hm hp]
    · rw [find?_append, find?_remove hn hm hp, find?_eq_none.2 hp, Option.or_none, Option.map_map]
      rfl

/-! ### Attaching -/

theorem modifyChildren_branch (p i : ℕ) (b : β) (cs r : Forest β γ) (φ : Forest β γ → Forest β γ) :
    (branch i b cs r).modifyChildren p φ = if i = p then branch i b (φ cs) r
      else branch i b (cs.modifyChildren p φ) (r.modifyChildren p φ) := rfl

theorem modifyChildren_leaf (p i : ℕ) (d : γ) (r : Forest β γ) (φ : Forest β γ → Forest β γ) :
    (leaf i d r).modifyChildren p φ = if i = p then leaf i d r
      else leaf i d (r.modifyChildren p φ) := rfl

theorem modifyChildren_of_notMem {φ : Forest β γ → Forest β γ} (h : p ∉ f.ids) :
    f.modifyChildren p φ = f := update_of_notMem h

theorem rootIDs_modifyChildren (φ : Forest β γ → Forest β γ) (p : ℕ) (f : Forest β γ) :
    (f.modifyChildren p φ).rootIDs = f.rootIDs := by
  induction f with
  | nil => rfl
  | branch i b cs r _ ih =>
    rw [modifyChildren_branch]
    split_ifs
    · rfl
    · rw [rootIDs_branch, ih, rootIDs_branch]
  | leaf i d r ih =>
    rw [modifyChildren_leaf]
    split_ifs
    · rfl
    · rw [rootIDs_leaf, ih, rootIDs_leaf]

section Modify

variable {φ : Forest β γ → Forest β γ} {q : ℕ}

/-- The node whose children are replaced. -/
theorem find?_modifyChildren_self {b : β} (h : f.find? p = some n) (hb : n.label = .inl b) :
    (f.modifyChildren p φ).find? p = some { n with children := φ n.children } := by
  induction f with
  | nil => simp [find?] at h
  | branch i b' cs r ihc ihr =>
    rw [find?_branch] at h
    rw [modifyChildren_branch]
    by_cases hi : i = p
    · rw [if_pos hi, some.injEq] at h
      subst h
      rw [if_pos hi, find?_branch, if_pos hi]
    · rw [if_neg hi] at h
      rw [if_neg hi, find?_branch, if_neg hi]
      rcases or_eq_some_iff.1 h with hc | ⟨hc, hr⟩
      · rw [ihc hc, some_or]
      · rw [modifyChildren_of_notMem (find?_eq_none.1 hc), hc, none_or, ihr hr]
  | leaf i d r ih =>
    rw [find?_leaf] at h
    rw [modifyChildren_leaf]
    by_cases hi : i = p
    · rw [if_pos hi, some.injEq] at h
      subst h
      cases hb
    · rw [if_neg hi] at h
      rw [if_neg hi, find?_leaf, if_neg hi, ih h]

/-- The other nodes, if the change does not hide them. -/
theorem find?_modifyChildren_of_ne (hn : f.ids.Nodup)
    (hq : ∀ n, f.find? p = some n → (φ n.children).find? q = n.children.find? q) (hqp : q ≠ p) :
    (f.modifyChildren p φ).find? q =
      (f.find? q).map fun n => { n with children := n.children.modifyChildren p φ } := by
  refine find?_update_of_ne hn (fun n hfind => ?_) hqp
  have hid : n.id ≠ q := fun hid => hqp (hid.symm.trans (find?_id hfind))
  have hφ := hq n hfind
  obtain ⟨i, b | d, cs⟩ := n
  · simp [Node.tree, find?_branch, if_neg hid, hφ]
  · rfl

/-- The nodes that come with the change. -/
theorem find?_modifyChildren_new {o : Option (Node β γ)} {b : β} (hn : f.ids.Nodup)
    (hp : f.find? p = some n) (hb : n.label = .inl b) (hqf : q ∉ f.ids)
    (hq : ∀ cs, q ∉ cs.ids → (φ cs).find? q = o) : (f.modifyChildren p φ).find? q = o := by
  induction f with
  | nil => simp [find?] at hp
  | branch i b' cs r ihc ihr =>
    obtain ⟨-, hnc, hnr, hdisj⟩ := nodup_branch.1 hn
    rw [ids_branch, mem_cons, mem_append, not_or, not_or] at hqf
    rw [find?_branch] at hp
    rw [modifyChildren_branch]
    by_cases hip : i = p
    · rw [if_pos hip, find?_branch, if_neg (Ne.symm hqf.1), hq cs hqf.2.1,
        find?_eq_none.2 hqf.2.2, or_none]
    · rw [if_neg hip] at hp
      rw [if_neg hip, find?_branch, if_neg (Ne.symm hqf.1)]
      rcases or_eq_some_iff.1 hp with hc | ⟨hc, hr⟩
      · have hpr : p ∉ r.ids := fun hpr => hdisj (mem_of_find? hc) hpr
        rw [ihc hnc hc hqf.2.1, modifyChildren_of_notMem hpr, find?_eq_none.2 hqf.2.2, or_none]
      · rw [modifyChildren_of_notMem (find?_eq_none.1 hc), find?_eq_none.2 hqf.2.1, none_or,
          ihr hnr hr hqf.2.2]
  | leaf i d r ih =>
    rw [ids_leaf, nodup_cons] at hn
    rw [ids_leaf, mem_cons, not_or] at hqf
    rw [find?_leaf] at hp
    rw [modifyChildren_leaf]
    by_cases hip : i = p
    · rw [if_pos hip, some.injEq] at hp
      subst hp
      cases hb
    · rw [if_neg hip] at hp
      rw [if_neg hip, find?_leaf, if_neg (Ne.symm hqf.1), ih hn.2 hp hqf.2]

/-- What lies above the other nodes. -/
theorem path?_modifyChildren (hq : ∀ cs, (φ cs).path? q = cs.path? q) :
    (f.modifyChildren p φ).path? q = f.path? q := by
  refine path?_update fun n _ _ => ?_
  obtain ⟨i, b | d, cs⟩ := n
  · simp [Node.tree, path?_branch, hq]
  · rfl

end Modify

/-- An insertion at an index cuts the forest there. -/
theorem exists_insertAt (i : ℕ) (t f : Forest β γ) :
    ∃ pre post, f = pre ++ post ∧ insertAt i t f = pre ++ (t ++ post) ∧
      pre.rootIDs = f.rootIDs.take i ∧ post.rootIDs = f.rootIDs.drop i := by
  induction f generalizing i with
  | nil => cases i <;> exact ⟨nil, nil, rfl, by simp [insertAt], by simp, by simp⟩
  | branch j b cs r _ ih =>
    cases i with
    | zero => exact ⟨nil, branch j b cs r, rfl, rfl, by simp, by simp⟩
    | succ i =>
      obtain ⟨pre, post, hf, hi, hpre, hpost⟩ := ih i
      refine ⟨branch j b cs pre, post, ?_, ?_, ?_, ?_⟩
      · rw [branch_append, ← hf]
      · rw [insertAt, hi, branch_append]
      · rw [rootIDs_branch, hpre, rootIDs_branch, take_succ_cons]
      · rw [hpost, rootIDs_branch, drop_succ_cons]
  | leaf j d r ih =>
    cases i with
    | zero => exact ⟨nil, leaf j d r, rfl, rfl, by simp, by simp⟩
    | succ i =>
      obtain ⟨pre, post, hf, hi, hpre, hpost⟩ := ih i
      refine ⟨leaf j d pre, post, ?_, ?_, ?_, ?_⟩
      · rw [leaf_append, ← hf]
      · rw [insertAt, hi, leaf_append]
      · rw [rootIDs_leaf, hpre, rootIDs_leaf, take_succ_cons]
      · rw [hpost, rootIDs_leaf, drop_succ_cons]

section InsertAt

variable {t : Forest β γ} {q : ℕ}

theorem rootIDs_insertAt (i : ℕ) (t f : Forest β γ) :
    (insertAt i t f).rootIDs = f.rootIDs.take i ++ (t.rootIDs ++ f.rootIDs.drop i) := by
  obtain ⟨pre, post, -, hi, hpre, hpost⟩ := exists_insertAt i t f
  rw [hi, rootIDs_append, rootIDs_append, hpre, hpost]

theorem find?_insertAt (hq : q ∉ t.ids) (i : ℕ) (f : Forest β γ) :
    (insertAt i t f).find? q = f.find? q := by
  obtain ⟨pre, post, hf, hi, -⟩ := exists_insertAt i t f
  rw [hi, hf, find?_append, find?_append, find?_append, find?_eq_none.2 hq, none_or]

theorem find?_insertAt_new (i : ℕ) (hq : q ∉ f.ids) : (insertAt i t f).find? q = t.find? q := by
  obtain ⟨pre, post, hf, hi, -⟩ := exists_insertAt i t f
  rw [hf, ids_append, mem_append, not_or] at hq
  rw [hi, find?_append, find?_append, find?_eq_none.2 hq.1, find?_eq_none.2 hq.2, none_or, or_none]

theorem path?_insertAt (hq : q ∉ t.ids) (i : ℕ) (f : Forest β γ) :
    (insertAt i t f).path? q = f.path? q := by
  obtain ⟨pre, post, hf, hi, -⟩ := exists_insertAt i t f
  rw [hi, hf, path?_append, path?_append, path?_append, path?_eq_none.2 hq, none_or]

end InsertAt

section Attach

variable {b : β} {q : ℕ}

/-- The nodes of the attached tree. -/
theorem find?_attach_new (hn : f.ids.Nodup) (hm : f.find? c = some m) (hp : f.find? p = some n)
    (hb : n.label = .inl b) (hpm : p ∉ m.tree.ids) (i : ℕ) (hq : q ∈ m.tree.ids) :
    (f.attach p i c).find? q = f.find? q := by
  have hnr : (f.remove c).ids.Nodup := (ids_remove_sublist hn c).nodup hn
  have hfind := find?_remove hn hm hpm
  rw [hp] at hfind
  rw [attach, hm]
  rw [find?_modifyChildren_new hnr hfind hb (notMem_remove hn hm q hq)
    fun cs hcs => find?_insertAt_new i hcs, find?_tree hn hm hq]

/-- The node under which a tree is attached. -/
theorem find?_attach_self (hn : f.ids.Nodup) (hm : f.find? c = some m) (hp : f.find? p = some n)
    (hb : n.label = .inl b) (hpm : p ∉ m.tree.ids) (i : ℕ) : (f.attach p i c).find? p =
      some { n with children := insertAt i m.tree (n.children.remove c) } := by
  have hfind := find?_remove hn hm hpm
  rw [hp] at hfind
  rw [attach, hm]
  exact find?_modifyChildren_self hfind hb

/-- The other nodes. -/
theorem find?_attach_of_ne (hn : f.ids.Nodup) (hm : f.find? c = some m) (i : ℕ)
    (hqm : q ∉ m.tree.ids) (hqp : q ≠ p) : (f.attach p i c).find? q = (f.find? q).map fun k =>
      { k with children := (k.children.remove c).modifyChildren p (insertAt i m.tree) } := by
  have hnr : (f.remove c).ids.Nodup := (ids_remove_sublist hn c).nodup hn
  rw [attach, hm]
  rw [find?_modifyChildren_of_ne hnr (fun n _ => find?_insertAt hqm i n.children) hqp,
    find?_remove hn hm hqm, Option.map_map]
  rfl

/-- The node under which a tree is attached gets its root as a child. -/
theorem childIDs_attach_self (hn : f.ids.Nodup) (hc : f.path? c = some []) (hp : f.find? p = some n)
    (hb : n.label = .inl b) (hP : f.path? p = some P) (hcP : c ∉ P) (hcp : c ≠ p) (i : ℕ) :
    (f.attach p i c).childIDs p = (f.childIDs p).take i ++ c :: (f.childIDs p).drop i := by
  obtain ⟨m, hm⟩ := exists_find?_of_mem (mem_of_path? hc)
  have hchd : (n.children.remove c).rootIDs = f.childIDs p := by
    rw [rootIDs_remove (children_nodup hn hp).1, ← childIDs_of_find? hp,
      erase_of_not_mem (notMem_childIDs_of_path?_nil hn hc p)]
  have htree : m.tree.rootIDs = [c] := by
    have := find?_id hm
    obtain ⟨j, b' | d, cs⟩ := m <;> simpa [Node.tree] using this
  rw [childIDs_of_find? (find?_attach_self hn hm hp hb (notMem_tree_of_path? hn hP hcP hcp hm) i),
    rootIDs_insertAt, htree, hchd]
  rfl

/-- The other nodes keep their children. -/
theorem childIDs_attach_of_ne (hn : f.ids.Nodup) (hc : f.path? c = some [])
    (hp : f.find? p = some n) (hb : n.label = .inl b) (hP : f.path? p = some P) (hcP : c ∉ P)
    (hcp : c ≠ p) (i : ℕ) (hq : q ≠ p) : (f.attach p i c).childIDs q = f.childIDs q := by
  obtain ⟨m, hm⟩ := exists_find?_of_mem (mem_of_path? hc)
  have hpm := notMem_tree_of_path? hn hP hcP hcp hm
  by_cases hqm : q ∈ m.tree.ids
  · rw [childIDs, find?_attach_new hn hm hp hb hpm i hqm, childIDs]
  · have hroot := notMem_childIDs_of_path?_nil hn hc q
    rw [childIDs, find?_attach_of_ne hn hm i hqm hq]
    cases hfind : f.find? q with
    | none => simp [childIDs, hfind]
    | some k =>
      rw [childIDs_of_find? hfind] at hroot ⊢
      show ((k.children.remove c).modifyChildren p (insertAt i m.tree)).rootIDs = _
      rw [rootIDs_modifyChildren, rootIDs_remove (children_nodup hn hfind).1,
        erase_of_not_mem hroot]

/-- A node stays where it is if it is not in the attached tree. -/
theorem path?_attach (hn : f.ids.Nodup) {Q : List ℕ} (hq : f.path? q = some Q)
    (hcQ : c ∉ Q) (hcq : c ≠ q) (p i : ℕ) : (f.attach p i c).path? q = some Q := by
  unfold attach
  cases hm : f.find? c with
  | none => exact hq
  | some m =>
    have hqm := notMem_tree_of_path? hn hq hcQ hcq hm
    rw [path?_modifyChildren fun cs => path?_insertAt hqm i cs, path?_remove hn hm hqm, hq]

/-- Attaching leaves nodes as they are. -/
theorem map_label_find?_attach (hn : f.ids.Nodup) (hp : f.find? p = some n) (hb : n.label = .inl b)
    (hP : f.path? p = some P) (hcP : c ∉ P) (hcp : c ≠ p) (i q : ℕ) :
    ((f.attach p i c).find? q).map Node.label = (f.find? q).map Node.label := by
  cases hm : f.find? c with
  | none => rw [attach, hm]
  | some m =>
    have hpm := notMem_tree_of_path? hn hP hcP hcp hm
    by_cases hqm : q ∈ m.tree.ids
    · rw [find?_attach_new hn hm hp hb hpm i hqm]
    · by_cases hqp : q = p
      · rw [hqp, find?_attach_self hn hm hp hb hpm, hp]
        rfl
      · rw [find?_attach_of_ne hn hm i hqm hqp, Option.map_map]
        rfl

/-- A tree cannot be attached inside itself: it is lost. -/
theorem notMem_attach (hn : f.ids.Nodup) (hm : f.find? c = some m) (hp : p ∈ m.tree.ids) (i : ℕ) :
    p ∉ (f.attach p i c).ids := by
  have hni := notMem_remove hn hm p hp
  rw [attach, hm]
  show p ∉ ((f.remove c).modifyChildren p (insertAt i m.tree)).ids
  rwa [modifyChildren_of_notMem hni]

end Attach

end Forest
end OrderedTree
