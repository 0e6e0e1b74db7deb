import Feather.OrderedTree.Forest

/-!
# Editing ordered forests

All edits of a forest at one node are instances of `update x u`, which replaces the tree of `x` by
the forest `u n`, where `n` is the node found there.  `update_of_entries`: in the listing the
subtree of `x` is replaced by the listing of `u n`, and nothing else changes.
-/

namespace OrderedTree

open Option

open scoped List

variable {β γ : Type}
variable {f g : Forest β γ} {n : Node β γ} {k : ℕ} {A B : List (Entry β γ)} {e : Entry β γ}

/-- The one-tree forest of a node. -/
def Node.tree (n : Node β γ) : Forest β γ :=
  match n.label with
  | .inl b => .branch n.id b n.children .nil
  | .inr c => .leaf n.id c .nil

namespace Forest

/-- Replace the tree of identity `x` by `u` of the node found there. -/
def update (x : ℕ) (u : Node β γ → Forest β γ) : Forest β γ → Forest β γ
  | nil => nil
  | branch i b cs r =>
    if i = x then u ⟨i, .inl b, cs⟩ ++ r else branch i b (update x u cs) (update x u r)
  | leaf i c r => if i = x then u ⟨i, .inr c, nil⟩ ++ r else leaf i c (update x u r)

/-- Delete the tree of identity `x`. -/
def remove (x : ℕ) (f : Forest β γ) : Forest β γ := f.update x fun _ => nil

/-- Replace the children of the inner node `x`. -/
def modifyChildren (x : ℕ) (φ : Forest β γ → Forest β γ) (f : Forest β γ) : Forest β γ :=
  f.update x fun n => Node.tree { n with children := φ n.children }

variable {u : Node β γ → Forest β γ} {x : ℕ}

theorem update_of_notMem (h : x ∉ f.ids) : f.update x u = f := by
  induction f with
  | nil => rfl
  | branch i b cs r ihc ihr =>
    simp only [ids_branch, List.mem_cons, List.mem_append, not_or] at h
    rw [update, if_neg (Ne.symm h.1), ihc h.2.1, ihr h.2.2]
  | leaf i c r ih =>
    simp only [ids_leaf, List.mem_cons, not_or] at h
    rw [update, if_neg (Ne.symm h.1), ih h.2]

theorem update_append_right (h : x ∉ f.ids) : (f ++ g).update x u = f ++ g.update x u := by
  induction f with
  | nil => rfl
  | branch i b cs r ihc ihr =>
    simp only [ids_branch, List.mem_cons, List.mem_append, not_or] at h
    rw [branch_append, update, if_neg (Ne.symm h.1), update_of_notMem h.2.1, ihr h.2.2,
      branch_append]
  | leaf i c r ih =>
    simp only [ids_leaf, List.mem_cons, not_or] at h
    rw [leaf_append, update, if_neg (Ne.symm h.1), ih h.2, leaf_append]

theorem update_append_left (h : x ∉ g.ids) : (f ++ g).update x u = f.update x u ++ g := by
  induction f with
  | nil => exact update_of_notMem h
  | branch i b cs r ihc ihr =>
    rw [branch_append, update, update]
    split_ifs
    · rw [append_assoc]
    · rw [ihr, branch_append]
  | leaf i c r ih =>
    rw [leaf_append, update, update]
    split_ifs
    · rw [append_assoc]
    · rw [ih, leaf_append]

/-- A node stays where it is if the new trees have it where the old one had it. -/
theorem path?_update {q : ℕ} (hu : ∀ n ∈ f.nodes, n.id = x → (u n).path? q = n.tree.path? q) :
    (f.update x u).path? q = f.path? q := by
  induction f with
  | nil => rfl
  | branch i b cs r ihc ihr =>
    rw [update]
    split_ifs with hi
    · rw [path?_append, hu ⟨i, .inl b, cs⟩ (by simp) hi, ← path?_append]
      rfl
    · rw [path?_branch, ihc fun n hn => hu n (by simp [hn]), ihr fun n hn => hu n (by simp [hn]),
        path?_branch]
  | leaf i c r ih =>
    rw [update]
    split_ifs with hi
    · rw [path?_append, hu ⟨i, .inr c, nil⟩ (by simp) hi, ← path?_append]
      rfl
    · rw [path?_leaf, ih fun n hn => hu n (by simp [hn]), path?_leaf]

/-- A node that the new trees have as the old one had it: what is below it is updated too. -/
theorem find?_update_of_ne {q : ℕ} (hn : f.ids.Nodup)
    (hu : ∀ n, f.find? x = some n → (u n).find? q = n.tree.find? q) (hqx : q ≠ x) :
    (f.update x u).find? q =
      (f.find? q).map fun n => { n with children := n.children.update x u } := by
  -- where `x` is not, nothing changes
  have hoth : ∀ {g : Forest β γ}, x ∉ g.ids →
      g.find? q = (g.find? q).map fun n => { n with children := n.children.update x u } := by
    intro g hg
    cases hfind : g.find? q with
    | none => rfl
    | some n =>
      have : n.children.update x u = n.children :=
        update_of_notMem fun hx => hg (children_subset hfind hx)
      simp [this]
  induction f with
  | nil => rfl
  | branch i b cs r ihc ihr =>
    obtain ⟨⟨hic, hir⟩, hcs, hr, hdisj⟩ := nodup_branch.1 hn
    rw [update]
    by_cases hi : i = x
    · subst hi
      rw [if_pos rfl, find?_append, hu ⟨i, .inl b, cs⟩ (by simp [find?_branch]), ← find?_append]
      show (branch i b cs r).find? q = _
      rw [find?_branch, if_neg (Ne.symm hqx), map_or, ← hoth hic, ← hoth hir]
    · have hnone : ∀ {n}, r.find? x = some n → cs.find? x = none := fun h =>
        find?_eq_none.2 fun hx => hdisj hx (mem_of_find? h)
      rw [if_neg hi, find?_branch, find?_branch]
      by_cases hiq : i = q
      · rw [if_pos hiq, if_pos hiq]
        rfl
      · rw [if_neg hiq, if_neg hiq, map_or,
          ihc hcs fun n h => hu n (by rw [find?_branch, if_neg hi, h, some_or]),
          ihr hr fun n h => hu n (by rw [find?_branch, if_neg hi, hnone h, none_or, h])]
  | leaf i c r ih =>
    rw [ids_leaf, List.nodup_cons] at hn
    rw [update]
    by_cases hi : i = x
    · subst hi
      rw [if_pos rfl, find?_append, hu ⟨i, .inr c, nil⟩ (by simp [find?_leaf]), ← find?_append]
      show (leaf i c r).find? q = _
      rw [find?_leaf, if_neg (Ne.symm hqx), ← hoth hn.1]
    · rw [if_neg hi, find?_leaf, find?_leaf]
      by_cases hiq : i = q
      · rw [if_pos hiq, if_pos hiq]
        rfl
      · rw [if_neg hiq, if_neg hiq, ih hn.2 fun n h => hu n (by rw [find?_leaf, if_neg hi, h])]

/-- What an update does to the listing. -/
theorem entries_update (hn : f.ids.Nodup) (k : ℕ) (h : f.find? x = some n) :
    ∃ l A B, f.entries k = A ++ ⟨l, x, n.label⟩ :: (n.children.entries (l + 1) ++ B) ∧
      k ≤ l ∧ Closes l B ∧ ∀ u, (f.update x u).entries k = A ++ ((u n).entries l ++ B) := by
  induction f generalizing k with
  | nil => simp [find?] at h
  | branch i b cs r ihc ihr =>
    obtain ⟨-, hnc, hnr, hdisj⟩ := nodup_branch.1 hn
    rw [find?_branch] at h
    by_cases hi : i = x
    · rw [if_pos hi] at h
      cases h
      subst hi
      exact ⟨k, [], r.entries k, by simp, le_rfl, closes_entries k r, fun u => by simp [update]⟩
    · rw [if_neg hi] at h
      rcases or_eq_some_iff.1 h with h | ⟨hc, h⟩
      · have hxr : x ∉ r.ids := fun hr => hdisj (mem_of_find? h) hr
        obtain ⟨l, A, B, he, hl, hB, hu⟩ := ihc hnc (k + 1) h
        refine ⟨l, ⟨k, i, .inl b⟩ :: A, B ++ r.entries k, by simp [he], by omega,
          hB.append ((closes_entries k r).mono (by omega)), fun u => ?_⟩
        simp [update, hi, hu u, update_of_notMem hxr]
      · have hxc : x ∉ cs.ids := find?_eq_none.1 hc
        obtain ⟨l, A, B, he, hl, hB, hu⟩ := ihr hnr k h
        refine ⟨l, ⟨k, i, .inl b⟩ :: (cs.entries (k + 1) ++ A), B, by simp [he], hl, hB,
          fun u => ?_⟩
        simp [update, hi, hu u, update_of_notMem hxc]
  | leaf i c r ih =>
    rw [ids_leaf, List.nodup_cons] at hn
    rw [find?_leaf] at h
    by_cases hi : i = x
    · rw [if_pos hi] at h
      cases h
      subst hi
      exact ⟨k, [], r.entries k, by simp, le_rfl, closes_entries k r, fun u => by simp [update]⟩
    · rw [if_neg hi] at h
      obtain ⟨l, A, B, he, hl, hB, hu⟩ := ih hn.2 k h
      exact ⟨l, ⟨k, i, .inr c⟩ :: A, B, by simp [he], hl, hB, fun u => by simp [update, hi, hu u]⟩

/-- The same at an entry of the listing. -/
theorem exists_update_of_entries {C : List (Entry β γ)} (hn : f.ids.Nodup)
    (h : f.entries k = A ++ e :: C) :
    ∃ n B, f.find? e.id = some n ∧ n.label = e.label ∧
      C = n.children.entries (e.level + 1) ++ B ∧ Closes e.level B ∧
      ∀ u, (f.update e.id u).entries k = A ++ ((u n).entries e.level ++ B) := by
  obtain ⟨n, B, hfind, hlab, rfl, hB⟩ := exists_find?_of_entries hn h
  obtain ⟨l, A', B', he, -, -, hu⟩ := entries_update hn k hfind
  have hn' : ((A ++ e :: (n.children.entries (e.level + 1) ++ B)).map Entry.id).Nodup := by
    rw [← h, map_id_entries]; exact hn
  obtain ⟨rfl, he', hC⟩ := split_unique hn' (h.symm.trans he) rfl
  obtain rfl : e.level = l := congrArg Entry.level he'
  obtain rfl := List.append_cancel_left hC
  exact ⟨n, B, hfind, hlab, rfl, hB, hu⟩

/-- The same at a known piece of the listing. -/
theorem update_of_entries {D : List (Entry β γ)} (hn : f.ids.Nodup)
    (h : f.entries k = A ++ e :: (D ++ B)) (hD : ∀ d ∈ D, e.level < d.level)
    (hB : Closes e.level B) :
    ∃ n, f.find? e.id = some n ∧ n.label = e.label ∧ n.children.entries (e.level + 1) = D ∧
      ∀ u, (f.update e.id u).entries k = A ++ ((u n).entries e.level ++ B) := by
  obtain ⟨n, B', hfind, hlab, hDB, hB', hu⟩ := exists_update_of_entries hn h
  obtain ⟨hcs, rfl⟩ := append_inj_of_closes hDB hD lt_level_of_mem_entries_succ hB hB'
  exact ⟨n, hfind, hlab, hcs.symm, hu⟩

/-- Removing a subtree deletes its piece of the listing. -/
theorem entries_remove {D : List (Entry β γ)} (hn : f.ids.Nodup)
    (h : f.entries k = A ++ e :: (D ++ B)) (hD : ∀ d ∈ D, e.level < d.level)
    (hB : Closes e.level B) : (f.remove e.id).entries k = A ++ B := by
  obtain ⟨n, -, -, -, hu⟩ := update_of_entries hn h hD hB
  exact hu _

theorem entries_tree (h : f.find? x = some n) (k : ℕ) :
    n.tree.entries k = ⟨k, x, n.label⟩ :: n.children.entries (k + 1) := by
  have hx := find?_id h
  cases hl : n.label with
  | inl b => simp [Node.tree, hl, hx]
  | inr c => simp [Node.tree, hl, hx, children_eq_nil_of_leaf h hl]

theorem ids_tree (h : f.find? x = some n) : n.tree.ids = x :: n.children.ids := by
  rw [← map_id_entries 0, entries_tree h, List.map_cons, map_id_entries]

/-- What an update does to the identities. -/
theorem ids_update (hn : f.ids.Nodup) (h : f.find? x = some n) :
    ∃ A B, f.ids = A ++ (n.tree.ids ++ B) ∧ ∀ u, (f.update x u).ids = A ++ ((u n).ids ++ B) := by
  obtain ⟨l, A, B, he, -, -, hu⟩ := entries_update hn 0 h
  refine ⟨A.map Entry.id, B.map Entry.id, ?_, fun u => ?_⟩
  · rw [← map_id_entries 0 f, he, ids_tree h]
    simp
  · rw [← map_id_entries 0, hu]
    simp

/-- Identities stay distinct if the new trees bring only identities from elsewhere. -/
theorem nodup_update {t : List ℕ} (hn : (t ++ f.ids).Nodup)
    (hu : ∀ n, f.find? x = some n → (u n).ids <+~ t ++ n.tree.ids) :
    (f.update x u).ids.Nodup := by
  have hf : f.ids.Nodup := (List.nodup_append.1 hn).2.1
  cases hfind : f.find? x with
  | none => rwa [update_of_notMem (find?_eq_none.1 hfind)]
  | some n =>
    obtain ⟨A, B, hids, hupd⟩ := ids_update hf hfind
    rw [hupd]
    have hsub : A ++ ((u n).ids ++ B) <+~ t ++ f.ids := by
      refine ((List.subperm_append_left A).2 ((List.subperm_append_right B).2 (hu n hfind))).trans ?_
      rw [hids, List.append_assoc]
      exact (List.perm_append_comm_assoc _ _ _).subperm
    obtain ⟨l, hl, hsub⟩ := hsub
    exact hl.nodup_iff.1 (hn.sublist hsub)

/-- Replacing the children of an inner node. -/
theorem entries_modifyChildren {cs : Forest β γ} {l : ℕ} {b : β} (hn : f.ids.Nodup)
    (h : f.entries k = A ++ ⟨l, x, .inl b⟩ :: (cs.entries (l + 1) ++ B)) (hB : Closes l B)
    (φ : Forest β γ → Forest β γ) :
    (f.modifyChildren x φ).entries k = A ++ ⟨l, x, .inl b⟩ :: ((φ cs).entries (l + 1) ++ B) := by
  obtain ⟨n, hfind, hlab, hcs, hu⟩ := update_of_entries (e := ⟨l, x, .inl b⟩) hn h
    lt_level_of_mem_entries_succ hB
  obtain rfl : n.children = cs := entries_injective _ hcs
  have := hu fun n => Node.tree { n with children := φ n.children }
  simpa [modifyChildren, Node.tree, hlab, find?_id hfind] using this

/-- Replace the content of the leaf `x`. -/
def setContent (x : ℕ) (c : γ) (f : Forest β γ) : Forest β γ :=
  f.update x fun n => match n.label with
    | .inl _ => n.tree
    | .inr _ => leaf n.id c nil

/-- Contents do not matter for what lies above a node. -/
theorem path?_setContent (x y : ℕ) (c : γ) (f : Forest β γ) :
    (f.setContent x c).path? y = f.path? y := by
  refine path?_update fun n _ _ => ?_
  obtain ⟨i, b | d, cs⟩ := n <;> rfl

theorem entries_setContent {l : ℕ} {c c' : γ} (hn : f.ids.Nodup)
    (h : f.entries k = A ++ ⟨l, x, .inr c⟩ :: B) :
    (f.setContent x c').entries k = A ++ ⟨l, x, .inr c'⟩ :: B := by
  obtain ⟨n, B', hfind, hlab, rfl, -, hu⟩ := exists_update_of_entries hn h
  have := hu fun n => match n.label with
    | .inl _ => n.tree
    | .inr _ => leaf n.id c' nil
  simpa [setContent, hlab, find?_id hfind, children_eq_nil_of_leaf hfind hlab] using this

/-! ### Moving trees -/

/-- Take the tree of identity `x` out of its place and make it a tree of its own. -/
def detach (x : ℕ) (f : Forest β γ) : Forest β γ :=
  match f.find? x with
  | none => f
  | some n => f.remove x ++ n.tree

theorem entries_detach {cs : Forest β γ} (hn : f.ids.Nodup)
    (h : f.entries 0 = A ++ e :: (cs.entries (e.level + 1) ++ B)) (hB : Closes e.level B) :
    (f.detach e.id).entries 0 = A ++ B ++ ⟨0, e.id, e.label⟩ :: cs.entries 1 := by
  obtain ⟨n, hfind, hlab, hcs, hu⟩ := update_of_entries hn h lt_level_of_mem_entries_succ hB
  obtain rfl : n.children = cs := entries_injective _ hcs
  rw [detach, hfind]
  simp only [entries_append, entries_tree hfind, hlab]
  rw [remove, hu]
  simp

theorem ids_detach_perm (hn : f.ids.Nodup) (x : ℕ) : (f.detach x).ids.Perm f.ids := by
  unfold detach
  cases hfind : f.find? x with
  | none => exact List.Perm.refl _
  | some n =>
    obtain ⟨A, B, hids, hupd⟩ := ids_update hn hfind
    simp only [ids_append, remove, hupd, hids, ids_nil, List.nil_append, List.append_assoc]
    exact List.perm_append_comm.append_left _

theorem detach_append_right (h : x ∉ f.ids) : (f ++ g).detach x = f ++ g.detach x := by
  unfold detach
  rw [find?_append, find?_eq_none.2 h, none_or]
  cases g.find? x with
  | none => rfl
  | some n =>
    simp only [remove]
    rw [update_append_right h, append_assoc]

theorem detach_append_left (h : f.find? x = some n) (hg : x ∉ g.ids) :
    (f ++ g).detach x = f.remove x ++ (g ++ n.tree) := by
  unfold detach
  rw [find?_append, h, some_or]
  simp only [remove]
  rw [update_append_left hg, append_assoc]

/-- Detaching, one by one, all nodes of a piece `Q` of the listing that ends with a subtree.  The
nodes below a detached one are no longer found. -/
theorem exists_foldl_detach {z : Forest β γ} {X Q : List (Entry β γ)} {r : ℕ} {L : List ℕ}
    (hn : (f ++ z).ids.Nodup) (h : f.entries 0 = X ++ (Q ++ B)) (hQ : ∀ q ∈ Q, r < q.level)
    (hB : Closes r B) (hsuf : Q.map Entry.id <:+ L) (hL : L.Nodup)
    (hXB : ∀ y ∈ L, y ∉ (X ++ B).map Entry.id) :
    ∃ f' z', L.foldl (fun f y => f.detach y) (f ++ z) = f' ++ z' ∧ f'.entries 0 = X ++ B := by
  induction L generalizing f z Q with
  | nil =>
    have : Q = [] := by simpa using hsuf
    exact ⟨f, z, rfl, by simpa [this] using h⟩
  | cons y L ih =>
    have hids : f.ids = (X ++ (Q ++ B)).map Entry.id := by rw [← h, map_id_entries]
    have hL' := List.nodup_cons.1 hL
    have hnf := List.nodup_append.1 (ids_append f z ▸ hn)
    have hn' : ((f ++ z).detach y).ids.Nodup := (ids_detach_perm hn y).nodup_iff.2 hn
    have hXB' : ∀ y ∈ L, y ∉ (X ++ B).map Entry.id := fun y hy => hXB y (by simp [hy])
    rw [List.foldl_cons]
    rcases List.suffix_cons_iff.1 hsuf with hQL | hsuf'
    · -- `y` is the first node of the piece: its subtree leaves the forest
      obtain ⟨q, Q, rfl⟩ : ∃ q Q', Q = q :: Q' := by
        cases Q with
        | nil => simp at hQL
        | cons q Q => exact ⟨q, Q, rfl⟩
      obtain ⟨rfl, rfl⟩ := hQL
      have hspl : Q = Q.takeWhile (fun e => decide (q.level < e.level)) ++
          Q.dropWhile (fun e => decide (q.level < e.level)) := by
        rw [List.takeWhile_append_dropWhile]
      have hD : ∀ d ∈ Q.takeWhile (fun e => decide (q.level < e.level)), q.level < d.level :=
        fun d hd => by simpa using List.mem_takeWhile_imp hd
      have hclo : Closes q.level (Q.dropWhile (fun e => decide (q.level < e.level)) ++ B) := by
        refine Closes.append (fun e he => ?_) (hB.mono (hQ q (by simp)).le)
        have := List.head?_dropWhile_not (fun e : Entry β γ => decide (q.level < e.level)) Q
        rw [mem_def.1 he] at this
        simpa using this
      have hq : f.entries 0 = X ++ q :: (Q.takeWhile (fun e => decide (q.level < e.level)) ++
          (Q.dropWhile (fun e => decide (q.level < e.level)) ++ B)) := by
        rw [h, ← List.append_assoc (List.takeWhile _ Q), ← hspl]
        rfl
      obtain ⟨m, hm, -, -⟩ := find?_of_entries hnf.1 hq hD hclo
      have hz : q.id ∉ z.ids := fun hz => hnf.2.2 q.id (mem_of_find? hm) q.id hz rfl
      rw [detach_append_left hm hz] at hn' ⊢
      refine ih hn' (entries_remove hnf.1 hq hD hclo) (fun e he => ?_) ?_ hL'.2 hXB'
      · exact hQ e (by simp [(List.dropWhile_sublist _).subset he])
      · exact (List.dropWhile_suffix _).map _
    · -- `y` was detached with a node above it
      have hy : y ∉ f.ids := by
        rw [hids, List.map_append, List.map_append, List.mem_append, List.mem_append]
        have hyXB := hXB y (by simp)
        rw [List.map_append, List.mem_append] at hyXB
        rintro (hy | hy | hy)
        · exact hyXB (.inl hy)
        · exact hL'.1 (hsuf'.subset hy)
        · exact hyXB (.inr hy)
      rw [detach_append_right hy] at hn' ⊢
      exact ih hn' h hQ hsuf' hL'.2 hXB'

/-- Insert the trees `t` before the tree of index `i`. -/
def insertAt : ℕ → Forest β γ → Forest β γ → Forest β γ
  | 0, t, f => t ++ f
  | _ + 1, t, nil => t
  | i + 1, t, branch j b cs r => branch j b cs (insertAt i t r)
  | i + 1, t, leaf j c r => leaf j c (insertAt i t r)

theorem insertAt_append (t pre post : Forest β γ) :
    insertAt pre.rootIDs.length t (pre ++ post) = pre ++ (t ++ post) := by
  induction pre with
  | nil => rfl
  | branch i b cs r _ ih => simp [insertAt, ih]
  | leaf i c r ih => simp [insertAt, ih]

theorem ids_insertAt_perm (i : ℕ) (t f : Forest β γ) :
    (insertAt i t f).ids.Perm (t.ids ++ f.ids) := by
  induction f generalizing i with
  | nil => cases i <;> simp [insertAt]
  | branch j b cs r _ ih =>
    cases i with
    | zero => simp [insertAt]
    | succ i =>
      refine ((ih i).append_left _).cons _ |>.trans ?_
      rw [← List.append_assoc]
      refine (List.Perm.cons _ (List.perm_append_comm.append_right _)).trans ?_
      rw [List.append_assoc]
      exact List.perm_middle.symm
  | leaf j c r ih =>
    cases i with
    | zero => simp [insertAt]
    | succ i =>
      exact ((ih i).cons _).trans List.perm_middle.symm

/-- Move the tree of identity `c` to index `i` of the children of `p`. -/
def attach (p i c : ℕ) (f : Forest β γ) : Forest β γ :=
  match f.find? c with
  | none => f
  | some n => (f.remove c).modifyChildren p (insertAt i n.tree)

theorem ids_remove_sublist (hn : f.ids.Nodup) (x : ℕ) : (f.remove x).ids.Sublist f.ids := by
  cases hfind : f.find? x with
  | none => rw [remove, update_of_notMem (find?_eq_none.1 hfind)]
  | some n =>
    obtain ⟨A, B, hids, hupd⟩ := ids_update hn hfind
    rw [remove, hupd, hids]
    exact (List.sublist_append_right _ _).append_left _

theorem notMem_remove (hn : f.ids.Nodup) (h : f.find? x = some n) :
    ∀ y ∈ n.tree.ids, y ∉ (f.remove x).ids := by
  have hp := (ids_detach_perm hn x).nodup_iff.2 hn
  rw [detach, h] at hp
  simp only [ids_append, List.nodup_append] at hp
  exact fun y hy hy' => hp.2.2 y hy' y hy rfl

theorem nodup_modifyChildren {φ : Forest β γ → Forest β γ} {t : List ℕ} (hn : (t ++ f.ids).Nodup)
    (hφ : ∀ cs, (φ cs).ids.Perm (t ++ cs.ids)) (p : ℕ) : (f.modifyChildren p φ).ids.Nodup := by
  refine nodup_update hn fun n hfind => ?_
  obtain ⟨i, b | c, cs⟩ := n
  · simpa [Node.tree] using (((hφ cs).cons i).trans List.perm_middle.symm).subperm
  · exact (List.sublist_append_right _ _).subperm

theorem nodup_attach (hn : f.ids.Nodup) (p i c : ℕ) : (f.attach p i c).ids.Nodup := by
  unfold attach
  cases hfind : f.find? c with
  | none => exact hn
  | some n =>
    refine nodup_modifyChildren (t := n.tree.ids) ?_ (fun cs => ids_insertAt_perm i n.tree cs) p
    have hp := (ids_detach_perm hn c).nodup_iff.2 hn
    rw [detach, hfind] at hp
    rw [ids_append] at hp
    exact (List.perm_append_comm.nodup_iff).1 hp

/-- Replacing the children of a node by some of them keeps identities distinct. -/
theorem nodup_modifyChildren_of_sublist {φ : Forest β γ → Forest β γ} (hn : f.ids.Nodup)
    (hφ : ∀ cs, (φ cs).ids.Sublist cs.ids) (p : ℕ) : (f.modifyChildren p φ).ids.Nodup := by
  refine nodup_update (t := []) hn fun n _ => ?_
  obtain ⟨i, b | c, cs⟩ := n
  · simpa [Node.tree] using ((hφ cs).cons_cons i).subperm
  · exact List.Subperm.refl _

theorem nodup_setContent (hn : f.ids.Nodup) (x : ℕ) (c : γ) : (f.setContent x c).ids.Nodup := by
  refine nodup_update (t := []) hn fun n _ => ?_
  obtain ⟨i, b | d, cs⟩ := n <;> exact List.Subperm.refl _

/-! ### Fresh identities -/

/-- An identity above all identities of the forest. -/
def fresh (f : Forest β γ) : ℕ := f.ids.foldr max 0 + 1

theorem lt_fresh (h : x ∈ f.ids) : x < f.fresh := by
  unfold fresh
  generalize f.ids = l at h ⊢
  induction l with
  | nil => simp at h
  | cons a l ih =>
    rw [List.foldr_cons]
    rcases List.mem_cons.1 h with rfl | h
    · omega
    · have := ih h
      omega

/-- The same forest with the identities `m, m + 1, …` in document order. -/
def renumber : ℕ → Forest β γ → Forest β γ
  | _, nil => nil
  | m, branch _ b cs r =>
    branch m b (renumber (m + 1) cs) (renumber (m + 1 + cs.ids.length) r)
  | m, leaf _ c r => leaf m c (renumber (m + 1) r)

theorem ids_renumber (m : ℕ) (f : Forest β γ) : (f.renumber m).ids = List.range' m f.ids.length := by
  induction f generalizing m with
  | nil => rfl
  | branch i b cs r ihc ihr =>
    simp only [renumber, ids_branch, ihc, ihr, List.length_cons, List.length_append,
      List.range'_succ]
    rw [List.range'_append_1]
  | leaf i c r ih => simp [renumber, ih, List.range'_succ]

/-- The same forest with all identities forgotten. -/
def anonymous : Forest β γ → Forest β γ
  | nil => nil
  | branch _ b cs r => branch 0 b (anonymous cs) (anonymous r)
  | leaf _ c r => leaf 0 c (anonymous r)

attribute [local simp] anonymous

theorem entries_anonymous (k : ℕ) (f : Forest β γ) :
    f.anonymous.entries k = (f.entries k).map fun e => { e with id := 0 } := by
  induction f generalizing k with
  | nil => rfl
  | branch i b cs r ihc ihr => simp [ihc, ihr]
  | leaf i c r ih => simp [ih]

/-- Forests whose listings differ in identities only. -/
theorem anonymous_eq_of_entries {ν : Entry β γ → ℕ}
    (h : f.entries k = (g.entries k).map fun e => { e with id := ν e }) :
    f.anonymous = g.anonymous := by
  refine entries_injective k ?_
  rw [entries_anonymous, entries_anonymous, h, List.map_map]
  rfl

theorem anonymous_append (f g : Forest β γ) :
    (f ++ g).anonymous = f.anonymous ++ g.anonymous := by
  induction f with
  | nil => rfl
  | branch i b cs r _ ih => simp [ih]
  | leaf i c r ih => simp [ih]

theorem labels_anonymous (f : Forest β γ) : f.anonymous.labels = f.labels := by
  induction f with
  | nil => rfl
  | branch i b cs r ihc ihr => simp [ihc, ihr]
  | leaf i c r ih => simp [ih]

theorem anonymous_renumber (m : ℕ) (f : Forest β γ) : (f.renumber m).anonymous = f.anonymous := by
  induction f generalizing m with
  | nil => rfl
  | branch i b cs r ihc ihr => simp [renumber, ihc, ihr]
  | leaf i c r ih => simp [renumber, ih]

theorem nodup_append_renumber (hn : f.ids.Nodup) (g : Forest β γ) :
    (f ++ g.renumber f.fresh).ids.Nodup := by
  rw [ids_append, ids_renumber, List.nodup_append]
  refine ⟨hn, List.nodup_range', fun a ha b hb => ?_⟩
  have := lt_fresh ha
  rw [List.mem_range'_1] at hb
  omega

end Forest

end OrderedTree
