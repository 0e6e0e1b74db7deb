import Mathlib.Data.List.Nodup
import Mathlib.Data.List.TakeWhile
import Mathlib.Tactic

/-!
# Ordered forests of identified nodes

A forest is a list of ordered trees.  Every node has an identity; an inner node carries a label of
type `β` and a forest of children, a leaf a content of type `γ`.

`ids` and `labels` list the nodes in document order, `entries k` with their levels, from `k`.  The
listing determines the forest (`entries_injective`), and appending forests appends listings, so that
edits and traversals are reasoned about on flat lists.  `find?` is the node of an identity, and
`entries_of_find?` tells where its subtree sits.
-/

namespace OrderedTree

open List

variable {l k x : ℕ}

/-- A list of ordered trees: `branch i b cs r` is an inner node with children `cs`, and `leaf i c r`
a leaf, followed by the trees `r`. -/
inductive Forest (β γ : Type) where
  | nil
  | branch (id : ℕ) (label : β) (children rest : Forest β γ)
  | leaf (id : ℕ) (content : γ) (rest : Forest β γ)
  deriving DecidableEq, Repr

/-- One node of a listing: its level, its identity and what it carries. -/
structure Entry (β γ : Type) where
  level : ℕ
  id : ℕ
  label : β ⊕ γ
  deriving DecidableEq, Repr

/-- A node with everything below it. -/
@[ext]
structure Node (β γ : Type) where
  id : ℕ
  label : β ⊕ γ
  children : Forest β γ
  deriving DecidableEq, Repr

variable {β γ : Type}

variable {B C D A X Y : List (Entry β γ)} {f : Forest β γ} {n : Node β γ} {e : Entry β γ}

namespace Forest

/-- Concatenation of forests. -/
def append : Forest β γ → Forest β γ → Forest β γ
  | nil, g => g
  | branch i b cs r, g => branch i b cs (append r g)
  | leaf i c r, g => leaf i c (append r g)

instance : Append (Forest β γ) := ⟨append⟩

@[simp] theorem nil_append (g : Forest β γ) : nil ++ g = g := rfl

@[simp] theorem branch_append (i : ℕ) (b : β) (cs r g : Forest β γ) :
    branch i b cs r ++ g = branch i b cs (r ++ g) := rfl

@[simp] theorem leaf_append (i : ℕ) (c : γ) (r g : Forest β γ) :
    leaf i c r ++ g = leaf i c (r ++ g) := rfl

@[simp] theorem append_nil (f : Forest β γ) : f ++ nil = f := by
  induction f with
  | nil => rfl
  | branch i b cs r _ ih => rw [branch_append, ih]
  | leaf i c r ih => rw [leaf_append, ih]

theorem append_assoc (f g h : Forest β γ) : f ++ g ++ h = f ++ (g ++ h) := by
  induction f with
  | nil => rfl
  | branch i b cs r _ ih => simp [ih]
  | leaf i c r ih => simp [ih]

/-- The identities of a forest in document order. -/
def ids : Forest β γ → List ℕ
  | nil => []
  | branch i _ cs r => i :: (ids cs ++ ids r)
  | leaf i _ r => i :: ids r

/-- The identities of the top-level trees. -/
def rootIDs : Forest β γ → List ℕ
  | nil => []
  | branch i _ _ r => i :: rootIDs r
  | leaf i _ r => i :: rootIDs r

/-- The listing of a forest in document order, its top-level trees at level `k`. -/
def entries (k : ℕ) : Forest β γ → List (Entry β γ)
  | nil => []
  | branch i b cs r => ⟨k, i, .inl b⟩ :: (entries (k + 1) cs ++ entries k r)
  | leaf i c r => ⟨k, i, .inr c⟩ :: entries k r

/-- What the nodes of a forest carry, in document order. -/
def labels : Forest β γ → List (β ⊕ γ)
  | nil => []
  | branch _ b cs r => .inl b :: (labels cs ++ labels r)
  | leaf _ c r => .inr c :: labels r

/-- The nodes of a forest in document order, each with its subtree. -/
def nodes : Forest β γ → List (Node β γ)
  | nil => []
  | branch i b cs r => ⟨i, .inl b, cs⟩ :: (nodes cs ++ nodes r)
  | leaf i c r => ⟨i, .inr c, nil⟩ :: nodes r

section Listing

variable (k : ℕ) (i : ℕ) (b : β) (c : γ) (cs r f g : Forest β γ)

@[simp] theorem ids_nil : (nil : Forest β γ).ids = [] := rfl
@[simp] theorem ids_branch : (branch i b cs r).ids = i :: (cs.ids ++ r.ids) := rfl
@[simp] theorem ids_leaf : (leaf i c r).ids = i :: r.ids := rfl
@[simp] theorem labels_nil : (nil : Forest β γ).labels = [] := rfl
@[simp] theorem labels_branch :
    (branch i b cs r).labels = .inl b :: (cs.labels ++ r.labels) := rfl
@[simp] theorem labels_leaf : (leaf i c r).labels = .inr c :: r.labels := rfl
@[simp] theorem rootIDs_nil : (nil : Forest β γ).rootIDs = [] := rfl
@[simp] theorem rootIDs_branch : (branch i b cs r).rootIDs = i :: r.rootIDs := rfl
@[simp] theorem rootIDs_leaf : (leaf i c r).rootIDs = i :: r.rootIDs := rfl
@[simp] theorem entries_nil : (nil : Forest β γ).entries k = [] := rfl
@[simp] theorem entries_branch : (branch i b cs r).entries k =
    ⟨k, i, .inl b⟩ :: (cs.entries (k + 1) ++ r.entries k) := rfl
@[simp] theorem entries_leaf : (leaf i c r).entries k = ⟨k, i, .inr c⟩ :: r.entries k := rfl
@[simp] theorem nodes_nil : (nil : Forest β γ).nodes = [] := rfl
@[simp] theorem nodes_branch : (branch i b cs r).nodes =
    ⟨i, .inl b, cs⟩ :: (cs.nodes ++ r.nodes) := rfl
@[simp] theorem nodes_leaf : (leaf i c r).nodes = ⟨i, .inr c, nil⟩ :: r.nodes := rfl

@[simp] theorem ids_append : (f ++ g).ids = f.ids ++ g.ids := by
  induction f with
  | nil => rfl
  | branch i b cs r _ ih => simp [ih]
  | leaf i c r ih => simp [ih]

@[simp] theorem rootIDs_append : (f ++ g).rootIDs = f.rootIDs ++ g.rootIDs := by
  induction f with
  | nil => rfl
  | branch i b cs r _ ih => simp [ih]
  | leaf i c r ih => simp [ih]

@[simp] theorem entries_append : (f ++ g).entries k = f.entries k ++ g.entries k := by
  induction f with
  | nil => rfl
  | branch i b cs r _ ih => simp [ih]
  | leaf i c r ih => simp [ih]

@[simp] theorem nodes_append : (f ++ g).nodes = f.nodes ++ g.nodes := by
  induction f with
  | nil => rfl
  | branch i b cs r _ ih => simp [ih]
  | leaf i c r ih => simp [ih]

@[simp] theorem map_id_entries : (f.entries k).map Entry.id = f.ids := by
  induction f generalizing k with
  | nil => rfl
  | branch i b cs r ihc ihr => simp [ihc, ihr]
  | leaf i c r ih => simp [ih]

@[simp] theorem map_label_entries : (f.entries k).map Entry.label = f.labels := by
  induction f generalizing k with
  | nil => rfl
  | branch i b cs r ihc ihr => simp [ihc, ihr]
  | leaf i c r ih => simp [ih]

@[simp] theorem labels_append : (f ++ g).labels = f.labels ++ g.labels := by
  rw [← map_label_entries 0, entries_append, map_append, map_label_entries, map_label_entries]

theorem mem_ids_of_mem_entries (h : e ∈ f.entries k) : e.id ∈ f.ids := by
  rw [← map_id_entries k f]
  exact mem_map_of_mem h

theorem map_nodes_eq_map_entries :
    f.nodes.map (fun n => (n.id, n.label)) = (f.entries k).map (fun e => (e.id, e.label)) := by
  induction f generalizing k with
  | nil => rfl
  | branch i b cs r ihc ihr => simp [ihc (k + 1), ihr k]
  | leaf i c r ih => simp [ih k]

@[simp] theorem map_id_nodes : f.nodes.map Node.id = f.ids := by
  induction f with
  | nil => rfl
  | branch i b cs r ihc ihr => simp [ihc, ihr]
  | leaf i c r ih => simp [ih]

theorem map_label_nodes : f.nodes.map Node.label = f.labels := by
  induction f with
  | nil => rfl
  | branch i b cs r ihc ihr => simp [ihc, ihr]
  | leaf i c r ih => simp [ih]

theorem length_entries : (f.entries k).length = f.ids.length := by
  rw [← map_id_entries k f, length_map]

theorem entries_eq_nil_iff : f.entries k = [] ↔ f.ids = [] := by
  cases f <;> simp

theorem le_level_of_mem (h : e ∈ f.entries k) : k ≤ e.level := by
  induction f generalizing k with
  | nil => simp at h
  | branch i b cs r ihc ihr =>
    simp only [entries_branch, mem_cons, mem_append] at h
    rcases h with rfl | h | h
    · exact le_rfl
    · exact (Nat.le_succ k).trans (ihc _ h)
    · exact ihr _ h
  | leaf i c r ih =>
    simp only [entries_leaf, mem_cons] at h
    rcases h with rfl | h
    · exact le_rfl
    · exact ih _ h

/-- The identities that head the trees are among all identities, in the same order. -/
theorem rootIDs_sublist : f.rootIDs.Sublist f.ids := by
  induction f with
  | nil => exact List.Sublist.refl _
  | branch i b cs r _ ih =>
    exact (ih.trans (sublist_append_right _ _)).cons_cons i
  | leaf i d r ih => exact ih.cons_cons i

theorem rootIDs_subset : f.rootIDs ⊆ f.ids := f.rootIDs_sublist.subset

theorem head?_ids : f.ids.head? = f.rootIDs.head? := by
  cases f <;> rfl

variable {i b cs r} in
theorem nodup_branch : (branch i b cs r).ids.Nodup ↔
    (i ∉ cs.ids ∧ i ∉ r.ids) ∧ cs.ids.Nodup ∧ r.ids.Nodup ∧ List.Disjoint cs.ids r.ids := by
  rw [ids_branch, nodup_cons, mem_append, not_or, nodup_append']

end Listing

/-! ### Where a subtree ends -/

/-- `B` can follow a subtree of level `l`: it is empty or goes on at level `l` or above. -/
def Closes (l : ℕ) (B : List (Entry β γ)) : Prop := ∀ e ∈ B.head?, e.level ≤ l

theorem closes_nil (l : ℕ) : Closes l ([] : List (Entry β γ)) := by simp [Closes]

theorem closes_entries (k : ℕ) (f : Forest β γ) : Closes k (f.entries k) := by
  cases f <;> simp [Closes]

theorem Closes.mono {m : ℕ} (h : Closes l B) (hlm : l ≤ m) :
    Closes m B := fun e he => (h e he).trans hlm

theorem Closes.append (hB : Closes l B) (hC : Closes l C) : Closes l (B ++ C) := by
  cases B with
  | nil => exact hC
  | cons e B => simpa [Closes] using hB

theorem closes_of_level_eq_zero {Z : List (Entry β γ)} (hZ : ∀ z ∈ Z, z.level = 0) (l : ℕ) :
    Closes l Z := fun e he => by
  rw [hZ e (mem_of_mem_head? he)]
  exact Nat.zero_le l

/-- A subtree's entries are the longest run of deeper entries. -/
theorem takeWhile_append_of_closes (hD : ∀ d ∈ D, l < d.level) (hB : Closes l B) :
    (D ++ B).takeWhile (fun e => decide (l < e.level)) = D := by
  rw [takeWhile_append_of_pos (by simpa using hD)]
  cases B with
  | nil => simp
  | cons e B =>
    have : e.level ≤ l := hB e (by simp)
    simp [this]

theorem dropWhile_append_of_closes (hD : ∀ d ∈ D, l < d.level) (hB : Closes l B) :
    (D ++ B).dropWhile (fun e => decide (l < e.level)) = B := by
  rw [dropWhile_append_of_pos (by simpa using hD)]
  cases B with
  | nil => simp
  | cons e B =>
    have : e.level ≤ l := hB e (by simp)
    simp [this]

/-- The split of a listing behind a node into its subtree and what follows is unique. -/
theorem append_inj_of_closes {D' B' : List (Entry β γ)} (h : D ++ B = D' ++ B')
    (hD : ∀ d ∈ D, l < d.level) (hD' : ∀ d ∈ D', l < d.level) (hB : Closes l B)
    (hB' : Closes l B') : D = D' ∧ B = B' := by
  have h1 := takeWhile_append_of_closes hD hB
  have h2 := takeWhile_append_of_closes hD' hB'
  have h3 := dropWhile_append_of_closes hD hB
  have h4 := dropWhile_append_of_closes hD' hB'
  rw [h] at h1 h3
  exact ⟨h1.symm.trans h2, h3.symm.trans h4⟩

theorem lt_level_of_mem_entries_succ :
    ∀ d ∈ f.entries (k + 1), k < d.level := fun _ hd => le_level_of_mem (k + 1) f hd

/-- The listing determines the forest. -/
theorem entries_injective (k : ℕ) : Function.Injective (entries k : Forest β γ → List (Entry β γ)) := by
  intro f
  induction f generalizing k with
  | nil =>
    intro g h
    cases g <;> simp at h ⊢
  | branch i b cs r ihc ihr =>
    intro g h
    cases g with
    | nil => simp at h
    | leaf j c s => simp at h
    | branch j b' cs' r' =>
      simp only [entries_branch, cons.injEq] at h
      obtain ⟨⟨rfl, rfl⟩, h⟩ := h
      obtain ⟨hc, hr⟩ := append_inj_of_closes h lt_level_of_mem_entries_succ
        lt_level_of_mem_entries_succ (closes_entries k r) (closes_entries k r')
      rw [ihc _ hc, ihr _ hr]
  | leaf i c r ih =>
    intro g h
    cases g with
    | nil => simp at h
    | branch j b' cs' r' => simp at h
    | leaf j c' s =>
      simp only [entries_leaf, cons.injEq] at h
      obtain ⟨⟨rfl, rfl⟩, h⟩ := h
      rw [ih _ h]


/-! ### Looking up a node -/

/-- The node of identity `x`, with its subtree. -/
def find? (x : ℕ) : Forest β γ → Option (Node β γ)
  | nil => none
  | branch i b cs r => if i = x then some ⟨i, .inl b, cs⟩ else (find? x cs).or (find? x r)
  | leaf i c r => if i = x then some ⟨i, .inr c, nil⟩ else find? x r

theorem find?_branch (x i : ℕ) (b : β) (cs r : Forest β γ) : (branch i b cs r).find? x =
    if i = x then some ⟨i, .inl b, cs⟩ else (cs.find? x).or (r.find? x) := rfl

theorem find?_leaf (x i : ℕ) (c : γ) (r : Forest β γ) : (leaf i c r).find? x =
    if i = x then some ⟨i, .inr c, nil⟩ else r.find? x := rfl

theorem find?_eq_find?_nodes (x : ℕ) (f : Forest β γ) :
    f.find? x = f.nodes.find? fun n => decide (n.id = x) := by
  induction f with
  | nil => rfl
  | branch i b cs r ihc ihr =>
    rw [find?_branch, ihc, ihr]
    by_cases h : i = x <;> simp [h]
  | leaf i c r ih =>
    rw [find?_leaf, ih]
    by_cases h : i = x <;> simp [h]

theorem find?_append (x : ℕ) (f g : Forest β γ) :
    (f ++ g).find? x = (f.find? x).or (g.find? x) := by
  simp [find?_eq_find?_nodes]

theorem find?_eq_none : f.find? x = none ↔ x ∉ f.ids := by
  rw [find?_eq_find?_nodes, ← map_id_nodes, mem_map]
  simp

theorem find?_id (h : f.find? x = some n) : n.id = x := by
  rw [find?_eq_find?_nodes] at h
  simpa using find?_some h

theorem mem_nodes_of_find? (h : f.find? x = some n) : n ∈ f.nodes := by
  rw [find?_eq_find?_nodes] at h
  exact mem_of_find?_eq_some h

theorem exists_find?_of_mem (h : x ∈ f.ids) : ∃ n, f.find? x = some n := by
  cases hf : f.find? x with
  | none => exact absurd h (find?_eq_none.1 hf)
  | some n => exact ⟨n, rfl⟩

theorem mem_of_find? (h : f.find? x = some n) : x ∈ f.ids := by
  by_contra hx
  rw [find?_eq_none.2 hx] at h
  cases h

theorem find?_of_mem_nodes (hn : f.ids.Nodup) (h : n ∈ f.nodes) : f.find? n.id = some n := by
  obtain ⟨A, B, hAB⟩ := append_of_mem h
  rw [← map_id_nodes, hAB, map_append, nodup_append] at hn
  rw [find?_eq_find?_nodes, find?_eq_some_iff_append]
  refine ⟨by simp, A, B, hAB, ?_⟩
  intro a ha
  have := hn.2.2 a.id (mem_map_of_mem ha) n.id (by simp)
  simpa using this

/-- The subtree of a node is a contiguous piece of the listing, closed by what follows it. -/
theorem entries_of_find? (k : ℕ) (h : f.find? x = some n) :
    ∃ l A B, f.entries k = A ++ ⟨l, x, n.label⟩ :: (n.children.entries (l + 1) ++ B) ∧
      k ≤ l ∧ Closes l B := by
  induction f generalizing k with
  | nil => simp [find?] at h
  | branch i b cs r ihc ihr =>
    unfold find? at h
    split_ifs at h with hi
    · cases h
      subst hi
      exact ⟨k, [], r.entries k, by simp, le_rfl, closes_entries k r⟩
    · rcases Option.or_eq_some_iff.1 h with h | ⟨-, h⟩
      · obtain ⟨l, A, B, he, hl, hB⟩ := ihc (k + 1) h
        refine ⟨l, ⟨k, i, .inl b⟩ :: A, B ++ r.entries k, by simp [he], by omega, ?_⟩
        exact hB.append ((closes_entries k r).mono (by omega))
      · obtain ⟨l, A, B, he, hl, hB⟩ := ihr k h
        exact ⟨l, ⟨k, i, .inl b⟩ :: (cs.entries (k + 1) ++ A), B, by simp [he], hl, hB⟩
  | leaf i c r ih =>
    unfold find? at h
    split_ifs at h with hi
    · cases h
      subst hi
      exact ⟨k, [], r.entries k, by simp, le_rfl, closes_entries k r⟩
    · obtain ⟨l, A, B, he, hl, hB⟩ := ih k h
      exact ⟨l, ⟨k, i, .inr c⟩ :: A, B, by simp [he], hl, hB⟩

/-- In a list without repeated identities an entry has one position. -/
theorem split_unique {A' C' : List (Entry β γ)} {e' : Entry β γ}
    (hn : ((A ++ e :: C).map Entry.id).Nodup) (h : A ++ e :: C = A' ++ e' :: C')
    (hid : e.id = e'.id) : A = A' ∧ e = e' ∧ C = C' := by
  induction A generalizing A' with
  | nil =>
    cases A' with
    | nil => simpa using h
    | cons a A' =>
      obtain ⟨rfl, rfl⟩ := h
      simp [hid] at hn
  | cons a A ih =>
    cases A' with
    | nil =>
      obtain ⟨rfl, rfl⟩ := h
      simp [hid] at hn
    | cons a' A' =>
      simp only [cons_append, cons.injEq, map_cons, nodup_cons] at h hn
      obtain ⟨rfl, h⟩ := h
      obtain ⟨rfl, rfl, rfl⟩ := ih hn.2 h
      exact ⟨rfl, rfl, rfl⟩

/-- The node of an entry of the listing, and where its subtree ends. -/
theorem exists_find?_of_entries (hn : f.ids.Nodup) (h : f.entries k = A ++ e :: C) :
    ∃ n B, f.find? e.id = some n ∧ n.label = e.label ∧
      C = n.children.entries (e.level + 1) ++ B ∧ Closes e.level B := by
  have hmem : e.id ∈ f.ids := mem_ids_of_mem_entries k f (by rw [h]; simp)
  obtain ⟨n, hfind⟩ := exists_find?_of_mem hmem
  obtain ⟨l, A', B, he, -, hB⟩ := entries_of_find? k hfind
  have hn' : ((A ++ e :: C).map Entry.id).Nodup := by rw [← h, map_id_entries]; exact hn
  obtain ⟨-, he', hC⟩ := split_unique hn' (h.symm.trans he) rfl
  obtain rfl : e.level = l := congrArg Entry.level he'
  exact ⟨n, B, hfind, (congrArg Entry.label he').symm, hC, hB⟩

/-- The converse of `entries_of_find?`: a closed piece of the listing is a subtree. -/
theorem find?_of_entries (hn : f.ids.Nodup) (h : f.entries k = A ++ e :: (D ++ B))
    (hD : ∀ d ∈ D, e.level < d.level) (hB : Closes e.level B) :
    ∃ n, f.find? e.id = some n ∧ n.label = e.label ∧ n.children.entries (e.level + 1) = D := by
  obtain ⟨n, B', hfind, hlab, hDB, hB'⟩ := exists_find?_of_entries hn h
  obtain ⟨hcs, -⟩ := append_inj_of_closes hDB hD lt_level_of_mem_entries_succ hB hB'
  exact ⟨n, hfind, hlab, hcs.symm⟩

/-- A node found below another one is the one found in the whole forest. -/
theorem find?_of_find?_children {y : ℕ} {m : Node β γ} (hn : f.ids.Nodup) (hx : f.find? x = some n)
    (hy : n.children.find? y = some m) : f.find? y = some m := by
  obtain ⟨l, A, B, he, -, hB⟩ := entries_of_find? 0 hx
  obtain ⟨l', A', B', he', hl', hB'⟩ := entries_of_find? (l + 1) hy
  obtain ⟨m', hfind, hlab, hcs⟩ := find?_of_entries (f := f) (k := 0) (e := ⟨l', y, m.label⟩)
    (A := A ++ ⟨l, x, n.label⟩ :: A') (D := m.children.entries (l' + 1)) (B := B' ++ B) hn
    (by rw [he, he']; simp) lt_level_of_mem_entries_succ (hB'.append (hB.mono (by omega)))
  have hid : m'.id = m.id := (find?_id hfind).trans (find?_id hy).symm
  rw [hfind, Node.ext hid hlab (entries_injective _ hcs)]

/-- An entry of the listing is found with its label. -/
theorem find?_label_of_entries (hn : f.ids.Nodup) (h : f.entries k = A ++ e :: C) :
    ∃ n, f.find? e.id = some n ∧ n.label = e.label := by
  obtain ⟨n, -, hfind, hlab, -⟩ := exists_find?_of_entries hn h
  exact ⟨n, hfind, hlab⟩

theorem children_eq_nil_of_leaf {c : γ} (h : f.find? x = some n) (hl : n.label = .inr c) :
    n.children = nil := by
  induction f with
  | nil => simp [find?] at h
  | branch i b cs r ihc ihr =>
    rw [find?_branch] at h
    split_ifs at h
    · cases h; cases hl
    · rcases Option.or_eq_some_iff.1 h with h | ⟨-, h⟩
      · exact ihc h
      · exact ihr h
  | leaf i d r ih =>
    rw [find?_leaf] at h
    split_ifs at h
    · cases h; rfl
    · exact ih h

/-- A node has no children if the listing goes on at its level or above. -/
theorem children_eq_nil_iff_closes (hn : f.ids.Nodup) (h : f.entries k = A ++ e :: C)
    (hfind : f.find? e.id = some n) : n.children = nil ↔ Closes e.level C := by
  obtain ⟨n', B, hfind', -, rfl, hB⟩ := exists_find?_of_entries hn h
  obtain rfl := Option.some.inj (hfind.symm.trans hfind')
  constructor
  · intro hnil
    simpa [hnil] using hB
  · intro hC
    cases hcs : n.children with
    | nil => rfl
    | branch i b cs r =>
      rw [hcs] at hC
      simp [Closes] at hC
    | leaf i c r =>
      rw [hcs] at hC
      simp [Closes] at hC

/-- Below a node identities are still distinct, and they are identities of the forest. -/
theorem children_ids_of_find? (h : f.find? x = some n) :
    ∃ A B, f.ids = A ++ x :: (n.children.ids ++ B) := by
  obtain ⟨l, A, B, he, -⟩ := entries_of_find? 0 h
  refine ⟨A.map Entry.id, B.map Entry.id, ?_⟩
  rw [← map_id_entries 0 f, he]
  simp

theorem children_nodup (hn : f.ids.Nodup) (h : f.find? x = some n) :
    n.children.ids.Nodup ∧ x ∉ n.children.ids := by
  obtain ⟨A, B, he⟩ := children_ids_of_find? h
  rw [he, nodup_append, nodup_cons, nodup_append] at hn
  exact ⟨hn.2.1.2.1, fun hx => hn.2.1.1 (by simp [hx])⟩

theorem children_subset (h : f.find? x = some n) : n.children.ids ⊆ f.ids := by
  obtain ⟨A, B, he⟩ := children_ids_of_find? h
  intro y hy
  rw [he]
  simp [hy]

/-! ### Ancestors -/

/-- The identities above `x`, outermost first. -/
def path? (x : ℕ) : Forest β γ → Option (List ℕ)
  | nil => none
  | branch i _ cs r => if i = x then some [] else ((path? x cs).map (i :: ·)).or (path? x r)
  | leaf i _ r => if i = x then some [] else path? x r

/-- The node directly above `x`. -/
def parent? (x : ℕ) (f : Forest β γ) : Option ℕ := (f.path? x).bind getLast?

/-- The number of nodes above `x`; zero when `x` is not in the forest. -/
def level (x : ℕ) (f : Forest β γ) : ℕ := ((f.path? x).getD []).length

theorem path?_branch (x i : ℕ) (b : β) (cs r : Forest β γ) : (branch i b cs r).path? x =
    if i = x then some [] else ((cs.path? x).map (i :: ·)).or (r.path? x) := rfl

theorem path?_leaf (x i : ℕ) (c : γ) (r : Forest β γ) : (leaf i c r).path? x =
    if i = x then some [] else r.path? x := rfl

theorem path?_append (x : ℕ) (f g : Forest β γ) :
    (f ++ g).path? x = (f.path? x).or (g.path? x) := by
  induction f with
  | nil => rfl
  | branch i b cs r _ ih =>
    rw [branch_append, path?_branch, path?_branch, ih]
    split_ifs
    · rfl
    · rw [Option.or_assoc]
  | leaf i c r ih =>
    rw [leaf_append, path?_leaf, path?_leaf, ih]
    split_ifs <;> rfl

theorem path?_eq_none : f.path? x = none ↔ x ∉ f.ids := by
  induction f with
  | nil => simp [path?]
  | branch i b cs r ihc ihr =>
    unfold path?
    split_ifs with h
    · simp [h]
    · simp [ihc, ihr, Ne.symm h]
  | leaf i c r ih =>
    unfold path?
    split_ifs with h
    · simp [h]
    · simp [ih, Ne.symm h]

theorem mem_of_path? {P : List ℕ} (h : f.path? x = some P) : x ∈ f.ids := by
  by_contra hx
  rw [path?_eq_none.2 hx] at h
  cases h

/-- Where an entry is after `X`: at the top, or below the last one a level up. -/
def PlacedAfter (f : Forest β γ) (k : ℕ) (X : List (Entry β γ)) (e : Entry β γ) : Prop :=
  (e.level = k ∧ f.path? e.id = some []) ∨
    ∃ X₁ a X₂ p, X = X₁ ++ a :: X₂ ∧ a.level + 1 = e.level ∧ (∀ d ∈ X₂, e.level ≤ d.level) ∧
      f.path? a.id = some p ∧ f.path? e.id = some (p ++ [a.id])

/-- The trees before an entry's own do not change where it is. -/
theorem PlacedAfter.beside {r : Forest β γ} (h : r.PlacedAfter k X e)
    (hr : r.entries k = X ++ e :: Y) (hpath : ∀ x ∈ r.ids, f.path? x = r.path? x)
    (W : List (Entry β γ)) : f.PlacedAfter k (W ++ X) e := by
  have hmem : ∀ e' ∈ X ++ e :: Y, e'.id ∈ r.ids := fun e' he' =>
    mem_ids_of_mem_entries k r (by rw [hr]; exact he')
  rcases h with ⟨hk, hp⟩ | ⟨X1, a, X2, p, rfl, hl, hX2, hpa, hpe⟩
  · exact .inl ⟨hk, by rw [hpath _ (hmem e (by simp)), hp]⟩
  · refine .inr ⟨W ++ X1, a, X2, p, by simp, hl, hX2, ?_, ?_⟩
    · rw [hpath _ (hmem a (by simp)), hpa]
    · rw [hpath _ (hmem e (by simp)), hpe]

theorem PlacedAfter.below {cs : Forest β γ} {a : Entry β γ} (h : cs.PlacedAfter (k + 1) X e)
    (hcs : cs.entries (k + 1) = X ++ e :: Y) (ha : a.level = k) (hpa : f.path? a.id = some [])
    (hpath : ∀ x ∈ cs.ids, f.path? x = (cs.path? x).map (a.id :: ·)) :
    f.PlacedAfter k (a :: X) e := by
  have hmem : ∀ e' ∈ X ++ e :: Y, e'.id ∈ cs.ids := fun e' he' =>
    mem_ids_of_mem_entries (k + 1) cs (by rw [hcs]; exact he')
  right
  rcases h with ⟨hk, hp⟩ | ⟨X1, d, X2, p, rfl, hl, hX2, hpd, hpe⟩
  · refine ⟨[], a, X, [], rfl, by rw [ha, hk], fun d hd => ?_, hpa, ?_⟩
    · rw [hk]
      exact le_level_of_mem (k + 1) cs (by rw [hcs]; simp [hd])
    · rw [hpath _ (hmem e (by simp)), hp]
      rfl
  · refine ⟨a :: X1, d, X2, a.id :: p, rfl, hl, hX2, ?_, ?_⟩
    · rw [hpath _ (hmem d (by simp)), hpd]
      rfl
    · rw [hpath _ (hmem e (by simp)), hpe]
      rfl

attribute [local simp] path?_branch

/-- An entry is a top-level tree, or the last entry before it one level up is its parent. -/
theorem path?_of_entries (hn : f.ids.Nodup) (h : f.entries k = X ++ e :: Y) :
    (e.level = k ∧ f.path? e.id = some []) ∨
      ∃ X1 a X2 p, X = X1 ++ a :: X2 ∧ a.level + 1 = e.level ∧ (∀ d ∈ X2, e.level ≤ d.level) ∧
        f.path? a.id = some p ∧ f.path? e.id = some (p ++ [a.id]) := by
  show f.PlacedAfter k X e
  induction f generalizing k X Y with
  | nil => simp at h
  | branch i b cs r ihc ihr =>
    obtain ⟨⟨hic, hir⟩, hnc, hnr, hdisj⟩ := nodup_branch.1 hn
    have below : ∀ x ∈ cs.ids, (branch i b cs r).path? x = (cs.path? x).map (i :: ·) := by
      intro x hx
      have hix : i ≠ x := fun hi => hic (hi ▸ hx)
      have hrx : r.path? x = none := path?_eq_none.2 fun hr => hdisj hx hr
      simp [hix, hrx]
    have beside : ∀ x ∈ r.ids, (branch i b cs r).path? x = r.path? x := by
      intro x hx
      have hix : i ≠ x := fun hi => hir (hi ▸ hx)
      have hcx : cs.path? x = none := path?_eq_none.2 fun hc => hdisj hc hx
      simp [hix, hcx]
    cases X with
    | nil =>
      obtain ⟨rfl, -⟩ := h
      exact .inl ⟨rfl, by simp⟩
    | cons x X =>
      simp only [entries_branch, cons_append, cons.injEq] at h
      obtain ⟨rfl, h⟩ := h
      rcases append_eq_append_iff.1 h with ⟨X', rfl, hr⟩ | ⟨Y', hcs, hY⟩
      · -- the entry belongs to one of the following trees
        exact (ihr hnr hr).beside hr beside (_ :: cs.entries (k + 1))
      · -- the entry is below the head of the first tree, if anything of the children is left
        cases Y' with
        | nil =>
          have hr : r.entries k = [] ++ e :: Y := hY.symm
          have hpla := (ihr hnr hr).beside hr beside (⟨k, i, .inl b⟩ :: X)
          rwa [List.append_nil] at hpla
        | cons e' Y' =>
          obtain ⟨rfl, rfl⟩ := hY
          exact (ihc hnc hcs).below hcs rfl (by simp) below
  | leaf i c r ih =>
    rw [ids_leaf, nodup_cons] at hn
    have beside : ∀ x ∈ r.ids, (leaf i c r).path? x = r.path? x := by
      intro x hx
      have hix : i ≠ x := fun hi => hn.1 (hi ▸ hx)
      simp [path?_leaf, hix]
    cases X with
    | nil =>
      obtain ⟨rfl, -⟩ := h
      exact .inl ⟨rfl, by simp [path?_leaf]⟩
    | cons x X =>
      simp only [entries_leaf, cons_append, cons.injEq] at h
      obtain ⟨rfl, hr⟩ := h
      exact (ih hn.2 hr).beside hr beside [_]

/-- The nodes above one that is below `x`: those above `x`, then `x`, then those below `x`. -/
theorem path?_of_find?_children (hn : f.ids.Nodup) (hx : f.find? x = some n) :
    ∃ p, f.path? x = some p ∧ ∀ y q, n.children.path? y = some q → f.path? y = some (p ++ x :: q) := by
  induction f with
  | nil => simp [find?] at hx
  | branch i b cs r ihc ihr =>
    obtain ⟨⟨hic, hir⟩, hnc, hnr, hdisj⟩ := nodup_branch.1 hn
    rw [find?_branch] at hx
    by_cases hi : i = x
    · rw [if_pos hi] at hx
      cases hx
      refine ⟨[], by simp [hi], fun y q hy => ?_⟩
      have hiy : i ≠ y := fun h => hic (h ▸ mem_of_path? hy)
      subst hi
      rw [path?_branch, if_neg hiy, hy]
      rfl
    · rw [if_neg hi] at hx
      rcases Option.or_eq_some_iff.1 hx with hx | ⟨hxc, hx⟩
      · obtain ⟨p, hp, hbel⟩ := ihc hnc hx
        refine ⟨i :: p, by simp [hi, hp], fun y q hy => ?_⟩
        have hiy : i ≠ y := fun h => hic (h ▸ children_subset hx (mem_of_path? hy))
        rw [path?_branch, if_neg hiy, hbel y q hy]
        rfl
      · obtain ⟨p, hp, hbel⟩ := ihr hnr hx
        refine ⟨p, by simp [hi, hp, path?_eq_none.2 (find?_eq_none.1 hxc)],
          fun y q hy => ?_⟩
        have hyr := children_subset hx (mem_of_path? hy)
        have hiy : i ≠ y := fun h => hir (h ▸ hyr)
        rw [path?_branch, if_neg hiy, path?_eq_none.2 fun h => hdisj h hyr, hbel y q hy]
        rfl
  | leaf i c r ih =>
    rw [ids_leaf, nodup_cons] at hn
    rw [find?_leaf] at hx
    by_cases hi : i = x
    · rw [if_pos hi] at hx
      cases hx
      exact ⟨[], by simp [path?_leaf, hi], fun y q hy => by simp [path?] at hy⟩
    · rw [if_neg hi] at hx
      obtain ⟨p, hp, hbel⟩ := ih hn.2 hx
      refine ⟨p, by simp [path?_leaf, hi, hp], fun y q hy => ?_⟩
      have hiy : i ≠ y := fun h => hn.1 (h ▸ children_subset hx (mem_of_path? hy))
      rw [path?_leaf, if_neg hiy, hbel y q hy]

/-- A node above another one is found with the rest of the way below it. -/
theorem find?_of_path? {a : ℕ} {p q : List ℕ} (hn : f.ids.Nodup)
    (h : f.path? x = some (p ++ a :: q)) :
    ∃ n, f.find? a = some n ∧ n.children.path? x = some q := by
  induction f generalizing p with
  | nil => simp [path?] at h
  | branch i b cs r ihc ihr =>
    obtain ⟨⟨hic, hir⟩, hnc, hnr, hdisj⟩ := nodup_branch.1 hn
    rw [path?_branch] at h
    split_ifs at h
    · simp at h
    · rcases Option.or_eq_some_iff.1 h with h | ⟨-, h⟩
      · obtain ⟨q', hq', hp⟩ := Option.map_eq_some_iff.1 h
        cases p with
        | nil =>
          obtain ⟨rfl, rfl⟩ : i = a ∧ q' = q := by simpa using hp
          exact ⟨⟨i, .inl b, cs⟩, by simp [find?_branch], hq'⟩
        | cons a' p =>
          obtain ⟨-, rfl⟩ : i = a' ∧ q' = p ++ a :: q := by simpa using hp
          obtain ⟨n, hfind, hx⟩ := ihc hnc hq'
          have hia : i ≠ a := fun hia => hic (hia ▸ mem_of_find? hfind)
          exact ⟨n, by rw [find?_branch, if_neg hia, hfind, Option.some_or], hx⟩
      · obtain ⟨n, hfind, hx⟩ := ihr hnr h
        have har := mem_of_find? hfind
        have hia : i ≠ a := fun hia => hir (hia ▸ har)
        have hac : cs.find? a = none := find?_eq_none.2 fun hac => hdisj hac har
        exact ⟨n, by rw [find?_branch, if_neg hia, hac, Option.none_or, hfind], hx⟩
  | leaf i c r ih =>
    rw [ids_leaf, nodup_cons] at hn
    rw [path?_leaf] at h
    split_ifs at h
    · simp at h
    · obtain ⟨n, hfind, hx⟩ := ih hn.2 h
      have hia : i ≠ a := fun hia => hn.1 (hia ▸ mem_of_find? hfind)
      exact ⟨n, by rw [find?_leaf, if_neg hia, hfind], hx⟩

/-- The nodes above one that is above another. -/
theorem path?_of_path?_append {a : ℕ} {p q : List ℕ} (hn : f.ids.Nodup)
    (h : f.path? x = some (p ++ a :: q)) : f.path? a = some p := by
  obtain ⟨n, hfind, hx⟩ := find?_of_path? hn h
  obtain ⟨p', hp', hbel⟩ := path?_of_find?_children hn hfind
  have hpp : p ++ a :: q = p' ++ a :: q := Option.some.inj (h.symm.trans (hbel x q hx))
  rw [hp', append_cancel_right hpp]

theorem path?_of_path?_concat {a : ℕ} {p : List ℕ} (hn : f.ids.Nodup)
    (h : f.path? x = some (p ++ [a])) : f.path? a = some p :=
  path?_of_path?_append hn h

/-- The parent of an entry is an inner node. -/
theorem label_of_path?_of_entries {X2 : List (Entry β γ)} {a : Entry β γ} (hn : f.ids.Nodup)
    (h : f.entries k = X ++ a :: (X2 ++ e :: Y)) (hl : a.level + 1 = e.level)
    (hX2 : ∀ d ∈ X2, e.level ≤ d.level) : ∃ b, a.label = .inl b := by
  obtain ⟨n, hfind, hlab⟩ := find?_label_of_entries hn h
  cases hb : a.label with
  | inl b => exact ⟨b, rfl⟩
  | inr c =>
    have hnil := children_eq_nil_of_leaf hfind (hlab.trans hb)
    have hcl := (children_eq_nil_iff_closes hn h hfind).1 hnil
    cases X2 with
    | nil =>
      have : e.level ≤ a.level := hcl e (by simp)
      omega
    | cons d X2 =>
      have : d.level ≤ a.level := hcl d (by simp)
      have := hX2 d (by simp)
      omega

/-- While the levels rise up to an entry, the listing goes through its ancestors. -/
theorem path?_of_isChain {R : List (Entry β γ)} {c : Entry β γ} (hn : f.ids.Nodup)
    (h : f.entries k = A ++ (R ++ c :: C)) (hR : (R ++ [c]).IsChain fun a b => a.level < b.level) :
    ∃ p, f.path? c.id = some p ∧ ∀ e ∈ R, e.id ∈ p := by
  induction R using reverseRecOn generalizing c C with
  | nil =>
    have hmem : c.id ∈ f.ids := mem_ids_of_mem_entries k f (by rw [h]; simp)
    cases hp : f.path? c.id with
    | none => exact absurd hmem (path?_eq_none.1 hp)
    | some p => exact ⟨p, rfl, by simp⟩
  | append_singleton R e ih =>
    rw [List.append_assoc] at hR h
    have hec : e.level < c.level := by
      have := hR.right_of_append
      simpa using this
    have he : (R ++ [e]).IsChain fun a b => a.level < b.level := by
      have : (R ++ [e] ++ [c]).IsChain fun a b => a.level < b.level := by simpa using hR
      exact this.left_of_append
    obtain ⟨p, hp, hmem⟩ := ih h he
    -- the parent of `c` cannot be in front of `e`, since `e` is less deep than `c`
    have hc : f.entries k = (A ++ (R ++ [e])) ++ c :: C := by rw [h]; simp
    rcases path?_of_entries hn hc with ⟨hk, -⟩ | ⟨X1, a, X2, q, hX, -, hX2, hqa, hqc⟩
    · have := le_level_of_mem k f (e := e) (by rw [h]; simp)
      omega
    · have hlast : (X1 ++ a :: X2).getLast? = some e := by rw [← hX]; simp
      obtain ⟨rfl, rfl⟩ : a = e ∧ X2 = [] := by
        cases X2 with
        | nil => simpa using hlast
        | cons x X2 =>
          rw [getLast?_append_cons] at hlast
          have := hX2 e (mem_of_getLast? hlast)
          omega
      obtain rfl : p = q := Option.some.inj (hp.symm.trans hqa)
      refine ⟨p ++ [a.id], hqc, fun d hd => ?_⟩
      rcases mem_append.1 hd with hd | hd
      · exact mem_append_left _ (hmem d hd)
      · simp [mem_singleton.1 hd]

/-- The level of an entry of the listing. -/
theorem level_of_entries (hn : f.ids.Nodup) (h : f.entries k = X ++ e :: Y) :
    k + f.level e.id = e.level := by
  -- by strong induction on the number of entries in front: the parent is one of them
  induction hX : X.length using Nat.strong_induction_on generalizing X Y e with
  | _ m ih =>
    rcases path?_of_entries hn h with ⟨hk, hp⟩ | ⟨X1, a, X2, p, rfl, hl, -, hpa, hpe⟩
    · simp [level, hp, hk]
    · have hlt : X1.length < m := by rw [← hX]; simp
      have ha := ih _ hlt (X := X1) (e := a) (Y := X2 ++ e :: Y) (by rw [h]; simp) rfl
      simp only [level, hpa, hpe, Option.getD_some, length_append, length_singleton] at ha ⊢
      omega

/-! ### Walking in document order -/

/-- The node after `x` in document order within the tree `x` belongs to. -/
def next? (x : ℕ) (f : Forest β γ) : Option ℕ :=
  ((((f.entries 0).dropWhile (fun e => decide (e.id ≠ x))).tail.head?).filter
    (fun e => decide (0 < e.level))).map Entry.id

theorem next?_of_entries (hn : f.ids.Nodup) (h : f.entries 0 = X ++ e :: Y) :
    f.next? e.id = (Y.head?.filter (fun e => decide (0 < e.level))).map Entry.id := by
  rw [← map_id_entries 0 f, h] at hn
  have hX : ∀ d ∈ X, d.id ≠ e.id := by
    intro d hd he
    simp only [map_append, nodup_append] at hn
    exact hn.2.2 d.id (mem_map_of_mem hd) e.id (by simp) he
  unfold next?
  rw [h, dropWhile_append_of_pos (by simpa using hX), dropWhile_cons_of_neg (by simp),
    tail_cons]

end Forest

end OrderedTree
