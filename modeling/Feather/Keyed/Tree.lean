import Mathlib.Tactic

/-!
# Nested dictionaries

A `Tree` is the list of the entries of a dictionary, each under a key: a value or a *node*, a
dictionary of its own with a label.  Of a key that occurs twice in one level the first entry counts.
-/

namespace Keyed

open Option

/-- The entries of a dictionary, in order. -/
inductive Tree (κ ν l : Type)
  | nil
  | value (key : κ) (v : ν) (rest : Tree κ ν l)
  | node (key : κ) (label : l) (entries rest : Tree κ ν l)
  deriving DecidableEq

/-- What stands under one key. -/
inductive Entry (κ ν l : Type)
  | value (v : ν)
  | node (label : l) (entries : Tree κ ν l)
  deriving DecidableEq

def Entry.relabel {κ ν l : Type} (f : l → l) : Entry κ ν l → Entry κ ν l
  | .value v => .value v
  | .node label entries => .node (f label) entries

namespace Tree

variable {κ ν l : Type}
variable {k k' : κ} {label : l} {ks qs : List κ}

/-- The entry `e` under `k`, before `rest`. -/
def cons (k : κ) : Entry κ ν l → Tree κ ν l → Tree κ ν l
  | .value v, rest => value k v rest
  | .node label entries, rest => node k label entries rest

variable [DecidableEq κ]

/-- The entry of a key. -/
def get? (k : κ) : Tree κ ν l → Option (Entry κ ν l)
  | nil => none
  | value k' v rest => if k' = k then some (.value v) else rest.get? k
  | node k' label entries rest =>
    if k' = k then some (.node label entries) else rest.get? k

/-- Puts `e` in the place of the entry under `k`, or at the end if there is none. -/
def put (k : κ) (e : Entry κ ν l) : Tree κ ν l → Tree κ ν l
  | nil => cons k e nil
  | value k' v rest => if k' = k then cons k e rest else value k' v (rest.put k e)
  | node k' label entries rest =>
    if k' = k then cons k e rest else node k' label entries (rest.put k e)

/-- The entries of other keys. -/
def erase (k : κ) : Tree κ ν l → Tree κ ν l
  | nil => nil
  | value k' v rest => if k' = k then rest.erase k else value k' v (rest.erase k)
  | node k' label entries rest =>
    if k' = k then rest.erase k else node k' label entries (rest.erase k)

/-- `put` for an entry, `erase` for none. -/
def assign (k : κ) : Option (Entry κ ν l) → Tree κ ν l → Tree κ ν l
  | some e, t => t.put k e
  | none, t => t.erase k

/-- Changes the node under `k`; a value, or a missing entry, stays. -/
def modify (k : κ) (f : l → Tree κ ν l → l × Tree κ ν l) (t : Tree κ ν l) : Tree κ ν l :=
  match t.get? k with
  | some (.node label entries) => t.put k (.node (f label entries).1 (f label entries).2)
  | _ => t

/-! ### One level -/

theorem get?_cons (k k' : κ) (e : Entry κ ν l) (t : Tree κ ν l) :
    (cons k e t).get? k' = if k = k' then some e else t.get? k' := by
  cases e <;> rfl

theorem put_cons (k k' : κ) (e e' : Entry κ ν l) (t : Tree κ ν l) :
    (cons k' e' t).put k e = if k' = k then cons k e t else cons k' e' (t.put k e) := by
  cases e' <;> rfl

theorem erase_cons (k k' : κ) (e : Entry κ ν l) (t : Tree κ ν l) :
    (cons k' e t).erase k = if k' = k then t.erase k else cons k' e (t.erase k) := by
  cases e <;> rfl

omit [DecidableEq κ] in
/-- Induction over the entries of one level, whatever they are. -/
theorem level_induction {motive : Tree κ ν l → Prop} (nil : motive nil)
    (cons : ∀ k e rest, motive rest → motive (cons k e rest)) (t : Tree κ ν l) : motive t := by
  induction t with
  | nil => exact nil
  | value k v rest ih => exact cons k (.value v) rest ih
  | node k label entries rest _ ih => exact cons k (.node label entries) rest ih

attribute [local simp] get?_cons

theorem get?_put (k k' : κ) (e : Entry κ ν l) (t : Tree κ ν l) :
    (t.put k e).get? k' = if k' = k then some e else t.get? k' := by
  induction t using level_induction with
  | nil => simp [put, eq_comm]
  | cons k0 e0 rest ih =>
    rw [put_cons]
    by_cases h0 : k0 = k
    · subst h0
      by_cases h : k0 = k'
      · simp [h]
      · simp [h, Ne.symm h]
    · by_cases h : k0 = k'
      · subst h
        simp [h0]
      · simp [h0, h, ih]

theorem get?_erase (k k' : κ) (t : Tree κ ν l) :
    (t.erase k).get? k' = if k' = k then none else t.get? k' := by
  induction t using level_induction with
  | nil => simp [erase, get?]
  | cons k0 e0 rest ih =>
    rw [erase_cons]
    by_cases h0 : k0 = k
    · subst h0
      by_cases h : k0 = k'
      · subst h
        simpa using ih
      · simp [ih, h]
    · by_cases h : k0 = k'
      · subst h
        simp [h0]
      · simp [h0, h, ih]

theorem get?_assign (k k' : κ) (e : Option (Entry κ ν l)) (t : Tree κ ν l) :
    (t.assign k e).get? k' = if k' = k then e else t.get? k' := by
  cases e with
  | none => exact get?_erase k k' t
  | some e => exact get?_put k k' e t

variable {t : Tree κ ν l}

/-- Putting back what is there changes nothing. -/
theorem put_of_get? {e : Entry κ ν l} (h : t.get? k = some e) : t.put k e = t := by
  induction t using level_induction with
  | nil => simp [get?] at h
  | cons k0 e0 rest ih =>
    rw [get?_cons] at h
    rw [put_cons]
    by_cases h0 : k0 = k
    · rw [if_pos h0, some.injEq] at h
      rw [if_pos h0, h0, h]
    · rw [if_neg h0] at h
      rw [if_neg h0, ih h]

theorem modify_of_get? {entries : Tree κ ν l} (h : t.get? k = some (.node label entries))
    (f : l → Tree κ ν l → l × Tree κ ν l) :
    t.modify k f = t.put k (.node (f label entries).1 (f label entries).2) := by
  simp [modify, h]

/-! ### Paths -/

/-- The node at a path of keys. -/
def nodeAt : List κ → Tree κ ν l → Option (l × Tree κ ν l)
  | [], _ => none
  | [k], t =>
    match t.get? k with
    | some (.node label entries) => some (label, entries)
    | _ => none
  | k :: k' :: ks, t =>
    match t.get? k with
    | some (.node _ entries) => nodeAt (k' :: ks) entries
    | _ => none

def labelAt (ks : List κ) (t : Tree κ ν l) : Option l :=
  (t.nodeAt ks).map Prod.fst

/-- The value at a path of keys. -/
def valueAt : List κ → Tree κ ν l → Option ν
  | [], _ => none
  | [k], t =>
    match t.get? k with
    | some (.value v) => some v
    | _ => none
  | k :: k' :: ks, t =>
    match t.get? k with
    | some (.node _ entries) => valueAt (k' :: ks) entries
    | _ => none

/-- Changes the node at a path of keys. -/
def modifyAt : List κ → (l → Tree κ ν l → l × Tree κ ν l) → Tree κ ν l → Tree κ ν l
  | [], _, t => t
  | [k], f, t => t.modify k f
  | k :: k' :: ks, f, t => t.modify k fun label entries => (label, modifyAt (k' :: ks) f entries)

@[simp] theorem valueAt_nil (t : Tree κ ν l) : t.valueAt [] = none := rfl

/-- The value at a path below an entry. -/
def entryValueAt (ks : List κ) : Entry κ ν l → Option ν
  | .value v => if ks.isEmpty then some v else none
  | .node _ entries => entries.valueAt ks

attribute [local simp] valueAt

theorem valueAt_cons (k : κ) (ks : List κ) (t : Tree κ ν l) :
    t.valueAt (k :: ks) = (t.get? k).bind (entryValueAt ks) := by
  cases ks with
  | nil =>
    cases h : t.get? k with
    | none => simp [h]
    | some e => cases e <;> simp [h, entryValueAt]
  | cons k' ks =>
    cases h : t.get? k with
    | none => simp [h]
    | some e => cases e <;> simp [h, entryValueAt]

/-- What is at a path depends on the entry under its first key. -/
theorem valueAt_congr {t' : Tree κ ν l} (h : t.get? k = t'.get? k) (ks : List κ) :
    t.valueAt (k :: ks) = t'.valueAt (k :: ks) := by
  rw [valueAt_cons, valueAt_cons, h]

attribute [local simp] nodeAt

theorem nodeAt_congr {t' : Tree κ ν l} (h : t.get? k = t'.get? k) (ks : List κ) :
    t.nodeAt (k :: ks) = t'.nodeAt (k :: ks) := by
  cases ks <;> simp [h]

theorem valueAt_of_node {entries : Tree κ ν l} (h : t.get? k = some (.node label entries))
    (ks : List κ) : t.valueAt (k :: ks) = entries.valueAt ks := by
  rw [valueAt_cons, h]
  rfl

theorem nodeAt_cons_of_node {entries : Tree κ ν l} (h : t.get? k = some (.node label entries))
    (hks : ks ≠ []) : t.nodeAt (k :: ks) = entries.nodeAt ks := by
  cases ks with
  | nil => exact absurd rfl hks
  | cons k' ks => simp [h]

/-- A path to a node starts with the key of a node. -/
theorem exists_get?_of_nodeAt {x : l × Tree κ ν l} (h : t.nodeAt (k :: ks) = some x) :
    ∃ label entries, t.get? k = some (.node label entries) := by
  cases hk : t.get? k with
  | none => cases ks <;> simp [hk] at h
  | some e =>
    cases e with
    | value v => cases ks <;> simp [hk] at h
    | node label entries => exact ⟨label, entries, rfl⟩

theorem nodeAt_singleton {entries : Tree κ ν l} :
    t.nodeAt [k] = some (label, entries) ↔ t.get? k = some (.node label entries) := by
  constructor
  · intro h
    obtain ⟨label', entries', hk⟩ := exists_get?_of_nodeAt h
    simp only [nodeAt, hk, some.injEq, Prod.mk.injEq] at h
    rw [hk, h.1, h.2]
  · intro h
    simp [h]

/-- The value at a path that goes through a node. -/
theorem valueAt_append {entries : Tree κ ν l} (h : t.nodeAt ks = some (label, entries))
    (qs : List κ) : t.valueAt (ks ++ qs) = entries.valueAt qs := by
  induction ks generalizing t with
  | nil => simp at h
  | cons k ks ih =>
    obtain ⟨label', entries', hk⟩ := exists_get?_of_nodeAt h
    rw [List.cons_append, valueAt_of_node hk]
    by_cases hks : ks = []
    · subst hks
      rw [nodeAt_singleton, hk] at h
      obtain ⟨-, rfl⟩ := Entry.node.inj (some.inj h)
      rfl
    · rw [nodeAt_cons_of_node hk hks] at h
      exact ih h

/-- The node at a path that goes through a node. -/
theorem nodeAt_append {entries : Tree κ ν l} (h : t.nodeAt ks = some (label, entries))
    (hqs : qs ≠ []) : t.nodeAt (ks ++ qs) = entries.nodeAt qs := by
  induction ks generalizing t with
  | nil => simp at h
  | cons k ks ih =>
    obtain ⟨label', entries', hk⟩ := exists_get?_of_nodeAt h
    by_cases hks : ks = []
    · subst hks
      rw [nodeAt_singleton, hk] at h
      obtain ⟨-, rfl⟩ := Entry.node.inj (some.inj h)
      exact nodeAt_cons_of_node hk hqs
    · rw [nodeAt_cons_of_node hk hks] at h
      rw [List.cons_append, nodeAt_cons_of_node hk (by simp [hks]), ih h]

/-- A change of one node is seen by the paths that start with its key only. -/
theorem get?_modify_of_ne (h : k' ≠ k) (f : l → Tree κ ν l → l × Tree κ ν l) (t : Tree κ ν l) :
    (t.modify k f).get? k' = t.get? k' := by
  unfold modify
  split
  · rw [get?_put, if_neg h]
  · rfl

theorem modifyAt_eq_put {entries : Tree κ ν l} (hk : t.get? k = some (.node label entries))
    (hks : ks ≠ []) (f : l → Tree κ ν l → l × Tree κ ν l) :
    t.modifyAt (k :: ks) f = t.put k (.node label (entries.modifyAt ks f)) := by
  cases ks with
  | nil => exact absurd rfl hks
  | cons k' ks => exact modify_of_get? hk _

theorem get?_modifyAt_of_ne (h : k' ≠ k) (ks : List κ) (f : l → Tree κ ν l → l × Tree κ ν l)
    (t : Tree κ ν l) : (t.modifyAt (k :: ks) f).get? k' = t.get? k' := by
  cases ks with
  | nil => exact get?_modify_of_ne h f t
  | cons k2 ks => exact get?_modify_of_ne h _ t

/-- A value below the changed node is read there, and any other is the one before. -/
theorem valueAt_modifyAt {entries : Tree κ ν l} (h : t.nodeAt ks = some (label, entries))
    (f : l → Tree κ ν l → l × Tree κ ν l) (qs : List κ) :
    (t.modifyAt ks f).valueAt qs =
      if ks <+: qs then (f label entries).2.valueAt (qs.drop ks.length) else t.valueAt qs := by
  -- the path is followed key by key, down to the node it ends in
  induction ks generalizing t qs with
  | nil => simp at h
  | cons k ks ih =>
    obtain ⟨label', entries', hk⟩ := exists_get?_of_nodeAt h
    cases qs with
    | nil => simp
    | cons q qs =>
      by_cases hq : q = k
      · subst hq
        simp only [List.cons_prefix_cons, true_and, List.length_cons, List.drop_succ_cons]
        by_cases hks : ks = []
        · subst hks
          rw [nodeAt_singleton, hk] at h
          obtain ⟨rfl, rfl⟩ := Entry.node.inj (some.inj h)
          have hput : (t.modifyAt [q] f).get? q =
              some (.node (f label' entries').1 (f label' entries').2) := by
            simp [modifyAt, modify_of_get? hk, get?_put]
          rw [valueAt_of_node hput]
          simp
        · rw [nodeAt_cons_of_node hk hks] at h
          have hput : (t.modifyAt (q :: ks) f).get? q =
              some (.node label' (entries'.modifyAt ks f)) := by
            rw [modifyAt_eq_put hk hks, get?_put, if_pos rfl]
          rw [valueAt_of_node hput, ih h, valueAt_of_node hk]
      · rw [if_neg (by simp [Ne.symm hq])]
        exact valueAt_congr (get?_modifyAt_of_ne hq ks f t) qs

/-- The node at the path of the change is the changed one. -/
theorem nodeAt_modifyAt_self {entries : Tree κ ν l} (h : t.nodeAt ks = some (label, entries))
    (f : l → Tree κ ν l → l × Tree κ ν l) :
    (t.modifyAt ks f).nodeAt ks = some (f label entries) := by
  induction ks generalizing t with
  | nil => simp at h
  | cons k ks ih =>
    obtain ⟨label', entries', hk⟩ := exists_get?_of_nodeAt h
    by_cases hks : ks = []
    · subst hks
      rw [nodeAt_singleton, hk] at h
      obtain ⟨rfl, rfl⟩ := Entry.node.inj (some.inj h)
      rw [nodeAt_singleton]
      simp [modifyAt, modify_of_get? hk, get?_put]
    · rw [nodeAt_cons_of_node hk hks] at h
      have hput : (t.modifyAt (k :: ks) f).get? k =
          some (.node label' (entries'.modifyAt ks f)) := by
        rw [modifyAt_eq_put hk hks, get?_put, if_pos rfl]
      rw [nodeAt_cons_of_node hput hks, ih h]

/-- The nodes below the changed one are read in it. -/
theorem nodeAt_modifyAt_append {entries : Tree κ ν l} (h : t.nodeAt ks = some (label, entries))
    (f : l → Tree κ ν l → l × Tree κ ν l) (hqs : qs ≠ []) :
    (t.modifyAt ks f).nodeAt (ks ++ qs) = (f label entries).2.nodeAt qs :=
  nodeAt_append (nodeAt_modifyAt_self h f) hqs

/-- The labels of the nodes that are not at or below the path stay. -/
theorem labelAt_modifyAt_of_not_prefix {entries : Tree κ ν l}
    (h : t.nodeAt ks = some (label, entries)) (f : l → Tree κ ν l → l × Tree κ ν l)
    (hqs : ¬ ks <+: qs) : (t.modifyAt ks f).labelAt qs = t.labelAt qs := by
  induction ks generalizing t qs with
  | nil => simp at hqs
  | cons k ks ih =>
    obtain ⟨label', entries', hk⟩ := exists_get?_of_nodeAt h
    cases qs with
    | nil => rfl
    | cons q qs =>
      by_cases hq : q = k
      · subst hq
        have hne : ks ≠ [] := by
          rintro rfl
          exact hqs (by simp)
        rw [nodeAt_cons_of_node hk hne] at h
        have hput : (t.modifyAt (q :: ks) f).get? q =
            some (.node label' (entries'.modifyAt ks f)) := by
          rw [modifyAt_eq_put hk hne, get?_put, if_pos rfl]
        by_cases hqnil : qs = []
        · subst hqnil
          simp [labelAt, hput, hk]
        · rw [labelAt, nodeAt_cons_of_node hput hqnil, labelAt, nodeAt_cons_of_node hk hqnil]
          refine ih h fun hpre => hqs ?_
          exact List.cons_prefix_cons.2 ⟨rfl, hpre⟩
      · rw [labelAt, labelAt, nodeAt_congr (get?_modifyAt_of_ne hq ks f t)]

/-- Assigning a value to a key that holds no node changes one path. -/
theorem valueAt_assign_value (h : ∀ label entries, t.get? k ≠ some (.node label entries))
    (v : Option ν) (qs : List κ) :
    (t.assign k (v.map .value)).valueAt qs = if qs = [k] then v else t.valueAt qs := by
  cases qs with
  | nil => simp
  | cons q qs =>
    by_cases hq : q = k
    · subst hq
      cases qs with
      | nil => cases v <;> simp [get?_assign]
      | cons q' qs =>
        -- below the key there was nothing and there is nothing
        cases hk : t.get? q with
        | none => cases v <;> simp [get?_assign]
        | some e =>
          cases e with
          | value u => cases v <;> simp [get?_assign]
          | node label entries => exact absurd hk (h label entries)
    · rw [if_neg (by simp [hq])]
      exact valueAt_congr (by rw [get?_assign, if_neg hq]) qs

/-- Assigning to some keys one after another. -/
theorem get?_foldl_assign (e : κ → Option (Entry κ ν l)) (ks : List κ) (t : Tree κ ν l) (k : κ) :
    (ks.foldl (fun t k => t.assign k (e k)) t).get? k = if k ∈ ks then e k else t.get? k := by
  induction ks generalizing t with
  | nil => simp
  | cons k0 ks ih =>
    rw [List.foldl_cons, ih, get?_assign]
    by_cases hk : k ∈ ks
    · simp [hk]
    · by_cases h0 : k = k0
      · simp [h0]
      · simp [h0]

/-- Changing a label changes no other one. -/
theorem labelAt_modifyAt_of_ne {entries : Tree κ ν l} (h : t.nodeAt ks = some (label, entries))
    (f : l → l) (hqs : qs ≠ ks) :
    (t.modifyAt ks fun label entries => (f label, entries)).labelAt qs = t.labelAt qs := by
  by_cases hpre : ks <+: qs
  · obtain ⟨rs, rfl⟩ := hpre
    have hrs : rs ≠ [] := by
      rintro rfl
      simp at hqs
    rw [labelAt, nodeAt_modifyAt_append h _ hrs, labelAt, nodeAt_append h hrs]
  · exact labelAt_modifyAt_of_not_prefix h _ hpre

/-- The number of entries of the first level. -/
def length : Tree κ ν l → ℕ
  | nil => 0
  | value _ _ rest => rest.length + 1
  | node _ _ _ rest => rest.length + 1

omit [DecidableEq κ] in
@[simp] theorem length_cons (k : κ) (e : Entry κ ν l) (rest : Tree κ ν l) :
    (cons k e rest).length = rest.length + 1 := by
  cases e <;> rfl

omit [DecidableEq κ] in
theorem cons_inj {e e' : Entry κ ν l} {rest rest' : Tree κ ν l} :
    cons k e rest = cons k' e' rest' ↔ k = k' ∧ e = e' ∧ rest = rest' := by
  cases e <;> cases e' <;> simp [cons, and_assoc]

/-! ### All labels -/

/-- Every label of the tree satisfies `p`. -/
def All (p : l → Prop) : Tree κ ν l → Prop
  | nil => True
  | value _ _ rest => rest.All p
  | node _ label entries rest => p label ∧ entries.All p ∧ rest.All p

/-- Every label below the first level satisfies `p`. -/
def AllBelow (p : l → Prop) : Tree κ ν l → Prop
  | nil => True
  | value _ _ rest => rest.AllBelow p
  | node _ _ entries rest => entries.All p ∧ rest.AllBelow p

instance decidableAll (p : l → Prop) [DecidablePred p] : (t : Tree κ ν l) → Decidable (t.All p)
  | nil => isTrue trivial
  | value _ _ rest => decidableAll p rest
  | node _ _ entries rest =>
    @instDecidableAnd _ _ _ (@instDecidableAnd _ _ (decidableAll p entries) (decidableAll p rest))

instance decidableAllBelow (p : l → Prop) [DecidablePred p] :
    (t : Tree κ ν l) → Decidable (t.AllBelow p)
  | nil => isTrue trivial
  | value _ _ rest => decidableAllBelow p rest
  | node _ _ entries rest =>
    @instDecidableAnd _ _ (decidableAll p entries) (decidableAllBelow p rest)

/-- Changes the labels of the first level. -/
def mapLabels (f : l → l) : Tree κ ν l → Tree κ ν l
  | nil => nil
  | value k v rest => value k v (rest.mapLabels f)
  | node k label entries rest => node k (f label) entries (rest.mapLabels f)

theorem get?_mapLabels (f : l → l) (t : Tree κ ν l) (k : κ) :
    (t.mapLabels f).get? k = (t.get? k).map (Entry.relabel f) := by
  induction t with
  | nil => rfl
  | value k0 v rest ih =>
    by_cases h : k0 = k
    · simp [mapLabels, get?, h, Entry.relabel]
    · simp [mapLabels, get?, h, ih]
  | node k0 label entries rest _ ih =>
    by_cases h : k0 = k
    · simp [mapLabels, get?, h, Entry.relabel]
    · simp [mapLabels, get?, h, ih]

theorem valueAt_mapLabels (f : l → l) (t : Tree κ ν l) (qs : List κ) :
    (t.mapLabels f).valueAt qs = t.valueAt qs := by
  cases qs with
  | nil => rfl
  | cons q qs =>
    rw [valueAt_cons, valueAt_cons, get?_mapLabels]
    cases t.get? q with
    | none => rfl
    | some e => cases e <;> rfl

omit [DecidableEq κ] in
theorem all_mapLabels {p : l → Prop} {f : l → l} (hf : ∀ label, p (f label)) (t : Tree κ ν l) :
    (t.mapLabels f).All p ↔ t.AllBelow p := by
  induction t with
  | nil => rfl
  | value k v rest ih => exact ih
  | node k label entries rest _ ih =>
    simp only [mapLabels, All, AllBelow, ih, hf, true_and]

end Tree

end Keyed
