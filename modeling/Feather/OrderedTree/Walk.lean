import Feather.OrderedTree.Forest

/-!
# Walking a forest in document order

Programs walk with a stack of trees still to visit, or by asking each node for the next one.
-/

namespace OrderedTree

variable {α σ τ β γ : Type}

/-- Visit a list from left to right until a visit answers `false`. -/
def scan (visit : α → σ → σ × Bool) : List α → σ → σ
  | [], s => s
  | a :: l, s =>
    match visit a s with
    | (s', true) => scan visit l s'
    | (s', false) => s'

theorem scan_cons_true {visit : α → σ → σ × Bool} {a : α} {s s' : σ} (h : visit a s = (s', true))
    (l : List α) : scan visit (a :: l) s = scan visit l s' := by
  rw [scan, h]

theorem scan_map (visit : τ → σ → σ × Bool) (f : α → τ) (l : List α) (s : σ) :
    scan visit (l.map f) s = scan (fun a => visit (f a)) l s := by
  induction l generalizing s with
  | nil => rfl
  | cons a l ih =>
    rw [List.map_cons, scan, scan]
    rcases visit (f a) s with ⟨s', _ | _⟩
    · rfl
    · exact ih s'

/-- A scan that collects. -/
theorem scan_collect (f : α → Option τ) (l : List α) (s : List τ) :
    scan (fun a s => (s ++ (f a).toList, true)) l s = s ++ l.filterMap f := by
  induction l generalizing s with
  | nil => simp [scan]
  | cons a l ih =>
    simp only [scan]
    rw [ih]
    cases h : f a with
    | none => simp [h]
    | some t => simp [h]

namespace Forest

/-- A visit that looks at identities and labels only sees the same in `nodes` and `entries`. -/
theorem scan_nodes (visit : ℕ × (β ⊕ γ) → σ → σ × Bool) (k : ℕ) (f : Forest β γ) (s : σ) :
    scan (fun n : Node β γ => visit (n.id, n.label)) f.nodes s =
      scan (fun e : Entry β γ => visit (e.id, e.label)) (f.entries k) s := by
  have h := congrArg (fun l => scan visit l s) (map_nodes_eq_map_entries k f)
  simpa only [scan_map] using h

theorem scan_nodes_dropWhile (visit : ℕ × (β ⊕ γ) → σ → σ × Bool) (k x : ℕ) (f : Forest β γ)
    (s : σ) :
    scan (fun n : Node β γ => visit (n.id, n.label))
        (f.nodes.dropWhile fun n => decide (n.id ≠ x)) s =
      scan (fun e : Entry β γ => visit (e.id, e.label))
        ((f.entries k).dropWhile fun e => decide (e.id ≠ x)) s := by
  have h := congrArg (fun l => scan visit (l.dropWhile fun p => decide (p.1 ≠ x)) s)
    (map_nodes_eq_map_entries k f)
  simp only [List.dropWhile_map, scan_map] at h
  exact h

/-- The first node of a forest, and the trees behind its tree. -/
def pop? : Forest β γ → Option (Node β γ × Forest β γ)
  | nil => none
  | branch i b cs r => some (⟨i, .inl b, cs⟩, r)
  | leaf i c r => some (⟨i, .inr c, nil⟩, r)

theorem nodes_of_pop? {f r : Forest β γ} {n : Node β γ} (h : f.pop? = some (n, r)) :
    f.nodes = n :: (n.children ++ r).nodes := by
  cases f with
  | nil => simp [pop?] at h
  | branch i b cs r' =>
    obtain ⟨rfl, rfl⟩ := h
    simp
  | leaf i c r' =>
    obtain ⟨rfl, rfl⟩ := h
    simp

theorem eq_nil_of_pop? {f : Forest β γ} (h : f.pop? = none) : f = nil := by
  cases f <;> simp_all [pop?]

/-- The node at which a walk through one tree stands when `L` is still ahead of it. -/
def cursor (L : List (Entry β γ)) : Option ℕ :=
  (L.head?.filter fun e => decide (0 < e.level)).map Entry.id

@[simp] theorem cursor_nil : cursor ([] : List (Entry β γ)) = none := rfl

theorem cursor_cons {e : Entry β γ} (h : 0 < e.level) (L : List (Entry β γ)) :
    cursor (e :: L) = some e.id := by
  simp [cursor, h]

/-- The next tree is out of reach. -/
theorem cursor_of_level_eq_zero {e : Entry β γ} (h : e.level = 0) (L : List (Entry β γ)) :
    cursor (e :: L) = none := by
  simp [cursor, h]

/-- The walk does not see beyond the next entry. -/
theorem cursor_append_cons (L M : List (Entry β γ)) (e : Entry β γ) :
    cursor (L ++ e :: M) = cursor (L ++ [e]) := by
  cases L <;> rfl

theorem cursor_of_closes {l : ℕ} {B : List (Entry β γ)} (hB : Closes l B) :
    cursor B = none ∨ ∃ e C, B = e :: C ∧ cursor B = some e.id ∧ e.level ≤ l := by
  cases B with
  | nil => exact .inl rfl
  | cons e C =>
    rcases Nat.eq_zero_or_pos e.level with h | h
    · exact .inl (cursor_of_level_eq_zero h C)
    · exact .inr ⟨e, C, rfl, cursor_cons h C, hB e (by simp)⟩

theorem next?_eq_cursor {f : Forest β γ} {X Y : List (Entry β γ)} {e : Entry β γ}
    (hn : f.ids.Nodup) (h : f.entries 0 = X ++ e :: Y) : f.next? e.id = cursor Y :=
  next?_of_entries hn h

end Forest

end OrderedTree
