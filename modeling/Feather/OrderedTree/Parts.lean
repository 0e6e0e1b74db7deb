import Feather.OrderedTree.Edit

/-!
# Cutting a forest at a leaf

`headPart x c f` is what lies in front of the leaf `x`, and `tailPart x c f` what lies behind it,
both with the nodes above `x`, and with a leaf of content `c` for `x`, if any.

`LeafCut` describes the two parts in the listing, and every node keeps the nodes above it
(`path?_headPart`, `path?_tailPart`).
-/

namespace OrderedTree

open List Option

variable {β γ : Type}
variable {f : Forest β γ} {c : Option γ} {e : Entry β γ}

/-- The entry of a leaf, if there is one. -/
def leafEntry (l x : ℕ) (c : Option γ) : List (Entry β γ) := (c.map fun c => ⟨l, x, .inr c⟩).toList

namespace Forest

/-- A leaf, if there is a content for it, followed by `r`. -/
def optLeaf (x : ℕ) (c : Option γ) (r : Forest β γ) : Forest β γ :=
  match c with
  | none => r
  | some c => leaf x c r

/-- The forest in front of the leaf `x`. -/
def headPart (x : ℕ) (c : Option γ) : Forest β γ → Forest β γ
  | nil => nil
  | branch i b cs r =>
    if x ∈ cs.ids then branch i b (headPart x c cs) nil else branch i b cs (headPart x c r)
  | leaf i d r => if i = x then optLeaf x c nil else leaf i d (headPart x c r)

/-- The forest behind the leaf `x`. -/
def tailPart (x : ℕ) (c : Option γ) : Forest β γ → Forest β γ
  | nil => nil
  | branch i b cs r => if x ∈ cs.ids then branch i b (tailPart x c cs) r else tailPart x c r
  | leaf i _ r => if i = x then optLeaf x c r else tailPart x c r

variable {x k : ℕ}

@[simp] theorem entries_optLeaf (c : Option γ) (r : Forest β γ) :
    (optLeaf x c r).entries k = leafEntry k x c ++ r.entries k := by
  cases c <;> rfl

/-- A forest cut at the leaf `x` of content `d`: `front` and `behind` are the two sides in the
listing, and `above` the nodes above the leaf, with which the tail part begins. -/
structure LeafCut (f : Forest β γ) (k x : ℕ) (d : γ) where
  level : ℕ
  front : List (Entry β γ)
  above : List (Entry β γ)
  behind : List (Entry β γ)
  entries_eq : f.entries k = front ++ ⟨level, x, .inr d⟩ :: behind
  entries_head : ∀ c, (headPart x c f).entries k = front ++ leafEntry level x c
  entries_tail : ∀ c, (tailPart x c f).entries k = above ++ (leafEntry level x c ++ behind)
  above_sublist : above.Sublist front
  path?_eq : f.path? x = some (above.map Entry.id)
  map_level_above : above.map Entry.level = range' k above.length
  level_eq : level = k + above.length
  label_above : ∀ a ∈ above, ∃ b, a.label = .inl b

theorem nonempty_leafCut {n : Node β γ} {d : γ} (k : ℕ) (h : f.find? x = some n)
    (hd : n.label = .inr d) : Nonempty (LeafCut f k x d) := by
  induction f generalizing k with
  | nil => simp [find?] at h
  | branch i b cs r ihc ihr =>
    rw [find?_branch] at h
    have hix : i ≠ x := by
      rintro rfl
      rw [if_pos rfl] at h
      cases h
      cases hd
    rw [if_neg hix] at h
    rcases or_eq_some_iff.1 h with h | ⟨hc, h⟩
    · -- the leaf is below the first tree's head
      have hx := mem_of_find? h
      obtain ⟨q⟩ := ihc (k + 1) h
      refine ⟨⟨q.level, ⟨k, i, .inl b⟩ :: q.front, ⟨k, i, .inl b⟩ :: q.above,
        q.behind ++ r.entries k, by simp [q.entries_eq], fun c => ?_, fun c => ?_,
        q.above_sublist.cons_cons _, ?_, ?_, ?_, ?_⟩⟩
      · simp [headPart, hx, q.entries_head]
      · simp [tailPart, hx, q.entries_tail]
      · simp [path?_branch, hix, q.path?_eq]
      · simp [q.map_level_above, range'_succ]
      · rw [q.level_eq, length_cons]
        omega
      · intro a ha
        rcases mem_cons.1 ha with rfl | ha
        · exact ⟨b, rfl⟩
        · exact q.label_above a ha
    · have hx := find?_eq_none.1 hc
      obtain ⟨q⟩ := ihr k h
      refine ⟨⟨q.level, ⟨k, i, .inl b⟩ :: (cs.entries (k + 1) ++ q.front), q.above, q.behind,
        by simp [q.entries_eq], fun c => ?_, fun c => ?_, ?_, ?_, q.map_level_above, q.level_eq,
        q.label_above⟩⟩
      · simp [headPart, hx, q.entries_head]
      · simp [tailPart, hx, q.entries_tail]
      · exact (q.above_sublist.trans (sublist_append_right _ _)).cons _
      · simp [path?_branch, hix, path?_eq_none.2 hx, q.path?_eq]
  | leaf i e r ih =>
    rw [find?_leaf] at h
    by_cases hi : i = x
    · rw [if_pos hi] at h
      cases h
      subst hi
      obtain rfl : e = d := Sum.inr.inj hd
      exact ⟨⟨k, [], [], r.entries k, rfl, by simp [headPart], by simp [tailPart],
        List.Sublist.refl _, by simp [path?_leaf], rfl, rfl, by simp⟩⟩
    · rw [if_neg hi] at h
      obtain ⟨q⟩ := ih k h
      refine ⟨⟨q.level, ⟨k, i, .inr e⟩ :: q.front, q.above, q.behind, by simp [q.entries_eq],
        fun c => ?_, fun c => ?_, q.above_sublist.cons _, ?_, q.map_level_above, q.level_eq,
        q.label_above⟩⟩
      · simp [headPart, hi, q.entries_head]
      · simp [tailPart, hi, q.entries_tail]
      · simp [path?_leaf, hi, q.path?_eq]

namespace LeafCut

variable {f : Forest β γ} {d : γ}

theorem ids_eq (q : LeafCut f k x d) : f.ids = q.front.map Entry.id ++ x :: q.behind.map Entry.id := by
  rw [← map_id_entries k, q.entries_eq, map_append, map_cons]

/-- The entries on both sides are entries of other nodes. -/
theorem mem_entries (q : LeafCut f k x d) (hn : f.ids.Nodup) (he : e ∈ q.front ∨ e ∈ q.behind) :
    e.id ≠ x ∧ e ∈ f.entries k := by
  rw [q.ids_eq, nodup_append, nodup_cons] at hn
  rw [q.entries_eq]
  rcases he with he | he
  · exact ⟨hn.2.2 _ (mem_map_of_mem he) x (by simp), by simp [he]⟩
  · exact ⟨fun hid => hn.2.1.1 (mem_map.2 ⟨e, he, hid⟩), by simp [he]⟩

/-- An entry of the head part is in front of the leaf, or the leaf's with its new content. -/
theorem mem_head (q : LeafCut f k x d) (he : e ∈ (headPart x c f).entries k) :
    e ∈ q.front ∨ ∃ d', c = some d' ∧ e = ⟨q.level, x, .inr d'⟩ := by
  rw [q.entries_head, mem_append] at he
  refine he.imp_right fun he => ?_
  cases c with
  | none => cases he
  | some d' => exact ⟨d', rfl, mem_singleton.1 he⟩

theorem mem_tail (q : LeafCut f k x d) (he : e ∈ (tailPart x c f).entries k) :
    e ∈ q.above ∨ e ∈ q.behind ∨ ∃ d', c = some d' ∧ e = ⟨q.level, x, .inr d'⟩ := by
  rw [q.entries_tail, mem_append, mem_append] at he
  rcases he with he | he | he
  · exact .inl he
  · cases c with
    | none => cases he
    | some d' => exact .inr (.inr ⟨d', rfl, mem_singleton.1 he⟩)
  · exact .inr (.inl he)

end LeafCut

/-! ### Nodes keep the nodes above them -/

theorem ids_headPart_sublist (x : ℕ) (c : Option γ) (f : Forest β γ) :
    (headPart x c f).ids.Sublist f.ids := by
  induction f with
  | nil => exact List.Sublist.refl _
  | branch i b cs r ihc ihr =>
    rw [headPart]
    split_ifs
    · simpa using ihc.trans (sublist_append_left cs.ids r.ids)
    · simpa using ihr
  | leaf i d r ih =>
    rw [headPart]
    split_ifs with hi
    · cases c <;> simp [optLeaf, hi]
    · simpa using ih

theorem ids_tailPart_sublist (x : ℕ) (c : Option γ) (f : Forest β γ) :
    (tailPart x c f).ids.Sublist f.ids := by
  induction f with
  | nil => exact List.Sublist.refl _
  | branch i b cs r ihc ihr =>
    rw [tailPart]
    split_ifs
    · simpa using ihc
    · exact (ihr.trans (sublist_append_right cs.ids r.ids)).cons i
  | leaf i d r ih =>
    rw [tailPart]
    split_ifs with hi
    · cases c <;> simp [optLeaf, hi]
    · exact ih.cons i

theorem path?_headPart {y : ℕ} (hy : y ∈ (headPart x c f).ids) :
    (headPart x c f).path? y = f.path? y := by
  induction f with
  | nil => simp [headPart] at hy
  | branch i b cs r ihc ihr =>
    rw [headPart] at hy ⊢
    split_ifs at hy ⊢
    · rw [path?_branch, path?_branch]
      by_cases hiy : i = y
      · rw [if_pos hiy, if_pos hiy]
      · have hyc : y ∈ (headPart x c cs).ids := by simpa [Ne.symm hiy] using hy
        obtain ⟨q, hq⟩ := ne_none_iff_exists'.1
          (mt path?_eq_none.1 (not_not.2 ((ids_headPart_sublist x c cs).subset hyc)))
        rw [if_neg hiy, if_neg hiy, ihc hyc, hq]
        rfl
    · rw [path?_branch, path?_branch]
      by_cases hiy : i = y
      · rw [if_pos hiy, if_pos hiy]
      · rw [if_neg hiy, if_neg hiy]
        by_cases hyc : y ∈ cs.ids
        · obtain ⟨q, hq⟩ := ne_none_iff_exists'.1 (mt path?_eq_none.1 (not_not.2 hyc))
          rw [hq]
          rfl
        · rw [ihr (by simpa [Ne.symm hiy, hyc] using hy)]
  | leaf i d r ih =>
    rw [headPart] at hy ⊢
    split_ifs at hy ⊢ with hi
    · subst hi
      cases c with
      | none => simp [optLeaf] at hy
      | some c =>
        obtain rfl : y = i := by simpa [optLeaf] using hy
        simp [optLeaf, path?_leaf]
    · rw [path?_leaf, path?_leaf]
      by_cases hiy : i = y
      · rw [if_pos hiy, if_pos hiy]
      · rw [if_neg hiy, if_neg hiy, ih (by simpa [Ne.symm hiy] using hy)]

theorem path?_tailPart {y : ℕ} (hn : f.ids.Nodup) (hy : y ∈ (tailPart x c f).ids) :
    (tailPart x c f).path? y = f.path? y := by
  induction f with
  | nil => simp [tailPart] at hy
  | branch i b cs r ihc ihr =>
    obtain ⟨⟨hic, hir⟩, hnc, hnr, hdisj⟩ := nodup_branch.1 hn
    rw [tailPart] at hy ⊢
    split_ifs at hy ⊢
    · rw [path?_branch, path?_branch]
      by_cases hiy : i = y
      · rw [if_pos hiy, if_pos hiy]
      · rw [if_neg hiy, if_neg hiy]
        by_cases hyc : y ∈ (tailPart x c cs).ids
        · rw [ihc hnc hyc]
        · have hyr : y ∈ r.ids := by simpa [Ne.symm hiy, hyc] using hy
          rw [path?_eq_none.2 hyc, path?_eq_none.2 fun h => hdisj h hyr]
    · have hyr := (ids_tailPart_sublist x c r).subset hy
      have hiy : i ≠ y := fun h => hir (h ▸ hyr)
      rw [path?_branch, if_neg hiy, path?_eq_none.2 fun h => hdisj h hyr, ihr hnr hy]
      rfl
  | leaf i d r ih =>
    rw [ids_leaf, nodup_cons] at hn
    rw [tailPart] at hy ⊢
    split_ifs at hy ⊢ with hi
    · subst hi
      cases c with
      | none =>
        have hiy : i ≠ y := fun h => hn.1 (h ▸ hy)
        rw [optLeaf, path?_leaf, if_neg hiy]
      | some c => rfl
    · have hiy : i ≠ y := fun h => hn.1 (h ▸ (ids_tailPart_sublist x c r).subset hy)
      rw [path?_leaf, if_neg hiy, ih hn.2 hy]

end Forest

end OrderedTree
