import Feather.OrderedTree.Parts
import Feather.XML.TextContent

/-!
# Normalized forests

Coalescing adjacent text nodes keeps the text (`text_normalized`), the elements and where they stand
(`find?_normalized`, `exists_entries_normalized`), and commutes with forgetting identities
(`anonymous_normalized`).

Cutting a normal forest at a text node leaves normal forests, once an empty piece is left out.
-/

namespace Feather.XML

open OrderedTree Forest Program Option
open List hiding append_nil find? nil_append

variable {f : Nodes} {x : NodeID} {t : Tag}

theorem text_normalized (f : Nodes) : text (normalized f) = text f := by
  fun_induction normalized f with
  | case1 => rfl
  | case2 i t cs r ihc ihr => simp [text, ihc, ihr]
  | case3 i r ih => simp [text, ih, ownText]
  | case4 i c s r j s' r' hr ih =>
    rw [hr] at ih
    simp [text, ← ih, ownText]
  | case5 i c s r hr ih => simp [text, ih]
  | case6 i k s r ih => simp [text, ih]

theorem mem_labels_normalized {b : Label} (h : b ∈ (normalized f).labels) :
    b ∈ f.labels ∨ kind b = .text := by
  fun_induction normalized f with
  | case1 => simp at h
  | case2 i t cs r ihc ihr =>
    simp only [labels_branch, mem_cons, mem_append] at h ⊢
    rcases h with h | h | h
    · exact .inl (.inl h)
    · exact (ihc h).imp_left fun h => .inr (.inl h)
    · exact (ihr h).imp_left fun h => .inr (.inr h)
  | case3 i r ih => exact (ih h).imp_left fun h => by simp [h]
  | case4 i c s r j s' r' hr ih =>
    rw [hr] at ih
    simp only [labels_leaf, mem_cons] at h ih ⊢
    rcases h with rfl | h
    · exact .inr rfl
    · exact (ih (.inr h)).imp_left .inr
  | case5 i c s r hr ih =>
    simp only [labels_leaf, mem_cons] at h ⊢
    rcases h with h | h
    · exact .inl (.inl h)
    · exact (ih h).imp_left .inr
  | case6 i k s r ih =>
    simp only [labels_leaf, mem_cons] at h ⊢
    rcases h with h | h
    · exact .inl (.inl h)
    · exact (ih h).imp_left .inr

theorem hasImplicitSpace_of_kind {b : Label} (h : kind b = .text) : hasImplicitSpace b = false := by
  rcases b with t | s | ⟨k, s⟩
  · cases h
  · rfl
  · cases h

theorem explicitSpace_normalized (h : ExplicitSpace f) : ExplicitSpace (normalized f) :=
  fun b hb => (mem_labels_normalized hb).elim (h b) hasImplicitSpace_of_kind

theorem elementsAndText_normalized (h : ElementsAndText f) : ElementsAndText (normalized f) :=
  fun b hb => (mem_labels_normalized hb).elim (h b) .inr

/-- An element stays, with its children normalized. -/
theorem find?_normalized {cs : Nodes} (h : f.find? x = some ⟨x, .inl t, cs⟩) :
    (normalized f).find? x = some ⟨x, .inl t, normalized cs⟩ := by
  fun_induction normalized f with
  | case1 => simp [find?] at h
  | case2 i u ds r ihd ihr =>
    rw [find?_branch] at h ⊢
    split_ifs at h ⊢ with hi
    · cases h
      rfl
    · rcases or_eq_some_iff.1 h with h | ⟨hd, h⟩
      · rw [ihd h, some_or]
      · have : x ∉ (normalized ds).ids := fun hx =>
          find?_eq_none.1 hd ((ids_normalized ds).subset hx)
        rw [find?_eq_none.2 this, none_or, ihr h]
  | case3 i r ih =>
    rw [find?_leaf] at h
    split_ifs at h with hi
    · cases h
    · exact ih h
  | case4 i c s r j s' r' hr ih =>
    rw [find?_leaf] at h ⊢
    split_ifs at h ⊢ with hi
    · cases h
    · have := ih h
      rw [hr, find?_leaf] at this
      split_ifs at this
      · cases this
      · exact this
  | case5 i c s r hr ih =>
    rw [find?_leaf] at h ⊢
    split_ifs at h ⊢ with hi
    · cases h
    · exact ih h
  | case6 i k s r ih =>
    rw [find?_leaf] at h ⊢
    split_ifs at h ⊢ with hi
    · cases h
    · exact ih h

/-- An element stays where it is in the text. -/
theorem exists_entries_normalized {k l : ℕ} {X Y : Listing}
    (h : f.entries k = X ++ ⟨l, x, .inl t⟩ :: Y) :
    ∃ X' Y', (normalized f).entries k = X' ++ ⟨l, x, .inl t⟩ :: Y' ∧
      listingText X' = listingText X := by
  fun_induction normalized f generalizing k X Y with
  | case1 => simp at h
  | case2 i u cs r ihc ihr =>
    cases X with
    | nil =>
      simp only [entries_branch, List.nil_append, cons.injEq] at h
      exact ⟨[], _, by rw [entries_branch, h.1]; rfl, rfl⟩
    | cons d X =>
      simp only [entries_branch, cons_append, cons.injEq] at h
      obtain ⟨rfl, h⟩ := h
      rcases append_eq_append_iff.1 h with ⟨X', rfl, hr⟩ | ⟨Y', hc, hY⟩
      · obtain ⟨Z, Y', he, hZ⟩ := ihr hr
        refine ⟨⟨k, i, .inl u⟩ :: ((normalized cs).entries (k + 1) ++ Z), Y', by simp [he], ?_⟩
        simp [hZ, text_normalized]
      · cases Y' with
        | nil =>
          rw [List.append_nil] at hc
          obtain ⟨Z, Y', he, hZ⟩ := ihr (X := []) hY.symm
          refine ⟨⟨k, i, .inl u⟩ :: ((normalized cs).entries (k + 1) ++ Z), Y', by simp [he], ?_⟩
          simp [hZ, text_normalized, ← hc]
        | cons e Y' =>
          rw [cons_append, cons.injEq] at hY
          obtain ⟨Z, Y'', he, hZ⟩ := ihc (by rw [hc, ← hY.1])
          exact ⟨⟨k, i, .inl u⟩ :: Z, Y'' ++ (normalized r).entries k, by simp [he], by simp [hZ]⟩
  | case3 i r ih =>
    cases X with
    | nil => simp at h
    | cons d X =>
      simp only [entries_leaf, cons_append, cons.injEq] at h
      obtain ⟨Z, Y', he, hZ⟩ := ih h.2
      exact ⟨Z, Y', he, by simp [hZ, ← h.1, ownText]⟩
  | case4 i c s r j s' r' hr ih =>
    cases X with
    | nil => simp at h
    | cons d X =>
      simp only [entries_leaf, cons_append, cons.injEq] at h
      obtain ⟨Z, Y', he, hZ⟩ := ih h.2
      rw [hr] at he
      -- the text node that is merged into this one comes before the element
      cases Z with
      | nil => simp at he
      | cons z Z =>
        simp only [entries_leaf, cons_append, cons.injEq] at he
        refine ⟨⟨k, i, .inr (.text (c :: s ++ s'))⟩ :: Z, Y', by simp [he.2], ?_⟩
        simp [← hZ, ← h.1, ← he.1, ownText]
  | case5 i c s r hr ih =>
    cases X with
    | nil => simp at h
    | cons d X =>
      simp only [entries_leaf, cons_append, cons.injEq] at h
      obtain ⟨Z, Y', he, hZ⟩ := ih h.2
      exact ⟨d :: Z, Y', by simp [he, h.1], by simp [hZ]⟩
  | case6 i kd s r ih =>
    cases X with
    | nil => simp at h
    | cons d X =>
      simp only [entries_leaf, cons_append, cons.injEq] at h
      obtain ⟨Z, Y', he, hZ⟩ := ih h.2
      exact ⟨d :: Z, Y', by simp [he, h.1], by simp [hZ]⟩

theorem anonymous_normalized (f : Nodes) : (normalized f).anonymous = normalized f.anonymous := by
  fun_induction normalized f with
  | case1 => rfl
  | case2 i t cs r ihc ihr => simp [anonymous, normalized, ihc, ihr]
  | case3 i r ih => simp [anonymous, normalized, ih]
  | case4 i c s r j s' r' hr ih =>
    rw [hr] at ih
    simp [anonymous, normalized, ← ih]
  | case5 i c s r hr ih =>
    rw [anonymous, anonymous, normalized, ← ih]
    -- forgetting identities does not make the rest begin with a text node
    cases h : normalized r with
    | nil => rfl
    | branch j t cs r' => rfl
    | leaf j d r' =>
      cases d with
      | text s' => exact absurd h (hr j s' r')
      | other kd s' => rfl
  | case6 i k s r ih => simp [anonymous, normalized, ih]

theorem anonymous_normalized_congr {g : Nodes} (h : f.anonymous = g.anonymous) :
    (normalized f).anonymous = (normalized g).anonymous := by
  rw [anonymous_normalized, anonymous_normalized, h]

/-! ### Normal forests -/

/-- Does a forest begin with a text node? -/
def startsWithText : Nodes → Bool
  | .leaf _ (.text _) _ => true
  | _ => false

/-- No text node is empty, and none follows another one directly. -/
def Normal : Nodes → Prop
  | .nil => True
  | .branch _ _ cs r => Normal cs ∧ Normal r
  | .leaf _ (.text s) r => s ≠ [] ∧ startsWithText r = false ∧ Normal r
  | .leaf _ (.other _ _) r => Normal r

theorem normal_normalized (f : Nodes) : Normal (normalized f) := by
  fun_induction normalized f with
  | case1 => trivial
  | case2 i t cs r ihc ihr => exact ⟨ihc, ihr⟩
  | case3 i r ih => exact ih
  | case4 i c s r j s' r' hr ih =>
    rw [hr] at ih
    exact ⟨by simp, ih.2⟩
  | case5 i c s r hr ih =>
    refine ⟨by simp, ?_, ih⟩
    unfold startsWithText
    split
    · next h => exact absurd h (hr _ _ _)
    · rfl
  | case6 i k s r ih => exact ih

theorem normalized_leaf_text {s : NSString} {r : Nodes} (hs : s ≠ [])
    (hr : startsWithText (normalized r) = false) (i : NodeID) :
    normalized (.leaf i (.text s) r) = .leaf i (.text s) (normalized r) := by
  obtain ⟨c, s, rfl⟩ := exists_cons_of_ne_nil hs
  rw [normalized]
  split
  · next h => rw [h] at hr; cases hr
  · rfl

theorem normalized_of_normal (h : Normal f) : normalized f = f := by
  induction f with
  | nil => rfl
  | branch i t cs r ihc ihr => rw [normalized, ihc h.1, ihr h.2]
  | leaf i c r ih =>
    cases c with
    | text s =>
      obtain ⟨hs, hr, hn⟩ := h
      rw [normalized_leaf_text hs (by rw [ih hn, hr]), ih hn]
    | other k s => rw [normalized, ih h]

/-- A normal forest without text has no text nodes. -/
theorem hasText_iff_of_normal (h : Normal f) : HasText f ↔ text f ≠ [] := by
  induction f with
  | nil => simp [HasText, text]
  | branch i t cs r ihc ihr =>
    have hc := ihc h.1
    have hr := ihr h.2
    simp only [HasText, text, labels_branch, mem_cons, mem_append, kind,
      ne_eq, append_eq_nil_iff] at hc hr ⊢
    constructor
    · rintro ⟨b, rfl | hb | hb, hk⟩ ⟨h1, h2⟩
      · cases hk
      · exact hc.1 ⟨b, hb, hk⟩ h1
      · exact hr.1 ⟨b, hb, hk⟩ h2
    · intro hne
      by_cases hcs : text cs = []
      · obtain ⟨b, hb, hk⟩ := hr.2 fun h => hne ⟨hcs, h⟩
        exact ⟨b, .inr (.inr hb), hk⟩
      · obtain ⟨b, hb, hk⟩ := hc.2 hcs
        exact ⟨b, .inr (.inl hb), hk⟩
  | leaf i c r ih =>
    cases c with
    | text s => simp [HasText, text, kind, ownText, h.1]
    | other k s =>
      have := ih h
      simpa [HasText, text, kind, ownText] using this

/-- The text nodes of a normal forest are not empty. -/
theorem ne_nil_of_normal {n : Node Tag Content} {s : NSString} (hf : Normal f)
    (h : f.find? x = some n) (hn : n.label = .inr (.text s)) : s ≠ [] := by
  induction f with
  | nil => simp [find?] at h
  | branch i t cs r ihc ihr =>
    rw [find?_branch] at h
    split_ifs at h with hi
    · cases h
      cases hn
    · rcases or_eq_some_iff.1 h with h | ⟨-, h⟩
      · exact ihc hf.1 h
      · exact ihr hf.2 h
  | leaf i c r ih =>
    rw [find?_leaf] at h
    split_ifs at h with hi
    · cases h
      obtain rfl : c = .text s := Sum.inr.inj hn
      exact hf.1
    · cases c with
      | text s' => exact ih hf.2.2 h
      | other k s' => exact ih hf h

/-! ### Normalizing the children of an element -/

namespace World

variable {w : World} {self x : NodeID}

theorem node?_normalizeAdjacentTextNodes {cs : Nodes} (h : w.node? self = some ⟨self, .inl t, cs⟩) :
    (w.normalizeAdjacentTextNodes self).node? self = some ⟨self, .inl t, normalized cs⟩ := by
  obtain ⟨l, A, B, he, hB, -⟩ := w.exists_entries h
  obtain ⟨n, hn, hlab, hcs⟩ := find?_of_entries (w.normalizeAdjacentTextNodes self).nodup
    (entries_modifyChildren w.nodup he hB normalized)
    lt_level_of_mem_entries_succ hB
  refine hn.trans (congrArg some ?_)
  exact Node.ext (find?_id hn) hlab (entries_injective _ hcs)

/-- The elements of a subtree that is normalized stay, with the same text in front of them. -/
theorem normalizeAdjacentTextNodes_below (hself : w.kind? self = some .element)
    (hx : x = self ∨ x ∈ (w.children self).ids) (hk : w.kind? x = some .element) :
    (x = self ∨ x ∈ ((w.normalizeAdjacentTextNodes self).children self).ids) ∧
      (w.normalizeAdjacentTextNodes self).kind? x = some .element ∧
      (w.normalizeAdjacentTextNodes self).children x = normalized (w.children x) ∧
      (w.normalizeAdjacentTextNodes self).textLengthBefore self x = w.textLengthBefore self x := by
  obtain ⟨t, cs, hs⟩ := exists_element hself
  have hs' := node?_normalizeAdjacentTextNodes hs
  have hcs := children_of_node? hs
  have hcs' := children_of_node? hs'
  by_cases hxs : x = self
  · subst hxs
    refine ⟨.inl rfl, by simp [kind?, hs', kind], by rw [hcs', hcs], ?_⟩
    simp [textLengthBefore]
  · obtain ⟨m, hm⟩ := exists_find?_of_mem (hcs ▸ hx.resolve_left hxs)
    obtain ⟨u, ds, hn⟩ := exists_element hk
    obtain rfl : m = ⟨x, .inl u, ds⟩ :=
      some.inj ((find?_of_find?_children w.nodup hs hm).symm.trans hn)
    have hm' := find?_normalized hm
    have hn' := find?_of_find?_children (w.normalizeAdjacentTextNodes self).nodup hs' hm'
    refine ⟨.inr (hcs' ▸ mem_of_find? hm'), by simp [kind?, node?, hn', kind],
      by rw [children_of_node? hn', children_of_node? hn], ?_⟩
    obtain ⟨l, X, B, he, -, -⟩ := entries_of_find? 0 hm
    obtain ⟨X', Y', he', htext⟩ := exists_entries_normalized he
    have h := textBefore_of_entries (children_nodup w.nodup hs).1 he
    have h' := textBefore_of_entries (children_nodup (normalizeAdjacentTextNodes w self).nodup
      hs').1 he'
    rw [textLengthBefore, textLengthBefore, if_neg hxs, if_neg hxs, hcs, hcs']
    exact congrArg length (h'.trans (htext.trans h.symm))

end World

/-! ### Cutting a normal forest -/

/-- The content of a piece of a text node; an empty one is left out. -/
def pieceContent (piece : NSString) : Option Content :=
  if piece = [] then none else some (.text piece)

theorem normalized_optLeaf {r : Nodes} (hr : Normal r) (hs : startsWithText r = false) (x : NodeID)
    (piece : NSString) :
    normalized (optLeaf x (some (.text piece)) r) =
      optLeaf x (pieceContent piece) r := by
  have hr' := normalized_of_normal hr
  unfold pieceContent
  split_ifs with hp
  · subst hp
    exact hr'
  · have := normalized_leaf_text hp (by rw [hr', hs]) x
    rwa [hr'] at this

section Cut

variable {x : NodeID} {s : NSString} {n : Node Tag Content}

theorem startsWithText_headPart (hf : startsWithText f = false) (h : f.find? x = some n)
    (hn : n.label = .inr (.text s)) (c : Option Content) :
    startsWithText (headPart x c f) = false := by
  cases f with
  | nil => rfl
  | branch i t cs r =>
    rw [headPart]
    split_ifs <;> rfl
  | leaf i d r =>
    cases d with
    | text s' => cases hf
    | other k s' =>
      rw [headPart]
      split_ifs with hi
      · rw [find?_leaf, if_pos hi] at h
        cases h
        cases hn
      · rfl

theorem normalized_headPart (hf : Normal f) (h : f.find? x = some n) (hn : n.label = .inr (.text s))
    (piece : NSString) :
    normalized (headPart x (some (.text piece)) f) =
      headPart x (pieceContent piece) f := by
  induction f with
  | nil => rfl
  | branch i t cs r ihc ihr =>
    have hix : i ≠ x := by
      rintro rfl
      rw [find?_branch, if_pos rfl] at h
      cases h
      cases hn
    rw [find?_branch, if_neg hix] at h
    rw [headPart, headPart]
    rcases or_eq_some_iff.1 h with h | ⟨hc, h⟩
    · rw [if_pos (mem_of_find? h), if_pos (mem_of_find? h), normalized, ihc hf.1 h]
      rfl
    · rw [if_neg (find?_eq_none.1 hc), if_neg (find?_eq_none.1 hc), normalized,
        normalized_of_normal hf.1, ihr hf.2 h]
  | leaf i d r ih =>
    rw [headPart, headPart]
    by_cases hi : i = x
    · rw [if_pos hi, if_pos hi]
      exact normalized_optLeaf (r := .nil) trivial rfl x piece
    · rw [if_neg hi, if_neg hi]
      rw [find?_leaf, if_neg hi] at h
      cases d with
      | text s' =>
        obtain ⟨hs', hr, hnr⟩ := hf
        rw [normalized_leaf_text hs', ih hnr h]
        rw [ih hnr h]
        exact startsWithText_headPart hr h hn _
      | other k s' => rw [normalized, ih hf h]

theorem normalized_tailPart (hf : Normal f) (h : f.find? x = some n) (hn : n.label = .inr (.text s))
    (piece : NSString) :
    normalized (tailPart x (some (.text piece)) f) =
      tailPart x (pieceContent piece) f := by
  induction f with
  | nil => rfl
  | branch i t cs r ihc ihr =>
    have hix : i ≠ x := by
      rintro rfl
      rw [find?_branch, if_pos rfl] at h
      cases h
      cases hn
    rw [find?_branch, if_neg hix] at h
    rw [tailPart, tailPart]
    rcases or_eq_some_iff.1 h with h | ⟨hc, h⟩
    · rw [if_pos (mem_of_find? h), if_pos (mem_of_find? h), normalized, ihc hf.1 h,
        normalized_of_normal hf.2]
    · rw [if_neg (find?_eq_none.1 hc), if_neg (find?_eq_none.1 hc), ihr hf.2 h]
  | leaf i d r ih =>
    rw [tailPart, tailPart]
    by_cases hi : i = x
    · rw [find?_leaf, if_pos hi] at h
      cases h
      obtain rfl : d = .text s := Sum.inr.inj hn
      rw [if_pos hi, if_pos hi]
      exact normalized_optLeaf hf.2.2 hf.2.1 x piece
    · rw [if_neg hi, if_neg hi]
      rw [find?_leaf, if_neg hi] at h
      cases d with
      | text s' => exact ih hf.2.2 h
      | other k s' => exact ih hf h

end Cut

end Feather.XML
