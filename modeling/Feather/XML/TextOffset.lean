import Feather.XML.TextContent

/-!
# Offsets into the text content

`textNodeAtOffset` looks for the text node an offset falls into;
`textContentOffsetForInnerXMLElement` translates an offset within an inner element to one within the
receiver.
-/

namespace Feather.XML

open OrderedTree Forest Program List Option World

variable {e : Entry Tag Content} {L : Listing} {n : ℕ} {f : Nodes} {w : World} {self : NodeID}

/-! ### Offsets

A value of `MPTextContentOffset` is an `NSInteger`. -/

/-- `MPTextContentOffsetNotFound` -/
def mpTextContentOffsetNotFound : ℤ := -1

/-- `MPTextContentOffsetBeginning` -/
def mpTextContentOffsetBeginning : ℤ := 0

/-- `MPTextContentOffsetEnd` -/
def mpTextContentOffsetEnd : ℤ := nsIntegerMax

/-! ### Looking for text nodes -/

/-- `-firstContainedTextNode` -/
def firstContainedTextNode (cocoa : Cocoa) (self : NodeID) : Action (Option NodeID) := do
  enforceExplicitPreservedSpace cocoa self
  let w ← get
  match w.node? self with
  | none => pure none
  | some n =>
    pure <| visitAllNodesInSubtree n
      (fun node t => if kind node.label = .text then (some node.id, false) else (t, true)) none

/-- `-lastContainedTextNode` -/
def lastContainedTextNode (cocoa : Cocoa) (self : NodeID) : Action (Option NodeID) := do
  enforceExplicitPreservedSpace cocoa self
  let w ← get
  match w.node? self with
  | none => pure none
  | some n =>
    pure <| visitAllNodesInSubtree n
      (fun node t => if kind node.label = .text then (some node.id, true) else (t, true)) none

/-- The visitor of `textNodeAtOffset:offsetWithinTextNode:`, with its three variables. -/
def textNodeAtOffsetVisitor (offset : ℤ) (node : Node Tag Content) :
    Option NodeID × ℤ × ℤ →
      (Option NodeID × ℤ × ℤ) × Bool
  | (t, innerOffset, accumulatedOffset) =>
    match node.label with
    | .inr (.text s) =>
      let nodeEndOffset := accumulatedOffset + s.length
      if offset ≤ nodeEndOffset then
        ((some node.id, offset - accumulatedOffset, accumulatedOffset), false)
      else ((t, innerOffset, nodeEndOffset), true)
    | _ => ((t, innerOffset, accumulatedOffset), true)

/-- `-textNodeAtOffset:offsetWithinTextNode:`, with the value of `*innerOffset` before and after. -/
def textNodeAtOffset (cocoa : Cocoa) (self : NodeID) (offset innerOffset : ℤ) :
    Action (Option NodeID × ℤ) := do
  enforceExplicitPreservedSpace cocoa self
  if offset = mpTextContentOffsetBeginning then do
    let node ← firstContainedTextNode cocoa self
    pure (node, mpTextContentOffsetBeginning)
  else if offset = mpTextContentOffsetEnd then do
    let node ← lastContainedTextNode cocoa self
    pure (node, mpTextContentOffsetEnd)
  else do
    let w ← get
    match w.node? self with
    | none => pure (none, innerOffset)
    | some n =>
      let (t, innerOffset, _) :=
        visitAllNodesInSubtree n (textNodeAtOffsetVisitor offset) (none, innerOffset, 0)
      pure (t, innerOffset)

/-- The visitor of `textContentOffsetForInnerXMLElement:textContentOffset:`, with the unsigned
`MIN`. -/
def innerOffsetVisitor (innerElement : NodeID) (outerOffset : ℤ)
    (node : Node Tag Content) (accumulatedOffset : ℤ) :
    ℤ × Bool :=
  if node.id = innerElement then
    let l := (stringValue node).length
    if outerOffset = mpTextContentOffsetEnd then (accumulatedOffset + l, false)
    else (accumulatedOffset + (min l (asUnsigned (accumulatedOffset - outerOffset)) : ℕ), false)
  else if kind node.label = .text then (accumulatedOffset + (stringValue node).length, true)
  else (accumulatedOffset, true)

/-- `-textContentOffsetForInnerXMLElement:textContentOffset:` -/
def textContentOffsetForInnerXMLElement (cocoa : Cocoa) (self innerElement : NodeID)
    (outerOffset : ℤ) : Action ℤ := do
  enforceExplicitPreservedSpace cocoa self
  if innerElement = self then pure outerOffset
  else do
    let w ← get
    match w.node? self with
    | none => pure 0
    | some n => pure <| visitAllNodesInSubtree n (innerOffsetVisitor innerElement outerOffset) 0

/-! ### Where an offset is found -/

/-- A text node. -/
def isText (e : Entry Tag Content) : Bool := decide (kind e.label = .text)

attribute [local simp] isText

theorem isText_iff : isText e = true ↔ ∃ s, e.label = .inr (.text s) := by
  rcases e with ⟨l, i, t | s | ⟨k, s⟩⟩ <;> simp [kind]

theorem ownText_of_not_isText (h : isText e = false) : ownText e.label = [] :=
  ownText_of_kind (by simpa using h)

theorem listingText_of_not_isText (h : ∀ e ∈ L, isText e = false) : listingText L = [] := by
  induction L with
  | nil => rfl
  | cons e L ih =>
    rw [listingText_cons, ownText_of_not_isText (h e (by simp)), ih fun d hd => h d (by simp [hd])]
    rfl

theorem scan_firstText (L : Listing) (t : Option NodeID) :
    scan (fun (e : Entry Tag Content) t =>
        if kind e.label = .text then (some e.id, false) else (t, true)) L t =
      ((L.find? isText).map Entry.id).or t := by
  induction L generalizing t with
  | nil => rfl
  | cons e L ih =>
    by_cases hk : kind e.label = .text
    · rw [scan, if_pos hk, find?_cons_of_pos (by simpa using hk)]
      rfl
    · rw [scan, if_neg hk, find?_cons_of_neg (by simpa using hk)]
      exact ih t

theorem scan_lastText (L : Listing) (t : Option NodeID) :
    scan (fun (e : Entry Tag Content) t =>
        if kind e.label = .text then (some e.id, true) else (t, true)) L t =
      ((L.reverse.find? isText).map Entry.id).or t := by
  induction L generalizing t with
  | nil => rfl
  | cons e L ih =>
    rw [reverse_cons, List.find?_append]
    by_cases hk : kind e.label = .text
    · rw [scan, if_pos hk, find?_cons_of_pos (by simpa using hk)]
      refine (ih _).trans ?_
      cases L.reverse.find? isText <;> rfl
    · rw [scan, if_neg hk, find?_cons_of_neg (by simpa using hk), find?_nil,
        or_none]
      exact ih t

/-- The first text node at whose end the offset is reached, with the offset inside it. -/
def locate (offset : ℤ) : Listing → Option (NodeID × ℤ)
  | [] => none
  | e :: L =>
    match e.label with
    | .inr (.text s) =>
      if offset ≤ s.length then some (e.id, offset) else locate (offset - s.length) L
    | _ => locate offset L

attribute [local simp] locate

attribute [local simp] textNodeAtOffsetVisitor

theorem scan_textNodeAtOffset (offset : ℤ) (L : Listing) (t : Option NodeID) (inner acc : ℤ) :
    let result := scan (fun e : Entry Tag Content =>
      textNodeAtOffsetVisitor offset ⟨e.id, e.label, .nil⟩) L (t, inner, acc)
    (result.1, result.2.1) =
      ((locate (offset - acc) L).map fun p => (some p.1, p.2)).getD (t, inner) := by
  induction L generalizing acc with
  | nil => rfl
  | cons e L ih =>
    rcases hl : e.label with tag | s | ⟨k, s⟩
    · simpa [scan, hl] using ih acc
    · by_cases hs : offset - acc ≤ s.length
      · simp [scan, hl, hs, show offset ≤ acc + s.length by omega]
      · simpa [scan, hl, hs, sub_sub, show ¬ offset ≤ acc + s.length by omega] using ih (acc + s.length)
    · simpa [scan, hl] using ih acc

theorem locate_spec {offset : ℤ} {c : NodeID} {i : ℤ} (h : locate offset L = some (c, i)) :
    ∃ X l s Y, L = X ++ ⟨l, c, .inr (.text s)⟩ :: Y ∧ offset = (listingText X).length + i ∧
      i ≤ s.length ∧ (0 < offset → 0 < i) := by
  induction L generalizing offset with
  | nil => simp at h
  | cons e L ih =>
    obtain ⟨l, j, b⟩ := e
    rcases b with tag | s | ⟨k, s⟩
    · obtain ⟨X, l', s', Y, rfl, hX⟩ := @ih offset h
      exact ⟨⟨l, j, .inl tag⟩ :: X, l', s', Y, rfl, by simpa [ownText] using hX⟩
    · simp only [locate] at h
      split_ifs at h with hs
      · cases h
        exact ⟨[], l, s, L, rfl, by simp, hs, id⟩
      · obtain ⟨X, l', s', Y, rfl, ho, hi, hpos⟩ := ih h
        refine ⟨⟨l, j, .inr (.text s)⟩ :: X, l', s', Y, rfl, ?_, hi, fun _ => hpos (by omega)⟩
        simp only [listingText_cons, ownText, length_append]
        omega
    · obtain ⟨X, l', s', Y, rfl, hX⟩ := @ih offset h
      exact ⟨⟨l, j, .inr (.other k s)⟩ :: X, l', s', Y, rfl, by simpa [ownText] using hX⟩

theorem locate_eq_none_iff {offset : ℤ} (h0 : 0 < offset) :
    locate offset L = none ↔ (listingText L).length < offset := by
  induction L generalizing offset with
  | nil => simpa using h0
  | cons e L ih =>
    rcases hl : e.label with tag | s | ⟨k, s⟩
    · simpa [hl, ownText] using ih h0
    · rw [locate, listingText_cons, hl]
      simp only [ownText, length_append]
      split_ifs with hs
      · simp
        omega
      · rw [ih (by omega)]
        omega
    · simpa [hl, ownText] using ih h0

section Lookup

variable {w : World} {self : NodeID} {n : Node Tag Content}

theorem exec_firstContainedTextNode (cocoa : Cocoa) (h : w.node? self = some n)
    (hx : ExplicitSpace n.children) (k : ℕ) :
    exec (firstContainedTextNode cocoa self) w =
      some (.ok (((n.children.entries k).find? isText).map Entry.id, w)) := by
  rw [firstContainedTextNode, exec_bind, exec_enforceExplicitPreservedSpace cocoa
    (children_of_node? h ▸ hx), andThen_ok, exec_get_bind, h]
  simp [visitAllNodesInSubtree_eq_scan, scan_nodes
    (fun p t => if kind p.2 = .text then (some p.1, false) else (t, true)) k, scan_firstText]

theorem exec_lastContainedTextNode (cocoa : Cocoa) (h : w.node? self = some n)
    (hx : ExplicitSpace n.children) (k : ℕ) :
    exec (lastContainedTextNode cocoa self) w =
      some (.ok (((n.children.entries k).reverse.find? isText).map Entry.id, w)) := by
  rw [lastContainedTextNode, exec_bind, exec_enforceExplicitPreservedSpace cocoa
    (children_of_node? h ▸ hx), andThen_ok, exec_get_bind, h]
  simp [visitAllNodesInSubtree_eq_scan, scan_nodes
    (fun p t => if kind p.2 = .text then (some p.1, true) else (t, true)) k, scan_lastText]

/-- The text node an offset is looked up in, with the offset inside it. -/
def textNodeAt (L : Listing) (offset inner : ℤ) : Option NodeID × ℤ :=
  if offset = mpTextContentOffsetBeginning then
    ((L.find? isText).map Entry.id, mpTextContentOffsetBeginning)
  else if offset = mpTextContentOffsetEnd then
    ((L.reverse.find? isText).map Entry.id, mpTextContentOffsetEnd)
  else ((locate offset L).map fun p => (some p.1, p.2)).getD (none, inner)

/-- The lookup is a function of the listing of the subtree and changes nothing. -/
theorem exec_textNodeAtOffset (cocoa : Cocoa) (h : w.node? self = some n)
    (hx : ExplicitSpace n.children) (k : ℕ) (offset inner : ℤ) :
    exec (textNodeAtOffset cocoa self offset inner) w =
      some (.ok (textNodeAt (n.children.entries k) offset inner, w)) := by
  rw [textNodeAtOffset, exec_bind, exec_enforceExplicitPreservedSpace cocoa
    (children_of_node? h ▸ hx), andThen_ok, textNodeAt]
  split_ifs
  · rw [exec_bind, exec_firstContainedTextNode cocoa h hx k]
    rfl
  · rw [exec_bind, exec_lastContainedTextNode cocoa h hx k]
    rfl
  · have hscan := scan_textNodeAtOffset offset (n.children.entries k) none inner 0
    have hvis : textNodeAtOffsetVisitor offset =
        fun m => textNodeAtOffsetVisitor offset ⟨m.id, m.label, .nil⟩ := rfl
    rw [sub_zero] at hscan
    rw [exec_get_bind, h, ← hscan]
    simp only [exec_pure, visitAllNodesInSubtree_eq_scan]
    rw [hvis, scan_nodes (fun p => textNodeAtOffsetVisitor offset ⟨p.1, p.2, .nil⟩) k]

end Lookup

/-- The end is where the last text node ends, as far as the lookup is concerned. -/
theorem textNodeAt_end (L : Listing) (inner : ℤ) :
    textNodeAt L mpTextContentOffsetEnd inner =
      ((L.reverse.find? isText).map Entry.id, mpTextContentOffsetEnd) := by
  rw [textNodeAt, if_neg (by decide), if_pos rfl]

theorem textNodeAt_beyond (inner : ℤ) (hn : (listingText L).length < n)
    (hend : (n : ℤ) ≠ mpTextContentOffsetEnd) : textNodeAt L n inner = (none, inner) := by
  have hb : (n : ℤ) ≠ mpTextContentOffsetBeginning := by
    unfold mpTextContentOffsetBeginning
    omega
  rw [textNodeAt, if_neg hb, if_neg hend, (locate_eq_none_iff (by omega)).2 (by omega)]
  rfl

theorem locate_of_not_isText (h : ∀ e ∈ L, isText e = false) (offset : ℤ) :
    locate offset L = none := by
  induction L with
  | nil => rfl
  | cons e L ih =>
    have he := h e (by simp)
    have ih := ih fun d hd => h d (by simp [hd])
    rcases hl : e.label with t | s | ⟨k, s⟩
    · simpa [hl] using ih
    · simp [hl, kind] at he
    · simpa [hl] using ih

theorem textNodeAt_of_not_isText (h : ∀ e ∈ L, isText e = false) (offset inner : ℤ) :
    (textNodeAt L offset inner).1 = none := by
  unfold textNodeAt
  split_ifs
  · simpa using h
  · simpa using h
  · rw [locate_of_not_isText h]
    rfl

/-- An offset within the text is found in a text node: the first one whose end reaches the
offset. -/
theorem textNodeAt_spec (inner : ℤ) (htext : ∃ e ∈ L, isText e = true)
    (hn : n ≤ (listingText L).length) (hfits : (listingText L).length < nsIntegerMax) :
    ∃ (X : Listing) (l : ℕ) (c : NodeID) (s : NSString) (Y : Listing) (i : ℕ),
      textNodeAt L n inner = (some c, (i : ℤ)) ∧ L = X ++ ⟨l, c, .inr (.text s)⟩ :: Y ∧
      n = (listingText X).length + i ∧ i ≤ s.length ∧ (0 < n → 0 < i) ∧
      (n = 0 → ∀ e ∈ X, isText e = false) := by
  rcases Nat.eq_zero_or_pos n with rfl | hpos
  · -- the first text node, whatever its length
    obtain ⟨e, hfind⟩ : ∃ e, L.find? isText = some e := by
      obtain ⟨e, he, ht⟩ := htext
      exact isSome_iff_exists.1 (find?_isSome.2 ⟨e, he, ht⟩)
    obtain ⟨ht, X, Y, rfl, hX⟩ := find?_eq_some_iff_append.1 hfind
    have hX' : ∀ e ∈ X, isText e = false := fun d hd => by simpa using hX d hd
    obtain ⟨l, c, b⟩ := e
    obtain ⟨s, rfl⟩ : ∃ s, b = .inr (.text s) := isText_iff.1 ht
    refine ⟨X, l, c, s, Y, 0, ?_, rfl, ?_, Nat.zero_le _, id, fun _ => hX'⟩
    · rw [textNodeAt, hfind]
      rfl
    · rw [listingText_of_not_isText hX']
      rfl
  · have hb : (n : ℤ) ≠ mpTextContentOffsetBeginning := by
      unfold mpTextContentOffsetBeginning
      omega
    have hend : (n : ℤ) ≠ mpTextContentOffsetEnd := by
      unfold mpTextContentOffsetEnd
      omega
    cases hloc : locate n L with
    | none =>
      have := (locate_eq_none_iff (by omega)).1 hloc
      omega
    | some p =>
      obtain ⟨c, i⟩ := p
      obtain ⟨X, l, s, Y, hL, hoff, hi, hipos⟩ := locate_spec hloc
      refine ⟨X, l, c, s, Y, i.toNat, ?_, hL, by omega, by omega, by omega, by omega⟩
      rw [textNodeAt, if_neg hb, if_neg hend, hloc, Int.toNat_of_nonneg (by omega)]
      rfl

/-! ### The place of the text node in an ancestor -/

/-- The text node `cut` of value `s` below `root`: `head` lies between `root` and `cut`, `tail`
between `cut` and the end of the subtree. -/
structure TextNodePosition (w : World) (root cut : NodeID) (s : NSString) where
  rootLevel : ℕ
  rootLabel : Label
  level : ℕ
  before : Listing
  head : Listing
  tail : Listing
  behind : Listing
  entries : w.trees.entries 0 = before ++ ⟨rootLevel, root, rootLabel⟩ ::
    (head ++ ⟨level, cut, .inr (.text s)⟩ :: (tail ++ behind))
  children : (w.children root).entries (rootLevel + 1) =
    head ++ ⟨level, cut, .inr (.text s)⟩ :: tail
  closes : Forest.Closes rootLevel behind

namespace TextNodePosition

variable {w : World} {root cut : NodeID} {s : NSString}

/-- A place in the listing is enough; the children follow. -/
def ofEntries {r l : ℕ} {b : Label} {A P Q B : Listing}
    (h : w.trees.entries 0 = A ++ ⟨r, root, b⟩ :: (P ++ ⟨l, cut, .inr (.text s)⟩ :: (Q ++ B)))
    (hl : r < l) (hP : ∀ e ∈ P, r < e.level) (hQ : ∀ e ∈ Q, r < e.level)
    (hB : Forest.Closes r B) : TextNodePosition w root cut s where
  rootLevel := r
  rootLabel := b
  level := l
  before := A
  head := P
  tail := Q
  behind := B
  entries := h
  children := by
    refine w.children_of_entries (A := A) (B := B) (by rw [h, List.append_assoc]; rfl)
      (fun d hd => ?_) hB
    rcases List.mem_append.1 hd with hd | hd
    · exact hP d hd
    · rcases mem_cons.1 hd with rfl | hd
      · exact hl
      · exact hQ d hd
  closes := hB

variable (p : TextNodePosition w root cut s)

/-- The entry of the text node. -/
def entry : Entry Tag Content := ⟨p.level, cut, .inr (.text s)⟩

theorem lt_level (he : e ∈ p.head ∨ e ∈ p.tail) : p.rootLevel < e.level := by
  refine lt_level_of_mem_entries_succ (f := w.children root) e ?_
  rw [p.children]
  rcases he with he | he <;> simp [he]

theorem rootLevel_lt_level : p.rootLevel < p.level := by
  have := lt_level_of_mem_entries_succ (k := p.rootLevel) (f := w.children root)
    ⟨p.level, cut, .inr (.text s)⟩ (by rw [p.children]; simp)
  exact this

theorem label_mem (he : e ∈ p.head) : e.label ∈ (w.children root).labels := by
  rw [← map_label_entries (p.rootLevel + 1), p.children]
  exact mem_map_of_mem (by simp [he])

theorem text_eq : text (w.children root) = listingText p.head ++ (s ++ listingText p.tail) := by
  rw [← listingText_entries (p.rootLevel + 1), p.children]
  simp [ownText]

theorem ids_eq : (w.children root).ids = p.head.map Entry.id ++ cut :: p.tail.map Entry.id := by
  rw [← map_id_entries (p.rootLevel + 1), p.children]
  simp

theorem root_mem (p : TextNodePosition w root cut s) : root ∈ w.trees.ids :=
  mem_ids_of_mem_entries 0 w.trees (e := ⟨p.rootLevel, root, p.rootLabel⟩)
    (by rw [p.entries]; simp)

theorem nodup_children (p : TextNodePosition w root cut s) : (w.children root).ids.Nodup := by
  obtain ⟨m, hm⟩ := exists_find?_of_mem p.root_mem
  rw [children_of_node? hm]
  exact (children_nodup w.nodup hm).1

/-- A text node has one place below an element. -/
theorem unique {s' : NSString} (p : TextNodePosition w root cut s)
    (p' : TextNodePosition w root cut s') : p.head = p'.head ∧ p.entry = p'.entry := by
  have hn := w.nodup
  rw [← map_id_entries 0, p.entries] at hn
  obtain ⟨-, -, h⟩ := split_unique hn (p.entries.symm.trans p'.entries) rfl
  rw [map_append, nodup_append, map_cons, nodup_cons] at hn
  obtain ⟨hhead, hety, -⟩ := split_unique hn.2.1.2 h rfl
  exact ⟨hhead, hety⟩

theorem takeWhile_ids :
    (w.children root).ids.takeWhile (fun x => decide (x ≠ cut)) = p.head.map Entry.id := by
  have hn := p.nodup_children
  rw [p.ids_eq, nodup_append] at hn
  have hnot : ∀ x ∈ p.head.map Entry.id, x ≠ cut := fun x hx heq => hn.2.2 x hx cut (by simp) heq
  rw [p.ids_eq, takeWhile_append_of_pos (by simpa using hnot),
    takeWhile_cons_of_neg (by simp), List.append_nil]

theorem firstChild_eq :
    w.firstChild root = cursor
      (p.head ++ ⟨p.level, cut, .inr (.text s)⟩ :: (p.tail ++ p.behind)) := by
  have h := p.entries
  cases hd : p.head with
  | nil =>
    rw [hd] at h
    exact w.firstChild_of_entries h p.rootLevel_lt_level
  | cons d D =>
    rw [hd] at h
    exact w.firstChild_of_entries h (p.lt_level (by simp [hd]))

end TextNodePosition

/-- The value of the first text node. -/
def firstText? (f : Nodes) : Option NSString :=
  (f.labels.find? fun b => decide (kind b = .text)).map ownText

theorem firstText?_of_entries {k l : ℕ} {X Y : Listing} {c : NodeID} {s : NSString}
    (h : f.entries k = X ++ ⟨l, c, .inr (.text s)⟩ :: Y) (hX : ∀ e ∈ X, isText e = false) :
    firstText? f = some s := by
  have hnone : (X.map Entry.label).find? (fun b => decide (kind b = .text)) = none := by
    rw [List.find?_eq_none]
    intro b hb
    obtain ⟨e, he, rfl⟩ := mem_map.1 hb
    simpa using hX e he
  rw [firstText?, ← map_label_entries k, h, map_append, List.find?_append, hnone]
  simp [kind, ownText]

theorem exists_isText_of_hasText (h : HasText f) (k : ℕ) : ∃ e ∈ f.entries k, isText e = true := by
  obtain ⟨b, hb, hk⟩ := h
  rw [← map_label_entries k] at hb
  obtain ⟨e, he, rfl⟩ := mem_map.1 hb
  exact ⟨e, he, by simpa using hk⟩

theorem isText_eq_false_of_not_hasText (h : ¬ HasText f) (k : ℕ) :
    ∀ e ∈ f.entries k, isText e = false := by
  intro e he
  by_contra ht
  refine h ⟨e.label, ?_, by simpa using ht⟩
  rw [← map_label_entries k]
  exact mem_map_of_mem he

/-- The listing of an element at or below `root`, as a piece of the listing of `root`. -/
theorem World.exists_head {root : NodeID} {n : Node Tag Content} (k : ℕ)
    (hroot : w.node? root = some n) (hself : self = root ∨ self ∈ (w.children root).ids) :
    ∃ l U V, n.children.entries k = U ++ ((w.children self).entries l ++ V) ∧
      ((w.children self).ids ≠ [] → (listingText U).length = w.textLengthBefore root self) := by
  have hcs := children_of_node? hroot
  by_cases hs : self = root
  · subst hs
    exact ⟨k, [], [], by simp [hcs], fun _ => by simp [textLengthBefore]⟩
  · obtain ⟨m, hm⟩ := exists_find?_of_mem (hcs ▸ hself.resolve_left hs)
    have hm' := children_of_node? (find?_of_find?_children w.nodup hroot hm)
    obtain ⟨l, U, V, he, -, -⟩ := entries_of_find? k hm
    refine ⟨l + 1, U ++ [⟨l, self, m.label⟩], V, by simp [he, hm'], fun hne => ?_⟩
    -- a node with children is an element and has no text of its own
    have hown : ownText m.label = [] := by
      rcases hl : m.label with t | c
      · rfl
      · rw [hm', children_eq_nil_of_leaf hm hl] at hne
        simp at hne
    have hU := textBefore_of_entries (children_nodup w.nodup hroot).1 he
    rw [textLengthBefore, if_neg hs, hcs, hU]
    simp [hown]

/-- An element at or below `root` has nothing below it that `root` has not. -/
theorem World.exists_node_below {root : NodeID} (hroot : root ∈ w.trees.ids)
    (hself : self = root ∨ self ∈ (w.children root).ids) :
    ∃ m, w.node? self = some m ∧ m.children.labels ⊆ (w.children root).labels ∧
      m.children.ids.length ≤ (w.children root).ids.length := by
  obtain ⟨n, hn⟩ := exists_find?_of_mem hroot
  obtain ⟨l, U, V, hUV, -⟩ := w.exists_head 0 hn hself
  have hcs := children_of_node? hn
  have hmem : self ∈ w.trees.ids := by
    rcases hself with rfl | hself
    · exact hroot
    · exact children_subset hn (hcs ▸ hself)
  obtain ⟨m, hm⟩ := exists_find?_of_mem hmem
  rw [children_of_node? hm] at hUV
  refine ⟨m, hm, fun b hb => ?_, ?_⟩
  · rw [hcs, ← map_label_entries 0, hUV]
    rw [← map_label_entries l] at hb
    simp only [map_append, mem_append]
    exact .inr (.inl hb)
  · rw [hcs, ← length_entries 0 n.children, hUV, ← length_entries l]
    simp only [length_append]
    omega

/-- The text node in which an offset within `self` is found, seen from an ancestor `root`. -/
theorem exists_textNodePosition (cocoa : Cocoa) {root : NodeID} (hroot : root ∈ w.trees.ids)
    (hself : self = root ∨ self ∈ (w.children root).ids) (hx : ExplicitSpace (w.children root))
    (htext : HasText (w.children self)) (hn : n ≤ (text (w.children self)).length)
    (hfits : (text (w.children self)).length < nsIntegerMax) (inner : ℤ) :
    ∃ (cut : NodeID) (s : NSString) (p : TextNodePosition w root cut s) (i : ℕ),
      exec (textNodeAtOffset cocoa self n inner) w = some (.ok ((some cut, (i : ℤ)), w)) ∧
      (listingText p.head).length + i = w.textLengthBefore root self + n ∧ i ≤ s.length ∧ i ≤ n ∧
      (0 < n → 0 < i) ∧ (n = 0 → firstText? (w.children self) = some s) := by
  obtain ⟨m, hm⟩ := exists_find?_of_mem hroot
  obtain ⟨r, A, B, he, hB, -⟩ := w.exists_entries hm
  obtain ⟨l, U, V, hUV, hU⟩ := w.exists_head (r + 1) hm hself
  obtain ⟨X, lc, cut, s, Y, i, hat, hXY, hoff, hi, hpos, hzero⟩ :=
    textNodeAt_spec inner (exists_isText_of_hasText htext l) (by simpa using hn) (by simpa using hfits)
  have hcs := children_of_node? hm
  have hne : (w.children self).ids ≠ [] := by
    rw [Ne, ← entries_eq_nil_iff l, hXY]
    simp
  have hexec : exec (textNodeAtOffset cocoa self n inner) w =
      some (.ok ((some cut, (i : ℤ)), w)) := by
    obtain ⟨m', hm', hlab, -⟩ := w.exists_node_below hroot hself
    rw [exec_textNodeAtOffset cocoa hm' (fun b hb => hx b (hlab hb)) l,
      ← children_of_node? hm', hat]
  refine ⟨cut, s, ⟨r, m.label, lc, A, U ++ X, Y ++ V, B, ?_, ?_, hB⟩, i, hexec, ?_, hi,
    by omega, hpos, fun h0 => firstText?_of_entries hXY (hzero h0)⟩
  · rw [he, hUV, hXY]
    simp
  · rw [hcs, hUV, hXY]
    simp
  · rw [listingText_append, length_append, hU hne]
    omega

/-! ### Translating an offset -/

theorem stringValue_of_kind {n : Node Tag Content} (h : kind n.label = .text) :
    stringValue n = ownText n.label := by
  obtain ⟨s, hs⟩ := exists_text_of_kind h
  simp [stringValue, hs, ownText]

/-- The loop adds up the text in front of the inner element and its part of that. -/
theorem scan_innerOffsetVisitor (inner : NodeID) (offset : ℤ)
    (L : List (Node Tag Content)) (acc : ℤ) :
    scan (innerOffsetVisitor inner offset) L acc =
      let b := acc + (((L.takeWhile fun n => decide (n.id ≠ inner)).flatMap
        fun n => ownText n.label).length : ℕ)
      match L.find? fun n => decide (n.id = inner) with
      | none => b
      | some m => b + (if offset = mpTextContentOffsetEnd then (stringValue m).length
          else min (stringValue m).length (asUnsigned (b - offset)) : ℕ) := by
  induction L generalizing acc with
  | nil => simp [scan]
  | cons n L ih =>
    by_cases hn : n.id = inner
    · rw [scan, innerOffsetVisitor]
      split_ifs <;> simp_all
    · have hvis : innerOffsetVisitor inner offset n acc =
          (acc + ((ownText n.label).length : ℕ), true) := by
        rw [innerOffsetVisitor]
        split_ifs with hk
        · rw [stringValue_of_kind hk]
        · simp [ownText_of_kind hk]
      rw [find?_cons_of_neg (by simpa using hn), takeWhile_cons_of_pos (by simpa using hn),
        scan_cons_true hvis, ih]
      simp only [flatMap_cons, length_append, Nat.cast_add, add_assoc]

section Inner

variable {w : World} {self inner : NodeID} {n : Node Tag Content} {offset : ℤ}

theorem flatMap_takeWhile_nodes (f : Nodes) (x : NodeID) :
    (f.nodes.takeWhile fun n => decide (n.id ≠ x)).flatMap (fun n => ownText n.label) =
      textBefore f x := by
  have h := congrArg (fun l => (l.takeWhile fun p => decide (p.1 ≠ x)).flatMap
    fun p : ℕ × Label => ownText p.2) (map_nodes_eq_map_entries 0 f)
  simp only [takeWhile_map, flatMap_map] at h
  exact h

theorem textBefore_of_notMem {x : NodeID} (hx : x ∉ f.ids) : textBefore f x = text f := by
  rw [textBefore, takeWhile_eq_self_iff.2, listingText_entries]
  intro e he
  have : e.id ≠ x := fun h => hx (h ▸ mem_ids_of_mem_entries 0 f he)
  simpa using this

/-- What the translation answers for an element other than the receiver. -/
theorem exec_textContentOffsetForInnerXMLElement (cocoa : Cocoa) (h : w.node? self = some n)
    (hx : ExplicitSpace n.children) (hne : inner ≠ self) :
    exec (textContentOffsetForInnerXMLElement cocoa self inner offset) w =
      some (.ok (match n.children.find? inner with
        | none => ((text n.children).length : ℤ)
        | some m => (textBefore n.children inner).length +
            (if offset = mpTextContentOffsetEnd then (stringValue m).length
              else min (stringValue m).length
                (asUnsigned ((textBefore n.children inner).length - offset)) : ℕ), w)) := by
  have hscan := scan_innerOffsetVisitor inner offset n.children.nodes 0
  rw [flatMap_takeWhile_nodes, zero_add, ← find?_eq_find?_nodes,
    ← visitAllNodesInSubtree_eq_scan] at hscan
  rw [textContentOffsetForInnerXMLElement, exec_bind, exec_enforceExplicitPreservedSpace cocoa
    (children_of_node? h ▸ hx), andThen_ok, if_neg hne, exec_get_bind, h]
  simp only [hscan]
  cases hm : n.children.find? inner with
  | none => simp [textBefore_of_notMem (find?_eq_none.1 hm)]
  | some m => rfl

/-- What `-textContentOffsetForInnerXMLElement:textContentOffset:` is meant to answer. -/
def innerOffset (w : World) (self inner : NodeID) (offset : ℤ) :
    ℤ :=
  if inner = self ∨ inner ∈ (w.children self).ids then
    w.textLengthBefore self inner + (if offset = mpTextContentOffsetEnd then
      ((text (w.children inner)).length : ℤ)
      else min offset (text (w.children inner)).length)
  else mpTextContentOffsetNotFound

/-- When the clamped difference of the code is the clamped offset. -/
theorem min_asUnsigned_sub_eq_iff {b l : ℕ} (hb : b < nsIntegerMax) (hl : l < nsIntegerMax)
    (h0 : 0 ≤ offset) (hmax : offset ≤ nsIntegerMax) :
    ((min l (asUnsigned (b - offset)) : ℕ) : ℤ) = min offset l ↔
      (b < offset ∧ l ≤ offset) ∨
        (offset ≤ b ∧ (b = 2 * offset ∨ (l ≤ offset ∧ l ≤ b - offset))) := by
  unfold nsIntegerMax at hb hl hmax
  by_cases hob : offset ≤ b
  · have hu : (asUnsigned (b - offset) : ℤ) = b - offset := by
      unfold asUnsigned
      omega
    omega
  · -- a negative difference is a large unsigned number
    have hu : (asUnsigned (b - offset) : ℤ) = b - offset + 2 ^ 64 := by
      unfold asUnsigned
      omega
    omega

theorem text_children_length_le {x : NodeID} {m : Node Tag Content} (h : f.find? x = some m) :
    (text m.children).length ≤ (text f).length := by
  obtain ⟨l, A, B, he, -, -⟩ := entries_of_find? 0 h
  rw [← listingText_entries 0 f, he]
  simp only [listingText_append, listingText_cons, listingText_entries, length_append]
  omega

/-- The offset is answered as meant exactly when the inner element is the receiver and the offset
lies within its text, or the inner element lies below and `MIN` happens to pick the right number. -/
theorem textContentOffsetForInnerXMLElement_correct_iff (cocoa : Cocoa)
    (hself : self ∈ w.trees.ids) (hx : ExplicitSpace (w.children self))
    (hfits : (text (w.children self)).length < nsIntegerMax)
    (hinner : w.kind? inner = some .element) (h0 : 0 ≤ offset) (hmax : offset ≤ nsIntegerMax) :
    exec (textContentOffsetForInnerXMLElement cocoa self inner offset) w =
        some (.ok (innerOffset w self inner offset, w)) ↔
      (inner = self ∧ offset ≤ (text (w.children self)).length) ∨
        (inner ≠ self ∧ inner ∈ (w.children self).ids ∧
          let b : ℤ := w.textLengthBefore self inner
          let l : ℤ := (text (w.children inner)).length
          offset = mpTextContentOffsetEnd ∨ (b < offset ∧ l ≤ offset) ∨
            (offset ≤ b ∧ (b = 2 * offset ∨ (l ≤ offset ∧ l ≤ b - offset)))) := by
  obtain ⟨n, h⟩ := exists_find?_of_mem hself
  rw [children_of_node? h] at hx hfits ⊢
  by_cases hs : inner = self
  · -- the receiver itself: the offset is handed back as it is
    subst hs
    have hexec : exec (textContentOffsetForInnerXMLElement cocoa inner inner offset) w =
        some (.ok (offset, w)) := by
      rw [textContentOffsetForInnerXMLElement, exec_bind, exec_enforceExplicitPreservedSpace cocoa
        (children_of_node? h ▸ hx), andThen_ok, if_pos rfl, exec_pure]
    rw [hexec, innerOffset, children_of_node? h, textLengthBefore]
    simp only [some.injEq, Except.ok.injEq, Prod.mk.injEq, and_true, true_or, true_and,
      ne_eq, not_true_eq_false, false_and, or_false]
    unfold mpTextContentOffsetEnd
    split_ifs <;> omega
  · rw [exec_textContentOffsetForInnerXMLElement cocoa h hx hs, innerOffset,
      textLengthBefore, if_neg hs, children_of_node? h]
    simp only [hs, false_or, false_and, ne_eq, not_false_eq_true,
      some.injEq, Except.ok.injEq, Prod.mk.injEq, and_true]
    cases hm : n.children.find? inner with
    | none =>
      have hmem := find?_eq_none.1 hm
      have hneg : ((text n.children).length : ℤ) ≠ mpTextContentOffsetNotFound := by
        unfold mpTextContentOffsetNotFound
        omega
      simp [hmem, hneg]
    | some m =>
      have hmem := mem_of_find? hm
      have hm' : w.node? inner = some m := find?_of_find?_children w.nodup h hm
      have hval : stringValue m = text m.children := by
        rw [kind?] at hinner
        unfold stringValue
        rcases hl : m.label with t | s | ⟨k, s⟩ <;> simp_all [kind]
      have hb := textBefore_length_le n.children inner
      have hl := text_children_length_le hm
      simp only [hmem, if_true, true_and, children_of_node? hm', hval, add_right_inj]
      by_cases hend : offset = mpTextContentOffsetEnd
      · simp [hend]
      · simp only [hend, false_or]
        exact min_asUnsigned_sub_eq_iff (by omega) (by omega) h0 hmax

theorem textContentOffsetForInnerXMLElement_half :
    exec (textContentOffsetForInnerXMLElement .inert 1 3 1) sampleDivision =
      some (.ok (3, sampleDivision)) :=
  (textContentOffsetForInnerXMLElement_correct_iff (w := sampleDivision) .inert (by decide)
    (by decide) (by decide) (by decide) (by decide) (by decide)).2 (by decide)

/-- In `<p>ab<i>cd</i></p>` the inner element begins at offset 2, not 4. -/
theorem textContentOffsetForInnerXMLElement_wrong :
    (exec (textContentOffsetForInnerXMLElement .inert 1 3 0) sampleDivision =
        some (.ok (4, sampleDivision)) ∧ innerOffset sampleDivision 1 3 0 = 2) ∧
      exec (textContentOffsetForInnerXMLElement .inert 1 5 0) sampleDivision =
        some (.ok (4, sampleDivision)) ∧
        innerOffset sampleDivision 1 5 0 = mpTextContentOffsetNotFound := by
  decide

end Inner

end Feather.XML
