import Feather.XML.Delete
import Feather.XML.Recreate

/-!
# Splitting an element at a text offset

`splitAtInnerXMLElementXPath` looks for the text node an offset falls into and rebuilds two elements
from the nodes up to and from there.
-/

namespace Feather.XML

open OrderedTree Forest Program Option
open List hiding append_assoc append_nil nil_append

variable {w : World} {self x cut : NodeID} {O : Nodes} {t : Tag} {m : Node Tag Content} {n : ℕ}

/-! ### Errors -/

/-- `MPXMLElementErrorDomain` -/
def mpXMLElementErrorDomain : NSString := literal "MPXMLElementErrorDomain"

/-- `MPXMLElementErrorCodeInnerXMLElementNotFound` -/
def mpXMLElementErrorCodeInnerXMLElementNotFound : ℤ := 1

/-- The error without an element. -/
def innerXMLElementNotFound (xPath : NSString) : NSError :=
  ⟨mpXMLElementErrorDomain, mpXMLElementErrorCodeInnerXMLElementNotFound,
    literal "Failed to find inner XML element '" ++ xPath ++ literal "' to split at"⟩

/-- The error without a text node. -/
def textNodeNotFound (offset : ℤ) : NSError :=
  ⟨mpXMLElementErrorDomain, mpXMLElementErrorCodeInnerXMLElementNotFound,
    literal "Failed to find text node to split at offset " ++
      literal (toString (asUnsigned offset))⟩

/-! ### Finding the text node -/

/-- `-innerXMLElement:atXPath:error:` -/
def innerXMLElement (cocoa : Cocoa) (w : World) (self : NodeID) (xPath : NSString) :
    Except NSError (Option NodeID) := do
  let nodes ← cocoa.nodesForXPath w self xPath
  match nodes.head? with
  | none => pure none
  | some n => if w.kind? n = some .element then pure (some n) else pure none

/-- The element to split at: the receiver, or the one an XPath expression selects. -/
def splitAnchorElement (cocoa : Cocoa) (w : World) (self : NodeID) (xPath : Option NSString) :
    Except NSError NodeID :=
  match xPath with
  | none => .ok self
  | some xPath =>
    if xPath = literal "." then .ok self
    else
      match innerXMLElement cocoa w self xPath with
      | .error e => .error e
      | .ok none => .error (innerXMLElementNotFound xPath)
      | .ok (some anchor) => .ok anchor

/-! ### Gathering the nodes before and after the split -/

/-- `n`, its parent and so on up to `self`, which is left out. -/
def climb (w : World) (self : NodeID) : ℕ → Option NodeID → List NodeID
  | 0, _ => []
  | _ + 1, none => []
  | fuel + 1, some n => if n = self then [] else n :: climb w self fuel (w.parent? n)

/-- The visitor that gathers nodes, with its variables `headNodes`, `tailNodes` and
`beforeSplit`. -/
def gatherNodes (w : World) (self textNodeToSplit : NodeID) (node : Node Tag Content) :
    List NodeID × List NodeID × Bool → (List NodeID × List NodeID × Bool) × Bool
  | (headNodes, tailNodes, beforeSplit) =>
    let headNodes := if beforeSplit then headNodes ++ [node.id] else headNodes
    let tailNodes := if beforeSplit then tailNodes else tailNodes ++ [node.id]
    if node.id = textNodeToSplit then
      -- the text node and its ancestry count as both head and tail
      ((headNodes, tailNodes ++ climb w self w.size (some node.id), false), true)
    else ((headNodes, tailNodes, beforeSplit), true)

/-! ### The method -/

/-- The split, once the text node is known. -/
def splitAtTextNode (cocoa : Cocoa) (self textNodeToSplit : NodeID) (splitOffset : ℤ) :
    Action (NodeID × NodeID) := do
  let w ← get
  let (headNodes, tailNodes, _) :=
    match w.node? self with
    | none => ([], [], true)
    | some n => visitAllNodesInSubtree n (gatherNodes w self textNodeToSplit) ([], [], true)
  let headElement ←
    recreateSplitSubtree cocoa self (self :: headNodes) textNodeToSplit splitOffset true
  let tailElement ←
    recreateSplitSubtree cocoa self (tailNodes ++ [self]) textNodeToSplit splitOffset false
  match headElement, tailElement with
  | some headElement, some tailElement => pure (headElement, tailElement)
  | _, _ => throw .invalidArgument

/-- The split, once the element is known that the offset is relative to. -/
def splitAtAnchor (cocoa : Cocoa) (self anchor : NodeID) (innerElementOffset : ℤ) :
    Action (Except NSError (NodeID × NodeID)) := do
  let (textNodeToSplit, splitOffset) ←
    textNodeAtOffset cocoa anchor innerElementOffset nsNotFound
  match textNodeToSplit with
  | none => pure (.error (textNodeNotFound innerElementOffset))
  | some textNodeToSplit => do
    let halves ← splitAtTextNode cocoa self textNodeToSplit splitOffset
    pure (.ok halves)

/-- `-splitAtInnerXMLElementXPath:textContentOffset:error:` -/
def splitAtInnerXMLElementXPath (cocoa : Cocoa) (self : NodeID) (xPath : Option NSString)
    (innerElementOffset : ℤ) : Action (Except NSError (NodeID × NodeID)) := do
  if innerElementOffset < mpTextContentOffsetBeginning then throw .internalInconsistency
  else do
    modify fun w => w.normalizeAdjacentTextNodes self
    enforceExplicitPreservedSpace cocoa self
    let w ← get
    match splitAnchorElement cocoa w self xPath with
    | .error e => pure (.error e)
    | .ok anchor => splitAtAnchor cocoa self anchor innerElementOffset

/-! ### Which nodes are gathered -/

theorem climb_of_path? {p q : List NodeID} (h : w.trees.path? x = some (p ++ self :: q))
    (hx : x ≠ self) (hq : self ∉ q) {fuel : ℕ} (hfuel : q.length < fuel) :
    climb w self fuel (some x) = x :: q.reverse := by
  induction q using reverseRecOn generalizing x fuel with
  | nil =>
    cases fuel with
    | zero => simp at hfuel
    | succ fuel =>
      have hpar : w.parent? x = some self := by simp [World.parent?, parent?, h]
      rw [climb, if_neg hx, hpar]
      cases fuel <;> simp [climb]
  | append_singleton q a ih =>
    cases fuel with
    | zero => simp at hfuel
    | succ fuel =>
      rw [← cons_append, ← List.append_assoc] at h
      have hpar : w.parent? x = some a := by
        rw [World.parent?, parent?, h, bind_some, getLast?_concat]
      rw [mem_append, mem_singleton, not_or] at hq
      rw [climb, if_neg hx, hpar, ih (path?_of_path?_concat w.nodup h) (Ne.symm hq.2) hq.1
        (by simpa using hfuel)]
      simp

section Gather

variable {w : World} {self cut : NodeID}

theorem gatherNodes_before (hm : m.id ≠ cut) (H T : List NodeID) :
    gatherNodes w self cut m (H, T, true) = ((H ++ [m.id], T, true), true) := by
  simp [gatherNodes, hm]

theorem gatherNodes_after (hm : m.id ≠ cut) (H T : List NodeID) :
    gatherNodes w self cut m (H, T, false) = ((H, T ++ [m.id], false), true) := by
  simp [gatherNodes, hm]

theorem gatherNodes_cut (hm : m.id = cut) (H T : List NodeID) :
    gatherNodes w self cut m (H, T, true) =
      ((H ++ [cut], T ++ climb w self w.size (some cut), false), true) := by
  simp [gatherNodes, hm]

theorem scan_gatherNodes_after {N : List (Node Tag Content)} (hN : ∀ m ∈ N, m.id ≠ cut)
    (H T : List NodeID) :
    scan (gatherNodes w self cut) N (H, T, false) = (H, T ++ N.map Node.id, false) := by
  induction N generalizing T with
  | nil => simp [scan]
  | cons m N ih =>
    rw [scan_cons_true (gatherNodes_after (hN m (by simp)) H T),
      ih fun d hd => hN d (by simp [hd])]
    simp

/-- The visitor puts the text node into both lists, and the nodes above it into the second one. -/
theorem scan_gatherNodes {N : List (Node Tag Content)} {P Q : List NodeID}
    (hN : N.map Node.id = P ++ cut :: Q) (hP : cut ∉ P) (hQ : cut ∉ Q) (H : List NodeID) :
    scan (gatherNodes w self cut) N (H, [], true) =
      (H ++ (P ++ [cut]), climb w self w.size (some cut) ++ Q, false) := by
  induction P generalizing N H with
  | nil =>
    obtain ⟨m, N, rfl⟩ : ∃ m N', N = m :: N' := by
      cases N with
      | nil => simp at hN
      | cons m N => exact ⟨m, N, rfl⟩
    rw [map_cons, List.nil_append, cons.injEq] at hN
    have hN' : ∀ d ∈ N, d.id ≠ cut := fun d hd hid => hQ (hN.2 ▸ hid ▸ mem_map_of_mem hd)
    rw [scan_cons_true (gatherNodes_cut hN.1 H []), scan_gatherNodes_after hN', hN.2]
    simp
  | cons p P ih =>
    obtain ⟨m, N, rfl⟩ : ∃ m N', N = m :: N' := by
      cases N with
      | nil => simp at hN
      | cons m N => exact ⟨m, N, rfl⟩
    rw [map_cons, cons_append, cons.injEq] at hN
    rw [mem_cons, not_or] at hP
    have hm : m.id ≠ cut := fun h => hP.1 (h.symm.trans hN.1)
    rw [scan_cons_true (gatherNodes_before hm H []), ih hN.2 hP.2, hN.1]
    simp

end Gather

/-! ### The two halves -/

/-- The tag of a copy of an element. -/
def copyTag (t : Tag) : Tag := plainTag t.name t.attributes

section Halves

variable {w : World} {self cut : NodeID} {n : Node Tag Content} {s : NSString} {i : ℕ}

theorem visit_gatherNodes (hself : w.node? self = some n)
    (q : LeafCut n.children 1 cut (.text s)) :
    visitAllNodesInSubtree n (gatherNodes w self cut) ([], [], true) =
      (q.front.map Entry.id ++ [cut],
        cut :: q.above.reverse.map Entry.id ++ q.behind.map Entry.id, false) := by
  obtain ⟨hnd, hnot⟩ := children_nodup w.nodup hself
  obtain ⟨p, -, hbel⟩ := path?_of_find?_children w.nodup hself
  have hsize : n.children.ids.length ≤ w.size := by
    obtain ⟨X, Y, h⟩ := children_ids_of_find? hself
    rw [World.size, h]
    simp only [length_append, length_cons]
    omega
  rw [q.ids_eq] at hnd hnot hsize
  have hPQ := nodup_append.1 hnd
  have hcut : cut ≠ self := fun h => hnot (by simp [h])
  have habv : self ∉ q.above.map Entry.id := fun h =>
    hnot (mem_append_left _ ((q.above_sublist.map Entry.id).subset h))
  have hlen := q.above_sublist.length_le
  rw [visitAllNodesInSubtree_eq_scan, scan_gatherNodes (by rw [map_id_nodes, q.ids_eq])
    (fun h => hPQ.2.2 cut h cut (by simp) rfl) (nodup_cons.1 hPQ.2.1).1,
    climb_of_path? (hbel cut _ q.path?_eq) hcut habv (by
      simp only [length_append, length_cons, length_map] at hsize ⊢
      omega)]
  simp

/-- The split at a text node makes two elements, copies of what lies in front of the cut and behind
it. -/
theorem exec_splitAtTextNode (cocoa : Cocoa) (hself : w.node? self = some n) (ht : n.label = .inl t)
    (q : LeafCut n.children 1 cut (.text s)) (hO : ElementsAndText n.children)
    (hx : ExplicitSpace n.children) (hi : i ≤ s.length) (hmax : i ≤ nsIntegerMax) :
    ∃ w' head tail hs ts, exec (splitAtTextNode cocoa self cut i) w =
        some (.ok ((head, tail), w')) ∧
      w'.trees = w.trees ++ (.branch head (copyTag t) (normalized hs) .nil ++
        .branch tail (copyTag t) (normalized ts) .nil) ∧
      hs.anonymous =
        (headPart cut (some (.text (s.take i))) n.children).anonymous ∧
      ts.anonymous =
        (tailPart cut (some (.text (s.drop i))) n.children).anonymous := by
  have hk : ∀ e, e ∈ q.front ∨ e ∈ q.behind → kind e.label = .element ∨ kind e.label = .text := by
    intro e he
    refine hO _ ?_
    rw [← map_label_entries 1]
    exact mem_map_of_mem (q.mem_entries (children_nodup w.nodup hself).1 he).2
  obtain ⟨w1, head, hs, hrun₁, hw1, hhs⟩ := exec_recreateSplitSubtree_head cocoa hself ht hx q
    (fun e he => hk e (.inl he)) hi hmax
  have hself₁ : w1.node? self = some n := by
    rw [World.node?, hw1, find?_append_of_mem (mem_of_find? hself)]
    exact hself
  obtain ⟨w2, tail, ts, hrun₂, hw2, hts⟩ := exec_recreateSplitSubtree_tail cocoa hself₁ ht hx q
    (fun e he => hk e (.inr he)) hi hmax
  refine ⟨w2, head, tail, hs, ts, ?_, ?_, hhs, hts⟩
  · simp only [splitAtTextNode, exec_bind, exec_get, andThen_ok, hself, visit_gatherNodes hself q,
      hrun₁, hrun₂, exec_pure]
  · rw [hw2, hw1, append_assoc]
    rfl

end Halves

/-! ### The method -/

/-- The method runs on the subtree as it is once normalized and with explicit space. -/
theorem exec_splitAtInnerXMLElementXPath (cocoa : Cocoa) {w1 : World} {anchor : NodeID}
    {xPath : Option NSString} {offset : ℤ} (hoff : 0 ≤ offset)
    (hprep : exec (enforceExplicitPreservedSpace cocoa self) (w.normalizeAdjacentTextNodes self) =
      some (.ok ((), w1))) (hanc : splitAnchorElement cocoa w1 self xPath = .ok anchor) :
    exec (splitAtInnerXMLElementXPath cocoa self xPath offset) w =
      exec (splitAtAnchor cocoa self anchor offset) w1 := by
  rw [splitAtInnerXMLElementXPath, if_neg (by unfold mpTextContentOffsetBeginning; omega),
    exec_modify_bind, exec_bind, hprep, andThen_ok, exec_get_bind, hanc]

section Anchor

variable {w : World} {self anchor : NodeID}

/-- At an offset within the text of the anchor, the text node found is split. -/
theorem exec_splitAtAnchor (cocoa : Cocoa) {cut : ℕ} {i : ℤ}
    (h : exec (textNodeAtOffset cocoa anchor n nsNotFound) w = some (.ok ((some cut, i), w))) :
    exec (splitAtAnchor cocoa self anchor n) w =
      andThen (exec (splitAtTextNode cocoa self cut i) w) fun halv => pure (.ok halv) := by
  rw [splitAtAnchor, exec_bind, h]
  exact exec_bind _ _ w

/-- Where no text node is found, the method answers `nil`. -/
theorem exec_splitAtAnchor_none (cocoa : Cocoa) (hself : self ∈ w.trees.ids)
    (hbel : anchor = self ∨ anchor ∈ (w.children self).ids) (hx : ExplicitSpace (w.children self))
    (h : (textNodeAt ((w.children anchor).entries 0) n nsNotFound).1 = none) :
    exec (splitAtAnchor cocoa self anchor n) w = some (.ok (.error (textNodeNotFound n), w)) := by
  obtain ⟨m, hm, hlab, -⟩ := World.exists_node_below hself hbel
  rw [World.children_of_node? hm] at h
  rw [splitAtAnchor, exec_bind, exec_textNodeAtOffset cocoa hm (fun b hb => hx b (hlab hb)) 0]
  simp [h]

/-- At an offset within the anchor's text there are two halves: copies of what lies in front and
behind, with texts coalesced. -/
theorem exec_splitAtAnchor_of_hasText (cocoa : Cocoa)
    (hself : w.node? self = some ⟨self, .inl t, O⟩)
    (hbel : anchor = self ∨ anchor ∈ (w.children self).ids) (hO : ElementsAndText O)
    (hx : ExplicitSpace O) (htext : HasText (w.children anchor))
    (hn : n ≤ (text (w.children anchor)).length)
    (hfits : (text (w.children anchor)).length < nsIntegerMax) :
    ∃ (cut : NodeID) (s : NSString) (p : TextNodePosition w self cut s) (i : ℕ) (w' : World)
      (head tail : NodeID) (hs ts : Nodes),
      exec (splitAtAnchor cocoa self anchor n) w = some (.ok (.ok (head, tail), w')) ∧
      w'.trees = w.trees ++ (.branch head (copyTag t) (normalized hs) .nil ++
        .branch tail (copyTag t) (normalized ts) .nil) ∧
      hs.anonymous = (headPart cut (some (.text (s.take i))) O).anonymous ∧
      ts.anonymous = (tailPart cut (some (.text (s.drop i))) O).anonymous ∧
      (listingText p.head).length + i = w.textLengthBefore self anchor + n ∧ i ≤ s.length := by
  have hcs := World.children_of_node? hself
  obtain ⟨cut, s, p, i, hexec, hlen, hi, hin, -, -⟩ := exists_textNodePosition cocoa
    (mem_of_find? hself) hbel (hcs ▸ hx) htext hn hfits nsNotFound
  have hpos := p.children
  rw [hcs] at hpos
  obtain ⟨c, hcut, hc⟩ := find?_label_of_entries (children_nodup w.nodup hself).1 hpos
  obtain ⟨q⟩ := nonempty_leafCut 1 hcut hc
  obtain ⟨w', head, tail, hs, ts, hrun, hw', hhs, hts⟩ := exec_splitAtTextNode cocoa hself rfl q hO hx
    hi (by omega)
  refine ⟨cut, s, p, i, w', head, tail, hs, ts, ?_, hw', hhs, hts, hlen, hi⟩
  rw [exec_splitAtAnchor cocoa hexec, hrun, andThen_ok, exec_pure]

end Anchor

/-! ### What a split is -/

/-- A split of `O` within the text node `cut` leaves `H` and `T`: `left` of the text belongs to the
head and `right` to the tail.  Every node is in one of them, under the same nodes and in order; the
nodes above the text node are in both, and so is the text node unless a piece is empty. -/
structure IsSplit (O : Nodes) (cut : NodeID) (left right : NSString) (H T : Nodes) : Prop where
  cut_label : (O.find? cut).map Node.label = some (.inr (.text (left ++ right)))
  head_order : H.ids.Sublist O.ids
  tail_order : T.ids.Sublist O.ids
  cover : ∀ x ∈ O.ids, x ∈ H.ids ∨ x ∈ T.ids
  both : ∀ x, x ∈ H.ids ∧ x ∈ T.ids ↔
    x ∈ (O.path? cut).getD [] ∨ x = cut ∧ left ≠ [] ∧ right ≠ []
  head_path : ∀ x ∈ H.ids, H.path? x = O.path? x
  tail_path : ∀ x ∈ T.ids, T.path? x = O.path? x
  head_label : ∀ x ∈ H.ids, (H.find? x).map Node.label =
    if x = cut then some (.inr (.text left)) else (O.find? x).map Node.label
  tail_label : ∀ x ∈ T.ids, (T.find? x).map Node.label =
    if x = cut then some (.inr (.text right)) else (O.find? x).map Node.label

theorem find?_label_of_part {part : Nodes} {piece : NSString} (hO : O.ids.Nodup)
    (hn : part.ids.Nodup) {k : ℕ} (h : ∀ e ∈ part.entries k,
      (e.id = cut ∧ e.label = .inr (.text piece)) ∨ (e.id ≠ cut ∧ e ∈ O.entries k))
    (hx : x ∈ part.ids) : (part.find? x).map Node.label =
      if x = cut then some (.inr (.text piece)) else (O.find? x).map Node.label := by
  rw [← map_id_entries k] at hx
  obtain ⟨e, he, rfl⟩ := mem_map.1 hx
  obtain ⟨X, Y, hXY⟩ := append_of_mem he
  obtain ⟨m, hm, hlab⟩ := find?_label_of_entries hn hXY
  rw [hm, map_some, hlab]
  rcases h e he with ⟨hid, hl⟩ | ⟨hid, hmem⟩
  · rw [if_pos hid, hl]
  · obtain ⟨X', Y', hXY'⟩ := append_of_mem hmem
    obtain ⟨m', hm', hlab'⟩ := find?_label_of_entries hO hXY'
    rw [if_neg hid, hm', map_some, hlab']

theorem map_id_leafEntry_pieceContent (l cut : ℕ) (piece : NSString) :
    (leafEntry l cut (pieceContent piece) : Listing).map Entry.id =
      if piece = [] then [] else [cut] := by
  unfold pieceContent
  split_ifs <;> rfl

theorem label_of_pieceContent {piece : NSString} {d : Content} (h : pieceContent piece = some d) :
    (.inr d : Label) = .inr (.text piece) := by
  unfold pieceContent at h
  split_ifs at h
  cases h
  rfl

/-- The two parts of a forest at a text node are a split of it. -/
theorem isSplit_parts {c : Node Tag Content} {left right : NSString} (hn : O.ids.Nodup)
    (hcut : O.find? cut = some c) (hc : c.label = .inr (.text (left ++ right)))
    (hne : left ++ right ≠ []) :
    IsSplit O cut left right (headPart cut (pieceContent left) O)
      (tailPart cut (pieceContent right) O) := by
  obtain ⟨q⟩ := nonempty_leafCut 0 hcut hc
  have hH : (headPart cut (pieceContent left) O).ids =
      q.front.map Entry.id ++ if left = [] then [] else [cut] := by
    rw [← map_id_entries 0, q.entries_head, map_append, map_id_leafEntry_pieceContent]
  have hT : (tailPart cut (pieceContent right) O).ids =
      q.above.map Entry.id ++ ((if right = [] then [] else [cut]) ++ q.behind.map Entry.id) := by
    rw [← map_id_entries 0, q.entries_tail, map_append, map_append,
      map_id_leafEntry_pieceContent]
  have hnd := hn
  rw [q.ids_eq, nodup_append, nodup_cons] at hnd
  have hAP : ∀ x ∈ q.above.map Entry.id, x ∈ q.front.map Entry.id :=
    (q.above_sublist.map Entry.id).subset
  have hpie : ∀ (piece : NSString) (x : NodeID),
      x ∈ (if piece = [] then [] else [cut]) ↔ x = cut ∧ piece ≠ [] := by
    intro piece x
    split_ifs with h <;> simp [h]
  have hPcut : cut ∉ q.front.map Entry.id := fun h => hnd.2.2 cut h cut (by simp) rfl
  have hHn := (ids_headPart_sublist cut (pieceContent left) O).nodup hn
  have hTn := (ids_tailPart_sublist cut (pieceContent right) O).nodup hn
  refine ⟨by simp [hcut, hc], ids_headPart_sublist _ _ _, ids_tailPart_sublist _ _ _,
    ?_, ?_, fun x hx => path?_headPart hx, fun x hx => path?_tailPart hn hx,
    fun x hx => find?_label_of_part hn hHn (k := 0) (fun e h => ?_) hx,
    fun x hx => find?_label_of_part hn hTn (k := 0) (fun e h => ?_) hx⟩
  · intro x hx
    rw [hH, hT]
    simp only [q.ids_eq, mem_append, mem_cons, hpie] at hx ⊢
    rcases hx with hx | rfl | hx
    · exact .inl (.inl hx)
    · by_cases hl : left = []
      · exact .inr (.inr (.inl ⟨rfl, fun hr => hne (by rw [hl, hr]; rfl)⟩))
      · exact .inl (.inr ⟨rfl, hl⟩)
    · exact .inr (.inr (.inr hx))
  · intro x
    rw [hH, hT, q.path?_eq]
    simp only [mem_append, hpie]
    constructor
    · rintro ⟨hP | ⟨rfl, hl⟩, hA | ⟨hx, hr⟩ | hQ⟩
      · exact .inl hA
      · exact absurd (hx ▸ hP) hPcut
      · exact absurd rfl (hnd.2.2 x hP x (by simp [hQ]))
      · exact absurd (hAP _ hA) hPcut
      · exact .inr ⟨rfl, hl, hr⟩
      · exact absurd hQ hnd.2.1.1
    · rintro (hA | ⟨hx, hl, hr⟩)
      · exact ⟨.inl (hAP _ hA), .inl hA⟩
      · exact ⟨.inr ⟨hx, hl⟩, .inr (.inl ⟨hx, hr⟩)⟩
  · rcases q.mem_head h with h | ⟨d, hd, rfl⟩
    · exact .inr (q.mem_entries hn (.inl h))
    · exact .inl ⟨rfl, label_of_pieceContent hd⟩
  · rcases q.mem_tail h with h | h | ⟨d, hd, rfl⟩
    · exact .inr (q.mem_entries hn (.inl (q.above_sublist.subset h)))
    · exact .inr (q.mem_entries hn (.inr h))
    · exact .inl ⟨rfl, label_of_pieceContent hd⟩

theorem listingText_leafEntry_pieceContent (l cut : ℕ) (piece : NSString) :
    listingText (leafEntry l cut (pieceContent piece)) = piece := by
  unfold pieceContent
  split_ifs with h
  · exact h.symm
  · simp [leafEntry, ownText]

/-- The text of the two parts. -/
theorem text_parts {k l : ℕ} {s : NSString} {P Q : Listing} (hn : O.ids.Nodup)
    (h : O.entries k = P ++ ⟨l, cut, .inr (.text s)⟩ :: Q) (left right : NSString) :
    text (headPart cut (pieceContent left) O) = listingText P ++ left ∧
      text (tailPart cut (pieceContent right) O) = right ++ listingText Q := by
  obtain ⟨c, hcut, hc⟩ := find?_label_of_entries hn h
  obtain ⟨q⟩ := nonempty_leafCut k hcut hc
  have hn' : ((P ++ ⟨l, cut, .inr (.text s)⟩ :: Q).map Entry.id).Nodup := by
    rw [← h, map_id_entries]
    exact hn
  obtain ⟨rfl, -, rfl⟩ := split_unique hn' (h.symm.trans q.entries_eq) rfl
  have habv : listingText q.above = [] := listingText_of_not_isText fun a ha => by
    obtain ⟨b, hb⟩ := q.label_above a ha
    simp [isText, hb, kind]
  constructor
  · rw [← listingText_entries k, q.entries_head, listingText_append,
      listingText_leafEntry_pieceContent]
  · rw [← listingText_entries k, q.entries_tail, listingText_append, listingText_append, habv,
      listingText_leafEntry_pieceContent, List.nil_append]

theorem text_anonymous (f : Nodes) : text f.anonymous = text f := by
  induction f with
  | nil => rfl
  | branch i b cs r ihc ihr => simp [anonymous, text, ihc, ihr]
  | leaf i c r ih => simp [anonymous, text, ih]

/-- The element `x` of `w'` is a copy of `self` with the children `f`. -/
def IsCopy (w : World) (self : NodeID) (w' : World) (x : NodeID) (f : Nodes) : Prop :=
  ∃ t cs ds, w.node? self = some ⟨self, .inl t, cs⟩ ∧ w'.node? x = some ⟨x, .inl (copyTag t), ds⟩ ∧
    ds.anonymous = f.anonymous

theorem IsCopy.text_children {w' : World} {f : Nodes} (h : IsCopy w self w' x f) :
    text (w'.children x) = text f := by
  obtain ⟨t, cs, ds, -, hx, hds⟩ := h
  rw [World.children_of_node? hx, ← text_anonymous, hds, text_anonymous]

theorem node?_halves {w' : World} {head tail : NodeID} {hs ts : Nodes}
    (h : w'.trees = w.trees ++ (.branch head t hs .nil ++ .branch tail t ts .nil)) :
    w'.node? head = some ⟨head, .inl t, hs⟩ ∧ w'.node? tail = some ⟨tail, .inl t, ts⟩ := by
  have hnd := w'.nodup
  simp only [h, ids_append, nodup_append] at hnd
  have hhead : head ∉ w.trees.ids := fun hx => hnd.2.2 head hx head (by simp) rfl
  have htail : tail ∉ w.trees.ids := fun hx => hnd.2.2 tail hx tail (by simp) rfl
  have hne : tail ∉ (branch head t hs .nil : Nodes).ids := fun hx =>
    hnd.2.1.2.2 tail (by simpa using hx) tail (by simp) rfl
  constructor
  · rw [World.node?, h, find?_append_of_notMem hhead, find?_append_of_mem (by simp),
      find?_branch, if_pos rfl]
  · rw [World.node?, h, find?_append_of_notMem htail, find?_append_of_notMem hne,
      find?_branch, if_pos rfl]

/-- The halves are copies of the two parts of the receiver, after adjacent texts have been
coalesced.  Where the anchor has no text, or the offset lies beyond it, the answer is `nil`. -/
theorem splitAtInnerXMLElementXPath_correct (cocoa : Cocoa) {w : World} {self anchor : NodeID}
    {xPath : Option NSString} {n : ℕ} (hself : w.kind? self = some .element)
    (hO : ElementsAndText (w.children self)) (hx : ExplicitSpace (w.children self))
    (hanchor : splitAnchorElement cocoa (w.normalizeAdjacentTextNodes self) self xPath = .ok anchor)
    (hbelow : anchor = self ∨ anchor ∈ (w.children self).ids)
    (hkind : w.kind? anchor = some .element)
    (hfits : (text (w.children anchor)).length < nsIntegerMax) :
    (text (w.children anchor) ≠ [] → n ≤ (text (w.children anchor)).length →
      ∃ w' head tail cut left right H T, exec (splitAtInnerXMLElementXPath cocoa self xPath n) w =
          some (.ok (.ok (head, tail), w')) ∧ IsCopy w self w' head H ∧ IsCopy w self w' tail T ∧
        IsSplit (normalized (w.children self)) cut left right H T ∧
        text (w'.children head) ++ text (w'.children tail) = text (w.children self) ∧
        (text (w'.children head)).length = w.textLengthBefore self anchor + n) ∧
    (text (w.children anchor) = [] ∨
        (text (w.children anchor)).length < n ∧ (n : ℤ) ≠ mpTextContentOffsetEnd →
      ∃ e w', exec (splitAtInnerXMLElementXPath cocoa self xPath n) w = some (.ok (.error e, w'))) := by
  obtain ⟨t, O, hnode⟩ := World.exists_element hself
  have hnode' := World.node?_normalizeAdjacentTextNodes hnode
  have hcs : w.children self = O := World.children_of_node? hnode
  have hcs' : (w.normalizeAdjacentTextNodes self).children self = normalized O :=
    World.children_of_node? hnode'
  obtain ⟨hbel', -, hanc', hbef⟩ :=
    World.normalizeAdjacentTextNodes_below hself hbelow hkind
  rw [hcs] at hO hx
  have hx' : ExplicitSpace ((w.normalizeAdjacentTextNodes self).children self) :=
    hcs' ▸ explicitSpace_normalized hx
  have hprep := exec_enforceExplicitPreservedSpace cocoa hx'
  rw [exec_splitAtInnerXMLElementXPath cocoa (Int.natCast_nonneg n) hprep hanchor]
  constructor
  · intro htext hn
    obtain ⟨cut, s, p, i, w', head, tail, hs, ts, hrun, hw', hhs, hts, hlen, hi⟩ :=
      exec_splitAtAnchor_of_hasText (n := n) cocoa hnode' hbel' (elementsAndText_normalized hO)
        (explicitSpace_normalized hx)
        (by rwa [hanc', hasText_iff_of_normal (normal_normalized _), text_normalized])
        (by rwa [hanc', text_normalized]) (by rwa [hanc', text_normalized])
    have hnd := (children_nodup (w.normalizeAdjacentTextNodes self).nodup hnode').1
    have hpos := p.children
    rw [hcs'] at hpos
    obtain ⟨c, hcut, hc⟩ := find?_label_of_entries hnd hpos
    have hnor := normal_normalized O
    have hs' := anonymous_normalized_congr hhs
    have ts' := anonymous_normalized_congr hts
    rw [normalized_headPart hnor hcut hc] at hs'
    rw [normalized_tailPart hnor hcut hc] at ts'
    obtain ⟨hhead, htail⟩ := node?_halves hw'
    have hH : IsCopy w self w' head _ := ⟨t, O, _, hnode, hhead, hs'⟩
    have hT : IsCopy w self w' tail _ := ⟨t, O, _, hnode, htail, ts'⟩
    have hc' : c.label = .inr (.text (s.take i ++ s.drop i)) := by rw [hc, take_append_drop]
    have hspl := isSplit_parts hnd hcut hc'
      (by rw [take_append_drop]; exact ne_nil_of_normal hnor hcut hc)
    obtain ⟨htH, htT⟩ := text_parts hnd hpos (s.take i) (s.drop i)
    have htO := p.text_eq
    rw [hcs', text_normalized, ← hcs] at htO
    refine ⟨w', head, tail, cut, s.take i, s.drop i, _, _, hrun, hH, hT, hcs ▸ hspl, ?_, ?_⟩
    · rw [hH.text_children, hT.text_children, htH, htT, htO, List.append_assoc, ← List.append_assoc _ _
        (listingText p.tail), take_append_drop]
    · rw [hH.text_children, htH, length_append, length_take, Nat.min_eq_left hi, hlen,
        hbef]
  · intro hnone
    refine ⟨_, _, exec_splitAtAnchor_none cocoa (mem_of_find? hnode') hbel'
      (hcs' ▸ explicitSpace_normalized hx) ?_⟩
    rw [hanc']
    rcases hnone with hnil | ⟨hlt, hend⟩
    · refine textNodeAt_of_not_isText (isText_eq_false_of_not_hasText ?_ 0) _ _
      rwa [hasText_iff_of_normal (normal_normalized _), text_normalized, not_not]
    · rw [textNodeAt_beyond _ (by rwa [listingText_entries, text_normalized]) hend]

theorem splitAtInnerXMLElementXPath_division :
    ∃ w' head tail cut left right H T,
      exec (splitAtInnerXMLElementXPath .inert 0 none 3) sampleDivision =
        some (.ok (.ok (head, tail), w')) ∧
      IsCopy sampleDivision 0 w' head H ∧ IsCopy sampleDivision 0 w' tail T ∧
      IsSplit (normalized (sampleDivision.children 0)) cut left right H T ∧
      text (w'.children head) ++ text (w'.children tail) = text (sampleDivision.children 0) ∧
      (text (w'.children head)).length = sampleDivision.textLengthBefore 0 0 + 3 :=
  (splitAtInnerXMLElementXPath_correct (w := sampleDivision) (n := 3) .inert (by decide) (by decide)
    (by decide) rfl (.inl rfl) (by decide) (by decide)).1 (by decide) (by decide)

/-- `<p></p>` with an empty text node. -/
def sampleBlank : World where
  trees := .branch 0 (plainTag (literal "p") []) (.leaf 1 (.text []) .nil) .nil
  nodup := by decide

/-- `<p>ab</p>` -/
def sampleParagraph : World where
  trees := .branch 0 (plainTag (literal "p") []) (.leaf 1 (.text (literal "ab")) .nil) .nil
  nodup := by decide

/-- An empty text node does not count; the text node at whose beginning the cut lies is only in the
tail; and `MPTextContentOffsetEnd` is not answered with `nil`. -/
theorem splitAtInnerXMLElementXPath_boundary :
    (HasText (sampleBlank.children 0) ∧ ∃ e w',
      exec (splitAtInnerXMLElementXPath .inert 0 none 0) sampleBlank = some (.ok (.error e, w'))) ∧
    (∃ w' head tail, exec (splitAtInnerXMLElementXPath .inert 0 none 0) sampleParagraph =
        some (.ok (.ok (head, tail), w')) ∧
      w'.children head = .nil ∧ (w'.children tail).labels = [.inr (.text (literal "ab"))]) ∧
    exec (splitAtInnerXMLElementXPath .inert 0 none mpTextContentOffsetEnd) sampleParagraph =
      some (.error .range) :=
  ⟨⟨by decide, _, _, rfl⟩, ⟨_, _, _, rfl, by decide, by decide⟩, rfl⟩

end Feather.XML
