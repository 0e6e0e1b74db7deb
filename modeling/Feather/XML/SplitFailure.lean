import Feather.XML.Split

/-!
# Where splitting an element fails

`recreateSplitSubtree` finds the copy of a node by its index in the list of the original nodes.  No
copy is made of comments and the like, so one of these shifts the copies behind it and the last
index lies outside the array.
-/

namespace Feather.XML

open OrderedTree Forest Program Option
open List hiding append_assoc append_nil find?_append nil_append

/-! ### An index outside of the array -/

section Hierarchy

variable {F g : Nodes} {w : World} {self : NodeID} {L N : List NodeID}

/-- Attaching new nodes to each other leaves the others alone, if it succeeds. -/
theorem exec_addChild_frame {p c : NodeID} (hw : w.trees = F ++ g) (hp : p ∉ F.ids) (hc : c ∉ F.ids) :
    (∃ e, exec (addChild p c) w = some (.error e)) ∨
      ∃ w' g', exec (addChild p c) w = some (.ok ((), w')) ∧ w'.trees = F ++ g' := by
  by_cases h : w.kind? p ≠ some .element ∨ w.parent? c ≠ none
  · left
    exact ⟨.invalidArgument, by simp [addChild, insertChild, h]⟩
  · right
    refine ⟨w.attach p (w.children p).rootIDs.length c, g.attach p (w.children p).rootIDs.length c,
      by simp [addChild, insertChild, h], ?_⟩
    show w.trees.attach _ _ _ = _
    rw [hw, attach_append_right hp hc]

theorem exec_recreateHierarchy_error (hN : ∀ y ∈ N, y ∉ F.ids) {pre post : List NodeID} {x : NodeID}
    (hmem : ∀ y ∈ pre ++ x :: post, y ∈ F.ids) (hx : x ≠ self) {i : ℕ}
    (hbad : N.length ≤ i + pre.length ∨ ∃ a, F.parent? x = some a ∧ a ∈ L ∧ N.length ≤ L.idxOf a)
    (hw : w.trees = F ++ g) :
    ∃ e, exec (recreateHierarchy self L N i (pre ++ x :: post)) w = some (.error e) := by
  induction pre generalizing w g i with
  | nil =>
    rw [List.nil_append, recreateHierarchy, exec_get_bind, if_neg hx,
      w.parent?_of_append hw (hmem x (by simp))]
    rcases hbad with hlen | ⟨a, ha, haL, hlen⟩
    · cases (F.parent? x).bind fun p => indexOfObject L p with
      | none => exact ⟨_, rfl⟩
      | some k =>
        dsimp only
        rw [getElem?_eq_none (l := N) (i := i) (by simpa using hlen)]
        cases N[k]? <;> exact ⟨_, rfl⟩
    · rw [ha, bind_some, indexOfObject_of_mem haL]
      dsimp only
      rw [getElem?_eq_none (l := N) (i := L.idxOf a) hlen]
      exact ⟨_, rfl⟩
  | cons y pre ih =>
    have hmem' : ∀ z ∈ pre ++ x :: post, z ∈ F.ids := fun z hz => hmem z (by simp [hz])
    have hbad' : N.length ≤ i + 1 + pre.length ∨
        ∃ a, F.parent? x = some a ∧ a ∈ L ∧ N.length ≤ L.idxOf a := by
      refine hbad.imp_left fun h => ?_
      rw [length_cons] at h
      omega
    rw [cons_append, recreateHierarchy, exec_get_bind]
    by_cases hy : y = self
    · rw [if_pos hy]
      exact ih hmem' hbad' hw
    · rw [if_neg hy]
      cases (w.parent? y).bind fun p => indexOfObject L p with
      | none => exact ⟨_, rfl⟩
      | some k =>
        dsimp only
        cases hp : N[k]? with
        | none => exact ⟨_, rfl⟩
        | some p =>
          cases hc : N[i]? with
          | none => exact ⟨_, rfl⟩
          | some c =>
            rw [exec_bind]
            rcases exec_addChild_frame hw (hN p (mem_of_getElem? hp))
              (hN c (mem_of_getElem? hc)) with ⟨e, he⟩ | ⟨w', g', hrun, hw'⟩
            · exact ⟨e, by rw [he, andThen_error]⟩
            · rw [hrun]
              exact ih hmem' hbad' hw'

end Hierarchy

section Error

variable {w : World} {self cut : NodeID} {n : Node Tag Content} {t : Tag} {s : NSString} {i : ℕ}

theorem length_newLabels_lt {F : Nodes} {piece : NSString} {L : List NodeID} {x : NodeID}
    {m : Node Tag Content} (hx : x ∈ L) (hm : F.find? x = some m)
    (hr : recreated cut piece x m.label = none) : (newLabels F cut piece L).length < L.length := by
  obtain ⟨pre, post, rfl⟩ := append_of_mem hx
  have h1 := length_newLabels_le F cut piece pre
  have h2 := length_newLabels_le F cut piece post
  have h : newLabels F cut piece (pre ++ x :: post) =
      newLabels F cut piece pre ++ newLabels F cut piece post := by
    rw [newLabels, filterMap_append]
    exact congrArg _ (newLabels_cons_of_none hm hr post)
  rw [h, length_append, length_append, length_cons]
  omega

theorem exec_recreateSplitSubtree_error (cocoa : Cocoa) (hself : w.node? self = some n)
    (q : LeafCut n.children 1 cut (.text s)) (hi : i ≤ s.length) (hmax : i ≤ nsIntegerMax)
    (isHead : Bool) {L pre post : List NodeID} {x y : NodeID} {m : Node Tag Content}
    (hL : L = pre ++ x :: post) (hmem : ∀ y ∈ L, y ∈ w.trees.ids) (hx : x ≠ self) (hy : y ∈ L)
    (hm : w.trees.find? y = some m) (hk : ¬ (kind m.label = .element ∨ kind m.label = .text))
    (hbad : L.length ≤ pre.length + 1 ∨
      ∃ a, w.trees.parent? x = some a ∧ a ∈ L ∧ L.length ≤ L.idxOf a + 1) :
    ∃ e, exec (recreateSplitSubtree cocoa self L cut i isHead) w = some (.error e) := by
  obtain ⟨c, hcut, hc⟩ := find?_label_of_entries (children_nodup w.nodup hself).1
    q.entries_eq
  have hcu : ∀ m, w.trees.find? cut = some m → m.label = .inr (.text s) := by
    intro m hm
    rw [find?_of_find?_children w.nodup hself hcut] at hm
    cases hm
    exact hc
  obtain ⟨w1, root, hcopy, hw1, -⟩ := exec_recreateNodes self (g := .nil) hi hmax isHead
    hcu (append_nil _).symm hmem [] none
  have hnone : recreated cut (if isHead then s.take i else s.drop i) y m.label = none := by
    rcases hl : m.label with u | u | ⟨k, u⟩
    · simp [hl, kind] at hk
    · simp [hl, kind] at hk
    · rfl
  have hlt := length_newLabels_lt hy hm hnone
  obtain ⟨e, he⟩ := exec_recreateHierarchy_error (L := L) (i := 0)
    (N := range' w.trees.fresh
      (newLabels w.trees cut (if isHead then s.take i else s.drop i) L).length)
    (fun z hz hzF => by
      have := lt_fresh hzF
      rw [mem_range'_1] at hz
      omega)
    (hL ▸ hmem) hx
    (by
      rw [length_range']
      rcases hbad with h | ⟨a, ha, haL, h⟩
      · exact .inl (by omega)
      · exact .inr ⟨a, ha, haL, by omega⟩) hw1
  refine ⟨e, ?_⟩
  rw [recreateSplitSubtree, exec_bind, hcopy, andThen_ok, List.nil_append, exec_bind]
  rw [← hL] at he
  rw [he, andThen_error]

theorem exists_top (hself : w.node? self = some n) (q : LeafCut n.children 1 cut (.text s)) :
    ∃ x ∈ q.above.map Entry.id ++ [cut], w.trees.parent? x = some self := by
  obtain ⟨p, -, hbel⟩ := path?_of_find?_children w.nodup hself
  have hpath := hbel cut _ q.path?_eq
  cases habv : q.above.map Entry.id with
  | nil =>
    refine ⟨cut, by simp, ?_⟩
    rw [parent?, hpath, habv]
    simp
  | cons a A =>
    refine ⟨a, by simp, ?_⟩
    rw [habv, show p ++ self :: a :: A = (p ++ [self]) ++ a :: A by simp] at hpath
    rw [parent?, path?_of_path?_append w.nodup hpath]
    simp

theorem find?_of_mem_cut (hself : w.node? self = some n)
    (q : LeafCut n.children 1 cut (.text s)) {e : Entry Tag Content}
    (he : e ∈ q.front ∨ e ∈ q.behind) :
    ∃ m, w.trees.find? e.id = some m ∧ m.label = e.label := by
  have hnd := (children_nodup w.nodup hself).1
  obtain ⟨X, Y, hXY⟩ := append_of_mem (q.mem_entries hnd he).2
  obtain ⟨m, hm, hlab⟩ := find?_label_of_entries hnd hXY
  exact ⟨m, find?_of_find?_children w.nodup hself hm, hlab⟩

/-- A node of another kind in front of the cut makes the copies of the head fall short. -/
theorem exec_recreateSplitSubtree_head_error (cocoa : Cocoa) (hself : w.node? self = some n)
    (q : LeafCut n.children 1 cut (.text s)) (hi : i ≤ s.length) (hmax : i ≤ nsIntegerMax)
    {d : Entry Tag Content} (hd : d ∈ q.front)
    (hk : ¬ (kind d.label = .element ∨ kind d.label = .text)) :
    ∃ e, exec (recreateSplitSubtree cocoa self (self :: (q.front.map Entry.id ++ [cut])) cut i true) w =
      some (.error e) := by
  have hsub := children_subset hself
  have hnot := (children_nodup w.nodup hself).2
  rw [q.ids_eq] at hsub hnot
  obtain ⟨m, hm, hlab⟩ := find?_of_mem_cut hself q (.inl hd)
  refine exec_recreateSplitSubtree_error cocoa hself q hi hmax true (m := m) (y := d.id) (x := cut)
    (show _ = (self :: q.front.map Entry.id) ++ cut :: [] from rfl) ?_ (fun h => hnot (by simp [h]))
    (by simpa using .inr (.inl ⟨d, hd, rfl⟩)) hm (hlab ▸ hk) (.inl (by simp))
  intro y hy
  rcases mem_cons.1 hy with rfl | hy
  · exact mem_of_find? hself
  · refine hsub ?_
    rcases mem_append.1 hy with hy | hy
    · exact mem_append_left _ hy
    · simp [mem_singleton.1 hy]

/-- A node of another kind behind the cut makes the copies of the tail fall short: the receiver is
its last node, with a child. -/
theorem exec_recreateSplitSubtree_tail_error (cocoa : Cocoa) (hself : w.node? self = some n)
    (q : LeafCut n.children 1 cut (.text s)) (hi : i ≤ s.length) (hmax : i ≤ nsIntegerMax)
    {d : Entry Tag Content} (hd : d ∈ q.behind)
    (hk : ¬ (kind d.label = .element ∨ kind d.label = .text)) :
    ∃ e, exec (recreateSplitSubtree cocoa self
      (cut :: q.above.reverse.map Entry.id ++ q.behind.map Entry.id ++ [self]) cut i false) w =
      some (.error e) := by
  have hsub := children_subset hself
  have hnot := (children_nodup w.nodup hself).2
  have hfro : ∀ y ∈ cut :: q.above.reverse.map Entry.id ++ q.behind.map Entry.id,
      y ∈ n.children.ids := by
    intro y hy
    have habv := (q.above_sublist.map Entry.id).subset (a := y)
    rw [q.ids_eq]
    simp only [map_reverse, mem_cons, mem_append, mem_reverse] at hy ⊢
    tauto
  obtain ⟨m, hm, hlab⟩ := find?_of_mem_cut hself q (.inr hd)
  obtain ⟨x, hx, hpar⟩ := exists_top hself q
  have hxL : x ∈ cut :: q.above.reverse.map Entry.id ++ q.behind.map Entry.id := by
    simp only [map_reverse, mem_cons, mem_append, mem_reverse] at hx ⊢
    tauto
  obtain ⟨pre, post, hpre⟩ := append_of_mem (mem_append_left [self] hxL)
  refine exec_recreateSplitSubtree_error cocoa hself q hi hmax false (m := m) (y := d.id) hpre ?_
    (fun h => hnot (h ▸ hfro x hxL)) ?_ hm (hlab ▸ hk) (.inr ⟨self, hpar, by simp, ?_⟩)
  · intro y hy
    rcases mem_append.1 hy with hy | hy
    · exact hsub (hfro y hy)
    · rw [mem_singleton.1 hy]
      exact mem_of_find? hself
  · exact mem_append_left _ (mem_append_right _ (mem_map_of_mem hd))
  · rw [idxOf_append_of_notMem fun h => hnot (hfro self h)]
    simp
    omega

/-- A node of another kind anywhere in the subtree makes the split raise an exception. -/
theorem exec_splitAtTextNode_error (cocoa : Cocoa) (hself : w.node? self = some n)
    (ht : n.label = .inl t) (q : LeafCut n.children 1 cut (.text s))
    (hO : ¬ ElementsAndText n.children) (hx : ExplicitSpace n.children) (hi : i ≤ s.length)
    (hmax : i ≤ nsIntegerMax) :
    ∃ e, exec (splitAtTextNode cocoa self cut i) w = some (.error e) := by
  by_cases hfro : ∀ e ∈ q.front, kind e.label = .element ∨ kind e.label = .text
  · -- the head can be recreated, but the tail cannot
    obtain ⟨w1, head, hs, hrun₁, hw1, -⟩ := exec_recreateSplitSubtree_head cocoa hself ht hx q hfro
      hi hmax
    have hself₁ : w1.node? self = some n := by
      rw [World.node?, hw1, find?_append_of_mem (mem_of_find? hself)]
      exact hself
    obtain ⟨d, hd, hk⟩ : ∃ d ∈ q.behind, ¬ (kind d.label = .element ∨ kind d.label = .text) := by
      by_contra hbehind
      refine hO fun b hb => ?_
      rw [← map_label_entries 1, q.entries_eq] at hb
      obtain ⟨e, he, rfl⟩ := mem_map.1 hb
      rcases mem_append.1 he with he | he
      · exact hfro e he
      · rcases mem_cons.1 he with rfl | he
        · exact .inr rfl
        · by_contra hk
          exact hbehind ⟨e, he, hk⟩
    obtain ⟨e, he⟩ := exec_recreateSplitSubtree_tail_error cocoa hself₁ q hi hmax hd hk
    refine ⟨e, ?_⟩
    simp only [splitAtTextNode, exec_bind, exec_get, andThen_ok, hself, visit_gatherNodes hself q,
      hrun₁, he, andThen_error]
  · push Not at hfro
    obtain ⟨d, hd, hk⟩ := hfro
    obtain ⟨e, he⟩ := exec_recreateSplitSubtree_head_error cocoa hself q hi hmax hd (by simpa using hk)
    refine ⟨e, ?_⟩
    simp only [splitAtTextNode, exec_bind, exec_get, andThen_ok, hself, visit_gatherNodes hself q, he,
      andThen_error]

end Error

/-- The halves are copies of nodes of the receiver, each below that of its parent. -/
def SplitsInto (w₁ : World) (self : NodeID) (w' : World) (head tail : NodeID) : Prop :=
  ∃ cut left right H T, PartOf (w₁.children self) cut left H ∧ PartOf (w₁.children self) cut right T ∧
    IsCopy w₁ self w' head (normalized H) ∧ IsCopy w₁ self w' tail (normalized T)

/-- The nodes of a prepared receiver are attached to the copies of their own parents exactly if all
are elements and text nodes. -/
theorem splitAtInnerXMLElementXPath_attached_iff (cocoa : Cocoa) {w w₁ : World} {self anchor : NodeID}
    {xPath : Option NSString} {n : ℕ}
    (hprep : exec (enforceExplicitPreservedSpace cocoa self) (w.normalizeAdjacentTextNodes self) =
      some (.ok ((), w₁)))
    (hself : w₁.kind? self = some .element) (hx : ExplicitSpace (w₁.children self))
    (hanchor : splitAnchorElement cocoa w₁ self xPath = .ok anchor)
    (hbelow : anchor = self ∨ anchor ∈ (w₁.children self).ids) (htext : HasText (w₁.children anchor))
    (hn : n ≤ (text (w₁.children anchor)).length)
    (hfits : (text (w₁.children anchor)).length < nsIntegerMax) :
    (∃ w' head tail, exec (splitAtInnerXMLElementXPath cocoa self xPath n) w =
        some (.ok (.ok (head, tail), w')) ∧ SplitsInto w₁ self w' head tail) ↔
      ElementsAndText (w₁.children self) := by
  obtain ⟨t, O, hnode⟩ := World.exists_element hself
  have hcs : w₁.children self = O := World.children_of_node? hnode
  rw [exec_splitAtInnerXMLElementXPath cocoa (Int.natCast_nonneg n) hprep hanchor]
  constructor
  · rintro ⟨w', head, tail, hrun, -⟩
    by_contra hO
    obtain ⟨cut, s, p, i, hexec, -, hi, hin, -, -⟩ := exists_textNodePosition cocoa
      (mem_of_find? hnode) hbelow hx htext hn hfits nsNotFound
    have hpos := p.children
    rw [hcs] at hpos hO hx
    obtain ⟨c, hcut, hc⟩ := find?_label_of_entries
      (children_nodup w₁.nodup hnode).1 hpos
    obtain ⟨q⟩ := nonempty_leafCut 1 hcut hc
    obtain ⟨e, he⟩ := exec_splitAtTextNode_error cocoa hnode rfl q hO hx hi (by omega)
    rw [exec_splitAtAnchor cocoa hexec, he] at hrun
    cases hrun
  · intro hO
    rw [hcs] at hO hx
    obtain ⟨cut, s, p, i, w', head, tail, hs, ts, hrun, hw', hhs, hts, -, -⟩ :=
      exec_splitAtAnchor_of_hasText cocoa hnode hbelow hO hx htext hn hfits
    have hnd := (children_nodup w₁.nodup hnode).1
    have hpos := p.children
    rw [hcs] at hpos
    obtain ⟨c, hcut, hc⟩ := find?_label_of_entries hnd hpos
    obtain ⟨q⟩ := nonempty_leafCut 1 hcut hc
    have hk : ∀ e, e ∈ q.front ∨ e ∈ q.behind → kind e.label = .element ∨ kind e.label = .text := by
      intro e he
      refine hO _ ?_
      rw [← map_label_entries 1]
      exact mem_map_of_mem (q.mem_entries hnd he).2
    obtain ⟨hhead, htail⟩ := node?_halves hw'
    refine ⟨w', head, tail, hrun, cut, s.take i, s.drop i, _, _, ?_, ?_,
      ⟨t, O, _, hnode, hhead, anonymous_normalized_congr hhs⟩,
      ⟨t, O, _, hnode, htail, anonymous_normalized_congr hts⟩⟩
    · rw [hcs]
      exact partOf_headPart hnd hx q (fun e he => hk e (.inl he)) _
    · rw [hcs]
      exact partOf_tailPart hnd hx q (fun e he => hk e (.inr he)) _

theorem splitAtInnerXMLElementXPath_attached :
    ∃ w' head tail, exec (splitAtInnerXMLElementXPath .inert 0 none 3) sampleDivision =
        some (.ok (.ok (head, tail), w')) ∧
      SplitsInto (sampleDivision.normalizeAdjacentTextNodes 0) 0 w' head tail :=
  (splitAtInnerXMLElementXPath_attached_iff (w := sampleDivision) (n := 3) .inert
    (exec_enforceExplicitPreservedSpace .inert (by decide)) (by decide) (by decide) rfl (.inl rfl)
    (by decide) (by decide) (by decide)).2 (by decide)

/-- `<p>ab<!--x-->cd</p>` -/
def sampleComment : World where
  trees := .branch 0 (plainTag (literal "p") [])
    (.leaf 1 (.text (literal "ab")) (.leaf 2 (.other .comment (literal "x"))
      (.leaf 3 (.text (literal "cd")) .nil))) .nil
  nodup := by decide

/-- A comment behind the cut, and one in front of it. -/
theorem splitAtInnerXMLElementXPath_comment :
    exec (splitAtInnerXMLElementXPath .inert 0 none 1) sampleComment = some (.error .range) ∧
      exec (splitAtInnerXMLElementXPath .inert 0 none 3) sampleComment = some (.error .range) :=
  ⟨rfl, rfl⟩

/-! ### The offset `MPTextContentOffsetEnd` -/

section End

variable {w : World} {self cut : NodeID} {n : Node Tag Content} {s : NSString}

theorem exec_recreateNode_of_ne {x : NodeID} (hx : w.node? x = some n) (hne : x ≠ cut) (offset : ℤ)
    (isHead : Bool) :
    ∃ r w' g, exec (recreateNode cut offset isHead x) w = some (.ok (r, w')) ∧
      w'.trees = w.trees ++ g := by
  rw [recreateNode, exec_get_bind, hx, map_some]
  rcases n.label with t | u | ⟨k, u⟩
  · exact ⟨_, _, _, rfl, rfl⟩
  · simp only [if_neg hne]
    exact ⟨_, _, _, rfl, rfl⟩
  · exact ⟨none, w, .nil, rfl, (append_nil _).symm⟩

theorem exec_recreateNodes_end (self : NodeID) {F g : Nodes} {pre : List NodeID}
    (post : List NodeID) {c : Node Tag Content}
    (hw : w.trees = F ++ g) (hpre : ∀ x ∈ pre, x ∈ F.ids ∧ x ≠ cut) (hcut : F.find? cut = some c)
    (hc : c.label = .inr (.text s)) (hs : s.length < nsIntegerMax) (new : List NodeID)
    (root : Option NodeID) :
    exec (recreateNodes self cut mpTextContentOffsetEnd true (pre ++ cut :: post) new root) w =
      some (.error .range) := by
  induction pre generalizing w g new root with
  | nil =>
    have hnode : w.node? cut = some c := by
      rw [World.node?, hw, find?_append, hcut, some_or]
    have hpart : exec (splitPart s mpTextContentOffsetEnd true) w = some (.error .range) := by
      have : asUnsigned mpTextContentOffsetEnd = nsIntegerMax := asUnsigned_natCast le_rfl
      simp [splitPart, substringToIndex, this, hs]
    rw [List.nil_append, recreateNodes, exec_bind, recreateNode, exec_get_bind, hnode, map_some, hc]
    simp [hpart]
  | cons x pre ih =>
    obtain ⟨hx, hne⟩ := hpre x (by simp)
    obtain ⟨m, hm⟩ := exists_find?_of_mem hx
    have hnode : w.node? x = some m := by
      rw [World.node?, hw, find?_append, hm, some_or]
    have hpre' : ∀ x ∈ pre, x ∈ F.ids ∧ x ≠ cut := fun y hy => hpre y (by simp [hy])
    obtain ⟨r, w', g', hrun, hw'⟩ := exec_recreateNode_of_ne hnode hne mpTextContentOffsetEnd true
    rw [hw, append_assoc] at hw'
    rw [cons_append, recreateNodes, exec_bind, hrun]
    cases r with
    | none => exact ih hw' hpre' new root
    | some y => exact ih hw' hpre' _ _

/-- The offset is used as an index into the text node, beyond its end. -/
theorem exec_splitAtTextNode_end (cocoa : Cocoa) (hself : w.node? self = some n)
    (q : LeafCut n.children 1 cut (.text s)) (hs : s.length < nsIntegerMax) :
    exec (splitAtTextNode cocoa self cut mpTextContentOffsetEnd) w = some (.error .range) := by
  obtain ⟨hnd, hnot⟩ := children_nodup w.nodup hself
  have hsub := children_subset hself
  obtain ⟨c, hcut, hc⟩ := find?_label_of_entries hnd q.entries_eq
  rw [q.ids_eq, nodup_append] at hnd
  rw [q.ids_eq] at hsub hnot
  have hnos := exec_recreateNodes_end self (g := .nil) [] (append_nil _).symm
    (show ∀ x ∈ self :: q.front.map Entry.id, x ∈ w.trees.ids ∧ x ≠ cut from fun x hx => by
      rcases mem_cons.1 hx with rfl | hx
      · exact ⟨mem_of_find? hself, fun h => hnot (by simp [h])⟩
      · exact ⟨hsub (mem_append_left _ hx), hnd.2.2 x hx cut (by simp)⟩)
    (find?_of_find?_children w.nodup hself hcut) hc hs [] none
  rw [cons_append] at hnos
  simp only [splitAtTextNode, exec_bind, exec_get, andThen_ok, hself, visit_gatherNodes hself q,
    recreateSplitSubtree, hnos, andThen_error]

end End

section Sentinel

variable {w : World} {root self : NodeID}

/-- The end of an element with text nodes is looked up in one of them. -/
theorem exec_textNodeAtOffset_end (cocoa : Cocoa) (hroot : root ∈ w.trees.ids)
    (hbel : self = root ∨ self ∈ (w.children root).ids) (hx : ExplicitSpace (w.children root))
    (htext : HasText (w.children self)) :
    ∃ (cut : NodeID) (s : NSString) (c : Node Tag Content),
      exec (textNodeAtOffset cocoa self mpTextContentOffsetEnd nsNotFound) w =
        some (.ok ((some cut, mpTextContentOffsetEnd), w)) ∧
      (w.children root).find? cut = some c ∧ c.label = .inr (.text s) ∧
      s.length ≤ (text (w.children self)).length := by
  obtain ⟨n, hn⟩ := exists_find?_of_mem hroot
  have hcs := World.children_of_node? hn
  obtain ⟨m, hm, hlab, -⟩ := World.exists_node_below hroot hbel
  obtain ⟨l, U, V, hUV, -⟩ := w.exists_head 0 hn hbel
  have hm' := World.children_of_node? hm
  obtain ⟨e, he⟩ : ∃ e, ((w.children self).entries l).reverse.find? isText = some e := by
    obtain ⟨e, he, ht⟩ := exists_isText_of_hasText htext l
    exact isSome_iff_exists.1 (find?_isSome.2 ⟨e, mem_reverse.2 he, ht⟩)
  obtain ⟨s, hs⟩ := isText_iff.1 (find?_some he)
  obtain ⟨X, Y, hXY⟩ := append_of_mem (mem_reverse.1 (mem_of_find?_eq_some he))
  obtain ⟨c, hc, hla⟩ := find?_label_of_entries (A := U ++ X) (C := Y ++ V) (e := e)
    (children_nodup w.nodup hn).1 (by rw [hUV, hXY]; simp)
  refine ⟨e.id, s, c, ?_, hcs ▸ hc, hla.trans hs, ?_⟩
  · rw [exec_textNodeAtOffset cocoa hm (fun b hb => hx b (hlab hb)) l, textNodeAt_end, ← hm', he]
    rfl
  · rw [← listingText_entries l, hXY]
    simp only [listingText_append, listingText_cons, hs, ownText, length_append]
    omega

/-- Splitting at the end of an element with text raises an exception. -/
theorem exec_splitAtAnchor_end (cocoa : Cocoa) {t : Tag} {O : Nodes}
    (hroot : w.node? root = some ⟨root, .inl t, O⟩)
    (hbel : self = root ∨ self ∈ (w.children root).ids) (hx : ExplicitSpace (w.children root))
    (htext : HasText (w.children self))
    (hfits : (text (w.children self)).length < nsIntegerMax) :
    exec (splitAtAnchor cocoa root self mpTextContentOffsetEnd) w = some (.error .range) := by
  obtain ⟨cut, s, c, hexec, hcut, hc, hs⟩ := exec_textNodeAtOffset_end cocoa
    (mem_of_find? hroot) hbel hx htext
  rw [World.children_of_node? hroot] at hcut
  obtain ⟨q⟩ := nonempty_leafCut 1 hcut hc
  rw [show mpTextContentOffsetEnd = ((nsIntegerMax : ℕ) : ℤ) from rfl] at hexec ⊢
  rw [exec_splitAtAnchor cocoa hexec]
  have := exec_splitAtTextNode_end cocoa hroot q (by omega)
  rw [show mpTextContentOffsetEnd = ((nsIntegerMax : ℕ) : ℤ) from rfl] at this
  rw [this, andThen_error]

/-- Deleting up to the end of an element with text nodes does nothing. -/
theorem exec_deleteTextUpToOffset_end (cocoa : Cocoa) (fuel : ℕ) (hroot : root ∈ w.trees.ids)
    (hbel : self = root ∨ self ∈ (w.children root).ids) (hx : ExplicitSpace (w.children root))
    (htext : HasText (w.children self)) :
    exec (deleteTextUpToOffset cocoa fuel self mpTextContentOffsetEnd (some root)) w =
      some (.ok (0, w)) := by
  obtain ⟨cut, s, c, hexec, -⟩ := exec_textNodeAtOffset_end cocoa hroot hbel hx htext
  have hend : mpTextContentOffsetEnd = (nsNotFound : ℤ) := rfl
  simp [deleteTextUpToOffset, exec_enforceExplicitPreservedSpace cocoa hx, hexec, if_pos hend]

/-- The first text node below an element. -/
def World.firstTextNode (w : World) (x : NodeID) : Option NodeID :=
  (((w.children x).entries 0).find? isText).map Entry.id

/-- Below `root`, there are no text nodes in front of `cut` and no elements without children. -/
def World.NothingToDelete (w : World) (root cut : NodeID) : Prop :=
  ∀ x ∈ (w.children root).ids.takeWhile (fun x => decide (x ≠ cut)),
    w.kind? x ≠ some .text ∧ (w.kind? x = some .element → w.children x ≠ .nil)

theorem nothingToDelete_iff {cut : NodeID} {s : NSString} (p : TextNodePosition w root cut s) :
    w.NothingToDelete root cut ↔
      (∀ e ∈ p.head, isText e = false) ∧ prune p.entry p.head = p.head := by
  have hplc : ∀ X e Y, p.head = X ++ e :: Y → w.kind? e.id = some (kind e.label) ∧
      (w.children e.id ≠ .nil ↔ e.level < nextLevel p.entry Y) := by
    intro X e Y hX
    have h : w.trees.entries 0 = (p.before ++ ⟨p.rootLevel, root, p.rootLabel⟩ :: X) ++
        e :: (Y ++ p.entry :: (p.tail ++ p.behind)) := by
      rw [p.entries, hX]
      simp [TextNodePosition.entry]
    obtain ⟨n, hn, -⟩ := find?_label_of_entries w.nodup h
    refine ⟨w.kind?_of_entries h, ?_⟩
    rw [World.children_of_node? hn, Ne, children_eq_nil_iff_closes w.nodup h hn,
      closes_iff_nextLevel_le, not_le]
  rw [World.NothingToDelete, p.takeWhile_ids, prune_eq_iff]
  constructor
  · intro h
    constructor
    · intro e he
      obtain ⟨X, Y, hX⟩ := append_of_mem he
      have := (h e.id (mem_map_of_mem he)).1
      rw [(hplc X e Y hX).1] at this
      simpa [isText] using this
    · intro X e Y hX hk
      obtain ⟨hkind, hchi⟩ := hplc X e Y hX
      refine hchi.1 ((h e.id (mem_map_of_mem ?_)).2 (by rw [hkind, hk]))
      rw [hX]
      simp
  · rintro ⟨hno, hkept⟩ x hx
    obtain ⟨e, he, rfl⟩ := mem_map.1 hx
    obtain ⟨X, Y, hX⟩ := append_of_mem he
    obtain ⟨hkind, hchi⟩ := hplc X e Y hX
    rw [hkind]
    refine ⟨by simpa [isText] using hno e he, fun hk => hchi.2 (hkept X e Y hX ?_)⟩
    exact some.inj hk

/-- Deleting up to the beginning has no effect if nothing is in front of the first text. -/
theorem exec_deleteTextUpToOffset_beginning_iff (cocoa : Cocoa) {fuel : ℕ} (hroot : root ∈ w.trees.ids)
    (hbel : self = root ∨ self ∈ (w.children root).ids) (hx : ExplicitSpace (w.children root))
    (htext : HasText (w.children self))
    (hfits : (text (w.children self)).length < nsIntegerMax)
    (hfuel : (w.children root).ids.length < fuel) :
    exec (deleteTextUpToOffset cocoa fuel self (0 : ℕ) (some root)) w = some (.ok (0, w)) ↔
      ∃ cut, w.firstTextNode self = some cut ∧ w.NothingToDelete root cut := by
  obtain ⟨cut, s, p, i, hexec, -, hi, hi0, -, -⟩ := exists_textNodePosition (n := 0) cocoa hroot hbel
    hx htext (Nat.zero_le _) hfits nsNotFound
  obtain rfl : i = 0 := Nat.le_zero.1 hi0
  have hfst : w.firstTextNode self = some cut := by
    obtain ⟨m, hm, hlab, -⟩ := World.exists_node_below hroot hbel
    rw [exec_textNodeAtOffset cocoa hm (fun b hb => hx b (hlab hb)) 0] at hexec
    have := congrArg Prod.fst (Prod.mk.inj (Except.ok.inj (some.inj hexec))).1
    rwa [← World.children_of_node? hm] at this
  obtain ⟨w', p', hrun, -, hkept, hpru, hsame⟩ :=
    exec_deleteUpToTextNode p hi (Nat.zero_le _) hx hfuel
  have hdel : exec (deleteTextUpToOffset cocoa fuel self (0 : ℕ) (some root)) w =
      some (.ok ((listingText p.head).length + 0, w')) := by
    have hne : ((0 : ℕ) : ℤ) ≠ nsNotFound := by decide
    simp only [deleteTextUpToOffset, exec_bind, exec_enforceExplicitPreservedSpace cocoa hx,
      andThen_ok, hexec, if_neg hne, getD_some, hrun]
  rw [hdel, hfst]
  constructor
  · intro h
    obtain rfl : w' = w := (Prod.mk.inj (Except.ok.inj (some.inj h))).2
    obtain ⟨hhead, hety⟩ := p.unique p'
    refine ⟨cut, rfl, (nothingToDelete_iff p).2 ⟨fun e he => (hkept e (hhead ▸ he)).2, ?_⟩⟩
    rw [hety, hhead, hpru]
  · rintro ⟨_, hcut, hnot⟩
    cases hcut
    obtain ⟨hno, hkept⟩ := (nothingToDelete_iff p).1 hnot
    rw [hsame rfl hno hkept, listingText_of_not_isText hno]
    rfl

end Sentinel

/-- `MPTextContentOffsetEnd` means the same as the length of the text, to the split and the
deletion, only where there is no text, and nothing in front that could be deleted. -/
theorem mpTextContentOffsetEnd_agrees_iff (cocoa : Cocoa) {w : World} {root self : NodeID}
    {xPath : Option NSString} {fuel : ℕ} (hroot : w.kind? root = some .element)
    (hx : ExplicitSpace (w.children root))
    (hanchor : splitAnchorElement cocoa (w.normalizeAdjacentTextNodes root) root xPath = .ok self)
    (hbelow : self = root ∨ self ∈ (w.children root).ids) (hself : w.kind? self = some .element)
    (htext : HasText (w.children self)) (hfits : (text (w.children self)).length < nsIntegerMax)
    (hfuel : (w.children root).ids.length < fuel) :
    ((∃ r r' w', exec (splitAtInnerXMLElementXPath cocoa root xPath mpTextContentOffsetEnd) w =
          some (.ok (r, w')) ∧
        exec (splitAtInnerXMLElementXPath cocoa root xPath (text (w.children self)).length) w =
          some (.ok (r', w')) ∧ r.toOption = r'.toOption) ∧
      exec (deleteTextUpToOffset cocoa fuel self mpTextContentOffsetEnd (some root)) w =
        exec (deleteTextUpToOffset cocoa fuel self (text (w.children self)).length (some root)) w) ↔
      text (w.children self) = [] ∧
        ∃ cut, w.firstTextNode self = some cut ∧ w.NothingToDelete root cut := by
  obtain ⟨t, O, hnode⟩ := World.exists_element hroot
  have hnode' := World.node?_normalizeAdjacentTextNodes hnode
  have hcs : w.children root = O := World.children_of_node? hnode
  have hcs' : (w.normalizeAdjacentTextNodes root).children root = normalized O :=
    World.children_of_node? hnode'
  have hmem := mem_of_find? hnode
  obtain ⟨hbel', -, hself', -⟩ := World.normalizeAdjacentTextNodes_below hroot hbelow hself
  have hx' : ExplicitSpace ((w.normalizeAdjacentTextNodes root).children root) :=
    hcs' ▸ explicitSpace_normalized (hcs ▸ hx)
  have hprep := exec_enforceExplicitPreservedSpace cocoa hx'
  have hspl := fun (m : ℕ) => exec_splitAtInnerXMLElementXPath cocoa
    (Int.natCast_nonneg m) hprep hanchor
  rw [exec_deleteTextUpToOffset_end cocoa fuel hmem hbelow hx htext, hspl,
    show mpTextContentOffsetEnd = ((nsIntegerMax : ℕ) : ℤ) from rfl, hspl]
  have hiff := exec_deleteTextUpToOffset_beginning_iff cocoa hmem hbelow hx htext hfits hfuel
  by_cases hnil : text (w.children self) = []
  · -- no text node is left once the subtree is normalized
    have hnone : ¬ HasText ((w.normalizeAdjacentTextNodes root).children self) := by
      rw [hself', hasText_iff_of_normal (normal_normalized _), text_normalized, not_not]
      exact hnil
    have hnot := fun m : ℕ => exec_splitAtAnchor_none (n := m) cocoa (mem_of_find? hnode')
      hbel' hx' (textNodeAt_of_not_isText (isText_eq_false_of_not_hasText hnone 0) _ _)
    rw [hnil, ← hiff, hnot, hnot]
    constructor
    · rintro ⟨-, h⟩
      exact ⟨rfl, h.symm⟩
    · rintro ⟨-, h⟩
      exact ⟨⟨_, _, _, rfl, rfl, rfl⟩, h.symm⟩
  · -- the split raises an exception
    have hrai := exec_splitAtAnchor_end cocoa hnode' hbel' hx'
      (by rwa [hself', hasText_iff_of_normal (normal_normalized _), text_normalized])
      (by rwa [hself', text_normalized])
    rw [show mpTextContentOffsetEnd = ((nsIntegerMax : ℕ) : ℤ) from rfl] at hrai
    rw [hrai]
    constructor
    · rintro ⟨⟨r, r', w', h, -⟩, -⟩
      cases h
    · exact fun h => absurd h.1 hnil

/-- An empty text node at the beginning. -/
theorem mpTextContentOffsetEnd_agrees_blank :
    (∃ r r' w', exec (splitAtInnerXMLElementXPath .inert 0 none mpTextContentOffsetEnd) sampleBlank =
          some (.ok (r, w')) ∧
        exec (splitAtInnerXMLElementXPath .inert 0 none (text (sampleBlank.children 0)).length)
          sampleBlank = some (.ok (r', w')) ∧ r.toOption = r'.toOption) ∧
      exec (deleteTextUpToOffset .inert 2 0 mpTextContentOffsetEnd (some 0)) sampleBlank =
        exec (deleteTextUpToOffset .inert 2 0 (text (sampleBlank.children 0)).length (some 0))
          sampleBlank :=
  (mpTextContentOffsetEnd_agrees_iff (w := sampleBlank) .inert (by decide) (by decide) rfl (.inl rfl)
    (by decide) (by decide) (by decide) (by decide)).2 ⟨by decide, 1, by decide, fun x hx => by
      revert hx x
      decide⟩

/-- In `<p>ab</p>` the end is beyond the text for the split, and nowhere for the deletion. -/
theorem mpTextContentOffsetEnd_disagrees :
    exec (splitAtInnerXMLElementXPath .inert 0 none mpTextContentOffsetEnd) sampleParagraph =
        some (.error .range) ∧
      (∃ halves w', exec (splitAtInnerXMLElementXPath .inert 0 none 2) sampleParagraph =
        some (.ok (.ok halves, w'))) ∧
      exec (deleteTextUpToOffset .inert 2 0 mpTextContentOffsetEnd (some 0)) sampleParagraph =
        some (.ok (0, sampleParagraph)) ∧
      ∃ w', exec (deleteTextUpToOffset .inert 2 0 2 (some 0)) sampleParagraph = some (.ok (2, w')) ∧
        text (w'.children 0) = [] :=
  ⟨rfl, ⟨_, _, rfl⟩, rfl, _, rfl, rfl⟩

end Feather.XML
