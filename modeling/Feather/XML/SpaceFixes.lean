import Feather.OrderedTree.Replace
import Feather.XML.ChildLists
import Feather.XML.Normalize
import Feather.XML.Space

/-!
# What making preserved space explicit does

Each element with implicit space is replaced by a copy parsed from its serialization without the
space around it, behind a text node with the leading space.  The copy is always inserted one place
further on than the element was, which is right only behind such a text node; and the trailing space
is to be inserted into the parent of the element just removed, which has none.
-/

namespace Feather.XML

open OrderedTree Forest Program Option
open List (map_cons mem_append mem_cons mem_cons_of_mem mem_cons_self mem_map_of_mem nodup_append
  pairwise_cons mem_map)

variable {w : World} {t : Tag} {cs lead copy f g : Nodes} {cocoa : Cocoa} {self x : NodeID}
  {n m : Node Tag Content}

/-! ### Inserting and removing a child -/

section Children

variable {w : World} {g₁ g₂ pre post : Nodes} {m : Node Tag Content} {p : NodeID} {t : Tag}

/-- A tree of the store, and an element elsewhere in the store. -/
theorem ready_of_between (hw : w.trees = g₁ ++ (m.tree ++ g₂))
    (hp : (g₁ ++ g₂).find? p = some ⟨p, .inl t, cs⟩) :
    w.kind? p = some .element ∧ w.parent? m.id = none ∧ w.children p = cs := by
  have hnd := w.nodup
  rw [hw] at hnd
  have hnode : w.node? p = some ⟨p, .inl t, cs⟩ := by
    rw [World.node?, hw]
    exact find?_of_attach hnd hp
  refine ⟨?_, ?_, World.children_of_node? hnode⟩
  · rw [World.kind?, hnode]
    rfl
  · rw [World.parent?, parent?, hw, path?_of_attach hnd]
    rfl

/-- A tree that has no parent is inserted among the children of an element. -/
theorem exec_insertChild_between (hw : w.trees = g₁ ++ (m.tree ++ g₂))
    (hp : (g₁ ++ g₂).find? p = some ⟨p, .inl t, pre ++ post⟩) :
    ∃ w', exec (insertChild p m.id pre.rootIDs.length) w = some (.ok ((), w')) ∧
      w'.trees = (g₁ ++ g₂).setChildren p (pre ++ (m.tree ++ post)) := by
  obtain ⟨hkind, hpar, hchi⟩ := ready_of_between hw hp
  have hnd := w.nodup
  rw [hw] at hnd
  refine ⟨w.attach p pre.rootIDs.length m.id, ?_, ?_⟩
  · simp [insertChild, hkind, hpar, hchi]
  · show w.trees.attach p pre.rootIDs.length m.id = _
    rw [hw, attach_child hnd hp]

/-- An index beyond the end. -/
theorem exec_insertChild_beyond {i : ℕ} (hw : w.trees = g₁ ++ (m.tree ++ g₂))
    (hp : (g₁ ++ g₂).find? p = some ⟨p, .inl t, cs⟩) (hi : cs.rootIDs.length < i) :
    exec (insertChild p m.id i) w = some (.error .range) := by
  obtain ⟨hkind, hpar, hchi⟩ := ready_of_between hw hp
  simp [insertChild, hkind, hpar, hchi, hi]

/-- A child is taken out and becomes a tree of its own. -/
theorem exec_removeChild (hw : w.trees = g₁ ++ g₂)
    (hp : g₁.find? p = some ⟨p, .inl t, pre ++ (m.tree ++ post)⟩) :
    ∃ w', exec (removeChild p m.id) w = some (.ok (some pre.rootIDs.length, w')) ∧
      w'.trees = g₁.setChildren p (pre ++ post) ++ (g₂ ++ m.tree) := by
  have hnd := w.nodup
  rw [hw, ids_append, nodup_append] at hnd
  have hnode : w.node? p = some ⟨p, .inl t, pre ++ (m.tree ++ post)⟩ := by
    rw [World.node?, hw, find?_append_of_mem (mem_of_find? hp), hp]
  obtain ⟨m', hm', htree⟩ := exists_find?_tree m
  have hcs := (children_nodup hnd.1 hp).1
  have hpre : m.id ∉ pre.ids := by
    rw [ids_append, nodup_append] at hcs
    intro h
    exact hcs.2.2 _ h _ (by simp [id_mem_tree m]) rfl
  have hfind : g₁.find? m.id = some m' := by
    refine find?_of_find?_children hnd.1 hp ?_
    rw [find?_append_of_notMem hpre, find?_append, hm', some_or]
  have hrts : (w.children p).rootIDs = pre.rootIDs ++ m.id :: post.rootIDs := by
    rw [World.children_of_node? hnode, rootIDs_append, rootIDs_tree_append]
  have hix : indexOfObject (w.children p).rootIDs m.id = some pre.rootIDs.length := by
    rw [hrts]
    exact indexOfObject_append fun h => hpre (rootIDs_subset pre h)
  have hget : (w.children p).rootIDs[pre.rootIDs.length]? = some m.id := by simp [hrts]
  have hm2 : m.id ∉ g₂.ids := fun h => hnd.2.2 _ (mem_of_find? hfind) _ h rfl
  refine ⟨w.detach m.id, ?_, ?_⟩
  · simp [removeChild, hix, removeChildAtIndex, hget]
  · show w.trees.detach m.id = _
    rw [hw, detach_append_left hfind hm2, htree, remove, update_child hnd.1 hp]
    simp

end Children

/-! ### One replacement -/

/-- `n` spaces as a text node, if there are any. -/
def spaceNode (n : ℕ) : Nodes := if 0 < n then .leaf 0 (.text (spaces n)) .nil else .nil

/-- The nodes with their implicit space as text nodes. -/
def explicitSpace : Nodes → Nodes
  | .nil => .nil
  | .branch i t cs r =>
    spaceNode t.startWhitespace ++
      .branch i (plainTag t.name t.attributes) (explicitSpace cs)
        (spaceNode t.endWhitespace ++ explicitSpace r)
  | .leaf i c r => .leaf i c (explicitSpace r)

section Replace

variable {cocoa : Cocoa} {w : World} {el p : NodeID} {t tp : Tag} {cs g pre post : Nodes}

/-- The text node with the leading space comes in front of the element. -/
theorem exec_leadingText
    (hp : w.trees.find? p = some ⟨p, .inl tp, pre ++ (.branch el t cs .nil ++ post)⟩) (l : ℕ) :
    ∃ w1 lead, exec (if 0 < l then do
          let leadingTextNode ← textWithStringValue (spaces l)
          insertChild p leadingTextNode pre.rootIDs.length
        else pure ()) w = some (.ok ((), w1)) ∧
      w1.trees = w.trees.setChildren p (pre ++ (lead ++ (.branch el t cs .nil ++ post))) ∧
      lead.anonymous = spaceNode l ∧ (0 < l → lead.rootIDs.length = 1) ∧ (l = 0 → lead = .nil) ∧
      ∀ x ∈ lead.ids, x ∉ w.trees.ids := by
  by_cases hl : 0 < l
  · let m : Node Tag Content := ⟨w.trees.fresh, .inr (.text (spaces l)), .nil⟩
    have hadd : (w.add (.leaf 0 (.text (spaces l)) .nil)).trees = w.trees ++ (m.tree ++ .nil) := rfl
    have hp' : (w.trees ++ .nil).find? p =
        some ⟨p, .inl tp, pre ++ (.branch el t cs .nil ++ post)⟩ := by
      rw [append_nil]
      exact hp
    obtain ⟨w1, hexec, hw1⟩ := exec_insertChild_between hadd hp'
    rw [append_nil] at hw1
    refine ⟨w1, m.tree, ?_, hw1, ?_, fun _ => rfl, fun h => by omega, ?_⟩
    · rw [if_pos hl]
      exact hexec
    · rw [spaceNode, if_pos hl]
      rfl
    · intro x hx
      obtain rfl : x = w.trees.fresh := by simpa [m, Node.tree] using hx
      exact notMem_of_fresh_le le_rfl
  · refine ⟨w, .nil, ?_, ?_, ?_, fun h => absurd h hl, fun _ => rfl, fun x hx => by simp at hx⟩
    · rw [if_neg hl, exec_pure]
    · rw [nil_append, setChildren_of_find? w.nodup hp]
    · rw [spaceNode, if_neg hl]
      rfl

/-- Where the copy goes: one place behind where the element was. -/
theorem exists_place (pre : Nodes) {l : ℕ} (hlead : 0 < l → lead.rootIDs.length = 1)
    (hnil : l = 0 → lead = .nil) (h : 0 < l ∨ post ≠ .nil) :
    ∃ pre' post', pre' ++ post' = pre ++ (lead ++ post) ∧
      pre'.rootIDs.length = pre.rootIDs.length + 1 ∧
      (0 < l → pre' = pre ++ lead ∧ post' = post) := by
  by_cases hl : 0 < l
  · refine ⟨pre ++ lead, post, append_assoc _ _ _, ?_, fun _ => ⟨rfl, rfl⟩⟩
    rw [rootIDs_append, List.length_append, hlead hl]
  · have hpost := h.resolve_left hl
    rw [hnil (by omega)]
    cases post with
    | nil => exact absurd rfl hpost
    | branch i b ds r =>
      refine ⟨pre ++ .branch i b ds .nil, r, append_assoc _ _ _, ?_, fun h => absurd h hl⟩
      simp
    | leaf i c r =>
      refine ⟨pre ++ .leaf i c .nil, r, append_assoc _ _ _, ?_, fun h => absurd h hl⟩
      simp

theorem parent?_child
    (hp : w.trees.find? p = some ⟨p, .inl tp, pre ++ (.branch el t cs .nil ++ post)⟩) :
    w.parent? el = some p := by
  refine (parent?_eq_some_iff w.nodup).2 ?_
  rw [childIDs_of_find? hp]
  simp

/-- The index of a child. -/
theorem indexOfObject_child
    (hp : w.trees.find? p = some ⟨p, .inl tp, pre ++ (.branch el t cs .nil ++ post)⟩) :
    indexOfObject (w.children p).rootIDs el = some pre.rootIDs.length := by
  have hcs := (children_nodup w.nodup hp).1
  rw [ids_append, nodup_append] at hcs
  rw [World.children_of_node? hp, rootIDs_append]
  refine indexOfObject_append fun h => ?_
  exact hcs.2.2 _ (rootIDs_subset pre h) _ (by simp) rfl

/-- No node is lost when a child gives way to a copy. -/
theorem mem_ids_exchange {pre' post' : Nodes} (copy : Nodes)
    (hp : w.trees.find? p = some ⟨p, .inl tp, pre ++ (m.tree ++ post)⟩)
    (hspl : pre' ++ post' = pre ++ (lead ++ post)) (hx : x ∈ w.trees.ids) :
    x ∈ (w.trees.setChildren p (pre' ++ (copy ++ post'))).ids ∨ x ∈ m.tree.ids := by
  obtain h | h := mem_ids_setChildren w.nodup hp (pre' ++ (copy ++ post')) hx
  · exact .inl h
  · obtain h | h := mem_ids_between.1 h
    · exact .inr h
    · left
      apply children_subset (find?_setChildren_self hp _)
      rw [mem_ids_between, hspl]
      exact .inr (mem_ids_between.2 (.inr h))

/-- The text node with the trailing space stays without a parent. -/
theorem exec_trailingText {w4 : World} {G : Nodes} (hw : w4.trees = G ++ .branch el t cs .nil)
    (n i : ℕ) :
    ∃ w' Z, exec (if 0 < n then do
          let trailingTextNode ← textWithStringValue (spaces n)
          let w ← get
          match w.parent? el with
          | none => pure ()
          | some parent => insertChild parent trailingTextNode i
        else pure ()) w4 = some (.ok ((), w')) ∧
      w'.trees = G ++ (.branch el t cs .nil ++ Z) ∧ ∀ x ∈ Z.ids, x ∉ w4.trees.ids := by
  by_cases hn : 0 < n
  · let m : Node Tag Content := ⟨el, .inl t, cs⟩
    let Z : Nodes := .leaf w4.trees.fresh (.text (spaces n)) .nil
    let w' := w4.add (.leaf 0 (.text (spaces n)) .nil)
    have hw' : w'.trees = G ++ (m.tree ++ Z) := by
      show w4.trees ++ Z = _
      rw [hw, append_assoc]
      rfl
    have hpar : w'.parent? el = none := by
      have hnd := w'.nodup
      rw [hw'] at hnd
      rw [World.parent?, parent?, hw', path?_of_attach hnd]
      rfl
    refine ⟨w', Z, ?_, hw', ?_⟩
    · rw [if_pos hn, exec_bind, textWithStringValue, exec_newNode, andThen_ok, exec_get_bind]
      rw [hpar]
      rfl
    · intro x hx
      obtain rfl : x = w4.trees.fresh := by simpa [Z] using hx
      exact notMem_of_fresh_le le_rfl
  · refine ⟨w4, .nil, ?_, ?_, fun x hx => by simp at hx⟩
    · rw [if_neg hn, exec_pure]
    · rw [hw, append_nil]

/-- Up to the insertion of the copy: the text node is in front, and the element is taken out. -/
theorem exec_applySpaceFix_eq
    (hp : w.trees.find? p = some ⟨p, .inl tp, pre ++ (.branch el t cs .nil ++ post)⟩)
    (hread : xmlElementFromString cocoa (elementString t cs) =
      some (plainTag t.name t.attributes, g)) :
    ∃ (w3 : World) (lead : Nodes) (k : Node Tag Content),
      (exec (applySpaceFix cocoa ⟨t.startWhitespace, el, t.endWhitespace⟩) w =
        andThen (exec (insertChild p k.id (pre.rootIDs.length + 1)) w3) fun _ =>
          if 0 < t.endWhitespace then do
            let trailingTextNode ← textWithStringValue (spaces t.endWhitespace)
            let w ← get
            match w.parent? el with
            | none => pure ()
            | some parent => insertChild parent trailingTextNode (pre.rootIDs.length + 2)
          else pure ()) ∧
      w3.trees =
        w.trees.setChildren p (pre ++ (lead ++ post)) ++ (k.tree ++ .branch el t cs .nil) ∧
      lead.anonymous = spaceNode t.startWhitespace ∧
      (0 < t.startWhitespace → lead.rootIDs.length = 1) ∧
      (t.startWhitespace = 0 → lead = .nil) ∧
      k.tree.anonymous = .branch 0 (plainTag t.name t.attributes) g.anonymous .nil ∧
      ∀ x, x ∈ lead.ids ∨ x ∈ k.tree.ids → x ∉ w.trees.ids := by
  let m : Node Tag Content := ⟨el, .inl t, cs⟩
  obtain ⟨w1, lead, hlead, hw1, hanon, hone, hnil, hnew⟩ := exec_leadingText hp t.startWhitespace
  -- the element, still among the children
  have hp1 : w1.trees.find? p = some ⟨p, .inl tp, (pre ++ lead) ++ (m.tree ++ post)⟩ := by
    rw [hw1, find?_setChildren_self hp, append_assoc]
    rfl
  have hel1 : w1.node? el = some m := find?_child (m := m) w1.nodup rfl hp1
  have htrim : stringByTrimmingWhitespace (w1.xmlString el) = elementString t cs := by
    rw [World.xmlString, hel1]
    exact stringByTrimmingWhitespace_tree (n := m) rfl
  have hsub₁ : w.trees.ids ⊆ w1.trees.ids := by
    rw [hw1]
    exact ids_subset_setChildren w.nodup hp fun x hx => mem_ids_between.2 (.inr hx)
  -- the copy, and the element taken out
  let k : Node Tag Content :=
    ⟨w1.trees.fresh, .inl (plainTag t.name t.attributes), g.renumber (w1.trees.fresh + 1)⟩
  have hknew : ∀ x ∈ k.tree.ids, x ∉ w1.trees.ids := by
    intro x hx
    apply notMem_of_fresh_le
    simp only [k, Node.tree, ids_branch, ids_renumber, ids_nil,
      List.append_nil, mem_cons, List.mem_range'_1] at hx
    omega
  have hw2 : (w1.add (.branch 0 (plainTag t.name t.attributes) g .nil)).trees =
      w1.trees ++ k.tree := rfl
  obtain ⟨w3, hrem, hw3⟩ := exec_removeChild hw2 hp1
  rw [hw1, setChildren_setChildren, append_assoc] at hw3
  refine ⟨w3, lead, k, ?_, hw3, hanon, hone, hnil, ?_, ?_⟩
  · rw [applySpaceFix, exec_get_bind]
    simp only [parent?_child hp, indexOfObject_child hp, getD_some]
    rw [exec_ite_then, hlead, andThen_ok, exec_get_bind]
    simp only [htrim, hread]
    rw [exec_bind, exec_newNode, andThen_ok, exec_bind]
    rw [show exec (removeChild p el) _ = _ from hrem]
    exact exec_bind _ _ _
  · simp [k, Node.tree, anonymous, anonymous_renumber]
  · rintro x (hx | hx)
    · exact hnew x hx
    · exact fun hmem => hknew x hx (hsub₁ hmem)

/-- The copy comes one place further on than the element was; without a text node in front and a
node behind, that is beyond the end. -/
theorem exec_applySpaceFix
    (hp : w.trees.find? p = some ⟨p, .inl tp, pre ++ (.branch el t cs .nil ++ post)⟩)
    (hread : xmlElementFromString cocoa (elementString t cs) =
      some (plainTag t.name t.attributes, g)) :
    (t.startWhitespace = 0 ∧ post = .nil ∧
      exec (applySpaceFix cocoa ⟨t.startWhitespace, el, t.endWhitespace⟩) w =
        some (.error .range)) ∨
    ∃ w' lead pre' post' copy Z,
      exec (applySpaceFix cocoa ⟨t.startWhitespace, el, t.endWhitespace⟩) w =
        some (.ok ((), w')) ∧
      w'.trees = w.trees.setChildren p (pre' ++ (copy ++ post')) ++ (.branch el t cs .nil ++ Z) ∧
      pre' ++ post' = pre ++ (lead ++ post) ∧
      (0 < t.startWhitespace → pre' = pre ++ lead ∧ post' = post) ∧
      lead.anonymous = spaceNode t.startWhitespace ∧
      copy.anonymous = .branch 0 (plainTag t.name t.attributes) g.anonymous .nil ∧
      ∀ x, x ∈ lead.ids ∨ x ∈ copy.ids ∨ x ∈ Z.ids → x ∉ w.trees.ids := by
  obtain ⟨w3, lead, k, hrun, hw3, hanon, hone, hnil, hcopy, hnew⟩ := exec_applySpaceFix_eq hp hread
  have hpm : p ∉ (branch el t cs .nil).ids := by
    have hcs := (children_nodup w.nodup hp).2
    exact fun hmem => hcs (mem_ids_between.2 (.inl hmem))
  have hp3 : (w.trees.setChildren p (pre ++ (lead ++ post)) ++ .branch el t cs .nil).find? p =
      some ⟨p, .inl tp, pre ++ (lead ++ post)⟩ := by
    have hself := find?_setChildren_self hp (pre ++ (lead ++ post))
    rw [find?_append_of_mem (mem_of_find? hself), hself]
  by_cases hplc : 0 < t.startWhitespace ∨ post ≠ .nil
  · right
    obtain ⟨pre', post', hspl, hlen, hlat⟩ := exists_place pre hone hnil hplc
    rw [← hspl] at hp3 hw3
    obtain ⟨w4, hins, hw4⟩ := exec_insertChild_between hw3 hp3
    rw [setChildren_append_left hpm, setChildren_setChildren] at hw4
    obtain ⟨w', Z, htra, hw', hZ⟩ :=
      exec_trailingText hw4 t.endWhitespace (pre.rootIDs.length + 2)
    refine ⟨w', lead, pre', post', k.tree, Z, ?_, hw', hspl, hlat, hanon, hcopy, ?_⟩
    · rw [hrun, ← hlen, hins]
      exact htra
    · rintro x (hx | hx | hx)
      · exact hnew x (.inl hx)
      · exact hnew x (.inr hx)
      · intro hmem
        refine hZ x hx ?_
        rw [hw4, ids_append, mem_append]
        exact mem_ids_exchange (m := ⟨el, .inl t, cs⟩) k.tree hp hspl hmem
  · left
    obtain ⟨hst, hpost⟩ : t.startWhitespace = 0 ∧ post = .nil := by
      rw [not_or, not_not] at hplc
      exact ⟨by omega, hplc.2⟩
    refine ⟨hst, hpost, ?_⟩
    rw [hrun, exec_insertChild_beyond hw3 hp3 (by simp [hnil hst, hpost]), andThen_error]

end Replace

/-! ### The nodes after a replacement -/

/-- The element `m` is replaced by the nodes `lead` and `copy`.  What does not have it below stays;
what has, has the same nodes but for these, in its place if it had leading space. -/
structure SpaceStep (w w' : World) (m : Node Tag Content) (leading : ℕ) (lead copy : Nodes) :
    Prop where
  new : ∀ x, x ∈ lead.ids ∨ x ∈ copy.ids → x ∉ w.trees.ids
  frame : ∀ x n, w.node? x = some n → m.id ∉ n.children.ids → w'.node? x = some n
  inside : ∀ x n, w.node? x = some n → m.id ∈ n.children.ids →
    ∃ f, w'.node? x = some { n with children := f } ∧
      (f.nodePairs ++ m.tree.nodePairs).Perm
        (n.children.nodePairs ++ (lead.nodePairs ++ copy.nodePairs)) ∧
      (0 < leading → f = n.children.update m.id fun _ => lead ++ copy)

theorem SpaceStep.of_trees {w' : World} {el p : NodeID} {tp : Tag} {pre post pre' post' Z : Nodes}
    (hp : w.trees.find? p = some ⟨p, .inl tp, pre ++ (.branch el t cs .nil ++ post)⟩)
    (hw' : w'.trees =
      w.trees.setChildren p (pre' ++ (copy ++ post')) ++ (.branch el t cs .nil ++ Z))
    (hspl : pre' ++ post' = pre ++ (lead ++ post))
    (hlat : 0 < t.startWhitespace → pre' = pre ++ lead ∧ post' = post)
    (hnew : ∀ x, x ∈ lead.ids ∨ x ∈ copy.ids ∨ x ∈ Z.ids → x ∉ w.trees.ids) :
    SpaceStep w w' ⟨el, .inl t, cs⟩ t.startWhitespace lead copy := by
  let m : Node Tag Content := ⟨el, .inl t, cs⟩
  have hel : w.trees.find? el = some m := find?_child (m := m) w.nodup rfl hp
  have hchd : el ∈ w.trees.childIDs p := by
    rw [childIDs_of_find? hp]
    simp
  -- among the children of the parent, the other old nodes are still the same
  have hots : ∀ x ∈ w.trees.ids, x ∉ m.tree.ids →
      (pre' ++ (copy ++ post')).find? x = (pre ++ (m.tree ++ post)).find? x := by
    intro x hx hxm
    rw [find?_skip fun h => hnew x (.inr (.inl h)) hx, hspl,
      find?_skip fun h => hnew x (.inl h) hx, find?_skip hxm]
  have hfst : ∀ x n, (w.trees.setChildren p (pre' ++ (copy ++ post'))).find? x = some n →
      w'.node? x = some n := by
    intro x n hx
    rw [World.node?, hw', find?_append_of_mem (mem_of_find? hx), hx]
  refine ⟨fun x hx => hnew x (hx.imp_right .inl), ?_, ?_⟩
  · intro x n hx heln
    have hxids := mem_of_find? hx
    by_cases hxm : x ∈ m.tree.ids
    · -- a node of the element that was taken out
      have hnd := w'.nodup
      rw [hw', ids_append, nodup_append] at hnd
      have hxm' : x ∈ (m.tree ++ Z).ids := by simp [hxm]
      rw [World.node?, hw', find?_append_of_notMem fun h => hnd.2.2 x h x hxm' rfl]
      exact (find?_append_of_mem hxm).trans ((find?_tree w.nodup hel hxm).trans hx)
    · have hxp : x ≠ p := by
        rintro rfl
        obtain rfl := some.inj (hx.symm.trans hp)
        exact heln (by simp)
      have hpn : p ∉ n.children.ids := by
        intro hpn
        have hp' := find?_children w.nodup hx hp hpn
        exact heln (children_subset hp' (by simp))
      exact hfst x n (find?_setChildren_frame w.nodup hp hx hpn (hots x hxids hxm) hxp)
  · intro x n hx heln
    by_cases hxp : x = p
    · subst hxp
      obtain rfl := some.inj (hx.symm.trans hp)
      refine ⟨pre' ++ (copy ++ post'), hfst x _ (find?_setChildren_self hp _),
        nodePairs_exchange copy m.tree hspl, fun hl => ?_⟩
      obtain ⟨rfl, rfl⟩ := hlat hl
      have help : el ∉ pre.ids := by
        have hcs := (children_nodup w.nodup hp).1
        rw [ids_append, nodup_append] at hcs
        exact fun h => hcs.2.2 _ h _ (by simp) rfl
      rw [update_append_right help]
      simp [update, append_assoc]
    · have hpn := parent_mem_children w.nodup hchd hx heln hxp
      have hxm : x ∉ m.tree.ids := by
        intro hxm
        rw [ids_tree hel, mem_cons] at hxm
        obtain rfl | hxm := hxm
        · exact (children_nodup w.nodup hx).2 heln
        · have hx' := find?_children w.nodup hel hx hxm
          exact (children_nodup w.nodup hel).2 (children_subset hx' heln)
      have hn' := find?_children w.nodup hx hp hpn
      have hnd := (children_nodup w.nodup hx).1
      refine ⟨n.children.setChildren p (pre' ++ (copy ++ post')), hfst x _ ?_, ?_, fun hl => ?_⟩
      · rw [find?_setChildren_of_ne w.nodup hp
          (hots x (mem_of_find? hx) hxm) hxp, show w.trees.find? x = some n from hx]
        rfl
      · exact perm_of_perm (nodePairs_setChildren hnd hn' _)
          (nodePairs_exchange copy m.tree hspl)
      · obtain ⟨rfl, rfl⟩ := hlat hl
        rw [append_assoc, ← append_assoc lead]
        exact (update_child (m := m) hnd hn' (lead ++ copy)).symm

/-! ### The length of the serialization -/

theorem xmlString_anonymous (f : Nodes) : xmlString f.anonymous = xmlString f := by
  induction f with
  | nil => rfl
  | branch i t cs r ihc ihr => rw [anonymous, xmlString, xmlString, ihc, ihr]
  | leaf i c r ih => rw [anonymous, xmlString, xmlString, ih]

theorem escaped_append (e : Unichar → NSString) (s s' : NSString) :
    escaped e (s ++ s') = escaped e s ++ escaped e s' :=
  List.flatMap_append

theorem escaped_spaces (n : ℕ) : escaped textEscape (spaces n) = spaces n := by
  induction n with
  | zero => rfl
  | succ n ih =>
    exact congrArg (textEscape (unichar ' ') ++ ·) ih

theorem xmlString_spaceNode (n : ℕ) : xmlString (spaceNode n) = spaces n := by
  unfold spaceNode
  split_ifs with hn
  · simp [xmlString, contentString, escaped_spaces]
  · obtain rfl : n = 0 := by omega
    rfl

/-- Making space explicit does not change the serialization. -/
theorem xmlString_explicitSpace (f : Nodes) : xmlString (explicitSpace f) = xmlString f := by
  induction f with
  | nil => rfl
  | branch i t cs r ihc ihr =>
    rw [explicitSpace, xmlString_append, xmlString, xmlString_append, xmlString_spaceNode,
      xmlString_spaceNode, ihc, ihr, xmlString]
    simp [plainTag, openTag, closeTag, spaces]
  | leaf i c r ih => rw [explicitSpace, xmlString, ih, xmlString]

theorem xmlString_normalized (f : Nodes) : xmlString (normalized f) = xmlString f := by
  fun_induction normalized f with
  | case1 => rfl
  | case2 i t cs r ihc ihr => rw [xmlString, ihc, ihr, xmlString]
  | case3 i r ih => simp [xmlString, ih, contentString, escaped]
  | case4 i c s r j s' r' hr ih =>
    rw [hr] at ih
    rw [xmlString, xmlString, ← ih, xmlString, contentString, contentString, contentString,
      escaped_append, List.append_assoc]
  | case5 i c s r hr ih => rw [xmlString, ih, xmlString]
  | case6 i k s r ih => rw [xmlString, ih, xmlString]

/-- What a node contributes to the length of the serialization. -/
def labelLength : Label → ℕ
  | .inl t => t.startWhitespace + (openTag t).length + (closeTag t).length + t.endWhitespace
  | .inr c => (contentString c).length

theorem length_xmlString (f : Nodes) :
    (xmlString f).length = (f.labels.map labelLength).sum := by
  induction f with
  | nil => rfl
  | branch i t cs r ihc ihr =>
    simp only [xmlString, List.length_append, labels_branch, map_cons, List.map_append,
      List.sum_cons, List.sum_append, labelLength, spaces, List.length_replicate]
    omega
  | leaf i c r ih => simp [xmlString, ih, labelLength]

/-! ### Reading an element again -/

/-- The content of an element when its serialization without the space around it is parsed. -/
def reread (cocoa : Cocoa) (t : Tag) (cs : Nodes) : Nodes :=
  ((xmlElementFromString cocoa (elementString t cs)).map Prod.snd).getD .nil

/-- The parser reads the element itself, with the same content up to space. -/
structure Cocoa.Rereads (cocoa : Cocoa) (t : Tag) (cs : Nodes) : Prop where
  read : xmlElementFromString cocoa (elementString t cs) =
    some (plainTag t.name t.attributes, reread cocoa t cs)
  content : (normalized (explicitSpace (reread cocoa t cs))).anonymous =
    (normalized (explicitSpace cs)).anonymous
  implicit : ExplicitSpace (reread cocoa t cs) → ExplicitSpace cs

theorem Cocoa.Rereads.xmlString_eq (h : cocoa.Rereads t cs) :
    xmlString (reread cocoa t cs) = xmlString cs := by
  have hcon := congrArg xmlString h.content
  rwa [xmlString_anonymous, xmlString_anonymous, xmlString_normalized, xmlString_normalized,
    xmlString_explicitSpace, xmlString_explicitSpace] at hcon

/-! ### One element after another -/

/-- What is to be done about an element. -/
def fixOf (m : Node Tag Content) : SpaceFix :=
  ⟨leadingWhitespaceLength m, m.id, trailingWhitespaceLength m⟩

/-- The elements still to be replaced are in the store, parents first. -/
structure Pending (cocoa : Cocoa) (w : World) (L : List (Node Tag Content)) : Prop where
  held : ∀ m ∈ L, w.node? m.id = some m
  implicit : ∀ m ∈ L, hasImplicitSpace m.label = true
  rereads : ∀ m ∈ L, ∀ t, m.label = .inl t → cocoa.Rereads t m.children
  order : L.Pairwise fun a b => a.id ≠ b.id ∧ a.id ∉ b.children.ids

section Runs

variable {cocoa : Cocoa} {w w' : World} {m n : Node Tag Content} {L : List (Node Tag Content)}
  {self : NodeID}

theorem exists_tag_of_implicit (h : hasImplicitSpace m.label = true) :
    ∃ t, m.label = .inl t ∧ fixOf m = ⟨t.startWhitespace, m.id, t.endWhitespace⟩ ∧
      (0 < t.startWhitespace ∨ 0 < t.endWhitespace) := by
  cases hl : m.label with
  | inl t =>
    refine ⟨t, rfl, ?_, by simpa [hasImplicitSpace, hl] using h⟩
    rw [fixOf, leadingWhitespaceLength_eq hl, trailingWhitespaceLength_eq hl]
  | inr c => simp [hasImplicitSpace, hl] at h

/-- An element to be replaced has no parent any more, or cannot be replaced, or is. -/
theorem Pending.exec_cases (h : Pending cocoa w (m :: L)) :
    (w.parent? m.id = none ∧ exec (applySpaceFix cocoa (fixOf m)) w = some (.ok ((), w))) ∨
    (leadingWhitespaceLength m = 0 ∧
      exec (applySpaceFix cocoa (fixOf m)) w = some (.error .range)) ∨
    ∃ w1 lead copy t, m.label = .inl t ∧
      exec (applySpaceFix cocoa (fixOf m)) w = some (.ok ((), w1)) ∧
      SpaceStep w w1 m t.startWhitespace lead copy ∧
      lead.anonymous = spaceNode t.startWhitespace ∧
      copy.anonymous = .branch 0 (plainTag t.name t.attributes)
        (reread cocoa t m.children).anonymous .nil := by
  have hm := h.held m mem_cons_self
  obtain ⟨t, ht, hfix, -⟩ := exists_tag_of_implicit (h.implicit m mem_cons_self)
  have hread := (h.rereads m mem_cons_self t ht).read
  rw [hfix, leadingWhitespaceLength_eq ht]
  obtain ⟨el, b, cs⟩ := m
  obtain rfl : b = .inl t := ht
  cases hpar : w.parent? el with
  | none =>
    left
    refine ⟨rfl, ?_⟩
    rw [applySpaceFix, exec_get_bind]
    simp only [hpar]
    rfl
  | some p =>
    right
    have hchd := (parent?_eq_some_iff w.nodup).1 hpar
    obtain ⟨np, hnp⟩ : ∃ np, w.trees.find? p = some np := by
      cases hnp : w.trees.find? p with
      | none => simp [childIDs, hnp] at hchd
      | some np => exact ⟨np, rfl⟩
    rw [childIDs_of_find? hnp] at hchd
    have hnd := (children_nodup w.nodup hnp).1
    obtain ⟨k, hk⟩ := exists_find?_of_mem (rootIDs_subset _ hchd)
    obtain rfl : ⟨el, .inl t, cs⟩ = k :=
      some.inj (hm.symm.trans (find?_of_find?_children w.nodup hnp hk))
    obtain ⟨pre, post, hspl⟩ := exists_between_of_mem_rootIDs hnd hchd hk
    obtain ⟨i, b, ds⟩ := np
    obtain rfl : i = p := find?_id hnp
    obtain rfl : ds = _ := hspl
    obtain tp | c := b
    · obtain ⟨hzero, -, herr⟩ | ⟨w1, lead, pre', post', copy, Z, hexec, hw1, hspl', hlat,
        hlead, hcopy, hnew⟩ := exec_applySpaceFix hnp hread
      · exact .inl ⟨hzero, herr⟩
      · exact .inr ⟨w1, lead, copy, t, rfl, hexec,
          SpaceStep.of_trees hnp hw1 hspl' hlat hnew, hlead, hcopy⟩
    · have hemp := children_eq_nil_of_leaf hnp rfl
      rw [show pre ++ ((⟨el, .inl t, cs⟩ : Node Tag Content).tree ++ post) = .nil from hemp]
        at hchd
      simp at hchd

theorem Pending.tail (h : Pending cocoa w (m :: L)) : Pending cocoa w L where
  held := fun k hk => h.held k (mem_cons_of_mem _ hk)
  implicit := fun k hk => h.implicit k (mem_cons_of_mem _ hk)
  rereads := fun k hk => h.rereads k (mem_cons_of_mem _ hk)
  order := (pairwise_cons.1 h.order).2

/-- The other elements stay as they are. -/
theorem Pending.step {leading : ℕ} (h : Pending cocoa w (m :: L))
    (hstep : SpaceStep w w' m leading lead copy) : Pending cocoa w' L where
  held := by
    intro k hk
    apply hstep.frame
    · exact h.tail.held k hk
    · exact ((pairwise_cons.1 h.order).1 k hk).2
  implicit := h.tail.implicit
  rereads := h.tail.rereads
  order := h.tail.order

theorem parent?_ne_none (hself : w.node? self = some n) (hx : x ∈ n.children.ids) :
    w.parent? x ≠ none := by
  intro hnone
  have hxw := children_subset hself hx
  cases hpath : w.trees.path? x with
  | none => exact path?_eq_none.1 hpath hxw
  | some P =>
    rw [World.parent?, parent?, hpath, bind_some, List.getLast?_eq_none_iff] at hnone
    subst hnone
    have hne : self ≠ x := by
      rintro rfl
      exact (children_nodup w.nodup hself).2 hx
    refine notMem_tree_of_path? w.nodup hpath List.not_mem_nil hne hself ?_
    rw [ids_tree hself]
    exact mem_cons_of_mem _ hx

theorem mem_tree_of_held (hm : w.node? m.id = some m) :
    x ∈ m.tree.ids ↔ x = m.id ∨ x ∈ m.children.ids := by
  rw [ids_tree hm, mem_cons]

theorem mem_nodePairs_of_perm {q : NodeID × Label} (hperm : (f.nodePairs ++ m.tree.nodePairs).Perm
      (g.nodePairs ++ (lead.nodePairs ++ copy.nodePairs)))
    (hq : q ∈ g.nodePairs ∨ q ∈ copy.nodePairs) (hout : q.1 ∉ m.tree.ids) : q ∈ f.nodePairs := by
  have hmem : q ∈ f.nodePairs ++ m.tree.nodePairs := by
    rw [hperm.mem_iff, mem_append, mem_append]
    exact hq.imp_right .inr
  refine (List.mem_append.1 hmem).resolve_right fun hmem => hout ?_
  rw [← map_fst_nodePairs]
  exact mem_map_of_mem hmem

theorem mem_ids_of_perm (hperm : (f.nodePairs ++ m.tree.nodePairs).Perm
      (g.nodePairs ++ (lead.nodePairs ++ copy.nodePairs))) (hx : x ∈ g.ids)
    (hout : x ∉ m.tree.ids) : x ∈ f.ids := by
  rw [← map_fst_nodePairs] at hx ⊢
  obtain ⟨q, hq, rfl⟩ := mem_map.1 hx
  exact mem_map_of_mem (mem_nodePairs_of_perm hperm (.inl hq) hout)

/-- The serialization loses the trailing space of the element. -/
theorem SpaceStep.length_eq (ht : m.label = .inl t) (hread : cocoa.Rereads t m.children)
    (hlead : lead.anonymous = spaceNode t.startWhitespace)
    (hcopy : copy.anonymous = .branch 0 (plainTag t.name t.attributes)
      (reread cocoa t m.children).anonymous .nil) (hperm : (f.nodePairs ++ m.tree.nodePairs).Perm
      (n.children.nodePairs ++ (lead.nodePairs ++ copy.nodePairs))) :
    (xmlString f).length + t.endWhitespace = (xmlString n.children).length := by
  have hlbs := (hperm.map Prod.snd).map labelLength
  simp only [List.map_append, map_snd_nodePairs] at hlbs
  have hsum := hlbs.sum_eq
  simp only [List.sum_append, ← length_xmlString] at hsum
  have hlea : (xmlString lead).length = t.startWhitespace := by
    rw [← xmlString_anonymous, hlead, xmlString_spaceNode]
    simp [spaces]
  have hcop : (xmlString copy).length = (elementString t m.children).length := by
    rw [← xmlString_anonymous, hcopy, xmlString, xmlString_anonymous, hread.xmlString_eq]
    simp [elementString, plainTag, spaces, xmlString, openTag, closeTag]
  have htre : (xmlString m.tree).length =
      t.startWhitespace + (elementString t m.children).length + t.endWhitespace := by
    rw [xmlString_tree ht]
    simp [spaces, Nat.add_assoc]
  omega

/-- The other nodes below the receiver stay, and the serialization gets no longer. -/
theorem Pending.run_le (h : Pending cocoa w L) (hself : w.node? self = some n)
    (hrun : exec (applySpaceFixes cocoa (L.map fixOf)) w = some (.ok ((), w'))) :
    ∃ f, w'.node? self = some { n with children := f } ∧
      (xmlString f).length ≤ (xmlString n.children).length ∧
      ∀ q ∈ n.children.nodePairs, (∀ m ∈ L, q.1 ∉ m.tree.ids) → q ∈ f.nodePairs := by
  induction L generalizing w n with
  | nil =>
    obtain rfl : w = w' := by simpa [applySpaceFixes] using hrun
    exact ⟨n.children, hself, le_rfl, fun q hq _ => hq⟩
  | cons m L ih =>
    rw [map_cons, applySpaceFixes, exec_bind] at hrun
    obtain ⟨-, hexec⟩ | ⟨-, hexec⟩ | ⟨w1, lead, copy, t, ht, hexec, hstep, hlead, hcopy⟩ :=
      h.exec_cases
    · rw [hexec] at hrun
      obtain ⟨f, hf, hle, hkept⟩ := ih h.tail hself hrun
      exact ⟨f, hf, hle, fun q hq hL => hkept q hq fun k hk => hL k (mem_cons_of_mem _ hk)⟩
    · rw [hexec] at hrun
      cases hrun
    · rw [hexec] at hrun
      have hread := h.rereads m mem_cons_self t ht
      by_cases hm : m.id ∈ n.children.ids
      · obtain ⟨f1, hf1, hperm, -⟩ := hstep.inside self n hself hm
        have hlen := SpaceStep.length_eq ht hread hlead hcopy hperm
        obtain ⟨f, hf, hle, hkept⟩ := ih (h.step hstep) hf1 hrun
        refine ⟨f, hf, by simp only at hle; omega, fun q hq hL => ?_⟩
        have hq1 := mem_nodePairs_of_perm hperm (.inl hq) (hL m mem_cons_self)
        exact hkept q hq1 fun k hk => hL k (mem_cons_of_mem _ hk)
      · have hself₁ := hstep.frame self n hself hm
        obtain ⟨f, hf, hle, hkept⟩ := ih (h.step hstep) hself₁ hrun
        exact ⟨f, hf, hle, fun q hq hL => hkept q hq fun k hk => hL k (mem_cons_of_mem _ hk)⟩

/-- No element that is still to be replaced is inside one whose content has no implicit space. -/
theorem Pending.notMem_tree (h : Pending cocoa w (m :: L)) (hcs : ExplicitSpace m.children) :
    ∀ k ∈ L, k.id ∉ m.tree.ids := by
  intro k hk hmem
  have hm := h.held m mem_cons_self
  have hk' := h.tail.held k hk
  rw [mem_tree_of_held hm] at hmem
  obtain hid | hmem := hmem
  · exact ((pairwise_cons.1 h.order).1 k hk).1 hid.symm
  · have hfind := find?_children w.nodup hm hk' hmem
    have hlab : k.label ∈ m.children.labels := by
      rw [← map_label_nodes]
      exact mem_map_of_mem (mem_nodes_of_find? hfind)
    have := hcs _ hlab
    rw [h.tail.implicit k hk] at this
    cases this

/-- The element has no trailing space and its content is read again without implicit space. -/
def Ready (cocoa : Cocoa) (m : Node Tag Content) : Prop :=
  ∀ t, m.label = .inl t →
    t.endWhitespace = 0 ∧ (0 < t.startWhitespace → ExplicitSpace (reread cocoa t m.children))

instance (cocoa : Cocoa) (m : Node Tag Content) : Decidable (Ready cocoa m) :=
  match h : m.label with
  | .inl t =>
    decidable_of_iff (t.endWhitespace = 0 ∧
      (0 < t.startWhitespace → ExplicitSpace (reread cocoa t m.children))) (by simp [Ready, h])
  | .inr _ => .isTrue (by simp [Ready, h])

theorem ExplicitSpace.of_anonymous (h : ExplicitSpace f) (hfg : f.anonymous = g.anonymous) :
    ExplicitSpace g := by
  intro b hb
  apply h b
  rwa [← labels_anonymous, hfg, labels_anonymous]

theorem Pending.notMem_tree_of_copy {leading : ℕ} (h : Pending cocoa w (m :: L))
    (hstep : SpaceStep w w' m leading lead copy) {q : NodeID × Label} (hq : q ∈ copy.nodePairs) :
    ∀ k ∈ m :: L, q.1 ∉ k.tree.ids := by
  intro k hk hmem
  have hqid : q.1 ∈ copy.ids := by
    rw [← map_fst_nodePairs]
    exact mem_map_of_mem hq
  refine hstep.new q.1 (.inr hqid) ?_
  rw [mem_tree_of_held (h.held k hk)] at hmem
  obtain hid | hmem := hmem
  · rw [hid]
    exact mem_of_find? (h.held k hk)
  · exact children_subset (h.held k hk) hmem

/-- If in the end no space is implicit and none is lost, every element was ready. -/
theorem Pending.ready_of_run (h : Pending cocoa w L) (hself : w.node? self = some n)
    (hL : ∀ m ∈ L, m.id ∈ n.children.ids)
    (hrun : exec (applySpaceFixes cocoa (L.map fixOf)) w = some (.ok ((), w')))
    (hself' : w'.node? self = some { n with children := f }) (hexp : ExplicitSpace f)
    (hlen : (xmlString f).length = (xmlString n.children).length) : ∀ m ∈ L, Ready cocoa m := by
  induction L generalizing w n with
  | nil => simp
  | cons m L ih =>
    rw [map_cons, applySpaceFixes, exec_bind] at hrun
    have hm := hL m mem_cons_self
    obtain ⟨hpar, -⟩ | ⟨-, hexec⟩ | ⟨w1, lead, copy, t, ht, hexec, hstep, hlead, hcopy⟩ :=
      h.exec_cases
    · exact absurd hpar (parent?_ne_none hself hm)
    · rw [hexec] at hrun
      cases hrun
    · rw [hexec] at hrun
      have hread := h.rereads m mem_cons_self t ht
      obtain ⟨f1, hf1, hperm, -⟩ := hstep.inside self n hself hm
      have hlen₁ := SpaceStep.length_eq ht hread hlead hcopy hperm
      obtain ⟨f', hf', hle, hkept⟩ := (h.step hstep).run_le hf1 hrun
      obtain rfl : f' = f := by
        have := some.inj (hf'.symm.trans hself')
        exact (Node.mk.inj this).2.2
      simp only at hle hkept
      -- what the parser reads stays below the receiver
      have hcop : ExplicitSpace copy := by
        intro b hb
        obtain ⟨q, hq, rfl⟩ : ∃ q ∈ copy.nodePairs, q.2 = b := by
          rw [← map_snd_nodePairs] at hb
          simpa using hb
        have hqnew := h.notMem_tree_of_copy hstep hq
        have hq1 := mem_nodePairs_of_perm hperm (.inr hq) (hqnew m mem_cons_self)
        have hqf := hkept q hq1 fun k hk => hqnew k (mem_cons_of_mem _ hk)
        refine hexp _ ?_
        rw [← map_snd_nodePairs]
        exact mem_map_of_mem hqf
      have hrer : ExplicitSpace (reread cocoa t m.children) := by
        have hbra : ExplicitSpace (.branch 0 (plainTag t.name t.attributes)
            (reread cocoa t m.children) .nil) := by
          refine hcop.of_anonymous ?_
          rw [hcopy]
          rfl
        intro b hb
        exact hbra b (by simp [hb])
      have hout := h.notMem_tree (hread.implicit hrer)
      intro k hk
      obtain rfl | hk := List.mem_cons.1 hk
      · intro t' ht'
        obtain rfl : t = t' := Sum.inl.inj (ht.symm.trans ht')
        exact ⟨by omega, fun _ => hrer⟩
      · refine ih (h.step hstep) hf1 ?_ hrun hself' (by simp only; omega) k hk
        intro k hk
        exact mem_ids_of_perm hperm (hL k (mem_cons_of_mem _ hk)) (hout k hk)

end Runs

/-! ### The result -/

/-- Elements of `S` become their leading space and the element as the parser reads it. -/
def fixedSpace (cocoa : Cocoa) (S : List NodeID) : Nodes → Nodes
  | .nil => .nil
  | .branch i t cs r =>
    if i ∈ S then
      .leaf 0 (.text (spaces t.startWhitespace))
        (.branch 0 (plainTag t.name t.attributes) (reread cocoa t cs) (fixedSpace cocoa S r))
    else .branch i t (fixedSpace cocoa S cs) (fixedSpace cocoa S r)
  | .leaf i c r => .leaf i c (fixedSpace cocoa S r)

section Result

variable {cocoa : Cocoa} {S : List NodeID} {f g : Nodes}

theorem fixedSpace_congr {S' : List NodeID} (h : ∀ x ∈ f.ids, x ∈ S ↔ x ∈ S') :
    fixedSpace cocoa S f = fixedSpace cocoa S' f := by
  induction f with
  | nil => rfl
  | branch i t cs r ihc ihr =>
    have hc := ihc fun x hx => h x (by simp [hx])
    have hr := ihr fun x hx => h x (by simp [hx])
    rw [fixedSpace, hc, hr]
    exact if_congr (h i (by simp)) rfl rfl
  | leaf i c r ih => rw [fixedSpace, fixedSpace, ih fun x hx => h x (by simp [hx])]

theorem fixedSpace_nil (cocoa : Cocoa) (f : Nodes) : fixedSpace cocoa [] f = f := by
  induction f with
  | nil => rfl
  | branch i t cs r ihc ihr => rw [fixedSpace, if_neg List.not_mem_nil, ihc, ihr]
  | leaf i c r ih => rw [fixedSpace, ih]

theorem fixedSpace_append (f g : Nodes) :
    fixedSpace cocoa S (f ++ g) = fixedSpace cocoa S f ++ fixedSpace cocoa S g := by
  induction f with
  | nil => rfl
  | branch i t cs r _ ih =>
    rw [branch_append, fixedSpace, fixedSpace, ih]
    split_ifs <;> rfl
  | leaf i c r ih => rw [leaf_append, fixedSpace, fixedSpace, ih, leaf_append]

/-- Replacing one element, and the others afterwards. -/
theorem anonymous_fixedSpace_update {T : Nodes} (hn : f.ids.Nodup) (hm : f.find? m.id = some m)
    (ht : m.label = .inl t) (hmS : m.id ∉ S)
    (hT : T.anonymous = .leaf 0 (.text (spaces t.startWhitespace))
      (.branch 0 (plainTag t.name t.attributes) (reread cocoa t m.children).anonymous .nil))
    (hTS : ∀ x ∈ T.ids, x ∉ S) (hS : ∀ k ∈ f.nodes, k.id ∈ S → m.id ∉ k.children.ids) :
    (fixedSpace cocoa S (f.update m.id fun _ => T)).anonymous =
      (fixedSpace cocoa (m.id :: S) f).anonymous := by
  have hskip : ∀ {g : Nodes}, m.id ∉ g.ids →
      fixedSpace cocoa (m.id :: S) g = fixedSpace cocoa S g := by
    intro g hg
    refine fixedSpace_congr fun x hx => ?_
    rw [mem_cons, or_iff_right]
    rintro rfl
    exact hg hx
  have hTfix : fixedSpace cocoa S T = T := by
    rw [fixedSpace_congr fun x hx => iff_of_false (hTS x hx) List.not_mem_nil, fixedSpace_nil]
  induction f with
  | nil => simp [find?] at hm
  | branch i t' cs r ihc ihr =>
    rw [ids_branch, List.nodup_cons, nodup_append] at hn
    rw [find?_branch] at hm
    by_cases hi : i = m.id
    · rw [if_pos hi, some.injEq] at hm
      subst hm
      obtain rfl : t' = t := Sum.inl.inj ht
      have hir : i ∉ r.ids := fun h => hn.1 (List.mem_append_right _ h)
      simp only [update, if_true, fixedSpace, mem_cons_self]
      rw [fixedSpace_append, hTfix, anonymous_append, hT, hskip hir]
      rfl
    · rw [if_neg hi] at hm
      rw [update, if_neg hi, fixedSpace, fixedSpace]
      simp only [mem_cons, hi, false_or]
      have hSc : ∀ k ∈ cs.nodes, k.id ∈ S → m.id ∉ k.children.ids :=
        fun k hk => hS k (by simp [hk])
      have hSr : ∀ k ∈ r.nodes, k.id ∈ S → m.id ∉ k.children.ids :=
        fun k hk => hS k (by simp [hk])
      obtain hc | ⟨hc, hr⟩ := or_eq_some_iff.1 hm
      · have hmr : m.id ∉ r.ids := fun h =>
          hn.2.2.2 _ (mem_of_find? hc) _ h rfl
        have hiS : i ∉ S := fun h =>
          hS ⟨i, .inl t', cs⟩ (by simp) h (mem_of_find? hc)
        rw [if_neg hiS, if_neg hiS, update_of_notMem hmr, hskip hmr, anonymous,
          anonymous, ihc hn.2.1 hc hSc]
      · have hmc := find?_eq_none.1 hc
        rw [update_of_notMem hmc, hskip hmc]
        split_ifs with hiS
        · simp [anonymous]
          rw [ihr hn.2.2.1 hr hSr]
        · rw [anonymous, anonymous, ihr hn.2.2.1 hr hSr]
  | leaf i c r ih =>
    rw [ids_leaf, List.nodup_cons] at hn
    rw [find?_leaf] at hm
    by_cases hi : i = m.id
    · rw [if_pos hi, some.injEq] at hm
      subst hm
      cases ht
    · rw [if_neg hi] at hm
      simp only [update, if_neg hi, fixedSpace, anonymous]
      rw [ih hn.2 hm fun k hk => hS k (by simp [hk])]

theorem plainTag_eq (h : hasImplicitSpace (.inl t) = false) :
    t.startWhitespace = 0 ∧ t.endWhitespace = 0 ∧ plainTag t.name t.attributes = t := by
  obtain ⟨name, attributes, l, e⟩ := t
  simp only [hasImplicitSpace, decide_eq_false_iff_not, not_or, not_lt, Nat.le_zero] at h
  obtain ⟨rfl, rfl⟩ := h
  exact ⟨rfl, rfl, rfl⟩

theorem explicitSpace_of_explicit (h : ExplicitSpace f) : explicitSpace f = f := by
  induction f with
  | nil => rfl
  | branch i t cs r ihc ihr =>
    obtain ⟨hl, he, ht⟩ := plainTag_eq (h (.inl t) (by simp))
    rw [explicitSpace, hl, he, ht, ihc fun b hb => h b (by simp [hb]),
      ihr fun b hb => h b (by simp [hb])]
    rfl
  | leaf i c r ih => rw [explicitSpace, ih fun b hb => h b (by simp [hb])]

/-- What follows a leaf matters up to joining neighbouring texts only. -/
theorem normalized_leaf_congr {c : Content} (h : normalized f = normalized g) (i : NodeID) :
    normalized (.leaf i c f) = normalized (.leaf i c g) := by
  rcases c with s | ⟨k, s⟩
  · cases s with
    | nil => exact h
    | cons a s => rw [normalized, normalized, h]
  · rw [normalized, normalized, h]

/-- If the elements are ready, replacing all of them makes all space explicit. -/
theorem fixedSpace_correct (hS : ∀ k ∈ f.nodes, k.id ∈ S ↔ hasImplicitSpace k.label = true)
    (hread : ∀ k ∈ f.nodes, k.id ∈ S → ∀ t, k.label = .inl t → cocoa.Rereads t k.children)
    (hrdy : ∀ k ∈ f.nodes, k.id ∈ S → Ready cocoa k) :
    normalized (fixedSpace cocoa S f).anonymous = normalized (explicitSpace f).anonymous ∧
      ExplicitSpace (fixedSpace cocoa S f) := by
  induction f with
  | nil => exact ⟨rfl, fun b hb => by simp [fixedSpace] at hb⟩
  | branch i t cs r ihc ihr =>
    obtain ⟨hrno, hrexp⟩ := ihr (fun k hk => hS k (by simp [hk]))
      (fun k hk => hread k (by simp [hk])) fun k hk => hrdy k (by simp [hk])
    rw [fixedSpace]
    split_ifs with hi
    · -- a text node in front of the element, which is as the parser reads it
      have himp := (hS ⟨i, .inl t, cs⟩ (by simp)).1 hi
      obtain ⟨hend, hexp⟩ := hrdy ⟨i, .inl t, cs⟩ (by simp) hi t rfl
      have hst : 0 < t.startWhitespace := by
        simp only [hasImplicitSpace, decide_eq_true_eq] at himp
        omega
      have hcon := (hread ⟨i, .inl t, cs⟩ (by simp) hi t rfl).content
      have hrex := hexp hst
      rw [explicitSpace_of_explicit hrex, anonymous_normalized, anonymous_normalized]
        at hcon
      constructor
      · rw [explicitSpace, spaceNode, if_pos hst, hend]
        simp only [anonymous, leaf_append, nil_append, spaceNode, lt_self_iff_false, if_false]
        apply normalized_leaf_congr
        rw [normalized, normalized, hcon, hrno]
      · intro b hb
        simp only [labels_leaf, labels_branch, mem_cons, mem_append] at hb
        obtain rfl | rfl | hb | hb := hb
        · rfl
        · simp [hasImplicitSpace, plainTag]
        · exact hrex b hb
        · exact hrexp b hb
    · obtain ⟨hcno, hcexp⟩ := ihc (fun k hk => hS k (by simp [hk]))
        (fun k hk => hread k (by simp [hk])) fun k hk => hrdy k (by simp [hk])
      have hnot : hasImplicitSpace (.inl t) = false := by
        rw [← Bool.not_eq_true, ← hS ⟨i, .inl t, cs⟩ (by simp)]
        exact hi
      obtain ⟨hl, he, ht⟩ := plainTag_eq hnot
      constructor
      · rw [explicitSpace, hl, he, ht]
        simp only [spaceNode, lt_self_iff_false, if_false, nil_append, anonymous]
        rw [normalized, normalized, hcno, hrno]
      · intro b hb
        simp only [labels_branch, mem_cons, mem_append] at hb
        obtain rfl | hb | hb := hb
        · exact hnot
        · exact hcexp b hb
        · exact hrexp b hb
  | leaf i c r ih =>
    obtain ⟨hrno, hrexp⟩ := ih (fun k hk => hS k (by simp [hk]))
      (fun k hk => hread k (by simp [hk])) fun k hk => hrdy k (by simp [hk])
    constructor
    · rw [fixedSpace]
      exact normalized_leaf_congr hrno 0
    · intro b hb
      rw [fixedSpace, labels_leaf, mem_cons] at hb
      obtain rfl | hb := hb
      · rfl
      · exact hrexp b hb

end Result

/-! ### The whole run -/

/-- If the elements are ready, they are all replaced in their places. -/
theorem Pending.run_of_ready {L : List (Node Tag Content)} (h : Pending cocoa w L)
    (hself : w.node? self = some n) (hL : ∀ m ∈ L, m.id ∈ n.children.ids)
    (hrdy : ∀ m ∈ L, Ready cocoa m) :
    ∃ w' f, exec (applySpaceFixes cocoa (L.map fixOf)) w = some (.ok ((), w')) ∧
      w'.node? self = some { n with children := f } ∧
      f.anonymous = (fixedSpace cocoa (L.map Node.id) n.children).anonymous := by
  induction L generalizing w n with
  | nil => exact ⟨w, n.children, rfl, hself, by rw [List.map_nil, fixedSpace_nil]⟩
  | cons m L ih =>
    have hm := hL m mem_cons_self
    obtain ⟨t, ht, -, himp⟩ := exists_tag_of_implicit (h.implicit m mem_cons_self)
    obtain ⟨hend, hexp⟩ := hrdy m mem_cons_self t ht
    have hst : 0 < t.startWhitespace := by omega
    have hread := h.rereads m mem_cons_self t ht
    have hout := h.notMem_tree (hread.implicit (hexp hst))
    rw [map_cons, applySpaceFixes, exec_bind]
    obtain ⟨hpar, -⟩ | ⟨hzero, -⟩ | ⟨w1, lead, copy, t', ht', hexec, hstep, hlead, hcopy⟩ :=
      h.exec_cases
    · exact absurd hpar (parent?_ne_none hself hm)
    · rw [leadingWhitespaceLength_eq ht] at hzero
      omega
    · obtain rfl : t = t' := Sum.inl.inj (ht.symm.trans ht')
      obtain ⟨f1, hf1, hperm, hupd⟩ := hstep.inside self n hself hm
      obtain rfl := hupd hst
      have hL1 : ∀ k ∈ L, k.id ∈ (n.children.update m.id fun _ => lead ++ copy).ids := fun k hk =>
        mem_ids_of_perm hperm (hL k (mem_cons_of_mem _ hk)) (hout k hk)
      obtain ⟨w', f, hrun, hf, hres⟩ :=
        ih (h.step hstep) hf1 hL1 fun k hk => hrdy k (mem_cons_of_mem _ hk)
      refine ⟨w', f, by rw [hexec, andThen_ok, hrun], hf, ?_⟩
      rw [hres]
      apply anonymous_fixedSpace_update (children_nodup w.nodup hself).1
      · exact find?_children w.nodup hself (h.held m mem_cons_self) hm
      · exact ht
      · intro hmem
        obtain ⟨k, hk, hid⟩ := mem_map.1 hmem
        exact ((pairwise_cons.1 h.order).1 k hk).1 hid.symm
      · rw [anonymous_append, hlead, hcopy, spaceNode, if_pos hst]
        rfl
      · intro x hx hmem
        obtain ⟨k, hk, rfl⟩ := mem_map.1 hmem
        rw [ids_append, mem_append] at hx
        exact hstep.new _ hx (mem_of_find? (h.tail.held k hk))
      · intro k hk hmem
        obtain ⟨k', hk', hid⟩ := mem_map.1 hmem
        have hfind := find?_children w.nodup hself (h.tail.held k' hk')
          (hL k' (mem_cons_of_mem _ hk'))
        obtain rfl := eq_of_mem_nodes (children_nodup w.nodup hself).1 hk
          (mem_nodes_of_find? hfind) hid.symm
        exact ((pairwise_cons.1 h.order).1 k hk').2

/-- The elements below the receiver that are to be replaced. -/
def implicitNodes (n : Node Tag Content) : List (Node Tag Content) :=
  n.children.nodes.filter fun m => hasImplicitSpace m.label

theorem spaceFixes_eq_map (n : Node Tag Content) : spaceFixes n = (implicitNodes n).map fixOf := by
  have hfix : ∀ m : Node Tag Content, spaceFix? ⟨0, m.id, m.label⟩ =
      if hasImplicitSpace m.label = true then some (fixOf m) else none := by
    intro m
    cases hl : m.label with
    | inl t =>
      simp [spaceFix?, hasImplicitSpace, fixOf, leadingWhitespaceLength_eq hl,
        trailingWhitespaceLength_eq hl]
    | inr c => simp [spaceFix?, hasImplicitSpace]
  have hent := congrArg (List.filterMap fun q : NodeID × Label => spaceFix? ⟨0, q.1, q.2⟩)
    (map_nodes_eq_map_entries (k := 0) (f := n.children))
  rw [List.filterMap_map, List.filterMap_map] at hent
  rw [spaceFixes_eq n 0, implicitNodes, ← List.filterMap_eq_map, List.filterMap_filter]
  refine Eq.trans hent.symm ?_
  congr 1
  funext m
  exact hfix m

theorem mem_implicitNodes :
    m ∈ implicitNodes n ↔ m ∈ n.children.nodes ∧ hasImplicitSpace m.label = true :=
  List.mem_filter

theorem pending_implicitNodes (hself : w.node? self = some n)
    (hread : ∀ m ∈ implicitNodes n, ∀ t, m.label = .inl t → cocoa.Rereads t m.children) :
    Pending cocoa w (implicitNodes n) where
  held := by
    intro m hm
    have hnd := (children_nodup w.nodup hself).1
    exact find?_of_find?_children w.nodup hself
      (find?_of_mem_nodes hnd (mem_implicitNodes.1 hm).1)
  implicit := fun m hm => (mem_implicitNodes.1 hm).2
  rereads := hread
  order := (pairwise_nodes (children_nodup w.nodup hself).1).filter _

theorem exec_enforceExplicitPreservedSpace_eq (cocoa : Cocoa) (hself : w.node? self = some n) :
    exec (enforceExplicitPreservedSpace cocoa self) w =
      exec (applySpaceFixes cocoa ((implicitNodes n).map fixOf)) w := by
  rw [enforceExplicitPreservedSpace]
  simp [hself, spaceFixes_eq_map]

theorem ready_of_explicit (h : hasImplicitSpace m.label = false) : Ready cocoa m := by
  intro t ht
  rw [ht] at h
  obtain ⟨hst, hend, -⟩ := plainTag_eq h
  exact ⟨hend, by omega⟩

/-- The method ends with the same nodes in order and all space below the receiver explicit exactly
if no element below has trailing space and no content of one with leading space is read with
implicit space again.  Neighbouring texts are joined. -/
theorem enforceExplicitPreservedSpace_correct_iff {cocoa : Cocoa} {w : World} {self : NodeID}
    {n : Node Tag Content} (hself : w.node? self = some n)
    (hread : ∀ m ∈ implicitNodes n, ∀ t, m.label = .inl t → cocoa.Rereads t m.children) :
    (∃ w' f, exec (enforceExplicitPreservedSpace cocoa self) w = some (.ok ((), w')) ∧
      w'.node? self = some { n with children := f } ∧
      xmlString f = xmlString n.children ∧
      (normalized f).anonymous = (normalized (explicitSpace n.children)).anonymous ∧
      ExplicitSpace f) ↔
    ∀ m ∈ n.children.nodes, Ready cocoa m := by
  have hpen := pending_implicitNodes hself hread
  have hbel : ∀ m ∈ implicitNodes n, m.id ∈ n.children.ids := fun m hm =>
    mem_ids_of_mem_nodes (mem_implicitNodes.1 hm).1 (.inl rfl)
  rw [exec_enforceExplicitPreservedSpace_eq cocoa hself]
  constructor
  · rintro ⟨w', f, hrun, hself', hstr, -, hexp⟩ m hm
    by_cases himp : hasImplicitSpace m.label = true
    · exact hpen.ready_of_run hself hbel hrun hself' hexp (congrArg List.length hstr)
        m (mem_implicitNodes.2 ⟨hm, himp⟩)
    · exact ready_of_explicit (Bool.not_eq_true _ ▸ himp)
  · intro hrdy
    obtain ⟨w', f, hrun, hself', hf⟩ := hpen.run_of_ready hself hbel fun m hm =>
      hrdy m (mem_implicitNodes.1 hm).1
    have hmem : ∀ k ∈ n.children.nodes,
        k.id ∈ (implicitNodes n).map Node.id ↔ k ∈ implicitNodes n := by
      intro k hk
      refine ⟨fun h => ?_, List.mem_map_of_mem⟩
      obtain ⟨k', hk', hid⟩ := mem_map.1 h
      obtain rfl := eq_of_mem_nodes (children_nodup w.nodup hself).1 hk
        (mem_implicitNodes.1 hk').1 hid.symm
      exact hk'
    obtain ⟨hnor, hexp⟩ :=
      @fixedSpace_correct cocoa ((implicitNodes n).map Node.id) n.children
      (fun k hk => by rw [hmem k hk, mem_implicitNodes, and_iff_right hk])
      (fun k hk hS => hread k ((hmem k hk).1 hS)) (fun k hk _ => hrdy k hk)
    have hsame : (normalized f).anonymous = (normalized (explicitSpace n.children)).anonymous := by
      rw [anonymous_normalized, anonymous_normalized, hf, hnor]
    refine ⟨w', f, hrun, hself', ?_, hsame, hexp.of_anonymous hf.symm⟩
    have hstr := congrArg xmlString hsame
    rwa [xmlString_anonymous, xmlString_anonymous, xmlString_normalized, xmlString_normalized,
      xmlString_explicitSpace] at hstr

/-- `<p>a<b>x</b></p>`, with space around the inner element. -/
def sampleSpaced (startWhitespace endWhitespace : ℕ) : World where
  trees := .branch 0 (plainTag (literal "p") []) (.leaf 1 (.text (literal "a"))
    (.branch 2 ⟨literal "b", [], startWhitespace, endWhitespace⟩
      (.leaf 3 (.text (literal "x")) .nil) .nil)) .nil
  nodup := by simp

/-- A parser that reads the inner element. -/
def Cocoa.readingInner : Cocoa where
  nodesForXPath := fun _ _ _ => .ok []
  initWithXMLString := fun s =>
    if s = literal "<b>x</b>" then
      some (plainTag (literal "b") [], .leaf 0 (.text (literal "x")) .nil)
    else none
  invalidUTF8EncodedXMLCharacters := fun _ => false
  marks := .none

theorem enforceExplicitPreservedSpace_correct_leading :
    ∃ w' f, exec (enforceExplicitPreservedSpace .readingInner 0) (sampleSpaced 1 0) =
        some (.ok ((), w')) ∧
      w'.node? 0 = some ⟨0, .inl (plainTag (literal "p") []), f⟩ ∧
      xmlString f = literal "a <b>x</b>" ∧ ExplicitSpace f := by
  let n : Node Tag Content :=
    ⟨0, .inl (plainTag (literal "p") []), (sampleSpaced 1 0).children 0⟩
  have hnode : (sampleSpaced 1 0).node? 0 = some n := rfl
  have hread : ∀ m ∈ implicitNodes n,
      ∀ t, m.label = .inl t → Cocoa.readingInner.Rereads t m.children := by
    intro m hm t ht
    obtain rfl : m = _ := List.mem_singleton.1 hm
    obtain rfl := Sum.inl.inj ht
    exact ⟨by decide, by decide, by decide⟩
  obtain ⟨w', f, hrun, hself, hstr, -, hexp⟩ :=
    (enforceExplicitPreservedSpace_correct_iff hnode hread).2 (by decide)
  exact ⟨w', f, hrun, hself, hstr.trans (by decide), hexp⟩

/-- Trailing space only: the copy is inserted beyond the last child, which raises.  On both sides:
the trailing space is lost. -/
theorem enforceExplicitPreservedSpace_wrong :
    exec (enforceExplicitPreservedSpace .readingInner 0) (sampleSpaced 0 1) =
        some (.error .range) ∧
    ((exec (enforceExplicitPreservedSpace .readingInner 0) (sampleSpaced 1 1)).map fun outcome =>
      outcome.toOption.map fun p => xmlString (p.2.children 0)) =
        some (some (literal "a <b>x</b>")) ∧
    xmlString ((sampleSpaced 1 1).children 0) = literal "a <b>x</b> " := by
  decide

end Feather.XML
