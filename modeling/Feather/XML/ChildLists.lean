import Feather.OrderedTree.Family
import Feather.XML.Create

/-!
# Rearranging the children of an element

`wrapChildren:elementName:` moves children into a new element, `replaceChild:withNodes:` puts nodes
in the place of a child.  Both compute an index in the child list and use it after the list has
changed.

`Held w x P L` says that `x` is an element below the nodes `P`, with the child list `L`; every step
keeps a statement of this form.  What is left are facts about lists: the index is right exactly if
no moved node stood in front of it.  The last section follows the children with everything below
them.
-/

namespace Feather.XML

open OrderedTree Forest Program World
open List hiding append_assoc append_nil find?_append nil_append

variable {w w' : World} {x el n self : NodeID} {P L before : List NodeID} {i : ℕ} {F cs : Nodes}

/-! ### The methods -/

/-- `for (NSXMLNode *n in nodes) { [n detach]; [el addChild:n]; }` -/
def moveInto (el : NodeID) : List NodeID → Action Unit
  | [] => pure ()
  | n :: nodes => do
    modify fun w => w.detach n
    addChild el n
    moveInto el nodes

/-- `-wrapChildren:elementName:` -/
def wrapChildren (self : NodeID) (nodes : List NodeID) (wrappingElementName : NSString) :
    Action (Option NodeID) := do
  let w ← get
  let childNodes := nodes.filter fun node => decide (w.parent? node = some self)
  match childNodes with
  | [] => pure none
  | first :: _ =>
    match indexOfObject (w.children self).rootIDs first with
    | none => throw .internalInconsistency
    | some i => do
      let el ← newElement wrappingElementName []
      moveInto el childNodes
      insertChild self el i
      pure (some el)

/-- `for (NSUInteger j = 0; j < nodes.count; j++)`: detach each node and insert it at `i + j`. -/
def insertNodes (self : NodeID) : ℕ → List NodeID → Action Unit
  | _, [] => pure ()
  | i, n :: nodes => do
    modify fun w => w.detach n
    insertChild self n i
    insertNodes self (i + 1) nodes

/-- `-collapse`.  Without a parent there is nothing to insert the children into. -/
def collapse (self : NodeID) : Action Unit := do
  let w ← get
  match w.parent? self with
  | none => modify fun w => (w.children self).rootIDs.foldl detach w
  | some parent =>
    match indexOfObject (w.children parent).rootIDs self with
    | none => throw .range
    | some i => do
      insertNodes parent i (w.children self).rootIDs
      modify fun w => w.detach self

/-- `-replaceChild:withNodes:` -/
def replaceChildWithNodes (self node : NodeID) (nodes : List NodeID) : Action (Option ℕ) := do
  let w ← get
  match indexOfObject (w.children self).rootIDs node with
  | none => pure none
  | some i => do
    removeChildAtIndex self i
    insertNodes self i nodes
    pure (some i)

/-! ### Elements and their child lists -/

theorem World.rootIDs_children (w : World) (x : NodeID) :
    (w.children x).rootIDs = w.trees.childIDs x := by
  rw [children, node?, childIDs]
  cases w.trees.find? x <;> rfl

/-- The element `x` is in the store, below the nodes `P`, and has the children `L`. -/
structure Held (w : World) (x : NodeID) (P L : List NodeID) : Prop where
  label : ∃ tag, (w.trees.find? x).map Node.label = some (.inl tag)
  path : w.trees.path? x = some P
  children : w.trees.childIDs x = L

namespace Held

variable {w : World} {x c n : NodeID} {P L : List NodeID}

theorem find? (h : Held w x P L) : ∃ m tag, w.trees.find? x = some m ∧ m.label = .inl tag := by
  obtain ⟨tag, ht⟩ := h.label
  obtain ⟨m, hm, hl⟩ := Option.map_eq_some_iff.1 ht
  exact ⟨m, tag, hm, hl⟩

theorem kind? (h : Held w x P L) : w.kind? x = some .element := by
  obtain ⟨m, tag, hm, hl⟩ := h.find?
  simp [World.kind?, World.node?, hm, hl, kind]

theorem rootIDs_children (h : Held w x P L) : (w.children x).rootIDs = L := by
  rw [w.rootIDs_children, h.children]

theorem mem_ids (h : Held w x P L) : x ∈ w.trees.ids := mem_of_path? h.path

theorem nodup (h : Held w x P L) : L.Nodup := by
  rw [← h.children]
  exact nodup_childIDs w.nodup x

theorem child_notMem (h : Held w x P L) (hc : c ∈ L) : c ∉ P ∧ c ≠ x :=
  notMem_path?_of_mem_childIDs w.nodup (h.children ▸ hc) h.path

/-- A node with a child is an element. -/
theorem of_mem_children (hc : c ∈ (w.children x).rootIDs) :
    ∃ P, Held w x P (w.children x).rootIDs := by
  have hc' : c ∈ w.trees.childIDs x := w.rootIDs_children x ▸ hc
  obtain ⟨P, hP, -⟩ := path?_of_mem_childIDs w.nodup hc'
  refine ⟨P, ?_, hP, (w.rootIDs_children x).symm⟩
  obtain ⟨n, hn⟩ := exists_find?_of_mem (mem_of_path? hP)
  rw [childIDs_of_find? hn] at hc'
  cases hl : n.label with
  | inl tag => exact ⟨tag, by rw [hn, Option.map_some, hl]⟩
  | inr content => simp [children_eq_nil_of_leaf hn hl] at hc'

theorem detach (h : Held w x P L) (hn : n ∉ P) (hnx : n ≠ x) : Held (w.detach n) x P (L.erase n) where
  label := by
    obtain ⟨tag, ht⟩ := h.label
    exact ⟨tag, (map_label_find?_detach w.nodup n x).trans ht⟩
  path := path?_detach w.nodup h.path hn hnx
  children := by rw [← h.children]; exact childIDs_detach w.nodup n x

theorem exec_insertChild (h : Held w x P L) (hc : w.trees.path? c = some []) (hcP : c ∉ P)
    (hcx : c ≠ x) (hi : i ≤ L.length) :
    ∃ w', exec (insertChild x c i) w = some (.ok ((), w')) ∧
      Held w' x P (L.take i ++ c :: L.drop i) ∧
      (∀ y Q M, y ≠ x → c ∉ Q → c ≠ y → Held w y Q M → Held w' y Q M) ∧
      (∀ y, y ≠ x → w'.trees.childIDs y = w.trees.childIDs y) ∧
      ∀ y, (w'.trees.find? y).map Node.label = (w.trees.find? y).map Node.label := by
  obtain ⟨m, tag, hm, hl⟩ := h.find?
  have hpar : w.parent? c = none := parent?_of_path?_nil hc
  have hlab := map_label_find?_attach w.nodup hm hl h.path hcP hcx i
  refine ⟨w.attach x i c, ?_, ⟨?_, ?_, ?_⟩, ?_, ?_, hlab⟩
  · simp [insertChild, h.kind?, hpar, h.rootIDs_children, Nat.not_lt.2 hi]
  · exact ⟨tag, by rw [← hl, ← Option.map_some, ← hm]; exact hlab x⟩
  · exact path?_attach w.nodup h.path hcP hcx x i
  · rw [← h.children]
    exact childIDs_attach_self w.nodup hc hm hl h.path hcP hcx i
  · intro y Q M hyx hcQ hcy hy
    obtain ⟨tag', ht'⟩ := hy.label
    refine ⟨⟨tag', (hlab y).trans ht'⟩, path?_attach w.nodup hy.path hcQ hcy x i, ?_⟩
    rw [← hy.children]
    exact childIDs_attach_of_ne w.nodup hc hm hl h.path hcP hcx i hyx
  · intro y hyx
    exact childIDs_attach_of_ne w.nodup hc hm hl h.path hcP hcx i hyx

theorem mem_ids_of_label {f g : Nodes} {y : NodeID} (hy : y ∈ f.ids)
    (h : (g.find? y).map Node.label = (f.find? y).map Node.label) : y ∈ g.ids := by
  obtain ⟨k, hk⟩ := exists_find?_of_mem hy
  rw [hk] at h
  obtain ⟨k', hk', -⟩ := Option.map_eq_some_iff.1 h
  exact mem_of_find? hk'

theorem exec_insertChild_range (h : Held w x P L) (hc : w.trees.path? c = some [])
    (hi : L.length < i) : exec (insertChild x c i) w = some (.error .range) := by
  have hpar : w.parent? c = none := parent?_of_path?_nil hc
  simp [insertChild, h.kind?, hpar, h.rootIDs_children, hi]

end Held

theorem World.mem_ids_detach (w : World) (n y : NodeID) :
    y ∈ (w.detach n).trees.ids ↔ y ∈ w.trees.ids :=
  (ids_detach_perm w.nodup n).mem_iff

/-! ### Wrapping -/

/-- The nodes to be moved are taken off the list of `x` and put at the end of the list of `el`. -/
theorem exec_moveInto {M nodes : List NodeID} (hx : Held w x P L) (hel : Held w el [] M)
    (hxel : x ≠ el) (hnos : ∀ n ∈ nodes, n ∈ L) (hM : ∀ n ∈ nodes, n ∉ M)
    (hnel : ∀ n ∈ nodes, n ≠ el) (hd : nodes.Nodup) :
    ∃ w', exec (moveInto el nodes) w = some (.ok ((), w')) ∧
      Held w' x P (L.filter fun n => decide (n ∉ nodes)) ∧ Held w' el [] (M ++ nodes) := by
  induction nodes generalizing w L M with
  | nil => exact ⟨w, rfl, by simpa using hx, by simpa using hel⟩
  | cons n nodes ih =>
    have hnL := hnos n (by simp)
    obtain ⟨hnP, hnx⟩ := hx.child_notMem hnL
    have hnM := hM n (by simp)
    have hne := hnel n (by simp)
    rw [nodup_cons] at hd
    have hmem : n ∈ w.trees.ids := by
      obtain ⟨Q, -, hQ⟩ := path?_of_mem_childIDs w.nodup (hx.children ▸ hnL)
      exact mem_of_path? hQ
    have hx1 := hx.detach hnP hnx
    have hel1 := hel.detach (n := n) (by simp) hne
    rw [erase_of_not_mem hnM] at hel1
    obtain ⟨w2, hexec, hel2, hkeep, -, -⟩ := hel1.exec_insertChild
      (path?_detach_self w.nodup hmem) (by simp) hne (le_refl M.length)
    rw [take_length, drop_length] at hel2
    have hx2 := hkeep x P _ hxel hnP hnx hx1
    have hrest : ∀ m ∈ nodes, m ∈ L.erase n := by
      intro m hm
      refine (mem_erase_of_ne ?_).2 (hnos m (by simp [hm]))
      rintro rfl
      exact hd.1 hm
    obtain ⟨w', hrun, hx', hel'⟩ := ih hx2 hel2 hrest
      (fun m hm => by
        rw [mem_append, mem_singleton, not_or]
        refine ⟨hM m (by simp [hm]), ?_⟩
        rintro rfl
        exact hd.1 hm)
      (fun m hm => hnel m (by simp [hm])) hd.2
    refine ⟨w', ?_, ?_, by simpa using hel'⟩
    · have hadd : exec (addChild el n) (w.detach n) = some (.ok ((), w2)) := by
        simpa [addChild, hel1.rootIDs_children] using hexec
      simp [moveInto, hadd, hrun]
    · have hera : (L.erase n).filter (fun m => decide (m ∉ nodes)) =
          L.filter fun m => decide (m ∉ n :: nodes) := by
        rw [hx.nodup.erase_eq_filter, filter_filter]
        refine filter_congr fun m _ => ?_
        by_cases hmn : m = n <;> simp [hmn]
      rwa [hera] at hx'

theorem Held.newElement (h : Held w x P L) (tag : Tag) :
    Held (w.add (single 0 (.inl tag))) x P L ∧
      Held (w.add (single 0 (.inl tag))) w.trees.fresh [] [] := by
  have htre := w.trees_add_single (.inl tag)
  have hfr : w.trees.fresh ∉ w.trees.ids := fun hmem => lt_irrefl _ (lt_fresh hmem)
  refine ⟨⟨?_, ?_, ?_⟩, ⟨?_, ?_, ?_⟩⟩
  · obtain ⟨tag', ht⟩ := h.label
    exact ⟨tag', by rw [htre, find?_append_of_mem h.mem_ids, ht]⟩
  · rw [htre, path?_append_of_mem h.mem_ids, h.path]
  · rw [htre, childIDs_append_of_mem h.mem_ids, h.children]
  · exact ⟨tag, by rw [htre, find?_append_of_notMem hfr, find?_single]; rfl⟩
  · rw [htre, path?_append_of_notMem hfr]
    simp [single, Node.tree, path?]
  · rw [htre, childIDs_append_of_notMem hfr, childIDs_of_find? (find?_single _ _)]
    rfl

theorem indexOfObject_append {after : List NodeID} (h : x ∉ before) :
    indexOfObject (before ++ x :: after) x = some before.length := by
  rw [indexOfObject, if_pos (by simp), idxOf_append_of_notMem h, idxOf_cons_self,
    Nat.add_zero]

section Wrap

variable {w : World} {self first : NodeID} {nodes rest before after : List NodeID}
  (hchild : nodes.filter (fun n => decide (w.parent? n = some self)) = first :: rest)
  (hlist : (w.children self).rootIDs = before ++ first :: after)
include hchild hlist

theorem mem_listed_iff (hn : n ∈ before ++ first :: after) : n ∈ first :: rest ↔ n ∈ nodes := by
  have hpar : w.parent? n = some self :=
    (parent?_eq_some_iff w.nodup).2 (by rw [← w.rootIDs_children, hlist]; exact hn)
  rw [← hchild]
  simp [hpar]

theorem filter_unlisted : (before ++ first :: after).filter (fun n => decide (n ∉ first :: rest)) =
    before.filter (fun n => decide (n ∉ nodes)) ++ after.filter fun n => decide (n ∉ nodes) := by
  have hfst : first ∈ first :: rest := mem_cons_self
  have hcon : (before ++ first :: after).filter (fun n => decide (n ∉ first :: rest)) =
      (before ++ first :: after).filter fun n => decide (n ∉ nodes) := by
    refine filter_congr fun n hn => ?_
    rw [decide_eq_decide, mem_listed_iff hchild hlist hn]
  rw [hcon, filter_append, filter_cons_of_neg]
  rw [mem_listed_iff hchild hlist (by simp)] at hfst
  simpa using hfst

/-- The index in front of the first listed child is used in the list of the unlisted children. -/
theorem exec_wrapChildren (hd : nodes.Nodup) (name : NSString) :
    ((before.filter (fun n => decide (n ∉ nodes)) ++
          after.filter fun n => decide (n ∉ nodes)).length < before.length ∧
        exec (wrapChildren self nodes name) w = some (.error .range)) ∨
      ∃ w', exec (wrapChildren self nodes name) w = some (.ok (some w.trees.fresh, w')) ∧
        before.length ≤ (before.filter (fun n => decide (n ∉ nodes)) ++
          after.filter fun n => decide (n ∉ nodes)).length ∧
        (w'.children w.trees.fresh).rootIDs = first :: rest ∧
        (w'.children self).rootIDs =
          (before.filter (fun n => decide (n ∉ nodes)) ++
            after.filter fun n => decide (n ∉ nodes)).take before.length ++ w.trees.fresh ::
          (before.filter (fun n => decide (n ∉ nodes)) ++
            after.filter fun n => decide (n ∉ nodes)).drop before.length := by
  obtain ⟨P, hself⟩ := Held.of_mem_children (show first ∈ (w.children self).rootIDs by simp [hlist])
  rw [hlist] at hself
  have hnd := hself.nodup
  have hfr : w.trees.fresh ∉ w.trees.ids := fun hmem => lt_irrefl _ (lt_fresh hmem)
  have hlis : ∀ n ∈ first :: rest, n ∈ before ++ first :: after := by
    intro n hn
    rw [← hchild, mem_filter, decide_eq_true_eq] at hn
    rw [← hself.children]
    exact (parent?_eq_some_iff w.nodup).1 hn.2
  have hmem : ∀ n ∈ before ++ first :: after, n ∈ w.trees.ids := by
    intro n hn
    obtain ⟨Q, -, hQ⟩ := path?_of_mem_childIDs w.nodup (hself.children ▸ hn)
    exact mem_of_path? hQ
  have hne : w.trees.fresh ≠ self := fun h => hfr (h ▸ hself.mem_ids)
  have hP : w.trees.fresh ∉ P := by
    intro hmem
    obtain ⟨Q, R, rfl⟩ := append_of_mem hmem
    exact hfr (mem_of_path? (path?_of_path?_append w.nodup hself.path))
  have hix : indexOfObject (w.children self).rootIDs first = some before.length := by
    rw [hlist, indexOfObject_append]
    intro hb
    rw [nodup_append] at hnd
    exact hnd.2.2 first hb first (by simp) rfl
  -- the listed children are moved into the new element
  obtain ⟨hself₁, hel1⟩ := hself.newElement (plainTag name [])
  obtain ⟨w2, hmove, hself₂, hel2⟩ := exec_moveInto hself₁ hel1
    hne.symm hlis (by simp)
    (fun n hn h => hfr (h ▸ hmem n (hlis n hn))) (hchild ▸ hd.filter _)
  rw [filter_unlisted hchild hlist] at hself₂
  have hst : exec (wrapChildren self nodes name) w =
      andThen (exec (insertChild self w.trees.fresh before.length) w2)
        fun _ => pure (some w.trees.fresh) := by
    have hnew : exec (newElement name []) w =
        some (.ok (w.trees.fresh, w.add (single 0 (.inl (plainTag name []))))) := rfl
    rw [wrapChildren]
    simp [hchild, hix, exec_bind, hnew, hmove]
  by_cases hlen : before.length ≤ (before.filter (fun n => decide (n ∉ nodes)) ++
      after.filter fun n => decide (n ∉ nodes)).length
  · obtain ⟨w3, hexec, hself₃, -, hchi, -⟩ := hself₂.exec_insertChild hel2.path hP
      hne hlen
    refine .inr ⟨w3, ?_, hlen, ?_, hself₃.rootIDs_children⟩
    · rw [hst, hexec, andThen_ok, exec_pure]
    · rw [w3.rootIDs_children, hchi _ hne, hel2.children, List.nil_append]
  · refine .inl ⟨by omega, ?_⟩
    rw [hst, hself₂.exec_insertChild_range hel2.path (by omega), andThen_error]

/-- The wrapper gets the listed children and stands behind the unlisted ones in front of the first
listed, exactly if no listed child stood in front of that. -/
theorem wrapChildren_correct_iff (hd : nodes.Nodup) (name : NSString) :
    (∃ el w', exec (wrapChildren self nodes name) w = some (.ok (some el, w')) ∧ el ∉ w.trees.ids ∧
        (w'.children el).rootIDs = nodes.filter (fun n => decide (w.parent? n = some self)) ∧
        (w'.children self).rootIDs = before.filter (fun n => decide (n ∉ nodes)) ++
          el :: after.filter fun n => decide (n ∉ nodes)) ↔
      ∀ n ∈ before, n ∉ nodes := by
  have hfr : w.trees.fresh ∉ w.trees.ids := fun hmem => lt_irrefl _ (lt_fresh hmem)
  have hmem : ∀ n ∈ before ++ first :: after, n ∈ w.trees.ids := by
    intro n hn
    rw [← hlist, w.rootIDs_children] at hn
    obtain ⟨Q, -, hQ⟩ := path?_of_mem_childIDs w.nodup hn
    exact mem_of_path? hQ
  have hexec := exec_wrapChildren hchild hlist hd name
  generalize hU : before.filter (fun n => decide (n ∉ nodes)) = U at hexec ⊢
  generalize hV : after.filter (fun n => decide (n ∉ nodes)) = V at hexec ⊢
  have hfre : w.trees.fresh ∉ U := by
    rw [← hU]
    exact fun h => hfr (hmem _ (by simp [mem_of_mem_filter h]))
  have hfres : w.trees.fresh ∉ V := by
    rw [← hV]
    exact fun h => hfr (hmem _ (by simp [mem_of_mem_filter h]))
  have hUlen : U.length = before.length ↔ ∀ n ∈ before, n ∉ nodes := by
    rw [← hU]
    simp
  constructor
  · rintro ⟨el, w', hrun, -, -, hself⟩
    rw [← hUlen]
    rcases hexec with ⟨-, herr⟩ | ⟨w'', hok, hle, -, hself''⟩
    · rw [hrun] at herr
      cases herr
    · rw [hrun, Option.some.injEq, Except.ok.injEq, Prod.mk.injEq, Option.some.injEq] at hok
      obtain ⟨rfl, rfl⟩ := hok
      rw [hself, append_cons_inj_of_notMem hfre hfres] at hself''
      have hcut := congrArg length hself''.1
      rw [length_take] at hcut
      omega
  · intro h
    have hlen := hUlen.2 h
    rcases hexec with ⟨hlt, -⟩ | ⟨w', hok, -, hel', hself'⟩
    · rw [length_append] at hlt
      omega
    · refine ⟨_, w', hok, hfr, by rw [hel', hchild], ?_⟩
      rw [hself', ← hlen, take_left, drop_left]

end Wrap

/-- `<p>abc</p>`, the letters in text nodes of their own -/
def sampleLetters : World where
  trees := .branch 0 (plainTag (literal "p") []) (.leaf 1 (.text (literal "a"))
    (.leaf 2 (.text (literal "b")) (.leaf 3 (.text (literal "c")) .nil))) .nil
  nodup := by decide

theorem wrapChildren_correct_letters :
    ∃ el w', exec (wrapChildren 0 [1, 3] (literal "b")) sampleLetters = some (.ok (some el, w')) ∧
      el ∉ sampleLetters.trees.ids ∧
      (w'.children el).rootIDs =
        [1, 3].filter (fun n => decide (sampleLetters.parent? n = some 0)) ∧
      (w'.children 0).rootIDs = ([] : List NodeID).filter (fun n => decide (n ∉ [1, 3])) ++
        el :: [2, 3].filter fun n => decide (n ∉ [1, 3]) := by
  have hchild : [1, 3].filter (fun n => decide (sampleLetters.parent? n = some 0)) = 1 :: [3] := rfl
  have hlist : (sampleLetters.children 0).rootIDs = [] ++ 1 :: [2, 3] := rfl
  exact (wrapChildren_correct_iff hchild hlist (by decide) (literal "b")).2 (by decide)

/-- Listed in the opposite order, children end up behind the third. -/
theorem wrapChildren_wrong :
    (∃ w', exec (wrapChildren 0 [2, 1] (literal "b")) sampleLetters = some (.ok (some 4, w')) ∧
      (w'.children 0).rootIDs = [3, 4]) ∧
    exec (wrapChildren 0 [3, 2, 1] (literal "b")) sampleLetters = some (.error .range) :=
  ⟨⟨_, rfl, rfl⟩, rfl⟩

/-! ### Replacing -/

/-- The child list during the loop: each node is inserted at the next index. -/
def insertedAll : ℕ → List NodeID → List NodeID → Option (List NodeID)
  | _, L, [] => some L
  | i, L, n :: nodes =>
    if i ≤ (L.erase n).length then
      insertedAll (i + 1) ((L.erase n).take i ++ n :: (L.erase n).drop i) nodes
    else none

/-- The loop on nodes that are not above the element. -/
theorem exec_insertNodes {nodes : List NodeID} (h : Held w x P L)
    (hmem : ∀ n ∈ nodes, n ∈ w.trees.ids) (hnos : ∀ n ∈ nodes, n ∉ P ∧ n ≠ x) :
    (insertedAll i L nodes = none ∧ exec (insertNodes x i nodes) w = some (.error .range)) ∨
      ∃ L' w', insertedAll i L nodes = some L' ∧
        exec (insertNodes x i nodes) w = some (.ok ((), w')) ∧ Held w' x P L' ∧
        ∀ y, (w'.trees.find? y).map Node.label = (w.trees.find? y).map Node.label ∧
          (y ≠ x → w'.trees.childIDs y = (w.trees.childIDs y).diff nodes) := by
  induction nodes generalizing w L i with
  | nil => exact .inr ⟨L, w, rfl, rfl, h, fun y => ⟨rfl, fun _ => rfl⟩⟩
  | cons n nodes ih =>
    obtain ⟨hnP, hnx⟩ := hnos n (by simp)
    have h1 := h.detach hnP hnx
    have hroot := path?_detach_self w.nodup (hmem n (by simp))
    rw [insertedAll]
    by_cases hi : i ≤ (L.erase n).length
    · obtain ⟨w2, hexec, h2, -, hchi, hlab⟩ := h1.exec_insertChild hroot hnP hnx hi
      have hmem₂ : ∀ m ∈ nodes, m ∈ w2.trees.ids := by
        intro m hm
        exact Held.mem_ids_of_label ((w.mem_ids_detach n m).2 (hmem m (by simp [hm]))) (hlab m)
      rw [if_pos hi]
      have hstep : exec (insertNodes x i (n :: nodes)) w =
          exec (insertNodes x (i + 1) nodes) w2 := by
        simp [insertNodes, hexec]
      rw [hstep]
      refine (ih h2 hmem₂ fun m hm => hnos m (by simp [hm])).imp_right ?_
      rintro ⟨L', w', hL', hok, h', hkept⟩
      refine ⟨L', w', hL', hok, h', fun y => ⟨?_, fun hy => ?_⟩⟩
      · rw [(hkept y).1, hlab y]
        exact map_label_find?_detach w.nodup n y
      · rw [(hkept y).2 hy, hchi y hy, diff_cons]
        exact congrArg (List.diff · nodes) (childIDs_detach w.nodup n y)
    · rw [if_neg hi]
      have hran := h1.exec_insertChild_range hroot (show (L.erase n).length < i by omega)
      simp [insertNodes, hran]

/-- Once the element is lost, nothing can be inserted into it. -/
theorem exec_insertNodes_lost {nodes : List NodeID} (h : x ∉ w.trees.ids)
    (hrun : exec (insertNodes x i nodes) w = some (.ok ((), w'))) : x ∉ w'.trees.ids := by
  cases nodes with
  | nil =>
    simp only [insertNodes, exec_pure, Option.some.injEq, Except.ok.injEq, Prod.mk.injEq] at hrun
    rwa [← hrun.2]
  | cons n nodes =>
    have hkind : (w.detach n).kind? x = none := by
      have : x ∉ (w.detach n).trees.ids := fun hx => h ((w.mem_ids_detach n x).1 hx)
      simp [kind?, node?, find?_eq_none.2 this]
    simp [insertNodes, insertChild, hkind] at hrun

theorem notMem_of_exec_insertNodes {nodes : List NodeID} (h : Held w x P L)
    (hmem : ∀ n ∈ nodes, n ∈ w.trees.ids)
    (hrun : exec (insertNodes x i nodes) w = some (.ok ((), w'))) (hx : x ∈ w'.trees.ids) :
    ∀ n ∈ nodes, n ∉ P ∧ n ≠ x := by
  induction nodes generalizing w L i with
  | nil => simp
  | cons n nodes ih =>
    have hroot := path?_detach_self w.nodup (hmem n (by simp))
    by_cases hn : n ∉ P ∧ n ≠ x
    · have h1 := h.detach hn.1 hn.2
      by_cases hi : i ≤ (L.erase n).length
      · obtain ⟨w2, hexec, h2, -, -, hlab⟩ := h1.exec_insertChild hroot hn.1 hn.2 hi
        have hmem₂ : ∀ m ∈ nodes, m ∈ w2.trees.ids := by
          intro m hm
          exact Held.mem_ids_of_label ((w.mem_ids_detach n m).2 (hmem m (by simp [hm]))) (hlab m)
        have hrest : exec (insertNodes x (i + 1) nodes) w2 = some (.ok ((), w')) := by
          simpa [insertNodes, hexec] using hrun
        intro m hm
        rcases mem_cons.1 hm with rfl | hm
        · exact hn
        · exact ih h2 hmem₂ hrest m hm
      · have hran := h1.exec_insertChild_range hroot (show (L.erase n).length < i by omega)
        simp [insertNodes, hran] at hrun
    · -- the element is in the tree that is inserted into it
      exfalso
      obtain ⟨m, hm⟩ := exists_find?_of_mem (hmem n (by simp))
      have hxm : x ∈ m.tree.ids := by
        by_cases hnP : n ∈ P
        · obtain ⟨Q, R, rfl⟩ := append_of_mem hnP
          exact mem_tree_of_path? w.nodup h.path hm
        · obtain rfl : n = x := by
            by_contra hnx
            exact hn ⟨hnP, hnx⟩
          simp [ids_tree hm]
      have hlost : x ∉ ((w.detach n).attach x i n).trees.ids :=
        notMem_attach (w.detach n).nodup (find?_detach_self w.nodup hm) hxm i
      have hkind : (w.detach n).kind? x = some .element := by
        obtain ⟨tag, ht⟩ := h.label
        obtain ⟨k, hk, hl⟩ := Option.map_eq_some_iff.1
          ((map_label_find?_detach w.nodup n x).trans ht)
        simp [World.kind?, World.node?, World.detach, hk, hl, kind]
      have hpar : (w.detach n).parent? n = none := parent?_of_path?_nil hroot
      simp only [insertNodes, exec_bind, exec_modify, andThen_ok, insertChild, exec_get, hkind,
        hpar, ne_eq, not_true_eq_false, or_self, if_false, exec_ite, exec_set] at hrun
      split_ifs at hrun with hi
      · simp at hrun
      · rw [andThen_ok] at hrun
        exact exec_insertNodes_lost hlost hrun hx

/-- If no node is taken from the front part of the list, the nodes are put behind it in order. -/
theorem insertedAll_eq {after nodes : List NodeID} (hd : nodes.Nodup) (hb : ∀ n ∈ nodes, n ∉ before)
    (ha : after.Nodup) :
    insertedAll before.length (before ++ after) nodes =
      some (before ++ (nodes ++ after.filter fun n => decide (n ∉ nodes))) := by
  induction nodes generalizing before after with
  | nil => simp [insertedAll]
  | cons n nodes ih =>
    rw [nodup_cons] at hd
    have hn := hb n (by simp)
    have hrest : ∀ m ∈ nodes, m ∉ before ++ [n] := by
      intro m hm
      rw [mem_append, mem_singleton, not_or]
      refine ⟨hb m (by simp [hm]), ?_⟩
      rintro rfl
      exact hd.1 hm
    have hera : (before ++ after).erase n = before ++ after.erase n := erase_append_right _ hn
    have hfil : (after.erase n).filter (fun m => decide (m ∉ nodes)) =
        after.filter fun m => decide (m ∉ n :: nodes) := by
      rw [ha.erase_eq_filter, filter_filter]
      refine filter_congr fun m _ => ?_
      by_cases hmn : m = n <;> simp [hmn]
    have hstep := ih hd.2 hrest (ha.erase n)
    rw [length_append, length_singleton, List.append_assoc, singleton_append,
      hfil] at hstep
    rw [insertedAll, hera, take_left, drop_left, hstep]
    simp

/-- The last node is inserted at the last index. -/
theorem getElem?_of_insertedAll {L' nodes : List NodeID}
    (h : insertedAll i L (nodes ++ [n]) = some L') : L'[i + nodes.length]? = some n := by
  induction nodes generalizing i L with
  | nil =>
    rw [List.nil_append, insertedAll] at h
    split_ifs at h with hi
    rw [insertedAll, Option.some.injEq] at h
    have hlen : ((L.erase n).take i).length = i := by
      rw [length_take]
      omega
    rw [← h, length_nil, Nat.add_zero, getElem?_append_right hlen.le, hlen, Nat.sub_self]
    rfl
  | cons m nodes ih =>
    rw [cons_append, insertedAll] at h
    split_ifs at h with hi
    have := ih h
    rw [length_cons]
    rwa [show i + (nodes.length + 1) = i + 1 + nodes.length by omega]

theorem length_eq_of_getElem? {U V nodes : List NodeID}
    (h : (U ++ (nodes ++ [n] ++ V))[i + nodes.length]? = some n) (hU : U.length ≤ i) (hV : n ∉ V) :
    U.length = i := by
  by_contra hne
  have hback : (U ++ (nodes ++ [n])).length ≤ i + nodes.length := by
    simp only [length_append, length_singleton]
    omega
  rw [← List.append_assoc, getElem?_append_right hback] at h
  exact hV (mem_of_getElem? h)

theorem Held.notMem_path_iff (hself : Held w self P L) (hn : n ∈ w.trees.ids) :
    (n ∉ P ∧ n ≠ self) ↔ ∀ m, w.node? n = some m → self ∉ m.tree.ids := by
  constructor
  · rintro ⟨hP, hne⟩ m hm
    exact notMem_tree_of_path? w.nodup hself.path hP hne hm
  · intro h
    obtain ⟨m, hm⟩ := exists_find?_of_mem hn
    constructor
    · intro hP
      obtain ⟨Q, R, rfl⟩ := append_of_mem hP
      exact h m hm (mem_tree_of_path? w.nodup hself.path hm)
    · rintro rfl
      exact h m hm (by simp [ids_tree hm])

/-- The replaced child is detached, and the nodes are inserted in its place. -/
theorem exec_replaceChildWithNodes {node : NodeID} {nodes after : List NodeID}
    (hlist : (w.children self).rootIDs = before ++ node :: after) (hnb : node ∉ before) :
    exec (replaceChildWithNodes self node nodes) w =
      andThen (exec (insertNodes self before.length nodes) (w.detach node))
        fun _ => pure (some before.length) := by
  have hix : indexOfObject (w.children self).rootIDs node = some before.length := by
    rw [hlist, indexOfObject_append hnb]
  have hrem : exec (removeChildAtIndex self before.length) w =
      some (.ok ((), w.detach node)) := by
    simp [removeChildAtIndex, hlist]
  rw [replaceChildWithNodes]
  simp [hix, hrem]

theorem exec_replaceChildWithNodes_eq_ok {node : NodeID} {nodes after : List NodeID}
    (hlist : (w.children self).rootIDs = before ++ node :: after) (hnb : node ∉ before) :
    exec (replaceChildWithNodes self node nodes) w = some (.ok (some before.length, w')) ↔
      exec (insertNodes self before.length nodes) (w.detach node) = some (.ok ((), w')) := by
  rw [exec_replaceChildWithNodes hlist hnb, ← exec_bind, exec_bind_eq_ok]
  constructor
  · rintro ⟨⟨⟩, w'', hins, hpure⟩
    cases hpure
    exact hins
  · intro hins
    exact ⟨(), w', hins, rfl⟩

/-- The nodes are put between the other children in front of the replaced child and those behind it,
exactly if none stood in front of it and the element is in none of them. -/
theorem replaceChildWithNodes_correct_iff {w : World} {self node : NodeID}
    {nodes before after : List NodeID} (hlist : (w.children self).rootIDs = before ++ node :: after)
    (hd : nodes.Nodup) (hmem : ∀ n ∈ nodes, n ∈ w.trees.ids) :
    (∃ w', exec (replaceChildWithNodes self node nodes) w = some (.ok (some before.length, w')) ∧
        (w'.children self).rootIDs = before.filter (fun n => decide (n ∉ nodes)) ++
          (nodes ++ after.filter fun n => decide (n ∉ nodes))) ↔
      ∀ n ∈ nodes, n ∉ before ∧ ∀ m, w.node? n = some m → self ∉ m.tree.ids := by
  obtain ⟨P, hself⟩ := Held.of_mem_children (show node ∈ (w.children self).rootIDs by simp [hlist])
  rw [hlist] at hself
  have hnd := hself.nodup
  rw [nodup_append, nodup_cons] at hnd
  obtain ⟨hbef, ⟨hnode, haft⟩, hdisj⟩ := hnd
  have hnb : node ∉ before := fun h => hdisj node h node (by simp) rfl
  obtain ⟨hnP, hns⟩ := hself.child_notMem (c := node) (by simp)
  -- the replaced child is detached
  have hself₁ := hself.detach hnP hns
  rw [erase_append_right _ hnb, erase_cons_head] at hself₁
  have hmem₁ : ∀ n ∈ nodes, n ∈ (w.detach node).trees.ids :=
    fun n hn => (w.mem_ids_detach node n).2 (hmem n hn)
  simp only [exec_replaceChildWithNodes_eq_ok hlist hnb]
  constructor
  · rintro ⟨w', hrun, hchi⟩
    rcases eq_nil_or_concat nodes with rfl | ⟨front, last, rfl⟩
    · simp
    rw [concat_eq_append] at *
    have hin : self ∈ w'.trees.ids := by
      by_contra hnot
      rw [w'.rootIDs_children, childIDs_of_notMem hnot] at hchi
      simp at hchi
    have hnot := notMem_of_exec_insertNodes hself₁ hmem₁ hrun hin
    rcases exec_insertNodes (i := before.length) hself₁ hmem₁ hnot with
      ⟨-, herror⟩ | ⟨L, w₃, hL, hok, hself₃, -⟩
    · rw [hrun] at herror
      cases herror
    · obtain rfl : w' = w₃ := by
        rw [hrun] at hok
        simpa using hok
      rw [hself₃.rootIDs_children] at hchi
      have hlast := getElem?_of_insertedAll hL
      rw [hchi] at hlast
      have hlen := length_eq_of_getElem? hlast (length_filter_le _ _) (by simp)
      have hkept := length_filter_eq_length_iff.1 hlen
      intro n hn
      refine ⟨fun hnb' => ?_, (hself.notMem_path_iff (hmem n hn)).1 (hnot n hn)⟩
      have := hkept n hnb'
      simp only [decide_eq_true_eq] at this
      exact this hn
  · intro h
    have hb : ∀ n ∈ nodes, n ∉ before := fun n hn => (h n hn).1
    have hP : ∀ n ∈ nodes, n ∉ P ∧ n ≠ self := fun n hn =>
      (hself.notMem_path_iff (hmem n hn)).2 (h n hn).2
    have hL := insertedAll_eq hd hb haft
    have hfil : before.filter (fun n => decide (n ∉ nodes)) = before := by
      rw [filter_eq_self]
      intro n hn
      simpa using fun hn' => hb n hn' hn
    rcases exec_insertNodes (i := before.length) hself₁ hmem₁ hP with
      ⟨hnone, -⟩ | ⟨L, w', hL', hok, hself', -⟩
    · rw [hL] at hnone
      cases hnone
    · rw [hL, Option.some.injEq] at hL'
      exact ⟨w', hok, by rw [hself'.rootIDs_children, ← hL', hfil]⟩

theorem replaceChildWithNodes_correct_letters :
    ∃ w', exec (replaceChildWithNodes 0 1 [3, 1]) sampleLetters = some (.ok (some 0, w')) ∧
      (w'.children 0).rootIDs = ([] : List NodeID).filter (fun n => decide (n ∉ [3, 1])) ++
        ([3, 1] ++ [2, 3].filter fun n => decide (n ∉ [3, 1])) := by
  have hlist : (sampleLetters.children 0).rootIDs = [] ++ 1 :: [2, 3] := rfl
  refine (replaceChildWithNodes_correct_iff hlist (by decide) (by decide)).2 ?_
  intro n hn
  refine ⟨by simp, fun m hm => ?_⟩
  rcases mem_pair.1 hn with rfl | rfl
  · obtain rfl : _ = m := Option.some.inj hm
    decide
  · obtain rfl : _ = m := Option.some.inj hm
    decide

/-- A replacement from in front of the child ends up one place too far back, or raises. -/
theorem replaceChildWithNodes_wrong :
    (∃ w', exec (replaceChildWithNodes 0 2 [1]) sampleLetters = some (.ok (some 1, w')) ∧
      (w'.children 0).rootIDs = [3, 1]) ∧
    exec (replaceChildWithNodes 0 3 [1]) sampleLetters = some (.error .range) :=
  ⟨⟨_, rfl, rfl⟩, rfl⟩

/-! ### Collapsing -/

/-- The children of a child are not above it, and they are no children of its parent. -/
theorem notMem_of_mem_childIDs {parent : NodeID} (hP : w.trees.path? parent = some P)
    (hself : self ∈ w.trees.childIDs parent) (hn : n ∈ w.trees.childIDs self) :
    (n ∉ P ∧ n ≠ parent) ∧ n ≠ self ∧ ∀ x ≠ self, n ∉ w.trees.childIDs x := by
  obtain ⟨P', hP', hself'⟩ := path?_of_mem_childIDs w.nodup hself
  obtain rfl : P = P' := Option.some.inj (hP.symm.trans hP')
  have hnot := notMem_path?_of_mem_childIDs w.nodup hn hself'
  rw [mem_append, mem_singleton, not_or] at hnot
  refine ⟨hnot.1, hnot.2, fun x hx hnx => hx ?_⟩
  have hself := (parent?_eq_some_iff w.nodup).2 hn
  rw [(parent?_eq_some_iff w.nodup).2 hnx] at hself
  exact Option.some.inj hself

/-- The children of the element take its place; other nodes are as they were. -/
theorem collapse_children {parent : NodeID} {after : List NodeID}
    (hparent : w.parent? self = some parent)
    (hlist : (w.children parent).rootIDs = before ++ self :: after) :
    ∃ w', exec (collapse self) w = some (.ok ((), w')) ∧
      (w'.children parent).rootIDs = before ++ ((w.children self).rootIDs ++ after) ∧
      ∀ y, (w'.trees.find? y).map Node.label = (w.trees.find? y).map Node.label ∧
        (y ≠ parent → y ≠ self → (w'.children y).rootIDs = (w.children y).rootIDs) := by
  have hself : self ∈ w.trees.childIDs parent := (parent?_eq_some_iff w.nodup).1 hparent
  obtain ⟨P, hpar⟩ := Held.of_mem_children (show self ∈ (w.children parent).rootIDs by simp [hlist])
  obtain ⟨hsP, hsp⟩ := hpar.child_notMem (w.rootIDs_children parent ▸ hself)
  rw [hlist] at hpar
  have hnd := hpar.nodup
  rw [nodup_append] at hnd
  have hsb : self ∉ before := fun h => hnd.2.2 self h self (by simp) rfl
  have hnot := fun n (hn : n ∈ (w.children self).rootIDs) =>
    notMem_of_mem_childIDs hpar.path hself (w.rootIDs_children self ▸ hn)
  have hpl : ∀ n ∈ (w.children self).rootIDs, n ∉ before ++ self :: after := by
    intro n hn
    rw [← hpar.children]
    exact (hnot n hn).2.2 parent hsp.symm
  have hmem : ∀ n ∈ (w.children self).rootIDs, n ∈ w.trees.ids := by
    intro n hn
    obtain ⟨Q, -, hQ⟩ := path?_of_mem_childIDs w.nodup (w.rootIDs_children self ▸ hn)
    exact mem_of_path? hQ
  have hd : (w.children self).rootIDs.Nodup := by
    rw [w.rootIDs_children]
    exact nodup_childIDs w.nodup self
  have hbef : ∀ n ∈ (w.children self).rootIDs, n ∉ before :=
    fun n hn h => hpl n hn (mem_append_left _ h)
  have hL := insertedAll_eq hd hbef hnd.2.1
  have hfil : (self :: after).filter (fun n => decide (n ∉ (w.children self).rootIDs)) =
      self :: after :=
    filter_eq_self.2 fun m hm =>
      decide_eq_true fun hn => hpl m hn (mem_append_right _ hm)
  rw [hfil] at hL
  obtain ⟨hnone, -⟩ | ⟨L, w1, hL1, hok, hpar₁, hkept⟩ :=
    exec_insertNodes (i := before.length) hpar hmem fun n hn => (hnot n hn).1
  · rw [hL] at hnone
    cases hnone
  · rw [hL, Option.some.injEq] at hL1
    subst hL1
    refine ⟨w1.detach self, ?_, ?_, fun y => ⟨?_, fun hyp hys => ?_⟩⟩
    · rw [collapse, exec_get_bind, hparent]
      simp [hlist, indexOfObject_append hsb, hok]
    · have hsn : self ∉ (w.children self).rootIDs := fun h => (hnot self h).2.1 rfl
      rw [(hpar₁.detach hsP hsp).rootIDs_children, erase_append_right _ hsb,
        erase_append_right _ hsn, erase_cons_head]
    · exact (map_label_find?_detach w1.nodup self y).trans (hkept y).1
    · have hsy : self ∉ w.trees.childIDs y := by
        intro h
        have := (parent?_eq_some_iff w.nodup).2 h
        exact hyp (Option.some.inj (this.symm.trans hparent))
      rw [rootIDs_children, rootIDs_children]
      refine (childIDs_detach w1.nodup self y).trans ?_
      rw [(hkept y).2 hyp, (nodup_childIDs w.nodup y).sdiff_eq_filter, filter_eq_self.2,
        erase_of_not_mem hsy]
      intro n hy
      simpa using fun hn => (hnot n hn).2.2 y hys hy

/-- `<p>a<b>xy</b>c</p>`, with `x` and `y` in text nodes of their own. -/
def nestedLetters : World where
  trees := .branch 0 (plainTag (literal "p") []) (.leaf 1 (.text (literal "a"))
    (.branch 2 (plainTag (literal "b") []) (.leaf 3 (.text (literal "x"))
      (.leaf 4 (.text (literal "y")) .nil)) (.leaf 5 (.text (literal "c")) .nil))) .nil
  nodup := by decide

theorem collapse_letters : ∃ w',
    exec (collapse 2) nestedLetters = some (.ok ((), w')) ∧
      (w'.children 0).rootIDs = [1] ++ ([3, 4] ++ [5]) := by
  obtain ⟨w', hexec, hlist, -⟩ := @collapse_children nestedLetters 2 [1] 0 [5] rfl rfl
  exact ⟨w', hexec, hlist⟩

/-! ### Moving all children -/

theorem exec_moveInto_children {b : Label} {t : Tag} {ds : Nodes}
    (hw : w.trees = F ++ .branch el t ds .nil) (hx : F.find? x = some ⟨x, b, cs⟩) :
    ∃ w' F', exec (moveInto el cs.rootIDs) w = some (.ok ((), w')) ∧
      w'.trees = F' ++ .branch el t (ds ++ cs) .nil ∧
      ∀ y ∉ cs.ids, (F'.find? y).map Node.label = (F.find? y).map Node.label := by
  induction cs using tree_induction generalizing w F ds with
  | nil => exact ⟨w, F, rfl, by simpa using hw, fun _ _ => rfl⟩
  | tree m r ih =>
    have hnd := w.nodup
    rw [hw, ids_append, nodup_append] at hnd
    obtain ⟨m', hm', htree, hx'⟩ := find?_remove_firstChild hnd.1 hx
    have hmel : m.id ∉ (branch el t ds .nil).ids :=
      fun h => hnd.2.2 m.id (mem_of_find? hm') m.id h rfl
    have hdet : (w.detach m.id).trees =
        F.remove m.id ++ (.branch el t ds .nil ++ (m.tree ++ .nil)) := by
      show w.trees.detach m.id = _
      rw [hw, detach_append_left hm' hmel, htree, append_nil]
    obtain ⟨w1, hadd, hw1⟩ := exec_addChild (p := el) (n := ⟨el, .inl t, ds⟩) hdet
      (by simp [find?_branch]) rfl
    have hw₁' : w1.trees = F.remove m.id ++ .branch el t (ds ++ m.tree) .nil := by
      rw [hw1, append_nil, modifyChildren_branch, if_pos rfl]
    obtain ⟨w', F', hrun, hw', hkeep⟩ := ih hw₁' hx'
    refine ⟨w', F', ?_, ?_, ?_⟩
    · rw [rootIDs_tree_append, moveInto, exec_modify_bind, exec_bind, hadd, andThen_ok, hrun]
    · rw [hw', append_assoc]
    · intro y hy
      rw [ids_append, mem_append, not_or] at hy
      rw [hkeep y hy.2, find?_remove hnd.1 hm' (htree ▸ hy.1), Option.map_map]
      rfl

theorem trees_foldl_detach {X : Nodes} {b : Label} (hw : w.trees = F ++ X)
    (hx : F.find? x = some ⟨x, b, cs⟩) :
    ∃ F' Z, (cs.rootIDs.foldl detach w).trees = F' ++ (X ++ Z) ∧
      F'.find? x = some ⟨x, b, .nil⟩ := by
  induction cs using tree_induction generalizing w F X with
  | nil => exact ⟨F, .nil, by simpa using hw, hx⟩
  | tree m r ih =>
    have hnd := w.nodup
    rw [hw, ids_append, nodup_append] at hnd
    obtain ⟨m', hm', -, hx'⟩ := find?_remove_firstChild hnd.1 hx
    have hmX : m.id ∉ X.ids := fun h => hnd.2.2 m.id (mem_of_find? hm') m.id h rfl
    have hdet : (w.detach m.id).trees = F.remove m.id ++ (X ++ m'.tree) := by
      show w.trees.detach m.id = _
      rw [hw, detach_append_left hm' hmX]
    obtain ⟨F', Z, hF', hx''⟩ := ih hdet hx'
    refine ⟨F', m'.tree ++ Z, ?_, hx''⟩
    rw [rootIDs_tree_append, foldl_cons, hF', append_assoc]

end Feather.XML
