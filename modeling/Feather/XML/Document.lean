import Feather.XML.ChildLists

/-!
# Documents

`exterminateDocTypeAndNamespaces` takes the namespace declarations of the elements away and then
puts a new root element in the place of the old one, which removes every other child of the
document, the document type definition with it.  The new root element does not take over the
attributes.
-/

namespace Feather.XML

open OrderedTree Forest Program Option World
open List hiding append_assoc append_nil find?_append

variable {w : World} {f : Nodes}

/-- A namespace declaration. -/
structure Namespace where
  name : NSString
  stringValue : NSString
  deriving DecidableEq, Repr

/-- `NSXMLDocumentContentKind` -/
inductive DocumentContentKind
  | xml
  | xhtml
  | html
  | text
  deriving DecidableEq, Repr

/-- The trees, the namespace declarations of the elements and the settings of the documents. -/
structure Documents where
  world : World
  namespaces : NodeID → List Namespace
  documentContentKind : NodeID → DocumentContentKind
  standalone : NodeID → Bool

/-- A method that reads and changes the trees only. -/
def onTrees {α : Type} (x : Action α) : Prog Documents NSException α := fun d =>
  (fun r => (r.1, { d with world := r.2 })) <$> x d.world

variable {d : Documents}

theorem exec_onTrees {α : Type} {x : Action α} {a : α} (h : exec x d.world = some (.ok (a, w))) :
    exec (onTrees x) d = some (.ok (a, { d with world := w })) := by
  have hx : x d.world = (some (.ok (a, w)) : Option (Except NSException (α × World))) := h
  show (fun r : α × World => (r.1, { d with world := r.2 })) <$> x d.world = _
  rw [hx]
  rfl

/-! ### The methods -/

/-- `-rootElement` of a document -/
def World.rootElement (w : World) (self : NodeID) : Option NodeID :=
  (w.children self).rootIDs.find? fun x => decide (w.kind? x = some .element)

/-- `-setRootElement:`, which removes all other children of the document -/
def setRootElement (self root : NodeID) : Action Unit := do
  modify fun w => (w.children self).rootIDs.foldl detach w
  insertChild self root 0

/-- `-setNamespaces:` -/
def Documents.setNamespaces (d : Documents) (x : NodeID) (namespaces : List Namespace) : Documents :=
  { d with namespaces := Function.update d.namespaces x namespaces }

/-- `+elementWithName:` -/
def elementWithName (name : NSString) : Prog Documents NSException NodeID := do
  let el ← onTrees (newElement name [])
  modify fun d => d.setNamespaces el []
  pure el

/-- `-_recreateClean` -/
def recreateClean (self : NodeID) : Prog Documents NSException NodeID := do
  let d ← get
  let cleanNewElement ← elementWithName (d.world.name self)
  onTrees (moveInto cleanNewElement (d.world.children self).rootIDs)
  pure cleanNewElement

/-- `-insertObject:atIndex:` -/
def insertObject (objects : List NodeID) (x : NodeID) (i : ℕ) : List NodeID :=
  objects.take i ++ x :: objects.drop i

/-- The elements among the children are inserted at `i`, `i + 1`, … of the queue. -/
def insertElements (w : World) : ℕ → List NodeID → List NodeID → List NodeID
  | _, [], queue => queue
  | i, n :: children, queue =>
    if w.kind? n = some .element then insertElements w (i + 1) children (insertObject queue n i)
    else insertElements w i children queue

/-- `while (queue.count > 0)`; the loop variables are the queue and the count. -/
def exterminateStep : List NodeID × ℕ → Prog Documents NSException ((List NodeID × ℕ) ⊕ ℕ)
  | ([], namespacedItemsEncountered) => pure (.inr namespacedItemsEncountered)
  | (element :: queue, namespacedItemsEncountered) => do
    let d ← get
    let queue' := insertElements d.world 0 (d.world.children element).rootIDs queue
    if 0 < (d.namespaces element).length then
      set (d.setNamespaces element [])
      pure (.inl (queue', namespacedItemsEncountered + 1))
    else pure (.inl (queue', namespacedItemsEncountered))

/-- `-exterminateDocTypeAndNamespaces`; an array cannot be made with `nil`. -/
def exterminateDocTypeAndNamespaces (fuel : ℕ) (self : NodeID) : Prog Documents NSException ℕ := do
  let d ← get
  match d.world.rootElement self with
  | none => throw .invalidArgument
  | some rootElement => do
    let namespacedItemsEncountered ← loop exterminateStep fuel ([rootElement], 0)
    modify fun d =>
      { d with documentContentKind := Function.update d.documentContentKind self .xml }
    let clean ← recreateClean rootElement
    onTrees (setRootElement self clean)
    modify fun d => { d with standalone := Function.update d.standalone self true }
    pure namespacedItemsEncountered

/-- The elements the loop takes off the queue, in order. -/
def visitedElements (fuel : ℕ) (self : NodeID) (d : Documents) : List NodeID :=
  match d.world.rootElement self with
  | none => []
  | some root => (iterations exterminateStep fuel ([root], 0) d).filterMap fun k => k.1.head?

/-! ### The walk -/

/-- The elements of a forest, in document order. -/
def elementIDs : Nodes → List NodeID
  | .nil => []
  | .branch i _ cs r => i :: (elementIDs cs ++ elementIDs r)
  | .leaf _ _ r => elementIDs r

/-- The elements among the roots of a forest. -/
def elementRoots : Nodes → List NodeID
  | .nil => []
  | .branch i _ _ r => i :: elementRoots r
  | .leaf _ _ r => elementRoots r

theorem elementIDs_sublist (f : Nodes) : (elementIDs f).Sublist f.ids := by
  induction f with
  | nil => simp [elementIDs]
  | branch i t cs r ihc ihr => simpa [elementIDs] using ihc.append ihr
  | leaf i c r ih => simpa [elementIDs] using ih.cons i

/-- Every node of the forest is in the store as it is in the forest. -/
def World.Contains (w : World) (f : Nodes) : Prop := ∀ n ∈ f.nodes, w.node? n.id = some n

theorem World.contains_children {x : NodeID} {n : Node Tag Content} (h : w.node? x = some n) :
    w.Contains n.children := by
  intro m hm
  exact find?_of_find?_children w.nodup h
    (find?_of_mem_nodes (children_nodup w.nodup h).1 hm)

theorem insertElements_eq (h : w.Contains f) (A queue : List NodeID) :
    insertElements w A.length f.rootIDs (A ++ queue) = A ++ (elementRoots f ++ queue) := by
  induction f generalizing A with
  | nil => rfl
  | branch i t cs r _ ih =>
    have hi : w.kind? i = some .element := by
      rw [kind?, h ⟨i, .inl t, cs⟩ (by simp)]
      rfl
    have hr := ih (fun n hn => h n (by simp [hn])) (A ++ [i])
    rw [length_append, List.append_assoc, List.append_assoc] at hr
    rw [rootIDs_branch, insertElements, if_pos hi, insertObject, take_left, drop_left]
    exact hr
  | leaf i c r ih =>
    have hi : w.kind? i ≠ some .element := by
      rw [kind?, h ⟨i, .inr c, .nil⟩ (by simp)]
      cases c <;> simp [kind]
    rw [rootIDs_leaf, insertElements, if_neg hi]
    exact ih (fun n hn => h n (by simp [hn])) A

/-- The store without the namespace declarations of some elements. -/
def Documents.clear (d : Documents) (L : List NodeID) : Documents :=
  { d with namespaces := fun x => if x ∈ L then [] else d.namespaces x }

/-- How many of the elements declare a namespace. -/
def Documents.namespaced (d : Documents) (L : List NodeID) : ℕ :=
  L.countP fun x => decide (0 < (d.namespaces x).length)

theorem Documents.clear_append (d : Documents) (L M : List NodeID) :
    (d.clear L).clear M = d.clear (L ++ M) := by
  unfold Documents.clear
  congr 1
  funext x
  by_cases hL : x ∈ L <;> by_cases hM : x ∈ M <;> simp [hL]

theorem Documents.namespaced_clear (d : Documents) {L M : List NodeID} (h : ∀ x ∈ M, x ∉ L) :
    (d.clear L).namespaced M = d.namespaced M := by
  refine countP_congr fun x hx => ?_
  simp [Documents.clear, h x hx]

theorem exec_exterminateStep {x : NodeID} {t : Tag} {cs : Nodes}
    (h : d.world.node? x = some ⟨x, .inl t, cs⟩) (queue : List NodeID) (count : ℕ) :
    exec (exterminateStep (x :: queue, count)) d =
      some (.ok (.inl (elementRoots cs ++ queue, count + d.namespaced [x]), d.clear [x])) := by
  have hque : insertElements d.world 0 (d.world.children x).rootIDs queue =
      elementRoots cs ++ queue := by
    rw [children_of_node? h]
    exact insertElements_eq (contains_children h) [] queue
  by_cases hx : 0 < (d.namespaces x).length
  · have hclr : d.setNamespaces x [] = d.clear [x] := by
      unfold Documents.setNamespaces Documents.clear
      congr 1
      funext y
      by_cases hy : y = x <;> simp [hy]
    simp [exterminateStep, hque, hx, hclr, Documents.namespaced]
  · have hclr : d.clear [x] = d := by
      unfold Documents.clear
      congr 1
      funext y
      by_cases hy : y = x
      · simpa [hy] using hx
      · simp [hy]
    simp [exterminateStep, hque, hx, hclr, Documents.namespaced]

/-- The elements of a forest at the front of the queue are visited first, in order. -/
theorem exec_exterminateLoop (hf : d.world.Contains f) (hn : f.ids.Nodup) (queue : List NodeID)
    (count fuel : ℕ) :
    exec (loop exterminateStep ((elementIDs f).length + fuel) (elementRoots f ++ queue, count)) d =
        exec (loop exterminateStep fuel (queue, count + d.namespaced (elementIDs f)))
          (d.clear (elementIDs f)) ∧
      (iterations exterminateStep ((elementIDs f).length + fuel)
          (elementRoots f ++ queue, count) d).filterMap (fun k => k.1.head?) =
        elementIDs f ++ (iterations exterminateStep fuel
          (queue, count + d.namespaced (elementIDs f))
          (d.clear (elementIDs f))).filterMap fun k => k.1.head? := by
  induction f generalizing d queue count fuel with
  | nil =>
    have hclr : d.clear [] = d := by simp [Documents.clear]
    simp [elementIDs, elementRoots, hclr, Documents.namespaced]
  | leaf i c r ih =>
    rw [ids_leaf, nodup_cons] at hn
    exact ih (fun n hn => hf n (by simp [hn])) hn.2 queue count fuel
  | branch i t cs r ihc ihr =>
    rw [ids_branch, nodup_cons, nodup_append] at hn
    obtain ⟨hi, hcs, hr, hdisj⟩ := hn
    have hstep := exec_exterminateStep (hf ⟨i, .inl t, cs⟩ (by simp)) (elementRoots r ++ queue) count
    have hics : ∀ x ∈ elementIDs cs, x ∉ [i] := by
      intro x hx hxi
      rw [mem_singleton] at hxi
      subst hxi
      exact hi (by simp [(elementIDs_sublist cs).subset hx])
    have hir : ∀ x ∈ elementIDs r, x ∉ [i] ++ elementIDs cs := by
      intro x hx hxi
      have hxr := (elementIDs_sublist r).subset hx
      rcases mem_append.1 hxi with hxi | hxc
      · rw [mem_singleton] at hxi
        subst hxi
        exact hi (by simp [hxr])
      · exact hdisj x ((elementIDs_sublist cs).subset hxc) x hxr rfl
    obtain ⟨hc1, hc2⟩ := ihc (d := d.clear [i]) (fun n hn => hf n (by simp [hn])) hcs
      (elementRoots r ++ queue) (count + d.namespaced [i]) ((elementIDs r).length + fuel)
    obtain ⟨hr1, hr2⟩ := ihr (d := d.clear ([i] ++ elementIDs cs)) (fun n hn => hf n (by simp [hn]))
      hr queue (count + d.namespaced [i] + d.namespaced (elementIDs cs)) fuel
    rw [Documents.namespaced_clear d hics, Documents.clear_append] at hc1 hc2
    rw [Documents.namespaced_clear d hir, Documents.clear_append] at hr1 hr2
    have hfuel : (elementIDs (.branch i t cs r)).length + fuel =
        (elementIDs cs).length + ((elementIDs r).length + fuel) + 1 := by
      rw [elementIDs, length_cons, length_append]
      omega
    have hcnt : count + d.namespaced (elementIDs (.branch i t cs r)) =
        count + d.namespaced [i] + d.namespaced (elementIDs cs) + d.namespaced (elementIDs r) := by
      have : elementIDs (.branch i t cs r) = [i] ++ (elementIDs cs ++ elementIDs r) := rfl
      rw [this]
      unfold Documents.namespaced
      rw [countP_append, countP_append]
      omega
    have hids : d.clear ([i] ++ elementIDs cs ++ elementIDs r) =
        d.clear (elementIDs (.branch i t cs r)) := by
      rfl
    rw [hids] at hr1 hr2
    rw [hfuel, hcnt]
    constructor
    · rw [elementRoots, cons_append, exec_loop_next hstep, hc1, hr1]
    · rw [elementRoots, cons_append, iterations_next hstep, filterMap_cons, hc2, hr2,
        elementIDs]
      simp

/-! ### The new root element -/

/-- The root element becomes the only child of the document. -/
theorem node?_setRootElement {F D cs : Nodes} {self root : NodeID} {t t₀ : Tag}
    (hw : w.trees = F ++ .branch root t cs .nil) (hself : F.find? self = some ⟨self, .inl t₀, D⟩) :
    ∃ w', exec (setRootElement self root) w = some (.ok ((), w')) ∧
      w'.node? self = some ⟨self, .inl t₀, .branch root t cs .nil⟩ := by
  have hnode : w.node? self = some ⟨self, .inl t₀, D⟩ := by
    rw [node?, hw, find?_append, hself, some_or]
  obtain ⟨F', Z, hw1, hself₁⟩ := trees_foldl_detach hw hself
  generalize hdef : D.rootIDs.foldl detach w = w1 at hw1
  -- the store without the old children
  let m : Node Tag Content := ⟨root, .inl t, cs⟩
  change w1.trees = F' ++ (m.tree ++ Z) at hw1
  have hnd := w1.nodup
  rw [hw1] at hnd
  have hnode₁ : w1.node? self = some ⟨self, .inl t₀, .nil⟩ := by
    rw [node?, hw1, find?_append, hself₁, some_or]
  have hkind : w1.kind? self = some .element := by
    rw [kind?, hnode₁]
    rfl
  have hpar : w1.parent? root = none := by
    rw [World.parent?, hw1]
    exact parent?_of_path?_nil (path?_of_attach (m := m) hnd)
  have hself₂ : (F' ++ Z).find? self = some ⟨self, .inl t₀, .nil⟩ := by
    rw [find?_append, hself₁, some_or]
  refine ⟨w1.attach self 0 root, ?_, ?_⟩
  · rw [setRootElement, exec_modify_bind, children_of_node? hnode, hdef]
    simp [insertChild, hkind, hpar]
  · show (w1.trees.attach self 0 root).find? self = _
    have hatt := attach_last (m := m) hnd hself₂
    change attach self 0 root _ = _ at hatt
    rw [hw1, hatt, find?_modifyChildren_self hself₂ rfl]
    rfl

section Exterminate

variable {d : Documents} {self root : NodeID} {t₀ t : Tag} {D cs : Nodes}

theorem exec_exterminateLoop_tree (hnode : d.world.node? root = some ⟨root, .inl t, cs⟩) {fuel : ℕ}
    (hfuel : d.world.size < fuel) :
    exec (loop exterminateStep fuel ([root], 0)) d =
        some (.ok (d.namespaced (elementIDs (.branch root t cs .nil)),
          d.clear (elementIDs (.branch root t cs .nil)))) ∧
      (iterations exterminateStep fuel ([root], 0) d).filterMap (fun k => k.1.head?) =
        elementIDs (.branch root t cs .nil) := by
  let f : Nodes := .branch root t cs .nil
  have hctn : d.world.Contains f := by
    intro n hn
    rw [nodes_branch, mem_cons] at hn
    rcases hn with rfl | hn
    · exact hnode
    · exact contains_children hnode n (by simpa using hn)
  have hnd : f.ids.Nodup := by
    obtain ⟨hcs, hi⟩ := children_nodup d.world.nodup hnode
    simpa [f] using ⟨hi, hcs⟩
  have hsize : (elementIDs f).length ≤ d.world.size := by
    obtain ⟨A, B, hids⟩ := children_ids_of_find? hnode
    have hlen : f.ids.length ≤ d.world.size := by
      rw [size, hids]
      simp only [f, ids_branch, ids_nil, List.append_nil, length_cons, length_append]
      omega
    exact (elementIDs_sublist f).length_le.trans hlen
  obtain ⟨k, rfl⟩ := Nat.exists_eq_add_of_le (show (elementIDs f).length + 1 ≤ fuel by omega)
  have hdone : ∀ n d, exec (exterminateStep ([], n)) d = some (.ok (.inr n, d)) := fun _ _ => rfl
  obtain ⟨hrun, hvis⟩ := exec_exterminateLoop hctn hnd [] 0 (k + 1)
  rw [Nat.zero_add] at hrun
  rw [iterations_done (hdone _ _)] at hvis
  rw [show (elementIDs f).length + 1 + k = (elementIDs f).length + (k + 1) by omega]
  refine ⟨hrun, hvis.trans ?_⟩
  simp [f]

/-- The new element has the name and the children of the old one; the other nodes keep their
labels. -/
theorem exec_recreateClean (hnode : d.world.node? root = some ⟨root, .inl t, cs⟩) :
    ∃ w' F, exec (recreateClean root) d = some (.ok (d.world.trees.fresh,
        { d.setNamespaces d.world.trees.fresh [] with world := w' })) ∧
      w'.trees = F ++ .branch d.world.trees.fresh (plainTag t.name []) cs .nil ∧
      ∀ y ∉ cs.ids, (F.find? y).map Node.label = (d.world.node? y).map Node.label := by
  let w1 := d.world.add (single 0 (.inl (plainTag t.name [])))
  have hw1 : w1.trees = d.world.trees ++
      .branch d.world.trees.fresh (plainTag t.name []) .nil .nil := d.world.trees_add_single _
  have hnew : exec (onTrees (newElement t.name [])) d =
      some (.ok (d.world.trees.fresh, { d with world := w1 })) := exec_onTrees rfl
  have hname : d.world.name root = t.name := by
    rw [name, hnode]
    rfl
  have hchi : d.world.children root = cs := children_of_node? hnode
  obtain ⟨w', F, hmove, hw', hkeep⟩ := exec_moveInto_children hw1 hnode
  refine ⟨w', F, ?_, hw', hkeep⟩
  rw [recreateClean, exec_get_bind, hname, hchi, exec_bind, elementWithName,
    exec_bind, hnew, andThen_ok, exec_modify_bind, exec_pure, andThen_ok, exec_bind,
    exec_onTrees hmove]
  rfl

/-- A document is not below its root element. -/
theorem notMem_of_rootElement (hself : d.world.node? self = some ⟨self, .inl t₀, D⟩)
    (hroot : d.world.rootElement self = some root)
    (hnode : d.world.node? root = some ⟨root, .inl t, cs⟩) : self ∉ cs.ids := by
  have hroo : root ∈ D.ids := by
    have := mem_of_find?_eq_some hroot
    rw [children_of_node? hself] at this
    exact rootIDs_subset _ this
  obtain ⟨n, hn⟩ := exists_find?_of_mem hroo
  obtain rfl : n = ⟨root, .inl t, cs⟩ := by
    have := find?_of_find?_children d.world.nodup hself hn
    exact some.inj (this.symm.trans hnode)
  intro h
  exact (children_nodup d.world.nodup hself).2 (children_subset hn h)

/-- Each element is visited once, those with namespace declarations are counted and lose them, and
the document is left with a new element of the root element's name and children. -/
theorem exec_exterminateDocTypeAndNamespaces
    (hself : d.world.node? self = some ⟨self, .inl t₀, D⟩)
    (hroot : d.world.rootElement self = some root)
    (hnode : d.world.node? root = some ⟨root, .inl t, cs⟩) :
    ∃ el d', (∀ fuel, d.world.size < fuel → exec (exterminateDocTypeAndNamespaces fuel self) d =
            some (.ok (d.namespaced (elementIDs (.branch root t cs .nil)), d')) ∧
          visitedElements fuel self d = elementIDs (.branch root t cs .nil)) ∧
      d'.world.node? self = some ⟨self, .inl t₀, .branch el (plainTag t.name []) cs .nil⟩ ∧
      ∀ x ∈ elementIDs (.branch el (plainTag t.name []) cs .nil), d'.namespaces x = [] := by
  let d1 := d.clear (elementIDs (.branch root t cs .nil))
  let d2 : Documents :=
    { d1 with documentContentKind := Function.update d1.documentContentKind self .xml }
  obtain ⟨w2, F, hcln, hw2, hkeep⟩ := exec_recreateClean (d := d2) hnode
  obtain ⟨D', hsel⟩ : ∃ D', F.find? self = some ⟨self, .inl t₀, D'⟩ := by
    have hlab := hkeep self (notMem_of_rootElement hself hroot hnode)
    rw [show d2.world.node? self = _ from hself, map_some, map_eq_some_iff] at hlab
    obtain ⟨⟨i, b, D'⟩, hF, rfl⟩ := hlab
    obtain rfl : i = self := find?_id hF
    exact ⟨D', hF⟩
  obtain ⟨w3, hset, hw3⟩ := node?_setRootElement hw2 hsel
  refine ⟨d.world.trees.fresh, { d2.setNamespaces d.world.trees.fresh [] with
    world := w3, standalone := Function.update d.standalone self true }, ?_, hw3, ?_⟩
  · intro fuel hfuel
    obtain ⟨hloop, hvis⟩ := exec_exterminateLoop_tree hnode hfuel
    constructor
    · rw [exterminateDocTypeAndNamespaces, exec_get_bind]
      simp only [hroot]
      rw [exec_bind, hloop, andThen_ok, exec_modify_bind, exec_bind]
      rw [hcln, andThen_ok, exec_bind, exec_onTrees hset]
      rfl
    · rw [visitedElements]
      simp only [hroot]
      exact hvis
  · intro x hx
    by_cases hxel : x = d.world.trees.fresh
    · simp [Documents.setNamespaces, hxel]
    · have hxf : x ∈ elementIDs (.branch root t cs .nil) := by
        simp only [elementIDs, mem_cons] at hx ⊢
        exact .inr (hx.resolve_left hxel)
      simp [Documents.setNamespaces, d2, d1, Documents.clear, hxel, hxf]

end Exterminate

/-! ### What the method is for -/

/-- The names, attributes and contents of the nodes, without their identities. -/
def contents : Nodes → Forest (NSString × List Attribute) Content
  | .nil => .nil
  | .branch _ t cs r => .branch 0 (t.name, t.attributes) (contents cs) (contents r)
  | .leaf _ c r => .leaf 0 c (contents r)

/-- A document type. -/
def isDocType : Content → Bool
  | .other .dtd _ => true
  | _ => false

/-- The children of a document without the document type definition. -/
def withoutDocType : Nodes → Nodes
  | .nil => .nil
  | .branch i t cs r => .branch i t cs (withoutDocType r)
  | .leaf i c r => if isDocType c then withoutDocType r else .leaf i c (withoutDocType r)

theorem elementIDs_withoutDocType (f : Nodes) : elementIDs (withoutDocType f) = elementIDs f := by
  induction f with
  | nil => rfl
  | branch i t cs r _ ih => simp [withoutDocType, elementIDs, ih]
  | leaf i c r ih =>
    rw [withoutDocType]
    split_ifs <;> simp [elementIDs, ih]

theorem elementRoots_withoutDocType (f : Nodes) :
    elementRoots (withoutDocType f) = elementRoots f := by
  induction f with
  | nil => rfl
  | branch i t cs r _ ih => simp [withoutDocType, elementRoots, ih]
  | leaf i c r ih =>
    rw [withoutDocType]
    split_ifs <;> simp [elementRoots, ih]

theorem nodes_withoutDocType_subset (f : Nodes) : (withoutDocType f).nodes ⊆ f.nodes := by
  induction f with
  | nil => simp [withoutDocType]
  | branch i t cs r _ ih =>
    intro n hn
    simp only [withoutDocType, nodes_branch, mem_cons, mem_append] at hn ⊢
    rcases hn with hn | hn | hn
    · exact .inl hn
    · exact .inr (.inl hn)
    · exact .inr (.inr (ih hn))
  | leaf i c r ih =>
    intro n hn
    rw [withoutDocType] at hn
    split_ifs at hn with hc
    · simp [ih hn]
    · simp only [nodes_leaf, mem_cons] at hn ⊢
      rcases hn with hn | hn
      · exact .inl hn
      · exact .inr (ih hn)

theorem contents_eq_branch {p : NSString × List Attribute}
    {cs : Forest (NSString × List Attribute) Content} (h : contents f = .branch 0 p cs .nil) :
    ∃ i t ds, f = .branch i t ds .nil ∧ t.attributes = p.2 := by
  cases f with
  | nil => simp [contents] at h
  | leaf i c r => simp [contents] at h
  | branch i t ds r =>
    simp only [contents, branch.injEq, true_and] at h
    obtain ⟨rfl, -, hr⟩ := h
    cases r with
    | nil => exact ⟨i, t, ds, rfl, rfl⟩
    | branch j t' ds' r' => simp [contents] at hr
    | leaf j c r' => simp [contents] at hr

theorem World.rootElement_eq {self : NodeID} {b : Label} {D : Nodes}
    (h : w.node? self = some ⟨self, b, D⟩) : w.rootElement self = (elementRoots D).head? := by
  have hD := contains_children h
  rw [rootElement, children_of_node? h]
  clear h
  induction D with
  | nil => rfl
  | branch i t cs r _ ih =>
    have hi : w.kind? i = some .element := by
      rw [kind?, hD ⟨i, .inl t, cs⟩ (by simp)]
      rfl
    simp [elementRoots, hi]
  | leaf i c r ih =>
    have hi : w.kind? i ≠ some .element := by
      rw [kind?, hD ⟨i, .inr c, .nil⟩ (by simp)]
      cases c <;> simp [kind]
    rw [rootIDs_leaf, find?_cons_of_neg (by simpa using hi)]
    exact ih fun n hn => hD n (by simp [hn])

/-- Only the document type definition and the namespace declarations are lost exactly if the rest of
the document is a root element without attributes. -/
theorem exterminateDocTypeAndNamespaces_correct_iff {d : Documents} {self : NodeID} {t₀ : Tag}
    {D : Nodes} (hself : d.world.node? self = some ⟨self, .inl t₀, D⟩) :
    (∃ n d', (∀ fuel, d.world.size < fuel →
          exec (exterminateDocTypeAndNamespaces fuel self) d = some (.ok (n, d')) ∧
            visitedElements fuel self d = elementIDs D) ∧
        (elementIDs D).Nodup ∧ n = d.namespaced (elementIDs D) ∧
        (∀ x ∈ elementIDs (d'.world.children self), d'.namespaces x = []) ∧
        contents (d'.world.children self) = contents (withoutDocType D)) ↔
      ∃ root t cs, withoutDocType D = .branch root t cs .nil ∧ t.attributes = [] := by
  constructor
  · rintro ⟨n, d', hrun, -, -, -, hcts⟩
    obtain ⟨hexec, -⟩ := hrun _ (Nat.lt_succ_self _)
    cases hroot : d.world.rootElement self with
    | none =>
      rw [exterminateDocTypeAndNamespaces] at hexec
      simp [hroot] at hexec
    | some root =>
      have hkind := find?_some hroot
      rw [decide_eq_true_eq] at hkind
      obtain ⟨t, cs, hnode⟩ := exists_element hkind
      obtain ⟨el, d'', hrun', hd'', -⟩ := exec_exterminateDocTypeAndNamespaces hself hroot hnode
      obtain rfl : d'' = d' := by
        have hboth := (hrun' _ (Nat.lt_succ_self _)).1.symm.trans hexec
        simp only [some.injEq, Except.ok.injEq, Prod.mk.injEq] at hboth
        exact hboth.2
      rw [children_of_node? hd''] at hcts
      obtain ⟨i, t', ds, hD, ht'⟩ := contents_eq_branch hcts.symm
      exact ⟨i, t', ds, hD, ht'⟩
  · rintro ⟨root, t, cs, hD, ht⟩
    have hrts := elementRoots_withoutDocType D
    have hids := elementIDs_withoutDocType D
    rw [hD] at hrts hids
    have hroot : d.world.rootElement self = some root := by
      rw [rootElement_eq hself, ← hrts]
      rfl
    have hnode : d.world.node? root = some ⟨root, .inl t, cs⟩ :=
      contains_children hself ⟨root, .inl t, cs⟩
        (nodes_withoutDocType_subset D (by rw [hD]; simp))
    obtain ⟨el, d', hrun, hd', hclr⟩ := exec_exterminateDocTypeAndNamespaces hself hroot hnode
    have hchi := children_of_node? hd'
    rw [hids] at hrun
    refine ⟨_, d', hrun, ?_, rfl, ?_, ?_⟩
    · exact (children_nodup d.world.nodup hself).1.sublist (elementIDs_sublist D)
    · rw [hchi]
      exact hclr
    · rw [hchi, hD]
      simp [contents, plainTag, ht]

/-- A document type definition and the root `p`, with a namespace declaration inside. -/
def sampleDocument (attributes : List Attribute) : Documents where
  world :=
    { trees := .branch 0 (plainTag [] []) (.leaf 1 (.other .dtd (literal "html"))
        (.branch 2 (plainTag (literal "p") attributes) (.leaf 3 (.text (literal "ab"))
          (.branch 4 (plainTag (literal "b") []) .nil .nil)) .nil)) .nil
      nodup := by simp }
  namespaces := fun x => if x = 4 then [⟨[], literal "urn:b"⟩] else []
  documentContentKind := fun _ => .xhtml
  standalone := fun _ => false

theorem exterminateDocTypeAndNamespaces_correct_plain :
    ∃ n d', (∀ fuel, (sampleDocument []).world.size < fuel →
        exec (exterminateDocTypeAndNamespaces fuel 0) (sampleDocument []) = some (.ok (n, d')) ∧
          visitedElements fuel 0 (sampleDocument []) = [2, 4]) ∧
      [2, 4].Nodup ∧ n = 1 ∧
      (∀ x ∈ elementIDs (d'.world.children 0), d'.namespaces x = []) ∧
      contents (d'.world.children 0) =
        .branch 0 (literal "p", []) (.leaf 0 (.text (literal "ab"))
          (.branch 0 (literal "b", []) .nil .nil)) .nil := by
  have hself : (sampleDocument []).world.node? 0 = some ⟨0, .inl (plainTag [] []),
      (sampleDocument []).world.children 0⟩ := rfl
  exact (exterminateDocTypeAndNamespaces_correct_iff hself).2 ⟨2, _, _, rfl, rfl⟩

/-- The root element loses its attribute. -/
theorem exterminateDocTypeAndNamespaces_wrong :
    contents (withoutDocType ((sampleDocument [⟨literal "id", literal "x"⟩]).world.children 0)) =
      .branch 0 (literal "p", [⟨literal "id", literal "x"⟩]) (.leaf 0 (.text (literal "ab"))
        (.branch 0 (literal "b", []) .nil .nil)) .nil ∧
    ∃ d', exec (exterminateDocTypeAndNamespaces 6 0)
        (sampleDocument [⟨literal "id", literal "x"⟩]) = some (.ok (1, d')) ∧
      contents (d'.world.children 0) =
        .branch 0 (literal "p", []) (.leaf 0 (.text (literal "ab"))
          (.branch 0 (literal "b", []) .nil .nil)) .nil :=
  ⟨rfl, _, rfl, rfl⟩

end Feather.XML
