import Feather.XML.Create
import Feather.XML.Normalize

/-!
# Recreating a subtree from a list of its nodes

`recreateSplitSubtree` makes a copy of every node of a list and attaches the copies: each becomes
the last child of the copy of its parent, found by its index in the list.
-/

namespace Feather.XML

open OrderedTree Forest Program Option Entry
open List (length_append length_singleton map_append map_cons nodup_append range' length_cons
  nodup_cons nodup_append mem_map cons_append mem_cons)

variable {s piece : NSString} {i : ℕ} {w : World} {cut x : NodeID} {n : Node Tag Content}
  {F g : Nodes} {b : Label} {P : List NodeID} {e : Entry Tag Content} {Q : Listing}

/-- The part of the text node to split that belongs to the head or to the tail. -/
def splitPart (s : NSString) (splitOffset : ℤ) (isHead : Bool) : Action NSString :=
  if isHead then substringToIndex s (asUnsigned splitOffset)
  else substringFromIndex s (asUnsigned splitOffset)

/-- Recreate one node; only elements and text nodes are. -/
def recreateNode (textNodeToSplit : NodeID) (splitOffset : ℤ) (isHead : Bool) (node : NodeID) :
    Action (Option NodeID) := do
  let w ← get
  match (w.node? node).map Node.label with
  | some (.inl tag) => do
    let el ← newElement tag.name tag.attributes
    pure (some el)
  | some (.inr (.text s)) =>
    if node = textNodeToSplit then do
      let s ← splitPart s splitOffset isHead
      let t ← textWithStringValue s
      pure (some t)
    else do
      let t ← textWithStringValue s
      pure (some t)
  | _ => pure none

/-- Recreate nodes: `newNodes`, and `newRootElement` for the receiver. -/
def recreateNodes (self textNodeToSplit : NodeID) (splitOffset : ℤ) (isHead : Bool) :
    List NodeID → List NodeID → Option NodeID → Action (List NodeID × Option NodeID)
  | [], newNodes, newRootElement => pure (newNodes, newRootElement)
  | node :: originalNodes, newNodes, newRootElement => do
    match ← recreateNode textNodeToSplit splitOffset isHead node with
    | none =>
      recreateNodes self textNodeToSplit splitOffset isHead originalNodes newNodes newRootElement
    | some new =>
      recreateNodes self textNodeToSplit splitOffset isHead originalNodes (newNodes ++ [new])
        (if node = self then some new else newRootElement)

/-- Recreate hierarchy, from the original node of index `i` on. -/
def recreateHierarchy (self : NodeID) (originalNodes newNodes : List NodeID) :
    ℕ → List NodeID → Action Unit
  | _, [] => pure ()
  | i, originalNode :: rest => do
    let w ← get
    let parentIndex := (w.parent? originalNode).bind fun p => indexOfObject originalNodes p
    if originalNode = self then recreateHierarchy self originalNodes newNodes (i + 1) rest
    else
      match parentIndex with
      | none => throw .internalInconsistency
      | some parentIndex =>
        match newNodes[parentIndex]?, newNodes[i]? with
        | some newParent, some new => do
          addChild newParent new
          recreateHierarchy self originalNodes newNodes (i + 1) rest
        | _, _ => throw .range

/-- `-_recreateSplitSubtree:textNodeToSplit:splitOffset:isHead:` -/
def recreateSplitSubtree (cocoa : Cocoa) (self : NodeID) (originalNodes : List NodeID)
    (textNodeToSplit : NodeID) (splitOffset : ℤ) (isHead : Bool) : Action (Option NodeID) := do
  let (newNodes, newRootElement) ←
    recreateNodes self textNodeToSplit splitOffset isHead originalNodes [] none
  recreateHierarchy self originalNodes newNodes 0 originalNodes
  match newRootElement with
  | none => pure none
  | some root => do
    modify fun w => w.normalizeAdjacentTextNodes root
    enforceExplicitPreservedSpace cocoa root
    pure (some root)

/-! ### Making the copies -/

/-- The label of the copy of a node; `piece` is what the copy of the node to split gets. -/
def recreated (cut : NodeID) (piece : NSString) (x : NodeID) : Label → Option Label
  | .inl tag => some (.inl (plainTag tag.name tag.attributes))
  | .inr (.text s) => some (.inr (.text (if x = cut then piece else s)))
  | .inr (.other _ _) => none

theorem exec_splitPart (hi : i ≤ s.length) (hmax : i ≤ nsIntegerMax) (isHead : Bool) (w : World) :
    exec (splitPart s i isHead) w = some (.ok (if isHead then s.take i else s.drop i, w)) := by
  cases isHead <;>
    simp [splitPart, substringToIndex, substringFromIndex, asUnsigned_natCast hmax, Nat.not_lt.2 hi]

theorem exec_recreateNode (hi : i ≤ s.length) (hmax : i ≤ nsIntegerMax) (isHead : Bool)
    (hx : w.node? x = some n) (hcut : x = cut → n.label = .inr (.text s)) :
    exec (recreateNode cut i isHead x) w =
      match recreated cut (if isHead then s.take i else s.drop i) x n.label with
      | none => some (.ok (none, w))
      | some b => some (.ok (some w.trees.fresh, w.add (single 0 b))) := by
  rw [recreateNode, exec_get_bind, hx, map_some]
  rcases hl : n.label with tag | t | ⟨k, t⟩
  · simp
    rfl
  · by_cases hxc : x = cut
    · obtain rfl : t = s := by simpa [hl] using hcut hxc
      simp only [if_pos hxc, exec_bind, exec_splitPart hi hmax, recreated]
      rfl
    · simp [if_neg hxc, recreated]
      rfl
  · rfl

/-- The labels of the copies of a list of nodes of `F`. -/
def newLabels (F : Nodes) (cut : NodeID) (piece : NSString) (L : List NodeID) : List Label :=
  L.filterMap fun x => (F.find? x).bind fun n => recreated cut piece x n.label

theorem length_newLabels_le (F : Nodes) (cut : NodeID) (piece : NSString) (L : List NodeID) :
    (newLabels F cut piece L).length ≤ L.length :=
  List.length_filterMap_le _ L

theorem newLabels_cons_of_none (hx : F.find? x = some n) (hr : recreated cut piece x n.label = none)
    (L : List NodeID) : newLabels F cut piece (x :: L) = newLabels F cut piece L := by
  simp [newLabels, hx, hr]

theorem newLabels_cons_of_some (hx : F.find? x = some n)
    (hr : recreated cut piece x n.label = some b) (L : List NodeID) :
    newLabels F cut piece (x :: L) = b :: newLabels F cut piece L := by
  simp [newLabels, hx, hr]

/-- The copies stand alone behind everything, with consecutive identities.  If no node is skipped,
the copy of the receiver is the one with its index. -/
theorem exec_recreateNodes (self : NodeID) (hi : i ≤ s.length) (hmax : i ≤ nsIntegerMax)
    (isHead : Bool) (hcut : ∀ n, F.find? cut = some n → n.label = .inr (.text s))
    (hw : w.trees = F ++ g) {L : List NodeID} (hL : ∀ x ∈ L, x ∈ F.ids) (new : List NodeID)
    (root : Option NodeID) :
    let labels := newLabels F cut (if isHead then s.take i else s.drop i) L
    ∃ w' root', exec (recreateNodes self cut i isHead L new root) w =
        some (.ok ((new ++ range' w.trees.fresh labels.length, root'), w')) ∧
      w'.trees = w.trees ++ singles w.trees.fresh labels ∧
      (labels.length = L.length → L.Nodup →
        root' = if self ∈ L then some (w.trees.fresh + L.idxOf self) else root) := by
  induction L generalizing w g new root with
  | nil => exact ⟨w, root, by simp [recreateNodes, newLabels], by simp [newLabels, singles],
      fun _ _ => rfl⟩
  | cons x L ih =>
    obtain ⟨n, hn⟩ := exists_find?_of_mem (hL x (by simp))
    have hnode : w.node? x = some n := by
      rw [World.node?, hw, find?_append, hn, some_or]
    have hL' : ∀ x ∈ L, x ∈ F.ids := fun y hy => hL y (by simp [hy])
    have hstep := exec_recreateNode hi hmax isHead hnode
      fun hxc : x = cut => hcut n (by rw [← hxc]; exact hn)
    cases hr : recreated cut (if isHead then s.take i else s.drop i) x n.label with
    | none =>
      rw [hr] at hstep
      rw [newLabels_cons_of_none hn hr]
      obtain ⟨w', root', hrun, hw', -⟩ := ih hw hL' new root
      refine ⟨w', root', ?_, hw', fun hlen => ?_⟩
      · rw [recreateNodes, exec_bind, hstep]
        exact hrun
      · have := length_newLabels_le F cut (if isHead then s.take i else s.drop i) L
        rw [hlen, length_cons] at this
        omega
    | some b =>
      rw [hr] at hstep
      rw [newLabels_cons_of_some hn hr]
      have hadd := w.trees_add_single b
      have hfr : (w.add (single 0 b)).trees.fresh = w.trees.fresh + 1 := by
        rw [hadd, fresh_append_single]
      obtain ⟨w', root', hrun, hw', hroot⟩ := ih (w := w.add (single 0 b))
        (g := g ++ single w.trees.fresh b) (by rw [hadd, hw, append_assoc]) hL'
        (new ++ [w.trees.fresh]) (if x = self then some w.trees.fresh else root)
      rw [hfr] at hrun hw' hroot
      refine ⟨w', root', ?_, ?_, fun hlen hnd => ?_⟩
      · rw [recreateNodes, exec_bind, hstep]
        refine hrun.trans ?_
        rw [List.append_assoc]
        rfl
      · rw [hw', hadd, append_assoc]
        rfl
      · rw [length_cons, length_cons, Nat.add_right_cancel_iff] at hlen
        rw [nodup_cons] at hnd
        rw [hroot hlen hnd.2]
        by_cases hxs : x = self
        · subst hxs
          simp [hnd.1]
        · by_cases hm : self ∈ L
          · simp [hm, List.idxOf_cons_ne _ hxs]
            omega
          · simp [hm, hxs, Ne.symm hxs]

/-! ### Attaching the copies to each other -/

/-- Every entry but the first has its parent in `F`, nothing less deep between. -/
def Parented (F : Nodes) (T : Listing) : Prop :=
  ∀ X e Y, T = X ++ e :: Y → X ≠ [] → ∃ X₁ a X₂ t, X = X₁ ++ a :: X₂ ∧ a.label = .inl t ∧
    a.level + 1 = e.level ∧ (∀ d ∈ X₂, e.level ≤ d.level) ∧ F.parent? e.id = some a.id

/-- The entry of the copy of a node: its identity is given by the index in the list of nodes. -/
def copyEntry (m : ℕ) (L : List NodeID) (e : Entry Tag Content) : Entry Tag Content :=
  { e with id := m + L.idxOf e.id }

section Hierarchy

variable {F : Nodes} {T : Listing} {L : List NodeID} {m : ℕ} {self : NodeID}

theorem indexOfObject_of_mem (h : x ∈ L) : indexOfObject L x = some (L.idxOf x) :=
  if_pos h

theorem World.parent?_of_append (hw : w.trees = F ++ g) (hx : x ∈ F.ids) :
    w.parent? x = F.parent? x := by
  rw [World.parent?, hw, Forest.parent?, Forest.parent?, Forest.path?_append_of_mem hx]

/-- One step of the loop: the copy of index `i` goes below the copy of its parent `a`. -/
theorem exec_recreateHierarchy_cons {w' : World} {a : NodeID} {rest : List NodeID}
    (hw : w.trees = F ++ g) (hx : x ∈ F.ids) (hself : x ≠ self) (ha : F.parent? x = some a)
    (haL : a ∈ L) (hi : i < L.length)
    (hadd : exec (addChild (m + L.idxOf a) (m + i)) w = some (.ok ((), w'))) :
    exec (recreateHierarchy self L (range' m L.length) i (x :: rest)) w =
      exec (recreateHierarchy self L (range' m L.length) (i + 1) rest) w' := by
  have h1 : (range' m L.length)[L.idxOf a]? = some (m + L.idxOf a) := by
    rw [List.getElem?_range' (List.idxOf_lt_length_of_mem haL)]
    simp
  have h2 : (range' m L.length)[i]? = some (m + i) := by
    rw [List.getElem?_range' hi]
    simp
  rw [recreateHierarchy, exec_get_bind, if_neg hself,
    w.parent?_of_append hw hx, ha, bind_some, indexOfObject_of_mem haL]
  simp [h1, h2, hadd]

/-- The tree `t` built so far and the copies `u` that stand alone, in one or the other order. -/
def beside (first : Bool) (t u : Nodes) : Nodes := if first then t ++ u else u ++ t

/-- The next copy that stands alone goes below a node of the tree. -/
theorem exec_addChild_beside {first : Bool} {t u : Nodes} {c p : NodeID} {a : Label} {tag : Tag}
    (hw : w.trees = F ++ beside first t (single c a ++ u)) (hp : t.find? p = some n)
    (hn : n.label = .inl tag) :
    ∃ w', exec (addChild p c) w = some (.ok ((), w')) ∧
      w'.trees = F ++ beside first (t.modifyChildren p (fun cs => cs ++ single c a)) u := by
  have hnd := w.nodup
  rw [hw, ids_append, nodup_append] at hnd
  have hmem := mem_of_find? hp
  cases first with
  | true =>
    obtain ⟨w', hrun, hw'⟩ := exec_addChild (m := ⟨c, a, .nil⟩) (f := t) (g := u) hw
      (by rw [find?_append_of_mem hmem, hp]) hn
    refine ⟨w', hrun, hw'.trans ?_⟩
    have hpu : p ∉ u.ids := fun h => (nodup_append.1 (ids_append t _ ▸ hnd.2.1)).2.2 p
      hmem p (by simp [h]) rfl
    rw [modifyChildren, update_append_left hpu]
    rfl
  | false =>
    have hnd' := hnd.2.1
    simp only [beside, Bool.false_eq_true, if_false, ids_append] at hnd'
    have hpu : p ∉ u.ids := fun h => (nodup_append.1 hnd').2.2 p (by simp [h]) p hmem rfl
    have hw' : w.trees = F ++ (.nil ++ (Node.tree ⟨c, a, .nil⟩ ++ (u ++ t))) := by
      rw [hw, ← append_assoc (Node.tree _)]
      rfl
    obtain ⟨w', hrun, hw'⟩ := exec_addChild hw'
      (by rw [nil_append, find?_append_of_notMem hpu, hp]) hn
    refine ⟨w', hrun, hw'.trans ?_⟩
    rw [nil_append, modifyChildren, update_append_right hpu]
    rfl

theorem idxOf_append_cons {L1 L2 : List NodeID} (hnd : (L1 ++ x :: L2).Nodup) :
    (L1 ++ x :: L2).idxOf x = L1.length := by
  have hx : x ∉ L1 := fun h => (nodup_append.1 hnd).2.2 x h x (by simp) rfl
  rw [List.idxOf_append_of_notMem hx, List.idxOf_cons_self, Nat.add_zero]

/-- The loop over nodes in document order: the listing of the tree grows at its end. -/
theorem exec_grow (self : NodeID) (first : Bool) (hL : L.Nodup) (hLF : ∀ x ∈ L, x ∈ F.ids)
    (hTL : ∀ e ∈ T, e.id ∈ L) (hpar : Parented F T) {N R : Listing} (hT : T = N ++ R) (hN : N ≠ [])
    {K : List NodeID} (hLR : L = P ++ (R.map Entry.id ++ K)) (hself : ∀ e ∈ R, e.id ≠ self)
    {t : Nodes} (ht : t.entries 0 = N.map (copyEntry m L))
    (hw : w.trees = F ++ beside first t (singles (m + P.length) (R.map label))) :
    ∃ w' t', exec (recreateHierarchy self L (range' m L.length) P.length (R.map Entry.id ++ K)) w =
        exec (recreateHierarchy self L (range' m L.length) (P.length + R.length) K) w' ∧
      w'.trees = F ++ t' ∧ t'.entries 0 = T.map (copyEntry m L) := by
  induction R generalizing N P t w with
  | nil =>
    refine ⟨w, t, rfl, ?_, by rw [ht, hT, List.append_nil]⟩
    rw [hw]
    cases first <;> simp [beside, singles]
  | cons e R ih =>
    obtain ⟨X1, a, X2, tag, hX, hlab, hlev, hX2, hpa⟩ := hpar N e R hT hN
    have haT : a ∈ T := by rw [hT, hX]; simp
    have heL : e.id ∈ L := by rw [hLR]; simp
    have hidx : L.idxOf e.id = P.length := by
      rw [hLR] at hL ⊢
      exact idxOf_append_cons hL
    have hlt : P.length < L.length := by
      rw [hLR]
      simp
    -- the copy of the parent ends the listing of the tree, up to deeper nodes
    have ht' : t.entries 0 = X1.map (copyEntry m L) ++
        ⟨a.level, m + L.idxOf a.id, .inl tag⟩ :: X2.map (copyEntry m L) := by
      rw [ht, hX, map_append, map_cons, copyEntry, hlab]
    have hnd := w.nodup
    rw [hw, ids_append, nodup_append] at hnd
    have htn : t.ids.Nodup := by
      have := hnd.2.1
      cases first
      · exact (nodup_append.1 (ids_append _ t ▸ this)).2.1
      · exact (nodup_append.1 (ids_append t _ ▸ this)).1
    obtain ⟨n, hfind, hn⟩ := find?_label_of_entries htn ht'
    obtain ⟨w1, hadd, hw1⟩ := exec_addChild_beside (c := m + P.length) (a := e.label)
      (u := singles (m + P.length + 1) (R.map label)) hw hfind hn
    have hgrow := entries_grow (c := m + P.length) (a := e.label) htn ht' (by
      intro d hd
      obtain ⟨d', hd', rfl⟩ := mem_map.1 hd
      have := hX2 d' hd'
      simp only [copyEntry]
      omega)
    obtain ⟨w', t', hrun, hw', hent⟩ := ih (N := N ++ [e]) (P := P ++ [e.id])
      (t := t.modifyChildren (m + L.idxOf a.id) (fun cs => cs ++ single (m + P.length) e.label))
      (w := w1) (by rw [hT]; simp) (by simp) (by rw [hLR]; simp)
      (fun d hd => hself d (by simp [hd]))
      (by rw [hgrow, ht, map_append, List.map_singleton, copyEntry, hidx, hlev])
      (by rw [hw1, length_append, length_singleton, ← Nat.add_assoc])
    refine ⟨w', t', ?_, hw', hent⟩
    rw [map_cons, cons_append, exec_recreateHierarchy_cons hw (hLF _ heL)
      (hself e (by simp)) hpa (hTL a haT) hlt hadd]
    rw [length_append, length_singleton] at hrun
    rw [hrun, length_cons]
    congr 2
    omega

theorem Parented.parent?_eq (hpar : Parented F T) {X Y : Listing} {a : Entry Tag Content}
    (hT : T = X ++ a :: e :: Y) (hlev : a.level + 1 = e.level) :
    F.parent? e.id = some a.id ∧ ∃ t, a.label = .inl t := by
  obtain ⟨X1, a', X2, t, hX, hlab, -, hX2, hpa⟩ :=
    hpar (X ++ [a]) e Y (by rw [hT]; simp) (by simp)
  have hlast : (X1 ++ a' :: X2).getLast? = some a := by rw [← hX]; simp
  cases X2 with
  | nil =>
    obtain rfl : a' = a := by simpa using hlast
    exact ⟨hpa, t, hlab⟩
  | cons x X2 =>
    rw [List.getLast?_append_cons] at hlast
    have := hX2 a (List.mem_of_getLast? hlast)
    omega

/-- A node that is listed before the last one is not the last one. -/
theorem mem_of_eq_append_concat (hL : L.Nodup) {S : List NodeID} {r : NodeID}
    (h : L = P ++ x :: (S ++ [r])) : P.length < L.length ∧ x ∈ L ∧ x ≠ r := by
  subst h
  rw [nodup_append, nodup_cons] at hL
  exact ⟨by simp, by simp, fun h => hL.2.1.1 (by simp [h])⟩

/-- The topmost ancestor goes below the root element. -/
theorem exec_chain_top (hL : L.Nodup) (hLF : ∀ x ∈ L, x ∈ F.ids) {s : Entry Tag Content}
    {D : Listing} {tag : Tag} (hpar : F.parent? e.id = some s.id) (htag : s.label = .inl tag)
    (hs : s.level = 0) (hlev : s.level + 1 = e.level)
    (hLB : L = P ++ e.id :: (Q.map Entry.id ++ [s.id])) (hself : s.id = self)
    (hn : n.id = m + P.length) (hent : n.tree.entries e.level = (e :: D).map (copyEntry m L))
    (hw : w.trees = F ++ (n.tree ++ (singles (m + P.length + 1) (Q.map label) ++
      single (m + L.idxOf s.id) s.label))) :
    ∃ w' t, exec (recreateHierarchy self L (range' m L.length) P.length
        (e.id :: (Q.map Entry.id ++ [s.id]))) w =
        exec (recreateHierarchy self L (range' m L.length) (P.length + 1)
          (Q.map Entry.id ++ [s.id])) w' ∧
      w'.trees = F ++ beside false t (singles (m + P.length + 1) (Q.map label)) ∧
      t.entries 0 = (s :: e :: D).map (copyEntry m L) := by
  obtain ⟨hlt, heL, hes⟩ := mem_of_eq_append_concat hL hLB
  have hsL : s.id ∈ L := by
    rw [hLB]
    simp
  have hnd := w.nodup
  rw [hw] at hnd
  simp only [ids_append, nodup_append] at hnd
  have hsQ : m + L.idxOf s.id ∉
      (singles (m + P.length + 1) (Q.map label) : Nodes).ids := fun h =>
    hnd.2.1.2.1.2.2 _ h _ (by simp) rfl
  obtain ⟨w', hadd, hw'⟩ := exec_addChild (f := .nil) (m := n) (p := m + L.idxOf s.id) hw
    (by rw [nil_append, find?_append_of_notMem hsQ, find?_single]) htag
  refine ⟨w', .branch (m + L.idxOf s.id) tag n.tree .nil, ?_, ?_, ?_⟩
  · exact exec_recreateHierarchy_cons hw (hLF _ heL) (hself ▸ hes) hpar hsL hlt (hn ▸ hadd)
  · rw [hw', nil_append, modifyChildren, update_append_right hsQ, htag]
    have := modifyChildren_single_append (p := m + L.idxOf s.id) tag .nil
      (fun cs => cs ++ n.tree)
    exact congrArg (fun g => F ++ (_ ++ g)) this
  · have he : e.level = 0 + 1 := by rw [← hlev, hs]
    rw [entries_branch, ← he, hent]
    simp [copyEntry, htag, hs]

/-- The loop over the ancestors of a node: each becomes the only child of the next, the last one a
child of the root element. -/
theorem exec_chain (self : NodeID) (hL : L.Nodup) (hLF : ∀ x ∈ L, x ∈ F.ids) (hpar : Parented F T)
    {s : Entry Tag Content} {B D : Listing} (hT : T = s :: (B.reverse ++ (e :: D ++ Q)))
    (hs : s.level = 0) (hlev : (s :: (B.reverse ++ [e])).IsChain fun a b => a.level + 1 = b.level)
    (hLB : L = P ++ e.id :: (B.map Entry.id ++ (Q.map Entry.id ++ [s.id]))) (hself : s.id = self)
    (hn : n.id = m + P.length) (hent : n.tree.entries e.level = (e :: D).map (copyEntry m L))
    (hw : w.trees = F ++ (n.tree ++ (singles (m + P.length + 1) (B.map Entry.label) ++
      (singles (m + P.length + 1 + B.length) (Q.map label) ++
        single (m + L.idxOf s.id) s.label)))) :
    ∃ w' t, exec (recreateHierarchy self L (range' m L.length) P.length
        (e.id :: (B.map Entry.id ++ (Q.map Entry.id ++ [s.id])))) w =
        exec (recreateHierarchy self L (range' m L.length) (P.length + 1 + B.length)
          (Q.map Entry.id ++ [s.id])) w' ∧
      w'.trees = F ++ beside false t
        (singles (m + P.length + 1 + B.length) (Q.map Entry.label)) ∧
      t.entries 0 = (s :: (B.reverse ++ e :: D)).map (copyEntry m L) := by
  induction B generalizing e D P n w with
  | nil =>
    obtain ⟨hpa, tag, htag⟩ := hpar.parent?_eq (X := []) (a := s) (e := e) (Y := D ++ Q)
      (by rw [hT]; simp) (by simpa using hlev)
    exact exec_chain_top hL hLF hpa htag hs (by simpa using hlev) hLB hself hn hent
      (by simpa only [List.map_nil, singles, nil_append, List.length_nil] using hw)
  | cons b B ih =>
    obtain ⟨hlt, heL, hes⟩ := mem_of_eq_append_concat hL (P := P) (x := e.id) (r := s.id)
      (S := (b :: B).map Entry.id ++ Q.map Entry.id) (by rw [hLB, List.append_assoc])
    have hLB' : L = (P ++ [e.id]) ++ b.id :: (B.map Entry.id ++ (Q.map Entry.id ++ [s.id])) := by
      rw [hLB]
      simp
    have hbL : b.id ∈ L := by
      rw [hLB']
      simp
    have hidx : L.idxOf b.id = P.length + 1 := by
      rw [hLB'] at hL ⊢
      rw [idxOf_append_cons hL, length_append, length_singleton]
    rw [List.reverse_cons, ← cons_append, List.isChain_append] at hlev
    have hbe : b.level + 1 = e.level := hlev.2.2 b
      (by rw [← cons_append, List.getLast?_append]; rfl) e rfl
    obtain ⟨hpa, tag, htag⟩ := hpar.parent?_eq (X := s :: B.reverse) (a := b) (e := e)
      (Y := D ++ Q) (by rw [hT]; simp) hbe
    rw [map_cons, singles, append_assoc] at hw
    obtain ⟨w1, hadd, hw1⟩ := exec_addChild (f := .nil) (m := n) (p := m + L.idxOf b.id) hw
      (by rw [nil_append, hidx, ← Nat.add_assoc, find?_append_of_mem (by simp),
        find?_single]) htag
    have hlen : P.length + 1 + (b :: B).length = P.length + 1 + 1 + B.length := by
      rw [length_cons]
      omega
    have hlen' : m + P.length + 1 + (b :: B).length = m + (P.length + 1) + 1 + B.length := by
      omega
    obtain ⟨w', t, hrun, hw', ht⟩ := ih (e := b) (D := e :: D) (P := P ++ [e.id])
      (n := ⟨m + P.length + 1, .inl tag, n.tree⟩) (w := w1) (by rw [hT]; simp) hlev.1 hLB'
      (by simp [Nat.add_assoc])
      (by rw [Node.tree, entries_branch, hbe, hent]
          simp [copyEntry, htag, hidx, Nat.add_assoc])
      (by rw [hw1, nil_append, hidx, htag, ← Nat.add_assoc,
            modifyChildren_single_append, length_append, hlen']
          rfl)
    rw [length_append, length_singleton] at hrun hw'
    refine ⟨w', t, ?_, ?_, ?_⟩
    · rw [exec_recreateHierarchy_cons hw (hLF _ heL) (hself ▸ hes) hpa hbL hlt (hn ▸ hadd), hlen]
      exact hrun
    · rw [hw', hlen']
    · rw [ht]
      simp

end Hierarchy

/-! ### Recreating a part of a subtree -/

/-- Nodes of `O`, each below the same nodes as there and with the label of its copy. -/
structure PartOf (O : Nodes) (cut : NodeID) (piece : NSString) (part : Nodes) : Prop where
  nodup : part.ids.Nodup
  path? : ∀ y ∈ part.ids, part.path? y = O.path? y
  label : ∀ e ∈ part.entries 1, ∃ n, O.find? e.id = some n ∧
    recreated cut piece e.id n.label = some e.label

/-- The entry of the receiver, with the label of its copy. -/
def rootEntry (self : NodeID) (t : Tag) : Entry Tag Content :=
  ⟨0, self, .inl (plainTag t.name t.attributes)⟩

namespace PartOf

variable {w : World} {self cut : NodeID} {piece : NSString} {n : Node Tag Content} {t : Tag}
  {part : Nodes}

theorem subset (h : PartOf n.children cut piece part) : part.ids ⊆ n.children.ids := by
  intro y hy
  by_contra hO
  have := h.path? y hy
  rw [path?_eq_none.2 hO] at this
  exact path?_eq_none.1 this hy

theorem nodup_root (h : PartOf n.children cut piece part) (hself : w.node? self = some n) :
    (self :: part.ids).Nodup :=
  nodup_cons.2
    ⟨fun hs => (children_nodup w.nodup hself).2 (h.subset hs), h.nodup⟩

theorem parented (h : PartOf n.children cut piece part) (hself : w.node? self = some n) :
    Parented w.trees (rootEntry self t :: part.entries 1) := by
  intro X e Y hT hX
  have hnd : (branch self (plainTag t.name t.attributes) part .nil).ids.Nodup := by
    simpa using h.nodup_root hself
  have hT' : (branch self (plainTag t.name t.attributes) part .nil).entries 0 =
      X ++ e :: Y := by
    rw [← hT]
    simp [rootEntry]
  obtain ⟨x, X, rfl⟩ := List.exists_cons_of_ne_nil hX
  have he : e ∈ part.entries 1 := by
    rw [cons_append, List.cons.injEq] at hT
    rw [hT.2]
    simp
  have hid := mem_ids_of_mem_entries 1 part he
  rcases path?_of_entries hnd hT' with ⟨hk, -⟩ | ⟨X1, a, X2, p, hX, hl, hX2, -, hp⟩
  · have := le_level_of_mem 1 part he
    omega
  · rw [hX, List.append_assoc] at hT'
    obtain ⟨b, hb⟩ := label_of_path?_of_entries hnd hT' hl hX2
    refine ⟨X1, a, X2, b, hX, hb, hl, hX2, ?_⟩
    -- the nodes above `e` are the same in the part and in the receiver's subtree
    have hne : self ≠ e.id := fun hs => (nodup_cons.1 (h.nodup_root hself)).1 (hs ▸ hid)
    obtain ⟨q, hq⟩ := ne_none_iff_exists'.1 (mt path?_eq_none.1 (not_not.2 hid))
    rw [path?_branch, if_neg hne, hq] at hp
    obtain ⟨r, -, hbel⟩ := path?_of_find?_children w.nodup hself
    have hpq : self :: q = p ++ [a.id] := some.inj hp
    rw [parent?, hbel e.id q (h.path? _ hid ▸ hq), hpq]
    simp

theorem newLabels_eq (h : PartOf n.children cut piece part) (hself : w.node? self = some n)
    (ht : n.label = .inl t) {E : Listing} (hE : E ⊆ rootEntry self t :: part.entries 1) :
    newLabels w.trees cut piece (E.map Entry.id) = E.map Entry.label := by
  induction E with
  | nil => rfl
  | cons e E ih =>
    rw [List.cons_subset] at hE
    rw [map_cons, map_cons, ← ih hE.2]
    rcases mem_cons.1 hE.1 with rfl | he
    · exact newLabels_cons_of_some hself (by rw [ht]; rfl) _
    · obtain ⟨m, hm, hr⟩ := h.label e he
      exact newLabels_cons_of_some (find?_of_find?_children w.nodup hself hm) hr _

theorem hasImplicitSpace_label (h : PartOf n.children cut piece part) (hb : b ∈ part.labels) :
    hasImplicitSpace b = false := by
  rw [← map_label_entries 1] at hb
  obtain ⟨e, he, rfl⟩ := mem_map.1 hb
  obtain ⟨m, -, hr⟩ := h.label e he
  rcases hl : m.label with u | s | ⟨k, s⟩
  · rw [hl, recreated, some.injEq] at hr
    rw [← hr]
    rfl
  · rw [hl, recreated, some.injEq] at hr
    rw [← hr]
    rfl
  · rw [hl] at hr
    cases hr

end PartOf

theorem recreated_of_ne (hx : x ≠ cut) (hk : kind b = .element ∨ kind b = .text)
    (hs : hasImplicitSpace b = false) (piece : NSString) : recreated cut piece x b = some b := by
  rcases b with ⟨name, attributes, l, t⟩ | s | ⟨k, s⟩
  · obtain ⟨rfl, rfl⟩ : l = 0 ∧ t = 0 := by simpa [hasImplicitSpace] using hs
    rfl
  · simp [recreated, hx]
  · rcases hk with hk | hk <;> cases hk

section Parts

variable {O : Nodes} {cut : NodeID} {s : NSString}

theorem partOf_of_entries (hn : O.ids.Nodup) (hx : ExplicitSpace O) (q : LeafCut O 1 cut (.text s))
    {part : Nodes} (hsub : part.ids.Sublist O.ids)
    (hpath : ∀ y ∈ part.ids, part.path? y = O.path? y)
    (hent : ∀ e ∈ part.entries 1, (e.id = cut ∧ e.label = .inr (.text piece)) ∨
      (e.id ≠ cut ∧ e ∈ O.entries 1) ∧ (kind e.label = .element ∨ kind e.label = .text)) :
    PartOf O cut piece part := by
  refine ⟨hsub.nodup hn, hpath, fun e he => ?_⟩
  rcases hent e he with ⟨hid, hlab⟩ | ⟨⟨hid, he⟩, hk⟩
  · obtain ⟨c, hcut, hc⟩ := find?_label_of_entries hn q.entries_eq
    exact ⟨c, hid ▸ hcut, by rw [hc, recreated, if_pos hid, hlab]⟩
  · obtain ⟨X, Y, hXY⟩ := List.append_of_mem he
    obtain ⟨m, hm, hlab⟩ := find?_label_of_entries hn hXY
    have hmem : e.label ∈ O.labels := by
      rw [← map_label_entries 1]
      exact List.mem_map_of_mem he
    exact ⟨m, hm, by rw [hlab, recreated_of_ne hid hk (hx _ hmem)]⟩

theorem partOf_headPart (hn : O.ids.Nodup) (hx : ExplicitSpace O)
    (q : LeafCut O 1 cut (.text s))
    (hk : ∀ e ∈ q.front, kind e.label = .element ∨ kind e.label = .text) (piece : NSString) :
    PartOf O cut piece (headPart cut (some (.text piece)) O) := by
  refine partOf_of_entries hn hx q (ids_headPart_sublist _ _ _)
    (fun y hy => path?_headPart hy) fun e he => ?_
  rcases q.mem_head he with he | ⟨d, hd, rfl⟩
  · exact .inr ⟨q.mem_entries hn (.inl he), hk e he⟩
  · cases hd
    exact .inl ⟨rfl, rfl⟩

theorem partOf_tailPart (hn : O.ids.Nodup) (hx : ExplicitSpace O)
    (q : LeafCut O 1 cut (.text s))
    (hk : ∀ e ∈ q.behind, kind e.label = .element ∨ kind e.label = .text) (piece : NSString) :
    PartOf O cut piece (tailPart cut (some (.text piece)) O) := by
  refine partOf_of_entries hn hx q (ids_tailPart_sublist _ _ _)
    (fun y hy => path?_tailPart hn hy) fun e he => ?_
  rcases q.mem_tail he with he | he | ⟨d, hd, rfl⟩
  · obtain ⟨t, ht⟩ := q.label_above e he
    exact .inr ⟨q.mem_entries hn (.inl (q.above_sublist.subset he)), by simp [ht, kind]⟩
  · exact .inr ⟨q.mem_entries hn (.inr he), hk e he⟩
  · cases hd
    exact .inl ⟨rfl, rfl⟩

end Parts

section Rebuild

variable {w : World} {self cut : NodeID} {n c : Node Tag Content} {t : Tag} {part : Nodes}
  {s piece : NSString} {i : ℕ}

/-- If the loop builds a copy of the part, the method answers it, with texts coalesced. -/
theorem exec_recreateSplitSubtree (cocoa : Cocoa) (hi : i ≤ s.length) (hmax : i ≤ nsIntegerMax)
    (isHead : Bool) (hself : w.node? self = some n) (ht : n.label = .inl t)
    (hcut : n.children.find? cut = some c) (hc : c.label = .inr (.text s))
    (hpie : piece = if isHead then s.take i else s.drop i)
    (h : PartOf n.children cut piece part) {E : Listing}
    (hE : E ⊆ rootEntry self t :: part.entries 1) (hnd : (E.map Entry.id).Nodup)
    (hroot : self ∈ E.map Entry.id)
    (hbui : ∀ w1 : World, w1.trees = w.trees ++ singles w.trees.fresh (E.map label) →
      ∃ w2 g, exec (recreateHierarchy self (E.map Entry.id)
          (range' w.trees.fresh (E.map Entry.id).length) 0 (E.map Entry.id)) w1 =
          some (.ok ((), w2)) ∧
        w2.trees = w.trees ++ g ∧ g.entries 0 = (rootEntry self t :: part.entries 1).map
          (copyEntry w.trees.fresh (E.map Entry.id))) :
    ∃ w' root cs, exec (recreateSplitSubtree cocoa self (E.map Entry.id) cut i isHead) w =
        some (.ok (some root, w')) ∧
      w'.trees = w.trees ++ .branch root (plainTag t.name t.attributes) (normalized cs) .nil ∧
      cs.anonymous = part.anonymous := by
  have hlbs := h.newLabels_eq hself ht hE
  have hmem : ∀ x ∈ E.map Entry.id, x ∈ w.trees.ids := by
    intro x hx
    obtain ⟨e, he, rfl⟩ := mem_map.1 hx
    rcases mem_cons.1 (hE he) with rfl | he
    · exact mem_of_find? hself
    · exact children_subset hself (h.subset (mem_ids_of_mem_entries 1 part he))
  have hcu : ∀ m, w.trees.find? cut = some m → m.label = .inr (.text s) := by
    intro m hm
    rw [find?_of_find?_children w.nodup hself hcut] at hm
    cases hm
    exact hc
  obtain ⟨w1, root', hcopy, hw1, hroot'⟩ := exec_recreateNodes self (g := .nil) hi hmax
    isHead hcu (append_nil _).symm hmem [] none
  rw [← hpie, hlbs] at hcopy hw1 hroot'
  have hlen : (E.map Entry.label).length = (E.map Entry.id).length := by simp
  rw [List.nil_append, hlen] at hcopy
  have hroot'' := hroot' hlen hnd
  rw [if_pos hroot] at hroot''
  subst hroot''
  obtain ⟨w2, g, hhier, hw2, hg⟩ := hbui w1 hw1
  have hsub : ∀ d ∈ (part.entries 1).map (copyEntry w.trees.fresh (E.map Entry.id)), 0 < d.level := by
    intro d hd
    obtain ⟨e, he, rfl⟩ := mem_map.1 hd
    exact lt_level_of_mem_entries_succ e he
  obtain ⟨cs, rfl, hcs⟩ := exists_branch_of_entries hg hsub
  have hni : w.trees.fresh + (E.map Entry.id).idxOf self ∉ w.trees.ids := fun hx =>
    absurd (lt_fresh hx) (by omega)
  have hw3 : (w2.normalizeAdjacentTextNodes (w.trees.fresh + (E.map Entry.id).idxOf self)).trees =
      w.trees ++ .branch (w.trees.fresh + (E.map Entry.id).idxOf self)
        (plainTag t.name t.attributes) (normalized cs) .nil := by
    show w2.trees.modifyChildren _ _ = _
    rw [hw2, modifyChildren, update_append_right hni]
    simp [rootEntry, update, Node.tree]
  have hexp : ExplicitSpace cs := by
    intro b hb
    rw [← map_label_entries 1, hcs, List.map_map] at hb
    exact h.hasImplicitSpace_label (by rw [← map_label_entries 1]; exact hb)
  refine ⟨_, _, cs, ?_, hw3, anonymous_eq_of_entries hcs⟩
  have hcop : ExplicitSpace
      ((w2.normalizeAdjacentTextNodes (w.trees.fresh + (E.map Entry.id).idxOf self)).children
        (w.trees.fresh + (E.map Entry.id).idxOf self)) := by
    rw [World.children, World.node?, hw3, find?_append_of_notMem hni, find?_branch, if_pos rfl]
    exact explicitSpace_normalized hexp
  have henf := exec_enforceExplicitPreservedSpace cocoa hcop
  simp only [recreateSplitSubtree, exec_bind, hcopy, andThen_ok, hhier, exec_modify, henf,
    exec_pure]

theorem exec_recreateHierarchy_self (L N rest : List NodeID) (i : ℕ) :
    exec (recreateHierarchy self L N i (self :: rest)) w =
      exec (recreateHierarchy self L N (i + 1) rest) w := by
  rw [recreateHierarchy, exec_get_bind, if_pos rfl]

theorem mem_ids_of_mem_part (h : PartOf n.children cut piece part) (hself : w.node? self = some n) :
    ∀ x ∈ (rootEntry self t :: part.entries 1).map Entry.id, x ∈ w.trees.ids := by
  intro x hx
  rw [map_cons, map_id_entries, mem_cons] at hx
  rcases hx with rfl | hx
  · exact mem_of_find? hself
  · exact children_subset hself (h.subset hx)

/-- The list of the head's nodes is in document order. -/
theorem exec_recreateHierarchy_head (h : PartOf n.children cut piece part)
    (hself : w.node? self = some n) (m : ℕ) {w1 : World}
    (hw1 : w1.trees = w.trees ++ singles m ((rootEntry self t :: part.entries 1).map label)) :
    let L := (rootEntry self t :: part.entries 1).map Entry.id
    ∃ w2 g, exec (recreateHierarchy self L (range' m L.length) 0 L) w1 =
        some (.ok ((), w2)) ∧
      w2.trees = w.trees ++ g ∧
      g.entries 0 = (rootEntry self t :: part.entries 1).map (copyEntry m L) := by
  intro L
  have hL : L = self :: part.ids := by simp [L, rootEntry]
  have hnd : L.Nodup := hL ▸ h.nodup_root hself
  obtain ⟨w2, g, hrun, hw2, hg⟩ := exec_grow self (F := w.trees) (L := L) (m := m)
    (T := rootEntry self t :: part.entries 1) (N := [rootEntry self t]) (R := part.entries 1)
    (P := [self]) (K := []) (t := single m (rootEntry self t).label) (w := w1) true
    hnd (mem_ids_of_mem_part h hself) (fun e he => List.mem_map_of_mem he)
    (h.parented hself) rfl (by simp) (by simp [hL])
    (fun e he hs => by
      rw [hL, nodup_cons] at hnd
      exact hnd.1 (hs ▸ mem_ids_of_mem_entries 1 part he))
    (by simp [copyEntry, rootEntry, hL]) hw1
  refine ⟨w2, g, ?_, hw2, hg⟩
  rw [hL] at hrun ⊢
  simpa [recreateHierarchy] using hrun

/-- The nodes of the tail, in the order in which they are gathered. -/
theorem perm_tailNodes (A Q : Listing) (c r : Entry Tag Content) :
    (c :: (A.reverse ++ (Q ++ [r]))).Perm (r :: (A ++ c :: Q)) := by
  refine (((List.reverse_perm A).append_right _).cons c).trans (List.perm_middle.symm.trans ?_)
  rw [← cons_append, ← List.append_assoc]
  exact List.perm_append_singleton _ _

/-- The list of the tail's nodes begins with the text node and the nodes above it, innermost first,
and ends with the receiver. -/
theorem exec_recreateHierarchy_tail (h : PartOf n.children cut piece part)
    (hself : w.node? self = some n) (m : ℕ) {A : Listing} {c : Entry Tag Content}
    (hpart : part.entries 1 = A ++ c :: Q) (hA : A.map Entry.level = range' 1 A.length)
    (hc : c.level = 1 + A.length) {w1 : World} (hw1 : w1.trees = w.trees ++ singles m
      ((c :: (A.reverse ++ (Q ++ [rootEntry self t]))).map label)) :
    let L := (c :: (A.reverse ++ (Q ++ [rootEntry self t]))).map Entry.id
    ∃ w2 g, exec (recreateHierarchy self L (range' m L.length) 0 L) w1 =
        some (.ok ((), w2)) ∧
      w2.trees = w.trees ++ g ∧
      g.entries 0 = (rootEntry self t :: part.entries 1).map (copyEntry m L) := by
  intro L
  have hperm : L.Perm ((rootEntry self t :: part.entries 1).map Entry.id) :=
    List.Perm.map _ (hpart ▸ perm_tailNodes A Q c (rootEntry self t))
  have hnd : L.Nodup := by
    rw [hperm.nodup_iff]
    simpa [rootEntry] using h.nodup_root hself
  have hLF : ∀ x ∈ L, x ∈ w.trees.ids := fun x hx =>
    mem_ids_of_mem_part h hself x (hperm.subset hx)
  have hch : (rootEntry self t :: (A ++ [c])).IsChain fun a b => a.level + 1 = b.level := by
    have hlev : (rootEntry self t :: (A ++ [c])).map Entry.level =
        range' 0 (A.length + 1 + 1) := by
      rw [List.range'_succ, List.range'_concat, map_cons, map_append, hA]
      simp [rootEntry, hc]
    have := List.isChain_range' 0 (A.length + 1 + 1) 1
    rw [← hlev, List.isChain_map] at this
    exact this.imp fun _ _ h => h.symm
  have hL : L = c.id :: (A.reverse.map Entry.id ++ (Q.map Entry.id ++ [self])) := by
    simp [L, rootEntry]
  have hidx : L.idxOf self = 1 + A.length + Q.length := by
    have hL' : L = (c.id :: (A.reverse.map Entry.id ++ Q.map Entry.id)) ++ self :: [] := by
      simp [hL]
    have := idxOf_append_cons (hL' ▸ hnd)
    rw [hL', this]
    simp
    omega
  -- the text node and the nodes above it
  obtain ⟨w2, g2, hrun₂, hw2, hg2⟩ := exec_chain self (F := w.trees) (L := L) (m := m)
    (T := rootEntry self t :: part.entries 1) (s := rootEntry self t) (e := c) (B := A.reverse)
    (D := []) (Q := Q) (P := []) (n := ⟨m, c.label, .nil⟩) (w := w1) hnd hLF (h.parented hself)
    (by simp [hpart]) rfl (by simpa using hch) hL rfl rfl
    ((entries_single c.level m c.label).trans (by simp [copyEntry, hL]))
    (by
      rw [hw1]
      simp only [map_cons, map_append, singles, singles_append,
        List.length_map, List.length_reverse]
      have : m + 1 + A.length + Q.length = m + L.idxOf self := by omega
      rw [this]
      rfl)
  -- what follows in document order
  obtain ⟨w3, g3, hrun₃, hw3, hg3⟩ := exec_grow self (F := w.trees) (L := L) (m := m)
    (T := rootEntry self t :: part.entries 1) (N := rootEntry self t :: (A ++ [c])) (R := Q)
    (P := c.id :: A.reverse.map Entry.id) (K := [self]) (t := g2) (w := w2) false hnd hLF
    (fun e he => hperm.symm.subset (List.mem_map_of_mem he)) (h.parented hself) (by simp [hpart])
    (by simp) (by simp [hL])
    (fun e he hs => (nodup_cons.1 (h.nodup_root hself)).1 (by
      rw [← hs, ← map_id_entries 1, hpart]
      exact List.mem_map_of_mem (by simp [he])))
    (by rw [hg2]; simp)
    (by rw [hw2]; simp [Nat.add_assoc, Nat.add_comm 1])
  refine ⟨w3, g3, ?_, hw3, hg3⟩
  rw [hL] at hrun₂ hrun₃ ⊢
  refine hrun₂.trans (Eq.trans ?_ (hrun₃.trans ?_))
  · simp [rootEntry, Nat.add_comm 1]
  · rw [exec_recreateHierarchy_self]
    rfl

/-- Recreating the nodes up to the text node. -/
theorem exec_recreateSplitSubtree_head (cocoa : Cocoa) (hself : w.node? self = some n)
    (ht : n.label = .inl t) (hx : ExplicitSpace n.children)
    (q : LeafCut n.children 1 cut (.text s))
    (hk : ∀ e ∈ q.front, kind e.label = .element ∨ kind e.label = .text) (hi : i ≤ s.length)
    (hmax : i ≤ nsIntegerMax) :
    ∃ w' root cs, exec (recreateSplitSubtree cocoa self
        (self :: (q.front.map Entry.id ++ [cut])) cut i true) w = some (.ok (some root, w')) ∧
      w'.trees = w.trees ++ .branch root (plainTag t.name t.attributes) (normalized cs) .nil ∧
      cs.anonymous = (headPart cut (some (.text (s.take i))) n.children).anonymous := by
  have hnd := (children_nodup w.nodup hself).1
  have h := partOf_headPart hnd hx q hk (s.take i)
  obtain ⟨c, hcut, hc⟩ := find?_label_of_entries hnd q.entries_eq
  have hrun := exec_recreateSplitSubtree cocoa hi hmax true hself ht hcut hc rfl h
    (List.Subset.refl _) (by simpa [rootEntry] using h.nodup_root hself) (by simp [rootEntry])
    (fun w1 hw1 => exec_recreateHierarchy_head h hself _ hw1)
  have hL : (rootEntry self t ::
      (headPart cut (some (.text (s.take i))) n.children).entries 1).map Entry.id =
      self :: (q.front.map Entry.id ++ [cut]) := by
    simp [q.entries_head, rootEntry, leafEntry]
  rwa [hL] at hrun

/-- Recreating the text node, the nodes above it and what follows. -/
theorem exec_recreateSplitSubtree_tail (cocoa : Cocoa) (hself : w.node? self = some n)
    (ht : n.label = .inl t) (hx : ExplicitSpace n.children)
    (q : LeafCut n.children 1 cut (.text s))
    (hk : ∀ e ∈ q.behind, kind e.label = .element ∨ kind e.label = .text) (hi : i ≤ s.length)
    (hmax : i ≤ nsIntegerMax) :
    ∃ w' root cs, exec (recreateSplitSubtree cocoa self
        (cut :: q.above.reverse.map Entry.id ++ q.behind.map Entry.id ++ [self]) cut i false) w =
        some (.ok (some root, w')) ∧
      w'.trees = w.trees ++ .branch root (plainTag t.name t.attributes) (normalized cs) .nil ∧
      cs.anonymous = (tailPart cut (some (.text (s.drop i))) n.children).anonymous := by
  have hnd := (children_nodup w.nodup hself).1
  have h := partOf_tailPart hnd hx q hk (s.drop i)
  obtain ⟨c, hcut, hc⟩ := find?_label_of_entries hnd q.entries_eq
  have hent := q.entries_tail (some (.text (s.drop i)))
  have hperm := perm_tailNodes q.above q.behind ⟨q.level, cut, .inr (.text (s.drop i))⟩
    (rootEntry self t)
  rw [← show _ = q.above ++ ⟨q.level, cut, .inr (.text (s.drop i))⟩ :: q.behind from hent] at hperm
  have hrun := exec_recreateSplitSubtree cocoa hi hmax false hself ht hcut hc rfl h hperm.subset
    ((hperm.map Entry.id).nodup_iff.2 (by simpa [rootEntry] using h.nodup_root hself))
    (by simp [rootEntry])
    (fun w2 hw2 => exec_recreateHierarchy_tail h hself _ hent q.map_level_above q.level_eq hw2)
  have hL : (⟨q.level, cut, .inr (.text (s.drop i))⟩ ::
      (q.above.reverse ++ (q.behind ++ [rootEntry self t])) : Listing).map Entry.id =
      cut :: q.above.reverse.map Entry.id ++ q.behind.map Entry.id ++ [self] := by
    simp [rootEntry]
  rwa [hL] at hrun

end Rebuild

end Feather.XML
