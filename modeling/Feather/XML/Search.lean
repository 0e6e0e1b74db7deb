import Feather.OrderedTree.Family
import Feather.XML.Traversal

/-!
# Visiting a part of a subtree, and common ancestors

From `startNode` up to `endNode` the stack of `visitNodesInSubtreeStartingFrom:upTo:visitor:` visits
a segment of the document order, and the loop of `findXMLElementsPassing:` follows `-nextNode` below
the receiver.  `commonAncestorElementOf:and:` goes up from one element and stops at the first node
above the other.
-/

namespace Feather.XML

open OrderedTree Forest Program List Option

variable {σ : Type}
variable {endNode : Option NodeID} {n : Node Tag Content} {fuel : ℕ} {queue : Nodes} {X : Listing}

/-! ### Segments -/

/-- The nodes from the start node up to the end node. -/
def segment (startNode endNode : Option NodeID) (nodes : List (Node Tag Content)) :
    List (Node Tag Content) :=
  (upTo endNode nodes).drop (startNode.elim 0 fun a => (nodes.map Node.id).idxOf a)

theorem segment_skip {a : NodeID} (ha : a ≠ n.id) (hend : endNode ≠ some n.id)
    (l : List (Node Tag Content)) :
    segment (some a) endNode (n :: l) = segment (some a) endNode l := by
  simp [segment, upTo_cons, hend, idxOf_cons_ne _ (Ne.symm ha)]

/-- What a visitor that never stops leaves in the caller's variables. -/
def visitEach (visitor : Node Tag Content → σ → σ × Bool) (nodes : List (Node Tag Content)) (s : σ) :
    σ :=
  nodes.foldl (fun s n => (visitor n s).1) s

section Visit

variable {visitor : Node Tag Content → σ → σ × Bool}

theorem scan_eq_visitEach (hgo : ∀ n s, (visitor n s).2 = true) (nodes : List (Node Tag Content))
    (s : σ) : scan visitor nodes s = visitEach visitor nodes s := by
  induction nodes generalizing s with
  | nil => rfl
  | cons n nodes ih =>
    have hn : visitor n s = ((visitor n s).1, true) := Prod.ext rfl (hgo n s)
    rw [scan_cons_true hn, ih]
    rfl

/-- The segment is what is visited from the start node on, and the end node is not in front. -/
theorem segment_eq_upTo {a : NodeID} {nodes : List (Node Tag Content)} (ha : a ∈ nodes.map Node.id)
    (hord : ∀ b ∈ endNode, (nodes.map Node.id).idxOf a ≤ (nodes.map Node.id).idxOf b) :
    segment (some a) endNode nodes =
        upTo endNode (nodes.dropWhile fun n => decide (n.id ≠ a)) ∧
      ∀ n ∈ nodes.takeWhile fun n => decide (n.id ≠ a), endNode ≠ some n.id := by
  induction nodes with
  | nil => cases ha
  | cons n nodes ih =>
    by_cases hst : a = n.id
    · subst hst
      simp [segment]
    · rw [map_cons] at ha hord
      have hend : endNode ≠ some n.id := by
        rintro rfl
        have hle := hord n.id rfl
        rw [idxOf_cons_self, idxOf_cons_ne _ (Ne.symm hst)] at hle
        omega
      obtain ⟨hseg, hnot⟩ := ih ((mem_cons.1 ha).resolve_left hst) fun b hb => by
        have hle := hord b hb
        have hne : n.id ≠ b := by
          rintro rfl
          exact hend hb
        rw [idxOf_cons_ne _ (Ne.symm hst), idxOf_cons_ne _ hne] at hle
        omega
      rw [segment_skip hst hend, dropWhile_cons_of_pos (by simpa using Ne.symm hst),
        takeWhile_cons_of_pos (by simpa using Ne.symm hst)]
      exact ⟨hseg, forall_mem_cons.2 ⟨hend, hnot⟩⟩

theorem visitNodesInSubtree_eq_segment (hgo : ∀ n s, (visitor n s).2 = true)
    {self : Node Tag Content} (hfuel : self.children.ids.length < fuel) {startNode : Option NodeID}
    (hst : ∀ a ∈ startNode, a ∈ self.children.ids) (hord : ∀ a ∈ startNode, ∀ b ∈ endNode,
      self.children.ids.idxOf a ≤ self.children.ids.idxOf b) (s : σ) :
    visitNodesInSubtree fuel self startNode endNode visitor s =
      some ((segment startNode endNode self.children.nodes).length,
        visitEach visitor (segment startNode endNode self.children.nodes) s) := by
  rw [← map_id_nodes] at hfuel hst hord
  rw [length_map] at hfuel
  rw [visitNodesInSubtree]
  cases startNode with
  | none =>
    obtain ⟨count, h, hcount⟩ := visitLoop_started none endNode visitor hfuel 0 s
    rw [scan_eq_visitEach hgo, hcount hgo, Nat.zero_add] at h
    exact h
  | some a =>
    obtain ⟨hseg, hnot⟩ := segment_eq_upTo (hst a rfl) (hord a rfl)
    obtain ⟨fuel', queue, hnodes, hfuel', hloop⟩ := visitLoop_skipping visitor hfuel hnot 0 s
    obtain ⟨count, h, hcount⟩ := visitLoop_started (some a) endNode visitor hfuel' 0 s
    rw [scan_eq_visitEach hgo, hcount hgo, Nat.zero_add, hnodes, ← hseg] at h
    exact hloop.trans h

end Visit

/-! ### The loop over the next nodes -/

/-- One iteration of `findXMLElementsPassing:`, with the answers of the test. -/
def findXMLElementsPassingStep (self : NodeID) (test : NodeID → Bool × Bool) :
    Option NodeID × List NodeID → Action ((Option NodeID × List NodeID) ⊕ List NodeID)
  | (none, matchingElements) => pure (.inr matchingElements)
  | (some node, matchingElements) => do
    let w ← get
    if w.level (some self) < w.level (some node) then
      if w.kind? node = some .element then
        let matchingElements :=
          if (test node).1 then matchingElements ++ [node] else matchingElements
        if (test node).2 then pure (.inr matchingElements)
        else pure (.inl (w.nextNode node, matchingElements))
      else pure (.inl (w.nextNode node, matchingElements))
    else pure (.inr matchingElements)

/-- `-findXMLElementsPassing:` -/
def findXMLElementsPassing (fuel : ℕ) (self : NodeID) (test : NodeID → Bool × Bool) :
    Action (List NodeID) := do
  let w ← get
  loop (findXMLElementsPassingStep self test) fuel (w.firstChild self, [])

/-- The nodes for which the condition of the loop holds, of those at which it stands. -/
def World.nodesBelow (w : World) (self : NodeID)
    (iterations : List (Option NodeID × List NodeID)) : List NodeID :=
  (iterations.filterMap Prod.fst).filter fun x => decide (w.level (some self) < w.level (some x))

section Walk

variable {w : World} {self : NodeID} {l : ℕ} {B : Listing} {test : NodeID → Bool × Bool}

theorem findXMLElementsPassingStep_inside (hgo : ∀ x, (test x).2 = false)
    (hself : w.level (some self) = l) {Y : Listing} {e : Entry Tag Content}
    (h : w.trees.entries 0 = X ++ e :: Y) (he : l < e.level) (found : List NodeID) :
    exec (findXMLElementsPassingStep self test (some e.id, found)) w =
      some (.ok (.inl (cursor Y,
        if w.kind? e.id = some .element ∧ (test e.id).1 then found ++ [e.id] else found), w)) := by
  by_cases hk : w.kind? e.id = some .element
  · simp [findXMLElementsPassingStep, hself, w.level_of_entries h, he, w.nextNode_of_entries h, hk,
      hgo]
  · simp [findXMLElementsPassingStep, hself, w.level_of_entries h, he, w.nextNode_of_entries h, hk]

theorem findXMLElementsPassingStep_outside (test : NodeID → Bool × Bool)
    (hself : w.level (some self) = l) (h : w.trees.entries 0 = X ++ B) (hB : Closes l B)
    (found : List NodeID) :
    exec (findXMLElementsPassingStep self test (cursor B, found)) w =
        some (.ok (.inr found, w)) ∧
      w.nodesBelow self [(cursor B, found)] = [] := by
  rcases cursor_of_closes hB with hc | ⟨e, C, rfl, hc, hle⟩
  · rw [hc]
    exact ⟨rfl, rfl⟩
  · rw [hc]
    simp [findXMLElementsPassingStep, World.nodesBelow, hself, w.level_of_entries h, hle]

theorem World.nodesBelow_cons (w : World) (self : NodeID) (k : Option NodeID × List NodeID)
    (ks : List (Option NodeID × List NodeID)) :
    w.nodesBelow self (k :: ks) = w.nodesBelow self [k] ++ w.nodesBelow self ks := by
  rw [nodesBelow, ← singleton_append, filterMap_append, filter_append]
  rfl

/-- The loop stands at the nodes below the receiver one after the other, and ends. -/
theorem nodesBelow_iterations (hgo : ∀ x, (test x).2 = false) (hself : w.level (some self) = l)
    (hB : Closes l B) {R : Listing} (h : w.trees.entries 0 = X ++ (R ++ B))
    (hR : ∀ d ∈ R, l < d.level) (hfuel : R.length < fuel) (found : List NodeID) :
    w.nodesBelow self (iterations (findXMLElementsPassingStep self test) fuel
      (cursor (R ++ B), found) w) = R.map Entry.id ∧
    ∃ matching, exec (loop (findXMLElementsPassingStep self test) fuel (cursor (R ++ B), found)) w =
      some (.ok (matching, w)) := by
  induction R generalizing X fuel found with
  | nil =>
    obtain ⟨fuel, rfl⟩ := exists_fuel hfuel
    have hout := findXMLElementsPassingStep_outside test hself h hB found
    rw [iterations_done hout.1, hout.2]
    exact ⟨rfl, found, exec_loop_done hout.1⟩
  | cons e R ih =>
    obtain ⟨fuel, rfl⟩ := exists_fuel hfuel
    have he := hR e (by simp)
    rw [cons_append] at h ⊢
    rw [length_cons] at hfuel
    have hstep := findXMLElementsPassingStep_inside hgo hself h he found
    have hrfu : R.length < fuel := by omega
    obtain ⟨hrest, hends⟩ := ih (X := X ++ [e]) (by simp [h]) (fun d hd => hR d (by simp [hd])) hrfu _
    rw [cursor_cons (by omega), iterations_next hstep, exec_loop_next hstep, World.nodesBelow_cons,
      hrest]
    exact ⟨by simp [World.nodesBelow, hself, w.level_of_entries h, he], hends⟩

end Walk

/-- The loop stands at the nodes below the receiver in document order, and ends. -/
theorem nodesBelow_findXMLElementsPassing {w : World} {self : NodeID} (hn : w.node? self = some n)
    {test : NodeID → Bool × Bool} (hgo : ∀ x, (test x).2 = false)
    (hfuel : n.children.ids.length < fuel) :
    w.nodesBelow self (iterations (findXMLElementsPassingStep self test) fuel
      (w.firstChild self, []) w) = n.children.ids ∧
    ∃ matching, exec (findXMLElementsPassing fuel self test) w = some (.ok (matching, w)) := by
  rw [findXMLElementsPassing, exec_get_bind]
  obtain ⟨l, A, B, he, hB, hlev⟩ := w.exists_entries hn
  have hspl : w.trees.entries 0 =
      (A ++ [⟨l, self, n.label⟩]) ++ (n.children.entries (l + 1) ++ B) := by
    rw [he]
    simp
  have hcur : w.firstChild self = cursor (n.children.entries (l + 1) ++ B) ∨
      n.children.entries (l + 1) = [] ∧ w.firstChild self = none := by
    cases hcs : n.children.entries (l + 1) with
    | nil =>
      refine .inr ⟨rfl, ?_⟩
      rw [w.firstChild_of_node? hn, (entries_eq_nil_iff (l + 1) n.children).1 hcs]
      rfl
    | cons d D =>
      rw [hcs] at he
      have hd : l < d.level := lt_level_of_mem_entries_succ d (by rw [hcs]; simp)
      exact .inl (w.firstChild_of_entries he hd)
  rw [← length_entries (l + 1)] at hfuel
  rcases hcur with hc | ⟨hnil, hc⟩
  · rw [hc, ← map_id_entries (l + 1) n.children]
    exact nodesBelow_iterations hgo hlev hB hspl lt_level_of_mem_entries_succ hfuel []
  · obtain ⟨fuel, rfl⟩ := exists_fuel hfuel
    rw [hc, (entries_eq_nil_iff (l + 1) n.children).1 hnil]
    exact ⟨rfl, [], rfl⟩

/-- A visitor that lists the nodes it is given. -/
def record (n : Node Tag Content) (nodes : List (Node Tag Content)) :
    List (Node Tag Content) × Bool :=
  (nodes ++ [n], true)

theorem visitEach_record (l s : List (Node Tag Content)) : visitEach record l s = s ++ l := by
  induction l generalizing s with
  | nil => simp [visitEach]
  | cons n l ih =>
    have hstep : visitEach record (n :: l) s = visitEach record l (s ++ [n]) := rfl
    rw [hstep, ih]
    simp

theorem visitNodesInSubtree_visits (w : World) (self : NodeID) {n : Node Tag Content}
    (hn : w.node? self = some n) :
    (∀ startNode endNode : Option NodeID, (∀ a ∈ startNode, a ∈ n.children.ids) →
      (∀ b ∈ endNode, b ∈ n.children.ids) →
      (∀ a ∈ startNode, ∀ b ∈ endNode, n.children.ids.idxOf a ≤ n.children.ids.idxOf b) →
      ((segment startNode endNode n.children.nodes).map Node.id).Nodup ∧
      ∀ (σ : Type) (visitor : Node Tag Content → σ → σ × Bool) (s : σ),
        (∀ m s, (visitor m s).2 = true) → ∀ fuel > n.children.ids.length,
          visitNodesInSubtree fuel n startNode endNode visitor s =
            some ((segment startNode endNode n.children.nodes).length,
              visitEach visitor (segment startNode endNode n.children.nodes) s)) ∧
    ∀ test : NodeID → Bool × Bool, (∀ x, (test x).2 = false) →
      ∀ fuel > n.children.ids.length,
        (∃ matching, exec (findXMLElementsPassing fuel self test) w = some (.ok (matching, w))) ∧
        ∃ count nodes, visitNodesInSubtree fuel n none none record [] = some (count, nodes) ∧
          nodes.map Node.id = w.nodesBelow self
            (iterations (findXMLElementsPassingStep self test) fuel (w.firstChild self, []) w) := by
  constructor
  · intro startNode endNode hst _ hord
    constructor
    · have hsub : (segment startNode endNode n.children.nodes).Sublist n.children.nodes :=
        (drop_sublist _ _).trans (take_sublist _ _)
      have hnd := (children_nodup w.nodup hn).1
      rw [← map_id_nodes] at hnd
      exact (hsub.map Node.id).nodup hnd
    · intro σ visitor s hgo fuel hfuel
      exact visitNodesInSubtree_eq_segment hgo hfuel hst hord s
  · intro test hgo fuel hfuel
    obtain ⟨hbelow, hends⟩ := nodesBelow_findXMLElementsPassing hn hgo hfuel
    refine ⟨hends, _, _, visitNodesInSubtree_eq_segment (fun _ _ => rfl) hfuel (by simp) (by simp) _,
      ?_⟩
    rw [hbelow, visitEach_record]
    simp [segment, upTo]

/-- A paragraph with a bold word, a word behind that and an image. -/
def sampleBold : World where
  trees := .branch 0 (plainTag (literal "p") [])
    (.branch 1 (plainTag (literal "b") []) (.leaf 2 (.text (literal "a")) .nil)
      (.leaf 3 (.text (literal "b")) (.branch 4 (plainTag (literal "img") []) .nil .nil))) .nil
  nodup := by decide

theorem visitNodesInSubtree_visits_sample :
    ∃ n, sampleBold.node? 0 = some n ∧ ∀ fuel > 4,
      (visitNodesInSubtree fuel n (some 1) (some 2) record []).map Prod.fst = some 2 ∧
      ∃ count nodes, visitNodesInSubtree fuel n none none record [] = some (count, nodes) ∧
        nodes.map Node.id = sampleBold.nodesBelow 0
          (iterations (findXMLElementsPassingStep 0 fun _ => (true, false)) fuel (some 1, [])
            sampleBold) := by
  refine ⟨_, rfl, fun fuel hfuel => ⟨?_, ?_⟩⟩
  · rw [((visitNodesInSubtree_visits sampleBold 0 rfl).1 (some 1) (some 2)
      (by decide) (by decide) (by decide)).2 _ record [] (fun _ _ => rfl) fuel hfuel]
    rfl
  · exact ((visitNodesInSubtree_visits sampleBold 0 rfl).2
      (fun _ => (true, false)) (fun _ => rfl) fuel hfuel).2

/-! ### Common ancestors -/

/-- One iteration of `containsDescendantNode:`. -/
def containsDescendantNodeStep (self : NodeID) : Option NodeID → Action (Option NodeID ⊕ Bool)
  | none => pure (.inr false)
  | some n => do
    let w ← get
    if n = self then pure (.inr true) else pure (.inl (w.parent? n))

/-- `-containsDescendantNode:` -/
def containsDescendantNode (fuel : ℕ) (self node : NodeID) : Action Bool := do
  let w ← get
  loop (containsDescendantNodeStep self) fuel (w.parent? node)

/-- One iteration of `commonAncestorElementOf:and:`. -/
def commonAncestorElementStep (fuel : ℕ) (el2 : NodeID) :
    Option NodeID → Action (Option NodeID ⊕ Option NodeID)
  | none => pure (.inr none)
  | some p => do
    let w ← get
    if ← containsDescendantNode fuel p el2 then pure (.inr (some p))
    else pure (.inl (w.parent? p))

/-- `+commonAncestorElementOf:and:` -/
def commonAncestorElementOf (fuel : ℕ) (firstElement secondElement : NodeID) :
    Action (Option NodeID) := do
  let w ← get
  let (el1, el2) :=
    if w.level (some firstElement) ≤ w.level (some secondElement) then
      (firstElement, secondElement)
    else (secondElement, firstElement)
  loop (commonAncestorElementStep fuel el2) fuel (w.parent? el1)

namespace World

variable (w : World)

/-- `p` is above `x`. -/
def IsAncestor (p x : NodeID) : Prop :=
  Relation.TransGen (fun child parent => w.parent? child = some parent) x p

/-- `p` is above both, and nothing below it is. -/
def IsDeepestCommonAncestor (p x y : NodeID) : Prop :=
  (w.IsAncestor p x ∧ w.IsAncestor p y) ∧
    ∀ q, w.IsAncestor q x → w.IsAncestor q y → w.level (some q) ≤ w.level (some p)

/-- One top node is above both or one of them. -/
def SameTree (x y : NodeID) : Prop :=
  ∃ top, w.parent? top = none ∧ (top = x ∨ w.IsAncestor top x) ∧ (top = y ∨ w.IsAncestor top y)

variable {w} {x y p : NodeID} {P Q : List NodeID}

theorem exists_path (hx : x ∈ w.trees.ids) : ∃ P, w.trees.path? x = some P :=
  ne_none_iff_exists'.1 fun h => path?_eq_none.1 h hx

theorem parent?_of_path (hP : w.trees.path? x = some P) : w.parent? x = P.getLast? := by
  rw [parent?, Forest.parent?, hP]
  rfl

theorem parent?_of_path_concat (hP : w.trees.path? x = some (P ++ [p])) : w.parent? x = some p := by
  rw [parent?_of_path hP]
  simp

/-- The nodes above `x` are those on the way to it. -/
theorem isAncestor_iff (hP : w.trees.path? x = some P) : w.IsAncestor p x ↔ p ∈ P := by
  induction P using reverseRecOn generalizing x with
  | nil =>
    have hnone : w.parent? x = none := parent?_of_path hP
    refine ⟨fun h => ?_, fun h => absurd h not_mem_nil⟩
    obtain ⟨c, hc, -⟩ := Relation.TransGen.head'_iff.1 h
    rw [hnone] at hc
    cases hc
  | append_singleton P a ih =>
    have ha : w.parent? x = some a := parent?_of_path_concat hP
    have hrest := ih (path?_of_path?_concat w.nodup hP)
    rw [mem_append, mem_singleton, ← hrest]
    constructor
    · intro h
      obtain ⟨c, hc, hcp⟩ := Relation.TransGen.head'_iff.1 h
      obtain rfl : a = c := some.inj (ha.symm.trans hc)
      rcases Relation.reflTransGen_iff_eq_or_transGen.1 hcp with rfl | hcp
      · exact .inr rfl
      · exact .inl hcp
    · rintro (h | rfl)
      · exact Relation.TransGen.head ha h
      · exact Relation.TransGen.single ha

/-- The level of a node that is above another is its place on the way. -/
theorem level_of_path_append (hP : w.trees.path? x = some (P ++ p :: Q)) :
    w.level (some p) = P.length := by
  simp [level, Forest.level, path?_of_path?_append w.nodup hP]

theorem exec_containsDescendantNode (hP : w.trees.path? x = some P) (p : NodeID)
    (hfuel : P.length < fuel) :
    exec (containsDescendantNode fuel p x) w = some (.ok (decide (p ∈ P), w)) := by
  rw [containsDescendantNode, exec_get_bind]
  induction P using reverseRecOn generalizing x fuel with
  | nil =>
    obtain ⟨fuel, rfl⟩ := exists_fuel hfuel
    rw [parent?_of_path hP]
    exact exec_loop_done rfl
  | append_singleton P a ih =>
    obtain ⟨fuel, rfl⟩ := exists_fuel hfuel
    rw [length_append, length_singleton] at hfuel
    rw [parent?_of_path_concat hP]
    by_cases ha : a = p
    · have hstep : exec (containsDescendantNodeStep p (some a)) w = some (.ok (.inr true, w)) := by
        simp [containsDescendantNodeStep, ha]
      rw [exec_loop_done hstep]
      simp [ha]
    · have hstep : exec (containsDescendantNodeStep p (some a)) w =
          some (.ok (.inl (w.parent? a), w)) := by
        simp [containsDescendantNodeStep, ha]
      rw [exec_loop_next hstep, ih (path?_of_path?_concat w.nodup hP) (by omega)]
      simp [Ne.symm ha]

/-- The walk up from `x` stops at the first node that is above `y`. -/
theorem exec_commonAncestorElementStep_loop (hP : w.trees.path? x = some P)
    (hQ : w.trees.path? y = some Q) {k : ℕ} (hfuel : Q.length < fuel) (hk : P.length < k) :
    exec (loop (commonAncestorElementStep fuel y) k (w.parent? x)) w =
      some (.ok (P.reverse.find? fun p => decide (p ∈ Q), w)) := by
  induction P using reverseRecOn generalizing x k with
  | nil =>
    obtain ⟨k, rfl⟩ := exists_fuel hk
    rw [parent?_of_path hP]
    exact exec_loop_done rfl
  | append_singleton P a ih =>
    obtain ⟨k, rfl⟩ := exists_fuel hk
    rw [length_append, length_singleton] at hk
    rw [parent?_of_path_concat hP, reverse_concat]
    have hctn := exec_containsDescendantNode hQ a hfuel
    by_cases ha : a ∈ Q
    · have hstep : exec (commonAncestorElementStep fuel y (some a)) w =
          some (.ok (.inr (some a), w)) := by
        simp [commonAncestorElementStep, hctn, ha]
      rw [exec_loop_done hstep, find?_cons_of_pos (by simpa using ha)]
    · have hstep : exec (commonAncestorElementStep fuel y (some a)) w =
          some (.ok (.inl (w.parent? a), w)) := by
        simp [commonAncestorElementStep, hctn, ha]
      rw [exec_loop_next hstep, ih (path?_of_path?_concat w.nodup hP) (by omega),
        find?_cons_of_neg (by simpa using ha)]

/-- Two nodes above `x` at one level are the same. -/
theorem eq_of_level_eq {q : NodeID} (hP : w.trees.path? x = some P) (hp : p ∈ P) (hq : q ∈ P)
    (hlev : w.level (some p) = w.level (some q)) : p = q := by
  obtain ⟨A, B, rfl⟩ := append_of_mem hp
  obtain ⟨A', B', heq⟩ := append_of_mem hq
  rw [level_of_path_append hP] at hlev
  rw [heq] at hP
  rw [level_of_path_append hP] at hlev
  obtain ⟨-, htail⟩ := append_inj heq hlev
  exact (cons.inj htail).1

theorem isDeepestCommonAncestor_of_find? (hP : w.trees.path? x = some P)
    (hQ : w.trees.path? y = some Q) (h : P.reverse.find? (fun p => decide (p ∈ Q)) = some p) :
    w.IsDeepestCommonAncestor p x y := by
  obtain ⟨hp, A, B, hrev, hA⟩ := find?_eq_some_iff_append.1 h
  have hspl : P = B.reverse ++ p :: A.reverse := by
    rw [← reverse_reverse P, hrev]
    simp
  refine ⟨⟨(isAncestor_iff hP).2 (by simp [hspl]), (isAncestor_iff hQ).2 (by simpa using hp)⟩, ?_⟩
  intro q hqx hqy
  have hqP := (isAncestor_iff hP).1 hqx
  rw [isAncestor_iff hQ] at hqy
  rw [hspl] at hP hqP
  rw [level_of_path_append hP]
  -- what is below `p` on the way to `x` was passed, so it is not above `y`
  rcases mem_append.1 hqP with hqB | hqA
  · obtain ⟨C, D, hB⟩ := append_of_mem hqB
    rw [hB, List.append_assoc] at hP
    rw [level_of_path_append hP, hB]
    simp
  · rcases mem_cons.1 hqA with rfl | hqA
    · rw [level_of_path_append hP]
    · have := hA q (mem_reverse.1 hqA)
      simp [hqy] at this

theorem find?_eq_some_iff_isDeepestCommonAncestor (hP : w.trees.path? x = some P)
    (hQ : w.trees.path? y = some Q) :
    P.reverse.find? (fun p => decide (p ∈ Q)) = some p ↔ w.IsDeepestCommonAncestor p x y := by
  refine ⟨isDeepestCommonAncestor_of_find? hP hQ, fun h => ?_⟩
  have hpP := (isAncestor_iff hP).1 h.1.1
  have hpQ := (isAncestor_iff hQ).1 h.1.2
  cases hfind : P.reverse.find? (fun p => decide (p ∈ Q)) with
  | none =>
    have := find?_eq_none.1 hfind p (mem_reverse.2 hpP)
    simp [hpQ] at this
  | some q =>
    have hq := isDeepestCommonAncestor_of_find? hP hQ hfind
    have hle := h.2 q hq.1.1 hq.1.2
    have hge := hq.2 p h.1.1 h.1.2
    rw [eq_of_level_eq hP ((isAncestor_iff hP).1 hq.1.1) hpP (by omega)]

theorem IsDeepestCommonAncestor.symm (h : w.IsDeepestCommonAncestor p x y) :
    w.IsDeepestCommonAncestor p y x :=
  ⟨h.1.symm, fun q hqy hqx => h.2 q hqx hqy⟩

theorem find?_comm (hP : w.trees.path? x = some P) (hQ : w.trees.path? y = some Q) :
    Q.reverse.find? (fun p => decide (p ∈ P)) = P.reverse.find? (fun p => decide (p ∈ Q)) := by
  ext p
  rw [find?_eq_some_iff_isDeepestCommonAncestor hQ hP,
    find?_eq_some_iff_isDeepestCommonAncestor hP hQ]
  exact ⟨IsDeepestCommonAncestor.symm, IsDeepestCommonAncestor.symm⟩

theorem find?_eq_none_iff_not_common (hP : w.trees.path? x = some P)
    (hQ : w.trees.path? y = some Q) :
    P.reverse.find? (fun p => decide (p ∈ Q)) = none ↔
      ¬∃ p, w.IsAncestor p x ∧ w.IsAncestor p y := by
  simp [isAncestor_iff hP, isAncestor_iff hQ]

/-- The way to a node above two starts at a top node above both. -/
theorem sameTree_of_isAncestor (hP : w.trees.path? x = some P) (hQ : w.trees.path? y = some Q)
    (hpP : p ∈ P) (hpQ : p ∈ Q) : w.SameTree x y := by
  obtain ⟨A, B, rfl⟩ := append_of_mem hpP
  obtain ⟨A', B', rfl⟩ := append_of_mem hpQ
  have hA := path?_of_path?_append w.nodup hP
  have hA' := path?_of_path?_append w.nodup hQ
  obtain rfl : A = A' := some.inj (hA.symm.trans hA')
  cases A with
  | nil =>
    exact ⟨p, parent?_of_path hA, .inr ((isAncestor_iff hP).2 hpP),
      .inr ((isAncestor_iff hQ).2 hpQ)⟩
  | cons top A =>
    have htop : w.trees.path? top = some [] := path?_of_path?_append (p := []) w.nodup hA
    exact ⟨top, parent?_of_path htop, .inr ((isAncestor_iff hP).2 (by simp)),
      .inr ((isAncestor_iff hQ).2 (by simp))⟩

theorem head_eq_of_top {top first : NodeID} (hP : w.trees.path? x = some (first :: P))
    (htop : w.parent? top = none) (h : top = x ∨ w.IsAncestor top x) : top = first := by
  rcases h with rfl | h
  · rw [parent?_of_path hP] at htop
    simp at htop
  · obtain ⟨A, B, hspl⟩ := append_of_mem ((isAncestor_iff hP).1 h)
    rw [hspl] at hP
    rw [parent?_of_path (path?_of_path?_append w.nodup hP), getLast?_eq_none_iff] at htop
    rw [htop] at hspl
    exact (cons.inj hspl).1.symm

theorem exists_common_iff (hP : w.trees.path? x = some P) (hQ : w.trees.path? y = some Q) :
    (∃ p, w.IsAncestor p x ∧ w.IsAncestor p y) ↔
      w.SameTree x y ∧ w.parent? x ≠ none ∧ w.parent? y ≠ none := by
  rw [parent?_of_path hP, parent?_of_path hQ, ne_eq, ne_eq, getLast?_eq_none_iff,
    getLast?_eq_none_iff]
  constructor
  · rintro ⟨p, hpx, hpy⟩
    have hpP := (isAncestor_iff hP).1 hpx
    have hpQ := (isAncestor_iff hQ).1 hpy
    exact ⟨sameTree_of_isAncestor hP hQ hpP hpQ, ne_nil_of_mem hpP, ne_nil_of_mem hpQ⟩
  · rintro ⟨⟨top, htop, hx, hy⟩, hPne, hQne⟩
    obtain ⟨first, P, rfl⟩ := exists_cons_of_ne_nil hPne
    obtain ⟨first', Q, rfl⟩ := exists_cons_of_ne_nil hQne
    obtain rfl := head_eq_of_top hP htop hx
    obtain rfl := head_eq_of_top hQ htop hy
    exact ⟨top, (isAncestor_iff hP).2 (by simp), (isAncestor_iff hQ).2 (by simp)⟩

end World

theorem exec_commonAncestorElementOf {w : World} {x y : NodeID} {P Q : List NodeID}
    (hP : w.trees.path? x = some P) (hQ : w.trees.path? y = some Q) (fuel : ℕ)
    (hPfu : P.length < fuel) (hQfu : Q.length < fuel) :
    exec (commonAncestorElementOf fuel x y) w =
      some (.ok (P.reverse.find? fun p => decide (p ∈ Q), w)) := by
  rw [commonAncestorElementOf, exec_get_bind]
  by_cases hlev : w.level (some x) ≤ w.level (some y)
  · rw [if_pos hlev]
    exact w.exec_commonAncestorElementStep_loop hP hQ hQfu hPfu
  · rw [if_neg hlev, ← w.find?_comm hP hQ]
    exact w.exec_commonAncestorElementStep_loop hQ hP hPfu hQfu

theorem commonAncestorElementOf_deepest (w : World) (x y : NodeID)
    (hx : w.kind? x = some .element) (hy : w.kind? y = some .element) :
    ∃ bound, ∀ fuel ≥ bound, ∃ r,
      exec (commonAncestorElementOf fuel x y) w = some (.ok (r, w)) ∧
      exec (commonAncestorElementOf fuel y x) w = some (.ok (r, w)) ∧
      (∀ p, r = some p ↔ w.IsDeepestCommonAncestor p x y) ∧
      (r = none ↔ ¬∃ p, w.IsAncestor p x ∧ w.IsAncestor p y) ∧
      (r = none ↔ ¬w.SameTree x y ∨ w.parent? x = none ∨ w.parent? y = none) := by
  obtain ⟨t, cs, hnx⟩ := w.exists_element hx
  obtain ⟨t', cs', hny⟩ := w.exists_element hy
  obtain ⟨P, hP⟩ := w.exists_path (mem_of_find? hnx)
  obtain ⟨Q, hQ⟩ := w.exists_path (mem_of_find? hny)
  refine ⟨P.length + Q.length + 1, fun fuel hfuel => ?_⟩
  have hxy := exec_commonAncestorElementOf hP hQ fuel (by omega) (by omega)
  have hyx := exec_commonAncestorElementOf hQ hP fuel (by omega) (by omega)
  rw [w.find?_comm hP hQ] at hyx
  refine ⟨_, hxy, hyx, fun p => w.find?_eq_some_iff_isDeepestCommonAncestor hP hQ,
    w.find?_eq_none_iff_not_common hP hQ, ?_⟩
  rw [w.find?_eq_none_iff_not_common hP hQ, w.exists_common_iff hP hQ]
  simp only [not_and_or, not_not]

theorem commonAncestorElementOf_deepest_sample :
    ∃ bound, ∀ fuel ≥ bound, exec (commonAncestorElementOf fuel 1 4) sampleBold =
        some (.ok (some 0, sampleBold)) ∧
      exec (commonAncestorElementOf fuel 4 1) sampleBold = some (.ok (some 0, sampleBold)) := by
  obtain ⟨bound, hbd⟩ := commonAncestorElementOf_deepest sampleBold 1 4 (by decide) (by decide)
  refine ⟨bound, fun fuel hfuel => ?_⟩
  obtain ⟨r, hexec, hswap, hdee, -⟩ := hbd fuel hfuel
  have hpath (x : NodeID) (hx : x = 1 ∨ x = 4) : sampleBold.trees.path? x = some [0] := by
    rcases hx with rfl | rfl <;> rfl
  have hzero := (hdee 0).2 ((sampleBold.find?_eq_some_iff_isDeepestCommonAncestor
    (hpath 1 (.inl rfl)) (hpath 4 (.inr rfl))).1 rfl)
  exact ⟨hzero ▸ hexec, hzero ▸ hswap⟩

end Feather.XML
