import Feather.XML.Create
import Feather.XML.Normalize

/-!
# Filtering a subtree

`XMLElementByFilteringAttributes:children:` copies an element.  It follows `-nextNode` through the
subtree and asks a filter about each node; copies are added to the element on top of a stack, which
is cut back to the depth of the next node.
-/

namespace Feather.XML

open OrderedTree Forest Program Option
open List hiding append_assoc append_nil nil_append

variable {w : World} {self : NodeID} {X Y : Listing} {e : Entry Tag Content} {fuel : ℕ}

/-- `MPXMLNodeFilteringResult` -/
inductive MPXMLNodeFilteringResult
  | keep
  | collapse
  | remove
  deriving DecidableEq, Repr

/-- The filters, asked about nodes of the receiver's document and their attributes. -/
structure Filters where
  attributeFilter : NodeID → Attribute → MPXMLNodeFilteringResult
  childFilter : NodeID → MPXMLNodeFilteringResult

/-- The attributes of a kept element that are kept. -/
def Filters.keptAttributes (filters : Filters) (node : NodeID) (attributes : List Attribute) :
    List Attribute :=
  attributes.filter fun a => filters.attributeFilter node a = .keep

/-- A kept element has the attributes that are kept, a kept text no newlines around it. -/
def Filters.copyLabel (filters : Filters) (node : NodeID) : Label → Label
  | .inl t => .inl (plainTag t.name (filters.keptAttributes node t.attributes))
  | .inr (.text s) => .inr (.text (stringByTrimmingCharactersInSet newlineCharacterSet s))
  | .inr c => .inr c

/-- `[newElementStack.firstObject addChild:newNode]`; a message to `nil` has no effect. -/
def addToTop : List NodeID → NodeID → Action Unit
  | [], _ => pure ()
  | newElement :: _, newNode => addChild newElement newNode

/-- Copy a kept node to the element on top, and put the copy of an element on top. -/
def keepNode (filters : Filters) (node : NodeID) (newElementStack : List NodeID) :
    Action (List NodeID) := do
  let w ← get
  match (w.node? node).map fun n => filters.copyLabel node n.label with
  | none => pure newElementStack
  | some b => do
    let newNode ← newNode (Forest.single 0 b)
    addToTop newElementStack newNode
    pure (if kind b = .element then newNode :: newElementStack else newElementStack)

/-- `while (innerNode && innerNode.level > node.level) innerNode = innerNode.nextNode` -/
def skipStep (node : NodeID) : Option NodeID → Action (Option NodeID ⊕ Option NodeID)
  | none => pure (.inr none)
  | some innerNode => do
    let w ← get
    if w.level (some node) < w.level (some innerNode) then pure (.inl (w.nextNode innerNode))
    else pure (.inr (some innerNode))

/-- What is done with one node: the node to go on with, and the stack. -/
def filterNode (filters : Filters) (fuel : ℕ) (node : NodeID) (newElementStack : List NodeID) :
    Action (Option NodeID × List NodeID) := do
  let w ← get
  match filters.childFilter node with
  | .keep => do
    let newElementStack ← keepNode filters node newElementStack
    pure (w.nextNode node, newElementStack)
  | .remove =>
    if w.kind? node = some .element then do
      let innerNode ← loop (skipStep node) fuel (w.nextNode node)
      pure (innerNode.bind w.nextNode, newElementStack)
    else pure (w.nextNode node, newElementStack)
  | .collapse =>
    -- `NSParameterAssert`
    if w.kind? node = some .element then pure (w.nextNode node, newElementStack)
    else throw .internalInconsistency

/-- The number of steps up from `n` while the level is greater than that of `self`. -/
def elementDepth (w : World) (self : NodeID) : ℕ → Option NodeID → ℕ
  | 0, _ => 0
  | _ + 1, none => 0
  | fuel + 1, some n =>
    if w.level (some self) < w.level (some n) then elementDepth w self fuel (w.parent? n) + 1 else 0

/-- `while (newElementStack.count > elementDepth) [newElementStack popObject]` -/
def popTo (depth : ℕ) : List NodeID → List NodeID
  | [] => []
  | x :: stack => if depth < (x :: stack).length then popTo depth stack else x :: stack

/-- One iteration.  A node neither an element nor a text makes it `continue` for ever. -/
def filterStep (filters : Filters) (fuel : ℕ) (self : NodeID) :
    Option NodeID × List NodeID → Action ((Option NodeID × List NodeID) ⊕ Unit)
  | (none, _) => pure (.inr ())
  | (some node, newElementStack) => do
    let w ← get
    if w.level (some node) ≤ w.level (some self) then pure (.inr ())
    else if w.kind? node = some .element ∨ w.kind? node = some .text then do
      let (next, newElementStack) ← filterNode filters fuel node newElementStack
      let w ← get
      pure (.inl (next, popTo (elementDepth w self w.size next) newElementStack))
    else pure (.inl (some node, newElementStack))

/-- `-XMLElementByFilteringAttributes:children:` -/
def xmlElementByFilteringAttributes (filters : Filters) (fuel : ℕ) (self : NodeID) : Action NodeID := do
  let w ← get
  let name := match (w.node? self).map Node.label with
    | some (.inl t) => t.name
    | _ => []
  let newElement ← newElement name []
  loop (filterStep filters fuel self) fuel (w.firstChild self, [newElement])
  modify fun w => w.normalizeAdjacentTextNodes newElement
  pure newElement

/-! ### The walk, read off the listing -/

/-- The loop does not return, it raises, or it has made copies, by levels and labels. -/
abbrev Copies := Option (Except NSException (List (ℕ × Label)))

/-- One more copy in front of the others. -/
def Copies.cons (x : ℕ × Label) (o : Copies) : Copies := o.map fun r => r.map fun out => x :: out

/-- The main loop over the listing ahead, for a receiver at level `l` and a stack of `c` elements.
With `some k` it is passing over the subtree of a removed element at level `k`; the node behind that
is passed over as well. -/
def filterWalk (filters : Filters) (l : ℕ) : Option ℕ → ℕ → Listing → Copies
  | _, _, [] => some (.ok [])
  | some k, c, e :: R =>
    if k < e.level then filterWalk filters l (some k) c R
    else if e.level = 0 then some (.ok [])
    else filterWalk filters l none c R
  | none, c, e :: R =>
    if e.level ≤ l then some (.ok [])
    else
      let c := min c (e.level - l)
      match kind e.label, filters.childFilter e.id with
      | .other _, _ => none
      | .element, .keep => .cons (c, filters.copyLabel e.id e.label) (filterWalk filters l none (c + 1) R)
      | .element, .collapse => filterWalk filters l none c R
      | .element, .remove => filterWalk filters l (some e.level) c R
      | .text, .keep => .cons (c, filters.copyLabel e.id e.label) (filterWalk filters l none c R)
      | .text, .collapse => some (.error .internalInconsistency)
      | .text, .remove => filterWalk filters l none c R

theorem popTo_eq_drop (d : ℕ) (stack : List NodeID) : popTo d stack = stack.drop (stack.length - d) := by
  induction stack with
  | nil => simp [popTo]
  | cons x stack ih =>
    rw [popTo, length_cons]
    split_ifs with h
    · rw [ih, show stack.length + 1 - d = (stack.length - d) + 1 by omega, drop_succ_cons]
    · rw [show stack.length + 1 - d = 0 by omega, drop_zero]

theorem length_popTo (d : ℕ) (stack : List NodeID) : (popTo d stack).length = min stack.length d := by
  rw [popTo_eq_drop, length_drop]
  omega

/-- The depth of a node below the receiver is the difference of their levels. -/
theorem elementDepth_of_entries {l : ℕ} (hself : w.level (some self) = l)
    (h : w.trees.entries 0 = X ++ e :: Y) (hfuel : e.level - l ≤ fuel) :
    elementDepth w self fuel (some e.id) = e.level - l := by
  induction fuel generalizing e X Y with
  | zero =>
    rw [elementDepth]
    omega
  | succ fuel ih =>
    rw [elementDepth, w.level_of_entries h]
    split_ifs with hlt
    · rcases path?_of_entries w.nodup h with ⟨h0, -⟩ | ⟨X1, a, X2, p, rfl, ha, -, -, hp⟩
      · omega
      · have hpar : w.parent? e.id = some a.id := by
          rw [World.parent?, parent?, hp, bind_some, getLast?_concat]
        rw [hpar, ih (X := X1) (Y := X2 ++ e :: Y) (by rw [h]; simp) (by omega)]
        omega
    · omega

/-- There are at least as many nodes in front of a node as above it. -/
theorem level_le_length (h : w.trees.entries 0 = X ++ e :: Y) : e.level ≤ X.length := by
  induction hn : X.length using Nat.strong_induction_on generalizing X Y e with
  | _ n ih =>
    rcases path?_of_entries w.nodup h with ⟨h0, -⟩ | ⟨X1, a, X2, p, rfl, ha, -⟩
    · omega
    · rw [length_append, length_cons] at hn
      have := ih X1.length (by omega) (X := X1) (Y := X2 ++ e :: Y) (e := a) (by rw [h]; simp) rfl
      omega

theorem elementDepth_eq {l : ℕ} (hself : w.level (some self) = l)
    (h : w.trees.entries 0 = X ++ e :: Y) :
    elementDepth w self w.size (some e.id) = e.level - l := by
  refine elementDepth_of_entries hself h ?_
  have := level_le_length h
  rw [World.size, ← length_entries 0, h, length_append]
  omega

theorem exec_skip {node : NodeID} {k : ℕ} {D : Listing} (hnode : w.level (some node) = k)
    (h : w.trees.entries 0 = X ++ (D ++ Y)) (hD : ∀ d ∈ D, k < d.level)
    (hY : ∀ y ∈ Y.head?, y.level ≤ k) (hfuel : D.length < fuel) :
    exec (loop (skipStep node) fuel (cursor (D ++ Y))) w =
      some (.ok (cursor Y, w)) := by
  induction D generalizing X fuel with
  | nil =>
    obtain ⟨fuel, rfl⟩ := exists_fuel hfuel
    refine exec_loop_done ?_
    rw [List.nil_append] at h ⊢
    cases Y with
    | nil => rfl
    | cons y Y =>
      rcases Nat.eq_zero_or_pos y.level with h0 | h0
      · rw [cursor_of_level_eq_zero h0]
        rfl
      · have := hY y (by simp)
        rw [cursor_cons h0, skipStep, exec_get_bind, w.level_of_entries h, if_neg (by omega)]
        rfl
  | cons d D ih =>
    obtain ⟨fuel, rfl⟩ := exists_fuel hfuel
    have hd := hD d (by simp)
    have hw : w.trees.entries 0 = X ++ d :: (D ++ Y) := h
    have hstep : exec (skipStep node (some d.id)) w =
        some (.ok (.inl (cursor (D ++ Y)), w)) := by
      rw [skipStep, exec_get_bind, hnode, w.level_of_entries hw, if_pos hd,
        w.nextNode_of_entries hw]
      rfl
    rw [cons_append, cursor_cons (by omega), exec_loop_next hstep]
    rw [length_cons] at hfuel
    exact ih (X := X ++ [d]) (by rw [h]; simp) (fun d hd => hD d (by simp [hd])) (by omega)

/-! ### The copies -/

theorem kind_copyLabel (filters : Filters) (node : NodeID) (b : Label) :
    kind (filters.copyLabel node b) = kind b := by
  rcases b with t | s | ⟨k, s⟩ <;> rfl

section Loop

variable {filters : Filters} {F g : Nodes} {w : World} {N X Y : Listing} {stack : List NodeID}

/-- The copy of a node ends the listing of the copies. -/
theorem exec_keepNode (filters : Filters) (hw : w.trees = F ++ g) (hg : g.entries 0 = N)
    (hF : F.entries 0 = X ++ e :: Y) (hspi : Spine N stack) (hne : stack ≠ []) :
    ∃ w' g' x, exec (keepNode filters e.id stack) w = some (.ok
        (if kind e.label = .element then x :: stack else stack, w')) ∧ w'.trees = F ++ g' ∧
      g'.entries 0 = N ++ [⟨stack.length, x, filters.copyLabel e.id e.label⟩] := by
  obtain ⟨p, stack, rfl⟩ := exists_cons_of_ne_nil hne
  obtain ⟨⟨N1, b, N2, hN, hN2⟩, -⟩ := hspi
  have hent : w.trees.entries 0 = X ++ e :: (Y ++ g.entries 0) := by
    rw [hw, entries_append, hF]
    simp
  obtain ⟨n, hn, hlab⟩ := find?_label_of_entries w.nodup hent
  have hnd := w.nodup
  rw [hw, ids_append, nodup_append] at hnd
  obtain ⟨m, hm, hmlab⟩ := find?_label_of_entries hnd.2.1 (hg.trans hN)
  have hadd : (w.add (single 0 (filters.copyLabel e.id e.label))).trees = F ++ (g ++
      (Node.tree ⟨w.trees.fresh, filters.copyLabel e.id e.label, .nil⟩ ++ .nil)) := by
    rw [World.trees_add_single, hw, append_assoc, append_nil]
    rfl
  obtain ⟨w', hrun, hw'⟩ := exec_addChild hadd (by rw [append_nil, hm]) hmlab
  refine ⟨w', _, w.trees.fresh, ?_, hw', ?_⟩
  · simp only [keepNode, exec_bind, exec_get, andThen_ok, World.node?, hn, map_some, hlab,
      exec_newNode_single, addToTop, hrun, exec_pure, kind_copyLabel]
  · rw [append_nil, ← hg]
    exact entries_grow hnd.2.1 (hg.trans hN) hN2

/-! ### The main loop -/

/-- The store: the documents `F`, with the receiver at level `l`, and the copies `N`. -/
structure Filtering (F : Nodes) (x : NodeID) (l : ℕ) (N : Listing) (w : World) : Prop where
  trees : ∃ g, w.trees = F ++ g ∧ g.entries 0 = N
  root : ∃ r M, N = r :: M ∧ r.level = 0
  receiver : ∃ A b B, F.entries 0 = A ++ ⟨l, x, b⟩ :: B

variable {self : NodeID} {l : ℕ} {L R : Listing}

namespace Filtering

theorem entries (hw : Filtering F self l N w) (hF : F.entries 0 = X ++ Y) :
    w.trees.entries 0 = X ++ (Y ++ N) := by
  obtain ⟨g, htre, hg⟩ := hw.trees
  rw [htre, entries_append, hF, hg, List.append_assoc]

theorem level_self (hw : Filtering F self l N w) : w.level (some self) = l := by
  obtain ⟨A, b, B, hF⟩ := hw.receiver
  exact w.level_of_entries (hw.entries hF)

theorem cursor_copies (hw : Filtering F self l N w) : cursor N = none := by
  obtain ⟨r, M, rfl, hr⟩ := hw.root
  exact cursor_of_level_eq_zero hr M

theorem cursor_append (hw : Filtering F self l N w) (L M : Listing) :
    cursor (L ++ (N ++ M)) = cursor (L ++ N) := by
  obtain ⟨r, N, rfl, -⟩ := hw.root
  rw [cons_append, cursor_append_cons, cursor_append_cons L N]

end Filtering

/-- The depth of the next node below the receiver. -/
def headDepth (l : ℕ) (L : Listing) : ℕ := (L.head?.map fun e => e.level - l).getD 0

theorem Filtering.elementDepth_cursor (hw : Filtering F self l N w) (hF : F.entries 0 = X ++ L) :
    elementDepth w self w.size (cursor (L ++ N)) = headDepth l L := by
  have hnone : elementDepth w self w.size none = 0 := by cases w.size <;> rfl
  cases L with
  | nil =>
    rw [List.nil_append, hw.cursor_copies, hnone]
    rfl
  | cons e R =>
    have hent := hw.entries hF
    rw [cons_append] at hent ⊢
    rcases Nat.eq_zero_or_pos e.level with h0 | h0
    · rw [cursor_of_level_eq_zero h0, hnone]
      simp [headDepth, h0]
    · rw [cursor_cons h0, elementDepth_eq hw.level_self hent]
      rfl

/-- What is ahead behind the subtree of a removed element at level `k` and the node after it. -/
def behind (k : ℕ) : Listing → Listing
  | [] => []
  | e :: R => if k < e.level then behind k R else if e.level = 0 then [] else R

theorem filterWalk_some (k c : ℕ) (R : Listing) :
    filterWalk filters l (some k) c R = filterWalk filters l none c (behind k R) := by
  induction R with
  | nil => rfl
  | cons e R ih =>
    rw [filterWalk, behind]
    split_ifs
    · exact ih
    · rfl
    · rfl

/-- The subtree at level `k` is passed over, and the node behind it. -/
theorem exists_behind (k : ℕ) (R : Listing) :
    ∃ D Y, R = D ++ Y ∧ (∀ d ∈ D, k < d.level) ∧ (∀ y ∈ Y.head?, y.level ≤ k) ∧
      (behind k R = [] ∧ (∀ y ∈ Y.head?, y.level = 0) ∨
        ∃ y, 0 < y.level ∧ Y = y :: behind k R) := by
  induction R with
  | nil => exact ⟨[], [], rfl, by simp, by simp, .inl ⟨rfl, by simp⟩⟩
  | cons e R ih =>
    rw [behind]
    split_ifs with hk h0
    · obtain ⟨D, Y, rfl, hD, hY⟩ := ih
      refine ⟨e :: D, Y, rfl, ?_, hY⟩
      intro d hd
      rcases mem_cons.1 hd with rfl | hd
      · exact hk
      · exact hD d hd
    · exact ⟨[], e :: R, rfl, by simp, by simp; omega, .inl ⟨rfl, by simpa using h0⟩⟩
    · exact ⟨[], e :: R, rfl, by simp, by simp; omega, .inr ⟨e, by omega, rfl⟩⟩

/-- The search for the node to go on with after a removed element. -/
theorem Filtering.exec_behind (hw : Filtering F self l N w) (hF : F.entries 0 = X ++ e :: R)
    (hfuel : R.length < fuel) :
    (∃ o, exec (loop (skipStep e.id) fuel (w.nextNode e.id)) w = some (.ok (o, w)) ∧
      o.bind w.nextNode = cursor (behind e.level R ++ N)) ∧
      (behind e.level R).length ≤ R.length ∧ ∃ X', F.entries 0 = X' ++ behind e.level R := by
  obtain ⟨D, Y, rfl, hD, hY, hend⟩ := exists_behind e.level R
  generalize behind e.level (D ++ Y) = B at hend ⊢
  have hent := hw.entries hF
  rw [cons_append] at hent
  rw [length_append] at hfuel ⊢
  have hYN : ∀ y ∈ (Y ++ N).head?, y.level ≤ e.level := by
    intro y hy
    cases Y with
    | nil =>
      obtain ⟨r, M, rfl, hr⟩ := hw.root
      obtain rfl : r = y := by simpa using hy
      omega
    | cons y' Y => exact hY y hy
  have hskip := exec_skip (X := X ++ [e]) (w.level_of_entries hent)
    (by rw [hent]; simp) hD hYN (show D.length < fuel by omega)
  rw [w.nextNode_of_entries hent, List.append_assoc, hskip]
  rcases hend with ⟨rfl, h0⟩ | ⟨y, hy, rfl⟩
  · refine ⟨⟨_, rfl, ?_⟩, by simp, F.entries 0, by simp⟩
    rw [List.nil_append, hw.cursor_copies]
    cases Y with
    | nil => rw [List.nil_append, hw.cursor_copies, bind_none]
    | cons y Y =>
      rw [cons_append, cursor_of_level_eq_zero (h0 y (by simp)), bind_none]
  · refine ⟨⟨_, rfl, ?_⟩, by rw [length_cons]; omega, X ++ e :: (D ++ [y]), by rw [hF]; simp⟩
    have hy' : w.trees.entries 0 = (X ++ e :: D) ++ y :: (B ++ N) := by
      rw [hent]
      simp
    rw [cons_append, cursor_cons hy, bind_some, w.nextNode_of_entries hy']

/-- The loop has the outcome that the walk along the listing says. -/
def Realized (F : Nodes) (self : NodeID) (l : ℕ) (N : Listing) (copies : Copies)
    (o : Option (Except NSException (Unit × World))) : Prop :=
  match copies with
  | none => o = none
  | some (.error x) => o = some (.error x)
  | some (.ok out) => ∃ w' M, o = some (.ok ((), w')) ∧ Filtering F self l (N ++ M) w' ∧
      (∀ e ∈ M, 0 < e.level) ∧ M.map (fun e => (e.level, e.label)) = out

theorem Realized.cons {copies : Copies} {o : Option (Except NSException (Unit × World))}
    (h : Realized F self l (N ++ [e]) copies o) (he : 0 < e.level) :
    Realized F self l N (copies.cons (e.level, e.label)) o := by
  rcases copies with _ | x | out
  · exact h
  · exact h
  · obtain ⟨w', M, ho, hw', hpos, hM⟩ := h
    refine ⟨w', e :: M, ho, ?_, ?_, by simp [hM]⟩
    · rw [← singleton_append, ← List.append_assoc]
      exact hw'
    · intro d hd
      rcases mem_cons.1 hd with rfl | hd
      · exact he
      · exact hpos d hd

section Step

variable {e : Entry Tag Content} {inner : ℕ}

theorem exec_filterStep_outside (hw : Filtering F self l N w) (hF : F.entries 0 = X ++ L)
    (hL : ∀ e ∈ L.head?, e.level ≤ l) :
    exec (filterStep filters inner self (cursor (L ++ N), stack)) w =
      some (.ok (.inr (), w)) := by
  cases L with
  | nil =>
    rw [List.nil_append, hw.cursor_copies]
    rfl
  | cons e R =>
    have hent := hw.entries hF
    rw [cons_append] at hent ⊢
    rcases Nat.eq_zero_or_pos e.level with h0 | h0
    · rw [cursor_of_level_eq_zero h0]
      rfl
    · rw [cursor_cons h0, filterStep, exec_get_bind, hw.level_self,
        w.level_of_entries hent, if_pos (hL e (by simp))]
      rfl

/-- A node that is neither an element nor a text node is looked at again. -/
theorem exec_filterStep_stuck (hw : Filtering F self l N w) (hF : F.entries 0 = X ++ e :: R)
    (he : l < e.level) (hkind : ¬ (kind e.label = .element ∨ kind e.label = .text)) :
    exec (filterStep filters inner self (some e.id, stack)) w =
      some (.ok (.inl (some e.id, stack), w)) := by
  have hent := hw.entries hF
  rw [filterStep, exec_get_bind, hw.level_self, w.level_of_entries hent,
    if_neg (by omega), w.kind?_of_entries hent, if_neg (by simpa using hkind)]
  rfl

theorem exec_filterStep (hw : Filtering F self l N w) (hF : F.entries 0 = X ++ e :: R)
    (he : l < e.level) (hkind : kind e.label = .element ∨ kind e.label = .text) {w' : World}
    {N' X' : Listing} {stack' : List NodeID} (hw' : Filtering F self l N' w')
    (hF' : F.entries 0 = X' ++ L)
    (hnode : exec (filterNode filters inner e.id stack) w =
      some (.ok ((cursor (L ++ N'), stack'), w'))) :
    exec (filterStep filters inner self (some e.id, stack)) w =
      some (.ok (.inl (cursor (L ++ N'), popTo (headDepth l L) stack'), w')) := by
  have hent := hw.entries hF
  have hlev := w.level_of_entries hent
  have hk := w.kind?_of_entries hent
  simp [filterStep, hw.level_self, hlev, hk, if_neg (Nat.not_le.2 he), if_pos hkind, hnode,
    hw'.elementDepth_cursor hF']

theorem exec_filterNode_keep (inner : ℕ) (hw : Filtering F self l N w) (hF : F.entries 0 = X ++ e :: R)
    (hkeep : filters.childFilter e.id = .keep) (hspi : Spine N stack) (hne : stack ≠ []) :
    ∃ w' x, let N' := N ++ [⟨stack.length, x, filters.copyLabel e.id e.label⟩]
      let stack' := if kind e.label = .element then x :: stack else stack
      exec (filterNode filters inner e.id stack) w =
          some (.ok ((cursor (R ++ N'), stack'), w')) ∧
        Filtering F self l N' w' ∧ Spine N' stack' := by
  obtain ⟨g, htre, hg⟩ := hw.trees
  obtain ⟨w', g', x, hrun, hw', hg'⟩ := exec_keepNode filters htre hg hF hspi hne
  have hent := hw.entries hF
  refine ⟨w', x, ?_, ⟨⟨g', hw', hg'⟩, ?_, hw.receiver⟩, ?_⟩
  · simp [filterNode, hkeep, hrun, hw.cursor_append, w.nextNode_of_entries hent]
  · obtain ⟨r, M, rfl, hr⟩ := hw.root
    exact ⟨r, _, rfl, hr⟩
  · rcases e.label with t | c
    · exact hspi.push x _
    · have : kind (.inr c : Label) ≠ .element := by cases c <;> simp [kind]
      rw [if_neg this]
      exact hspi.concat le_rfl

/-- A node whose content is to take its place, and a text node that is removed. -/
theorem exec_filterNode_pass (hw : Filtering F self l N w) (hF : F.entries 0 = X ++ e :: R)
    (h : kind e.label = .element ∧ filters.childFilter e.id = .collapse ∨
      kind e.label = .text ∧ filters.childFilter e.id = .remove) :
    exec (filterNode filters inner e.id stack) w =
      some (.ok ((cursor (R ++ N), stack), w)) := by
  have hent := hw.entries hF
  have hk := w.kind?_of_entries hent
  have hnext := w.nextNode_of_entries hent
  rcases h with ⟨hkind, hfil⟩ | ⟨hkind, hfil⟩
  · simp [filterNode, hfil, hk, hkind, hnext]
  · simp [filterNode, hfil, hk, hkind, hnext]

theorem exec_filterNode_remove (hw : Filtering F self l N w) (hF : F.entries 0 = X ++ e :: R)
    (hkind : kind e.label = .element) (hrem : filters.childFilter e.id = .remove)
    (hinn : R.length < inner) :
    exec (filterNode filters inner e.id stack) w =
      some (.ok ((cursor (behind e.level R ++ N), stack), w)) := by
  have hent := hw.entries hF
  have hk := w.kind?_of_entries hent
  obtain ⟨⟨o, hloop, ho⟩, -⟩ := hw.exec_behind hF hinn
  simp [filterNode, hrem, hk, hkind, hloop, ho]

theorem exec_filterStep_assert (hw : Filtering F self l N w) (hF : F.entries 0 = X ++ e :: R)
    (he : l < e.level) (hkind : kind e.label = .text)
    (hcol : filters.childFilter e.id = .collapse) :
    exec (filterStep filters inner self (some e.id, stack)) w =
      some (.error .internalInconsistency) := by
  have hent := hw.entries hF
  have hk := w.kind?_of_entries hent
  simp [filterStep, filterNode, hw.level_self, w.level_of_entries hent, hk, hkind, hcol, he]

end Step

/-- The main loop does what the walk along the listing says. -/
theorem exec_filterLoop (filters : Filters) (hw : Filtering F self l N w)
    (hF : F.entries 0 = X ++ L) (hspi : Spine N stack) (hne : stack ≠ []) {inner : ℕ}
    (hinn : L.length < inner) (hfuel : L.length < fuel) :
    Realized F self l N (filterWalk filters l none stack.length L)
      (exec (loop (filterStep filters inner self) fuel
        (cursor (L ++ N), popTo (headDepth l L) stack)) w) := by
  induction fuel generalizing w N X L stack with
  | zero => omega
  | succ fuel ih =>
    cases L with
    | nil =>
      rw [exec_loop_done (exec_filterStep_outside hw hF (by simp))]
      exact ⟨w, [], rfl, by simpa using hw, by simp, rfl⟩
    | cons e R =>
      rw [length_cons] at hinn hfuel
      rw [filterWalk]
      by_cases he : e.level ≤ l
      · rw [exec_loop_done (exec_filterStep_outside hw hF (by simpa using he)), if_pos he]
        exact ⟨w, [], rfl, by simpa using hw, by simp, rfl⟩
      have he' : l < e.level := by omega
      have hcur : cursor (e :: R ++ N) = some e.id := cursor_cons (by omega) _
      have hF' : F.entries 0 = (X ++ [e]) ++ R := by rw [hF]; simp
      -- the stack is cut back to the depth of the node
      have hdep : headDepth l (e :: R) = e.level - l := rfl
      rw [if_neg he, hcur, hdep, ← length_popTo]
      have hspine' : Spine N (popTo (e.level - l) stack) := by
        rw [popTo_eq_drop]
        exact hspi.drop _
      have hne' : popTo (e.level - l) stack ≠ [] := by
        rw [← length_pos_iff, length_popTo]
        have := length_pos_iff.2 hne
        omega
      generalize popTo (e.level - l) stack = stack' at hspine' hne' ⊢
      have hpass : ∀ L' X', F.entries 0 = X' ++ L' → L'.length ≤ R.length →
          exec (filterNode filters inner e.id stack') w =
            some (.ok ((cursor (L' ++ N), stack'), w)) →
          (kind e.label = .element ∨ kind e.label = .text) →
          Realized F self l N (filterWalk filters l none stack'.length L')
            (exec (loop (filterStep filters inner self) (fuel + 1) (some e.id, stack')) w) := by
        intro L' X' hL' hlen hnode hkind
        rw [exec_loop_next (exec_filterStep hw hF he' hkind hw hL' hnode)]
        exact ih hw hL' hspine' hne' (by omega) (by omega)
      rcases hkind : kind e.label with _ | _ | k
      · rcases hfil : filters.childFilter e.id with _ | _ | _
        · obtain ⟨w', x, hnode, hw', hs⟩ := exec_filterNode_keep inner hw hF hfil hspine' hne'
          rw [if_pos hkind] at hnode hs
          rw [exec_loop_next (exec_filterStep hw hF he' (.inl hkind) hw' hF' hnode)]
          exact (ih hw' hF' hs (by simp) (by omega) (by omega)).cons (length_pos_iff.2 hne')
        · exact hpass R _ hF' le_rfl (exec_filterNode_pass hw hF (.inl ⟨hkind, hfil⟩))
            (.inl hkind)
        · obtain ⟨-, hlen, X', hX'⟩ := hw.exec_behind hF (show R.length < inner by omega)
          dsimp only
          rw [filterWalk_some]
          exact hpass _ X' hX' hlen (exec_filterNode_remove hw hF hkind hfil (by omega))
            (.inl hkind)
      · rcases hfil : filters.childFilter e.id with _ | _ | _
        · obtain ⟨w', x, hnode, hw', hs⟩ := exec_filterNode_keep inner hw hF hfil hspine' hne'
          rw [if_neg (by simp [hkind])] at hnode hs
          rw [exec_loop_next (exec_filterStep hw hF he' (.inr hkind) hw' hF' hnode)]
          exact (ih hw' hF' hs hne' (by omega) (by omega)).cons (length_pos_iff.2 hne')
        · exact exec_loop_error (exec_filterStep_assert hw hF he' hkind hfil)
        · exact hpass R _ hF' le_rfl (exec_filterNode_pass hw hF (.inr ⟨hkind, hfil⟩))
            (.inr hkind)
      · -- the loop never gets beyond this node
        exact exec_loop_stuck (exec_filterStep_stuck hw hF he' (by simp [hkind]))

end Loop

/-! ### The method -/

/-- The listing behind a node, its own subtree included. -/
def World.ahead (w : World) (x : NodeID) : Listing :=
  ((w.trees.entries 0).dropWhile fun e => decide (e.id ≠ x)).tail

theorem World.ahead_of_entries (h : w.trees.entries 0 = X ++ e :: Y) : w.ahead e.id = Y := by
  have hn := w.nodup
  rw [← map_id_entries 0, h, map_append, nodup_append] at hn
  have hX : ∀ d ∈ X, d.id ≠ e.id := by
    intro d hd
    exact hn.2.2 d.id (mem_map_of_mem hd) e.id (by simp)
  rw [ahead, h, dropWhile_append_of_pos (by simpa using hX), dropWhile_cons_of_neg (by simp),
    tail_cons]

section Method

variable {filters : Filters} {w : World} {self : NodeID} {t : Tag} {cs : Nodes} {fuel : ℕ}

theorem exec_filterLoop_firstChild (filters : Filters)
    (hself : w.node? self = some ⟨self, .inl t, cs⟩) (hfuel : w.size < fuel) (name : NSString) :
    Realized w.trees self (w.level (some self)) [⟨0, w.trees.fresh, .inl (plainTag name [])⟩]
      (filterWalk filters (w.level (some self)) none 1 (w.ahead self))
      (exec (loop (filterStep filters fuel self) fuel (w.firstChild self, [w.trees.fresh]))
        (w.add (single 0 (.inl (plainTag name []))))) := by
  obtain ⟨l, A, B, hent, hB, hl⟩ := w.exists_entries hself
  rw [w.ahead_of_entries hent, hl]
  dsimp only at hent ⊢
  have hw : Filtering w.trees self l [⟨0, w.trees.fresh, .inl (plainTag name [])⟩]
      (w.add (single 0 (.inl (plainTag name [])))) :=
    ⟨⟨_, World.trees_add_single w _, by simp⟩, ⟨_, _, rfl, rfl⟩, A, _, _, hent⟩
  have hlen : (cs.entries (l + 1) ++ B).length < fuel := by
    rw [World.size, ← length_entries 0, hent, length_append, length_cons] at hfuel
    omega
  have hfst : w.firstChild self = cs.ids.head? := w.firstChild_of_node? hself
  have hF : w.trees.entries 0 = (A ++ [⟨l, self, .inl t⟩]) ++ (cs.entries (l + 1) ++ B) := by
    rw [hent]
    simp
  have hspi : Spine ([⟨0, w.trees.fresh, .inl (plainTag name [])⟩] : Listing)
      [w.trees.fresh] :=
    ⟨⟨[], _, [], rfl, by simp⟩, trivial⟩
  have hloop := exec_filterLoop filters hw hF hspi (by simp) hlen hlen
  rw [← map_id_entries (l + 1)] at hfst
  cases hcs : cs.entries (l + 1) with
  | nil =>
    -- without children the loop ends at once, as it would at the node behind the receiver
    rw [hcs] at hfst hlen
    obtain ⟨fuel, rfl⟩ := exists_fuel hlen
    have hwalk : filterWalk filters l none 1 ([] ++ B) = some (.ok []) := by
      cases B with
      | nil => rfl
      | cons e B => rw [List.nil_append, filterWalk, if_pos (hB e (by simp))]
    rw [hfst, hwalk]
    exact ⟨_, [], rfl, by simpa using hw, by simp, rfl⟩
  | cons d D =>
    have hd : d.level = l + 1 := by
      cases cs with
      | nil => simp at hcs
      | branch i b cs r => exact ((cons.inj hcs).1 ▸ rfl)
      | leaf i c r => exact ((cons.inj hcs).1 ▸ rfl)
    rw [hcs] at hloop hfst
    rw [cons_append] at hloop
    have hdep : headDepth l (d :: (D ++ B)) = 1 := by
      simp [headDepth, hd]
    rw [hdep, cons_append, cursor_cons (by omega)] at hloop
    rw [hfst]
    exact hloop

/-- The method makes an element with the receiver's name, and below it the copies of the walk. -/
theorem exec_xmlElementByFilteringAttributes (filters : Filters)
    (hself : w.node? self = some ⟨self, .inl t, cs⟩) (hfuel : w.size < fuel) :
    match filterWalk filters (w.level (some self)) none 1 (w.ahead self) with
    | none => exec (xmlElementByFilteringAttributes filters fuel self) w = none
    | some (.error x) =>
      exec (xmlElementByFilteringAttributes filters fuel self) w = some (.error x)
    | some (.ok out) => ∃ w' f,
      exec (xmlElementByFilteringAttributes filters fuel self) w =
          some (.ok (w.trees.fresh, w')) ∧
        w'.trees = w.trees ++
          .branch w.trees.fresh (plainTag t.name []) (normalized f) .nil ∧
        (f.entries 1).map (fun e => (e.level, e.label)) = out := by
  have hloop := exec_filterLoop_firstChild filters hself hfuel t.name
  have hnew : exec (newElement t.name []) w =
      some (.ok (w.trees.fresh, w.add (single 0 (.inl (plainTag t.name []))))) :=
    exec_newNode_single w (.inl (plainTag t.name []))
  have hexec : ∀ o, exec (loop (filterStep filters fuel self) fuel
      (w.firstChild self, [w.trees.fresh])) (w.add (single 0 (.inl (plainTag t.name [])))) = o →
      exec (xmlElementByFilteringAttributes filters fuel self) w = andThen o fun _ =>
        (modify fun w' => w'.normalizeAdjacentTextNodes w.trees.fresh) >>= fun _ =>
          pure w.trees.fresh := by
    intro o ho
    simp only [xmlElementByFilteringAttributes, exec_bind, exec_get, andThen_ok, hself,
      map_some, hnew, ho]
  rcases hwalk : filterWalk filters (w.level (some self)) none 1 (w.ahead self) with _ | x | out
  · rw [hwalk] at hloop
    exact hexec _ hloop
  · rw [hwalk] at hloop
    exact hexec _ hloop
  · rw [hwalk] at hloop
    obtain ⟨w1, M, ho, hw1, hpos, hM⟩ := hloop
    obtain ⟨g, htre, hg⟩ := hw1.trees
    rw [singleton_append] at hg
    obtain ⟨f, rfl, hf⟩ := exists_branch_of_entries hg hpos
    have hfr : w.trees.fresh ∉ w.trees.ids := fun h => absurd (lt_fresh h) (by omega)
    refine ⟨w1.normalizeAdjacentTextNodes w.trees.fresh, f, ?_, ?_, by rw [hf, hM]⟩
    · rw [hexec _ ho]
      rfl
    · show w1.trees.modifyChildren _ _ = _
      rw [htre, modifyChildren, update_append_right hfr]
      simp [update, Node.tree]

end Method

/-! ### Whether the method returns -/

/-- The nodes the main loop comes to.  It passes over the subtree of a removed element and the node
behind it, stops where the filter answers `collapse` for a text node, and stays at a node that is
neither element nor text. -/
def reached (filters : Filters) (l : ℕ) : Option ℕ → Listing → Listing
  | _, [] => []
  | some k, e :: R =>
    if k < e.level then reached filters l (some k) R
    else if e.level = 0 then []
    else reached filters l none R
  | none, e :: R =>
    if e.level ≤ l then []
    else e :: match kind e.label, filters.childFilter e.id with
      | .other _, _ => []
      | .text, .collapse => []
      | .element, .remove => reached filters l (some e.level) R
      | _, _ => reached filters l none R

theorem Copies.cons_eq_none (x : ℕ × Label) (o : Copies) : o.cons x = none ↔ o = none := by
  cases o <;> simp [Copies.cons]

/-- The walk goes on for ever if and only if it comes to a node of another kind. -/
theorem filterWalk_eq_none_iff (filters : Filters) (l : ℕ) (m : Option ℕ) (c : ℕ) (L : Listing) :
    filterWalk filters l m c L = none ↔
      ∃ e ∈ reached filters l m L, ¬ (kind e.label = .element ∨ kind e.label = .text) := by
  induction L generalizing m c with
  | nil => cases m <;> simp [filterWalk, reached]
  | cons e R ih =>
    cases m with
    | some k =>
      rw [filterWalk, reached]
      split_ifs
      · exact ih _ _
      · simp
      · exact ih _ _
    | none =>
      rw [filterWalk, reached]
      split_ifs
      · simp
      · rcases hkind : kind e.label with _ | _ | k <;>
          rcases hfil : filters.childFilter e.id with _ | _ | _ <;>
          simp [hkind, Copies.cons_eq_none, ih]

/-- More fuel does not change what the method does. -/
theorem approximates_xmlElementByFilteringAttributes (filters : Filters) (self : NodeID) {fuel' : ℕ}
    (h : fuel ≤ fuel') :
    Approximates (xmlElementByFilteringAttributes filters fuel self)
      (xmlElementByFilteringAttributes filters fuel' self) := by
  have hnode : ∀ node stack, Approximates (filterNode filters fuel node stack)
      (filterNode filters fuel' node stack) := by
    intro node stack
    refine (Approximates.refl _).bind ?_
    intro w
    rcases filters.childFilter node with _ | _ | _
    · exact Approximates.refl _
    · exact Approximates.refl _
    · exact Approximates.ite ((Approximates.loop (fun k => Approximates.refl _) h _).bind
        fun _ => Approximates.refl _) (Approximates.refl _)
  have hstep : ∀ k, Approximates (filterStep filters fuel self k)
      (filterStep filters fuel' self k) := by
    rintro ⟨_ | node, stack⟩
    · exact Approximates.refl _
    · refine (Approximates.refl _).bind ?_
      intro w
      exact Approximates.ite (Approximates.refl _) (Approximates.ite ((hnode node stack).bind
        fun _ => Approximates.refl _) (Approximates.refl _))
  refine (Approximates.refl _).bind ?_
  intro w
  refine (Approximates.refl _).bind ?_
  intro newElement
  exact (Approximates.loop hstep h _).bind fun _ => Approximates.refl _

theorem exec_xmlElementByFilteringAttributes_eq_none {filters : Filters}
    (hself : w.kind? self = some .element)
    (h : filterWalk filters (w.level (some self)) none 1 (w.ahead self) = none) (fuel : ℕ) :
    exec (xmlElementByFilteringAttributes filters fuel self) w = none := by
  obtain ⟨t, cs, hnode⟩ := World.exists_element hself
  by_contra hne
  obtain ⟨o, ho⟩ := ne_none_iff_exists'.1 hne
  -- with more fuel the outcome is the same
  have hmore := approximates_xmlElementByFilteringAttributes filters self
    (show fuel ≤ max fuel (w.size + 1) by omega) w o ho
  have hexec := exec_xmlElementByFilteringAttributes filters hnode
    (show w.size < max fuel (w.size + 1) by omega)
  rw [h] at hexec
  rw [hexec] at hmore
  cases hmore

/-- The method returns or raises if and only if all nodes it comes to are elements and texts. -/
theorem xmlElementByFilteringAttributes_terminates_iff (filters : Filters) {w : World}
    {self : NodeID} (hself : w.kind? self = some .element) :
    (∃ fuel, exec (xmlElementByFilteringAttributes filters fuel self) w ≠ none) ↔
      ∀ e ∈ reached filters (w.level (some self)) none (w.ahead self),
        kind e.label = .element ∨ kind e.label = .text := by
  have hiff : (∀ e ∈ reached filters (w.level (some self)) none (w.ahead self),
      kind e.label = .element ∨ kind e.label = .text) ↔
      filterWalk filters (w.level (some self)) none 1 (w.ahead self) ≠ none := by
    rw [Ne, filterWalk_eq_none_iff]
    simp only [not_exists, not_and, not_not]
  rw [hiff]
  constructor
  · rintro ⟨fuel, hfuel⟩ hnone
    exact hfuel (exec_xmlElementByFilteringAttributes_eq_none hself hnone fuel)
  · intro hne
    obtain ⟨t, cs, hnode⟩ := World.exists_element hself
    refine ⟨w.size + 1, ?_⟩
    have hexec := exec_xmlElementByFilteringAttributes filters hnode (Nat.lt_succ_self w.size)
    rcases hw : filterWalk filters (w.level (some self)) none 1 (w.ahead self) with _ | x | out
    · exact absurd hw hne
    · rw [hw] at hexec
      rw [hexec]
      simp
    · rw [hw] at hexec
      obtain ⟨w', f, hrun, -⟩ := hexec
      rw [hrun]
      simp

/-- The filters that keep everything. -/
def Filters.keepAll : Filters := ⟨fun _ _ => .keep, fun _ => .keep⟩

theorem xmlElementByFilteringAttributes_terminates_division :
    ∃ fuel, exec (xmlElementByFilteringAttributes .keepAll fuel 0) sampleDivision ≠ none :=
  (xmlElementByFilteringAttributes_terminates_iff .keepAll (w := sampleDivision) (by decide)).2
    (by decide)

/-- `<p>ab<!--x--></p>` -/
def sampleRemark : World where
  trees := .branch 0 (plainTag (literal "p") [])
    (.leaf 1 (.text (literal "ab")) (.leaf 2 (.other .comment (literal "x")) .nil)) .nil
  nodup := by decide

/-- The loop stays at the comment. -/
theorem xmlElementByFilteringAttributes_diverges :
    sampleRemark.nextNode 1 = some 2 ∧ sampleRemark.kind? 2 = some (.other .comment) ∧
      ∀ fuel, exec (xmlElementByFilteringAttributes .keepAll fuel 0) sampleRemark = none :=
  ⟨by decide, by decide,
    exec_xmlElementByFilteringAttributes_eq_none (w := sampleRemark) (by decide) (by decide)⟩

end Feather.XML
