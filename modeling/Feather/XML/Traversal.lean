import Feather.OrderedTree.Walk
import Feather.XML.World

/-!
# Walking a subtree

`visitNodesInSubtree` keeps a stack of nodes, and other loops follow `-nextNode` as long as the
level stays above the element's.
-/

namespace Feather.XML

open OrderedTree Forest Program List Option

variable {σ : Type}
variable {b : Label} {x : NodeID} {n : Node Tag Content}

/-! ### Visiting with a stack -/

/-- The loop of `visitNodesInSubtreeStartingFrom:upTo:visitor:`; `none` when the fuel is used up.
The visitor works on the caller's variables `s` and answers whether to go on. -/
def visitLoop (startNode endNode : Option NodeID) (visitor : Node Tag Content → σ → σ × Bool) :
    ℕ → Nodes → Bool → ℕ → σ → Option (ℕ × σ)
  | 0, _, _, _, _ => none
  | fuel + 1, queue, shouldVisit, visitCount, s =>
    match queue.pop? with
    | none => some (visitCount, s)
    | some (node, queue) =>
      let queue := node.children ++ queue
      let shouldVisit := shouldVisit || startNode == some node.id
      if shouldVisit then
        match visitor node s with
        | (s, false) => some (visitCount + 1, s)
        | (s, true) =>
          if endNode = some node.id then some (visitCount + 1, s)
          else visitLoop startNode endNode visitor fuel queue shouldVisit (visitCount + 1) s
      else if endNode = some node.id then some (visitCount, s)
      else visitLoop startNode endNode visitor fuel queue shouldVisit visitCount s

/-- `-visitNodesInSubtreeStartingFrom:upTo:visitor:`, with the number of visited nodes. -/
def visitNodesInSubtree (fuel : ℕ) (self : Node Tag Content) (startNode endNode : Option NodeID)
    (visitor : Node Tag Content → σ → σ × Bool) (s : σ) : Option (ℕ × σ) :=
  visitLoop startNode endNode visitor fuel self.children startNode.isNone 0 s

theorem isSome_visitLoop (startNode endNode : Option NodeID)
    (visitor : Node Tag Content → σ → σ × Bool) {fuel : ℕ} {queue : Nodes} (shouldVisit : Bool)
    (count : ℕ) (s : σ) (hfuel : queue.nodes.length < fuel) :
    (visitLoop startNode endNode visitor fuel queue shouldVisit count s).isSome := by
  induction fuel generalizing queue shouldVisit count s with
  | zero => exact absurd hfuel (Nat.not_lt_zero _)
  | succ fuel ih =>
    rw [visitLoop]
    cases hp : queue.pop? with
    | none => rfl
    | some p =>
      obtain ⟨n, r⟩ := p
      rw [nodes_of_pop? hp, length_cons] at hfuel
      dsimp only
      rcases visitor n s with ⟨s', _ | _⟩ <;> dsimp only <;> split_ifs
      all_goals first | rfl | exact ih _ _ _ (by omega)

/-- `-visitNodesInSubtreeStartingFrom:visitor:`; the loop ends within one iteration more than there
are nodes. -/
def visitNodesInSubtreeStartingFrom (self : Node Tag Content) (startNode : NodeID)
    (visitor : Node Tag Content → σ → σ × Bool) (s : σ) : σ :=
  ((visitNodesInSubtree (self.children.nodes.length + 1) self (some startNode) none visitor s).get
    (isSome_visitLoop _ _ _ _ _ _ (Nat.lt_succ_self _))).2

/-- `-visitAllNodesInSubtree:` -/
def visitAllNodesInSubtree (self : Node Tag Content) (visitor : Node Tag Content → σ → σ × Bool)
    (s : σ) : σ :=
  ((visitNodesInSubtree (self.children.nodes.length + 1) self none none visitor s).get
    (isSome_visitLoop _ _ _ _ _ _ (Nat.lt_succ_self _))).2

/-- The nodes up to the end node; all of them if there is none. -/
def upTo (endNode : Option NodeID) (nodes : List (Node Tag Content)) : List (Node Tag Content) :=
  nodes.take (endNode.elim nodes.length fun b => (nodes.map Node.id).idxOf b + 1)

theorem upTo_none (nodes : List (Node Tag Content)) : upTo none nodes = nodes :=
  take_length

theorem upTo_cons (endNode : Option NodeID) (n : Node Tag Content) (l : List (Node Tag Content)) :
    upTo endNode (n :: l) = n :: if endNode = some n.id then [] else upTo endNode l := by
  cases endNode with
  | none => simp [upTo]
  | some b =>
    by_cases hb : b = n.id
    · simp [upTo, hb]
    · rw [if_neg (by simpa using hb)]
      simp [upTo, idxOf_cons_ne _ (Ne.symm hb)]

/-- A loop that has started visits the nodes up to the end node, as long as the visitor goes on. -/
theorem visitLoop_started (startNode endNode : Option NodeID)
    (visitor : Node Tag Content → σ → σ × Bool) {fuel : ℕ} {queue : Nodes}
    (hfuel : queue.nodes.length < fuel) (count : ℕ) (s : σ) :
    ∃ count', visitLoop startNode endNode visitor fuel queue true count s =
        some (count', scan visitor (upTo endNode queue.nodes) s) ∧
      ((∀ n s, (visitor n s).2 = true) → count' = count + (upTo endNode queue.nodes).length) := by
  induction fuel generalizing queue count s with
  | zero => exact absurd hfuel (Nat.not_lt_zero _)
  | succ fuel ih =>
    rw [visitLoop]
    cases hp : queue.pop? with
    | none => exact ⟨count, by simp [eq_nil_of_pop? hp, upTo, scan]⟩
    | some p =>
      obtain ⟨n, r⟩ := p
      have hn := nodes_of_pop? hp
      rw [hn, length_cons] at hfuel
      rw [hn, upTo_cons, scan]
      simp only [Bool.true_or, if_true]
      rcases hvis : visitor n s with ⟨s', _ | _⟩
      · exact ⟨_, rfl, fun hgo => by simpa [hvis] using hgo n s⟩
      · by_cases hend : endNode = some n.id
        · simp [hend, scan]
        · have hlt : (n.children ++ r).nodes.length < fuel := by omega
          obtain ⟨count', hloop, hcount⟩ := ih hlt (count + 1) s'
          simp only [if_neg hend, length_cons]
          exact ⟨count', hloop, fun hgo => by rw [hcount hgo]; omega⟩

/-- A loop that has not started passes over the nodes in front of the start node, if the end node is
not among them. -/
theorem visitLoop_skipping {start : NodeID} {endNode : Option NodeID}
    (visitor : Node Tag Content → σ → σ × Bool) {fuel : ℕ} {queue : Nodes}
    (hfuel : queue.nodes.length < fuel)
    (hend : ∀ n ∈ queue.nodes.takeWhile fun n => decide (n.id ≠ start), endNode ≠ some n.id)
    (count : ℕ) (s : σ) :
    ∃ fuel' queue', queue'.nodes = queue.nodes.dropWhile (fun n => decide (n.id ≠ start)) ∧
      queue'.nodes.length < fuel' ∧
      visitLoop (some start) endNode visitor fuel queue false count s =
        visitLoop (some start) endNode visitor fuel' queue' true count s := by
  induction fuel generalizing queue with
  | zero => exact absurd hfuel (Nat.not_lt_zero _)
  | succ fuel ih =>
    cases hp : queue.pop? with
    | none =>
      exact ⟨fuel + 1, queue, by simp [eq_nil_of_pop? hp], hfuel, by simp [visitLoop, hp]⟩
    | some p =>
      obtain ⟨n, r⟩ := p
      have hn := nodes_of_pop? hp
      by_cases hs : n.id = start
      · refine ⟨fuel + 1, queue, ?_, hfuel, by simp [visitLoop, hp, hs]⟩
        rw [hn, dropWhile_cons_of_neg (by simpa using hs)]
      · rw [hn, length_cons] at hfuel
        rw [hn, takeWhile_cons_of_pos (by simpa using hs), forall_mem_cons] at hend
        have hlt : (n.children ++ r).nodes.length < fuel := by omega
        obtain ⟨fuel', queue', hnodes, hfuel', hloop⟩ := ih hlt hend.2
        refine ⟨fuel', queue', ?_, hfuel', ?_⟩
        · rw [hnodes, hn, dropWhile_cons_of_pos (by simpa using hs)]
        · rw [← hloop, visitLoop, hp]
          have hne : (some start == some n.id) = false := by simpa using Ne.symm hs
          simp only [Bool.false_or, hne, Bool.false_eq_true, if_false, if_neg hend.1]

/-- All nodes below the receiver are visited in document order. -/
theorem visitAllNodesInSubtree_eq_scan (self : Node Tag Content)
    (visitor : Node Tag Content → σ → σ × Bool) (s : σ) :
    visitAllNodesInSubtree self visitor s = scan visitor self.children.nodes s := by
  obtain ⟨count, h, -⟩ := visitLoop_started none none visitor (Nat.lt_succ_self _) 0 s
  rw [upTo_none] at h
  exact congrArg Prod.snd (get_of_eq_some _ h)

/-- The nodes from the start node on are visited in document order. -/
theorem visitNodesInSubtreeStartingFrom_eq_scan (self : Node Tag Content) (start : NodeID)
    (visitor : Node Tag Content → σ → σ × Bool) (s : σ) :
    visitNodesInSubtreeStartingFrom self start visitor s =
      scan visitor (self.children.nodes.dropWhile fun n => decide (n.id ≠ start)) s := by
  have hend : ∀ n ∈ self.children.nodes.takeWhile fun n => decide (n.id ≠ start), none ≠ some n.id :=
    fun _ _ => nofun
  obtain ⟨fuel, queue, hnodes, hfuel, hloop⟩ :=
    visitLoop_skipping visitor (Nat.lt_succ_self self.children.nodes.length) hend 0 s
  obtain ⟨count, h, -⟩ := visitLoop_started (some start) none visitor hfuel 0 s
  rw [upTo_none, hnodes, ← hloop] at h
  exact congrArg Prod.snd (get_of_eq_some _ h)

/-! ### Reading the store off its listing -/

namespace World

variable {w : World} {X Y : Listing} {e : Entry Tag Content}

theorem level_of_entries (h : w.trees.entries 0 = X ++ e :: Y) : w.level (some e.id) = e.level := by
  have := Forest.level_of_entries w.nodup h
  simpa [level] using this

theorem nextNode_of_entries (h : w.trees.entries 0 = X ++ e :: Y) :
    w.nextNode e.id = cursor Y :=
  next?_eq_cursor w.nodup h

theorem exists_element (h : w.kind? x = some .element) :
    ∃ t cs, w.node? x = some ⟨x, .inl t, cs⟩ := by
  rw [kind?, map_eq_some_iff] at h
  obtain ⟨⟨i, b, cs⟩, hn, hk⟩ := h
  obtain rfl : i = x := find?_id hn
  rcases b with t | s | ⟨k, s⟩
  · exact ⟨t, cs, hn⟩
  · cases hk
  · cases hk

theorem kind?_of_entries (h : w.trees.entries 0 = X ++ e :: Y) :
    w.kind? e.id = some (kind e.label) := by
  obtain ⟨n, hn, hl⟩ := find?_label_of_entries w.nodup h
  simp [kind?, node?, hn, hl]

theorem children_of_node? (h : w.node? x = some n) : w.children x = n.children := by
  simp [World.children, h]

theorem firstChild_of_node? (h : w.node? x = some n) : w.firstChild x = n.children.ids.head? := by
  simp [firstChild, children, h, head?_ids]

theorem stringValue_of_entries {s : NSString} (h : w.trees.entries 0 = X ++ e :: Y)
    (he : e.label = .inr (.text s)) : w.stringValue e.id = s := by
  obtain ⟨n, hn, hl⟩ := find?_label_of_entries w.nodup h
  simp [stringValue, node?, hn, XML.stringValue, hl, he]

theorem closes_of_content {c : Content} (h : w.trees.entries 0 = X ++ e :: Y)
    (he : e.label = .inr c) : Closes e.level Y := by
  obtain ⟨n, hn, hl⟩ := find?_label_of_entries w.nodup h
  exact (children_eq_nil_iff_closes w.nodup h hn).1
    (children_eq_nil_of_leaf hn (hl.trans he))

/-- The entry behind a piece of a listing is another node than the ones before it. -/
theorem id_ne_of_entries {R : Listing} {c : Entry Tag Content}
    (h : w.trees.entries 0 = X ++ e :: (R ++ c :: Y)) : e.id ≠ c.id := by
  have hn := w.nodup
  rw [← map_id_entries 0, h] at hn
  simp only [map_append, map_cons, nodup_append, nodup_cons] at hn
  exact fun hid => hn.2.1.1 (by simp [hid])

/-- Detaching a node without children. -/
theorem entries_detach (h : w.trees.entries 0 = X ++ e :: Y) (hY : Closes e.level Y) :
    (w.detach e.id).trees.entries 0 = X ++ (Y ++ [⟨0, e.id, e.label⟩]) := by
  have h' : w.trees.entries 0 = X ++ e :: (nil.entries (e.level + 1) ++ Y) := h
  have := Forest.entries_detach w.nodup h' hY
  simpa [World.detach] using this

/-- The children of a node, read off the listing. -/
theorem children_of_entries {l : ℕ} {A D B : Listing}
    (h : w.trees.entries 0 = A ++ ⟨l, x, b⟩ :: (D ++ B)) (hD : ∀ d ∈ D, l < d.level)
    (hB : Closes l B) : (w.children x).entries (l + 1) = D := by
  obtain ⟨n, hn, -, hcs⟩ := find?_of_entries w.nodup h hD hB
  rw [World.children_of_node? hn]
  exact hcs

theorem entries_setStringValue {l : ℕ} {s : NSString}
    (h : w.trees.entries 0 = X ++ ⟨l, x, .inr (.text s)⟩ :: Y) (s' : NSString) :
    (w.setStringValue x s').trees.entries 0 = X ++ ⟨l, x, .inr (.text s')⟩ :: Y :=
  entries_setContent w.nodup h

/-- The first child of a node is the entry behind it, if that is deeper. -/
theorem firstChild_of_entries {d : Entry Tag Content} (h : w.trees.entries 0 = X ++ e :: d :: Y)
    (hd : e.level < d.level) : w.firstChild e.id = cursor (d :: Y) := by
  obtain ⟨n, hn, -⟩ := find?_label_of_entries w.nodup h
  obtain ⟨l, A, B, he, -, hB⟩ := entries_of_find? 0 hn
  have hnd : ((X ++ e :: d :: Y).map Entry.id).Nodup := by
    rw [← h, map_id_entries]
    exact w.nodup
  obtain ⟨-, he', hDB⟩ := split_unique hnd (h.symm.trans he) rfl
  obtain rfl : e.level = l := congrArg Entry.level he'
  rw [cursor_cons (by omega), w.firstChild_of_node? hn,
    ← map_id_entries (e.level + 1)]
  cases hcs : n.children.entries (e.level + 1) with
  | nil =>
    rw [hcs, List.nil_append] at hDB
    have := hB d (by rw [← hDB]; simp)
    omega
  | cons d' D =>
    rw [hcs, cons_append, cons.injEq] at hDB
    rw [← hDB.1]
    rfl

/-- Where the subtree of a node sits in the listing of the store. -/
theorem exists_entries (h : w.node? x = some n) :
    ∃ l A B, w.trees.entries 0 = A ++ ⟨l, x, n.label⟩ :: (n.children.entries (l + 1) ++ B) ∧
      Closes l B ∧ w.level (some x) = l := by
  obtain ⟨l, A, B, he, -, hB⟩ := entries_of_find? 0 h
  exact ⟨l, A, B, he, hB, level_of_entries he⟩

end World

/-- A node of kind text carries a string. -/
theorem exists_text_of_kind (h : kind b = .text) : ∃ s, b = .inr (.text s) := by
  rcases b with t | s | ⟨k, s⟩
  · simp [kind] at h
  · exact ⟨s, rfl⟩
  · simp [kind] at h

theorem ownText_of_kind (h : kind b ≠ .text) : ownText b = [] := by
  rcases b with t | s | ⟨k, s⟩
  · rfl
  · simp [kind] at h
  · rfl

end Feather.XML
