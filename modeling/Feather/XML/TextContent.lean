import Feather.XML.Space

/-!
# Text content

`textContentLength` and `textContentLengthBeforeNode` walk the subtree with `-nextNode`.  The flag
`found` of the second is only looked at after an advance, so the first child is never found, and the
first node behind the subtree is.
-/

namespace Feather.XML

open OrderedTree Forest Program List

variable {w : World} {X Y R : Listing} {e : Entry Tag Content} {x : NodeID}

/-- The text of the forest in front of the node `x`, in document order. -/
def textBefore (f : Nodes) (x : NodeID) : NSString :=
  listingText ((f.entries 0).takeWhile fun e => decide (e.id ≠ x))

/-- The length of the text of the element `root` in front of `x`, which is `root` or below it. -/
def World.textLengthBefore (w : World) (root x : NodeID) : ℕ :=
  if x = root then 0 else (textBefore (w.children root) x).length

/-- The first node behind the subtree of `x`, in the tree of `x`. -/
def World.nextNodeOutside (w : World) (x : NodeID) : Option NodeID :=
  Forest.cursor ((((w.trees.entries 0).dropWhile fun e => decide (e.id ≠ x)).tail).dropWhile
    fun e => decide (w.level (some x) < e.level))

/-! ### The loops -/

/-- One iteration of `textContentLength`. -/
def textContentLengthStep (self : NodeID) :
    Option NodeID × ℕ → Action ((Option NodeID × ℕ) ⊕ ℕ)
  | (none, l) => pure (.inr l)
  | (some node, l) => do
    let w ← get
    if w.level (some self) < w.level (some node) then
      let l := if w.kind? node = some .text then l + (w.stringValue node).length else l
      pure (.inl (w.nextNode node, l))
    else pure (.inr l)

/-- `-textContentLength` -/
def textContentLength (cocoa : Cocoa) (fuel : ℕ) (self : NodeID) : Action ℕ := do
  enforceExplicitPreservedSpace cocoa self
  let w ← get
  loop (textContentLengthStep self) fuel (w.firstChild self, 0)

/-- One iteration of `textContentLengthBeforeNode:`. -/
def textContentLengthBeforeNodeStep (self anchorNode : NodeID) :
    Option NodeID × ℕ × Bool → Action ((Option NodeID × ℕ × Bool) ⊕ (ℕ × Bool))
  | (none, l, found) => pure (.inr (l, found))
  | (some node, l, found) => do
    let w ← get
    if w.level (some self) < w.level (some node) ∧ node ≠ anchorNode then
      let l := if w.kind? node = some .text then l + (w.stringValue node).length else l
      let node := w.nextNode node
      pure (.inl (node, l, found || decide (node = some anchorNode)))
    else pure (.inr (l, found))

/-- `-textContentLengthBeforeNode:` -/
def textContentLengthBeforeNode (cocoa : Cocoa) (fuel : ℕ) (self anchorNode : NodeID) :
    Action ℕ := do
  enforceExplicitPreservedSpace cocoa self
  let w ← get
  let (l, found) ←
    loop (textContentLengthBeforeNodeStep self anchorNode) fuel (w.firstChild self, 0, false)
  if !found then pure nsNotFound else pure l

/-! ### What the loops compute -/

theorem World.addTextLength (h : w.trees.entries 0 = X ++ e :: Y) (l : ℕ) :
    (if w.kind? e.id = some .text then l + (w.stringValue e.id).length else l) =
      l + (ownText e.label).length := by
  rw [w.kind?_of_entries h]
  split_ifs with hk
  · obtain ⟨s, hs⟩ := exists_text_of_kind (Option.some.inj hk)
    rw [w.stringValue_of_entries h hs, hs]
    rfl
  · rw [ownText_of_kind (fun hk' => hk (congrArg some hk'))]
    rfl

section Walk

variable {w : World} {self : NodeID} {l : ℕ} {B : Listing}

/-- A walk that has left the subtree ends. -/
theorem textContentLengthStep_outside (hself : w.level (some self) = l)
    (h : w.trees.entries 0 = X ++ B) (hB : Closes l B) (len : ℕ) :
    exec (textContentLengthStep self (cursor B, len)) w = some (.ok (.inr len, w)) := by
  rcases cursor_of_closes hB with hc | ⟨e, C, rfl, hc, hle⟩
  · rw [hc]
    rfl
  · rw [hc]
    simp [textContentLengthStep, hself, w.level_of_entries h, hle]

theorem textContentLengthStep_inside (hself : w.level (some self) = l)
    (h : w.trees.entries 0 = X ++ e :: Y) (he : l < e.level) (len : ℕ) :
    exec (textContentLengthStep self (some e.id, len)) w =
      some (.ok (.inl (cursor Y, len + (ownText e.label).length), w)) := by
  simp [textContentLengthStep, hself, w.level_of_entries h, he, w.addTextLength h,
    w.nextNode_of_entries h]

theorem exec_textContentLength_loop (hself : w.level (some self) = l) (hB : Closes l B)
    (h : w.trees.entries 0 = X ++ (R ++ B)) (hR : ∀ d ∈ R, l < d.level) {fuel : ℕ}
    (hfuel : R.length < fuel) (len : ℕ) :
    exec (loop (textContentLengthStep self) fuel (cursor (R ++ B), len)) w =
      some (.ok (len + (listingText R).length, w)) := by
  induction R generalizing X fuel len with
  | nil =>
    obtain ⟨fuel, rfl⟩ := exists_fuel hfuel
    simpa using exec_loop_done (textContentLengthStep_outside hself h hB len)
  | cons e R ih =>
    obtain ⟨fuel, rfl⟩ := exists_fuel hfuel
    have he := hR e (by simp)
    rw [cons_append] at h ⊢
    rw [length_cons] at hfuel
    rw [cursor_cons (by omega), exec_loop_next (textContentLengthStep_inside hself h he len),
      ih (X := X ++ [e]) (by simp [h]) (fun d hd => hR d (by simp [hd])) (by omega)]
    simp [Nat.add_assoc]

variable {anchor : NodeID}

theorem textContentLengthBeforeNodeStep_outside (hself : w.level (some self) = l)
    (h : w.trees.entries 0 = X ++ B) (hB : Closes l B) (len : ℕ) (found : Bool) :
    exec (textContentLengthBeforeNodeStep self anchor (cursor B, len, found)) w =
      some (.ok (.inr (len, found), w)) := by
  rcases cursor_of_closes hB with hc | ⟨e, C, rfl, hc, hle⟩
  · rw [hc]
    rfl
  · rw [hc]
    simp [textContentLengthBeforeNodeStep, hself, w.level_of_entries h, hle]

theorem textContentLengthBeforeNodeStep_anchor (len : ℕ) (found : Bool) :
    exec (textContentLengthBeforeNodeStep self anchor (some anchor, len, found)) w =
      some (.ok (.inr (len, found), w)) := by
  simp [textContentLengthBeforeNodeStep]

theorem textContentLengthBeforeNodeStep_inside (hself : w.level (some self) = l)
    (h : w.trees.entries 0 = X ++ e :: Y) (he : l < e.level) (ha : e.id ≠ anchor) (len : ℕ)
    (found : Bool) :
    exec (textContentLengthBeforeNodeStep self anchor (some e.id, len, found)) w =
      some (.ok (.inl (cursor Y, len + (ownText e.label).length,
        found || decide (cursor Y = some anchor)), w)) := by
  simp [textContentLengthBeforeNodeStep, hself, w.level_of_entries h, he, w.addTextLength h,
    w.nextNode_of_entries h, ha]

/-- A node of `R` other than the first, or the node behind it, is the anchor. -/
def foundFlag (anchor : NodeID) (R B : Listing) : Bool :=
  decide (anchor ∈ R.tail.map Entry.id ∨ (R ≠ [] ∧ Forest.cursor B = some anchor))

theorem foundFlag_cons (e : Entry Tag Content) (hR : ∀ d ∈ R, 0 < d.level) :
    foundFlag anchor (e :: R) B =
      (decide (cursor (R ++ B) = some anchor) || foundFlag anchor R B) := by
  cases R with
  | nil => simp [foundFlag]
  | cons d R =>
    simp [foundFlag, cursor_cons (hR d (by simp)), or_assoc, eq_comm (a := anchor)]

theorem foundFlag_of_head (hn : ((e :: (R ++ B)).map Entry.id).Nodup) (he : e.id = anchor) :
    foundFlag anchor (e :: R) B = false := by
  simp only [map_cons, map_append, nodup_cons, mem_append, not_or] at hn
  subst he
  have hB : cursor B ≠ some e.id := by
    intro hc
    cases B with
    | nil => simp at hc
    | cons b B =>
      simp only [cursor, Option.map_eq_some_iff, Option.filter_eq_some_iff] at hc
      obtain ⟨b', ⟨hb, -⟩, hid⟩ := hc
      obtain rfl := Option.some.inj hb
      exact hn.1.2 (by simp [hid])
  simpa [foundFlag, hB] using hn.1.1

theorem exec_textContentLengthBeforeNode_loop (anchor : NodeID) (hself : w.level (some self) = l)
    (hB : Closes l B) (h : w.trees.entries 0 = X ++ (R ++ B)) (hR : ∀ d ∈ R, l < d.level) {fuel : ℕ}
    (hfuel : R.length < fuel) (len : ℕ) (found : Bool) :
    exec (loop (textContentLengthBeforeNodeStep self anchor) fuel (cursor (R ++ B), len, found)) w =
      some (.ok ((len + (listingText (R.takeWhile fun e => decide (e.id ≠ anchor))).length,
        found || foundFlag anchor R B), w)) := by
  induction R generalizing X fuel len found with
  | nil =>
    obtain ⟨fuel, rfl⟩ := exists_fuel hfuel
    simpa [foundFlag] using
      exec_loop_done (textContentLengthBeforeNodeStep_outside hself h hB len found)
  | cons e R ih =>
    obtain ⟨fuel, rfl⟩ := exists_fuel hfuel
    have he := hR e (by simp)
    rw [cons_append] at h ⊢
    rw [length_cons] at hfuel
    rw [cursor_cons (by omega)]
    by_cases ha : e.id = anchor
    · have hn : ((e :: (R ++ B)).map Entry.id).Nodup := by
        have := w.nodup
        rw [← map_id_entries 0, h, map_append] at this
        exact (nodup_append.1 this).2.1
      rw [foundFlag_of_head hn ha, ha, exec_loop_done (textContentLengthBeforeNodeStep_anchor _ _)]
      simp [ha]
    · rw [exec_loop_next (textContentLengthBeforeNodeStep_inside hself h he ha len found),
        ih (X := X ++ [e]) (by simp [h]) (fun d hd => hR d (by simp [hd])) (by omega),
        foundFlag_cons e (fun d hd => Nat.zero_lt_of_lt (hR d (by simp [hd])))]
      simp [ha, Nat.add_assoc, Bool.or_assoc]

end Walk

/-! ### The methods -/

theorem listingText_takeWhile (k : ℕ) (f : Nodes) (x : NodeID) :
    listingText ((f.entries k).takeWhile fun e => decide (e.id ≠ x)) = textBefore f x := by
  have key : ∀ L : Listing, listingText (L.takeWhile fun e => decide (e.id ≠ x)) =
      ((L.map fun e => (e.id, e.label)).takeWhile fun p => decide (p.1 ≠ x)).flatMap
        fun p => ownText p.2 := by
    intro L
    rw [takeWhile_map, flatMap_map]
    rfl
  rw [textBefore, key, key, ← map_nodes_eq_map_entries, ← map_nodes_eq_map_entries]

/-- The text in front of an entry of the listing. -/
theorem textBefore_of_entries {f : Nodes} {k : ℕ} (hn : f.ids.Nodup)
    (h : f.entries k = X ++ e :: Y) : textBefore f e.id = listingText X := by
  have hX : ∀ d ∈ X, d.id ≠ e.id := by
    rw [← map_id_entries k, h, map_append, nodup_append] at hn
    exact fun d hd heq => hn.2.2 d.id (mem_map_of_mem hd) e.id (by simp) heq
  rw [← listingText_takeWhile k, h, takeWhile_append_of_pos (by simpa using hX),
    takeWhile_cons_of_neg (by simp), List.append_nil]

theorem World.nextNodeOutside_of_entries {b : Label} {l : ℕ} {A D B : Listing}
    (h : w.trees.entries 0 = A ++ ⟨l, x, b⟩ :: (D ++ B)) (hD : ∀ d ∈ D, l < d.level)
    (hB : Closes l B) : w.nextNodeOutside x = cursor B := by
  have hA : ∀ a ∈ A, a.id ≠ x := by
    intro a ha hax
    have hn := w.nodup
    rw [← map_id_entries 0, h, map_append, nodup_append] at hn
    exact hn.2.2 a.id (mem_map_of_mem ha) x (by simp) hax
  have hl : w.level (some x) = l := w.level_of_entries h
  rw [nextNodeOutside, h, hl, dropWhile_append_of_pos (by simpa using hA),
    dropWhile_cons_of_neg (by simp), tail_cons, dropWhile_append_of_closes hD hB]

/-- A walk from the first child of `x` has the subtree of `x` ahead of it, and then what follows.
Without children it stands nowhere. -/
theorem World.exists_walk {n : Node Tag Content} (h : w.node? x = some n) :
    ∃ X B, w.trees.entries 0 = X ++ (n.children.entries (w.level (some x) + 1) ++ B) ∧
      Closes (w.level (some x)) B ∧
      w.firstChild x = cursor (n.children.entries (w.level (some x) + 1) ++ B) ∧
      (n.children.ids ≠ [] → cursor B = w.nextNodeOutside x) := by
  obtain ⟨l, A, B, he, hB, rfl⟩ := w.exists_entries h
  have hD := lt_level_of_mem_entries_succ (k := w.level (some x)) (f := n.children)
  have hids := map_id_entries (w.level (some x) + 1) n.children
  rw [w.firstChild_of_node? h, w.nextNodeOutside_of_entries he hD hB, ← hids]
  cases hne : n.children.entries (w.level (some x) + 1) with
  | nil => exact ⟨w.trees.entries 0, [], by simp, closes_nil _, rfl, by simp⟩
  | cons d D =>
    have hd : 0 < d.level := Nat.zero_lt_of_lt (hD d (by rw [hne]; simp))
    rw [hne] at he
    exact ⟨A ++ [⟨w.level (some x), x, n.label⟩], B, by simp [he], hB,
      by simp [cursor_cons hd], fun _ => rfl⟩

section Methods

variable {w : World} {self : NodeID} {n : Node Tag Content} {fuel : ℕ}

theorem exec_textContentLength (cocoa : Cocoa) (h : w.node? self = some n)
    (hx : ExplicitSpace n.children) (hfuel : n.children.ids.length < fuel) :
    exec (textContentLength cocoa fuel self) w = some (.ok ((text n.children).length, w)) := by
  obtain ⟨X, B, he, hB, hfst, -⟩ := w.exists_walk h
  rw [← length_entries (w.level (some self) + 1)] at hfuel
  have hloop := exec_textContentLength_loop rfl hB he lt_level_of_mem_entries_succ hfuel 0
  rw [← hfst] at hloop
  rw [textContentLength, exec_bind, exec_enforceExplicitPreservedSpace cocoa
    (World.children_of_node? h ▸ hx)]
  simp [hloop]

/-- What `-textContentLengthBeforeNode:` answers. -/
theorem exec_textContentLengthBeforeNode (cocoa : Cocoa) (h : w.node? self = some n)
    (hx : ExplicitSpace n.children) (hfuel : n.children.ids.length < fuel) (anchor : NodeID) :
    exec (textContentLengthBeforeNode cocoa fuel self anchor) w =
      some (.ok (if anchor ∈ n.children.ids.tail ∨
          (n.children.ids ≠ [] ∧ w.nextNodeOutside self = some anchor)
        then (textBefore n.children anchor).length else nsNotFound, w)) := by
  obtain ⟨X, B, he, hB, hfst, hnext⟩ := w.exists_walk h
  rw [← length_entries (w.level (some self) + 1)] at hfuel
  have hloop := exec_textContentLengthBeforeNode_loop anchor rfl hB he
    lt_level_of_mem_entries_succ hfuel 0 false
  have hflag : foundFlag anchor (n.children.entries (w.level (some self) + 1)) B =
      decide (anchor ∈ n.children.ids.tail ∨
        (n.children.ids ≠ [] ∧ w.nextNodeOutside self = some anchor)) := by
    rw [foundFlag, map_tail, map_id_entries, decide_eq_decide, Ne, entries_eq_nil_iff]
    exact or_congr_right (and_congr_right fun hne => by rw [hnext hne])
  rw [← hfst, hflag, listingText_takeWhile] at hloop
  rw [textContentLengthBeforeNode, exec_bind, exec_enforceExplicitPreservedSpace cocoa
    (World.children_of_node? h ▸ hx), andThen_ok, exec_get_bind, exec_bind, hloop]
  by_cases hc : anchor ∈ n.children.ids.tail ∨
      (n.children.ids ≠ [] ∧ w.nextNodeOutside self = some anchor)
  · simp [hc]
  · simp only [hc]
    simp

/-- What `-textContentLengthBeforeNode:` is meant to answer: the length of the text in front of a
descendant, else `NSNotFound`. -/
def lengthBeforeNode (w : World) (self x : NodeID) : ℕ :=
  if x ∈ (w.children self).ids then (textBefore (w.children self) x).length else nsNotFound

theorem textBefore_length_le (f : Nodes) (x : NodeID) :
    (textBefore f x).length ≤ (text f).length := by
  have h : text f = textBefore f x ++
      listingText ((f.entries 0).dropWhile fun e => decide (e.id ≠ x)) := by
    rw [textBefore, ← listingText_append, takeWhile_append_dropWhile, listingText_entries]
  rw [h, length_append]
  exact Nat.le_add_right _ _

/-- The node behind a subtree is not in it. -/
theorem World.nextNodeOutside_notMem (h : w.node? self = some n)
    (hx : w.nextNodeOutside self = some x) : x ∉ n.children.ids := by
  obtain ⟨l, A, B, he, hB, rfl⟩ := w.exists_entries h
  rw [w.nextNodeOutside_of_entries he lt_level_of_mem_entries_succ hB] at hx
  rcases cursor_of_closes hB with hc | ⟨e, C, rfl, hc, -⟩
  · rw [hc] at hx
    cases hx
  · obtain rfl : e.id = x := Option.some.inj (hc.symm.trans hx)
    have hn := w.nodup
    rw [← map_id_entries 0, he] at hn
    simp only [map_append, map_cons, map_id_entries, nodup_append, nodup_cons] at hn
    exact fun hmem => hn.2.1.2.2.2 _ hmem e.id (by simp) rfl

/-- The answer is as meant exactly when the node is not the first child, nor the first node behind
the subtree of an element with children. -/
theorem textContentLengthBeforeNode_correct_iff (cocoa : Cocoa) (hself : self ∈ w.trees.ids)
    (hx : ExplicitSpace (w.children self)) (hfits : (text (w.children self)).length < nsNotFound)
    (hfuel : (w.children self).ids.length < fuel) (anchor : NodeID) :
    exec (textContentLengthBeforeNode cocoa fuel self anchor) w =
        some (.ok (lengthBeforeNode w self anchor, w)) ↔
      w.firstChild self ≠ some anchor ∧
        (w.firstChild self = none ∨ w.nextNodeOutside self ≠ some anchor) := by
  obtain ⟨n, h⟩ := exists_find?_of_mem hself
  rw [World.children_of_node? h] at hx hfits hfuel
  rw [exec_textContentLengthBeforeNode cocoa h hx hfuel, w.firstChild_of_node? h, lengthBeforeNode,
    World.children_of_node? h]
  have hlt : (textBefore n.children anchor).length ≠ nsNotFound := by
    have := textBefore_length_le n.children anchor
    omega
  have hout : w.nextNodeOutside self = some anchor → anchor ∉ n.children.ids :=
    w.nextNodeOutside_notMem h
  have hnd : n.children.ids.Nodup := (children_nodup w.nodup h).1
  cases hids : n.children.ids with
  | nil => simp
  | cons d ds =>
    rw [hids] at hout hnd
    rw [nodup_cons] at hnd
    simp only [mem_cons, not_or] at hout ⊢
    by_cases h1 : d = anchor
    · subst h1
      have h2 : ¬ w.nextNodeOutside self = some d := fun h2 => (hout h2).1 rfl
      simp [hnd.1, h2, hlt.symm]
    · by_cases h2 : w.nextNodeOutside self = some anchor
      · simp [h1, hlt, hout h2]
      · simp [h1, h2, Ne.symm h1]

end Methods

/-- `<div><p>ab<i>cd</i></p><b></b></div>` -/
def sampleDivision : World where
  trees := .branch 0 (plainTag (literal "div") [])
    (.branch 1 (plainTag (literal "p") []) (.leaf 2 (.text (literal "ab"))
        (.branch 3 (plainTag (literal "i") []) (.leaf 4 (.text (literal "cd")) .nil) .nil))
      (.branch 5 (plainTag (literal "b") []) .nil .nil)) .nil
  nodup := by decide

theorem textContentLengthBeforeNode_inner :
    exec (textContentLengthBeforeNode .inert 4 1 4) sampleDivision =
      some (.ok (2, sampleDivision)) :=
  (textContentLengthBeforeNode_correct_iff (w := sampleDivision) .inert (by decide) (by decide)
    (by decide) (by decide) 4).2 (by decide)

/-- The first child is not found, the node behind the subtree is. -/
theorem textContentLengthBeforeNode_wrong :
    (exec (textContentLengthBeforeNode .inert 4 1 2) sampleDivision =
        some (.ok (nsNotFound, sampleDivision)) ∧ lengthBeforeNode sampleDivision 1 2 = 0) ∧
      exec (textContentLengthBeforeNode .inert 4 1 5) sampleDivision =
        some (.ok (4, sampleDivision)) ∧ lengthBeforeNode sampleDivision 1 5 = nsNotFound := by
  decide

end Feather.XML
