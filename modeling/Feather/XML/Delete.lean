import Feather.XML.TextOffset

/-!
# Deleting text up to or from an offset

`deleteTextUpToOffset` removes the text of an ancestor element in front of an offset within the
receiver, and `deleteTextFromOffset` the text behind it.

The first detaches nodes while it walks, and then walks again and again to detach elements without
children until a pass changes nothing.  On the listing a pass is `prune`; each that changes
something shortens the listing, and they end in a rising chain of levels, the ancestors of the cut
node.
-/

namespace Feather.XML

open OrderedTree Forest Program Option
open List hiding append_nil nil_append

variable {w : World} {r d fuel i : ℕ} {b : Label} {c : Entry Tag Content} {A R Y : Listing}

/-! ### Up to an offset -/

/-- One iteration of the loop that deletes the text nodes in front of the one to split. -/
def deletePrecedingStep (root textNodeToSplit : NodeID) :
    Option NodeID × ℕ → Action ((Option NodeID × ℕ) ⊕ ℕ)
  | (none, deletedLength) => pure (.inr deletedLength)
  | (some node, deletedLength) => do
    let w ← get
    if w.level (some root) < w.level (some node) ∧ node ≠ textNodeToSplit then
      let nextNode := w.nextNode node
      if w.kind? node = some .text then do
        set (w.detach node)
        pure (.inl (nextNode, deletedLength + (w.stringValue node).length))
      else if w.kind? node = some .element then
        -- implicit space around the element counts as deleted
        let s := w.xmlString node
        let trimmedLength := (stringByTrimmingWhitespace s).length
        if trimmedLength < s.length then
          pure (.inl (nextNode, deletedLength + (s.length - trimmedLength)))
        else pure (.inl (nextNode, deletedLength))
      else pure (.inl (nextNode, deletedLength))
    else pure (.inr deletedLength)

/-- One iteration of a pass that detaches elements without children. -/
def detachEmptyStep (root textNodeToSplit : NodeID) :
    Option NodeID × Bool → Action ((Option NodeID × Bool) ⊕ Bool)
  | (none, didDetach) => pure (.inr didDetach)
  | (some node, didDetach) => do
    let w ← get
    if w.level (some root) < w.level (some node) ∧ node ≠ textNodeToSplit then
      let nextNode := w.nextNode node
      if w.kind? node = some .element ∧ (w.children node).rootIDs.length = 0 then do
        set (w.detach node)
        pure (.inl (nextNode, true))
      else pure (.inl (nextNode, didDetach))
    else pure (.inr didDetach)

/-- The passes: repeat until there are no further detachments. -/
def detachEmptyPass (fuel : ℕ) (root textNodeToSplit : NodeID) (_ : Unit) :
    Action (Unit ⊕ Unit) := do
  let w ← get
  let didDetach ← loop (detachEmptyStep root textNodeToSplit) fuel (w.firstChild root, false)
  if didDetach then pure (.inl ()) else pure (.inr ())

/-- Split the text node and keep what follows. -/
def cutUpTo (textNodeToSplit : NodeID) (splitOffset : ℤ) (deletedLength : ℕ) : Action ℕ := do
  if mpTextContentOffsetBeginning < splitOffset then do
    let w ← get
    let s ← substringFromIndex (w.stringValue textNodeToSplit) (asUnsigned splitOffset)
    set (w.setStringValue textNodeToSplit s)
    pure (deletedLength + asUnsigned splitOffset)
  else pure deletedLength

/-- `-deleteTextUpToOffset:fromBeginningOfAncestorElement:`, once the text node to split is known -/
def deleteUpToTextNode (fuel : ℕ) (root textNodeToSplit : NodeID) (splitOffset : ℤ) :
    Action ℕ := do
  let w ← get
  let deletedLength ← loop (deletePrecedingStep root textNodeToSplit) fuel (w.firstChild root, 0)
  let deletedLength ← cutUpTo textNodeToSplit splitOffset deletedLength
  loop (detachEmptyPass fuel root textNodeToSplit) fuel ()
  pure deletedLength

/-- `-deleteTextUpToOffset:fromBeginningOfAncestorElement:` -/
def deleteTextUpToOffset (cocoa : Cocoa) (fuel : ℕ) (self : NodeID) (offset : ℤ)
    (rootElement : Option NodeID) : Action ℕ := do
  match rootElement with
  | none => pure ()
  | some root => enforceExplicitPreservedSpace cocoa root
  let root := rootElement.getD self
  let (textNodeToSplit, splitOffset) ← textNodeAtOffset cocoa self offset nsNotFound
  match textNodeToSplit with
  | none => pure 0
  | some textNodeToSplit =>
    if splitOffset = nsNotFound then pure 0
    else deleteUpToTextNode fuel root textNodeToSplit splitOffset

/-! ### From an offset -/

/-- The visitor that collects what follows the text node to split, with its variables. -/
def collectTail (textNodeToSplit : NodeID) (node : Node Tag Content) :
    List NodeID × ℕ → (List NodeID × ℕ) × Bool
  | (nodesToDetach, deletedLength) =>
    if node.id = textNodeToSplit then ((nodesToDetach, deletedLength), true)
    else if kind node.label = .text then
      ((nodesToDetach ++ [node.id], deletedLength + (stringValue node).length), true)
    else ((nodesToDetach ++ [node.id], deletedLength), true)

/-- `for (NSXMLNode *node in nodesToDetach) [node detach]` -/
def detachAll (w : World) (nodesToDetach : List NodeID) : World :=
  nodesToDetach.foldl World.detach w

/-- Split the text node and keep what comes before. -/
def cutFrom (textNodeToSplit : NodeID) (splitOffset : ℤ) (deletedLength : ℕ) : Action ℕ := do
  if mpTextContentOffsetBeginning < splitOffset then do
    let w ← get
    let oldLength := (w.stringValue textNodeToSplit).length
    let s ← substringToIndex (w.stringValue textNodeToSplit) (asUnsigned splitOffset)
    set (w.setStringValue textNodeToSplit s)
    pure (deletedLength + (oldLength - s.length))
  else pure deletedLength

/-- `-deleteTextFromOffset:toEndOfAncestorElement:`, once the text node to split is known -/
def deleteFromTextNode (root textNodeToSplit : NodeID) (splitOffset : ℤ) : Action ℕ := do
  let w ← get
  let (nodesToDetach, deletedLength) :=
    match w.node? root with
    | none => ([], 0)
    | some n =>
      visitNodesInSubtreeStartingFrom n textNodeToSplit (collectTail textNodeToSplit) ([], 0)
  let deletedLength ← cutFrom textNodeToSplit splitOffset deletedLength
  modify fun w => detachAll w nodesToDetach
  pure deletedLength

/-- `-deleteTextFromOffset:toEndOfAncestorElement:` -/
def deleteTextFromOffset (cocoa : Cocoa) (fuel : ℕ) (self : NodeID) (offset : ℤ)
    (rootElement : Option NodeID) : Action ℕ := do
  match rootElement with
  | none => pure ()
  | some root => enforceExplicitPreservedSpace cocoa root
  let root := rootElement.getD self
  let (textNodeToSplit, splitOffset) ← textNodeAtOffset cocoa self offset nsNotFound
  match textNodeToSplit with
  | none => pure 0
  | some textNodeToSplit =>
    if splitOffset = nsNotFound then pure 0
    else do
      let length ← textContentLength cocoa fuel self
      if length < asUnsigned splitOffset then pure 0
      else deleteFromTextNode root textNodeToSplit splitOffset

/-! ### The walk that deletes text -/

section Preceding

variable {w : World} {root cut : NodeID} {r : ℕ} {X Y : Listing} {e : Entry Tag Content}

attribute [local simp] deletePrecedingStep

theorem deletePrecedingStep_cut (d : ℕ) :
    exec (deletePrecedingStep root cut (some cut, d)) w = some (.ok (.inr d, w)) := by
  simp

theorem deletePrecedingStep_text (hr : w.level (some root) = r)
    (h : w.trees.entries 0 = X ++ e :: Y) (he : r < e.level) (hc : e.id ≠ cut) {s : NSString}
    (hs : e.label = .inr (.text s)) (d : ℕ) :
    exec (deletePrecedingStep root cut (some e.id, d)) w =
      some (.ok (.inl (cursor Y, d + s.length), w.detach e.id)) := by
  simp [hr, w.level_of_entries h, he, hc, w.kind?_of_entries h, hs, kind,
    w.stringValue_of_entries h hs, w.nextNode_of_entries h]

theorem deletePrecedingStep_other (hr : w.level (some root) = r)
    (h : w.trees.entries 0 = X ++ e :: Y) (he : r < e.level) (hc : e.id ≠ cut) {k : OtherKind}
    {s : NSString} (hs : e.label = .inr (.other k s)) (d : ℕ) :
    exec (deletePrecedingStep root cut (some e.id, d)) w =
      some (.ok (.inl (cursor Y, d), w)) := by
  simp [hr, w.level_of_entries h, he, hc, w.kind?_of_entries h, hs, kind, w.nextNode_of_entries h]

theorem deletePrecedingStep_element (hr : w.level (some root) = r)
    (h : w.trees.entries 0 = X ++ e :: Y) (he : r < e.level) (hc : e.id ≠ cut) {t : Tag}
    (ht : e.label = .inl t) (hx : hasImplicitSpace e.label = false) (d : ℕ) :
    exec (deletePrecedingStep root cut (some e.id, d)) w =
      some (.ok (.inl (cursor Y, d), w)) := by
  obtain ⟨n, hn, hl⟩ := find?_label_of_entries w.nodup h
  have htrim : stringByTrimmingWhitespace (w.xmlString e.id) = w.xmlString e.id := by
    have hspa : t.startWhitespace = 0 ∧ t.endWhitespace = 0 := by
      simpa [hasImplicitSpace, ht] using hx
    rw [World.xmlString, World.node?, hn, map_some, getD_some,
      stringByTrimmingWhitespace_tree (hl.trans ht), xmlString_tree (hl.trans ht), hspa.1, hspa.2]
    simp [spaces]
  simp [hr, w.level_of_entries h, he, hc, w.kind?_of_entries h, ht, kind, htrim, w.nextNode_of_entries h]

end Preceding

/-- The walk deletes the text nodes of `R`, between the root element and the node to split, and puts
them behind everything. -/
theorem exec_deletePreceding {root : NodeID} {X : Listing}
    (h : w.trees.entries 0 = A ++ ⟨r, root, b⟩ :: (X ++ (R ++ c :: Y)))
    (hR : ∀ e ∈ R, r < e.level ∧ hasImplicitSpace e.label = false) (hc : 0 < c.level)
    (hfuel : R.length < fuel) :
    ∃ w' Z, exec (loop (deletePrecedingStep root c.id) fuel (cursor (R ++ c :: Y), d)) w =
        some (.ok (d + (listingText R).length, w')) ∧
      w'.trees.entries 0 = A ++ ⟨r, root, b⟩ ::
        (X ++ (R.filter (fun e => !isText e) ++ c :: (Y ++ Z))) ∧ (∀ z ∈ Z, z.level = 0) ∧
      ((∀ e ∈ R, isText e = false) → w' = w) := by
  induction R generalizing w X Y d fuel with
  | nil =>
    obtain ⟨fuel, rfl⟩ := exists_fuel hfuel
    refine ⟨w, [], ?_, by simpa using h, by simp, fun _ => rfl⟩
    rw [List.nil_append, cursor_cons hc, exec_loop_done (deletePrecedingStep_cut d)]
    simp
  | cons e R ih =>
    obtain ⟨fuel, rfl⟩ := exists_fuel hfuel
    obtain ⟨he, hx⟩ := hR e (by simp)
    have hR' : ∀ e ∈ R, r < e.level ∧ hasImplicitSpace e.label = false :=
      fun d hd => hR d (by simp [hd])
    have hroot : w.level (some root) = r := w.level_of_entries h
    have hw : w.trees.entries 0 = (A ++ ⟨r, root, b⟩ :: X) ++ e :: (R ++ c :: Y) := by rw [h]; simp
    have hec : e.id ≠ c.id := w.id_ne_of_entries hw
    rw [length_cons] at hfuel
    rw [cons_append, cursor_cons (by omega)]
    by_cases htext : isText e = true
    · -- a text node is detached
      obtain ⟨s, hl⟩ := isText_iff.1 htext
      rw [exec_loop_next (deletePrecedingStep_text hroot hw he hec hl d)]
      have hdet := w.entries_detach hw (w.closes_of_content hw hl)
      obtain ⟨w', Z, hrun, hw', hZ, -⟩ := ih (w := w.detach e.id) (X := X)
        (Y := Y ++ [⟨0, e.id, e.label⟩]) (d := d + s.length) (by rw [hdet]; simp) hR'
        (show R.length < fuel by omega)
      refine ⟨w', ⟨0, e.id, e.label⟩ :: Z, ?_, ?_, by simpa using hZ, fun hno => ?_⟩
      · rw [cursor_append_cons] at hrun ⊢
        rw [hrun]
        simp [hl, ownText, Nat.add_assoc]
      · rw [hw']
        simp [isText, hl, kind]
      · have := hno e (by simp)
        simp [isText, hl, kind] at this
    · -- other nodes stay where they are
      rw [Bool.not_eq_true] at htext
      have hstep : exec (deletePrecedingStep root c.id (some e.id, d)) w =
          some (.ok (.inl (cursor (R ++ c :: Y), d), w)) := by
        rcases hl : e.label with t | s | ⟨k, s⟩
        · exact deletePrecedingStep_element hroot hw he hec hl hx d
        · simp [isText, hl, kind] at htext
        · exact deletePrecedingStep_other hroot hw he hec hl d
      rw [exec_loop_next hstep]
      obtain ⟨w', Z, hrun, hw', hZ, hsame⟩ := ih (w := w) (X := X ++ [e]) (Y := Y) (d := d)
        (by rw [h]; simp) hR' (show R.length < fuel by omega)
      refine ⟨w', Z, ?_, ?_, hZ, fun hno => hsame fun d hd => hno d (by simp [hd])⟩
      · rw [hrun]
        simp [ownText_of_not_isText htext]
      · rw [hw']
        simp [htext]

/-! ### The passes that detach empty elements -/

/-- The level of the entry that comes next when `R` is followed by `c`. -/
def nextLevel (c : Entry Tag Content) : Listing → ℕ
  | [] => c.level
  | d :: _ => d.level

/-- What a pass leaves in front of `c`: everything but elements not followed by a deeper entry. -/
def prune (c : Entry Tag Content) : Listing → Listing
  | [] => []
  | e :: R =>
    if kind e.label = .element ∧ nextLevel c R ≤ e.level then prune c R else e :: prune c R

theorem prune_sublist (c : Entry Tag Content) (R : Listing) : (prune c R).Sublist R := by
  induction R with
  | nil => exact List.Sublist.refl _
  | cons e R ih =>
    rw [prune]
    split_ifs
    · exact ih.cons e
    · exact ih.cons_cons e

theorem length_prune_lt (h : prune c R ≠ R) : (prune c R).length < R.length :=
  lt_of_le_of_ne (prune_sublist c R).length_le
    fun hlen => h ((prune_sublist c R).eq_of_length hlen)

theorem prune_ne_cons (c e : Entry Tag Content) (R : Listing) : prune c R ≠ e :: R := fun h => by
  have := (prune_sublist c R).length_le
  rw [h, length_cons] at this
  omega

/-- Where a pass changes nothing, elements are followed by deeper entries. -/
theorem prune_cons_eq_iff {e : Entry Tag Content} : prune c (e :: R) = e :: R ↔
    (kind e.label = .element → e.level < nextLevel c R) ∧ prune c R = R := by
  rw [prune]
  split_ifs with h
  · simp [prune_ne_cons]
    exact fun hlt => absurd (hlt h.1) (by omega)
  · rw [not_and, not_le] at h
    rw [cons.injEq]
    exact ⟨fun hR => ⟨h, hR.2⟩, fun hR => ⟨rfl, hR.2⟩⟩

theorem prune_eq_iff : prune c R = R ↔
    ∀ X e Y, R = X ++ e :: Y → kind e.label = .element → e.level < nextLevel c Y := by
  induction R with
  | nil => simp [prune]
  | cons d R ih =>
    rw [prune_cons_eq_iff, ih]
    constructor
    · rintro ⟨hd, hR⟩ X e Y heq hk
      cases X with
      | nil =>
        obtain ⟨rfl, rfl⟩ := cons.inj heq
        exact hd hk
      | cons x X => exact hR X e Y (cons.inj heq).2 hk
    · exact fun h => ⟨h [] d R rfl, fun X e Y heq => h (d :: X) e Y (by rw [heq]; rfl)⟩

theorem isChain_of_prune_eq (hR : ∀ e ∈ R, kind e.label = .element) (h : prune c R = R) :
    (R ++ [c]).IsChain fun a b => a.level < b.level := by
  induction R with
  | nil => simp
  | cons e R ih =>
    obtain ⟨hlt, h⟩ := prune_cons_eq_iff.1 h
    have hR' := ih (fun d hd => hR d (by simp [hd])) h
    have hlt := hlt (hR e (by simp))
    cases R with
    | nil => simpa [nextLevel] using hlt
    | cons d R => exact isChain_cons_cons.2 ⟨hlt, hR'⟩

theorem closes_iff_nextLevel_le {l : ℕ} : Closes l (R ++ c :: Y) ↔ nextLevel c R ≤ l := by
  cases R <;> simp [Closes, nextLevel]

section Empty

variable {w : World} {root cut : NodeID} {r : ℕ} {X Y : Listing} {e : Entry Tag Content}

theorem detachEmptyStep_cut (did : Bool) :
    exec (detachEmptyStep root cut (some cut, did)) w = some (.ok (.inr did, w)) := by
  simp [detachEmptyStep]

theorem detachEmptyStep_eq (hr : w.level (some root) = r)
    (h : w.trees.entries 0 = X ++ e :: Y) (he : r < e.level) (hc : e.id ≠ cut) (did : Bool) :
    (kind e.label = .element ∧ Closes e.level Y →
      exec (detachEmptyStep root cut (some e.id, did)) w =
        some (.ok (.inl (cursor Y, true), w.detach e.id))) ∧
    (¬ (kind e.label = .element ∧ Closes e.level Y) →
      exec (detachEmptyStep root cut (some e.id, did)) w =
        some (.ok (.inl (cursor Y, did), w))) := by
  obtain ⟨n, hn, -⟩ := find?_label_of_entries w.nodup h
  have hcs : (w.children e.id).rootIDs = [] ↔ Closes e.level Y := by
    rw [World.children_of_node? hn, ← children_eq_nil_iff_closes w.nodup h hn]
    cases n.children <;> simp
  have hcond : (w.kind? e.id = some .element ∧ (w.children e.id).rootIDs.length = 0) ↔
      (kind e.label = .element ∧ Closes e.level Y) := by
    rw [w.kind?_of_entries h, length_eq_zero_iff, hcs, some.injEq]
  constructor
  · intro hY
    simp only [detachEmptyStep, exec_bind, exec_get, andThen_ok, hr, w.level_of_entries h, he, hc, ne_eq,
      not_false_eq_true, and_self, if_true, if_pos (hcond.2 hY), exec_set, exec_pure,
      w.nextNode_of_entries h]
  · intro hY
    simp only [detachEmptyStep, exec_bind, exec_get, andThen_ok, hr, w.level_of_entries h, he, hc, ne_eq,
      not_false_eq_true, and_self, if_true, if_neg (mt hcond.1 hY), exec_pure,
      w.nextNode_of_entries h]

end Empty

theorem exec_detachEmpty {root : NodeID} {X : Listing}
    (h : w.trees.entries 0 = A ++ ⟨r, root, b⟩ :: (X ++ (R ++ c :: Y))) (hR : ∀ e ∈ R, r < e.level)
    (hc : 0 < c.level) (hfuel : R.length < fuel) (did : Bool) :
    ∃ w' Z, exec (loop (detachEmptyStep root c.id) fuel (cursor (R ++ c :: Y), did)) w =
        some (.ok (did || decide (prune c R ≠ R), w')) ∧
      w'.trees.entries 0 = A ++ ⟨r, root, b⟩ :: (X ++ (prune c R ++ c :: (Y ++ Z))) ∧
      (∀ z ∈ Z, z.level = 0) ∧ (prune c R = R → w' = w) := by
  induction R generalizing w X Y fuel did with
  | nil =>
    obtain ⟨fuel, rfl⟩ := exists_fuel hfuel
    refine ⟨w, [], ?_, by simpa [prune] using h, by simp, fun _ => rfl⟩
    rw [List.nil_append, cursor_cons hc, exec_loop_done (detachEmptyStep_cut did)]
    simp [prune]
  | cons e R ih =>
    obtain ⟨fuel, rfl⟩ := exists_fuel hfuel
    have he := hR e (by simp)
    have hR' : ∀ e ∈ R, r < e.level := fun d hd => hR d (by simp [hd])
    have hw : w.trees.entries 0 = (A ++ ⟨r, root, b⟩ :: X) ++ e :: (R ++ c :: Y) := by rw [h]; simp
    obtain ⟨hemp, hkeep⟩ := detachEmptyStep_eq (w.level_of_entries h) hw he
      (w.id_ne_of_entries hw) did
    rw [closes_iff_nextLevel_le] at hemp hkeep
    rw [length_cons] at hfuel
    rw [cons_append, cursor_cons (by omega)]
    by_cases hle : kind e.label = .element ∧ nextLevel c R ≤ e.level
    · have hdet := w.entries_detach hw (closes_iff_nextLevel_le.2 hle.2)
      have hne := prune_ne_cons c e R
      obtain ⟨w', Z, hrun, hw', hZ, -⟩ := ih (w := w.detach e.id) (X := X)
        (Y := Y ++ [⟨0, e.id, e.label⟩]) (by rw [hdet]; simp) hR' (show R.length < fuel by omega) true
      rw [prune, if_pos hle]
      refine ⟨w', ⟨0, e.id, e.label⟩ :: Z, ?_, ?_, by simpa using hZ, fun heq => absurd heq hne⟩
      · rw [cursor_append_cons] at hrun hemp
        rw [exec_loop_next (hemp hle), hrun]
        simp [hne]
      · rw [hw']
        simp
    · obtain ⟨w', Z, hrun, hw', hZ, hsame⟩ := ih (w := w) (X := X ++ [e]) (Y := Y)
        (by rw [h]; simp) hR' (show R.length < fuel by omega) did
      rw [prune, if_neg hle]
      refine ⟨w', Z, ?_, ?_, hZ, fun heq => hsame (cons.inj heq).2⟩
      · rw [exec_loop_next (hkeep hle), hrun]
        simp
      · rw [hw']
        simp

/-- The passes end, and there is nothing left for another one. -/
theorem exec_detachEmptyPasses {root : NodeID}
    (h : w.trees.entries 0 = A ++ ⟨r, root, b⟩ :: (R ++ c :: Y)) (hR : ∀ e ∈ R, r < e.level)
    (hc : r < c.level) {passes : ℕ} (hfuel : R.length < fuel) (hpas : R.length < passes) :
    ∃ w' R' Z, exec (loop (detachEmptyPass fuel root c.id) passes ()) w = some (.ok ((), w')) ∧
      w'.trees.entries 0 = A ++ ⟨r, root, b⟩ :: (R' ++ c :: (Y ++ Z)) ∧ R'.Sublist R ∧
      prune c R' = R' ∧ (∀ z ∈ Z, z.level = 0) ∧ (prune c R = R → w' = w) := by
  induction passes generalizing w R Y with
  | zero => omega
  | succ passes ih =>
    have hfst : w.firstChild root = cursor (R ++ c :: Y) := by
      cases R with
      | nil => exact w.firstChild_of_entries h hc
      | cons d R => exact w.firstChild_of_entries h (hR d (by simp))
    obtain ⟨w1, Z1, hrun, hw1, hZ1, hsame⟩ := exec_detachEmpty (X := []) h hR (by omega) hfuel false
    have hpass : exec (detachEmptyPass fuel root c.id ()) w =
        some (.ok (if prune c R ≠ R then .inl () else .inr (), w1)) := by
      rw [detachEmptyPass, exec_get_bind, hfst, exec_bind, hrun]
      by_cases hp : prune c R = R <;> simp [hp]
    by_cases hp : prune c R = R
    · -- nothing was detached: the last pass
      rw [if_neg (by simpa using hp)] at hpass
      refine ⟨w1, R, Z1, exec_loop_done hpass, by simpa [hp] using hw1, List.Sublist.refl R,
        hp, hZ1, fun _ => hsame hp⟩
    · rw [if_pos (by simpa using hp)] at hpass
      have hlt := length_prune_lt hp
      obtain ⟨w', R', Z, hrest, hw', hsub, hch, hZ, -⟩ := ih (w := w1) (R := prune c R)
        (Y := Y ++ Z1) (by simpa using hw1) (fun e he => hR e ((prune_sublist c R).subset he))
        (by omega) (by omega)
      refine ⟨w', R', Z1 ++ Z, ?_, by simpa using hw', hsub.trans (prune_sublist c R), hch, ?_,
        fun heq => absurd heq hp⟩
      · rw [exec_loop_next hpass, hrest]
      · intro z hz
        rcases mem_append.1 hz with hz | hz
        · exact hZ1 z hz
        · exact hZ z hz

/-! ### The result of deleting up to an offset -/

section UpTo

variable {w : World} {root cut : NodeID} {s : NSString}

/-- The text node is cut, unless the cut is at its beginning. -/
theorem exec_cutUpTo {l : ℕ} (hi : i ≤ s.length) (hmax : i ≤ nsIntegerMax)
    (h : w.trees.entries 0 = A ++ ⟨r, root, b⟩ :: (R ++ ⟨l, cut, .inr (.text s)⟩ :: Y)) :
    ∃ w', exec (cutUpTo cut i d) w = some (.ok (d + i, w')) ∧
      w'.trees.entries 0 = A ++ ⟨r, root, b⟩ :: (R ++ ⟨l, cut, .inr (.text (s.drop i))⟩ :: Y) ∧
      (i = 0 → w' = w) := by
  have h' : w.trees.entries 0 = (A ++ ⟨r, root, b⟩ :: R) ++ ⟨l, cut, .inr (.text s)⟩ :: Y := by
    rw [h]
    simp
  rcases Nat.eq_zero_or_pos i with rfl | hpos
  · exact ⟨w, by simp [cutUpTo, mpTextContentOffsetBeginning], by simpa using h, fun _ => rfl⟩
  · have hs : w.stringValue cut = s := w.stringValue_of_entries h' rfl
    refine ⟨w.setStringValue cut (s.drop i), ?_, ?_, by omega⟩
    · simp [cutUpTo, mpTextContentOffsetBeginning, hpos, hs, substringFromIndex,
        asUnsigned_natCast hmax, Nat.not_lt.2 hi]
    · rw [w.entries_setStringValue h']
      simp

/-- The text in front of the cut is gone, and so are the elements that are empty without it. -/
theorem exec_deleteUpToTextNode (p : TextNodePosition w root cut s) (hi : i ≤ s.length)
    (hmax : i ≤ nsIntegerMax) (hx : ExplicitSpace (w.children root))
    (hfuel : (w.children root).ids.length < fuel) :
    ∃ (w' : World) (p' : TextNodePosition w' root cut (s.drop i)),
      exec (deleteUpToTextNode fuel root cut i) w =
        some (.ok ((listingText p.head).length + i, w')) ∧
      p'.tail = p.tail ∧ (∀ e ∈ p'.head, e ∈ p.head ∧ isText e = false) ∧
      prune p'.entry p'.head = p'.head ∧
      (i = 0 → (∀ e ∈ p.head, isText e = false) → prune p.entry p.head = p.head → w' = w) := by
  have hhead : p.head.length < fuel := by
    rw [p.ids_eq] at hfuel
    simp at hfuel
    omega
  have hlev := p.rootLevel_lt_level
  obtain ⟨w1, Z1, hrun₁, hw1, hZ1, hsame₁⟩ := exec_deletePreceding (X := []) (d := 0) p.entries
    (fun e he => ⟨p.lt_level (.inl he), hx _ (p.label_mem he)⟩) (show 0 < p.level by omega) hhead
  obtain ⟨w2, hrun₂, hw2, hsame₂⟩ := exec_cutUpTo (d := 0 + (listingText p.head).length) hi hmax hw1
  have hlen := length_filter_le (fun e => !isText e) p.head
  obtain ⟨w3, R, Z3, hrun₃, hw3, hsub, hpru, hZ3, hsame₃⟩ :=
    exec_detachEmptyPasses (by simpa using hw2)
      (fun e he => p.lt_level (.inl (mem_filter.1 he).1)) hlev
      (show _ < fuel by omega) (show _ < fuel by omega)
  have hZ : ∀ z ∈ Z1 ++ Z3, z.level = 0 := by
    intro z hz
    rcases mem_append.1 hz with hz | hz
    · exact hZ1 z hz
    · exact hZ3 z hz
  have hR : ∀ e ∈ R, e ∈ p.head ∧ isText e = false := fun e he => by
    simpa using mem_filter.1 (hsub.subset he)
  refine ⟨w3, .ofEntries (A := p.before) (B := p.behind ++ (Z1 ++ Z3)) (by simpa using hw3) hlev
    (fun e he => p.lt_level (.inl (hR e he).1)) (fun e he => p.lt_level (.inr he))
    (p.closes.append (closes_of_level_eq_zero hZ _)), ?_, rfl, hR, hpru, ?_⟩
  · rw [deleteUpToTextNode, exec_get_bind, exec_bind, p.firstChild_eq, hrun₁,
      andThen_ok, exec_bind, hrun₂, andThen_ok, exec_bind, hrun₃, andThen_ok, exec_pure, zero_add]
  · intro h0 hno hkept
    have hfil : p.head.filter (fun e => !isText e) = p.head :=
      filter_eq_self.2 fun e he => by simp [hno e he]
    subst h0
    rw [hfil] at hsame₃
    rw [hsame₃ hkept, hsame₂ rfl, hsame₁ hno]

end UpTo

/-- Deleting up to an offset drops the text in front of it, answers its length, and leaves only
ancestors in front of the cut text node. -/
theorem deleteTextUpToOffset_correct (cocoa : Cocoa) {w : World} {root self : NodeID} {n fuel : ℕ}
    (hroot : root ∈ w.trees.ids) (hself : self = root ∨ self ∈ (w.children root).ids)
    (hplain : ElementsAndText (w.children root)) (hx : ExplicitSpace (w.children root))
    (htext : HasText (w.children self)) (hn : n ≤ (text (w.children self)).length)
    (hfits : (text (w.children self)).length < nsIntegerMax)
    (hfuel : (w.children root).ids.length < fuel) :
    ∃ (w' : World) (cut : NodeID) (i : ℕ) (ancestors : List NodeID),
      exec (textNodeAtOffset cocoa self n nsNotFound) w = some (.ok ((some cut, (i : ℤ)), w)) ∧
      exec (deleteTextUpToOffset cocoa fuel self n (some root)) w =
        some (.ok (w.textLengthBefore root self + n, w')) ∧
      text (w'.children root) =
        (text (w.children root)).drop (w.textLengthBefore root self + n) ∧
      cut ∈ (w'.children root).ids ∧ w'.trees.path? cut = some ancestors ∧
      ∀ x ∈ (w'.children root).ids.takeWhile (fun x => decide (x ≠ cut)), x ∈ ancestors := by
  obtain ⟨cut, s, p, i, hlk, hoff, hi, hin, -, -⟩ :=
    exists_textNodePosition cocoa hroot hself hx htext hn hfits nsNotFound
  obtain ⟨w', p', hrun, htail, hkept, hpru, -⟩ :=
    exec_deleteUpToTextNode p hi (by omega) hx hfuel
  have hno : ∀ e ∈ p'.head, isText e = false := fun e he => (hkept e he).2
  have hch := isChain_of_prune_eq (fun e he => by
    rcases hplain _ (p.label_mem (hkept e he).1) with hk | hk
    · exact hk
    · exact absurd (hno e he) (by simp [isText, hk])) hpru
  obtain ⟨ancestors, hpath, hanc⟩ := path?_of_isChain w'.nodup
    (A := p'.before ++ [⟨p'.rootLevel, root, p'.rootLabel⟩]) (C := p'.tail ++ p'.behind)
    (by rw [p'.entries]; simp [TextNodePosition.entry]) hch
  refine ⟨w', cut, i, ancestors, hlk, ?_, ?_, by simp [p'.ids_eq], hpath, ?_⟩
  · have hne : (i : ℤ) ≠ nsNotFound := by
      unfold nsNotFound
      omega
    simp only [deleteTextUpToOffset, exec_bind, exec_enforceExplicitPreservedSpace cocoa hx,
      andThen_ok, hlk, if_neg hne, getD_some, hrun, hoff]
  · rw [p'.text_eq, p.text_eq, listingText_of_not_isText hno, htail, ← hoff, List.nil_append,
      drop_length_add_append, drop_append_of_le_length hi]
  · intro x hx
    rw [p'.takeWhile_ids] at hx
    obtain ⟨e, he, rfl⟩ := mem_map.1 hx
    exact hanc e he

/-- In `<div><p>ab<i>cd</i></p><b></b></div>`, one unit into the inner element. -/
theorem deleteTextUpToOffset_inner :
    ∃ w', exec (deleteTextUpToOffset .inert 7 3 1 (some 0)) sampleDivision = some (.ok (3, w')) ∧
      text (w'.children 0) = literal "d" := by
  obtain ⟨w', -, -, -, -, hrun, htext, -⟩ := @deleteTextUpToOffset_correct .inert sampleDivision 0 3
    1 7 (by decide) (by decide) (by decide) (by decide) (by decide) (by decide) (by decide)
    (by decide)
  exact ⟨w', hrun, htext⟩

/-! ### The result of deleting from an offset -/

section From

variable {w : World} {root cut : NodeID} {s : NSString}

/-- What the visitor does to a node of given identity and label. -/
def collectEntry (cut : NodeID) (e : ℕ × Label) (acc : List NodeID × ℕ) :
    (List NodeID × ℕ) × Bool :=
  if e.1 = cut then (acc, true) else ((acc.1 ++ [e.1], acc.2 + (ownText e.2).length), true)

theorem collectTail_eq (cut : NodeID) :
    collectTail cut = fun node => collectEntry cut (node.id, node.label) := by
  funext node ⟨ids, d⟩
  dsimp only [collectTail, collectEntry]
  split_ifs with h hk
  · rfl
  · rw [stringValue_of_kind hk]
  · rw [ownText_of_kind hk]
    rfl

theorem scan_collectEntry (L : Listing) (hL : ∀ e ∈ L, e.id ≠ cut) (acc : List NodeID × ℕ) :
    scan (fun e : Entry Tag Content => collectEntry cut (e.id, e.label)) L acc =
      (acc.1 ++ L.map Entry.id, acc.2 + (listingText L).length) := by
  induction L generalizing acc with
  | nil => simp [scan]
  | cons e L ih =>
    rw [scan, collectEntry, if_neg (hL e (by simp))]
    refine (ih (fun d hd => hL d (by simp [hd])) _).trans ?_
    simp [Nat.add_assoc]

theorem visit_collectTail (p : TextNodePosition w root cut s) {n : Node Tag Content}
    (hn : w.node? root = some n) :
    visitNodesInSubtreeStartingFrom n cut (collectTail cut) ([], 0) =
      (p.tail.map Entry.id, (listingText p.tail).length) := by
  have hids := p.nodup_children
  rw [p.ids_eq, nodup_append, nodup_cons] at hids
  have hhead : ∀ e ∈ p.head, e.id ≠ cut := fun e he heq =>
    hids.2.2 e.id (mem_map_of_mem he) cut (by simp) heq
  have htail : ∀ e ∈ p.tail, e.id ≠ cut := fun e he heq =>
    hids.2.1.1 (mem_map.2 ⟨e, he, heq⟩)
  rw [visitNodesInSubtreeStartingFrom_eq_scan, collectTail_eq,
    scan_nodes_dropWhile (collectEntry cut) (p.rootLevel + 1), ← World.children_of_node? hn,
    p.children, dropWhile_append_of_pos (by simpa using hhead),
    dropWhile_cons_of_neg (by simp), scan, collectEntry, if_pos rfl]
  refine (scan_collectEntry p.tail htail ([], 0)).trans ?_
  simp

theorem trees_detachAll (w : World) (L : List NodeID) :
    (detachAll w L).trees = L.foldl (fun f x => f.detach x) w.trees := by
  induction L generalizing w with
  | nil => rfl
  | cons x L ih => exact ih (w.detach x)

theorem exists_position_detachAll (p : TextNodePosition w root cut s) {L : List NodeID}
    (hL : p.tail.map Entry.id = L) :
    ∃ p' : TextNodePosition (detachAll w L) root cut s, p'.head = p.head ∧ p'.tail = [] := by
  subst hL
  obtain ⟨A, hA⟩ : ∃ A, A = p.before ++ ⟨p.rootLevel, root, p.rootLabel⟩ :: (p.head ++ [p.entry]) :=
    ⟨_, rfl⟩
  have hent : w.trees.entries 0 = A ++ (p.tail ++ p.behind) := by
    rw [p.entries, hA]
    simp [TextNodePosition.entry]
  have hnd := w.nodup
  rw [← map_id_entries 0, hent, map_append, map_append, nodup_append,
    nodup_append] at hnd
  obtain ⟨f, z, hfz, hf⟩ := exists_foldl_detach (z := .nil) (L := p.tail.map Entry.id)
    (by simpa using w.nodup) hent (fun q hq => p.lt_level (.inr hq)) p.closes
    (suffix_refl _) hnd.2.1.1 (fun y hy hmem => by
      rcases mem_append.1 (map_append ▸ hmem) with hA' | hB'
      · exact hnd.2.2 y hA' y (mem_append_left _ hy) rfl
      · exact hnd.2.1.2.2 y hy y hB' rfl)
  have hdet : (detachAll w (p.tail.map Entry.id)).trees.entries 0 =
      p.before ++ ⟨p.rootLevel, root, p.rootLabel⟩ ::
        (p.head ++ p.entry :: ([] ++ (p.behind ++ z.entries 0))) := by
    rw [append_nil] at hfz
    rw [trees_detachAll, hfz, entries_append, hf, hA]
    simp
  exact ⟨.ofEntries hdet p.rootLevel_lt_level (fun e he => p.lt_level (.inl he)) (by simp)
    (p.closes.append ((closes_entries 0 z).mono (Nat.zero_le _))), rfl, rfl⟩

/-- The text node is cut, unless the cut is at its beginning. -/
theorem exec_cutFrom (p : TextNodePosition w root cut s) (hi : i ≤ s.length)
    (hmax : i ≤ nsIntegerMax) :
    ∃ (w' : World) (s' : NSString) (p' : TextNodePosition w' root cut s'),
      exec (cutFrom cut i d) w = some (.ok (d + (if 0 < i then s.length - i else 0), w')) ∧
      s' = (if 0 < i then s.take i else s) ∧ p'.head = p.head ∧ p'.tail = p.tail := by
  have h : w.trees.entries 0 = (p.before ++ ⟨p.rootLevel, root, p.rootLabel⟩ :: p.head) ++
      ⟨p.level, cut, .inr (.text s)⟩ :: (p.tail ++ p.behind) := by
    rw [p.entries]
    simp
  by_cases hpos : 0 < i
  · have hs : w.stringValue cut = s := w.stringValue_of_entries h rfl
    refine ⟨w.setStringValue cut (s.take i), s.take i, .ofEntries (A := p.before)
      (b := p.rootLabel) (P := p.head) (Q := p.tail) ?_ p.rootLevel_lt_level
      (fun e he => p.lt_level (.inl he)) (fun e he => p.lt_level (.inr he)) p.closes, ?_,
      (if_pos hpos).symm, rfl, rfl⟩
    · rw [w.entries_setStringValue h]
      simp
    · simp [cutFrom, mpTextContentOffsetBeginning, hpos, hs, substringToIndex,
        asUnsigned_natCast hmax, Nat.not_lt.2 hi, Nat.min_eq_left hi]
  · exact ⟨w, s, p, by simp [cutFrom, mpTextContentOffsetBeginning, hpos], (if_neg hpos).symm, rfl,
      rfl⟩

/-- Everything behind the text node is gone, and the text node is cut. -/
theorem exec_deleteFromTextNode (p : TextNodePosition w root cut s) (hi : i ≤ s.length)
    (hmax : i ≤ nsIntegerMax) :
    ∃ (w' : World) (s' : NSString) (p' : TextNodePosition w' root cut s'),
      exec (deleteFromTextNode root cut i) w =
        some (.ok ((listingText p.tail).length + (if 0 < i then s.length - i else 0), w')) ∧
      s' = (if 0 < i then s.take i else s) ∧ p'.head = p.head ∧ p'.tail = [] := by
  obtain ⟨n, hn⟩ := exists_find?_of_mem p.root_mem
  obtain ⟨w1, s', p1, hrun, hs', hhead, htail⟩ :=
    exec_cutFrom p (d := (listingText p.tail).length) hi hmax
  obtain ⟨p2, hhead₂, htail₂⟩ := exists_position_detachAll p1 (congrArg _ htail)
  refine ⟨detachAll w1 (p.tail.map Entry.id), s', p2, ?_, hs', hhead₂.trans hhead, htail₂⟩
  have hnode : w.node? root = some n := hn
  rw [deleteFromTextNode, exec_get_bind, hnode]
  simp [visit_collectTail p hnode, hrun]

end From

/-- Deleting from an offset keeps the text in front of it and answers the length of the rest exactly
when the offset is not zero, or its text node is empty: a cut at the beginning of a text node leaves
it as it is. -/
theorem deleteTextFromOffset_correct_iff (cocoa : Cocoa) {w : World} {root self : NodeID}
    {n fuel : ℕ} (hroot : root ∈ w.trees.ids) (hself : self = root ∨ self ∈ (w.children root).ids)
    (hx : ExplicitSpace (w.children root)) (htext : HasText (w.children self))
    (hn : n ≤ (text (w.children self)).length)
    (hfits : (text (w.children self)).length < nsIntegerMax)
    (hfuel : (w.children root).ids.length < fuel) :
    (∃ w', exec (deleteTextFromOffset cocoa fuel self n (some root)) w =
        some (.ok ((text (w.children root)).length - (w.textLengthBefore root self + n), w')) ∧
      text (w'.children root) = (text (w.children root)).take (w.textLengthBefore root self + n)) ↔
      0 < n ∨ firstText? (w.children self) = some [] := by
  obtain ⟨cut, s, p, i, hlk, hoff, hi, hin, hpos, hzero⟩ :=
    exists_textNodePosition cocoa hroot hself hx htext hn hfits nsNotFound
  obtain ⟨w', s', p', hrun, hs', hhead, htail⟩ := exec_deleteFromTextNode p hi (by omega)
  have hexec : exec (deleteTextFromOffset cocoa fuel self n (some root)) w =
      some (.ok ((listingText p.tail).length + (if 0 < i then s.length - i else 0), w')) := by
    obtain ⟨m, hm, hlab, hlen⟩ := w.exists_node_below hroot hself
    have hleng := exec_textContentLength cocoa hm (fun b hb => hx b (hlab hb))
      (show _ < fuel by omega)
    rw [← World.children_of_node? hm] at hleng
    have hne : (i : ℤ) ≠ nsNotFound := by
      unfold nsNotFound
      omega
    have hle : ¬ (text (w.children self)).length < asUnsigned i := by
      rw [asUnsigned_natCast (by omega)]
      omega
    simp only [deleteTextFromOffset, exec_bind, exec_enforceExplicitPreservedSpace cocoa hx,
      andThen_ok, hlk, if_neg hne, hleng, if_neg hle, getD_some, hrun]
  have hnew : text (w'.children root) = listingText p.head ++ s' := by
    rw [p'.text_eq, hhead, htail]
    simp
  -- the outcome is unique, so it is the one just computed
  have hiff : ∀ {d : ℕ} {t : NSString}, (∃ w'', exec (deleteTextFromOffset cocoa fuel self n
      (some root)) w = some (.ok (d, w'')) ∧ text (w''.children root) = t) ↔
      (listingText p.tail).length + (if 0 < i then s.length - i else 0) = d ∧
        listingText p.head ++ s' = t := by
    intro d t
    rw [hexec, ← hnew]
    constructor
    · rintro ⟨w'', h, ht⟩
      simp only [some.injEq, Except.ok.injEq, Prod.mk.injEq] at h
      obtain ⟨hd, rfl⟩ := h
      exact ⟨hd, ht⟩
    · rintro ⟨hd, ht⟩
      exact ⟨w', by rw [hd], ht⟩
  rw [hiff, p.text_eq, ← hoff, take_length_add_append, append_cancel_left_eq, hs']
  simp only [length_append]
  rcases Nat.eq_zero_or_pos n with rfl | hn0
  · obtain rfl : i = 0 := Nat.le_zero.1 hin
    rw [hzero rfl]
    simp only [lt_self_iff_false, if_false, add_zero, take_zero, false_or, some.injEq,
      and_iff_right_iff_imp]
    rintro rfl
    simp
  · have hi0 := hpos hn0
    rw [if_pos hi0, if_pos hi0, take_append_of_le_length hi]
    simp only [and_true]
    omega

theorem deleteTextFromOffset_inner :
    ∃ w', exec (deleteTextFromOffset .inert 7 3 1 (some 0)) sampleDivision = some (.ok (1, w')) ∧
      text (w'.children 0) = literal "abc" :=
  (@deleteTextFromOffset_correct_iff .inert sampleDivision 0 3 1 7 (by decide) (by decide)
    (by decide) (by decide) (by decide) (by decide) (by decide)).2 (by decide)

/-- From the beginning of the inner element: nothing of `abcd` is deleted, though `cd` should be. -/
theorem deleteTextFromOffset_wrong :
    ((exec (deleteTextFromOffset .inert 7 3 0 (some 0)) sampleDivision).map fun outcome =>
        outcome.map fun r => (r.1, text (r.2.children 0))) = some (.ok (0, literal "abcd")) ∧
      (text (sampleDivision.children 0)).take (sampleDivision.textLengthBefore 0 3 + 0) =
        literal "ab" := by
  decide

end Feather.XML
