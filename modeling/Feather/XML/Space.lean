import Feather.XML.Traversal

/-!
# Making preserved space explicit

`enforceExplicitPreservedSpace` is called by nearly every other method.  It collects the elements
below the receiver that carry implicit space and replaces each by text nodes of spaces around a
newly parsed copy.  On a subtree without implicit space it does nothing.
-/

namespace Feather.XML

open OrderedTree Forest Program

/-- Does a node carry implicit space? -/
def hasImplicitSpace : Label → Bool
  | .inl t => decide (0 < t.startWhitespace ∨ 0 < t.endWhitespace)
  | .inr _ => false

/-- No node of the forest carries implicit space. -/
def ExplicitSpace (f : Nodes) : Prop := ∀ b ∈ f.labels, hasImplicitSpace b = false

instance (f : Nodes) : Decidable (ExplicitSpace f) :=
  inferInstanceAs (Decidable (∀ b ∈ f.labels, hasImplicitSpace b = false))

/-- One element to fix: `@[@(l), node, @(t)]`. -/
structure SpaceFix where
  leading : ℕ
  element : NodeID
  trailing : ℕ
  deriving DecidableEq, Repr

/-- The visitor that collects the elements with implicit leading or trailing space. -/
def collectSpaceFix (node : Node Tag Content) (fixes : List SpaceFix) : List SpaceFix × Bool :=
  if kind node.label = .element then
    let l := leadingWhitespaceLength node
    let t := trailingWhitespaceLength node
    if 0 < l ∨ 0 < t then (fixes ++ [⟨l, node.id, t⟩], true) else (fixes, true)
  else (fixes, true)

/-- The elements to fix below the receiver. -/
def spaceFixes (self : Node Tag Content) : List SpaceFix :=
  visitAllNodesInSubtree self collectSpaceFix []

/-- Replace one element.  A failing parser answers `nil`, which cannot be inserted; messages to a
missing parent have no effect. -/
def applySpaceFix (cocoa : Cocoa) (fix : SpaceFix) : Action Unit := do
  let w ← get
  match w.parent? fix.element with
  | none => pure ()
  | some parentElement => do
    let i := (indexOfObject (w.children parentElement).rootIDs fix.element).getD nsNotFound
    if 0 < fix.leading then do
      let leadingTextNode ← textWithStringValue (spaces fix.leading)
      insertChild parentElement leadingTextNode i
    else pure ()
    let w ← get
    let trimmedXMLString := stringByTrimmingWhitespace (w.xmlString fix.element)
    match xmlElementFromString cocoa trimmedXMLString with
    | none => do
      let _ ← removeChild parentElement fix.element
      throw .invalidArgument
    | some (tag, children) => do
      let trimmedElement ← newNode (.branch 0 tag children .nil)
      let _ ← removeChild parentElement fix.element
      insertChild parentElement trimmedElement (i + 1)
      if 0 < fix.trailing then do
        let trailingTextNode ← textWithStringValue (spaces fix.trailing)
        let w ← get
        match w.parent? fix.element with
        | none => pure ()
        | some parent => insertChild parent trailingTextNode (i + 2)
      else pure ()

/-- `for (NSArray *fix in fixes)` -/
def applySpaceFixes (cocoa : Cocoa) : List SpaceFix → Action Unit
  | [] => pure ()
  | fix :: fixes => do
    applySpaceFix cocoa fix
    applySpaceFixes cocoa fixes

/-- `-enforceExplicitPreservedSpace` -/
def enforceExplicitPreservedSpace (cocoa : Cocoa) (self : NodeID) : Action Unit := do
  let w ← get
  match w.node? self with
  | none => pure ()
  | some n => applySpaceFixes cocoa (spaceFixes n)

/-! ### Which elements are collected -/

/-- The fix of an entry of a listing. -/
def spaceFix? (e : Entry Tag Content) : Option SpaceFix :=
  match e.label with
  | .inl t =>
    if 0 < t.startWhitespace ∨ 0 < t.endWhitespace then
      some ⟨t.startWhitespace, e.id, t.endWhitespace⟩
    else none
  | .inr _ => none

theorem spaceFix?_eq_none {e : Entry Tag Content} :
    spaceFix? e = none ↔ hasImplicitSpace e.label = false := by
  unfold spaceFix? hasImplicitSpace
  rcases e.label with t | c <;> simp

theorem collectSpaceFix_eq (node : Node Tag Content) (fixes : List SpaceFix) :
    collectSpaceFix node fixes =
      (fixes ++ (spaceFix? ⟨0, node.id, node.label⟩).toList, true) := by
  unfold collectSpaceFix spaceFix?
  cases hl : node.label with
  | inl t =>
    simp only [kind, leadingWhitespaceLength_eq hl, trailingWhitespaceLength_eq hl]
    split_ifs <;> simp
  | inr c => cases c <;> simp [kind]

theorem spaceFixes_eq (self : Node Tag Content) (k : ℕ) :
    spaceFixes self = (self.children.entries k).filterMap spaceFix? := by
  have hvis : collectSpaceFix =
      fun node fixes => (fixes ++ (spaceFix? ⟨0, node.id, node.label⟩).toList, true) :=
    funext fun node => funext fun fixes => collectSpaceFix_eq node fixes
  rw [spaceFixes, visitAllNodesInSubtree_eq_scan, hvis,
    scan_nodes (fun p fixes => (fixes ++ (spaceFix? ⟨0, p.1, p.2⟩).toList, true)) k,
    scan_collect (fun e : Entry Tag Content => spaceFix? ⟨0, e.id, e.label⟩)]
  rfl

theorem spaceFixes_of_explicitSpace {self : Node Tag Content} (h : ExplicitSpace self.children) :
    spaceFixes self = [] := by
  rw [spaceFixes_eq self 0, List.filterMap_eq_nil_iff]
  intro e he
  rw [spaceFix?_eq_none]
  refine h _ ?_
  rw [← map_label_entries 0]
  exact List.mem_map_of_mem he

/-- Where all space is explicit there is nothing to do. -/
theorem exec_enforceExplicitPreservedSpace (cocoa : Cocoa) {w : World} {self : NodeID}
    (h : ExplicitSpace (w.children self)) :
    exec (enforceExplicitPreservedSpace cocoa self) w = some (.ok ((), w)) := by
  unfold enforceExplicitPreservedSpace
  cases hn : w.node? self with
  | none => simp [hn]
  | some n =>
    have : w.children self = n.children := by simp [World.children, hn]
    simp [hn, spaceFixes_of_explicitSpace (this ▸ h), applySpaceFixes]

end Feather.XML
