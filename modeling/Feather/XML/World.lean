import Feather.XML.Foundation

/-!
# The store of XML trees and the operations of `NSXMLNode` and `NSXMLElement`

`World` carries the proof that its nodes are distinct objects, so no object sits in two places.
`Action` is the type of methods: they change the store, may raise, and contain loops.

What the repository calls but does not contain is `Cocoa`: XPath, the XML parser and the test of
Foundation's character sets.
-/

namespace Feather.XML

open OrderedTree Forest Program

/-- `NSException`, by name. -/
inductive NSException
  /-- `NSRangeException` -/
  | range
  /-- `NSInvalidArgumentException` -/
  | invalidArgument
  /-- `NSInternalInconsistencyException`, raised by a failed assertion -/
  | internalInconsistency
  deriving DecidableEq, Repr

/-- `NSError` -/
structure NSError where
  domain : NSString
  code : ℤ
  localizedDescription : NSString
  deriving DecidableEq, Repr

/-- A forest of distinct nodes. -/
structure World where
  trees : Nodes
  nodup : trees.ids.Nodup
  deriving DecidableEq

/-- The framework code behind the extensions. -/
structure Cocoa where
  /-- `-nodesForXPath:error:` on a node of a store -/
  nodesForXPath : World → NodeID → NSString → Except NSError (List NodeID)
  /-- `-initWithXMLString:error:`: the root element of the parsed string, if it can be parsed -/
  initWithXMLString : NSString → Option (Tag × Nodes)
  /-- membership in `+invalidUTF8EncodedXMLCharacters`, a combination of Foundation's sets -/
  invalidUTF8EncodedXMLCharacters : Unichar → Bool
  /-- what a search for a string takes into account -/
  marks : CombiningMarks

/-- A framework whose parser accepts nothing and whose XPath expressions select nothing. -/
def Cocoa.inert : Cocoa := ⟨fun _ _ _ => .ok [], fun _ => none, fun _ => false, .none⟩

/-- Methods. -/
abbrev Action := Prog World NSException

namespace World

variable (w : World)

/-- The node of identity `x`, with its subtree. -/
def node? (x : NodeID) : Option (Node Tag Content) := w.trees.find? x

/-- `-children` -/
def children (x : NodeID) : Nodes := ((w.node? x).map Node.children).getD .nil

/-- `[self.children firstObject]` -/
def firstChild (x : NodeID) : Option NodeID := (w.children x).rootIDs.head?

/-- The kind of a node. -/
def kind? (x : NodeID) : Option Kind := (w.node? x).map fun n => kind n.label

/-- The name of an element. -/
def name (x : NodeID) : NSString :=
  match (w.node? x).map Node.label with
  | some (.inl t) => t.name
  | _ => []

/-- `-stringValue` -/
def stringValue (x : NodeID) : NSString := ((w.node? x).map XML.stringValue).getD []

/-- `-parent` -/
def parent? (x : NodeID) : Option NodeID := w.trees.parent? x

/-- `-level`; a message to `nil` answers zero. -/
def level (x : Option NodeID) : ℕ := (x.map fun x => w.trees.level x).getD 0

/-- `-nextNode` -/
def nextNode (x : NodeID) : Option NodeID := w.trees.next? x

/-- `-XMLString` -/
def xmlString (x : NodeID) : NSString := ((w.node? x).map fun n => XML.xmlString n.tree).getD []

/-- The number of nodes of the store. -/
def size : ℕ := w.trees.ids.length

/-- `-detach` -/
def detach (x : NodeID) : World :=
  ⟨w.trees.detach x, (Forest.ids_detach_perm w.nodup x).nodup_iff.2 w.nodup⟩

/-- `-setStringValue:` of a text node -/
def setStringValue (x : NodeID) (s : NSString) : World :=
  ⟨w.trees.setContent x (.text s), Forest.nodup_setContent w.nodup x _⟩

/-- Put the detached node `c` at index `i` of the children of `p`. -/
def attach (p : NodeID) (i : ℕ) (c : NodeID) : World :=
  ⟨w.trees.attach p i c, Forest.nodup_attach w.nodup p i c⟩

/-- A store with newly made nodes. -/
def add (f : Nodes) : World :=
  ⟨w.trees ++ f.renumber w.trees.fresh, Forest.nodup_append_renumber w.nodup f⟩

end World

/-! ### Operations -/

/-- A newly made node; its identity is new. -/
def newNode (f : Nodes) : Action NodeID := do
  let w ← get
  set (w.add f)
  pure w.trees.fresh

/-- `+textWithStringValue:` -/
def textWithStringValue (s : NSString) : Action NodeID := newNode (.leaf 0 (.text s) .nil)

/-- A new element of a given name with given attributes. -/
def newElement (name : NSString) (attributes : List Attribute) : Action NodeID :=
  newNode (.branch 0 (plainTag name attributes) .nil .nil)

/-- `-insertChild:atIndex:`, within the list, for a child without a parent. -/
def insertChild (p : NodeID) (c : NodeID) (i : ℕ) : Action Unit := do
  let w ← get
  if w.kind? p ≠ some .element ∨ w.parent? c ≠ none then throw .invalidArgument
  else if (w.children p).rootIDs.length < i then throw .range
  else set (w.attach p i c)

/-- `-addChild:` -/
def addChild (p : NodeID) (c : NodeID) : Action Unit := do
  let w ← get
  insertChild p c (w.children p).rootIDs.length

/-- `-removeChildAtIndex:` -/
def removeChildAtIndex (p : NodeID) (i : ℕ) : Action Unit := do
  let w ← get
  match (w.children p).rootIDs[i]? with
  | none => throw .range
  | some c => set (w.detach c)

/-- `-indexOfObject:`; `none` stands for `NSNotFound`. -/
def indexOfObject (objects : List NodeID) (x : NodeID) : Option ℕ :=
  if x ∈ objects then some (objects.idxOf x) else none

/-- `-removeChild:` -/
def removeChild (self node : NodeID) : Action (Option ℕ) := do
  let w ← get
  match indexOfObject (w.children self).rootIDs node with
  | none => pure none
  | some i => do
    removeChildAtIndex self i
    pure (some i)

/-- `-substringToIndex:` -/
def substringToIndex (s : NSString) (i : ℕ) : Action NSString :=
  if s.length < i then throw .range else pure (s.take i)

/-- `-substringFromIndex:` -/
def substringFromIndex (s : NSString) (i : ℕ) : Action NSString :=
  if s.length < i then throw .range else pure (s.drop i)

/-- Coalesce adjacent text nodes into the first, and drop empty ones, at every depth. -/
def normalized : Nodes → Nodes
  | .nil => .nil
  | .branch i t cs r => .branch i t (normalized cs) (normalized r)
  | .leaf _ (.text []) r => normalized r
  | .leaf i (.text (c :: s)) r =>
    match normalized r with
    | .leaf _ (.text s') r' => .leaf i (.text (c :: s ++ s')) r'
    | r' => .leaf i (.text (c :: s)) r'
  | .leaf i (.other k s) r => .leaf i (.other k s) (normalized r)

theorem ids_normalized (f : Nodes) : (normalized f).ids.Sublist f.ids := by
  fun_induction normalized f with
  | case1 => simp
  | case2 i t cs r ihc ihr => simpa using ihc.append ihr
  | case3 i r ih => exact ih.cons _
  | case4 i c s r j s' r' hr ih =>
    rw [hr] at ih
    simpa using (List.sublist_cons_self j r'.ids).trans ih
  | case5 i c s r hr ih => simpa using ih
  | case6 i k s r ih => simpa using ih

/-- `-normalizeAdjacentTextNodesPreservingCDATA:` with `NO` -/
def World.normalizeAdjacentTextNodes (w : World) (x : NodeID) : World :=
  ⟨w.trees.modifyChildren x normalized,
    Forest.nodup_modifyChildren_of_sublist w.nodup ids_normalized x⟩

/-! ### Parsing -/

/-- `-stringByRemovingInvalidUTF8EncodedXMLCharacters` -/
def stringByRemovingInvalidUTF8EncodedXMLCharacters (cocoa : Cocoa) (s : NSString) : NSString :=
  let s := cocoa.marks.replaceOccurrences (literal "svg xmlns:xlink=\"http://www.w3.org/1999/xlink ")
    (literal "svg xmlns:xlink=\"http://www.w3.org/1999/xlink\" ") 0 s
  let s := cocoa.marks.replaceOccurrences (literal "xmlns=\"http://www.w3.org/2000/svg ")
    (literal "xmlns=\"http://www.w3.org/2000/svg\" ") 0 s
  s.filter fun c => !cocoa.invalidUTF8EncodedXMLCharacters c

/-- `+XMLElementFromString:error:`; the error is not looked at by the modelled callers. -/
def xmlElementFromString (cocoa : Cocoa) (s : NSString) : Option (Tag × Nodes) :=
  cocoa.initWithXMLString (stringByRemovingInvalidUTF8EncodedXMLCharacters cocoa s)

end Feather.XML
