import Feather.OrderedTree.Edit
import Feather.Program.Run
import Mathlib.Data.List.DropRight

/-!
# The part of Foundation's XML tree the extensions work on

Strings are sequences of UTF-16 units.  A node of an XML tree is an element with a tag and children,
or a leaf: a text node, or one of another kind (a comment, a processing instruction, a part of a
document type definition).  Objects are compared by identity, so every node carries one.

An element read by a whitespace-preserving parser may carry space that is part of its serialization
but no node (`startWhitespace`, `endWhitespace`, after the instance variables the source's comments
name).

The store is a `World`: a forest of distinct nodes, each tree a document or taken out of one or
newly made.  An `NSXMLDocument` above a root element is a node like any other, since no modelled
function asks for its kind.
-/

namespace Feather.XML

open OrderedTree Program List

/-! ### Strings -/

/-- A UTF-16 unit. -/
abbrev Unichar := UInt16

/-- A string is its UTF-16 units. -/
abbrev NSString := List Unichar

/-- A shortcut for looking strings up in lists. -/
instance : LawfulBEq NSString := inferInstance

/-- The unit of a character of the basic plane. -/
def unichar (c : Char) : Unichar := UInt16.ofNat c.toNat

/-- A string literal of basic-plane characters. -/
def literal (s : String) : NSString := s.toList.map unichar

/-- `n` spaces. -/
def spaces (n : ℕ) : NSString := replicate n (unichar ' ')

/-- `+whitespaceCharacterSet`: the Unicode category Zs and the tabulator. -/
def whitespaceCharacterSet (c : Unichar) : Bool :=
  c = 0x09 || c = 0x20 || c = 0xA0 || c = 0x1680 || (0x2000 ≤ c && c ≤ 0x200A) ||
    c = 0x202F || c = 0x205F || c = 0x3000

/-- `+newlineCharacterSet`. -/
def newlineCharacterSet (c : Unichar) : Bool :=
  (0x0A ≤ c && c ≤ 0x0D) || c = 0x85 || c = 0x2028 || c = 0x2029

/-- `+whitespaceAndNewlineCharacterSet`. -/
def whitespaceAndNewlineCharacterSet (c : Unichar) : Bool :=
  whitespaceCharacterSet c || newlineCharacterSet c

/-- `-stringByTrimmingCharactersInSet:` -/
def stringByTrimmingCharactersInSet (set : Unichar → Bool) (s : NSString) : NSString :=
  (s.dropWhile set).rdropWhile set

/-- `-stringByTrimmingWhitespace` -/
def stringByTrimmingWhitespace (s : NSString) : NSString :=
  stringByTrimmingCharactersInSet whitespaceCharacterSet s

/-- `-stringByTrimmingWhitespaceAndNewlines` -/
def stringByTrimmingWhitespaceAndNewlines (s : NSString) : NSString :=
  stringByTrimmingCharactersInSet whitespaceAndNewlineCharacterSet s

/-- `-componentsSeparatedByCharactersInSet:` -/
def componentsSeparatedByCharactersInSet (s : NSString) (set : Unichar → Bool) : List NSString :=
  s.splitOnP set

/-- `-componentsJoinedByString:` -/
def componentsJoinedByString (components : List NSString) (separator : NSString) : NSString :=
  separator.intercalate components

/-- `-stringByTrimmingLeadingWhitespace` -/
def stringByTrimmingLeadingWhitespace (s : NSString) : NSString :=
  s.dropWhile whitespaceCharacterSet

/-- `-stringByTrimmingTrailingWhitespace`, which also trims newlines. -/
def stringByTrimmingTrailingWhitespace (s : NSString) : NSString :=
  s.rdropWhile whitespaceAndNewlineCharacterSet

/-! ### Searches

A search without `NSLiteralSearch` compares composed characters, so it does not find `&` where a
combining mark stands behind it.  None of the strings the modelled code searches for has a unit that
is equivalent to others. -/

/-- The combining marks, as Foundation knows them: `goesOn s` tells that `s` starts with one and so
goes on with the character in front of it. -/
structure CombiningMarks where
  goesOn : NSString → Bool
  nil : goesOn [] = false
  /-- ASCII characters and white space are no marks, and no part of one. -/
  append : ∀ s c t, c < 0x80 ∨ whitespaceAndNewlineCharacterSet c = true →
    goesOn (s ++ c :: t) = goesOn s

namespace CombiningMarks

/-- No unit is a mark: the search is a literal one. -/
def none : CombiningMarks := ⟨fun _ => false, rfl, fun _ _ _ _ => rfl⟩

/-- The long solidus overlay, which makes `≯` of `>`, is the only mark. -/
def overlay : CombiningMarks where
  goesOn := fun s => s.head? == some 0x0338
  nil := rfl
  append := by
    rintro (_ | ⟨d, s⟩) c t hc
    · show (some c == some 0x0338) = false
      rw [beq_eq_false_iff_ne]
      rintro ⟨⟩
      revert hc
      decide
    · rfl

variable (marks : CombiningMarks)

theorem goesOn_cons {c : Unichar} (hc : c < 0x80 ∨ whitespaceAndNewlineCharacterSet c = true)
    (s : NSString) : marks.goesOn (c :: s) = false :=
  (marks.append [] c s hc).trans marks.nil

/-- The target stands at the start of a string, and its last character ends with it. -/
def occursAt (target s : NSString) : Bool :=
  target.isPrefixOf s && !marks.goesOn (s.drop target.length)

theorem occursAt_iff (target s : NSString) :
    marks.occursAt target s = true ↔ ∃ t, s = target ++ t ∧ marks.goesOn t = false := by
  rw [occursAt, Bool.and_eq_true, isPrefixOf_iff_prefix, Bool.not_eq_true']
  constructor
  · rintro ⟨⟨t, rfl⟩, h⟩
    exact ⟨t, rfl, by rwa [drop_left] at h⟩
  · rintro ⟨t, rfl, h⟩
    exact ⟨prefix_append target t, by rwa [drop_left]⟩

/-- A mark stands behind an occurrence of the target. -/
def Marked (target s : NSString) : Prop := ∃ X Y, s = X ++ (target ++ Y) ∧ marks.goesOn Y = true

theorem goesOn_of_not_marked {target X Y : NSString} (h : ¬marks.Marked target (X ++ (target ++ Y))) :
    marks.goesOn Y = false :=
  Bool.eq_false_iff.2 fun hY => h ⟨X, Y, rfl, hY⟩

theorem not_marked_of_suffix {target s Y : NSString} (h : ¬marks.Marked target s) (hY : Y <:+ s) :
    ¬marks.Marked target Y := by
  rintro ⟨X, Z, rfl, hZ⟩
  obtain ⟨W, rfl⟩ := hY
  exact h ⟨W ++ X, Z, (append_assoc ..).symm, hZ⟩

theorem not_marked_overlay {s : NSString} (h : (0x0338 : Unichar) ∉ s) (target : NSString) :
    ¬overlay.Marked target s := by
  rintro ⟨X, Y, rfl, hY⟩
  refine h (mem_append_right X (mem_append_right target (mem_of_mem_head? ?_)))
  simpa [overlay] using hY

/-- `-stringByReplacingOccurrencesOfString:withString:`; `skip` units are already replaced. -/
def replaceOccurrences (target replacement : NSString) : ℕ → NSString → NSString
  | _, [] => []
  | skip + 1, _ :: s => replaceOccurrences target replacement skip s
  | 0, c :: s =>
    if marks.occursAt target (c :: s) then
      replacement ++ replaceOccurrences target replacement (target.length - 1) s
    else c :: replaceOccurrences target replacement 0 s

/-- Where a string first occurs in another one. -/
def indexOfOccurrence (target : NSString) : NSString → Option ℕ
  | [] => .none
  | c :: s =>
    if marks.occursAt target (c :: s) then some 0 else (indexOfOccurrence target s).map (· + 1)

end CombiningMarks

/-! ### Integers -/

/-- `NSIntegerMax` -/
def nsIntegerMax : ℕ := 2 ^ 63 - 1

/-- `NSNotFound` -/
def nsNotFound : ℕ := nsIntegerMax

/-- An `NSInteger` converted to `NSUInteger`. -/
def asUnsigned (i : ℤ) : ℕ := (i % 2 ^ 64).toNat

theorem asUnsigned_natCast {n : ℕ} (h : n ≤ nsIntegerMax) : asUnsigned n = n := by
  unfold asUnsigned nsIntegerMax at *
  omega

/-! ### Nodes -/

/-- An attribute node. -/
structure Attribute where
  name : NSString
  stringValue : NSString
  deriving DecidableEq, Repr

/-- What an element carries besides its children. -/
structure Tag where
  name : NSString
  attributes : List Attribute
  startWhitespace : ℕ
  endWhitespace : ℕ
  deriving DecidableEq, Repr

/-- The node kinds other than element and text. -/
inductive OtherKind
  | comment
  | processingInstruction
  | dtd
  | invalid
  deriving DecidableEq, Repr

/-- What a node that is no element carries. -/
inductive Content
  | text (stringValue : NSString)
  | other (kind : OtherKind) (stringValue : NSString)
  deriving DecidableEq, Repr

/-- `NSXMLNodeKind`, as far as the modelled functions tell kinds apart. -/
inductive Kind
  | element
  | text
  | other (kind : OtherKind)
  deriving DecidableEq, Repr

/-- The identity of a node. -/
abbrev NodeID := ℕ
abbrev Label := Tag ⊕ Content
/-- The nodes below a node, or of a store. -/
abbrev Nodes := Forest Tag Content
abbrev Listing := List (Entry Tag Content)

/-- The tag of a newly made element: it carries no implicit space. -/
def plainTag (name : NSString) (attributes : List Attribute) : Tag := ⟨name, attributes, 0, 0⟩

/-- `-kind` -/
def kind : Label → Kind
  | .inl _ => .element
  | .inr (.text _) => .text
  | .inr (.other k _) => .other k

/-- All nodes of the forest are elements or text nodes. -/
def ElementsAndText (f : Nodes) : Prop := ∀ b ∈ f.labels, kind b = .element ∨ kind b = .text

instance (f : Nodes) : Decidable (ElementsAndText f) :=
  inferInstanceAs (Decidable (∀ b ∈ f.labels, kind b = .element ∨ kind b = .text))

/-- The forest has a text node. -/
def HasText (f : Nodes) : Prop := ∃ b ∈ f.labels, kind b = .text

instance (f : Nodes) : Decidable (HasText f) :=
  inferInstanceAs (Decidable (∃ b ∈ f.labels, kind b = .text))

/-- The text a node contributes by itself. -/
def ownText : Label → NSString
  | .inr (.text s) => s
  | _ => []

/-- The text of a list of nodes: the values of all text nodes below, in document order. -/
def text : Nodes → NSString
  | .nil => []
  | .branch _ _ cs r => text cs ++ text r
  | .leaf _ c r => ownText (.inr c) ++ text r

/-- `-stringValue` of a node -/
def stringValue (n : Node Tag Content) : NSString :=
  match n.label with
  | .inl _ => text n.children
  | .inr (.text s) => s
  | .inr (.other _ s) => s

/-- The text of a piece of a listing. -/
def listingText (L : Listing) : NSString := L.flatMap fun e => ownText e.label

@[simp] theorem listingText_nil : listingText [] = [] := rfl

@[simp] theorem listingText_cons (e : Entry Tag Content) (L : Listing) :
    listingText (e :: L) = ownText e.label ++ listingText L := rfl

@[simp] theorem listingText_append (L M : Listing) :
    listingText (L ++ M) = listingText L ++ listingText M := by
  simp [listingText]

@[simp] theorem listingText_entries (k : ℕ) (f : Nodes) : listingText (f.entries k) = text f := by
  induction f generalizing k with
  | nil => rfl
  | branch i b cs r ihc ihr => simp [text, ihc, ihr, ownText]
  | leaf i c r ih => simp [text, ih]

/-! ### Serialization -/

/-- Replace each unit by a string. -/
def escaped (e : Unichar → NSString) (s : NSString) : NSString := s.flatMap e

/-- The escapes inside text. -/
def textEscape (c : Unichar) : NSString :=
  if c = unichar '&' then literal "&amp;"
  else if c = unichar '<' then literal "&lt;"
  else if c = unichar '>' then literal "&gt;"
  else [c]

/-- The escapes inside attribute values. -/
def attributeEscape (c : Unichar) : NSString :=
  if c = unichar '"' then literal "&quot;" else textEscape c

/-- ` name="value"` -/
def attributeString (a : Attribute) : NSString :=
  unichar ' ' :: (a.name ++ literal "=\"" ++ escaped attributeEscape a.stringValue ++ literal "\"")

/-- The start of an element. -/
def openTag (t : Tag) : NSString :=
  unichar '<' :: (t.name ++ t.attributes.flatMap attributeString ++ [unichar '>'])

/-- Its end. -/
def closeTag (t : Tag) : NSString :=
  unichar '<' :: unichar '/' :: (t.name ++ [unichar '>'])

/-- A node that is no element, as it is written out. -/
def contentString : Content → NSString
  | .text s => escaped textEscape s
  | .other .comment s => literal "<!--" ++ s ++ literal "-->"
  | .other .processingInstruction s => literal "<?" ++ s ++ literal "?>"
  | .other .dtd s => literal "<!DOCTYPE " ++ s ++ literal ">"
  | .other .invalid _ => []

/-- `-XMLStringWithOptions:`, nodes in order: an element's implicit space stands around its tags. -/
def xmlString : Nodes → NSString
  | .nil => []
  | .branch _ t cs r =>
    spaces t.startWhitespace ++ (openTag t ++ xmlString cs ++ closeTag t) ++
      spaces t.endWhitespace ++ xmlString r
  | .leaf _ c r => contentString c ++ xmlString r

theorem xmlString_append (f g : Nodes) : xmlString (f ++ g) = xmlString f ++ xmlString g := by
  induction f with
  | nil => rfl
  | branch i b cs r _ ih => simp [xmlString, ih]
  | leaf i c r ih => simp [xmlString, ih]

/-- `-leadingWhitespaceLength` -/
def leadingWhitespaceLength (n : Node Tag Content) : ℕ :=
  let s := xmlString n.tree
  s.length - (stringByTrimmingLeadingWhitespace s).length

/-- `-trailingWhitespaceLength` -/
def trailingWhitespaceLength (n : Node Tag Content) : ℕ :=
  let s := xmlString n.tree
  s.length - (stringByTrimmingTrailingWhitespace s).length

variable {p : Unichar → Bool}

theorem dropWhile_spaces (hp : p (unichar ' ') = true) (n : ℕ) (s : NSString) :
    (spaces n ++ s).dropWhile p = s.dropWhile p := by
  refine dropWhile_append_of_pos fun c hc => ?_
  rw [eq_of_mem_replicate hc]
  exact hp

theorem rdropWhile_spaces (hp : p (unichar ' ') = true) (n : ℕ) (s : NSString) :
    (s ++ spaces n).rdropWhile p = s.rdropWhile p := by
  unfold rdropWhile
  rw [reverse_append, show (spaces n).reverse = spaces n from reverse_replicate,
    dropWhile_spaces hp]

/-- The serialization of an element between its implicit spaces. -/
def elementString (t : Tag) (cs : Nodes) : NSString := openTag t ++ xmlString cs ++ closeTag t

theorem elementString_head (t : Tag) (cs : Nodes) :
    ∃ s, elementString t cs = unichar '<' :: s := by
  simp [elementString, openTag]

theorem elementString_last (t : Tag) (cs : Nodes) :
    ∃ s, elementString t cs = s ++ [unichar '>'] := by
  refine ⟨openTag t ++ xmlString cs ++ unichar '<' :: unichar '/' :: t.name, ?_⟩
  simp [elementString, closeTag]

/-- No set of white space contains the angle brackets, so trimming stops at a tag. -/
theorem dropWhile_elementString (hp : p (unichar '<') = false) (t : Tag) (cs : Nodes)
    (s : NSString) : (elementString t cs ++ s).dropWhile p = elementString t cs ++ s := by
  obtain ⟨r, hr⟩ := elementString_head t cs
  rw [hr, cons_append, dropWhile_cons_of_neg (by simp [hp])]

theorem rdropWhile_elementString (hp : p (unichar '>') = false) (t : Tag) (cs : Nodes)
    (s : NSString) : (s ++ elementString t cs).rdropWhile p = s ++ elementString t cs := by
  obtain ⟨r, hr⟩ := elementString_last t cs
  rw [hr, ← append_assoc, rdropWhile_concat_neg _ _ _ (by simp [hp])]

variable {n : Node Tag Content} {t : Tag}

theorem xmlString_tree (h : n.label = .inl t) :
    xmlString n.tree =
      spaces t.startWhitespace ++ elementString t n.children ++ spaces t.endWhitespace := by
  simp [Node.tree, h, xmlString, elementString]

theorem leadingWhitespaceLength_eq (h : n.label = .inl t) :
    leadingWhitespaceLength n = t.startWhitespace := by
  unfold leadingWhitespaceLength stringByTrimmingLeadingWhitespace
  dsimp only
  rw [xmlString_tree h, append_assoc, dropWhile_spaces (by decide),
    dropWhile_elementString (by decide)]
  simp [spaces]

theorem trailingWhitespaceLength_eq (h : n.label = .inl t) :
    trailingWhitespaceLength n = t.endWhitespace := by
  unfold trailingWhitespaceLength stringByTrimmingTrailingWhitespace
  dsimp only
  rw [xmlString_tree h, rdropWhile_spaces (by decide), rdropWhile_elementString (by decide)]
  simp only [spaces, length_append, length_replicate]
  omega

theorem stringByTrimmingWhitespace_tree (h : n.label = .inl t) :
    stringByTrimmingWhitespace (xmlString n.tree) = elementString t n.children := by
  unfold stringByTrimmingWhitespace stringByTrimmingCharactersInSet
  rw [xmlString_tree h, append_assoc, dropWhile_spaces (by decide),
    dropWhile_elementString (by decide), rdropWhile_spaces (by decide)]
  exact rdropWhile_elementString (by decide) t n.children []

end Feather.XML
