import Feather.Strings.Words
import Feather.XML.TextOffset

/-!
# Normalizing white space

`stringByNormalizingWhitespaceAllowLeading` joins the words of a string by single spaces and
restores one space at either end, if that is allowed and there was white space;
`normalizeWhitespaceAllowLeading` does so with the text nodes below an element, where a space at an
end is forbidden only for the first and the last.

For a string without words both spaces are restored: a text node of one space grows to two.
-/

namespace Feather.XML

open OrderedTree Forest Program Words List

variable {s : NSString} {w : World} {X : Listing} {c : Unichar}

/-! ### Strings -/

/-- `-stringByNormalizingWhitespaceAllowLeading:trailingWhitespace:` -/
def stringByNormalizingWhitespaceAllowLeading (self : NSString)
    (allowLeadingWhitespace allowTrailingWhitespace : Bool) : NSString :=
  if self.length < 1 then self
  else
    let s := stringByTrimmingWhitespaceAndNewlines self
    let components := componentsSeparatedByCharactersInSet s whitespaceAndNewlineCharacterSet
    let components := components.filter fun object => !object.isEmpty
    let normalized := componentsJoinedByString components (literal " ")
    let restoreLeadingWhitespace :=
      allowLeadingWhitespace && self.head?.any whitespaceAndNewlineCharacterSet
    let restoreTrailingWhitespace :=
      allowTrailingWhitespace && self.getLast?.any whitespaceAndNewlineCharacterSet
    if restoreLeadingWhitespace && restoreTrailingWhitespace then
      literal " " ++ normalized ++ literal " "
    else if restoreLeadingWhitespace then literal " " ++ normalized
    else if restoreTrailingWhitespace then normalized ++ literal " "
    else normalized

/-- The words of a string. -/
abbrev wordsOf (s : NSString) : List NSString := words whitespaceAndNewlineCharacterSet s

/-- The words joined by single spaces. -/
def joinedWords (s : NSString) : NSString := (literal " ").intercalate (wordsOf s)

/-- The space at an end: it is allowed, and the unit there is white space. -/
def restored (allow : Bool) (c : Option Unichar) : NSString :=
  if allow && c.any whitespaceAndNewlineCharacterSet then literal " " else []

/-- The white space of a string normalized as intended: a string without words has one space at
most. -/
def whitespaceNormalized (allowLeading allowTrailing : Bool) (s : NSString) : NSString :=
  if wordsOf s = [] then
    if restored allowLeading s.head? = [] then restored allowTrailing s.getLast? else literal " "
  else restored allowLeading s.head? ++ joinedWords s ++ restored allowTrailing s.getLast?

/-- The result is the intended one, without adjacent white space, not longer, and stable. -/
structure NormalizesWhitespace (allowLeading allowTrailing : Bool) (s : NSString) : Prop where
  eq : stringByNormalizingWhitespaceAllowLeading s allowLeading allowTrailing =
    whitespaceNormalized allowLeading allowTrailing s
  spaced : Spaced whitespaceAndNewlineCharacterSet
    (stringByNormalizingWhitespaceAllowLeading s allowLeading allowTrailing)
  length_le :
    (stringByNormalizingWhitespaceAllowLeading s allowLeading allowTrailing).length ≤ s.length
  idempotent : stringByNormalizingWhitespaceAllowLeading
      (stringByNormalizingWhitespaceAllowLeading s allowLeading allowTrailing)
      allowLeading allowTrailing =
    stringByNormalizingWhitespaceAllowLeading s allowLeading allowTrailing

theorem whitespace_space : whitespaceAndNewlineCharacterSet (unichar ' ') = true := by decide

/-- The string the source returns. -/
theorem stringByNormalizingWhitespaceAllowLeading_eq (s : NSString) (l t : Bool) :
    stringByNormalizingWhitespaceAllowLeading s l t =
      restored l s.head? ++ joinedWords s ++ restored t s.getLast? := by
  unfold stringByNormalizingWhitespaceAllowLeading
  by_cases hs : s.length < 1
  · have : s = [] := length_eq_zero_iff.1 (by omega)
    subst this
    simp [restored, joinedWords]
  · have hwds : (componentsSeparatedByCharactersInSet (stringByTrimmingWhitespaceAndNewlines s)
        whitespaceAndNewlineCharacterSet).filter (fun object => !object.isEmpty) = wordsOf s := by
      show words _ _ = _
      rw [stringByTrimmingWhitespaceAndNewlines, stringByTrimmingCharactersInSet,
        words_rdropWhile, words_dropWhile]
    rw [if_neg hs]
    simp only [hwds, restored]
    cases l && s.head?.any whitespaceAndNewlineCharacterSet <;>
      cases t && s.getLast?.any whitespaceAndNewlineCharacterSet <;>
      simp [joinedWords, componentsJoinedByString]

/-! ### Strings with words -/

section Words

variable {s : NSString}

theorem joinedWords_of_cons (hc : whitespaceAndNewlineCharacterSet c = true) (s : NSString) :
    joinedWords (c :: s) = joinedWords s := by
  rw [joinedWords, wordsOf, words_cons hc, joinedWords]

theorem joinedWords_of_concat (hc : whitespaceAndNewlineCharacterSet c = true) (s : NSString) :
    joinedWords (s ++ [c]) = joinedWords s := by
  rw [joinedWords, wordsOf, words_concat hc, joinedWords]

/-- The words of the joined words. -/
theorem wordsOf_joinedWords (s : NSString) : wordsOf (joinedWords s) = wordsOf s :=
  words_intercalate_of_isWord whitespace_space fun _ h => isWord_of_mem h

/-- Joined words start with a unit of a word. -/
theorem head?_joinedWords (h : wordsOf s ≠ []) :
    ∃ c, (joinedWords s).head? = some c ∧ whitespaceAndNewlineCharacterSet c = false := by
  obtain ⟨w, L, hL⟩ := exists_cons_of_ne_nil h
  have hw : IsWord whitespaceAndNewlineCharacterSet w := isWord_of_mem (hL ▸ mem_cons_self)
  obtain ⟨c, w', rfl⟩ := exists_cons_of_ne_nil hw.ne_nil
  refine ⟨c, ?_, hw.noSeparator c (by simp)⟩
  rw [joinedWords, hL]
  exact head?_intercalate _ hw.ne_nil L

/-- And they end with one. -/
theorem getLast?_joinedWords (h : wordsOf s ≠ []) :
    ∃ c, (joinedWords s).getLast? = some c ∧ whitespaceAndNewlineCharacterSet c = false := by
  obtain ⟨L, w, hL⟩ := eq_nil_or_concat (wordsOf s) |>.resolve_left h
  have hmem : w ∈ wordsOf s := by
    rw [hL]
    simp
  have hw := isWord_of_mem hmem
  obtain ⟨c, hc⟩ := Option.ne_none_iff_exists'.1 (mt getLast?_eq_none_iff.1 hw.ne_nil)
  refine ⟨c, ?_, hw.noSeparator c (mem_of_getLast? hc)⟩
  rw [joinedWords, hL, concat_eq_append, ← hc]
  exact getLast?_intercalate _ hw.ne_nil L

theorem restored_eq_nil {allow : Bool} (hc : whitespaceAndNewlineCharacterSet c = false) :
    restored allow (some c) = [] := by
  simp [restored, hc]

theorem restored_cases (allow : Bool) (c : Option Unichar) :
    restored allow c = [] ∨ (restored allow c = literal " " ∧ allow = true ∧
      ∃ d, c = some d ∧ whitespaceAndNewlineCharacterSet d = true) := by
  unfold restored
  split_ifs with h
  · rw [Bool.and_eq_true] at h
    obtain ⟨d, hd, hw⟩ := (Option.any_eq_true _ _).1 h.2
    exact .inr ⟨rfl, h.1, d, hd, hw⟩
  · exact .inl rfl

/-- A restored space takes the place of white space at the end. -/
theorem length_joinedWords_append_le (s : NSString) (t : Bool) (h : wordsOf s ≠ []) :
    (joinedWords s ++ restored t s.getLast?).length ≤ s.length := by
  rcases restored_cases t s.getLast? with hr | ⟨hr, -, d, hd, hw⟩
  · rw [hr, List.append_nil]
    exact length_joined_words_le _ s
  · obtain ⟨s', rfl⟩ := getLast?_eq_some_iff.1 hd
    rw [hr, joinedWords_of_concat hw, length_append, length_append]
    have := length_joined_words_le (p := whitespaceAndNewlineCharacterSet) (unichar ' ') s'
    exact Nat.add_le_add_right this 1

theorem length_restored_joinedWords_le (s : NSString) (l t : Bool) (h : wordsOf s ≠ []) :
    (restored l s.head? ++ joinedWords s ++ restored t s.getLast?).length ≤ s.length := by
  rw [List.append_assoc]
  rcases restored_cases l s.head? with hr | ⟨hr, -, d, hd, hw⟩
  · rw [hr]
    exact length_joinedWords_append_le s t h
  · obtain ⟨s', rfl⟩ : ∃ s', s = d :: s' := by
      cases s with
      | nil => cases hd
      | cons c s => exact ⟨s, by simpa using hd⟩
    have hwds : wordsOf s' ≠ [] := by rwa [wordsOf, words_cons hw] at h
    have hlast : (d :: s').getLast? = s'.getLast? := by
      cases s' with
      | nil => exact absurd words_nil hwds
      | cons c s' => rw [getLast?_cons_cons]
    have := length_joinedWords_append_le s' t hwds
    rw [hr, joinedWords_of_cons hw, hlast, length_append, length_cons]
    show 1 + _ ≤ _
    omega

/-- The intended string has its white space normalized. -/
theorem spaced_restored (s : NSString) (l t : Bool) (h : wordsOf s ≠ []) :
    Spaced whitespaceAndNewlineCharacterSet
      (restored l s.head? ++ joinedWords s ++ restored t s.getLast?) := by
  have hjoi : Spaced whitespaceAndNewlineCharacterSet (joinedWords s) :=
    spaced_intercalate _ fun _ hw => isWord_of_mem hw
  obtain ⟨c, hc, hcw⟩ := head?_joinedWords h
  obtain ⟨d, hd, hdw⟩ := getLast?_joinedWords h
  have hne : joinedWords s ≠ [] := by
    intro hnil
    rw [hnil] at hc
    cases hc
  have hsin : ∀ allow o, Spaced whitespaceAndNewlineCharacterSet (restored allow o) := by
    intro allow o
    rcases restored_cases allow o with hr | ⟨hr, -⟩
    · rw [hr]
      exact List.IsChain.nil
    · rw [hr]
      exact List.IsChain.singleton _
  rw [List.append_assoc]
  refine isChain_append.2 ⟨hsin _ _, isChain_append.2 ⟨hjoi, hsin _ _, ?_⟩, ?_⟩
  · intro x hx y hy
    rw [hd, Option.mem_some_iff] at hx
    exact .inl (hx ▸ hdw)
  · intro x hx y hy
    rw [head?_append_of_ne_nil _ hne, hc, Option.mem_some_iff] at hy
    exact .inr (hy ▸ hcw)

theorem stringByNormalizingWhitespace_idempotent (s : NSString) (l t : Bool) (h : wordsOf s ≠ []) :
    stringByNormalizingWhitespaceAllowLeading
        (restored l s.head? ++ joinedWords s ++ restored t s.getLast?) l t =
      restored l s.head? ++ joinedWords s ++ restored t s.getLast? := by
  obtain ⟨c, hc, hcw⟩ := head?_joinedWords h
  obtain ⟨d, hd, hdw⟩ := getLast?_joinedWords h
  have hne : joinedWords s ≠ [] := by
    intro hnil
    rw [hnil] at hc
    cases hc
  have hjoi : joinedWords (joinedWords s) = joinedWords s := by
    rw [joinedWords, wordsOf_joinedWords, joinedWords]
  rw [stringByNormalizingWhitespaceAllowLeading_eq]
  generalize hL : restored l s.head? = L
  generalize hT : restored t s.getLast? = T
  have hlead : restored l (L ++ joinedWords s ++ T).head? = L := by
    rcases restored_cases l s.head? with hr | ⟨hr, hl, -⟩
    · rw [hL] at hr
      rw [hr, List.nil_append, head?_append_of_ne_nil _ hne, hc, restored_eq_nil hcw]
    · rw [hL] at hr
      rw [hr, hl]
      rfl
  have htra : restored t (L ++ joinedWords s ++ T).getLast? = T := by
    rcases restored_cases t s.getLast? with hr | ⟨hr, ht, -⟩
    · rw [hT] at hr
      rw [hr, List.append_nil, getLast?_append_of_ne_nil _ hne, hd, restored_eq_nil hdw]
    · rw [hT] at hr
      rw [hr, ht, show literal " " = [unichar ' '] from rfl, getLast?_append_of_ne_nil _ (by simp)]
      rfl
  have hwds : joinedWords (L ++ joinedWords s ++ T) = joinedWords s := by
    have hT' : joinedWords (L ++ joinedWords s ++ T) = joinedWords (L ++ joinedWords s) := by
      rcases restored_cases t s.getLast? with hr | ⟨hr, -⟩
      · rw [← hT, hr, List.append_nil]
      · rw [← hT, hr]
        exact joinedWords_of_concat whitespace_space _
    rw [hT']
    rcases restored_cases l s.head? with hr | ⟨hr, -⟩
    · rw [← hL, hr, List.nil_append, hjoi]
    · rw [← hL, hr]
      exact (joinedWords_of_cons whitespace_space _).trans hjoi
  rw [hlead, htra, hwds]

end Words

/-! ### Strings without words -/

/-- White space stands at both ends of a string without words. -/
theorem restored_of_words_eq_nil (hs : s ≠ []) (h : wordsOf s = []) (allow : Bool) :
    restored allow s.head? = (if allow then literal " " else []) ∧
      restored allow s.getLast? = if allow then literal " " else [] := by
  have hall := words_eq_nil_iff.1 h
  obtain ⟨c, hc⟩ := Option.ne_none_iff_exists'.1 (mt head?_eq_none_iff.1 hs)
  obtain ⟨d, hd⟩ := Option.ne_none_iff_exists'.1 (mt getLast?_eq_none_iff.1 hs)
  have hcw := hall c (mem_of_mem_head? hc)
  have hdw := hall d (mem_of_getLast? hd)
  simp [restored, hc, hd, hcw, hdw]

theorem stringByNormalizingWhitespace_of_words_eq_nil (hs : s ≠ []) (h : wordsOf s = [])
    (l t : Bool) :
    stringByNormalizingWhitespaceAllowLeading s l t =
      (if l then literal " " else []) ++ if t then literal " " else [] := by
  rw [stringByNormalizingWhitespaceAllowLeading_eq, joinedWords, h,
    (restored_of_words_eq_nil hs h l).1, (restored_of_words_eq_nil hs h t).2]
  simp

theorem whitespaceNormalized_of_words_eq_nil (hs : s ≠ []) (h : wordsOf s = []) (l t : Bool) :
    whitespaceNormalized l t s = if l || t then literal " " else [] := by
  rw [whitespaceNormalized, if_pos h, (restored_of_words_eq_nil hs h l).1,
    (restored_of_words_eq_nil hs h t).2]
  cases l <;> cases t <;> rfl

/-- The string is normalized as intended unless it has no words and both spaces are restored. -/
theorem normalizesWhitespace_iff (l t : Bool) (s : NSString) :
    NormalizesWhitespace l t s ↔ ¬(l = true ∧ t = true ∧ s ≠ [] ∧ wordsOf s = []) := by
  by_cases h : wordsOf s = []
  · by_cases hs : s = []
    · subst hs
      refine ⟨fun _ h => h.2.2.1 rfl, fun _ => ⟨?_, List.IsChain.nil, le_rfl, rfl⟩⟩
      simp [stringByNormalizingWhitespaceAllowLeading, whitespaceNormalized, restored]
    · have heq := stringByNormalizingWhitespace_of_words_eq_nil hs h l t
      have hspa := stringByNormalizingWhitespace_of_words_eq_nil (s := literal " ") (by decide)
        (by decide) l t
      have hpos := length_pos_of_ne_nil hs
      constructor
      · rintro hn ⟨rfl, rfl, -⟩
        -- the result is two spaces side by side
        have hsp := hn.spaced
        rw [heq] at hsp
        exact absurd hsp (by decide)
      · intro hlt
        have hor : (l = true ∧ t = true) → False := fun hb => hlt ⟨hb.1, hb.2, hs, h⟩
        refine ⟨?_, ?_, ?_, ?_⟩
        · rw [heq, whitespaceNormalized_of_words_eq_nil hs h]
          revert hor
          cases l <;> cases t <;> simp
        · rw [heq]
          revert hor
          cases l <;> cases t <;> decide
        · rw [heq]
          cases l <;> cases t <;> simp_all [literal] <;> omega
        · rw [heq]
          revert hor hspa
          cases l <;> cases t <;> simp [stringByNormalizingWhitespaceAllowLeading]
  · refine ⟨fun _ hn => h hn.2.2.2, fun _ => ?_⟩
    have heq := stringByNormalizingWhitespaceAllowLeading_eq s l t
    refine ⟨?_, ?_, ?_, ?_⟩
    · rw [heq, whitespaceNormalized, if_neg h]
    · rw [heq]
      exact spaced_restored s l t h
    · rw [heq]
      exact length_restored_joinedWords_le s l t h
    · rw [heq]
      exact stringByNormalizingWhitespace_idempotent s l t h

theorem length_stringByNormalizingWhitespace_le_iff (l t : Bool) (s : NSString) :
    (stringByNormalizingWhitespaceAllowLeading s l t).length ≤ s.length ↔
      ¬(l = true ∧ t = true ∧ s.length = 1 ∧ wordsOf s = []) := by
  by_cases hbad : l = true ∧ t = true ∧ s ≠ [] ∧ wordsOf s = []
  · obtain ⟨rfl, rfl, hs, h⟩ := hbad
    rw [stringByNormalizingWhitespace_of_words_eq_nil hs h]
    have hpos := length_pos_of_ne_nil hs
    simp only [h, true_and, and_true]
    show 2 ≤ _ ↔ _
    omega
  · refine iff_of_true ((normalizesWhitespace_iff l t s).2 hbad).length_le ?_
    rintro ⟨hl, ht, hlen, h⟩
    exact hbad ⟨hl, ht, ne_nil_of_length_pos (by omega), h⟩

/-! ### The text nodes of an element -/

/-- May a text node have a space at an end?  Only the outermost one may not, if none is allowed. -/
def allowsSpace (outermost : Option NodeID) (allow : Bool) (node : NodeID) : Bool :=
  if outermost = some node ∧ allow = false then false else true

/-- Normalize one node, if it is a text node. -/
def normalizeTextNode (allowLeading allowTrailing : Bool) (node : NodeID) : Action Unit := do
  let w ← get
  if w.kind? node = some .text then
    let text := stringByNormalizingWhitespaceAllowLeading (w.stringValue node) allowLeading
      allowTrailing
    if text ≠ w.stringValue node then set (w.setStringValue node text) else pure ()
  else pure ()

/-- One iteration of the loop. -/
def normalizeStep (self : NodeID) (firstTextNode lastTextNode : Option NodeID)
    (allowLeading allowTrailing : Bool) : Option NodeID → Action (Option NodeID ⊕ Unit)
  | none => pure (.inr ())
  | some node => do
    let w ← get
    if w.level (some self) < w.level (some node) then do
      normalizeTextNode (allowsSpace firstTextNode allowLeading node)
        (allowsSpace lastTextNode allowTrailing node) node
      let w ← get
      pure (.inl (w.nextNode node))
    else pure (.inr ())

/-- What the method looks up before its loop: the first child and the outermost text nodes. -/
def nodesToNormalize (cocoa : Cocoa) (self : NodeID) :
    Action (Option NodeID × Option NodeID × Option NodeID) := do
  enforceExplicitPreservedSpace cocoa self
  let w ← get
  let firstTextNode ← firstContainedTextNode cocoa self
  let lastTextNode ← lastContainedTextNode cocoa self
  pure (w.firstChild self, firstTextNode, lastTextNode)

/-- `-normalizeWhitespaceAllowLeading:trailing:` -/
def normalizeWhitespaceAllowLeading (cocoa : Cocoa) (fuel : ℕ) (self : NodeID)
    (allowLeading allowTrailing : Bool) : Action Unit := do
  let nodes ← nodesToNormalize cocoa self
  loop (normalizeStep self nodes.2.1 nodes.2.2 allowLeading allowTrailing) fuel nodes.1

/-- The nodes the loop walks over from `node` on. -/
def World.walked (w : World) (self : NodeID) : Option NodeID → Listing
  | none => []
  | some node => ((w.trees.entries 0).dropWhile fun e => decide (e.id ≠ node)).takeWhile
      fun e => decide (w.level (some self) < e.level)

/-- What becomes of a node of the walk. -/
def normalizedLabel (allowLeading allowTrailing : Bool) : Label → Label
  | .inr (.text s) =>
    .inr (.text (stringByNormalizingWhitespaceAllowLeading s allowLeading allowTrailing))
  | b => b

theorem normalizedLabel_of_kind {b : Label} (h : kind b ≠ .text) (l t : Bool) :
    normalizedLabel l t b = b := by
  rcases b with tag | s | ⟨k, s⟩
  · rfl
  · exact absurd rfl h
  · rfl

theorem World.level_setStringValue (w : World) (x : NodeID) (s : NSString) (y : Option NodeID) :
    (w.setStringValue x s).level y = w.level y := by
  cases y with
  | none => rfl
  | some y => simp [World.level, World.setStringValue, Forest.level, path?_setContent]

section Loop

variable (self : NodeID) (first last : Option NodeID) (l t : Bool)

theorem exec_normalizeTextNode {Y : Listing} {e : Entry Tag Content}
    (h : w.trees.entries 0 = X ++ e :: Y) :
    ∃ w', exec (normalizeTextNode l t e.id) w = some (.ok ((), w')) ∧
      w'.trees.entries 0 = X ++ { e with label := normalizedLabel l t e.label } :: Y ∧
      ∀ y, w'.level y = w.level y := by
  by_cases hkind : kind e.label = .text
  · obtain ⟨k, x, b⟩ := e
    obtain ⟨s, rfl⟩ := exists_text_of_kind hkind
    have hs : w.stringValue x = s := w.stringValue_of_entries h rfl
    have hx : w.kind? x = some .text := w.kind?_of_entries h
    by_cases htext : stringByNormalizingWhitespaceAllowLeading s l t = s
    · refine ⟨w, ?_, ?_, fun _ => rfl⟩
      · simp [normalizeTextNode, hs, htext]
      · rw [h, normalizedLabel, htext]
    · refine ⟨w.setStringValue x (stringByNormalizingWhitespaceAllowLeading s l t), ?_, ?_,
        w.level_setStringValue _ _⟩
      · simp [normalizeTextNode, hx, hs, htext]
      · exact w.entries_setStringValue h _
  · refine ⟨w, ?_, ?_, fun _ => rfl⟩
    · have hx : w.kind? e.id ≠ some .text := by
        rw [w.kind?_of_entries h]
        simpa using hkind
      simp [normalizeTextNode, hx]
    · rw [h, normalizedLabel_of_kind hkind]

/-- A node of the walk, normalized with the spaces it may have. -/
def normalizedEntry (first last : Option NodeID) (l t : Bool) (e : Entry Tag Content) :
    Entry Tag Content :=
  { e with label := normalizedLabel (allowsSpace first l e.id) (allowsSpace last t e.id) e.label }

/-- The loop stops at a node that is not below the receiver. -/
theorem exec_normalizeStep_stop {node : NodeID} (h : w.level (some node) ≤ w.level (some self)) :
    exec (normalizeStep self first last l t (some node)) w = some (.ok (.inr (), w)) := by
  simp [normalizeStep, Nat.not_lt.2 h]

/-- The loop normalizes the nodes ahead of it that are below the receiver. -/
theorem exec_normalizeLoop {D B : Listing} {r fuel : ℕ} (h : w.trees.entries 0 = X ++ (D ++ B))
    (hr : w.level (some self) = r) (hD : ∀ e ∈ D, r < e.level) (hB : Closes r B)
    (hfuel : D.length < fuel) :
    ∃ w', exec (loop (normalizeStep self first last l t) fuel (cursor (D ++ B))) w =
        some (.ok ((), w')) ∧
      w'.trees.entries 0 = X ++ (D.map (normalizedEntry first last l t) ++ B) := by
  induction D generalizing w X fuel with
  | nil =>
    obtain ⟨fuel, rfl⟩ := exists_fuel hfuel
    refine ⟨w, ?_, h⟩
    rw [List.nil_append]
    rcases cursor_of_closes hB with hc | ⟨e, C, rfl, hc, he⟩
    · rw [hc, exec_loop_done (by rfl)]
    · rw [hc, exec_loop_done (exec_normalizeStep_stop self first last l t ?_)]
      rw [hr, w.level_of_entries h]
      exact he
  | cons e D ih =>
    obtain ⟨fuel, rfl⟩ := exists_fuel hfuel
    have he := hD e (by simp)
    have hw : w.trees.entries 0 = X ++ e :: (D ++ B) := by rw [h, cons_append]
    obtain ⟨w1, hexec, hw1, hlev⟩ := exec_normalizeTextNode (allowsSpace first l e.id)
      (allowsSpace last t e.id) hw
    have hstep : exec (normalizeStep self first last l t (some e.id)) w =
        some (.ok (.inl (cursor (D ++ B)), w1)) := by
      have hlt : w.level (some self) < w.level (some e.id) := by
        rw [hr, w.level_of_entries hw]
        exact he
      have hnext : w1.nextNode e.id = cursor (D ++ B) :=
        w1.nextNode_of_entries (e := normalizedEntry first last l t e) hw1
      simp [normalizeStep, hlt, hexec, hnext]
    rw [length_cons] at hfuel
    obtain ⟨w', hrun, hw'⟩ := ih (w := w1) (X := X ++ [normalizedEntry first last l t e])
      (by rw [hw1]; simp [normalizedEntry]) ((hlev _).trans hr)
      (fun d hd => hD d (by simp [hd])) (show D.length < fuel by omega)
    refine ⟨w', ?_, by rw [hw']; simp⟩
    rw [cons_append, cursor_cons (by omega), exec_loop_next hstep, hrun]

/-- The whole loop, from any node. -/
theorem exec_normalizeLoop_walked (w : World) (node : Option NodeID) {fuel : ℕ}
    (hfuel : w.size < fuel) :
    ∃ w' X B, exec (loop (normalizeStep self first last l t) fuel node) w = some (.ok ((), w')) ∧
      w.trees.entries 0 = X ++ (w.walked self node ++ B) ∧
      w'.trees.entries 0 =
        X ++ ((w.walked self node).map (normalizedEntry first last l t) ++ B) := by
  obtain ⟨fuel, rfl⟩ := exists_fuel hfuel
  have hstop (hstep : exec (normalizeStep self first last l t node) w = some (.ok (.inr (), w)))
      (hwalk : w.walked self node = []) :
      ∃ w' X B, exec (loop (normalizeStep self first last l t) (fuel + 1) node) w =
          some (.ok ((), w')) ∧ w.trees.entries 0 = X ++ (w.walked self node ++ B) ∧
        w'.trees.entries 0 =
          X ++ ((w.walked self node).map (normalizedEntry first last l t) ++ B) := by
    refine ⟨w, w.trees.entries 0, [], exec_loop_done hstep, ?_, ?_⟩ <;> simp [hwalk]
  cases node with
  | none => exact hstop rfl rfl
  | some x =>
    by_cases hx : x ∈ w.trees.ids
    · -- the walk starts at the entry of the node
      rw [← map_id_entries 0, mem_map] at hx
      obtain ⟨e, he, rfl⟩ := hx
      obtain ⟨X, C, h⟩ := append_of_mem he
      have hX : ∀ d ∈ X, decide (d.id ≠ e.id) = true := by
        intro d hd
        obtain ⟨X1, X2, rfl⟩ := append_of_mem hd
        rw [List.append_assoc] at h
        simpa using w.id_ne_of_entries h
      have hdrop : (w.trees.entries 0).dropWhile (fun d => decide (d.id ≠ e.id)) = e :: C := by
        rw [h, dropWhile_append_of_pos hX, dropWhile_cons_of_neg (by simp)]
      by_cases hlt : w.level (some self) < e.level
      · have hwalk : w.walked self (some e.id) =
            e :: C.takeWhile fun d => decide (w.level (some self) < d.level) := by
          rw [World.walked, hdrop, takeWhile_cons_of_pos (by simpa using hlt)]
        have hspl : w.trees.entries 0 = X ++ (w.walked self (some e.id) ++
            C.dropWhile fun d => decide (w.level (some self) < d.level)) := by
          rw [h, hwalk, cons_append, takeWhile_append_dropWhile]
        have hD : ∀ d ∈ w.walked self (some e.id), w.level (some self) < d.level := by
          intro d hd
          simpa using mem_takeWhile_imp hd
        have hB : Closes (w.level (some self))
            (C.dropWhile fun d => decide (w.level (some self) < d.level)) := by
          intro d hd
          have := head?_dropWhile_not (fun d => decide (w.level (some self) < d.level)) C
          rw [hd] at this
          simpa using this
        have hlen : (w.walked self (some e.id)).length < fuel + 1 := by
          have := congrArg length hspl
          rw [length_append, length_append, length_entries] at this
          rw [World.size] at hfuel
          omega
        obtain ⟨w', hrun, hw'⟩ := exec_normalizeLoop self first last l t hspl rfl hD hB hlen
        refine ⟨w', X, _, ?_, hspl, hw'⟩
        rwa [hwalk, cons_append, cursor_cons (by omega)] at hrun
      · refine hstop (exec_normalizeStep_stop self first last l t ?_) ?_
        · rw [w.level_of_entries h]
          omega
        · rw [World.walked, hdrop, takeWhile_cons_of_neg (by simpa using hlt)]
    · -- a node that is not in the store has level zero
      have hlev : w.level (some x) = 0 := by
        simp [World.level, level, path?_eq_none.2 hx]
      refine hstop (exec_normalizeStep_stop self first last l t (by omega)) ?_
      rw [World.walked, dropWhile_eq_nil_iff.2]
      · rfl
      · intro e he
        simp only [decide_eq_true_eq]
        rintro rfl
        exact hx (mem_ids_of_mem_entries 0 _ he)

end Loop

/-- A text node that the loop makes longer: one blank unit, with a space at both ends. -/
def lengthened (first last : Option NodeID) (l t : Bool) (e : Entry Tag Content) : Bool :=
  match e.label with
  | .inr (.text s) => allowsSpace first l e.id && allowsSpace last t e.id &&
      decide (s.length = 1 ∧ wordsOf s = [])
  | _ => false

/-- Whether a text node grows is read off its entry. -/
theorem length_le_iff_not_lengthened {w' : World} {D B : Listing} {first last : Option NodeID}
    {l t : Bool} (h : w.trees.entries 0 = X ++ (D ++ B))
    (h' : w'.trees.entries 0 = X ++ (D.map (normalizedEntry first last l t) ++ B)) :
    (∀ x, w.kind? x = some .text → (w'.stringValue x).length ≤ (w.stringValue x).length) ↔
      ∀ e ∈ D, lengthened first last l t e = false := by
  have hold : ∀ e ∈ X ++ (D ++ B), ∀ s, e.label = .inr (.text s) →
      w.kind? e.id = some .text ∧ w.stringValue e.id = s := by
    intro e he s hs
    obtain ⟨A, C, hAC⟩ := append_of_mem he
    refine ⟨?_, w.stringValue_of_entries (h.trans hAC) hs⟩
    rw [w.kind?_of_entries (h.trans hAC), hs, kind]
  have hnew : ∀ e ∈ X ++ (D.map (normalizedEntry first last l t) ++ B), ∀ s,
      e.label = .inr (.text s) → w'.stringValue e.id = s := by
    intro e he s hs
    obtain ⟨A, C, hAC⟩ := append_of_mem he
    exact w'.stringValue_of_entries (h'.trans hAC) hs
  have hwal : ∀ e ∈ D, ∀ s, e.label = .inr (.text s) →
      ((w'.stringValue e.id).length ≤ s.length ↔ lengthened first last l t e = false) := by
    intro e he s hs
    have hla : (normalizedEntry first last l t e).label =
        .inr (.text (stringByNormalizingWhitespaceAllowLeading s (allowsSpace first l e.id)
          (allowsSpace last t e.id))) := by
      rw [normalizedEntry, hs, normalizedLabel]
    have hval : w'.stringValue e.id = _ :=
      hnew _ (mem_append_right _ (mem_append_left _ (mem_map_of_mem he))) _ hla
    rw [hval, length_stringByNormalizingWhitespace_le_iff, lengthened, hs]
    simp
  constructor
  · intro hle e he
    cases hl : lengthened first last l t e with
    | false => rfl
    | true =>
      obtain ⟨s, hs⟩ : ∃ s, e.label = .inr (.text s) := by
        by_contra hkind
        rcases hlab : e.label with tag | s | ⟨k, s⟩ <;> simp [lengthened, hlab] at hl hkind
      obtain ⟨hkind, hval⟩ := hold e (by simp [he]) s hs
      have := hle e.id hkind
      rw [hval, hwal e he s hs, hl] at this
      cases this
  · intro hno x hx
    obtain ⟨n, hn⟩ : ∃ n, w.node? x = some n := by
      cases hn : w.node? x with
      | none => simp [World.kind?, hn] at hx
      | some n => exact ⟨n, rfl⟩
    obtain ⟨k, A, C, hAC, -⟩ := World.exists_entries hn
    have hkind := w.kind?_of_entries hAC
    rw [hx, Option.some.injEq] at hkind
    obtain ⟨s, hs⟩ := exists_text_of_kind hkind.symm
    have hmem : (⟨k, x, n.label⟩ : Entry Tag Content) ∈ X ++ (D ++ B) := by
      rw [← h, hAC]
      simp
    rw [(hold _ hmem s hs).2]
    rcases mem_append.1 hmem with hX | hDB
    · exact (hnew _ (mem_append_left _ hX) s hs).symm ▸ le_rfl
    · rcases mem_append.1 hDB with hD | hB
      · exact (hwal _ hD s hs).2 (hno _ hD)
      · exact (hnew _ (by simp [hB]) s hs).symm ▸ le_rfl

/-- The method returns in the store the loop leaves. -/
theorem exec_normalizeWhitespaceAllowLeading (cocoa : Cocoa) {w1 : World} {self : NodeID}
    {node first last : Option NodeID} (l t : Bool)
    (h : exec (nodesToNormalize cocoa self) w = some (.ok ((node, first, last), w1))) :
    ∃ w' X B, (∀ fuel, w1.size < fuel →
        exec (normalizeWhitespaceAllowLeading cocoa fuel self l t) w = some (.ok ((), w'))) ∧
      w1.trees.entries 0 = X ++ (w1.walked self node ++ B) ∧
      w'.trees.entries 0 =
        X ++ ((w1.walked self node).map (normalizedEntry first last l t) ++ B) := by
  obtain ⟨w', X, B, hrun, hX, hw'⟩ :=
    exec_normalizeLoop_walked self first last l t w1 node (Nat.lt_succ_self w1.size)
  refine ⟨w', X, B, fun fuel hfuel => ?_, hX, hw'⟩
  have hmore := Approximates.loop (fun k => Approximates.refl (normalizeStep self first last l t k))
    (Nat.succ_le_of_lt hfuel) node w1 _ hrun
  rw [normalizeWhitespaceAllowLeading, exec_bind, h]
  exact hmore

/-- A string is normalized as intended unless it is white space and both spaces are allowed; no text
node gets longer unless one is a single unit of white space that may have a space at both ends. -/
theorem normalizeWhitespace_correct_iff (l t : Bool) :
    (∀ s : NSString,
      NormalizesWhitespace l t s ↔ ¬(l = true ∧ t = true ∧ s ≠ [] ∧ wordsOf s = [])) ∧
    ∀ (cocoa : Cocoa) (w w₁ : World) (self : NodeID) (node first last : Option NodeID),
      exec (nodesToNormalize cocoa self) w = some (.ok ((node, first, last), w₁)) →
      ∃ w', (∀ fuel, w₁.size < fuel →
          exec (normalizeWhitespaceAllowLeading cocoa fuel self l t) w = some (.ok ((), w'))) ∧
        ((∀ x, w₁.kind? x = some .text → (w'.stringValue x).length ≤ (w₁.stringValue x).length) ↔
          ∀ e ∈ w₁.walked self node, lengthened first last l t e = false) := by
  refine ⟨normalizesWhitespace_iff l t, ?_⟩
  intro cocoa w w₁ self node first last h
  obtain ⟨w', X, B, hexec, hX, hw'⟩ := exec_normalizeWhitespaceAllowLeading cocoa l t h
  exact ⟨w', hexec, length_le_iff_not_lengthened hX hw'⟩

/-- `<p>a<b> c </b></p>` -/
def samplePadded : World :=
  ⟨.branch 1 (plainTag (literal "p") [])
    (.leaf 2 (.text (literal "a")) (.branch 3 (plainTag (literal "b") [])
      (.leaf 4 (.text (literal " c ")) .nil) .nil)) .nil, by decide⟩

theorem normalizeWhitespace_correct_padded :
    NormalizesWhitespace true true (literal " c ") ∧
    ∃ w', (∀ fuel, samplePadded.size < fuel →
        exec (normalizeWhitespaceAllowLeading Cocoa.inert fuel 1 false false) samplePadded =
          some (.ok ((), w'))) ∧
      ∀ x, samplePadded.kind? x = some .text →
        (w'.stringValue x).length ≤ (samplePadded.stringValue x).length := by
  refine ⟨((normalizeWhitespace_correct_iff true true).1 (literal " c ")).2 (by decide), ?_⟩
  obtain ⟨w', hexec, hle⟩ := (normalizeWhitespace_correct_iff false false).2 Cocoa.inert
    samplePadded samplePadded 1 (some 2) (some 2) (some 4) rfl
  exact ⟨w', hexec, hle.2 (by decide)⟩

/-- `<p>a<b> </b>c</p>` -/
def sampleGap : World :=
  ⟨.branch 1 (plainTag (literal "p") [])
    (.leaf 2 (.text (literal "a")) (.branch 3 (plainTag (literal "b") [])
      (.leaf 4 (.text (literal " ")) .nil) (.leaf 5 (.text (literal "c")) .nil))) .nil, by decide⟩

/-- One space becomes two. -/
theorem normalizeWhitespace_wrong :
    ¬NormalizesWhitespace true true (literal " ") ∧
    stringByNormalizingWhitespaceAllowLeading (literal " ") true true = literal "  " ∧
    sampleGap.stringValue 4 = literal " " ∧
    ∃ w', exec (normalizeWhitespaceAllowLeading Cocoa.inert 6 1 false false) sampleGap =
        some (.ok ((), w')) ∧ w'.stringValue 4 = literal "  " := by
  refine ⟨fun h => ?_, by decide, by decide, ?_⟩
  · exact absurd h.length_le (by decide)
  · exact ⟨_, rfl, by decide⟩

end Feather.XML
