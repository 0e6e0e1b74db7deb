import Feather.XML.Foundation

/-!
# Regular expressions on Swift strings

`String+MPExtensions.swift`.  A regular expression works on UTF-16 units, and a Swift string counts
characters, of one or more units: the methods search a range that ends too early for a longer
character.
-/

namespace Feather.Extensions

open Feather.XML List Option

/-- Extended grapheme clusters. -/
structure Characters where
  clusters : NSString → List NSString
  flatten : ∀ s, (clusters s).flatten = s
  ne_nil : ∀ s, [] ∉ clusters s

/-- `NSRange` -/
structure NSRange where
  location : ℕ
  length : ℕ

def NSRange.substring (range : NSRange) (s : NSString) : NSString :=
  (s.drop range.location).take range.length

/-- `NSTextCheckingResult`; a group that does not participate has no range. -/
structure TextCheckingResult where
  range : NSRange
  groups : List (Option NSRange)

/-- `NSRegularExpression`, any that answers matches inside the text. -/
structure RegularExpression where
  matchesIn : NSString → List TextCheckingResult
  replacingMatches : NSString → NSString → NSString
  inside : ∀ text, ∀ m ∈ matchesIn text, ∀ range, some range ∈ some m.range :: m.groups →
    range.location + range.length ≤ text.length

section

variable (characters : Characters) (regex : RegularExpression) (s : NSString)

/-- `count` -/
def Characters.count : ℕ := (characters.clusters s).length

/-- The positions between the characters, and at the ends. -/
def Characters.boundaries : List ℕ := (characters.clusters s).inits.map fun l => l.flatten.length

/-- `String(self[Range(range, in: self)!])`, which traps for a range that divides a character. -/
def Characters.substring? (range : NSRange) : Option NSString :=
  if range.location ∈ characters.boundaries s ∧
      range.location + range.length ∈ characters.boundaries s then some (range.substring s)
  else none

/-- `substring(with:)` of an `NSString`, which raises an exception outside the string. -/
def substringWith : Option NSRange → Option NSString
  | none => none
  | some range =>
    if range.location + range.length ≤ s.length then some (range.substring s) else none

/-- `matches(regex:caseSensitively:)` -/
def matchesRegex : Option (List NSString) :=
  (regex.matchesIn (s.take (characters.count s))).mapM fun m => characters.substring? s m.range

/-- `stringByReplacingOccurrences(ofRegex:withTemplate:caseSensitively:)` -/
def stringByReplacingOccurrences (template : NSString) : NSString :=
  regex.replacingMatches template (s.take (characters.count s)) ++ s.drop (characters.count s)

/-- `capturedGroups(withRegex:caseSensitively:)` -/
def capturedGroups : Option (List NSString) :=
  match (regex.matchesIn (s.take (characters.count s))).head? with
  | none => some []
  | some m => m.groups.mapM (substringWith s)

/-- The methods do not trap, and give what the engine finds in the whole string. -/
structure ActsOnWhole : Prop where
  matchesRegex_eq : matchesRegex characters regex s =
    some ((regex.matchesIn s).map fun m => m.range.substring s)
  replacing_eq : ∀ template, stringByReplacingOccurrences characters regex s template =
    regex.replacingMatches template s
  capturedGroups_eq : ∃ texts, capturedGroups characters regex s = some texts ∧
    List.Forall₂ (fun text group => ∀ range ∈ group, text = range.substring s) texts
      (((regex.matchesIn s).head?.map TextCheckingResult.groups).getD [])

/-- All groups of the first match participate in it. -/
def Participates : Prop := ∀ m ∈ (regex.matchesIn s).head?, none ∉ m.groups

end

variable {characters : Characters} {regex : RegularExpression} {s : NSString}

/-! ### Strings of single units -/

theorem length_le_length_flatten {L : List NSString} (hL : [] ∉ L) : L.length ≤ L.flatten.length := by
  induction L with
  | nil => exact le_rfl
  | cons cluster L ih =>
    rw [mem_cons, not_or] at hL
    have hpos := length_pos_iff.2 (Ne.symm hL.1)
    rw [flatten_cons, length_append, length_cons]
    have := ih hL.2
    omega

theorem count_le (characters : Characters) (s : NSString) : characters.count s ≤ s.length := by
  have hle := length_le_length_flatten (characters.ne_nil s)
  rwa [characters.flatten] at hle

theorem length_flatten_take {L : List NSString} (hL : [] ∉ L) (h : L.flatten.length = L.length)
    {k : ℕ} (hk : k ≤ L.length) : (L.take k).flatten.length = k := by
  have htake := length_le_length_flatten fun hmem => hL (mem_of_mem_take (i := k) hmem)
  have hdrop := length_le_length_flatten fun hmem => hL (mem_of_mem_drop (i := k) hmem)
  have hsum : (L.take k).flatten.length + (L.drop k).flatten.length = L.flatten.length := by
    rw [← length_append, ← flatten_append, take_append_drop]
  rw [length_take] at htake
  rw [length_drop] at hdrop
  omega

theorem mem_boundaries (h : characters.count s = s.length) {k : ℕ} (hk : k ≤ s.length) :
    k ∈ characters.boundaries s := by
  have hflatten := congrArg length (characters.flatten s)
  refine mem_map.2 ⟨(characters.clusters s).take k, (mem_inits _ _).2 ( take_prefix _ _), ?_⟩
  exact length_flatten_take (characters.ne_nil s) (hflatten.trans h.symm) (hk.trans h.ge)

theorem matchesRegex_eq (h : characters.count s = s.length) : matchesRegex characters regex s =
    some ((regex.matchesIn s).map fun m => m.range.substring s) := by
  rw [matchesRegex, take_of_length_le h.ge]
  have hinside : ∀ m ∈ regex.matchesIn s, m.range.location + m.range.length ≤ s.length :=
    fun m hm => regex.inside s m hm m.range mem_cons_self
  generalize regex.matchesIn s = results at hinside ⊢
  induction results with
  | nil => rfl
  | cons m results ih =>
    obtain ⟨hm, hinside⟩ := forall_mem_cons.1 hinside
    have hsub : characters.substring? s m.range = some (m.range.substring s) :=
      if_pos ⟨mem_boundaries h (by omega), mem_boundaries h hm⟩
    rw [mapM_cons, hsub, ih hinside]
    rfl

theorem mapM_substringWith {groups : List (Option NSRange)}
    (hinside : ∀ range, some range ∈ groups → range.location + range.length ≤ s.length) :
    (∃ texts, groups.mapM (substringWith s) = some texts ∧
      List.Forall₂ (fun text group => ∀ range ∈ group, text = range.substring s) texts groups) ↔
    none ∉ groups := by
  induction groups with
  | nil => exact iff_of_true ⟨[], rfl, .nil⟩ not_mem_nil
  | cons group groups ih =>
    have ih := ih fun range hrange => hinside range (mem_cons_of_mem _ hrange)
    cases group with
    | none => simp [substringWith]
    | some range =>
      have htext : substringWith s (some range) = some (range.substring s) :=
        if_pos (hinside range mem_cons_self)
      rw [mem_cons, or_iff_right (by simp), ← ih, mapM_cons, htext]
      constructor
      · rintro ⟨texts, htexts, hall⟩
        rw [bind_eq_bind, bind_some] at htexts
        obtain ⟨rest, hrest, ⟨⟩⟩ := bind_eq_some_iff.1 htexts
        exact ⟨rest, hrest, (forall₂_cons.1 hall).2⟩
      · rintro ⟨texts, htexts, hall⟩
        refine ⟨range.substring s :: texts, by rw [htexts]; rfl, .cons ?_ hall⟩
        rintro _ ⟨⟩
        rfl

theorem actsOnWhole_iff_participates (h : characters.count s = s.length) :
    ActsOnWhole characters regex s ↔ Participates regex s := by
  have htake : s.take (characters.count s) = s := take_of_length_le h.ge
  have hgroups : (∃ texts, capturedGroups characters regex s = some texts ∧
      List.Forall₂ (fun text group => ∀ range ∈ group, text = range.substring s) texts
        (((regex.matchesIn s).head?.map TextCheckingResult.groups).getD [])) ↔
      Participates regex s := by
    unfold capturedGroups Participates
    rw [htake]
    cases hhead : (regex.matchesIn s).head? with
    | none => exact iff_of_true ⟨[], rfl, .nil⟩ (by simp)
    | some m =>
      have hm := mem_of_mem_head? hhead
      simpa using mapM_substringWith fun range hrange =>
        regex.inside s m hm range (mem_cons_of_mem _ hrange)
  refine ⟨fun hwhole => hgroups.1 hwhole.capturedGroups_eq, fun hpart => ?_⟩
  refine ⟨matchesRegex_eq h, fun template => ?_, hgroups.2 hpart⟩
  rw [stringByReplacingOccurrences, htake, drop_of_length_le h.ge, append_nil]

/-- `\A[\s\S]*` with `k` groups behind it that do not participate. -/
def RegularExpression.everything (k : ℕ) : RegularExpression where
  matchesIn := fun text => [⟨⟨0, text.length⟩, replicate k none⟩]
  replacingMatches := fun template _ => template
  inside := by
    intro text m hm range hrange
    obtain rfl := mem_singleton.1 hm
    obtain hrange | hrange := mem_cons.1 hrange
    · obtain rfl := some.inj hrange
      exact (Nat.zero_add _).le
    · cases eq_of_mem_replicate hrange

/-- Exactly on the strings with as many characters as units, the methods do what is asked for
exactly the patterns whose groups participate in the first match. -/
theorem actsOnWhole_iff (characters : Characters) (s : NSString) :
    (∀ regex, ActsOnWhole characters regex s ↔ Participates regex s) ↔
      characters.count s = s.length := by
  refine ⟨fun h => ?_, fun h regex => actsOnWhole_iff_participates h⟩
  have hwhole := (h (.everything 0)).2 (by simp [Participates, RegularExpression.everything])
  -- the units after the range stay behind what replaces everything
  have hdrop : s.drop (characters.count s) = [] := hwhole.replacing_eq []
  exact (count_le characters s).antisymm (drop_eq_nil_iff.1 hdrop)

/-- A character for every Unicode scalar: a surrogate pair is one. -/
def scalars : NSString → List NSString
  | [] => []
  | [c] => [[c]]
  | c :: d :: s =>
    if c &&& 0xFC00 = 0xD800 ∧ d &&& 0xFC00 = 0xDC00 then [c, d] :: scalars s
    else [c] :: scalars (d :: s)

def Characters.scalars : Characters where
  clusters := Extensions.scalars
  flatten := by
    intro s
    fun_induction Extensions.scalars s <;> simp_all
  ne_nil := by
    intro s
    fun_induction Extensions.scalars s <;> simp_all

/-- The last unit of `😀a` is not replaced, and a missing group is an exception. -/
theorem everything_misses :
    stringByReplacingOccurrences .scalars (.everything 0) [0xD83D, 0xDE00, 0x61] [] = [0x61] ∧
    (RegularExpression.everything 0).replacingMatches [] [0xD83D, 0xDE00, 0x61] = [] ∧
    capturedGroups .scalars (.everything 1) [0x61] = none := by
  decide

end Feather.Extensions
