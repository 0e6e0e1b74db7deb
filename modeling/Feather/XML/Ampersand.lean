import Feather.XML.World

/-!
# Escaping ampersands

`stringByEscapingUnescapedAmpersands` searches a mutable string for ampersands and replaces those
that do not start an entity, while the search range moves over the string it rewrites.  An entity is
one of the five named ones or a numeric one (`IsEntity`).

The loop computes `ampersandsEscaped` (`exec_ampersandLoop`: what is in front of the search range is
final), unless a combining mark stands behind an ampersand, which the searches pass over.  No
ampersand is left that does not start an entity, so escaping twice is escaping once.
-/

namespace Feather.XML

open Program List

variable {σ : Type}
variable {marks : CombiningMarks} {s ms : NSString} {c : Unichar} {i : ℕ}

/-! ### Strings with ranges -/

/-- `NSRange` -/
structure NSRange where
  location : ℕ
  length : ℕ
  deriving DecidableEq, Repr

/-- `-rangeOfString:options:range:` without options; `none` stands for `NSNotFound`. -/
def rangeOfString (marks : CombiningMarks) (s target : NSString) (range : NSRange) :
    Prog σ NSException (Option NSRange) :=
  if s.length < range.location + range.length then throw .range
  else pure ((marks.indexOfOccurrence target ((s.drop range.location).take range.length)).map
    fun i => ⟨range.location + i, target.length⟩)

/-- `-substringWithRange:` -/
def substringWithRange (s : NSString) (range : NSRange) : Prog σ NSException NSString :=
  if s.length < range.location + range.length then throw .range
  else pure ((s.drop range.location).take range.length)

/-- `-characterAtIndex:` -/
def characterAtIndex (s : NSString) (i : ℕ) : Prog σ NSException Unichar :=
  match s[i]? with
  | none => throw .range
  | some c => pure c

/-- `-replaceCharactersInRange:withString:` -/
def replaceCharactersInRange (s : NSString) (range : NSRange) (replacement : NSString) :
    Prog σ NSException NSString :=
  if s.length < range.location + range.length then throw .range
  else pure (s.take range.location ++ replacement ++ s.drop (range.location + range.length))

/-! ### The method -/

/-- The standard XML entities. -/
def entities : List NSString :=
  [literal "&amp;", literal "&quot;", literal "&apos;", literal "&lt;", literal "&gt;"]

def decimalEntityCharacters (c : Unichar) : Bool := (literal "0123456789").contains c

def hexEntityCharacters (c : Unichar) : Bool := (literal "0123456789abcdefABCDEF").contains c

/-- Does one of the given entities stand at a location? -/
def startsNamedEntity (ms : NSString) (location : ℕ) : List NSString → Prog σ NSException Bool
  | [] => pure false
  | entity :: entities =>
    if ms.length < location + entity.length then startsNamedEntity ms location entities
    else do
      let substring ← substringWithRange ms ⟨location, entity.length⟩
      if substring = entity then pure true else startsNamedEntity ms location entities

/-- The loop over the characters of a numeric entity, with the number of indices left. -/
def numericEntityEnds (ms : NSString) (entityCharacters : Unichar → Bool) :
    ℕ → ℕ → ℕ → Prog σ NSException Bool
  | 0, _, _ => pure false
  | n + 1, i, entityCharacterCount => do
    let c ← characterAtIndex ms i
    if entityCharacters c then
      numericEntityEnds ms entityCharacters n (i + 1) (entityCharacterCount + 1)
    else pure (decide (c = unichar ';' ∧ 0 < entityCharacterCount))

/-- Does a numeric character entity stand at the location of an ampersand? -/
def startsNumericEntity (ms : NSString) (location : ℕ) : Prog σ NSException Bool :=
  if location + 2 < ms.length then do
    let c ← characterAtIndex ms (location + 1)
    if c = unichar '#' then do
      let x ← characterAtIndex ms (location + 2)
      if x = unichar 'x' then
        numericEntityEnds ms hexEntityCharacters (ms.length - (location + 3)) (location + 3) 0
      else
        numericEntityEnds ms decimalEntityCharacters (ms.length - (location + 2)) (location + 2) 0
    else pure false
  else pure false

/-- No entity is at the location. -/
def shouldEscape (ms : NSString) (location : ℕ) : Prog σ NSException Bool := do
  let named ← startsNamedEntity ms location entities
  if named then pure false
  else do
    let numeric ← startsNumericEntity ms location
    pure (!numeric)

/-- Replace the found ampersand, if it has to be. -/
def escapeAt (ms : NSString) (r : NSRange) : Prog σ NSException NSString := do
  let escape ← shouldEscape ms r.location
  if escape then replaceCharactersInRange ms r (literal "&amp;") else pure ms

/-- One iteration of the loop, on the mutable string and the search range. -/
def escapeNextAmpersand (marks : CombiningMarks) (v : NSString × NSRange) :
    Prog σ NSException ((NSString × NSRange) ⊕ NSString) := do
  let found ← rangeOfString marks v.1 (literal "&") v.2
  match found with
  | none => pure (.inr v.1)
  | some r => do
    let ms ← escapeAt v.1 r
    let next ← rangeOfString marks ms (literal "&") ⟨r.location + 1, ms.length - (r.location + 1)⟩
    match next with
    | none => pure (.inr ms)
    | some r => if r.location < ms.length then pure (.inl (ms, r)) else pure (.inr ms)

/-- `-stringByEscapingUnescapedAmpersands` -/
def stringByEscapingUnescapedAmpersands (marks : CombiningMarks) (fuel : ℕ) (self : NSString) :
    Prog σ NSException NSString :=
  if marks.indexOfOccurrence (literal "&") self = none then pure self
  else loop (escapeNextAmpersand marks) fuel (self, ⟨0, self.length⟩)

/-! ### Entities -/

/-- `&name;` for the five names, `&#digits;` or `&#xdigits;` with at least one digit. -/
inductive IsEntity : NSString → Prop
  | named {e : NSString} (h : e ∈ entities) : IsEntity e
  | decimal {digits : NSString} (hne : digits ≠ []) (h : ∀ c ∈ digits, decimalEntityCharacters c) :
    IsEntity (literal "&#" ++ digits ++ literal ";")
  | hex {digits : NSString} (hne : digits ≠ []) (h : ∀ c ∈ digits, hexEntityCharacters c) :
    IsEntity (literal "&#x" ++ digits ++ literal ";")

/-- The string starts with an entity. -/
def StartsEntity (s : NSString) : Prop := ∃ e, IsEntity e ∧ e <+: s

/-- An entity has one ampersand, at its start, and goes on with an ASCII character. -/
theorem IsEntity.exists_body {e : NSString} (h : IsEntity e) :
    ∃ d body, e = unichar '&' :: d :: body ∧ d < 0x80 ∧ unichar '&' ∉ d :: body := by
  have notMem_digits {set : Unichar → Bool} (hset : set (unichar '&') = false)
      {digits : NSString} (hd : ∀ c ∈ digits, set c) : unichar '&' ∉ digits := by
    intro hmem
    have := hd _ hmem
    rw [hset] at this
    cases this
  cases h with
  | named h =>
    have hall : ∀ e ∈ entities, ∃ d ∈ e, e = unichar '&' :: d :: e.drop 2 ∧ d < 0x80 ∧
        unichar '&' ∉ d :: e.drop 2 := by decide
    obtain ⟨d, -, hd⟩ := hall e h
    exact ⟨d, _, hd⟩
  | @decimal digits hne hd =>
    refine ⟨unichar '#', digits ++ literal ";", rfl, by decide, ?_⟩
    rw [mem_cons, mem_append, not_or, not_or]
    exact ⟨by decide, notMem_digits (by decide) hd, by decide⟩
  | @hex digits hne hd =>
    refine ⟨unichar '#', unichar 'x' :: (digits ++ literal ";"), rfl, by decide, ?_⟩
    rw [mem_cons, mem_cons, mem_append, not_or, not_or, not_or]
    exact ⟨by decide, by decide, notMem_digits (by decide) hd, by decide⟩

/-- Does the string start with characters of the set and a semicolon? -/
def endsEntity (set : Unichar → Bool) : ℕ → NSString → Bool
  | _, [] => false
  | count, c :: s =>
    if set c then endsEntity set (count + 1) s else decide (c = unichar ';' ∧ 0 < count)

/-- The test for a numeric entity, on what stands behind the ampersand. -/
def isNumericTail (s : NSString) : Bool :=
  match s with
  | c :: x :: s =>
    decide (c = unichar '#') &&
      if x = unichar 'x' then endsEntity hexEntityCharacters 0 s
      else endsEntity decimalEntityCharacters 0 (x :: s)
  | _ => false

theorem endsEntity_iff {set : Unichar → Bool} (hset : set (unichar ';') = false) (count : ℕ)
    (s : NSString) :
    endsEntity set count s = true ↔
      ∃ digits, (∀ c ∈ digits, set c) ∧ 0 < count + digits.length ∧
        digits ++ [unichar ';'] <+: s := by
  induction s generalizing count with
  | nil =>
    simp only [endsEntity, Bool.false_eq_true, false_iff, not_exists]
    rintro digits ⟨-, -, h⟩
    simp at h
  | cons c s ih =>
    rw [endsEntity]
    split_ifs with hc
    · rw [ih]
      constructor
      · rintro ⟨digits, hd, hcnt, hp⟩
        refine ⟨c :: digits, ?_, by simp, ?_⟩
        · simpa [hc] using hd
        · simpa using hp
      · rintro ⟨digits, hd, hcnt, hp⟩
        cases digits with
        | nil =>
          -- the set would contain the semicolon
          simp only [nil_append, cons_prefix_cons, nil_prefix, and_true] at hp
          rw [← hp, hset] at hc
          cases hc
        | cons d digits =>
          simp only [cons_append, cons_prefix_cons] at hp
          exact ⟨digits, fun c hc => hd c (mem_cons_of_mem _ hc), by omega, hp.2⟩
    · rw [decide_eq_true_eq]
      constructor
      · rintro ⟨rfl, hcnt⟩
        exact ⟨[], by simp, by simpa using hcnt, by simp⟩
      · rintro ⟨digits, hd, hcnt, hp⟩
        cases digits with
        | nil =>
          simp only [nil_append, cons_prefix_cons, nil_prefix, and_true] at hp
          exact ⟨hp.symm, by simpa using hcnt⟩
        | cons d digits =>
          simp only [cons_append, cons_prefix_cons] at hp
          exact absurd (hd c (by simp [hp.1])) hc

theorem isNumericTail_iff (s : NSString) :
    isNumericTail s = true ↔
      (∃ digits : NSString, digits ≠ [] ∧ (∀ c ∈ digits, decimalEntityCharacters c) ∧
        literal "#" ++ digits ++ literal ";" <+: s) ∨
      ∃ digits : NSString, digits ≠ [] ∧ (∀ c ∈ digits, hexEntityCharacters c) ∧
        literal "#x" ++ digits ++ literal ";" <+: s := by
  have hash : literal "#" = [unichar '#'] := rfl
  have hashx : literal "#x" = [unichar '#', unichar 'x'] := rfl
  simp only [hash, hashx, cons_append, nil_append]
  rcases s with _ | ⟨c, _ | ⟨x, s⟩⟩
  · simp [isNumericTail]
  · simp [isNumericTail]
  · simp only [isNumericTail, cons_prefix_cons, Bool.and_eq_true, decide_eq_true_eq]
    by_cases hxx : x = unichar 'x'
    · rw [if_pos hxx, endsEntity_iff (by decide)]
      constructor
      · rintro ⟨rfl, digits, hd, hcnt, hp⟩
        refine .inr ⟨digits, ?_, hd, rfl, hxx.symm, hp⟩
        exact ne_nil_of_length_pos (by omega)
      · rintro (⟨digits, hne, hd, rfl, hp⟩ | ⟨digits, hne, hd, rfl, -, hp⟩)
        · -- a decimal entity does not go on with an x
          obtain ⟨d, digits, rfl⟩ := exists_cons_of_ne_nil hne
          rw [cons_append, cons_prefix_cons, hxx] at hp
          have := hd d (by simp)
          rw [hp.1] at this
          cases this
        · have := length_pos_of_ne_nil hne
          exact ⟨rfl, digits, hd, by omega, hp⟩
    · rw [if_neg hxx, endsEntity_iff (by decide)]
      constructor
      · rintro ⟨rfl, digits, hd, hcnt, hp⟩
        refine .inl ⟨digits, ?_, hd, rfl, hp⟩
        exact ne_nil_of_length_pos (by omega)
      · rintro (⟨digits, hne, hd, rfl, hp⟩ | ⟨digits, hne, hd, rfl, hxx', hp⟩)
        · have := length_pos_of_ne_nil hne
          exact ⟨rfl, digits, hd, by omega, hp⟩
        · exact absurd hxx'.symm hxx

/-- The two tests of the source together, at the start of a string. -/
def startsEntity (s : NSString) : Bool :=
  entities.any (fun e => e.isPrefixOf s) || (s.head? == some (unichar '&') && isNumericTail s.tail)

theorem startsEntity_iff (s : NSString) : startsEntity s = true ↔ StartsEntity s := by
  cases s with
  | nil =>
    refine ⟨fun h => absurd h (by decide), ?_⟩
    rintro ⟨e, he, hp⟩
    obtain ⟨d, body, rfl, -⟩ := he.exists_body
    simp at hp
  | cons c t =>
    simp only [startsEntity, Bool.or_eq_true, any_eq_true, isPrefixOf_iff_prefix,
      Bool.and_eq_true, beq_iff_eq, isNumericTail_iff, head?_cons, Option.some.injEq]
    constructor
    · rintro (⟨e, he, hp⟩ | ⟨rfl, ⟨digits, hne, hd, hp⟩ | ⟨digits, hne, hd, hp⟩⟩)
      · exact ⟨e, .named he, hp⟩
      · exact ⟨_, .decimal hne hd, cons_prefix_cons.2 ⟨rfl, hp⟩⟩
      · exact ⟨_, .hex hne hd, cons_prefix_cons.2 ⟨rfl, hp⟩⟩
    · rintro ⟨e, he, hp⟩
      cases he with
      | named h => exact .inl ⟨e, h, hp⟩
      | decimal hne hd =>
        have hp := cons_prefix_cons.1 hp
        exact .inr ⟨hp.1.symm, .inl ⟨_, hne, hd, hp.2⟩⟩
      | hex hne hd =>
        have hp := cons_prefix_cons.1 hp
        exact .inr ⟨hp.1.symm, .inr ⟨_, hne, hd, hp.2⟩⟩

instance (s : NSString) : Decidable (StartsEntity s) := decidable_of_iff _ (startsEntity_iff s)

/-! ### The string with its ampersands escaped -/

/-- Each ampersand that does not start an entity is replaced. -/
def ampersandsEscaped : NSString → NSString
  | [] => []
  | c :: s =>
    if c = unichar '&' ∧ ¬StartsEntity (c :: s) then literal "&amp;" ++ ampersandsEscaped s
    else c :: ampersandsEscaped s

/-- Every ampersand of the string starts an entity. -/
def AmpersandsStartEntities (s : NSString) : Prop :=
  ∀ X Y, s = X ++ unichar '&' :: Y → StartsEntity (unichar '&' :: Y)

theorem ampersandsEscaped_append (h : unichar '&' ∉ s) (t : NSString) :
    ampersandsEscaped (s ++ t) = s ++ ampersandsEscaped t := by
  induction s with
  | nil => rfl
  | cons c s ih =>
    rw [mem_cons, not_or] at h
    rw [cons_append, ampersandsEscaped, if_neg, ih h.2, cons_append]
    rintro ⟨rfl, -⟩
    exact h.1 rfl

theorem ampersandsEscaped_of_notMem (h : unichar '&' ∉ s) : ampersandsEscaped s = s := by
  have := ampersandsEscaped_append h []
  simpa [ampersandsEscaped] using this

/-- An entity is still one when what follows it is escaped. -/
theorem StartsEntity.ampersandsEscaped (h : StartsEntity (unichar '&' :: s)) :
    StartsEntity (unichar '&' :: ampersandsEscaped s) := by
  obtain ⟨e, he, hp⟩ := h
  obtain ⟨d, body, rfl, -, hbody⟩ := he.exists_body
  rw [cons_prefix_cons] at hp
  obtain ⟨t, rfl⟩ := hp.2
  refine ⟨_, he, ?_⟩
  rw [ampersandsEscaped_append hbody, cons_prefix_cons]
  exact ⟨rfl, prefix_append _ _⟩

theorem ampersandsStartEntities_cons (hc : c = unichar '&' → StartsEntity (c :: s))
    (h : AmpersandsStartEntities s) : AmpersandsStartEntities (c :: s) := by
  intro X Y hXY
  cases X with
  | nil =>
    obtain ⟨rfl, rfl⟩ := hXY
    exact hc rfl
  | cons x X =>
    rw [cons_append, cons.injEq] at hXY
    exact h X Y hXY.2

theorem ampersandsStartEntities_append {t : NSString} (hs : unichar '&' ∉ s)
    (h : AmpersandsStartEntities t) : AmpersandsStartEntities (s ++ t) := by
  induction s with
  | nil => exact h
  | cons c s ih =>
    rw [mem_cons, not_or] at hs
    refine ampersandsStartEntities_cons (fun hc => absurd hc.symm hs.1) (ih hs.2)

theorem ampersandsStartEntities_ampersandsEscaped (s : NSString) :
    AmpersandsStartEntities (ampersandsEscaped s) := by
  induction s with
  | nil =>
    intro X Y h
    simp [ampersandsEscaped] at h
  | cons c s ih =>
    rw [ampersandsEscaped]
    split_ifs with h
    · refine ampersandsStartEntities_cons (fun _ => ?_) ?_
      · exact ⟨literal "&amp;", .named (by decide), prefix_append _ _⟩
      · have hbody : unichar '&' ∉ literal "amp;" := by decide
        exact ampersandsStartEntities_append hbody ih
    · refine ampersandsStartEntities_cons (fun hc => ?_) ih
      subst hc
      have hs : StartsEntity (unichar '&' :: s) := by
        by_contra hs
        exact h ⟨rfl, hs⟩
      exact hs.ampersandsEscaped

theorem ampersandsEscaped_eq_self (h : AmpersandsStartEntities s) : ampersandsEscaped s = s := by
  induction s with
  | nil => rfl
  | cons c s ih =>
    have hs : AmpersandsStartEntities s := by
      intro X Y hXY
      exact h (c :: X) Y (by rw [hXY, cons_append])
    rw [ampersandsEscaped, if_neg, ih hs]
    rintro ⟨rfl, hn⟩
    exact hn (h [] s rfl)

/-- What stands behind the ampersand of an entity is no mark. -/
theorem StartsEntity.goesOn_tail (h : StartsEntity (unichar '&' :: s)) : marks.goesOn s = false := by
  obtain ⟨e, he, t, ht⟩ := h
  obtain ⟨d, body, rfl, hd, -⟩ := he.exists_body
  obtain rfl : d :: (body ++ t) = s := (cons.inj ht).2
  exact marks.goesOn_cons (.inl hd) _

theorem not_marked_behind {A B : NSString} (h : ¬marks.Marked [unichar '&'] (A ++ c :: B)) :
    ¬marks.Marked [unichar '&'] B :=
  marks.not_marked_of_suffix h ((suffix_cons c B).trans (suffix_append A _))

theorem AmpersandsStartEntities.not_marked (h : AmpersandsStartEntities s) :
    ¬marks.Marked [unichar '&'] s := by
  rintro ⟨X, Y, hXY, hY⟩
  rw [(h X Y hXY).goesOn_tail] at hY
  cases hY

/-! ### What the loops compute -/

theorem exec_startsNamedEntity (ms : NSString) {location : ℕ} (h : location ≤ ms.length)
    (entities : List NSString) (w : σ) :
    exec (startsNamedEntity ms location entities) w =
      some (.ok (entities.any fun e => e.isPrefixOf (ms.drop location), w)) := by
  induction entities with
  | nil => rfl
  | cons e entities ih =>
    have hsts : e.isPrefixOf (ms.drop location) = true ↔
        ¬ms.length < location + e.length ∧ (ms.drop location).take e.length = e := by
      rw [ isPrefixOf_iff_prefix, prefix_iff_eq_take, eq_comm]
      refine ⟨fun he => ⟨?_, he⟩, fun he => he.2⟩
      have := congrArg length he
      rw [length_take, length_drop] at this
      omega
    rw [startsNamedEntity, exec_ite, ih, any_cons]
    by_cases hlen : ms.length < location + e.length
    · have : e.isPrefixOf (ms.drop location) = false := by
        rw [← Bool.not_eq_true, hsts]
        exact fun he => he.1 hlen
      rw [if_pos hlen, this, Bool.false_or]
    · have hsub : exec (substringWithRange ms ⟨location, e.length⟩ : Prog σ NSException NSString) w =
          some (.ok ((ms.drop location).take e.length, w)) := by
        simp [substringWithRange, hlen]
      rw [if_neg hlen, exec_bind, hsub, andThen_ok, exec_ite, ih, exec_pure]
      by_cases he : (ms.drop location).take e.length = e
      · rw [if_pos he, hsts.2 ⟨hlen, he⟩, Bool.true_or]
      · have : e.isPrefixOf (ms.drop location) = false := by
          rw [← Bool.not_eq_true, hsts]
          exact fun h => he h.2
        rw [if_neg he, this, Bool.false_or]

theorem exec_characterAtIndex (h : ms.drop i = c :: s) (w : σ) :
    exec (characterAtIndex ms i : Prog σ NSException Unichar) w = some (.ok (c, w)) := by
  have : ms[i]? = some c := by
    rw [← Nat.add_zero i, ← getElem?_drop, h]
    rfl
  rw [characterAtIndex, this]
  rfl

theorem drop_add_one (h : ms.drop i = c :: s) : ms.drop (i + 1) = s := by
  rw [← drop_drop, h]
  rfl

theorem exec_numericEntityEnds (set : Unichar → Bool) (count : ℕ) (h : ms.drop i = s) (w : σ) :
    exec (numericEntityEnds ms set (ms.length - i) i count) w =
      some (.ok (endsEntity set count s, w)) := by
  have hlen : ms.length - i = s.length := by rw [← h, length_drop]
  rw [hlen]
  clear hlen
  induction s generalizing i count with
  | nil => rfl
  | cons c s ih =>
    rw [length_cons, numericEntityEnds, exec_bind, exec_characterAtIndex h, andThen_ok,
      exec_ite, ih (count + 1) (drop_add_one h), endsEntity]
    split_ifs <;> rfl

theorem exec_startsNumericEntity (h : ms.drop i = c :: s) (w : σ) :
    exec (startsNumericEntity ms i) w = some (.ok (isNumericTail s, w)) := by
  have hlen : ms.length - i = s.length + 1 := by
    rw [← length_drop, h, length_cons]
  have h1 := drop_add_one h
  rw [startsNumericEntity]
  rcases s with _ | ⟨d, _ | ⟨x, s⟩⟩
  · rw [length_nil] at hlen
    rw [if_neg (by omega)]
    rfl
  · rw [length_singleton] at hlen
    rw [if_neg (by omega)]
    rfl
  · rw [length_cons, length_cons] at hlen
    have h2 : ms.drop (i + 2) = x :: s := drop_add_one h1
    have h3 : ms.drop (i + 3) = s := drop_add_one h2
    rw [if_pos (by omega), exec_bind, exec_characterAtIndex h1, andThen_ok, exec_ite, exec_bind,
      exec_characterAtIndex h2, andThen_ok, exec_ite, exec_numericEntityEnds _ 0 h3,
      exec_numericEntityEnds _ 0 h2, isNumericTail]
    by_cases hd : d = unichar '#' <;> by_cases hx : x = unichar 'x' <;> simp [hd, hx]

theorem exec_shouldEscape (h : ms.drop i = unichar '&' :: s) (w : σ) :
    exec (shouldEscape ms i) w =
      some (.ok (decide ¬StartsEntity (unichar '&' :: s), w)) := by
  have hi : i ≤ ms.length := by
    have := congrArg length h
    rw [length_drop, length_cons] at this
    omega
  have hs : startsEntity (unichar '&' :: s) =
      (entities.any (fun e => e.isPrefixOf (unichar '&' :: s)) || isNumericTail s) := by
    simp [startsEntity]
  rw [shouldEscape, exec_bind, exec_startsNamedEntity ms hi, andThen_ok, exec_ite,
    exec_bind, exec_startsNumericEntity h, h]
  have hdec : decide (¬StartsEntity (unichar '&' :: s)) = !startsEntity (unichar '&' :: s) := by
    simp [← startsEntity_iff]
  rw [hdec, hs]
  cases entities.any (fun e => e.isPrefixOf (unichar '&' :: s)) <;> cases isNumericTail s <;> rfl

/-- What the ampersand in front of `s` becomes. -/
def replacement (s : NSString) : NSString :=
  if StartsEntity (unichar '&' :: s) then [unichar '&'] else literal "&amp;"

theorem ampersandsEscaped_ampersand (s : NSString) :
    ampersandsEscaped (unichar '&' :: s) = replacement s ++ ampersandsEscaped s := by
  rw [ampersandsEscaped, replacement]
  by_cases h : StartsEntity (unichar '&' :: s) <;> simp [h]

theorem exists_replacement (s : NSString) :
    ∃ t, replacement s = unichar '&' :: t ∧ unichar '&' ∉ t := by
  rw [replacement]
  split_ifs
  · exact ⟨[], rfl, by simp⟩
  · exact ⟨literal "amp;", rfl, by decide⟩

theorem exec_escapeAt (X s : NSString) (w : σ) :
    exec (escapeAt (X ++ unichar '&' :: s) ⟨X.length, 1⟩) w =
      some (.ok (X ++ (replacement s ++ s), w)) := by
  have hdrop : (X ++ unichar '&' :: s).drop X.length = unichar '&' :: s := drop_left
  have hrep : exec (replaceCharactersInRange (X ++ unichar '&' :: s) ⟨X.length, 1⟩
      (literal "&amp;") : Prog σ NSException NSString) w =
        some (.ok (X ++ (literal "&amp;" ++ s), w)) := by
    have hlen : ¬(X ++ unichar '&' :: s).length < X.length + 1 := by
      rw [length_append, length_cons]
      omega
    rw [replaceCharactersInRange, if_neg hlen, exec_pure, take_left, drop_add_one hdrop,
      append_assoc]
  rw [escapeAt, exec_bind, exec_shouldEscape hdrop, andThen_ok, exec_ite, hrep, replacement]
  by_cases h : StartsEntity (unichar '&' :: s) <;> simp [h]

theorem occursAt_singleton (c d : Unichar) (s : NSString) :
    marks.occursAt [d] (c :: s) = true ↔ c = d ∧ marks.goesOn s = false := by
  rw [marks.occursAt_iff]
  constructor
  · rintro ⟨t, hct, ht⟩
    obtain ⟨rfl, rfl⟩ := cons.inj hct
    exact ⟨rfl, ht⟩
  · rintro ⟨rfl, hs⟩
    exact ⟨s, rfl, hs⟩

theorem indexOfOccurrence_ampersand (c : Unichar) (s : NSString) :
    marks.indexOfOccurrence (literal "&") (c :: s) =
      if c = unichar '&' ∧ marks.goesOn s = false then some 0
      else (marks.indexOfOccurrence (literal "&") s).map (· + 1) := by
  rw [CombiningMarks.indexOfOccurrence]
  exact if_congr (occursAt_singleton c (unichar '&') s) rfl rfl

theorem indexOfOccurrence_append (h : unichar '&' ∉ s) {t : NSString} (ht : marks.goesOn t = false) :
    marks.indexOfOccurrence (literal "&") (s ++ unichar '&' :: t) = some s.length := by
  induction s with
  | nil => rw [nil_append, indexOfOccurrence_ampersand, if_pos ⟨rfl, ht⟩, length_nil]
  | cons c s ih =>
    rw [mem_cons, not_or] at h
    rw [cons_append, indexOfOccurrence_ampersand, if_neg fun hc => h.1 hc.1.symm, ih h.2]
    rfl

theorem indexOfOccurrence_of_notMem (h : unichar '&' ∉ s) :
    marks.indexOfOccurrence (literal "&") s = none := by
  induction s with
  | nil => rfl
  | cons c s ih =>
    rw [mem_cons, not_or] at h
    rw [indexOfOccurrence_ampersand, if_neg fun hc => h.1 hc.1.symm, ih h.2]
    rfl

theorem exec_rangeOfString (marks : CombiningMarks) (X s : NSString) (w : σ) :
    exec (rangeOfString marks (X ++ s) (literal "&") ⟨X.length, s.length⟩ :
        Prog σ NSException (Option NSRange)) w =
      some (.ok ((marks.indexOfOccurrence (literal "&") s).map fun i => ⟨X.length + i, 1⟩, w)) := by
  have hlen : ¬(X ++ s).length < X.length + s.length := by
    rw [length_append]
    omega
  rw [rangeOfString, if_neg hlen, drop_left, take_length]
  rfl

/-- An iteration that finds the ampersand behind `X` replaces it and goes on to the next one. -/
theorem exec_escapeNextAmpersand (X s : NSString) {r : NSRange} (w : σ)
    (hno : ¬marks.Marked [unichar '&'] s)
    (hr : exec (rangeOfString marks (X ++ unichar '&' :: s) (literal "&") r :
      Prog σ NSException (Option NSRange)) w = some (.ok (some ⟨X.length, 1⟩, w))) :
    (unichar '&' ∉ s ∧ exec (escapeNextAmpersand marks (X ++ unichar '&' :: s, r)) w =
        some (.ok (.inr (X ++ (replacement s ++ s)), w))) ∨
      ∃ A B, s = A ++ unichar '&' :: B ∧ unichar '&' ∉ A ∧
        exec (escapeNextAmpersand marks (X ++ unichar '&' :: s, r)) w =
          some (.ok (.inl (X ++ (replacement s ++ s), ⟨(X ++ (replacement s ++ A)).length, 1⟩), w)) := by
  obtain ⟨t, ht, hamp⟩ := exists_replacement s
  have hms : X ++ (replacement s ++ s) = (X ++ [unichar '&']) ++ (t ++ s) := by
    rw [ht]
    simp
  have hlen : (X ++ (replacement s ++ s)).length - (X.length + 1) = (t ++ s).length := by
    rw [hms]
    simp only [length_append, length_singleton]
    omega
  have hsea := exec_rangeOfString marks (X ++ [unichar '&']) (t ++ s) w
  rw [← hms, ← hlen, length_append, length_singleton] at hsea
  by_cases hmem : unichar '&' ∈ s
  · obtain ⟨A, B, hs, hA⟩ := eq_append_cons_of_mem hmem
    refine .inr ⟨A, B, hs, hA, ?_⟩
    have hix : marks.indexOfOccurrence (literal "&") (t ++ s) = some (t ++ A).length := by
      conv_lhs => rw [hs, ← append_assoc]
      exact indexOfOccurrence_append (by simp [hamp, hA]) (marks.goesOn_of_not_marked (hs ▸ hno))
    have hnext : X.length + 1 + (t ++ A).length = (X ++ (replacement s ++ A)).length := by
      rw [ht]
      simp only [length_append, length_cons]
      omega
    have hlt : (X ++ (replacement s ++ A)).length < (X ++ (replacement s ++ s)).length := by
      have := congrArg length hs
      simp only [length_append, length_cons] at this ⊢
      omega
    rw [hix, Option.map_some, hnext] at hsea
    rw [escapeNextAmpersand, exec_bind, hr]
    simp only [exec_bind, exec_escapeAt, andThen_ok, hsea, if_pos hlt, exec_pure]
  · refine .inl ⟨hmem, ?_⟩
    rw [indexOfOccurrence_of_notMem (by simp [hamp, hmem]), Option.map_none] at hsea
    rw [escapeNextAmpersand, exec_bind, hr]
    simp only [exec_bind, exec_escapeAt, andThen_ok, hsea, exec_pure]

/-- The loop from an ampersand behind `X`: `X` is final, and what stands behind will be escaped. -/
theorem exec_ampersandLoop (X s : NSString) {r : NSRange} {fuel : ℕ} (w : σ)
    (hfuel : s.length < fuel) (hno : ¬marks.Marked [unichar '&'] s)
    (hr : exec (rangeOfString marks (X ++ unichar '&' :: s) (literal "&") r :
      Prog σ NSException (Option NSRange)) w = some (.ok (some ⟨X.length, 1⟩, w))) :
    exec (loop (escapeNextAmpersand marks) fuel (X ++ unichar '&' :: s, r)) w =
      some (.ok (X ++ ampersandsEscaped (unichar '&' :: s), w)) := by
  induction fuel generalizing X s r with
  | zero => omega
  | succ fuel ih =>
    rw [ampersandsEscaped_ampersand]
    rcases exec_escapeNextAmpersand X s w hno hr with ⟨hs, hstep⟩ | ⟨A, B, hs, hA, hstep⟩
    · rw [exec_loop_done hstep, ampersandsEscaped_of_notMem hs]
    · rw [exec_loop_next hstep]
      have hlen := congrArg length hs
      rw [length_append, length_cons] at hlen
      have hms : X ++ (replacement s ++ s) =
          (X ++ (replacement s ++ A)) ++ unichar '&' :: B := by
        rw [append_assoc, append_assoc]
        exact congrArg (fun t => X ++ (replacement s ++ t)) hs
      rw [hms, ih (X ++ (replacement s ++ A)) B (by omega) (not_marked_behind (hs ▸ hno)) ?_]
      · conv_rhs => rw [hs, ampersandsEscaped_append hA, ← hs]
        simp
      · -- the range found is the one character of the ampersand
        have hlen' : ¬((X ++ (replacement s ++ A)) ++ unichar '&' :: B).length <
            (X ++ (replacement s ++ A)).length + 1 := by
          rw [length_append, length_cons]
          omega
        rw [rangeOfString, if_neg hlen', drop_left, show (unichar '&' :: B).take 1 =
          [] ++ [unichar '&'] from rfl, indexOfOccurrence_append not_mem_nil marks.nil]
        rfl

theorem exec_stringByEscapingUnescapedAmpersands {fuel : ℕ} (h : s.length < fuel)
    (hno : ¬marks.Marked [unichar '&'] s) (w : σ) :
    exec (stringByEscapingUnescapedAmpersands marks fuel s) w =
      some (.ok (ampersandsEscaped s, w)) := by
  rw [stringByEscapingUnescapedAmpersands, exec_ite, exec_pure]
  by_cases hmem : unichar '&' ∈ s
  · obtain ⟨A, B, rfl, hA⟩ := eq_append_cons_of_mem hmem
    have hix := indexOfOccurrence_append hA (marks.goesOn_of_not_marked hno)
    have hsea := exec_rangeOfString marks [] (A ++ unichar '&' :: B) w
    rw [length_nil, hix, Option.map_some, Nat.zero_add] at hsea
    rw [length_append, length_cons] at h
    rw [if_neg (by simp [hix]), exec_ampersandLoop A B w (by omega) (not_marked_behind hno) hsea,
      ampersandsEscaped_append hA]
  · rw [if_pos (indexOfOccurrence_of_notMem hmem), ampersandsEscaped_of_notMem hmem]

end Feather.XML
