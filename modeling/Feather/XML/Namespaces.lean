import Feather.XML.World

/-!
# Namespace declarations without a closing quote

`XMLStringByFixingPossiblyBrokenXMLNamespaces` makes fifteen replacements, one on the result of
another.  All strings involved begin with `xmlns` and have no part of it anywhere else, so no two
overlap and none of the replacements concerns another.  A declaration with a combining mark behind it
is not found.
-/

namespace Feather.XML

open List

/-- The namespace declarations that may lack their closing quote. -/
def brokenNamespaces : List NSString :=
  [literal "xmlns:m=\"http://schemas.openxmlformats.org/officeDocument/2006/math",
    literal "xmlns:w=\"http://schemas.openxmlformats.org/wordprocessingml/2006/main",
    literal "xmlns:xlink=\"http://www.w3.org/1999/xlink", literal "xmlns=\"http://www.w3.org/2000/svg",
    literal "xmlns=\"http://www.w3.org/1999/xhtml"]

/-- The replacements for one namespace declaration, in front of a space, `>` and `/>`. -/
def fixNamespace (marks : CombiningMarks) (s declaration : NSString) : NSString :=
  [literal " ", literal ">", literal "/>"].foldl (fun s following => marks.replaceOccurrences
    (declaration ++ following) (declaration ++ literal "\"" ++ following) 0 s) s

/-- `-XMLStringByFixingPossiblyBrokenXMLNamespaces` -/
def xmlStringByFixingPossiblyBrokenXMLNamespaces (marks : CombiningMarks) (self : NSString) :
    NSString :=
  brokenNamespaces.foldl (fixNamespace marks) self

/-- What is looked for, and what is put in its place. -/
abbrev Fix := NSString × NSString

/-- A string taken apart, into single units and occurrences of what is looked for. -/
abbrev Pieces := List (Unichar ⊕ Fix)

variable {marks : CombiningMarks} {start L t x y z : NSString} {b b' : Fix}
variable {targets done done' : List Fix} {ps : Pieces}

/-- The string of the pieces. -/
def unfixed : Pieces → NSString
  | [] => []
  | .inl c :: ps => c :: unfixed ps
  | .inr b :: ps => b.1 ++ unfixed ps

/-- The string of the pieces, after the replacements in `done`. -/
def render (done : List Fix) : Pieces → NSString
  | [] => []
  | .inl c :: ps => c :: render done ps
  | .inr b :: ps => (if b ∈ done then b.2 else b.1) ++ render done ps

/-- No occurrence begins at a single unit, and no mark stands behind one. -/
def Parsed (marks : CombiningMarks) (targets : List Fix) : Pieces → Prop
  | [] => True
  | .inl c :: ps => (∀ b ∈ targets, ¬b.1 <+: c :: unfixed ps) ∧ Parsed marks targets ps
  | .inr b :: ps => b ∈ targets ∧ marks.goesOn (unfixed ps) = false ∧ Parsed marks targets ps

/-- All strings begin with `start`, later without a part of it; no target begins another. -/
structure Apart (start : NSString) (targets : List Fix) : Prop where
  start_ascii : ∃ c ∈ start.head?, c < 0x80
  begins : ∀ b ∈ targets, ∀ x ∈ [b.1, b.2], start <+: x
  inner : ∀ b ∈ targets, ∀ x ∈ [b.1, b.2], ∀ t, t <:+ x → t ≠ [] → t ≠ x →
    ¬start <+: t ∧ ¬t <+: start
  unlike : ∀ b ∈ targets, ∀ b' ∈ targets, (¬b.1 <+: b'.2 ∧ ¬b'.2 <+: b.1) ∧ (b.1 <+: b'.1 → b = b')

theorem render_congr (hps : Parsed marks targets ps) (h : ∀ b ∈ targets, (b ∈ done ↔ b ∈ done')) :
    render done ps = render done' ps := by
  induction ps with
  | nil => rfl
  | cons p ps ih =>
    cases p with
    | inl c => rw [render, render, ih hps.2]
    | inr b => simp only [render, ih hps.2.2, h b hps.1]

theorem render_nil (ps : Pieces) : render [] ps = unfixed ps := by
  induction ps with
  | nil => rfl
  | cons p ps ih =>
    cases p with
    | inl c => rw [render, ih, unfixed]
    | inr b => rw [render, ih, unfixed, if_neg not_mem_nil]

/-! ### One replacement -/

theorem replaceOccurrences_skip (x z : NSString) :
    marks.replaceOccurrences y t x.length (x ++ z) = marks.replaceOccurrences y t 0 z := by
  induction x with
  | nil => rfl
  | cons c x ih => rw [length_cons, cons_append, CombiningMarks.replaceOccurrences, ih]

theorem replaceOccurrences_self_append (hne : y ≠ []) (hz : marks.goesOn z = false) :
    marks.replaceOccurrences y t 0 (y ++ z) = t ++ marks.replaceOccurrences y t 0 z := by
  have hocc : marks.occursAt y (y ++ z) = true := (marks.occursAt_iff _ _).2 ⟨z, rfl, hz⟩
  obtain ⟨c, y, rfl⟩ := exists_cons_of_ne_nil hne
  rw [cons_append] at hocc ⊢
  rw [CombiningMarks.replaceOccurrences, if_pos hocc, length_cons, Nat.add_sub_cancel,
    replaceOccurrences_skip]

theorem replaceOccurrences_append
    (h : ∀ u, u <:+ x → u ≠ [] → ¬marks.occursAt y (u ++ z) = true) :
    marks.replaceOccurrences y t 0 (x ++ z) = x ++ marks.replaceOccurrences y t 0 z := by
  induction x with
  | nil => rfl
  | cons c x ih =>
    have hno := h _ suffix_rfl (cons_ne_nil c x)
    rw [cons_append] at hno ⊢
    rw [CombiningMarks.replaceOccurrences, if_neg hno,
      ih fun u hu => h u (hu.trans (suffix_cons c x)), cons_append]

theorem not_occursAt (h : ¬y <+: z) : ¬marks.occursAt y z = true := by
  rw [marks.occursAt_iff]
  rintro ⟨u, rfl, -⟩
  exact h (prefix_append y u)

namespace Apart

variable (h : Apart start targets)
include h

theorem not_inside (hb : b ∈ targets) (hx : x ∈ [b.1, b.2]) (ht : t <:+ x) (hne : t ≠ [])
    (htx : t ≠ x) (hL : start <+: L) : ¬t <+: L := by
  intro hpre
  have hinn := h.inner b hb x hx t ht hne htx
  rcases prefix_or_prefix_of_prefix hL hpre with hpre | hpre
  exacts [hinn.1 hpre, hinn.2 hpre]

/-- A target, and what is put in its place, begins with an ASCII character. -/
theorem exists_ascii (hb : b ∈ targets) (hx : x ∈ [b.1, b.2]) : ∃ c u, x = c :: u ∧ c < 0x80 := by
  obtain ⟨c, hstart, hc⟩ := h.start_ascii
  obtain ⟨u, rfl⟩ := h.begins b hb x hx
  rcases start with - | ⟨d, start⟩
  · cases hstart
  · obtain rfl : d = c := by simpa using hstart
    exact ⟨d, start ++ u, rfl, hc⟩

theorem ne_nil (hb : b ∈ targets) : b.1 ≠ [] := by
  obtain ⟨c, u, hcu, -⟩ := h.exists_ascii hb (x := b.1) (by simp)
  simp [hcu]

/-- The replacements concern no mark. -/
theorem goesOn_render (hps : Parsed marks targets ps) :
    marks.goesOn (render done ps) = marks.goesOn (unfixed ps) := by
  have hbehind : ∀ P : NSString,
      marks.goesOn (P ++ render done ps) = marks.goesOn (P ++ unfixed ps) := by
    induction ps with
    | nil => exact fun P => rfl
    | cons p ps ih =>
      intro P
      cases p with
      | inl c => simpa [render, unfixed] using ih hps.2 (P ++ [c])
      | inr b =>
        have hbegin : ∀ x ∈ [b.1, b.2], ∀ z, marks.goesOn (P ++ (x ++ z)) = marks.goesOn P := by
          intro x hx z
          obtain ⟨c, u, rfl, hc⟩ := h.exists_ascii hps.1 hx
          exact marks.append P c (u ++ z) (.inl hc)
        rw [render, unfixed, hbegin b.1 (by simp)]
        split_ifs
        · exact hbegin b.2 (by simp) _
        · exact hbegin b.1 (by simp) _
  exact hbehind []

/-- No occurrence begins inside of another, or inside of what was put in its place. -/
theorem not_overlaps (hb : b ∈ targets) (hb' : b' ∈ targets)
    (hx : x ∈ [b'.1, b'.2]) (ht : t <:+ x) (hne : t ≠ []) (htx : t ≠ x) : ¬b.1 <+: t ++ z :=
  fun hpre => h.not_inside hb' hx ht hne htx ((h.begins b hb b.1 (by simp)).trans hpre)
    (prefix_append t z)

/-- The replacements already made lead to no occurrence that was not there. -/
theorem prefix_render (hb : b ∈ targets) (hps : Parsed marks targets ps) {t : NSString}
    (ht : t <:+ b.1) (htb : t ≠ b.1) (hpre : t <+: render done ps) : t <+: unfixed ps := by
  induction ps generalizing t with
  | nil => exact hpre
  | cons p ps ih =>
    rcases t with - | ⟨c, t⟩
    · exact nil_prefix
    cases p with
    | inl d =>
      obtain ⟨rfl, hrest⟩ := cons_prefix_cons.1 hpre
      have hlen : t ≠ b.1 := fun heq => by simpa [← heq] using ht.length_le
      exact cons_prefix_cons.2 ⟨rfl, ih hps.2 ((suffix_cons c t).trans ht) hlen hrest⟩
    | inr b' =>
      refine absurd hpre (h.not_inside hb (by simp) ht (cons_ne_nil c t) htb ?_)
      rw [render]
      refine IsPrefix.trans ?_ (prefix_append _ _)
      split_ifs
      · exact h.begins b' hps.1 _ (by simp)
      · exact h.begins b' hps.1 _ (by simp)

/-- One replacement replaces the occurrences of its own target. -/
theorem replaceOccurrences_render (hb : b ∈ targets) (hps : Parsed marks targets ps) :
    marks.replaceOccurrences b.1 b.2 0 (render done ps) = render (b :: done) ps := by
  induction ps with
  | nil => rfl
  | cons p ps ih =>
    cases p with
    | inl c =>
      have hno : ¬b.1 <+: c :: render done ps := by
        intro hpre
        obtain ⟨d, y, hdy⟩ := exists_cons_of_ne_nil (h.ne_nil hb)
        refine hps.1 b hb ?_
        rw [hdy] at hpre ⊢
        obtain ⟨rfl, hrest⟩ := cons_prefix_cons.1 hpre
        refine cons_prefix_cons.2 ⟨rfl, h.prefix_render hb hps.2 ?_ ?_ hrest⟩
        · rw [hdy]
          exact suffix_cons d y
        · rw [hdy]
          exact (cons_ne_self d y).symm
      rw [render, CombiningMarks.replaceOccurrences, if_neg (not_occursAt hno), ih hps.2, render]
    | inr b' =>
      have hpass : ∀ x ∈ [b'.1, b'.2], ¬b.1 <+: x → ¬x <+: b.1 →
          marks.replaceOccurrences b.1 b.2 0 (x ++ render done ps) = x ++ render (b :: done) ps := by
        intro x hx hno hno'
        rw [replaceOccurrences_append, ih hps.2.2]
        intro u hu hne
        by_cases hux : u = x
        · refine not_occursAt fun hpre => ?_
          rw [hux] at hpre
          rcases prefix_or_prefix_of_prefix hpre (prefix_append _ _) with hpre | hpre
          exacts [hno hpre, hno' hpre]
        · exact not_occursAt (h.not_overlaps hb hps.1 hx hu hne hux)
      rw [render, render]
      by_cases hmem : b' ∈ done
      · -- it has been replaced, and what was put there is no target
        obtain ⟨hput, hput'⟩ := (h.unlike b hb b' hps.1).1
        rw [if_pos hmem, if_pos (mem_cons_of_mem b hmem), hpass _ (by simp) hput hput']
      rw [if_neg hmem]
      by_cases heq : b' = b
      · rw [heq, if_pos mem_cons_self, replaceOccurrences_self_append (h.ne_nil hb)
          ((h.goesOn_render hps.2.2).trans hps.2.1), ih hps.2.2]
      · rw [if_neg (by simp [heq, hmem]), hpass _ (by simp)]
        · exact fun hpre => heq ((h.unlike b hb b' hps.1).2 hpre).symm
        · exact fun hpre => heq ((h.unlike b' hps.1 b hb).2 hpre)

/-! ### All replacements -/

theorem foldl_replaceOccurrences {bs : List Fix} (hbs : ∀ b ∈ bs, b ∈ targets)
    (hps : Parsed marks targets ps) :
    bs.foldl (fun s b => marks.replaceOccurrences b.1 b.2 0 s) (render done ps) =
      render (bs.reverse ++ done) ps := by
  induction bs generalizing done with
  | nil => rfl
  | cons b bs ih =>
    rw [forall_mem_cons] at hbs
    rw [foldl_cons, h.replaceOccurrences_render hbs.1 hps, ih hbs.2, reverse_cons, append_assoc,
      singleton_append]

theorem exists_parsed {s : NSString} (hmarks : ∀ b ∈ targets, ¬marks.Marked b.1 s) :
    ∃ ps, Parsed marks targets ps ∧ unfixed ps = s := by
  induction hn : s.length using Nat.strong_induction_on generalizing s with
  | _ n ih =>
    have hrest : ∀ z, z <:+ s → ∀ b ∈ targets, ¬marks.Marked b.1 z := fun z hz b hb =>
      marks.not_marked_of_suffix (hmarks b hb) hz
    by_cases hocc : ∃ b ∈ targets, b.1 <+: s
    · obtain ⟨b, hb, z, rfl⟩ := hocc
      have hpos := length_pos_of_ne_nil (h.ne_nil hb)
      obtain ⟨ps, hps, rfl⟩ := ih z.length (by simp at hn; omega) (hrest z (suffix_append _ _)) rfl
      exact ⟨.inr b :: ps, ⟨hb, marks.goesOn_of_not_marked (X := []) (hmarks b hb), hps⟩, rfl⟩
    · rcases s with - | ⟨c, s⟩
      · exact ⟨[], trivial, rfl⟩
      · obtain ⟨ps, hps, rfl⟩ := ih s.length (by simp at hn; omega) (hrest s (suffix_cons c s)) rfl
        exact ⟨.inl c :: ps, ⟨fun b hb hpre => hocc ⟨b, hb, hpre⟩, hps⟩, rfl⟩

/-- Every occurrence is one of the pieces. -/
theorem exists_piece (hb : b ∈ targets) (hps : Parsed marks targets ps) {u v : NSString}
    (hocc : unfixed ps = u ++ (b.1 ++ v)) :
    ∃ p q, ps = p ++ .inr b :: q ∧ unfixed p = u ∧ unfixed q = v := by
  induction ps generalizing u with
  | nil => simp [unfixed, h.ne_nil hb] at hocc
  | cons p ps ih =>
    cases p with
    | inl c =>
      rw [unfixed] at hocc
      rcases u with - | ⟨d, u⟩
      · exact absurd ⟨v, hocc.symm⟩ (hps.1 b hb)
      · obtain ⟨rfl, hrest⟩ := cons.inj hocc
        obtain ⟨p, q, rfl, hp, hq⟩ := ih hps.2 hrest
        exact ⟨.inl c :: p, q, rfl, by rw [unfixed, hp], hq⟩
    | inr b' =>
      rw [unfixed] at hocc
      rcases append_eq_append_iff.1 hocc with ⟨u, rfl, hrest⟩ | ⟨t, hbt, hrest⟩
      · obtain ⟨p, q, rfl, rfl, hq⟩ := ih hps.2.2 hrest
        exact ⟨.inr b' :: p, q, rfl, by simp [unfixed], hq⟩
      · by_cases hu : u = []
        · subst hu
          obtain rfl : b = b' := by
            rcases prefix_or_prefix_of_prefix (prefix_append b.1 v) ⟨_, hocc⟩ with hpre | hpre
            · exact (h.unlike b hb b' hps.1).2 hpre
            · exact ((h.unlike b' hps.1 b hb).2 hpre).symm
          exact ⟨[], ps, rfl, rfl, append_cancel_left hocc⟩
        · by_cases ht : t = []
          · obtain ⟨p, q, rfl, hp, hq⟩ := ih hps.2.2 (u := []) (by simp [hrest, ht])
            exact ⟨.inr b' :: p, q, rfl, by simp [unfixed, hp, hbt, ht], hq⟩
          · refine absurd ⟨v, hrest⟩ (h.not_overlaps hb hps.1 (x := b'.1) (by simp) ⟨u, hbt.symm⟩ ht ?_)
            rintro rfl
            simp [hu] at hbt

end Apart

/-! ### The namespaces -/

/-- The declarations whose closing quote may be missing, in front of a space, `>` or `/>`, and the same
with the quote. -/
def namespaceFixes : List Fix :=
  [literal "xmlns:m=\"http://schemas.openxmlformats.org/officeDocument/2006/math",
    literal "xmlns:w=\"http://schemas.openxmlformats.org/wordprocessingml/2006/main",
    literal "xmlns:xlink=\"http://www.w3.org/1999/xlink", literal "xmlns=\"http://www.w3.org/2000/svg",
    literal "xmlns=\"http://www.w3.org/1999/xhtml"].flatMap fun declaration =>
      [literal " ", literal ">", literal "/>"].map fun following =>
        (declaration ++ following, declaration ++ literal "\"" ++ following)

theorem apart_namespaceFixes : Apart (literal "xmlns") namespaceFixes := by
  have hinner : ∀ b ∈ namespaceFixes, ∀ x ∈ [b.1, b.2], ∀ t ∈ x.tails, t ≠ [] → t ≠ x →
      ¬literal "xmlns" <+: t ∧ ¬t <+: literal "xmlns" := by decide +kernel
  exact ⟨⟨unichar 'x', rfl, by decide⟩, by decide +kernel,
    fun b hb x hx t ht => hinner b hb x hx t ((mem_tails t x).2 ht), by decide +kernel⟩

theorem xmlStringByFixingPossiblyBrokenXMLNamespaces_eq (s : NSString) :
    xmlStringByFixingPossiblyBrokenXMLNamespaces marks s =
      namespaceFixes.foldl (fun s b => marks.replaceOccurrences b.1 b.2 0 s) s := by
  rw [namespaceFixes, foldl_flatMap]
  rfl

theorem xmlStringByFixingPossiblyBrokenXMLNamespaces_render {done : List Fix}
    (hps : Parsed marks namespaceFixes ps) :
    xmlStringByFixingPossiblyBrokenXMLNamespaces marks (render done ps) =
      render namespaceFixes ps := by
  rw [xmlStringByFixingPossiblyBrokenXMLNamespaces_eq,
    apart_namespaceFixes.foldl_replaceOccurrences (fun b hb => hb) hps]
  exact render_congr hps fun b hb => by simp [hb]

end Feather.XML
