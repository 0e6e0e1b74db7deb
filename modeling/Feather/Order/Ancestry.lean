import Mathlib.Tactic

/-!
# Ancestors along a parent function

`next a` is the parent of `a`, if any; `Above next b a` says that `b` is `a` or an ancestor of it.
-/

namespace Ancestry

open Relation

variable {α : Type} {next : α → Option α} {a b c d r : α}

/-- `b` is `a` or above it. -/
def Above (next : α → Option α) (b a : α) : Prop := ReflTransGen (fun x y => next x = some y) a b

/-- The line of ancestors of `a` is finite. -/
def Ends (next : α → Option α) (a : α) : Prop := Acc (flip fun x y => next x = some y) a

/-- `b` is above an element that may be missing. -/
def Over (next : α → Option α) (b : α) : Option α → Prop
  | none => False
  | some a => Above next b a

@[simp] theorem not_over_none : ¬ Over next b none := id

namespace Above

theorem refl (a : α) : Above next a a := ReflTransGen.refl

theorem trans (hcb : Above next c b) (hba : Above next b a) : Above next c a :=
  ReflTransGen.trans hba hcb

theorem of_next (h : next a = some b) : Above next b a := ReflTransGen.single h

end Above

/-- What is above an element: itself, and what is above its parent. -/
theorem above_iff : Above next b a ↔ b = a ∨ Over next b (next a) := by
  constructor
  · intro h
    rcases ReflTransGen.cases_head h with rfl | ⟨c, hac, hcb⟩
    · exact .inl rfl
    · right
      rw [hac]
      exact hcb
  · rintro (rfl | h)
    · exact Above.refl b
    · cases hpar : next a with
      | none => simp [hpar] at h
      | some c =>
        rw [hpar] at h
        exact Above.trans h (Above.of_next hpar)

/-- In a finite type, lines that have no cycle end. -/
theorem ends_of_acyclic [Finite α] (h : ∀ a, ¬TransGen (fun x y => next x = some y) a a) (a : α) :
    Ends next a := by
  let below : α → α → Prop := fun b a => TransGen (fun x y => next x = some y) a b
  have : IsTrans α below := ⟨fun _ _ _ hab hbc => hbc.trans hab⟩
  have : Std.Irrefl below := ⟨h⟩
  have hwf : WellFounded below := Finite.wellFounded_of_trans_of_irrefl below
  induction a using hwf.induction with
  | _ a ih => exact ⟨a, fun b hab => ih b (.single hab)⟩

theorem not_transGen_self (ha : Ends next a) : ¬TransGen (fun x y => next x = some y) a a := by
  induction ha with
  | intro a _ ih =>
    intro hcyc
    -- The cycle can be entered one step later.
    obtain ⟨b, hab, hba⟩ := TransGen.head'_iff.1 hcyc
    exact ih b hab (TransGen.tail' hba hab)

/-- Two elements above each other are the same. -/
theorem Above.antisymm (ha : Ends next a) (hba : Above next b a) (hab : Above next a b) : a = b := by
  rcases reflTransGen_iff_eq_or_transGen.1 hba with rfl | hstr
  · rfl
  · exact absurd (hstr.trans_left hab) (not_transGen_self ha)

/-! ### Searching upwards -/

section Search

/-- From `a` upwards, for the first element that passes the test. -/
def search (next : α → Option α) (test : α → Prop) [DecidablePred test] :
    ℕ → α → Option (Option α)
  | 0, _ => none
  | fuel + 1, a =>
    if test a then some (some a)
    else match next a with
      | none => some none
      | some b => search next test fuel b

/-- The nearest element above `a` that passes the test, if there is one. -/
def Nearest (next : α → Option α) (test : α → Prop) (a : α) : Option α → Prop
  | some b => Above next b a ∧ test b ∧ ∀ c, Above next c a → test c → Above next c b
  | none => ∀ b, Above next b a → ¬ test b

/-- A search along a finite line of ancestors ends, and finds the nearest. -/
theorem exists_search (test : α → Prop) [DecidablePred test] (ha : Ends next a) :
    ∃ result, Nearest next test a result ∧
      ∃ bound, ∀ fuel ≥ bound, search next test fuel a = some result := by
  induction ha with
  | intro a _ ih =>
    by_cases htest : test a
    · refine ⟨some a, ⟨Above.refl a, htest, fun c hc _ => hc⟩, 1, fun fuel hfuel => ?_⟩
      obtain ⟨fuel, rfl⟩ := Nat.exists_eq_add_of_le' hfuel
      rw [search, if_pos htest]
    · cases hpar : next a with
      | none =>
        refine ⟨none, ?_, 1, fun fuel hfuel => ?_⟩
        · intro b hb
          rcases above_iff.1 hb with rfl | hb
          · exact htest
          · simp [hpar] at hb
        · obtain ⟨fuel, rfl⟩ := Nat.exists_eq_add_of_le' hfuel
          simp [search, if_neg htest, hpar]
      | some p =>
        obtain ⟨result, hnst, bound, hsea⟩ := ih p hpar
        have habv : ∀ b, Above next b a → test b → Above next b p := by
          intro b hb hb'
          rcases above_iff.1 hb with rfl | hb
          · exact absurd hb' htest
          · rwa [hpar] at hb
        refine ⟨result, ?_, bound + 1, fun fuel hfuel => ?_⟩
        · cases result with
          | none => exact fun b hb htest' => hnst b (habv b hb htest') htest'
          | some b =>
            obtain ⟨hb, htest', hfst⟩ := hnst
            exact ⟨hb.trans (Above.of_next hpar), htest',
              fun c hc hc' => hfst c (habv c hc hc') hc'⟩
        · obtain ⟨fuel, rfl⟩ := Nat.exists_eq_add_of_le' (Nat.le_of_add_left_le hfuel)
          simp only [search, if_neg htest, hpar]
          exact hsea _ (by omega)

end Search

/-! ### Lowest common ancestors -/

section Lowest

variable {x y : Option α}

/-- The lowest element above both, or `none` if there is none above both. -/
def Lowest (next : α → Option α) (x y : Option α) : Option α → Prop
  | some c => Over next c x ∧ Over next c y ∧ ∀ d, Over next d x → Over next d y → Above next d c
  | none => ∀ d, Over next d x → ¬ Over next d y

theorem Lowest.symm {result : Option α} (h : Lowest next x y result) : Lowest next y x result := by
  cases result with
  | none => exact fun d hy hx => h d hx hy
  | some c => exact ⟨h.2.1, h.1, fun d hy hx => h.2.2 d hx hy⟩

theorem Lowest.unique {result other : Option α} (hends : ∀ a, Ends next a)
    (h : Lowest next x y result) (h' : Lowest next x y other) : result = other := by
  cases result with
  | none =>
    cases other with
    | none => rfl
    | some c => exact absurd h'.2.1 (h c h'.1)
  | some b =>
    cases other with
    | none => exact absurd h.2.1 (h' b h.1)
    | some c =>
      have hcb := h.2.2 c h'.1 h'.2.1
      have hbc := h'.2.2 b h.1 h.2.1
      rw [Above.antisymm (hends b) hcb hbc]

/-- An element that is above the other is the lowest above both. -/
theorem lowest_of_above (h : Above next b a) : Lowest next (some a) (some b) (some b) :=
  ⟨h, Above.refl b, fun _ _ hd => hd⟩

/-- An element that is not above the other can be replaced by its parent. -/
theorem Lowest.of_next {result : Option α} (hab : ¬ Above next a b)
    (h : Lowest next (next a) (some b) result) : Lowest next (some a) (some b) result := by
  have hpar : ∀ d, Over next d (some a) → Over next d (some b) → Over next d (next a) := by
    intro d hda hdb
    rcases above_iff.1 hda with rfl | hd
    · exact absurd hdb hab
    · exact hd
  cases result with
  | none => exact fun d hda hdb => h d (hpar d hda hdb) hdb
  | some c =>
    obtain ⟨hca, hcb, hlow⟩ := h
    exact ⟨above_iff.2 (.inr hca), hcb, fun d hda hdb => hlow d (hpar d hda hdb) hdb⟩

/-- The end of the line of ancestors. -/
def IsRoot (next : α → Option α) (r a : α) : Prop := Above next r a ∧ next r = none

theorem exists_isRoot (ha : Ends next a) : ∃ r, IsRoot next r a := by
  induction ha with
  | intro a _ ih =>
    cases hpar : next a with
    | none => exact ⟨a, Above.refl a, hpar⟩
    | some p =>
      obtain ⟨r, hr, hroot⟩ := ih p hpar
      exact ⟨r, hr.trans (Above.of_next hpar), hroot⟩

/-- Nothing is above both exactly if one is missing or their roots are different. -/
theorem lowest_none_iff (hends : ∀ a, Ends next a) :
    Lowest next x y none ↔
      x = none ∨ y = none ∨ ∀ a b r s, x = some a → y = some b → IsRoot next r a →
        IsRoot next s b → r ≠ s := by
  constructor
  · intro h
    cases x with
    | none => exact .inl rfl
    | some a =>
      cases y with
      | none => exact .inr (.inl rfl)
      | some b =>
        right; right
        rintro _ _ r _ ⟨⟩ ⟨⟩ hr hs rfl
        exact h r hr.1 hs.1
  · rintro (rfl | rfl | h) d hx hy
    · exact hx
    · exact hy
    · cases x with
      | none => exact hx
      | some a =>
        cases y with
        | none => exact hy
        | some b =>
          obtain ⟨r, hr, hroot⟩ := exists_isRoot (hends d)
          exact h a b r r rfl rfl ⟨hr.trans hx, hroot⟩ ⟨hr.trans hy, hroot⟩ rfl

end Lowest

end Ancestry
