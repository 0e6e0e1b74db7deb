import Feather.Order.Ancestry

/-!
# The common ancestor of two classes

`commonAncestorForClass:andClass:` of `NSObject+MPExtensions.m` looks whether one of the classes is
above the other and goes on with the superclass of the first and, if that has no common ancestor
with the second, with that of the second.  Only the recursion returns `NSObject`.
-/

namespace Feather.Extensions

open Ancestry Relation

/-- The classes of the running program with their superclasses. -/
structure ClassForest (α : Type) where
  superclass : α → Option α
  nsObject : α
  superclass_nsObject : superclass nsObject = none
  acyclic : ∀ a, ¬ TransGen (fun x y => superclass x = some y) a a

namespace ClassForest

variable {α : Type} [DecidableEq α] (F : ClassForest α)

/-- `while ((parent = class_getSuperclass(parent)) != nil && parent != target);` -/
def climb (target : α) (fuel : ℕ) (cls : α) : Option (Option α) :=
  match F.superclass cls with
  | none => some none
  | some parent => search F.superclass (· = target) fuel parent

/-- `+commonAncestorForClass:andClass:`; `none` as long as it has not returned. -/
def commonAncestorForClass : ℕ → Option α → Option α → Option (Option α)
  | 0, _, _ => none
  | fuel + 1, a, b =>
    if a = b then some a
    else match a, b with
      | none, _ => some none
      | _, none => some none
      | some x, some y => do
        -- check if a is subclass of b
        let parent ← F.climb y fuel x
        -- don't return NSObject yet before trying to see if b is a subclass of a
        if parent ≠ none ∧ parent ≠ some F.nsObject then return parent
        -- check if b is subclass of a
        let sourceParent ← F.climb x fuel y
        if sourceParent ≠ none then return sourceParent
        let foundClass ← commonAncestorForClass fuel (F.superclass x) b
        if foundClass ≠ none then return foundClass
        commonAncestorForClass fuel (F.superclass y) a

omit [DecidableEq α] in
theorem ends [Finite α] (a : α) : Ends F.superclass a :=
  ends_of_acyclic F.acyclic a

variable {F} {a b : α} {fuel : ℕ} {result : Option α}

/-! ### The searches -/

theorem exists_climb_of_over [Finite α] (h : Over F.superclass b (F.superclass a)) :
    ∃ bound, ∀ fuel ≥ bound, F.climb b fuel a = some (some b) := by
  cases hsup : F.superclass a with
  | none => simp [hsup] at h
  | some parent =>
    rw [hsup] at h
    obtain ⟨result, hnst, bound, hsea⟩ := exists_search (· = b) (F.ends parent)
    refine ⟨bound, fun fuel hfuel => ?_⟩
    simp only [climb, hsup, hsea fuel hfuel]
    cases result with
    | none => exact absurd rfl (hnst b h)
    | some c => rw [hnst.2.1]

theorem exists_climb_of_not_over [Finite α] (h : ¬ Over F.superclass b (F.superclass a)) :
    ∃ bound, ∀ fuel ≥ bound, F.climb b fuel a = some none := by
  cases hsup : F.superclass a with
  | none => exact ⟨0, fun fuel _ => by simp [climb, hsup]⟩
  | some parent =>
    rw [hsup] at h
    obtain ⟨result, hnst, bound, hsea⟩ := exists_search (· = b) (F.ends parent)
    refine ⟨bound, fun fuel hfuel => ?_⟩
    simp only [climb, hsup, hsea fuel hfuel]
    cases result with
    | none => rfl
    | some c => exact absurd (hnst.2.1 ▸ hnst.1) h

/-! ### The recursion -/

/-- The method returns `result` once it has fuel enough. -/
def Returns (F : ClassForest α) (x y result : Option α) : Prop :=
  ∃ bound, ∀ fuel ≥ bound, F.commonAncestorForClass fuel x y = some result

attribute [local simp] commonAncestorForClass

theorem returns_self (x : Option α) : F.Returns x x x := by
  refine ⟨1, fun fuel hfuel => ?_⟩
  obtain ⟨fuel, rfl⟩ := Nat.exists_eq_add_of_le' hfuel
  simp

theorem returns_none_left (y : Option α) : F.Returns none y none := by
  refine ⟨1, fun fuel hfuel => ?_⟩
  obtain ⟨fuel, rfl⟩ := Nat.exists_eq_add_of_le' hfuel
  simp

theorem returns_none_right (x : Option α) : F.Returns x none none := by
  refine ⟨1, fun fuel hfuel => ?_⟩
  obtain ⟨fuel, rfl⟩ := Nat.exists_eq_add_of_le' hfuel
  cases x <;> simp

/-- The second class is above the first, and not `NSObject`. -/
theorem returns_of_above_left [Finite α] (h : Over F.superclass b (F.superclass a))
    (hobj : b ≠ F.nsObject) : F.Returns (some a) (some b) (some b) := by
  obtain ⟨bound, hcli⟩ := exists_climb_of_over h
  refine ⟨bound + 1, fun fuel hfuel => ?_⟩
  obtain ⟨fuel, rfl⟩ := Nat.exists_eq_add_of_le' (Nat.le_of_add_left_le hfuel)
  simp [hcli fuel (by omega), hobj]

theorem returns_of_above_right [Finite α] (habv : Above F.superclass a b) :
    F.Returns (some a) (some b) (some a) := by
  by_cases hne : a = b
  · rw [hne]
    exact returns_self (some b)
  have h := (above_iff.1 habv).resolve_left hne
  have hnot : ¬ Over F.superclass b (F.superclass a) := by
    intro hba
    exact hne (Above.antisymm (F.ends a) (above_iff.2 (.inr hba)) habv)
  obtain ⟨bound, hcli⟩ := exists_climb_of_not_over hnot
  obtain ⟨bound', hcli'⟩ := exists_climb_of_over h
  refine ⟨bound + bound' + 1, fun fuel hfuel => ?_⟩
  obtain ⟨fuel, rfl⟩ := Nat.exists_eq_add_of_le' (Nat.le_of_add_left_le hfuel)
  simp [hcli fuel (by omega), hcli' fuel (by omega)]

theorem returns_of_superclass [Finite α] {other : Option α} (hne : a ≠ b)
    (hleft : Over F.superclass b (F.superclass a) → b = F.nsObject)
    (hrt : ¬ Over F.superclass a (F.superclass b))
    (hfst : F.Returns (F.superclass a) (some b) result)
    (hsnd : F.Returns (F.superclass b) (some a) other) (hsame : result = none → other = none) :
    F.Returns (some a) (some b) result := by
  obtain ⟨bound', hcli'⟩ := exists_climb_of_not_over hrt
  obtain ⟨bound, parent, hcli, hpar⟩ : ∃ bound parent,
      (∀ fuel ≥ bound, F.climb b fuel a = some parent) ∧
        ¬ (parent ≠ none ∧ parent ≠ some F.nsObject) := by
    by_cases h : Over F.superclass b (F.superclass a)
    · obtain ⟨bound, hcli⟩ := exists_climb_of_over h
      exact ⟨bound, some b, hcli, by simp [hleft h]⟩
    · obtain ⟨bound, hcli⟩ := exists_climb_of_not_over h
      exact ⟨bound, none, hcli, by simp⟩
  obtain ⟨bound₁, hfst⟩ := hfst
  obtain ⟨bound₂, hsnd⟩ := hsnd
  refine ⟨bound + bound' + bound₁ + bound₂ + 1, fun fuel hfuel => ?_⟩
  obtain ⟨fuel, rfl⟩ := Nat.exists_eq_add_of_le' (Nat.le_of_add_left_le hfuel)
  rw [commonAncestorForClass, if_neg (by simpa using hne)]
  simp only [hcli fuel (by omega), Option.bind_eq_bind, Option.bind_some, if_neg hpar,
    hcli' fuel (by omega), hfst fuel (by omega), hsnd fuel (by omega)]
  by_cases hnone : result = none
  · simp [hnone, hsame hnone]
  · simp [hnone]

/-- A class above the other is returned, whether or not it is `NSObject`. -/
theorem returns_of_above [Finite α] (h : Above F.superclass b a) :
    F.Returns (some a) (some b) (some b) := by
  induction F.ends a with
  | intro a _ ih =>
    rcases above_iff.1 h with rfl | hover
    · exact returns_self (some b)
    by_cases hne : a = b
    · subst hne
      exact returns_self (some a)
    by_cases hobj : b = F.nsObject
    · -- `NSObject` has no superclass, so that the recursion goes up from the other class
      have hroot : F.superclass b = none := hobj ▸ F.superclass_nsObject
      cases hsup : F.superclass a with
      | none => simp [hsup] at hover
      | some parent =>
        rw [hsup] at hover
        have hfst : F.Returns (F.superclass a) (some b) (some b) := by
          rw [hsup]
          exact ih parent hsup hover
        have hsnd : F.Returns (F.superclass b) (some a) none := by
          rw [hroot]
          exact returns_none_left (some a)
        exact returns_of_superclass hne (fun _ => hobj) (by simp [hroot]) hfst hsnd
          fun _ => rfl
    · exact returns_of_above_left hover hobj

/-- For both orders of the arguments the method returns the lowest class above both. -/
theorem exists_lowest_some [Finite α] (a b : α) :
    ∃ result, Lowest F.superclass (some a) (some b) result ∧
      F.Returns (some a) (some b) result ∧ F.Returns (some b) (some a) result := by
  -- going up in either class comes to an end
  induction F.ends a generalizing b with
  | intro a _ iha =>
    induction F.ends b with
    | intro b _ ihb =>
      by_cases hba : Above F.superclass b a
      · exact ⟨some b, lowest_of_above hba, returns_of_above hba, returns_of_above_right hba⟩
      by_cases hab : Above F.superclass a b
      · exact ⟨some a, (lowest_of_above hab).symm, returns_of_above_right hab, returns_of_above hab⟩
      obtain ⟨result, hlow, hret⟩ : ∃ result,
          Lowest F.superclass (F.superclass a) (some b) result ∧
            F.Returns (F.superclass a) (some b) result := by
        cases hsup : F.superclass a with
        | none => exact ⟨none, fun _ h => absurd h not_over_none, returns_none_left (some b)⟩
        | some parent =>
          obtain ⟨result, hlow, hret, -⟩ := iha parent hsup b
          exact ⟨result, hlow, hret⟩
      obtain ⟨other, hlow', hret'⟩ : ∃ other,
          Lowest F.superclass (F.superclass b) (some a) other ∧
            F.Returns (F.superclass b) (some a) other := by
        cases hsup : F.superclass b with
        | none => exact ⟨none, fun _ h => absurd h not_over_none, returns_none_left (some a)⟩
        | some parent =>
          obtain ⟨other, hlow, -, hret⟩ := ihb parent hsup
          exact ⟨other, hlow.symm, hret⟩
      have hfst := hlow.of_next hab
      have hsame : result = other := hfst.unique F.ends (hlow'.of_next hba).symm
      subst hsame
      have hne : a ≠ b := by
        rintro rfl
        exact hab (Above.refl a)
      have hleft : ¬ Over F.superclass b (F.superclass a) := fun h => hba (above_iff.2 (.inr h))
      have hrt : ¬ Over F.superclass a (F.superclass b) := fun h => hab (above_iff.2 (.inr h))
      exact ⟨result, hfst, returns_of_superclass hne (fun h => absurd h hleft) hrt hret hret' id,
        returns_of_superclass hne.symm (fun h => absurd h hrt) hleft hret' hret id⟩

/-- The method returns the lowest class above both, in either order of its arguments. -/
theorem exists_lowest [Finite α] (x y : Option α) :
    ∃ result, Lowest F.superclass x y result ∧ F.Returns x y result ∧ F.Returns y x result := by
  cases x with
  | none => exact ⟨none, fun _ h => absurd h not_over_none, returns_none_left y, returns_none_right y⟩
  | some a =>
    cases y with
    | none =>
      exact ⟨none, fun _ _ h => absurd h not_over_none, returns_none_right (some a),
        returns_none_left (some a)⟩
    | some b => exact exists_lowest_some a b

/-- Every pair of classes has an answer, in both orders the same: the deepest class above or equal
to both.  There is none exactly for a missing class and for classes with different roots. -/
theorem commonAncestorForClass_deepest [Finite α] (F : ClassForest α) (x y : Option α) :
    ∃ result bound, (∀ fuel ≥ bound, F.commonAncestorForClass fuel x y = some result ∧
        F.commonAncestorForClass fuel y x = some result) ∧
      (∀ c, result = some c → Over F.superclass c x ∧ Over F.superclass c y ∧
        ∀ d, Over F.superclass d x → Over F.superclass d y → Above F.superclass d c) ∧
      (result = none ↔ x = none ∨ y = none ∨ ∀ a b r s, x = some a → y = some b →
        IsRoot F.superclass r a → IsRoot F.superclass s b → r ≠ s) := by
  obtain ⟨result, hlow, ⟨bound, hret⟩, ⟨bound', hret'⟩⟩ := exists_lowest (F := F) x y
  refine ⟨result, bound + bound', fun fuel hfuel => ?_, ?_, ?_⟩
  · exact ⟨hret fuel (by omega), hret' fuel (by omega)⟩
  · rintro c rfl
    exact hlow
  · rw [← lowest_none_iff F.ends]
    constructor
    · rintro rfl
      exact hlow
    · exact fun h => hlow.unique F.ends h

end ClassForest

/-! ### The classes of `testCommonAncestry` -/

/-- The classes of the samples. -/
inductive TestedClass
  | nsObject
  | nsProxy
  | cblModel
  | mpManagedObject
  | mpContributor
  | mpSnapshot
  deriving DecidableEq

namespace TestedClass

instance : Fintype TestedClass where
  elems := {nsObject, nsProxy, cblModel, mpManagedObject, mpContributor, mpSnapshot}
  complete := by
    intro cls
    cases cls <;> decide

def superclass : TestedClass → Option TestedClass
  | nsObject => none
  | nsProxy => none
  | cblModel => some nsObject
  | mpManagedObject => some cblModel
  | mpContributor => some mpManagedObject
  | mpSnapshot => some mpManagedObject

def depth : TestedClass → ℕ
  | nsObject => 0
  | nsProxy => 0
  | cblModel => 1
  | mpManagedObject => 2
  | mpContributor => 3
  | mpSnapshot => 3

theorem depth_lt {a b : TestedClass} (h : TransGen (fun x y => superclass x = some y) a b) :
    b.depth < a.depth := by
  have hstep : ∀ x y : TestedClass, superclass x = some y → y.depth < x.depth := by decide
  induction h with
  | single h => exact hstep _ _ h
  | tail _ h ih => exact (hstep _ _ h).trans ih

def forest : ClassForest TestedClass where
  superclass := superclass
  nsObject := nsObject
  superclass_nsObject := rfl
  acyclic := fun _ h => lt_irrefl _ (depth_lt h)

theorem commonAncestorForClass_deepest_forest :
    ∃ result bound, ∀ fuel ≥ bound,
      forest.commonAncestorForClass fuel (some mpContributor) (some mpSnapshot) = some result ∧
        forest.commonAncestorForClass fuel (some mpSnapshot) (some mpContributor) = some result := by
  obtain ⟨result, bound, h, -⟩ :=
    ClassForest.commonAncestorForClass_deepest forest (some mpContributor) (some mpSnapshot)
  exact ⟨result, bound, h⟩

example : forest.commonAncestorForClass 4 (some mpContributor) (some mpSnapshot) =
    some (some mpManagedObject) := by decide

end TestedClass

end Feather.Extensions
