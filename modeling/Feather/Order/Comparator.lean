import Mathlib.Data.List.Sort
import Mathlib.Data.Set.Basic

/-!
# Comparators and sorts

A comparator `cmp a b` answers with an `Ordering`, or with `none` where it raises.
-/

namespace Comparators

variable {α : Type}

/-- The comparator is a strict total order on a set. -/
structure IsStrictTotalOn (cmp : α → α → Option Ordering) (s : Set α) : Prop where
  returns : ∀ a ∈ s, ∀ b ∈ s, (cmp a b).isSome
  swap : ∀ a ∈ s, ∀ b ∈ s, cmp b a = (cmp a b).map Ordering.swap
  eq : ∀ a ∈ s, ∀ b ∈ s, cmp a b = some .eq → a = b
  trans : ∀ a ∈ s, ∀ b ∈ s, ∀ c ∈ s, cmp a b = some .lt → cmp b c = some .lt → cmp a c = some .lt

/-- The sort returns the members of the list in ascending order. -/
def Sorts (sort : (α → α → Option Ordering) → List α → Option (List α)) : Prop :=
  ∀ cmp l, l.Nodup → IsStrictTotalOn cmp {a | a ∈ l} →
    ∃ sorted, sort cmp l = some sorted ∧ sorted.Perm l ∧
      sorted.Pairwise fun a b => cmp a b = some .lt

section

variable {cmp : α → α → Option Ordering} {s : Set α} {a b : α}

theorem IsStrictTotalOn.mono {t : Set α} (h : IsStrictTotalOn cmp s) (hsub : t ⊆ s) :
    IsStrictTotalOn cmp t where
  returns a ha b hb := h.returns a (hsub ha) b (hsub hb)
  swap a ha b hb := h.swap a (hsub ha) b (hsub hb)
  eq a ha b hb := h.eq a (hsub ha) b (hsub hb)
  trans a ha b hb c hc := h.trans a (hsub ha) b (hsub hb) c (hsub hc)

theorem IsStrictTotalOn.lt_of_gt (h : IsStrictTotalOn cmp s) (ha : a ∈ s) (hb : b ∈ s)
    (hgt : cmp a b = some .gt) : cmp b a = some .lt := by
  rw [h.swap a ha b hb, hgt]
  rfl

theorem IsStrictTotalOn.not_lt_of_lt (h : IsStrictTotalOn cmp s) (ha : a ∈ s) (hb : b ∈ s)
    (hlt : cmp a b = some .lt) : cmp b a ≠ some .lt := by
  rw [h.swap a ha b hb, hlt]
  decide

/-- Different members are one before the other. -/
theorem IsStrictTotalOn.lt_or_lt (h : IsStrictTotalOn cmp s) (ha : a ∈ s) (hb : b ∈ s) (hne : a ≠ b) :
    cmp a b = some .lt ∨ cmp b a = some .lt := by
  obtain ⟨o, ho⟩ := Option.isSome_iff_exists.1 (h.returns a ha b hb)
  cases o with
  | lt => exact .inl ho
  | eq => exact absurd (h.eq a ha b hb ho) hne
  | gt => exact .inr (h.lt_of_gt ha hb ho)

/-- Two lists with the same members are equal when both are ascending. -/
theorem IsStrictTotalOn.eq_of_perm {l m : List α} (h : IsStrictTotalOn cmp {a | a ∈ l})
    (hperm : l.Perm m) (hl : l.Pairwise fun a b => cmp a b = some .lt)
    (hm : m.Pairwise fun a b => cmp a b = some .lt) : l = m := by
  refine hperm.eq_of_pairwise (fun a b ha hb hab hba => ?_) hl hm
  exact absurd hba (h.not_lt_of_lt ha (hperm.mem_iff.2 hb) hab)

/-- The sorted list is the same for all orders of the list. -/
theorem Sorts.congr {sort : (α → α → Option Ordering) → List α → Option (List α)} (hsort : Sorts sort)
    {l m : List α} (hnd : l.Nodup) (h : IsStrictTotalOn cmp {a | a ∈ l}) (hperm : m.Perm l) :
    sort cmp m = sort cmp l := by
  have hm : IsStrictTotalOn cmp {a | a ∈ m} := h.mono fun a ha => hperm.mem_iff.1 ha
  obtain ⟨sorted, heq, hsrt, hpw⟩ := hsort cmp l hnd h
  obtain ⟨sorted', heq', hsrt', hpw'⟩ := hsort cmp m (hperm.nodup_iff.2 hnd) hm
  have hsame : sorted' = sorted := by
    refine IsStrictTotalOn.eq_of_perm (hm.mono fun a ha => hsrt'.mem_iff.1 ha) ?_ hpw'
      hpw
    exact hsrt'.trans (hperm.trans hsrt.symm)
  rw [heq, heq', hsame]

/-- The first of the sorted list is before all others. -/
theorem exists_first {sort : (α → α → Option Ordering) → List α → Option (List α)} (hsort : Sorts sort)
    {l : List α} (hnd : l.Nodup) (h : IsStrictTotalOn cmp {a | a ∈ l}) (hne : l ≠ []) :
    ∃ first rest, sort cmp l = some (first :: rest) ∧ (first :: rest).Perm l ∧
      ∀ a ∈ rest, cmp first a = some .lt := by
  obtain ⟨sorted, heq, hperm, hpw⟩ := hsort cmp l hnd h
  cases sorted with
  | nil => exact absurd hperm.symm.eq_nil hne
  | cons first rest => exact ⟨first, rest, heq, hperm, (List.pairwise_cons.1 hpw).1⟩

/-- What is before all others of a list comes first in each part of the list that has it. -/
theorem Sorts.first_of_sublist {sort : (α → α → Option Ordering) → List α → Option (List α)}
    (hsort : Sorts sort) {l m : List α} (hnd : m.Nodup) (h : IsStrictTotalOn cmp {a | a ∈ m})
    (hmin : ∀ b ∈ m, b ≠ a → cmp a b = some .lt) (hsub : l.Sublist m) (hmem : a ∈ l) :
    ∃ rest, sort cmp l = some (a :: rest) ∧ (a :: rest).Perm l := by
  have hl := hsub.nodup hnd
  obtain ⟨first, rest, hsrt, hperm, hlt⟩ := exists_first hsort hl
    (h.mono fun b hb => hsub.subset hb) (List.ne_nil_of_mem hmem)
  have hin := hsub.subset (hperm.mem_iff.1 List.mem_cons_self)
  obtain rfl | hrest := List.mem_cons.1 (hperm.mem_iff.2 hmem)
  · exact ⟨rest, hsrt, hperm⟩
  · have hne : first ≠ a := by
      rintro rfl
      exact (List.nodup_cons.1 (hperm.nodup_iff.2 hl)).1 hrest
    exact absurd (hlt a hrest) (h.not_lt_of_lt (hsub.subset hmem) hin (hmin first hin hne))

end

/-! ### A sort -/

/-- The merge sort of the library, on the members of the list. -/
def mergeSorted (cmp : α → α → Option Ordering) (l : List α) : Option (List α) :=
  some ((l.attach.mergeSort fun a b => cmp a.1 b.1 ≠ some .gt).map Subtype.val)

theorem sorts_mergeSorted : Sorts (mergeSorted (α := α)) := by
  intro cmp l hnd h
  have hle {a b : α} (ha : a ∈ l) (hb : b ∈ l) (hab : cmp a b ≠ some .gt) :
      a = b ∨ cmp a b = some .lt := by
    by_cases heq : a = b
    · exact .inl heq
    · refine .inr ((h.lt_or_lt ha hb heq).resolve_right fun hlt => hab ?_)
      rw [h.swap b hb a ha, hlt]
      rfl
  have htra (a b c : { a // a ∈ l }) (hab : decide (cmp a.1 b.1 ≠ some .gt) = true)
      (hbc : decide (cmp b.1 c.1 ≠ some .gt) = true) : decide (cmp a.1 c.1 ≠ some .gt) = true := by
    simp only [decide_eq_true_eq] at hab hbc ⊢
    rcases hle a.2 b.2 hab with heq | hlt
    · rwa [heq]
    · rcases hle b.2 c.2 hbc with heq | hlt'
      · rw [← heq, hlt]
        decide
      · rw [h.trans a.1 a.2 b.1 b.2 c.1 c.2 hlt hlt']
        decide
  have htot (a b : { a // a ∈ l }) :
      (decide (cmp a.1 b.1 ≠ some .gt) || decide (cmp b.1 a.1 ≠ some .gt)) = true := by
    simp only [Bool.or_eq_true, decide_eq_true_eq]
    by_contra hnot
    rw [not_or, not_not, not_not] at hnot
    rw [h.lt_of_gt a.2 b.2 hnot.1] at hnot
    cases hnot.2
  have hperm : ((l.attach.mergeSort fun a b => cmp a.1 b.1 ≠ some .gt).map Subtype.val).Perm l := by
    have hmap := (List.mergeSort_perm l.attach fun a b => cmp a.1 b.1 ≠ some .gt).map Subtype.val
    rwa [List.attach_map_subtype_val] at hmap
  refine ⟨_, rfl, hperm, ?_⟩
  have hsrt := List.pairwise_mergeSort htra htot l.attach
  have hdis := List.pairwise_map.1 (hperm.nodup_iff.2 hnd)
  rw [List.pairwise_map]
  refine hsrt.imp₂ (fun a b hab hne => ?_) hdis
  exact (hle a.2 b.2 (by simpa using hab)).resolve_left hne

end Comparators
