import Feather.Async.System
import Feather.Order.Comparator
import Mathlib.Algebra.Order.Field.Rat

/-!
# Conflicting revisions of a document

`resolveConflictingRevisionsForObject:error:` of `MPManagedObjectsController.m` sorts the revisions
by the time of their last update, or by identifier where the times do not decide.  All but the first
are deleted, and a revision with its properties is added to it.
-/

namespace Feather.Controllers

open Async Comparators List

variable {ρ π : Type} [LinearOrder ρ]

/-- `CBLSavedRevision`: the time of the last update, and the other contents. -/
structure Revision (ρ π : Type) where
  revisionID : ρ
  updatedAt : Option ℚ
  contents : π
  deriving DecidableEq

namespace Revision

def properties (r : Revision ρ π) : Option ℚ × π := (r.updatedAt, r.contents)

end Revision

/-- `[changedAtA compare:changedAtB]`; a missing argument gives `nilArgument`. -/
def compareNumbers (nilArgument : ℚ → Option Ordering) : Option ℚ → Option ℚ → Option Ordering
  | none, _ => some .eq
  | some a, some b => some (compare a b)
  | some a, none => nilArgument a

/-- The comparator of the sort; ties are broken using the revision ID. -/
def comparator (nilArgument : ℚ → Option Ordering) (revA revB : Revision ρ π) : Option Ordering :=
  (compareNumbers nilArgument revA.updatedAt revB.updatedAt).map fun comparison =>
    comparison.then (compare revA.revisionID revB.revisionID)

/-- A revision with a time and one without compare by their identifiers, and no two times are the
other way round with such an identifier between theirs. -/
structure Coherent (nilArgument : ℚ → Option Ordering) (revs : List (Revision ρ π)) : Prop where
  mixed : ∀ a ∈ revs, ∀ c ∈ revs, ∀ t, a.updatedAt = some t → c.updatedAt = none →
    nilArgument t = some .eq ∨ nilArgument t = some (compare a.revisionID c.revisionID)
  between : ∀ a ∈ revs, ∀ b ∈ revs, ∀ c ∈ revs, ∀ s t, a.updatedAt = some s → b.updatedAt = some t →
    c.updatedAt = none → a.revisionID < c.revisionID → c.revisionID < b.revisionID → s ≤ t

section

variable {nilArgument : ℚ → Option Ordering} {revs : List (Revision ρ π)} {a b c : Revision ρ π}

/-! ### The comparator -/

theorem comparator_of_none (ha : a.updatedAt = none) :
    comparator nilArgument a b = some (compare a.revisionID b.revisionID) := by
  simp [comparator, compareNumbers, ha]

theorem comparator_of_some {s t : ℚ} (ha : a.updatedAt = some s) (hb : b.updatedAt = some t) :
    comparator nilArgument a b =
      some ((compare s t).then (compare a.revisionID b.revisionID)) := by
  simp [comparator, compareNumbers, ha, hb]

theorem comparator_of_mixed {t : ℚ} (ha : a.updatedAt = some t) (hc : c.updatedAt = none) :
    comparator nilArgument a c = some (compare a.revisionID c.revisionID) ↔
      nilArgument t = some .eq ∨ nilArgument t = some (compare a.revisionID c.revisionID) := by
  simp only [comparator, compareNumbers, ha, hc]
  cases nilArgument t with
  | none => simp
  | some o => cases o <;> simp

theorem comparator_eq_lt_iff {s t : ℚ} (ha : a.updatedAt = some s) (hb : b.updatedAt = some t) :
    comparator nilArgument a b = some .lt ↔
      s < t ∨ s = t ∧ a.revisionID < b.revisionID := by
  rw [comparator_of_some ha hb, Option.some.injEq, Ordering.then_eq_lt, compare_lt_iff_lt,
    compare_eq_iff_eq, compare_lt_iff_lt]

theorem swap_compare {κ : Type} [LinearOrder κ] (x y : κ) : (compare x y).swap = compare y x := by
  symm
  exact Std.OrientedCmp.eq_swap

theorem coherent_of_isStrictTotalOn
    (h : IsStrictTotalOn (comparator nilArgument) {r | r ∈ revs}) : Coherent nilArgument revs := by
  have hmix (a : Revision ρ π) (ha : a ∈ revs) (c : Revision ρ π) (hc : c ∈ revs)
      (hnone : c.updatedAt = none) :
      comparator nilArgument a c = some (compare a.revisionID c.revisionID) := by
    rw [h.swap c hc a ha, comparator_of_none hnone, Option.map_some, swap_compare]
  refine ⟨fun a ha c hc t hsome hnone => ?_, fun a ha b hb c hc s t hs ht hnone hac hcb => ?_⟩
  · exact (comparator_of_mixed hsome hnone).1 (hmix a ha c hc hnone)
  · by_contra hlt
    have hfst : comparator nilArgument a c = some .lt := by
      rw [hmix a ha c hc hnone, compare_lt_iff_lt.2 hac]
    have hsnd : comparator nilArgument c b = some .lt := by
      rw [comparator_of_none hnone, compare_lt_iff_lt.2 hcb]
    have hab := h.trans a ha c hc b hb hfst hsnd
    rcases (comparator_eq_lt_iff hs ht).1 hab with hst | ⟨hst, -⟩
    · exact hlt hst.le
    · exact hlt hst.le

/-- A coherent comparator goes by the identifiers unless both revisions have times. -/
theorem Coherent.comparator_eq (h : Coherent nilArgument revs) (ha : a ∈ revs) (hb : b ∈ revs)
    (hnone : a.updatedAt = none ∨ b.updatedAt = none) :
    comparator nilArgument a b = some (compare a.revisionID b.revisionID) := by
  cases hat : a.updatedAt with
  | none => exact comparator_of_none hat
  | some t =>
    have hbt := hnone.resolve_left (by rw [hat]; exact Option.some_ne_none t)
    exact (comparator_of_mixed hat hbt).2 (h.mixed a ha b hb t hat hbt)

theorem Coherent.lt_iff (h : Coherent nilArgument revs) (ha : a ∈ revs) (hb : b ∈ revs)
    (hnone : a.updatedAt = none ∨ b.updatedAt = none) :
    comparator nilArgument a b = some .lt ↔ a.revisionID < b.revisionID := by
  rw [h.comparator_eq ha hb hnone, Option.some.injEq, compare_lt_iff_lt]

theorem Coherent.trans (h : Coherent nilArgument revs)
    (hinj : ∀ a ∈ revs, ∀ b ∈ revs, a.revisionID = b.revisionID → a = b) (ha : a ∈ revs)
    (hb : b ∈ revs) (hc : c ∈ revs) (hab : comparator nilArgument a b = some .lt)
    (hbc : comparator nilArgument b c = some .lt) : comparator nilArgument a c = some .lt := by
  -- a revision with a time is not the one without
  have hne {x y : Revision ρ π} (hx : x ∈ revs) (hy : y ∈ revs) {t : ℚ} (hsome : x.updatedAt = some t)
      (hnone : y.updatedAt = none) : x.revisionID ≠ y.revisionID := by
    intro heq
    rw [hinj x hx y hy heq, hnone] at hsome
    cases hsome
  cases hat : a.updatedAt with
  | none =>
    rw [h.lt_iff ha hc (.inl hat)]
    rw [h.lt_iff ha hb (.inl hat)] at hab
    cases hbt : b.updatedAt with
    | none => exact hab.trans ((h.lt_iff hb hc (.inl hbt)).1 hbc)
    | some t =>
      cases hct : c.updatedAt with
      | none => exact hab.trans ((h.lt_iff hb hc (.inr hct)).1 hbc)
      | some u =>
        by_contra hac
        have hca := lt_of_le_of_ne (not_lt.1 hac) (hne hc ha hct hat)
        have hle := h.between c hc b hb a ha u t hct hbt hat hca hab
        rcases (comparator_eq_lt_iff hbt hct).1 hbc with htu | ⟨-, hlt⟩
        · exact absurd hle (not_le.2 htu)
        · exact lt_asymm hlt (hca.trans hab)
  | some s =>
    cases hct : c.updatedAt with
    | none =>
      rw [h.lt_iff ha hc (.inr hct)]
      rw [h.lt_iff hb hc (.inr hct)] at hbc
      cases hbt : b.updatedAt with
      | none => exact ((h.lt_iff ha hb (.inr hbt)).1 hab).trans hbc
      | some t =>
        by_contra hac
        have hca := lt_of_le_of_ne (not_lt.1 hac) (hne ha hc hat hct).symm
        have hle := h.between b hb a ha c hc t s hbt hat hct hbc hca
        rcases (comparator_eq_lt_iff hat hbt).1 hab with hst | ⟨-, hlt⟩
        · exact absurd hle (not_le.2 hst)
        · exact lt_asymm hlt (hbc.trans hca)
    | some u =>
      rw [comparator_eq_lt_iff hat hct]
      cases hbt : b.updatedAt with
      | none =>
        rw [h.lt_iff ha hb (.inr hbt)] at hab
        rw [h.lt_iff hb hc (.inl hbt)] at hbc
        have hle := h.between a ha c hc b hb s u hat hct hbt hab hbc
        exact hle.lt_or_eq.imp_right fun heq => ⟨heq, hab.trans hbc⟩
      | some t =>
        rcases (comparator_eq_lt_iff hat hbt).1 hab with hst | ⟨rfl, hlt⟩
        · rcases (comparator_eq_lt_iff hbt hct).1 hbc with htu | ⟨rfl, -⟩
          · exact .inl (hst.trans htu)
          · exact .inl hst
        · rcases (comparator_eq_lt_iff hbt hct).1 hbc with htu | ⟨rfl, hlt'⟩
          · exact .inl htu
          · exact .inr ⟨rfl, hlt.trans hlt'⟩

/-- The comparator orders revisions exactly if it is coherent on them. -/
theorem isStrictTotalOn_iff (hnd : (revs.map Revision.revisionID).Nodup) :
    IsStrictTotalOn (comparator nilArgument) {r | r ∈ revs} ↔ Coherent nilArgument revs := by
  refine ⟨coherent_of_isStrictTotalOn, fun h => ?_⟩
  have hinj : ∀ a ∈ revs, ∀ b ∈ revs, a.revisionID = b.revisionID → a = b :=
    fun a ha b hb => inj_on_of_nodup_map hnd ha hb
  -- the answer for two revisions, whichever of them have times
  have hans : ∀ a ∈ revs, ∀ b ∈ revs, ∃ o : Ordering,
      comparator nilArgument a b = some (o.then (compare a.revisionID b.revisionID)) ∧
        comparator nilArgument b a = some (o.swap.then (compare b.revisionID a.revisionID)) := by
    intro a ha b hb
    cases hat : a.updatedAt with
    | none =>
      exact ⟨.eq, h.comparator_eq ha hb (.inl hat), h.comparator_eq hb ha (.inr hat)⟩
    | some s =>
      cases hbt : b.updatedAt with
      | none =>
        exact ⟨.eq, h.comparator_eq ha hb (.inr hbt), h.comparator_eq hb ha (.inl hbt)⟩
      | some t =>
        refine ⟨compare s t, comparator_of_some hat hbt, ?_⟩
        rw [comparator_of_some hbt hat, swap_compare]
  refine ⟨fun a ha b hb => ?_, fun a ha b hb => ?_, fun a ha b hb heq => ?_, fun a ha b hb c hc =>
    h.trans hinj ha hb hc⟩
  · obtain ⟨o, ho, -⟩ := hans a ha b hb
    rw [ho, Option.isSome_some]
  · obtain ⟨o, ho, ho'⟩ := hans a ha b hb
    rw [ho, ho', Option.map_some, Ordering.swap_then, swap_compare]
  · obtain ⟨o, ho, -⟩ := hans a ha b hb
    rw [ho, Option.some.injEq, Ordering.then_eq_eq, compare_eq_iff_eq] at heq
    exact hinj a ha b hb heq.2

end

/-! ### The leaves of a document -/

/-- A leaf of the revision tree: a revision, or the tombstone of one. -/
inductive Leaf (ρ π : Type) where
  | saved (rev : Revision ρ π)
  | deletion (revisionID : ρ)

/-- `getConflictingRevisions:`, the leaves that are not deleted. -/
def conflictingRevisions (leaves : List (Leaf ρ π)) : List (Revision ρ π) :=
  leaves.filterMap fun
    | .saved rev => some rev
    | .deletion _ => none

/-- A document with its leaf revisions. -/
structure Document (ρ π : Type) where
  leaves : List (Leaf ρ π)
  nodup : ((conflictingRevisions leaves).map Revision.revisionID).Nodup

/-- The child of a revision takes its place among the leaves. -/
def replaceLeaf (leaves : List (Leaf ρ π)) (rev : Revision ρ π) (child : Leaf ρ π) :
    List (Leaf ρ π) :=
  leaves.map fun
    | .saved r => if r.revisionID = rev.revisionID then child else .saved r
    | .deletion revisionID => .deletion revisionID

/-- What the steps of a call come to: the identifier of the child, or a failure. -/
structure Outcomes (ρ : Type) where
  getConflictingRevisions : Bool
  deleteDocument : ρ → Option ρ
  createRevision : ρ → Option ρ

/-- The loop of the deletions, with its early exit. -/
def deleteDocuments (outcomes : Outcomes ρ) :
    List (Leaf ρ π) → List (Revision ρ π) → Bool × List (Leaf ρ π)
  | leaves, [] => (true, leaves)
  | leaves, rev :: revs =>
    match outcomes.deleteDocument rev.revisionID with
    | none => (false, leaves)
    | some child => deleteDocuments outcomes (replaceLeaf leaves rev (.deletion child)) revs

/-- `resolveConflictingRevisionsForObject:error:`, with its result and the leaves then; `none` where
the comparator or the sort raises. -/
def resolveConflictingRevisions
    (sort : (Revision ρ π → Revision ρ π → Option Ordering) → List (Revision ρ π) →
      Option (List (Revision ρ π)))
    (nilArgument : ℚ → Option Ordering) (outcomes : Outcomes ρ) (leaves : List (Leaf ρ π)) :
    Option (Bool × List (Leaf ρ π)) :=
  if outcomes.getConflictingRevisions then
    if (conflictingRevisions leaves).length < 2 then some (true, leaves)
    else
      match sort (comparator nilArgument) (conflictingRevisions leaves) with
      | none | some [] => none
      | some (first :: rest) =>
        match deleteDocuments outcomes leaves rest with
        | (false, left) => some (false, left)
        | (true, left) =>
          match outcomes.createRevision first.revisionID with
          | none => some (false, left)
          | some child =>
            some (true, replaceLeaf left first (.saved { first with revisionID := child }))
  else some (false, leaves)

section

variable {outcomes : Outcomes ρ} {leaves : List (Leaf ρ π)} {rev first : Revision ρ π}
  {revs rest : List (Revision ρ π)}

attribute [local simp] replaceLeaf

theorem conflictingRevisions_replaceLeaf_deletion (child : ρ) :
    conflictingRevisions (replaceLeaf leaves rev (.deletion child)) =
      (conflictingRevisions leaves).filter fun r => r.revisionID ≠ rev.revisionID := by
  induction leaves with
  | nil => rfl
  | cons leaf leaves ih =>
    cases leaf with
    | deletion id => simpa [conflictingRevisions] using ih
    | saved r =>
      by_cases heq : r.revisionID = rev.revisionID
      · simpa [conflictingRevisions, heq] using ih
      · simpa [conflictingRevisions, heq] using ih

theorem conflictingRevisions_replaceLeaf_saved (child : Revision ρ π)
    (h : conflictingRevisions leaves = [rev]) :
    conflictingRevisions (replaceLeaf leaves rev (.saved child)) = [child] := by
  have hmap : conflictingRevisions (replaceLeaf leaves rev (.saved child)) =
      (conflictingRevisions leaves).map fun r =>
        if r.revisionID = rev.revisionID then child else r := by
    clear h
    induction leaves with
    | nil => rfl
    | cons leaf leaves ih =>
      cases leaf with
      | deletion id => simpa [conflictingRevisions] using ih
      | saved r =>
        by_cases heq : r.revisionID = rev.revisionID
        · simpa [conflictingRevisions, heq] using ih
        · simpa [conflictingRevisions, heq] using ih
  rw [hmap, h]
  simp

/-- The loop deletes its list up to the first revision whose deletion fails. -/
theorem deleteDocuments_spec (outcomes : Outcomes ρ) (revs : List (Revision ρ π)) :
    ∀ leaves : List (Leaf ρ π), ∃ deleted, conflictingRevisions (deleteDocuments outcomes leaves revs).2 =
        ((conflictingRevisions leaves).filter fun r => r.revisionID ∉ deleted.map Revision.revisionID) ∧
      ((deleteDocuments outcomes leaves revs).1 = true ∧ deleted = revs ∧
          (∀ rev ∈ revs, outcomes.deleteDocument rev.revisionID ≠ none) ∨
        (deleteDocuments outcomes leaves revs).1 = false ∧
          ∃ rev later, revs = deleted ++ rev :: later ∧
            outcomes.deleteDocument rev.revisionID = none) := by
  induction revs with
  | nil =>
    intro leaves
    refine ⟨[], ?_, .inl ⟨rfl, rfl, fun rev hrev => absurd hrev not_mem_nil⟩⟩
    simp [deleteDocuments]
  | cons rev revs ih =>
    intro leaves
    cases hdel : outcomes.deleteDocument rev.revisionID with
    | none =>
      refine ⟨[], ?_, .inr ⟨?_, rev, revs, rfl, hdel⟩⟩
      · simp [deleteDocuments, hdel]
      · simp [deleteDocuments, hdel]
    | some child =>
      obtain ⟨deleted, hleft, hends⟩ := ih (replaceLeaf leaves rev (.deletion child))
      have hstep : deleteDocuments outcomes leaves (rev :: revs) =
          deleteDocuments outcomes (replaceLeaf leaves rev (.deletion child)) revs := by
        simp [deleteDocuments, hdel]
      rw [hstep]
      refine ⟨rev :: deleted, ?_, ?_⟩
      · rw [hleft, conflictingRevisions_replaceLeaf_deletion, filter_filter]
        refine filter_congr fun r _ => ?_
        rw [Bool.eq_iff_iff]
        simp only [Bool.and_eq_true, decide_eq_true_eq, map_cons, mem_cons, not_or]
        exact and_comm
      · rcases hends with ⟨htrue, rfl, hall⟩ | ⟨hfls, failing, later, heq, hnone⟩
        · refine .inl ⟨htrue, rfl, fun r hr => ?_⟩
          rcases mem_cons.1 hr with rfl | hr
          · rw [hdel]
            exact Option.some_ne_none child
          · exact hall r hr
        · exact .inr ⟨hfls, failing, later, by rw [heq, cons_append], hnone⟩

/-- Once all but the first are deleted, the first is the only revision. -/
theorem filter_eq_singleton (hnd : (revs.map Revision.revisionID).Nodup)
    (hperm : (first :: rest).Perm revs) :
    (revs.filter fun r => r.revisionID ∉ rest.map Revision.revisionID) = [first] := by
  have hdis : ((first :: rest).map Revision.revisionID).Nodup :=
    (hperm.map Revision.revisionID).nodup_iff.2 hnd
  have hfst : first.revisionID ∉ rest.map Revision.revisionID := by
    exact (nodup_cons.1 hdis).1
  have hrest : (rest.filter fun r => r.revisionID ∉ rest.map Revision.revisionID) = [] := by
    rw [filter_eq_nil_iff]
    intro r hr
    simpa using ⟨r, hr, rfl⟩
  have hall := hperm.filter fun r => decide (r.revisionID ∉ rest.map Revision.revisionID)
  rw [filter_cons_of_pos (by simpa using hfst), hrest] at hall
  exact perm_singleton.1 hall.symm

/-- All that a call can do to two or more revisions that are ordered. -/
theorem resolveConflictingRevisions_cases
    {sort : (Revision ρ π → Revision ρ π → Option Ordering) → List (Revision ρ π) →
      Option (List (Revision ρ π))} {nilArgument : ℚ → Option Ordering}
    (hlist : outcomes.getConflictingRevisions = true)
    (hnd : ((conflictingRevisions leaves).map Revision.revisionID).Nodup)
    (htwo : 2 ≤ (conflictingRevisions leaves).length)
    (hsrt : sort (comparator nilArgument) (conflictingRevisions leaves) = some (first :: rest))
    (hperm : (first :: rest).Perm (conflictingRevisions leaves)) :
    ∃ answer left, resolveConflictingRevisions sort nilArgument outcomes leaves = some (answer, left) ∧
      ((answer = true ∧ (∀ rev ∈ rest, outcomes.deleteDocument rev.revisionID ≠ none) ∧
          ∃ child, outcomes.createRevision first.revisionID = some child ∧
            conflictingRevisions left = [{ first with revisionID := child }]) ∨
        (answer = false ∧ (∀ rev ∈ rest, outcomes.deleteDocument rev.revisionID ≠ none) ∧
          outcomes.createRevision first.revisionID = none ∧ conflictingRevisions left = [first]) ∨
        (answer = false ∧ ∃ deleted rev later, rest = deleted ++ rev :: later ∧
          outcomes.deleteDocument rev.revisionID = none ∧ conflictingRevisions left =
            (conflictingRevisions leaves).filter fun r =>
              r.revisionID ∉ deleted.map Revision.revisionID)) := by
  obtain ⟨deleted, hleft, hends⟩ := deleteDocuments_spec outcomes rest leaves
  generalize hloop : deleteDocuments outcomes leaves rest = result at hleft hends
  obtain ⟨ok, left⟩ := result
  rw [resolveConflictingRevisions, if_pos hlist, if_neg (by omega), hsrt]
  simp only [hloop]
  rcases hends with ⟨rfl, rfl, hall⟩ | ⟨rfl, rev, later, hrest, hnone⟩
  · rw [filter_eq_singleton hnd hperm] at hleft
    cases hcre : outcomes.createRevision first.revisionID with
    | none => exact ⟨false, left, rfl, .inr (.inl ⟨rfl, hall, rfl, hleft⟩)⟩
    | some child =>
      exact ⟨true, _, rfl,
        .inl ⟨rfl, hall, child, rfl, conflictingRevisions_replaceLeaf_saved _ hleft⟩⟩
  · exact ⟨false, left, rfl, .inr (.inr ⟨rfl, deleted, rev, later, hrest, hnone, hleft⟩)⟩

end

/-! ### Convergence -/

/-- Two replicas that list the conflicting revisions in any order and both resolve the conflict have
the same properties afterwards. -/
def Converges
    (sort : (Revision ρ π → Revision ρ π → Option Ordering) → List (Revision ρ π) →
      Option (List (Revision ρ π)))
    (nilArgument : ℚ → Option Ordering) (revs : List (Revision ρ π)) : Prop :=
  ∀ leaves leaves' : List (Leaf ρ π), (conflictingRevisions leaves).Perm revs →
    (conflictingRevisions leaves').Perm revs → ∀ outcomes outcomes' left left',
      resolveConflictingRevisions sort nilArgument outcomes leaves = some (true, left) →
      resolveConflictingRevisions sort nilArgument outcomes' leaves' = some (true, left') →
        (conflictingRevisions left).map Revision.properties =
          (conflictingRevisions left').map Revision.properties

section

variable {sort : (Revision ρ π → Revision ρ π → Option Ordering) → List (Revision ρ π) →
    Option (List (Revision ρ π))} {nilArgument : ℚ → Option Ordering}
  {outcomes : Outcomes ρ} {leaves left : List (Leaf ρ π)} {revs rest : List (Revision ρ π)}
  {first : Revision ρ π}

theorem getConflictingRevisions_of_yes
    (h : resolveConflictingRevisions sort nilArgument outcomes leaves = some (true, left)) :
    outcomes.getConflictingRevisions = true := by
  by_contra hlist
  rw [resolveConflictingRevisions, if_neg hlist] at h
  cases h

theorem resolveConflictingRevisions_of_lt (hlist : outcomes.getConflictingRevisions = true)
    (hlt : (conflictingRevisions leaves).length < 2) :
    resolveConflictingRevisions sort nilArgument outcomes leaves = some (true, leaves) := by
  rw [resolveConflictingRevisions, if_pos hlist, if_pos hlt]

/-- After a `YES` the properties are those of the first of the sorted revisions. -/
theorem properties_of_yes (hnd : ((conflictingRevisions leaves).map Revision.revisionID).Nodup)
    (hsrt : sort (comparator nilArgument) (conflictingRevisions leaves) = some (first :: rest))
    (hperm : (first :: rest).Perm (conflictingRevisions leaves))
    (h : resolveConflictingRevisions sort nilArgument outcomes leaves = some (true, left)) :
    (conflictingRevisions left).map Revision.properties = [first.properties] := by
  have hlist := getConflictingRevisions_of_yes h
  rcases lt_or_ge (conflictingRevisions leaves).length 2 with hlt | htwo
  · rw [resolveConflictingRevisions_of_lt hlist hlt] at h
    cases h
    have hrest : rest = [] := by
      have hlen := hperm.length_eq
      rw [length_cons] at hlen
      exact eq_nil_of_length_eq_zero (by omega)
    rw [hrest] at hperm
    rw [← singleton_perm.1 hperm]
    rfl
  · obtain ⟨answer, left', heq, hcas⟩ :=
      resolveConflictingRevisions_cases hlist hnd htwo hsrt hperm
    rw [h] at heq
    cases heq
    rcases hcas with ⟨-, -, child, -, hleft⟩ | ⟨hfls, -⟩ | ⟨hfls, -⟩
    · rw [hleft]
      rfl
    · cases hfls
    · cases hfls

theorem converges_of_isStrictTotalOn (hsort : Sorts sort)
    (hnd : (revs.map Revision.revisionID).Nodup)
    (h : IsStrictTotalOn (comparator nilArgument) {r | r ∈ revs}) :
    Converges sort nilArgument revs := by
  intro leaves leaves' hperm hperm' outcomes outcomes' left left' hyes hyes'
  rcases eq_or_ne revs [] with rfl | hne
  · -- without revisions nothing is done
    rw [resolveConflictingRevisions_of_lt (getConflictingRevisions_of_yes hyes)
      (by rw [hperm.eq_nil]; exact Nat.zero_lt_two)] at hyes
    rw [resolveConflictingRevisions_of_lt (getConflictingRevisions_of_yes hyes')
      (by rw [hperm'.eq_nil]; exact Nat.zero_lt_two)] at hyes'
    cases hyes
    cases hyes'
    rw [hperm.eq_nil, hperm'.eq_nil]
  · have hrevs : revs.Nodup := hnd.of_map
    obtain ⟨first, rest, hsrt, hfst, -⟩ := exists_first hsort hrevs h hne
    have hyie {leaves left : List (Leaf ρ π)} {outcomes : Outcomes ρ}
        (hperm : (conflictingRevisions leaves).Perm revs)
        (hyes : resolveConflictingRevisions sort nilArgument outcomes leaves = some (true, left)) :
        (conflictingRevisions left).map Revision.properties = [first.properties] := by
      refine properties_of_yes ((hperm.map _).nodup_iff.2 hnd) ?_ (hfst.trans hperm.symm) hyes
      rw [hsort.congr hrevs h hperm, hsrt]
    rw [hyie hperm hyes, hyie hperm' hyes']

/-- The comparator orders the revisions, and replicas converge, if it is coherent. -/
theorem comparator_ordersAndConverges_iff
    (hsort : Sorts sort) (nilArgument : ℚ → Option Ordering) (revs : List (Revision ρ π))
    (hnodup : (revs.map Revision.revisionID).Nodup) :
    IsStrictTotalOn (comparator nilArgument) {r | r ∈ revs} ∧ Converges sort nilArgument revs ↔
      Coherent nilArgument revs := by
  rw [← isStrictTotalOn_iff hnodup]
  exact ⟨And.left, fun h => ⟨h, converges_of_isStrictTotalOn hsort hnodup h⟩⟩

end

/-- A revision without a time has its place by the identifier. -/
theorem comparator_ordersAndConverges_of_undated :
    let revs : List (Revision ℕ String) := [⟨1, some 1, "a"⟩, ⟨2, none, "b"⟩, ⟨3, some 2, "c"⟩]
    IsStrictTotalOn (comparator fun _ => some .eq) {r | r ∈ revs} ∧
      Converges mergeSorted (fun _ => some .eq) revs := by
  refine (comparator_ordersAndConverges_iff sorts_mergeSorted _ _ (by decide)).2
    ⟨fun _ _ _ _ _ _ _ => .inl rfl, fun a ha b hb c hc s t hs ht hnone hac hcb => ?_⟩
  -- only the second has no time, so that it is between the first and the last
  obtain rfl : c = ⟨2, none, "b"⟩ := by
    simp only [mem_cons, not_mem_nil, or_false] at hc
    rcases hc with rfl | rfl | rfl <;> simp_all
  simp only [mem_cons, not_mem_nil, or_false] at ha hb
  rcases ha with rfl | rfl | rfl <;> rcases hb with rfl | rfl | rfl <;> simp_all
  subst hs ht
  norm_num

/-- Three revisions in a cycle: the first is before the one without a time, that before the last,
which has the earlier time. -/
theorem not_isStrictTotalOn_cycle :
    ¬∃ nilArgument, IsStrictTotalOn (comparator nilArgument)
      {r | r ∈ ([⟨1, some 2, "a"⟩, ⟨2, none, "b"⟩, ⟨3, some 1, "c"⟩] : List (Revision ℕ String))} := by
  rintro ⟨nilArgument, h⟩
  have hle := (coherent_of_isStrictTotalOn h).between ⟨1, some 2, "a"⟩ (by simp) ⟨3, some 1, "c"⟩
    (by simp) ⟨2, none, "b"⟩ (by simp) 2 1 rfl rfl rfl (by decide) (by decide)
  exact absurd hle (by decide)

/-! ### Which revision is kept -/

/-- The order by the time of the last update and the identifier. -/
def Revision.Older (a b : Revision ρ π) : Prop :=
  ∃ s t, a.updatedAt = some s ∧ b.updatedAt = some t ∧
    (s < t ∨ s = t ∧ a.revisionID < b.revisionID)

/-- The revision is older than the others. -/
def IsOldest (revs : List (Revision ρ π)) (oldest : Revision ρ π) : Prop :=
  oldest ∈ revs ∧ ∀ rev ∈ revs, rev ≠ oldest → oldest.Older rev

/-- The revision is newer than the others. -/
def IsNewest (revs : List (Revision ρ π)) (newest : Revision ρ π) : Prop :=
  newest ∈ revs ∧ ∀ rev ∈ revs, rev ≠ newest → rev.Older newest

/-- A `YES` leaves the properties of the newest revision, a `NO` the newest itself. -/
def KeepsNewest (newest : Revision ρ π) : Bool × List (Leaf ρ π) → Prop
  | (true, left) => ∃ rev, conflictingRevisions left = [rev] ∧ rev.properties = newest.properties
  | (false, left) => newest ∈ conflictingRevisions left

section

variable {sort : (Revision ρ π → Revision ρ π → Option Ordering) → List (Revision ρ π) →
    Option (List (Revision ρ π))} {nilArgument : ℚ → Option Ordering}
  {revs rest : List (Revision ρ π)} {a b first oldest newest : Revision ρ π}

theorem Revision.Older.comparator_eq (nilArgument : ℚ → Option Ordering) (h : a.Older b) :
    comparator nilArgument a b = some .lt := by
  obtain ⟨s, t, ha, hb, hlt⟩ := h
  exact (comparator_eq_lt_iff ha hb).2 hlt

theorem isStrictTotalOn_of_dated (hnd : (revs.map Revision.revisionID).Nodup)
    (hdat : ∀ rev ∈ revs, rev.updatedAt.isSome) :
    IsStrictTotalOn (comparator nilArgument) {r | r ∈ revs} := by
  have hnone (c : Revision ρ π) (hc : c ∈ revs) : c.updatedAt ≠ none :=
    Option.isSome_iff_ne_none.1 (hdat c hc)
  refine (isStrictTotalOn_iff hnd).2 ⟨?_, ?_⟩
  · exact fun a _ c hc t _ h => absurd h (hnone c hc)
  · exact fun a _ b _ c hc s t _ _ h => absurd h (hnone c hc)

/-- The sorted revisions start with the oldest and end with the newest. -/
theorem exists_sorted (hsort : Sorts sort) (nilArgument : ℚ → Option Ordering)
    (hnd : (revs.map Revision.revisionID).Nodup)
    (htwo : 2 ≤ revs.length) (hdat : ∀ rev ∈ revs, rev.updatedAt.isSome)
    (hold : IsOldest revs oldest) (hnew : IsNewest revs newest) :
    ∃ between, sort (comparator nilArgument) revs = some (oldest :: (between ++ [newest])) ∧
      (oldest :: (between ++ [newest])).Perm revs := by
  have htot : IsStrictTotalOn (comparator nilArgument) {r | r ∈ revs} :=
    isStrictTotalOn_of_dated hnd hdat
  obtain ⟨sorted, heq, hperm, hpw⟩ := hsort _ revs hnd.of_map htot
  rw [← hperm.length_eq] at htwo
  obtain ⟨first, rest, rfl⟩ := exists_cons_of_length_pos (by omega : 0 < sorted.length)
  have hrest : rest ≠ [] := by
    rintro rfl
    simp at htwo
  obtain ⟨between, last, rfl⟩ := eq_nil_or_concat rest |>.resolve_left hrest
  rw [concat_eq_append] at heq hperm hpw
  have hmem {rev : Revision ρ π} (h : rev ∈ first :: (between ++ [last])) : rev ∈ revs :=
    hperm.mem_iff.1 h
  -- the oldest has nothing before it, and the newest nothing after it
  have hfst : first = oldest := by
    by_contra hne
    have hlt := (hold.2 first (hmem (by simp)) hne).comparator_eq nilArgument
    have hin : oldest ∈ between ++ [last] :=
      (mem_cons.1 (hperm.mem_iff.2 hold.1)).resolve_left (Ne.symm hne)
    exact htot.not_lt_of_lt (hmem (by simp)) hold.1 ((pairwise_cons.1 hpw).1 _ hin) hlt
  have hlast : last = newest := by
    by_contra hne
    have hlt := (hnew.2 last (hmem (by simp)) hne).comparator_eq nilArgument
    have hin : newest ∈ first :: between := by
      have h := hperm.mem_iff.2 hnew.1
      rw [← cons_append, mem_append, mem_singleton] at h
      exact h.resolve_right (Ne.symm hne)
    have hlt' := (pairwise_append.1 hpw).2.2 newest hin last (mem_singleton_self last)
    exact htot.not_lt_of_lt hnew.1 (hmem (by simp)) hlt' hlt
  rw [hfst, hlast] at heq hperm
  exact ⟨between, heq, hperm⟩

omit [LinearOrder ρ] in
/-- What the loop goes through are the revisions other than the first. -/
theorem mem_rest_iff (hnd : (revs.map Revision.revisionID).Nodup)
    (hperm : (first :: rest).Perm revs) {rev : Revision ρ π} :
    rev ∈ rest ↔ rev ∈ revs ∧ rev ≠ first := by
  have hdis : (first :: rest).Nodup := hperm.nodup_iff.2 hnd.of_map
  rw [← hperm.mem_iff, mem_cons]
  constructor
  · intro h
    refine ⟨.inr h, ?_⟩
    rintro rfl
    exact (nodup_cons.1 hdis).1 h
  · rintro ⟨rfl | h, hne⟩
    · exact absurd rfl hne
    · exact h

omit [LinearOrder ρ] in
theorem last_notMem_deleted {between deleted later : List (Revision ρ π)} {last rev : Revision ρ π}
    (hids : ((between ++ [last]).map Revision.revisionID).Nodup)
    (hrest : between ++ [last] = deleted ++ rev :: later) :
    last.revisionID ∉ deleted.map Revision.revisionID := by
  have hlast : last ∈ rev :: later := by
    have hget := congrArg getLast? hrest
    rw [getLast?_concat, getLast?_append_of_ne_nil _ (cons_ne_nil _ _)] at hget
    exact mem_of_getLast? hget.symm
  rw [hrest, map_append, nodup_append] at hids
  intro hin
  exact hids.2.2 _ hin _ (mem_map_of_mem hlast) rfl

/-- The oldest revision is kept: nothing newer is lost only if a step fails before the newest is
deleted, or if the two have the same properties. -/
theorem resolveConflictingRevisions_keepsNewest_iff
    (hsort : Sorts sort) (nilArgument : ℚ → Option Ordering) (outcomes : Outcomes ρ)
    (document : Document ρ π) (htwo : 2 ≤ (conflictingRevisions document.leaves).length)
    (hdated : ∀ rev ∈ conflictingRevisions document.leaves, rev.updatedAt.isSome)
    (hold : IsOldest (conflictingRevisions document.leaves) oldest)
    (hnew : IsNewest (conflictingRevisions document.leaves) newest) :
    (∃ result, resolveConflictingRevisions sort nilArgument outcomes document.leaves = some result ∧
        KeepsNewest newest result) ↔
      outcomes.getConflictingRevisions = false ∨
        (∃ rev ∈ conflictingRevisions document.leaves, rev ≠ oldest ∧
          outcomes.deleteDocument rev.revisionID = none) ∨
        (outcomes.createRevision oldest.revisionID).isSome ∧
          oldest.properties = newest.properties := by
  obtain ⟨between, hsrt, hperm⟩ :=
    exists_sorted hsort nilArgument document.nodup htwo hdated hold hnew
  have hmem {rev : Revision ρ π} : rev ∈ between ++ [newest] ↔
      rev ∈ conflictingRevisions document.leaves ∧ rev ≠ oldest := mem_rest_iff document.nodup hperm
  have hnewe : newest ∈ between ++ [newest] := by simp
  cases hlist : outcomes.getConflictingRevisions with
  | false =>
    refine iff_of_true ⟨(false, document.leaves), ?_, hnew.1⟩ (.inl rfl)
    rw [resolveConflictingRevisions, if_neg (by rw [hlist]; exact Bool.false_ne_true)]
  | true =>
    obtain ⟨answer, left, heq, hcas⟩ :=
      resolveConflictingRevisions_cases hlist document.nodup htwo hsrt hperm
    rw [heq]
    simp only [Option.some.injEq, exists_eq_left', reduceCtorEq, false_or]
    rcases hcas with ⟨rfl, hall, child, hcre, hleft⟩ | ⟨rfl, hall, hcre, hleft⟩ |
      ⟨rfl, deleted, rev, later, hrest, hnone, hleft⟩
    · have hno : ¬∃ rev ∈ conflictingRevisions document.leaves, rev ≠ oldest ∧
          outcomes.deleteDocument rev.revisionID = none := by
        rintro ⟨rev, hrev, hne, hnone⟩
        exact hall rev (hmem.2 ⟨hrev, hne⟩) hnone
      simp only [KeepsNewest, hleft, cons.injEq, and_true, exists_eq_left', hno, false_or,
        hcre, Option.isSome_some, true_and]
      rfl
    · -- the newest is gone and nothing was created
      refine iff_of_false ?_ ?_
      · intro h
        rw [KeepsNewest, hleft, mem_singleton] at h
        exact (hmem.1 hnewe).2 h
      · rintro (⟨rev, hrev, hne, hnone⟩ | ⟨hsome, -⟩)
        · exact hall rev (hmem.2 ⟨hrev, hne⟩) hnone
        · rw [hcre] at hsome
          cases hsome
    · -- the newest is the last in the list, so the loop has not got to it
      have hrev : rev ∈ between ++ [newest] := by
        rw [hrest]
        exact mem_append_right deleted mem_cons_self
      refine iff_of_true ?_ (.inl ⟨rev, (hmem.1 hrev).1, (hmem.1 hrev).2, hnone⟩)
      have hids := (hperm.map Revision.revisionID).nodup_iff.2 document.nodup
      rw [KeepsNewest, hleft, mem_filter, decide_eq_true_eq]
      exact ⟨hnew.1, last_notMem_deleted (nodup_cons.1 hids).2 hrest⟩

end

/-- A document with two revisions, the later with identifier 2. -/
def testDocument : Document ℕ String where
  leaves := [.saved ⟨2, some 5, "later"⟩, .saved ⟨1, some 3, "earlier"⟩]
  nodup := by decide

theorem isOldest_testDocument :
    IsOldest (conflictingRevisions testDocument.leaves) ⟨1, some 3, "earlier"⟩ := by
  refine ⟨by simp [testDocument, conflictingRevisions], fun rev hrev hne => ?_⟩
  rcases mem_pair.1 hrev with rfl | rfl
  · exact ⟨3, 5, rfl, rfl, .inl (by decide)⟩
  · exact absurd rfl hne

theorem isNewest_testDocument :
    IsNewest (conflictingRevisions testDocument.leaves) ⟨2, some 5, "later"⟩ := by
  refine ⟨by simp [testDocument, conflictingRevisions], fun rev hrev hne => ?_⟩
  rcases mem_pair.1 hrev with rfl | rfl
  · exact absurd rfl hne
  · exact ⟨3, 5, rfl, rfl, .inl (by decide)⟩

theorem dated_testDocument : ∀ rev ∈ conflictingRevisions testDocument.leaves, rev.updatedAt.isSome := by
  intro rev hrev
  rcases mem_pair.1 hrev with rfl | rfl <;> rfl

/-- With the deletion failing, the newest is kept. -/
theorem resolveConflictingRevisions_keepsNewest_failing :
    ∃ result, resolveConflictingRevisions mergeSorted (fun _ => none)
        ⟨true, fun _ => none, fun _ => none⟩ testDocument.leaves = some result ∧
      KeepsNewest ⟨2, some 5, "later"⟩ result :=
  (resolveConflictingRevisions_keepsNewest_iff sorts_mergeSorted _ _ testDocument (by decide)
    dated_testDocument isOldest_testDocument isNewest_testDocument).2
    (.inr (.inl ⟨⟨2, some 5, "later"⟩, by simp [testDocument, conflictingRevisions], by decide,
      rfl⟩))

/-- Without a failing step the later revision is deleted. -/
theorem not_keepsNewest_testDocument :
    ∃ left, resolveConflictingRevisions mergeSorted (fun _ => none)
        ⟨true, fun _ => some 3, fun _ => some 4⟩ testDocument.leaves = some (true, left) ∧
      conflictingRevisions left = [⟨4, some 3, "earlier"⟩] ∧
      ¬KeepsNewest ⟨2, some 5, "later"⟩ (true, left) := by
  obtain ⟨between, hsrt, hperm⟩ := exists_sorted sorts_mergeSorted (fun _ => none)
    testDocument.nodup (by decide) dated_testDocument isOldest_testDocument isNewest_testDocument
  have hlist : (⟨true, fun _ => some 3, fun _ => some 4⟩ : Outcomes ℕ).getConflictingRevisions = true :=
    rfl
  obtain ⟨answer, left, heq, hcas⟩ :=
    resolveConflictingRevisions_cases hlist testDocument.nodup (by decide) hsrt hperm
  rcases hcas with ⟨rfl, -, child, hchd, hleft⟩ | ⟨-, -, hnone, -⟩ | ⟨-, _, _, _, -, hnone, -⟩
  · cases hchd
    refine ⟨left, heq, hleft, ?_⟩
    rintro ⟨rev, hrev, hprs⟩
    rw [hleft] at hrev
    cases hrev
    exact absurd hprs (by decide)
  · cases hnone
  · cases hnone

/-! ### Resolving again -/

section

variable {sort : (Revision ρ π → Revision ρ π → Option Ordering) → List (Revision ρ π) →
    Option (List (Revision ρ π))} {nilArgument : ℚ → Option Ordering}
  {left : List (Leaf ρ π)} {revs : List (Revision ρ π)} {kept : Revision ρ π}

/-- The leaves after one more call. -/
def resolveAgain
    (sort : (Revision ρ π → Revision ρ π → Option Ordering) → List (Revision ρ π) →
      Option (List (Revision ρ π)))
    (nilArgument : ℚ → Option Ordering) (outcomes : Outcomes ρ) (leaves : List (Leaf ρ π)) :
    Option (List (Leaf ρ π)) :=
  (resolveConflictingRevisions sort nilArgument outcomes leaves).map Prod.snd

/-- Of the conflicting revisions some are left, with the one to be kept; or only its child is. -/
def KeepsFirst (revs : List (Revision ρ π)) (kept : Revision ρ π) (left : List (Leaf ρ π)) : Prop :=
  kept ∈ conflictingRevisions left ∧ conflictingRevisions left <+ revs ∨
    ∃ child, conflictingRevisions left = [{ kept with revisionID := child }]

theorem KeepsFirst.resolve (hsort : Sorts sort) (hnd : (revs.map Revision.revisionID).Nodup)
    (htot : IsStrictTotalOn (comparator nilArgument) {r | r ∈ revs})
    (hmin : ∀ r ∈ revs, r ≠ kept → comparator nilArgument kept r = some .lt)
    (h : KeepsFirst revs kept left) (outcomes : Outcomes ρ) :
    ∃ answer left', resolveConflictingRevisions sort nilArgument outcomes left =
        some (answer, left') ∧ KeepsFirst revs kept left' ∧
      (answer = true → (conflictingRevisions left').map Revision.properties =
        [kept.properties]) := by
  by_cases hlist : outcomes.getConflictingRevisions = true
  swap
  · refine ⟨false, left, ?_, h, nofun⟩
    rw [resolveConflictingRevisions, if_neg hlist]
  rcases lt_or_ge (conflictingRevisions left).length 2 with hlt | htwo
  · refine ⟨true, left, resolveConflictingRevisions_of_lt hlist hlt, h, fun _ => ?_⟩
    rcases h with ⟨hmem, -⟩ | ⟨child, heq⟩
    · have hpos := length_pos_of_mem hmem
      obtain ⟨r, hr⟩ := length_eq_one_iff.1 (show (conflictingRevisions left).length = 1 by omega)
      rw [hr, mem_singleton] at hmem
      rw [hr, ← hmem]
      rfl
    · rw [heq]
      rfl
  · rcases h with ⟨hmem, hsub⟩ | ⟨child, heq⟩
    swap
    · rw [heq, length_singleton] at htwo
      omega
    have hids := (hsub.map Revision.revisionID).nodup hnd
    obtain ⟨rest, hsrt, hperm⟩ := hsort.first_of_sublist hnd.of_map htot hmin hsub hmem
    obtain ⟨answer, left', heq, hcas⟩ :=
      resolveConflictingRevisions_cases hlist hids htwo hsrt hperm
    refine ⟨answer, left', heq, ?_⟩
    rcases hcas with ⟨-, -, child, -, hleft⟩ | ⟨rfl, -, -, hleft⟩ |
      ⟨rfl, deleted, rev, later, hrest, -, hleft⟩
    · exact ⟨.inr ⟨child, hleft⟩, fun _ => by rw [hleft]; rfl⟩
    · exact ⟨.inr ⟨kept.revisionID, hleft⟩, nofun⟩
    · refine ⟨.inl ⟨?_, hleft ▸ filter_sublist.trans hsub⟩, nofun⟩
      have hnot := (nodup_cons.1 ((hperm.map Revision.revisionID).nodup_iff.2 hids)).1
      rw [hrest, map_append, mem_append, not_or] at hnot
      rw [hleft, mem_filter]
      exact ⟨hmem, decide_eq_true hnot.1⟩

/-- A call that fails part way can be made again: after any calls, none raises, and the first that
answers yes leaves the properties of the same revision. -/
theorem resolveAgain_converges (hsort : Sorts sort) (nilArgument : ℚ → Option Ordering)
    (document : Document ρ π) (hne : conflictingRevisions document.leaves ≠ [])
    (htot : IsStrictTotalOn (comparator nilArgument)
      {r | r ∈ conflictingRevisions document.leaves}) :
    ∃ kept ∈ conflictingRevisions document.leaves, ∀ calls,
      Throughout (resolveAgain sort nilArgument) (fun left => ∀ outcomes, ∃ answer left',
        resolveConflictingRevisions sort nilArgument outcomes left = some (answer, left') ∧
          (answer = true → (conflictingRevisions left').map Revision.properties =
            [kept.properties])) calls document.leaves := by
  obtain ⟨kept, rest, -, hperm, hlt⟩ := exists_first hsort document.nodup.of_map htot hne
  have hmem := hperm.mem_iff.1 (mem_cons_self (a := kept))
  have hmin (r) (hr : r ∈ conflictingRevisions document.leaves) (hner : r ≠ kept) :
      comparator nilArgument kept r = some .lt :=
    hlt r ((mem_cons.1 (hperm.mem_iff.2 hr)).resolve_left hner)
  refine ⟨kept, hmem, fun calls => throughout_of_run fun past left hrun outcomes => ?_⟩
  have hkeeps : KeepsFirst (conflictingRevisions document.leaves) kept left := by
    refine run_invariant ?_ (.inl ⟨hmem, Sublist.refl _⟩) hrun
    intro outcomes s s' hs hstep
    obtain ⟨answer, left', heq, hs', -⟩ := hs.resolve hsort document.nodup htot hmin outcomes
    rw [resolveAgain, heq] at hstep
    cases hstep
    exact hs'
  obtain ⟨answer, left', heq, -, hyes⟩ :=
    hkeeps.resolve hsort document.nodup htot hmin outcomes
  exact ⟨answer, left', heq, hyes⟩

end

theorem resolveAgain_converges_testDocument :
    ∃ kept ∈ conflictingRevisions testDocument.leaves, ∀ calls,
      Throughout (resolveAgain mergeSorted fun _ => none) (fun left => ∀ outcomes, ∃ answer left',
        resolveConflictingRevisions mergeSorted (fun _ => none) outcomes left =
            some (answer, left') ∧
          (answer = true → (conflictingRevisions left').map Revision.properties =
            [kept.properties])) calls testDocument.leaves :=
  resolveAgain_converges sorts_mergeSorted _ testDocument (cons_ne_nil _ _)
    (isStrictTotalOn_of_dated testDocument.nodup dated_testDocument)

end Feather.Controllers
