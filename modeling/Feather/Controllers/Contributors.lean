import Feather.Async.System
import Feather.Order.Moving
import Mathlib.Data.List.Sort

/-!
# Moving contributors

The contributors of a manuscript are ordered by priority.  `moveContributors:…:toIndex:` of
`MPContributorsController.m` moves some of them in a copy of their list, the last first, and then
numbers the list.
-/

namespace Feather.Controllers.Contributors

open Async Moving List Option

variable {α : Type} [DecidableEq α]

/-- A call of the handler: the contributor with its old index and the new one. -/
structure Change (α : Type) where
  contributor : α
  oldIndex : Option ℕ
  newIndex : ℕ

/-- The copy of the list, and the calls of the handler so far. -/
structure MoveState (α : Type) where
  newUniverse : List α
  changes : List (Change α)

/-- `indexOfObject:`; `none` stands for `NSNotFound`. -/
def indexOfObject (objects : List α) (c : α) : Option ℕ :=
  if c ∈ objects then some (objects.idxOf c) else none

/-- One iteration; `none` where the index lies beyond the end and the insertion raises. -/
def moveStep (index : ℕ) (contributor : α) (s : MoveState α) : Option (MoveState α) :=
  let oldIndex := indexOfObject s.newUniverse contributor
  if oldIndex = some index then some s
  else
    let removed :=
      if oldIndex.isSome then s.newUniverse.filter (· != contributor) else s.newUniverse
    if index ≤ removed.length then
      some ⟨removed.take index ++ contributor :: removed.drop index,
        s.changes ++ [⟨contributor, oldIndex, index⟩]⟩
    else none

/-- The block of `refreshPrioritiesForContributors:changedContributors:`. -/
def refreshPriority (s : (α → ℤ) × List α) (at_ : α × ℕ) : (α → ℤ) × List α :=
  if s.1 at_.1 = at_.2 then s else (Function.update s.1 at_.1 at_.2, s.2 ++ [at_.1])

/-- `refreshPrioritiesForContributors:changedContributors:`, with the changed contributors. -/
def refreshPriorities (contributors : List α) (priority : α → ℤ) : (α → ℤ) × List α :=
  contributors.zipIdx.foldl refreshPriority (priority, [])

/-- What is left of a move: the priorities, and the calls of the handler. -/
structure Moved (α : Type) where
  priority : α → ℤ
  changes : List (Change α)

/-- `moveContributors:amongstContributors:toIndex:indexChangeHandler:` -/
def moveContributors (contributors universeOfContributors : List α) (index : ℕ)
    (priority : α → ℤ) : Option (Moved α) :=
  (run (moveStep index) contributors.reverse ⟨universeOfContributors, []⟩).map fun s =>
    ⟨(refreshPriorities s.newUniverse priority).1, s.changes⟩

/-- By priority, the contributors stand together and in the given order, at the index or, where
there are not so many others, behind them. -/
def Moves (contributors universeOfContributors : List α) (index : ℕ) (priority : α → ℤ) : Prop :=
  ∃ moved, moveContributors contributors universeOfContributors index priority = some moved ∧
    ∃ before behind, (before ++ (contributors ++ behind)).Perm universeOfContributors ∧
      (before ++ (contributors ++ behind)).Pairwise (fun a b => moved.priority a < moved.priority b) ∧
      before.length = min index (universeOfContributors.length - contributors.length)

section

variable {index : ℕ} {c : α} {contributors l : List α} {priority : α → ℤ}

/-! ### The loop -/

theorem moveTo_of_idxOf (hl : l.Nodup) (hc : c ∈ l) (hix : l.idxOf c = index) :
    moveTo index c l = l := by
  obtain ⟨A, B, rfl⟩ := append_of_mem hc
  have hcA : c ∉ A := fun hcA => (nodup_append.1 hl).2.2 c hcA c mem_cons_self rfl
  have hcB : c ∉ B := (nodup_cons.1 (nodup_append.1 hl).2.1).1
  rw [idxOf_append_of_notMem hcA, idxOf_cons_self] at hix
  rw [moveTo_of_notMem hix hcA, filter_cons_of_neg (by simp), filter_ne_of_notMem hcB]

theorem moveStep_eq {s : MoveState α} (hl : s.newUniverse.Nodup) (hc : c ∈ s.newUniverse)
    (hix : index < s.newUniverse.length) :
    ∃ changes, moveStep index c s = some ⟨moveTo index c s.newUniverse, changes⟩ := by
  have hold : indexOfObject s.newUniverse c = some (s.newUniverse.idxOf c) := if_pos hc
  rw [moveStep, hold]
  by_cases heq : s.newUniverse.idxOf c = index
  · refine ⟨s.changes, ?_⟩
    rw [if_pos (congrArg some heq), moveTo_of_idxOf hl hc heq]
  · have hlen : index ≤ (s.newUniverse.filter (· != c)).length := by
      rw [← hl.erase_eq_filter, length_erase_of_mem hc]
      omega
    refine ⟨s.changes ++ [⟨c, some (s.newUniverse.idxOf c), index⟩], ?_⟩
    rw [if_neg fun h => heq (some.inj h)]
    simp only [isSome_some, if_true]
    rw [if_pos hlen]
    rfl

theorem moveStep_eq_none {s : MoveState α} (hl : s.newUniverse.Nodup) (hc : c ∈ s.newUniverse)
    (hix : index = s.newUniverse.length) : moveStep index c s = none := by
  have hold : indexOfObject s.newUniverse c = some (s.newUniverse.idxOf c) := if_pos hc
  have hlt := idxOf_lt_length_of_mem hc
  have hlen : ¬index ≤ (s.newUniverse.filter (· != c)).length := by
    rw [← hl.erase_eq_filter, length_erase_of_mem hc]
    omega
  rw [moveStep, hold, if_neg fun h => by
    have := some.inj h
    omega]
  simp only [isSome_some, if_true]
  rw [if_neg hlen]

theorem run_moveStep (hl : l.Nodup) (hsub : contributors ⊆ l) (hix : index < l.length) :
    ∃ changes, run (moveStep index) contributors.reverse ⟨l, []⟩ =
      some ⟨moveAll index contributors l, changes⟩ := by
  induction contributors with
  | nil => exact ⟨[], rfl⟩
  | cons c contributors ih =>
    obtain ⟨hc, hsub⟩ := cons_subset.1 hsub
    obtain ⟨changes, hrun⟩ := ih hsub
    have hperm := moveAll_perm (k := index) hl hsub
    obtain ⟨changes', hstep⟩ := moveStep_eq (c := c) (s := ⟨moveAll index contributors l, changes⟩)
      (hperm.nodup_iff.2 hl) (hperm.mem_iff.2 hc) (hperm.length_eq ▸ hix)
    refine ⟨changes', ?_⟩
    rw [reverse_cons]
    exact run_concat_eq_some.2 ⟨_, hrun, hstep⟩

/-! ### The priorities -/

theorem refreshPriorities_concat (l : List α) (c : α) (priority : α → ℤ) :
    refreshPriorities (l ++ [c]) priority =
      refreshPriority (refreshPriorities l priority) (c, l.length) := by
  rw [refreshPriorities, zipIdx_append]
  simp [refreshPriorities]

theorem refreshPriority_self (s : (α → ℤ) × List α) (c : α) (i : ℕ) :
    (refreshPriority s (c, i)).1 c = i := by
  rw [refreshPriority]
  split_ifs with h
  · exact h
  · exact Function.update_self ..

theorem refreshPriority_of_ne {d : α} (hd : d ≠ c) (s : (α → ℤ) × List α) (i : ℕ) :
    (refreshPriority s (c, i)).1 d = s.1 d := by
  rw [refreshPriority]
  split_ifs
  · rfl
  · exact Function.update_of_ne hd _ _

theorem refreshPriorities_eq (hl : l.Nodup) (hc : c ∈ l) :
    (refreshPriorities l priority).1 c = l.idxOf c := by
  induction l using reverseRecOn with
  | nil => cases hc
  | append_singleton l d ih =>
    rw [refreshPriorities_concat]
    by_cases hcd : c = d
    · subst hcd
      have hcl : c ∉ l := fun hcl =>
        (nodup_append.1 hl).2.2 c hcl c (mem_singleton_self c) rfl
      rw [refreshPriority_self, idxOf_append_of_notMem hcl]
      simp
    · have hcl : c ∈ l := (mem_append.1 hc).resolve_right (by simpa using hcd)
      rw [refreshPriority_of_ne hcd, ih (nodup_append.1 hl).1 hcl, idxOf_append_of_mem hcl]

theorem pairwise_refreshPriorities (hl : l.Nodup) :
    l.Pairwise fun a b =>
      (refreshPriorities l priority).1 a < (refreshPriorities l priority).1 b := by
  rw [pairwise_iff_getElem]
  intro i j hi hj hij
  rw [refreshPriorities_eq hl (getElem_mem hi), refreshPriorities_eq hl (getElem_mem hj),
    hl.idxOf_getElem, hl.idxOf_getElem]
  exact_mod_cast hij

/-- A list with the same members, ordered by the priorities, is the numbered list. -/
theorem eq_of_pairwise_refreshPriorities {l' : List α} (hl : l.Nodup) (hperm : l'.Perm l)
    (hord : l'.Pairwise fun a b =>
      (refreshPriorities l priority).1 a < (refreshPriorities l priority).1 b) : l' = l := by
  refine hperm.eq_of_pairwise ?_ hord (pairwise_refreshPriorities hl)
  intro a b _ _ hab hba
  exact absurd hab hba.asymm

theorem bijOn_refreshPriorities (priority : α → ℤ) (hl : l.Nodup) :
    Set.BijOn (refreshPriorities l priority).1 {c | c ∈ l} {i | 0 ≤ i ∧ i < l.length} := by
  refine ⟨?_, ?_, ?_⟩
  · intro c hc
    rw [refreshPriorities_eq hl hc]
    exact ⟨by omega, by exact_mod_cast idxOf_lt_length_of_mem hc⟩
  · intro c hc d hd heq
    rw [refreshPriorities_eq hl hc, refreshPriorities_eq hl hd] at heq
    exact (idxOf_inj hc).1 (by exact_mod_cast heq)
  · rintro i ⟨hpos, hlt⟩
    obtain ⟨k, rfl⟩ := Int.eq_ofNat_of_zero_le hpos
    have hk : k < l.length := by exact_mod_cast hlt
    refine ⟨l[k], getElem_mem hk, ?_⟩
    rw [refreshPriorities_eq hl (getElem_mem hk), hl.idxOf_getElem]

/-! ### The handler -/

/-- The handler is not called in a step, or with a contributor that changes its place. -/
theorem moveStep_changes {s s' : MoveState α} (h : moveStep index c s = some s') :
    s'.changes = s.changes ∨
      indexOfObject s.newUniverse c ≠ some index ∧ indexOfObject s'.newUniverse c = some index ∧
        s'.changes = s.changes ++ [⟨c, indexOfObject s.newUniverse c, index⟩] := by
  have hremoved : (if (indexOfObject s.newUniverse c).isSome then s.newUniverse.filter (· != c)
      else s.newUniverse) = s.newUniverse.filter (· != c) := by
    by_cases hc : c ∈ s.newUniverse
    · simp [indexOfObject, hc]
    · simp [indexOfObject, hc, filter_ne_of_notMem hc]
  rw [moveStep] at h
  simp only [hremoved] at h
  split_ifs at h with hsame hlen
  · cases h
    exact .inl rfl
  · cases h
    refine .inr ⟨hsame, ?_, rfl⟩
    have hmem : c ∈ moveTo index c s.newUniverse := by simp [moveTo]
    exact (if_pos hmem).trans (congrArg some (idxOf_moveTo hlen))

/-- The call of the handler was made in the step of its contributor, which changed its index there
from the old to the new one. -/
def CalledForMoved (index : ℕ) (contributors universeOfContributors : List α) (change : Change α) :
    Prop :=
  ∃ done rest s s', contributors.reverse = done ++ change.contributor :: rest ∧
    run (moveStep index) done ⟨universeOfContributors, []⟩ = some s ∧
    moveStep index change.contributor s = some s' ∧ s'.changes = s.changes ++ [change] ∧
    indexOfObject s.newUniverse change.contributor = change.oldIndex ∧
    indexOfObject s'.newUniverse change.contributor = some change.newIndex ∧
    change.oldIndex ≠ some change.newIndex

theorem calledForMoved_of_run {done rest : List α} {s : MoveState α}
    (hsplit : contributors.reverse = done ++ rest)
    (hrun : run (moveStep index) done ⟨l, []⟩ = some s) {change : Change α}
    (hchange : change ∈ s.changes) : CalledForMoved index contributors l change := by
  induction done using reverseRecOn generalizing s rest with
  | nil =>
    cases hrun
    cases hchange
  | append_singleton done c ih =>
    rw [append_assoc, singleton_append] at hsplit
    obtain ⟨s₀, hrun₀, hstep⟩ := run_concat_eq_some.1 hrun
    rcases moveStep_changes hstep with hsame | ⟨hold, hnew, hadd⟩
    · exact ih hsplit hrun₀ (hsame ▸ hchange)
    · rw [hadd, mem_append, mem_singleton] at hchange
      rcases hchange with hbefore | rfl
      · exact ih hsplit hrun₀ hbefore
      · exact ⟨done, rest, s₀, s, hsplit, hrun₀, hstep, hadd, rfl, hnew, hold⟩

/-! ### The result -/

/-- Every index of the list will do.  Afterwards the priorities number the contributors, the others
stand as before, and every call of the handler was made for a contributor that was moved then. -/
theorem moveContributors_keeps {contributors universeOfContributors : List α}
    (huniverse : universeOfContributors.Nodup) (hsub : contributors ⊆ universeOfContributors)
    {index : ℕ} (hindex : index < universeOfContributors.length) (priority : α → ℤ) :
    ∃ moved, moveContributors contributors universeOfContributors index priority = some moved ∧
      Set.BijOn moved.priority {c | c ∈ universeOfContributors}
        {i | 0 ≤ i ∧ i < universeOfContributors.length} ∧
      (∀ a b, [a, b].Sublist universeOfContributors → a ∉ contributors → b ∉ contributors →
        moved.priority a < moved.priority b) ∧
      ∀ change ∈ moved.changes, CalledForMoved index contributors universeOfContributors change := by
  obtain ⟨changes, hrun⟩ := run_moveStep huniverse hsub hindex
  have hperm := moveAll_perm (k := index) huniverse hsub
  have hnd := hperm.nodup_iff.2 huniverse
  refine ⟨_, by rw [moveContributors, hrun, map_some], ?_, ?_, ?_⟩
  · have hbij := bijOn_refreshPriorities priority hnd
    simpa only [hperm.mem_iff, hperm.length_eq] using hbij
  · intro a b hab ha hb
    have hkept := pair_sublist_moveAll (k := index) hab ha hb
    exact rel_of_pairwise_cons ((pairwise_refreshPriorities hnd).sublist hkept)
      (mem_singleton_self b)
  · exact fun change hchange => calledForMoved_of_run (append_nil _).symm hrun hchange

/-- A contributor that is asked for twice. -/
theorem moveContributors_keeps_twice :
    ∃ moved, moveContributors ["c", "a", "c"] ["a", "b", "c"] 1 (fun _ => 0) = some moved ∧
      Set.BijOn moved.priority {c | c ∈ ["a", "b", "c"]} {i | 0 ≤ i ∧ i < (3 : ℕ)} ∧
      ∀ change ∈ moved.changes, CalledForMoved 1 ["c", "a", "c"] ["a", "b", "c"] change := by
  obtain ⟨moved, hmov, hbij, -, hcalled⟩ := @moveContributors_keeps String _ ["c", "a", "c"]
    ["a", "b", "c"] (by decide) (by decide) 1 (by decide) fun _ => 0
  exact ⟨moved, hmov, hbij, hcalled⟩

/-- The list that the priorities put in order is the list after the moves. -/
theorem moves_iff_moveAll (hl : l.Nodup) (hsub : contributors ⊆ l) (hix : index < l.length) :
    Moves contributors l index priority ↔
      ∃ before behind, moveAll index contributors l = before ++ (contributors ++ behind) ∧
        before.length = min index (l.length - contributors.length) := by
  obtain ⟨changes, hrun⟩ := run_moveStep hl hsub hix
  have hperm := moveAll_perm (k := index) hl hsub
  have hnd := hperm.nodup_iff.2 hl
  rw [Moves, moveContributors, hrun]
  constructor
  · rintro ⟨moved, hmov, before, behind, hperm', hord, hlen⟩
    obtain rfl := some.inj hmov
    refine ⟨before, behind, ?_, hlen⟩
    exact (eq_of_pairwise_refreshPriorities hnd (hperm'.trans hperm.symm) hord).symm
  · rintro ⟨before, behind, heq, hlen⟩
    refine ⟨_, rfl, before, behind, ?_, ?_, hlen⟩
    · rwa [heq] at hperm
    · rw [← heq]
      exact pairwise_refreshPriorities hnd

/-- Where the index is the number of contributors, the first insertion raises. -/
theorem not_moves_of_length {init : List α} {last : α} (hl : l.Nodup) (hlast : last ∈ l)
    (hix : index = l.length) : ¬Moves (init ++ [last]) l index priority := by
  rintro ⟨moved, hmov, -⟩
  rw [moveContributors, reverse_concat, run_cons,
    moveStep_eq_none (s := ⟨l, []⟩) hl hlast hix] at hmov
  cases hmov

end

/-- The contributors are moved as asked exactly if none but the last is among the first `index`
others, and the index is not the number of all. -/
theorem moves_iff {contributors universeOfContributors : List α}
    (huniverse : universeOfContributors.Nodup) (hcontributors : contributors.Nodup)
    (hsub : contributors ⊆ universeOfContributors) {index : ℕ}
    (hindex : index ≤ universeOfContributors.length) (priority : α → ℤ) :
    Moves contributors universeOfContributors index priority ↔
      ∀ last ∈ contributors.getLast?, index < universeOfContributors.length ∧
        ∀ c ∈ contributors.dropLast, c ∉ (universeOfContributors.erase last).take index := by
  rcases eq_nil_or_concat contributors with rfl | ⟨init, last, rfl⟩
  · refine iff_of_true ?_ (by simp)
    refine ⟨_, rfl, universeOfContributors.take index, universeOfContributors.drop index, ?_, ?_, ?_⟩
    · simp
    · rw [nil_append, take_append_drop]
      exact pairwise_refreshPriorities huniverse
    · simp
  · rw [concat_eq_append] at hcontributors hsub ⊢
    simp only [getLast?_concat, mem_some_iff, forall_eq', dropLast_concat]
    rcases hindex.lt_or_eq with hlt | heq
    · rw [and_iff_right hlt, moves_iff_moveAll huniverse hsub hlt]
      exact gathers_iff huniverse hcontributors hsub hlt
    · refine iff_of_false (not_moves_of_length huniverse (hsub (by simp)) heq) fun h => ?_
      exact absurd heq h.1.ne

/-- Two contributors are moved to the front. -/
theorem moves_front : Moves ["c", "d"] ["a", "b", "c", "d"] 0 (fun _ => 0) :=
  (moves_iff (by decide) (by decide) (by decide) (by decide) _).2 (by decide)

/-- Moved behind the third of three, the second ends up in front of the first; and the index behind
the last contributor raises. -/
theorem not_moves_behind :
    (run (moveStep 1) ["a", "b"].reverse ⟨["a", "b", "c"], []⟩).map MoveState.newUniverse =
        some ["b", "a", "c"] ∧
      ¬Moves ["a", "b"] ["a", "b", "c"] 1 (fun _ => 0) ∧
      (run (moveStep 3) ["a"].reverse ⟨["a", "b", "c"], []⟩).map MoveState.newUniverse = none ∧
      ¬Moves ["a"] ["a", "b", "c"] 3 (fun _ => 0) := by
  refine ⟨by decide, ?_, by decide, ?_⟩
  · rw [moves_iff_moveAll (by decide) (by decide) (by decide)]
    rintro ⟨before, behind, heq, hlen⟩
    have hmov : moveAll 1 ["a", "b"] ["a", "b", "c"] = ["b", "a", "c"] := by decide
    have hbef : before.length = 1 := hlen
    -- The last place is the second one's, but the third contributor stands there.
    have hlast := congrArg (fun l => l[2]?) (hmov.symm.trans heq)
    rw [getElem?_append_right (by omega), hbef] at hlast
    simp at hlast
  · rw [← nil_append ["a"]]
    exact not_moves_of_length (by decide) (by decide) rfl

end Feather.Controllers.Contributors
