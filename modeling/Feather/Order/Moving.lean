import Mathlib.Data.List.Nodup

/-!
# Moving elements of a list to a place

`moveTo k c l` takes `c` out of `l` and puts it in front of what is then element number `k`;
`moveAll k cs l` does so with the elements of `cs`, the last first.
-/

namespace Moving

open List

variable {α : Type} [DecidableEq α] {k : ℕ} {c d x y : α} {l A B S D : List α}

/-- The list with `c` moved to index `k`. -/
def moveTo (k : ℕ) (c : α) (l : List α) : List α :=
  (l.filter (· != c)).take k ++ c :: (l.filter (· != c)).drop k

/-- The elements of `cs` are moved from the last to the first. -/
def moveAll (k : ℕ) (cs l : List α) : List α := cs.foldr (moveTo k) l

@[simp] theorem moveAll_nil : moveAll k [] l = l := rfl

@[simp] theorem moveAll_cons : moveAll k (c :: D) l = moveTo k c (moveAll k D l) := rfl

theorem moveAll_append (cs ds l : List α) : moveAll k (cs ++ ds) l = moveAll k cs (moveAll k ds l) :=
  foldr_append

theorem filter_ne_of_notMem (h : c ∉ l) : l.filter (· != c) = l := by
  rw [filter_eq_self]
  intro a ha
  simpa using fun hac : a = c => h (hac ▸ ha)

/-- In front of the place nothing changes if the element was not there. -/
theorem moveTo_of_notMem (hA : A.length = k) (hcA : c ∉ A) :
    moveTo k c (A ++ B) = A ++ c :: B.filter (· != c) := by
  have hfil : (A ++ B).filter (· != c) = A ++ B.filter (· != c) := by
    rw [filter_append, filter_ne_of_notMem hcA]
  rw [moveTo, hfil, ← hA, take_left, drop_left]

theorem moveTo_perm (h : l.Nodup) (hc : c ∈ l) : (moveTo k c l).Perm l := by
  have hperm : (moveTo k c l).Perm (c :: l.filter (· != c)) := by
    refine perm_middle.trans ?_
    rw [take_append_drop]
  refine hperm.trans ?_
  rw [← h.erase_eq_filter]
  exact (perm_cons_erase hc).symm

theorem moveAll_perm (h : l.Nodup) (hD : D ⊆ l) : (moveAll k D l).Perm l := by
  induction D with
  | nil => exact List.Perm.refl l
  | cons d D ih =>
    obtain ⟨hd, hD⟩ := cons_subset.1 hD
    have hrest := ih hD
    exact (moveTo_perm (hrest.nodup_iff.2 h) (hrest.mem_iff.2 hd)).trans hrest

/-- The elements that do not come from the front are gathered behind it. -/
theorem moveAll_of_disjoint (hA : A.length = k) (hAD : ∀ d ∈ D, d ∉ A) (hSD : ∀ d ∈ D, d ∉ S)
    (hD : D.Nodup) :
    moveAll k D (A ++ (S ++ B)) = A ++ (D ++ (S ++ B.filter fun b => decide (b ∉ D))) := by
  induction D with
  | nil => simp
  | cons d D ih =>
    obtain ⟨hdD, hD⟩ := nodup_cons.1 hD
    have hdA := hAD d mem_cons_self
    have hdS := hSD d mem_cons_self
    have hrest := ih (fun e he => hAD e (mem_cons_of_mem _ he))
      (fun e he => hSD e (mem_cons_of_mem _ he)) hD
    rw [moveAll_cons, hrest, moveTo_of_notMem hA hdA, filter_append, filter_append,
      filter_ne_of_notMem hdD, filter_ne_of_notMem hdS, filter_filter]
    congr 4
    refine filter_congr fun b _ => ?_
    rw [Bool.eq_iff_iff]
    simp

/-- Moving an element leaves the order of the others. -/
theorem pair_sublist_moveTo (h : [x, y].Sublist l) (hx : x ≠ c) (hy : y ≠ c) :
    [x, y].Sublist (moveTo k c l) := by
  have hfil := h.filter (fun a => a != c)
  rw [filter_eq_self.2 (by simp [hx, hy])] at hfil
  refine hfil.trans ?_
  have hins := (List.Sublist.refl ((l.filter (· != c)).take k)).append
    (sublist_cons_self c ((l.filter (· != c)).drop k))
  rwa [take_append_drop] at hins

/-- Moving some elements leaves the order of the others. -/
theorem pair_sublist_moveAll (h : [x, y].Sublist l) (hx : x ∉ D) (hy : y ∉ D) :
    [x, y].Sublist (moveAll k D l) := by
  induction D with
  | nil => exact h
  | cons d D ih =>
    obtain ⟨hxd, hxD⟩ := not_or.1 (mt mem_cons.2 hx)
    obtain ⟨hyd, hyD⟩ := not_or.1 (mt mem_cons.2 hy)
    exact pair_sublist_moveTo (ih hxD hyD) hxd hyd

/-- The moved element stands at the place. -/
theorem idxOf_moveTo (hk : k ≤ (l.filter (· != c)).length) : (moveTo k c l).idxOf c = k := by
  have hfro : c ∉ (l.filter (· != c)).take k := fun hmem => by
    simpa using (mem_filter.1 (mem_of_mem_take hmem)).2
  rw [moveTo, idxOf_append_of_notMem hfro, idxOf_cons_self, length_take]
  omega

/-- An element of the front is put behind the element that was behind the front. -/
theorem moveTo_of_mem (hnd : (A ++ x :: B).Nodup) (hA : A.length = k) (hcA : c ∈ A) :
    [x, c].Sublist (moveTo k c (A ++ x :: B)) := by
  obtain ⟨hnod, -, hdj⟩ := nodup_append.1 hnd
  have hxc : x ≠ c := fun hxc => hdj c hcA x mem_cons_self hxc.symm
  have hlen : (A.filter (· != c) ++ [x]).length = k := by
    rw [length_append, length_singleton, ← hnod.erase_eq_filter, length_erase_of_mem hcA]
    have := length_pos_of_mem hcA
    omega
  have hfil : (A ++ x :: B).filter (· != c) =
      (A.filter (· != c) ++ [x]) ++ B.filter (· != c) := by
    rw [filter_append, filter_cons_of_pos (by simpa using hxc)]
    simp
  rw [moveTo, hfil, ← hlen, take_left, drop_left]
  have hfst : [x].Sublist (A.filter (· != c) ++ [x]) := sublist_append_right _ _
  have hsnd : [c].Sublist (c :: B.filter (· != c)) := by simp
  exact hfst.append hsnd

omit [DecidableEq α] in
/-- Two elements of a list without duplicates stand in one order only. -/
theorem not_pair_sublist (hl : l.Nodup) (h : [x, y].Sublist l) : ¬[y, x].Sublist l := by
  induction l with
  | nil => simp at h
  | cons a l ih =>
    obtain ⟨ha, hl⟩ := nodup_cons.1 hl
    intro h'
    rcases sublist_cons_iff.1 h with hxy | ⟨r, hr, hy⟩
    · rcases sublist_cons_iff.1 h' with hyx | ⟨r', hr', -⟩
      · exact ih hl hxy hyx
      · exact ha (hxy.subset (by simp [(cons.inj hr').1]))
    · obtain ⟨rfl, rfl⟩ := cons.inj hr
      rcases sublist_cons_iff.1 h' with hyx | ⟨r', hr', -⟩
      · exact ha (hyx.subset (by simp))
      · exact ha (hy.subset (by simp [(cons.inj hr').1]))

theorem exists_overtaken (hnd : (A ++ (S ++ B)).Nodup) (hA : A.length = k) (hS : S ≠ [])
    (hD : (D ++ S).Nodup) (hmem : D ⊆ A ++ (S ++ B)) (hfro : ∃ c ∈ D, c ∈ A) :
    ∃ x y, [x, y].Sublist (moveAll k D (A ++ (S ++ B))) ∧ [y, x].Sublist (D ++ S) := by
  induction D with
  | nil =>
    obtain ⟨c, hc, -⟩ := hfro
    cases hc
  | cons d D ih =>
    rw [cons_append, nodup_cons] at hD
    obtain ⟨hd, hD⟩ := hD
    obtain ⟨hdmem, hDmem⟩ := cons_subset.1 hmem
    by_cases hrest : ∃ c ∈ D, c ∈ A
    · -- the pair that is already in the wrong order stays so
      obtain ⟨x, y, hwro, hrt⟩ := ih hD hDmem hrest
      have hx : x ≠ d := fun hxd => hd (hxd ▸ hrt.subset (by simp))
      have hy : y ≠ d := fun hyd => hd (hyd ▸ hrt.subset (by simp))
      exact ⟨x, y, pair_sublist_moveTo hwro hx hy, hrt.trans (sublist_cons_self d _)⟩
    · -- the others have been gathered behind the front, from which this one is taken
      have hdA : d ∈ A := by
        obtain ⟨c, hc, hcA⟩ := hfro
        rcases mem_cons.1 hc with rfl | hc
        · exact hcA
        · exact absurd ⟨c, hc, hcA⟩ hrest
      have hgat := moveAll_of_disjoint (B := B) hA (fun c hc hcA => hrest ⟨c, hc, hcA⟩)
        (fun c hc hcS => (nodup_append.1 hD).2.2 c hc c hcS rfl) (nodup_append.1 hD).1
      have hperm := moveAll_perm (k := k) hnd hDmem
      rw [moveAll_cons]
      rw [hgat] at hperm ⊢
      have hne : D ++ S ≠ [] := append_ne_nil_of_right_ne_nil D hS
      obtain ⟨x, R, hxR⟩ := exists_cons_of_ne_nil hne
      rw [← append_assoc D, hxR] at hperm ⊢
      refine ⟨x, d, moveTo_of_mem (hperm.nodup_iff.2 hnd) hA hdA, ?_⟩
      rw [cons_append, hxR]
      simp

/-- The front once the last of the moved elements is taken out. -/
theorem moveTo_last (hl : l.Nodup) (hc : c ∈ l) (hk : k < l.length) :
    ((l.erase c).take k).length = k ∧
      moveTo k c l = (l.erase c).take k ++ ([c] ++ (l.erase c).drop k) := by
  constructor
  · rw [length_take, length_erase_of_mem hc]
    omega
  · rw [hl.erase_eq_filter]
    rfl

theorem gathers_iff (hl : l.Nodup) (hD : (D ++ [c]).Nodup) (hsub : D ++ [c] ⊆ l)
    (hk : k < l.length) :
    (∃ before behind, moveAll k (D ++ [c]) l = before ++ ((D ++ [c]) ++ behind) ∧
        before.length = min k (l.length - (D ++ [c]).length)) ↔
      ∀ d ∈ D, d ∉ (l.erase c).take k := by
  have hc : c ∈ l := hsub (by simp)
  obtain ⟨hfro, hmov⟩ := moveTo_last hl hc hk
  have hperm := moveAll_perm (k := k) hl hsub
  rw [moveAll_append, moveAll_cons, moveAll_nil, hmov] at hperm ⊢
  constructor
  · rintro ⟨before, behind, heq, -⟩ d hd hdfr
    obtain ⟨x, y, hwro, hrt⟩ := exists_overtaken (hmov ▸ (moveTo_perm hl hc).nodup_iff.2 hl)
      hfro (cons_ne_nil c []) hD
      (fun e he => hmov ▸ (moveTo_perm hl hc).mem_iff.2 (hsub (by simp [he])))
      ⟨d, hd, hdfr⟩
    refine not_pair_sublist (hperm.nodup_iff.2 hl) hwro ?_
    rw [heq]
    exact (hrt.trans (sublist_append_left _ behind)).trans (sublist_append_right before _)
  · intro hdj
    have hcD : ∀ d ∈ D, d ∉ [c] := fun d hd hdc =>
      (nodup_append.1 hD).2.2 d hd d hdc rfl
    have hgat := moveAll_of_disjoint (B := (l.erase c).drop k) hfro hdj hcD
      (nodup_append.1 hD).1
    rw [← append_assoc D] at hgat
    rw [hgat] at hperm ⊢
    refine ⟨_, _, rfl, ?_⟩
    have hlen := hperm.length_eq
    simp only [length_append] at hlen ⊢
    omega

end Moving
