import Mathlib.Data.List.Lex
import Mathlib.Data.List.Permutation
import Mathlib.Tactic

/-!
# The arrangements of a list in lexicographic order

Among the arrangements of a list the ascending one is the least and the descending one the greatest.
Every other has the form `P ++ a :: (D ++ b :: E)` with `D ++ b :: E` descending, `a < b`, and
nothing in `E` above `a`; the next one is `P ++ b :: (D ++ a :: E).reverse` (`next_le`).

A list that leads from the least element of a set to its greatest by such steps is increasing and
contains the whole set (`mem_of_isChain`).  For an ascending list without duplicates there is one,
of factorial length (`exists_enumeration`).
-/

open List

namespace Arrangements

variable {α : Type} [LinearOrder α] {l m P D E : List α} {a b : α}

/-- No arrangement of a descending list is greater. -/
theorem not_lt_of_descending (h : l.Pairwise (· ≥ ·)) (hm : m ~ l) : ¬ l < m := by
  induction l generalizing m with
  | nil =>
    rw [perm_nil.1 hm]
    exact lt_irrefl _
  | cons a l ih =>
    obtain ⟨hhead, htail⟩ := pairwise_cons.1 h
    intro hlt
    match m, hm with
    | [], hm => exact absurd hm.symm (by simp)
    | c :: m, hm =>
      obtain hac | ⟨rfl, hlm⟩ := cons_lt_cons_iff.1 hlt
      · obtain rfl | hc := mem_cons.1 (hm.subset (mem_cons_self ..))
        · exact lt_irrefl _ hac
        · exact absurd hac (not_lt.2 (hhead c hc))
      · exact ih htail hm.cons_inv hlm

/-- No arrangement of an ascending list is less. -/
theorem not_lt_of_ascending (h : l.Pairwise (· ≤ ·)) (hm : m ~ l) : ¬ m < l := by
  induction l generalizing m with
  | nil =>
    rw [perm_nil.1 hm]
    exact lt_irrefl _
  | cons a l ih =>
    obtain ⟨hhead, htail⟩ := pairwise_cons.1 h
    intro hlt
    match m, hm with
    | [], hm => exact absurd hm.symm (by simp)
    | c :: m, hm =>
      obtain hca | ⟨rfl, hml⟩ := cons_lt_cons_iff.1 hlt
      · obtain rfl | hc := mem_cons.1 (hm.subset (mem_cons_self ..))
        · exact lt_irrefl _ hca
        · exact absurd hca (not_lt.2 (hhead c hc))
      · exact ih htail hm.cons_inv hml

theorem lt_next (hab : a < b) : P ++ a :: D < P ++ b :: E :=
  append_left_lt (cons_lt_cons_iff.2 (.inl hab))

omit [LinearOrder α] in
/-- The step permutes the list. -/
theorem next_perm : P ++ b :: (D ++ a :: E).reverse ~ P ++ a :: (D ++ b :: E) := by
  refine List.Perm.append_left P ?_
  calc b :: (D ++ a :: E).reverse
    _ ~ b :: (D ++ a :: E) := (reverse_perm _).cons b
    _ ~ b :: a :: (D ++ E) := perm_middle.cons b
    _ ~ a :: b :: (D ++ E) := List.Perm.swap a b _
    _ ~ a :: (D ++ b :: E) := perm_middle.symm.cons a

/-- What stands behind the exchanged element is put in ascending order. -/
theorem ascending_reverse (hdesc : (D ++ b :: E).Pairwise (· ≥ ·)) (hab : a < b)
    (hE : ∀ x ∈ E, x ≤ a) : (D ++ a :: E).reverse.Pairwise (· ≤ ·) := by
  rw [pairwise_reverse]
  obtain ⟨hD, hbE, hDE⟩ := pairwise_append.1 hdesc
  refine pairwise_append.2 ⟨hD, pairwise_cons.2 ⟨hE, (pairwise_cons.1 hbE).2⟩, ?_⟩
  intro x hx y hy
  obtain rfl | hy := mem_cons.1 hy
  · exact hab.le.trans (hDE x hx b (mem_cons_self ..))
  · exact hDE x hx y (mem_cons_of_mem b hy)

/-- The step without the elements in front: nothing lies between. -/
theorem not_lt_next (hdesc : (D ++ b :: E).Pairwise (· ≥ ·)) (hab : a < b) (hE : ∀ x ∈ E, x ≤ a)
    (hm : m ~ a :: (D ++ b :: E)) (hlt : a :: (D ++ b :: E) < m) :
    ¬ m < b :: (D ++ a :: E).reverse := by
  intro hmb
  match m, hm with
  | [], hm => exact absurd hm.symm (by simp)
  | c :: m, hm =>
    obtain hac | ⟨rfl, hlm⟩ := cons_lt_cons_iff.1 hlt
    · -- the first element is one of those above `a`, and `b` is the least of them
      have hbc : b ≤ c := by
        obtain rfl | hc := mem_cons.1 (hm.subset (mem_cons_self ..))
        · exact absurd hac (lt_irrefl _)
        obtain hc | hc := mem_append.1 hc
        · exact (pairwise_append.1 hdesc).2.2 c hc b (mem_cons_self ..)
        obtain rfl | hc := mem_cons.1 hc
        · exact le_refl _
        · exact absurd hac (not_lt.2 (hE c hc))
      obtain hcb | ⟨rfl, hmr⟩ := cons_lt_cons_iff.1 hmb
      · exact absurd hcb (not_lt.2 hbc)
      · have hrest : m ~ (D ++ a :: E).reverse :=
          (hm.trans (next_perm (P := []) (D := D) (E := E)).symm).cons_inv
        exact not_lt_of_ascending (ascending_reverse hdesc hab hE) hrest hmr
    · exact not_lt_of_descending hdesc hm.cons_inv hlm

/-- The step leads to the least arrangement above the given one. -/
theorem next_le (hdesc : (D ++ b :: E).Pairwise (· ≥ ·)) (hab : a < b) (hE : ∀ x ∈ E, x ≤ a)
    (hm : m ~ P ++ a :: (D ++ b :: E)) (hlt : P ++ a :: (D ++ b :: E) < m) :
    P ++ b :: (D ++ a :: E).reverse ≤ m := by
  refine not_lt.1 fun hmb => ?_
  induction P generalizing m with
  | nil => exact not_lt_next hdesc hab hE hm hlt hmb
  | cons p P ih =>
    match m, hm with
    | [], hm => exact absurd hm.symm (by simp)
    | c :: m, hm =>
      obtain hpc | ⟨rfl, hlm⟩ := cons_lt_cons_iff.1 hlt
      · obtain hcp | ⟨rfl, -⟩ := cons_lt_cons_iff.1 hmb
        · exact lt_asymm hpc hcp
        · exact lt_irrefl _ hpc
      · obtain hcc | ⟨-, hmr⟩ := cons_lt_cons_iff.1 hmb
        · exact lt_irrefl _ hcc
        · exact ih hm.cons_inv hlm hmr

/-- The last element above `a`. -/
theorem exists_last_above (h : ¬ ∀ x ∈ l, x ≤ a) :
    ∃ D b E, l = D ++ b :: E ∧ a < b ∧ ∀ x ∈ E, x ≤ a := by
  induction l with
  | nil => simp at h
  | cons y l ih =>
    by_cases hl : ∀ x ∈ l, x ≤ a
    · have hy : a < y := by
        refine not_le.1 fun hy => h ?_
        exact forall_mem_cons.2 ⟨hy, hl⟩
      exact ⟨[], y, l, rfl, hy, hl⟩
    · obtain ⟨D, b, E, rfl, hab, hE⟩ := ih hl
      exact ⟨y :: D, b, E, rfl, hab, hE⟩

/-- `y` is the next element of `S` after `x`. -/
def Next {β : Type} [LinearOrder β] (S : β → Prop) (x y : β) : Prop :=
  x < y ∧ ∀ z, S z → x < z → y ≤ z

/-- The step from an arrangement to the next. -/
inductive Step : List α → List α → Prop
  | intro (P D E : List α) (a b : α) (hdesc : (D ++ b :: E).Pairwise (· ≥ ·)) (hab : a < b)
      (hE : ∀ x ∈ E, x ≤ a) :
      Step (P ++ a :: (D ++ b :: E)) (P ++ b :: (D ++ a :: E).reverse)

namespace Step

theorem perm (h : Step l m) : m ~ l := by
  obtain ⟨P, D, E, a, b, -, -, -⟩ := h
  exact next_perm

theorem lt (h : Step l m) : l < m := by
  obtain ⟨P, D, E, a, b, -, hab, -⟩ := h
  exact lt_next hab

theorem next {l0 : List α} (h : Step l m) (hl : l ~ l0) : Next (· ~ l0) l m := by
  refine ⟨h.lt, fun z hz hlt => ?_⟩
  obtain ⟨P, D, E, a, b, hdesc, hab, hE⟩ := h
  exact next_le hdesc hab hE (hz.trans hl.symm) hlt

theorem cons (h : Step l m) (a : α) : Step (a :: l) (a :: m) := by
  obtain ⟨P, D, E, c, b, hdesc, hcb, hE⟩ := h
  exact .intro (a :: P) D E c b hdesc hcb hE

theorem map {β : Type} [LinearOrder β] {f : α → β} (hf : StrictMono f) (h : Step l m) :
    Step (l.map f) (m.map f) := by
  obtain ⟨P, D, E, a, b, hdesc, hab, hE⟩ := h
  have hdesc' : (D.map f ++ f b :: E.map f).Pairwise (· ≥ ·) := by
    rw [← map_cons, ← map_append, pairwise_map]
    exact hdesc.imp fun h => hf.monotone h
  have hE' : ∀ x ∈ E.map f, x ≤ f a := by
    intro x hx
    obtain ⟨y, hy, rfl⟩ := mem_map.1 hx
    exact hf.monotone (hE y hy)
  simpa using Step.intro (P.map f) (D.map f) (E.map f) (f a) (f b) hdesc' (hf hab) hE'

/-- A step is possible from every arrangement but the descending one. -/
theorem descending_or_exists (l : List α) : l.Pairwise (· ≥ ·) ∨ ∃ m, Step l m := by
  induction l with
  | nil => exact .inl List.Pairwise.nil
  | cons a l ih =>
    obtain hdesc | ⟨m, hm⟩ := ih
    · by_cases hle : ∀ x ∈ l, x ≤ a
      · exact .inl (pairwise_cons.2 ⟨hle, hdesc⟩)
      · obtain ⟨D, b, E, rfl, hab, hE⟩ := exists_last_above hle
        exact .inr ⟨_, .intro [] D E a b hdesc hab hE⟩
    · exact .inr ⟨a :: m, hm.cons a⟩

end Step

/-! ### Running through a set -/

section Chains

variable {β : Type} [LinearOrder β] {S : β → Prop} {x y : β} {L : List β}

/-- Steps to the next element miss nothing between the first and the last. -/
theorem mem_of_isChain (hch : (x :: L).IsChain (Next S)) (hy : S y) (hfst : x ≤ y)
    (hlast : y ≤ (x :: L).getLast (cons_ne_nil x L)) : y ∈ x :: L := by
  induction L generalizing x with
  | nil =>
    rw [le_antisymm hlast hfst]
    exact mem_singleton_self _
  | cons z L ih =>
    obtain ⟨⟨-, hnext⟩, hrest⟩ := isChain_cons_cons.1 hch
    rcases hfst.eq_or_lt with rfl | hlt
    · exact mem_cons_self ..
    · refine mem_cons_of_mem x (ih hrest (hnext y hy hlt) ?_)
      rwa [getLast_cons (cons_ne_nil z L)] at hlast

theorem pairwise_of_isChain (hch : L.IsChain (Next S)) : L.Pairwise (· < ·) :=
  (hch.imp fun _ _ h => h.1).pairwise

/-- In a finite set, ascending steps lead to an element from which there is none. -/
theorem exists_isChain (R : β → β → Prop) (T : Finset β) (Last : β → Prop)
    (hstep : ∀ x ∈ T, Last x ∨ ∃ y ∈ T, x < y ∧ R x y) (hx : x ∈ T) :
    ∃ L, (x :: L).IsChain R ∧ (∀ y ∈ x :: L, y ∈ T) ∧
      Last ((x :: L).getLast (cons_ne_nil x L)) := by
  -- each step leaves fewer elements above
  induction hcard : (T.filter (x < ·)).card using Nat.strong_induction_on generalizing x with
  | _ k ih =>
    obtain hlast | ⟨y, hy, hxy, hR⟩ := hstep x hx
    · exact ⟨[], isChain_singleton x, by simpa using hx, hlast⟩
    · have hfew : (T.filter (y < ·)).card < k := by
        rw [← hcard]
        refine Finset.card_lt_card (Finset.ssubset_iff_of_subset ?_ |>.2 ⟨y, ?_, ?_⟩)
        · intro z hz
          rw [Finset.mem_filter] at hz ⊢
          exact ⟨hz.1, hxy.trans hz.2⟩
        · exact Finset.mem_filter.2 ⟨hy, hxy⟩
        · simp
      obtain ⟨L, hch, hmem, hlast⟩ := ih _ hfew hy rfl
      refine ⟨y :: L, isChain_cons_cons.2 ⟨hR, hch⟩, forall_mem_cons.2 ⟨hx, hmem⟩, ?_⟩
      rwa [getLast_cons (cons_ne_nil y L)]

end Chains

/-- The arrangements of `l` in increasing order are as many as its permutations. -/
theorem length_of_forall_mem {L : List (List α)} (hl : l.Nodup) (hL : L.Pairwise (· < ·))
    (hmem : ∀ m, m ∈ L ↔ m ~ l) : L.length = l.length.factorial := by
  have hnd : L.Nodup := hL.imp fun h => h.ne
  have hperm : L ~ l.permutations :=
    (perm_ext_iff_of_nodup hnd (nodup_permutations l hl)).2 fun m =>
      (hmem m).trans mem_permutations.symm
  rw [hperm.length_eq, length_permutations]

/-- From an ascending list without duplicates the steps run through its arrangements. -/
theorem exists_enumeration (hl : l.Pairwise (· < ·)) :
    ∃ L, (l :: L).IsChain Step ∧ (l :: L).Pairwise (· < ·) ∧ (∀ m, m ∈ l :: L ↔ m ~ l) ∧
      (l :: L).length = l.length.factorial ∧
      ((l :: L).getLast (cons_ne_nil l L)).Pairwise (· ≥ ·) := by
  have hmemT : ∀ m, m ∈ l.permutations.toFinset ↔ m ~ l := by simp
  have hstep : ∀ m ∈ l.permutations.toFinset, m.Pairwise (· ≥ ·) ∨
      ∃ m' ∈ l.permutations.toFinset, m < m' ∧ Step m m' ∧ Next (· ~ l) m m' := by
    intro m hm
    refine (Step.descending_or_exists m).imp_right ?_
    rintro ⟨m', hm'⟩
    have hml : m ~ l := (hmemT m).1 hm
    exact ⟨m', (hmemT m').2 (hm'.perm.trans hml), hm'.lt, hm', hm'.next hml⟩
  obtain ⟨L, hch, hperm, hlast⟩ :=
    exists_isChain _ _ _ hstep ((hmemT l).2 (List.Perm.refl l))
  replace hperm : ∀ m ∈ l :: L, m ~ l := fun m hm => (hmemT m).1 (hperm m hm)
  have hnext : (l :: L).IsChain (Next (· ~ l)) := hch.imp fun _ _ h => h.2
  have hpw := pairwise_of_isChain hnext
  have hmem : ∀ m, m ∈ l :: L ↔ m ~ l := by
    intro m
    refine ⟨hperm m, fun hm => mem_of_isChain hnext hm ?_ ?_⟩
    · exact not_lt.1 (not_lt_of_ascending (hl.imp fun h => h.le) hm)
    · exact not_lt.1 (not_lt_of_descending hlast
        (hm.trans (hperm _ (getLast_mem (cons_ne_nil l L))).symm))
  exact ⟨L, hch.imp fun _ _ h => h.1, hpw, hmem,
    length_of_forall_mem (hl.imp fun h => h.ne) hpw hmem, hlast⟩

end Arrangements
