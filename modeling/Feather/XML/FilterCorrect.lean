import Feather.XML.Filtered

/-!
# When filtering does what it is meant to do

The main loop passes over the node behind the subtree of a removed element.  As long as that node
would have contributed nothing (`PassesOverIdle`), the loop makes the copies of `copied`, which are
those of the recursive definition if and only if nothing is too deep.
-/

namespace Feather.XML

open OrderedTree Forest Program List

variable {j k l : ℕ} {cs r : Nodes} {i : NodeID} {X B R : Listing} {d : Entry Tag Content}

/-! ### What is passed over -/

/-- Copies in front of the others. -/
def Copies.prepend (O : List (ℕ × Label)) (o : Copies) : Copies := o.map fun r => r.map (O ++ ·)

theorem Copies.nil_prepend (o : Copies) : o.prepend [] = o := by
  rcases o with _ | e | out <;> rfl

theorem Copies.cons_prepend (x : ℕ × Label) (O : List (ℕ × Label)) (o : Copies) :
    (o.prepend O).cons x = o.prepend (x :: O) := by
  rcases o with _ | e | out <;> rfl

theorem Copies.prepend_prepend (O P : List (ℕ × Label)) (o : Copies) :
    (o.prepend P).prepend O = o.prepend (O ++ P) := by
  rcases o with _ | e | out
  · rfl
  · rfl
  · exact congrArg (fun out => some (Except.ok out)) (append_assoc O P out).symm

/-- The walk passes over only empty kept text nodes and childless nodes that are not kept, and ends
if it passes over a node behind the receiver. -/
def SkipsIdle (filters : Filters) (l : ℕ) : Option ℕ → Listing → Prop
  | _, [] => True
  | some k, e :: R =>
    if k < e.level then SkipsIdle filters l (some k) R
    else if e.level ≤ l then e.level = 0 ∨ Forest.Closes l R
    else Forest.Closes e.level R ∧
      (filters.childFilter e.id = .keep → size (filters.copyLabel e.id e.label) = 0) ∧
      SkipsIdle filters l none R
  | none, e :: R =>
    if e.level ≤ l then True
    else if kind e.label = .element ∧ filters.childFilter e.id = .remove then
      SkipsIdle filters l (some e.level) R
    else SkipsIdle filters l none R

/-- All nodes are elements and text nodes, and only elements are to be collapsed. -/
def Filterable (filters : Filters) (f : Nodes) : Prop :=
  ∀ n ∈ f.nodes, kind n.label = .element ∨
    kind n.label = .text ∧ filters.childFilter n.id ≠ .collapse

section Tree

variable {filters : Filters} {l k c : ℕ} {L Z : Listing}

theorem filterWalk_text (hk : l < k) (i : NodeID) (s : NSString) (R : Listing) :
    filterWalk filters l none c (⟨k, i, .inr (.text s)⟩ :: R) =
      match filters.childFilter i with
      | .keep => (filterWalk filters l none (min c (k - l)) R).cons
          (min c (k - l), filters.copyLabel i (.inr (.text s)))
      | .collapse => some (.error .internalInconsistency)
      | .remove => filterWalk filters l none (min c (k - l)) R := by
  rw [filterWalk, if_neg (Nat.not_le.2 hk)]
  cases filters.childFilter i <;> rfl

theorem filterWalk_element (hk : l < k) (i : NodeID) (t : Tag) (R : Listing) :
    filterWalk filters l none c (⟨k, i, .inl t⟩ :: R) =
      match filters.childFilter i with
      | .keep => (filterWalk filters l none (min c (k - l) + 1) R).cons
          (min c (k - l), filters.copyLabel i (.inl t))
      | .collapse => filterWalk filters l none (min c (k - l)) R
      | .remove => filterWalk filters l (some k) (min c (k - l)) R := by
  rw [filterWalk, if_neg (Nat.not_le.2 hk)]
  cases filters.childFilter i <;> rfl

theorem filterWalk_behind (hj : k ≤ j) (hk : 0 < k) (i : NodeID) (b : Label) (R : Listing) :
    filterWalk filters l (some j) c (⟨k, i, b⟩ :: R) = filterWalk filters l none c R := by
  rw [filterWalk, if_neg (Nat.not_lt.2 hj), if_neg (Nat.ne_of_gt hk)]

/-- A stack that is higher than the depth of the next node makes no difference. -/
theorem filterWalk_min (h : Closes k L) :
    filterWalk filters l none c L = filterWalk filters l none (min c (k - l)) L := by
  cases L with
  | nil => rfl
  | cons e R =>
    have hk : e.level ≤ k := h e (by simp)
    have hmin : min (min c (k - l)) (e.level - l) = min c (e.level - l) := by omega
    rw [filterWalk, filterWalk, hmin]

theorem filterWalk_skip {D : Listing} (hD : ∀ d ∈ D, j < d.level) :
    filterWalk filters l (some j) c (D ++ Z) = filterWalk filters l (some j) c Z := by
  induction D with
  | nil => rfl
  | cons d D ih =>
    rw [cons_append, filterWalk, if_pos (hD d (by simp))]
    exact ih fun d hd => hD d (by simp [hd])

theorem skipsIdle_skip {D : Listing} (hD : ∀ d ∈ D, j < d.level) :
    SkipsIdle filters l (some j) (D ++ Z) ↔ SkipsIdle filters l (some j) Z := by
  induction D with
  | nil => rfl
  | cons d D ih =>
    rw [cons_append, SkipsIdle, if_pos (hD d (by simp))]
    exact ih fun d hd => hD d (by simp [hd])

/-- The walk along `f` at level `k` makes the copies of `copied` and goes on. -/
def WalksOver (filters : Filters) (l k : ℕ) (f : Nodes) (Z : Listing) (m : Option ℕ) (c : ℕ) :
    Prop :=
  ∃ m' O, (∀ j ∈ m', k ≤ j) ∧ SkipsIdle filters l m' Z ∧
    filterWalk filters l m c (f.entries k ++ Z) =
      (filterWalk filters l m' (height filters (k - l) c f) Z).prepend O ∧
    O.filter solid = (copied filters (k - l) c f).filter solid

/-- It does so wherever it comes to these nodes. -/
def WalkCopies (filters : Filters) (l k : ℕ) (f : Nodes) : Prop :=
  ∀ (Z : Listing) (m : Option ℕ) (c : ℕ), Forest.Closes k Z → (∀ j ∈ m, k ≤ j) →
    SkipsIdle filters l m (f.entries k ++ Z) → WalksOver filters l k f Z m c

/-- The content of an element, then what follows it. -/
theorem WalkCopies.content (hk : l < k) (hcs : WalkCopies filters l (k + 1) cs)
    (hr : WalkCopies filters l k r) (hZ : Closes k Z)
    (hskip : SkipsIdle filters l none (cs.entries (k + 1) ++ (r.entries k ++ Z))) :
    ∃ m' O P, (∀ j ∈ m', k ≤ j) ∧ SkipsIdle filters l m' Z ∧
      filterWalk filters l none c (cs.entries (k + 1) ++ (r.entries k ++ Z)) =
        (filterWalk filters l m' (height filters (k - l) (height filters (k - l + 1) c cs) r)
          Z).prepend (O ++ P) ∧
      O.filter solid = (copied filters (k - l + 1) c cs).filter solid ∧
      P.filter solid =
        (copied filters (k - l) (height filters (k - l + 1) c cs) r).filter solid := by
  have hdep : k + 1 - l = k - l + 1 := by omega
  have hrest : Closes k (r.entries k ++ Z) := (closes_entries k r).append hZ
  obtain ⟨m1, O, hm1, hZ1, hwalk₁, hO⟩ := hcs _ none c (hrest.mono (by omega)) (by simp) hskip
  rw [hdep] at hwalk₁ hO
  obtain ⟨m', P, hm', hZ', hwalk, hP⟩ := hr Z m1 (height filters (k - l + 1) c cs) hZ
    (fun j hj => by have := hm1 j hj; omega) hZ1
  refine ⟨m', O, P, hm', hZ', ?_, hO, hP⟩
  rw [hwalk₁, hwalk, Copies.prepend_prepend]

theorem WalkCopies.element {t : Tag} (hk : l < k) (hcs : WalkCopies filters l (k + 1) cs)
    (hr : WalkCopies filters l k r) (hZ : Closes k Z)
    (hskip : SkipsIdle filters l none ((branch i t cs r).entries k ++ Z)) :
    WalksOver filters l k (.branch i t cs r) Z none c := by
  unfold WalksOver
  rw [entries_branch, List.cons_append, List.append_assoc] at hskip ⊢
  rw [SkipsIdle, if_neg (by simpa using hk)] at hskip
  rw [filterWalk_element hk]
  cases hfil : filters.childFilter i with
  | keep =>
    rw [if_neg (by simp [hfil])] at hskip
    obtain ⟨m', O, P, hm', hZ', hwalk, hO, hP⟩ := hcs.content hk hr hZ hskip
    refine ⟨m', (min c (k - l), filters.copyLabel i (.inl t)) :: (O ++ P), hm', hZ', ?_, ?_⟩
    · dsimp only
      rw [hwalk, Copies.cons_prepend]
      simp only [height, hfil]
    · simp only [copied, hfil, filter_cons, filter_append, hO, hP]
  | collapse =>
    rw [if_neg (by simp [hfil])] at hskip
    obtain ⟨m', O, P, hm', hZ', hwalk, hO, hP⟩ := hcs.content hk hr hZ hskip
    refine ⟨m', O ++ P, hm', hZ', ?_, ?_⟩
    · dsimp only
      rw [hwalk]
      simp only [height, hfil]
    · simp [copied, hfil, filter_append, hO, hP]
  | remove =>
    rw [if_pos ⟨rfl, hfil⟩] at hskip
    have hdeep : ∀ d ∈ cs.entries (k + 1), k < d.level := lt_level_of_mem_entries_succ
    rw [skipsIdle_skip hdeep] at hskip
    rw [filterWalk_skip hdeep]
    obtain ⟨m', O, hm', hZ', hwalk, hO⟩ := hr Z _ (min c (k - l)) hZ (by simp) hskip
    refine ⟨m', O, hm', hZ', ?_, ?_⟩
    · simp only [hwalk, height, hfil]
    · simp [hO, copied, hfil]

/-- An element that is passed over has no children and is not kept. -/
theorem WalkCopies.element_behind {t : Tag} (hk : l < k) (hr : WalkCopies filters l k r)
    (hZ : Closes k Z) (hj : k ≤ j)
    (hskip : SkipsIdle filters l (some j) ((branch i t cs r).entries k ++ Z)) :
    WalksOver filters l k (.branch i t cs r) Z (some j) c := by
  unfold WalksOver
  have hrest : Closes k (r.entries k ++ Z) := (closes_entries k r).append hZ
  rw [entries_branch, List.cons_append, List.append_assoc] at hskip ⊢
  rw [SkipsIdle, if_neg (by simpa using hj), if_neg (by simpa using hk)] at hskip
  obtain ⟨hchi, hidle, hskip⟩ := hskip
  obtain rfl : cs = .nil := by
    cases cs with
    | nil => rfl
    | branch i' t' cs' r' => simp [Closes] at hchi
    | leaf i' b' r' => simp [Closes] at hchi
  rw [entries_nil, List.nil_append] at hskip ⊢
  obtain ⟨m', O, hm', hZ', hwalk, hO⟩ := hr Z none (min c (k - l)) hZ (by simp) hskip
  rw [filterWalk_behind hj (by omega), filterWalk_min hrest]
  refine ⟨m', O, hm', hZ', ?_, ?_⟩
  · cases hfil : filters.childFilter i with
    | keep => simp [size, Filters.copyLabel, hfil] at hidle
    | collapse => simp only [hwalk, height, hfil]
    | remove => simp only [hwalk, height, hfil]
  · cases hfil : filters.childFilter i with
    | keep => simp [size, Filters.copyLabel, hfil] at hidle
    | collapse => simp [hO, copied, height, hfil]
    | remove => simp [hO, copied, hfil]

theorem WalkCopies.text {s : NSString} (hk : l < k) (hr : WalkCopies filters l k r)
    (hi : filters.childFilter i ≠ .collapse) (hZ : Closes k Z)
    (hskip : SkipsIdle filters l none ((leaf i (.text s) r).entries k ++ Z)) :
    WalksOver filters l k (.leaf i (.text s) r) Z none c := by
  unfold WalksOver
  rw [entries_leaf, cons_append] at hskip ⊢
  rw [SkipsIdle, if_neg (by simpa using hk)] at hskip
  obtain ⟨m', O, hm', hZ', hwalk, hO⟩ := hr Z none (min c (k - l)) hZ (by simp) hskip
  rw [filterWalk_text hk]
  cases hfil : filters.childFilter i with
  | keep =>
    refine ⟨m', (min c (k - l), filters.copyLabel i (.inr (.text s))) :: O, hm', hZ', ?_, ?_⟩
    · dsimp only
      rw [hwalk, Copies.cons_prepend]
      rfl
    · rw [copied, if_pos hfil, filter_cons, filter_cons, hO]
  | collapse => exact absurd hfil hi
  | remove =>
    refine ⟨m', O, hm', hZ', hwalk, ?_⟩
    rw [copied, if_neg (by simp [hfil]), hO]

/-- A text node that is passed over is empty or not kept. -/
theorem WalkCopies.text_behind {s : NSString} (hk : l < k) (hr : WalkCopies filters l k r)
    (hZ : Closes k Z) (hj : k ≤ j)
    (hskip : SkipsIdle filters l (some j) ((leaf i (.text s) r).entries k ++ Z)) :
    WalksOver filters l k (.leaf i (.text s) r) Z (some j) c := by
  unfold WalksOver
  have hrest : Closes k (r.entries k ++ Z) := (closes_entries k r).append hZ
  rw [entries_leaf, cons_append] at hskip ⊢
  rw [SkipsIdle, if_neg (by simpa using hj), if_neg (by simpa using hk)] at hskip
  obtain ⟨-, hidle, hskip⟩ := hskip
  obtain ⟨m', O, hm', hZ', hwalk, hO⟩ := hr Z none (min c (k - l)) hZ (by simp) hskip
  refine ⟨m', O, hm', hZ', ?_, ?_⟩
  · rw [filterWalk_behind hj (by omega), filterWalk_min hrest, hwalk]
    rfl
  · rw [hO, copied]
    split_ifs with hkeep
    · have hemp : solid (min c (k - l), filters.copyLabel i (.inr (.text s))) = false := by
        simpa [solid] using hidle hkeep
      rw [filter_cons, hemp]
      rfl
    · rfl

/-- Below the receiver the walk makes the copies that it would make if it passed over nothing. -/
theorem walkCopies {f : Nodes} (hf : Filterable filters f) (hk : l < k) :
    WalkCopies filters l k f := by
  induction f generalizing k with
  | nil => exact fun Z m c _ hm hskip => ⟨m, [], hm, hskip, (Copies.nil_prepend _).symm, rfl⟩
  | branch i t cs r ihc ihr =>
    have hcs := ihc (fun n hn => hf n (by simp [hn])) (Nat.lt_succ_of_lt hk)
    have hr := ihr (fun n hn => hf n (by simp [hn])) hk
    intro Z m c hZ hm hskip
    cases m with
    | none => exact hcs.element hk hr hZ hskip
    | some j => exact hr.element_behind hk hZ (hm j rfl) hskip
  | leaf i b r ih =>
    have hi := hf ⟨i, .inr b, .nil⟩ (by simp)
    have hr := ih (fun n hn => hf n (by simp [hn])) hk
    intro Z m c hZ hm hskip
    cases b with
    | text s =>
      cases m with
      | none => exact hr.text hk (by simpa [kind] using hi) hZ hskip
      | some j => exact hr.text_behind hk hZ (hm j rfl) hskip
    | other kd s => simp [kind] at hi

end Tree

section Idle

variable {filters : Filters} {w : World} {self : NodeID} {cs : Nodes}

/-- A node that can be passed over: below the receiver, childless, and not kept or empty; or behind
the receiver, if the walk ends after it. -/
def IsIdle (filters : Filters) (w : World) (self s : NodeID) : Prop :=
  if s ∈ (w.children self).ids then
    w.firstChild s = none ∧ (filters.childFilter s = .keep →
      ∀ n ∈ w.node? s, size (filters.copyLabel s n.label) = 0)
  else w.level (w.nextNode s) ≤ w.level (some self)

instance (s : NodeID) : Decidable (IsIdle filters w self s) :=
  inferInstanceAs (Decidable (if s ∈ (w.children self).ids then
    w.firstChild s = none ∧ (filters.childFilter s = .keep →
      ∀ n ∈ w.node? s, size (filters.copyLabel s n.label) = 0)
    else w.level (w.nextNode s) ≤ w.level (some self)))

/-- The node behind the subtree of a removed element can be passed over. -/
def PassesOverIdle (filters : Filters) (w : World) (self : NodeID) : Prop :=
  ∀ e ∈ reached filters (w.level (some self)) none (w.ahead self),
    kind e.label = .element → filters.childFilter e.id = .remove →
      ∀ s ∈ w.nextNodeOutside e.id, IsIdle filters w self s

instance : Decidable (PassesOverIdle filters w self) :=
  inferInstanceAs (Decidable (∀ e ∈ reached filters (w.level (some self)) none (w.ahead self),
    kind e.label = .element → filters.childFilter e.id = .remove →
      ∀ s ∈ w.nextNodeOutside e.id, IsIdle filters w self s))

/-- A node behind the receiver after which the walk ends. -/
theorem closes_of_isIdle {b : Entry Tag Content} (h : w.trees.entries 0 = X ++ b :: B)
    (hb : b.id ∉ (w.children self).ids) (hidle : IsIdle filters w self b.id) :
    Closes (w.level (some self)) B := by
  rw [IsIdle, if_neg hb, w.nextNode_of_entries h] at hidle
  cases B with
  | nil => exact closes_nil _
  | cons y B =>
    rcases Nat.eq_zero_or_pos y.level with h0 | h0
    · simp [Closes, h0]
    · have hy : w.trees.entries 0 = (X ++ [b]) ++ y :: B := by
        rw [h]
        simp
      rw [cursor_cons h0, w.level_of_entries hy] at hidle
      simpa [Closes] using hidle

theorem idle_of_isIdle (h : w.trees.entries 0 = X ++ d :: R) (hd : d.id ∈ (w.children self).ids)
    (hidle : IsIdle filters w self d.id) : Closes d.level R ∧
      (filters.childFilter d.id = .keep → size (filters.copyLabel d.id d.label) = 0) := by
  obtain ⟨n, hn, hlab⟩ := find?_label_of_entries w.nodup h
  rw [IsIdle, if_pos hd, w.firstChild_of_node? hn] at hidle
  obtain ⟨hfst, hkeep⟩ := hidle
  constructor
  · rw [← children_eq_nil_iff_closes w.nodup h hn]
    cases hcs : n.children with
    | nil => rfl
    | branch i t cs r => simp [hcs] at hfst
    | leaf i b r => simp [hcs] at hfst
  · intro hk
    rw [← hlab]
    exact hkeep hk n hn

/-- The removed element whose subtree the walk is passing over. -/
def Removing (filters : Filters) (w : World) (self : NodeID) (X : Listing) (k : ℕ) : Prop :=
  ∃ X₁ e D, X = X₁ ++ e :: D ∧ e.level = k ∧ (∀ d ∈ D, k < d.level) ∧
    ∀ s ∈ w.nextNodeOutside e.id, IsIdle filters w self s

theorem Removing.isIdle {y : Entry Tag Content} (hX : Removing filters w self X k)
    (h : w.trees.entries 0 = X ++ y :: R) (hk : y.level ≤ k) (h0 : 0 < y.level) :
    IsIdle filters w self y.id := by
  obtain ⟨X1, ⟨k', x, b⟩, D, rfl, rfl, hD, hs⟩ := hX
  have h' : w.trees.entries 0 = X1 ++ ⟨k', x, b⟩ :: (D ++ y :: R) := by
    rw [h]
    simp
  refine hs y.id ?_
  rw [w.nextNodeOutside_of_entries h' hD (by simpa [Closes] using hk), cursor_cons h0]
  rfl

theorem Removing.snoc (h : Removing filters w self X k) (hd : k < d.level) :
    Removing filters w self (X ++ [d]) k := by
  obtain ⟨X1, e, D, rfl, he, hD, hs⟩ := h
  refine ⟨X1, e, D ++ [d], by simp, he, ?_, hs⟩
  intro d' hd'
  obtain hd' | hd' := mem_append.1 hd'
  · exact hD d' hd'
  · obtain rfl := mem_singleton.1 hd'
    exact hd

/-- From an element or a text node the walk goes on behind it, unless the element is removed. -/
theorem reached_cons (hd : l < d.level) (hkind : kind d.label = .element ∨
      kind d.label = .text ∧ filters.childFilter d.id ≠ .collapse) :
    reached filters l none (d :: R) =
      d :: if kind d.label = .element ∧ filters.childFilter d.id = .remove then
        reached filters l (some d.level) R else reached filters l none R := by
  rw [reached, if_neg (by omega)]
  obtain hel | ⟨htext, hne⟩ := hkind
  · cases hfil : filters.childFilter d.id <;> simp [hel]
  · cases hfil : filters.childFilter d.id with
    | keep => simp [htext]
    | collapse => exact absurd hfil hne
    | remove => simp [htext]

/-- What the condition on the nodes passed over means for the walk along the listing. -/
theorem skipsIdle_of_reached {m : Option ℕ} (hl : w.level (some self) = l)
    (h : w.trees.entries 0 = X ++ (R ++ B)) (hB : Closes l B)
    (hin : ∀ d ∈ R, l < d.level ∧ d.id ∈ (w.children self).ids)
    (hout : ∀ b ∈ B, b.id ∉ (w.children self).ids) (hkind : ∀ d ∈ R, kind d.label = .element ∨
      kind d.label = .text ∧ filters.childFilter d.id ≠ .collapse)
    (hm : ∀ k ∈ m, l < k ∧ Removing filters w self X k)
    (hrch : ∀ e ∈ reached filters l m (R ++ B), kind e.label = .element →
      filters.childFilter e.id = .remove → ∀ s ∈ w.nextNodeOutside e.id, IsIdle filters w self s) :
    SkipsIdle filters l m (R ++ B) := by
  induction R generalizing X m with
  | nil =>
    rw [List.nil_append] at h ⊢
    cases B with
    | nil => cases m <;> trivial
    | cons b B =>
      have hb : b.level ≤ l := hB b (by simp)
      cases m with
      | none =>
        rw [SkipsIdle, if_pos hb]
        trivial
      | some k =>
        obtain ⟨hk, hX⟩ := hm k rfl
        rw [SkipsIdle, if_neg (by omega), if_pos hb]
        rcases Nat.eq_zero_or_pos b.level with h0 | h0
        · exact .inl h0
        · refine .inr ?_
          rw [← hl]
          exact closes_of_isIdle h (hout b (by simp)) (hX.isIdle h (by omega) h0)
  | cons d R ih =>
    rw [cons_append] at h hrch ⊢
    obtain ⟨hd, hdin⟩ := hin d (by simp)
    have hin' : ∀ d ∈ R, l < d.level ∧ d.id ∈ (w.children self).ids :=
      fun d hd => hin d (by simp [hd])
    have hkind' : ∀ d ∈ R, kind d.label = .element ∨
        kind d.label = .text ∧ filters.childFilter d.id ≠ .collapse :=
      fun d hd => hkind d (by simp [hd])
    have h' : w.trees.entries 0 = (X ++ [d]) ++ (R ++ B) := by
      rw [h]
      simp
    cases m with
    | none =>
      rw [reached_cons hd (hkind d (by simp))] at hrch
      rw [SkipsIdle, if_neg (by omega)]
      split_ifs at hrch ⊢ with hrem
      · -- the walk comes to a removed element
        refine ih h' hin' hkind' ?_ fun e he => hrch e (mem_cons_of_mem _ he)
        rintro k ⟨⟩
        exact ⟨hd, X, d, [], by simp, rfl, by simp, hrch d (by simp) hrem.1 hrem.2⟩
      · exact ih h' hin' hkind' (by simp) fun e he => hrch e (mem_cons_of_mem _ he)
    | some k =>
      obtain ⟨hk, hX⟩ := hm k rfl
      rw [reached] at hrch
      rw [SkipsIdle]
      split_ifs with hdeep h0
      · rw [if_pos hdeep] at hrch
        refine ih h' hin' hkind' ?_ hrch
        rintro k ⟨⟩
        exact ⟨hk, hX.snoc hdeep⟩
      · omega
      · rw [if_neg hdeep, if_neg (by omega)] at hrch
        obtain ⟨hclo, hkeep⟩ := idle_of_isIdle h hdin (hX.isIdle h (by omega) (by omega))
        exact ⟨hclo, hkeep, ih h' hin' hkind' (by simp) hrch⟩

end Idle

/-! ### The method -/

section Method

variable {filters : Filters} {w : World} {self : NodeID} {t : Tag} {cs : Nodes}

theorem filterWalk_outside {c : ℕ} {m : Option ℕ} (hB : Closes l B) (hm : ∀ k ∈ m, l < k)
    (hskip : SkipsIdle filters l m B) : filterWalk filters l m c B = some (.ok []) := by
  have hclo : ∀ {B : Listing}, Closes l B →
      filterWalk filters l none c B = some (.ok []) := by
    intro B hB
    cases B with
    | nil => rfl
    | cons b B => rw [filterWalk, if_pos (hB b (by simp))]
  cases m with
  | none => exact hclo hB
  | some k =>
    cases B with
    | nil => rfl
    | cons b B =>
      have hb : b.level ≤ l := hB b (by simp)
      have hk : l < k := hm k rfl
      rw [SkipsIdle, if_neg (by omega), if_pos hb] at hskip
      rw [filterWalk, if_neg (by omega)]
      split_ifs with h0
      · rfl
      · exact hclo (hskip.resolve_left h0)

theorem filterable_of_elementsAndText (hpl : ElementsAndText cs)
    (hcol : ∀ n ∈ cs.nodes, filters.childFilter n.id = .collapse → kind n.label = .element) :
    Filterable filters cs := by
  intro n hn
  have hlab : n.label ∈ cs.labels := by
    rw [← map_label_nodes]
    exact mem_map_of_mem hn
  rcases hpl n.label hlab with hel | htext
  · exact .inl hel
  · refine .inr ⟨htext, ?_⟩
    intro hc
    have hel := hcol n hn hc
    simp [hel] at htext

theorem kind_of_filterable (hf : Filterable filters cs) :
    ∀ d ∈ cs.entries k, kind d.label = .element ∨
      kind d.label = .text ∧ filters.childFilter d.id ≠ .collapse := by
  intro d hd
  have hmem : (d.id, d.label) ∈ (cs.entries k).map fun e => (e.id, e.label) :=
    mem_map_of_mem hd
  rw [← map_nodes_eq_map_entries] at hmem
  obtain ⟨n, hn, heq⟩ := mem_map.1 hmem
  obtain ⟨hid, hlab⟩ := Prod.mk.inj heq
  rw [← hid, ← hlab]
  exact hf n hn

/-- If the walk passes over idle nodes only, its copies are right up to empty texts. -/
theorem filterWalk_of_passesOverIdle (hself : w.node? self = some ⟨self, .inl t, cs⟩)
    (hf : Filterable filters cs) (hidle : PassesOverIdle filters w self) :
    ∃ O, filterWalk filters (w.level (some self)) none 1 (w.ahead self) = some (.ok O) ∧
      O.filter solid = (copied filters 1 1 cs).filter solid := by
  obtain ⟨l, A, B, hent, hB, hl⟩ := w.exists_entries hself
  have hcs : w.children self = cs := World.children_of_node? hself
  have hahe : w.ahead self = cs.entries (l + 1) ++ B := w.ahead_of_entries hent
  have hnd := w.nodup
  rw [← map_id_entries 0, hent] at hnd
  simp only [map_append, map_cons, map_id_entries, nodup_append, nodup_cons] at hnd
  have hskip : SkipsIdle filters l none (cs.entries (l + 1) ++ B) := by
    refine skipsIdle_of_reached (X := A ++ [⟨l, self, .inl t⟩]) hl (by rw [hent]; simp) hB ?_ ?_
      (kind_of_filterable hf) (by simp) ?_
    · intro d hd
      rw [hcs]
      exact ⟨lt_level_of_mem_entries_succ d hd, mem_ids_of_mem_entries _ cs hd⟩
    · intro b hb hmem
      rw [hcs] at hmem
      exact hnd.2.1.2.2.2 b.id hmem b.id (mem_map_of_mem hb) rfl
    · intro e he
      refine hidle e ?_
      rwa [hahe, hl]
  obtain ⟨m, O, hm, hB', hwalk, hO⟩ := walkCopies hf (Nat.lt_succ_self l) _ none 1
    (hB.mono (Nat.le_succ l)) (by simp) hskip
  refine ⟨O, ?_, ?_⟩
  · rw [hahe, hl, hwalk, filterWalk_outside hB (fun k hk => hm k hk) hB']
    simp [Copies.prepend, Except.map]
  · rw [hO, Nat.succ_sub (le_refl l), Nat.sub_self]

/-- The element `x` of `w'` is new, with the name of the receiver and the children of the recursive
definition, up to identities and merged texts. -/
def IsFiltered (filters : Filters) (w : World) (self : NodeID) (w' : World) (x : NodeID) : Prop :=
  (∃ g, w'.trees = w.trees ++ g) ∧ ∃ t cs ds, w.node? self = some ⟨self, .inl t, cs⟩ ∧
    w'.node? x = some ⟨x, .inl (plainTag t.name []), ds⟩ ∧
    ds.anonymous = (normalized (filtered filters cs)).anonymous

/-- The method does what the recursive definition says if and only if nothing is too deep. -/
theorem isFiltered_iff_collapsesInPlace (hnode : w.node? self = some ⟨self, .inl t, cs⟩)
    (hf : Filterable filters cs) (hidle : PassesOverIdle filters w self) {fuel : ℕ}
    (hfuel : w.size < fuel) :
    (∃ x w', exec (xmlElementByFilteringAttributes filters fuel self) w = some (.ok (x, w')) ∧
      IsFiltered filters w self w' x) ↔ CollapsesInPlace filters cs := by
  obtain ⟨O, hwalk, hO⟩ := filterWalk_of_passesOverIdle hnode hf hidle
  have hexec := exec_xmlElementByFilteringAttributes filters hnode hfuel
  rw [hwalk] at hexec
  obtain ⟨w', f, hrun, htre, hout⟩ := hexec
  have hfr : w.trees.fresh ∉ w.trees.ids := fun h => absurd (lt_fresh h) (by omega)
  have hnew : w'.node? w.trees.fresh =
      some ⟨w.trees.fresh, .inl (plainTag t.name []), normalized f⟩ := by
    rw [World.node?, htre, find?_append_of_notMem hfr, find?_branch, if_pos rfl]
  have hwei : weight O =
      weight (outline ((filtered filters cs).entries 1)) + surplus filters 1 1 1 cs := by
    rw [← weight_filter_solid, hO, weight_filter_solid, weight_copied filters le_rfl le_rfl]
  rw [← surplus_eq_zero_iff filters (le_refl 1)]
  constructor
  · -- merging text nodes and forgetting identities does not change the weight
    rintro ⟨x, w1, hrun₁, -, t', cs', ds, hnode', hx, hds⟩
    obtain ⟨rfl, rfl⟩ : w.trees.fresh = x ∧ w' = w1 := by simpa [hrun] using hrun₁
    obtain ⟨rfl, rfl⟩ : t = t' ∧ cs = cs' := by simpa [hnode] using hnode'
    obtain rfl : normalized f = ds := by simpa [hnew] using hx
    have hsame := congrArg weight (outline_eq_of_anonymous hds 1)
    rw [weight_normalized, weight_normalized, show outline (f.entries 1) = O from hout] at hsame
    omega
  · intro h
    refine ⟨w.trees.fresh, w', hrun, ⟨_, htre⟩, t, cs, normalized f, hnode, hnew, ?_⟩
    refine anonymous_normalized_of_outline (k := 1) ?_
    rw [show outline (f.entries 1) = O from hout, hO,
      copied_of_surplus_eq_zero filters le_rfl le_rfl h]

/-- Provided that only idle nodes are passed over, the method does what the recursive definition
says if and only if in collapsed elements nothing is kept behind a kept element. -/
theorem xmlElementByFilteringAttributes_correct_iff (filters : Filters) {fuel : ℕ}
    (hself : w.kind? self = some .element) (hplain : ElementsAndText (w.children self))
    (hcollapse : ∀ n ∈ (w.children self).nodes,
      filters.childFilter n.id = .collapse → kind n.label = .element)
    (hidle : PassesOverIdle filters w self) (hfuel : w.size < fuel) :
    (∃ x w', exec (xmlElementByFilteringAttributes filters fuel self) w = some (.ok (x, w')) ∧
      IsFiltered filters w self w' x) ↔ CollapsesInPlace filters (w.children self) := by
  obtain ⟨t, cs, hnode⟩ := World.exists_element hself
  have hcs : w.children self = cs := World.children_of_node? hnode
  rw [hcs] at hplain hcollapse ⊢
  exact isFiltered_iff_collapsesInPlace hnode (filterable_of_elementsAndText hplain hcollapse) hidle
    hfuel

end Method

/-- Collapse the nodes of one list, remove those of another, and keep all others. -/
def Filters.ofLists (collapsed removed : List NodeID) : Filters :=
  ⟨fun _ _ => .keep, fun x =>
    if x ∈ collapsed then .collapse else if x ∈ removed then .remove else .keep⟩

/-- In `<div><p>ab<i>cd</i></p><b></b></div>` the element `p` can be collapsed and `b` removed. -/
theorem xmlElementByFilteringAttributes_division :
    ∃ x w', exec (xmlElementByFilteringAttributes (.ofLists [1] [5]) 7 0) sampleDivision =
        some (.ok (x, w')) ∧ IsFiltered (.ofLists [1] [5]) sampleDivision 0 w' x :=
  (xmlElementByFilteringAttributes_correct_iff (w := sampleDivision) (.ofLists [1] [5]) (by decide)
    (by decide) (by decide) (by decide) (by decide)).2 (by decide)

/-- `<p><s><b></b>ab</s>cd</p>` -/
def sampleStruck : World where
  trees := .branch 0 (plainTag (literal "p") [])
    (.branch 1 (plainTag (literal "s") [])
      (.branch 2 (plainTag (literal "b") []) .nil (.leaf 3 (.text (literal "ab")) .nil))
      (.leaf 4 (.text (literal "cd")) .nil)) .nil
  nodup := by decide

/-- If the element `s` is removed, `cd` goes as well; if it is collapsed, `ab` gets into `b`. -/
theorem xmlElementByFilteringAttributes_wrong :
    (((exec (xmlElementByFilteringAttributes (.ofLists [] [1]) 6 0) sampleStruck).map fun o =>
        o.map fun r => text (r.2.children r.1)) = some (.ok []) ∧
      text (filtered (.ofLists [] [1]) (sampleStruck.children 0)) = literal "cd") ∧
    ((exec (xmlElementByFilteringAttributes (.ofLists [1] []) 6 0) sampleStruck).map fun o =>
        o.map fun r => (r.2.children r.1).anonymous) =
      some (.ok (.branch 0 (plainTag (literal "b") []) (.leaf 0 (.text (literal "ab")) .nil)
        (.leaf 0 (.text (literal "cd")) .nil))) ∧
    (normalized (filtered (.ofLists [1] []) (sampleStruck.children 0))).anonymous =
      .branch 0 (plainTag (literal "b") []) .nil (.leaf 0 (.text (literal "abcd")) .nil) :=
  ⟨⟨rfl, rfl⟩, rfl, rfl⟩

end Feather.XML
