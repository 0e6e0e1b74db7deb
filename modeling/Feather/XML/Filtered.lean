import Feather.XML.Filter

/-!
# Filtering a subtree, by recursion

`filtered` is what filtering is meant to do.  The method keeps a stack instead, cut back to the
depth of a node in the receiver.  Below a collapsed element that exceeds the depth of its copy, so
that elements may stay on the stack for too long.
-/

namespace Feather.XML

open OrderedTree Forest Program List

/-- A kept element is copied with its content, a collapsed one is its content, a removed one goes; a
kept text loses the newlines around it. -/
def filtered (filters : Filters) : Nodes → Nodes
  | .nil => .nil
  | .branch i t cs r =>
    match filters.childFilter i with
    | .keep => .branch i (plainTag t.name (filters.keptAttributes i t.attributes))
        (filtered filters cs) (filtered filters r)
    | .collapse => filtered filters cs ++ filtered filters r
    | .remove => filtered filters r
  | .leaf i (.text s) r =>
    if filters.childFilter i = .keep then
      .leaf i (.text (stringByTrimmingCharactersInSet newlineCharacterSet s)) (filtered filters r)
    else filtered filters r
  | .leaf _ (.other _ _) r => filtered filters r

/-! ### Weight -/

/-- One for a node that is no text node, and one for each unit of a text. -/
def size : Label → ℕ
  | .inl _ => 1
  | .inr (.text s) => s.length
  | .inr (.other _ _) => 1

/-- Is there anything to a node? -/
def solid (p : ℕ × Label) : Bool := decide (size p.2 ≠ 0)

/-- The levels and labels of a listing. -/
def outline (L : Listing) : List (ℕ × Label) := L.map fun e => (e.level, e.label)

@[simp] theorem outline_nil : outline [] = [] := rfl

@[simp] theorem outline_cons (e : Entry Tag Content) (L : Listing) :
    outline (e :: L) = (e.level, e.label) :: outline L := rfl

@[simp] theorem outline_append (L M : Listing) : outline (L ++ M) = outline L ++ outline M :=
  map_append

/-- The sum of the levels of all nodes, each counted by its size. -/
def weight (O : List (ℕ × Label)) : ℕ := (O.map fun p => p.1 * size p.2).sum

@[simp] theorem weight_nil : weight [] = 0 := rfl

@[simp] theorem weight_cons (p : ℕ × Label) (O : List (ℕ × Label)) :
    weight (p :: O) = p.1 * size p.2 + weight O := rfl

@[simp] theorem weight_append (O P : List (ℕ × Label)) : weight (O ++ P) = weight O + weight P := by
  simp [weight]

theorem weight_filter_solid (O : List (ℕ × Label)) : weight (O.filter solid) = weight O := by
  induction O with
  | nil => rfl
  | cons p O ih =>
    by_cases hp : size p.2 = 0
    · rw [filter_cons_of_neg (by simpa [solid] using hp), weight_cons, hp]
      omega
    · rw [filter_cons_of_pos (by simpa [solid] using hp), weight_cons, weight_cons, ih]

theorem weight_normalized (f : Nodes) (k : ℕ) :
    weight (outline ((normalized f).entries k)) = weight (outline (f.entries k)) := by
  fun_induction normalized f generalizing k with
  | case1 => rfl
  | case2 i t cs r ihc ihr => simp [ihc, ihr]
  | case3 i r ih => simp [ih, size]
  | case4 i c s r j s' r' hr ih =>
    have := ih k
    rw [hr] at this
    simp only [entries_leaf, outline_cons, weight_cons, size] at this ⊢
    rw [← this, length_append]
    ring
  | case5 i c s r hr ih => simp [ih]
  | case6 i k' s r ih => simp [ih]

/-- The forest without empty text nodes. -/
def dropBlank : Nodes → Nodes
  | .nil => .nil
  | .branch i t cs r => .branch i t (dropBlank cs) (dropBlank r)
  | .leaf _ (.text []) r => dropBlank r
  | .leaf i (.text (c :: s)) r => .leaf i (.text (c :: s)) (dropBlank r)
  | .leaf i (.other k s) r => .leaf i (.other k s) (dropBlank r)

theorem outline_dropBlank (f : Nodes) (k : ℕ) :
    outline ((dropBlank f).entries k) = (outline (f.entries k)).filter solid := by
  fun_induction dropBlank f generalizing k with
  | case1 => rfl
  | case2 i t cs r ihc ihr => simp [ihc, ihr, solid, size]
  | case3 i r ih => simp [ih, solid, size]
  | case4 i c s r ih => simp [ih, solid, size]
  | case5 i k' s r ih => simp [ih, solid, size]

theorem normalized_dropBlank (f : Nodes) : normalized (dropBlank f) = normalized f := by
  fun_induction dropBlank f with
  | case1 => rfl
  | case2 i t cs r ihc ihr => simp [normalized, ihc, ihr]
  | case3 i r ih => rw [ih, normalized]
  | case4 i c s r ih =>
    rw [normalized.eq_def, normalized.eq_def (.leaf i (.text (c :: s)) r)]
    simp [ih]
  | case5 i k' s r ih => simp [normalized, ih]

theorem anonymous_eq_of_outline {f g : Nodes} {k : ℕ}
    (h : outline (f.entries k) = outline (g.entries k)) : f.anonymous = g.anonymous := by
  have hid : ∀ L : Listing, (L.map fun e => { e with id := 0 }) =
      (outline L).map fun p => ⟨p.1, 0, p.2⟩ := by
    intro L
    rw [outline, map_map]
    rfl
  refine entries_injective k ?_
  rw [entries_anonymous, entries_anonymous, hid, hid, h]

theorem outline_eq_of_anonymous {f g : Nodes} (h : f.anonymous = g.anonymous) (k : ℕ) :
    outline (f.entries k) = outline (g.entries k) := by
  have hid : ∀ f : Nodes, outline (f.anonymous.entries k) = outline (f.entries k) := by
    intro f
    rw [entries_anonymous, outline, map_map]
    rfl
  rw [← hid, h, hid]

/-- Copies that agree wherever there is anything to them become equal when text nodes are merged. -/
theorem anonymous_normalized_of_outline {f g : Nodes} {k : ℕ}
    (h : (outline (f.entries k)).filter solid = (outline (g.entries k)).filter solid) :
    (normalized f).anonymous = (normalized g).anonymous := by
  rw [← normalized_dropBlank f, ← normalized_dropBlank g]
  refine anonymous_normalized_congr (anonymous_eq_of_outline (k := k) ?_)
  rw [outline_dropBlank, outline_dropBlank, h]

/-! ### The stack -/

/-- The height of the stack behind a forest at depth `d`, if it was `c` in front of it. -/
def height (filters : Filters) : ℕ → ℕ → Nodes → ℕ
  | _, c, .nil => c
  | d, c, .branch i _ cs r =>
    match filters.childFilter i with
    | .keep => height filters d (height filters (d + 1) (min c d + 1) cs) r
    | .collapse => height filters d (height filters (d + 1) (min c d) cs) r
    | .remove => height filters d (min c d) r
  | d, c, .leaf _ _ r => height filters d (min c d) r

/-- The copies of the nodes of a forest at depth `d`, with a stack of height `c` in front of it. -/
def copied (filters : Filters) : ℕ → ℕ → Nodes → List (ℕ × Label)
  | _, _, .nil => []
  | d, c, .branch i t cs r =>
    match filters.childFilter i with
    | .keep => (min c d, filters.copyLabel i (.inl t)) ::
        (copied filters (d + 1) (min c d + 1) cs ++
          copied filters d (height filters (d + 1) (min c d + 1) cs) r)
    | .collapse => copied filters (d + 1) (min c d) cs ++
        copied filters d (height filters (d + 1) (min c d) cs) r
    | .remove => copied filters d (min c d) r
  | d, c, .leaf i (.text s) r =>
    if filters.childFilter i = .keep then
      (min c d, filters.copyLabel i (.inr (.text s))) :: copied filters d (min c d) r
    else copied filters d (min c d) r
  | d, c, .leaf _ (.other _ _) r => copied filters d (min c d) r

/-- By how many levels the copies are too deep, each counted by its size. -/
def surplus (filters : Filters) : ℕ → ℕ → ℕ → Nodes → ℕ
  | _, _, _, .nil => 0
  | d, c, a, .branch i _ cs r =>
    match filters.childFilter i with
    | .keep => (min c d - a) + (surplus filters (d + 1) (min c d + 1) (a + 1) cs +
        surplus filters d (height filters (d + 1) (min c d + 1) cs) a r)
    | .collapse => surplus filters (d + 1) (min c d) a cs +
        surplus filters d (height filters (d + 1) (min c d) cs) a r
    | .remove => surplus filters d (min c d) a r
  | d, c, a, .leaf i (.text s) r =>
    if filters.childFilter i = .keep then
      (min c d - a) * size (filters.copyLabel i (.inr (.text s))) + surplus filters d (min c d) a r
    else surplus filters d (min c d) a r
  | d, c, a, .leaf _ (.other _ _) r => surplus filters d (min c d) a r

variable (filters : Filters) {d c a : ℕ}

/-- The stack does not go below the level at which copies belong. -/
theorem le_height (hc : a ≤ c) (hd : a ≤ d) (f : Nodes) : a ≤ height filters d c f := by
  induction f generalizing d c with
  | nil => exact hc
  | branch i t cs r ihc ihr =>
    rw [height]
    rcases filters.childFilter i with _ | _ | _
    · exact ihr (ihc (by omega) (by omega)) hd
    · exact ihr (ihc (by omega) (by omega)) hd
    · exact ihr (by omega) hd
  | leaf i b r ih => exact ih (by omega) hd

/-- Copies are never too high, and `surplus` is what they are too deep. -/
theorem weight_copied (hc : a ≤ c) (hd : a ≤ d) (f : Nodes) :
    weight (copied filters d c f) =
      weight (outline ((filtered filters f).entries a)) + surplus filters d c a f := by
  induction f generalizing d c a with
  | nil => rfl
  | branch i t cs r ihc ihr =>
    rcases h : filters.childFilter i with _ | _ | _
    · have hcs := ihc (d := d + 1) (c := min c d + 1) (a := a + 1) (by omega) (by omega)
      have hr := ihr (a := a) (le_height filters (show a ≤ min c d + 1 by omega)
        (show a ≤ d + 1 by omega) cs) hd
      simp only [copied, filtered, surplus, h, weight_cons, weight_append, entries_branch,
        outline_cons, outline_append, size, Filters.copyLabel]
      omega
    · have hcs := ihc (d := d + 1) (c := min c d) (a := a) (by omega) (by omega)
      have hr := ihr (a := a) (le_height filters (show a ≤ min c d by omega)
        (show a ≤ d + 1 by omega) cs) hd
      simp only [copied, filtered, surplus, h, weight_append, entries_append, outline_append]
      omega
    · simpa only [copied, filtered, surplus, h] using ihr (by omega) hd
  | leaf i b r ih =>
    have hr := ih (d := d) (c := min c d) (a := a) (by omega) hd
    rcases b with s | ⟨k, s⟩
    · by_cases h : filters.childFilter i = .keep
      · have hmul : ∀ n, min c d * n = a * n + (min c d - a) * n := by
          intro n
          rw [← Nat.add_mul, Nat.add_sub_cancel' (by omega)]
        simp only [copied, filtered, surplus, if_pos h, weight_cons, entries_leaf,
          outline_cons, hmul, Filters.copyLabel]
        omega
      · simpa only [copied, filtered, surplus, if_neg h] using hr
    · exact hr

attribute [local simp] filtered

/-- Where there is no surplus, the copies are at the levels where they belong, up to empty text. -/
theorem copied_of_surplus_eq_zero (hc : a ≤ c) (hd : a ≤ d) {f : Nodes}
    (h : surplus filters d c a f = 0) :
    (copied filters d c f).filter solid =
      (outline ((filtered filters f).entries a)).filter solid := by
  induction f generalizing d c a with
  | nil => rfl
  | branch i t cs r ihc ihr =>
    rcases hi : filters.childFilter i with _ | _ | _
    · simp only [surplus, hi] at h
      have hmin : min c d = a := by omega
      have hcs := ihc (d := d + 1) (c := min c d + 1) (a := a + 1) (by omega) (by omega) (by omega)
      have hr := ihr (d := d) (a := a) (le_height filters (show a ≤ min c d + 1 by omega)
        (show a ≤ d + 1 by omega) cs) hd (by omega)
      rw [hmin] at hcs hr
      simp [copied, hi, filter_cons, hcs, hr, hmin, Filters.copyLabel]
    · simp only [surplus, hi] at h
      have hcs := ihc (d := d + 1) (c := min c d) (a := a) (by omega) (by omega) (by omega)
      have hr := ihr (d := d) (a := a) (le_height filters (show a ≤ min c d by omega)
        (show a ≤ d + 1 by omega) cs) hd (by omega)
      simp [copied, hi, hcs, hr]
    · simp only [surplus, hi] at h
      simpa only [copied, filtered, hi] using ihr (by omega) hd h
  | leaf i b r ih =>
    rcases b with s | ⟨k, s⟩
    · by_cases hi : filters.childFilter i = .keep
      · simp only [surplus, if_pos hi, Nat.add_eq_zero_iff, Nat.mul_eq_zero] at h
        have hr := ih (d := d) (c := min c d) (by omega) hd h.2
        simp only [copied, filtered, if_pos hi, entries_leaf, outline_cons, filter_cons, hr,
          Filters.copyLabel]
        rcases h.1 with hlev | hsize
        · rw [show min c d = a by omega]
        · -- an empty text node may be anywhere
          have hs : ∀ k : ℕ, solid (k, .inr (.text
              (stringByTrimmingCharactersInSet newlineCharacterSet s))) = false := by
            simpa [solid, Filters.copyLabel] using hsize
          rw [hs, hs]
          rfl
      · simp only [surplus, if_neg hi] at h
        simpa only [copied, filtered, if_neg hi] using ih (by omega) hd h
    · exact ih (by omega) hd h

/-! ### When nothing is too deep -/

/-- The forest has nothing but empty text nodes. -/
def Blank (f : Nodes) : Prop := ∀ b ∈ f.labels, size b = 0

instance (f : Nodes) : Decidable (Blank f) := inferInstanceAs (Decidable (∀ b ∈ f.labels, size b = 0))

/-- An element is followed by nothing but what is inside it, and empty text nodes. -/
def EndsInElement : Nodes → Prop
  | .nil => True
  | .branch _ _ cs r => Blank r ∧ EndsInElement cs
  | .leaf _ _ r => EndsInElement r

instance decidableEndsInElement : (f : Nodes) → Decidable (EndsInElement f)
  | .nil => isTrue trivial
  | .branch _ _ cs r =>
    have := decidableEndsInElement cs
    inferInstanceAs (Decidable (Blank r ∧ EndsInElement cs))
  | .leaf _ _ r => decidableEndsInElement r

/-- In a collapsed element's content, an element is followed only by what is inside it. -/
def CollapsesInPlace (filters : Filters) : Nodes → Prop
  | .nil => True
  | .branch i _ cs r => (filters.childFilter i = .keep → CollapsesInPlace filters cs) ∧
      (filters.childFilter i = .collapse → EndsInElement (filtered filters cs)) ∧
      CollapsesInPlace filters r
  | .leaf _ _ r => CollapsesInPlace filters r

instance decidableCollapsesInPlace (filters : Filters) :
    (f : Nodes) → Decidable (CollapsesInPlace filters f)
  | .nil => isTrue trivial
  | .branch i _ cs r =>
    have := decidableCollapsesInPlace filters cs
    have := decidableCollapsesInPlace filters r
    inferInstanceAs (Decidable ((filters.childFilter i = .keep → CollapsesInPlace filters cs) ∧
      (filters.childFilter i = .collapse → EndsInElement (filtered filters cs)) ∧
      CollapsesInPlace filters r))
  | .leaf _ _ r => decidableCollapsesInPlace filters r

/-- The forest has an element. -/
def HasElement (f : Nodes) : Prop := ∃ b ∈ f.labels, kind b = .element

section Shapes

variable (i : NodeID) (t : Tag) (b : Content) (cs f g r : Nodes)

theorem blank_append : Blank (f ++ g) ↔ Blank f ∧ Blank g := by
  simp only [Blank, labels_append, mem_append, or_imp, forall_and]

theorem not_blank_branch : ¬ Blank (.branch i t cs r) := by
  intro h
  have := h (.inl t) (by simp)
  simp [size] at this

theorem blank_leaf : Blank (.leaf i b r) ↔ size (.inr b) = 0 ∧ Blank r := by
  simp only [Blank, labels_leaf, mem_cons, forall_eq_or_imp]

theorem hasElement_append : HasElement (f ++ g) ↔ HasElement f ∨ HasElement g := by
  simp only [HasElement, labels_append, mem_append, or_and_right, exists_or]

theorem hasElement_branch : HasElement (.branch i t cs r) := ⟨.inl t, by simp, rfl⟩

theorem hasElement_leaf : HasElement (.leaf i b r) ↔ HasElement r := by
  have : kind (.inr b) ≠ .element := by cases b <;> simp [kind]
  simp [HasElement, this]

theorem endsInElement_append : EndsInElement (f ++ g) ↔
    EndsInElement f ∧ (HasElement f → Blank g) ∧ (¬ HasElement f → EndsInElement g) := by
  induction f with
  | nil => simp [EndsInElement, HasElement]
  | branch i t cs r ihc ihr =>
    have := hasElement_branch i t cs r
    rw [branch_append, EndsInElement, EndsInElement, blank_append]
    simp only [this, forall_const, not_true_eq_false, false_imp_iff, and_true, and_assoc]
    exact and_congr_right fun _ => and_comm
  | leaf i b r ih =>
    rw [leaf_append, EndsInElement, EndsInElement, hasElement_leaf, ih]

end Shapes

/-- Where no element is kept, the stack does not grow. -/
theorem height_of_not_hasElement (hd : a ≤ d) {f : Nodes} (h : ¬ HasElement (filtered filters f)) :
    height filters d a f = a := by
  induction f generalizing d with
  | nil => rfl
  | branch i t cs r ihc ihr =>
    have hmin : min a d = a := by omega
    rcases hi : filters.childFilter i with _ | _ | _
    · simp only [filtered, hi] at h
      exact absurd (hasElement_branch _ _ _ _) h
    · simp only [filtered, hi, hasElement_append, not_or] at h
      simp only [height, hi, hmin]
      rw [ihc (by omega) h.1, ihr hd h.2]
    · simp only [filtered, hi] at h
      simp only [height, hi, hmin]
      exact ihr hd h
  | leaf i b r ih =>
    have hmin : min a d = a := by omega
    rw [height, hmin]
    refine ih hd ?_
    rcases b with s | ⟨k, s⟩
    · by_cases hi : filters.childFilter i = .keep
      · simpa only [filtered, if_pos hi, hasElement_leaf] using h
      · simpa only [filtered, if_neg hi] using h
    · exact h

theorem lt_height (hd : a < d) (hc : a ≤ c) {f : Nodes}
    (h : a < c ∨ HasElement (filtered filters f)) : a < height filters d c f := by
  induction f generalizing d c with
  | nil =>
    rcases h with h | ⟨b, hb, -⟩
    · exact h
    · simp at hb
  | branch i t cs r ihc ihr =>
    rcases hi : filters.childFilter i with _ | _ | _
    · have hcs := le_height filters (show a + 1 ≤ min c d + 1 by omega) (show a + 1 ≤ d + 1 by omega) cs
      simp only [height, hi]
      exact ihr hd (by omega) (.inl (by omega))
    · have hcs := le_height filters (show a ≤ min c d by omega) (show a ≤ d + 1 by omega) cs
      simp only [filtered, hi, hasElement_append] at h
      simp only [height, hi]
      refine ihr hd hcs ?_
      rcases h with h | h | h
      · exact .inl (ihc (by omega) (by omega) (.inl (by omega)))
      · exact .inl (ihc (by omega) (by omega) (.inr h))
      · exact .inr h
    · simp only [filtered, hi] at h
      simp only [height, hi]
      exact ihr hd (by omega) (h.imp_left fun h => by omega)
  | leaf i b r ih =>
    refine ih hd (by omega) ?_
    rcases h with h | h
    · exact .inl (by omega)
    · refine .inr ?_
      rcases b with s | ⟨k, s⟩
      · by_cases hi : filters.childFilter i = .keep
        · simpa only [filtered, if_pos hi, hasElement_leaf] using h
        · simpa only [filtered, if_neg hi] using h
      · exact h

attribute [local simp] surplus

/-- Below a collapsed element, with a stack that is too high, every copy is too deep. -/
theorem surplus_eq_zero_iff_blank (hd : a < d) (hc : a < c) (f : Nodes) :
    surplus filters d c a f = 0 ↔ Blank (filtered filters f) := by
  induction f generalizing d c with
  | nil => simp [Blank]
  | branch i t cs r ihc ihr =>
    rcases hi : filters.childFilter i with _ | _ | _
    · simp only [surplus, filtered, hi, not_blank_branch, iff_false]
      omega
    · have hcs := lt_height filters (show a < d + 1 by omega) (show a ≤ min c d by omega) (f := cs)
        (.inl (by omega))
      simp only [surplus, filtered, hi, Nat.add_eq_zero_iff, blank_append]
      rw [ihc (by omega) (by omega), ihr hd hcs]
    · simp [hi]
      exact ihr hd (by omega)
  | leaf i b r ih =>
    have hr := ih hd (show a < min c d by omega)
    rcases b with s | ⟨k, s⟩
    · by_cases hi : filters.childFilter i = .keep
      · have : min c d - a ≠ 0 := by omega
        simp [if_pos hi, this, blank_leaf, hr, Filters.copyLabel]
      · simpa only [surplus, filtered, if_neg hi] using hr
    · exact hr

/-- Below a collapsed element, the first kept element leaves the stack too high. -/
theorem surplus_eq_zero_iff_endsInElement (hd : a < d) (f : Nodes) :
    surplus filters d a a f = 0 ↔ EndsInElement (filtered filters f) := by
  induction f generalizing d a with
  | nil => simp [EndsInElement]
  | branch i t cs r ihc ihr =>
    have hmin : min a d = a := by omega
    rcases hi : filters.childFilter i with _ | _ | _
    · have hcs := le_height filters (le_refl (a + 1)) (show a + 1 ≤ d + 1 by omega) cs
      simp only [surplus, filtered, hi, hmin, Nat.sub_self, Nat.zero_add, Nat.add_eq_zero_iff,
        EndsInElement]
      rw [ihc (by omega), surplus_eq_zero_iff_blank filters hd (by omega), and_comm]
    · simp [hi, hmin, endsInElement_append]
      rw [ihc (by omega)]
      by_cases hel : HasElement (filtered filters cs)
      · have hcs := lt_height filters (show a < d + 1 by omega) le_rfl (.inr hel)
        rw [surplus_eq_zero_iff_blank filters hd hcs]
        simp [hel]
      · rw [height_of_not_hasElement filters (by omega) hel, ihr hd]
        simp [hel]
    · simp [hi, hmin]
      exact ihr hd
  | leaf i b r ih =>
    have hmin : min a d = a := by omega
    rcases b with s | ⟨k, s⟩
    · by_cases hi : filters.childFilter i = .keep
      · simp [if_pos hi, hmin]
        exact ih hd
      · simp [if_neg hi, hmin]
        exact ih hd
    · simp [hmin]
      exact ih hd

/-- Outside of collapsed elements the stack is cut back to where it should be. -/
theorem surplus_eq_zero_iff (hc : a ≤ c) (f : Nodes) :
    surplus filters a c a f = 0 ↔ CollapsesInPlace filters f := by
  induction f generalizing c a with
  | nil => simp [CollapsesInPlace]
  | branch i t cs r ihc ihr =>
    have hmin : min c a = a := by omega
    rcases hi : filters.childFilter i with _ | _ | _
    · have hcs := le_height filters (show a ≤ a + 1 by omega) (show a ≤ a + 1 by omega) cs
      simp only [surplus, hi, hmin, Nat.add_eq_zero_iff, CollapsesInPlace]
      rw [ihc le_rfl, ihr hcs]
      simp
    · have hcs := le_height filters (le_refl a) (show a ≤ a + 1 by omega) cs
      simp only [surplus, hi, hmin, Nat.add_eq_zero_iff, CollapsesInPlace]
      rw [surplus_eq_zero_iff_endsInElement filters (by omega), ihr hcs]
      simp
    · simp only [surplus, hi, hmin, CollapsesInPlace]
      rw [ihr le_rfl]
      simp
  | leaf i b r ih =>
    have hmin : min c a = a := by omega
    rcases b with s | ⟨k, s⟩
    · simp [hmin]
      exact ih le_rfl
    · simp [hmin]
      exact ih le_rfl

end Feather.XML
