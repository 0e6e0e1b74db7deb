import Mathlib.Data.List.DropRight
import Mathlib.Data.List.Basic
import Mathlib.Tactic

/-!
# Words

The words of a list are its longest pieces without a separator, the empty ones left out.
-/

namespace Words

open List

variable {α : Type} {p : α → Bool}
variable {c : α} {w s : List α} {L : List (List α)}

/-- The words of a list; `p` holds for the separators. -/
def words (p : α → Bool) (s : List α) : List (List α) := (s.splitOnP p).filter fun w => !w.isEmpty

/-- A nonempty piece without separators. -/
structure IsWord (p : α → Bool) (w : List α) : Prop where
  ne_nil : w ≠ []
  noSeparator : ∀ c ∈ w, p c = false

instance (p : α → Bool) (w : List α) : Decidable (IsWord p w) :=
  decidable_of_iff (w.isEmpty = false ∧ w.all (fun c => !p c) = true) (by
    constructor
    · rintro ⟨hne, hall⟩
      exact ⟨by simpa using hne, by simpa using hall⟩
    · rintro ⟨hne, hall⟩
      exact ⟨by simpa using hne, by simpa using hall⟩)

@[simp] theorem words_nil : words p [] = [] := by simp [words, splitOnP_nil]

/-- A separator ends a word. -/
theorem words_append_cons (hc : p c = true) (s t : List α) :
    words p (s ++ c :: t) = words p s ++ words p t := by
  rw [words, splitOnP_append_cons s t hc, filter_append]
  rfl

theorem words_cons (hc : p c = true) (s : List α) : words p (c :: s) = words p s := by
  have := words_append_cons hc [] s
  rwa [words_nil] at this

theorem words_concat (hc : p c = true) (s : List α) : words p (s ++ [c]) = words p s := by
  rw [words_append_cons hc, words_nil, append_nil]

theorem words_of_isWord (h : IsWord p w) : words p w = [w] := by
  rw [words, splitOnP_eq_singleton h.noSeparator]
  simp [h.ne_nil]

/-- Separators in front belong to no word. -/
theorem words_dropWhile (s : List α) : words p (s.dropWhile p) = words p s := by
  induction s with
  | nil => rfl
  | cons c s ih =>
    rw [dropWhile_cons]
    split_ifs with hc
    · rw [ih, words_cons hc]
    · rfl

/-- Nor do separators at the end. -/
theorem words_rdropWhile (s : List α) : words p (s.rdropWhile p) = words p s := by
  induction s using reverseRecOn with
  | nil => rfl
  | append_singleton s c ih =>
    rw [rdropWhile_concat]
    split_ifs with hc
    · rw [ih, words_concat hc]
    · rfl

/-- Induction on the separators of a list. -/
theorem separator_induction {P : List α → Prop} (free : ∀ s, (∀ c ∈ s, p c = false) → P s)
    (cut : ∀ s c t, p c = true → P s → P t → P (s ++ c :: t)) (s : List α) : P s := by
  induction hn : s.length using Nat.strong_induction_on generalizing s with
  | _ n ih =>
    by_cases h : ∃ c ∈ s, p c = true
    · obtain ⟨c, hc, hpc⟩ := h
      obtain ⟨A, B, rfl⟩ := append_of_mem hc
      rw [length_append, length_cons] at hn
      exact cut A c B hpc (ih A.length (by omega) A rfl) (ih B.length (by omega) B rfl)
    · refine free s fun c hc => ?_
      by_contra hpc
      exact h ⟨c, hc, by simpa using hpc⟩

theorem mem_splitOnP (h : w ∈ s.splitOnP p) : ∀ c ∈ w, p c = false := by
  induction s using separator_induction (p := p) with
  | free s hs =>
    rw [splitOnP_eq_singleton hs, mem_singleton] at h
    rwa [h]
  | cut s c t hc ihs iht =>
    rw [splitOnP_append_cons s t hc, mem_append] at h
    exact h.elim ihs iht

/-- A piece stands at the end of the list or in front of a separator. -/
theorem exists_of_mem_splitOnP (h : w ∈ s.splitOnP p) :
    ∃ X Y, s = X ++ (w ++ Y) ∧ ∀ c ∈ Y.head?, p c = true := by
  induction s using separator_induction (p := p) with
  | free s hs =>
    rw [splitOnP_eq_singleton hs, mem_singleton] at h
    exact ⟨[], [], by simp [h], by simp⟩
  | cut s c t hc ihs iht =>
    rw [splitOnP_append_cons s t hc, mem_append] at h
    rcases h with h | h
    · obtain ⟨X, Y, rfl, hY⟩ := ihs h
      refine ⟨X, Y ++ c :: t, by simp, ?_⟩
      cases Y with
      | nil => simpa using hc
      | cons d Y => simpa using hY
    · obtain ⟨X, Y, rfl, hY⟩ := iht h
      exact ⟨s ++ c :: X, Y, by simp, hY⟩

theorem mem_words_iff (hw : w ≠ []) : w ∈ words p s ↔ w ∈ s.splitOnP p := by
  simp [words, hw]

theorem isWord_of_mem (h : w ∈ words p s) : IsWord p w := by
  rw [words, mem_filter] at h
  exact ⟨by simpa using h.2, mem_splitOnP h.1⟩

/-- Only separators make no words. -/
theorem words_eq_nil_iff : words p s = [] ↔ ∀ c ∈ s, p c = true := by
  induction s using separator_induction (p := p) with
  | free s hs =>
    cases s with
    | nil => simp
    | cons c s =>
      rw [words_of_isWord ⟨by simp, hs⟩]
      refine ⟨fun h => absurd h (by simp), fun h => ?_⟩
      have := h c (by simp)
      rw [hs c (by simp)] at this
      cases this
  | cut s c t hc ihs iht =>
    rw [words_append_cons hc, append_eq_nil_iff, ihs, iht]
    constructor
    · rintro ⟨hs, ht⟩ d hd
      rcases mem_append.1 hd with hd | hd
      · exact hs d hd
      · rcases mem_cons.1 hd with rfl | hd
        · exact hc
        · exact ht d hd
    · intro h
      exact ⟨fun d hd => h d (by simp [hd]), fun d hd => h d (by simp [hd])⟩

/-! ### Joining -/

/-- Joining and cutting again. -/
theorem words_intercalate {sep : α} (hsep : p sep = true) (hL : ∀ w ∈ L, ∀ c ∈ w, p c = false) :
    words p ([sep].intercalate L) = L.filter fun w => !w.isEmpty := by
  induction L with
  | nil => rfl
  | cons w L ih =>
    have hw : words p w = [w].filter fun w => !w.isEmpty := by
      rw [words, splitOnP_eq_singleton (hL w (by simp))]
    cases L with
    | nil => rw [intercalate_singleton, hw]
    | cons w' L =>
      rw [intercalate_cons_cons, append_assoc, singleton_append,
        words_append_cons hsep, ih fun v hv => hL v (by simp [hv]), hw, ← filter_append]
      rfl

theorem words_intercalate_of_isWord {sep : α} (hsep : p sep = true) (hL : ∀ w ∈ L, IsWord p w) :
    words p ([sep].intercalate L) = L := by
  rw [words_intercalate hsep fun w hw => (hL w hw).noSeparator, filter_eq_self]
  intro w hw
  simpa using (hL w hw).ne_nil

/-- The pieces of a list and the separators between them make up the list. -/
theorem sum_length_splitOnP (s : List α) :
    ((s.splitOnP p).map fun w => w.length + 1).sum = s.length + 1 := by
  induction s using separator_induction (p := p) with
  | free s hs => simp [splitOnP_eq_singleton hs]
  | cut s c t hc ihs iht =>
    rw [splitOnP_append_cons s t hc, map_append, sum_append, length_append, length_cons]
    omega

theorem length_intercalate (sep : α) (hL : L ≠ []) :
    ([sep].intercalate L).length + 1 = (L.map fun w => w.length + 1).sum := by
  induction L with
  | nil => exact absurd rfl hL
  | cons w L ih =>
    cases L with
    | nil => simp
    | cons w' L =>
      rw [intercalate_cons_cons, length_append, length_append, map_cons,
        sum_cons, ← ih (by simp), length_singleton]
      omega

/-- Joined words are not longer than the list they are from. -/
theorem length_joined_words_le (sep : α) (s : List α) :
    ([sep].intercalate (words p s)).length ≤ s.length := by
  by_cases h : words p s = []
  · simp [h]
  · have hjoin := length_intercalate sep h
    have hsub : ((words p s).map fun w => w.length + 1).sum ≤ s.length + 1 := by
      rw [← sum_length_splitOnP (p := p) s]
      exact (filter_sublist.map _).sum_le_sum fun _ _ => Nat.zero_le _
    omega

theorem head?_intercalate (sep : α) (hw : w ≠ []) (L : List (List α)) :
    ([sep].intercalate (w :: L)).head? = w.head? := by
  obtain ⟨c, w, rfl⟩ := exists_cons_of_ne_nil hw
  cases L with
  | nil => rw [intercalate_singleton]
  | cons w' L =>
    rfl

theorem getLast?_intercalate (sep : α) (hw : w ≠ []) (L : List (List α)) :
    ([sep].intercalate (L ++ [w])).getLast? = w.getLast? := by
  induction L with
  | nil => rw [nil_append, intercalate_singleton]
  | cons v L ih =>
    obtain ⟨u, M, hM⟩ := exists_cons_of_ne_nil (concat_ne_nil w L)
    have hne : [sep].intercalate (L ++ [w]) ≠ [] := by
      intro h
      rw [h, getLast?_nil, eq_comm, getLast?_eq_none_iff] at ih
      exact hw ih
    rw [cons_append, hM, intercalate_cons_cons, ← hM, getLast?_append_of_ne_nil _ hne, ih]

/-- No two separators stand side by side. -/
def Spaced (p : α → Bool) (s : List α) : Prop := s.IsChain fun a b => p a = false ∨ p b = false

instance (s : List α) : Decidable (Spaced p s) :=
  inferInstanceAs (Decidable (s.IsChain fun a b => p a = false ∨ p b = false))

theorem spaced_of_noSeparator (h : ∀ c ∈ s, p c = false) : Spaced p s := by
  induction s with
  | nil => exact List.IsChain.nil
  | cons c s ih =>
    refine isChain_cons.2 ⟨fun d hd => .inl (h c (by simp)), ?_⟩
    exact ih fun d hd => h d (by simp [hd])

/-- No two separators stand side by side in joined words. -/
theorem spaced_intercalate (sep : α) (hL : ∀ w ∈ L, IsWord p w) :
    Spaced p ([sep].intercalate L) := by
  induction L with
  | nil => exact List.IsChain.nil
  | cons w L ih =>
    have hw := hL w (by simp)
    cases L with
    | nil =>
      rw [intercalate_singleton]
      exact spaced_of_noSeparator hw.noSeparator
    | cons w' L =>
      have hw' := hL w' (by simp)
      rw [intercalate_cons_cons, append_assoc, singleton_append]
      refine isChain_append.2 ⟨spaced_of_noSeparator hw.noSeparator, ?_, ?_⟩
      · refine isChain_cons.2 ⟨fun d hd => .inr ?_, ih fun v hv => hL v (by simp [hv])⟩
        rw [head?_intercalate sep hw'.ne_nil] at hd
        exact hw'.noSeparator d (mem_of_mem_head? hd)
      · intro c hc d hd
        exact .inl (hw.noSeparator c (mem_of_getLast? hc))

end Words
