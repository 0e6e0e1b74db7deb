import Feather.Sync.Push

/-!
# Cutting a collection into chunks

`chunks(withDistance:)` of `CollectionType+MPExtensions.swift`.  An iterator answers chunks until
`nil`; its index is moved on after each, to the end of the collection where the distance would pass
it.
-/

namespace Feather.Extensions

open Feather.Sync List Option

variable {α : Type} {self : List α} {distance fuel index : ℕ}

/-- `index(_:offsetBy:limitedBy:)`, forwards. -/
def indexOffsetBy (index distance limit : ℕ) : Option ℕ :=
  if index + distance ≤ limit then some (index + distance) else none

/-- One answer of the iterator, and the index it leaves. -/
def nextChunk (self : List α) (distance index : ℕ) : Option (List α) × ℕ :=
  let advanced := (indexOffsetBy index distance self.length).getD self.length
  (if index ≠ self.length then some ((self.drop index).take (advanced - index)) else none, advanced)

/-- `Array(iterator)`, with at most `fuel` answers. -/
def collect (self : List α) (distance : ℕ) : ℕ → ℕ → Option (List (List α))
  | 0, _ => none
  | fuel + 1, index =>
    match nextChunk self distance index with
    | (none, _) => some []
    | (some chunk, index) => (collect self distance fuel index).map (chunk :: ·)

/-- `chunks(withDistance:)` -/
def chunksWithDistance (fuel : ℕ) (self : List α) (distance : ℕ) : Option (List (List α)) :=
  collect self distance fuel 0

/-- The chunks are the collection in order; all are full but the last, which is not empty. -/
structure IsChunking (collection : List α) (distance : ℕ) (chunks : List (List α)) : Prop where
  flatten : chunks.flatten = collection
  full : ∀ chunk ∈ chunks.dropLast, chunk.length = distance
  last : ∀ chunk ∈ chunks.getLast?, 1 ≤ chunk.length ∧ chunk.length ≤ distance
  empty : collection = [] → chunks = []

theorem nextChunk_eq (h : index < self.length) :
    nextChunk self distance index =
      (some ((self.drop index).take distance), min (index + distance) self.length) := by
  simp only [nextChunk, indexOffsetBy, if_pos h.ne]
  split_ifs with hle
  · rw [getD_some, Nat.add_sub_cancel_left, Nat.min_eq_left hle]
  · -- the distance passes the end, and so does taking that many elements
    rw [getD_none, Nat.min_eq_right (by omega)]
    rw [take_of_length_le (by rw [length_drop]), take_of_length_le (by rw [length_drop]; omega)]

/-- The iterator answers the chunks of what is left. -/
theorem collect_eq_chunks (hd : 0 < distance) (bound : ℕ) (hindex : index ≤ self.length)
    (hbound : self.length - index ≤ bound) (hfuel : self.length - index < fuel) :
    collect self distance fuel index = some (chunksAux distance bound (self.drop index)) := by
  induction fuel generalizing index bound with
  | zero => omega
  | succ fuel ih =>
    rw [collect]
    obtain rfl | hlt := hindex.eq_or_lt
    · rw [drop_length]
      cases bound <;> simp [nextChunk, chunksAux]
    · obtain ⟨bound, rfl⟩ : ∃ k, bound = k + 1 := ⟨bound - 1, by omega⟩
      have hdrop : self.drop (min (index + distance) self.length) =
          (self.drop index).drop distance := by
        rw [drop_drop]
        obtain hle | hle := Nat.le_total (index + distance) self.length
        · rw [Nat.min_eq_left hle]
        · rw [Nat.min_eq_right hle, drop_length, drop_of_length_le hle]
      simp only [nextChunk_eq hlt]
      rw [ih bound (Nat.min_le_right _ _) (by omega) (by omega), hdrop]
      rw [drop_eq_getElem_cons hlt, chunksAux, map_some]

theorem chunksAux_ne_nil {bound : ℕ} {l : List α} (hl : l ≠ []) (hbound : l.length ≤ bound) :
    chunksAux distance bound l ≠ [] := by
  cases bound with
  | zero => exact absurd (length_eq_zero_iff.1 (Nat.le_zero.1 hbound)) hl
  | succ bound =>
    obtain ⟨x, l, rfl⟩ := exists_cons_of_ne_nil hl
    exact cons_ne_nil _ _

theorem isChunking_chunksAux (hd : 0 < distance) {bound : ℕ} {l : List α}
    (hbound : l.length ≤ bound) : IsChunking l distance (chunksAux distance bound l) := by
  induction bound generalizing l with
  | zero =>
    rw [length_eq_zero_iff.1 (Nat.le_zero.1 hbound)]
    exact ⟨rfl, by simp [chunksAux], by simp [chunksAux], fun _ => rfl⟩
  | succ bound ih =>
    cases l with
    | nil => exact ⟨rfl, by simp [chunksAux], by simp [chunksAux], fun _ => rfl⟩
    | cons x l =>
      have hrest := length_drop_le hd hbound
      refine ⟨flatten_chunksAux hd _ _ hbound, ?_, ?_, by simp⟩
      · intro chunk hchunk
        by_cases hnil : (x :: l).drop distance = []
        · rw [chunksAux, hnil, (ih (l := []) (Nat.zero_le bound)).empty rfl] at hchunk
          cases hchunk
        · rw [chunksAux, dropLast_cons_of_ne_nil (chunksAux_ne_nil hnil hrest)] at hchunk
          obtain rfl | hchunk := mem_cons.1 hchunk
          · rw [length_take, Nat.min_eq_left]
            by_contra hle
            exact hnil (drop_of_length_le (Nat.le_of_not_ge hle))
          · exact (ih hrest).full chunk hchunk
      · intro chunk hchunk
        by_cases hnil : (x :: l).drop distance = []
        · rw [chunksAux, hnil, (ih (l := []) (Nat.zero_le bound)).empty rfl] at hchunk
          rw [getLast?_singleton, mem_some_iff] at hchunk
          rw [← hchunk, length_take, length_cons]
          omega
        · rw [chunksAux, getLast?_cons_of_ne_nil (chunksAux_ne_nil hnil hrest)] at hchunk
          exact (ih hrest).last chunk hchunk

/-- The chunks partition the collection, and the iterator comes to its end. -/
theorem chunksWithDistance_partitions (self : List α) {distance : ℕ} (hd : 0 < distance) :
    ∃ chunks, IsChunking self distance chunks ∧
      ∀ fuel, self.length < fuel → chunksWithDistance fuel self distance = some chunks := by
  refine ⟨chunks distance self, isChunking_chunksAux hd le_rfl, fun fuel hfuel => ?_⟩
  exact collect_eq_chunks hd self.length (Nat.zero_le _) le_rfl hfuel

theorem chunksWithDistance_partitions_seven :
    ∃ chunks, IsChunking (range 7) 3 chunks ∧
      ∀ fuel, (range 7).length < fuel →
        chunksWithDistance fuel (range 7) 3 = some chunks :=
  chunksWithDistance_partitions (range 7) (by decide)

end Feather.Extensions
