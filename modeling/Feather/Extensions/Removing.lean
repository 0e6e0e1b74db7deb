import Feather.XML.Foundation

/-!
# Removing characters

`-removeCharactersInSet:` and `-stringByRemovingCharactersFromSet:` of `NSString+MPExtensions.m`.
The outer loop deletes one run of characters after another.  A range outside the string raises:
`none`.
-/

namespace Feather.Extensions

open Feather.XML List Option

variable {set : Unichar → Bool} {s front rest : NSString} {n fuel : ℕ}

/-- `-rangeOfCharacterFromSet:options:range:`, the location if there is one. -/
def rangeOfCharacterFromSet (set : Unichar → Bool) (s : NSString) (location length : ℕ) :
    Option (Option ℕ) :=
  if location + length ≤ s.length then
    some ((((s.drop location).take length).findIdx? set).map (location + ·))
  else none

/-- `-deleteCharactersInRange:` -/
def deleteCharactersInRange (s : NSString) (location length : ℕ) : Option NSString :=
  if location + length ≤ s.length then some (s.take location ++ s.drop (location + length)) else none

/-- `for(;;)`: the length of the run and the next match behind it. -/
def extendRun (set : Unichar → Bool) (s : NSString) (location replaceLength : ℕ) :
    ℕ → Option (ℕ × Option ℕ)
  | 0 => (rangeOfCharacterFromSet set s location 0).map fun found => (replaceLength, found)
  | length + 1 =>
    match rangeOfCharacterFromSet set s location (length + 1) with
    | none => none
    | some none => some (replaceLength, none)
    | some (some found) =>
      if found ≠ location then some (replaceLength, some found)
      else extendRun set s (location + 1) (replaceLength + 1) length

/-- `while(matchRange.length > 0)`, at most `fuel` times. -/
def removeRuns (set : Unichar → Bool) : ℕ → NSString → ℕ → Option ℕ → Option NSString
  | _, s, _, none => some s
  | 0, _, _, some _ => none
  | fuel + 1, s, length, some location => do
    let (replaceLength, found) ← extendRun set s (location + 1) 1 (length - (location + 1))
    let s ← deleteCharactersInRange s location replaceLength
    removeRuns set fuel s (length - replaceLength) (found.map (· - replaceLength))

/-- `-removeCharactersInSet:` -/
def removeCharactersInSet (set : Unichar → Bool) (fuel : ℕ) (s : NSString) : Option NSString := do
  let found ← rangeOfCharacterFromSet set s 0 s.length
  removeRuns set fuel s s.length found

/-- `-stringByRemovingCharactersFromSet:` -/
def stringByRemovingCharactersFromSet (set : Unichar → Bool) (fuel : ℕ) (s : NSString) :
    Option NSString :=
  if s.findIdx? set = none then some s else removeCharactersInSet set fuel s

theorem rangeOfCharacterFromSet_append (front rest : NSString) :
    rangeOfCharacterFromSet set (front ++ rest) front.length rest.length =
      some ((rest.findIdx? set).map (front.length + ·)) := by
  simp [rangeOfCharacterFromSet]

theorem exists_extendRun (front rest : NSString) (n : ℕ) :
    ∃ run rest', rest = run ++ rest' ∧ (∀ c ∈ run, set c = true) ∧
      extendRun set (front ++ rest) front.length n rest.length =
        some (n + run.length, (rest'.findIdx? set).map (front.length + run.length + ·)) := by
  induction rest generalizing front n with
  | nil => exact ⟨[], [], rfl, nofun, by simp [extendRun, rangeOfCharacterFromSet]⟩
  | cons c rest ih =>
    have hrange := @rangeOfCharacterFromSet_append set front (c :: rest)
    rw [length_cons, findIdx?_cons] at hrange
    rw [length_cons, extendRun, hrange]
    cases hc : set c with
    | true =>
      obtain ⟨run, rest', rfl, hrun, hnext⟩ := ih (front ++ [c]) (n + 1)
      rw [append_assoc, singleton_append, length_append, length_singleton] at hnext
      refine ⟨c :: run, rest', rfl, forall_mem_cons.2 ⟨hc, hrun⟩, ?_⟩
      simp only [if_true, map_some, Nat.add_zero, ne_eq, not_true, if_false]
      have hlen : (c :: run).length = 1 + run.length := by rw [length_cons, Nat.add_comm]
      rw [hnext, hlen, ← Nat.add_assoc n, ← Nat.add_assoc front.length]
    | false =>
      refine ⟨[], c :: rest, rfl, nofun, ?_⟩
      rw [findIdx?_cons, hc]
      cases rest.findIdx? set <;> simp

/-- The string in front of a match, the match and what follows it. -/
theorem exists_of_findIdx? {k : ℕ} (h : rest.findIdx? set = some k) :
    ∃ pre c tail, rest = pre ++ c :: tail ∧ k = pre.length ∧ set c = true ∧
      ∀ d ∈ pre, set d = false := by
  obtain ⟨hk, hset, hpre⟩ := findIdx?_eq_some_iff_getElem.1 h
  refine ⟨rest.take k, rest[k], rest.drop (k + 1), by simp, by simp; omega, hset, fun d hd => ?_⟩
  obtain ⟨j, hj, rfl⟩ := mem_iff_getElem.1 hd
  rw [length_take, Nat.lt_min] at hj
  simpa using hpre j hj.1

theorem deleteCharactersInRange_run (front run rest : NSString) (c : Unichar) :
    deleteCharactersInRange (front ++ c :: (run ++ rest)) front.length (1 + run.length) =
      some (front ++ rest) := by
  have hdrop : (c :: (run ++ rest)).drop (1 + run.length) = rest := by
    rw [Nat.add_comm, drop_succ_cons, drop_left]
  rw [deleteCharactersInRange, if_pos (by simp; omega), take_left, drop_append,
    drop_of_length_le (by omega), nil_append, Nat.add_sub_cancel_left, hdrop]

/-- One pass of the outer loop deletes the run that begins with the match. -/
theorem removeRuns_match (front tail : NSString) {c : Unichar} (hc : set c = true) (fuel : ℕ) :
    ∃ rest', rest'.length ≤ tail.length ∧ rest'.filter (!set ·) = (c :: tail).filter (!set ·) ∧
      removeRuns set (fuel + 1) (front ++ c :: tail) (front ++ c :: tail).length
          (some front.length) =
        removeRuns set fuel (front ++ rest') (front ++ rest').length
          ((rest'.findIdx? set).map (front.length + ·)) := by
  obtain ⟨run, rest', rfl, hrun, hext⟩ := @exists_extendRun set (front ++ [c]) tail 1
  have hgone : run.filter (!set ·) = [] := filter_eq_nil_iff.2 fun d hd => by simp [hrun d hd]
  refine ⟨rest', by simp, by simp [hc, hgone], ?_⟩
  have hlen : (front ++ c :: (run ++ rest')).length - (front.length + 1) =
      (run ++ rest').length := by
    simp
    omega
  have hlen' : (front ++ c :: (run ++ rest')).length - (1 + run.length) =
      (front ++ rest').length := by
    simp
    omega
  have hmap : ((rest'.findIdx? set).map (front.length + 1 + run.length + ·)).map
      (· - (1 + run.length)) = (rest'.findIdx? set).map (front.length + ·) := by
    rw [Option.map_map]
    congr 1
    funext j
    simp
    omega
  rw [append_assoc, singleton_append, length_append, length_singleton] at hext
  rw [removeRuns, hlen, hext]
  simp only [bind_eq_bind, bind_some]
  rw [deleteCharactersInRange_run, bind_some, hlen', hmap]

/-- What is in front of the match stays, and every run behind it is deleted. -/
theorem removeRuns_append (hfuel : rest.length ≤ fuel) :
    removeRuns set fuel (front ++ rest) (front ++ rest).length
      ((rest.findIdx? set).map (front.length + ·)) = some (front ++ rest.filter (!set ·)) := by
  induction fuel generalizing front rest with
  | zero =>
    obtain rfl := eq_nil_of_length_eq_zero (Nat.le_zero.1 hfuel)
    simp [removeRuns]
  | succ fuel ih =>
    cases hfind : rest.findIdx? set with
    | none =>
      have hnone : ∀ c ∈ rest, set c = false := findIdx?_eq_none_iff.1 hfind
      rw [map_none, removeRuns, filter_eq_self.2 fun c hc => by rw [hnone c hc]; rfl]
    | some k =>
      obtain ⟨pre, c, tail, rfl, rfl, hc, hpre⟩ := exists_of_findIdx? hfind
      obtain ⟨rest', hle, hsame, hpass⟩ := removeRuns_match (front ++ pre) tail hc fuel
      have hkept : pre.filter (!set ·) = pre := filter_eq_self.2 fun d hd => by simp [hpre d hd]
      rw [length_append, length_cons] at hfuel
      rw [map_some, ← append_assoc, ← length_append, hpass, ih (by omega), hsame, filter_append,
        hkept, append_assoc]

/-- The loops end, and the characters not in the set are left in order. -/
theorem removeCharactersInSet_eq (set : Unichar → Bool) (s : NSString) (more : ℕ) :
    removeCharactersInSet set (s.length + more) s = some (s.filter (!set ·)) ∧
      stringByRemovingCharactersFromSet set (s.length + more) s = some (s.filter (!set ·)) := by
  have hremove : removeCharactersInSet set (s.length + more) s = some (s.filter (!set ·)) := by
    have hrange := @rangeOfCharacterFromSet_append set [] s
    have hruns := @removeRuns_append set [] s _ (Nat.le_add_right s.length more)
    rw [removeCharactersInSet, show rangeOfCharacterFromSet set s 0 s.length = _ from hrange]
    exact hruns
  refine ⟨hremove, ?_⟩
  rw [stringByRemovingCharactersFromSet]
  split_ifs with hnone
  · rw [filter_eq_self.2 fun c hc => by rw [findIdx?_eq_none_iff.1 hnone c hc]; rfl]
  · exact hremove

end Feather.Extensions
