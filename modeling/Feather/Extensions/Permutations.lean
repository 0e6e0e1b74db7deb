import Feather.Order.Arrangements
import Feather.Program.Run

/-!
# All permutations of an array

`allPermutations` fills a buffer with the indexes of an array and lets `pc_next_permutation` put it
into the next order until there is none.  The search loops there have no bound of their own: where
the indexes are descending, the first compares the word in front of the buffer.  That word is read
if there is one; any other access outside the buffer is a fault.
-/

namespace Feather.Extensions

open Program Arrangements List

variable {A l : List ℤ} {k x y i : ℤ} {fuel n : ℕ}

/-! ### Memory -/

/-- The memory that `allPermutations` works on. -/
structure Memory where
  /-- The words `p[0]`, `p[1]`, … of the index buffer. -/
  buffer : List ℤ
  /-- The word `p[-1]`, unless it cannot be read. -/
  before : Option ℤ
  /-- The positions read and written so far. -/
  accesses : List ℤ
  /-- How often the buffer was freed. -/
  freed : ℕ
  deriving DecidableEq, Repr

/-- How it may end before its time. -/
inductive Fault
  /-- An access outside the buffer that does not return. -/
  | access (position : ℤ)
  /-- `NSRangeException` -/
  | range (index : ℤ)
  deriving DecidableEq, Repr

namespace Memory

/-- Before the buffer is allocated. -/
def initial : Memory := ⟨[], none, [], 0⟩

/-- A word at a position. -/
def word (s : Memory) (k : ℤ) : Option ℤ :=
  if 0 ≤ k then s.buffer[k.toNat]? else if k = -1 then s.before else none

/-- The memory after the accesses `log`. -/
def touched (s : Memory) (log : List ℤ) : Memory := { s with accesses := s.accesses ++ log }

@[simp] theorem touched_nil (s : Memory) : s.touched [] = s := by simp [touched]

@[simp] theorem touched_touched (s : Memory) (log log' : List ℤ) :
    (s.touched log).touched log' = s.touched (log ++ log') := by
  simp [touched]

@[simp] theorem buffer_touched (s : Memory) (log : List ℤ) : (s.touched log).buffer = s.buffer := rfl

@[simp] theorem before_touched (s : Memory) (log : List ℤ) : (s.touched log).before = s.before := rfl

@[simp] theorem freed_touched (s : Memory) (log : List ℤ) : (s.touched log).freed = s.freed := rfl

/-- The memory with other words in the buffer. -/
def withBuffer (s : Memory) (buffer : List ℤ) : Memory := { s with buffer := buffer }

@[simp] theorem buffer_withBuffer (s : Memory) (b : List ℤ) : (s.withBuffer b).buffer = b := rfl

@[simp] theorem before_withBuffer (s : Memory) (b : List ℤ) : (s.withBuffer b).before = s.before :=
  rfl

@[simp] theorem freed_withBuffer (s : Memory) (b : List ℤ) : (s.withBuffer b).freed = s.freed := rfl

@[simp] theorem withBuffer_withBuffer (s : Memory) (b b' : List ℤ) :
    (s.withBuffer b).withBuffer b' = s.withBuffer b' := rfl

@[simp] theorem withBuffer_touched (s : Memory) (b log : List ℤ) :
    (s.touched log).withBuffer b = (s.withBuffer b).touched log := rfl

@[simp] theorem withBuffer_buffer (s : Memory) : s.withBuffer s.buffer = s := rfl

@[simp] theorem word_natCast (s : Memory) (k : ℕ) : s.word k = s.buffer[k]? := by simp [word]

theorem word_add {s : Memory} {T : List ℤ} (hs : s.buffer = A ++ T) (j : ℕ)
    (hk : k = A.length + j) : s.word k = T[j]? := by
  rw [hk, ← Nat.cast_add, word_natCast, hs, getElem?_append_right (Nat.le_add_right ..),
    Nat.add_sub_cancel_left]

@[simp] theorem word_neg_one (s : Memory) : s.word (-1) = s.before := by simp [word]

end Memory

/-- What `malloc` hands out: words not initialized, with maybe a word in front. -/
structure Block where
  contents : ℕ → ℤ
  before : Option ℤ

/-- `malloc` -/
def malloc (block : Block) (count : ℕ) : Prog Memory Fault PUnit :=
  modify fun s =>
    { s with buffer := (range count).map block.contents, before := block.before }

/-- `p[k]` -/
def read (k : ℤ) : Prog Memory Fault ℤ := do
  let s ← get
  match s.word k with
  | some v => do
    set (s.touched [k])
    pure v
  | none => throw (.access k)

/-- `p[k] = v` -/
def write (k v : ℤ) : Prog Memory Fault PUnit := do
  let s ← get
  if 0 ≤ k ∧ k < s.buffer.length then
    set ((s.withBuffer (s.buffer.set k.toNat v)).touched [k])
  else throw (.access k)

/-! ### `pc_next_permutation` -/

/-- `for (k = start; test(k); --k) { }` -/
def slideDownStep (test : ℤ → Prog Memory Fault Bool) (k : ℤ) : Prog Memory Fault (ℤ ⊕ ℤ) := do
  if ← test k then pure (.inl (k - 1)) else pure (.inr k)

/-- `p[i] >= p[i + 1]` -/
def atLeastNext (i : ℤ) : Prog Memory Fault Bool := do
  let x ← read i
  let y ← read (i + 1)
  pure (decide (x ≥ y))

/-- `p[j] <= p[i]` -/
def atMost (i j : ℤ) : Prog Memory Fault Bool := do
  let x ← read j
  let y ← read i
  pure (decide (x ≤ y))

/-- `tmp = p[i]; p[i] = p[j]; p[j] = tmp;` -/
def swap (i j : ℤ) : Prog Memory Fault PUnit := do
  let tmp ← read i
  let x ← read j
  write i x
  write j tmp

/-- `for (…; i < j; ++i, --j)`, swapping the ends. -/
def reverseStep : ℤ × ℤ → Prog Memory Fault (ℤ × ℤ ⊕ PUnit)
  | (i, j) =>
    if i < j then do
      swap i j
      pure (.inl (i + 1, j - 1))
    else pure (.inr ⟨⟩)

/-- `pc_next_permutation`: whether the pointer it returns is not `NULL`. -/
def pcNextPermutation (fuel : ℕ) (size : ℤ) : Prog Memory Fault Bool := do
  -- slide down the array looking for where we're smaller than the next guy
  let i ← loop (slideDownStep atLeastNext) fuel (size - 1)
  if i = -1 then pure false
  else do
    -- slide down the array looking for a bigger number than what we found before
    let j ← loop (slideDownStep (atMost i)) fuel size
    swap i j
    loop reverseStep fuel (i + 1, size)
    pure true

/-! ### `-allPermutations` -/

variable {α : Type}

/-- `for (idx = 0; idx < size; ++idx) perm[idx] = idx;` -/
def fillStep (size idx : ℤ) : Prog Memory Fault (ℤ ⊕ PUnit) :=
  if idx < size then do
    write idx idx
    pure (.inl (idx + 1))
  else pure (.inr ⟨⟩)

/-- `-objectAtIndex:` -/
def objectAtIndex (self : List α) (k : ℤ) : Prog Memory Fault α :=
  if 0 ≤ k then
    match self[k.toNat]? with
    | some object => pure object
    | none => throw (.range k)
  else throw (.range k)

/-- `for (i = 0; i <= size; ++i) [newPerm addObject:[self objectAtIndex:perm[i]]];` -/
def newPermStep (self : List α) (size : ℤ) :
    List α × ℤ → Prog Memory Fault (List α × ℤ ⊕ List α)
  | (newPerm, i) =>
    if i ≤ size then do
      let object ← objectAtIndex self (← read i)
      pure (.inl (newPerm ++ [object], i + 1))
    else pure (.inr newPerm)

/-- One pass of the `do` loop, with the permutations found and the counter `j`.  That counts the
permutations, which are in memory, so that as an `NSInteger` it does not overflow. -/
def allPermutationsStep (fuel : ℕ) (self : List α) (size : ℤ) :
    List (List α) × ℤ → Prog Memory Fault (List (List α) × ℤ ⊕ List (List α))
  | (perms, j) => do
    let newPerm ← loop (newPermStep self size) fuel ([], 0)
    let perms := perms ++ [newPerm]
    if ← pcNextPermutation fuel size then
      if j + 1 ≠ 0 then pure (.inl (perms, j + 1)) else pure (.inr perms)
    else pure (.inr perms)

/-- `-allPermutations` -/
def allPermutations (block : Block) (fuel : ℕ) (self : List α) :
    Prog Memory Fault (List (List α)) := do
  let size := self.length
  if size = 0 then pure []
  else do
    malloc block size
    loop (fillStep size) fuel 0
    loop (allPermutationsStep fuel self ((size : ℤ) - 1)) fuel ([], 0)

/-! ### Single accesses -/

section Accesses

variable {s : Memory} {k v : ℤ}

theorem exec_read (h : s.word k = some v) : exec (read k) s = some (.ok (v, s.touched [k])) := by
  simp [read, h]

theorem exec_read_fault (h : s.word k = none) : exec (read k) s = some (.error (.access k)) := by
  simp [read, h]

theorem exec_write {k : ℕ} (h : k < s.buffer.length) :
    exec (write k v) s = some (.ok (⟨⟩, (s.withBuffer (s.buffer.set k v)).touched [(k : ℤ)])) := by
  simp [write, h]

theorem exec_atLeastNext (hx : s.word k = some x) (hy : s.word (k + 1) = some y) :
    exec (atLeastNext k) s = some (.ok (decide (x ≥ y), s.touched [k, k + 1])) := by
  simp [atLeastNext, exec_read hx, exec_read (s := s.touched [k]) hy]

theorem exec_atMost (hx : s.word k = some x) (hy : s.word i = some y) :
    exec (atMost i k) s = some (.ok (decide (x ≤ y), s.touched [k, i])) := by
  simp [atMost, exec_read hx, exec_read (s := s.touched [k]) hy]

end Accesses

/-! ### The search loops -/

section Slide

variable {s : Memory} {test : ℤ → Prog Memory Fault Bool} {p : ℤ} {d : ℕ}

/-- The test at `k`, whatever was accessed before, answers `b` and changes no word. -/
def Answers (s : Memory) (test : ℤ → Prog Memory Fault Bool) (k : ℤ) (b : Bool) : Prop :=
  ∀ log, ∃ log', exec (test k) (s.touched log) = some (.ok (b, s.touched (log ++ k :: log')))

theorem exec_slideDownStep {b : Bool} {t t' : Memory} (h : exec (test k) t = some (.ok (b, t'))) :
    exec (slideDownStep test k) t = some (.ok (if b then .inl (k - 1) else .inr k, t')) := by
  cases b <;> simp [slideDownStep, h]

/-- A search goes down as long as the test holds. -/
theorem exec_slideDown_go (fuel : ℕ) (hgo : ∀ k, p < k → k ≤ p + d → Answers s test k true)
    (log : List ℤ) :
    ∃ log', exec (loop (slideDownStep test) (fuel + d) (p + d)) (s.touched log) =
      exec (loop (slideDownStep test) fuel p) (s.touched log') := by
  induction d generalizing log with
  | zero => exact ⟨log, by simp⟩
  | succ d ih =>
    obtain ⟨log', htest⟩ := hgo (p + (d + 1 : ℕ)) (by omega) le_rfl log
    obtain ⟨log'', hrest⟩ := ih (fun k hk hle => hgo k hk (by omega)) (log ++ (p + (d + 1 : ℕ)) :: log')
    refine ⟨log'', ?_⟩
    have hdown : p + ((d + 1 : ℕ) : ℤ) - 1 = p + d := by omega
    rw [← add_assoc, exec_loop_next (exec_slideDownStep htest), hdown, hrest]

theorem exec_slideDown (fuel : ℕ) (hgo : ∀ k, p < k → k ≤ p + d → Answers s test k true)
    (hstop : Answers s test p false) (log : List ℤ) :
    ∃ log', exec (loop (slideDownStep test) (fuel + 1 + d) (p + d)) (s.touched log) =
      some (.ok (p, s.touched log')) := by
  obtain ⟨log1, hrun⟩ := exec_slideDown_go (fuel + 1) hgo log
  obtain ⟨log2, htest⟩ := hstop log1
  refine ⟨log1 ++ p :: log2, ?_⟩
  rw [hrun, exec_loop_done (exec_slideDownStep htest)]

theorem answers_atLeastNext (hx : s.word k = some x) (hy : s.word (k + 1) = some y) :
    Answers s atLeastNext k (decide (x ≥ y)) := by
  intro log
  refine ⟨[k + 1], ?_⟩
  rw [exec_atLeastNext (s := s.touched log) hx hy, Memory.touched_touched]

theorem answers_atMost (hx : s.word k = some x) (hy : s.word i = some y) :
    Answers s (atMost i) k (decide (x ≤ y)) := by
  intro log
  refine ⟨[i], ?_⟩
  rw [exec_atMost (s := s.touched log) hx hy, Memory.touched_touched]

end Slide

/-! ### Swapping and reversing -/

section Swap

variable {s : Memory}

theorem exec_swap_of_getElem? {i j : ℕ} (hi : s.buffer[i]? = some x) (hj : s.buffer[j]? = some y) :
    exec (swap i j) s = some (.ok (⟨⟩, (s.withBuffer ((s.buffer.set i y).set j x)).touched
      [(i : ℤ), j, i, j])) := by
  obtain ⟨hilt, -⟩ := List.getElem?_eq_some_iff.1 hi
  obtain ⟨hjlt, -⟩ := List.getElem?_eq_some_iff.1 hj
  have hx : s.word i = some x := by simpa using hi
  have hy : (s.touched [(i : ℤ)]).word j = some y := by simpa using hj
  unfold swap
  rw [exec_bind, exec_read hx, andThen_ok, exec_bind, exec_read hy, andThen_ok, exec_bind,
    exec_write (by simpa using hilt), andThen_ok, exec_write (by simpa using hjlt)]
  simp

theorem exec_swap {B C : List ℤ} (hs : s.buffer = A ++ x :: (B ++ y :: C)) :
    ∃ log, exec (swap A.length (A.length + B.length + 1 : ℕ)) s =
      some (.ok (⟨⟩, (s.withBuffer (A ++ y :: (B ++ x :: C))).touched log)) := by
  have hx : s.buffer[A.length]? = some x := by simp [hs]
  have hy : s.buffer[A.length + B.length + 1]? = some y := by
    rw [hs, getElem?_append_right (by omega)]
    simp [show A.length + B.length + 1 - A.length = B.length + 1 by omega]
  have hset : (s.buffer.set A.length y).set (A.length + B.length + 1) x =
      A ++ y :: (B ++ x :: C) := by
    rw [hs, set_append_right _ _ le_rfl, set_append_right _ _ (by omega)]
    simp [show A.length + B.length + 1 - A.length = B.length + 1 by omega]
  exact ⟨_, by rw [exec_swap_of_getElem? hx hy, hset]⟩

theorem exec_reverse_done {j : ℤ} (h : ¬ i < j) :
    exec (loop reverseStep (fuel + 1) (i, j)) s = some (.ok (⟨⟩, s)) := by
  apply exec_loop_done
  rw [reverseStep, if_neg h, exec_pure]

/-- The loop reverses what stands between its two positions. -/
theorem exec_reverse (M : List ℤ) (fuel : ℕ) {C : List ℤ} (hs : s.buffer = A ++ (M ++ C))
    (hfuel : M.length ≤ fuel) :
    ∃ log, exec (loop reverseStep (fuel + 1) ((A.length : ℤ), (A.length : ℤ) + M.length - 1)) s =
      some (.ok (⟨⟩, (s.withBuffer (A ++ (M.reverse ++ C))).touched log)) := by
  induction M using bidirectionalRec generalizing A C s fuel with
  | nil =>
    refine ⟨[], ?_⟩
    rw [exec_reverse_done (by simp)]
    simpa using congrArg s.withBuffer hs
  | singleton x =>
    refine ⟨[], ?_⟩
    rw [exec_reverse_done (by simp)]
    simpa using congrArg s.withBuffer hs
  | cons_append x M y ih =>
    obtain ⟨fuel, rfl⟩ : ∃ k, fuel = k + 1 := by
      refine ⟨fuel - 1, ?_⟩
      simp at hfuel
      omega
    obtain ⟨log, hswap⟩ := exec_swap (s := s) (A := A) (B := M) (C := C) (x := x) (y := y)
      (by simpa using hs)
    have hlast : (A.length : ℤ) + (x :: (M ++ [y])).length - 1 = (A.length + M.length + 1 : ℕ) := by
      simp
      omega
    have hstep : exec (reverseStep ((A.length : ℤ), ((A.length + M.length + 1 : ℕ) : ℤ))) s =
        some (.ok (.inl ((A.length : ℤ) + 1, ((A.length + M.length + 1 : ℕ) : ℤ) - 1),
          (s.withBuffer (A ++ y :: (M ++ x :: C))).touched log)) := by
      rw [reverseStep, if_pos (by omega), exec_bind, hswap]
      rfl
    obtain ⟨log', hrest⟩ := ih fuel (A := A ++ [y]) (C := x :: C)
      (s := (s.withBuffer (A ++ y :: (M ++ x :: C))).touched log) (by simp) (by simp at hfuel; omega)
    rw [hlast, exec_loop_next hstep]
    have hbou : ((A.length : ℤ) + 1, ((A.length + M.length + 1 : ℕ) : ℤ) - 1) =
        (((A ++ [y]).length : ℤ), ((A ++ [y]).length : ℤ) + M.length - 1) := by
      ext
      · simp
      · simp
        omega
    rw [hbou, hrest]
    simp

end Swap

/-! ### The next permutation -/

section Next

variable {s : Memory} {fuel : ℕ}

/-- Two words side by side in a descending part of the buffer. -/
theorem answers_atLeastNext_of_descending {T : List ℤ} (hs : s.buffer = A ++ T)
    (hdesc : T.Pairwise (· ≥ ·)) (hlow : A.length ≤ k) (hhigh : k + 1 < (A ++ T).length) :
    Answers s atLeastNext k true := by
  obtain ⟨j, rfl⟩ : ∃ j : ℕ, k = A.length + j := ⟨(k - A.length).toNat, by omega⟩
  have hj : j + 1 < T.length := by
    rw [length_append] at hhigh
    omega
  have hx : s.word (A.length + j) = some T[j] := by
    rw [Memory.word_add hs j rfl, getElem?_eq_getElem]
  have hy : s.word (A.length + j + 1) = some T[j + 1] := by
    rw [Memory.word_add hs (j + 1) (by push_cast; ring), getElem?_eq_getElem hj]
  have hge : T[j] ≥ T[j + 1] := pairwise_iff_getElem.1 hdesc j (j + 1) (by omega) hj (by omega)
  simpa [hge] using answers_atLeastNext hx hy

theorem exec_pivot {P D E : List ℤ} {a b : ℤ} (hs : s.buffer = P ++ a :: (D ++ b :: E))
    (hdesc : (D ++ b :: E).Pairwise (· ≥ ·)) (hab : a < b) (hfuel : s.buffer.length ≤ fuel) :
    ∃ log, exec (loop (slideDownStep atLeastNext) fuel ((s.buffer.length : ℤ) - 1 - 1)) s =
      some (.ok ((P.length : ℤ), s.touched log)) := by
  have hlen : s.buffer.length = P.length + D.length + E.length + 2 := by
    rw [hs]
    simp
    omega
  have hstop : Answers s atLeastNext P.length false := by
    obtain ⟨x, T, hT, hx⟩ : ∃ x T, D ++ b :: E = x :: T ∧ a < x := by
      cases D with
      | nil => exact ⟨b, E, rfl, hab⟩
      | cons x D =>
        have hbx : x ≥ b := (pairwise_cons.1 hdesc).1 b (by simp)
        exact ⟨x, D ++ b :: E, rfl, hab.trans_le hbx⟩
    rw [hT] at hs
    have ha : s.word P.length = some a := Memory.word_add hs 0 (by simp)
    have hnext : s.word (P.length + 1) = some x := Memory.word_add hs 1 (by simp)
    simpa [hx.not_ge] using answers_atLeastNext ha hnext
  have hgo : ∀ k : ℤ, P.length < k → k ≤ P.length + (D.length + E.length : ℕ) →
      Answers s atLeastNext k true := by
    intro k hlow hhigh
    refine answers_atLeastNext_of_descending (A := P ++ [a]) (T := D ++ b :: E) (by simpa using hs)
      hdesc ?_ ?_
    · simp
      omega
    · simp
      omega
  obtain ⟨log, hrun⟩ := exec_slideDown (fuel - (D.length + E.length) - 1) hgo hstop []
  refine ⟨log, ?_⟩
  rw [Memory.touched_nil] at hrun
  rw [← hrun]
  congr 2
  · omega
  · omega

/-- The search from the end stops at the last word above the pivot. -/
theorem exec_successor {P D E : List ℤ} {a b : ℤ} (hs : s.buffer = P ++ a :: (D ++ b :: E))
    (hab : a < b) (hE : ∀ x ∈ E, x ≤ a) (hfuel : s.buffer.length ≤ fuel) :
    ∃ log, exec (loop (slideDownStep (atMost P.length)) fuel ((s.buffer.length : ℤ) - 1)) s =
      some (.ok (((P.length + D.length + 1 : ℕ) : ℤ), s.touched log)) := by
  have hlen : s.buffer.length = P.length + D.length + E.length + 2 := by
    rw [hs]
    simp
    omega
  have ha : s.word P.length = some a := Memory.word_add hs 0 (by simp)
  have hs' : s.buffer = (P ++ a :: D) ++ b :: E := by simpa using hs
  have hstop : Answers s (atMost P.length) (P.length + D.length + 1 : ℕ) false := by
    have hb : s.word (P.length + D.length + 1 : ℕ) = some b :=
      Memory.word_add hs' 0 (by simp; ring)
    simpa [hab.not_ge] using answers_atMost hb ha
  have hgo : ∀ k : ℤ, (P.length + D.length + 1 : ℕ) < k →
      k ≤ (P.length + D.length + 1 : ℕ) + (E.length : ℕ) → Answers s (atMost P.length) k true := by
    intro k hlow hhigh
    obtain ⟨j, rfl⟩ : ∃ j : ℕ, k = (P.length + D.length + 1 : ℕ) + (j + 1 : ℕ) :=
      ⟨(k - (P.length + D.length + 1 : ℕ) - 1).toNat, by omega⟩
    have hj : j < E.length := by omega
    have hx : s.word ((P.length + D.length + 1 : ℕ) + (j + 1 : ℕ)) = some E[j] := by
      rw [Memory.word_add hs' (j + 1) (by simp; ring), getElem?_cons_succ,
        getElem?_eq_getElem]
    simpa only [hE E[j] (getElem_mem hj), decide_true] using answers_atMost hx ha
  obtain ⟨log, hrun⟩ := exec_slideDown (fuel - E.length - 1) hgo hstop []
  refine ⟨log, ?_⟩
  rw [Memory.touched_nil] at hrun
  rw [← hrun]
  congr 2
  · omega
  · omega

/-- Where there is a next permutation, it is put into the buffer. -/
theorem exec_pcNextPermutation {m : List ℤ} (hstep : Step l m) (hs : s.buffer = l)
    (hfuel : l.length ≤ fuel) :
    ∃ log, exec (pcNextPermutation fuel ((l.length : ℤ) - 1)) s =
      some (.ok (true, (s.withBuffer m).touched log)) := by
  obtain ⟨P, D, E, a, b, hdesc, hab, hE⟩ := hstep
  rw [← hs] at hfuel ⊢
  obtain ⟨log1, hpiv⟩ := exec_pivot hs hdesc hab hfuel
  obtain ⟨log2, hsuc⟩ := exec_successor (s := s.touched log1) hs hab hE hfuel
  rw [Memory.buffer_touched] at hsuc
  obtain ⟨log3, hswap⟩ := exec_swap (s := (s.touched log1).touched log2) hs
  have hrev := exec_reverse (D ++ a :: E) (fuel - 1) (A := P ++ [b]) (C := [])
    (s := ((((s.touched log1).touched log2).withBuffer (P ++ b :: (D ++ a :: E))).touched log3))
    (by simp) (by simp [hs] at hfuel ⊢; omega)
  obtain ⟨log4, hrev⟩ := hrev
  have hbou : (((P ++ [b]).length : ℤ), ((P ++ [b]).length : ℤ) + (D ++ a :: E).length - 1) =
      ((P.length : ℤ) + 1, (s.buffer.length : ℤ) - 1) := by
    ext
    · simp
    · simp [hs]
      ring
  have hpos : fuel - 1 + 1 = fuel := by
    have : 0 < s.buffer.length := by simp [hs]
    omega
  rw [hbou, hpos] at hrev
  unfold pcNextPermutation
  rw [exec_bind, hpiv, andThen_ok, if_neg (by omega), exec_bind, hsuc, andThen_ok,
    exec_bind, hswap, andThen_ok, exec_bind, hrev]
  simp

/-- In a descending buffer the search for the pivot comes to the word in front. -/
theorem exec_pivot_go (hs : s.buffer = l) (hne : l ≠ []) (hdesc : l.Pairwise (· ≥ ·))
    (hfuel : l.length ≤ fuel) :
    ∃ log, exec (loop (slideDownStep atLeastNext) fuel ((l.length : ℤ) - 1 - 1)) s =
      exec (loop (slideDownStep atLeastNext) (fuel - l.length + 1) (-1)) (s.touched log) := by
  have hgo : ∀ k : ℤ, -1 < k → k ≤ -1 + ((l.length - 1 : ℕ) : ℤ) → Answers s atLeastNext k true := by
    intro k hlow hhigh
    refine answers_atLeastNext_of_descending (A := []) (T := l) (by simpa using hs) hdesc ?_ ?_
    · simp
      omega
    · simp
      omega
  have hpos := length_pos_iff.2 hne
  obtain ⟨log, hrun⟩ := exec_slideDown_go (fuel - l.length + 1) hgo []
  refine ⟨log, ?_⟩
  rw [Memory.touched_nil] at hrun
  rw [← hrun]
  congr 2
  · omega
  · omega

/-- The last permutation is recognized by the word in front of the buffer. -/
theorem exec_pcNextPermutation_last {v : ℤ} (hs : s.buffer = x :: l)
    (hdesc : (x :: l).Pairwise (· ≥ ·)) (hfuel : (x :: l).length ≤ fuel) (hv : s.before = some v)
    (hvx : v < x) :
    ∃ log, -1 ∈ log ∧ exec (pcNextPermutation fuel (((x :: l).length : ℤ) - 1)) s =
      some (.ok (false, s.touched log)) := by
  obtain ⟨log, hgo⟩ := exec_pivot_go hs (cons_ne_nil x l) hdesc hfuel
  have hfro : s.word (-1) = some v := by simpa using hv
  have hfst : s.word (-1 + 1) = some x := by simp [Memory.word, hs]
  obtain ⟨log', hstop⟩ := answers_atLeastNext hfro hfst log
  rw [decide_eq_false hvx.not_ge] at hstop
  refine ⟨log ++ -1 :: log', by simp, ?_⟩
  unfold pcNextPermutation
  rw [exec_bind, hgo, exec_loop_done (exec_slideDownStep hstop)]
  rfl

/-- The search leaves the buffer if the word in front is unreadable or not below the first. -/
theorem exec_pcNextPermutation_fault (hs : s.buffer = x :: l) (hdesc : (x :: l).Pairwise (· ≥ ·))
    (hfuel : (x :: l).length < fuel) (hv : ∀ v, s.before = some v → x ≤ v) :
    ∃ k < 0, exec (pcNextPermutation fuel (((x :: l).length : ℤ) - 1)) s =
      some (.error (.access k)) := by
  obtain ⟨log, hgo⟩ := exec_pivot_go hs (cons_ne_nil x l) hdesc hfuel.le
  have hfst : s.word (-1 + 1) = some x := by simp [Memory.word, hs]
  have hflt : ∃ k < 0, exec (loop (slideDownStep atLeastNext) (fuel - (x :: l).length + 1) (-1))
      (s.touched log) = some (.error (.access k)) := by
    cases hbef : s.before with
    | none =>
      refine ⟨-1, by omega, exec_loop_error ?_⟩
      rw [slideDownStep, exec_bind, atLeastNext, exec_bind, exec_read_fault (by simpa using hbef)]
      rfl
    | some v =>
      -- the word in front is passed over
      have hfro : s.word (-1) = some v := by simpa using hbef
      obtain ⟨log', hpass⟩ := answers_atLeastNext hfro hfst log
      rw [decide_eq_true (hv v hbef)] at hpass
      refine ⟨-2, by omega, ?_⟩
      rw [exec_loop_next (exec_slideDownStep hpass),
        show fuel - (x :: l).length = fuel - (x :: l).length - 1 + 1 by omega]
      apply exec_loop_error
      rfl
  obtain ⟨k, hk, hflt⟩ := hflt
  refine ⟨k, hk, ?_⟩
  unfold pcNextPermutation
  rw [exec_bind, hgo, hflt]
  rfl

end Next

/-! ### The passes of `-allPermutations` -/

section Passes

variable {s : Memory}

/-- The words of an index buffer. -/
def words {n : ℕ} (σ : List (Fin n)) : List ℤ := σ.map fun k : Fin n => (k : ℤ)

theorem exec_fill (rest : List ℤ) {k : ℕ}
    (hs : s.buffer = (range k).map (fun i : ℕ => (i : ℤ)) ++ rest) (hn : n = k + rest.length)
    (hfuel : rest.length < fuel) :
    ∃ log, exec (loop (fillStep n) fuel k) s =
      some (.ok (⟨⟩, (s.withBuffer ((range n).map fun i : ℕ => (i : ℤ))).touched log)) := by
  induction rest generalizing k fuel s with
  | nil =>
    obtain ⟨fuel, rfl⟩ := exists_fuel hfuel
    refine ⟨[], ?_⟩
    have hdone : exec (fillStep n k) s = some (.ok (.inr ⟨⟩, s)) := by simp [fillStep, hn]
    rw [exec_loop_done hdone]
    simpa [hn] using congrArg s.withBuffer hs
  | cons x rest ih =>
    obtain ⟨fuel, rfl⟩ := exists_fuel hfuel
    rw [length_cons] at hn hfuel
    have hk : k < s.buffer.length := by simp [hs]
    have hset : s.buffer.set k k = (range (k + 1)).map (fun i : ℕ => (i : ℤ)) ++ rest := by
      rw [hs, range_succ]
      simp
    have hstep : exec (fillStep n k) s = some (.ok (.inl ((k + 1 : ℕ) : ℤ),
        (s.withBuffer (s.buffer.set k k)).touched [(k : ℤ)])) := by
      rw [fillStep, if_pos (by omega), exec_bind, exec_write hk]
      rfl
    obtain ⟨log, hrest⟩ := ih (k := k + 1)
      (s := (s.withBuffer (s.buffer.set k k)).touched [(k : ℤ)]) hset (by omega)
      (Nat.lt_of_succ_lt_succ hfuel)
    refine ⟨(k : ℤ) :: log, ?_⟩
    rw [exec_loop_next hstep, hrest]
    simp

theorem exec_objectAtIndex (self : List α) (k : Fin self.length) :
    exec (objectAtIndex self (k : ℤ)) s = some (.ok (self.get k, s)) := by
  simp [objectAtIndex]

theorem exec_newPerm (self : List α) (rest done : List (Fin self.length)) (acc : List α)
    (hs : s.buffer = words (done ++ rest)) (hfuel : rest.length < fuel) :
    ∃ log, exec (loop (newPermStep self ((s.buffer.length : ℤ) - 1)) fuel (acc, (done.length : ℤ))) s =
      some (.ok (acc ++ rest.map self.get, s.touched log)) := by
  induction rest generalizing done acc fuel s with
  | nil =>
    obtain ⟨fuel, rfl⟩ := exists_fuel hfuel
    refine ⟨[], ?_⟩
    have hdone : exec (newPermStep self ((s.buffer.length : ℤ) - 1) (acc, (done.length : ℤ))) s =
        some (.ok (.inr acc, s)) := by
      simp [newPermStep, hs, words]
    rw [exec_loop_done hdone]
    simp
  | cons p rest ih =>
    obtain ⟨fuel, rfl⟩ := exists_fuel hfuel
    have hword : s.word done.length = some (p : ℤ) := by simp [hs, words]
    have hstep : exec (newPermStep self ((s.buffer.length : ℤ) - 1) (acc, (done.length : ℤ))) s =
        some (.ok (.inl (acc ++ [self.get p], (done.length : ℤ) + 1),
          s.touched [(done.length : ℤ)])) := by
      have hle : (done.length : ℤ) ≤ (s.buffer.length : ℤ) - 1 := by
        simp [hs, words]
      rw [newPermStep, if_pos hle, exec_bind, exec_read hword, andThen_ok, exec_bind,
        exec_objectAtIndex]
      rfl
    obtain ⟨log, hrest⟩ := ih (done ++ [p]) (acc ++ [self.get p])
      (s := s.touched [(done.length : ℤ)]) (by simpa using hs) (by simpa using hfuel)
    refine ⟨(done.length : ℤ) :: log, ?_⟩
    rw [exec_loop_next hstep]
    simpa using hrest

variable {self : List α} {σ τ : List (Fin self.length)} {L : List (List (Fin self.length))}
  {j : ℤ} {fuel : ℕ}

@[simp] theorem length_words (σ : List (Fin n)) : (words σ).length = σ.length := by
  simp [words]

theorem step_words (h : Step σ τ) : Step (words σ) (words τ) := by
  have hmono : StrictMono fun k : Fin self.length => (k : ℤ) := fun k k' hlt => Int.ofNat_lt.2 hlt
  exact h.map hmono

/-- The elements of the array in the order of the positions `σ`. -/
def arranged (self : List α) (σ : List (Fin self.length)) : List α := σ.map self.get

/-- The beginning of a pass collects the elements in the order of the buffer. -/
theorem exec_allPermutationsStep (hs : s.buffer = words σ) (hσ : σ.length = self.length)
    (hfuel : self.length < fuel) (perms : List (List α)) (j : ℤ) :
    ∃ log, exec (allPermutationsStep fuel self ((self.length : ℤ) - 1) (perms, j)) s =
      andThen (exec (pcNextPermutation fuel (((words σ).length : ℤ) - 1)) (s.touched log))
        fun more =>
          if more then
            if j + 1 ≠ 0 then pure (.inl (perms ++ [arranged self σ], j + 1))
            else pure (.inr (perms ++ [arranged self σ]))
          else pure (.inr (perms ++ [arranged self σ])) := by
  have hlen : s.buffer.length = self.length := by rw [hs, length_words, hσ]
  obtain ⟨log, hnew⟩ := exec_newPerm self σ [] [] hs (by omega : σ.length < fuel)
  rw [hlen] at hnew
  refine ⟨log, ?_⟩
  rw [allPermutationsStep, exec_bind]
  rw [show (0 : ℤ) = (([] : List (Fin self.length)).length : ℤ) from rfl, hnew, andThen_ok, exec_bind,
    length_words, hσ]
  rfl

theorem exec_pass (hstep : Step σ τ) (hs : s.buffer = words σ) (hσ : σ.length = self.length)
    (hfuel : self.length < fuel) (perms : List (List α)) (hj : 0 ≤ j) :
    ∃ log, exec (allPermutationsStep fuel self ((self.length : ℤ) - 1) (perms, j)) s =
      some (.ok (.inl (perms ++ [arranged self σ], j + 1),
        (s.withBuffer (words τ)).touched log)) := by
  obtain ⟨log, hpass⟩ := exec_allPermutationsStep hs hσ hfuel perms j
  obtain ⟨log', hnext⟩ := exec_pcNextPermutation (s := s.touched log) (step_words hstep) hs
    (show (words σ).length ≤ fuel by rw [length_words]; omega)
  rw [hpass, hnext, andThen_ok, if_pos rfl, if_pos (by omega)]
  simp

/-- The passes up to the last permutation. -/
theorem exec_passes (hch : (σ :: L).IsChain Step) (hs : s.buffer = words σ)
    (hlen : ∀ ρ ∈ σ :: L, ρ.length = self.length) (hfuel : self.length < fuel) (hj : 0 ≤ j)
    (perms : List (List α)) (outer : ℕ) :
    ∃ log, exec (loop (allPermutationsStep fuel self ((self.length : ℤ) - 1)) (outer + L.length)
        (perms, j)) s =
      exec (loop (allPermutationsStep fuel self ((self.length : ℤ) - 1)) outer
          (perms ++ (σ :: L).dropLast.map (arranged self), j + L.length))
        ((s.withBuffer (words ((σ :: L).getLast (cons_ne_nil σ L)))).touched log) := by
  induction L generalizing σ perms j s with
  | nil =>
    refine ⟨[], ?_⟩
    simp [← hs]
  | cons τ L ih =>
    obtain ⟨hstep, hrest⟩ := isChain_cons_cons.1 hch
    obtain ⟨hσ, hlen⟩ := forall_mem_cons.1 hlen
    obtain ⟨log, hpass⟩ := exec_pass hstep hs hσ hfuel perms hj
    obtain ⟨log', hpas⟩ := ih (j := j + 1) (s := (s.withBuffer (words τ)).touched log) hrest rfl
      hlen (by omega) (perms ++ [arranged self σ])
    refine ⟨log ++ log', ?_⟩
    rw [length_cons, ← add_assoc, exec_loop_next hpass, hpas]
    simp [add_assoc, add_comm (1 : ℤ)]

theorem exec_lastPass {v : ℤ} (hs : s.buffer = words σ) (hx : words σ = x :: l)
    (hdesc : (x :: l).Pairwise (· ≥ ·)) (hσ : σ.length = self.length) (hfuel : self.length < fuel)
    (hv : s.before = some v) (hvx : v < x) (perms : List (List α)) (j : ℤ) (outer : ℕ) :
    ∃ log, -1 ∈ log ∧ exec (loop (allPermutationsStep fuel self ((self.length : ℤ) - 1)) (outer + 1)
      (perms, j)) s = some (.ok (perms ++ [arranged self σ], s.touched log)) := by
  obtain ⟨log, hpass⟩ := exec_allPermutationsStep hs hσ hfuel perms j
  obtain ⟨log', hmem, hlast⟩ := exec_pcNextPermutation_last (s := s.touched log) (hs.trans hx) hdesc
    (show (x :: l).length ≤ fuel by rw [← hx, length_words]; omega) hv hvx
  refine ⟨log ++ log', mem_append_right log hmem, ?_⟩
  rw [hx, hlast, Memory.touched_touched] at hpass
  exact exec_loop_done hpass

/-- The last pass, with no such word. -/
theorem exec_lastPass_fault (hs : s.buffer = words σ) (hx : words σ = x :: l)
    (hdesc : (x :: l).Pairwise (· ≥ ·)) (hσ : σ.length = self.length) (hfuel : self.length < fuel)
    (hv : ∀ v, s.before = some v → x ≤ v) (perms : List (List α)) (j : ℤ) (outer : ℕ) :
    ∃ k < 0, exec (loop (allPermutationsStep fuel self ((self.length : ℤ) - 1)) (outer + 1)
      (perms, j)) s = some (.error (.access k)) := by
  obtain ⟨log, hpass⟩ := exec_allPermutationsStep hs hσ hfuel perms j
  obtain ⟨k, hk, hflt⟩ := exec_pcNextPermutation_fault (s := s.touched log) (hs.trans hx) hdesc
    (show (x :: l).length < fuel by rw [← hx, length_words]; omega) hv
  refine ⟨k, hk, ?_⟩
  rw [hx, hflt] at hpass
  exact exec_loop_error hpass

end Passes

/-! ### The whole method -/

section Whole

variable {self : List α}

theorem words_finRange (n : ℕ) :
    words (finRange n) = (range n).map fun i : ℕ => (i : ℤ) := by
  rw [← map_coe_finRange_eq_range, map_map]
  rfl

/-- The passes start with the indexes in ascending order. -/
theorem exec_allPermutations_start (hself : self ≠ []) (block : Block)
    (hfuel : self.length < fuel) :
    ∃ s, s.buffer = words (finRange self.length) ∧ s.before = block.before ∧ s.freed = 0 ∧
      exec (allPermutations block fuel self) Memory.initial =
        exec (loop (allPermutationsStep fuel self ((self.length : ℤ) - 1)) fuel ([], 0)) s := by
  have hne : ¬ self.length = 0 := mt length_eq_zero_iff.1 hself
  obtain ⟨s0, hs0⟩ : ∃ s0 : Memory,
      s0 = ⟨(range self.length).map block.contents, block.before, [], 0⟩ := ⟨_, rfl⟩
  have hmal : exec (malloc block self.length) Memory.initial = some (.ok (⟨⟩, s0)) := by
    rw [hs0]
    rfl
  obtain ⟨log, hfill⟩ := exec_fill (n := self.length) s0.buffer (k := 0) (s := s0) rfl
    (by simp [hs0]) (by simpa [hs0] using hfuel)
  rw [← words_finRange] at hfill
  refine ⟨(s0.withBuffer (words (finRange self.length))).touched log, rfl, by simp [hs0],
    by simp [hs0], ?_⟩
  unfold allPermutations
  rw [if_neg hne, exec_bind, hmal, andThen_ok, exec_bind]
  rw [Nat.cast_zero] at hfill
  rw [hfill, andThen_ok]

/-- A list that runs through the permutations of the positions. -/
structure Enumerates (self : List α) (L : List (List (Fin self.length))) : Prop where
  /-- In lexicographic order, so none occurs twice. -/
  ascending : L.Pairwise (· < ·)
  mem_iff : ∀ σ, σ ∈ L ↔ σ.Perm (finRange self.length)
  length_eq : L.length = self.length.factorial

/-- Every run comes to the last permutation, with all the others collected. -/
theorem exec_allPermutations_toLast (hself : self ≠ []) (block : Block) :
    ∃ (L : List (List (Fin self.length))) (τ : List (Fin self.length)) (x : ℤ) (l : List ℤ),
      Enumerates self (L ++ [τ]) ∧ τ.length = self.length ∧ words τ = x :: l ∧
      (x :: l).Pairwise (· ≥ ·) ∧
      ∀ fuel, self.length + L.length < fuel → ∃ s outer j, s.buffer = words τ ∧
        s.before = block.before ∧ s.freed = 0 ∧
        exec (allPermutations block fuel self) Memory.initial =
          exec (loop (allPermutationsStep fuel self ((self.length : ℤ) - 1)) (outer + 1)
            (L.map (arranged self), j)) s := by
  obtain ⟨L, hch, hasc, hmem, hlen, hdesc⟩ :=
    exists_enumeration (pairwise_lt_finRange self.length)
  have hne := cons_ne_nil (finRange self.length) L
  obtain ⟨τ, hτ⟩ : ∃ τ, τ = (finRange self.length :: L).getLast hne := ⟨_, rfl⟩
  have happ : (finRange self.length :: L).dropLast ++ [τ] = finRange self.length :: L := by
    rw [hτ, dropLast_append_getLast]
  have hle : ∀ ρ ∈ finRange self.length :: L, ρ.length = self.length := by
    intro ρ hρ
    rw [((hmem ρ).1 hρ).length_eq, length_finRange]
  have hτlength : τ.length = self.length := hle τ (hτ ▸ getLast_mem hne)
  obtain ⟨x, l, hx⟩ : ∃ x l, words τ = x :: l := by
    refine exists_cons_of_ne_nil fun hnil => hself ?_
    rw [← length_eq_zero_iff, ← hτlength, ← length_words, hnil, length_nil]
  have hwds : (words τ).Pairwise (· ≥ ·) := by
    rw [words, pairwise_map, hτ]
    exact hdesc.imp fun h => Int.ofNat_le.2 h
  refine ⟨(finRange self.length :: L).dropLast, τ, x, l, ?_, hτlength, hx, hx ▸ hwds, ?_⟩
  · rw [happ]
    exact ⟨hasc, hmem, by rw [hlen, length_finRange]⟩
  · intro fuel hfuel
    rw [length_dropLast, length_cons, Nat.add_sub_cancel] at hfuel
    obtain ⟨s, hs, hbef, hfre, hst⟩ :=
      exec_allPermutations_start hself block (by omega : self.length < fuel)
    obtain ⟨log, hpas⟩ := exec_passes hch hs hle (by omega : self.length < fuel) le_rfl []
      (fuel - L.length - 1 + 1)
    rw [← hτ, show fuel - L.length - 1 + 1 + L.length = fuel by omega] at hpas
    exact ⟨(s.withBuffer (words τ)).touched log, _, _, rfl, hbef, hfre, hst.trans hpas⟩

theorem lt_of_mem_words {σ : List (Fin n)} (hx : x ∈ words σ) : ∃ k : ℕ, k < n ∧ x = k := by
  obtain ⟨k, -, rfl⟩ := mem_map.1 hx
  exact ⟨k, k.isLt, rfl⟩

/-- With a word in front below every index, all permutations come in lexicographic order. -/
theorem allPermutations_enumerates (self : List α) (hself : self ≠ []) (block : Block) (v : ℤ)
    (hbefore : block.before = some v) (hv : ∀ k : ℕ, k < self.length → v < k) :
    ∃ L : List (List (Fin self.length)), Enumerates self L ∧ ∃ bound, ∀ fuel ≥ bound, ∃ s,
      exec (allPermutations block fuel self) Memory.initial =
        some (.ok (L.map (arranged self), s)) := by
  obtain ⟨L, τ, x, l, hL, hτ, hx, hdesc, hrun⟩ := exec_allPermutations_toLast hself block
  have hvx : v < x := by
    obtain ⟨k, hk, rfl⟩ := lt_of_mem_words (hx ▸ mem_cons_self : x ∈ words τ)
    exact hv k hk
  refine ⟨L ++ [τ], hL, self.length + L.length + 1, fun fuel hfuel => ?_⟩
  obtain ⟨s, outer, j, hs, hfro, -, hexec⟩ := hrun fuel (by omega)
  obtain ⟨log, -, hlast⟩ := exec_lastPass hs hx hdesc hτ (by omega : self.length < fuel)
    (hfro.trans hbefore) hvx (L.map (arranged self)) j outer
  refine ⟨s.touched log, ?_⟩
  rw [hexec, hlast, map_append, map_singleton]

theorem allPermutations_enumerates_pair :
    ∃ L : List (List (Fin 2)), Enumerates ['a', 'b'] L ∧ ∃ bound, ∀ fuel ≥ bound, ∃ s,
      exec (allPermutations ⟨fun _ => 7, some (-1)⟩ fuel ['a', 'b']) Memory.initial =
        some (.ok (L.map (arranged ['a', 'b']), s)) :=
  allPermutations_enumerates ['a', 'b'] (by decide) ⟨fun _ => 7, some (-1)⟩ (-1) rfl
    fun k _ => by omega

example : (exec (allPermutations ⟨fun _ => 7, some (-1)⟩ 8 ['a', 'b', 'c']) Memory.initial).map
    (·.map Prod.fst) = some (.ok [['a', 'b', 'c'], ['a', 'c', 'b'], ['b', 'a', 'c'],
      ['b', 'c', 'a'], ['c', 'a', 'b'], ['c', 'b', 'a']]) := by
  decide +kernel

/-! ### Accesses outside the buffer -/

/-- The position `k` is accessed in a run with the given outcome. -/
def Accesses {β : Type} (outcome : Option (Except Fault (β × Memory))) (k : ℤ) : Prop :=
  match outcome with
  | some (.ok (_, s)) => k ∈ s.accesses
  | some (.error (.access k')) => k = k'
  | _ => False

/-- Only the words of a buffer of `n` words are accessed. -/
def StaysInBuffer {β : Type} (n : ℕ) (outcome : Option (Except Fault (β × Memory))) : Prop :=
  ∀ k, Accesses outcome k → 0 ≤ k ∧ k < n

/-- The run returns and has freed the buffer once. -/
def FreesOnce {β : Type} (outcome : Option (Except Fault (β × Memory))) : Prop :=
  ∃ b s, outcome = some (.ok (b, s)) ∧ s.freed = 1

/-- Whatever stands in front of the buffer is accessed, and the buffer is not freed. -/
theorem allPermutations_leaves_buffer (self : List α) (hself : self ≠ []) (block : Block) :
    ∃ bound, ∀ fuel ≥ bound,
      ¬ StaysInBuffer self.length (exec (allPermutations block fuel self) Memory.initial) ∧
      ¬ FreesOnce (exec (allPermutations block fuel self) Memory.initial) := by
  obtain ⟨L, τ, x, l, -, hτ, hx, hdesc, hrun⟩ := exec_allPermutations_toLast hself block
  refine ⟨self.length + L.length + 1, fun fuel hfuel => ?_⟩
  obtain ⟨s, outer, j, hs, -, hfre, hexec⟩ := hrun fuel (by omega)
  have hlt : self.length < fuel := by omega
  rw [hexec]
  by_cases hv : ∀ v, s.before = some v → x ≤ v
  · obtain ⟨k, hk, hflt⟩ := exec_lastPass_fault hs hx hdesc hτ hlt hv (L.map (arranged self)) j outer
    rw [hflt]
    refine ⟨fun h => ?_, ?_⟩
    · exact absurd (h k rfl).1 (not_le.2 hk)
    · rintro ⟨b, t, h, -⟩
      cases h
  · push Not at hv
    obtain ⟨v, hbef, hvx⟩ := hv
    obtain ⟨log, hmem, hlast⟩ := exec_lastPass hs hx hdesc hτ hlt hbef hvx
      (L.map (arranged self)) j outer
    rw [hlast]
    refine ⟨fun h => ?_, ?_⟩
    · have hfro := (h (-1) (mem_append_right s.accesses hmem)).1
      omega
    · rintro ⟨b, t, h, hone⟩
      cases h
      rw [Memory.freed_touched] at hone
      omega

theorem allPermutations_leaves_buffer_pair :
    ∃ bound, ∀ fuel ≥ bound,
      ¬ StaysInBuffer 2
        (exec (allPermutations ⟨fun _ => 7, none⟩ fuel ['a', 'b']) Memory.initial) ∧
      ¬ FreesOnce (exec (allPermutations ⟨fun _ => 7, none⟩ fuel ['a', 'b']) Memory.initial) :=
  allPermutations_leaves_buffer ['a', 'b'] (by decide) ⟨fun _ => 7, none⟩

/-- For an array of one element the first comparison reads the word in front. -/
theorem allPermutations_single_leaves_buffer :
    exec (allPermutations ⟨fun _ => 7, some (-1)⟩ 2 ['a']) Memory.initial =
        some (.ok ([['a']], ⟨[0], some (-1), [0, 0, -1, 0], 0⟩)) ∧
      ¬ StaysInBuffer 1
        (exec (allPermutations ⟨fun _ => 7, some (-1)⟩ 2 ['a']) Memory.initial) ∧
      ¬ FreesOnce (exec (allPermutations ⟨fun _ => 7, some (-1)⟩ 2 ['a']) Memory.initial) := by
  have hrun : exec (allPermutations ⟨fun _ => 7, some (-1)⟩ 2 ['a']) Memory.initial =
      some (.ok ([['a']], ⟨[0], some (-1), [0, 0, -1, 0], 0⟩)) := by
    decide +kernel
  rw [hrun]
  refine ⟨rfl, fun h => ?_, ?_⟩
  · have hfro : (0 : ℤ) ≤ -1 := (h (-1) (by decide : (-1 : ℤ) ∈ [0, 0, -1, 0])).1
    omega
  · rintro ⟨b, t, h, hone⟩
    cases h
    exact absurd hone (by decide)

end Whole

end Feather.Extensions
