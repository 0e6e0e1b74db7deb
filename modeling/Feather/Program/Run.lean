import Mathlib.Tactic

/-!
# Programs with a store, exceptions and loops

`Prog σ ε α` is a program over a store `σ` that may raise an `ε`.  Loops carry a bound, so `exec x
s` is `some (.ok (a, s'))` where the program returns `a` and leaves `s'`, `some (.error e)` where it
raises `e`, and `none` where it has not returned within the bound.

`loop body fuel k` iterates `body` from the loop variables `k`; `body` answers with new ones
(`.inl`) to go on or with a result (`.inr`) to leave.
-/

namespace Program

/-- Programs over a store `σ` that may raise an `ε` and may not return. -/
abbrev Prog (σ ε : Type) := StateT σ (ExceptT ε Option)

variable {σ ε α κ τ : Type}

/-- The outcome of a program started in the store `s`. -/
def exec (x : Prog σ ε α) (s : σ) : Option (Except ε (α × σ)) := (x.run s).run

/-- Continue after an outcome. -/
def andThen (o : Option (Except ε (α × σ))) (f : α → Prog σ ε τ) : Option (Except ε (τ × σ)) :=
  match o with
  | none => none
  | some (.error e) => some (.error e)
  | some (.ok (a, s)) => exec (f a) s

@[simp] theorem andThen_ok (a : α) (s : σ) (f : α → Prog σ ε τ) :
    andThen (some (.ok (a, s))) f = exec (f a) s := rfl

@[simp] theorem andThen_error (e : ε) (f : α → Prog σ ε τ) :
    andThen (some (.error e)) f = some (.error e) := rfl

@[simp] theorem andThen_none (f : α → Prog σ ε τ) : andThen none f = none := rfl

@[simp] theorem exec_pure (a : α) (s : σ) : exec (pure a : Prog σ ε α) s = some (.ok (a, s)) := rfl

@[simp] theorem exec_bind (x : Prog σ ε α) (f : α → Prog σ ε τ) (s : σ) :
    exec (x >>= f) s = andThen (exec x s) f := by
  unfold exec andThen
  show (ExceptT.bind (x.run s) fun p => (f p.1).run p.2).run = _
  rcases x.run s with _ | _ | ⟨a, s'⟩ <;> rfl

/-- A sequence that returns: its first part returns, and then the second. -/
theorem exec_bind_eq_ok {x : Prog σ ε α} {f : α → Prog σ ε τ} {s s' : σ} {b : τ} :
    exec (x >>= f) s = some (.ok (b, s')) ↔
      ∃ a t, exec x s = some (.ok (a, t)) ∧ exec (f a) t = some (.ok (b, s')) := by
  rw [exec_bind]
  rcases exec x s with _ | e | ⟨a, t⟩
  · simp
  · simp
  · simp

@[simp] theorem exec_map (f : α → τ) (x : Prog σ ε α) (s : σ) :
    exec (f <$> x) s = andThen (exec x s) fun a => pure (f a) := by
  rw [map_eq_pure_bind, exec_bind]

@[simp] theorem exec_get (s : σ) : exec (get : Prog σ ε σ) s = some (.ok (s, s)) := rfl

@[simp] theorem exec_set (s s' : σ) :
    exec (set s' : Prog σ ε PUnit) s = some (.ok (⟨⟩, s')) := rfl

@[simp] theorem exec_modify (g : σ → σ) (s : σ) :
    exec (modify g : Prog σ ε PUnit) s = some (.ok (⟨⟩, g s)) := rfl

theorem exec_get_bind (f : σ → Prog σ ε τ) (s : σ) : exec (get >>= f) s = exec (f s) s := by
  rw [exec_bind, exec_get, andThen_ok]

theorem exec_modify_bind (g : σ → σ) (f : PUnit → Prog σ ε τ) (s : σ) :
    exec (modify g >>= f) s = exec (f ⟨⟩) (g s) := by
  rw [exec_bind, exec_modify, andThen_ok]

@[simp] theorem exec_throw (e : ε) (s : σ) :
    exec (throw e : Prog σ ε α) s = some (.error e) := rfl

@[simp] theorem exec_ite (c : Prop) [Decidable c] (x y : Prog σ ε α) (s : σ) :
    exec (if c then x else y) s = if c then exec x s else exec y s := by
  split_ifs <;> rfl

/-- A statement that is executed or not, and what comes behind it. -/
theorem exec_ite_then (c : Prop) [Decidable c] (x : Prog σ ε α) (y : α → Prog σ ε PUnit)
    (k : PUnit → Prog σ ε τ) (s : σ) :
    exec (if c then x >>= fun a => y a >>= k else k ⟨⟩) s =
      andThen (exec (if c then x >>= y else pure ⟨⟩) s) k := by
  by_cases hc : c
  · rw [if_pos hc, if_pos hc, exec_bind, exec_bind]
    rcases exec x s with _ | _ | ⟨a, s'⟩
    · rfl
    · rfl
    · rw [andThen_ok, andThen_ok, exec_bind]
  · rw [if_neg hc, if_neg hc, exec_pure, andThen_ok]

/-- A program that has not returned. -/
def running : Prog σ ε α := fun _ => (none : Option (Except ε (α × σ)))

@[simp] theorem exec_running (s : σ) : exec (running : Prog σ ε α) s = none := rfl

/-! ### Loops -/

/-- At most `fuel` iterations of `body`. -/
def loop (body : κ → Prog σ ε (κ ⊕ α)) : ℕ → κ → Prog σ ε α
  | 0, _ => running
  | fuel + 1, k => do
    match ← body k with
    | .inl k' => loop body fuel k'
    | .inr a => pure a

variable {body : κ → Prog σ ε (κ ⊕ α)} {fuel : ℕ} {k k' : κ} {a : α} {s s' : σ}

/-- One iteration that goes on. -/
theorem exec_loop_next (h : exec (body k) s = some (.ok (.inl k', s'))) :
    exec (loop body (fuel + 1) k) s = exec (loop body fuel k') s' := by
  rw [loop, exec_bind, h]
  rfl

/-- The iteration that leaves the loop. -/
theorem exec_loop_done (h : exec (body k) s = some (.ok (.inr a, s'))) :
    exec (loop body (fuel + 1) k) s = some (.ok (a, s')) := by
  rw [loop, exec_bind, h]
  rfl

/-- An iteration that raises an exception ends the loop with it. -/
theorem exec_loop_error {e : ε} (h : exec (body k) s = some (.error e)) :
    exec (loop body (fuel + 1) k) s = some (.error e) := by
  rw [loop, exec_bind, h]
  rfl

/-- A loop whose body changes nothing in some state never returns from there. -/
theorem exec_loop_stuck (h : exec (body k) s = some (.ok (.inl k, s))) :
    exec (loop body fuel k) s = none := by
  induction fuel with
  | zero => rfl
  | succ fuel ih => rw [exec_loop_next h, ih]

/-- A loop with room for more than `n` iterations has room for one. -/
theorem exists_fuel {n : ℕ} (h : n < fuel) : ∃ k, fuel = k + 1 :=
  Nat.exists_eq_add_one_of_ne_zero (Nat.ne_zero_of_lt h)

/-- The loop variables with which a loop enters its body, in order. -/
def iterations (body : κ → Prog σ ε (κ ⊕ α)) : ℕ → κ → σ → List κ
  | 0, _, _ => []
  | fuel + 1, k, s =>
    k :: match exec (body k) s with
      | some (.ok (.inl k', s')) => iterations body fuel k' s'
      | _ => []

theorem iterations_next (h : exec (body k) s = some (.ok (.inl k', s'))) :
    iterations body (fuel + 1) k s = k :: iterations body fuel k' s' := by
  rw [iterations, h]

theorem iterations_done (h : exec (body k) s = some (.ok (.inr a, s'))) :
    iterations body (fuel + 1) k s = [k] := by
  rw [iterations, h]

/-! ### More fuel -/

/-- `y` has every outcome of `x`; it may return where `x` does not. -/
def Approximates (x y : Prog σ ε α) : Prop := ∀ s o, exec x s = some o → exec y s = some o

namespace Approximates

theorem refl (x : Prog σ ε α) : Approximates x x := fun _ _ h => h

theorem bind {x y : Prog σ ε α} {f g : α → Prog σ ε τ} (h : Approximates x y)
    (hf : ∀ a, Approximates (f a) (g a)) : Approximates (x >>= f) (y >>= g) := by
  intro s o ho
  rw [exec_bind] at ho ⊢
  rcases hx : exec x s with _ | e | ⟨a, s'⟩
  · simp [hx] at ho
  · rw [h s _ hx]
    rwa [hx] at ho
  · rw [h s _ hx]
    rw [hx] at ho
    exact hf a s' o ho

theorem ite {c : Prop} [Decidable c] {x x' y y' : Prog σ ε α} (hx : Approximates x x')
    (hy : Approximates y y') : Approximates (if c then x else y) (if c then x' else y') := by
  split_ifs
  · exact hx
  · exact hy

/-- More fuel, in a loop and in its body, does not change an outcome. -/
theorem loop {body' : κ → Prog σ ε (κ ⊕ α)} {fuel' : ℕ}
    (hbody : ∀ k, Approximates (body k) (body' k)) (hfuel : fuel ≤ fuel') (k : κ) :
    Approximates (loop body fuel k) (loop body' fuel' k) := by
  induction fuel generalizing fuel' k with
  | zero =>
    intro s o h
    simp [Program.loop] at h
  | succ fuel ih =>
    obtain ⟨fuel', rfl⟩ := Nat.exists_eq_add_one_of_ne_zero (show fuel' ≠ 0 by omega)
    refine (hbody k).bind ?_
    rintro (k' | a)
    · exact ih (by omega) k'
    · exact refl _

end Approximates

end Program
