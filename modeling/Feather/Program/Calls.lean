import Mathlib.Data.List.Basic

/-!
# Sequences of calls

`runCalls step calls s` makes the calls one after another and collects the answers.  If every call
simulates its abstraction (`Simulates`), so does every sequence (`Simulates.run`).

With calls that may fail (`tryCalls`): if an invariant makes each succeed with the answer of a
function, all answer as the function does (`tryCalls_eq_map`).
-/

namespace Program

variable {ι σ τ ο : Type}

/-- The store after a sequence of calls, with the answers. -/
def runCalls (step : ι → σ → σ × ο) : List ι → σ → σ × List ο
  | [], s => (s, [])
  | i :: calls, s =>
    let r := step i s
    let rest := runCalls step calls r.1
    (rest.1, r.2 :: rest.2)

/-- The call `i` on a store is the abstract call on the abstraction of the store. -/
def Simulates (step : ι → σ → σ × ο) (spec : ι → τ → τ × ο) (abs : σ → τ) (i : ι) : Prop :=
  ∀ s, (abs (step i s).1, (step i s).2) = spec i (abs s)

theorem Simulates.run {step : ι → σ → σ × ο} {spec : ι → τ → τ × ο} {abs : σ → τ} {calls : List ι}
    (h : ∀ i ∈ calls, Simulates step spec abs i) (s : σ) :
    (abs (runCalls step calls s).1, (runCalls step calls s).2) = runCalls spec calls (abs s) := by
  induction calls generalizing s with
  | nil => rfl
  | cons i calls ih =>
    have hstep := h i (by simp) s
    have hrest := ih (fun j hj => h j (by simp [hj])) (step i s).1
    rw [Prod.mk.injEq] at hrest
    simp only [runCalls, ← hstep, ← hrest.1, ← hrest.2]

/-- The answers of a sequence of calls, up to the first that fails. -/
def tryCalls (step : ι → σ → Option (ο × σ)) : List ι → σ → Option (List ο × σ)
  | [], s => some ([], s)
  | i :: calls, s => do
    let (answer, s') ← step i s
    let (answers, s'') ← tryCalls step calls s'
    pure (answer :: answers, s'')

theorem tryCalls_eq_map {step : ι → σ → Option (ο × σ)} {f : ι → ο} {Inv : σ → Prop}
    {calls : List ι} {s : σ}
    (hstep : ∀ i ∈ calls, ∀ s, Inv s → ∃ s', step i s = some (f i, s') ∧ Inv s') (hs : Inv s) :
    ∃ s', tryCalls step calls s = some (calls.map f, s') := by
  induction calls generalizing s with
  | nil => exact ⟨s, rfl⟩
  | cons i calls ih =>
    obtain ⟨s', hfst, hs'⟩ := hstep i (by simp) s hs
    obtain ⟨s'', hrest⟩ := ih (fun j hj => hstep j (by simp [hj])) hs'
    refine ⟨s'', ?_⟩
    simp [tryCalls, hfst, hrest]

end Program
