import Mathlib.Tactic.TypeStar

/-!
# The steps of a save

`save:` of `MPManagedObject.m`.  The modules about saving each have another part of the object; they
say what the steps do to it.
-/

namespace Feather.Model

/-- What the steps of `save:` do to a state. -/
structure SaveSteps (σ : Type*) where
  isClean : σ → Bool
  /-- What is set before the write: the times, the session and the change tag. -/
  prepare : σ → σ
  /-- What a successful `[super save:]` changes, and what is done after it. -/
  complete : σ → σ

namespace SaveSteps

variable {σ : Type*} (steps : SaveSteps σ)

/-- `save:`, where `[super save:]` answers `written`. -/
def save (written : Bool) (s : σ) : Bool × σ :=
  if steps.isClean s then (true, s)
  else if written then (true, steps.complete (steps.prepare s))
  else (false, steps.prepare s)

variable {steps} {s : σ}

theorem save_of_isClean (h : steps.isClean s = true) (written : Bool) :
    steps.save written s = (true, s) :=
  if_pos h

theorem save_of_changed (h : steps.isClean s = false) (written : Bool) :
    steps.save written s =
      (written, if written then steps.complete (steps.prepare s) else steps.prepare s) := by
  cases written <;> simp [save, h]

end SaveSteps

end Feather.Model
