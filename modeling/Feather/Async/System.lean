import Mathlib.Tactic

/-!
# Systems driven by events

`step i s` is the state after the event `i`, or `none` where `i` cannot happen in `s`; a list of
events is a schedule, and `run step schedule s` the state that it leads to.
-/

namespace Async

open Option

variable {ι σ : Type}
variable {schedule : List ι} {s s' : σ} {P : σ → Prop}

/-- The state after a schedule, or `none` where an event cannot happen. -/
def run (step : ι → σ → Option σ) : List ι → σ → Option σ
  | [], s => some s
  | i :: schedule, s => (step i s).bind (run step schedule)

section

variable {step : ι → σ → Option σ}

@[simp] theorem run_nil (s : σ) : run step [] s = some s := rfl

theorem run_cons (i : ι) (schedule : List ι) (s : σ) :
    run step (i :: schedule) s = (step i s).bind (run step schedule) := rfl

theorem run_cons_eq_some {i : ι} :
    run step (i :: schedule) s = some s' ↔ ∃ t, step i s = some t ∧ run step schedule t = some s' := by
  rw [run_cons, bind_eq_some_iff]

theorem run_singleton (i : ι) (s : σ) : run step [i] s = step i s :=
  bind_fun_some _

theorem run_append (first second : List ι) (s : σ) :
    run step (first ++ second) s = (run step first s).bind (run step second) := by
  induction first generalizing s with
  | nil => rfl
  | cons i first ih =>
    rw [List.cons_append, run_cons, run_cons, bind_assoc]
    congr 1
    funext t
    exact ih t

theorem run_concat_eq_some {i : ι} :
    run step (schedule ++ [i]) s = some s' ↔ ∃ t, run step schedule s = some t ∧ step i t = some s' := by
  rw [run_append, bind_eq_some_iff]
  simp [run_singleton]

/-- A property that every step keeps holds in every state that a run reaches. -/
theorem run_invariant (hstep : ∀ i s s', P s → step i s = some s' → P s') (hs : P s)
    (hrun : run step schedule s = some s') : P s' := by
  induction schedule generalizing s with
  | nil =>
    cases hrun
    exact hs
  | cons i schedule ih =>
    obtain ⟨t, hi, ht⟩ := run_cons_eq_some.1 hrun
    exact ih (hstep i s t hs hi) ht

/-- The same for a relation between the schedule so far and the state. -/
theorem run_snoc {P : List ι → σ → Prop}
    (hstep : ∀ past i s s', P past s → step i s = some s' → P (past ++ [i]) s') (hs : P [] s)
    (hrun : run step schedule s = some s') : P schedule s' := by
  induction schedule using List.reverseRecOn generalizing s' with
  | nil =>
    cases hrun
    exact hs
  | append_singleton past i ih =>
    obtain ⟨t, ht, hi⟩ := run_concat_eq_some.1 hrun
    exact hstep past i t s' (ih ht) hi

/-- The property holds in all states that the schedule passes through. -/
def Throughout (step : ι → σ → Option σ) (P : σ → Prop) : List ι → σ → Prop
  | [], s => P s
  | i :: schedule, s => P s ∧ ∀ s', step i s = some s' → Throughout step P schedule s'

/-- Each event that happens does so in a state to which it is related. -/
def EachStep (step : ι → σ → Option σ) (p : ι → σ → Prop) : List ι → σ → Prop
  | [], _ => True
  | i :: schedule, s => ∀ s', step i s = some s' → p i s ∧ EachStep step p schedule s'

theorem Throughout.first (h : Throughout step P schedule s) : P s := by
  cases schedule with
  | nil => exact h
  | cons i schedule => exact h.1

theorem throughout_of_run (h : ∀ past s', run step past s = some s' → P s') :
    Throughout step P schedule s := by
  induction schedule generalizing s with
  | nil => exact h [] s rfl
  | cons i schedule ih =>
    exact ⟨h [] s rfl, fun t ht => ih fun past s' hrun => h (i :: past) s'
      (run_cons_eq_some.2 ⟨t, ht, hrun⟩)⟩

/-- If under an invariant a property is kept exactly by the events that meet a condition, it holds
throughout exactly if all events meet the condition. -/
theorem throughout_iff {Inv : σ → Prop} {meets : ι → σ → Prop} (hP : ∀ s, Inv s → P s)
    (hiff : ∀ i s s', Inv s → step i s = some s' → (P s' ↔ meets i s))
    (hkept : ∀ i s s', Inv s → meets i s → step i s = some s' → Inv s') (hs : Inv s) :
    Throughout step P schedule s ↔ EachStep step meets schedule s := by
  induction schedule generalizing s with
  | nil => exact iff_of_true (hP s hs) trivial
  | cons i schedule ih =>
    constructor
    · rintro ⟨-, hrest⟩ s' hi
      have hmee := (hiff i s s' hs hi).1 (hrest s' hi).first
      exact ⟨hmee, (ih (hkept i s s' hs hmee hi)).1 (hrest s' hi)⟩
    · intro h
      refine ⟨hP s hs, fun s' hi => ?_⟩
      obtain ⟨hmee, hrest⟩ := h s' hi
      exact (ih (hkept i s s' hs hmee hi)).2 hrest

/-- A run is one of any system in which the same events, and perhaps others, can happen. -/
theorem run_mono {step' : ι → σ → Option σ} (hstep : ∀ i s s', step i s = some s' → step' i s = some s')
    (hrun : run step schedule s = some s') : run step' schedule s = some s' := by
  induction schedule generalizing s with
  | nil => exact hrun
  | cons i schedule ih =>
    obtain ⟨t, hi, ht⟩ := run_cons_eq_some.1 hrun
    exact run_cons_eq_some.2 ⟨t, hstep i s t hi, ih ht⟩

/-- A measure that every event lowers bounds the length of a run. -/
theorem length_le_of_measure {m : σ → ℕ}
    (hstep : ∀ i s s', P s → step i s = some s' → P s' ∧ m s' < m s) (hs : P s)
    (hrun : run step schedule s = some s') : schedule.length + m s' ≤ m s := by
  induction schedule generalizing s with
  | nil =>
    cases hrun
    simp
  | cons i schedule ih =>
    obtain ⟨t, hi, ht⟩ := run_cons_eq_some.1 hrun
    obtain ⟨hP, hlt⟩ := hstep i s t hs hi
    have hle := ih hP ht
    rw [List.length_cons]
    omega

/-- No event can happen any more. -/
def Quiescent (step : ι → σ → Option σ) (s : σ) : Prop :=
  ∀ i, step i s = none

/-- Where runs are bounded, some run goes on until nothing can happen. -/
theorem exists_run_quiescent {bound : ℕ}
    (hbd : ∀ schedule s', run step schedule s = some s' → schedule.length ≤ bound) :
    ∃ schedule s', run step schedule s = some s' ∧ Quiescent step s' := by
  -- a run that is not at its end can be made longer, so that the distance to the bound shrinks
  have hext : ∀ distance schedule s', run step schedule s = some s' →
      bound - schedule.length = distance →
      ∃ schedule s', run step schedule s = some s' ∧ Quiescent step s' := by
    intro distance
    induction distance with
    | zero =>
      intro schedule s' hrun hdis
      refine ⟨schedule, s', hrun, fun i => ?_⟩
      by_contra hi
      obtain ⟨t, ht⟩ := ne_none_iff_exists'.1 hi
      have hlon := hbd (schedule ++ [i]) t (run_concat_eq_some.2 ⟨s', hrun, ht⟩)
      rw [List.length_append, List.length_singleton] at hlon
      omega
    | succ distance ih =>
      intro schedule s' hrun hdis
      by_cases hq : Quiescent step s'
      · exact ⟨schedule, s', hrun, hq⟩
      · unfold Quiescent at hq
        push Not at hq
        obtain ⟨i, hi⟩ := hq
        obtain ⟨t, ht⟩ := ne_none_iff_exists'.1 hi
        refine ih (schedule ++ [i]) t (run_concat_eq_some.2 ⟨s', hrun, ht⟩) ?_
        rw [List.length_append, List.length_singleton]
        omega
  exact hext _ [] s rfl rfl

end

/-! ### Groups of jobs -/

/-- A group of jobs, which must not be left more often than entered. -/
structure Group where
  entered : ℕ
  left : ℕ
  awaited : Bool
  notified : Bool
  deriving DecidableEq

namespace Group

/-- No block was entered. -/
def new : Group := ⟨0, 0, false, false⟩

def enter (g : Group) : Group := { g with entered := g.entered + 1 }

def leave (g : Group) : Group := { g with left := g.left + 1 }

/-- Registers the notification. -/
def await (g : Group) : Group := { g with awaited := true }

/-- The notification is registered, did not run yet, and nobody is in the group. -/
def ready (g : Group) : Bool := g.awaited && !g.notified && decide (g.entered = g.left)

def notify (g : Group) : Group := { g with notified := true }

end Group

end Async
