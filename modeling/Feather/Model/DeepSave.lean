import Feather.Async.System
import Feather.Embedding.Values
import Feather.Model.Saving

/-!
# Saving an object with the objects it refers to

`deepSave:` of `MPDeepSaver.m` saves an object and sends itself to the marked objects in its
properties, in a graph that may have cycles.  Whether a document can be written is decided anew at
every write.

The answers of the nested calls are dropped, and a save clears marks before they are looked at.  So
the answer is right if the receiver cannot be written, or if the list of the objects to look at comes
to an end with every write on the way made and nothing left out (`Covers`).
-/

namespace Feather.Model.DeepSave

open Async Relation Option

variable {α : Type}
variable {fuel : ℕ}

/-- The class declared for a property, as far as `deepSave:` tells classes apart. -/
inductive PropertyClass
  | managedObject
  | embeddedObject
  | array
  | set
  | dictionary
  | other
  deriving DecidableEq

/-- A property: its key, the class declared for it, and the objects in it. -/
structure Property (α : Type) where
  key : String
  propClass : PropertyClass
  values : List α

/-- The objects in a property that `deepSave:` looks at; `none` where it raises. -/
def Property.followed (p : Property α) : Option (List α) :=
  if Embedding.hasPrefix "effective" p.key then
    some []
  else if (p.propClass = .managedObject ∨ p.propClass = .embeddedObject) ∧
      p.key ≠ "evaluatedObject" ∧ ¬Embedding.hasPrefix "parent" p.key ∧
      ¬Embedding.hasPrefix "cached" p.key then
    some p.values
  else if Embedding.hasPrefix "embedded" p.key then
    match p.propClass with
    | .array | .set | .dictionary => some p.values
    | _ => none
  else
    some []

/-- Managed and embedded objects, the latter with embedding objects up to a managed one.  `marked`
are the managed objects that a save marks before it writes them, setting a time or a session. -/
structure Graph (α : Type) where
  embeddingObject : α → Option α
  depth : α → ℕ
  properties : α → List (Property α)
  marked : α → Bool
  depth_lt : ∀ x y, embeddingObject x = some y → depth y < depth x
  isSome_embeddingObject : ∀ x, ∀ p ∈ properties x, p.propClass = .embeddedObject →
    ∀ y ∈ p.values, (embeddingObject y).isSome

namespace Graph

variable (g : Graph α)

/-- The managed object that a `save:` is handed up to. -/
def root (x : α) : α :=
  (fun y => (g.embeddingObject y).getD y)^[g.depth x] x

/-- The objects in the `embeddedProperties`. -/
def embeddedObjects (x : α) : List α :=
  ((g.properties x).filter fun p => p.propClass = .embeddedObject).flatMap Property.values

/-- `deepSave:` of one object looks at another. -/
def Follows (x y : α) : Prop :=
  ∃ p ∈ g.properties x, ∃ ys, p.followed = some ys ∧ y ∈ ys

instance [DecidableEq α] (x y : α) : Decidable (g.Follows x y) :=
  decidable_of_iff (∃ p ∈ g.properties x, ∃ ys ∈ p.followed, y ∈ ys) Iff.rfl

/-- The objects that `deepSave:` of `x` looks at, in order; `none` if a property makes it raise. -/
def followed (x : α) : Option (List α) := ((g.properties x).mapM Property.followed).map List.flatten

end Graph

/-- The `needsSave` flags, the other changes, the writes, the failed ones, and the error. -/
structure State (α : Type) where
  needsSave : α → Bool
  changed : α → Bool
  writes : ℕ
  failures : List α
  outError : Option α

/-- There is nothing to save. -/
def State.isClean (s : State α) (x : α) : Bool :=
  !s.needsSave x && !s.changed x

section

variable [DecidableEq α] (g : Graph α) (outcome : ℕ → α → Bool)

/-- The steps of `save:` of a managed object.  A document that is written clears the marks of the
object and of the objects embedded in it. -/
def saveSteps (x : α) : SaveSteps (State α) where
  isClean s := s.isClean x
  prepare s :=
    { s with
      needsSave := Function.update s.needsSave x (s.needsSave x || g.marked x)
      writes := s.writes + 1 }
  complete s :=
    { s with
      needsSave := fun y => if y = x ∨ y ∈ g.embeddedObjects x then false else s.needsSave y
      changed := Function.update s.changed x false }

/-- The document of a managed object is written. -/
def written (x : α) (s : State α) : State α :=
  (saveSteps g x).complete ((saveSteps g x).prepare s)

/-- The document of a managed object cannot be written. -/
def failed (x : α) (s : State α) : State α :=
  { (saveSteps g x).prepare s with
    failures := s.failures ++ [x]
    outError := some x }

/-- `save:`, with the outcome of each write. -/
def save (x : α) (s : State α) : Bool × State α :=
  match (saveSteps g (g.root x)).save (outcome s.writes (g.root x)) s with
  | (true, s') => (true, s')
  | (false, _) => (false, failed g (g.root x) s)

/-- The visit of an object in a property, where `deepSave` is what it is sent. -/
def visitObject (deepSave : α → State α → Option (Bool × State α)) (y : α) (s : State α) :
    Option (State α) :=
  if s.needsSave y then (deepSave y s).map Prod.snd else some s

/-- `deepSave:` for one property. -/
def visitProperty (deepSave : α → State α → Option (Bool × State α)) (p : Property α)
    (s : State α) : Option (State α) :=
  p.followed.bind fun ys => run (visitObject deepSave) ys s

/-- `deepSave:`, with a bound on the depth; `none` where that is too small or it raises. -/
def deepSave : ℕ → α → State α → Option (Bool × State α)
  | 0, _, _ => none
  | fuel + 1, x, s =>
    match save g outcome x s with
    | (false, s) => some (false, s)
    | (true, s) => (run (visitProperty (deepSave fuel)) (g.properties x) s).map fun s => (true, s)

/-- The call returns; it answers yes only if no marked reachable object is left unsaved; and if a
save failed, it answers no and leaves the error. -/
def DeepSaves (x : α) (s : State α) : Prop :=
  ∃ bound answer s', (∀ fuel ≥ bound, deepSave g outcome fuel x s = some (answer, s')) ∧
    (answer = true → ∀ y, ReflTransGen g.Follows x y → s.needsSave y = true →
      s'.isClean (g.root y) = true) ∧
    (s'.failures ≠ s.failures → answer = false ∧ s'.outError.isSome)

/-- An object is saved if it is asked to: its managed object is clean, or can be written. -/
def Saves (x : α) (s : State α) : Prop :=
  s.isClean (g.root x) = true ∨ outcome s.writes (g.root x) = true

/-- The state once an object is saved. -/
def saved (x : α) (s : State α) : State α :=
  if s.isClean (g.root x) then s else written g (g.root x) s

/-- Looking at the objects of a list, one after the other, and at those that a marked one refers to
before the rest, comes to an end: each marked one has been saved or its managed object was clean. -/
inductive Covers : List α → State α → State α → Prop
  | done (s : State α) : Covers [] s s
  | unmarked {y : α} {work : List α} {s t : State α} (hmark : s.needsSave y = false)
      (hrest : Covers work s t) : Covers (y :: work) s t
  | marked {y : α} {ys work : List α} {s t : State α} (hmark : s.needsSave y = true)
      (hsaves : Saves g outcome y s) (hys : g.followed y = some ys)
      (hrest : Covers (ys ++ work) (saved g y s) t) : Covers (y :: work) s t

end

section

variable {g : Graph α} {x : α}

/-! ### The managed object -/

theorem embeddingObject_iterate (n : ℕ) (hn : g.depth x ≤ n) :
    g.embeddingObject ((fun y => (g.embeddingObject y).getD y)^[n] x) = none := by
  induction n generalizing x with
  | zero =>
    rw [Function.iterate_zero, id]
    cases hx : g.embeddingObject x with
    | none => rfl
    | some y =>
      have := g.depth_lt x y hx
      omega
  | succ n ih =>
    rw [Function.iterate_succ_apply]
    cases hx : g.embeddingObject x with
    | none =>
      rw [getD_none, Function.iterate_fixed (by rw [hx, getD_none]), hx]
    | some y =>
      have hlt := g.depth_lt x y hx
      exact ih (by rw [getD_some]; omega)

theorem embeddingObject_root (x : α) : g.embeddingObject (g.root x) = none :=
  embeddingObject_iterate _ le_rfl

/-- The object that a save is handed up to is not embedded itself. -/
theorem root_notMem_embeddedObjects (x y : α) : g.root x ∉ g.embeddedObjects y := by
  intro hmem
  obtain ⟨p, hp, hx⟩ := List.mem_flatMap.1 hmem
  obtain ⟨hp, hcls⟩ := List.mem_filter.1 hp
  have hsome := g.isSome_embeddingObject y p hp (by simpa using hcls) _ hx
  rw [embeddingObject_root] at hsome
  cases hsome

end

variable {r : Bool × State α}

section

variable [DecidableEq α] {g : Graph α} {outcome : ℕ → α → Bool} {x y : α} {s t : State α}

/-! ### One save -/

theorem isClean_written (s : State α) (x y : α) :
    (written g (g.root x) s).isClean (g.root y) =
      (s.isClean (g.root y) || decide (g.root y = g.root x)) := by
  have hnot := root_notMem_embeddedObjects (g := g) y (g.root x)
  by_cases h : g.root y = g.root x
  · simp [State.isClean, written, saveSteps, h]
  · simp [State.isClean, written, saveSteps, h, hnot]

theorem isClean_failed (h : s.isClean (g.root x) = false) (y : α) :
    (failed g (g.root x) s).isClean (g.root y) = s.isClean (g.root y) := by
  by_cases hy : g.root y = g.root x
  · rw [hy, h]
    rw [State.isClean] at h ⊢
    simp only [failed, saveSteps]
    cases hmark : s.needsSave (g.root x) <;> simp_all
  · simp [State.isClean, failed, saveSteps, hy]

theorem save_of_isClean (h : s.isClean (g.root x) = true) : save g outcome x s = (true, s) := by
  rw [save, SaveSteps.save_of_isClean h]

theorem save_of_writes (h : s.isClean (g.root x) = false)
    (hwt : outcome s.writes (g.root x) = true) :
    save g outcome x s = (true, written g (g.root x) s) := by
  rw [save, SaveSteps.save_of_changed h, hwt, if_pos rfl]
  rfl

theorem save_of_fails (h : s.isClean (g.root x) = false)
    (hwt : outcome s.writes (g.root x) = false) :
    save g outcome x s = (false, failed g (g.root x) s) := by
  rw [save, SaveSteps.save_of_changed h, hwt]

theorem save_of_saves (h : Saves g outcome x s) : save g outcome x s = (true, saved g x s) := by
  rw [saved]
  split_ifs with hcln
  · exact save_of_isClean hcln
  · exact save_of_writes (Bool.eq_false_iff.2 hcln) (h.resolve_left hcln)

theorem save_of_not_saves (h : ¬Saves g outcome x s) :
    save g outcome x s = (false, failed g (g.root x) s) := by
  rw [Saves, not_or, Bool.not_eq_true, Bool.not_eq_true] at h
  exact save_of_fails h.1 h.2

theorem isClean_saved (x : α) (s : State α) : (saved g x s).isClean (g.root x) = true := by
  rw [saved]
  split_ifs with h
  · exact h
  · simp [isClean_written]

theorem failures_saved (x : α) (s : State α) : (saved g x s).failures = s.failures := by
  rw [saved]
  split_ifs <;> rfl

/-! ### The list of the objects to look at -/

omit [DecidableEq α] in
theorem run_visitProperty_eq_some {deep : α → State α → Option (Bool × State α)}
    (ps : List (Property α)) (s t : State α) :
    run (visitProperty deep) ps s = some t ↔
      ∃ yss, ps.mapM Property.followed = some yss ∧ run (visitObject deep) yss.flatten s = some t := by
  induction ps generalizing s with
  | nil => simp
  | cons p ps ih =>
    have hmap : ∀ zs, (p :: ps).mapM Property.followed = some zs ↔ ∃ ys, p.followed = some ys ∧
        ∃ yss, ps.mapM Property.followed = some yss ∧ ys :: yss = zs := by
      simp [bind_eq_some_iff]
    simp only [run_cons_eq_some, ih, hmap, visitProperty, bind_eq_some_iff]
    constructor
    · rintro ⟨u, ⟨ys, hys, hu⟩, yss, hyss, ht⟩
      refine ⟨_, ⟨ys, hys, yss, hyss, rfl⟩, ?_⟩
      rw [List.flatten_cons, run_append, hu]
      exact ht
    · rintro ⟨_, ⟨ys, hys, yss, hyss, rfl⟩, ht⟩
      rw [List.flatten_cons, run_append, bind_eq_some_iff] at ht
      obtain ⟨u, hu, ht⟩ := ht
      exact ⟨u, ⟨ys, hys, hu⟩, yss, hyss, ht⟩

/-- The call ends with a save that fails, or goes on with the objects that the receiver refers to. -/
theorem deepSave_eq_some :
    deepSave g outcome (fuel + 1) x s = some r ↔
      (¬Saves g outcome x s ∧ r = (false, failed g (g.root x) s)) ∨
      (Saves g outcome x s ∧ r.1 = true ∧ ∃ ys, g.followed x = some ys ∧
        run (visitObject (deepSave g outcome fuel)) ys (saved g x s) = some r.2) := by
  rcases r with ⟨answer, t⟩
  rw [deepSave]
  by_cases hsaves : Saves g outcome x s
  · rw [save_of_saves hsaves]
    simp only [map_eq_some_iff, run_visitProperty_eq_some, Prod.mk.injEq, Graph.followed, hsaves,
      not_true, false_and, true_and, false_or]
    constructor
    · rintro ⟨_, ⟨yss, hyss, hrun⟩, rfl, rfl⟩
      exact ⟨rfl, _, ⟨yss, hyss, rfl⟩, hrun⟩
    · rintro ⟨rfl, _, ⟨yss, hyss, rfl⟩, hrun⟩
      exact ⟨t, ⟨yss, hyss, hrun⟩, rfl, rfl⟩
  · rw [save_of_not_saves hsaves]
    simp [hsaves, eq_comm]

/-- Whatever every save keeps is kept by the whole call. -/
theorem deepSave_invariant {P : State α → Prop} (hsave : ∀ z u, P u → P (save g outcome z u).2)
    (hs : P s) (h : deepSave g outcome fuel x s = some r) : P r.2 := by
  induction fuel generalizing x s r with
  | zero => cases h
  | succ fuel ih =>
    have hfirst := hsave x s hs
    rcases deepSave_eq_some.1 h with ⟨hno, rfl⟩ | ⟨hsaves, -, ys, -, hrun⟩
    · rwa [save_of_not_saves hno] at hfirst
    · rw [save_of_saves hsaves] at hfirst
      refine run_invariant (fun y u u' hu hvisit => ?_) hfirst hrun
      rw [visitObject] at hvisit
      split_ifs at hvisit
      · obtain ⟨r, hr, rfl⟩ := map_eq_some_iff.1 hvisit
        exact ih hu hr
      · obtain rfl := some.inj hvisit
        exact hu

theorem failures_prefix_save (x : α) (s : State α) :
    s.failures <+: (save g outcome x s).2.failures := by
  by_cases h : Saves g outcome x s
  · rw [save_of_saves h, failures_saved]
  · rw [save_of_not_saves h]
    exact List.prefix_append _ _

theorem failures_prefix_deepSave (h : deepSave g outcome fuel x s = some r) :
    s.failures <+: r.2.failures :=
  deepSave_invariant (P := fun u => s.failures <+: u.failures)
    (fun z u hu => hu.trans (failures_prefix_save z u)) List.prefix_rfl h

omit [DecidableEq α] in
/-- What is looked at is called if it is marked. -/
theorem visitObject_eq_some {deep : α → State α → Option (Bool × State α)} {y : α} :
    visitObject deep y s = some t ↔
      (s.needsSave y = false ∧ t = s) ∨ (s.needsSave y = true ∧ ∃ r, deep y s = some r ∧ r.2 = t) := by
  rw [visitObject]
  cases s.needsSave y with
  | false => simp [eq_comm]
  | true => simp

theorem failures_prefix_run {ys : List α}
    (h : run (visitObject (deepSave g outcome fuel)) ys s = some t) : s.failures <+: t.failures := by
  refine run_invariant (P := fun u => s.failures <+: u.failures) ?_ List.prefix_rfl h
  intro y u u' hu hvisit
  rcases visitObject_eq_some.1 hvisit with ⟨-, rfl⟩ | ⟨-, r, hr, rfl⟩
  · exact hu
  · exact hu.trans (failures_prefix_deepSave hr)

/-- Calls in which no save fails work off the list. -/
theorem covers_of_run {ys work : List α} {t' : State α}
    (h : run (visitObject (deepSave g outcome fuel)) ys s = some t)
    (hfailures : t.failures = s.failures) (hrest : Covers g outcome work t t') :
    Covers g outcome (ys ++ work) s t' := by
  induction fuel using Nat.strong_induction_on generalizing ys work s t t' with
  | _ fuel ihfuel =>
    induction ys generalizing s with
    | nil =>
      obtain rfl := some.inj h
      exact hrest
    | cons y ys ih =>
      obtain ⟨u, hu, hrun⟩ := run_cons_eq_some.1 h
      rcases visitObject_eq_some.1 hu with ⟨hmark, rfl⟩ | ⟨hmark, r, hr, rfl⟩
      · exact .unmarked hmark (ih hrun hfailures)
      -- no save fails before the end of the call, and none behind it
      have hsame : r.2.failures = s.failures := by
        have hle := failures_prefix_run hrun
        rw [hfailures] at hle
        exact hle.eq_of_length_le (failures_prefix_deepSave hr).length_le
      cases fuel with
      | zero => cases hr
      | succ n =>
        rcases deepSave_eq_some.1 hr with ⟨-, rfl⟩ | ⟨hsaves, -, zs, hzs, hcalls⟩
        · simp [failed] at hsame
        · refine .marked hmark hsaves hzs (ihfuel n (by omega) hcalls ?_ (ih hrun ?_))
          · rw [hsame, failures_saved]
          · rw [hfailures, hsame]

theorem failures_of_covers {work : List α} (h : Covers g outcome work s t) :
    t.failures = s.failures := by
  induction h with
  | done s => rfl
  | unmarked _ _ ih => exact ih
  | marked _ _ _ _ ih => rw [ih, failures_saved]

/-- A greater depth changes nothing in a call that returns. -/
theorem deepSave_of_le {fuel' : ℕ} (hle : fuel ≤ fuel') (h : deepSave g outcome fuel x s = some r) :
    deepSave g outcome fuel' x s = some r := by
  induction fuel generalizing fuel' x s r with
  | zero => cases h
  | succ fuel ih =>
    obtain ⟨n, rfl⟩ := Nat.exists_eq_add_of_le' (Nat.one_le_of_lt hle)
    rw [deepSave_eq_some] at h ⊢
    refine h.imp_right fun ⟨hsaves, hyes, ys, hys, hrun⟩ => ⟨hsaves, hyes, ys, hys, ?_⟩
    refine run_mono (fun y u u' hvisit => ?_) hrun
    rw [visitObject_eq_some] at hvisit ⊢
    exact hvisit.imp_right fun ⟨hmark, r, hr, hru⟩ => ⟨hmark, r, ih (by omega) hr, hru⟩

/-- A list that is worked off is so by calls that return, with any depth from some bound on. -/
theorem run_of_covers {work : List α} (h : Covers g outcome work s t) :
    ∃ bound, ∀ fuel ≥ bound, run (visitObject (deepSave g outcome fuel)) work s = some t := by
  induction h with
  | done s => exact ⟨0, fun _ _ => rfl⟩
  | unmarked hmark _ ih =>
    obtain ⟨bound, hbound⟩ := ih
    refine ⟨bound, fun fuel hfuel => run_cons_eq_some.2 ⟨_, ?_, hbound fuel hfuel⟩⟩
    exact visitObject_eq_some.2 (.inl ⟨hmark, rfl⟩)
  | @marked y ys work s t hmark hsaves hys _ ih =>
    obtain ⟨bound, hbound⟩ := ih
    obtain ⟨u, hu, -⟩ := bind_eq_some_iff.1 ((run_append ys work _).symm.trans (hbound bound le_rfl))
    have hcalls : ∀ fuel ≥ bound,
        run (visitObject (deepSave g outcome fuel)) ys (saved g y s) = some u := by
      intro fuel hfuel
      refine run_mono (fun z v v' hvisit => ?_) hu
      rw [visitObject_eq_some] at hvisit ⊢
      exact hvisit.imp_right fun ⟨hmark, r, hr, hrv⟩ => ⟨hmark, r, deepSave_of_le hfuel hr, hrv⟩
    refine ⟨bound + 1, fun fuel hfuel => run_cons_eq_some.2 ⟨u, ?_, ?_⟩⟩
    · obtain ⟨n, rfl⟩ := Nat.exists_eq_add_of_le' (Nat.one_le_of_lt hfuel)
      refine visitObject_eq_some.2 (.inr ⟨hmark, (true, u), deepSave_eq_some.2 (.inr ?_), rfl⟩)
      exact ⟨hsaves, rfl, ys, hys, hcalls n (by omega)⟩
    · have hrun := hbound fuel (by omega)
      rwa [run_append, hcalls fuel (by omega)] at hrun

end

/-- A managed object with an embedded object that refers to another managed object. -/
def sampleGraph (direct : Bool) : Graph (Fin 3) where
  embeddingObject := ![none, some 0, none]
  depth := ![0, 1, 0]
  properties :=
    ![[if direct then ⟨"embeddedItem", .embeddedObject, [1]⟩ else ⟨"embeddedItems", .array, [1]⟩],
      [⟨"style", .managedObject, [2]⟩], []]
  marked _ := false
  depth_lt := by decide
  isSome_embeddingObject := by cases direct <;> decide

def sampleState {n : ℕ} (needsSave : Fin n → Bool) : State (Fin n) where
  needsSave := needsSave
  changed _ := false
  writes := 0
  failures := []
  outError := none

section

variable [DecidableEq α] {g : Graph α} {outcome : ℕ → α → Bool} {x y : α} {s t : State α}

/-! ### The writes of a call -/

/-- The managed objects with unsaved changes. -/
def unclean [Fintype α] (g : Graph α) (s : State α) : Finset α :=
  (Finset.univ.image g.root).filter fun z => s.isClean z = false

/-- From `s` to `u` objects were only made clean, each with one write that did not fail. -/
structure Progress [Fintype α] (g : Graph α) (s u : State α) : Prop where
  clean : ∀ y, s.isClean (g.root y) = true → u.isClean (g.root y) = true
  failures : s.failures <+: u.failures
  outError : u.failures ≠ s.failures → u.outError.isSome
  writes : u.writes + s.failures.length + (unclean g u).card =
    s.writes + u.failures.length + (unclean g s).card

theorem unclean_written [Fintype α] (s : State α) (x : α) :
    unclean g (written g (g.root x) s) = (unclean g s).erase (g.root x) := by
  ext z
  simp only [unclean, Finset.mem_filter, Finset.mem_image, Finset.mem_erase, Finset.mem_univ,
    true_and]
  constructor
  · rintro ⟨⟨y, rfl⟩, hz⟩
    rw [isClean_written, Bool.or_eq_false_iff, decide_eq_false_iff_not] at hz
    exact ⟨hz.2, ⟨y, rfl⟩, hz.1⟩
  · rintro ⟨hne, ⟨y, rfl⟩, hz⟩
    refine ⟨⟨y, rfl⟩, ?_⟩
    rw [isClean_written, hz, decide_eq_false hne]
    rfl

theorem unclean_failed [Fintype α] (h : s.isClean (g.root x) = false) :
    unclean g (failed g (g.root x) s) = unclean g s := by
  refine Finset.filter_congr fun z hz => ?_
  obtain ⟨y, -, rfl⟩ := Finset.mem_image.1 hz
  rw [isClean_failed h]

theorem Progress.save [Fintype α] {u : State α} (h : Progress g s u) (z : α) :
    Progress g s (save g outcome z u).2 := by
  cases hz : u.isClean (g.root z) with
  | true => rwa [save_of_isClean hz]
  | false =>
    cases hwt : outcome u.writes (g.root z) with
    | true =>
      rw [save_of_writes hz hwt]
      refine ⟨fun y hy => ?_, h.failures, h.outError, ?_⟩
      · rw [isClean_written, h.clean y hy]
        rfl
      · have hmem : g.root z ∈ unclean g u := by simp [unclean, hz]
        have hcard := Finset.card_erase_add_one hmem
        have hwrites := h.writes
        rw [unclean_written]
        simp only [written, saveSteps]
        omega
    | false =>
      rw [save_of_fails hz hwt]
      refine ⟨fun y hy => ?_, h.failures.trans (List.prefix_append _ _), fun _ => rfl, ?_⟩
      · rw [isClean_failed hz, h.clean y hy]
      · have hwrites := h.writes
        rw [unclean_failed hz]
        simp only [failed, saveSteps, List.length_append, List.length_singleton]
        omega

theorem progress_of_deepSave [Fintype α] {r : Bool × State α}
    (h : deepSave g outcome fuel x s = some r) : Progress g s r.2 :=
  deepSave_invariant (fun z _ hu => hu.save z)
    ⟨fun _ hy => hy, List.prefix_rfl, fun hne => absurd rfl hne, rfl⟩ h

/-- However the writes turn out, a call that returns writes each document at most once with success,
makes no saved object unsaved, and has saved the receiver if it answers yes. -/
theorem deepSave_writesOnce [Fintype α] (g : Graph α) (outcome : ℕ → α → Bool) (fuel : ℕ) (x : α)
    (s s' : State α) (answer : Bool) (h : deepSave g outcome fuel x s = some (answer, s')) :
    Progress g s s' ∧ (answer = true → s'.isClean (g.root x) = true) := by
  refine ⟨progress_of_deepSave h, fun hyes => ?_⟩
  cases fuel with
  | zero => cases h
  | succ fuel =>
    obtain ⟨-, heq⟩ | ⟨-, -, ys, -, hrun⟩ := deepSave_eq_some.1 h
    · cases hyes.symm.trans (Prod.mk.inj heq).1
    · -- the nested calls start where the receiver is clean, and keep it so
      refine run_invariant (P := fun u => u.isClean (g.root x) = true) ?_ (isClean_saved x s) hrun
      intro y u u' hu hvisit
      obtain ⟨-, rfl⟩ | ⟨-, r, hr, rfl⟩ := visitObject_eq_some.1 hvisit
      · exact hu
      · exact (progress_of_deepSave hr).clean x hu

theorem deepSave_writesOnce_items :
    ∃ s', deepSave (sampleGraph false) (fun n _ => decide (n = 0)) 3 0 (sampleState fun _ => true) =
        some (true, s') ∧ Progress (sampleGraph false) (sampleState fun _ => true) s' :=
  ⟨_, rfl, (deepSave_writesOnce _ (fun n _ => decide (n = 0)) 3 0 _ _ true rfl).1⟩

end

end Feather.Model.DeepSave
