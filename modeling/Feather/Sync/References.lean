import Feather.Sync.Reserialize

/-!
# References between records

An array of objects is written as references, and the objects without a record are serialized first.
A reference in a single property is written whether there is a record or not.
-/

namespace Feather.Sync

open Program Async List Option
open Feather.Embedding

section

variable {env : Environment} {package : Package} {repository repository' : RecordRepository}
  {o : ManagedObject} {nested : ManagedObject → Serializing Unit} {key : String} {raw : Value}

/-- The objects of the arrays in the records have records. -/
def Closed (repository : RecordRepository) : Prop :=
  ∀ id record key ids, repository.lookup id = some record →
    record.object key = some (.references ids) → ∀ x ∈ ids, (repository.lookup x).isSome

theorem closed_withRecord (h : Closed repository) : Closed (withRecord env o repository) := by
  intro id record key ids hrec hobj x hx
  refine (writes_withRecord env o x repository).isSome ?_
  unfold withRecord at hrec
  split at hrec
  · exact h id record key ids hrec hobj x hx
  · by_cases hid : id = recordID env o
    · rw [hid, AList.lookup_insert] at hrec
      cases hrec
      cases hobj
    · rw [AList.lookup_insert_ne hid] at hrec
      exact h id record key ids hrec hobj x hx

theorem closed_withField (h : Closed repository) (id : RecordID) {v : RecordValue}
    (hv : ∀ ids, v = .references ids → ∀ x ∈ ids, (repository.lookup x).isSome) :
    Closed (withField id key v repository) := by
  intro other record key' ids hrec hobj x hx
  refine (writes_withField id key v repository).isSome ?_
  unfold withField at hrec
  split at hrec
  · next old hold =>
    by_cases hid : other = id
    · rw [hid, AList.lookup_insert] at hrec
      cases hrec
      by_cases hkey : key' = key
      · rw [hkey, Record.object, Record.setObject, AList.lookup_insert] at hobj
        exact hv ids (some.inj hobj) x hx
      · rw [Record.object, Record.setObject, AList.lookup_insert_ne hkey] at hobj
        exact h id old key' ids hold hobj x hx
    · rw [AList.lookup_insert_ne hid] at hrec
      exact h other record key' ids hrec hobj x hx
  · exact h other record key' ids hrec hobj x hx

/-- A value that is written itself is no array of references. -/
theorem encode_ne_references {propertyClass : PropertyClass} {val : Option Value}
    {ids : List RecordID} :
    encode env package propertyClass key raw val ≠ .ok (.value (.references ids)) := by
  intro h
  unfold encode unresolved at h
  repeat' split at h
  all_goals cases h

theorem closed_references (hnes : WritesOwn env nested)
    (hcl : ∀ o r r', Closed r → exec (nested o) r = some (.ok ((), r')) → Closed r')
    {ids : List String} {recordIDs : List RecordID} (h : Closed repository)
    (hexec : exec (references env package nested ids) repository =
      some (.ok (recordIDs, repository'))) :
    Closed repository' ∧ ∀ x ∈ recordIDs, (repository'.lookup x).isSome := by
  induction ids generalizing repository recordIDs with
  | nil =>
    cases hexec
    exact ⟨h, by simp⟩
  | cons id ids ih =>
    rw [references] at hexec
    split at hexec
    · cases hexec
    · next item hobj =>
      obtain ⟨_, repository₁, hfst, hrest⟩ := exec_bind_eq_ok.1 hexec
      obtain ⟨rest, repository₂, hrefs, hpure⟩ := exec_bind_eq_ok.1 hrest
      cases hpure
      have hitem : Closed repository₁ ∧ (repository₁.lookup (recordID env item)).isSome := by
        unfold ensureRecord at hfst
        simp only [exec_bind, exec_get, andThen_ok] at hfst
        split at hfst
        · next hsome =>
          cases hfst
          exact ⟨h, hsome⟩
        · obtain ⟨fields, hwr⟩ := hnes item repository repository₁ hfst
          obtain ⟨record, hrec, -⟩ := exists_lookup_withRecord env item repository
          exact ⟨hcl item repository repository₁ h hfst, hwr.isSome (by rw [hrec]; rfl)⟩
      obtain ⟨hclosed, hrefs'⟩ := ih hitem.1 hrefs
      have hwr := (writes_of_exec_references hnes hrefs).2 (recordID env item)
      refine ⟨hclosed, forall_mem_cons.2 ⟨hwr.isSome hitem.2, hrefs'⟩⟩

theorem closed_refreshAll (hnes : WritesOwn env nested)
    (hcl : ∀ o r r', Closed r → exec (nested o) r = some (.ok ((), r')) → Closed r')
    {entries : List (Sigma fun _ : String => Value)} (h : Closed repository)
    (hexec : exec (refreshAll env package nested o entries) repository =
      some (.ok ((), repository'))) : Closed repository' := by
  induction entries generalizing repository with
  | nil =>
    cases hexec
    exact h
  | cons x entries ih =>
    rw [refreshAll] at hexec
    split at hexec
    · exact ih h hexec
    · obtain ⟨_, repository₁, hfst, hrest⟩ := exec_bind_eq_ok.1 hexec
      refine ih ?_ hrest
      unfold refresh at hfst
      split at hfst
      · cases hfst
      · split at hfst
        · cases hfst
        · next v henc =>
          cases hfst
          refine closed_withField h _ fun ids hv => ?_
          exact absurd (hv ▸ henc) encode_ne_references
        · obtain ⟨recordIDs, repository₂, hrefs, hset⟩ := exec_bind_eq_ok.1 hfst
          cases hset
          obtain ⟨hclosed, hsome⟩ := closed_references hnes hcl h hrefs
          exact closed_withField hclosed _ fun ids hv => by cases hv; exact hsome

theorem closed_serialize (fuel : ℕ) : ∀ o r r', Closed r →
    exec (serialize env package fuel o) r = some (.ok ((), r')) → Closed r' := by
  induction fuel with
  | zero =>
    intro o r r' _ hexec
    cases hexec
  | succ fuel ih =>
    intro o r r' h hexec
    rw [serialize] at hexec
    cases hdoc : o.document with
    | none =>
      rw [hdoc] at hexec
      cases hexec
    | some document =>
      rw [hdoc] at hexec
      exact closed_refreshAll (writesOwn_serialize env package fuel) ih (closed_withRecord h) hexec

namespace Session

/-- In every history of an object, its record and those made with it refer to records only. -/
theorem closed_throughout (env : Environment) (others : List ManagedObject)
    (history : List Change) (object : ManagedObject) :
    Throughout (step env others) (fun s => Closed s.repository) history ⟨object, ∅⟩ := by
  refine throughout_of_run fun past s hrun => ?_
  refine run_invariant (P := fun s : Session => Closed s.repository) ?_ ?_ hrun
  · intro change s s' h hstep
    cases change with
    | set key v =>
      simp only [step] at hstep
      split at hstep <;> cases hstep
      exact h
    | save now =>
      cases hstep
      exact h
    | serialize =>
      simp only [step] at hstep
      split at hstep
      · next repository hexec =>
        cases hstep
        exact closed_serialize _ s.object s.repository repository h hexec
      · cases hstep
  · intro id record key ids hrec
    cases hrec

end Session

end

end Feather.Sync
