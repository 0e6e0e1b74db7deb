import Feather.Async.System
import Mathlib.Data.List.Perm.Basic

/-!
# The contributor that is me

A contributor is the user's if an identity with the identifier of the shared package refers to it
(`isMe` of `MPContributor.m`).  Beside these documents `MPContributorsController.m` has the pointer
`_me`; where it is `nil`, `me` creates a contributor.
-/

namespace Feather.Controllers.Me

open Async List

/-- The document of a contributor identity. -/
structure Identity where
  contributor : String
  identifier : String
  deriving DecidableEq

/-- `stored` and `identities` are documents; `objects` are the contributors in memory, also deleted
ones, and `unsaved` those without a document yet. -/
structure MeStore where
  stored : List String
  stored_nodup : stored.Nodup
  identities : List Identity
  objects : List String
  unsaved : List String
  me : Option String

variable (shared : String) {c d : String} {s s' : MeStore}

/-- There is such a contributor, in memory or in the database. -/
def Known (c : String) (s : MeStore) : Prop := c ∈ s.objects ∨ c ∈ s.stored

instance : Decidable (Known c s) := inferInstanceAs (Decidable (_ ∨ _))

/-- `identities` of a contributor -/
def identitiesOf (c : String) (s : MeStore) : List Identity :=
  s.identities.filter fun identity => identity.contributor = c

/-- `isMe` -/
def isMe (c : String) (s : MeStore) : Bool :=
  ((identitiesOf c s).map Identity.identifier).contains shared

/-- `contributor` of an identity: the object it was made for, or the one found. -/
def contributorOf (identity : Identity) (s : MeStore) : Option String :=
  if Known identity.contributor s then some identity.contributor else none

/-- `contributorsWithContributorIdentifier:` -/
def contributorsWithContributorIdentifier (s : MeStore) : List String :=
  (s.identities.filter fun identity => identity.identifier = shared).filterMap fun identity =>
    contributorOf identity s

/-- `setIsMe:NO` -/
def unclaim (c : String) (s : MeStore) : MeStore :=
  match (identitiesOf c s).find? fun identity => identity.identifier = shared with
  | some identity => { s with identities := s.identities.erase identity }
  | none => s

/-- `setIsMe:` -/
def setIsMe (c : String) : Bool → MeStore → MeStore
  | true, s =>
    -- self already has the required identity, nothing to do.
    if isMe shared c s then s
    else
      -- unclaim existing contributor identities which already claim this identifier (self is me now).
      let s := (contributorsWithContributorIdentifier shared s).foldl (fun s c => unclaim shared c s) s
      { s with identities := s.identities ++ [⟨c, shared⟩], me := some c }
  | false, s => unclaim shared c s

/-- The loop of `existingMe`; `none` where its assertion fails. -/
def existingMeLoop : List String → Option String → MeStore → Option (Option String)
  | [], me, _ => some me
  | c :: rest, me, s =>
    if isMe shared c s then
      if me.isSome then none else existingMeLoop rest (some c) s
    else existingMeLoop rest me s

/-- `existingMe` -/
def existingMe (s : MeStore) : Option (Option String) := existingMeLoop shared s.stored none s

variable {shared}

/-! ### Identities with the identifier of the shared package -/

theorem isMe_iff : isMe shared c s = true ↔ ⟨c, shared⟩ ∈ s.identities := by
  simp only [isMe, identitiesOf, contains_iff_mem, mem_map, mem_filter, decide_eq_true_eq]
  constructor
  · rintro ⟨⟨_, _⟩, ⟨hmem, rfl⟩, rfl⟩
    exact hmem
  · intro hmem
    exact ⟨_, ⟨hmem, rfl⟩, rfl⟩

theorem unclaim_eq :
    unclaim shared c s = { s with identities := s.identities.erase ⟨c, shared⟩ } := by
  rw [unclaim]
  split
  · rename_i identity hfind
    have hid : identity.identifier = shared := by simpa using find?_some hfind
    have hctb : identity.contributor = c := by
      simpa using (mem_filter.1 (mem_of_find?_eq_some hfind)).2
    rw [← hid, ← hctb]
  · rename_i hfind
    have hnotM : (⟨c, shared⟩ : Identity) ∉ s.identities := by
      intro hmem
      have := find?_eq_none.1 hfind ⟨c, shared⟩ (mem_filter.2 ⟨hmem, by simp⟩)
      simp at this
    rw [erase_of_not_mem hnotM]

theorem foldl_unclaim_eq (cs : List String) (s : MeStore) :
    cs.foldl (fun s c => unclaim shared c s) s =
      { s with identities := s.identities.diff (cs.map fun c => ⟨c, shared⟩) } := by
  induction cs generalizing s with
  | nil => rfl
  | cons c cs ih =>
    rw [foldl_cons, ih, unclaim_eq, map_cons, diff_cons]

theorem map_contributorsWithContributorIdentifier :
    (contributorsWithContributorIdentifier shared s).map (fun c => (⟨c, shared⟩ : Identity)) =
      s.identities.filter fun identity =>
        decide (identity.identifier = shared ∧ Known identity.contributor s) := by
  rw [contributorsWithContributorIdentifier]
  generalize s.identities = identities
  induction identities with
  | nil => rfl
  | cons identity identities ih =>
    by_cases hid : identity.identifier = shared
    · by_cases hkn : Known identity.contributor s
      · rw [filter_cons_of_pos (by simpa using hid),
          filter_cons_of_pos (by simp [hid, hkn]),
          filterMap_cons_some (by rw [contributorOf, if_pos hkn]), map_cons, ih,
          ← hid]
      · rw [filter_cons_of_pos (by simpa using hid),
          filter_cons_of_neg (by simp [hkn]),
          filterMap_cons_none (by rw [contributorOf, if_neg hkn]), ih]
    · rw [filter_cons_of_neg (by simpa using hid),
        filter_cons_of_neg (by simp [hid]), ih]

theorem count_diff_filter {α : Type} [DecidableEq α] (l : List α) (p : α → Bool) (a : α) :
    (l.diff (l.filter p)).count a = if p a then 0 else l.count a := by
  rw [count_diff]
  by_cases hp : p a
  · rw [if_pos hp, count_filter hp, Nat.sub_self]
  · have hzero : (l.filter p).count a = 0 :=
      count_eq_zero.2 fun hmem => hp (mem_filter.1 hmem).2
    rw [if_neg hp, hzero, Nat.sub_zero]

/-- How often an identity is there after a contributor was made to be me. -/
theorem count_setIsMe (hc : isMe shared c s = false) (identity : Identity) :
    (setIsMe shared c true s).identities.count identity =
      (if identity.identifier = shared ∧ Known identity.contributor s then 0
        else s.identities.count identity) + if identity = ⟨c, shared⟩ then 1 else 0 := by
  simp only [setIsMe, hc, Bool.false_eq_true, if_false, foldl_unclaim_eq,
    map_contributorsWithContributorIdentifier, count_append, count_diff_filter, decide_eq_true_eq]
  congr 1
  by_cases heq : identity = ⟨c, shared⟩
  · simp [heq]
  · rw [if_neg heq, count_eq_zero]
    simpa using heq

/-- A contributor made to be me is the only one, but for those not there any more. -/
theorem isMe_setIsMe (hc : isMe shared c s = false) :
    isMe shared d (setIsMe shared c true s) = true ↔
      d = c ∨ ¬Known d s ∧ isMe shared d s = true := by
  rw [isMe_iff, isMe_iff, ← count_pos_iff, count_setIsMe hc]
  by_cases hdc : d = c
  · simp [hdc]
  · have hne : (⟨d, shared⟩ : Identity) ≠ ⟨c, shared⟩ := fun h => hdc (congrArg Identity.contributor h)
    by_cases hkn : Known d s <;> simp [hdc, hkn]

theorem isMe_of_isMe_unclaim (h : isMe shared d (unclaim shared c s) = true) :
    isMe shared d s = true := by
  rw [isMe_iff, unclaim_eq] at h
  exact isMe_iff.2 (mem_of_mem_erase h)

theorem setIsMe_frame (b : Bool) : (setIsMe shared c b s).stored = s.stored ∧
    (setIsMe shared c b s).objects = s.objects ∧ (setIsMe shared c b s).unsaved = s.unsaved := by
  cases b with
  | false =>
    rw [setIsMe, unclaim_eq]
    exact ⟨rfl, rfl, rfl⟩
  | true =>
    rw [setIsMe, foldl_unclaim_eq]
    split_ifs <;> exact ⟨rfl, rfl, rfl⟩

theorem known_setIsMe (b : Bool) : Known d (setIsMe shared c b s) ↔ Known d s := by
  obtain ⟨hsto, hobs, -⟩ := @setIsMe_frame shared c s b
  rw [Known, Known, hsto, hobs]

/-! ### `existingMe` -/

theorem existingMeLoop_of_forall_not {l : List String} (h : ∀ c ∈ l, isMe shared c s = false)
    (me : Option String) : existingMeLoop shared l me s = some me := by
  induction l with
  | nil => rfl
  | cons c l ih =>
    obtain ⟨hc, hl⟩ := forall_mem_cons.1 h
    rw [existingMeLoop, if_neg (by simp [hc]), ih hl]

theorem existingMeLoop_eq {l : List String} (hl : l.Nodup)
    (hone : ∀ c ∈ l, ∀ d ∈ l, isMe shared c s → isMe shared d s → c = d) :
    existingMeLoop shared l none s = some (l.find? fun c => isMe shared c s) := by
  induction l with
  | nil => rfl
  | cons c l ih =>
    obtain ⟨hcl, hl⟩ := nodup_cons.1 hl
    by_cases hc : isMe shared c s
    · have hrest : ∀ d ∈ l, isMe shared d s = false := by
        intro d hd
        rw [Bool.eq_false_iff]
        intro hdme
        have heq := hone c mem_cons_self d (mem_cons_of_mem c hd) hc hdme
        exact hcl (heq ▸ hd)
      rw [existingMeLoop, if_pos hc, existingMeLoop_of_forall_not hrest,
        find?_cons_of_pos (p := fun c => isMe shared c s) hc]
      rfl
    · rw [existingMeLoop, if_neg hc, find?_cons_of_neg (p := fun c => isMe shared c s) hc]
      exact ih hl fun a ha b hb => hone a (mem_cons_of_mem c ha) b (mem_cons_of_mem c hb)

/-! ### One contributor that is me -/

/-- A call of `setIsMe:`, of a contributor that there is. -/
def callSetIsMe (shared : String) (call : String × Bool) (s : MeStore) : Option MeStore :=
  if Known call.1 s then some (setIsMe shared call.1 call.2 s) else none

/-- At most one contributor is me, and it is there. -/
structure AtMostOne (shared : String) (s : MeStore) : Prop where
  known : ∀ c, isMe shared c s → Known c s
  unique : ∀ c d, isMe shared c s → isMe shared d s → c = d

theorem AtMostOne.isMe_iff_eq (h : AtMostOne shared s) :
    isMe shared d (setIsMe shared c true s) ↔ d = c := by
  by_cases hc : isMe shared c s
  · rw [setIsMe, if_pos hc]
    exact ⟨fun hd => h.unique d c hd hc, fun hd => hd ▸ hc⟩
  · rw [isMe_setIsMe (by simpa using hc), or_iff_left_iff_imp]
    rintro ⟨hunk, hd⟩
    exact absurd (h.known d hd) hunk

theorem AtMostOne.setIsMe (h : AtMostOne shared s) (hc : Known c s) (b : Bool) :
    AtMostOne shared (setIsMe shared c b s) := by
  cases b with
  | true =>
    refine ⟨fun d hd => ?_, fun d e hd he => ?_⟩
    · rw [h.isMe_iff_eq] at hd
      rw [known_setIsMe, hd]
      exact hc
    · rw [h.isMe_iff_eq] at hd he
      rw [hd, he]
  | false =>
    refine ⟨fun d hd => ?_, fun d e hd he => ?_⟩
    · rw [known_setIsMe]
      exact h.known d (isMe_of_isMe_unclaim hd)
    · exact h.unique d e (isMe_of_isMe_unclaim hd) (isMe_of_isMe_unclaim he)

theorem AtMostOne.existingMe (h : AtMostOne shared s) :
    existingMe shared s = some (s.stored.find? fun c => isMe shared c s) :=
  existingMeLoop_eq s.stored_nodup fun c _ d _ => h.unique c d

theorem AtMostOne.run {calls : List (String × Bool)} (h : AtMostOne shared s)
    (hrun : run (callSetIsMe shared) calls s = some s') : AtMostOne shared s' := by
  refine run_invariant (fun call t t' ht hstep => ?_) h hrun
  rw [callSetIsMe] at hstep
  split_ifs at hstep with hkn
  obtain rfl := Option.some.inj hstep
  exact ht.setIsMe hkn call.2

/-- From a package without an identity of the shared package, any calls of `setIsMe:` leave at most
one contributor that is me, and `existingMe` does not fail.  A further `setIsMe:YES` makes its
receiver the only one; `existingMe` returns it exactly if it is in the database. -/
theorem setIsMe_unique (shared : String) (s₀ s : MeStore) (calls : List (String × Bool))
    (hnone : ∀ identity ∈ s₀.identities, identity.identifier ≠ shared)
    (hrun : run (callSetIsMe shared) calls s₀ = some s) :
    (∀ c d, isMe shared c s → isMe shared d s → c = d) ∧
      (∃ me, existingMe shared s = some me) ∧
      ∀ c, Known c s →
        (∀ d, isMe shared d (setIsMe shared c true s) ↔ d = c) ∧
          (existingMe shared (setIsMe shared c true s) = some (some c) ↔ c ∈ s.stored) := by
  have hfst : AtMostOne shared s₀ := by
    have hnot : ∀ c, ¬isMe shared c s₀ := fun c hc => hnone _ (isMe_iff.1 hc) rfl
    exact ⟨fun c hc => absurd hc (hnot c), fun c d hc => absurd hc (hnot c)⟩
  have hone := hfst.run hrun
  refine ⟨hone.unique, ⟨_, hone.existingMe⟩, fun c hc => ⟨fun d => hone.isMe_iff_eq, ?_⟩⟩
  have hme : isMe shared c (setIsMe shared c true s) := hone.isMe_iff_eq.2 rfl
  rw [(hone.setIsMe hc true).existingMe, (setIsMe_frame true).1, Option.some.injEq]
  refine ⟨mem_of_find?_eq_some, fun hsto => ?_⟩
  cases hfind : s.stored.find? fun d => isMe shared d (setIsMe shared c true s) with
  | none => exact absurd hme (find?_eq_none.1 hfind c hsto)
  | some d =>
    have hd : isMe shared d (setIsMe shared c true s) :=
      find?_some (p := fun d => isMe shared d (setIsMe shared c true s)) hfind
    rw [hone.isMe_iff_eq.1 hd]

/-- Two saved contributors, one of them with an identity of another kind. -/
def pairStore : MeStore where
  stored := ["a", "b"]
  stored_nodup := by decide
  identities := [⟨"a", "orcid"⟩]
  objects := []
  unsaved := []
  me := none

theorem setIsMe_unique_pair :
    existingMe "shoebox" (setIsMe "shoebox" "b" true (setIsMe "shoebox" "a" true pairStore)) =
      some (some "b") :=
  ((setIsMe_unique "shoebox" pairStore _ [("a", true)] (by decide) rfl).2.2 "b" (by decide)).2.2
    (by decide)

/-- A contributor that `me` has created, not saved yet, is made to be me: `existingMe` returns none.
-/
theorem existingMe_setIsMe_unsaved :
    isMe "shoebox" "c" (setIsMe "shoebox" "c" true
        { pairStore with objects := ["c"], unsaved := ["c"], me := some "c" }) ∧
      existingMe "shoebox" (setIsMe "shoebox" "c" true
        { pairStore with objects := ["c"], unsaved := ["c"], me := some "c" }) = some none := by
  decide

/-! ### The pointer -/

/-- A store with the contributors that `me` has created, and who was me before. -/
structure Ledger where
  store : MeStore
  made : List String
  cleared : List String

/-- A package that was just opened. -/
def opened (stored : List String) (hstored : stored.Nodup) (identities : List Identity) : MeStore :=
  ⟨stored, hstored, identities, [], [], none⟩

/-- The identifier of a contributor that was never there. -/
def Fresh (c : String) (l : Ledger) : Prop :=
  ¬Known c l.store ∧ (∀ identity ∈ l.store.identities, identity.contributor ≠ c) ∧ c ∉ l.cleared ∧
    c ∉ l.made

instance (c : String) (l : Ledger) : Decidable (Fresh c l) :=
  inferInstanceAs (Decidable (_ ∧ _ ∧ _ ∧ _))

/-- The contributor is in the database, or still to be saved. -/
def Present (c : String) (s : MeStore) : Prop := c ∈ s.stored ∨ c ∈ s.unsaved

instance : Decidable (Present c s) := inferInstanceAs (Decidable (_ ∨ _))

/-- The cleared contributors after a call of `setIsMe:`. -/
def clearedAfter (shared : String) (s s' : MeStore) (cleared : List String) : List String :=
  ((s.identities.map Identity.contributor).filter (fun c => isMe shared c s) ++ cleared).filter
    fun c => !isMe shared c s'

/-- `newObject` -/
def newObject (c : String) (s : MeStore) : MeStore :=
  { s with objects := c :: s.objects, unsaved := c :: s.unsaved }

/-- `me`; a contributor that it creates gets the identifier `fresh`. -/
def getMe (fresh : String) (s : MeStore) : MeStore :=
  match s.me with
  | some _ => s
  | none => { newObject fresh s with me := some fresh }

/-- `save` of a contributor -/
def saveContributor (c : String) (s : MeStore) (hc : c ∉ s.stored) : MeStore :=
  { s with
    stored := c :: s.stored
    stored_nodup := nodup_cons.2 ⟨hc, s.stored_nodup⟩
    unsaved := s.unsaved.filter (· ≠ c) }

/-- `deleteDocument` of a contributor; its identities and the pointer are left as they are. -/
def deleteContributor (c : String) (s : MeStore) : MeStore :=
  { s with
    stored := s.stored.filter (· ≠ c)
    stored_nodup := s.stored_nodup.filter _
    objects := c :: s.objects }

/-- What happens to the contributors of a package. -/
inductive MeEvent
  | setIsMe (c : String) (isMe : Bool)
  | delete (c : String)
  | reopen
  | me (fresh : String)
  | create (c : String)
  | save (c : String)
  deriving DecidableEq

/-- One event. -/
def MeEvent.step (shared : String) : MeEvent → Ledger → Option Ledger
  | .setIsMe c b, l =>
    if Known c l.store then
      let s := Me.setIsMe shared c b l.store
      some ⟨s, l.made, clearedAfter shared l.store s l.cleared⟩
    else none
  | .delete c, l =>
    if Known c l.store then some { l with store := deleteContributor c l.store } else none
  | .reopen, l =>
    some { l with store := opened l.store.stored l.store.stored_nodup l.store.identities }
  | .me fresh, l =>
    if l.store.me = none then
      if Fresh fresh l then some { l with store := getMe fresh l.store, made := fresh :: l.made }
      else none
    else some l
  | .create c, l => if Fresh c l then some { l with store := newObject c l.store } else none
  | .save c, l =>
    if c ∈ l.store.unsaved then
      if hc : c ∉ l.store.stored then some { l with store := saveContributor c l.store hc } else some l
    else none

/-- A contributor of the database that is me is the one that `me` returns; of those that `me` has
created at most one is there, and it does not return one that was cleared. -/
structure MeAgrees (shared : String) (l : Ledger) : Prop where
  found : ∀ c ∈ l.store.stored, isMe shared c l.store → l.store.me = some c
  once : ∀ c ∈ l.made, ∀ d ∈ l.made, Present c l.store → Present d l.store → c = d
  kept : ∀ c, l.store.me = some c → c ∉ l.cleared

/-- The package is not reopened with a contributor that is me; without a pointer, `me` is not asked
while one it has created is there; and the one it returns is not told that it is not me. -/
def MeEvent.Meets (shared : String) : MeEvent → Ledger → Prop
  | .reopen, l => ∀ c ∈ l.store.stored, ¬isMe shared c l.store
  | .me _, l => l.store.me = none → ∀ c ∈ l.made, ¬Present c l.store
  | .setIsMe c false, l => ¬(l.store.me = some c ∧ isMe shared c l.store)
  | _, _ => True

section Pointer

variable {l l' : Ledger} {fresh : String}

theorem mem_clearedAfter {cleared : List String} :
    d ∈ clearedAfter shared s s' cleared ↔
      (isMe shared d s ∨ d ∈ cleared) ∧ ¬isMe shared d s' := by
  have hctb : isMe shared d s → d ∈ s.identities.map Identity.contributor :=
    fun hd => mem_map.2 ⟨⟨d, shared⟩, isMe_iff.1 hd, rfl⟩
  simp only [clearedAfter, mem_filter, mem_append, Bool.not_eq_true', Bool.not_eq_true]
  exact and_congr_left fun _ => or_congr_left (and_iff_right_of_imp hctb)

/-- What the pointer has in common with the documents, for all contributors. -/
structure Follows (shared : String) (l : Ledger) : Prop where
  found : ∀ c, Known c l.store → isMe shared c l.store → l.store.me = some c
  single : ∀ c, Known c l.store → l.store.identities.count ⟨c, shared⟩ ≤ 1
  unsaved : ∀ c ∈ l.store.unsaved, c ∈ l.store.objects
  once : ∀ c ∈ l.made, ∀ d ∈ l.made, Present c l.store → Present d l.store → c = d
  kept : ∀ c, l.store.me = some c → c ∉ l.cleared

theorem Follows.meAgrees (h : Follows shared l) : MeAgrees shared l where
  found c hc := h.found c (.inr hc)
  once := h.once
  kept := h.kept

theorem not_isMe_of_fresh (h : Fresh c l) : ¬isMe shared c l.store :=
  fun hme => h.2.1 _ (isMe_iff.1 hme) rfl

/-- A contributor that is known through a change that adds `c`. -/
theorem Follows.of_known (h : Follows shared l) {store : MeStore}
    (hkn : ∀ d, Known d store → Known d l.store ∨ Fresh d l)
    (hids : store.identities = l.store.identities)
    (huns : ∀ d ∈ store.unsaved, d ∈ store.objects) (hme : store.me = l.store.me)
    (hpre : ∀ d ∈ l.made, Present d store → Present d l.store) :
    Follows shared { l with store := store } where
  found d hd hdme := by
    have hdme : isMe shared d l.store := isMe_iff.2 (hids ▸ isMe_iff.1 hdme)
    rcases hkn d hd with hd | hd
    · exact hme.trans (h.found d hd hdme)
    · exact absurd hdme (not_isMe_of_fresh hd)
  single d hd := by
    rw [hids]
    rcases hkn d hd with hd | hd
    · exact h.single d hd
    · rw [count_eq_zero.2 fun hmem => hd.2.1 _ hmem rfl]
      exact Nat.zero_le 1
  unsaved := huns
  once c hc d hd hcp hdp := h.once c hc d hd (hpre c hc hcp) (hpre d hd hdp)
  kept d hd := h.kept d (hme ▸ hd)

theorem Follows.create (h : Follows shared l) (hc : Fresh c l) :
    Follows shared { l with store := newObject c l.store } := by
  refine h.of_known (fun d hd => ?_) rfl (fun d hd => ?_) rfl fun d hd hdp => ?_
  · rcases hd with hd | hd
    · rcases mem_cons.1 hd with rfl | hd
      · exact .inr hc
      · exact .inl (.inl hd)
    · exact .inl (.inr hd)
  · rcases mem_cons.1 hd with rfl | hd
    · exact mem_cons_self
    · exact mem_cons_of_mem c (h.unsaved d hd)
  · refine hdp.imp_right fun hdu => (mem_cons.1 hdu).resolve_left ?_
    rintro rfl
    exact hc.2.2.2 hd

theorem Follows.save (h : Follows shared l) (hc : c ∈ l.store.unsaved) (hsto : c ∉ l.store.stored) :
    Follows shared { l with store := saveContributor c l.store hsto } := by
  refine h.of_known (fun d hd => .inl ?_) rfl (fun d hd => ?_) rfl fun d _ hdp => ?_
  · rcases hd with hd | hd
    · exact .inl hd
    · rcases mem_cons.1 hd with rfl | hd
      · exact .inl (h.unsaved d hc)
      · exact .inr hd
  · exact h.unsaved d (mem_filter.1 hd).1
  · rcases hdp with hds | hdu
    · rcases mem_cons.1 hds with rfl | hds
      · exact .inr hc
      · exact .inl hds
    · exact .inr (mem_filter.1 hdu).1

theorem Follows.delete (h : Follows shared l) (hc : Known c l.store) :
    Follows shared { l with store := deleteContributor c l.store } := by
  refine h.of_known (fun d hd => .inl ?_) rfl (fun d hd => ?_) rfl
    fun d _ hdp => hdp.imp_left fun hds => (mem_filter.1 hds).1
  · rcases hd with hd | hd
    · rcases mem_cons.1 hd with rfl | hd
      · exact hc
      · exact .inl hd
    · exact .inr (mem_filter.1 hd).1
  · exact mem_cons_of_mem c (h.unsaved d hd)

theorem getMe_of_none (h : s.me = none) :
    getMe fresh s = { newObject fresh s with me := some fresh } := by
  rw [getMe, h]

theorem Follows.getMe (h : Follows shared l) (hnone : l.store.me = none) (hfr : Fresh fresh l)
    (hmade : ∀ c ∈ l.made, ¬Present c l.store) :
    Follows shared { l with store := getMe fresh l.store, made := fresh :: l.made } := by
  have hcre := h.create hfr
  rw [getMe_of_none hnone]
  -- of the contributors created before, none is there
  have heq (c : String) (hc : c ∈ fresh :: l.made) (hpre : Present c (newObject fresh l.store)) :
      c = fresh := by
    refine (mem_cons.1 hc).resolve_right fun hold => hmade c hold (hpre.imp_right fun hu => ?_)
    exact (mem_cons.1 hu).resolve_left fun heq => hfr.2.2.2 (heq ▸ hold)
  refine ⟨fun d hd hdme => ?_, hcre.single, hcre.unsaved, fun c hc d hd hcp hdp => ?_, fun d hd => ?_⟩
  · exact absurd (hnone.symm.trans (hcre.found d hd hdme)) (by simp)
  · exact (heq c hc hcp).trans (heq d hd hdp).symm
  · rw [← Option.some.inj hd]
    exact hfr.2.2.1

theorem Follows.reopen (h : Follows shared l)
    (hmee : ∀ c ∈ l.store.stored, ¬isMe shared c l.store) :
    Follows shared
      { l with store := opened l.store.stored l.store.stored_nodup l.store.identities } where
  found c hc hme := by
    have hsto : c ∈ l.store.stored := hc.resolve_left not_mem_nil
    exact absurd (isMe_iff.2 (isMe_iff.1 hme)) (hmee c hsto)
  single c hc := h.single c (.inr (hc.resolve_left not_mem_nil))
  unsaved c hc := absurd hc not_mem_nil
  once c hc d hd hcp hdp := h.once c hc d hd (.inl (hcp.resolve_right not_mem_nil))
    (.inl (hdp.resolve_right not_mem_nil))
  kept c hc := by cases hc

theorem me_setIsMe (hc : isMe shared c s = false) : (setIsMe shared c true s).me = some c := by
  rw [setIsMe, if_neg (by simp [hc])]

theorem me_unclaim : (unclaim shared c s).me = s.me := by rw [unclaim_eq]

/-- The contributor that is made to be me is the one of the pointer. -/
theorem Follows.setIsMe_true (h : Follows shared l) :
    Follows shared ⟨setIsMe shared c true l.store, l.made,
      clearedAfter shared l.store (setIsMe shared c true l.store) l.cleared⟩ := by
  by_cases hme : isMe shared c l.store
  · have hsame : setIsMe shared c true l.store = l.store := by rw [setIsMe, if_pos hme]
    rw [hsame]
    refine ⟨h.found, h.single, h.unsaved, h.once, fun d hd hcle => ?_⟩
    obtain ⟨hd' | hd', hnot⟩ := mem_clearedAfter.1 hcle
    · exact hnot hd'
    · exact h.kept d hd hd'
  · rw [Bool.not_eq_true] at hme
    obtain ⟨hsto, hobs, huns⟩ := @setIsMe_frame shared c l.store true
    constructor
    · intro d hd hdme
      rcases (isMe_setIsMe hme).1 hdme with rfl | ⟨hunk, -⟩
      · exact me_setIsMe hme
      · exact absurd ((known_setIsMe true).1 hd) hunk
    · intro d hd
      have hkn : Known d l.store := (known_setIsMe true).1 hd
      rw [count_setIsMe hme, if_pos ⟨rfl, hkn⟩]
      split_ifs <;> simp
    · intro d hd
      rw [hobs]
      exact h.unsaved d (huns ▸ hd)
    · simpa only [Present, hsto, huns] using h.once
    · intro d hd hcle
      obtain rfl : c = d := Option.some.inj ((me_setIsMe hme).symm.trans hd)
      exact (mem_clearedAfter.1 hcle).2 ((isMe_setIsMe hme).2 (.inl rfl))

theorem Follows.setIsMe_false (h : Follows shared l)
    (hmee : ¬(l.store.me = some c ∧ isMe shared c l.store)) :
    Follows shared ⟨setIsMe shared c false l.store, l.made,
      clearedAfter shared l.store (setIsMe shared c false l.store) l.cleared⟩ := by
  have hids : (unclaim shared c l.store).identities = l.store.identities.erase ⟨c, shared⟩ := by
    rw [unclaim_eq]
  obtain ⟨hsto, hobs, huns⟩ := @setIsMe_frame shared c l.store false
  constructor
  · intro d hd hdme
    exact me_unclaim.trans (h.found d ((known_setIsMe false).1 hd) (isMe_of_isMe_unclaim hdme))
  · intro d hd
    show (unclaim shared c l.store).identities.count ⟨d, shared⟩ ≤ 1
    rw [hids]
    exact (erase_sublist.count_le _).trans (h.single d ((known_setIsMe false).1 hd))
  · intro d hd
    rw [hobs]
    exact h.unsaved d (huns ▸ hd)
  · simpa only [Present, hsto, huns] using h.once
  · intro d hd hcle
    have hpoi : l.store.me = some d := me_unclaim.symm.trans hd
    obtain ⟨hdme | hdcl, hnot⟩ := mem_clearedAfter.1 hcle
    · -- the contributor of the pointer is another one, whose identity stays
      have hne : d ≠ c := by
        rintro rfl
        exact hmee ⟨hpoi, hdme⟩
      refine hnot (isMe_iff.2 ?_)
      show _ ∈ (unclaim shared c l.store).identities
      rw [hids]
      exact (mem_erase_of_ne fun heq => hne (congrArg Identity.contributor heq)).2
        (isMe_iff.1 hdme)
    · exact h.kept d hpoi hdcl

/-- The contributor of the pointer loses its only identity. -/
theorem not_meAgrees_of_setIsMe_false (h : Follows shared l) (hc : Known c l.store)
    (hme : l.store.me = some c) (hisMe : isMe shared c l.store) :
    ¬MeAgrees shared ⟨setIsMe shared c false l.store, l.made,
      clearedAfter shared l.store (setIsMe shared c false l.store) l.cleared⟩ := by
  intro hagr
  refine hagr.kept c (me_unclaim.trans hme) (mem_clearedAfter.2 ⟨.inl hisMe, fun hsti => ?_⟩)
  have hcnt := h.single c hc
  have hids : (unclaim shared c l.store).identities = l.store.identities.erase ⟨c, shared⟩ := by
    rw [unclaim_eq]
  have hpos : 0 < (unclaim shared c l.store).identities.count ⟨c, shared⟩ :=
    count_pos_iff.2 (isMe_iff.1 hsti)
  rw [hids, count_erase_self] at hpos
  omega

theorem follows_step {event : MeEvent} (h : Follows shared l) (hmee : event.Meets shared l)
    (hstep : event.step shared l = some l') : Follows shared l' := by
  cases event with
  | setIsMe c b =>
    rw [MeEvent.step] at hstep
    split_ifs at hstep
    obtain rfl := Option.some.inj hstep
    cases b with
    | true => exact h.setIsMe_true
    | false => exact h.setIsMe_false hmee
  | delete c =>
    rw [MeEvent.step] at hstep
    split_ifs at hstep with hc
    obtain rfl := Option.some.inj hstep
    exact h.delete hc
  | reopen =>
    obtain rfl := Option.some.inj hstep
    exact h.reopen hmee
  | me fresh =>
    rw [MeEvent.step] at hstep
    split_ifs at hstep with hnone hfr
    · obtain rfl := Option.some.inj hstep
      exact h.getMe hnone hfr (hmee hnone)
    · obtain rfl := Option.some.inj hstep
      exact h
  | create c =>
    rw [MeEvent.step] at hstep
    split_ifs at hstep with hfr
    obtain rfl := Option.some.inj hstep
    exact h.create hfr
  | save c =>
    rw [MeEvent.step] at hstep
    split_ifs at hstep with hc hsto
    · obtain rfl := Option.some.inj hstep
      exact h
    · obtain rfl := Option.some.inj hstep
      exact h.save hc hsto

theorem meets_of_meAgrees {event : MeEvent} (h : Follows shared l)
    (hstep : event.step shared l = some l') (hagr : MeAgrees shared l') :
    event.Meets shared l := by
  cases event with
  | setIsMe c b =>
    cases b with
    | true => trivial
    | false =>
      rw [MeEvent.step] at hstep
      split_ifs at hstep with hc
      obtain rfl := Option.some.inj hstep
      rintro ⟨hme, hisMe⟩
      exact not_meAgrees_of_setIsMe_false h hc hme hisMe hagr
  | reopen =>
    obtain rfl := Option.some.inj hstep
    intro c hc hme
    exact absurd (hagr.found c hc (isMe_iff.2 (isMe_iff.1 hme))) (by simp [opened])
  | me fresh =>
    intro hnone c hc hpre
    rw [MeEvent.step, if_pos hnone] at hstep
    split_ifs at hstep with hfr
    obtain rfl := Option.some.inj hstep
    -- the new contributor would be a second one
    have heq := hagr.once c (mem_cons_of_mem _ hc) fresh mem_cons_self
    rw [getMe_of_none hnone] at heq
    refine hfr.2.2.2 (heq ?_ (.inr mem_cons_self) ▸ hc)
    exact hpre.imp_right (mem_cons_of_mem _)
  | _ => trivial

theorem follows_opened {stored : List String} (hsto : stored.Nodup) {identities : List Identity}
    (hnone : ∀ c ∈ stored, ⟨c, shared⟩ ∉ identities) :
    Follows shared ⟨opened stored hsto identities, [], []⟩ where
  found c hc hme := absurd (isMe_iff.1 hme) (hnone c (hc.resolve_left not_mem_nil))
  single c hc := by
    show identities.count ⟨c, shared⟩ ≤ 1
    rw [count_eq_zero.2 (hnone c (hc.resolve_left not_mem_nil))]
    exact Nat.zero_le 1
  unsaved c hc := absurd hc not_mem_nil
  once c hc := absurd hc not_mem_nil
  kept c hc := by cases hc

end Pointer

/-- From the opening of any package, the pointer agrees with the documents in every state exactly if
no contributor is me at first and each event meets the condition. -/
theorem meAgrees_iff (shared : String) (stored : List String) (hstored : stored.Nodup)
    (identities : List Identity) (schedule : List MeEvent) :
    Throughout (MeEvent.step shared) (MeAgrees shared) schedule
        ⟨opened stored hstored identities, [], []⟩ ↔
      (∀ c ∈ stored, ⟨c, shared⟩ ∉ identities) ∧
        EachStep (MeEvent.step shared) (MeEvent.Meets shared) schedule
          ⟨opened stored hstored identities, [], []⟩ := by
  have hrule : (∀ c ∈ stored, ⟨c, shared⟩ ∉ identities) →
      (Throughout (MeEvent.step shared) (MeAgrees shared) schedule
          ⟨opened stored hstored identities, [], []⟩ ↔
        EachStep (MeEvent.step shared) (MeEvent.Meets shared) schedule
          ⟨opened stored hstored identities, [], []⟩) := by
    intro hnone
    have hfol := follows_opened hstored hnone
    refine throughout_iff (fun _ h => h.meAgrees) (fun event l l' h hstep => ?_)
      (fun event l l' h hmee hstep => follows_step h hmee hstep) hfol
    exact ⟨meets_of_meAgrees h hstep, fun hmee => (follows_step h hmee hstep).meAgrees⟩
  constructor
  · intro h
    have hnone : ∀ c ∈ stored, ⟨c, shared⟩ ∉ identities := by
      intro c hc hmem
      exact absurd (h.first.found c hc (isMe_iff.2 hmem)) (by simp [opened])
    exact ⟨hnone, (hrule hnone).1 h⟩
  · rintro ⟨hnone, h⟩
    exact (hrule hnone).2 h

/-- A contributor that `me` has created is lost when the package is opened again; then the pointer
follows from contributor to contributor. -/
theorem meAgrees_session :
    Throughout (MeEvent.step "shoebox") (MeAgrees "shoebox")
      [.me "c", .reopen, .me "d", .setIsMe "a" true, .setIsMe "b" true, .delete "a"]
      ⟨opened ["a", "b"] (by decide) [], [], []⟩ := by
  refine (meAgrees_iff "shoebox" ["a", "b"] (by decide) [] _).2 ⟨by simp, ?_⟩
  intro l₁ h₁
  obtain rfl := Option.some.inj h₁
  refine ⟨fun _ => by decide, fun l₂ h₂ => ?_⟩
  obtain rfl := Option.some.inj h₂
  refine ⟨show ∀ c ∈ _, ¬isMe "shoebox" c _ by decide, fun l₃ _ => ⟨fun _ => by decide, ?_⟩⟩
  exact fun l₄ _ => ⟨trivial, fun l₅ _ => ⟨trivial, fun l₆ _ => ⟨trivial, trivial⟩⟩⟩

/-- A contributor is made not to be me, or the package is opened again. -/
theorem not_meAgrees_cleared :
    ¬Throughout (MeEvent.step "shoebox") (MeAgrees "shoebox")
        [.setIsMe "a" true, .setIsMe "a" false] ⟨opened ["a", "b"] (by decide) [], [], []⟩ ∧
      ¬Throughout (MeEvent.step "shoebox") (MeAgrees "shoebox")
        [.setIsMe "a" true, .reopen] ⟨opened ["a", "b"] (by decide) [], [], []⟩ := by
  constructor
  · intro h
    have hlast := (h.2 _ rfl).2 _ rfl
    exact hlast.kept "a" (by decide) (by decide)
  · intro h
    have hlast := (h.2 _ rfl).2 _ rfl
    exact absurd (hlast.found "a" (by decide) (by decide)) (by decide)

end Feather.Controllers.Me
