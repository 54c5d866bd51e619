import Panoptes.Lib.Sparse
import Panoptes.Sdk.Clock

/-!
# Authorized voters

`programs/vote/src/authorized_voters.rs`: the key that may sign votes, by epoch.  An epoch without
an entry has the voter of the latest earlier epoch that has one, so the map is a sparse map and
lookups are `latest`.

* `getAuthorizedVoter`, `getAndCacheAuthorizedVoterForEpoch`, `purgeAuthorizedVoters` — look up,
  look up and record, forget the past.
* `getAndUpdate` — the lookup of the vote program, which records the voter of the current epoch and
  forgets all earlier ones.

Principal results: `getAndUpdate_eq`, the lookup never aborts from the earliest recorded epoch on,
and `getAuthorizedVoter_updated`, it does not change who may vote from that epoch on.
-/

set_option autoImplicit false

namespace Panoptes.VoteProgram

open Lib Sdk
open Std (ExtTreeMap)

structure AuthorizedVoters where
  authorizedVoters : ExtTreeMap Nat Pubkey

namespace AuthorizedVoters

def default : AuthorizedVoters := ⟨∅⟩

def new (epoch : Nat) (pubkey : Pubkey) : AuthorizedVoters :=
  ⟨(∅ : ExtTreeMap Nat Pubkey).insert epoch pubkey⟩

variable (av : AuthorizedVoters)

/-- `get_or_calculate_authorized_voter_for_epoch`: the voter, and whether the epoch has an entry. -/
def getOrCalculateAuthorizedVoterForEpoch (epoch : Nat) : Option (Pubkey × Bool) :=
  match av.authorizedVoters[epoch]? with
  | some pubkey => some (pubkey, true)
  | none => (below av.authorizedVoters epoch).getLast?.map fun entry => (entry.2, false)

def getAuthorizedVoter (epoch : Nat) : Option Pubkey :=
  (av.getOrCalculateAuthorizedVoterForEpoch epoch).map (·.1)

/-- `get_and_cache_authorized_voter_for_epoch`: the voter and the new map. -/
def getAndCacheAuthorizedVoterForEpoch (epoch : Nat) : Option (Pubkey × AuthorizedVoters) :=
  (av.getOrCalculateAuthorizedVoterForEpoch epoch).map fun (pubkey, existed) =>
    (pubkey, if existed then av else ⟨av.authorizedVoters.insert epoch pubkey⟩)

def insert (av : AuthorizedVoters) (epoch : Nat) (authorizedVoter : Pubkey) : AuthorizedVoters :=
  ⟨av.authorizedVoters.insert epoch authorizedVoter⟩

def isEmpty (av : AuthorizedVoters) : Bool := av.authorizedVoters.isEmpty

def purgeAuthorizedVoters (currentEpoch : Nat) : Except Panic AuthorizedVoters := do
  let av' : AuthorizedVoters :=
    ⟨av.authorizedVoters.filter fun epoch _ => decide (currentEpoch ≤ epoch)⟩
  let _ ← assert (av'.isEmpty = false)
  .ok av'

def first : Option (Nat × Pubkey) := av.authorizedVoters.toList.head?

def last : Option (Nat × Pubkey) := av.authorizedVoters.toList.getLast?

def contains (epoch : Nat) : Bool := av.authorizedVoters[epoch]?.isSome

/-! ## Lookups -/

variable {av : AuthorizedVoters} {epoch e : Nat}

/-- Some entry is at or before `epoch`: the lookups of the vote program are made only there. -/
def Known (av : AuthorizedVoters) (epoch : Nat) : Prop :=
  ∃ e, e ≤ epoch ∧ av.contains e = true

theorem getAuthorizedVoter_eq (av : AuthorizedVoters) (epoch : Nat) :
    av.getAuthorizedVoter epoch = latest av.authorizedVoters epoch := by
  unfold getAuthorizedVoter getOrCalculateAuthorizedVoterForEpoch latest
  cases av.authorizedVoters[epoch]? with
  | some pubkey => rfl
  | none => simp [Function.comp_def]

theorem Known.voter {av : AuthorizedVoters} {epoch : Nat} (h : av.Known epoch) :
    ∃ pubkey, av.getAuthorizedVoter epoch = some pubkey := by
  obtain ⟨e, hle, he⟩ := h
  rw [getAuthorizedVoter_eq]
  exact exists_latest he hle

theorem known_of_voter {av : AuthorizedVoters} {epoch : Nat} {pubkey : Pubkey}
    (h : av.getAuthorizedVoter epoch = some pubkey) : av.Known epoch := by
  rw [getAuthorizedVoter_eq, latest_eq_some_iff] at h
  obtain ⟨e, he⟩ := h
  exact ⟨e, he.le, by rw [contains, he.get]; rfl⟩

theorem Known.mono {epoch' : Nat} (h : av.Known epoch) (hle : epoch ≤ epoch') :
    av.Known epoch' := by
  obtain ⟨e, he, hc⟩ := h
  exact ⟨e, he.trans hle, hc⟩

theorem isEmpty_of_contains {av : AuthorizedVoters} {epoch : Nat} (h : av.contains epoch = true) :
    av.isEmpty = false := by
  unfold isEmpty
  rw [Bool.eq_false_iff]
  intro hempty
  rw [ExtTreeMap.isEmpty_iff] at hempty
  simp [contains, hempty] at h

theorem mem_of_not_isEmpty (h : av.isEmpty = false) :
    (∃ entry, av.first = some entry ∧ av.contains entry.1 = true) ∧
      ∃ entry, av.last = some entry ∧ av.contains entry.1 = true := by
  have hne : av.authorizedVoters.toList ≠ [] := by
    intro hnil
    have := ExtTreeMap.isEmpty_toList (t := av.authorizedVoters)
    rw [hnil] at this
    unfold isEmpty at h
    rw [h] at this
    cases this
  have hcontains : ∀ entry ∈ av.authorizedVoters.toList, av.contains entry.1 = true := by
    intro entry hentry
    unfold contains
    rw [ExtTreeMap.mem_toList_iff_getElem?_eq_some.mp hentry]
    rfl
  exact ⟨⟨_, List.head?_eq_some_head hne, hcontains _ (List.head_mem hne)⟩,
    ⟨_, List.getLast?_eq_some_getLast hne, hcontains _ (List.getLast_mem hne)⟩⟩

section

variable (av : AuthorizedVoters)

theorem contains_insert (epoch e : Nat) (pubkey : Pubkey) :
    (av.insert epoch pubkey).contains e = (decide (e = epoch) || av.contains e) := by
  unfold contains insert
  rw [ExtTreeMap.getElem?_insert]
  by_cases h : e = epoch
  · subst h
    simp
  · rw [if_neg (by rw [compare_eq_iff_eq]; exact fun h' => h h'.symm)]
    simp [h]

/-- A new voter for a later epoch does not change the voter of an earlier one. -/
theorem getAuthorizedVoter_insert (pubkey : Pubkey)
    (h : e < epoch) : (av.insert epoch pubkey).getAuthorizedVoter e = av.getAuthorizedVoter e := by
  rw [getAuthorizedVoter_eq, getAuthorizedVoter_eq]
  exact latest_insert_of_lt pubkey h

/-! ## Lookup and update -/

/-- The entry of `epoch` is recorded, and only entries from `epoch` on are kept. -/
def updated (epoch : Nat) (pubkey : Pubkey) : AuthorizedVoters :=
  ⟨(if av.contains epoch then av.authorizedVoters
    else av.authorizedVoters.insert epoch pubkey).filter
    fun e _ => decide (epoch ≤ e)⟩

/-- The map of `get_and_update_authorized_voter`: look up, record, purge. -/
def getAndUpdate (currentEpoch : Nat) : Except Panic (Pubkey × AuthorizedVoters) := do
  let found ← expect
    "Internal functions should\n        only call this will monotonically increasing current_epoch"
    (av.getAndCacheAuthorizedVoterForEpoch currentEpoch)
  let purged ← found.2.purgeAuthorizedVoters currentEpoch
  .ok (found.1, purged)

theorem contains_updated (epoch e : Nat) (pubkey : Pubkey) :
    (av.updated epoch pubkey).contains e =
      (decide (epoch ≤ e) && (decide (e = epoch) || av.contains e)) := by
  have hfilter : ∀ m : ExtTreeMap Nat Pubkey,
      (m.filter fun e _ => decide (epoch ≤ e))[e]?.isSome =
        (decide (epoch ≤ e) && m[e]?.isSome) := by
    intro m
    rw [ExtTreeMap.getElem?_filter']
    by_cases h : epoch ≤ e <;> cases m[e]? <;> simp [h]
  unfold updated
  rw [contains, hfilter]
  split
  · rename_i h
    by_cases he : e = epoch
    · subst he
      simp only [contains] at h
      simp [h]
    · simp [he, contains]
  · have := av.contains_insert epoch e pubkey
    rw [contains, insert] at this
    rw [this]

end

/-- **The lookup of the vote program** does not abort from the earliest recorded epoch on. -/
theorem getAndUpdate_eq (h : av.Known epoch) :
    ∃ pubkey, av.getAuthorizedVoter epoch = some pubkey ∧
      av.getAndUpdate epoch = .ok (pubkey, av.updated epoch pubkey) := by
  obtain ⟨pubkey, hvoter⟩ := h.voter
  refine ⟨pubkey, hvoter, ?_⟩
  have hcache : av.getAndCacheAuthorizedVoterForEpoch epoch = some (pubkey,
      ⟨if av.contains epoch then av.authorizedVoters
        else av.authorizedVoters.insert epoch pubkey⟩) := by
    unfold getAuthorizedVoter getOrCalculateAuthorizedVoterForEpoch at hvoter
    unfold getAndCacheAuthorizedVoterForEpoch getOrCalculateAuthorizedVoterForEpoch contains
    cases hget : av.authorizedVoters[epoch]? with
    | some found =>
      rw [hget] at hvoter
      cases hvoter
      rfl
    | none =>
      rw [hget] at hvoter
      obtain ⟨entry, hlast, hentry⟩ := Option.map_eq_some_iff.mp hvoter
      obtain ⟨entry', hlast', rfl⟩ := Option.map_eq_some_iff.mp hlast
      cases hentry
      simp [hlast']
  have hne : (av.updated epoch pubkey).isEmpty = false :=
    @isEmpty_of_contains _ epoch (by rw [contains_updated]; simp)
  unfold getAndUpdate purgeAuthorizedVoters
  rw [hcache]
  simp only [expect_some, bind, Except.bind]
  unfold updated at hne ⊢
  rw [assert_pos hne]

theorem known_of_getAndUpdate {found : Pubkey × AuthorizedVoters}
    (h : av.getAndUpdate epoch = .ok found) : av.Known epoch := by
  obtain ⟨cached, hcached, -⟩ := bind_eq_ok.mp h
  cases hcalc : av.getOrCalculateAuthorizedVoterForEpoch epoch with
  | none =>
    rw [getAndCacheAuthorizedVoterForEpoch, hcalc] at hcached
    cases hcached
  | some entry => exact @known_of_voter av epoch entry.1 (by rw [getAuthorizedVoter, hcalc]; rfl)

/-- **The lookup changes no voter** from its epoch on. -/
theorem getAuthorizedVoter_updated {pubkey : Pubkey} (h : av.getAuthorizedVoter epoch = some pubkey)
    (hle : epoch ≤ e) :
    (av.updated epoch pubkey).getAuthorizedVoter e = av.getAuthorizedVoter e := by
  rw [getAuthorizedVoter_eq] at h
  rw [getAuthorizedVoter_eq, getAuthorizedVoter_eq]
  unfold updated
  split
  · rename_i hc
    exact latest_filter_ge hc hle
  · rw [latest_filter_ge (by simp) hle, latest_insert_cached h]

end AuthorizedVoters

end Panoptes.VoteProgram
