import Viiwork.Kvshare.Store

/-!
# Viiwork.Kvshare.Evict

Eviction (`store.go`, `evict`): the replicas are surveyed one after the other, then the
least recently put ones are removed while the store holds more than it may. `Clean`, before
the store serves, only surveys, and removes what a stop left behind.

The key's lock is held for one replica at a time, in the survey and in the removal, so
puts can come between. `ents` is what the store's directory lists; the size of a replica's
files is a parameter. Replicas put at the same instant keep the order of the listing.
-/

namespace Viiwork.Kvshare

open Viiwork.Lib Store List

/-- A replica as the survey found it. -/
structure Rep where
  key : Name
  bytes : Nat
  updated : Int
  deriving Repr, DecidableEq

/-- What a store holds. -/
structure Usage where
  replicas : Nat
  bytes : Nat
  deriving Repr, DecidableEq

/-- The state of the directory, if it has one that decodes. -/
def stateIn (dir : Option Dir) : Option ReplicaState :=
  match stateOf dir with
  | .ok st => st
  | .error _ => none

/-- The directory holds a complete replica. -/
def isComplete (dir : Option Dir) : Bool := (stateIn dir).any ReplicaState.complete

variable (size : Dir → Nat)

/-- One entry of the survey. Instants count from Go's zero time, which a replica without a
state has. -/
def survey (clean : Bool) (key : Name) : StoreM (Option Rep) := do
  let s ← Prog.get
  if clean && !isComplete (s.dirs key) then do
    Prog.act (removeAll key)
    return none
  else
    return some ⟨key, ((s.dirs key).map size).getD 0,
      ((stateIn (s.dirs key)).map ReplicaState.updated).getD 0⟩

def surveyAll (clean : Bool) : List Name → StoreM (List Rep)
  | [] => pure []
  | key :: ents => do
      let r ← survey size clean key
      let reps ← surveyAll clean ents
      return r.toList ++ reps

/-- Removes one replica and its manifest. -/
def removeReplica (key : Name) : StoreM Unit := do
  Prog.act (removeAll key)
  Prog.act (setManifest key none)

/-- The loop over the replicas, oldest first. -/
def evictOldest (maxBytes : Int) : List Rep → Usage → StoreM Usage
  | [], u => pure u
  | r :: reps, u =>
    if u.bytes ≤ maxBytes then pure u
    else do
      removeReplica r.key
      evictOldest maxBytes reps ⟨u.replicas - 1, u.bytes - r.bytes⟩

/-- `evict`; the empty name excepts no key. -/
def evict (maxBytes : Int) (except : Name) (clean : Bool) (ents : List Name) : StoreM Usage := do
  let reps ← surveyAll size clean (ents.filter validKey)
  let u : Usage := ⟨reps.length, (reps.map Rep.bytes).sum⟩
  if maxBytes < 0 ∨ u.bytes ≤ maxBytes then return u
  else
    evictOldest maxBytes
      ((reps.filter fun r => r.key != except).insertionSort fun a b => a.updated ≤ b.updated) u

/-- `evict` on a listing of directories, of which those that are stores of their own are skipped. -/
def evictListed (isStore : Name → Bool) (maxBytes : Int) (except : Name) (clean : Bool)
    (ents : List Name) : StoreM Usage :=
  evict size maxBytes except clean (ents.filter fun key => !isStore key)

/-! ### What is removed -/

/-- A replica as it is in the store. -/
def repOf (s : Store) (key : Name) : Rep :=
  ⟨key, ((s.dirs key).map size).getD 0, ((stateIn (s.dirs key)).map ReplicaState.updated).getD 0⟩

/-- The replicas of a listing. -/
def replicas (isStore : Name → Bool) (s : Store) (ents : List Name) : List Rep :=
  ((ents.filter fun key => !isStore key).filter validKey).map (repOf size s)

def usageOf (reps : List Rep) : Usage := ⟨reps.length, (reps.map Rep.bytes).sum⟩

theorem run_surveyListed (ents : List Name) (s : Store) :
    (surveyAll size false ents).run s = (.ok (ents.map (repOf size s)), s) := by
  induction ents with
  | nil => rfl
  | cons key ents ih =>
    rw [surveyAll, survey, Prog.run_bind_ok rfl, Prog.run_bind_ok ih]
    rfl

/-- The store without the replicas. -/
def dropAll (s : Store) (reps : List Rep) : Store := reps.foldl (fun s r => s.drop r.key) s

theorem dropAll_dirs (s : Store) (reps : List Rep) (key : Name) :
    (dropAll s reps).dirs key = if key ∈ reps.map Rep.key then none else s.dirs key := by
  induction reps generalizing s with
  | nil => rfl
  | cons r reps ih =>
    rw [dropAll, foldl_cons, ← dropAll, ih]
    by_cases hr : key = r.key
    · simp [hr, Store.drop, Store.removeAll, setManifest]
    · simp [hr, Store.drop, Store.removeAll, setManifest]

/-- **The loop** removes replicas until the budget is kept, and none after that. -/
theorem run_shortest (maxBytes : Int) (reps : List Rep) (u : Usage) (s : Store) :
    ∃ m ≤ reps.length, (evictOldest maxBytes reps u).run s =
        (.ok ⟨u.replicas - m, u.bytes - ((reps.take m).map Rep.bytes).sum⟩,
          dropAll s (reps.take m)) ∧
      (∀ k < m, maxBytes < (u.bytes - ((reps.take k).map Rep.bytes).sum : Nat)) ∧
      (m = reps.length ∨ (u.bytes - ((reps.take m).map Rep.bytes).sum : Nat) ≤ maxBytes) := by
  induction reps generalizing u s with
  | nil => exact ⟨0, le_refl 0, by simp [evictOldest, dropAll], by simp, .inl rfl⟩
  | cons r reps ih =>
    rw [evictOldest]
    by_cases hfits : (u.bytes : Int) ≤ maxBytes
    · rw [if_pos hfits]
      exact ⟨0, Nat.zero_le _, by simp [dropAll], by simp, .inr (by simpa using hfits)⟩
    · obtain ⟨m, hm, hrun, hbefore, hend⟩ := ih ⟨u.replicas - 1, u.bytes - r.bytes⟩ (s.drop r.key)
      have hsum : ∀ k, u.bytes - (((r :: reps).take (k + 1)).map Rep.bytes).sum =
          u.bytes - r.bytes - ((reps.take k).map Rep.bytes).sum := by
        intro k
        rw [take_succ_cons, map_cons, sum_cons, Nat.sub_sub]
      refine ⟨m + 1, Nat.succ_le_succ hm, ?_, ?_, ?_⟩
      · have hcount : u.replicas - (m + 1) = u.replicas - 1 - m := by omega
        rw [if_neg hfits, hsum, hcount]
        exact hrun
      · intro k hk
        cases k with
        | zero => simpa using hfits
        | succ k =>
          rw [hsum]
          exact hbefore k (by omega)
      · rw [hsum, length_cons, Nat.add_right_cancel_iff]
        exact hend

/-- What is left of the replicas when some are gone. -/
theorem usageOf_left {reps removed rest : List Rep} (hnodup : (reps.map Rep.key).Nodup)
    (hperm : reps.Perm (removed ++ rest)) :
    usageOf (reps.filter fun r => decide (r.key ∉ removed.map Rep.key)) =
      ⟨reps.length - removed.length,
        (reps.map Rep.bytes).sum - (removed.map Rep.bytes).sum⟩ := by
  have hmap : (removed.map Rep.key ++ rest.map Rep.key).Nodup := by
    rw [← map_append]
    exact (hperm.map Rep.key).nodup_iff.1 hnodup
  have hleft : (reps.filter fun r => decide (r.key ∉ removed.map Rep.key)).Perm rest := by
    refine (hperm.filter _).trans ?_
    rw [filter_append, filter_eq_nil_iff.2, nil_append, filter_eq_self.2]
    · intro r hr
      refine decide_eq_true fun hmem => ?_
      exact (nodup_append.1 hmap).2.2 _ hmem _ (mem_map_of_mem hr) rfl
    · intro r hr hgone
      exact of_decide_eq_true hgone (mem_map_of_mem hr)
  have hlen := hperm.length_eq
  have hsum := (hperm.map Rep.bytes).sum_eq
  rw [length_append] at hlen
  rw [map_append, sum_append] at hsum
  rw [usageOf, hleft.length_eq, (hleft.map Rep.bytes).sum_eq]
  congr 1 <;> omega

/-- The replicas of what a listing has left. -/
theorem replicas_dropAll (isStore : Name → Bool) {s : Store} {ents : List Name}
    (hlisted : ∀ key ∈ ents, (s.dirs key).isSome) (removed : List Rep) :
    replicas size isStore (dropAll s removed)
        (ents.filter fun key => ((dropAll s removed).dirs key).isSome) =
      (replicas size isStore s ents).filter fun r => decide (r.key ∉ removed.map Rep.key) := by
  have hkept : ∀ key ∈ ents, ((dropAll s removed).dirs key).isSome =
      decide (key ∉ removed.map Rep.key) := by
    intro key hkey
    rw [dropAll_dirs]
    by_cases hgone : key ∈ removed.map Rep.key
    · rw [if_pos hgone, decide_eq_false (not_not.2 hgone)]
      rfl
    · rw [if_neg hgone, hlisted key hkey, decide_eq_true hgone]
  have hcomm : ((ents.filter fun key => decide (key ∉ removed.map Rep.key)).filter
      fun key => !isStore key).filter validKey =
      ((ents.filter fun key => !isStore key).filter validKey).filter
        fun key => decide (key ∉ removed.map Rep.key) := by
    simp only [filter_filter]
    refine filter_congr ?_
    intro key _
    rw [← Bool.and_assoc, Bool.and_comm]
  rw [replicas, replicas, filter_congr hkept, filter_map, hcomm]
  refine map_congr_left ?_
  intro key hkey
  have hgone := of_decide_eq_true (mem_filter.1 hkey).2
  rw [repOf, repOf, dropAll_dirs, if_neg hgone]

/-- The replicas that may go, the least recently put first. -/
def removable (except : Name) (reps : List Rep) : List Rep :=
  (reps.filter fun r => r.key != except).insertionSort fun a b => a.updated ≤ b.updated

/-- Two replicas with the same size in a store. -/
def twoReplicas : Store :=
  { Store.new with dirs := fun key => if key = [97] ∨ key = [98] then some .empty else none }

end Viiwork.Kvshare
