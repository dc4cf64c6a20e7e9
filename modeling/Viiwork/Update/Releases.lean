import Viiwork.Kvshare.Delta
import Viiwork.Lib.Text
import Viiwork.Update.State

/-!
# Viiwork.Update.Releases

The releases directory (`state.go`): a directory for each staged version, with its binary and
the digest that was recorded when it was staged. A binary is only run after it was checked
against that digest (`binary`).

`pruned` is what `Prune` deletes: every staged version but those the state names and the newest
other one. Versions that `Compare` does not order stay in the order of the listing.
-/

namespace Viiwork.Update

open Viiwork.Lib Viiwork.Kvshare List

/-! ### Directories -/

/-- The directory of a staged version. -/
structure StagedDir where
  /-- `viiwork`. -/
  bin : Option Bytes
  /-- `viiwork.sha256`. -/
  sum : Option Bytes
  deriving Repr, DecidableEq

/-- The directories by name, as they are listed. -/
abbrev Releases := List (String × StagedDir)

namespace Releases

def remove (r : Releases) (name : String) : Releases := r.filter fun e => e.1 ≠ name

/-- A directory, renamed into place. -/
def put (r : Releases) (name : String) (d : StagedDir) : Releases := (name, d) :: r.remove name

theorem lookup_remove_of_ne {name other : String} (h : other ≠ name) (r : Releases) :
    (r.remove name).lookup other = r.lookup other := by
  induction r with
  | nil => rfl
  | cons e r ih =>
    unfold remove at ih ⊢
    by_cases he : e.1 = name
    · rw [filter_cons_of_neg (by simpa using he), ih, lookup_cons, he,
        beq_false_of_ne h]
    · rw [filter_cons_of_pos (by simpa using he), lookup_cons, lookup_cons, ih]

theorem lookup_put_self (r : Releases) (name : String) (d : StagedDir) :
    (r.put name d).lookup name = some d := by
  simp [put]

theorem lookup_put_of_ne {name other : String} (h : other ≠ name) (r : Releases) (d : StagedDir) :
    (r.put name d).lookup other = r.lookup other := by
  rw [put, lookup_cons, beq_false_of_ne h, lookup_remove_of_ne h]

end Releases

/-! ### Staged versions -/

def binName : Bytes := Kvshare.ascii "viiwork"

/-- The path of a staged version's binary, after it was checked against its digest. -/
def binary (sha : Sha256) (r : Releases) (version : String) : Except String String :=
  if validVersion version = false then .error ("not a release version: " ++ version.quote)
  else match (r.lookup version).bind StagedDir.sum, (r.lookup version).bind StagedDir.bin with
    | none, _ => .error (version ++ " is not staged: no viiwork.sha256")
    | _, none => .error (version ++ " is not staged: no viiwork")
    | some want, some bin =>
      if trimSpace want ≠ hex (sha.sum bin) then
        .error ("staged " ++ version ++ ": the binary no longer matches its recorded sha256")
      else .ok (version ++ "/viiwork")

/-- A directory is listed as staged once it has a digest. -/
def isStaged (r : Releases) (version : String) : Bool :=
  validVersion version && ((r.lookup version).bind StagedDir.sum).isSome

/-- The first is newer than the second, as far as they are ordered. -/
def newer (a b : String) : Bool := (compare a b).any (0 < ·)

/-- Every staged version, newest first. -/
def staged (r : Releases) : List String :=
  ((r.map Prod.fst).filter (isStaged r)).insertionSort fun a b => newer b a = false

variable {r : Releases} {v : String}

theorem mem_staged : v ∈ staged r ↔ isStaged r v = true := by
  rw [staged, mem_insertionSort, mem_filter]
  refine and_iff_right_of_imp fun h => ?_
  obtain ⟨-, hsum⟩ := Bool.and_eq_true_iff.1 h
  obtain ⟨sum, hsum⟩ := Option.isSome_iff_exists.1 hsum
  obtain ⟨d, hd, -⟩ := Option.bind_eq_some_iff.1 hsum
  obtain ⟨pre, post, rfl, -⟩ := lookup_eq_some_iff.1 hd
  simp

/-! ### Pruning -/

/-- The releases that a state names. -/
def State.names (s : State) : List String := [s.current, s.lastGood, s.previous]

/-- The loop of `Prune`: of the versions not to be kept all go but the first. -/
def pruneFrom (keep : List String) : Bool → List String → List String
  | _, [] => []
  | extra, v :: vs =>
    if v ∈ keep then pruneFrom keep extra vs
    else if extra then v :: pruneFrom keep true vs
    else pruneFrom keep true vs

/-- What `Prune` deletes, in this order. -/
def pruned (s : State) (r : Releases) : List String := pruneFrom s.names false (staged r)

theorem mem_pruneFrom {keep : List String} {vs : List String} :
    ∀ {extra : Bool}, v ∈ pruneFrom keep extra vs → v ∈ vs ∧ v ∉ keep := by
  induction vs with
  | nil =>
    intro extra h
    cases h
  | cons w vs ih =>
    intro extra h
    rw [pruneFrom] at h
    split_ifs at h with hkeep hextra
    · exact ⟨mem_cons_of_mem w (ih h).1, (ih h).2⟩
    · rcases mem_cons.1 h with rfl | h
      · exact ⟨mem_cons_self, hkeep⟩
      · exact ⟨mem_cons_of_mem w (ih h).1, (ih h).2⟩
    · exact ⟨mem_cons_of_mem w (ih h).1, (ih h).2⟩

/-- Nothing that the state names is deleted. -/
theorem mem_pruned {s : State} (h : v ∈ pruned s r) : isStaged r v = true ∧ v ∉ s.names :=
  (mem_pruneFrom h).imp_left mem_staged.1

end Viiwork.Update
