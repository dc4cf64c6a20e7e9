import Viiwork.Kvshare.EngineDelta
import Viiwork.Kvshare.Evict
import Viiwork.Kvshare.Receive
import Viiwork.Lib.Wp

/-!
# Viiwork.Kvshare.Calls

The calls on a store, each under the lock of one key: puts, engine-delta puts, requests
for a manifest, and the two steps of an eviction. Only operations on the key's own
directory and manifest are in them, so what those keep a call keeps (`Call.keeps`): no
call changes another key's replica.

An eviction takes one lock after the other, so it is a run of calls (`run_evict`).
-/

namespace Viiwork.Kvshare

open Viiwork.Lib Store Prog
open Sesshash (Hash)

/-! ### What the operations keep -/

section Keeps

variable {P : Store → Prop} {key : Name}

/-- Every operation on a section file of the key keeps `P`. -/
def SectionsKeep (P : Store → Prop) (key : Name) : Prop :=
  ∀ name f s, P s → P (modifyDir key (onSection name f) s)

/-- Every operation under the key keeps `P`. -/
structure KeptAt (P : Store → Prop) (key : Name) : Prop where
  dir : ∀ f s, P s → P (modifyDir key f s)
  man : ∀ m s, P s → P (setManifest key m s)
  removeAll : ∀ s, P s → P (removeAll key s)
  mkdirAll : ∀ s, P s → P (mkdirAll key s)

theorem KeptAt.sections (h : KeptAt P key) : SectionsKeep P key := fun _ _ => h.dir _

theorem KeptAt.drop (h : KeptAt P key) (s : Store) (hs : P s) : P (Store.drop key s) :=
  h.man none _ (h.removeAll s hs)

theorem keeps_inDir {f : Dir → Dir} (h : ∀ s, P s → P (modifyDir key f s)) :
    (inDir key f).Keeps P :=
  keeps_get.bind fun _ => (keeps_ofExcept _).bind fun _ => keeps_act h

theorem keeps_readState : (readState key).Keeps P := keeps_get.bind fun _ => keeps_ofExcept _

theorem keeps_seq {ι : Type} {step : ι → Rebuild → EngineReader → StoreM (Rebuild × EngineReader)}
    (h : ∀ i b d, (step i b d).Keeps P) (is : List ι) (b : Rebuild) (d : EngineReader) :
    (Rebuild.seq step is b d).Keeps P := by
  induction is generalizing b d with
  | nil => exact keeps_pure _
  | cons i is ih => exact (h i b d).bind fun _ => ih _ _

section

variable (h : SectionsKeep P key)
include h

theorem keeps_patchSection (name : Name) (keep len : Int) (data : Stream) :
    (patchSection key name keep len data).Keeps P := by
  unfold patchSection
  refine (keeps_ofExcept _).bind fun name => (keeps_inDir (h name _)).bind fun _ => ?_
  refine (keeps_ofExcept _).bind fun _ => (keeps_inDir (h name _)).bind fun _ => ?_
  refine (keeps_inDir (h name _)).bind fun _ => ?_
  split
  · exact keeps_fail _
  · exact (keeps_ofExcept _).bind fun _ => keeps_pure _

theorem keeps_putItems (fuel : Nat) (r : DeltaReader) (acc : PutAcc) :
    (putItems key fuel r acc).Keeps P := by
  induction fuel generalizing r acc with
  | zero => exact keeps_fail _
  | succ fuel ih =>
    rw [putItems]
    split
    · split
      · exact keeps_pure _
      · exact keeps_fail _
    · split
      · split
        split
        · exact keeps_fail _
        · exact ih _ _
      · refine (keeps_ofExcept _).bind fun _ => ?_
        exact (keeps_patchSection h _ _ _ _).bind fun _ => ih _ _

theorem keeps_removeSection (name : Name) : (removeSection key name).Keeps P := by
  unfold removeSection
  split
  · exact keeps_pure _
  · exact keeps_inDir (h _ _)

theorem keeps_removeGone (old : List ReplicaItem) (held : Name → Option Nat) :
    (removeGone key old held).Keeps P := by
  unfold removeGone
  generalize old.filter _ = gone
  induction gone with
  | nil => exact keeps_pure _
  | cons it gone ih => exact (keeps_removeSection h it.section_).bind fun _ => ih

/-! ### The payload of an engine delta -/

variable (limit : Nat)

theorem keeps_section (name : Name) (keep size : Int) (b : Rebuild) (d : EngineReader) :
    (b.section_ key name keep size d).Keeps P :=
  (keeps_ofExcept _).bind fun _ => (keeps_patchSection h _ _ _ _).bind fun _ => keeps_pure _

theorem keeps_vec (name : Name) (elem : Nat) (b : Rebuild) (d : EngineReader) :
    (b.vec key limit name elem d).Keeps P := by
  refine (keeps_ofExcept _).bind fun _ => (keeps_ofExcept _).bind fun _ => ?_
  exact keeps_section h _ _ _ _ _

theorem keeps_kv (name : Name) (b : Rebuild) (d : EngineReader) :
    (b.kv key limit name d).Keeps P := by
  refine (keeps_ofExcept _).bind fun _ => (keeps_ofExcept _).bind fun _ => ?_
  refine (keeps_ofExcept _).bind fun _ => (keeps_ofExcept _).bind fun _ => ?_
  refine (keeps_section h _ _ _ _ _).bind fun _ => (keeps_ofExcept _).bind fun _ => ?_
  refine (keeps_ofExcept _).bind fun _ => (keeps_ofExcept _).bind fun _ => ?_
  refine keeps_get.bind fun _ => ?_
  exact (keeps_ofExcept _).bind fun _ => (keeps_ofExcept _).bind fun _ => keeps_pure _

theorem keeps_checkpoint (tag : Bytes) (b : Rebuild) (d : EngineReader) :
    (b.checkpoint key limit tag d).Keeps P := by
  refine (keeps_vec h limit _ _ _ _).bind fun _ => (keeps_vec h limit _ _ _ _).bind fun _ => ?_
  refine (keeps_seq ?_ _ _ _).bind fun _ => keeps_ofExcept _
  exact fun part b d => keeps_vec h limit _ _ _ _

theorem keeps_payload (b : Rebuild) (d : EngineReader) : (b.payload key limit d).Keeps P := by
  refine (keeps_ofExcept _).bind fun _ => (keeps_checkpoint h limit _ _ _).bind fun _ => ?_
  refine (keeps_ofExcept _).bind fun _ => (keeps_ofExcept _).bind fun _ => ?_
  refine (keeps_seq (fun i b d => keeps_checkpoint h limit _ _ _) _ _ _).bind fun _ => ?_
  refine (keeps_ofExcept _).bind fun _ => (keeps_ofExcept _).bind fun _ => ?_
  refine keeps_seq (fun i b d => ?_) _ _ _
  refine (keeps_ofExcept _).bind fun _ => ?_
  exact keeps_seq (fun part b d => keeps_kv h limit _ _ _) _ _ _

end

/-! ### Whole puts -/

variable (sha : Sha256) (h : KeptAt P key)
include h

theorem keeps_writeState (st : ReplicaState) : (writeState key st).Keeps P :=
  (keeps_inDir (h.dir _)).bind fun _ => keeps_inDir (h.dir _)

theorem keeps_writeFrames (b : Bytes) : (writeFrames key b).Keeps P :=
  (keeps_inDir (h.dir _)).bind fun _ => keeps_inDir (h.dir _)

theorem keeps_finish (next : ReplicaState) (keeps : Name → Nat) (prevMan : Option Manifest) :
    (finish sha key next keeps prevMan).Keeps P := by
  refine Keeps.attempt (keeps_get.bind fun _ => (keeps_ofExcept _).bind fun _ => ?_)
  refine Keeps.bind ?_ fun _ => keeps_act (h.man _)
  unfold addChunks
  split
  · exact keeps_pure _
  · exact (keeps_ofExcept _).bind fun _ => keeps_writeState h _

theorem keeps_putBody (now : Int) (delta : Stream) (want : Option FileMeta) :
    (putBody key now delta want).Keeps P := by
  refine (keeps_ofExcept _).bind fun r => (keeps_ofExcept _).bind fun _ => ?_
  refine keeps_readState.bind fun old => keeps_get.bind fun _ => ?_
  refine (keeps_act (h.man none)).bind fun _ => Keeps.bind ?_ fun _ => ?_
  · unfold removeUnusable
    split
    · exact keeps_act h.removeAll
    · exact keeps_pure _
  refine (keeps_act h.mkdirAll).bind fun _ => Keeps.bind ?_ fun _ => ?_
  · unfold markIncomplete
    split
    · exact keeps_writeState h _
    · exact keeps_pure _
  refine (keeps_putItems h.sections _ _ _).bind fun acc => ?_
  refine (keeps_removeGone h.sections _ _).bind fun _ => (keeps_writeFrames h _).bind fun _ => ?_
  exact (keeps_writeState h _).bind fun _ => keeps_pure _

theorem keeps_put (now : Int) (delta : Stream) (want : Option FileMeta) :
    (put sha key now delta want).Keeps P := by
  refine (keeps_ofExcept _).bind fun _ => Keeps.bind ?_ fun _ => ?_
  · exact (keeps_putBody h now delta want).onFail h.drop
  · exact (keeps_finish sha h _ _ _).bind fun _ => keeps_pure _

theorem keeps_engineBody (now : Int) (hd : EngineDeltaHeader) (old : ReplicaState) (br : Stream) :
    (engineBody key now hd old br).Keeps P := by
  refine (keeps_writeState h _).bind fun _ => ?_
  refine (keeps_payload h.sections _ _ _).bind fun _ => (keeps_ofExcept _).bind fun _ => ?_
  refine (keeps_removeGone h.sections _ _).bind fun _ => (keeps_writeFrames h _).bind fun _ => ?_
  exact (keeps_writeState h _).bind fun _ => keeps_pure _

theorem keeps_putEngineDelta (now : Int) (delta : Stream) (want : FileMeta) :
    (putEngineDelta sha key now delta want).Keeps P := by
  refine (keeps_ofExcept _).bind fun _ => (keeps_ofExcept _).bind fun _ => ?_
  refine (keeps_ofExcept _).bind fun _ => keeps_readState.bind fun _ => ?_
  refine (keeps_ofExcept _).bind fun _ => keeps_get.bind fun _ => ?_
  refine (keeps_act (h.man none)).bind fun _ => Keeps.bind ?_ fun _ => ?_
  · exact (keeps_engineBody h now _ _ _).onFail h.drop
  · exact (keeps_finish sha h _ _ _).bind fun _ => keeps_pure _

theorem keeps_manifest : (manifest sha key).Keeps P := by
  refine (keeps_ofExcept _).bind fun _ => keeps_get.bind fun s => ?_
  split
  · exact keeps_pure _
  · refine keeps_readState.bind fun st => ?_
    split
    · split
      · refine (keeps_ofExcept _).bind fun _ => ?_
        exact (keeps_act (h.man _)).bind fun _ => keeps_pure _
      · exact keeps_pure _
    · exact keeps_pure _

end Keeps

/-! ### The state a call finds -/

theorem stateOf_eq_ok_some {dir : Option Dir} {st : ReplicaState}
    (h : stateOf dir = .ok (some st)) : ∃ d, dir = some d ∧ d.state = some (.holds st) := by
  unfold stateOf at h
  cases dir with
  | none => cases h
  | some d =>
    refine ⟨d, rfl, ?_⟩
    rw [Option.bind_some] at h
    split at h
    · cases h
    · cases h
    · rename_i hstate
      cases h
      exact hstate

theorem engineBase_eq_ok {h : EngineDeltaHeader} {old : Option ReplicaState} {o : ReplicaState}
    (heq : engineBase h old = .ok o) : old = some o := by
  unfold engineBase at heq
  split at heq
  · cases heq
  · rename_i hfilter
    obtain ⟨_, -, heq⟩ := bind_eq_ok.1 heq
    obtain ⟨_, -, heq⟩ := bind_eq_ok.1 heq
    cases heq
    exact (Option.filter_eq_some_iff.1 hfilter).1

/-! ### The calls -/

inductive Call where
  | put (key : Name) (now : Int) (delta : Stream) (want : Option FileMeta)
  | putEngineDelta (key : Name) (now : Int) (delta : Stream) (want : FileMeta)
  | manifest (key : Name)
  /-- One replica in the survey of an eviction. -/
  | survey (clean : Bool) (key : Name)
  /-- One removal by an eviction. -/
  | removeReplica (key : Name)

namespace Call

def key : Call → Name
  | put key .. => key
  | putEngineDelta key .. => key
  | manifest key => key
  | survey _ key => key
  | removeReplica key => key

variable (sha : Sha256)

/-- The call, without its result. -/
def prog : Call → StoreM Unit
  | put key now delta want => do
      let _ ← Kvshare.put sha key now delta want
  | putEngineDelta key now delta want => do
      let _ ← Kvshare.putEngineDelta sha key now delta want
  | manifest key => do
      let _ ← Kvshare.manifest sha key
  | survey clean key => do
      let _ ← Kvshare.survey (fun _ => 0) clean key
  | removeReplica key => Kvshare.removeReplica key

/-- The store after the call. -/
def after (c : Call) (s : Store) : Store := (Prog.run (c.prog sha) s).2

variable {P : Store → Prop}

theorem keeps (c : Call) (h : KeptAt P c.key) : (c.prog sha).Keeps P := by
  cases c with
  | put key now delta want => exact (keeps_put sha h now delta want).bind fun _ => keeps_pure _
  | putEngineDelta key now delta want =>
    exact (keeps_putEngineDelta sha h now delta want).bind fun _ => keeps_pure _
  | manifest key => exact (keeps_manifest sha h).bind fun _ => keeps_pure _
  | survey clean key =>
    refine Keeps.bind (keeps_get.bind fun s => ?_) fun _ => keeps_pure _
    split
    · exact (keeps_act h.removeAll).bind fun _ => keeps_pure _
    · exact keeps_pure _
  | removeReplica key => exact (keeps_act h.removeAll).bind fun _ => keeps_act (h.man none)

end Call

/-- What a store holds of a key. -/
def Store.at (s : Store) (key : Name) : Option Dir × Option Manifest := (s.dirs key, s.man key)

@[simp] theorem at_setManifest (s : Store) (key : Name) (m : Option Manifest) :
    (s.setManifest key m).at key = (s.dirs key, m) := by
  simp [Store.at, setManifest]

@[simp] theorem at_setDir (s : Store) (key : Name) (d : Dir) :
    (s.setDir key d).at key = (some d, s.man key) := by
  simp [Store.at]

/-- Operations under one key leave the others alone. -/
theorem keptAt_of_ne {key key' : Name} (hne : key' ≠ key) (v : Option Dir × Option Manifest) :
    KeptAt (fun s => s.at key' = v) key where
  dir f s hs := by simp [← hs, Store.at, modifyDir, hne]
  man m s hs := by simp [← hs, Store.at, setManifest, hne]
  removeAll s hs := by simp [← hs, Store.at, Store.removeAll, hne]
  mkdirAll s hs := by simp [← hs, Store.at, Store.mkdirAll, hne]

/-- **A call changes nothing under another key.** -/
theorem Call.after_of_ne (sha : Sha256) (c : Call) {key : Name} (hne : key ≠ c.key) (s : Store) :
    (c.after sha s).at key = s.at key :=
  (c.keeps sha (keptAt_of_ne hne (s.at key))).run rfl

/-! ### Evictions are calls -/

section Evict

variable (sha : Sha256) (size : Dir → Nat)

theorem run_survey (clean : Bool) (key : Name) (s : Store) :
    ∃ r, Prog.run (survey size clean key) s =
      (.ok r, if clean && !isComplete (s.dirs key) then s.removeAll key else s) := by
  rw [survey, Prog.run_get_bind]
  split
  · exact ⟨none, rfl⟩
  · exact ⟨_, rfl⟩

theorem after_survey (clean : Bool) (key : Name) (s : Store) :
    (Call.survey clean key).after sha s =
      if clean && !isComplete (s.dirs key) then s.removeAll key else s := by
  obtain ⟨r, hr⟩ := run_survey (fun _ => 0) clean key s
  rw [Call.after, Call.prog, Prog.run_bind_ok hr]
  rfl

theorem run_surveyAll (clean : Bool) (ents : List Name) (s : Store) :
    ∃ reps, Prog.run (surveyAll size clean ents) s =
      (.ok reps, (ents.map (Call.survey clean)).foldl (fun s c => c.after sha s) s) := by
  induction ents generalizing s with
  | nil => exact ⟨[], rfl⟩
  | cons key ents ih =>
    obtain ⟨r, hr⟩ := run_survey size clean key s
    rw [← after_survey sha] at hr
    obtain ⟨reps, hreps⟩ := ih ((Call.survey clean key).after sha s)
    refine ⟨r.toList ++ reps, ?_⟩
    rw [surveyAll, Prog.run_bind_ok hr, Prog.run_bind_ok hreps]
    rfl

theorem run_evictOldest (maxBytes : Int) (reps : List Rep) (u : Usage) (s : Store) :
    ∃ (u' : Usage) (keys : List Name), Prog.run (evictOldest maxBytes reps u) s =
      (.ok u', (keys.map Call.removeReplica).foldl (fun s c => c.after sha s) s) := by
  induction reps generalizing u s with
  | nil => exact ⟨u, [], rfl⟩
  | cons r reps ih =>
    rw [evictOldest]
    split
    · exact ⟨u, [], rfl⟩
    · obtain ⟨u', keys, h⟩ := ih ⟨u.replicas - 1, u.bytes - r.bytes⟩
        ((Call.removeReplica r.key).after sha s)
      exact ⟨u', r.key :: keys, h⟩

/-- **An eviction is a run of calls**: the survey of each replica, then removals. -/
theorem run_evict (maxBytes : Int) (except : Name) (clean : Bool) (ents : List Name) (s : Store) :
    ∃ (u : Usage) (keys : List Name), Prog.run (evict size maxBytes except clean ents) s =
      (.ok u, ((ents.filter validKey).map (Call.survey clean) ++ keys.map Call.removeReplica).foldl
        (fun s c => c.after sha s) s) := by
  obtain ⟨reps, hreps⟩ := run_surveyAll sha size clean (ents.filter validKey) s
  rw [evict, Prog.run_bind_ok hreps]
  simp only [List.foldl_append]
  split
  · exact ⟨_, [], rfl⟩
  · exact run_evictOldest sha maxBytes _ _ _

/-- What the survey has removed by then was not complete, nor is it when found again. -/
theorem run_surveyClean (ents : List Name) (s : Store) :
    ∃ reps s', run (surveyAll size true ents) s = (.ok reps, s') ∧ s'.man = s.man ∧
      ∀ key, s'.dirs key =
        if key ∈ ents ∧ isComplete (s.dirs key) = false then none else s.dirs key := by
  induction ents generalizing s with
  | nil => exact ⟨[], s, rfl, rfl, by simp⟩
  | cons k ents ih =>
    obtain ⟨r, hr⟩ := run_survey size true k s
    obtain ⟨reps, s', hreps, hman, hdirs⟩ :=
      ih (if true && !isComplete (s.dirs k) then s.removeAll k else s)
    refine ⟨r.toList ++ reps, s', ?_, hman.trans (by split_ifs <;> rfl), fun key => ?_⟩
    · rw [surveyAll, run_bind_ok hr, run_bind_ok hreps]
      rfl
    · have hnone : isComplete none = false := rfl
      rw [hdirs]
      by_cases hk : key = k
      · subst hk
        cases h : isComplete (s.dirs key) <;> simp [h, Store.removeAll, hnone]
      · cases isComplete (s.dirs k) <;> simp [hk, Store.removeAll]

end Evict

end Viiwork.Kvshare
