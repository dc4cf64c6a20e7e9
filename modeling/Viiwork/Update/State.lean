import Viiwork.Update.Version

/-!
# Viiwork.Update.State

The release state of a node (`state.go`): what a node runs, what it falls back to and the
release on trial, in `state.json`; and the release before the last good one in a file of its
own, `previous`, together with the last good release it came before.

A save writes `previous` and then `state.json`, each by a rename. It can end between the two,
with the process or with an error, and it can report an error although both are in place (the
directory could not be synced). `Save` has all of these, so a crash is a save that is cut and
a process that is gone.

JSON is read back as it was written. A `state.json` that is not JSON is left out: no write of
this package leaves one.
-/

namespace Viiwork.Update

/-! ### The state and its two files -/

structure Launcher where
  path : String
  sha256 : String
  deriving Repr, DecidableEq

/-- An activated release that has not confirmed. -/
structure Pending where
  version : String
  attempts : Int := 0
  /-- The backends that were healthy at its activation. -/
  baseline : List String
  deriving Repr, DecidableEq

/-- `state.json`. -/
structure StateFile where
  current : String
  lastGood : String
  pending : Option Pending := none
  launcher : Option Launcher := none
  deriving Repr, DecidableEq

/-- The state, with the release before the last good one; `""` is none. -/
structure State extends StateFile where
  previous : String := ""
  deriving Repr, DecidableEq

/-- The `previous` file. -/
structure PreviousRecord where
  version : String
  /-- The last good release it belongs to. -/
  before : String
  deriving Repr, DecidableEq

/-- The releases directory, as far as the state goes. -/
structure Disk where
  state : Option StateFile := none
  previous : Option PreviousRecord := none
  deriving Repr, DecidableEq

def newState : State := { current := builtin, lastGood := builtin }

/-! ### Reading -/

/-- The names that `LoadState` accepts. -/
def StateFile.Valid (f : StateFile) : Prop :=
  validName f.current = true ∧ validName f.lastGood = true ∧
    ∀ p ∈ f.pending, validVersion p.version = true

instance (f : StateFile) : Decidable f.Valid :=
  inferInstanceAs (Decidable (_ ∧ _ ∧ _))

def loadPrevious (d : Disk) (lastGood : String) : String :=
  match d.previous with
  | none => ""
  | some p =>
    if validName p.version = false ∨ p.before ≠ lastGood ∨ p.version = lastGood then ""
    else p.version

def loadState (d : Disk) : Except String State :=
  match d.state with
  | none => .ok newState
  | some f =>
    if f.Valid then .ok { f with previous := loadPrevious d f.lastGood }
    else .error ("state.json: names something that is neither \"" ++ builtin ++
      "\" nor a release version")

theorem newState_valid : newState.Valid :=
  ⟨validName_builtin, validName_builtin, fun _ h => by cases h⟩

variable {d : Disk} {s : State}

theorem loadState_eq_ok (h : loadState d = .ok s) :
    (d.state = none ∧ s = newState) ∨
      d.state = some s.toStateFile ∧ s.Valid ∧ s.previous = loadPrevious d s.lastGood := by
  rw [loadState] at h
  cases hd : d.state with
  | none =>
    rw [hd] at h
    exact .inl ⟨rfl, (Except.ok.inj h).symm⟩
  | some f =>
    rw [hd] at h
    dsimp only at h
    split_ifs at h with hf
    cases Except.ok.inj h
    exact .inr ⟨rfl, hf, rfl⟩

theorem loadState_valid (h : loadState d = .ok s) : s.Valid := by
  obtain ⟨-, rfl⟩ | ⟨-, hs, -⟩ := loadState_eq_ok h
  · exact newState_valid
  · exact hs

/-- A release is never its own way back. -/
theorem loadState_previous_ne (h : loadState d = .ok s) :
    s.previous = "" ∨ s.previous ≠ s.lastGood := by
  obtain ⟨-, rfl⟩ | ⟨-, -, hprev⟩ := loadState_eq_ok h
  · exact .inl rfl
  rw [hprev, loadPrevious]
  split
  · exact .inl rfl
  · split_ifs with hbad
    · exact .inl rfl
    · push Not at hbad
      exact .inr hbad.2.2

theorem loadState_of_state {f : StateFile} (hd : d.state = some f) (hf : f.Valid) :
    loadState d = .ok { f with previous := loadPrevious d f.lastGood } := by
  rw [loadState, hd]
  exact if_pos hf

theorem loadState_empty : loadState {} = .ok newState := rfl

/-! ### Writing -/

/-- How a save ends. -/
inductive Save
  | done
  /-- With an error, or with the process, after so many of its two writes. -/
  | cut (writes : Nat)
  deriving Repr, DecidableEq

def State.previousRecord (s : State) : Option PreviousRecord :=
  if s.previous = "" then none else some ⟨s.previous, s.lastGood⟩

def Disk.saveState (d : Disk) (s : State) : Save → Disk
  | .cut 0 => d
  | .cut 1 => { d with previous := s.previousRecord }
  | _ => { state := s.toStateFile, previous := s.previousRecord }

/-- The save gets as far as `state.json`. -/
def Save.Lands : Save → Prop
  | .done => True
  | .cut n => 2 ≤ n

instance : ∀ w : Save, Decidable w.Lands
  | .done => isTrue trivial
  | .cut n => inferInstanceAs (Decidable (2 ≤ n))

theorem saveState_of_lands {w : Save} (h : w.Lands) :
    d.saveState s w = { state := s.toStateFile, previous := s.previousRecord } := by
  match w, h with
  | .done, _ => rfl
  | .cut (n + 2), _ => rfl

theorem saveState_state_of_not_lands {w : Save} (h : ¬ w.Lands) :
    (d.saveState s w).state = d.state := by
  match w, h with
  | .cut 0, _ => rfl
  | .cut 1, _ => rfl
  | .cut (n + 2), h => exact absurd (Nat.le_add_left 2 n) h

/-- What a saved record gives back. -/
theorem loadPrevious_record (d : Disk) (s : State) {lastGood : String} :
    loadPrevious { d with previous := s.previousRecord } lastGood = "" ∨
      loadPrevious { d with previous := s.previousRecord } lastGood = s.previous ∧
        s.lastGood = lastGood := by
  rw [loadPrevious, State.previousRecord]
  split_ifs with hempty
  · exact .inl rfl
  · dsimp only
    split_ifs with hbad
    · exact .inl rfl
    · push Not at hbad
      exact .inr ⟨rfl, hbad.2.1⟩

/-- A state that a save left: the one before it, perhaps with the new record where that is
about the same last good release, or the new one, perhaps without its record. -/
theorem saveState_cases {old s' : State} {w : Save} (hold : loadState d = .ok old)
    (hs' : loadState (d.saveState s w) = .ok s') :
    (w.Lands ∧ s'.toStateFile = s.toStateFile ∧ (s'.previous = "" ∨ s'.previous = s.previous)) ∨
      ¬ w.Lands ∧ s'.toStateFile = old.toStateFile ∧ (s'.previous = "" ∨
        s'.previous = old.previous ∨ s'.previous = s.previous ∧ s.lastGood = old.lastGood) := by
  by_cases hw : w.Lands
  · rw [saveState_of_lands hw] at hs'
    obtain ⟨hnone, -⟩ | ⟨hfile, -, hprev⟩ := loadState_eq_ok hs'
    · cases hnone
    · refine .inl ⟨hw, (Option.some.inj hfile).symm, ?_⟩
      exact hprev ▸ (loadPrevious_record ⟨some s.toStateFile, none⟩ s).imp id And.left
  · refine .inr ⟨hw, ?_⟩
    match w, hw with
    | .cut 0, _ =>
      cases hold.symm.trans hs'
      exact ⟨rfl, .inr (.inl rfl)⟩
    | .cut 1, _ =>
      obtain ⟨hd', rfl⟩ | ⟨hd', -, hprev⟩ := loadState_eq_ok hs'
      · obtain ⟨-, rfl⟩ | ⟨hd, -, -⟩ := loadState_eq_ok hold
        · exact ⟨rfl, .inl rfl⟩
        · cases hd'.symm.trans hd
      · obtain ⟨hd, -⟩ | ⟨hd, -, -⟩ := loadState_eq_ok hold
        · cases hd'.symm.trans hd
        · have hfile := Option.some.inj (hd'.symm.trans hd)
          refine ⟨hfile, ?_⟩
          rw [← congrArg StateFile.lastGood hfile]
          exact hprev ▸ (loadPrevious_record d s).imp id .inr
    | .cut (n + 2), hw => exact absurd (Nat.le_add_left 2 n) hw

/-- Whatever is left of a save can be loaded. -/
theorem loadState_saveState {old : State} (hold : loadState d = .ok old) (hs : s.Valid) (w : Save) :
    ∃ s', loadState (d.saveState s w) = .ok s' := by
  by_cases hw : w.Lands
  · exact ⟨_, loadState_of_state (by rw [saveState_of_lands hw]) hs⟩
  · have hstate := saveState_state_of_not_lands (d := d) (s := s) hw
    obtain ⟨hd, -⟩ | ⟨hd, hvalid, -⟩ := loadState_eq_ok hold
    · exact ⟨newState, by rw [loadState, hstate, hd]⟩
    · exact ⟨_, loadState_of_state (hstate.trans hd) hvalid⟩

end Viiwork.Update
