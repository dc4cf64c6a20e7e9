import Viiwork.Update.Host

/-!
# Viiwork.Update.Serial

The transitions of a node serialise. Whatever the operator, the confirmer and the waits for the
helper do to one store, in any order and across restarts and crashes: a pending release is the
current one, a release is confirmed only while it is pending, a process that has asked for a
restart changes nothing any more, and a last good release other than the builtin binary has
been confirmed on the host.

`State.Sound` is what every state has that anyone can write: the one on disk, and the states
that the waits would restore.
-/

namespace Viiwork.Update

open Viiwork.Lib

/-! ### Sound states -/

/-- The builtin binary, or a release that was confirmed. -/
def Earned (log : List Confirmation) (v : String) : Prop :=
  v = builtin ∨ ∃ c ∈ log, c.release = v

/-- A release to go back to, or none. -/
def PreviousSound (log : List Confirmation) (v : String) : Prop :=
  v = "" ∨ validName v = true ∧ Earned log v

structure StateFile.Sound (log : List Confirmation) (f : StateFile) : Prop where
  valid : f.Valid
  pending : ∀ p ∈ f.pending, p.version = f.current
  lastGood : Earned log f.lastGood

structure State.Sound (log : List Confirmation) (s : State) : Prop where
  file : s.toStateFile.Sound log
  previous : PreviousSound log s.previous

section Sound

variable {log log' : List Confirmation} {s next x : State}

theorem Earned.mono {v : String} (h : Earned log v) (hlog : log ⊆ log') : Earned log' v :=
  h.imp id fun ⟨c, hc, hv⟩ => ⟨c, hlog hc, hv⟩

theorem StateFile.Sound.mono {f : StateFile} (h : f.Sound log) (hlog : log ⊆ log') :
    f.Sound log' :=
  ⟨h.valid, h.pending, h.lastGood.mono hlog⟩

theorem State.Sound.mono (h : s.Sound log) (hlog : log ⊆ log') : s.Sound log' :=
  ⟨h.file.mono hlog, h.previous.imp id fun hv => ⟨hv.1, hv.2.mono hlog⟩⟩

theorem newState_sound (log : List Confirmation) : newState.Sound log :=
  ⟨⟨newState_valid, fun _ h => (by cases h), .inl rfl⟩, .inl rfl⟩

theorem State.Sound.fallBack (h : s.Sound log) : s.fallBack.Sound log :=
  ⟨⟨State.fallBack_valid h.file.valid, fun _ hp => (by cases hp), h.file.lastGood⟩, h.previous⟩

theorem State.Sound.dropCurrent (h : s.Sound log) : s.dropCurrent.Sound log := by
  refine ⟨⟨State.dropCurrent_valid h.file.valid, fun _ hp => (by cases hp), ?_⟩, h.previous⟩
  change Earned log (if s.lastGood = s.current then builtin else s.lastGood)
  split_ifs
  · exact .inl rfl
  · exact h.file.lastGood

theorem Leaves.sound {staged : String → Except String String} (h : Leaves staged s x)
    (hs : s.Sound log) : x.Sound log := by
  cases h with
  | kept hx => exact hx ▸ hs
  | counted hp hx =>
    subst hx
    refine ⟨⟨Leaves.valid (.counted hp rfl : Leaves staged s _) hs.file.valid, ?_,
      hs.file.lastGood⟩, hs.previous⟩
    intro q hq
    cases Option.some.inj hq
    exact (hs.file.pending _ hp : _)
  | fellBack hx => exact hx ▸ hs.fallBack
  | reset hx =>
    subst hx
    exact ⟨⟨newState_valid, fun _ hp => (by cases hp), .inl rfl⟩, .inl rfl⟩
  | dropped _ hx => exact hx ▸ hs.dropCurrent
  | droppedLastGood _ hx => exact hx ▸ hs.fallBack.dropCurrent

theorem Moves.sound {a : Act} {p : Process} (h : Moves a p s next) (hs : s.Sound log)
    (hwait : ∀ pair ∈ p.awaiting, pair.1.Sound log) : next.Sound log := by
  cases h with
  | activate _ hcheck hnext =>
    subst hnext
    have hv := checkActivate_valid hcheck
    refine ⟨⟨⟨validName_of_valid hv, hs.file.valid.2.1, ?_⟩, ?_, hs.file.lastGood⟩, hs.previous⟩
    · intro q hq
      cases Option.some.inj hq
      exact hv
    · intro q hq
      cases Option.some.inj hq
      rfl
  | fallBack hnext => exact hnext ▸ hs.fallBack
  | toPrevious hnext hpending _ hprev =>
    subst hnext
    obtain hempty | ⟨hvalid, hearned⟩ := hs.previous
    · exact absurd hempty hprev
    refine ⟨⟨⟨hvalid, hvalid, hs.file.valid.2.2⟩, fun q hq => ?_, hearned⟩, .inl rfl⟩
    cases hpending.symm.trans hq
  | restore hmem _ hnext =>
    have hprior := hwait _ hmem
    subst hnext
    exact ⟨⟨hprior.file.valid, hprior.file.pending, hprior.file.lastGood⟩, hprior.previous⟩
  | launcher hnext =>
    subst hnext
    exact ⟨⟨hs.file.valid, hs.file.pending, hs.file.lastGood⟩, hs.previous⟩

/-- A confirmed release has earned its name. -/
theorem State.Sound.confirm {running : String} (h : s.Sound log) (howns : owns running s = true) :
    s.confirm.toStateFile.Sound (log ++ [⟨s.current, s.lastGood⟩]) ∧
      PreviousSound log s.confirm.previous := by
  obtain ⟨p, hp, hcur, -⟩ := owns_iff.mp howns
  have hvalid : validName s.current = true := h.file.valid.1
  refine ⟨⟨⟨hvalid, hvalid, fun _ hq => (by cases hq)⟩, fun _ hq => (by cases hq), ?_⟩, ?_⟩
  · exact .inr ⟨⟨s.current, s.lastGood⟩, List.mem_append_right _ List.mem_cons_self, rfl⟩
  · change PreviousSound log (if s.lastGood ≠ s.current then s.lastGood else s.previous)
    split_ifs
    · exact .inr ⟨h.file.valid.2.1, h.file.lastGood⟩
    · exact h.previous

variable {d : Disk}

/-- What a save leaves on disk is sound when its two writes are. -/
theorem State.Sound.saveState {w : Save} (hd : loadState d = .ok s) (hs : s.Sound log)
    (hvalid : next.Valid) (hprev : PreviousSound log next.previous)
    (hfile : w.Lands → next.toStateFile.Sound log) :
    ∃ s', loadState (d.saveState next w) = .ok s' ∧ s'.Sound log := by
  obtain ⟨s', hs'⟩ := loadState_saveState hd hvalid w
  have hcase := saveState_cases hd hs'
  refine ⟨s', hs', ?_, ?_⟩
  · rcases hcase with ⟨hw, hsame, -⟩ | ⟨-, hsame, -⟩
    · exact hsame ▸ hfile hw
    · exact hsame ▸ hs.file
  · rcases hcase with ⟨-, -, h | h⟩ | ⟨-, -, h | h | ⟨h, -⟩⟩
    · exact .inl h
    · exact h ▸ hprev
    · exact .inl h
    · exact h ▸ hs.previous
    · exact h ▸ hprev

/-- A start of a launcher. -/
theorem Start.disk_sound {e : Start} (hd : loadState d = .ok s) (hs : s.Sound log) :
    ∃ s', loadState (e.disk d) = .ok s' ∧ s'.Sound log := by
  rw [disk]
  cases h : startup e.env d with
  | error err => exact ⟨s, hd, hs⟩
  | ok dec =>
    obtain ⟨t, self, ht, -, -, hstate, -, -⟩ := startup_eq_ok rfl h
    cases hd.symm.trans ht
    have hrecorded : ({ s with launcher := some self } : State).Sound log :=
      ⟨⟨hs.file.valid, hs.file.pending, hs.file.lastGood⟩, hs.previous⟩
    have hdec : dec.state.Sound log :=
      hstate ▸ (e.env.decision_leaves self _).sound hrecorded
    dsimp only
    split_ifs
    · exact hs.saveState hd hdec.file.valid hdec.previous fun _ => hdec.file
    · exact ⟨s, hd, hs⟩

end Sound

/-! ### Sound hosts -/

structure Host.Sound (h : Host) : Prop where
  disk : ∃ s, loadState h.disk = .ok s ∧ s.Sound h.confirmed
  waits : ∀ p ∈ h.process, ∀ pair ∈ p.awaiting, pair.1.Sound h.confirmed

variable {h h' : Host} {a : Act}

theorem Host.Sound.step (hh : h.Sound) (hstep : h.step a = some h') : h'.Sound := by
  obtain ⟨s, hs, hsound⟩ := hh.disk
  cases step_steps hstep with
  | starts _ _ hdisk hp' hconf =>
    rw [← hconf] at hsound
    refine ⟨hdisk ▸ Start.disk_sound hs hsound, fun p hp => ?_⟩
    rw [hp'] at hp
    obtain ⟨dec, -, rfl⟩ := Option.map_eq_some_iff.mp hp
    exact fun pair hpair => by cases hpair
  | stops hdisk hp' hconf =>
    refine ⟨⟨s, hdisk ▸ hs, hconf ▸ hsound⟩, fun p hp => ?_⟩
    rw [hp'] at hp
    cases hp
  | keeps hp hp' _ hdisk hconf hwait =>
    refine ⟨⟨s, hdisk ▸ hs, hconf ▸ hsound⟩, fun q hq pair hpair => ?_⟩
    cases hp'.symm.trans hq
    rw [hconf]
    rcases hwait pair hpair with hold | ⟨t, ht, rfl⟩
    · exact hh.waits _ hp pair hold
    · cases hs.symm.trans ht
      exact hsound.fallBack
  | saves hp hp' _ _ ht hmove hdisk hconf hwait =>
    cases hs.symm.trans ht
    have hnext := hmove.sound hsound (hh.waits _ hp)
    refine ⟨?_, fun q hq pair hpair => ?_⟩
    · rw [hdisk, hconf]
      exact hsound.saveState hs hnext.file.valid hnext.previous fun _ => hnext.file
    · cases hp'.symm.trans hq
      rw [hconf]
      rcases hwait pair hpair with hold | rfl
      · exact hh.waits _ hp pair hold
      · exact hsound
  | confirms _ _ hp hp' _ _ ht howns hdisk hconf hwait =>
    cases hs.symm.trans ht
    obtain ⟨hfile, hprev⟩ := hsound.confirm howns
    have hlog : h.confirmed ⊆ h'.confirmed := by
      rw [hconf]
      split_ifs
      · exact List.subset_append_left _ _
      · exact List.Subset.refl _
    refine ⟨?_, fun q hq pair hpair => ?_⟩
    · rw [hdisk]
      refine (hsound.mono hlog).saveState hs hfile.valid
        (hprev.imp id fun hv => ⟨hv.1, hv.2.mono hlog⟩) fun hw => ?_
      rw [hconf, if_pos hw]
      exact hfile
    · cases hp'.symm.trans hq
      exact (hh.waits _ hp pair (hwait pair hpair)).mono hlog

theorem Host.sound_of_run {acts : List Act} (hrun : run Host.step {} acts = some h) : h.Sound :=
  run_invariant Host.step (fun _ _ _ hh _ hstep => Host.Sound.step hh hstep)
    ⟨⟨newState, loadState_empty, newState_sound _⟩, fun _ hp => by cases hp⟩
    (runMeets_true Host.step acts {}) hrun

/-! ### Restarts -/

/-- A process that has asked for a restart, or one that is gone, changes nothing. -/
theorem Host.disk_of_restarting {later : List Act} (hstart : ∀ a ∈ later, ∀ e, a ≠ .start e)
    (hp : ∀ p ∈ h.process, p.restarting = true) (hrun : run Host.step h later = some h') :
    h'.disk = h.disk := by
  have hinv : h'.disk = h.disk ∧ ∀ p ∈ h'.process, p.restarting = true := by
    refine run_invariant Host.step (I := fun g => g.disk = h.disk ∧
      ∀ p ∈ g.process, p.restarting = true) ?_ ⟨rfl, hp⟩
      (runMeets_of_forall Host.step h hstart) hrun
    rintro g a g' ⟨hdisk, hrest⟩ ha hstep
    cases step_steps hstep with
    | starts he => exact absurd he (ha _)
    | stops hdisk' hp' =>
      refine ⟨hdisk'.trans hdisk, fun p hp => ?_⟩
      rw [hp'] at hp
      cases hp
    | keeps hq hq' hsame hdisk' =>
      refine ⟨hdisk'.trans hdisk, fun p hp => ?_⟩
      cases hq'.symm.trans hp
      rw [hsame.2.2, hrest _ hq]
    | saves hq _ _ hfree | confirms _ _ hq _ _ hfree => cases (hrest _ hq).symm.trans hfree
  exact hinv.1

/-! ### The transitions serialise -/

/-- Only the confirmer confirms, and only the release that is pending as it takes the lock. -/
theorem Host.pending_of_confirmed (hstep : h.step a = some h') (hnew : h'.confirmed ≠ h.confirmed) :
    ∃ w p s q, a = .carryOut w ∧ h.process = some p ∧ p.verdict = some .confirm ∧
      loadState h.disk = .ok s ∧ s.pending = some q ∧ q.version = s.current ∧
      s.current = p.running ∧ h'.confirmed = h.confirmed ++ [⟨s.current, s.lastGood⟩] := by
  cases step_steps hstep with
  | starts _ _ _ _ hconf | stops _ _ hconf | keeps _ _ _ _ hconf | saves _ _ _ _ _ _ _ hconf =>
    exact absurd hconf hnew
  | confirms ha hverdict hp _ _ _ hs howns _ hconf =>
    obtain ⟨q, hq, hcur, hrun⟩ := owns_iff.mp howns
    rw [hconf] at hnew
    split_ifs at hnew with hw
    · rw [if_pos hw] at hconf
      exact ⟨_, _, _, q, ha, hp, hverdict, hs, hq, hcur, hrun, hconf⟩
    · exact absurd rfl hnew

/-- **Update transitions serialise.** On a fresh host, after any actions of launchers, operators,
the confirmer and the waits for the helper, with saves cut and processes ending anywhere:
in `state.json` a pending release is the current one and not the builtin binary; a release is
confirmed only by a `Step` of the process that runs it, while it is pending; a process that has
asked for a restart does not change the disk; and the last good release is the builtin binary
or was confirmed. -/
theorem transitions_serialise (acts : List Act) (h : Host)
    (hrun : run Host.step {} acts = some h) :
    (∀ f ∈ h.disk.state, f.pending = none ∨
        ∃ p, f.pending = some p ∧ p.version = f.current ∧ f.current ≠ builtin) ∧
      (∀ a h', h.step a = some h' → h'.confirmed ≠ h.confirmed →
        ∃ w p s q, a = .carryOut w ∧ h.process = some p ∧ p.verdict = some .confirm ∧
          loadState h.disk = .ok s ∧ s.pending = some q ∧ q.version = s.current ∧
          s.current = p.running ∧ h'.confirmed = h.confirmed ++ [⟨s.current, s.lastGood⟩]) ∧
      (∀ p, h.process = some p → p.restarting = true → ∀ later h',
        (∀ a ∈ later, ∀ e, a ≠ .start e) → run Host.step h later = some h' →
        h'.disk = h.disk) ∧
      ∀ f ∈ h.disk.state, f.lastGood = builtin ∨ ∃ c ∈ h.confirmed, c.release = f.lastGood := by
  obtain ⟨s, hs, hsound⟩ := (Host.sound_of_run hrun).disk
  have hfile : ∀ f ∈ h.disk.state, f.Sound h.confirmed := by
    intro f hf
    obtain ⟨hnone, -⟩ | ⟨hstate, -, -⟩ := loadState_eq_ok hs
    · cases hnone.symm.trans hf
    · cases hstate.symm.trans hf
      exact hsound.file
  refine ⟨fun f hf => ?_, fun a h' => Host.pending_of_confirmed, ?_,
    fun f hf => (hfile f hf).lastGood⟩
  · cases hp : f.pending with
    | none => exact .inl rfl
    | some p =>
      have hcur := (hfile f hf).pending p hp
      have hvalid := (hfile f hf).valid.2.2 p hp
      exact .inr ⟨p, rfl, hcur, hcur ▸ ne_builtin_of_valid hvalid⟩
  · intro p hp hrest later h' hstart hlater
    refine Host.disk_of_restarting hstart (fun q hq => ?_) hlater
    cases hp.symm.trans hq
    exact hrest

/-- Every release is in place. -/
def allStaged (v : String) : Except String String := .ok ("/s/" ++ v)

/-- A start of the image of a release, on a managed host. -/
def imageOf (running : String) : Act :=
  .start
    { running := running
      managed := true
      self := .ok ⟨"/usr/local/bin/viiwork", "b"⟩
      staged := allStaged }

/-- An activation with no model running. -/
def activateOf (version : String) : Act :=
  .activate { staged := allStaged, imagePrepared := fun _ => .ok (), models := [] }
    { version := version } .done

/-- A look of the confirmer with no model running. -/
def lookIdle : Act := .look { now := 0, window := 600, models := [] }

/-- The operator rolls back between the reads of a `Step` and its update. -/
def rollbackRace : List Act :=
  [imageOf "v2.5.0", activateOf "v2.6.0", .stop, imageOf "v2.6.0", lookIdle,
    .rollback allStaged .done, .carryOut .done]

/-- The `Step` does not confirm the release that was rolled back under it. -/
theorem transitions_serialise_race :
    (run Host.step {} rollbackRace).map Host.confirmed = some [] ∧
      ∃ h, run Host.step {} rollbackRace = some h ∧ ∀ f ∈ h.disk.state,
        f.lastGood = builtin ∨ ∃ c ∈ h.confirmed, c.release = f.lastGood := by
  have hconf : (run Host.step {} rollbackRace).map Host.confirmed = some [] := by decide +kernel
  obtain ⟨h, hrun, -⟩ := Option.map_eq_some_iff.mp hconf
  exact ⟨hconf, h, hrun, (transitions_serialise rollbackRace h hrun).2.2.2⟩

end Viiwork.Update
