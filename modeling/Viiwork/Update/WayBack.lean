import Viiwork.Update.Floor

/-!
# Viiwork.Update.WayBack

Where a rollback goes once there is nothing newer to leave: to `Previous`, the release that was
last good before the present last good release was confirmed. `wayBack` reads that release off
the confirmations themselves, and `Goes` says that a state agrees with it or remembers nothing.

Two things break it. A launcher that finds the binary of the last good release altered makes the
builtin one last good and keeps `Previous`, which was about another release (`DropsLastGood`).
And a process that confirms its own release more than once, from different last good ones, can
have a wait for the helper restore the older of the two; a process activates the version it runs
only when `Compare` cannot read that version.

Without these, a process confirms at most its own release, and always over the last good release
`found` that it started with. This is what `State.Right` says of every state it can write.
-/

namespace Viiwork.Update

open Viiwork.Lib

/-! ### The release before the last good one -/

/-- The last good release before `release` became it, the last time it did. -/
def wayBack (log : List Confirmation) (release : String) : Option String :=
  (log.reverse.find? fun c => c.release = release ∧ c.before ≠ release).map Confirmation.before

theorem wayBack_append (log : List Confirmation) (c : Confirmation) (release : String) :
    wayBack (log ++ [c]) release =
      if c.release = release ∧ c.before ≠ release then some c.before else wayBack log release := by
  rw [wayBack, List.reverse_append, List.reverse_singleton, List.singleton_append, List.find?_cons]
  split_ifs with h
  · rw [decide_eq_true h]
    rfl
  · rw [decide_eq_false h]
    rfl

/-- There is nothing to go back to, or it is the right release. -/
def State.Goes (log : List Confirmation) (s : State) : Prop :=
  s.previous = "" ∨ wayBack log s.lastGood = some s.previous

/-- What `previous` can be next to `lastGood`, in a process of the version `running` that found
`found` as last good. -/
def PreviousRight (log : List Confirmation) (running found lastGood previous : String) : Prop :=
  previous = "" ∨ wayBack log lastGood = some previous ∧
    (found ≠ running → lastGood = running → previous = found)

/-- A state that such a process can write. -/
structure State.Right (log : List Confirmation) (running found : String) (s : State) : Prop where
  pending : ∀ q ∈ s.pending, q.version = running → s.lastGood = found
  previous : PreviousRight log running found s.lastGood s.previous

section Right

variable {log : List Confirmation} {running found : String} {s next : State}

theorem State.Right.goes (h : s.Right log running found) : s.Goes log :=
  h.previous.imp id And.left

/-- What a process starts with. -/
theorem State.Goes.right (h : s.Goes log) (running : String) : s.Right log running s.lastGood :=
  ⟨fun _ _ _ => rfl, h.imp id fun hw => ⟨hw, fun hne heq => absurd heq hne⟩⟩

theorem State.Right.fallBack (h : s.Right log running found) :
    s.fallBack.Right log running found :=
  ⟨fun _ hq => (by cases hq), h.previous⟩

theorem Moves.right {a : Act} {p : Process} (h : Moves a p s next)
    (hact : ∀ env req w, a = .activate env req w → req.version ≠ p.running)
    (hs : s.Right log p.running found)
    (hwait : ∀ pair ∈ p.awaiting, pair.1.Right log p.running found) :
    next.Right log p.running found := by
  cases h with
  | activate ha _ hnext =>
    subst hnext
    refine ⟨fun q hq hrun => ?_, hs.previous⟩
    cases Option.some.inj hq
    exact absurd hrun (hact _ _ _ ha)
  | fallBack hnext => exact hnext ▸ hs.fallBack
  | toPrevious hnext hpending =>
    subst hnext
    refine ⟨fun q hq => ?_, .inl rfl⟩
    cases hpending.symm.trans hq
  | restore hmem _ hnext =>
    have hprior := hwait _ hmem
    subst hnext
    exact ⟨hprior.pending, hprior.previous⟩
  | launcher hnext =>
    subst hnext
    exact ⟨hs.pending, hs.previous⟩

/-- **A confirmation.** Every state that was right still is, since the release was confirmed
over the last good release the process found. -/
theorem State.Right.confirmed {x : State} (hx : x.Right log running found) :
    x.Right (log ++ [⟨running, found⟩]) running found := by
  refine ⟨hx.pending, hx.previous.imp id fun ⟨hway, hfound⟩ => ⟨?_, hfound⟩⟩
  rw [wayBack_append]
  split_ifs with hc
  · have hne : found ≠ running := fun h => hc.2 (h.trans hc.1)
    rw [hfound hne hc.1.symm]
  · exact hway

theorem State.Right.confirm (hs : s.Right log running found) (hcur : s.current = running)
    (hgood : s.lastGood = found) : s.confirm.Right (log ++ [⟨running, found⟩]) running found := by
  refine ⟨fun _ hq => (by cases hq), ?_⟩
  change PreviousRight _ _ _ s.current
    (if s.lastGood ≠ s.current then s.lastGood else s.previous)
  rw [hcur, hgood]
  split_ifs with hne
  · refine .inr ⟨?_, fun _ _ => rfl⟩
    rw [wayBack_append, if_pos ⟨rfl, hne⟩]
  · -- confirmed again: nothing is replaced
    have hprev := hs.confirmed.previous
    rw [not_not] at hne
    rw [hgood] at hprev
    rw [hne] at hprev ⊢
    exact hprev

/-- What a save leaves on disk. -/
theorem State.Right.saveState {d : Disk} {w : Save} {s' : State} (hd : loadState d = .ok s)
    (hs : s.Right log running found) (hnext : w.Lands → next.Right log running found)
    (htorn : next.lastGood = s.lastGood →
      PreviousRight log running found s.lastGood next.previous)
    (hs' : loadState (d.saveState next w) = .ok s') : s'.Right log running found := by
  rcases saveState_cases hd hs' with ⟨hw, hfile, hprev⟩ | ⟨-, hfile, hprev⟩
  · refine ⟨hfile ▸ (hnext hw).pending, ?_⟩
    rw [hfile]
    rcases hprev with hprev | hprev
    · exact .inl hprev
    · rw [hprev]
      exact (hnext hw).previous
  · refine ⟨hfile ▸ hs.pending, ?_⟩
    rw [hfile]
    rcases hprev with hprev | hprev | ⟨hprev, hgood⟩
    · exact .inl hprev
    · rw [hprev]
      exact hs.previous
    · rw [hprev]
      exact htorn hgood

end Right

/-! ### Starts -/

/-- The start sets out to run the last good release, whose binary does not verify, and the
release before it is remembered. -/
def Start.DropsLastGood (e : Start) (d : Disk) : Prop :=
  ∃ s self x err, loadState d = .ok s ∧ e.self = .ok self ∧ e.managed = false ∧
    s.current ≠ builtin ∧
    SetsOut { s with launcher := some self } e.running (e.env.followed self) x ∧
    x.current = s.lastGood ∧ e.staged s.lastGood = .error err ∧ e.save.Lands ∧
    s.previous ≠ "" ∧ s.previous ≠ builtin

/-- A decision keeps the last good release and the one before it, forgets the latter, or drops
the former. -/
theorem StartupEnv.decision_lastGood (e : StartupEnv) (self : Launcher) (s : State) :
    ((e.decision self s).state.lastGood = s.lastGood ∧
        (e.decision self s).state.previous = s.previous) ∨
      (e.decision self s).state.previous = "" ∨
      (e.decision self s).state.lastGood = builtin ∧
        (e.decision self s).state.previous = s.previous ∧ e.managed = false ∧
        s.current ≠ builtin ∧ ∃ x err, SetsOut s e.running (e.followed self) x ∧
          x.current = s.lastGood ∧ e.staged s.lastGood = .error err := by
  rw [decision]
  split_ifs with hm
  · obtain ⟨-, ⟨hs, -⟩ | ⟨p, -, -, -, -, ⟨-, hs⟩ | ⟨-, hs⟩⟩⟩ := decideManaged_cases s e.running
    all_goals
      rw [hs]
      exact .inl ⟨rfl, rfl⟩
  by_cases hbuiltin : s.current = builtin
  · rw [decide, if_pos hbuiltin]
    exact .inl ⟨rfl, rfl⟩
  cases decide_decides s e.running (e.followed self) e.staged with
  | stays _ _ hs | counts _ _ _ _ _ hs | ends _ _ _ _ _ _ hs =>
    rw [hs]
    exact .inl ⟨rfl, rfl⟩
  | resets _ _ _ hs | resetsOut _ _ _ _ _ hs =>
    rw [hs]
    exact .inr (.inl rfl)
  | execs hset _ _ hs =>
    cases hset with
    | kept hx | counted _ _ hx | countedOut _ _ hx | floorOut _ _ hx =>
      rw [hs, hx]
      exact .inl ⟨rfl, rfl⟩
  | @drops x err hset hstaged _ hs =>
    have hgood : x.lastGood = s.lastGood ∧ x.previous = s.previous := by
      cases hset with
      | kept hx | counted _ _ hx | countedOut _ _ hx | floorOut _ _ hx =>
        rw [hx]
        exact ⟨rfl, rfl⟩
    by_cases hlast : x.lastGood = x.current
    · refine .inr (.inr ⟨?_, ?_, Bool.not_eq_true _ ▸ hm, hbuiltin, x, err, hset, ?_, ?_⟩)
      · rw [hs]
        exact if_pos hlast
      · rw [hs]
        exact hgood.2
      · rw [← hlast, hgood.1]
      · rw [← hgood.1, hlast, hstaged]
    · refine .inl ⟨?_, ?_⟩
      · rw [hs, ← hgood.1]
        exact if_neg hlast
      · rw [hs]
        exact hgood.2

theorem Start.goes_disk {log : List Confirmation} {e : Start} {d : Disk} {s s' : State}
    (hd : loadState d = .ok s) (hs : s.Goes log) (hkeep : ¬ e.DropsLastGood d)
    (hs' : loadState (e.disk d) = .ok s') : s'.Goes log := by
  rw [disk] at hs'
  cases h : startup e.env d with
  | error err =>
    rw [h] at hs'
    cases hd.symm.trans hs'
    exact hs
  | ok dec =>
    obtain ⟨t, self, ht, hself, -, hstate, -, -⟩ := startup_eq_ok rfl h
    cases hd.symm.trans ht
    rw [h] at hs'
    dsimp only at hs'
    split_ifs at hs'
    · have hkeeps : s'.lastGood = s.lastGood → s'.previous = "" ∨ s'.previous = s.previous →
          s'.Goes log := by
        rintro hgood (hempty | hsame)
        · exact .inl hempty
        · rw [State.Goes, hgood, hsame]
          exact hs
      have hlast := e.env.decision_lastGood self { s with launcher := some self }
      rw [← hstate] at hlast
      rcases saveState_cases hd hs' with ⟨hw, hfile, hprev⟩ | ⟨-, hfile, hprev⟩
      · rcases hlast with ⟨hgood, hsame⟩ | hempty | ⟨hgood, hsame, hm, hne, x, err, hset, hx, hst⟩
        · exact hkeeps (by rw [hfile, hgood]) (hsame ▸ hprev)
        · rw [hempty, or_self] at hprev
          exact .inl hprev
        · -- the last good release is dropped: nothing but the builtin binary was before it
          refine .inl ?_
          rcases hprev with hprev | hprev
          · exact hprev
          · by_contra hne'
            rw [hsame] at hprev
            refine hkeep ⟨s, self, x, err, hd, hself, hm, hne, hset, hx, hst, hw, ?_, ?_⟩
            · exact fun h => hne' (hprev.trans h)
            · intro h
              rcases loadState_previous_ne hs' with hempty | hself'
              · exact hne' hempty
              · exact hself' (by rw [hprev, hfile, hgood]; exact h)
      · refine hkeeps (by rw [hfile]) ?_
        have hdec : dec.state.previous = "" ∨ dec.state.previous = s.previous := by
          rcases hlast with ⟨-, hsame⟩ | hempty | ⟨-, hsame, -⟩
          · exact .inr hsame
          · exact .inl hempty
          · exact .inr hsame
        rcases hprev with hprev | hprev | ⟨hprev, -⟩
        · exact .inl hprev
        · exact .inr hprev
        · exact hprev ▸ hdec
    · cases hd.symm.trans hs'
      exact hs

/-! ### Runs -/

/-- The start, if it is one, does not drop a last good release with another before it; the
activation, if it is one, is not of the version that the process runs. -/
def KeepsWayBack (h : Host) : Act → Prop
  | .start e => h.process = none → ¬ e.DropsLastGood h.disk
  | .activate _ req _ => ∀ p ∈ h.process, req.version ≠ p.running
  | _ => True

structure Host.Right (h : Host) : Prop where
  disk : ∀ s, loadState h.disk = .ok s → s.Goes h.confirmed
  process : ∀ p ∈ h.process, ∃ found,
    (∀ s, loadState h.disk = .ok s → s.Right h.confirmed p.running found) ∧
      ∀ pair ∈ p.awaiting, pair.1.Right h.confirmed p.running found

/-- With a process, the disk is right when the process is. -/
theorem Host.Right.of_process (found : String) {h : Host} {p : Process} (hp : h.process = some p)
    (hdisk : ∀ s, loadState h.disk = .ok s → s.Right h.confirmed p.running found)
    (hwait : ∀ pair ∈ p.awaiting, pair.1.Right h.confirmed p.running found) : h.Right := by
  refine ⟨fun s hs => (hdisk s hs).goes, fun q hq => ?_⟩
  cases hp.symm.trans hq
  exact ⟨found, hdisk, hwait⟩

theorem Host.Right.step {h h' : Host} {a : Act} (hsound : h.Sound) (hh : h.Right)
    (ha : KeepsWayBack h a) (hstep : h.step a = some h') : h'.Right := by
  obtain ⟨s, hs, hsound'⟩ := hsound.disk
  cases step_steps hstep with
  | starts he hp hdisk hp' hconf =>
    subst he
    have hgoes : ∀ s', loadState h'.disk = .ok s' → s'.Goes h'.confirmed := by
      intro s' hs'
      rw [hdisk] at hs'
      rw [hconf]
      exact Start.goes_disk hs (hh.disk s hs) (ha hp) hs'
    refine ⟨hgoes, fun p hq => ?_⟩
    rw [hp'] at hq
    obtain ⟨dec, -, rfl⟩ := Option.map_eq_some_iff.mp hq
    obtain ⟨s', hs', -⟩ := (hsound.step hstep).disk
    refine ⟨s'.lastGood, fun t ht => ?_, fun pair hpair => by cases hpair⟩
    cases hs'.symm.trans ht
    exact (hgoes s' hs').right _
  | stops hdisk hp' hconf =>
    refine ⟨hdisk ▸ hconf ▸ hh.disk, fun p hq => ?_⟩
    rw [hp'] at hq
    cases hq
  | keeps hp hp' hsame hdisk hconf hwait =>
    obtain ⟨found, hright, hwaits⟩ := hh.process _ hp
    refine .of_process found hp' (hdisk ▸ hconf ▸ hsame.1 ▸ hright) fun pair hpair => ?_
    rw [hconf, hsame.1]
    rcases hwait pair hpair with hold | ⟨t, ht, rfl⟩
    · exact hwaits pair hold
    · exact (hright t ht).fallBack
  | saves hp hp' hsame _ ht hmove hdisk hconf hwait =>
    cases hs.symm.trans ht
    obtain ⟨found, hright, hwaits⟩ := hh.process _ hp
    have hold := hright s hs
    have hnext := hmove.right (fun env req w he => by subst he; exact ha _ hp) hold hwaits
    refine .of_process found hp' (fun s' hs' => ?_) fun pair hpair => ?_
    · rw [hdisk] at hs'
      rw [hconf, hsame.1]
      exact hold.saveState hs (fun _ => hnext) (fun h => h ▸ hnext.previous) hs'
    · rw [hconf, hsame.1]
      rcases hwait pair hpair with hmem | rfl
      · exact hwaits pair hmem
      · exact hold
  | @confirms p p' t w _ _ hp hp' hsame _ ht howns hdisk hconf hwait =>
    cases hs.symm.trans ht
    obtain ⟨found, hright, hwaits⟩ := hh.process _ hp
    have hold := hright s hs
    obtain ⟨q, hq, hqcur, hcur⟩ := owns_iff.mp howns
    have hgood : s.lastGood = found := hold.pending q hq (hqcur.trans hcur)
    rw [hcur, hgood] at hconf
    by_cases hw : w.Lands
    · rw [if_pos hw] at hconf
      have hnext := hold.confirm hcur hgood
      refine .of_process found hp' (fun s' hs' => ?_) fun pair hpair => ?_
      · rw [hdisk] at hs'
        rw [hconf, hsame.1]
        exact hold.confirmed.saveState hs (fun _ => hnext) (fun h => h ▸ hnext.previous) hs'
      · rw [hconf, hsame.1]
        exact (hwaits pair (hwait pair hpair)).confirmed
    · rw [if_neg hw] at hconf
      refine .of_process found hp' (fun s' hs' => ?_) fun pair hpair => ?_
      · rw [hdisk] at hs'
        rw [hconf, hsame.1]
        refine hold.saveState hs (fun h => absurd h hw) (fun h => ?_) hs'
        have hsame : s.confirm.previous = s.previous := if_neg (not_not.mpr h.symm)
        rw [hsame]
        exact hold.previous
      · rw [hconf, hsame.1]
        exact hwaits pair (hwait pair hpair)

/-- **The way back is the right release.** On a fresh host, in every run whose starts drop no
last good release with another before it and in which no process activates the version it runs:
the `Previous` of every state that can be loaded is empty or the release that was last good
before the present last good release was confirmed, and an operator's rollback goes to the last
good release or to that one. -/
theorem way_back_right (acts : List Act) (h : Host)
    (hmeets : RunMeets Host.step KeepsWayBack {} acts) (hrun : run Host.step {} acts = some h) :
    (∀ s, loadState h.disk = .ok s →
        s.previous = "" ∨ wayBack h.confirmed s.lastGood = some s.previous) ∧
      ∀ staged s next, loadState h.disk = .ok s → s.rollback staged = .ok next →
        next.current = s.lastGood ∨ wayBack h.confirmed s.lastGood = some next.current := by
  have hinv : h.Sound ∧ h.Right := by
    refine run_invariant Host.step (I := fun h => h.Sound ∧ h.Right)
      (fun g a g' hg ha hstep => ⟨hg.1.step hstep, hg.2.step hg.1 ha hstep⟩) ?_ hmeets hrun
    refine ⟨⟨⟨newState, loadState_empty, newState_sound _⟩, fun _ hp => (by cases hp)⟩,
      fun s hs => ?_, fun _ hp => (by cases hp)⟩
    cases Except.ok.inj hs
    exact .inl rfl
  refine ⟨hinv.2.disk, fun staged s next hs hnext => ?_⟩
  rcases State.rollback_eq_ok hnext with rfl | ⟨rfl, -, -, hprev⟩
  · exact .inl rfl
  · exact .inr ((hinv.2.disk s hs).resolve_left hprev)

/-- Two releases are confirmed one after the other over the floor v2.1.0. -/
def twoConfirmed : List Act :=
  [launcherOf "v2.1.0", activateOf "v2.2.0", .stop, launcherOf "v2.1.0", lookIdle, .carryOut .done,
    activateOf "v2.3.0", .stop, launcherOf "v2.1.0", lookIdle, .carryOut .done]

/-- The activation, if it is one, is of another version than the process runs. -/
def ActivatesOther (h : Host) : Act → Prop
  | .activate _ req _ => ∀ p ∈ h.process, req.version ≠ p.running
  | _ => True

instance (h : Host) : ∀ a, Decidable (ActivatesOther h a)
  | .activate _ req _ => inferInstanceAs (Decidable (∀ p ∈ h.process, req.version ≠ p.running))
  | .start .. | .stop | .rollback .. | .look .. | .carryOut .. | .expire .. | .watch
  | .followCLI .. => isTrue trivial

/-- A run in which every binary verifies at every start. -/
theorem keepsWayBack_of_staged {acts : List Act} {h : Host}
    (hstaged : ∀ a ∈ acts, ∀ e, a = .start e → e.staged = allStaged)
    (hother : RunMeets Host.step ActivatesOther h acts) :
    RunMeets Host.step KeepsWayBack h acts := by
  refine RunMeets.imp₂ Host.step (fun g a hs ho => ?_)
    (runMeets_of_forall Host.step h hstaged) hother
  cases a with
  | start e =>
    rintro - ⟨s, self, x, err, -, -, -, -, -, -, herr, -⟩
    rw [hs e rfl] at herr
    cases herr
  | activate env req w => exact ho
  | _ => trivial

/-- The second one remembers the first. -/
theorem way_back_right_two :
    RunMeets Host.step KeepsWayBack {} twoConfirmed ∧
      ∃ h, run Host.step {} twoConfirmed = some h ∧ ∀ s, loadState h.disk = .ok s →
        s.previous = "" ∨ wayBack h.confirmed s.lastGood = some s.previous := by
  have hmeets : RunMeets Host.step KeepsWayBack {} twoConfirmed := by
    refine keepsWayBack_of_staged ?_ (by decide +kernel)
    simp [twoConfirmed, launcherOf, activateOf, lookIdle]
  obtain ⟨h, hrun⟩ : ∃ h, run Host.step {} twoConfirmed = some h :=
    Option.isSome_iff_exists.mp (by decide +kernel)
  exact ⟨hmeets, h, hrun, (way_back_right twoConfirmed h hmeets hrun).1⟩

/-- The last good release, what is remembered as the one before it, and what was. -/
def Host.remembers (h : Host) : Option (String × String × Option String) :=
  (loadState h.disk).toOption.map fun s => (s.lastGood, s.previous, wayBack h.confirmed s.lastGood)

/-- The binary of v2.3.0 is altered after it was confirmed. -/
def alteredLastGood : List Act :=
  twoConfirmed ++ [.stop, .start
    { running := "v2.1.0"
      self := .ok ⟨"/usr/local/bin/viiwork", "v2.1.0"⟩
      staged := fun v => if v = "v2.3.0" then .error "altered" else allStaged v }]

/-- A release whose version `Compare` cannot read. -/
def unreadable : String := "v99999999999999999999.0.0"

/-- A managed process of that version activates it twice, once over the builtin binary and once
over v2.1.0, with the operator rolling back and waits for the helper ending in between. -/
def confirmedTwice : List Act :=
  [imageOf "v2.0.0", activateOf "v2.1.0", .stop, imageOf "v2.1.0", lookIdle, .carryOut .done,
    .stop, imageOf unreadable, .rollback allStaged .done, activateOf unreadable, lookIdle,
    .carryOut .done, .rollback allStaged .done, .expire 0 .done, activateOf unreadable, lookIdle,
    .carryOut .done, .rollback allStaged .done, activateOf unreadable, .expire 2 .done,
    .rollback allStaged .done, .expire 1 .done]

/-- In both runs the operator's next rollback goes to a release that was not last good before
the present one: from the builtin binary to v2.2.0, and to the builtin binary past v2.1.0. -/
theorem way_back_wrong :
    (run Host.step {} alteredLastGood).map Host.remembers =
        some (some (builtin, "v2.2.0", none)) ∧
      (run Host.step {} confirmedTwice).map Host.remembers =
        some (some (unreadable, builtin, some "v2.1.0")) := by
  decide +kernel

end Viiwork.Update
