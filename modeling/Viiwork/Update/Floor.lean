import Viiwork.Update.Serial

/-!
# Viiwork.Update.Floor

A newer floor wins: a launcher that was installed out of band does not hand over to a staged
release that is not newer than itself. `decide` checks this for the current release it finds,
and again for the last good one when the launcher is the pending release itself. It does not
check it when it counts another pending release out: then the last good release is run,
however old.

`countsOutBelow` is that one case. At every start of a launcher, the floor loses exactly then.
-/

namespace Viiwork.Update

open Viiwork.Lib

/-! ### One start -/

/-- A launcher that is not the followed CLI execs a release that it is at least as new as. -/
def Start.execsOlder (e : Start) (d : Disk) : Bool :=
  match e.self, e.runs d with
  | .ok self, some dec =>
    dec.exec.isSome && !e.env.followed self && atLeast e.running dec.state.current
  | _, _ => false

/-- The launcher is not the followed CLI, and the start is the last one of a pending release
that is newer than the launcher, while the last good release, which is in place, is not. -/
def Start.CountsOutBelow (e : Start) (self : Launcher) (s : State) : Prop :=
  e.managed = false ∧ e.env.followed self = false ∧
    (∃ p ∈ s.pending, p.version = s.current ∧ maxAttempts ≤ p.counted.attempts) ∧
    e.running ≠ s.current ∧ atLeast e.running s.current = false ∧
    s.lastGood ≠ builtin ∧ (e.staged s.lastGood).isOk = true ∧ atLeast e.running s.lastGood = true

instance (s : State) :
    Decidable (∃ p ∈ s.pending, p.version = s.current ∧ maxAttempts ≤ p.counted.attempts) :=
  match s.pending with
  | none => isFalse fun ⟨_, h, _⟩ => by cases h
  | some p => decidable_of_iff (p.version = s.current ∧ maxAttempts ≤ p.counted.attempts) (by simp)

instance (e : Start) (self : Launcher) (s : State) : Decidable (e.CountsOutBelow self s) :=
  inferInstanceAs (Decidable (_ ∧ _ ∧ _ ∧ _ ∧ _ ∧ _ ∧ _ ∧ _))

/-- Such a start, carried out. -/
def Start.countsOutBelow (e : Start) (d : Disk) : Bool :=
  match loadState d, e.self with
  | .ok s, .ok self => e.survives && e.save = .done && e.CountsOutBelow self s
  | _, _ => false

theorem floorWins_false (running v : String) : floorWins running false v = atLeast running v := by
  rw [floorWins, Bool.not_false, Bool.and_true]

section Decide

variable {s : State} {running path : String} {staged : String → Except String String}

/-- What `decide` execs is newer than the launcher, unless it counted another release out. -/
theorem decide_exec_older (hexec : (decide s running false staged).exec = some path)
    (hold : atLeast running (decide s running false staged).state.current = true) :
    ∃ p, s.pending = some p ∧ p.version = s.current ∧ maxAttempts ≤ p.counted.attempts ∧
      running ≠ s.current ∧ atLeast running s.current = false ∧ s.lastGood ≠ builtin ∧
      staged s.lastGood = .ok path ∧ atLeast running s.lastGood = true ∧
      (decide s running false staged).changed = true := by
  cases decide_decides s running false staged with
  | stays _ hx | counts _ _ _ _ hx | resets _ _ hx | resetsOut _ _ _ _ hx | ends _ _ _ _ _ hx
  | drops _ _ hx => cases hx.symm.trans hexec
  | execs hset hstaged hx hs hch =>
    cases hx.symm.trans hexec
    rw [hs] at hold
    cases hset with
    | kept hx _ hfloor | counted _ _ hx _ _ hfloor | floorOut _ _ hx _ _ _ hfloor =>
      subst hx
      cases (floorWins_false _ _ ▸ hfloor).symm.trans hold
    | countedOut hp hcur hx hout hgood hrun hfloor =>
      subst hx
      refine ⟨_, hp, hcur, hout, hrun, floorWins_false _ _ ▸ hfloor, hgood, hstaged, hold,
        hch fun h => ?_⟩
      rw [← h] at hp
      cases hp

/-- A pending release that is counted out hands over to the last good one. -/
theorem decide_countedOut (s : State) (running : String) (staged : String → Except String String)
    {p : Pending} (hp : s.pending = some p) (hcur : p.version = s.current)
    (hne : s.current ≠ builtin) (hout : maxAttempts ≤ p.counted.attempts)
    (hrun : running ≠ s.current) (hfloor : atLeast running s.current = false)
    (hgood : s.lastGood ≠ builtin) (hstaged : staged s.lastGood = .ok path) :
    (decide s running false staged).exec = some path ∧
      (decide s running false staged).state.current = s.lastGood := by
  have hset : ∀ x, SetsOut s running false x → x = s.fallBack := by
    intro x hx
    cases hx with
    | kept _ hnone => exact absurd hcur (hnone p hp)
    | counted hq _ _ hleft =>
      cases hp.symm.trans hq
      exact absurd hout (not_le.mpr hleft)
    | countedOut _ _ hx | floorOut _ _ hx => exact hx
  cases decide_decides s running false staged with
  | stays hwhy =>
    rcases hwhy with h | h
    · exact absurd h hne
    · cases hp.symm.trans h
  | counts _ _ h | resetsOut _ _ h => exact absurd h hrun
  | resets h => cases (floorWins_false _ _ ▸ h).symm.trans hfloor
  | ends _ _ _ _ h => exact absurd h hgood
  | execs hx hst hexec hs =>
    rw [hset _ hx] at hst hs
    cases hst.symm.trans hstaged
    exact ⟨hexec, hs ▸ rfl⟩
  | drops hx hst =>
    rw [hset _ hx] at hst
    cases hst.symm.trans hstaged

end Decide

variable {e : Start} {d : Disk}

theorem Start.countsOutBelow_iff : e.countsOutBelow d = true ↔
    ∃ s self, loadState d = .ok s ∧ e.self = .ok self ∧ e.survives = true ∧ e.save = .done ∧
      e.CountsOutBelow self s := by
  rw [countsOutBelow]
  constructor
  · intro h
    split at h
    · next s self hs hself =>
        simp only [Bool.and_eq_true, decide_eq_true_eq] at h
        exact ⟨s, self, hs, hself, h.1.1, h.1.2, h.2⟩
    · cases h
  · rintro ⟨s, self, hs, hself, hlives, hdone, hbelow⟩
    simp [hs, hself, hlives, hdone, hbelow]

theorem Start.countsOutBelow_of_execsOlder (h : e.execsOlder d = true) :
    e.countsOutBelow d = true := by
  rw [execsOlder] at h
  split at h
  · next self dec hself hruns =>
      simp only [Bool.and_eq_true, Bool.not_eq_true'] at h
      obtain ⟨⟨hexec, hfollowed⟩, hold⟩ := h
      obtain ⟨path, hexec⟩ := Option.isSome_iff_exists.mp hexec
      obtain ⟨hst, hlives, hdone⟩ := runs_eq_some hruns
      obtain ⟨s, self', hs, hself', hdec, hstate, -, hch⟩ := startup_eq_ok rfl hst
      cases hself.symm.trans hself'
      rw [hdec] at hexec
      rw [hstate] at hold
      rw [StartupEnv.decision] at hexec hold hch
      split_ifs at hexec hold hch with hm
      · rw [(decideManaged_cases _ _).1] at hexec
        cases hexec
      · rw [hfollowed] at hexec hold hch
        obtain ⟨p, hp, hcur, hout, hrun, hfloor, hgood, hstaged, hlast, hchanged⟩ :=
          decide_exec_older hexec hold
        have hok : (e.staged s.lastGood).isOk = true := by
          have hstaged' : e.staged s.lastGood = .ok path := hstaged
          rw [hstaged']
          rfl
        exact countsOutBelow_iff.mpr ⟨s, self, hs, hself, hlives, hdone (hch hchanged),
          Bool.not_eq_true _ ▸ hm, hfollowed, ⟨p, hp, hcur, hout⟩, hrun, hfloor, hgood, hok, hlast⟩
  · cases h

theorem Start.execsOlder_of_countsOutBelow (h : e.countsOutBelow d = true) :
    e.execsOlder d = true := by
  obtain ⟨s, self, hs, hself, hlives, hdone, hm, hfollowed, ⟨p, hp, hcur, hout⟩, hrun, hfloor,
    hgood, hok, hlast⟩ := countsOutBelow_iff.mp h
  obtain ⟨path, hstaged⟩ : ∃ path, e.staged s.lastGood = .ok path := by
    cases hst : e.staged s.lastGood with
    | error err => rw [hst] at hok; cases hok
    | ok path => exact ⟨path, rfl⟩
  obtain ⟨dec, hst⟩ := exists_startup (e := e.env) hs hself
  obtain ⟨t, self', ht, hself', hdec, hstate, -, -⟩ := startup_eq_ok rfl hst
  cases hs.symm.trans ht
  cases hself.symm.trans hself'
  have hne : s.current ≠ builtin := ne_builtin_of_valid (hcur ▸ (loadState_valid hs).2.2 p hp)
  have hm' : ¬ e.env.managed = true := fun h => by cases hm.symm.trans h
  rw [StartupEnv.decision, if_neg hm', hfollowed] at hdec hstate
  obtain ⟨hexec, hcurrent⟩ := decide_countedOut { s with launcher := some self }
    e.env.running e.env.staged hp hcur hne hout hrun hfloor hgood hstaged
  have hruns : e.runs d = some dec := by
    rw [runs, hst]
    exact if_pos ⟨hlives, fun _ => hdone⟩
  rw [execsOlder, hself, hruns]
  simp only [hdec, hexec, hstate, hcurrent, hfollowed, hlast]
  rfl

/-! ### Every start of a run -/

/-- The floor wins at the start `a`, if it is one. -/
def FloorWins (h : Host) : Act → Prop
  | .start e => h.process = none → e.execsOlder h.disk = false
  | _ => True

instance (h : Host) : ∀ a, Decidable (FloorWins h a)
  | .start e => inferInstanceAs (Decidable (h.process = none → e.execsOlder h.disk = false))
  | .stop | .activate .. | .rollback .. | .look .. | .carryOut .. | .expire .. | .watch
  | .followCLI .. => isTrue trivial

/-- The start `a`, if it is one, does not count a pending release out onto an older one. -/
def NotBelow (h : Host) : Act → Prop
  | .start e => h.process = none → e.countsOutBelow h.disk = false
  | _ => True

/-- **A newer floor wins, except where it counts a pending release out.** On a fresh host, in any
run of activations, confirmations, rollbacks and starts with the floor replaced in between: no
launcher but the followed CLI execs a release that is not newer than itself if and only if no
start counts a pending release out onto a last good one that is not newer than the launcher. -/
theorem floor_wins_iff (acts : List Act) :
    RunMeets Host.step FloorWins {} acts ↔ RunMeets Host.step NotBelow {} acts := by
  refine runMeets_congr Host.step (fun h a => ?_) acts {}
  cases a with
  | start e =>
    refine forall_congr' fun _ => ?_
    rw [Bool.eq_false_iff, Bool.eq_false_iff]
    exact not_congr ⟨Start.countsOutBelow_of_execsOlder, Start.execsOlder_of_countsOutBelow⟩
  | _ => exact Iff.rfl

/-- A start of a launcher installed on the host. -/
def launcherOf (running : String) : Act :=
  .start
    { running := running
      self := .ok ⟨"/usr/local/bin/viiwork", running⟩
      staged := allStaged }

/-- v2.2.0 is confirmed over the floor v2.1.0, v2.4.0 is activated and started twice, and the
floor is replaced by v2.3.0. -/
def replacedFloor : List Act :=
  [launcherOf "v2.1.0", activateOf "v2.2.0", .stop, launcherOf "v2.1.0", lookIdle,
    .carryOut .done, activateOf "v2.4.0", .stop, launcherOf "v2.1.0", .stop,
    launcherOf "v2.1.0", .stop, launcherOf "v2.3.0"]

/-- The new floor hands over to the older v2.2.0. -/
theorem floor_loses_counted_out :
    ¬ RunMeets Host.step FloorWins {} replacedFloor ∧
      (run Host.step {} replacedFloor).map (fun h => h.process.map Process.running) =
        some (some "v2.2.0") ∧
      compare "v2.3.0" "v2.2.0" = some 1 := by
  decide +kernel

end Viiwork.Update
