import Viiwork.Update.State

/-!
# Viiwork.Update.Handover

The launcher (`handover.go`): what a binary does when it is started, before the node is
built. It loads the state, decides which release to run (`decide`, or `decideManaged` where
the release is the image), saves the state when that changes it, and execs the release or
runs on itself.

`staged` gives the re-verified binary of a version or says why there is none; it can fail for
any version. Where the launcher has no reason to exec anything, `exec` is `none`.
-/

namespace Viiwork.Update

/-- How many starts a pending release gets to confirm itself. -/
def maxAttempts : Int := 3

structure Decision where
  /-- The staged binary to exec; `none` runs this binary. -/
  exec : Option String := none
  state : State
  changed : Bool := false
  logs : List String := []
  deriving Repr, DecidableEq

/-! ### The steps of a decision -/

/-- One more start. -/
def Pending.counted (p : Pending) : Pending := { p with attempts := p.attempts + 1 }

/-- Back to the last good release, with nothing on trial. -/
def State.fallBack (s : State) : State := { s with current := s.lastGood, pending := none }

/-- What a newer floor leaves of the state. -/
def State.reset (s : State) : State :=
  { current := builtin, lastGood := builtin, launcher := s.launcher }

/-- What is left when the binary of the current release cannot be run. -/
def State.dropCurrent (s : State) : State :=
  { s with
    current := builtin
    pending := none
    lastGood := if s.lastGood = s.current then builtin else s.lastGood }

def didNotConfirm (version lastGood : String) : String :=
  version ++ " did not confirm in " ++ toString maxAttempts ++ " starts: back to " ++ lastGood

/-- The end of `decide`: run the current release of `d`, if its binary verifies. -/
def Decision.runStaged (staged : String → Except String String) (d : Decision) : Decision :=
  match staged d.state.current with
  | .error err =>
    { state := d.state.dropCurrent
      changed := true
      logs := d.logs ++ ["not running " ++ d.state.current ++ ": " ++ err ++
        "; running this binary"] }
  | .ok path => { d with exec := some path }

/-- Count a start of the pending release `p`, on the way to its binary. -/
def Decision.countStart (staged : String → Except String String) (s : State) (p : Pending)
    (d : Decision) : Decision :=
  if maxAttempts ≤ p.counted.attempts then
    let d := { d with
      state := { d.state with current := s.lastGood, pending := none }
      changed := true
      logs := d.logs ++ [didNotConfirm p.version s.lastGood] }
    if d.state.current = builtin then d else d.runStaged staged
  else
    { d with state := { d.state with pending := p.counted }, changed := true }.runStaged staged

/-- A binary of version `running` wins over the staged version `v`. -/
def floorWins (running : String) (followed : Bool) (v : String) : Bool :=
  atLeast running v && !followed

/-- From the newer-floor rule on, at a state `s` that is not on the builtin binary. -/
def decideFloor (s : State) (running : String) (followed : Bool)
    (staged : String → Except String String) (d : Decision) : Decision :=
  if floorWins running followed s.current then
    { state := s.reset
      changed := true
      logs := d.logs ++ ["this binary (" ++ running ++ ") is at least staged " ++ s.current ++
        ": running it, staged releases forgotten"] }
  else match s.pending with
    | some p => if p.version = s.current then d.countStart staged s p else d.runStaged staged
    | none => d.runStaged staged

/-! ### The launcher's rule -/

/-- The startup rule of a launcher of version `running`; `followed` when it is the CLI that
this node installed by following a confirmed release. -/
def decide (s : State) (running : String) (followed : Bool)
    (staged : String → Except String String) : Decision :=
  if s.current = builtin then { state := s }
  else match s.pending with
    | none =>
      if followed ∧ s.current = running then { state := s }
      else decideFloor s running followed staged { state := s }
    | some p =>
      -- the floor is the pending release itself
      if p.version = s.current ∧ running = s.current then
        if p.counted.attempts < maxAttempts then
          { state := { s with pending := p.counted }, changed := true }
        else
          let d : Decision :=
            { state := s.fallBack
              changed := true
              logs := [didNotConfirm p.version s.lastGood] }
          if s.lastGood = builtin then d
          else decideFloor s.fallBack running followed staged d
      else decideFloor s running followed staged { state := s }

/-- The rule where a helper on the host swaps the image: it only counts the starts. -/
def decideManaged (s : State) (running : String) : Decision :=
  match s.pending with
  | none => { state := s }
  | some p =>
    if s.current = builtin ∨ p.version ≠ s.current ∨ running ≠ s.current then { state := s }
    else if p.counted.attempts < maxAttempts then
      { state := { s with pending := p.counted }, changed := true }
    else
      { state := s.fallBack
        changed := true
        logs := [didNotConfirm p.version s.lastGood ++
          ", which the host's engine helper swaps in"] }

/-! ### What a launcher can decide -/

/-- The state `x` whose current release the launcher sets out to run, from `s`. -/
inductive SetsOut (s : State) (running : String) (followed : Bool) (x : State) : Prop
  | kept (hx : x = s) (hnone : ∀ p ∈ s.pending, p.version ≠ s.current)
      (hfloor : floorWins running followed s.current = false)
  | counted {p : Pending} (hp : s.pending = some p) (hcur : p.version = s.current)
      (hx : x = { s with pending := p.counted }) (hleft : p.counted.attempts < maxAttempts)
      (hrun : running ≠ s.current) (hfloor : floorWins running followed s.current = false)
  | countedOut {p : Pending} (hp : s.pending = some p) (hcur : p.version = s.current)
      (hx : x = s.fallBack) (hout : maxAttempts ≤ p.counted.attempts)
      (hgood : s.lastGood ≠ builtin) (hrun : running ≠ s.current)
      (hfloor : floorWins running followed s.current = false)
  /-- The launcher is the pending release itself. -/
  | floorOut {p : Pending} (hp : s.pending = some p) (hcur : p.version = s.current)
      (hx : x = s.fallBack) (hout : maxAttempts ≤ p.counted.attempts)
      (hgood : s.lastGood ≠ builtin) (hrun : running = s.current)
      (hfloor : floorWins running followed s.lastGood = false)

/-- **What `decide` can do.** -/
inductive Decides (s : State) (running : String) (followed : Bool)
    (staged : String → Except String String) (d : Decision) : Prop
  | stays (hwhy : s.current = builtin ∨ s.pending = none)
      (hexec : d.exec = none) (hstate : d.state = s)
  /-- The launcher is the pending release, and goes on trial once more. -/
  | counts {p : Pending} (hp : s.pending = some p) (hcur : p.version = s.current)
      (hrun : running = s.current) (hleft : p.counted.attempts < maxAttempts)
      (hexec : d.exec = none) (hstate : d.state = { s with pending := p.counted })
      (hchanged : d.changed = true)
  | resets (hfloor : floorWins running followed s.current = true)
      (hrun : ∀ p ∈ s.pending, p.version = s.current → running ≠ s.current)
      (hexec : d.exec = none) (hstate : d.state = s.reset) (hchanged : d.changed = true)
  | resetsOut {p : Pending} (hp : s.pending = some p) (hcur : p.version = s.current)
      (hrun : running = s.current) (hout : maxAttempts ≤ p.counted.attempts)
      (hexec : d.exec = none) (hstate : d.state = s.reset) (hchanged : d.changed = true)
  /-- The pending release is out of starts, and the last good one is this binary. -/
  | ends {p : Pending} (hp : s.pending = some p) (hcur : p.version = s.current)
      (hrun : running = s.current ∨ floorWins running followed s.current = false)
      (hout : maxAttempts ≤ p.counted.attempts) (hgood : s.lastGood = builtin)
      (hexec : d.exec = none) (hstate : d.state = s.fallBack) (hchanged : d.changed = true)
  | execs {x : State} {path : String} (hset : SetsOut s running followed x)
      (hstaged : staged x.current = .ok path) (hexec : d.exec = some path) (hstate : d.state = x)
      (hchanged : x ≠ s → d.changed = true)
  | drops {x : State} {err : String} (hset : SetsOut s running followed x)
      (hstaged : staged x.current = .error err) (hexec : d.exec = none)
      (hstate : d.state = x.dropCurrent) (hchanged : d.changed = true)

section Cases

variable {s : State} {running : String} {followed : Bool}
  {staged : String → Except String String}

/-- The end of a decision, at the state it has come to. -/
theorem Decides.runStaged {d : Decision} (hset : SetsOut s running followed d.state)
    (hchanged : d.state ≠ s → d.changed = true) :
    Decides s running followed staged (d.runStaged staged) := by
  rw [Decision.runStaged]
  cases hst : staged d.state.current with
  | error err => exact .drops hset hst rfl rfl rfl
  | ok path => exact .execs hset hst rfl rfl hchanged

theorem Decides.countStart {p : Pending} {logs : List String} (hp : s.pending = some p)
    (hcur : p.version = s.current) (hrun : running ≠ s.current)
    (hfloor : floorWins running followed s.current = false) :
    Decides s running followed staged
      (Decision.countStart staged s p { state := s, logs := logs }) := by
  rw [Decision.countStart]
  split_ifs with hout
  · dsimp only
    split_ifs with hgood
    · exact .ends hp hcur (.inr hfloor) hout hgood rfl rfl rfl
    · exact .runStaged (.countedOut hp hcur rfl hout hgood hrun hfloor) fun _ => rfl
  · exact .runStaged (.counted hp hcur rfl (not_le.mp hout) hrun hfloor) fun _ => rfl

/-- The rule from the newer floor on, where the launcher is not the pending release. -/
theorem Decides.decideFloor
    (hrun : ∀ p ∈ s.pending, p.version = s.current → running ≠ s.current) :
    Decides s running followed staged (decideFloor s running followed staged { state := s }) := by
  rw [Update.decideFloor]
  split_ifs with hfloor
  · exact .resets hfloor hrun rfl rfl rfl
  · rw [Bool.not_eq_true] at hfloor
    cases hp : s.pending with
    | none =>
      exact .runStaged (.kept rfl (fun p h => by rw [hp] at h; cases h) hfloor)
        fun h => absurd rfl h
    | some p =>
      dsimp only
      split_ifs with hcur
      · exact .countStart hp hcur (hrun p hp hcur) hfloor
      · refine .runStaged (.kept rfl (fun q h => ?_) hfloor) fun h => absurd rfl h
        rw [hp] at h
        exact Option.some.inj h ▸ hcur

/-- **The launcher's rule, by its outcomes.** -/
theorem decide_decides (s : State) (running : String) (followed : Bool)
    (staged : String → Except String String) :
    Decides s running followed staged (decide s running followed staged) := by
  rw [decide]
  by_cases hbuiltin : s.current = builtin
  · rw [if_pos hbuiltin]
    exact .stays (.inl hbuiltin) rfl rfl
  rw [if_neg hbuiltin]
  cases hp : s.pending with
  | none =>
    dsimp only
    split_ifs
    · exact .stays (.inr hp) rfl rfl
    · exact .decideFloor fun p h => by rw [hp] at h; cases h
  | some p =>
    dsimp only
    split_ifs with hself hleft hgood
    · exact .counts hp hself.1 hself.2 hleft rfl rfl rfl
    · exact .ends hp hself.1 (.inl hself.2) (not_lt.mp hleft) hgood rfl rfl rfl
    · -- out of starts, and on to the newer-floor rule with nothing pending any more
      rw [Update.decideFloor]
      split_ifs with hfloor
      · exact .resetsOut hp hself.1 hself.2 (not_lt.mp hleft) rfl rfl rfl
      · rw [Bool.not_eq_true] at hfloor
        exact .runStaged (.floorOut hp hself.1 rfl (not_lt.mp hleft) hgood hself.2 hfloor)
          fun _ => rfl
    · refine .decideFloor fun q h hcur hrun => hself ?_
      rw [hp] at h
      exact ⟨Option.some.inj h ▸ hcur, hrun⟩

/-- The managed rule, by its outcomes. -/
theorem decideManaged_cases (s : State) (running : String) :
    (decideManaged s running).exec = none ∧
      (((decideManaged s running).state = s ∧
          ∀ p ∈ s.pending, p.version = s.current → s.current ≠ builtin → running ≠ s.current) ∨
        ∃ p, s.pending = some p ∧ p.version = s.current ∧ running = s.current ∧
          (decideManaged s running).changed = true ∧
          ((p.counted.attempts < maxAttempts ∧
              (decideManaged s running).state = { s with pending := p.counted }) ∨
            maxAttempts ≤ p.counted.attempts ∧ (decideManaged s running).state = s.fallBack)) := by
  rw [decideManaged]
  cases hp : s.pending with
  | none => exact ⟨rfl, .inl ⟨rfl, fun p h => by cases h⟩⟩
  | some p =>
    dsimp only
    split_ifs with hnot hleft
    · refine ⟨rfl, .inl ⟨rfl, fun q h hcur hne hrun => ?_⟩⟩
      rw [Option.mem_some_iff] at h
      subst h
      rcases hnot with h | h | h
      · exact hne h
      · exact h hcur
      · exact h hrun
    · push Not at hnot
      exact ⟨rfl, .inr ⟨p, rfl, hnot.2.1, hnot.2.2, rfl, .inl ⟨hleft, rfl⟩⟩⟩
    · push Not at hnot
      exact ⟨rfl, .inr ⟨p, rfl, hnot.2.1, hnot.2.2, rfl, .inr ⟨not_lt.mp hleft, rfl⟩⟩⟩

end Cases

/-! ### The start of a binary -/

/-- `cli.json`: the CLI this node installed itself. -/
structure CLIRecord where
  version : String
  sha256 : String
  deriving Repr, DecidableEq

def CLIRecord.Valid (r : CLIRecord) : Prop :=
  validVersion r.version = true ∧ r.sha256.utf8ByteSize = 64

instance (r : CLIRecord) : Decidable r.Valid := inferInstanceAs (Decidable (_ ∧ _))

structure StartupEnv where
  running : String
  /-- This is the staged binary that its launcher chose. -/
  handedOver : Bool := false
  managed : Bool := false
  self : Except String Launcher
  cli : Option CLIRecord := none
  staged : String → Except String String

/-- The launcher is the CLI that `FollowCLI` installed. -/
def StartupEnv.followed (e : StartupEnv) (self : Launcher) : Bool :=
  e.cli.any fun r => r.Valid ∧ r.version = e.running ∧ r.sha256 = self.sha256

/-- What a launcher decides at a state it has recorded itself in. -/
def StartupEnv.decision (e : StartupEnv) (self : Launcher) (s : State) : Decision :=
  if e.managed then decideManaged s e.running
  else decide s e.running (e.followed self) e.staged

/-- The states a decision at `s` can come to. -/
inductive Leaves (staged : String → Except String String) (s x : State) : Prop
  | kept (hx : x = s)
  | counted {p : Pending} (hp : s.pending = some p) (hx : x = { s with pending := p.counted })
  | fellBack (hx : x = s.fallBack)
  | reset (hx : x = s.reset)
  | dropped {err : String} (hstaged : staged s.current = .error err) (hx : x = s.dropCurrent)
  /-- The pending release is out of starts, and the last good one does not verify. -/
  | droppedLastGood {err : String} (hstaged : staged s.lastGood = .error err)
      (hx : x = s.fallBack.dropCurrent)

theorem StartupEnv.decision_leaves (e : StartupEnv) (self : Launcher) (s : State) :
    Leaves e.staged s (e.decision self s).state := by
  rw [decision]
  split_ifs
  · obtain ⟨-, ⟨hs, -⟩ | ⟨p, hp, -, -, -, ⟨-, hs⟩ | ⟨-, hs⟩⟩⟩ := decideManaged_cases s e.running
    · exact .kept hs
    · exact .counted hp hs
    · exact .fellBack hs
  · cases decide_decides s e.running (e.followed self) e.staged with
    | stays _ _ hs => exact .kept hs
    | counts hp _ _ _ _ hs => exact .counted hp hs
    | resets _ _ _ hs | resetsOut _ _ _ _ _ hs => exact .reset hs
    | ends _ _ _ _ _ _ hs => exact .fellBack hs
    | execs hset _ _ hs =>
      cases hset with
      | kept hx => exact .kept (hs.trans hx)
      | counted hp _ hx => exact .counted hp (hs.trans hx)
      | countedOut _ _ hx | floorOut _ _ hx => exact .fellBack (hs.trans hx)
    | drops hset hstaged _ hs =>
      cases hset with
      | kept hx | counted _ _ hx =>
        subst hx
        exact .dropped hstaged hs
      | countedOut _ _ hx | floorOut _ _ hx =>
        subst hx
        exact .droppedLastGood hstaged hs

variable {s : State} {e : StartupEnv} {self : Launcher} {d : Disk} {dec : Decision}

theorem State.fallBack_valid (h : s.Valid) : s.fallBack.Valid :=
  ⟨h.2.1, h.2.1, fun _ hp => by cases hp⟩

theorem State.dropCurrent_valid (h : s.Valid) : s.dropCurrent.Valid := by
  refine ⟨validName_builtin, ?_, fun _ hp => by cases hp⟩
  change validName (if s.lastGood = s.current then builtin else s.lastGood) = true
  split_ifs
  · exact validName_builtin
  · exact h.2.1

theorem Leaves.valid {staged : String → Except String String} {x : State} (h : Leaves staged s x)
    (hs : s.Valid) : x.Valid := by
  cases h with
  | kept hx => exact hx ▸ hs
  | counted hp hx =>
    subst hx
    refine ⟨hs.1, hs.2.1, fun q hq => ?_⟩
    cases Option.some.inj hq
    exact (hs.2.2 _ hp : validVersion _ = true)
  | fellBack hx => exact hx ▸ State.fallBack_valid hs
  | reset hx => exact hx ▸ newState_valid
  | dropped _ hx => exact hx ▸ State.dropCurrent_valid hs
  | droppedLastGood _ hx => exact hx ▸ State.dropCurrent_valid (State.fallBack_valid hs)

/-- A decision that changes nothing is about the state as it was. -/
theorem StartupEnv.decision_unchanged (h : (e.decision self s).changed = false) :
    (e.decision self s).state = s := by
  rw [decision] at h ⊢
  split_ifs at h ⊢ with hm
  · obtain ⟨-, ⟨hs, -⟩ | ⟨p, -, -, -, hch, -⟩⟩ := decideManaged_cases s e.running
    · exact hs
    · rw [h] at hch
      cases hch
  · cases decide_decides s e.running (e.followed self) e.staged with
    | stays _ _ hstate => exact hstate
    | execs _ _ _ hstate hch =>
      by_contra hne
      rw [hstate] at hne
      rw [hch hne] at h
      cases h
    | counts _ _ _ _ _ _ hch | resets _ _ _ _ hch | resetsOut _ _ _ _ _ _ hch
    | ends _ _ _ _ _ _ _ hch | drops _ _ _ _ hch => rw [hch] at h; cases h

/-- The decision of a start, `changed` when it is to be saved before anything is run. -/
def startup (e : StartupEnv) (disk : Disk) : Except String Decision := do
  let s ← loadState disk
  if e.handedOver then
    return { state := s }
  let self ← e.self.mapError ("describing this binary as the launcher: " ++ ·)
  let d := e.decision self { s with launcher := some self }
  return { d with changed := d.changed || s.launcher != some self }

/-- What a launcher's start comes to: a decision at the state on disk, with the launcher
recorded in it, that is saved unless it leaves the state as it is. -/
theorem startup_eq_ok {disk : Disk} {d : Decision} (he : e.handedOver = false)
    (h : startup e disk = .ok d) :
    ∃ s self, loadState disk = .ok s ∧ e.self = .ok self ∧
      d.exec = (e.decision self { s with launcher := some self }).exec ∧
      d.state = (e.decision self { s with launcher := some self }).state ∧
      (d.changed = false → d.state = s) ∧
      ((e.decision self { s with launcher := some self }).changed = true → d.changed = true) := by
  rw [startup] at h
  cases hs : loadState disk with
  | error err => rw [hs] at h; cases h
  | ok s =>
    cases hself : e.self with
    | error err =>
      rw [hs, hself, he] at h
      cases h
    | ok self =>
      rw [hs, hself, he] at h
      cases Except.ok.inj h
      refine ⟨s, self, rfl, rfl, rfl, rfl, fun hch => ?_, fun hch => ?_⟩
      · rw [Bool.or_eq_false_iff, bne_eq_false_iff_eq] at hch
        have hsame : ({ s with launcher := some self } : State) = s := by rw [← hch.2]
        rw [hsame] at hch ⊢
        exact StartupEnv.decision_unchanged hch.1
      · exact Bool.or_eq_true_iff.mpr (.inl hch)

/-- A launcher that can load the state and describe itself comes to a decision. -/
theorem exists_startup {disk : Disk} (hs : loadState disk = .ok s) (hself : e.self = .ok self) :
    ∃ d, startup e disk = .ok d := by
  rw [startup, hs, hself]
  cases e.handedOver
  · exact ⟨_, rfl⟩
  · exact ⟨_, rfl⟩

/-! ### A start of the launcher

One start is one `Startup` of the launcher and, when it execs, the staged binary's own, which
was told that it is handed over to and goes on as it is. -/

structure Start where
  running : String
  managed : Bool := false
  self : Except String Launcher
  cli : Option CLIRecord := none
  staged : String → Except String String
  save : Save := .done
  /-- The process does not end between the save and what it then runs. -/
  survives : Bool := true

def Start.env (e : Start) : StartupEnv :=
  { running := e.running, managed := e.managed, self := e.self, cli := e.cli, staged := e.staged }

/-- What the start leaves on disk. -/
def Start.disk (e : Start) (d : Disk) : Disk :=
  match startup e.env d with
  | .error _ => d
  | .ok dec => if dec.changed then d.saveState dec.state e.save else d

/-- What the next load finds after a start: the state of its decision, unless the save of it
was cut before `state.json`. -/
theorem Start.loadState_disk {e : Start} (h : startup e.env d = .ok dec) :
    ∃ s s', loadState d = .ok s ∧ loadState (e.disk d) = .ok s' ∧
      ((dec.changed = true ∧ ¬ e.save.Lands) ∧ s'.toStateFile = s.toStateFile ∨
        (dec.changed = true → e.save.Lands) ∧ s'.toStateFile = dec.state.toStateFile) := by
  obtain ⟨s, self, hs, -, -, hstate, hsame, -⟩ := startup_eq_ok rfl h
  rw [disk, h]
  dsimp only
  split_ifs with hch
  · have hvalid := loadState_valid hs
    have hrecorded : ({ s with launcher := some self } : State).Valid := hvalid
    have hvalid : dec.state.Valid := hstate ▸ (e.env.decision_leaves self _).valid hrecorded
    obtain ⟨s', hs'⟩ := loadState_saveState hs hvalid e.save
    rcases saveState_cases hs hs' with ⟨hw, hfile, -⟩ | ⟨hw, hfile, -⟩
    · exact ⟨s, s', hs, hs', .inr ⟨fun _ => hw, hfile⟩⟩
    · exact ⟨s, s', hs, hs', .inl ⟨⟨hch, hw⟩, hfile⟩⟩
  · refine ⟨s, s, hs, hs, .inr ⟨fun h => absurd h hch, ?_⟩⟩
    rw [hsame (Bool.not_eq_true _ ▸ hch)]

/-- The decision that the start carries out; `none` when it gets no further. -/
def Start.runs (e : Start) (d : Disk) : Option Decision :=
  match startup e.env d with
  | .error _ => none
  | .ok dec => if e.survives ∧ (dec.changed → e.save = .done) then some dec else none

theorem Start.runs_eq_some {e : Start} (h : e.runs d = some dec) :
    startup e.env d = .ok dec ∧ e.survives = true ∧ (dec.changed = true → e.save = .done) := by
  rw [runs] at h
  cases hst : startup e.env d with
  | error err => rw [hst] at h; cases h
  | ok dec' =>
    rw [hst] at h
    dsimp only at h
    split_ifs at h with hgo
    cases h
    exact ⟨rfl, hgo⟩

end Viiwork.Update
