import Viiwork.Update.Handover

/-!
# Viiwork.Update.Starts

How often a pending release is started. The launcher counts its starts in the state itself, in
two branches of `decide` and in `decideManaged`. Here they are counted from outside, from the
starts alone: `wouldRun` says that a start is one of the pending release, whatever the launcher
makes of it, and `runsPending` that the release came to run with the state still naming it as
pending. `Trial` ties the launcher's own number to the first of the two.

A start that dies before its save is in `state.json` does not count; one that dies after it
does, whether or not the release ever ran.
-/

namespace Viiwork.Update

/-! ### The starts of a pending release -/

/-- The launcher is the current release, or it is one to hand over to it. -/
def StartupEnv.WouldRun (e : StartupEnv) (self : Launcher) (s : State) : Prop :=
  e.running = s.current ∨
    e.managed = false ∧ floorWins e.running (e.followed self) s.current = false

instance (e : StartupEnv) (self : Launcher) (s : State) : Decidable (e.WouldRun self s) :=
  inferInstanceAs (Decidable (_ ∨ _ ∧ _))

/-- The start would run the pending release. -/
def Start.wouldRun (e : Start) (d : Disk) : Bool :=
  match loadState d, e.self with
  | .ok s, .ok self => s.pending.any fun p => p.version = s.current ∧ e.env.WouldRun self s
  | _, _ => false

/-- The start would run the pending release, and its save is in place. -/
def Start.counts (e : Start) (d : Disk) : Bool := e.wouldRun d && e.save.Lands

/-- The pending release runs, and is still pending. -/
def Start.runsPending (e : Start) (d : Disk) : Bool :=
  match e.runs d, loadState (e.disk d) with
  | some dec, .ok s => s.pending.any fun p =>
    match dec.exec with
    | some path => (e.staged p.version).toOption = some path
    | none => e.running = p.version
  | _, _ => false

/-- The disk after some starts. -/
def afterStarts (d : Disk) : List Start → Disk
  | [] => d
  | e :: es => afterStarts (e.disk d) es

/-- How many of the starts meet `P` where they are made. -/
def startsWhere (P : Start → Disk → Bool) (d : Disk) : List Start → Nat
  | [] => 0
  | e :: es => (P e d).toNat + startsWhere P (e.disk d) es

/-! ### One start -/

/-- What a decision does about a pending release: it counts the start, it counts the release
out, or it has nothing to do with it. -/
theorem StartupEnv.decision_pending (e : StartupEnv) (self : Launcher) {s : State} {p : Pending}
    (hp : s.pending = some p) (hcur : p.version = s.current) (hne : s.current ≠ builtin) :
    (e.WouldRun self s ∧ (e.decision self s).changed = true ∧ p.counted.attempts < maxAttempts ∧
        ((e.decision self s).state = { s with pending := p.counted } ∨
          (e.decision self s).state.pending = none)) ∨
      (e.WouldRun self s ∧ (e.decision self s).changed = true ∧ maxAttempts ≤ p.counted.attempts ∧
        (e.decision self s).state.pending = none ∧
        ((e.decision self s).state.current = s.lastGood ∨
          (e.decision self s).state.current = builtin)) ∨
      ¬ e.WouldRun self s ∧ (e.decision self s).exec = none ∧ e.running ≠ s.current ∧
        ((e.decision self s).state = s ∨ (e.decision self s).state.pending = none) := by
  rw [decision]
  split_ifs with hm
  · -- managed: only the current release itself is a start of it
    obtain ⟨hexec, ⟨hs, hrun⟩ | ⟨q, hq, -, hrun, hch, hout⟩⟩ := decideManaged_cases s e.running
    · refine .inr (.inr ⟨?_, hexec, hrun p hp hcur hne, .inl hs⟩)
      rintro (h | ⟨h, -⟩)
      · exact hrun p hp hcur hne h
      · rw [h] at hm
        cases hm
    · cases hp.symm.trans hq
      rcases hout with ⟨hleft, hs⟩ | ⟨hout, hs⟩
      · exact .inl ⟨.inl hrun, hch, hleft, .inl hs⟩
      · exact .inr (.inl ⟨.inl hrun, hch, hout, hs ▸ rfl, .inl (hs ▸ rfl)⟩)
  · rw [Bool.not_eq_true] at hm
    cases decide_decides s e.running (e.followed self) e.staged with
    | stays hwhy =>
      rcases hwhy with h | h
      · exact absurd h hne
      · cases hp.symm.trans h
    | counts hq _ hrun hleft _ hs hch =>
      cases hp.symm.trans hq
      exact .inl ⟨.inl hrun, hch, hleft, .inl hs⟩
    | resets hfloor hrun hexec hs hch =>
      refine .inr (.inr ⟨?_, hexec, hrun p hp hcur, .inr (hs ▸ rfl)⟩)
      rintro (h | ⟨-, h⟩)
      · exact hrun p hp hcur h
      · rw [hfloor] at h
        cases h
    | resetsOut hq _ hrun hout _ hs hch =>
      cases hp.symm.trans hq
      exact .inr (.inl ⟨.inl hrun, hch, hout, hs ▸ rfl, .inr (hs ▸ rfl)⟩)
    | ends hq _ hrun hout _ _ hs hch =>
      cases hp.symm.trans hq
      exact .inr (.inl ⟨hrun.imp id fun h => ⟨hm, h⟩, hch, hout, hs ▸ rfl, .inl (hs ▸ rfl)⟩)
    | execs hset _ _ hs hch =>
      subst hs
      cases hset with
      | kept _ hnone => exact absurd hcur (hnone p hp)
      | counted hq _ hx hleft _ hfloor =>
        cases hp.symm.trans hq
        refine .inl ⟨.inr ⟨hm, hfloor⟩, hch fun h => ?_, hleft, .inl hx⟩
        -- the count itself has changed
        rw [hx] at h
        have hatt := congrArg (fun s : State => s.pending.map Pending.attempts) h
        rw [hp] at hatt
        have hatt := Option.some.inj hatt
        simp [Pending.counted] at hatt
      | countedOut hq _ hx hout _ _ hfloor =>
        cases hp.symm.trans hq
        refine .inr (.inl ⟨.inr ⟨hm, hfloor⟩, hch fun h => ?_, hout, hx ▸ rfl, .inl (hx ▸ rfl)⟩)
        rw [hx] at h
        rw [← h] at hp
        cases hp
      | floorOut hq _ hx hout _ hrun =>
        cases hp.symm.trans hq
        refine .inr (.inl ⟨.inl hrun, hch fun h => ?_, hout, hx ▸ rfl, .inl (hx ▸ rfl)⟩)
        rw [hx] at h
        rw [← h] at hp
        cases hp
    | drops hset _ _ hs hch =>
      cases hset with
      | kept _ hnone => exact absurd hcur (hnone p hp)
      | counted hq _ _ hleft _ hfloor =>
        cases hp.symm.trans hq
        exact .inl ⟨.inr ⟨hm, hfloor⟩, hch, hleft, .inr (hs ▸ rfl)⟩
      | countedOut hq _ _ hout _ _ hfloor =>
        cases hp.symm.trans hq
        exact .inr (.inl ⟨.inr ⟨hm, hfloor⟩, hch, hout, hs ▸ rfl, .inr (hs ▸ rfl)⟩)
      | floorOut hq _ _ hout _ hrun =>
        cases hp.symm.trans hq
        exact .inr (.inl ⟨.inl hrun, hch, hout, hs ▸ rfl, .inr (hs ▸ rfl)⟩)

theorem Leaves.pending_none {staged : String → Except String String} {s x : State}
    (h : Leaves staged s x) (hs : s.pending = none) : x.pending = none := by
  cases h with
  | kept hx => rw [hx, hs]
  | counted hp => cases hs.symm.trans hp
  | fellBack hx | reset hx | dropped _ hx | droppedLastGood _ hx => rw [hx]; rfl

section Start

variable {e : Start} {d : Disk} {s s' : State} {p : Pending}

theorem Start.wouldRun_eq {self : Launcher} (hs : loadState d = .ok s) (hself : e.self = .ok self)
    (hp : s.pending = some p) (hcur : p.version = s.current) :
    e.wouldRun d = true ↔ e.env.WouldRun self s := by
  rw [wouldRun, hs, hself]
  simp [hp, hcur]

theorem Start.exists_of_wouldRun (h : e.wouldRun d = true) :
    ∃ s p, loadState d = .ok s ∧ s.pending = some p ∧ p.version = s.current := by
  rw [wouldRun] at h
  split at h
  · next s self hs hself =>
      obtain ⟨p, hp, hpred⟩ := (Option.any_eq_true _ _).mp h
      exact ⟨s, p, hs, hp, (of_decide_eq_true hpred).1⟩
  · cases h

/-- A start that gets nowhere. -/
theorem Start.of_error {err : String} (h : startup e.env d = .error err) :
    e.disk d = d ∧ e.runsPending d = false ∧ (∀ s, loadState d = .ok s → e.counts d = false) := by
  refine ⟨by rw [disk, h], by rw [runsPending, runs, h], fun s hs => ?_⟩
  rw [counts, wouldRun, hs]
  cases hself : e.self with
  | error err => rfl
  | ok self =>
    have henv : e.env.self = .ok self := hself
    rw [startup, hs, henv] at h
    cases h

/-- What is not pending is not made so by a start. -/
theorem Start.pending_none (hs : loadState d = .ok s) (hp : s.pending = none)
    (hs' : loadState (e.disk d) = .ok s') : s'.pending = none := by
  cases h : startup e.env d with
  | error err =>
    rw [(of_error h).1] at hs'
    cases hs.symm.trans hs'
    exact hp
  | ok dec =>
    obtain ⟨t, self, ht, -, -, hstate, -, -⟩ := startup_eq_ok rfl h
    cases hs.symm.trans ht
    obtain ⟨t, t', ht, ht', ⟨-, hfile⟩ | ⟨-, hfile⟩⟩ := loadState_disk h
    · cases hs.symm.trans ht
      cases hs'.symm.trans ht'
      rw [hfile, hp]
    · cases hs'.symm.trans ht'
      have hleaves := e.env.decision_leaves self { s with launcher := some self }
      rw [hfile, hstate]
      exact hleaves.pending_none hp

theorem Start.not_runsPending (hs' : loadState (e.disk d) = .ok s') (hp : s'.pending = none) :
    e.runsPending d = false := by
  rw [runsPending, hs']
  cases e.runs d with
  | none => rfl
  | some dec =>
    dsimp only
    rw [hp]
    rfl

/-- **One start at a pending release.** It counts and leaves the release pending with one
start more, it counts and is the last one, or it is no start of the release. -/
theorem Start.pending_cases {dec : Decision} (h : startup e.env d = .ok dec)
    (hs : loadState d = .ok s) (hp : s.pending = some p) (hcur : p.version = s.current)
    (hs' : loadState (e.disk d) = .ok s') :
    (e.counts d = true ∧ p.counted.attempts < maxAttempts ∧
        (s'.pending = some p.counted ∧ s'.current = s.current ∨ s'.pending = none)) ∨
      (e.counts d = true ∧ maxAttempts ≤ p.counted.attempts ∧ s'.pending = none ∧
        (s'.current = s.lastGood ∨ s'.current = builtin)) ∨
      e.counts d = false ∧ e.runsPending d = false ∧
        (s'.pending = some p ∧ s'.current = s.current ∨ s'.pending = none) := by
  obtain ⟨t, self, ht, hself, hexec, hstate, -, hch⟩ := startup_eq_ok rfl h
  cases hs.symm.trans ht
  have hwould := wouldRun_eq (e := e) hs hself hp hcur
  have hne : s.current ≠ builtin := ne_builtin_of_valid (hcur ▸ (loadState_valid hs).2.2 p hp)
  obtain ⟨t, t', ht, ht', hcase⟩ := loadState_disk h
  cases hs.symm.trans ht
  cases hs'.symm.trans ht'
  rcases hcase with ⟨⟨hchanged, hcut⟩, hfile⟩ | ⟨hlands, hfile⟩
  · refine .inr (.inr ⟨?_, ?_, .inl ⟨?_, ?_⟩⟩)
    · rw [counts, decide_eq_false hcut, Bool.and_false]
    · rw [runsPending]
      cases hruns : e.runs d with
      | none => rfl
      | some dec' =>
        obtain ⟨hdec, -, hdone⟩ := runs_eq_some hruns
        cases h.symm.trans hdec
        exact absurd (hdone hchanged ▸ trivial) hcut
    · rw [hfile, hp]
    · rw [hfile]
  · rw [hstate] at hfile
    rcases e.env.decision_pending self (s := { s with launcher := some self }) hp hcur hne with
      ⟨hw, hd, hleft, hst⟩ | ⟨hw, hd, hout, hnone, hst⟩ | ⟨hw, hd, hrun, hst⟩
    · refine .inl ⟨?_, hleft, ?_⟩
      · rw [counts, hwould.mpr hw, decide_eq_true (hlands (hch hd)), Bool.and_true]
      · rw [hfile]
        rcases hst with hst | hst
        · rw [hst]
          exact .inl ⟨rfl, rfl⟩
        · exact .inr hst
    · refine .inr (.inl ⟨?_, hout, by rw [hfile, hnone], ?_⟩)
      · rw [counts, hwould.mpr hw, decide_eq_true (hlands (hch hd)), Bool.and_true]
      · rw [hfile]
        exact hst
    · have hpending : s'.pending = some p ∧ s'.current = s.current ∨ s'.pending = none := by
        rw [hfile]
        rcases hst with hst | hst
        · rw [hst]
          exact .inl ⟨hp, rfl⟩
        · exact .inr hst
      refine .inr (.inr ⟨?_, ?_, hpending⟩)
      · rw [counts, Bool.eq_false_iff.mpr fun h => hw (hwould.mp h), Bool.false_and]
      · -- the launcher runs on itself, and it is another version
        rw [runsPending, hs']
        cases hruns : e.runs d with
        | none => rfl
        | some dec' =>
          cases h.symm.trans (runs_eq_some hruns).1
          have hrun' : e.running ≠ p.version := hcur ▸ hrun
          rcases hpending with ⟨hpending, -⟩ | hpending
          · simp [hpending, hexec, hd, hrun']
          · simp [hpending]

end Start

/-! ### A sequence of starts -/

/-- `k` starts of the release that is still pending, if one is, have been counted. -/
def Trial (d : Disk) (k : Nat) : Prop :=
  ∀ s, loadState d = .ok s → ∀ p ∈ s.pending, p.version = s.current ∧ p.attempts = k

variable {e : Start} {d : Disk} {k : Nat}

theorem Start.trial_disk (hd : Trial d k) : Trial (e.disk d) (k + (e.counts d).toNat) := by
  intro s' hs' q hq
  cases h : startup e.env d with
  | error err =>
    obtain ⟨hdisk, -, hcounts⟩ := of_error h
    rw [hdisk] at hs'
    rw [hcounts s' hs']
    exact hd s' hs' q hq
  | ok dec =>
    obtain ⟨s, -, hs, -⟩ := startup_eq_ok rfl h
    cases hp : s.pending with
    | none =>
      rw [pending_none hs hp hs'] at hq
      cases hq
    | some p =>
      obtain ⟨hcur, hk⟩ := hd s hs p hp
      rcases pending_cases h hs hp hcur hs' with
        ⟨hc, -, ⟨hq', hcur'⟩ | hq'⟩ | ⟨-, -, hq', -⟩ | ⟨hc, -, ⟨hq', hcur'⟩ | hq'⟩
      · cases hq'.symm.trans hq
        rw [hc, hcur']
        exact ⟨hcur, by simp [Pending.counted, hk]⟩
      · cases hq'.symm.trans hq
      · cases hq'.symm.trans hq
      · cases hq'.symm.trans hq
        rw [hc, hcur']
        exact ⟨hcur, by simpa using hk⟩
      · cases hq'.symm.trans hq

/-- A start that runs the pending release is counted, and leaves one to go. -/
theorem Start.counts_of_runsPending (hd : Trial d k) (h : e.runsPending d = true) :
    e.counts d = true ∧ (k : Int) + 1 < maxAttempts := by
  cases hst : startup e.env d with
  | error err =>
    rw [(of_error hst).2.1] at h
    cases h
  | ok dec =>
    obtain ⟨s, s', hs, hs', -⟩ := loadState_disk hst
    cases hp : s.pending with
    | none =>
      rw [not_runsPending hs' (pending_none hs hp hs')] at h
      cases h
    | some p =>
      obtain ⟨hcur, hk⟩ := hd s hs p hp
      rcases pending_cases hst hs hp hcur hs' with
        ⟨hc, hleft, -⟩ | ⟨-, -, hnone, -⟩ | ⟨-, hruns, -⟩
      · exact ⟨hc, by simpa [Pending.counted, hk] using hleft⟩
      · rw [not_runsPending hs' hnone] at h
        cases h
      · rw [hruns] at h
        cases h

/-- **The last start of a pending release.** -/
theorem Start.counted_out (hd : Trial d k) (h : e.counts d = true)
    (hk : maxAttempts ≤ (k : Int) + 1) :
    ∃ s s', loadState d = .ok s ∧ loadState (e.disk d) = .ok s' ∧ s'.pending = none ∧
      (s'.current = s.lastGood ∨ s'.current = builtin) := by
  have hwould := ((Bool.and_eq_true _ _).mp h).1
  obtain ⟨s, p, hs, hp, -⟩ := exists_of_wouldRun hwould
  obtain ⟨hcur, hatt⟩ := hd s hs p hp
  cases hst : startup e.env d with
  | error err =>
    rw [(of_error hst).2.2 s hs] at h
    cases h
  | ok dec =>
    obtain ⟨t, s', ht, hs', -⟩ := loadState_disk hst
    rcases pending_cases hst hs hp hcur hs' with
      ⟨-, hleft, -⟩ | ⟨-, -, hnone, hto⟩ | ⟨hc, -⟩
    · rw [Pending.counted, hatt] at hleft
      exact absurd hk (not_le.mpr hleft)
    · exact ⟨s, s', hs, hs', hnone, hto⟩
    · rw [hc] at h
      cases h

theorem trial_afterStarts {d : Disk} {k : Nat} (hd : Trial d k) :
    ∀ starts : List Start, Trial (afterStarts d starts) (k + startsWhere Start.counts d starts)
  | [] => hd
  | e :: es => by
      rw [afterStarts, startsWhere, ← Nat.add_assoc]
      exact trial_afterStarts (Start.trial_disk hd) es

/-- From a state with `k` starts counted, the rest are left. -/
theorem runsPending_le {d : Disk} {k : Nat} (hd : Trial d k) (hk : (k : Int) < maxAttempts) :
    ∀ starts : List Start,
      (startsWhere Start.runsPending d starts : Int) ≤ maxAttempts - 1 - k
  | [] => by
      rw [startsWhere]
      omega
  | e :: es => by
      have hnext : Trial (e.disk d) (k + (e.counts d).toNat) := Start.trial_disk hd
      rw [startsWhere]
      cases hr : e.runsPending d with
      | true =>
        obtain ⟨hc, hlt⟩ := Start.counts_of_runsPending hd hr
        rw [hc] at hnext
        have hes := runsPending_le hnext hlt es
        simp only [Bool.toNat_true, Nat.cast_add, Nat.cast_one] at hes ⊢
        omega
      | false =>
        have hes : (startsWhere Start.runsPending (e.disk d) es : Int) ≤ maxAttempts - 1 - k := by
          cases hc : e.counts d with
          | false =>
            rw [hc] at hnext
            exact runsPending_le hnext hk es
          | true =>
            by_cases hlt : (k : Int) + 1 < maxAttempts
            · rw [hc] at hnext
              have hes := runsPending_le hnext hlt es
              simp only [Bool.toNat_true, Nat.cast_add, Nat.cast_one] at hes
              omega
            · -- the last start: nothing is pending after it, so any number will do
              obtain ⟨s, s', -, hs', hnone, -⟩ := Start.counted_out hd hc (not_lt.mp hlt)
              refine runsPending_le (fun t ht p hp => ?_) hk es
              cases hs'.symm.trans ht
              rw [hnone] at hp
              cases hp
        simpa using hes

/-! ### What a start execs -/

/-- A binary that is exec'd is the verified one of the release that is by then on disk as the
current one. -/
theorem Start.exec_verified {dec : Decision} {path : String} (h : e.runs d = some dec)
    (hexec : dec.exec = some path) :
    ∃ s', loadState (e.disk d) = .ok s' ∧ e.staged s'.current = .ok path := by
  obtain ⟨hst, -, hdone⟩ := runs_eq_some h
  obtain ⟨s, self, -, -, hdec, hstate, -, -⟩ := startup_eq_ok rfl hst
  obtain ⟨t, s', -, hs', ⟨⟨hch, hcut⟩, -⟩ | ⟨-, hfile⟩⟩ := loadState_disk hst
  · exact absurd (hdone hch ▸ trivial) hcut
  refine ⟨s', hs', ?_⟩
  rw [hfile, hstate]
  rw [hdec] at hexec
  rw [StartupEnv.decision] at hexec ⊢
  split_ifs at hexec ⊢
  · rw [(decideManaged_cases _ _).1] at hexec
    cases hexec
  · cases decide_decides { s with launcher := some self } e.env.running (e.env.followed self)
      e.env.staged with
    | execs _ hstaged hx hs =>
      cases hx.symm.trans hexec
      rw [hs]
      exact hstaged
    | stays _ hx | counts _ _ _ _ hx | resets _ _ hx | resetsOut _ _ _ _ hx | ends _ _ _ _ _ hx
    | drops _ _ hx => cases hx.symm.trans hexec

/-- **A pending release gets a bounded number of starts.** From a state in which nothing is
pending, or the current release with no start counted: whatever the launchers are, whichever
binaries fail to verify and wherever a start dies, the pending release runs as such in fewer
than `maxAttempts` of them. The last start it would get leaves nothing pending and the node on
its last good release or on the builtin binary. And every binary that is exec'd is the verified
one of the current release in the state saved by then. -/
theorem pending_starts_bounded (d : Disk)
    (hd : ∀ f ∈ d.state, ∀ p ∈ f.pending, p.version = f.current ∧ p.attempts = 0)
    (starts : List Start) :
    (startsWhere Start.runsPending d starts : Int) ≤ maxAttempts - 1 ∧
      (∀ pre e, pre ++ [e] <+: starts →
        e.counts (afterStarts d pre) = true →
        (startsWhere Start.counts d pre : Int) = maxAttempts - 1 →
        ∃ s s', loadState (afterStarts d pre) = .ok s ∧
          loadState (e.disk (afterStarts d pre)) = .ok s' ∧ s'.pending = none ∧
          (s'.current = s.lastGood ∨ s'.current = builtin)) ∧
      ∀ pre e, pre ++ [e] <+: starts →
        ∀ dec path, e.runs (afterStarts d pre) = some dec → dec.exec = some path →
        ∃ s', loadState (e.disk (afterStarts d pre)) = .ok s' ∧
          e.staged s'.current = .ok path := by
  have htrial : Trial d 0 := by
    intro s hs p hp
    obtain ⟨-, rfl⟩ | ⟨hstate, -, -⟩ := loadState_eq_ok hs
    · cases hp
    · exact hd s.toStateFile hstate p hp
  refine ⟨?_, fun pre e _ hcounts hpre => ?_, fun pre e _ dec path hruns hexec =>
    Start.exec_verified hruns hexec⟩
  · simpa using runsPending_le htrial (by decide) starts
  · refine Start.counted_out (trial_afterStarts htrial pre) hcounts ?_
    rw [Nat.zero_add, hpre, Int.sub_add_cancel]

/-- A release on trial. -/
def onTrial : Disk :=
  { state := some
      { current := "v2.6.0", lastGood := "v2.5.9", pending := some ⟨"v2.6.0", 0, ["m/0"]⟩ } }

/-- A start of the floor v2.5.0 with every release in place, which may die before the exec. -/
def floorStart (survives : Bool) : Start :=
  { running := "v2.5.0"
    self := .ok ⟨"/usr/local/bin/viiwork", "b"⟩
    staged := fun v => .ok ("/s/" ++ v)
    survives := survives }

/-- Of three starts, the first dies between its save and the exec and the third is the last:
the release runs once, and the third start execs the last good one. -/
theorem pending_starts_bounded_three :
    (∀ f ∈ onTrial.state, ∀ p ∈ f.pending, p.version = f.current ∧ p.attempts = 0) ∧
      startsWhere Start.runsPending onTrial [floorStart false, floorStart true, floorStart true]
        = 1 ∧
      ∃ s s', loadState (afterStarts onTrial [floorStart false, floorStart true]) = .ok s ∧
        loadState ((floorStart true).disk
          (afterStarts onTrial [floorStart false, floorStart true])) = .ok s' ∧
        s'.pending = none ∧ (s'.current = s.lastGood ∨ s'.current = builtin) := by
  have hd : ∀ f ∈ onTrial.state, ∀ p ∈ f.pending, p.version = f.current ∧ p.attempts = 0 := by
    rintro f ⟨⟩ p ⟨⟩
    exact ⟨rfl, rfl⟩
  refine ⟨hd, by decide +kernel, ?_⟩
  exact (pending_starts_bounded onTrial hd [floorStart false, floorStart true, floorStart true]).2.1
    [floorStart false, floorStart true] (floorStart true) (List.prefix_refl _)
    (by decide +kernel) (by decide +kernel)

end Viiwork.Update
