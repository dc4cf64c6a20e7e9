import Viiwork.Update.Host
import Viiwork.Update.Stage

/-!
# Viiwork.Update.Pruning

A node with its staged releases: the host, and beside it what works on the releases directory
outside the store's lock. The confirmer prunes after its confirmation, from the state that it
saved under the lock, in steps of its own: the listing, then one deletion at a time. An
activation looks for its binary before it takes the lock. A stage prepares a directory and
renames it into place, an earlier one aside first.

All of these interleave. `Quiet` is what has to be kept out so that every release that the
saved state names stays staged (`staged_while_named`): a `Prune` that is under way has not
heard of a state that was saved since.
-/

namespace Viiwork.Update

open Viiwork.Lib Viiwork.Kvshare Viiwork.Release List Option

/-! ### The node -/

/-- A `Prune` under way. -/
structure Pruning where
  /-- The state that the confirmation saved. -/
  confirmed : State
  /-- What is left to delete, once the releases are listed. -/
  left : Option (List String) := none

/-- A stage at its renames. -/
structure Staging where
  version : String
  new : StagedDir
  /-- The earlier directory, once it was moved aside. -/
  aside : Option StagedDir := none

structure Node where
  host : Host
  releases : Releases
  /-- The activations that have passed their checks. -/
  activating : List (ActivateEnv × UpdateRequest) := []
  pruning : Option Pruning := none
  staging : Option Staging := none

inductive NodeAct
  | start (e : Start)
  | stop
  /-- The checks of an activation. -/
  | check (env : ActivateEnv) (req : UpdateRequest)
  /-- The activation at a place in the list takes the lock. -/
  | activate (i : Nat) (w : Save)
  | rollback (w : Save)
  | look (env : ConfirmEnv)
  | carryOut (w : Save)
  | expire (i : Nat) (w : Save)
  | watch
  | followCLI (path sum : String) (w : Save)
  /-- `Prune` lists the staged versions. -/
  | list
  /-- It deletes one. -/
  | delete
  /-- It ends, perhaps with an error. -/
  | endPrune
  /-- A stage comes to its renames, or ends before them. -/
  | stage (st : Stager) (w : World) (version : String)
  | moveAside
  | place
  /-- The new directory cannot be renamed, and the earlier one is renamed back. -/
  | putBack
  | giveUp

/-- What the confirmer prunes after its verdict was carried out. -/
def Host.prunes (h : Host) (w : Save) : Option Pruning :=
  match h.process with
  | none => none
  | some p =>
    match p.verdict with
    | some .confirm =>
      match ((p.store h.disk).update w (Verdict.confirm.carryOut p.running p.managed ·)).2 with
      | .ok (_, next) => some { confirmed := next }
      | .error _ => none
    | _ => none

/-- A step of the host, the rest of the node left alone. -/
def Node.hostStep (n : Node) (a : Act) : Option Node :=
  (n.host.step a).map fun h => { n with host := h }

variable (sha : Sha256) (ed : Ed25519) (tar : Tar)

def Node.step (n : Node) : NodeAct → Option Node
  | .start e => n.hostStep (.start { e with staged := binary sha n.releases })
  | .stop => (n.hostStep .stop).map fun n =>
    { n with activating := [], pruning := none, staging := none }
  | .check env req =>
    match n.host.process with
    | none => none
    | some p =>
      let env := { env with staged := binary sha n.releases }
      match checkActivate p.running p.managed env req with
      | .error _ => some n
      | .ok _ => some { n with activating := n.activating ++ [(env, req)] }
  | .activate i w =>
    match n.activating[i]? with
    | none => none
    | some (env, req) => (n.hostStep (.activate env req w)).map fun n =>
      { n with activating := n.activating.eraseIdx i }
  | .rollback w => n.hostStep (.rollback (binary sha n.releases) w)
  | .look env => if n.pruning.isSome then none else n.hostStep (.look env)
  | .carryOut w =>
    if n.pruning.isSome then none
    else (n.hostStep (.carryOut w)).map fun n' => { n' with pruning := n.host.prunes w }
  | .expire i w => n.hostStep (.expire i w)
  | .watch => n.hostStep .watch
  | .followCLI path sum w => n.hostStep (.followCLI path sum w)
  | .list =>
    match n.pruning with
    | some ⟨confirmed, none⟩ =>
      some { n with pruning := some ⟨confirmed, some (pruned confirmed n.releases)⟩ }
    | _ => none
  | .delete =>
    match n.pruning with
    | some ⟨confirmed, some (v :: left)⟩ =>
      some { n with releases := n.releases.remove v, pruning := some ⟨confirmed, some left⟩ }
    | _ => none
  | .endPrune => if n.pruning.isSome then some { n with pruning := none } else none
  | .stage st w version =>
    if n.host.process.isSome ∧ n.staging.isNone then
      match st.prepare sha ed tar w version n.releases with
      | .ok (some new) => some { n with staging := some ⟨version, new, none⟩ }
      | _ => some n
    else none
  | .moveAside =>
    match n.staging with
    | some ⟨version, new, none⟩ =>
      (n.releases.lookup version).map fun old =>
        { n with
          releases := n.releases.remove version
          staging := some ⟨version, new, some old⟩ }
    | _ => none
  | .place =>
    match n.staging with
    | some ⟨version, new, _⟩ =>
      -- a directory is not renamed over another one
      if (n.releases.lookup version).isNone then
        some { n with releases := n.releases.put version new, staging := none }
      else none
    | none => none
  | .putBack =>
    match n.staging with
    | some ⟨version, _, some old⟩ =>
      if (n.releases.lookup version).isNone then
        some { n with releases := n.releases.put version old, staging := none }
      else none
    | _ => none
  | .giveUp => if n.staging.isSome then some { n with staging := none } else none

/-! ### The names of a saved state -/

variable {s : State} {v : String} {w : Save} {n n' : Node} {a : NodeAct}

/-- What a save leaves names what the new state named, or the one before it where it did not
land. -/
theorem names_saveState {d : Disk} {old s' : State} (hold : loadState d = .ok old)
    (hs' : loadState (d.saveState s w) = .ok s') (hv : v ∈ s'.names) :
    v = "" ∨ v ∈ s.names ∨ ¬ w.Lands ∧ v ∈ old.names := by
  simp only [State.names, mem_cons, not_mem_nil, or_false] at hv ⊢
  rcases saveState_cases hold hs' with ⟨hw, hfile, hprev⟩ | ⟨hw, hfile, hprev⟩
  · have hcurrent : s'.current = s.current := congrArg StateFile.current hfile
    have hlast : s'.lastGood = s.lastGood := congrArg StateFile.lastGood hfile
    grind
  · have hcurrent : s'.current = old.current := congrArg StateFile.current hfile
    have hlast : s'.lastGood = old.lastGood := congrArg StateFile.lastGood hfile
    grind

/-- The saved state names nothing outside `keep`. -/
def Disk.Within (d : Disk) (keep : List String) : Prop :=
  ∀ s, loadState d = .ok s → ∀ v ∈ s.names, v = "" ∨ v ∈ keep

variable {keep : List String}

/-- An update keeps to names that were there, as long as its function does. -/
theorem Disk.Within.update {st : Store} (h : st.disk.Within keep) (w : Save)
    {fn : State → Except String (State × Bool)}
    (hfn : ∀ s next restart, fn s = .ok (next, restart) → ∀ v ∈ next.names,
      v = "" ∨ v ∈ s.names ∨ v ∈ keep) : (st.update w fn).1.disk.Within keep := by
  rcases st.update_cases w fn with ⟨-, hst, -⟩ | ⟨s, next, restart, -, hs, hnext, hdisk, -⟩
  · rwa [hst]
  · intro s' hs' v hv
    rw [hdisk] at hs'
    rcases names_saveState hs hs' hv with hempty | hnew | ⟨-, hold⟩
    · exact .inl hempty
    · rcases hfn s next restart hnext v hnew with hempty | hold | hkeep
      · exact .inl hempty
      · exact h s hs v hold
      · exact .inr hkeep
    · exact h s hs v hold

theorem names_fallBack (h : v ∈ s.fallBack.names) : v ∈ s.names := by
  simp only [State.fallBack, State.names, mem_cons] at h ⊢
  grind

theorem names_toPrevious (h : v ∈ s.toPrevious.names) : v = "" ∨ v ∈ s.names := by
  simp only [State.toPrevious, State.names, mem_cons] at h ⊢
  grind

theorem names_rollback {staged : String → Except String String} {next : State}
    (hnext : s.rollback staged = .ok next) (h : v ∈ next.names) : v = "" ∨ v ∈ s.names := by
  rcases State.rollback_eq_ok hnext with rfl | ⟨rfl, -⟩
  · exact .inr (names_fallBack h)
  · exact names_toPrevious h

/-! ### The interleavings to keep out -/

/-- While a `Prune` is under way, no release is activated or brought back by a wait that its
snapshot does not name; and no directory is moved aside that the saved state names. -/
def Node.Quiet (n : Node) : NodeAct → Prop
  | .activate i _ => ∀ g ∈ n.pruning, ∀ r ∈ n.activating[i]?, r.2.version ∈ g.confirmed.names
  | .expire i _ => ∀ g ∈ n.pruning, ∀ p ∈ n.host.process, ∀ pair ∈ p.awaiting[i]?,
      ∀ v ∈ pair.1.names, v ∈ g.confirmed.names
  | .moveAside => ∀ g ∈ n.staging, ∀ s, loadState n.host.disk = .ok s → g.version ∉ s.names
  | _ => True

/-- A `Prune` under way deletes nothing that the saved state names. -/
structure Node.Safe (n : Node) : Prop where
  running : ∀ g ∈ n.pruning, n.host.process.isSome = true
  within : ∀ g ∈ n.pruning, n.host.disk.Within g.confirmed.names
  left : ∀ g ∈ n.pruning, ∀ left ∈ g.left, ∀ v ∈ left, v ≠ "" ∧ v ∉ g.confirmed.names

theorem Node.Safe.of_none (h : n.pruning = none) : n.Safe := by
  constructor <;> simp [h]

/-- What is staged and named by the saved state of `n` is staged in `n'`. -/
def Node.Keeps (n n' : Node) : Prop :=
  ∀ s v, loadState n.host.disk = .ok s → v ∈ s.names → isStaged n.releases v = true →
    isStaged n'.releases v = true

theorem Node.Keeps.of_eq (h : n'.releases = n.releases) : n.Keeps n' := by
  intro s v _ _ hv
  rwa [h]

theorem isStaged_congr {r r' : Releases} (h : r'.lookup v = r.lookup v) :
    isStaged r' v = isStaged r v := by
  rw [isStaged, isStaged, h]

theorem ne_of_lookup_eq_none {r : Releases} {version : String} (hv : isStaged r v = true)
    (hnone : (r.lookup version).isNone = true) : v ≠ version := by
  rintro rfl
  rw [isStaged, isNone_iff_eq_none.1 hnone] at hv
  simp at hv

theorem hostStep_eq_some {a : Act} (h : n.hostStep a = some n') :
    ∃ h', n.host.step a = some h' ∧ n' = { n with host := h' } := by
  obtain ⟨h', hstep, rfl⟩ := map_eq_some_iff.1 h
  exact ⟨h', hstep, rfl⟩

/-- A step of the host while a `Prune` is under way. -/
theorem Node.Safe.hostStep {a : Act} (hsafe : n.Safe) (h : n.hostStep a = some n')
    (hdisk : ∀ p h', n.host.process = some p → n.host.act p a = some h' → ∀ g ∈ n.pruning,
      n.host.disk.Within g.confirmed.names →
        h'.process.isSome = true ∧ h'.disk.Within g.confirmed.names) : n'.Safe ∧ n.Keeps n' := by
  obtain ⟨h', hstep, rfl⟩ := hostStep_eq_some h
  have hboth : ∀ g ∈ n.pruning, h'.process.isSome = true ∧ h'.disk.Within g.confirmed.names := by
    intro g hg
    obtain ⟨p, hp⟩ := isSome_iff_exists.1 (hsafe.running g hg)
    have hact : n.host.act p a = some h' := by
      unfold Host.step at hstep
      rw [hp] at hstep
      exact hstep
    exact hdisk p h' hp hact g hg (hsafe.within g hg)
  exact ⟨⟨fun g hg => (hboth g hg).1, fun g hg => (hboth g hg).2, hsafe.left⟩, .of_eq rfl⟩

/-- A transition that keeps to the names. -/
theorem within_transition {h : Host} {p : Process} {fn : State → Except String State}
    (hwithin : h.disk.Within keep)
    (hfn : ∀ s next, fn s = .ok next → ∀ v ∈ next.names, v = "" ∨ v ∈ s.names ∨ v ∈ keep) :
    (h.transition p w fn).process.isSome = true ∧ (h.transition p w fn).disk.Within keep := by
  have hstore : (p.store h.disk).disk.Within keep := hwithin
  refine ⟨rfl, hstore.update w fun s next restart hnext => ?_⟩
  cases ht : fn s with
  | error err => rw [ht] at hnext; cases hnext
  | ok t =>
    rw [ht] at hnext
    cases hnext
    exact hfn s _ ht

/-- A confirmation that starts a `Prune` has saved the state that the `Prune` goes by. -/
theorem within_prunes {h h' : Host} {g : Pruning} (hg : h.prunes w = some g)
    (hstep : h.step (.carryOut w) = some h') :
    g.left = none ∧ h'.process.isSome = true ∧ h'.disk.Within g.confirmed.names := by
  unfold Host.prunes at hg
  split at hg
  · cases hg
  · rename_i p hp
    split at hg
    · rename_i hverdict
      split at hg
      · rename_i s next hup
        cases hg
        unfold Host.step at hstep
        rw [hp] at hstep
        simp only [Host.act, hverdict] at hstep
        cases hstep
        refine ⟨rfl, rfl, fun s' hs' v hv => ?_⟩
        rcases (p.store h.disk).update_cases w (Verdict.confirm.carryOut p.running p.managed ·) with
          ⟨-, -, err, herr⟩ | ⟨t, next', restart, -, ht, -, hdisk, ⟨rfl, hok⟩ | ⟨-, err, herr⟩⟩
        · cases herr.symm.trans hup
        · obtain ⟨-, rfl⟩ := Prod.mk.inj (Except.ok.inj (hok.symm.trans hup))
          have hs' : loadState (h.disk.saveState next' .done) = .ok s' := hdisk ▸ hs'
          rcases names_saveState ht hs' hv with hempty | hnew | ⟨hnot, -⟩
          · exact .inl hempty
          · exact .inr hnew
          · exact absurd trivial hnot
        · cases herr.symm.trans hup
      · cases hg
    · cases hg

variable {sha ed tar} in
/-- **A quiet step** keeps a `Prune` safe and what the saved state names. -/
theorem Node.Safe.step (hsafe : n.Safe) (hquiet : n.Quiet a) (h : n.step sha ed tar a = some n') :
    n'.Safe ∧ n.Keeps n' := by
  have hsame : ∀ {m : Node}, m.host = n.host → m.pruning = n.pruning → m.Safe := by
    intro m hhost hpruning
    constructor <;> rw [hpruning]
    · exact hhost ▸ hsafe.running
    · exact hhost ▸ hsafe.within
    · exact hsafe.left
  cases a with
  | start e => exact hsafe.hostStep h fun p h' _ hact => by cases hact
  | stop =>
    obtain ⟨n₁, hn₁, rfl⟩ := map_eq_some_iff.1 h
    obtain ⟨h', -, rfl⟩ := hostStep_eq_some hn₁
    exact ⟨.of_none rfl, .of_eq rfl⟩
  | check env req =>
    simp only [Node.step] at h
    split at h
    · cases h
    · split at h
      · cases h
        exact ⟨hsafe, .of_eq rfl⟩
      · cases h
        exact ⟨hsame rfl rfl, .of_eq rfl⟩
  | activate i w =>
    simp only [Node.step] at h
    split at h
    · cases h
    · rename_i env req hi
      obtain ⟨n₁, hn₁, rfl⟩ := map_eq_some_iff.1 h
      have h₁ : n₁.Safe ∧ n.Keeps n₁ := by
        refine hsafe.hostStep hn₁ fun p h' hp hact g hg hwithin => ?_
        rw [Host.act] at hact
        split at hact
        · cases hact
          exact ⟨hp ▸ rfl, hwithin⟩
        · cases hact
          refine within_transition hwithin fun s next hnext v hv => .inr ?_
          cases hnext
          have hversion : req.version ∈ g.confirmed.names := hquiet g hg _ hi
          simp only [State.activate, State.names, mem_cons] at hv ⊢ hversion
          grind
      exact ⟨⟨h₁.1.running, h₁.1.within, h₁.1.left⟩, h₁.2⟩
  | rollback w =>
    refine hsafe.hostStep h fun p h' hp hact g hg hwithin => ?_
    cases hact
    exact within_transition hwithin fun s next hnext v hv =>
      (names_rollback hnext hv).imp_right .inl
  | look env =>
    simp only [Node.step] at h
    split at h
    · cases h
    · rename_i hnone
      obtain ⟨h', -, rfl⟩ := hostStep_eq_some h
      exact ⟨.of_none (not_isSome_iff_eq_none.1 hnone), .of_eq rfl⟩
  | carryOut w =>
    simp only [Node.step] at h
    split at h
    · cases h
    · obtain ⟨n₁, hn₁, rfl⟩ := map_eq_some_iff.1 h
      obtain ⟨h', hstep, rfl⟩ := hostStep_eq_some hn₁
      have hnew := fun g (hg : n.host.prunes w = some g) => within_prunes hg hstep
      refine ⟨⟨fun g hg => (hnew g hg).2.1, fun g hg => (hnew g hg).2.2, fun g hg left hleft => ?_⟩,
        .of_eq rfl⟩
      cases (hnew g hg).1.symm.trans hleft
  | expire i w =>
    refine hsafe.hostStep h fun p h' hp hact g hg hwithin => ?_
    rw [Host.act] at hact
    split at hact
    · cases hact
    · rename_i prior next hi
      cases hact
      have hstore : (p.store n.host.disk).disk.Within g.confirmed.names := hwithin
      refine ⟨rfl, hstore.update w fun s t restart ht v hv => .inr (.inr ?_)⟩
      obtain ⟨-, rfl, -⟩ := restorePrior_eq_ok ht
      exact hquiet g hg p hp _ hi v hv
  | watch =>
    refine hsafe.hostStep h fun p h' hp hact g hg hwithin => ?_
    rw [Host.act] at hact
    split at hact
    · cases hact
      exact ⟨hp ▸ rfl, hwithin⟩
    · split at hact
      · cases hact
        exact ⟨rfl, hwithin⟩
      · cases hact
        exact ⟨hp ▸ rfl, hwithin⟩
  | followCLI path sum w =>
    refine hsafe.hostStep h fun p h' hp hact g hg hwithin => ?_
    cases hact
    have hstore : (p.store n.host.disk).disk.Within g.confirmed.names := hwithin
    refine ⟨rfl, hstore.update w fun s t restart ht v hv => .inr (.inl ?_)⟩
    obtain ⟨l, rfl⟩ := moveLauncher_eq_ok ht
    exact hv
  | list =>
    simp only [Node.step] at h
    split at h
    · rename_i confirmed hg
      cases h
      refine ⟨⟨fun g _ => hsafe.running _ hg, fun g hg' => ?_, fun g hg' left hleft v hv => ?_⟩,
        .of_eq rfl⟩
      · cases hg'
        exact hsafe.within ⟨confirmed, none⟩ hg
      · cases hg'
        cases hleft
        obtain ⟨hstaged, hnot⟩ := mem_pruned hv
        refine ⟨?_, hnot⟩
        rintro rfl
        cases hstaged
    · cases h
  | delete =>
    simp only [Node.step] at h
    split at h
    · rename_i confirmed v left hg
      cases h
      refine ⟨⟨fun g _ => hsafe.running _ hg, fun g hg' => ?_, fun g hg' left' hleft u hu => ?_⟩,
        fun s u hs hmem hu => ?_⟩
      · cases hg'
        exact hsafe.within ⟨confirmed, some (v :: left)⟩ hg
      · cases hg'
        cases hleft
        exact hsafe.left _ hg _ rfl u (mem_cons_of_mem v hu)
      · have hne : u ≠ v := by
          rintro rfl
          obtain ⟨hvalid, hnot⟩ := hsafe.left _ hg _ rfl u mem_cons_self
          exact (hsafe.within _ hg s hs u hmem).elim hvalid hnot
        rwa [isStaged_congr (Releases.lookup_remove_of_ne hne _)]
    · cases h
  | endPrune =>
    simp only [Node.step] at h
    split_ifs at h
    cases h
    exact ⟨.of_none rfl, .of_eq rfl⟩
  | stage st w version =>
    simp only [Node.step] at h
    split_ifs at h
    split at h
    · cases h
      exact ⟨hsame rfl rfl, .of_eq rfl⟩
    · cases h
      exact ⟨hsafe, .of_eq rfl⟩
  | moveAside =>
    simp only [Node.step] at h
    split at h
    · rename_i version new hg
      obtain ⟨old, -, rfl⟩ := map_eq_some_iff.1 h
      refine ⟨hsame rfl rfl, fun s v hs hmem hv => ?_⟩
      have hne : v ≠ version := by
        rintro rfl
        exact hquiet _ hg s hs hmem
      rwa [isStaged_congr (Releases.lookup_remove_of_ne hne _)]
    · cases h
  | place | putBack =>
    simp only [Node.step] at h
    split at h
    · split_ifs at h with hnone
      cases h
      refine ⟨hsame rfl rfl, fun s v hs hmem hv => ?_⟩
      rwa [isStaged_congr (Releases.lookup_put_of_ne (ne_of_lookup_eq_none hv hnone) _ _)]
    · cases h
  | giveUp =>
    simp only [Node.step] at h
    split_ifs at h
    cases h
    exact ⟨hsame rfl rfl, .of_eq rfl⟩

/-! ### Named releases stay staged -/

inductive Role
  | current
  | lastGood
  | previous
  deriving Repr, DecidableEq

def State.role (s : State) : Role → String
  | .current => s.current
  | .lastGood => s.lastGood
  | .previous => s.previous

theorem role_mem_names (s : State) (r : Role) : s.role r ∈ s.names := by
  cases r <;> simp [State.role, State.names]

/-- What the saved state names in a role. -/
def Node.named (n : Node) (r : Role) : Option String :=
  (loadState n.host.disk).toOption.map fun s => s.role r

variable {r : Role}

theorem exists_of_named (h : n.named r = some v) :
    ∃ s, loadState n.host.disk = .ok s ∧ v ∈ s.names := by
  unfold Node.named at h
  cases hs : loadState n.host.disk with
  | error err =>
    rw [hs] at h
    cases h
  | ok s =>
    rw [hs] at h
    cases h
    exact ⟨s, rfl, role_mem_names s r⟩

variable {sha ed tar} in
/-- As long as the saved state names a release in a role, a quiet run leaves it staged. -/
theorem Node.Safe.isStaged_run :
    ∀ {n n' : Node}, n.Safe → RunMeets (Node.step sha ed tar) Node.Quiet n as →
      run (Node.step sha ed tar) n as = some n' →
      (∀ pre, pre <+: as → ∀ m, run (Node.step sha ed tar) n pre = some m → m.named r = some v) →
      isStaged n.releases v = true → isStaged n'.releases v = true := by
  induction as with
  | nil =>
    intro n n' _ _ hrun _ hv
    cases hrun
    exact hv
  | cons a as ih =>
    intro n n' hsafe hquiet hrun hnamed hv
    obtain ⟨hqa, hqas⟩ := runMeets_cons.1 hquiet
    obtain ⟨n₁, hstep, hrun⟩ := run_cons_eq_some.1 hrun
    obtain ⟨hsafe₁, hkeeps⟩ := hsafe.step hqa hstep
    obtain ⟨s, hs, hmem⟩ := exists_of_named (hnamed [] nil_prefix n rfl)
    refine ih hsafe₁ (hqas n₁ hstep) hrun (fun pre hpre m hm => ?_) (hkeeps s v hs hmem hv)
    exact hnamed (a :: pre) (cons_prefix_cons.2 ⟨rfl, hpre⟩) m
      (run_cons_eq_some.2 ⟨n₁, hstep, hm⟩)

/-- A node before its first start, with whatever is staged. -/
def Node.new (disk : Disk) (releases : Releases) : Node := { host := { disk }, releases }

variable {sha ed tar} in
/-- **Pruning and staging leave a named release staged.** In a run whose steps are all quiet, a
release that is staged when the saved state names it is staged as long as the state names it. -/
theorem staged_while_named (disk : Disk) (releases : Releases) (pre mid : List NodeAct)
    {n n' : Node} {r : Role} {v : String}
    (hquiet : RunMeets (Node.step sha ed tar) Node.Quiet (Node.new disk releases) (pre ++ mid))
    (hpre : run (Node.step sha ed tar) (Node.new disk releases) pre = some n)
    (hmid : run (Node.step sha ed tar) n mid = some n')
    (hnamed : ∀ as, as <+: mid → ∀ m, run (Node.step sha ed tar) n as = some m →
      m.named r = some v) (hv : isStaged n.releases v = true) :
    isStaged n'.releases v = true := by
  have hsafe : n.Safe := run_invariant (Node.step sha ed tar)
    (fun m a m' hm hqa hstep => (hm.step hqa hstep).1) (.of_none rfl) hquiet.append_left hpre
  exact hsafe.isStaged_run (hquiet.append_right _ hpre) hmid hnamed hv

/-! v1.3.0 is on trial over v1.2.0, and two newer releases are staged. -/

def trialDisk : Disk :=
  { state := some
      { current := "v1.3.0", lastGood := "v1.2.0", pending := some ⟨"v1.3.0", 0, []⟩ } }

def fourStaged : Releases :=
  ["v1.2.0", "v1.3.0", "v1.4.0", "v1.5.0"].map fun v => (v, newDir padSha (Kvshare.ascii v))

/-- The launcher starts the current release. -/
def startNode : NodeAct :=
  .start ⟨"v1.1.0", false, .ok ⟨"/usr/local/bin/viiwork", "b"⟩, none, fun _ => .error "", .done, true⟩

/-- v1.3.0 is confirmed and pruned after. -/
def confirmAndPrune : List NodeAct :=
  [startNode, .look ⟨0, 600, [], none⟩, .carryOut .done, .list, .delete, .endPrune]

/-- The node's step, with the decoders of the release in little. -/
def tinyStep : Node → NodeAct → Option Node := Node.step padSha ⟨fun _ _ _ => true⟩ tinyTar

/-- v1.4.0 goes, v1.3.0 stays. -/
theorem staged_while_named_confirmed :
    ∃ n, run tinyStep (Node.new trialDisk fourStaged) confirmAndPrune = some n ∧
      isStaged n.releases "v1.4.0" = false ∧ isStaged n.releases "v1.3.0" = true := by
  have hrun : ((run tinyStep (Node.new trialDisk fourStaged) confirmAndPrune).map fun n =>
      isStaged n.releases "v1.4.0") = some false := by
    decide +kernel
  obtain ⟨n, hn, hgone⟩ := map_eq_some_iff.1 hrun
  refine ⟨n, hn, hgone, ?_⟩
  have hquiet : RunMeets tinyStep Node.Quiet (Node.new trialDisk fourStaged)
      ([] ++ confirmAndPrune) := by
    have hcalm : ∀ a ∈ confirmAndPrune, ∀ n : Node, n.Quiet a := by
      simp [confirmAndPrune, startNode, Node.Quiet]
    exact RunMeets.imp₂ tinyStep (fun m a hm _ => hm m) (runMeets_of_forall tinyStep _ hcalm)
      (runMeets_true tinyStep _ _)
  refine staged_while_named (r := .current) trialDisk fourStaged [] confirmAndPrune hquiet rfl hn ?_ ?_
  · have hall : ∀ as ∈ confirmAndPrune.inits, ∀ v ∈
        (run tinyStep (Node.new trialDisk fourStaged) as).map fun m => m.named .current,
          v = some "v1.3.0" := by
      decide +kernel
    intro as has m hm
    exact hall as ((mem_inits _ _).2 has) _ (mem_map_of_mem _ hm)
  · decide +kernel

/-- v1.4.0 is activated between the confirmation and its `Prune`. -/
def activateMeanwhile : List NodeAct :=
  [startNode, .look ⟨0, 600, [], none⟩, .carryOut .done,
    .check ⟨fun _ => .error "", fun _ => .ok (), []⟩ ⟨"v1.4.0", false⟩, .activate 0 .done]

/-- A release named as current and whether it is staged. -/
def Node.currentStaged (n : Node) : Option (String × Bool) :=
  (n.named .current).map fun v => (v, isStaged n.releases v)

/-- The release that was activated is deleted; and a release is moved aside that a stage has
other signed bytes for. -/
theorem named_not_staged :
    ((run tinyStep (Node.new trialDisk fourStaged) activateMeanwhile).map Node.currentStaged =
        some (some ("v1.4.0", true)) ∧
      (run tinyStep (Node.new trialDisk fourStaged) (activateMeanwhile ++ [.list, .delete])).map
        Node.currentStaged = some (some ("v1.4.0", false))) ∧
    (run tinyStep (Node.new { state := some { current := "v1.2.3", lastGood := "v1.2.3" } }
        [("v1.2.3", newDir padSha [9])]) [startNode]).map Node.currentStaged =
          some (some ("v1.2.3", true)) ∧
      (run tinyStep (Node.new { state := some { current := "v1.2.3", lastGood := "v1.2.3" } }
        [("v1.2.3", newDir padSha [9])])
          [startNode, .stage tinyStager tinyWorld "v1.2.3", .moveAside]).map Node.currentStaged =
            some (some ("v1.2.3", false)) := by
  decide +kernel

end Viiwork.Update
