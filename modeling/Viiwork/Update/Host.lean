import Viiwork.Lib.Run
import Viiwork.Update.Transitions

/-!
# Viiwork.Update.Host

One host over time: the releases directory, at most one process of the node, and what that
process has read or waits for. Launchers start between processes; a process ends at any time,
by a restart, by the helper or by a crash.

A `Step` of the confirmer is two steps here: `look` reads the state and the backends, and
`carryOut` takes the lock. The waits for the helper are kept with the two states each of them
was given and end one by one, in any order. Everything else that changes the state takes the
lock once. An action that is refused leaves the host as it is.

`confirmed` is not in the source: it has the confirmations that reached `state.json`, oldest
first. No step reads it.
-/

namespace Viiwork.Update

open Viiwork.Lib List

/-! ### The host -/

structure Process where
  running : String
  managed : Bool
  restarting : Bool := false
  confirmer : Confirmer := {}
  /-- What the `Step` in progress has made of its reads. -/
  verdict : Option Verdict := none
  /-- The waits for the helper: the state before a transition and the one it saved. -/
  awaiting : List (State × State) := []

/-- A release that became last good, and the last good release before it. -/
structure Confirmation where
  release : String
  before : String
  deriving Repr, DecidableEq

structure Host where
  disk : Disk := {}
  process : Option Process := none
  confirmed : List Confirmation := []

inductive Act
  | start (e : Start)
  /-- The process ends. -/
  | stop
  | activate (env : ActivateEnv) (req : UpdateRequest) (w : Save)
  | rollback (staged : String → Except String String) (w : Save)
  /-- A `Step` of the confirmer reads. -/
  | look (env : ConfirmEnv)
  /-- The `Step` takes the lock. -/
  | carryOut (w : Save)
  /-- The wait at a place in the list is over. -/
  | expire (i : Nat) (w : Save)
  /-- `WatchPending`. -/
  | watch
  | followCLI (path sum : String) (w : Save)

/-- The process that a start ends in: the launcher, or the release it execs. -/
def Start.process (e : Start) (dec : Decision) : Process :=
  { running := if dec.exec.isSome then dec.state.current else e.running, managed := e.managed }

def Process.store (p : Process) (disk : Disk) : Store := ⟨disk, p.restarting⟩

/-- The process waits for the helper after a transition, if it is managed. -/
def Process.await (p : Process) : Except String (State × State) → Process
  | .ok pair => if p.managed then { p with awaiting := p.awaiting ++ [pair] } else p
  | .error _ => p

theorem Process.await_same (p : Process) (res : Except String (State × State)) :
    (p.await res).running = p.running ∧ (p.await res).managed = p.managed := by
  cases res with
  | error err => exact ⟨rfl, rfl⟩
  | ok pair =>
    rw [await]
    split_ifs <;> exact ⟨rfl, rfl⟩

variable {p : Process} {h : Host}

theorem Process.mem_await {res : Except String (State × State)} {pair : State × State}
    (h : pair ∈ (p.await res).awaiting) : pair ∈ p.awaiting ∨ res = .ok pair := by
  cases res with
  | error err => exact .inl h
  | ok pair' =>
    rw [await] at h
    split_ifs at h
    · rcases mem_append.mp h with hold | hnew
      · exact .inl hold
      · exact .inr (by rw [mem_singleton.mp hnew])
    · exact .inl h

/-- What an update of the store makes of the host. -/
def Host.stored (h : Host) (p : Process) (st : Store) : Host :=
  { h with disk := st.disk, process := some { p with restarting := st.restarting } }

/-- A transition that an operator asked for. -/
def Host.transition (h : Host) (p : Process) (w : Save) (fn : State → Except String State) : Host :=
  let (st, res) := (p.store h.disk).update w fun s => (fn s).map (·, !p.managed)
  h.stored (p.await res) st

/-- The confirmations after a verdict was carried out. -/
def Host.confirmedAfter (h : Host) (p : Process) (w : Save) (v : Verdict) : List Confirmation :=
  match v, loadState h.disk with
  | .confirm, .ok s =>
    match v.carryOut p.running p.managed s with
    | .error _ => h.confirmed
    | .ok (next, _) =>
      if p.restarting = false ∧ w.Lands then h.confirmed ++ [⟨next.lastGood, s.lastGood⟩]
      else h.confirmed
  | _, _ => h.confirmed

theorem Host.confirmedAfter_of_error {w : Save} {v : Verdict}
    (hno : p.restarting = false → ∀ s, loadState h.disk = .ok s →
      ∃ err, v.carryOut p.running p.managed s = .error err) :
    h.confirmedAfter p w v = h.confirmed := by
  cases v with
  | confirm =>
    cases hs : loadState h.disk with
    | error err => simp [confirmedAfter, hs]
    | ok s =>
      cases hr : p.restarting with
      | true =>
        simp only [confirmedAfter, hs, hr]
        split <;> rfl
      | false =>
        obtain ⟨err, herr⟩ := hno hr s hs
        simp [confirmedAfter, hs, herr]
  | _ => simp [confirmedAfter]

/-- What an action of the running process does. -/
def Host.act (h : Host) (p : Process) : Act → Option Host
  | .start _ => none
  | .stop => some { h with process := none }
  | .activate env req w =>
    match checkActivate p.running p.managed env req with
    | .error _ => some h
    | .ok baseline => some (h.transition p w fun s => .ok (s.activate req.version baseline))
  | .rollback staged w => some (h.transition p w fun s => s.rollback staged)
  | .look env =>
    match loadState h.disk with
    | .error _ => some h
    | .ok s =>
      let (c, v) := p.confirmer.look p.running env s
      some { h with process := some { p with confirmer := c, verdict := some v } }
  | .carryOut w =>
    match p.verdict with
    | none => none
    | some v =>
      let (st, _) := (p.store h.disk).update w (v.carryOut p.running p.managed)
      some { h.stored { p with verdict := none } st with confirmed := h.confirmedAfter p w v }
  | .expire i w =>
    match p.awaiting[i]? with
    | none => none
    | some (prior, next) =>
      let (st, _) := (p.store h.disk).update w (restorePrior prior next)
      some (h.stored { p with awaiting := p.awaiting.eraseIdx i } st)
  | .watch =>
    match loadState h.disk with
    | .error _ => some h
    | .ok s =>
      if p.managed ∧ s.pending.any fun q => q.version ≠ p.running then
        some { h with
          process := some { p with awaiting := p.awaiting ++ [(s.fallBack, s)] } }
      else some h
  | .followCLI path sum w =>
    some (h.stored p ((p.store h.disk).update w (moveLauncher path sum)).1)

def Host.step (h : Host) (a : Act) : Option Host :=
  match h.process with
  | some p => h.act p a
  | none =>
    match a with
    | .start e =>
      some { h with disk := e.disk h.disk, process := (e.runs h.disk).map e.process }
    | _ => none

theorem Host.step_of_process (hp : h.process = some p) (a : Act) : h.step a = h.act p a := by
  unfold step
  rw [hp]

/-! ### What a step can do -/

/-- The new state that the action `a` of the process makes of `s`, a confirmation apart. -/
inductive Moves (a : Act) (p : Process) (s next : State) : Prop
  | activate {env : ActivateEnv} {req : UpdateRequest} {w : Save} {baseline : List String}
      (ha : a = .activate env req w)
      (hcheck : checkActivate p.running p.managed env req = .ok baseline)
      (hnext : next = s.activate req.version baseline)
  | fallBack (hnext : next = s.fallBack)
  | toPrevious (hnext : next = s.toPrevious) (hpending : s.pending = none)
      (hcurrent : s.current = s.lastGood) (hprevious : s.previous ≠ "")
  | restore {prior saved : State} (hwait : (prior, saved) ∈ p.awaiting)
      (hsame : sameTransition s saved = true) (hnext : next = { prior with launcher := s.launcher })
  | launcher {l : Launcher} (hnext : next = { s with launcher := some l })

/-- **What a step can do.** -/
inductive Steps (h : Host) (a : Act) (h' : Host) : Prop
  | starts {e : Start} (ha : a = .start e) (hp : h.process = none)
      (hdisk : h'.disk = e.disk h.disk) (hp' : h'.process = (e.runs h.disk).map e.process)
      (hconf : h'.confirmed = h.confirmed)
  | stops (hdisk : h'.disk = h.disk) (hp' : h'.process = none)
      (hconf : h'.confirmed = h.confirmed)
  | keeps {p p' : Process} (hp : h.process = some p) (hp' : h'.process = some p')
      (hsame : p'.running = p.running ∧ p'.managed = p.managed ∧ p'.restarting = p.restarting)
      (hdisk : h'.disk = h.disk) (hconf : h'.confirmed = h.confirmed)
      (hwait : ∀ pair ∈ p'.awaiting, pair ∈ p.awaiting ∨
        ∃ s, loadState h.disk = .ok s ∧ pair = (s.fallBack, s))
  | saves {p p' : Process} {s next : State} {w : Save} (hp : h.process = some p)
      (hp' : h'.process = some p') (hsame : p'.running = p.running ∧ p'.managed = p.managed)
      (hfree : p.restarting = false) (hs : loadState h.disk = .ok s) (hmove : Moves a p s next)
      (hdisk : h'.disk = h.disk.saveState next w) (hconf : h'.confirmed = h.confirmed)
      (hwait : ∀ pair ∈ p'.awaiting, pair ∈ p.awaiting ∨ pair = (s, next))
  | confirms {p p' : Process} {s : State} {w : Save} (ha : a = .carryOut w)
      (hverdict : p.verdict = some .confirm) (hp : h.process = some p)
      (hp' : h'.process = some p') (hsame : p'.running = p.running ∧ p'.managed = p.managed)
      (hfree : p.restarting = false) (hs : loadState h.disk = .ok s)
      (howns : owns p.running s = true) (hdisk : h'.disk = h.disk.saveState s.confirm w)
      (hconf : h'.confirmed = if w.Lands then h.confirmed ++ [⟨s.current, s.lastGood⟩]
        else h.confirmed)
      (hwait : ∀ pair ∈ p'.awaiting, pair ∈ p.awaiting)

section Steps

variable {h : Host} {p q : Process} {a : Act} {w : Save}

section

variable (hp : h.process = some p)
include hp

/-- An update of the store by the process, seen from the host: `q` is the process after it. -/
theorem Steps.of_update {fn : State → Except String (State × Bool)}
    (hsame : q.running = p.running ∧ q.managed = p.managed)
    (hwait : ∀ pair ∈ q.awaiting, pair ∈ p.awaiting ∨
      ((p.store h.disk).update w fn).2 = .ok pair)
    (hmove : ∀ s next restart, fn s = .ok (next, restart) → Moves a p s next) :
    Steps h a (h.stored q ((p.store h.disk).update w fn).1) := by
  rcases (p.store h.disk).update_cases w fn with
    ⟨-, hst, err, herr⟩ | ⟨s, next, restart, hfree, hs, hfn, hdisk, hres⟩
  · rw [hst]
    refine .keeps hp rfl ⟨hsame.1, hsame.2, rfl⟩ rfl rfl fun pair hpair => ?_
    rcases hwait pair hpair with hold | hnew
    · exact .inl hold
    · cases herr.symm.trans hnew
  · refine .saves hp rfl hsame hfree hs (hmove s next restart hfn) hdisk rfl fun pair hpair => ?_
    rcases hwait pair hpair with hold | hnew
    · exact .inl hold
    · rcases hres with ⟨-, hok⟩ | ⟨-, err, herr⟩
      · exact .inr (Except.ok.inj (hok.symm.trans hnew)).symm
      · cases herr.symm.trans hnew

theorem Steps.of_transition {fn : State → Except String State}
    (hmove : ∀ s next, fn s = .ok next → Moves a p s next) : Steps h a (h.transition p w fn) := by
  refine .of_update hp ?_ ?_ fun s next restart hfn => hmove s next ?_
  · exact Process.await_same p _
  · exact fun pair hpair => Process.mem_await hpair
  · cases hs : fn s with
    | error err => rw [hs] at hfn; cases hfn
    | ok t =>
      rw [hs] at hfn
      cases hfn
      rfl

/-- A verdict, carried out. -/
theorem Steps.of_verdict {v : Verdict} (hv : p.verdict = some v) :
    Steps h (.carryOut w)
      { h.stored { p with verdict := none }
          ((p.store h.disk).update w (v.carryOut p.running p.managed)).1 with
        confirmed := h.confirmedAfter p w v } := by
  rcases (p.store h.disk).update_cases w (v.carryOut p.running p.managed) with
    ⟨hno, hst, -⟩ | ⟨s, next, restart, hfree, hs, hfn, hdisk, -⟩
  · rw [hst]
    refine .keeps hp rfl ⟨rfl, rfl, rfl⟩ rfl ?_ fun pair hpair => .inl hpair
    exact Host.confirmedAfter_of_error hno
  · obtain ⟨howns, ⟨rfl, rfl, -⟩ | ⟨⟨why, rfl⟩, rfl⟩⟩ := Verdict.carryOut_eq_ok hfn
    · refine .confirms rfl hv hp rfl ⟨rfl, rfl⟩ hfree hs howns hdisk ?_ fun _ hpair => hpair
      have hfree' : p.restarting = false := hfree
      have hs' : loadState h.disk = .ok s := hs
      simp [Host.confirmedAfter, hs', hfree', hfn, State.confirm]
    · exact .saves hp rfl ⟨rfl, rfl⟩ hfree hs (.fallBack rfl) hdisk rfl fun _ hpair => .inl hpair

variable {h' : Host}

theorem Host.act_steps (hstep : h.act p a = some h') : Steps h a h' := by
  have hself : Steps h a h := .keeps hp hp ⟨rfl, rfl, rfl⟩ rfl rfl fun _ hpair => .inl hpair
  cases a with
  | start e => cases hstep
  | stop =>
    cases hstep
    exact .stops rfl rfl rfl
  | activate env req w =>
    rw [act] at hstep
    split at hstep
    · exact Option.some.inj hstep ▸ hself
    · rename_i baseline hcheck
      cases hstep
      refine .of_transition hp fun s next hfn => ?_
      exact .activate rfl hcheck (Except.ok.inj hfn).symm
  | rollback staged w =>
    cases hstep
    refine .of_transition hp fun s next hfn => ?_
    rcases State.rollback_eq_ok hfn with hnext | ⟨hnext, hpend, hcur, hprev⟩
    · exact .fallBack hnext
    · exact .toPrevious hnext hpend hcur hprev
  | look env =>
    rw [act] at hstep
    split at hstep
    · exact Option.some.inj hstep ▸ hself
    · cases hstep
      exact .keeps hp rfl ⟨rfl, rfl, rfl⟩ rfl rfl fun pair hpair => .inl hpair
  | carryOut w =>
    rw [act] at hstep
    split at hstep
    · cases hstep
    · rename_i v hv
      cases hstep
      exact .of_verdict hp hv
  | expire i w =>
    rw [act] at hstep
    split at hstep
    · cases hstep
    · rename_i prior next hi
      cases hstep
      refine .of_update hp ⟨rfl, rfl⟩ (fun pair hpair => .inl ?_) fun s t restart hfn => ?_
      · exact mem_of_mem_eraseIdx hpair
      · obtain ⟨hsame, hnext, -⟩ := restorePrior_eq_ok hfn
        exact .restore (mem_of_getElem? hi) hsame hnext
  | watch =>
    rw [act] at hstep
    split at hstep
    · exact Option.some.inj hstep ▸ hself
    · rename_i s hs
      split_ifs at hstep
      · cases hstep
        refine .keeps hp rfl ⟨rfl, rfl, rfl⟩ rfl rfl fun pair hpair => ?_
        rcases mem_append.mp hpair with hold | hnew
        · exact .inl hold
        · exact .inr ⟨s, hs, mem_singleton.mp hnew⟩
      · exact Option.some.inj hstep ▸ hself
  | followCLI path sum w =>
    cases hstep
    refine .of_update hp ⟨rfl, rfl⟩ (fun pair hpair => .inl hpair) fun s t restart hfn => ?_
    obtain ⟨l, hnext⟩ := moveLauncher_eq_ok hfn
    exact .launcher hnext

end

theorem Host.step_steps (hstep : h.step a = some h') : Steps h a h' := by
  cases hp : h.process with
  | some p => exact act_steps hp (step_of_process hp a ▸ hstep)
  | none =>
    cases a with
    | start e =>
      simp only [step, hp, Option.some.injEq] at hstep
      subst hstep
      exact .starts rfl hp rfl rfl rfl
    | _ => simp [step, hp] at hstep

end Steps

end Viiwork.Update
