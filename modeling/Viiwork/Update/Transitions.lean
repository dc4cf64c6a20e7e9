import Viiwork.Lib.KeyedList
import Viiwork.Supervisor.Ladder
import Viiwork.Update.Handover

/-!
# Viiwork.Update.Transitions

What a running node does to its release state (`api.go`, `confirm.go`, and `Store` of
`state.go`): an operator activates a release or rolls one back, the confirmer keeps the pending
release or gives it up, and on a managed install a wait for the host's helper takes a transition
back that the helper did not act on.

Each of them is a function of the state under the store's lock. What a transition reads before
it takes the lock (the backends, the pending release) is a step of its own in `Host`.
-/

namespace Viiwork.Update

open Viiwork.Lib Viiwork.Supervisor

/-! ### The store -/

structure Store where
  disk : Disk
  /-- A change of state has asked for a restart. -/
  restarting : Bool := false
  deriving Repr, DecidableEq

/-- `Store.Update`: `fn` gives the new state and whether it asks for a restart. The states
before and after are returned when it is saved without an error. -/
def Store.update (st : Store) (w : Save) (fn : State → Except String (State × Bool)) :
    Store × Except String (State × State) :=
  if st.restarting then (st, .error "this node is restarting")
  else match loadState st.disk with
    | .error err => (st, .error err)
    | .ok s =>
      match fn s with
      | .error err => (st, .error err)
      | .ok (next, restart) =>
        if w = .done then (⟨st.disk.saveState next w, restart⟩, .ok (s, next))
        else ({ st with disk := st.disk.saveState next w }, .error "the save failed")

/-- **An update** leaves the store alone, or saves what `fn` made of the state in it. -/
theorem Store.update_cases (st : Store) (w : Save) (fn : State → Except String (State × Bool)) :
    ((st.restarting = false → ∀ s, loadState st.disk = .ok s → ∃ err, fn s = .error err) ∧
        (st.update w fn).1 = st ∧ ∃ err, (st.update w fn).2 = .error err) ∨
      ∃ s next restart, st.restarting = false ∧ loadState st.disk = .ok s ∧
        fn s = .ok (next, restart) ∧ (st.update w fn).1.disk = st.disk.saveState next w ∧
        ((w = .done ∧ (st.update w fn).2 = .ok (s, next)) ∨
          w ≠ .done ∧ ∃ err, (st.update w fn).2 = .error err) := by
  cases hr : st.restarting with
  | true => exact .inl ⟨fun h => (by cases h), by simp [update, hr]⟩
  | false =>
    cases hs : loadState st.disk with
    | error err => exact .inl ⟨fun _ s h => (by cases h), by simp [update, hr, hs]⟩
    | ok s =>
      cases hfn : fn s with
      | error err =>
        refine .inl ⟨fun _ t ht => ⟨err, ?_⟩, by simp [update, hr, hs, hfn]⟩
        rw [← Except.ok.inj ht, hfn]
      | ok res =>
        obtain ⟨next, restart⟩ := res
        refine .inr ⟨s, next, restart, rfl, rfl, hfn, ?_⟩
        by_cases hw : w = .done
        · simp [update, hr, hs, hfn, hw]
        · simp [update, hr, hs, hfn, hw]

/-! ### Activating and rolling back -/

structure BackendStatus where
  id : String
  status : Health
  phase : String
  deriving Repr, DecidableEq

structure ModelStatus where
  name : String
  backends : List BackendStatus
  deriving Repr, DecidableEq

structure UpdateRequest where
  version : String
  allowDowngrade : Bool := false
  deriving Repr, DecidableEq

/-- What an activation finds on the host. -/
structure ActivateEnv where
  staged : String → Except String String
  /-- The helper's image of a release, on a managed install. -/
  imagePrepared : String → Except String Unit
  models : List ModelStatus

/-- The healthy backends, unless a model is still loading. -/
def baselineOf : List (String × BackendStatus) → Except String (List String)
  | [] => .ok []
  | (model, b) :: rest =>
    match b.status with
    | .healthy => (b.id :: ·) <$> baselineOf rest
    | .starting => .error ("model " ++ model ++ " is still loading (backend " ++ b.id ++ ", " ++
        b.phase ++ "): activate when it is healthy")
    | _ => baselineOf rest

/-- The checks of `activate` before the store: the HTTP status and the text of a refusal, or
the baseline. -/
def checkActivate (running : String) (managed : Bool) (env : ActivateEnv) (req : UpdateRequest) :
    Except (Nat × String) (List String) := do
  if validVersion req.version = false then
    throw (400, "not a release version: " ++ req.version.quote)
  if let .error err := env.staged req.version then
    throw (409, req.version ++ " is not staged here: " ++ err)
  if managed then
    if let .error err := env.imagePrepared req.version then
      throw (409, err)
  if let some c := compare req.version running then
    if c = 0 then
      throw (409, req.version ++ " is already running")
    if c < 0 ∧ req.allowDowngrade = false then
      throw (409, req.version ++ " is older than the running " ++ running ++
        ": pass allow_downgrade, or roll back")
  (baselineOf (env.models.flatMap fun m => m.backends.map (m.name, ·))).mapError (409, ·)

variable {running : String} {next s : State} {restart : Bool}

theorem checkActivate_valid {managed : Bool} {env : ActivateEnv} {req : UpdateRequest}
    {baseline : List String} (h : checkActivate running managed env req = .ok baseline) :
    validVersion req.version = true := by
  by_contra hv
  rw [Bool.not_eq_true] at hv
  rw [checkActivate, hv] at h
  cases h

def State.activate (s : State) (version : String) (baseline : List String) : State :=
  { s with current := version, pending := some { version, baseline } }

/-- To the release before the last good one, which is last good again. -/
def State.toPrevious (s : State) : State :=
  { s with current := s.previous, lastGood := s.previous, previous := "" }

def State.rollback (staged : String → Except String String) (s : State) : Except String State :=
  if s.pending.isSome ∨ s.current ≠ s.lastGood then .ok s.fallBack
  else if s.previous = "" then
    .error ("already on the last good release (" ++ s.lastGood ++
      "), and no earlier release is remembered here")
  else if s.previous = builtin then .ok s.toPrevious
  else match staged s.previous with
    | .error err => .error ("already on the last good release (" ++ s.lastGood ++
        "), and the release before it cannot be run: " ++ err)
    | .ok _ => .ok s.toPrevious

theorem State.rollback_eq_ok {staged : String → Except String String}
    (h : s.rollback staged = .ok next) :
    next = s.fallBack ∨ next = s.toPrevious ∧ s.pending = none ∧ s.current = s.lastGood ∧
      s.previous ≠ "" := by
  rw [rollback] at h
  split_ifs at h with hleave hempty hbuiltin
  · exact .inl (Except.ok.inj h).symm
  all_goals
    rw [not_or, Option.not_isSome_iff_eq_none, not_not] at hleave
  · exact .inr ⟨(Except.ok.inj h).symm, hleave.1, hleave.2, hempty⟩
  · cases hst : staged s.previous with
    | error err => rw [hst] at h; cases h
    | ok path =>
      rw [hst] at h
      exact .inr ⟨(Except.ok.inj h).symm, hleave.1, hleave.2, hempty⟩

/-! ### The confirmer -/

/-- The state is still the pending release that this process runs. -/
def owns (running : String) (s : State) : Bool :=
  s.pending.any fun p => p.version = s.current ∧ p.version = running

theorem owns_iff :
    owns running s = true ↔ ∃ p, s.pending = some p ∧ p.version = s.current ∧
      s.current = running := by
  rw [owns, Option.any_eq_true]
  refine exists_congr fun p => and_congr_right fun _ => ?_
  rw [decide_eq_true_iff]
  exact and_congr_right fun h => by rw [h]

/-- The current release becomes the last good one; the one it replaces is the way back. -/
def State.confirm (s : State) : State :=
  { s with
    previous := if s.lastGood ≠ s.current then s.lastGood else s.previous
    lastGood := s.current
    pending := none }

/-- Why a pending release is given up. -/
inductive Why
  | dead (id : String)
  /-- Not every backend was healthy again by the deadline. -/
  | late (deadline : Int)
  deriving Repr, DecidableEq

inductive Verdict
  | finished
  | again
  | confirm
  | rollback (why : Why)
  deriving Repr, DecidableEq

structure Confirmer where
  /-- When the release rolls back; `none` before the first look at it. -/
  deadline : Option Int := none
  last : Int := 0
  deriving Repr, DecidableEq

structure ConfirmEnv where
  now : Int
  window : Int
  models : List ModelStatus
  /-- The backends that the node still means to run; `none` is every one. -/
  wanted : Option (String → Bool) := none

/-- Whether every backend of the baseline is healthy, or one that is dead. -/
def judge (byID : String → Option BackendStatus) (wanted : Option (String → Bool)) :
    List String → Bool → Except String Bool
  | [], healthy => .ok healthy
  | id :: ids, healthy =>
    match byID id with
    | none => judge byID wanted ids (healthy && wanted.any fun wants => !wants id)
    | some b =>
      if b.status = .dead then .error id
      else judge byID wanted ids (healthy && b.status == .healthy)

/-- The reads of a `Step` and what it makes of them. Time in which a backend fetches its
weights does not count. -/
def Confirmer.look (running : String) (env : ConfirmEnv) (st : State) (c : Confirmer) :
    Confirmer × Verdict :=
  match st.pending with
  | none => (c, .finished)
  | some p =>
    if p.version ≠ st.current ∨ p.version ≠ running then (c, .finished)
    else
      let backends := env.models.flatMap ModelStatus.backends
      let last := if c.deadline.isSome then c.last else env.now
      let deadline := c.deadline.getD (env.now + env.window) +
        if backends.any (·.phase == "fetching") then env.now - last else 0
      let c := { deadline := some deadline, last := env.now }
      match judge (fun id => lastWith BackendStatus.id id backends) env.wanted p.baseline true with
      | .error id => (c, .rollback (.dead id))
      | .ok true => (c, .confirm)
      | .ok false => (c, if deadline < env.now then .rollback (.late deadline) else .again)

/-- What a verdict does under the lock. -/
def Verdict.carryOut (running : String) (managed : Bool) (s : State) :
    Verdict → Except String (State × Bool)
  | .confirm => if owns running s then .ok (s.confirm, false)
      else .error "the pending release changed"
  | .rollback _ => if owns running s then .ok (s.fallBack, !managed)
      else .error "the pending release changed"
  | _ => .error "nothing to do"

theorem Verdict.carryOut_eq_ok {managed : Bool} {v : Verdict}
    (h : v.carryOut running managed s = .ok (next, restart)) :
    owns running s = true ∧ ((v = .confirm ∧ next = s.confirm ∧ restart = false) ∨
      (∃ why, v = .rollback why) ∧ next = s.fallBack) := by
  cases v with
  | finished | again => cases h
  | confirm =>
    rw [carryOut] at h
    split_ifs at h with howns
    cases Except.ok.inj h
    exact ⟨howns, .inl ⟨rfl, rfl, rfl⟩⟩
  | rollback why =>
    rw [carryOut] at h
    split_ifs at h with howns
    cases Except.ok.inj h
    exact ⟨howns, .inr ⟨⟨why, rfl⟩, rfl⟩⟩

/-! ### Waiting for the helper -/

/-- The state is still the one that a transition saved. -/
def sameTransition (st saved : State) : Bool :=
  st.current = saved.current ∧ st.lastGood = saved.lastGood ∧
    st.pending.map Pending.version = saved.pending.map Pending.version

/-- The end of a wait: back to `prior`, if `next` is still what there is. -/
def restorePrior (prior next s : State) : Except String (State × Bool) :=
  if sameTransition s next then .ok ({ prior with launcher := s.launcher }, false)
  else .error "the pending release changed"

theorem restorePrior_eq_ok {prior s' : State} (h : restorePrior prior next s = .ok (s', restart)) :
    sameTransition s next = true ∧ s' = { prior with launcher := s.launcher } ∧
      restart = false := by
  rw [restorePrior] at h
  split_ifs at h with hsame
  cases Except.ok.inj h
  exact ⟨hsame, rfl, rfl⟩

/-- `FollowCLI` moves the launcher's sha256 with the file it has replaced. -/
def moveLauncher (path sum : String) (s : State) : Except String (State × Bool) :=
  match s.launcher with
  | none => .error "unchanged"
  | some l =>
    if l.path = path then .ok ({ s with launcher := some { l with sha256 := sum } }, false)
    else .error "unchanged"

theorem moveLauncher_eq_ok {path sum : String} {s' : State}
    (h : moveLauncher path sum s = .ok (s', restart)) :
    ∃ l, s' = { s with launcher := some l } := by
  rw [moveLauncher] at h
  cases hl : s.launcher with
  | none => rw [hl] at h; cases h
  | some l =>
    rw [hl] at h
    dsimp only at h
    split_ifs at h
    cases Except.ok.inj h
    exact ⟨_, rfl⟩

end Viiwork.Update
