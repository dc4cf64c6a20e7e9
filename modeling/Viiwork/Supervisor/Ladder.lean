import Mathlib

/-!
# Viiwork.Supervisor.Ladder

The health ladder of one backend (`ladder.go`): starting, healthy, unhealthy after
`MaxFailures` failed probes, respawned, and dead once the respawn budget is spent.

The ladder is pure in the source too, so its methods are functions here and a use of it
is a list of calls (`Call`). Instants are nanoseconds since Go's zero time; `Time.Sub`
saturates at the ends of `time.Duration`. The strikes are an unbounded integer.
-/

namespace Viiwork.Supervisor

/-! ### Instants -/

/-- A `time.Time`: nanoseconds since the zero time. -/
abbrev Time := Int

/-- A `time.Duration`: a 64-bit count of nanoseconds. -/
structure Duration where
  ns : Int
  lower : -2 ^ 63 ≤ ns
  upper : ns < 2 ^ 63

/-- `t.IsZero()`. -/
abbrev Time.IsZero (t : Time) : Prop := t = 0

/-- `t.Sub(u)`, in nanoseconds. -/
def Time.sub (t u : Time) : Int := max (-2 ^ 63) (min (2 ^ 63 - 1) (t - u))

/-- Saturation does not show in a comparison with a positive duration. -/
theorem Time.sub_lt_iff {t u : Int} {d : Duration} (hpos : 0 < d.ns) :
    Time.sub t u < d.ns ↔ t - u < d.ns := by
  have hupper := d.upper
  rw [Time.sub, max_lt_iff, min_lt_iff]
  omega

/-! ### The ladder -/

/-- A backend's place on the ladder. -/
inductive Health
  | starting | healthy | unhealthy | dead
  deriving Repr, DecidableEq

/-- What the supervision loop must do after an observation. -/
inductive Action
  | none | respawn | markDead
  deriving Repr, DecidableEq

def causeStartupTimeout : String := "startup timeout"

def causeExited : String := "process exited"

def causeProbes : String := "health probes failed"

def causeHardFailure : String := "hard failure on the inference path"

/-- Ten minutes. -/
def respawnRefill : Duration := ⟨600000000000, by norm_num, by norm_num⟩

def nanosecond : Duration := ⟨1, by norm_num, by norm_num⟩

structure LadderConfig where
  maxFailures : Int
  respawnGrace : Duration
  maxRespawns : Int
  startupTimeout : Duration

structure Ladder where
  cfg : LadderConfig
  state : Health
  start : Time
  healthySince : Time
  strikes : Int
  respawns : Int
  hardFailure : Bool
  /-- The cause set by `Condemn`, empty when not condemned. -/
  condemned : String
  /-- When the give-up that waits for requests in flight was first due; zero when none
  does. -/
  deferredAt : Time
  deferCause : String
  cause : String

namespace Ladder

/-- `NewLadder`. -/
def new (cfg : LadderConfig) (now : Time) : Ladder :=
  { cfg, state := .starting, start := now, healthySince := 0, strikes := 0, respawns := 0,
    hardFailure := false, condemned := "", deferredAt := 0, deferCause := "", cause := "" }

def clearTransient (l : Ladder) : Ladder :=
  { l with strikes := 0, hardFailure := false, deferredAt := 0, deferCause := "" }

/-- The cause that a give-up reports: that of the drain when only probes fail in it. -/
def reported (l : Ladder) (cause : String) : String :=
  if ¬ Time.IsZero l.deferredAt ∧ cause = causeProbes then l.deferCause else cause

/-- The give-up is made: a respawn while the budget lasts. -/
def spend (l : Ladder) (cause : String) : Action × Ladder :=
  let l := { l with deferredAt := 0, deferCause := "", strikes := 0, cause := cause }
  if l.respawns ≥ l.cfg.maxRespawns then (.markDead, { l with state := .dead })
  else (.respawn, { l with respawns := l.respawns + 1 })

/-- The deferral starts unless it has. -/
def defer (l : Ladder) (now : Time) (cause : String) : Ladder :=
  if Time.IsZero l.deferredAt then { l with deferredAt := now, deferCause := cause } else l

/-- `giveUp`: respawns or marks dead, first waiting up to `RespawnGrace` while a live
process has requests in flight. -/
def giveUp (l : Ladder) (now : Time) (cause : String) (alive : Bool) (inFlight : Int) :
    Action × Ladder :=
  let cause := l.reported cause
  if alive = true ∧ 0 < inFlight ∧ 0 < l.cfg.respawnGrace.ns then
    let l := l.defer now cause
    if Time.sub now l.deferredAt < l.cfg.respawnGrace.ns then (.none, l) else l.spend cause
  else l.spend cause

/-- A failed probe outside starting counts, with its cause. -/
def strike (l : Ladder) (alive : Bool) : String × Ladder :=
  let l := { l with state := .unhealthy }
  if l.hardFailure = true then
    (causeHardFailure, { l with strikes := l.cfg.maxFailures, hardFailure := false })
  else if alive = false then (causeExited, { l with strikes := l.cfg.maxFailures })
  else (causeProbes, { l with strikes := l.strikes + 1 })

/-- A ready probe outside starting; the budget refills after ten minutes of health. -/
def recover (l : Ladder) (now : Time) : Ladder :=
  let l := if l.state = .unhealthy then { l with healthySince := now } else l
  let l := { l with state := .healthy }.clearTransient
  if 0 < l.respawns ∧ respawnRefill.ns ≤ Time.sub now l.healthySince then
    { l with respawns := 0 }
  else l

/-- `Observe`. -/
def observe (l : Ladder) (now : Time) (ready alive : Bool) (inFlight : Int) : Action × Ladder :=
  if l.state = .dead then (.none, l)
  else if l.condemned ≠ "" then
    { l with state := .unhealthy }.giveUp now l.condemned alive inFlight
  else if l.state = .starting then
    if ready = true then
      (.none, { l with state := .healthy, healthySince := now }.clearTransient)
    -- only the timeout ends patience while loading
    else if alive = true ∧ Time.sub now l.start < l.cfg.startupTimeout.ns then (.none, l)
    else l.giveUp now (if alive = true then causeStartupTimeout else causeExited) alive 0
  else if ready = true then (.none, l.recover now)
  else
    let (cause, l) := l.strike alive
    if l.strikes < l.cfg.maxFailures then (.none, l) else l.giveUp now cause alive inFlight

def noteHardFailure (l : Ladder) : Ladder := { l with hardFailure := true }

def condemn (l : Ladder) (cause : String) : Ladder :=
  if l.state ≠ .dead then { l with condemned := cause } else l

def markDead (l : Ladder) (cause : String) : Ladder := { l with state := .dead, cause := cause }

/-- `Restarted`: a relaunched backend is starting again. Respawns are kept. -/
def restarted (l : Ladder) (now : Time) : Ladder :=
  if l.state = .dead then l
  else { { l with state := .starting, start := now }.clearTransient with condemned := "" }

end Ladder

/-! ### Uses of a ladder -/

inductive Call
  | observe (now : Time) (ready alive : Bool) (inFlight : Int)
  | noteHardFailure
  | condemn (cause : String)
  | markDead (cause : String)
  | restarted (now : Time)
  deriving Repr, DecidableEq

namespace Ladder

/-- The ladder after the call. -/
def call (l : Ladder) : Call → Ladder
  | .observe now ready alive inFlight => (l.observe now ready alive inFlight).2
  | .noteHardFailure => l.noteHardFailure
  | .condemn cause => l.condemn cause
  | .markDead cause => l.markDead cause
  | .restarted now => l.restarted now

/-- The action that the call returns; only observations return one. -/
def action (l : Ladder) : Call → Action
  | .observe now ready alive inFlight => (l.observe now ready alive inFlight).1
  | _ => .none

/-- The ladder after the calls. -/
def after (l : Ladder) (calls : List Call) : Ladder := calls.foldl call l

/-- The actions that the calls return. -/
def actions (l : Ladder) : List Call → List Action
  | [] => []
  | c :: calls => l.action c :: (l.call c).actions calls

variable (l : Ladder)

@[simp] theorem after_nil : l.after [] = l := rfl

@[simp] theorem after_cons (c : Call) (calls : List Call) :
    l.after (c :: calls) = (l.call c).after calls := rfl

@[simp] theorem after_append (calls calls' : List Call) :
    l.after (calls ++ calls') = (l.after calls).after calls' :=
  List.foldl_append

/-- **The invariant rule.** What the new ladder has and every call preserves, every use of
the ladder preserves, with the calls made so far. -/
theorem after_invariant {P : List Call → Ladder → Prop} {l : Ladder} {calls : List Call}
    (hnew : P [] l)
    (hcall : ∀ pre c post, calls = pre ++ c :: post → P pre (l.after pre) →
      P (pre ++ [c]) ((l.after pre).call c)) : P calls (l.after calls) := by
  induction calls using List.reverseRecOn with
  | nil => exact hnew
  | append_singleton calls c ih =>
    rw [after_append, after_cons, after_nil]
    refine hcall calls c [] rfl (ih fun pre c' post heq => ?_)
    exact hcall pre c' (post ++ [c]) (by simp [heq])

/-! ### What an observation does -/

/-- The cause for which the observation is to give up, if it is. -/
def due (l : Ladder) (now : Time) (ready alive : Bool) : Option String :=
  if l.state = .dead then none
  else if l.condemned ≠ "" then some l.condemned
  else if ready = true then none
  else if l.state = .starting then
    if alive = true ∧ Time.sub now l.start < l.cfg.startupTimeout.ns then none
    else some (if alive = true then causeStartupTimeout else causeExited)
  else if (l.strike alive).2.strikes < l.cfg.maxFailures then none
  else some (l.strike alive).1

/-- The ladder that gives up. -/
def struck (l : Ladder) (alive : Bool) : Ladder :=
  if l.condemned ≠ "" then { l with state := .unhealthy }
  else if l.state = .starting then l
  else (l.strike alive).2

/-- The requests in flight that a give-up waits for: none while loading. -/
def waitsFor (l : Ladder) (inFlight : Int) : Int :=
  if l.condemned = "" ∧ l.state = .starting then 0 else inFlight

/-- The ladder after a ready probe. -/
def ready (l : Ladder) (now : Time) : Ladder :=
  if l.state = .starting then { l with state := .healthy, healthySince := now }.clearTransient
  else l.recover now

@[simp] theorem strike_cfg (alive : Bool) : (l.strike alive).2.cfg = l.cfg := by
  simp only [strike]
  split_ifs <;> rfl

variable {now : Time} {inFlight : Int}

/-- An observation gives up when it is due to. -/
theorem observe_of_due {l : Ladder} {ready alive : Bool} {cause : String}
    (h : l.due now ready alive = some cause) :
    l.observe now ready alive inFlight =
      (l.struck alive).giveUp now cause alive (l.waitsFor inFlight) := by
  unfold due at h
  unfold observe struck waitsFor
  split_ifs at h ⊢ <;> simp_all

/-- Otherwise it returns no action: the ladder is dead, ready, or not yet at its limit. -/
theorem observe_of_not_due {l : Ladder} {ready alive : Bool} (h : l.due now ready alive = none) :
    l.observe now ready alive inFlight = (.none,
      if l.state = .dead then l
      else if ready = true then l.ready now
      else if l.state = .starting then l
      else (l.strike alive).2) := by
  unfold due at h
  unfold observe
  unfold Ladder.ready
  split_ifs at h ⊢ <;> simp_all

theorem defer_spend (now : Time) (cause cause' : String) :
    (l.defer now cause).spend cause' = l.spend cause' := by
  unfold defer
  split_ifs <;> rfl

@[simp] theorem defer_cfg (now : Time) (cause : String) : (l.defer now cause).cfg = l.cfg := by
  unfold defer
  split_ifs <;> rfl

/-- **What a give-up does**: it waits, for a live process with requests in flight and for
less than the grace, or it is made. -/
theorem giveUp_eq (now : Int) (cause : String) (alive : Bool) (inFlight : Int) :
    l.giveUp now cause alive inFlight =
      if alive = true ∧ 0 < inFlight ∧ 0 < l.cfg.respawnGrace.ns ∧
          now - (l.defer now (l.reported cause)).deferredAt < l.cfg.respawnGrace.ns then
        (.none, l.defer now (l.reported cause))
      else l.spend (l.reported cause) := by
  simp only [giveUp, defer_cfg, defer_spend]
  by_cases hwait : alive = true ∧ 0 < inFlight ∧ 0 < l.cfg.respawnGrace.ns
  · obtain ⟨halive, hfly, hgrace⟩ := hwait
    simp only [Time.sub_lt_iff hgrace, halive, hfly, hgrace, and_self, if_true, true_and]
  · rw [if_neg hwait, if_neg fun h => hwait ⟨h.1, h.2.1, h.2.2.1⟩]

theorem spend_eq (cause : String) :
    (l.cfg.maxRespawns ≤ l.respawns ∧ (l.spend cause).1 = .markDead ∧
        (l.spend cause).2.state = .dead ∧ (l.spend cause).2.respawns = l.respawns) ∨
      (l.respawns < l.cfg.maxRespawns ∧ (l.spend cause).1 = .respawn ∧
        (l.spend cause).2.state = l.state ∧ (l.spend cause).2.respawns = l.respawns + 1) := by
  rcases le_or_gt l.cfg.maxRespawns l.respawns with h | h
  · exact .inl ⟨h, by simp [spend, h]⟩
  · exact .inr ⟨h, by simp [spend, not_le.2 h]⟩

@[simp] theorem spend_cfg (cause : String) : (l.spend cause).2.cfg = l.cfg := by
  simp only [spend]
  split_ifs <;> rfl

end Ladder

end Viiwork.Supervisor
