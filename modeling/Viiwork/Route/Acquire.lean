import Viiwork.Lib.Run
import Viiwork.Route.Queue

/-!
# Viiwork.Route.Acquire

`Pick`, `Acquire`, `Release` and `Refused` as steps of the whole system. An
`Acquire` that queues is several steps, and any other step may come in between:
its timer or context can fire before its dispatch, after it, or between its
dispatch and its receive.
-/

namespace Viiwork.Route

open Option

variable {β F : Type}

/-! ### The sections -/

/-- A released slot. `none` is the panic of a backend's `Release` without a
matching `Acquire`. -/
def Slots.release [DecidableEq β] (slots : Slots β) (l : Lease β) : Option (Slots β) :=
  match l.took with
  | .backend b =>
    if slots.inFlight b - 1 < 0 then none
    else some { slots with inFlight := Function.update slots.inFlight b (slots.inFlight b - 1) }
  | .peer key res =>
    some { slots with
      reservations :=
        Function.update slots.reservations key ((slots.reservations key).erase res) }

/-- A release makes no reservation. -/
theorem Slots.reservations_release_sublist [DecidableEq β] {slots slots' : Slots β} {l : Lease β}
    (h : slots.release l = some slots') (key : ResKey) :
    (slots'.reservations key).Sublist (slots.reservations key) := by
  unfold release at h
  split at h
  · split at h
    · cases h
    · cases h
      exact .refl _
  · rename_i key' res _
    cases h
    by_cases hkey : key = key'
    · subst hkey
      simp [List.erase_sublist]
    · simp [Function.update_of_ne hkey]

/-- The first section of `Acquire`: what it answers at once. -/
inductive Reply (β : Type)
  | lease (l : Lease β)
  | err (e : PickErr)
  | queueTimeout
  | queueFull
  | queued
  deriving DecidableEq

/-- The request a waiter keeps: without `Exclude`, it may go anywhere. -/
def queuedReq (req : Request F) : Request F :=
  { model := req.model, host := req.host, prefer := req.prefer, estK := req.estK
    sessionKey := req.sessionKey, images := req.images }

namespace State

/-- A caller has the lease. -/
def hold (s : State β F) (l : Lease β) : State β F := { s with held := l :: s.held }

def setSlots (s : State β F) (slots : Slots β) : State β F :=
  { s with router := { s.router with slots } }

/-- A caller has what its call returned, if that is a lease. -/
def receive (s : State β F) : WaitResult β → State β F
  | .lease l => s.hold l
  | .err _ => s

variable [DecidableEq β] [Float64 F]

def pick (c : Config β) (env : Env β F) (req : Request F) (s : State β F) :
    State β F × Except PickErr (Lease β) :=
  let (rt, res) := Route.pick c env (env.draw 0) req s.router
  match res with
  | .ok l => ((s.setRouter rt).hold l, .ok l)
  | .error e => (s.setRouter rt, .error e)

def acquire (c : Config β) (env : Env β F) (req : Request F) (s : State β F) :
    State β F × Reply β :=
  match s.pick c env req with
  | (s, .ok l) => (s, .lease l)
  | (s, .error e) =>
    -- A receiver is strict and never queues.
    if e ≠ .noFreeSlot ∨ req.forwarded then (s, .err e)
    else if req.queueBudget < 0 then (s, .queueTimeout)
    else if c.queueMax ≤ 0 ∨ c.queueMax ≤ (s.queue req.model).length then (s, .queueFull)
    else (s.enqueue { req := queuedReq req }, .queued)

/-- The end of a wait that found no result. -/
def givenUp : Why → Phase β
  | .timeout => .timedOut
  | .ctx => .canceled none

/-- `leave`: the waiter quits the queue, unless dispatch completed it first. -/
def leave (s : State β F) (w : Nat) (wt : Waiter β F) (why : Why) : State β F :=
  if wt.done then s.setWaiter w { wt with phase := .draining why }
  else (s.setWaiter w { wt with done := true, phase := givenUp why }).removeWaiter w wt.req.model

/-- What a call that left does with the result it then receives: a timeout uses
it, a cancelled call gives a lease back. -/
def drain (s : State β F) (w : Nat) (wt : Waiter β F) (res : WaitResult β)
    (rest : List (WaitResult β)) : Why → State β F
  | .timeout => (s.setWaiter w { wt with result := rest, phase := .returned res }).receive res
  | .ctx =>
    match res with
    | .lease l => s.setWaiter w { wt with result := rest, phase := .releasing l }
    | .err _ => s.setWaiter w { wt with result := rest, phase := .canceled none }

end State

/-! ### Steps -/

inductive Step (β F : Type)
  | pick (env : Env β F) (req : Request F)
  | acquire (env : Env β F) (req : Request F)
  /-- `Wake`, the tick, or the wake after a release. -/
  | dispatch (env : Env β F)
  /-- The waiter's `select` takes its result. -/
  | receive (w : Nat)
  /-- The waiter's `select` takes its timer or its context. -/
  | fire (w : Nat) (why : Why)
  | leave (w : Nat)
  /-- The call that left receives the result it was completed with. -/
  | drain (w : Nat)
  /-- The cancelled call releases its lease. -/
  | discard (w : Nat)
  /-- A caller releases its lease; a further call does nothing. -/
  | release (id : Nat)
  /-- A caller's peer refused its request. -/
  | refused (id : Nat) (now : Int)

/-- What the step asks from outside. -/
def Step.env? : Step β F → Option (Env β F)
  | pick env _ | acquire env _ | dispatch env => some env
  | _ => none

/-- The reports that the step's picks see: a forwarded request sees none. -/
def Step.reports : Step β F → List Report
  | pick env req | acquire env req => if req.forwarded then [] else env.reports
  | dispatch env => env.reports
  | _ => []

namespace State

def held? (s : State β F) (id : Nat) : Option (Lease β) := s.held.find? fun l => l.id == id

def refused (s : State β F) (l : Lease β) (now : Int) : State β F :=
  match l.took with
  | .backend _ => s
  | .peer key _ =>
    let refused := Function.update s.router.memo.refused key (some now)
    { s with router := { s.router with memo := { s.router.memo with refused } } }

/-- One step; `none` when it is not enabled. -/
def step [DecidableEq β] [Float64 F] (c : Config β) (s : State β F) :
    Step β F → Option (State β F)
  | .pick env req => some (s.pick c env req).1
  | .acquire env req => some (s.acquire c env req).1
  | .dispatch env => some (Route.dispatch c env s)
  | .receive w => do
      let wt ← s.waiters[w]?
      match wt.phase, wt.result with
      | .waiting, res :: rest =>
        some ((s.setWaiter w { wt with result := rest, phase := .returned res }).receive res)
      | _, _ => none
  | .fire w why => do
      let wt ← s.waiters[w]?
      match wt.phase with
      | .waiting => some (s.setWaiter w { wt with phase := .leaving why })
      | _ => none
  | .leave w => do
      let wt ← s.waiters[w]?
      match wt.phase with
      | .leaving why => some (s.leave w wt why)
      | _ => none
  | .drain w => do
      let wt ← s.waiters[w]?
      match wt.phase, wt.result with
      | .draining why, res :: rest => some (s.drain w wt res rest why)
      | _, _ => none
  | .discard w => do
      let wt ← s.waiters[w]?
      match wt.phase with
      | .releasing l => do
          let slots ← s.router.slots.release l
          some ((s.setSlots slots).setWaiter w { wt with phase := .canceled (some l) })
      | _ => none
  | .release id =>
    match s.held? id with
    | none => some s
    | some l => do
        let slots ← s.router.slots.release l
        some { s.setSlots slots with held := s.held.erase l }
  | .refused id now =>
    match s.held? id with
    | none => some s
    | some l => some (s.refused l now)

/-! ### What a step can do -/

/-- **Steps.** Every step with what it was taken from. -/
inductive Steps [DecidableEq β] [Float64 F] (c : Config β) (s : State β F) :
    Step β F → State β F → Prop
  | pick (env : Env β F) (req : Request F) : Steps c s (.pick env req) (s.pick c env req).1
  | acquire (env : Env β F) (req : Request F) :
      Steps c s (.acquire env req) (s.acquire c env req).1
  | dispatch (env : Env β F) : Steps c s (.dispatch env) (Route.dispatch c env s)
  | receive {w : Nat} {wt : Waiter β F} {res : WaitResult β} {rest : List (WaitResult β)}
      (hw : s.waiters[w]? = some wt) (hphase : wt.phase = .waiting)
      (hresult : wt.result = res :: rest) :
      Steps c s (.receive w)
        ((s.setWaiter w { wt with result := rest, phase := .returned res }).receive res)
  | fire {w : Nat} {wt : Waiter β F} (why : Why)
      (hw : s.waiters[w]? = some wt) (hphase : wt.phase = .waiting) :
      Steps c s (.fire w why) (s.setWaiter w { wt with phase := .leaving why })
  | leave {w : Nat} {wt : Waiter β F} {why : Why}
      (hw : s.waiters[w]? = some wt) (hphase : wt.phase = .leaving why) :
      Steps c s (.leave w) (s.leave w wt why)
  | drain {w : Nat} {wt : Waiter β F} {why : Why} {res : WaitResult β}
      {rest : List (WaitResult β)} (hw : s.waiters[w]? = some wt)
      (hphase : wt.phase = .draining why) (hresult : wt.result = res :: rest) :
      Steps c s (.drain w) (s.drain w wt res rest why)
  | discard {w : Nat} {wt : Waiter β F} {l : Lease β} {slots : Slots β}
      (hw : s.waiters[w]? = some wt) (hphase : wt.phase = .releasing l)
      (hrelease : s.router.slots.release l = some slots) :
      Steps c s (.discard w)
        ((s.setSlots slots).setWaiter w { wt with phase := .canceled (some l) })
  | release {id : Nat} {l : Lease β} {slots : Slots β} (hheld : s.held? id = some l)
      (hrelease : s.router.slots.release l = some slots) :
      Steps c s (.release id) { s.setSlots slots with held := s.held.erase l }
  | refused {id : Nat} {l : Lease β} (now : Int) (hheld : s.held? id = some l) :
      Steps c s (.refused id now) (s.refused l now)
  | notHeld {a : Step β F} : Steps c s a s

theorem steps_of_step [DecidableEq β] [Float64 F] {c : Config β} {s s' : State β F}
    {a : Step β F} (h : s.step c a = some s') : s.Steps c a s' := by
  cases a with
  | pick env req => exact some.inj h ▸ .pick env req
  | acquire env req => exact some.inj h ▸ .acquire env req
  | dispatch env => exact some.inj h ▸ .dispatch env
  | receive w =>
    obtain ⟨wt, hw, h⟩ := bind_eq_some_iff.1 h
    split at h
    · rename_i hphase hresult
      exact some.inj h ▸ .receive hw hphase hresult
    · cases h
  | fire w why =>
    obtain ⟨wt, hw, h⟩ := bind_eq_some_iff.1 h
    split at h
    · rename_i hphase
      exact some.inj h ▸ .fire why hw hphase
    · cases h
  | leave w =>
    obtain ⟨wt, hw, h⟩ := bind_eq_some_iff.1 h
    split at h
    · rename_i hphase
      exact some.inj h ▸ .leave hw hphase
    · cases h
  | drain w =>
    obtain ⟨wt, hw, h⟩ := bind_eq_some_iff.1 h
    split at h
    · rename_i hphase hresult
      exact some.inj h ▸ .drain hw hphase hresult
    · cases h
  | discard w =>
    obtain ⟨wt, hw, h⟩ := bind_eq_some_iff.1 h
    split at h
    · rename_i hphase
      obtain ⟨slots, hrelease, h⟩ := bind_eq_some_iff.1 h
      exact some.inj h ▸ .discard hw hphase hrelease
    · cases h
  | release id =>
    simp only [step] at h
    split at h
    · exact some.inj h ▸ .notHeld
    · rename_i hheld
      obtain ⟨slots, hrelease, h⟩ := bind_eq_some_iff.1 h
      exact some.inj h ▸ .release hheld hrelease
  | refused id now =>
    simp only [step] at h
    split at h
    · exact some.inj h ▸ .notHeld
    · rename_i hheld
      exact some.inj h ▸ .refused now hheld

end State

end Viiwork.Route
