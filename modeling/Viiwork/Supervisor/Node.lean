import Viiwork.Lib.KeyedList
import Viiwork.Supervisor.LoadGate

/-!
# Viiwork.Supervisor.Node

The node's supervisor (`supervisor.go`, `model.go`, `loop.go`): a reload applies a model
list by diff, removed models drain in the background, and new ones start once the drains
in progress are over.

The state holds what the supervisor's mutex guards together with every goroutine there is:
the `start` of each `Apply`, the drain of each removed model and the loop of each backend.
A section under a mutex is one step, and so is each thing a goroutine does outside one. What
decides between the steps of a loop (probes, the ladder, the process itself) is not in the
state: any of them can come at any time. Stopping a process is one step, taken when the
process is gone.

Models are numbered as they are created. Three fields are not in the source: with `started`
and `removed` a model says by which `Apply` it came and went, and `rosters` has the model list
after each `Apply`. No step reads them.
-/

namespace Viiwork.Supervisor

open Viiwork.Lib

variable {γ : Type}

/-! ### Configuration -/

/-- One entry of the model list; `rest` is all that only `Equal` looks at. -/
structure ModelConfig (γ : Type) where
  name : String
  engine : String
  gpus : List Nat
  gpusPerBackend : Nat
  /-- The model has a source to fetch. -/
  sourced : Bool
  rest : γ
  deriving Repr, DecidableEq

namespace ModelConfig

def backends (c : ModelConfig γ) : Nat :=
  if c.gpus = [] ∨ c.gpusPerBackend < 1 then 1 else c.gpus.length / c.gpusPerBackend

def backendGPUs (c : ModelConfig γ) (i : Nat) : List Nat :=
  (c.gpus.drop (i * c.gpusPerBackend)).take c.gpusPerBackend

theorem backendGPUs_subset (c : ModelConfig γ) (i : Nat) : c.backendGPUs i ⊆ c.gpus :=
  fun _ h => List.mem_of_mem_drop (List.mem_of_mem_take h)

end ModelConfig

/-! ### Backends and their loops -/

/-- Where a backend's loop is. -/
inductive Phase
  /-- It has not started. -/
  | idle
  | fetching
  | queued
  /-- About to start a process. -/
  | launching
  /-- The start failed outright; it is observed after a probe interval. -/
  | failed
  | starting
  | running
  /-- The backend is dead; the loop waits for its context to end. -/
  | parked
  | returned
  deriving Repr, DecidableEq

structure Backend where
  phase : Phase := .idle
  ticket : Option Nat := none
  /-- A process of the backend runs. -/
  process : Bool := false
  deriving Repr, DecidableEq

namespace Backend

/-- `releaseTicket`. -/
def releaseTicket (b : Backend) (gate : LoadGate) : Backend × LoadGate :=
  match b.ticket with
  | some t => ({ b with ticket := none }, gate.release t)
  | none => (b, gate)

end Backend

/-- What a loop does, and what happens to its process. -/
inductive LoopAct
  /-- The source is resolved; the backend joins the gate's queue. -/
  | fetched
  /-- The source cannot be resolved. -/
  | refused
  /-- `wait` returns nil. -/
  | granted
  /-- A process is started. -/
  | launch
  /-- The engine cannot build a command. -/
  | noCommand
  | startFailed
  /-- A failed start calls for no action. -/
  | retry
  /-- The process exited right after the launch: once more on a new port. -/
  | quickRetry
  /-- The backend leaves starting. -/
  | ready
  /-- `ActionRespawn`: the process is stopped. -/
  | respawn
  /-- `ActionMarkDead`: the process is stopped. -/
  | markDead
  /-- The process exits by itself. -/
  | exits
  /-- The loop finds its context ended and returns. -/
  | ended
  deriving Repr, DecidableEq

/-- One step of a backend's loop; `cancelled` says that its context has ended. -/
def Backend.act (cancelled : Bool) (gate : LoadGate) (b : Backend) :
    LoopAct → Option (Backend × LoadGate)
  | .fetched =>
    if b.phase = .fetching then
      some ({ b with phase := .queued, ticket := some gate.tickets }, gate.enqueue)
    else none
  | .refused => if b.phase = .fetching then some ({ b with phase := .parked }, gate) else none
  | .granted =>
    match b.ticket with
    | some t =>
      if b.phase = .queued ∧ t ∈ gate.granted then some ({ b with phase := .launching }, gate)
      else none
    | none => none
  | .launch =>
    if b.phase = .launching then some ({ b with phase := .starting, process := true }, gate)
    else none
  | .noCommand =>
    if b.phase = .launching then some ({ b with phase := .parked }.releaseTicket gate) else none
  | .startFailed =>
    if b.phase = .launching then some ({ b with phase := .failed }, gate) else none
  | .retry => if b.phase = .failed then some ({ b with phase := .launching }, gate) else none
  | .quickRetry =>
    if b.phase = .starting ∧ b.process = false then some ({ b with phase := .launching }, gate)
    else none
  | .ready =>
    if b.phase = .starting then some ({ b with phase := .running }.releaseTicket gate) else none
  | .respawn =>
    -- a ticket still held is kept, and none is taken
    if b.phase = .failed ∨ b.phase = .starting ∨ b.phase = .running then
      some ({ b with phase := .launching, process := false }, gate)
    else none
  | .markDead =>
    if b.phase = .failed ∨ b.phase = .starting ∨ b.phase = .running then
      some ({ b with phase := .parked, process := false }.releaseTicket gate)
    else none
  | .exits => if b.process = true then some ({ b with process := false }, gate) else none
  | .ended =>
    -- a launch is not interrupted
    if cancelled = true ∧ b.phase ≠ .idle ∧ b.phase ≠ .launching ∧ b.phase ≠ .returned then
      some ({ b with phase := .returned }.releaseTicket gate)
    else none

/-! ### Models -/

/-- Where the drain of a model is. -/
inductive Drain
  /-- There is none. -/
  | absent
  /-- Waits for requests in flight, then for the loops. -/
  | waiting
  /-- Stops the backends; these are left. -/
  | stopping (left : List Nat)
  /-- The model is out of the `draining` map. -/
  | finished
  /-- Its channel is closed. -/
  | signalled
  deriving Repr, DecidableEq

/-- The model is in the `draining` map. -/
def Drain.inMap : Drain → Bool
  | .waiting | .stopping _ => true
  | .absent | .finished | .signalled => false

structure Model (γ : Type) where
  cfg : ModelConfig γ
  backends : List Backend
  /-- No loop may start once set. -/
  closed : Bool := false
  /-- Its loop context was cancelled. -/
  cancelled : Bool := false
  drain : Drain := .absent
  started : Nat
  removed : Option Nat := none
  deriving DecidableEq

namespace Model

/-- `newModel`. -/
def new (cfg : ModelConfig γ) (epoch : Nat) : Model γ :=
  { cfg, backends := List.replicate cfg.backends {}, started := epoch }

/-- `drainLocked`, with `stopLoops`. -/
def startDrain (epoch : Nat) (m : Model γ) : Model γ :=
  if m.drain.inMap = true then m
  else { m with closed := true, cancelled := true, drain := .waiting, removed := some epoch }

end Model

/-- Where a loop of the model starts: one with a source fetches first. -/
def Model.firstPhase (m : Model γ) : Phase := if m.cfg.sourced then .fetching else .queued

/-- One backend of a model to be started, with its ticket. -/
structure Pending where
  model : Nat
  backend : Nat
  ticket : Option Nat
  deriving Repr, DecidableEq

/-- A `start` goroutine. -/
structure Starter where
  /-- The models whose drains it still waits for. -/
  waits : List Nat
  /-- The backends it has still to enqueue. -/
  todo : List (Nat × Nat)
  /-- The loops it has still to start. -/
  queue : List Pending
  deriving Repr, DecidableEq

/-! ### The supervisor -/

structure Node (γ : Type) where
  /-- Every model ever created. -/
  all : List (Model γ)
  /-- The models of the last `Apply`, in order. -/
  models : List Nat
  shutdown : Bool
  gate : LoadGate
  starters : List Starter
  rosters : List (List Nat)
  deriving DecidableEq

inductive ApplyErr
  | shutDown
  | listedTwice (name : String)
  | notRegistered (name engine : String)
  deriving Repr, DecidableEq

namespace Node

/-- `New`. -/
def new : Node γ := ⟨[], [], false, .new, [], []⟩

variable [DecidableEq γ]

/-- The running model of that name, if its configuration is the same. -/
def unchanged (s : Node γ) (cfg : ModelConfig γ) : Option Nat :=
  (lastWith (fun m => (s.all[m]?).map fun M => M.cfg.name) (some cfg.name) s.models).filter
    fun m => (s.all[m]?).any fun M => M.cfg = cfg

/-- The checks before anything is changed. -/
def validate (registered : String → Bool) (s : Node γ) :
    List String → List (ModelConfig γ) → Except ApplyErr Unit
  | _, [] => .ok ()
  | seen, cfg :: cfgs =>
    if cfg.name ∈ seen then .error (.listedTwice cfg.name)
    else if (s.unchanged cfg).isNone ∧ registered cfg.engine = false then
      .error (.notRegistered cfg.name cfg.engine)
    else validate registered s (cfg.name :: seen) cfgs

/-- The new list of models, and the configurations of those to create, numbered from `n`. -/
def build (s : Node γ) (n : Nat) : List (ModelConfig γ) → List Nat × List (ModelConfig γ)
  | [] => ([], [])
  | cfg :: cfgs =>
    match s.unchanged cfg with
    | some m => ((m :: (build s n cfgs).1), (build s n cfgs).2)
    | none => (n :: (build s (n + 1) cfgs).1, cfg :: (build s (n + 1) cfgs).2)

/-- `drainLocked` on each of the models. -/
def drainAll (epoch : Nat) (ms : List Nat) (all : List (Model γ)) : List (Model γ) :=
  all.mapIdx fun m M => if m ∈ ms then M.startDrain epoch else M

/-- The models in the `draining` map. -/
def draining (all : List (Model γ)) : List Nat :=
  (List.range all.length).filter fun m => (all[m]?).any fun M => M.drain.inMap

/-- Backend by backend across the models. -/
def roundRobin (all : List (Model γ)) (ms : List Nat) : List (Nat × Nat) :=
  let count (m : Nat) : Nat := ((all[m]?).map fun M => M.backends.length).getD 0
  (List.range ((ms.map count).foldl max 0)).flatMap fun i =>
    (ms.filter fun m => i < count m).map fun m => (m, i)

/-- `Apply`. -/
def apply (registered : String → Bool) (cfgs : List (ModelConfig γ)) (s : Node γ) :
    Except ApplyErr (Node γ) :=
  if s.shutdown = true then .error .shutDown
  else
    match s.validate registered [] cfgs with
    | .error e => .error e
    | .ok () =>
      let epoch := s.rosters.length
      let (next, created) := s.build s.all.length cfgs
      let removed := s.models.filter fun m => m ∉ next
      let all := drainAll epoch removed s.all ++ created.map fun cfg => .new cfg epoch
      let started := next.filter fun m => s.all.length ≤ m
      .ok { s with
        all, models := next, rosters := s.rosters ++ [next],
        starters :=
          if started = [] then s.starters
          else s.starters ++ [⟨draining all, roundRobin all started, []⟩] }

/-- `Shutdown`, up to its waiting for the drains: every loop context ends, and every model
is drained. -/
def shutdownAll (s : Node γ) : Node γ :=
  if s.shutdown = true then s
  else
    { s with
      shutdown := true, models := [],
      all := (drainAll s.rosters.length s.models s.all).map fun M => { M with cancelled := true } }

end Node

/-! ### Steps -/

inductive DrainAct
  /-- The loops have returned; the backends are to be stopped. -/
  | loops
  | stop (backend : Nat)
  /-- The model leaves the `draining` map. -/
  | forget
  /-- The channel is closed. -/
  | signal
  deriving Repr, DecidableEq

/-- No loop of the model is in progress. -/
def Model.Settled (M : Model γ) : Prop :=
  ∀ b ∈ M.backends, b.phase = .idle ∨ b.phase = .returned

instance (M : Model γ) : Decidable M.Settled :=
  inferInstanceAs (Decidable (∀ b ∈ M.backends, _))

def Model.drainAct (M : Model γ) : DrainAct → Option (Model γ)
  | .loops =>
    if M.drain = .waiting ∧ M.Settled then
      some { M with drain := .stopping (List.range M.backends.length) }
    else none
  | .stop i =>
    match M.drain with
    | .stopping left =>
      if i ∈ left then
        some { M with
          drain := .stopping (left.erase i),
          backends := M.backends.modify i fun b => { b with process := false } }
      else none
    | _ => none
  | .forget => if M.drain = .stopping [] then some { M with drain := .finished } else none
  | .signal => if M.drain = .finished then some { M with drain := .signalled } else none

inductive Act (γ : Type)
  | apply (cfgs : List (ModelConfig γ))
  | shutdown
  /-- A `start` goroutine receives from the next channel it waits for. -/
  | receive (g : Nat)
  /-- It enqueues the next backend. -/
  | enqueue (g : Nat)
  /-- It starts the next loop. -/
  | startLoop (g : Nat)
  | loop (m i : Nat) (a : LoopAct)
  | drain (m : Nat) (a : DrainAct)

namespace Node

/-- The channel of the model's drain is closed. -/
def Signalled (s : Node γ) (m : Nat) : Prop :=
  (s.all[m]?).any (fun M => decide (M.drain = .signalled)) = true

instance (s : Node γ) (m : Nat) : Decidable (s.Signalled m) :=
  inferInstanceAs (Decidable (_ = true))

def setStarter (s : Node γ) (g : Nat) (st : Starter) : Node γ :=
  { s with starters := s.starters.set g st }

def setModel (s : Node γ) (m : Nat) (M : Model γ) : Node γ := { s with all := s.all.set m M }

def receive (s : Node γ) (g : Nat) : Option (Node γ) :=
  match s.starters[g]? with
  | some ⟨m :: waits, todo, queue⟩ =>
    if s.Signalled m then some (s.setStarter g ⟨waits, todo, queue⟩) else none
  | _ => none

def enqueue (s : Node γ) (g : Nat) : Option (Node γ) :=
  match s.starters[g]? with
  | some ⟨[], (m, i) :: todo, queue⟩ =>
    if (s.all[m]?).any (fun M => M.cfg.sourced) then
      some (s.setStarter g ⟨[], todo, queue ++ [⟨m, i, none⟩]⟩)
    else
      some { s.setStarter g ⟨[], todo, queue ++ [⟨m, i, some s.gate.tickets⟩]⟩ with
        gate := s.gate.enqueue }
  | _ => none

/-- `startLoop`. -/
def startLoop (s : Node γ) (g : Nat) : Option (Node γ) :=
  match s.starters[g]? with
  | some ⟨[], [], p :: queue⟩ =>
    match s.all[p.model]? with
    | none => none
    | some M =>
      let s := s.setStarter g ⟨[], [], queue⟩
      if M.closed = true then
        some { s with gate := p.ticket.elim s.gate s.gate.release }
      else
        some (s.setModel p.model { M with
          backends := M.backends.modify p.backend fun b =>
            { b with phase := M.firstPhase, ticket := p.ticket } })
  | _ => none

def loop (s : Node γ) (m i : Nat) (a : LoopAct) : Option (Node γ) :=
  match s.all[m]? with
  | none => none
  | some M =>
    match M.backends[i]? with
    | none => none
    | some b =>
      match b.act M.cancelled s.gate a with
      | none => none
      | some (b', gate) =>
        some { s.setModel m { M with backends := M.backends.set i b' } with gate := gate }

def drain (s : Node γ) (m : Nat) (a : DrainAct) : Option (Node γ) :=
  match s.all[m]? with
  | none => none
  | some M =>
    match M.drainAct a with
    | none => none
    | some M' => some (s.setModel m M')

variable [DecidableEq γ] (registered : String → Bool)

/-- One step. An `Apply` that returns an error changes nothing. -/
def step (s : Node γ) : Act γ → Option (Node γ)
  | .apply cfgs =>
    match s.apply registered cfgs with
    | .error _ => some s
    | .ok s' => some s'
  | .shutdown => some s.shutdownAll
  | .receive g => s.receive g
  | .enqueue g => s.enqueue g
  | .startLoop g => s.startLoop g
  | .loop m i a => s.loop m i a
  | .drain m a => s.drain m a

end Node

end Viiwork.Supervisor
