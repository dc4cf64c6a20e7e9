import Viiwork.Route.Router

/-!
# Viiwork.Route.Queue

The origin queue (`queue.go`): waiters, dispatch, and `Acquire` with everything
that can interleave with it.

The state is what the router's mutex guards together with where each waiting
`Acquire` call is (`Phase`) and which leases its callers hold. A section under
the mutex is one step, and so is each action of a waiting call outside it:
receiving its result, its timer or context firing, leaving, and releasing the
lease of a cancelled call.

Two fields of the state are not in the source: `Waiter.sent`, every result put
into the waiter's channel so far, and `State.held`, the leases the callers have.
No step reads `sent`; `held` says which leases there are to release.
-/

namespace Viiwork.Route

variable {β F : Type}

/-! ### Waiters -/

inductive WaitResult (β : Type)
  | lease (l : Lease β)
  | err (e : PickErr)
  deriving DecidableEq

/-- Why a waiter stops waiting. -/
inductive Why
  | timeout | ctx
  deriving Repr, DecidableEq

/-- Where a queued `Acquire` call is. -/
inductive Phase (β : Type)
  /-- In its `select`. -/
  | waiting
  /-- Its timer or context fired; it is about to call `leave`. -/
  | leaving (why : Why)
  /-- `leave` found it done; it is about to receive its result. -/
  | draining (why : Why)
  /-- It returned the result it received. -/
  | returned (res : WaitResult β)
  /-- It returned `ErrQueueTimeout`. -/
  | timedOut
  /-- Its context ended after a lease was assigned; it is about to release it. -/
  | releasing (l : Lease β)
  /-- It returned its context's error, having released the lease, if any. -/
  | canceled (released : Option (Lease β))
  deriving DecidableEq

structure Waiter (β F : Type) where
  req : Request F
  done : Bool := false
  /-- The channel, buffered 1. -/
  result : List (WaitResult β) := []
  phase : Phase β := .waiting
  sent : List (WaitResult β) := []

structure State (β F : Type) where
  router : Router β
  queues : Std.ExtTreeMap String (List Nat) compare
  waiters : List (Waiter β F)
  held : List (Lease β)

namespace State

/-- `New`. -/
def new : State β F := { router := .new, queues := ∅, waiters := [], held := [] }

/-- The model's waiters in arrival order; a waiter is its index. -/
def queue (s : State β F) (model : String) : List Nat := s.queues.getD model []

def setRouter (s : State β F) (rt : Router β) : State β F := { s with router := rt }

def setWaiter (s : State β F) (w : Nat) (wt : Waiter β F) : State β F :=
  { s with waiters := s.waiters.set w wt }

def removeWaiter (s : State β F) (w : Nat) (model : String) : State β F :=
  let ws := (s.queue model).erase w
  { s with queues := if ws = [] then s.queues.erase model else s.queues.insert model ws }

def enqueue (s : State β F) (wt : Waiter β F) : State β F :=
  { s with
    queues := s.queues.insert wt.req.model (s.queue wt.req.model ++ [s.waiters.length])
    waiters := s.waiters ++ [wt] }

def complete (s : State β F) (w : Nat) (wt : Waiter β F) (res : WaitResult β) : State β F :=
  (s.setWaiter w { wt with
    done := true, result := wt.result ++ [res], sent := wt.sent ++ [res] }).removeWaiter
    w wt.req.model

end State

/-! ### Dispatch -/

/-- What one waiter's turn in a scan came to. -/
inductive Verdict
  | completed | full | panicked
  deriving Repr, DecidableEq

/-- One waiter's turn: a slot, a definite error, or nothing yet. -/
def attempt [DecidableEq β] [Float64 F] (c : Config β) (env : Env β F) (d : Draw F)
    (reports : List Report) (w : Nat) (wt : Waiter β F) (s : State β F) : State β F × Verdict :=
  let (rt, res) := pickWithReports c env d wt.req reports s.router
  let s := s.setRouter rt
  match res with
  | .ok l => (s.complete w wt (.lease l), .completed)
  | .error .noFreeSlot => (s, .full)
  | .error .panic => (s, .panicked)
  -- The model or the pinned host is gone, or no host reads images.
  | .error e => (s.complete w wt (.err e), .completed)

/-- The flags of a scan, and the number of picks so far. -/
structure Scan where
  unpinnedFull : Bool := false
  imagesFull : Bool := false
  progressed : Bool := false
  panicked : Bool := false
  picks : Nat := 0
  deriving Repr, DecidableEq

/-- The waiter would ask what one ahead of it was refused. -/
def Scan.skips (sc : Scan) (req : Request F) : Bool :=
  req.host == "" && (sc.unpinnedFull || (sc.imagesFull && req.images))

def Scan.note (sc : Scan) (req : Request F) : Verdict → Scan
  | .completed => { sc with progressed := true, picks := sc.picks + 1 }
  | .panicked => { sc with panicked := true, picks := sc.picks + 1 }
  | .full =>
    let sc := { sc with picks := sc.picks + 1 }
    -- A refused image request says nothing of those behind it without one.
    if req.host = "" then
      if req.images then { sc with imagesFull := true } else { sc with unpinnedFull := true }
    else sc

/-- The turn of one waiter of the scan, unless it is skipped. A panic ends the
whole dispatch. -/
def scanWaiter [DecidableEq β] [Float64 F] (c : Config β) (env : Env β F) (reports : List Report)
    (acc : State β F × Scan) (w : Nat) : State β F × Scan :=
  match acc.1.waiters[w]? with
  | none => acc
  | some wt =>
    if acc.2.panicked ∨ acc.2.skips wt.req then acc
    else
      let (s, v) := attempt c env (env.draw acc.2.picks) reports w wt acc.1
      (s, acc.2.note wt.req v)

/-- The scan of one model's queue, over a copy: completing a waiter edits the
queue. -/
def scanQueue [DecidableEq β] [Float64 F] (c : Config β) (env : Env β F) (reports : List Report)
    (acc : State β F × Scan) (model : String) : State β F × Scan :=
  (acc.1.queue model).foldl (scanWaiter c env reports)
    (acc.1, { acc.2 with unpinnedFull := false, imagesFull := false })

/-- The keys in the order given, each once; a key the order does not name comes
last. -/
def arrange (order keys : List String) : List String :=
  (order.filter fun k => decide (k ∈ keys)).dedup ++ keys.filter fun k => decide (k ∉ order)

def dispatchPass [DecidableEq β] [Float64 F] (c : Config β) (env : Env β F)
    (reports : List Report) (pass : Nat) (acc : State β F × Scan) : State β F × Scan :=
  (arrange (env.order pass) acc.1.queues.keys).foldl (scanQueue c env reports)
    (acc.1, { acc.2 with progressed := false })

/-- Passes until one hands out nothing. -/
def dispatchLoop [DecidableEq β] [Float64 F] (c : Config β) (env : Env β F)
    (reports : List Report) : Nat → Nat → State β F × Scan → State β F × Scan
  | 0, _, acc => acc
  | fuel + 1, pass, acc =>
    let acc := dispatchPass c env reports pass acc
    if acc.2.progressed ∧ acc.2.panicked = false then
      dispatchLoop c env reports fuel (pass + 1) acc
    else acc

/-- The loop of `dispatch`. Each pass that hands something out completes a waiter,
so that the fuel does not run out. -/
def dispatchAll [DecidableEq β] [Float64 F] (c : Config β) (env : Env β F) (s : State β F) :
    State β F × Scan :=
  dispatchLoop c env env.reports (s.waiters.length + 1) 0 (s, {})

def dispatch [DecidableEq β] [Float64 F] (c : Config β) (env : Env β F) (s : State β F) :
    State β F :=
  if s.queues.isEmpty then s else (dispatchAll c env s).1

end Viiwork.Route
