import Viiwork.Proxy.Execute
import Viiwork.Route.Occupancy

/-!
# Viiwork.Proxy.Dispatch

The dispatch of a request over the router (`dispatch`, `attempt` and `writeAcquireError` of
`handler.go`): a first acquisition that may queue, retries on other routes, and a final
acquisition that may queue for what is left of the request's queue budget.

A dispatch is a log of what it does, in order. What it meets is arbitrary: the first `Acquire`
answers anything, and so does each pass of the loop meet anything (`Turn`): an attempt that is
served, refused, given up, cut short or left by its client, or that panics, before or after it
wrote; a router in any state where a retry picks; and any answer of the final `Acquire`.

Left out are the dashboard's events, the counters and the hooks after a served request.
-/

namespace Viiwork.Route

variable {β F : Type}

/-! ### A pick with exclusions -/

/-- `Key`: identifies a route for retry exclusions. -/
def Target.key (t : Target) : String :=
  if t.isLocal then "local:" ++ t.backendID else "peer:" ++ t.node

variable [DecidableEq β] {c : Config β} {env : Env β F} {d : Draw F} {req : Request F}

theorem Takes.key_not_mem {backends : List β} {reports : List Report} {slots slots' : Slots β}
    {l : Lease β} (h : Takes c env d req backends reports slots slots' l) :
    l.target.key ∉ req.exclude := by
  cases h with
  | backend b hopen =>
    have husable := hopen.usable
    unfold usable at husable
    intro hmem
    rw [Bool.and_eq_true, Bool.not_eq_true'] at husable
    exact Bool.eq_false_iff.1 husable.2 (List.contains_iff_mem.2 hmem)
  | peer rep mc now hrep hnow hopen =>
    intro hmem
    exact Bool.eq_false_iff.1 hopen.notTried (List.contains_iff_mem.2 hmem)

/-- A pick returns no route that the request excludes. -/
theorem key_not_mem_of_pick [Float64 F] {rt : Router β} {l : Lease β}
    (h : (pick c env d req rt).2 = .ok l) : l.target.key ∉ req.exclude := by
  unfold pick at h
  rcases pickWithReports_cases c env d (if req.forwarded then [] else env.reports) req rt with
    ⟨e, herr, -⟩ | ⟨l', a, hok, hcheck, htakes⟩
  · rw [herr] at h
    cases h
  · rw [hok] at h
    cases h
    have hkey := htakes.key_not_mem
    rw [(checkRequest_ok hcheck).1] at hkey
    exact hkey

end Viiwork.Route

namespace Viiwork.Proxy

open Viiwork.Route

variable {β F : Type}

/-! ### The log -/

/-- The message of an error response. -/
inductive Message
  | modelNotServedHere (model : String)
  | modelNotFound (model : String)
  | hostNotServing (model host : String)
  | noImagesOnHost (model host : String)
  | noImages (model : String)
  | noFreeSlot
  | queueFull (model : String)
  | queueTimeout (model : String) (after : Int)
  | backendFailed
  | noCapacity (model : String)
  | noRoute
  deriving Repr, DecidableEq

inductive Event (β : Type)
  /-- `Acquire` has returned, after queueing for so long. -/
  | waited (d : Int)
  /-- `Acquire` gave the lease, in the final acquisition or the first. -/
  | acquired (final : Bool) (l : Lease β)
  /-- The `Pick` for a retry gave the lease. -/
  | picked (l : Lease β)
  /-- A response header is set; it goes out with the status. -/
  | header (name value : String)
  | attempt (t : Target)
  | wrote (w : Write)
  /-- `Refused` is called on the lease. -/
  | refused (l : Lease β)
  /-- `Release` is called on the lease. -/
  | released (l : Lease β)
  /-- The attempt returns. -/
  | ended (res : ExecResult)
  | panicked
  /-- An error response of the handler's own. -/
  | answer (status : Nat) (type : String) (msg : Message)
  deriving DecidableEq

abbrev Log (β : Type) := List (Event β)

namespace Event

/-- The route of an attempt that begins. -/
def attempt? : Event β → Option Target
  | attempt t => some t
  | _ => none

def waited? : Event β → Option Int
  | waited d => some d
  | _ => none

/-- The lease that is taken, by an `Acquire` or a `Pick`. -/
def lease? : Event β → Option (Lease β)
  | acquired _ l => some l
  | picked l => some l
  | _ => none

def ended? : Event β → Option ExecResult
  | ended res => some res
  | _ => none

def answer? : Event β → Option Nat
  | answer status _ _ => some status
  | _ => none

/-- What becomes of leases: `true` for one that is taken, `false` for one that is released. -/
def entry? : Event β → Option (Bool × Lease β)
  | acquired _ l => some (true, l)
  | picked l => some (true, l)
  | released l => some (false, l)
  | _ => none

/-- An attempt's write to the client. -/
def isWrite : Event β → Bool
  | wrote _ => true
  | _ => false

def isFinal : Event β → Bool
  | acquired true _ => true
  | _ => false

end Event

namespace Log

def attempts (log : Log β) : List Target := log.filterMap Event.attempt?

def waits (log : Log β) : List Int := log.filterMap Event.waited?

def leases (log : Log β) : List (Lease β) := log.filterMap Event.lease?

def results (log : Log β) : List ExecResult := log.filterMap Event.ended?

def answers (log : Log β) : List Nat := log.filterMap Event.answer?

def ledger (log : Log β) : List (Bool × Lease β) := log.filterMap Event.entry?

/-- The log from the final acquisition on. -/
def fromFinal (log : Log β) : Log β := log.dropWhile fun e => !e.isFinal

end Log

/-! ### One attempt -/

structure Handler (β : Type) where
  router : Config β
  /-- `routing.forward_retry`, which the configuration refuses below zero. -/
  forwardRetry : Nat
  queueTimeout : Int

/-- The request that is dispatched. -/
structure Call (F : Type) where
  model : String
  host : String := ""
  prefer : List String := []
  /-- The alias the client asked for, when one was resolved. -/
  byAlias : String := ""
  forwarded : Bool := false
  estK : F
  session : UInt64 := 0
  images : Bool := false
  thinkDisabled : Bool := false
  /-- The client's writer is an `http.Flusher`. -/
  flusher : Bool := true

/-- What an attempt meets: the other side, and a panic after some of the writes. -/
structure Exchange where
  upstream : Upstream
  panicAfter : Option Nat := none

/-- How an attempt ends: with a result, or in a panic. -/
abbrev Ending := Option ExecResult

def execute (d : Call F) (t : Target) (u : Upstream) : List Write × ExecResult :=
  if t.isLocal then serveLocal d.flusher d.thinkDisabled u else forwardToPeer d.flusher u

/-- `attempt`: the lease is released on every path out, and a panic goes on after that. -/
def attempt (d : Call F) (l : Lease β) (x : Exchange) : Log β × Ending :=
  let (writes, res) := execute d l.target x.upstream
  match x.panicAfter with
  | some n => (.attempt l.target :: (writes.take n).map .wrote ++ [.released l, .panicked], none)
  | none =>
    let refused := if l.target.isLocal = false ∧ res.outcome = .retryable then [.refused l] else []
    (.attempt l.target :: writes.map .wrote ++ refused ++ [.released l, .ended res], some res)

/-! ### The answers -/

def errTypeInvalidRequest : String := "invalid_request"
def errTypeNotFound : String := "not_found"
def errTypeServer : String := "server_error"
def errTypeRateLimit : String := "rate_limit"
def errTypeUnavailable : String := "unavailable"

def queueRetryAfter : String := "2"

/-- The errors of `Acquire`. -/
inductive AcquireErr
  /-- The client's context ended. -/
  | ctx
  | pick (e : PickErr)
  | queueFull
  | queueTimeout
  deriving Repr, DecidableEq

def writeAcquireError (h : Handler β) (d : Call F) : AcquireErr → Log β
  | .ctx => []
  | .pick .modelNotFound => [.answer 404 errTypeNotFound (.modelNotFound d.model)]
  | .pick .hostNotServing => [.answer 404 errTypeNotFound (.hostNotServing d.model d.host)]
  | .pick .noImageInput =>
    if d.host ≠ "" then [.answer 400 errTypeInvalidRequest (.noImagesOnHost d.model d.host)]
    else [.answer 400 errTypeInvalidRequest (.noImages d.model)]
  | .pick .noFreeSlot => [.answer 429 errTypeRateLimit .noFreeSlot]
  | .queueFull =>
    [.header "Retry-After" queueRetryAfter, .answer 429 errTypeRateLimit (.queueFull d.model)]
  | .queueTimeout =>
    [.header "Retry-After" queueRetryAfter,
     .answer 429 errTypeRateLimit (.queueTimeout d.model h.queueTimeout)]
  -- No error of `Acquire` but the index out of range of a pick.
  | .pick .panic => [.panicked]

/-- The first acquisition failed. A forward to a model this node dropped is refused, so that the
origin retries elsewhere. -/
def writeFirstError (h : Handler β) (d : Call F) (e : AcquireErr) : Log β :=
  if d.forwarded ∧ e = .pick .modelNotFound then
    [.header "Retry-After" "1", .answer 503 errTypeUnavailable (.modelNotServedHere d.model)]
  else writeAcquireError h d e

/-- The attempt after the final acquisition was not served either. -/
def writeExhausted (d : Call F) (allRefusal : Bool) : Log β :=
  if allRefusal then
    [.header "Retry-After" queueRetryAfter, .answer 503 errTypeUnavailable (.noCapacity d.model)]
  else [.answer 502 errTypeServer .noRoute]

/-! ### The loop -/

/-- The variables of the loop. -/
structure Vars (β : Type) where
  lease : Lease β
  queued : Int
  tried : List String := []
  retries : Nat := 0
  final : Bool := false
  allRefusal : Bool := true

/-- What `Acquire` answers to a request: how long it queued, and a lease or an error. -/
abbrev Acquire (β F : Type) := Request F → Int × Except AcquireErr (Lease β)

/-- What one pass of the loop meets. -/
structure Turn (β F : Type) where
  exchange : Exchange
  /-- The router and its surroundings where a retry picks. -/
  router : Router β
  env : Env β F
  draw : Draw F
  /-- The final acquisition. -/
  acquire : Acquire β F

/-- The request that the router is asked for. -/
def Call.request (d : Call F) : Request F :=
  { model := d.model, host := d.host, prefer := d.prefer, estK := d.estK
    sessionKey := d.session, images := d.images }

/-- The headers that are set before an attempt. -/
def headers (d : Call F) (queued : Int) : Log β :=
  (if 0 < queued then [.header "X-Viiwork-Queued-Ms" (toString (queued / 1000000))] else []) ++
  (if d.byAlias ≠ "" then [.header "X-Viiwork-Alias" d.byAlias] else [])

/-- What is left of the queue budget; nothing left is "do not queue". -/
def budget (h : Handler β) (queued : Int) : Int :=
  if h.queueTimeout - queued ≤ 0 then -1 else h.queueTimeout - queued

/-- The final acquisition may queue, but only for what is left of the request's queue budget. -/
def acquireFinal (h : Handler β) (d : Call F) (v : Vars β) (acquire : Acquire β F) :
    Log β × Option (Vars β) :=
  match acquire { d.request with queueBudget := budget h v.queued } with
  | (waited, .error e) => (.waited waited :: writeAcquireError h d e, none)
  | (waited, .ok l) =>
    ([.waited waited, .acquired true l],
     some { v with lease := l, queued := v.queued + waited, final := true })

/-- Where to go after an attempt that was not served: another route, or the final acquisition. -/
def goOn [DecidableEq β] [Float64 F] (h : Handler β) (d : Call F) (v : Vars β) (t : Turn β F) :
    Log β × Option (Vars β) :=
  if v.retries < h.forwardRetry then
    let v := { v with retries := v.retries + 1 }
    match (pick h.router t.env t.draw { d.request with exclude := v.tried } t.router).2 with
    | .ok next => ([.picked next], some { v with lease := next })
    | .error .panic => ([.panicked], none)
    | .error _ => acquireFinal h d v t.acquire
  else acquireFinal h d v t.acquire

/-- What follows an attempt. -/
def follow [DecidableEq β] [Float64 F] (h : Handler β) (d : Call F) (v : Vars β) (t : Turn β F) :
    Ending → Log β × Option (Vars β)
  | none => ([], none)
  | some res =>
    if res.outcome = .served then
      -- A clean end would make a partial body look complete.
      (if res.truncated then [.panicked] else [], none)
    else
      let v := { v with allRefusal := v.allRefusal && res.refusal }
      if d.forwarded then ([.answer 503 errTypeUnavailable .backendFailed], none)
      else if v.final then (writeExhausted d v.allRefusal, none)
      else goOn h d { v with tried := v.lease.target.key :: v.tried } t

/-- One pass of the loop: what it does, and the variables if there is another. -/
def pass [DecidableEq β] [Float64 F] (h : Handler β) (d : Call F) (v : Vars β) (t : Turn β F) :
    Log β × Option (Vars β) :=
  let (tries, ending) := attempt d v.lease t.exchange
  let (rest, next) := follow h d v t ending
  (headers d v.queued ++ tries ++ rest, next)

/-- A dispatch: what it has done, and the variables of the loop while it goes on. -/
structure Dispatch (β : Type) where
  log : Log β
  vars : Option (Vars β)

/-- The first acquisition. -/
def start (h : Handler β) (d : Call F) (acquire : Acquire β F) : Dispatch β :=
  match acquire { d.request with forwarded := d.forwarded } with
  | (waited, .error e) => ⟨.waited waited :: writeFirstError h d e, none⟩
  | (waited, .ok l) => ⟨[.waited waited, .acquired false l], some { lease := l, queued := waited }⟩

def Dispatch.step [DecidableEq β] [Float64 F] (h : Handler β) (d : Call F) (s : Dispatch β)
    (t : Turn β F) : Dispatch β :=
  match s.vars with
  | none => s
  | some v => ⟨s.log ++ (pass h d v t).1, (pass h d v t).2⟩

/-- The dispatch after so many passes at most. -/
def passes [DecidableEq β] [Float64 F] (h : Handler β) (d : Call F) (first : Acquire β F)
    (turns : Nat → Turn β F) : Nat → Dispatch β
  | 0 => start h d first
  | n + 1 => (passes h d first turns n).step h d (turns n)

/-- The whole dispatch: after these passes it is over, whatever it meets. -/
def dispatch [DecidableEq β] [Float64 F] (h : Handler β) (d : Call F) (first : Acquire β F)
    (turns : Nat → Turn β F) : Dispatch β :=
  passes h d first turns (h.forwardRetry + 2)

end Viiwork.Proxy
