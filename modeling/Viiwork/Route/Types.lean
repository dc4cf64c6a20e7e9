import Mathlib

/-!
# Viiwork.Route.Types

The data of the router (`internal/route`): capacity reports, requests, leases,
and the state a pick reads and writes.

Reading notes:

* Times and durations are `Int` nanoseconds; a zero `Sent` is `none`.
* The scored choice computes in `float64`. Nothing in this development depends
  on what those operations return, so they are a class `Float64` without laws.
* Everything a mutex-protected section asks from outside (the local backends and
  their state, the members' reports, scores, clock readings, random draws, the
  iteration order of a Go map) is its `Env`. A section is one step, so the
  answers do not change within it; the clock and the draws do, pick by pick.
* A backend is a value of an arbitrary type `β`, for its pointer.
-/

namespace Viiwork.Route

/-- The `float64` operations the scored choice uses. -/
class Float64 (F : Type) where
  ofInt : Int → F
  /-- The constant `p / q`. -/
  ratio : Int → Int → F
  add : F → F → F
  sub : F → F → F
  mul : F → F → F
  div : F → F → F
  max : F → F → F
  min : F → F → F
  lt : F → F → Bool
  le : F → F → Bool
  isZero : F → Bool
  /-- The conversion `int(x)`. -/
  trunc : F → Int

/-- Exact arithmetic, to run the model on. -/
instance : Float64 ℚ where
  ofInt n := n
  ratio p q := p / q
  add x y := x + y
  sub x y := x - y
  mul x y := x * y
  div x y := x / y
  max x y := Max.max x y
  min x y := Min.min x y
  lt x y := decide (x < y)
  le x y := decide (x ≤ y)
  isZero x := decide (x = 0)
  trunc x := x.num.tdiv x.den

/-! ### Capacity reports -/

/-- One model's occupancy on one node: the fields the router reads. -/
structure ModelCapacity where
  name : String
  slots : Int
  busy : Int
  healthyBackends : Int
  ttftOverheadMs : Int := 0
  prefillMsPer1k : Int := 0
  images : Option Bool := none
  kvShareGroup : String := ""
  kvShareImportMsPer1k : Int := 0
  deriving Repr, DecidableEq

/-- One member's last accepted capacity report. -/
structure Report where
  node : String
  apiAddr : String
  received : Int
  sent : Option Int
  rtt : Int
  models : List ModelCapacity
  deriving Repr, DecidableEq

namespace Report

/-- The latest moment the report certainly reflects. -/
def asOf (r : Report) : Int := r.sent.getD r.received

def model (r : Report) (name : String) : Option ModelCapacity :=
  r.models.find? fun m => m.name == name

/-- Young enough to route by. -/
def fresh (r : Report) (now staleAfter : Int) : Bool := decide (now - r.received < staleAfter)

end Report

/-! ### Requests and leases -/

/-- What a host says about reading images with a model; `any` is no filter. -/
inductive ImageClass
  | any | yes | unknown | no
  deriving Repr, DecidableEq

structure Request (F : Type) where
  model : String
  host : String := ""
  prefer : List String := []
  exclude : List String := []
  forwarded : Bool := false
  queueBudget : Int := 0
  estK : F
  sessionKey : UInt64 := 0
  images : Bool := false
  imgWant : ImageClass := .any

/-- Why there is no lease. `panic` is an index out of range in the scored choice:
a band without members, which only a prediction that is not a number could
leave. -/
inductive PickErr
  | modelNotFound | hostNotServing | noFreeSlot | noImageInput | panic
  deriving Repr, DecidableEq

structure ResKey where
  node : String
  model : String
  deriving Repr, DecidableEq

/-- A forward in flight. The `id` stands for the pointer. -/
structure Reservation where
  id : Nat
  start : Int
  deriving Repr, DecidableEq

/-- What a lease took: a slot of a local backend, or a reservation on a peer. -/
inductive Took (β : Type)
  | backend (b : β)
  | peer (key : ResKey) (res : Reservation)
  deriving DecidableEq

/-- Where a lease runs its request. -/
structure Target where
  isLocal : Bool
  node : String
  backendID : String := ""
  addr : String
  deriving Repr, DecidableEq

/-- One slot taken for one request. The `id` stands for the pointer. -/
structure Lease (β : Type) where
  id : Nat
  target : Target
  took : Took β
  deriving DecidableEq

/-! ### State -/

/-- The slots given out: each backend's in-flight count and the forwards still in
flight to each peer. `nextId` is fresh. -/
structure Slots (β : Type) where
  inFlight : β → Int
  reservations : ResKey → List Reservation
  nextId : Nat

structure SessionRef where
  model : String
  key : UInt64
  deriving Repr, DecidableEq

/-- One remembered session. The `id` stands for the list element's pointer. -/
structure LastHost where
  id : Nat
  ref : SessionRef
  node : String
  deriving Repr, DecidableEq

/-- Where each session's last turn went: a map of references into a list of
elements, the most recent first. -/
structure LastHosts where
  byRef : SessionRef → Option Nat
  order : List LastHost
  nextId : Nat

/-- What a pick remembers besides slots. -/
structure Memo where
  localRR : String → Nat
  peerRR : String → Nat
  /-- A peer's last refusal of a model, until a newer report. -/
  refused : ResKey → Option Int
  lastHosts : LastHosts

structure Router (β : Type) where
  slots : Slots β
  memo : Memo

/-- `New`. -/
def Router.new {β : Type} : Router β :=
  { slots := { inFlight := fun _ => 0, reservations := fun _ => [], nextId := 0 }
    memo := { localRR := fun _ => 0, peerRR := fun _ => 0, refused := fun _ => none,
              lastHosts := { byRef := fun _ => none, order := [], nextId := 0 } } }

/-! ### The outside -/

structure Config (β : Type) where
  self : String
  staleAfter : Int
  queueMax : Int
  performance : Bool
  backendID : β → String

/-- The clock readings and random draws of one pick: one reading for each place
that reads the clock, and the draws in order. -/
structure Draw (F : Type) where
  imagesAt : Int
  preferAt : Int
  scoredAt : Int
  sessionAt : Int
  peerAt : Int
  rand : Nat → F

/-- Every clock reading of the pick. -/
def Draw.readings {F : Type} (d : Draw F) : List Int :=
  [d.imagesAt, d.preferAt, d.scoredAt, d.sessionAt, d.peerAt]

structure Env (β F : Type) where
  /-- The model's backends and whether it admits requests; `none` when this node
  does not configure it. -/
  backends : String → Option (List β × Bool)
  healthy : β → Bool
  /-- The engine's slot count or the validated `parallel`: never negative. -/
  slots : β → Nat
  addr : β → String
  reports : List Report
  localScore : String → Option (Int × Int)
  localImages : String → ImageClass
  localKVShare : String → Option (String × Int)
  /-- The draw of the section's n-th pick. -/
  draw : Nat → Draw F
  /-- The order of the n-th pass over the queues. -/
  order : Nat → List String

end Viiwork.Route
