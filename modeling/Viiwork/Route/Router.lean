import Viiwork.Route.Scored

/-!
# Viiwork.Route.Router

The pick as a whole (`pickWithReportsLocked`): the checks of model, pin and image,
then the strategies in turn, and last the session's memory.
-/

namespace Viiwork.Route

variable {β F : Type}

/-! ### The checks -/

/-- The report is another node's and lists the model. -/
def listedBy (c : Config β) (req : Request F) (rep : Report) : Bool :=
  rep.node != c.self && (rep.model req.model).isSome

/-- A model nobody configures or reports, and a pin that does not serve it. The pin
is compared against known names only. -/
def checkServed (c : Config β) (req : Request F) (localOK : Bool) (reports : List Report) :
    Except PickErr Unit :=
  if localOK = false ∧ reports.any (listedBy c req) = false then .error .modelNotFound
  else if req.host = "" then .ok ()
  else if req.host = c.self then if localOK then .ok () else .error .hostNotServing
  else if reports.any (fun rep => listedBy c req rep && rep.node == req.host) then .ok ()
  else .error .hostNotServing

/-- What the checks leave of a request: the request with its image class, this
node's backends, and whether it may use them. -/
structure Admitted (β F : Type) where
  req : Request F
  backends : List β
  localElig : Bool

def checkRequest (c : Config β) (env : Env β F) (d : Draw F) (req : Request F)
    (reports : List Report) : Except PickErr (Admitted β F) := do
  let (backends, admitting) := (env.backends req.model).getD ([], false)
  let localOK := (env.backends req.model).isSome
  checkServed c req localOK reports
  let localElig := localOK && admitting
  -- A forward ignores the image: the origin chose this node.
  if req.images ∧ req.forwarded = false then
    let want ← imageClass c env req (localOK && anyHealthy env backends) reports d.imagesAt
    return { req := { req with imgWant := want }, backends
             localElig := localElig && env.localImages req.model == want }
  else return { req, backends, localElig }

/-! ### The strategies -/

/-- Tries `pick` when `on`; without a lease, goes on. -/
def tryPick (on : Bool) (pick : Router β → Router β × Option (Lease β))
    (next : Router β → Router β × Except PickErr (Lease β)) (rt : Router β) :
    Router β × Except PickErr (Lease β) :=
  if on then
    match pick rt with
    | (rt, some l) => (rt, .ok l)
    | (rt, none) => next rt
  else next rt

/-- This node first, then the peer of most free slots. -/
def pickLocalFirst [DecidableEq β] (c : Config β) (env : Env β F) (d : Draw F)
    (a : Admitted β F) (reports : List Report) :
    Router β → Router β × Except PickErr (Lease β) :=
  tryPick (a.localElig && (a.req.host == "" || a.req.host == c.self))
    (pickLocal c env a.req a.backends)
    (tryPick (!a.req.forwarded && a.req.host != c.self)
      (pickPeer c d a.req reports)
      fun rt => (rt, .error .noFreeSlot))

/-- The scored choice, and without any score the session's host. -/
def pickPerformance [DecidableEq β] [Float64 F] (c : Config β) (env : Env β F) (d : Draw F)
    (a : Admitted β F) (reports : List Report) (rt : Router β) :
    Router β × Except PickErr (Lease β) :=
  if c.performance ∧ a.req.forwarded = false ∧ a.req.host = "" then
    match pickScored c env d a.req a.backends a.localElig reports rt with
    | (rt, some (.ok (some l))) => (rt, .ok l)
    | (rt, some (.ok none)) => (rt, .error .noFreeSlot)
    | (rt, some (.error e)) => (rt, .error e)
    | (rt, none) =>
      tryPick (a.req.sessionKey != 0)
        (pickSession c env d a.req a.backends a.localElig reports)
        (pickLocalFirst c env d a reports) rt
  else pickLocalFirst c env d a reports rt

def pickWithReports [DecidableEq β] [Float64 F] (c : Config β) (env : Env β F) (d : Draw F)
    (req : Request F) (reports : List Report) (rt : Router β) :
    Router β × Except PickErr (Lease β) :=
  match checkRequest c env d req reports with
  | .error e => (rt, .error e)
  | .ok a =>
    let (rt, res) := tryPick (a.req.prefer != [] && !a.req.forwarded && a.req.host == "")
      (pickPreferred c env d a.req a.backends a.localElig reports a.req.prefer)
      (pickPerformance c env d a reports) rt
    ({ rt with memo := noteSession c env a.req res.toOption reports rt.memo }, res)

/-- `pickLocked`: a forwarded request sees no report. -/
def pick [DecidableEq β] [Float64 F] (c : Config β) (env : Env β F) (d : Draw F)
    (req : Request F) (rt : Router β) : Router β × Except PickErr (Lease β) :=
  pickWithReports c env d req (if req.forwarded then [] else env.reports) rt

end Viiwork.Route
