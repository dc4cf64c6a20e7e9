import Viiwork.Route.Pick

/-!
# Viiwork.Route.Scored

The **scored choice** (`scored.go`): among the hosts with a free slot, this node
included, one by its predicted time to first token.

The source's fixed arrays of `maxScored` entries are lists with that bound, and
an index into them is the candidate itself. `none` for a candidate is the
source's index out of range.
-/

namespace Viiwork.Route

open Float64

variable {β F : Type}

def maxScored : Nat := 32

/-- `0.05`. -/
def trickleShare [Float64 F] : F := ratio 5 100

/-- `1.25`. -/
def stickyBand [Float64 F] : F := ratio 125 100

/-- A host with a free slot: this node when `rep` is `none`. -/
structure ScoredCand (F : Type) where
  rep : Option Report
  ov : F
  rate : F
  scored : Bool
  rttMs : F

def ScoredCand.name (self : String) (cand : ScoredCand F) : String :=
  match cand.rep with
  | none => self
  | some rep => rep.node

/-- The candidates, and the scores of every host serving the model: a full host's
counts toward the median. -/
structure ScoredScan (F : Type) where
  cands : List (ScoredCand F)
  pool : List (F × F)

/-- A negative overhead is no measurement. -/
def hasScore (mc : ModelCapacity) : Bool :=
  decide (0 < mc.prefillMsPer1k ∧ 0 ≤ mc.ttftOverheadMs)

def ScoredScan.note [Float64 F] (s : ScoredScan F) (rep : Report)
    (pf : Option (ModelCapacity × Int)) : ScoredScan F :=
  match pf with
  | none => s
  | some (mc, f) =>
    let ov : F := ofInt mc.ttftOverheadMs
    let rate : F := ofInt mc.prefillMsPer1k
    let pool := if hasScore mc ∧ s.pool.length < maxScored then s.pool ++ [(ov, rate)] else s.pool
    if f ≤ 0 ∨ s.cands.length = maxScored then { s with pool }
    else
      { pool
        cands := s.cands ++ [{ rep := some rep, ov, rate, scored := hasScore mc
                               rttMs := div (ofInt rep.rtt) (ofInt 1000000) }] }

/-- The scan's start: this node's score and, with a free slot, this node. -/
def ScoredScan.start [Float64 F] (c : Config β) (env : Env β F) (req : Request F)
    (backends : List β) (localEligible : Bool) (slots : Slots β) : ScoredScan F :=
  let own : Option (F × F) := (env.localScore req.model).map fun p => (ofInt p.1, ofInt p.2)
  let (ov, rate) := own.getD (ofInt 0, ofInt 0)
  { pool := own.toList
    cands :=
      if localEligible ∧ localHasFree c env req backends slots then
        [{ rep := none, ov, rate, scored := own.isSome, rttMs := ofInt 0 }]
      else [] }

/-! ### The choice among the candidates -/

/-- The candidates with their predictions; one without a score is priced at the
median. -/
def predict [Float64 F] (self : String) (estK : F) (w : Option (WarmPair F)) (medOv medRate : F)
    (cands : List (ScoredCand F)) : List (ScoredCand F × F) :=
  cands.map fun cand =>
    let ov := if cand.scored then cand.ov else medOv
    let rate := if cand.scored then cand.rate else medRate
    let cold := Float64.max (add (add ov (mul rate estK)) cand.rttMs) (ofInt 1)
    (cand, warmPred w (cand.name self) ov estK cand.rttMs cold)

/-- The best prediction. -/
def bestPred [Float64 F] : List (ScoredCand F × F) → F
  | [] => ofInt 0
  | (_, p) :: rest => rest.foldl (fun best q => if lt q.2 best then q.2 else best) p

/-- The session's host: the band member of the highest rendezvous score. -/
def bandSession [Float64 F] (self : String) (key : UInt64) (limit : F)
    (preds : List (ScoredCand F × F)) : Option (ScoredCand F) :=
  (preds.foldl (fun (acc : Option (ScoredCand F × UInt64)) q =>
    if lt limit q.2 then acc
    else
      let h := rendezvous key (q.1.name self)
      match acc with
      | none => some (q.1, h)
      | some (cand, top) => if top < h then some (q.1, h) else some (cand, top)) none).map Prod.fst

/-- Walks the weights with `x`; the last band member catches rounding at the top. -/
def drawWeighted [Float64 F] (x : F) (pick : Option (ScoredCand F)) :
    List (ScoredCand F × F) → Option (ScoredCand F)
  | [] => pick
  | (cand, w) :: rest =>
    if isZero w then drawWeighted x pick rest
    else if lt x w then some cand
    else drawWeighted (sub x w) (some cand) rest

/-- The draw with weight `1 / pred ^ 3` over the band. -/
def bandWeighted [Float64 F] (r limit : F) (preds : List (ScoredCand F × F)) :
    Option (ScoredCand F) :=
  let weights := preds.map fun q =>
    (q.1, if le q.2 limit then div (ofInt 1) (mul (mul q.2 q.2) q.2) else ofInt 0)
  let inBand := (preds.filter fun q => le q.2 limit).map fun q =>
    div (ofInt 1) (mul (mul q.2 q.2) q.2)
  drawWeighted (mul r (inBand.foldl add (ofInt 0))) none weights

/-- The choice within `stickyBand` of the best prediction: the session's host,
else this node, else a weighted draw. -/
def chooseBand [Float64 F] (self : String) (key : UInt64) (r : F)
    (preds : List (ScoredCand F × F)) : Option (ScoredCand F) :=
  let limit := mul (bestPred preds) stickyBand
  if key ≠ 0 then bandSession self key limit preds
  else match preds with
    | (cand, p) :: _ =>
      if cand.rep = none ∧ le p limit then some cand else bandWeighted r limit preds
    | [] => none

/-- A learning host, drawn evenly. -/
def chooseLearning [Float64 F] (r : F) (learning : List (ScoredCand F)) :
    Option (ScoredCand F) :=
  let i := Min.min (trunc (mul r (ofInt learning.length))) (learning.length - 1)
  if i < 0 then none else learning[i.toNat]?

/-- The host holds the session's state. -/
def holdsState (w : Option (WarmPair F)) (name : String) : Bool :=
  match w with
  | some w => name == w.last || name == w.replica
  | none => false

/-- Takes the trickle to a learning host when the first draw says so, but never
away from a host that holds the session's state. -/
def chooseScored [Float64 F] (c : Config β) (d : Draw F) (req : Request F)
    (w : Option (WarmPair F)) (s : ScoredScan F) : Option (ScoredCand F) := do
  let medOv ← median (s.pool.map Prod.fst)
  let medRate ← median (s.pool.map Prod.snd)
  let learning := s.cands.filter fun cand => !cand.scored
  let warmCand := s.cands.any fun cand => holdsState w (cand.name c.self)
  let preds := predict c.self req.estK w medOv medRate s.cands
  -- The first draw is made only when there is a host to trickle to.
  if learning ≠ [] ∧ warmCand = false then
    if lt (d.rand 0) trickleShare then chooseLearning (d.rand 1) learning
    else chooseBand c.self req.sessionKey (d.rand 1) preds
  else chooseBand c.self req.sessionKey (d.rand 0) preds

/-- `none` when no host serving the model has a score, so that the caller goes
on. -/
def pickScored [DecidableEq β] [Float64 F] (c : Config β) (env : Env β F) (d : Draw F)
    (req : Request F) (backends : List β) (localEligible : Bool) (reports : List Report)
    (rt : Router β) : Router β × Option (Except PickErr (Option (Lease β))) :=
  let start := ScoredScan.start c env req backends localEligible rt.slots
  let (memo, s) := scanPeers c req d.scoredAt rt.slots ScoredScan.note reports rt.memo start
  -- Without a score anywhere the request routes as if there were no scores.
  if s.pool = [] ∨ s.cands = [] then ({ rt with memo }, none)
  else
    let w := warm c env req (anyHealthy env backends) reports d.scoredAt memo
    match chooseScored c d req w s with
    | none => ({ rt with memo }, some (.error .panic))
    | some cand =>
      let (rt, l) := match cand.rep with
        | none => pickLocal c env req backends { rt with memo }
        | some rep => grant memo (peerLease rt.slots rep req.model d.scoredAt)
      (rt, some (.ok l))

end Viiwork.Route
