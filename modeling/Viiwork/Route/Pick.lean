import Viiwork.Route.Warm

/-!
# Viiwork.Route.Pick

The pick (`router.go`, `scored.go`, `images.go`): which slot a request takes, or
why there is none.

A scan over hosts reads the slots and may touch only the memory; a slot is taken
in two places, `takeBackend` and `peerLease`. The scans therefore thread a
`Memo`, and the `Slots` change at most once in a pick.
-/

namespace Viiwork.Route

open Float64

variable {β F : Type}

/-! ### Images -/

/-- The published answer: absent is "cannot say", never "no". -/
def classOf : Option Bool → ImageClass
  | none => .unknown
  | some true => .yes
  | some false => .no

def anyHealthy (env : Env β F) (backends : List β) : Bool := backends.any env.healthy

/-- What the hosts that may answer say: this node with a healthy backend, and
every fresh report that lists the model with one; the pinned host alone, with a
pin. -/
def imageAnswers (c : Config β) (env : Env β F) (req : Request F) (localHealthy : Bool)
    (reports : List Report) (now : Int) : List ImageClass :=
  (if localHealthy ∧ (req.host = "" ∨ req.host = c.self) then [env.localImages req.model]
    else []) ++
  (if req.host = c.self then []
    else reports.filterMap fun rep =>
      if rep.node = c.self ∨ (req.host ≠ "" ∧ rep.node ≠ req.host) ∨
          rep.fresh now c.staleAfter = false then none
      else match rep.model req.model with
        | some mc => if 0 < mc.healthyBackends then some (classOf mc.images) else none
        | none => none)

/-- The class of hosts a request with an image may use. -/
def imageClass (c : Config β) (env : Env β F) (req : Request F) (localHealthy : Bool)
    (reports : List Report) (now : Int) : Except PickErr ImageClass :=
  let answers := imageAnswers c env req localHealthy reports now
  if .yes ∈ answers then .ok .yes
  else if .unknown ∈ answers ∨ answers = [] then .ok .unknown
  else .error .noImageInput

/-! ### Local backends -/

/-- A backend's free slots. -/
def free (env : Env β F) (slots : Slots β) (b : β) : Int := env.slots b - slots.inFlight b

/-- The request may use the backend: it is healthy and not already tried. -/
def usable (c : Config β) (env : Env β F) (req : Request F) (b : β) : Bool :=
  env.healthy b && !req.exclude.contains ("local:" ++ c.backendID b)

def localHasFree (c : Config β) (env : Env β F) (req : Request F) (backends : List β)
    (slots : Slots β) : Bool :=
  backends.any fun b => usable c env req b && decide (0 < free env slots b)

/-- `b.Acquire()`, and the lease on it. -/
def takeBackend [DecidableEq β] (c : Config β) (env : Env β F) (slots : Slots β) (b : β) :
    Slots β × Lease β :=
  ({ slots with
      inFlight := Function.update slots.inFlight b (slots.inFlight b + 1)
      nextId := slots.nextId + 1 },
   { id := slots.nextId
     target := { isLocal := true, node := c.self, backendID := c.backendID b, addr := env.addr b }
     took := .backend b })

/-- The router after a pick that took a slot. -/
def grant (memo : Memo) (taken : Slots β × Lease β) : Router β × Option (Lease β) :=
  ({ slots := taken.1, memo }, some taken.2)

/-- The scan of `pickLocal`: the most-free backends, and the session's backend
with its score. -/
structure LocalScan (β : Type) where
  best : Int := 0
  tied : List β := []
  home : Option (β × UInt64) := none

namespace LocalScan

/-- The session's backend is the one of the highest score. -/
def noteHome (key : UInt64) (h : UInt64) (b : β) (home : Option (β × UInt64)) :
    Option (β × UInt64) :=
  if key = 0 then home
  else match home with
    | none => some (b, h)
    | some (b', top) => if top < h then some (b, h) else some (b', top)

def note (c : Config β) (env : Env β F) (req : Request F) (slots : Slots β)
    (s : LocalScan β) (b : β) : LocalScan β :=
  if usable c env req b = false ∨ free env slots b ≤ 0 then s
  else
    -- A session keeps its backend while that has a free slot, however few.
    let home := noteHome req.sessionKey (rendezvous req.sessionKey (c.backendID b)) b s.home
    if free env slots b < s.best then { s with home }
    else if s.best < free env slots b then { best := free env slots b, tied := [b], home }
    else { s with tied := s.tied ++ [b], home }

end LocalScan

/-- The backend a local pick uses: the session's, else the next of the most free. -/
def chooseLocal (c : Config β) (env : Env β F) (req : Request F) (backends : List β)
    (rt : Router β) : Memo × Option β :=
  let s := backends.foldl (LocalScan.note c env req rt.slots) {}
  if s.tied = [] then (rt.memo, none)
  else match s.home with
    | some (b, _) => (rt.memo, some b)
    | none =>
      let n := rt.memo.localRR req.model
      ({ rt.memo with localRR := Function.update rt.memo.localRR req.model (n + 1) },
       s.tied[n % s.tied.length]?)

def pickLocal [DecidableEq β] (c : Config β) (env : Env β F) (req : Request F)
    (backends : List β) (rt : Router β) : Router β × Option (Lease β) :=
  match chooseLocal c env req backends rt with
  | (memo, none) => ({ rt with memo }, none)
  | (memo, some b) => grant memo (takeBackend c env rt.slots b)

/-! ### Peers -/

/-- This router's forwards to the peer still in flight that started after
`asOf`. -/
def reserved (slots : Slots β) (key : ResKey) (asOf : Int) : Nat :=
  (slots.reservations key).countP fun res => decide (asOf < res.start)

/-- Reserves one slot on the peer for the model. -/
def peerLease (slots : Slots β) (rep : Report) (model : String) (now : Int) :
    Slots β × Lease β :=
  let key : ResKey := ⟨rep.node, model⟩
  let res : Reservation := ⟨slots.nextId, now⟩
  ({ slots with
      reservations := Function.update slots.reservations key (slots.reservations key ++ [res])
      nextId := slots.nextId + 1 },
   { id := slots.nextId
     target := { isLocal := false, node := rep.node, addr := rep.apiAddr }
     took := .peer key res })

/-- **The one rule for a peer.** `none` when the peer does not serve the model by
a fresh report, else its entry and its free slots for this request. A report as
of a later moment than a refusal clears its mark. -/
def peerFree (c : Config β) (req : Request F) (rep : Report) (now : Int) (slots : Slots β)
    (memo : Memo) : Memo × Option (ModelCapacity × Int) :=
  if rep.node = c.self ∨ rep.fresh now c.staleAfter = false then (memo, none)
  else match rep.model req.model with
  | none => (memo, none)
  | some mc =>
    if mc.healthyBackends ≤ 0 then (memo, none)
    else if (req.host ≠ "" ∧ rep.node ≠ req.host) ∨
        req.exclude.contains ("peer:" ++ rep.node) then (memo, some (mc, 0))
    else if req.imgWant ≠ .any ∧ classOf mc.images ≠ req.imgWant then (memo, some (mc, 0))
    else
      let key : ResKey := ⟨rep.node, req.model⟩
      let f := mc.slots - mc.busy - reserved slots key rep.asOf
      match memo.refused key with
      | none => (memo, some (mc, f))
      | some at_ =>
        -- A report received after the refusal may have been built before it.
        if rep.asOf ≤ at_ then (memo, some (mc, 0))
        else ({ memo with refused := Function.update memo.refused key none }, some (mc, f))

/-- The free slots alone: none on a peer that does not serve the model. -/
def freeOf : Option (ModelCapacity × Int) → Int
  | none => 0
  | some (_, f) => f

/-- The scan of `pickPeer`: the reports of most free slots and lowest round trip. -/
structure PeerScan where
  best : Int := 0
  bestRTT : Int := 0
  tied : List Report := []

def PeerScan.note (s : PeerScan) (rep : Report) (f : Int) : PeerScan :=
  if f ≤ 0 ∨ f < s.best then s
  else if s.best < f ∨ rep.rtt < s.bestRTT then { best := f, bestRTT := rep.rtt, tied := [rep] }
  else if rep.rtt = s.bestRTT then { s with tied := s.tied ++ [rep] }
  else s

/-- Asks every report's peer in order, for what `note` keeps of the answers. -/
def scanPeers {σ : Type} (c : Config β) (req : Request F) (now : Int) (slots : Slots β)
    (note : σ → Report → Option (ModelCapacity × Int) → σ) (reports : List Report)
    (memo : Memo) (s : σ) : Memo × σ :=
  reports.foldl (fun (memo, s) rep =>
    let (memo, pf) := peerFree c req rep now slots memo
    (memo, note s rep pf)) (memo, s)

def pickPeer (c : Config β) (d : Draw F) (req : Request F) (reports : List Report)
    (rt : Router β) : Router β × Option (Lease β) :=
  let (memo, s) := scanPeers c req d.peerAt rt.slots (fun s rep pf => s.note rep (freeOf pf))
    reports rt.memo ({} : PeerScan)
  if s.tied = [] then ({ rt with memo }, none)
  else
    let n := memo.peerRR req.model
    let memo := { memo with peerRR := Function.update memo.peerRR req.model (n + 1) }
    match s.tied[n % s.tied.length]? with
    | none => ({ rt with memo }, none)
    | some rep => grant memo (peerLease rt.slots rep req.model d.peerAt)

/-- A slot on the first host of the list that has one, this node included when it
is named. -/
def pickPreferred [DecidableEq β] (c : Config β) (env : Env β F) (d : Draw F) (req : Request F)
    (backends : List β) (localEligible : Bool) (reports : List Report) :
    List String → Router β → Router β × Option (Lease β)
  | [], rt => (rt, none)
  | name :: names, rt =>
    if name = c.self then
      if localEligible then
        match pickLocal c env req backends rt with
        | (rt, some l) => (rt, some l)
        | (rt, none) => pickPreferred c env d req backends localEligible reports names rt
      else pickPreferred c env d req backends localEligible reports names rt
    -- A name nobody reports is passed over: a preference never fails a request.
    else match reports.find? fun rep => rep.node == name with
    | none => pickPreferred c env d req backends localEligible reports names rt
    | some rep =>
      let (memo, pf) := peerFree c req rep d.preferAt rt.slots rt.memo
      if 0 < freeOf pf then grant memo (peerLease rt.slots rep req.model d.preferAt)
      else pickPreferred c env d req backends localEligible reports names { rt with memo }

/-! ### A session before any score -/

/-- The hosts known to hold the session's state, the last one first. -/
def warmHosts : Option (WarmPair F) → List String
  | some w => [w.last, w.replica]
  | none => []

/-- A slot on the first of the warm hosts that has one; `none` when the caller goes
on. -/
def pickWarm [DecidableEq β] (c : Config β) (env : Env β F) (d : Draw F) (req : Request F)
    (backends : List β) (localEligible : Bool) (reports : List Report) :
    List String → Router β → Router β × Option (Option (Lease β))
  | [], rt => (rt, none)
  | name :: names, rt =>
    if name = "" then pickWarm c env d req backends localEligible reports names rt
    else if name = c.self then
      if localEligible ∧ localHasFree c env req backends rt.slots then
        let (rt, l) := pickLocal c env req backends rt
        (rt, some l)
      else pickWarm c env d req backends localEligible reports names rt
    else match reports.find? fun rep => rep.node == name with
    | none => pickWarm c env d req backends localEligible reports names rt
    | some rep =>
      let (memo, pf) := peerFree c req rep d.sessionAt rt.slots rt.memo
      if 0 < freeOf pf then
        let (rt, l) := grant memo (peerLease rt.slots rep req.model d.sessionAt)
        (rt, some l)
      else pickWarm c env d req backends localEligible reports names { rt with memo }

/-- The scan of `pickSession`: the host of the highest score so far. -/
structure SessionScan where
  isLocal : Bool
  pick : Option Report
  top : UInt64

def SessionScan.start (c : Config β) (env : Env β F) (req : Request F) (backends : List β)
    (localEligible : Bool) (slots : Slots β) : SessionScan :=
  if localEligible ∧ localHasFree c env req backends slots then
    { isLocal := true, pick := none, top := rendezvous req.sessionKey c.self }
  else { isLocal := false, pick := none, top := 0 }

def SessionScan.note (key : UInt64) (s : SessionScan) (rep : Report) (f : Int) : SessionScan :=
  if f ≤ 0 then s
  else if (s.isLocal = false ∧ s.pick = none) ∨ s.top < rendezvous key rep.node then
    { isLocal := false, pick := some rep, top := rendezvous key rep.node }
  else s

def pickSession [DecidableEq β] [Float64 F] (c : Config β) (env : Env β F) (d : Draw F)
    (req : Request F) (backends : List β) (localEligible : Bool) (reports : List Report)
    (rt : Router β) : Router β × Option (Lease β) :=
  let w := warm c env req (anyHealthy env backends) reports d.sessionAt rt.memo
  match pickWarm c env d req backends localEligible reports (warmHosts w) rt with
  | (rt, some l) => (rt, l)
  | (rt, none) =>
    -- The argmax starts from this node when it has room.
    let start := SessionScan.start c env req backends localEligible rt.slots
    let (memo, s) := scanPeers c req d.sessionAt rt.slots
      (fun s rep pf => s.note req.sessionKey rep (freeOf pf)) reports rt.memo start
    if s.isLocal then pickLocal c env req backends { rt with memo }
    else match s.pick with
      | some rep => grant memo (peerLease rt.slots rep req.model d.sessionAt)
      | none => ({ rt with memo }, none)

end Viiwork.Route
