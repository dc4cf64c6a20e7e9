import Viiwork.Route.Types

/-!
# Viiwork.Route.Warm

Sessions: the **rendezvous** ranking of hosts (`scored.go`), the bounded memory
of where each session's last turn went, and the **warm pair** derived from it,
the hosts that hold a session's state (`warm.go`).

The members of a `kv_share` group are a Go map; here they are an association
list. Its iteration order reaches the result only through a sort by rank and
through the median of the members' costs, neither of which depends on it.
-/

namespace Viiwork.Route

open Float64

variable {β F : Type}

/-! ### Rendezvous -/

/-- FNV-1a over the name, seeded by the key, then the splitmix64 finaliser. -/
def rendezvous (key : UInt64) (node : String) : UInt64 :=
  let h := node.toUTF8.toList.foldl (fun h b => (h ^^^ b.toUInt64) * 1099511628211)
    (14695981039346656037 ^^^ key)
  let h := (h ^^^ (h >>> 30)) * 0xbf58476d1ce4e5b9
  let h := (h ^^^ (h >>> 27)) * 0x94d049bb133111eb
  h ^^^ (h >>> 31)

/-- `a` ranks no lower than `b` for the session. -/
def RanksBefore (key : UInt64) (a b : String) : Prop :=
  rendezvous key b < rendezvous key a ∨ (rendezvous key b = rendezvous key a ∧ a ≤ b)

instance (key : UInt64) : DecidableRel (RanksBefore key) := fun _ _ =>
  inferInstanceAs (Decidable (_ ∨ _ ∧ _))

/-- `SessionRank`: the names for a session, best first. -/
def sessionRank (key : UInt64) (names : List String) : List String :=
  names.insertionSort (RanksBefore key)

/-! ### The median -/

/-- Moves `x` down past every larger value; the list is the sorted part, largest
first. -/
def sinkDown [Float64 F] (x : F) : List F → List F
  | [] => [x]
  | y :: ys => if lt x y then y :: sinkDown x ys else x :: y :: ys

def median [Float64 F] (xs : List F) : Option F :=
  (xs.foldl (fun sorted x => sinkDown x sorted) []).reverse[xs.length / 2]?

/-! ### The session memory -/

def sessionMemory : Nat := 4096

namespace LastHosts

def get (l : LastHosts) (ref : SessionRef) : Option String := do
  let id ← l.byRef ref
  let e ← l.order.find? fun e => e.id == id
  return e.node

/-- Drops the least recent element once the list is over its bound. -/
def evict (l : LastHosts) : LastHosts :=
  if sessionMemory < l.order.length then
    match l.order.getLast? with
    | some old =>
      { l with order := l.order.dropLast, byRef := Function.update l.byRef old.ref none }
    | none => l
  else l

def set (l : LastHosts) (ref : SessionRef) (node : String) : LastHosts :=
  match l.byRef ref with
  | some id =>
    match l.order.find? fun e => e.id == id with
    -- The element is updated in place and moved to the front.
    | some e => { l with order := { e with node } :: l.order.filter fun e => e.id != id }
    | none => l
  | none =>
    evict { byRef := Function.update l.byRef ref (some l.nextId)
            order := { id := l.nextId, ref, node } :: l.order
            nextId := l.nextId + 1 }

end LastHosts

/-- Some host, this one included, publishes a `kv_share` group for the model. -/
def shared (env : Env β F) (model : String) (reports : List Report) : Bool :=
  (match env.localKVShare model with
    | some (g, _) => g != ""
    | none => false) ||
  reports.any fun rep =>
    match rep.model model with
    | some mc => mc.kvShareGroup != ""
    | none => false

def noteSession (c : Config β) (env : Env β F) (req : Request F) (lease : Option (Lease β))
    (reports : List Report) (memo : Memo) : Memo :=
  match lease with
  | none => memo
  | some l =>
    if req.sessionKey = 0 ∨ req.forwarded ∨ shared env req.model reports = false then memo
    else
      let node := if l.target.isLocal then c.self else l.target.node
      { memo with lastHosts := memo.lastHosts.set ⟨req.model, req.sessionKey⟩ node }

/-! ### The warm pair -/

/-- Where a session's state is. An empty `replica` is none. -/
structure WarmPair (F : Type) where
  last : String
  replica : String
  importMsPer1k : F

/-- A member's `kv_share` group and its import cost. -/
abbrev KVMember := String × Int

/-- `members[name] = m`. -/
def setMember (members : List (String × KVMember)) (name : String) (m : KVMember) :
    List (String × KVMember) :=
  members.filter (fun p => p.1 != name) ++ [(name, m)]

/-- The members of any group for the model: fresh, with a healthy backend. -/
def kvMembers (c : Config β) (env : Env β F) (model : String) (localHealthy : Bool)
    (reports : List Report) (now : Int) : List (String × KVMember) :=
  let own := match env.localKVShare model with
    | some (g, imp) => if localHealthy ∧ g ≠ "" then [(c.self, (g, imp))] else []
    | none => []
  reports.foldl (fun members rep =>
    if rep.node = c.self ∨ rep.fresh now c.staleAfter = false then members
    else match rep.model model with
      | some mc =>
        if 0 < mc.healthyBackends ∧ mc.kvShareGroup ≠ "" then
          setMember members rep.node (mc.kvShareGroup, mc.kvShareImportMsPer1k)
        else members
      | none => members) own

def defaultImportMsPer1k : Int := 50

def warm [Float64 F] (c : Config β) (env : Env β F) (req : Request F) (localHealthy : Bool)
    (reports : List Report) (now : Int) (memo : Memo) : Option (WarmPair F) := do
  guard (req.sessionKey ≠ 0 ∧ req.forwarded = false)
  let last ← memo.lastHosts.get ⟨req.model, req.sessionKey⟩
  let members := kvMembers c env req.model localHealthy reports now
  let home ← members.lookup last
  let group := members.filter fun p => p.2.1 == home.1
  let ranked := sessionRank req.sessionKey (group.map Prod.fst)
  let replica := (ranked.find? fun n => n != last).getD ""
  let costs := (group.filter fun p => decide (0 < p.2.2)).map fun p => ofInt (F := F) p.2.2
  -- The replica's own measurement, else the group's median, else the default.
  let importMsPer1k := match members.lookup replica with
    | some (_, cost) =>
      if replica ≠ "" ∧ 0 < cost then ofInt cost
      else (median costs).getD (ofInt defaultImportMsPer1k)
    | none => (median costs).getD (ofInt defaultImportMsPer1k)
  return { last, replica, importMsPer1k }

/-- A candidate's prediction: cheaper than `cold` on a host that holds the
session's state. -/
def warmPred [Float64 F] (w : Option (WarmPair F)) (name : String) (ov estK rttMs cold : F) : F :=
  match w with
  | none => cold
  | some w =>
    if name = w.last then Float64.min cold (Float64.max (add ov rttMs) (ofInt 1))
    else if name = w.replica then
      Float64.min cold
        (Float64.max (add (add ov (mul w.importMsPer1k estK)) rttMs) (ofInt 1))
    else cold

end Viiwork.Route
