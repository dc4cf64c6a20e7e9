import Viiwork.Alias.Ops
import Viiwork.Alias.Resolver

/-!
# Viiwork.Alias.Service

The alias write path and the mesh payload: it validates and stores local writes,
gossips every change, merges what other members send, and records changes and
conflicts as activity events. A call returns the service, what it broadcast, the
events it emitted and its result.

The log lines, and the two memories that only suppress repeated log lines
(`badMsgLogged`, `tooLarge`), are left out.
-/

namespace Viiwork.Alias

open Viiwork.Meshapi

/-- Bounds the conflicts remembered to emit each only once. -/
def maxConflictKeys : Nat := 256

/-- A pair of conflicting writes. -/
structure ConflictKey where
  name : String
  winnerTS : Int
  winnerBy : String
  loserTS : Int
  loserBy : String
  deriving Repr, DecidableEq

def Conflict.key (c : Conflict) : ConflictKey :=
  { name := c.name, winnerTS := c.winner.ts, winnerBy := c.winner.byNode,
    loserTS := c.loser.ts, loserBy := c.loser.byNode }

/-- An activity event. -/
inductive Event
  | changed (name from_ to_ by_ : String)
  | conflict (c : Conflict)
  deriving Repr, DecidableEq

/-- A service: its store, whether a broadcaster is wired, and the conflicts it
emitted, oldest first. -/
structure Service where
  store : Store
  broadcasts : Bool
  conflictOrder : List ConflictKey

/-- Why a local write failed. -/
inductive ServiceErr
  | refused (err : WriteError)
  | store (err : StoreErr)
  deriving Repr, DecidableEq

/-- What a call leaves behind and sends out. -/
structure Reply (β : Type) where
  service : Service
  sent : List AliasBroadcast
  events : List Event
  result : β

namespace Service

/-- The event text `alias <name>: <from> -> <to> by <by>`. -/
def changeEvent (name : String) (old? : Option AliasEntry) (e : AliasEntry) : Event :=
  let from_ := match old? with
    | none => "(none)"
    | some old => if old.deleted then "(none)" else old.target
  .changed name from_ (if e.deleted then "(deleted)" else e.target) e.byNode

/-- The broadcasts of `publish`: the entry without its history, unless it is too
large for a packet. -/
def publishSent (sv : Service) (name : String) (e : AliasEntry) : List AliasBroadcast :=
  let b : AliasBroadcast := { name := name, entry := { e with history := [] } }
  if byteLen (marshal b) ≤ maxBroadcastBytes && sv.broadcasts then [b] else []

/-- `publish` gossips an entry without its history and records the change. -/
def publish (sv : Service) (name : String) (old? : Option AliasEntry) (e : AliasEntry) :
    Reply AliasBroadcast :=
  { service := sv, sent := sv.publishSent name e, events := [changeEvent name old? e],
    result := { name := name, entry := { e with history := [] } } }

/-- `republish` publishes a merged change when the current version changed. -/
def republish (sv : Service) (name : String) (old? : Option AliasEntry) : Reply Unit :=
  match sv.store.lookup name with
  | none => ⟨sv, [], [], ()⟩
  | some cur =>
    if old?.any fun old => cur.ver == old.ver && cur.ts == old.ts && cur.byNode == old.byNode then
      ⟨sv, [], [], ()⟩
    else
      let r := sv.publish name old? cur
      ⟨r.service, r.sent, r.events, ()⟩

/-- `emitConflict` records a conflict once per pair of writes. -/
def emitConflict (sv : Service) (c : Conflict) : Service × List Event :=
  if c.key ∈ sv.conflictOrder then (sv, [])
  else
    let order := sv.conflictOrder ++ [c.key]
    ({ sv with conflictOrder := if order.length > maxConflictKeys then order.tail else order },
      [.conflict c])

/-- The conflicts of a merge, in order. -/
def emitConflicts (sv : Service) : List Conflict → Service × List Event
  | [] => (sv, [])
  | c :: cs =>
    let (sv', evs) := sv.emitConflict c
    let (sv'', evs') := sv'.emitConflicts cs
    (sv'', evs ++ evs')

/-- `Set` validates and writes an alias, then gossips it. -/
def set (sv : Service) (v : View) (c : Call) (name : String) (req : AliasWriteRequest) :
    Reply (Except ServiceErr AliasBroadcast) :=
  match validateWrite sv.store v name req with
  | .error err => ⟨sv, [], [], .error (.refused err)⟩
  | .ok () =>
    let old? := sv.store.lookup name
    match sv.store.set c name req.target req.fallbacks with
    | (s', .error err) => ⟨{ sv with store := s' }, [], [], .error (.store err)⟩
    | (s', .ok e) =>
      let r := { sv with store := s' }.publish name old? e
      ⟨r.service, r.sent, r.events, .ok r.result⟩

/-- `Delete` writes a tombstone and gossips it. -/
def delete (sv : Service) (c : Call) (name : String) :
    Reply (Except ServiceErr AliasBroadcast) :=
  let old? := sv.store.lookup name
  match sv.store.delete c name with
  | (s', .error .notFound) =>
    ⟨{ sv with store := s' }, [], [], .error (.refused (.notFound name))⟩
  | (s', .error err) => ⟨{ sv with store := s' }, [], [], .error (.store err)⟩
  | (s', .ok e) =>
    let r := { sv with store := s' }.publish name old? e
    ⟨r.service, r.sent, r.events, .ok r.result⟩

/-- `Revert` swaps the alias back to its previous version and gossips it. -/
def revert (sv : Service) (c : Call) (name : String) :
    Reply (Except ServiceErr AliasBroadcast) :=
  let old? := sv.store.lookup name
  match sv.store.revert c name with
  | (s', .error .notFound) =>
    ⟨{ sv with store := s' }, [], [], .error (.refused (.notFound name))⟩
  | (s', .error .noHistory) =>
    ⟨{ sv with store := s' }, [], [], .error (.refused (.noPrevious name))⟩
  | (s', .error err) => ⟨{ sv with store := s' }, [], [], .error (.store err)⟩
  | (s', .ok e) =>
    let r := { sv with store := s' }.publish name old? e
    ⟨r.service, r.sent, r.events, .ok r.result⟩

/-- `NotifyMsg` merges one broadcast; `none` is a message that is not JSON. -/
def notifyMsg (sv : Service) (c : Call) : Option AliasBroadcast → Reply Unit
  | none => ⟨sv, [], [], ()⟩
  | some b =>
    let old? := sv.store.lookup b.name
    match sv.store.merge c b.name b.entry with
    | (s', .error _) => ⟨{ sv with store := s' }, [], [], ()⟩
    | (s', .ok (changed, conflict)) =>
      let (sv', evs) := { sv with store := s' }.emitConflicts conflict.toList
      if changed then
        let r := sv'.republish b.name old?
        ⟨r.service, r.sent, evs ++ r.events, ()⟩
      else ⟨sv', [], evs, ()⟩

/-- The loop of `MergeRemoteState` over the changed names. -/
def republishAll (sv : Service) (before : Store) : List String → Reply Unit
  | [] => ⟨sv, [], [], ()⟩
  | name :: names =>
    let r := sv.republish name (before.lookup name)
    let rs := r.service.republishAll before names
    ⟨rs.service, r.sent ++ rs.sent, r.events ++ rs.events, ()⟩

/-- `MergeRemoteState` merges a member's whole table; `none` is a payload that is
not JSON. -/
def mergeRemoteState (sv : Service) (c : Call) : Option AliasTable → Reply Unit
  | none => ⟨sv, [], [], ()⟩
  | some t =>
    match sv.store.mergeTable c t with
    | (s', .error _) => ⟨{ sv with store := s' }, [], [], ()⟩
    | (s', .ok (changed, conflicts)) =>
      let (sv', evs) := { sv with store := s' }.emitConflicts conflicts
      let r := sv'.republishAll sv.store changed
      ⟨r.service, r.sent, evs ++ r.events, ()⟩

/-- One tick of `Run`. -/
def purge (sv : Service) (c : Call) : Service :=
  { sv with store := (sv.store.purgeTombstones c).1 }

/-! ### Steps -/

/-- A call of the service. -/
inductive Step
  | set (v : View) (c : Call) (name : String) (req : AliasWriteRequest)
  | delete (c : Call) (name : String)
  | revert (c : Call) (name : String)
  | purge (c : Call)
  | notifyMsg (c : Call) (msg : Option AliasBroadcast)
  | mergeRemoteState (c : Call) (buf : Option AliasTable)

namespace Step

/-- The service after the call, and what the call broadcast. -/
def exec (sv : Service) : Step → Service × List AliasBroadcast
  | set v c name req => ((sv.set v c name req).service, (sv.set v c name req).sent)
  | delete c name => ((sv.delete c name).service, (sv.delete c name).sent)
  | revert c name => ((sv.revert c name).service, (sv.revert c name).sent)
  | purge c => (sv.purge c, [])
  | notifyMsg c msg => ((sv.notifyMsg c msg).service, (sv.notifyMsg c msg).sent)
  | mergeRemoteState c buf =>
    ((sv.mergeRemoteState c buf).service, (sv.mergeRemoteState c buf).sent)

/-- The store operation the call comes to, if it comes to one. -/
def op? (sv : Service) : Step → Option (Call × Op)
  | set v c name req =>
    match validateWrite sv.store v name req with
    | .error _ => none
    | .ok () => some (c, .write (.set name req.target req.fallbacks))
  | delete c name => some (c, .write (.delete name))
  | revert c name => some (c, .write (.revert name))
  | purge c => some (c, .purge)
  | notifyMsg c msg => msg.map fun b => (c, .merge (.merge b.name b.entry))
  | mergeRemoteState c buf => buf.map fun t => (c, .merge (.mergeTable t))

end Step

variable (sv : Service)

@[simp] theorem publish_service (name : String) (old? : Option AliasEntry) (e : AliasEntry) :
    (sv.publish name old? e).service = sv := rfl

@[simp] theorem publish_sent (name : String) (old? : Option AliasEntry) (e : AliasEntry) :
    (sv.publish name old? e).sent = sv.publishSent name e := by
  rw [publish]

@[simp] theorem republish_service (name : String) (old? : Option AliasEntry) :
    (sv.republish name old?).service = sv := by
  unfold republish
  split
  · rfl
  · split <;> rfl

@[simp] theorem republishAll_service (before : Store) (names : List String) :
    (sv.republishAll before names).service = sv := by
  induction names with
  | nil => rfl
  | cons name names ih => simp [republishAll, ih]

@[simp] theorem emitConflict_store (c : Conflict) : (sv.emitConflict c).1.store = sv.store := by
  unfold emitConflict
  split <;> rfl

@[simp] theorem emitConflicts_store (cs : List Conflict) :
    (sv.emitConflicts cs).1.store = sv.store := by
  induction cs generalizing sv with
  | nil => rfl
  | cons c cs ih => simp [emitConflicts, ih]

/-- The store moves by the operation the call comes to, and only by it. -/
theorem Step.exec_store (a : Step) :
    (a.exec sv).1.store = match a.op? sv with
      | none => sv.store
      | some (c, op) => (op.exec sv.store c).1 := by
  cases a with
  | set v c name req =>
    simp only [Step.exec, Step.op?, Service.set]
    cases validateWrite sv.store v name req with
    | error err => rfl
    | ok u =>
      rcases h : sv.store.set c name req.target req.fallbacks with ⟨s', err | e⟩
      · simp [Op.exec, LocalOp.exec, h]
      · simp [Op.exec, LocalOp.exec, h]
  | delete c name =>
    simp only [Step.exec, Step.op?, Service.delete, Op.exec, LocalOp.exec]
    split <;> simp_all
  | revert c name =>
    simp only [Step.exec, Step.op?, Service.revert, Op.exec, LocalOp.exec]
    split <;> simp_all
  | purge c => rfl
  | notifyMsg c msg =>
    cases msg with
    | none => rfl
    | some b =>
      simp only [Step.exec, Step.op?, Service.notifyMsg, Option.map_some, Op.exec, MergeOp.exec]
      rcases sv.store.merge c b.name b.entry with ⟨s', err | ⟨changed, conflict⟩⟩
      · rfl
      · dsimp only
        split <;> simp
  | mergeRemoteState c buf =>
    cases buf with
    | none => rfl
    | some t =>
      simp only [Step.exec, Step.op?, Service.mergeRemoteState, Option.map_some, Op.exec,
        MergeOp.exec]
      rcases sv.store.mergeTable c t with ⟨s', err | ⟨changed, conflicts⟩⟩
      · rfl
      · simp

end Service

end Viiwork.Alias
