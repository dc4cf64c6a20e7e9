import Viiwork.Kvshare.Replica
import Viiwork.Lib.Prog

/-!
# Viiwork.Kvshare.Store

A receiver's **store** (`store.go`): one replica for each key, and the manifests it has
cached. What changes it is a program of file operations, one `act` for each, so that
every state between two of them is one of the program's.

An operation on a key holds the key's lock to its end, for a put to the end of the
`finish` that runs behind it; so a call is one program. Local files do not fail.
-/

namespace Viiwork.Kvshare

open Viiwork.Lib Prog Function

structure Store where
  dirs : Name → Option Dir
  man : Name → Option Manifest

/-- `NewStore` on an empty directory. -/
def Store.new : Store := ⟨fun _ => none, fun _ => none⟩

abbrev StoreM := Prog Store Err

/-! ### File operations -/

namespace Store

def removeAll (key : Name) (s : Store) : Store := { s with dirs := update s.dirs key none }

def setManifest (key : Name) (m : Option Manifest) (s : Store) : Store :=
  { s with man := update s.man key m }

/-- Drops the replica and its manifest. -/
def drop (key : Name) (s : Store) : Store := (s.removeAll key).setManifest key none

def mkdirAll (key : Name) (s : Store) : Store :=
  { s with dirs := update s.dirs key (some ((s.dirs key).getD .empty)) }

def modifyDir (key : Name) (f : Dir → Dir) (s : Store) : Store :=
  { s with dirs := update s.dirs key ((s.dirs key).map f) }

/-- One operation on a file in the key's directory. -/
def inDir (key : Name) (f : Dir → Dir) : StoreM Unit := do
  let s ← get
  failIf (s.dirs key).isNone .notExist
  act (modifyDir key f)

end Store

open Store

/-- `writeAtomic` of `state.json`. -/
def writeState (key : Name) (st : ReplicaState) : StoreM Unit := do
  inDir key fun d => { d with stateTmp := some (.holds st) }
  inDir key fun d => { d with state := d.stateTmp, stateTmp := none }

/-- `writeAtomic` of `frames.bin`. -/
def writeFrames (key : Name) (b : Bytes) : StoreM Unit := do
  inDir key fun d => { d with framesTmp := some b }
  inDir key fun d => { d with frames := d.framesTmp, framesTmp := none }

def stateOf (d : Option Dir) : Except Err (Option ReplicaState) :=
  match d.bind Dir.state with
  | none => .ok none
  | some .undecodable => .error .undecodable
  | some (.holds st) => .ok (some st)

def readState (key : Name) : StoreM (Option ReplicaState) := do
  let s ← get
  ofExcept (stateOf (s.dirs key))

/-- A file cut or, with zeros, extended to `n` bytes. -/
def truncate (n : Nat) (b : Bytes) : Bytes := b.take n ++ List.replicate (n - b.length) 0

def onSection (name : Name) (f : Option Bytes → Option Bytes) (d : Dir) : Dir :=
  { d with sections := update d.sections name (f (d.sections name)) }

/-- Cuts the section to `keep` bytes and appends the stream's next, `len` in all; the
result is the rest of the stream. -/
def patchSection (key name : Name) (keep len : Int) (data : Stream) : StoreM Stream := do
  let name ← ofExcept (sectionFile name)
  inDir key (onSection name fun f => some (f.getD []))
  failIf (keep < 0) .invalidArgument
  inDir key (onSection name (Option.map (truncate keep.toNat)))
  let (b, rest, err) := data.copyN (len - keep).toNat
  inDir key (onSection name (Option.map (· ++ b)))
  match err with
  | some e => .fail e
  | none => do
      failIf ((b.length : Int) ≠ len - keep) .unexpectedEOF
      return rest

/-! ### Manifests -/

variable (sha : Sha256)

def sectionItems (items : List ReplicaItem) : List ReplicaItem :=
  items.filter fun it => it.section_ != []

/-- The manifest of a replica, with the hashes of `prev` for the blocks below `keeps`. -/
def manifestOf (d : Dir) (st : ReplicaState) (keeps : Name → Nat) (prev : Name → Bytes) :
    Except Err Manifest := do
  let sections ← (sectionItems st.items).mapM fun it => do
    let blocks ← hashSection sha d it.section_ (keeps it.section_) it.len (prev it.section_)
    return SectionManifest.mk it.section_ it.len blocks
  return { model := st.model, config := st.config, size := st.size, sections,
           saveID := st.saveID }

/-- `Manifest`. -/
def manifest (key : Name) : StoreM (Option Manifest) := do
  failIf (validKey key = false) (.invalidKey key)
  let s ← get
  match s.man key with
  | some m => return some m
  | none => do
      let st ← readState key
      match st, s.dirs key with
      | some st, some d =>
        if st.complete then do
          let m ← ofExcept (manifestOf sha d st (fun _ => 0) fun _ => [])
          act (setManifest key (some m))
          return some m
        else return none
      | _, _ => return none

/-- The blocks of a manifest by section. -/
def prevBlocks (m : Option Manifest) (name : Name) : Bytes :=
  match m.bind fun m => lastWith SectionManifest.name name m.sections with
  | some sm => sm.blocks
  | none => []

/-- The chunk hashes of the K/V sections. -/
def chunksOf (d : Dir) (items : List ReplicaItem) : Except Err Chunks :=
  (sectionItems items).foldlM (fun chunks it =>
    if isKVSection it.section_ then do
      let f ← d.open_ it.section_
      return update chunks it.section_ (some (chunkHashes f 0 it.len []))
    else return chunks) fun _ => none

/-- After a full put: the state with the chunk hashes. -/
def addChunks (key : Name) (d : Dir) (next : ReplicaState) : StoreM Unit :=
  match next.chunks with
  | some _ => pure ()
  | none => do
      let chunks ← ofExcept (chunksOf d next.items)
      writeState key { next with chunks := some chunks }

/-- Builds the next manifest behind the put, and after a full put the chunk hashes; what
fails in it is left undone. -/
def finish (key : Name) (next : ReplicaState) (keeps : Name → Nat) (prevMan : Option Manifest) :
    StoreM Unit := attempt do
  let s ← get
  let d := (s.dirs key).getD .empty
  let m ← ofExcept (manifestOf sha d next keeps (prevBlocks prevMan))
  addChunks key d next
  act (setManifest key (some m))

/-! ### Put -/

/-- What a sender says about the file before the delta is read. -/
structure FileMeta where
  size : Int
  digest : Bytes
  saveID : String
  deriving Repr, DecidableEq

structure PutResult where
  size : Nat
  deriving Repr, DecidableEq

/-- The lengths of a replica's sections. -/
def heldLens (items : List ReplicaItem) (name : Name) : Option Nat :=
  (lastWith ReplicaItem.section_ name (sectionItems items)).map ReplicaItem.len

/-- What the loop over a delta's items has gathered. -/
structure PutAcc where
  items : List ReplicaItem
  frames : Bytes
  keeps : Name → Nat
  /-- The old replica's sections not yet met. -/
  held : Name → Option Nat
  tokens : Nat

namespace PutAcc

def addFrame (acc : PutAcc) (len : Nat) (b : Bytes) : PutAcc :=
  { acc with items := acc.items ++ [⟨[], len, acc.frames.length⟩], frames := acc.frames ++ b }

def addSection (acc : PutAcc) (it : Item) : PutAcc :=
  { acc with
    items := acc.items ++ [⟨it.section_, it.len, 0⟩]
    keeps := update acc.keeps it.section_ it.keep
    held := update acc.held it.section_ none
    tokens := if it.section_ = ascii "live.ids" then it.len / 4 else acc.tokens }

end PutAcc

/-- The loop over the items. `Next` ends it at the latest when none is left, so the fuel,
one more than those, lasts. -/
def putItems (key : Name) : Nat → DeltaReader → PutAcc → StoreM PutAcc
  | 0, _, _ => .fail .eof
  | fuel + 1, d, acc =>
    match d.next with
    | .error e => if e = .eof then pure acc else .fail e
    | .ok (it, d) =>
      if it.section_ = [] then
        let (b, br, err) := d.br.copyN (it.len - it.keep)
        match err with
        | some e => .fail e
        | none => putItems key fuel { d with br } (acc.addFrame it.len b)
      else do
        failIf ((acc.held it.section_).getD 0 < it.keep)
          (.keepPast it.section_ it.keep ((acc.held it.section_).getD 0))
        let br ← patchSection key it.section_ it.keep it.len d.br
        putItems key fuel { d with br } (acc.addSection it)

/-- Removes a section's file, if its name can have one. -/
def removeSection (key name : Name) : StoreM Unit :=
  match sectionFile name with
  | .error _ => pure ()
  | .ok name => inDir key (onSection name fun _ => none)

/-- Removes the sections of the old replica that the new one no longer has. -/
def removeGone (key : Name) (old : List ReplicaItem) (held : Name → Option Nat) : StoreM Unit :=
  (old.filter fun it => it.section_ != [] && (held it.section_).isSome).forM
    fun it => removeSection key it.section_

/-- The delta builds another file than the request declared. -/
def otherFile (h : DeltaHeader) (w : FileMeta) : Bool :=
  decide ((h.size : Int) ≠ w.size) || h.digest != w.digest

/-- The old replica, if sections of it can be kept: it is finished and of the same model
and configuration. -/
def usable (h : DeltaHeader) (old : Option ReplicaState) : Option ReplicaState :=
  old.filter fun o => o.complete && o.model == h.model && o.config == h.config

def removeUnusable (key : Name) (old : Option ReplicaState) (kept : Option ReplicaState) :
    StoreM Unit :=
  if old.isSome && kept.isNone then act (removeAll key) else pure ()

/-- From here on the sections are being rewritten. -/
def markIncomplete (key : Name) (kept : Option ReplicaState) : StoreM Unit :=
  match kept with
  | some o => writeState key { o with complete := false }
  | none => pure ()

/-- The state after a put. -/
def nextState (h : DeltaHeader) (want : Option FileMeta) (now : Int) (acc : PutAcc) :
    ReplicaState :=
  { model := h.model, config := h.config, size := h.size, digest := h.digest, complete := true,
    items := acc.items, updated := now, tokens := acc.tokens,
    saveID := (want.map FileMeta.saveID).getD "", chunks := none, trailer := false }

/-- `put` to the return of its result: the new state, the keeps, and the manifest before. -/
def putBody (key : Name) (now : Int) (delta : Stream) (want : Option FileMeta) :
    StoreM (ReplicaState × (Name → Nat) × Option Manifest) := do
  let d ← ofExcept (newDeltaReader delta)
  failIf (want.any (otherFile d.header)) .otherFile
  let old ← readState key
  let s ← get
  let kept := usable d.header old
  let prevMan := if old.isSome && kept.isNone then none else s.man key
  act (setManifest key none)
  removeUnusable key old kept
  act (mkdirAll key)
  markIncomplete key kept
  let oldItems := (kept.map ReplicaState.items).getD []
  let acc ← putItems key (d.left + 1) d ⟨[], [], fun _ => 0, heldLens oldItems, 0⟩
  removeGone key oldItems acc.held
  writeFrames key acc.frames
  let next := nextState d.header want now acc
  writeState key next
  return (next, acc.keeps, prevMan)

/-- `Put` and, with a declared file, `PutExpect`. -/
def put (key : Name) (now : Int) (delta : Stream) (want : Option FileMeta) : StoreM PutResult := do
  failIf (validKey key = false) (.invalidKey key)
  let (next, keeps, prevMan) ← onFail (Store.drop key) (putBody key now delta want)
  finish sha key next keeps prevMan
  return { size := next.size }

/-! ### Reading a replica -/

/-- `Materialize`: the bytes of the file it publishes. -/
def materialize (stale : Nat → Bytes) (s : Store) (key : Name) : Except Err Bytes := do
  failIf (validKey key = false) (.invalidKey key)
  let st ← stateOf (s.dirs key)
  match st, s.dirs key with
  | some st, some d => do
      failIf (st.complete = false) (.noReplica key)
      d.file sha stale st
  | _, _ => .error (.noReplica key)

/-- `Info`: the state of the complete replica under the key. -/
def info (s : Store) (key : Name) : Except Err (Option ReplicaState) := do
  failIf (validKey key = false) (.invalidKey key)
  let st ← stateOf (s.dirs key)
  return st.filter ReplicaState.complete

end Viiwork.Kvshare
