import Viiwork.Lib.Wp
import Viiwork.Update.Version

/-!
# Viiwork.Enginesync.Sync

The engine helper (`enginesync.go`): it runs as root on the host, answers the node's image
request and makes the tag in the compose file follow the release that the node's state names.

A run is a program over the `Machine`, the files of the host that it writes, and it may be
stopped between two of its writes and commands. What it reads from the node's directory, and what
the commands and the writes come to, is a `Pass` for each of its passes, all of it arbitrary: the
directory is the container's to write, at any time.

`Machine.log` is no part of the program. It says what was prepared, written and brought up, newest
first. A compose file without one line that names an image by tag ends a pass where a foreign
repository does, so `Machine.compose` has such a line.
-/

namespace Viiwork.Enginesync

open Viiwork.Lib Viiwork.Update Prog

/-! ### The record -/

/-- The published engine images. -/
def repos : List String :=
  ["ghcr.io/janit/viiwork-llamacpp-cuda", "ghcr.io/janit/viiwork-llamacpp-vulkan",
    "ghcr.io/janit/viiwork-vllm"]

/-- The image that a compose file names. -/
structure Image where
  repo : String
  tag : String
  deriving Repr, DecidableEq

structure Swap where
  version : String
  /-- As verified and pulled. -/
  image : String
  time : Nat
  deriving Repr, DecidableEq

/-- The helper's own state, where the container cannot write. -/
structure Record where
  /-- The tag that the install had when the helper first ran. -/
  original : String := ""
  swapped : Option Swap := none
  /-- The versions that the helper swapped to, oldest first. -/
  history : List String := []
  /-- The images that the helper pulled and has not removed yet. -/
  pulled : List String := []
  /-- The image that was prepared last and not yet swapped in. -/
  prepared : String := ""
  deriving Repr, DecidableEq

def historyMax : Nat := 8

namespace Record

/-- The host has run the version, as far as the record knows. -/
def ran (r : Record) (v : String) : Bool := v == r.original || r.history.contains v

def addHistory (r : Record) (v : String) : Record :=
  let history := r.history.filter (· ≠ v) ++ [v]
  { r with history := history.drop (history.length - historyMax) }

/-- The downgrade rule: to a version at least as new as the running one, or back to one that
this host has run. -/
def mayMoveTo (r : Record) (running v : String) : Except String Unit :=
  if atLeast v running ∨ r.ran v then .ok ()
  else .error (v ++ " is older than the running " ++ running ++ " and this host has never " ++
    "run it: the helper goes back only to releases it has run here")

/-- The images that were pulled and are of no use any more are removed, where that works. -/
def gc (r : Record) (img : Image) (removes : String → Bool) : Record :=
  let keep := [img.repo ++ ":" ++ img.tag, img.repo ++ ":" ++ r.original, r.prepared] ++
    (r.history.drop (r.history.length - 2)).map fun v => img.repo ++ ":" ++ v
  { r with pulled := r.pulled.filter fun ref => keep.contains ref || !removes ref }

end Record

/-! ### The node's files -/

/-- A file in the node's directory. -/
inductive NodeFile (α : Type)
  | missing
  | unreadable (text : String)
  | holds (a : α)
  deriving Repr, DecidableEq

/-- The names in `state.json`. -/
structure NodeState where
  current : String
  lastGood : String
  /-- Empty when nothing is pending. -/
  pending : String := ""
  deriving Repr, DecidableEq

/-- A missing file is a node that never staged anything. -/
def nodeState : NodeFile NodeState → Except String NodeState
  | .missing => .ok ⟨builtin, builtin, ""⟩
  | .unreadable text => .error ("reading the node's state.json: " ++ text)
  | .holds st =>
    if validName st.current && validName st.lastGood &&
        (st.pending == "" || validVersion st.pending) then .ok st
    else .error ("the node's state.json names something that is neither builtin nor a " ++
      "release version")

structure ImageRequest where
  version : String
  id : String
  deriving Repr, DecidableEq

def validRequestID (id : String) : Bool := id.length == 32 && id.toList.all isLowerHex

/-- The node's request, if it is exactly a version and an id. -/
def request : NodeFile ImageRequest → Option ImageRequest
  | .holds req => if validVersion req.version && validRequestID req.id then some req else none
  | .missing | .unreadable _ => none

abbrev Engines := List (String × String)

structure ImageResult where
  version : String
  id : String
  ok : Bool := false
  error : String := ""
  image : String := ""
  engines : Engines := []
  deriving Repr, DecidableEq

/-! ### The host -/

/-- What happened to the images and to the tag in the compose file. -/
inductive Event
  | prepare (v : String)
  /-- The compose file, which named `was`, names `v`. -/
  | write (was v : String)
  /-- The project is up on `v`. -/
  | up (v : String)
  /-- The project could not be brought up on `v`, and the file is what it was before. -/
  | putBack (v : String)
  /-- The record was saved. -/
  | record
  deriving Repr, DecidableEq

structure Machine where
  compose : Image
  backup : Option Image := none
  record : Option Record := none
  result : Option ImageResult := none
  log : List Event := []
  deriving Repr, DecidableEq

namespace Machine

/-- The image line must name a published engine image. -/
def composeImage (m : Machine) : Except String Image :=
  if m.compose.repo ∈ repos then .ok m.compose
  else .error ("image " ++ m.compose.repo ++ " is not a published viiwork image")

/-- A missing record is an empty one. -/
def loadRecord (m : Machine) : Record := m.record.getD {}

def saveRecord (m : Machine) (r : Record) : Machine :=
  { m with record := some r, log := .record :: m.log }

def note (m : Machine) (e : Event) : Machine := { m with log := e :: m.log }

def writeTag (m : Machine) (img : Image) (v : String) : Machine :=
  { m with compose := { img with tag := v }, log := .write img.tag v :: m.log }

def putBack (m : Machine) (img : Image) (v : String) : Machine :=
  { m with compose := img, log := .putBack v :: m.log }

end Machine

/-! ### What a run meets -/

/-- What a write comes to: one that fails may have replaced the file before it did. -/
inductive Outcome
  | done
  | failed (replaced : Bool) (text : String)
  deriving Repr, DecidableEq

/-- What comes of preparing an image. -/
structure Preparation where
  /-- The digest of the verified release's binary. -/
  verified : Except String String
  present : Bool := true
  pull : Except String Unit := .ok ()
  /-- The last line that creating a container prints. -/
  create : Except String String := .ok "0123456789ab"
  /-- The digest of the one regular file read out of the container. -/
  binary : Except String String
  digests : List String
  /-- The base image that the labels name. -/
  base : String := ""

structure Pass where
  state : NodeFile NodeState
  request : NodeFile ImageRequest := .missing
  load : Except String Unit := .ok ()
  saveOriginal : Outcome := .done
  /-- The request as it is read to be answered. -/
  asked : NodeFile ImageRequest := .missing
  /-- The id in the result file. -/
  answered : Option String := none
  forRequest : Preparation
  result : Outcome := .done
  forSwap : Preparation
  backup : Outcome := .done
  compose : Outcome := .done
  up : Except String Unit := .ok ()
  restore : Outcome := .done
  time : Nat := 0
  saveSwap : Outcome := .done
  selfUpdate : Except String Unit := .ok ()
  /-- Whether an image can be removed. -/
  removes : String → Bool := fun _ => true
  save : Outcome := .done
  stateAfter : NodeFile NodeState
  requestAfter : NodeFile ImageRequest := .missing

structure World where
  /-- The directory, the lock and the manifest, which says whether there is a CLI. -/
  setup : Except String Bool := .ok false
  pass : Nat → Pass

/-- A write of a whole file. -/
def write (o : Outcome) (f : Machine → Machine) : Prog Machine String (Except String Unit) :=
  match o with
  | .done => do
      act f
      return .ok ()
  | .failed true text => do
      act f
      return .error text
  | .failed false text => return .error text

/-! ### Preparing an image -/

def containerID (id : String) : Bool :=
  12 ≤ id.length && id.length ≤ 64 && id.toList.all isLowerHex

/-- What follows the last `c`, and `none` without one. -/
def afterLast (c : Char) (cs : List Char) : Option (List Char) :=
  if c ∈ cs then some (cs.reverse.takeWhile (· ≠ c)).reverse else none

/-- `b` and digits, behind the last dash. -/
def llamaBuild (tag : List Char) : Option (List Char) :=
  match (afterLast '-' tag).getD tag with
  | 'b' :: ds => if ds ≠ [] ∧ ds.all Char.isDigit then some ('b' :: ds) else none
  | _ => none

/-- The engine that an image carries, told by its base image. -/
def enginesOf (repo base : String) : Engines :=
  match afterLast ':' base.toList with
  | none => []
  | some tag =>
    if '/' ∈ tag then []
    else if "ghcr.io/janit/viiwork-llamacpp-".toList.isPrefixOf repo.toList then
      match llamaBuild tag with
      | some build => [("llamacpp", String.ofList build)]
      | none => []
    else if repo = "ghcr.io/janit/viiwork-vllm" then
      let v := match tag with
        | 'v' :: cs => cs
        | cs => cs
      match digits v with
      | some (_, '.' :: cs) =>
        match digits cs with
        | some (_, '.' :: cs) =>
          if (digits cs).isSome then [("vllm", String.ofList v)] else []
        | _ => []
      | _ => []
    else []

/-- A verified and pulled image. -/
structure Prepared where
  image : String
  engines : Engines
  deriving Repr, DecidableEq

namespace Preparation

/-- The image's binary must be the signed release's. -/
def inspect (p : Preparation) (repo version want : String) : Except String Prepared := do
  let ref := repo ++ ":" ++ version
  let id ← p.create.mapError fun text => "docker create " ++ ref ++ ": " ++ text
  failIf (containerID id = false)
    ("docker create " ++ ref ++ ": no container id in its output")
  let got ← p.binary.mapError fun text =>
    "reading /usr/local/bin/viiwork out of " ++ ref ++ ": " ++ text
  failIf (got ≠ want) ("the viiwork in " ++ ref ++ " is not the signed " ++ version ++
    " release's (sha256 " ++ got ++ ", signed " ++ want ++ ")")
  match (p.digests.filter fun d => (repo ++ "@sha256:").toList.isPrefixOf d.toList).getLast? with
  | some image => return ⟨image, enginesOf repo p.base⟩
  | none => throw ("docker image inspect " ++ ref ++ ": no digest from " ++ repo)

/-- What is prepared; an image that is pulled is recorded even if it turns out to be wrong. -/
def outcome (p : Preparation) (repo version : String) (r : Record) :
    Record × Except String Prepared :=
  match p.verified with
  | .error text => (r, .error text)
  | .ok want =>
    let ref := repo ++ ":" ++ version
    if p.present then (r, p.inspect repo version want)
    else
      match p.pull with
      | .error text => (r, .error ("docker pull " ++ ref ++ ": " ++ text))
      | .ok _ =>
        let pulled := if ref ∈ r.pulled then r.pulled else r.pulled ++ [ref]
        ({ r with pulled }, p.inspect repo version want)

end Preparation

def prepare (p : Preparation) (repo version : String) (r : Record) :
    Prog Machine String (Record × Except String Prepared) := do
  act (·.note (.prepare version))
  return p.outcome repo version r

/-! ### A pass -/

/-- The requested image, prepared if the host may move to it. -/
def prepareAsked (p : Pass) (req : ImageRequest) (r : Record) :
    Prog Machine String (Record × Except String Prepared) := do
  let m ← get
  match m.composeImage with
  | .error text => return (r, .error text)
  | .ok img =>
    match r.mayMoveTo img.tag req.version with
    | .error text => return (r, .error text)
    | .ok _ =>
      match ← prepare p.forRequest img.repo req.version r with
      | (r, .error text) => return (r, .error text)
      | (r, .ok got) =>
        -- the newest stage wins
        return ({ r with prepared := img.repo ++ ":" ++ req.version }, .ok got)

def imageResult (req : ImageRequest) : Except String Prepared → ImageResult
  | .error text => { version := req.version, id := req.id, error := text }
  | .ok got =>
    { version := req.version, id := req.id, ok := true, image := got.image,
      engines := got.engines }

/-- A pending request is answered, with the reason if it cannot be met. -/
def answer (p : Pass) (r : Record) : Prog Machine String (Record × Except String Unit) :=
  match request p.asked with
  | none => return (r, .ok ())
  | some req =>
    if p.answered = some req.id then return (r, .ok ())
    else do
      let (r, got) ← prepareAsked p req r
      match ← write p.result fun m => { m with result := some (imageResult req got) } with
      | .error text => return (r, .error ("answering the node's image request: " ++ text))
      | .ok _ => return (r, got.map fun _ => ())

/-- The tag is rewritten and the project brought up on it; if it does not come up, the file is put
back. -/
def swap (p : Pass) (img : Image) (v : String) : Prog Machine String (Except String Unit) := do
  match ← write p.backup fun m => { m with backup := some img } with
  | .error text => return .error text
  | .ok _ =>
    match ← write p.compose (·.writeTag img v) with
    | .error text => return .error text
    | .ok _ =>
      match p.up with
      | .ok _ => do
          act (·.note (.up v))
          return .ok ()
      | .error text =>
        match ← write p.restore (·.putBack img v) with
        | .error rtext => return .error ("docker compose up on " ++ v ++ ": " ++ text ++
            "; restoring the file: " ++ rtext)
        | .ok _ => return .error ("docker compose up on " ++ v ++ ": " ++ text)

/-- The host's CLI follows a release that the node has confirmed and the image carries. -/
def selfUpdate (cli : Bool) (p : Pass) (st : NodeState) (tag : String) : Except String Unit :=
  if cli && validVersion st.current && st.pending == "" && st.lastGood == st.current &&
      tag == st.current then p.selfUpdate
  else .ok ()

/-- The tag that the state asks for. -/
def Record.target (r : Record) (st : NodeState) : String :=
  if st.current = builtin then r.original else st.current

/-- The record after a swap. -/
def Record.swappedTo (r : Record) (img : Image) (v : String) (got : Prepared) (time : Nat) :
    Record :=
  { r.addHistory v with
    swapped := some ⟨v, got.image, time⟩
    prepared := if r.prepared = img.repo ++ ":" ++ v then "" else r.prepared }

/-- The compose image's tag is made the node's current release. -/
def follow (cli : Bool) (p : Pass) (st : NodeState) (r : Record) :
    Prog Machine String (Record × Except String Unit) := do
  let m ← get
  match m.composeImage with
  | .error text => return (r, .error text)
  | .ok img =>
    let v := r.target st
    if v = img.tag then return (r, selfUpdate cli p st img.tag)
    else if validVersion v = false then
      return (r, .error ("the install's own image tag " ++ v ++ " is not a release version, " ++
        "so it cannot be verified; leaving the image alone"))
    else
      match r.mayMoveTo img.tag v with
      | .error text => return (r, .error ("not swapping to " ++ v ++ ": " ++ text))
      | .ok _ =>
        match ← prepare p.forSwap img.repo v r with
        | (r, .error text) => return (r, .error ("not swapping to " ++ v ++ ": " ++ text))
        | (r, .ok got) =>
          match ← swap p img v with
          | .error text => return (r, .error text)
          | .ok _ =>
            let r := r.swappedTo img v got p.time
            match ← write p.saveSwap (·.saveRecord r) with
            | .error text => return (r, .error text)
            | .ok _ => return (r, selfUpdate cli p st v)

/-- The first run takes the compose file's tag for the install's own. -/
def adopt (p : Pass) (r : Record) : Prog Machine String Record :=
  if r.original = "" then do
    let m ← get
    let img ← ofExcept m.composeImage
    let r := { r with original := img.tag }
    ofExcept (← write p.saveOriginal (·.saveRecord r))
    return r
  else return r

/-- The texts of the errors. -/
def errorsOf (results : List (Except String Unit)) : List String :=
  results.filterMap fun
    | .error text => some text
    | .ok _ => none

/-- One pass: its errors, and whether the node changed something meanwhile. -/
def pass (cli : Bool) (p : Pass) : Prog Machine String (List String × Bool) := do
  let st ← ofExcept (nodeState p.state)
  ofExcept p.load
  let m ← get
  let r ← adopt p m.loadRecord
  let (r, answered) ← answer p r
  let (r, followed) ← follow cli p st r
  let m ← get
  let r := match m.composeImage with
    | .ok img => r.gc img p.removes
    | .error _ => r
  ofExcept (← write p.save (·.saveRecord r))
  let st' ← ofExcept (nodeState p.stateAfter)
  return (errorsOf [answered, followed],
    decide (st' ≠ st ∨ request p.requestAfter ≠ request p.request))

/-- Passes until the node changes nothing during one; only the last one's errors count. -/
def passes (cli : Bool) (w : World) : List Nat → List String → Prog Machine String (List String)
  | [], errs => return errs
  | i :: is, _ => do
      let (errs, again) ← pass cli (w.pass i)
      if again then passes cli w is errs else return errs

/-- One run of the helper. -/
def sync (w : World) : Prog Machine String Unit := do
  let cli ← ofExcept w.setup
  let errs ← passes cli w [0, 1, 2] []
  failIf (errs ≠ []) ("\n".intercalate errs)

/-! ### Runs -/

/-- A run, and the number of writes and commands that it gets to if it is stopped. -/
structure SyncRun where
  world : World
  cut : Option Nat := none

/-- What a run leaves. -/
def SyncRun.leaves (run : SyncRun) (m : Machine) : Machine :=
  match run.cut with
  | none => ((sync run.world).run m).2
  | some n => (sync run.world).stop (fun before _ => before) n m

def Machine.step (m : Machine) (run : SyncRun) : Option Machine := some (run.leaves m)

/-- The host before the helper's first run. -/
def Machine.new (c : Image) : Machine := { compose := c }

end Viiwork.Enginesync
