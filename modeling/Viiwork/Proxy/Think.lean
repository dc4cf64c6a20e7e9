import Viiwork.Lib.JsonValue
import Viiwork.Lib.Text

/-!
# Viiwork.Proxy.Think

A stream with think blocks taken out (`streamThinkDisabled` of `thinking.go`), line by line, with its
three fast paths or without them.

A chunk is decoded, its `reasoning_content` kept back, dropped or renamed, and the chunk written
again. The fast paths write or drop a chunk by its bytes and by a typed probe of it: a chunk without
the key passes outside a block; a chunk with nothing but reasoning is dropped inside one; the key is
renamed in the bytes outside one.

What is written is a list of frames. A chunk that was encoded is the value that it stands for.
-/

namespace Viiwork.Proxy

open Viiwork.Lib Function

/-! ### Keys and tags -/

def choicesKey : Bytes := ascii "choices"
def deltaKey : Bytes := ascii "delta"
def contentKey : Bytes := ascii "content"
def reasoningKey : Bytes := ascii "reasoning_content"
def finishKey : Bytes := ascii "finish_reason"

def openThinkTag : Bytes := ascii "<think>"
def closeThinkTag : Bytes := ascii "</think>"

def dataPrefix : Bytes := ascii "data: "
def donePayload : Bytes := ascii "[DONE]"

def quotedReasoningKey : Bytes := (Token.str reasoningKey).bytes
def quotedContentKey : Bytes := (Token.str contentKey).bytes

def maxThinkBufSize : Nat := 1048576

/-! ### The probe -/

/-- A value into a `*string`; `none` for a value of another type. -/
def stringPtr : Json → Option (Option Bytes)
  | .null => some none
  | .str raw => some (some (unquote raw))
  | _ => none

/-- The members for a field, whatever the case of their keys, one after the other into it. -/
def field {α : Type} (name : Bytes) (set : α → Json → Option α) (old : α)
    (ms : List (Bytes × Json)) : Option α :=
  ms.foldlM (fun x m => if foldName (unquote m.1) = foldName name then set x m.2 else some x) old

structure ProbeDelta where
  content : Option Bytes := none
  reasoningContent : Option Bytes := none
  deriving Repr, DecidableEq

structure ProbeChoice where
  delta : Option ProbeDelta := none
  finishReason : Option Bytes := none
  deriving Repr, DecidableEq

def ProbeDelta.set (d : ProbeDelta) (ms : List (Bytes × Json)) : Option ProbeDelta := do
  let content ← field contentKey (fun _ v => stringPtr v) d.content ms
  let reasoning ← field reasoningKey (fun _ v => stringPtr v) d.reasoningContent ms
  return ⟨content, reasoning⟩

/-- A value into a `*struct`: an object goes into the one that is there. -/
def deltaPtr (old : Option ProbeDelta) : Json → Option (Option ProbeDelta)
  | .null => some none
  | .obj ms => (ProbeDelta.set (old.getD {}) ms).map some
  | _ => none

/-- A value into a choice: null leaves it as it is. -/
def ProbeChoice.set (c : ProbeChoice) : Json → Option ProbeChoice
  | .null => some c
  | .obj ms => do
      let delta ← field deltaKey deltaPtr c.delta ms
      let finish ← field finishKey (fun _ v => stringPtr v) c.finishReason ms
      return ⟨delta, finish⟩
  | _ => none

/-- The values of an array, one by one into those of another. -/
def probeChoices : List ProbeChoice → List Json → Option (List ProbeChoice)
  | _, [] => some []
  | old, v :: vs => do
      let c ← (old.headD {}).set v
      let cs ← probeChoices old.tail vs
      return c :: cs

/-- A slice while it is decoded: its elements, and those of the array beyond its length. -/
structure ProbeSlice where
  elems : List ProbeChoice := []
  spare : List ProbeChoice := []
  deriving Repr, DecidableEq

def ProbeSlice.set (s : ProbeSlice) : Json → Option ProbeSlice
  | .null => some {}
  | .arr [] => some {}
  | .arr vs => do
      let cs ← probeChoices (s.elems ++ s.spare) vs
      return { elems := cs, spare := (s.elems ++ s.spare).drop vs.length }
  | _ => none

/-- `json.Unmarshal` into an `sseChunkProbe`: its choices, `none` for an error. -/
def probe (payload : Bytes) : Option (List ProbeChoice) :=
  match Json.parse payload with
  | some .null => some []
  | some (.obj ms) => (field choicesKey ProbeSlice.set {} ms).map (·.elems)
  | _ => none

/-- The reasoning of the one choice, when it has no content, and the choice. -/
def probeReasoning (payload : Bytes) : Option (ProbeChoice × Bytes) :=
  match probe payload with
  | some [c] =>
    match c.delta with
    | some d => if d.content = none then d.reasoningContent.map (c, ·) else none
    | none => none
  | _ => none

/-! ### The fast paths -/

/-- The reasoning that the suppress path drops. -/
def suppressed (payload : Bytes) : Option Bytes :=
  if closeThinkTag <:+: payload then none
  else match probeReasoning payload with
    | some (c, r) => if c.finishReason = none ∨ c.finishReason = some [] then some r else none
    | none => none

def untaggedReasoningKey (payload : Bytes) : Option Nat :=
  if openThinkTag <:+: payload ∨ [92, 117] <:+: payload ∨ quotedContentKey <:+: payload ∨
      count quotedReasoningKey payload ≠ 1 then none
  else if (probeReasoning payload).isSome then index quotedReasoningKey payload
  else none

/-- The payload that `writeRenamedReasoning` writes. -/
def renamedReasoning (payload : Bytes) (at' : Nat) : Bytes :=
  payload.take at' ++ (quotedContentKey ++ payload.drop (at' + quotedReasoningKey.length))

/-! ### Frames and state -/

variable {F : Type}

/-- What is written. -/
inductive Frame (F : Type)
  | line (line : Bytes)
  | done
  /-- A payload as it is. -/
  | data (payload : Bytes)
  /-- An encoded chunk. -/
  | chunk (v : Value F)

/-- The variables of the loop. An empty `firstPayload` is nil. -/
structure Stream (F : Type) where
  inThinkBlock : Bool := false
  thinkBuf : Bytes := []
  lastChunkTemplate : Option (Bytes → Option (Value F)) := none
  firstPayload : Bytes := []

/-- What the stream is read with: which numbers a `float64` holds and as what, and
`extractCleanContent`. -/
structure Reader (F : Type) where
  fits : Bytes → Bool
  float : Bytes → F
  extractCleanContent : Bytes → Bytes

variable (R : Reader F)

def fitsToken : Token → Bool
  | .num raw => R.fits raw
  | _ => true

/-- `json.Unmarshal` into an `any`. -/
def unmarshal (payload : Bytes) : Option (Value F) :=
  if (tokens payload).1.all (fitsToken R) then (Json.parse payload).map (Json.value R.float)
  else none

/-- `json.Unmarshal` into a `map[string]any`: an object, or null. -/
def unmarshalMap (payload : Bytes) : Option (Option (Bytes → Option (Value F))) :=
  match unmarshal R payload with
  | some (.obj m) => some (some m)
  | some .null => some none
  | _ => none

/-- The top-level fields that a template keeps. -/
def templateOf (m : Option (Bytes → Option (Value F))) : Bytes → Option (Value F) :=
  fun k => if k = choicesKey then none else m.bind (· k)

def ensureTemplate (s : Stream F) : Option (Bytes → Option (Value F)) :=
  s.lastChunkTemplate.or
    (if s.firstPayload = [] then none else (unmarshalMap R s.firstPayload).map templateOf)

def string : Option (Value F) → Option Bytes
  | some (.str s) => some s
  | _ => none

/-! ### The slow path -/

/-- The buffered reasoning as a chunk of its own. -/
def salvage (buf : Bytes) (template : Option (Bytes → Option (Value F))) : List (Frame F) :=
  let raw := trimSpace (if openThinkTag.isPrefixOf buf then buf.drop openThinkTag.length else buf)
  if raw = [] then []
  else
    let clean := R.extractCleanContent raw
    let delta := update (fun _ => none) contentKey
      (some (.str (if clean = [] then raw else clean)))
    let choice := update (fun _ => none) deltaKey (some (.obj delta))
    [.chunk (.obj (update (fun k => template.bind (· k)) choicesKey
      (some (.arr [.obj choice]))))]

/-- The text after the first closing tag. -/
def extractAfterThinkClose (s : Bytes) : Bytes :=
  match index closeThinkTag s with
  | none => []
  | some i => (s.drop (i + closeThinkTag.length)).dropWhile fun b => b = 10 || b = 13

/-- What the loop over the choices makes of them: the state, the choices as they are then, whether
the chunk is written, and what was written before it. -/
structure Loop (F : Type) where
  stream : Stream F
  choices : List (Value F)
  emit : Bool
  frames : List (Frame F)

/-- A choice that is left as it is. A block that ends without a closing tag is salvaged. -/
def passChoice (s : Stream F) (finish : Option (Value F)) (choice : Value F) : Loop F :=
  if (string finish).getD [] ≠ [] ∧ s.inThinkBlock = true ∧ s.thinkBuf ≠ [] then
    ⟨{ s with inThinkBlock := false, thinkBuf := [] }, [choice], true,
      salvage R s.thinkBuf (ensureTemplate R s)⟩
  else ⟨s, [choice], true, []⟩

/-- The choice with the text for its content and no reasoning. -/
def renamed (cm delta : Bytes → Option (Value F)) (text : Bytes) : Value F :=
  .obj (update cm deltaKey (some (.obj (update (update delta contentKey
    (some (.str text))) reasoningKey none))))

/-- The block is closed; what follows the tag is content. -/
def closeBlock (s : Stream F) (cm delta : Bytes → Option (Value F)) (reasoning : Bytes) : Loop F :=
  let s := { s with inThinkBlock := false, thinkBuf := [] }
  let after := extractAfterThinkClose reasoning
  if after = [] then ⟨s, [.obj cm], false, []⟩ else ⟨s, [renamed cm delta after], true, []⟩

/-- Keeps reasoning for salvage, as far as the buffer goes. -/
def Stream.buffer (s : Stream F) (reasoning : Bytes) : Stream F :=
  if s.thinkBuf.length + reasoning.length ≤ maxThinkBufSize then
    { s with thinkBuf := s.thinkBuf ++ reasoning }
  else s

/-- A choice whose delta has reasoning. -/
def reasonChoice (s : Stream F) (cm delta : Bytes → Option (Value F)) (reasoning : Bytes) :
    Loop F :=
  if (string (delta contentKey)).isSome then
    ⟨s, [.obj (update cm deltaKey
      (some (.obj (update delta reasoningKey none))))], true, []⟩
  else if openThinkTag <:+: reasoning then
    if closeThinkTag <:+: reasoning then closeBlock s cm delta reasoning
    else ⟨{ s with inThinkBlock := true, thinkBuf := [] }, [.obj cm], false, []⟩
  else if s.inThinkBlock then
    if closeThinkTag <:+: reasoning then closeBlock s cm delta reasoning
    else ⟨s.buffer reasoning, [.obj cm], false, []⟩
  else ⟨s, [renamed cm delta reasoning], true, []⟩

/-- One choice. -/
def choice (s : Stream F) (c : Value F) : Loop F :=
  match c with
  | .obj cm =>
    match cm deltaKey with
    | some (.obj delta) =>
      match string (delta reasoningKey) with
      | some reasoning => reasonChoice s cm delta reasoning
      | none => passChoice R s (cm finishKey) c
    | _ => passChoice R s (cm finishKey) c
  | _ => ⟨s, [c], true, []⟩

/-- The loop over the choices. -/
def choices (s : Stream F) : List (Value F) → Loop F
  | [] => ⟨s, [], false, []⟩
  | c :: cs =>
    let one := choice R s c
    let rest := choices one.stream cs
    ⟨rest.stream, one.choices ++ rest.choices, one.emit || rest.emit, one.frames ++ rest.frames⟩

/-- The state once the top-level fields of a chunk are saved. -/
def Stream.save (s : Stream F) (m : Option (Bytes → Option (Value F))) : Stream F :=
  { s with lastChunkTemplate := s.lastChunkTemplate.or (some (templateOf m)) }

/-- A chunk that no fast path takes. -/
def slow (s : Stream F) (payload : Bytes) : Stream F × List (Frame F) :=
  match unmarshalMap R payload with
  | none => (s, [.data payload])
  | some none => (s.save none, [.chunk .null])
  | some (some m) =>
    match m choicesKey with
    | some (.arr cs) =>
      let loop := choices R (s.save (some m)) cs
      (loop.stream, loop.frames ++ if loop.emit then
        [.chunk (.obj (update m choicesKey (some (.arr loop.choices))))] else [])
    | _ => (s.save (some m), [.chunk (.obj m)])

/-! ### The loop -/

/-- The first payload is kept. -/
def Stream.note (s : Stream F) (payload : Bytes) : Stream F :=
  { s with firstPayload := if s.firstPayload = [] then payload else s.firstPayload }

/-- What a fast path makes of a chunk, if one takes it. -/
def fastPath (s : Stream F) (payload : Bytes) : Option (Stream F × List (Frame F)) :=
  if s.inThinkBlock then (suppressed payload).map fun r => (s.buffer r, [])
  else if ¬reasoningKey <:+: payload then some (s, [.data payload])
  else (untaggedReasoningKey payload).map fun i => (s, [.data (renamedReasoning payload i)])

/-- A data payload, with the fast paths or without. -/
def payloadStep (fast : Bool) (s : Stream F) (payload : Bytes) : Stream F × List (Frame F) :=
  if payload = donePayload then (s, [.done])
  else if fast then (fastPath (s.note payload) payload).getD (slow R (s.note payload) payload)
  else slow R (s.note payload) payload

/-- A line. -/
def lineStep (fast : Bool) (s : Stream F) (line : Bytes) : Stream F × List (Frame F) :=
  if dataPrefix.isPrefixOf line then payloadStep R fast s (line.drop dataPrefix.length)
  else (s, [.line line])

/-- `streamThinkDisabled`, on the lines of the answer. -/
def streamThinkDisabled (fast : Bool) (s : Stream F) : List Bytes → Stream F × List (Frame F)
  | [] => (s, [])
  | l :: ls =>
    let one := lineStep R fast s l
    let rest := streamThinkDisabled fast one.1 ls
    (rest.1, one.2 ++ rest.2)

end Viiwork.Proxy
