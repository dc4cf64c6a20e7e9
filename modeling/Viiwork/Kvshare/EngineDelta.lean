import Viiwork.Kvshare.Store

/-!
# Viiwork.Kvshare.EngineDelta

Engine deltas (`enginedelta.go`): the engine's own delta of a save against the save that
the replica holds. The payload comes in the order of a session file, every section whole
except the K/V buffers, of which only what follows the kept chunks travels, with the hash
of every chunk.

The rebuild writes framing to a buffer and sections to their files as it reads, so an
error leaves the files half rewritten; `PutEngineDelta` then drops the replica.

The counts `rebuild.size` and `deltaReader.n` are of bytes that were read or kept, so they
do not wrap and are unbounded here.
-/

namespace Viiwork.Kvshare

open Viiwork.Lib Store Prog
open Sesshash (Hash)

/-! ### The header -/

def engineDeltaMagic : Bytes := ascii "STRSDLT" ++ [1]

def engineDeltaEnd : Bytes := ascii "STRSDEND"

def engineDeltaHeader : Nat := 80

structure EngineDeltaHeader where
  model : UInt64
  config : UInt64
  /-- The length of the delta's own payload. -/
  payload : Nat
  /-- The save it is against. -/
  base : UInt64
  new : UInt64
  /-- The length of the rebuilt file. -/
  fileSize : Nat
  deriving Repr, DecidableEq

def readEngineDeltaHeader (s : Stream) : Except Err (EngineDeltaHeader × Stream) :=
  match s.readFull engineDeltaHeader with
  | .error e => .error (.engineHeader e)
  | .ok (b, rest) => do
      failIf (slice b 0 8 ≠ engineDeltaMagic) .notEngineDelta
      failIf (leAt b 8 4 ≠ 1 ∨ leAt b 12 4 ≠ engineDeltaHeader)
        (.engineVersion (leAt b 8 4) (leAt b 12 4))
      failIf (Sesshash.sum (slice b 0 72) 0 ≠ .ofNat (leAt b 72 8)) .headerChecksum
      return ({ model := .ofNat (leAt b 16 8), config := .ofNat (leAt b 24 8),
                payload := leAt b 32 8, base := .ofNat (leAt b 40 8), new := .ofNat (leAt b 48 8),
                fileSize := leAt b 56 8 }, rest)

/-- The first 56 bytes of a session file's header. -/
def sessHeaderWords (model config : UInt64) (payload : Nat) : Bytes :=
  sessMagic ++ leBytes 4 sessVersion ++ leBytes 4 sessHeader ++ leBytes 8 model.toNat ++
    leBytes 8 config.toNat ++ leBytes 8 payload ++ List.replicate 16 0

/-- A session file's header. -/
def sessHeaderBytes (model config : UInt64) (payload : Nat) : Bytes :=
  let h := sessHeaderWords model config payload
  h ++ leBytes 8 (Sesshash.sum h 0).toNat

/-- `%016x`. -/
def saveIDString (id : UInt64) : String :=
  let digits := Nat.toDigits 16 id.toNat
  String.ofList (List.replicate (16 - digits.length) '0' ++ digits)

/-! ### Reading the payload -/

/-- `deltaReader`: what it reads is hashed and counted. -/
structure EngineReader where
  r : Stream
  h : Hash
  n : Nat

namespace EngineReader

/-- The reader when `b` has been read and `rest` is left. -/
def took (d : EngineReader) (b : Bytes) (rest : Stream) : EngineReader :=
  ⟨rest, d.h.write b, d.n + b.length⟩

def readFull (d : EngineReader) (n : Nat) : Except Err (Bytes × EngineReader) := do
  let (b, rest) ← d.r.readFull n
  return (b, d.took b rest)

def u64 (d : EngineReader) : Except Err (Nat × EngineReader) := do
  let (b, d) ← d.readFull 8
  return (leNat b, d)

end EngineReader

/-! ### The replica being rebuilt -/

structure Rebuild where
  frames : Bytes
  items : List ReplicaItem
  /-- The lengths of the base's sections not yet met. -/
  held : Name → Option Nat
  /-- The base's chunk hashes, then the new ones. -/
  chunks : Chunks
  keeps : Name → Nat
  tokens : Nat
  /-- The length of the rebuilt file so far. -/
  size : Nat

/-- The items with `n` more bytes of framing, which is at `frame` if it starts an item. -/
def growFraming (items : List ReplicaItem) (n frame : Nat) : List ReplicaItem :=
  match items.getLast? with
  | some it =>
    if it.section_ = [] then items.dropLast ++ [{ it with len := it.len + n }]
    else items ++ [⟨[], n, frame⟩]
  | none => [⟨[], n, frame⟩]

namespace Rebuild

def frame (b : Rebuild) (p : Bytes) : Rebuild :=
  { b with items := growFraming b.items p.length b.frames.length, frames := b.frames ++ p,
           size := b.size + p.length }

def u64Frame (b : Rebuild) (d : EngineReader) : Except Err (Nat × Rebuild × EngineReader) := do
  let (v, d) ← d.u64
  return (v, b.frame (leBytes 8 v), d)

def skip (n : Nat) (b : Rebuild) (d : EngineReader) : Except Err (Rebuild × EngineReader) := do
  let (p, d) ← d.readFull n
  return (b.frame p, d)

/-- The section is written. -/
def addSection (b : Rebuild) (name : Name) (keep len : Nat) : Rebuild :=
  { b with held := Function.update b.held name none, keeps := Function.update b.keeps name keep,
           items := b.items ++ [⟨name, len, 0⟩], size := b.size + len }

variable (key : Name) (limit : Nat)

/-- `size` bytes of a section: `keep` of the base's, then the delta's. -/
def section_ (name : Name) (keep size : Int) (b : Rebuild) (d : EngineReader) :
    StoreM (Rebuild × EngineReader) := do
  failIf (((b.held name).getD 0 : Int) < keep) (.keepPast name keep ((b.held name).getD 0))
  let rest ← patchSection key name keep size d.r
  return (b.addSection name keep.toNat size.toNat, d.took (d.r.data.take (size - keep).toNat) rest)

/-- A whole section of `elem`-byte elements. -/
def vec (name : Name) (elem : Nat) (b : Rebuild) (d : EngineReader) :
    StoreM (Rebuild × EngineReader) := do
  let (n, b, d) ← ofExcept (b.u64Frame d)
  failIf (elem ≠ 0 ∧ limit / elem < n) (.elementsPastFile name n limit)
  let b := if name = ascii "live.ids" then { b with tokens := n } else b
  b.section_ key name 0 (int64 (n * elem)) d

/-- `n` chunk hashes. -/
def readHashes (n : Nat) (d : EngineReader) : Except Err (List UInt64 × EngineReader) := do
  let (raw, d) ← d.readFull (8 * n)
  return ((List.range n).map fun i => .ofNat (leAt raw (8 * i) 8), d)

/-- The first difference between the lists, from the position `i` on. -/
def firstDiff (i : Nat) (xs ys : List UInt64) : Option Nat :=
  ((xs.zip ys).findIdx? fun p => decide (p.1 ≠ p.2)).map (i + ·)

/-- The hashes of the kept chunks are the base's, and those of the tail its own. -/
def checkChunks (name : Name) (f : Bytes) (keep size : Nat) (base hashes : List UInt64) :
    Except Err Unit := do
  let kept := keep / chunkSize
  match firstDiff 0 (hashes.take kept) base with
  | some i => .error (.chunkDiffers name i)
  | none =>
    let got := chunkHashes f keep size (hashes.take kept)
    match firstDiff kept (got.drop kept) (hashes.drop kept) with
    | some i => .error (.chunkMismatch name i)
    | none => .ok ()

/-- One delta-coded K/V buffer: its size, what it keeps, its tail, the hashes. -/
def kv (name : Name) (b : Rebuild) (d : EngineReader) : StoreM (Rebuild × EngineReader) := do
  let (size, d) ← ofExcept d.u64
  let (keep, d) ← ofExcept d.u64
  failIf (limit < size ∨ size < keep ∨ keep % chunkSize ≠ 0) (.kvKeep name keep size)
  let b := b.frame (leBytes 8 size)
  let base := (b.chunks name).getD []
  failIf (base.length < keep / chunkSize) (.keepPastChunks name keep base.length)
  let (b, d) ← b.section_ key name (int64 keep) (int64 size) d
  let (n, d) ← ofExcept d.u64
  failIf (n ≠ (size + chunkSize - 1) / chunkSize) (.chunkCount name n size)
  let (hashes, d) ← ofExcept (readHashes n d)
  let s ← get
  let f ← ofExcept (((s.dirs key).getD .empty).open_ name)
  ofExcept (checkChunks name f keep size base hashes)
  return ({ b with chunks := Function.update b.chunks name (some hashes) }, d)

/-- One after the other. -/
def seq {ι : Type} (step : ι → Rebuild → EngineReader → StoreM (Rebuild × EngineReader)) :
    List ι → Rebuild → EngineReader → StoreM (Rebuild × EngineReader)
  | [], b, d => pure (b, d)
  | i :: is, b, d => do
      let (b, d) ← step i b d
      seq step is b d

def checkpoint (tag : Bytes) (b : Rebuild) (d : EngineReader) :
    StoreM (Rebuild × EngineReader) := do
  let (b, d) ← b.vec key limit (named tag "ids") 4 d
  let (b, d) ← b.vec key limit (named tag "imgs") 16 d
  let (b, d) ← seq (fun part b d => b.vec key limit (named tag part) 1 d) stateParts b d
  ofExcept (b.skip 8 d)

def layer (i : Nat) (b : Rebuild) (d : EngineReader) : StoreM (Rebuild × EngineReader) := do
  let (b, d) ← ofExcept (b.skip (7 * 8) d)
  seq (fun part b d => b.kv key limit (named (kvTag i) part) d) kvParts b d

def payload (b : Rebuild) (d : EngineReader) : StoreM (Rebuild × EngineReader) := do
  let (b, d) ← ofExcept (b.skip (18 * 8 + 3 * 8) d)
  let (b, d) ← b.checkpoint key limit (ascii "live") d
  let (nckpt, b, d) ← ofExcept (b.u64Frame d)
  failIf (64 < nckpt) (.checkpoints nckpt)
  let (b, d) ← seq (fun i b d => b.checkpoint key limit (ckptTag i) d) (List.range nckpt) b d
  let (nkv, b, d) ← ofExcept (b.u64Frame d)
  failIf (1024 < nkv) (.layers nkv)
  seq (fun i b d => b.layer key limit i d) (List.range nkv) b d

end Rebuild

/-! ### The put -/

/-- The replica that the delta is against. -/
def engineBase (h : EngineDeltaHeader) (old : Option ReplicaState) : Except Err ReplicaState :=
  match old.filter ReplicaState.complete with
  | none => .error .noBase
  | some o => do
      failIf (o.model ≠ h.model ∨ o.config ≠ h.config) .otherModel
      failIf (o.saveID ≠ saveIDString h.base) (.otherBase o.saveID (saveIDString h.base))
      return o

/-- The rebuild before the payload: the header, whose payload length is not known yet. -/
def Rebuild.start (h : EngineDeltaHeader) (old : ReplicaState) : Rebuild :=
  Rebuild.frame ⟨[], [], heldLens old.items, old.chunks.getD fun _ => none, fun _ => 0, 0, 0⟩
    (sessHeaderBytes h.model h.config 0)

/-- The checks behind the payload: its length and hash, and the length of the file. -/
def engineTrailer (h : EngineDeltaHeader) (b : Rebuild) (d : EngineReader) : Except Err Unit := do
  failIf (d.n ≠ h.payload) (.payloadLength d.n h.payload)
  match d.r.readFull 16 with
  | .error e => .error (.deltaTrailer e)
  | .ok (tr, _) => do
      failIf (UInt64.ofNat (leAt tr 0 8) ≠ d.h.sum64 ∨ slice tr 8 8 ≠ engineDeltaEnd)
        .payloadChecksum
      failIf ((b.size + sessTrailer : Int) ≠ int64 h.fileSize)
        (.rebuiltSize (b.size + sessTrailer) h.fileSize)

/-- The framing with the final header. -/
def Rebuild.sealedFrames (h : EngineDeltaHeader) (b : Rebuild) : Bytes :=
  sessHeaderBytes h.model h.config (b.size - sessHeader) ++ b.frames.drop sessHeader

/-- The state after the put. -/
def engineState (h : EngineDeltaHeader) (now : Int) (b : Rebuild) : ReplicaState :=
  { model := h.model, config := h.config, size := h.fileSize, digest := [], complete := true,
    items := b.items, updated := now, tokens := b.tokens, saveID := saveIDString h.new,
    chunks := some b.chunks, trailer := true }

/-- From the first write to the return of the result: the new state and the keeps. -/
def engineBody (key : Name) (now : Int) (h : EngineDeltaHeader) (old : ReplicaState) (br : Stream) :
    StoreM (ReplicaState × (Name → Nat)) := do
  writeState key { old with complete := false }
  let (b, d) ← (Rebuild.start h old).payload key h.fileSize ⟨br, Hash.new 0, 0⟩
  ofExcept (engineTrailer h b d)
  removeGone key old.items b.held
  writeFrames key (b.sealedFrames h)
  let next := engineState h now b
  writeState key next
  return (next, b.keeps)

/-- `PutEngineDelta`. What is refused before the first write leaves the replica as it was. -/
def putEngineDelta (sha : Sha256) (key : Name) (now : Int) (delta : Stream) (want : FileMeta) :
    StoreM PutResult := do
  failIf (validKey key = false) (.invalidKey key)
  let (h, br) ← ofExcept (readEngineDeltaHeader delta)
  failIf (int64 h.fileSize ≠ want.size ∨ saveIDString h.new ≠ want.saveID) .otherSave
  let old ← readState key
  let old ← ofExcept (engineBase h old)
  let s ← get
  let prevMan := s.man key
  act (setManifest key none)
  let (next, keeps) ← onFail (Store.drop key) (engineBody key now h old br)
  finish sha key next keeps prevMan
  return { size := next.size }

end Viiwork.Kvshare
