import Viiwork.Kvshare.Sessfile
import Viiwork.Lib.KeyedList

/-!
# Viiwork.Kvshare.Delta

Manifests, the **diff** of a session file against one, and the delta stream (`delta.go`).

SHA-256 is a parameter. The workers of `parallel` only share the list of jobs, so its
results are those of the jobs in order. Their buffers do show: `fileDigest` takes a read
that ends early at the end of the file for a whole one, and hashes what the worker's
buffer held before. `stale` is that, for each chunk.
-/

namespace Viiwork.Kvshare

open Viiwork.Lib

structure Sha256 where
  sum : Bytes → Bytes
  length_sum : ∀ b, (sum b).length = 32

variable (sha : Sha256)

@[irreducible] def blockSize : Nat := 64 * 2 ^ 10

/-- The granularity of a file digest. -/
@[irreducible] def digestChunk : Nat := 4 * 2 ^ 20

/-! ### Manifests -/

structure SectionManifest where
  name : Name
  len : Nat
  /-- 16 bytes for each whole block. -/
  blocks : Bytes
  deriving Repr, DecidableEq

namespace SectionManifest

def count (s : SectionManifest) : Nat := s.blocks.length / 16

def block (s : SectionManifest) (i : Nat) : Bytes := slice s.blocks (i * 16) 16

end SectionManifest

structure Manifest where
  model : UInt64
  config : UInt64
  size : Nat
  sections : List SectionManifest
  saveID : String
  deriving Repr, DecidableEq

/-- A block's hash in a manifest. -/
def blockHash (b : Bytes) : Bytes := (sha.sum b).take 16

/-- The hashes of the whole blocks of `n` bytes at `off`. -/
def hashBlocks (r : Bytes) (off n : Nat) : Except Err Bytes := do
  let hashes ← (List.range (n / blockSize)).mapM fun b => do
    let buf ← readAt r (off + b * blockSize) blockSize
    return blockHash sha buf
  return hashes.flatten

/-! ### The digest of a file -/

/-- The first `c` bytes of a buffer after a read at `off` into them. -/
def readInto (stale : Bytes) (r : Bytes) (off c : Nat) : Bytes :=
  slice r off c ++ (stale.take c).drop (slice r off c).length

def fileDigest (stale : Nat → Bytes) (r : Bytes) (size : Nat) : Bytes :=
  sha.sum ((List.range ((size + digestChunk - 1) / digestChunk)).flatMap fun i =>
    sha.sum (readInto (stale i) r (i * digestChunk) (min digestChunk (size - i * digestChunk))))

/-! ### Plans -/

/-- One piece of a session file in order: framing, with an empty name, or a section, of
which the receiver keeps the first `keep` bytes of its own copy. -/
structure Item where
  section_ : Name
  off : Nat
  len : Nat
  keep : Nat
  deriving Repr, DecidableEq

structure Plan where
  items : List Item
  size : Nat
  /-- The bytes that travel. -/
  data : Nat
  digest : Bytes
  model : UInt64
  config : UInt64
  deriving Repr, DecidableEq

/-- The leading blocks of the section that match the receiver's, counted from `b` on,
of `fuel` that the receiver has. -/
def matching (r : Bytes) (s : Section) (bs : SectionManifest) : Nat → Nat → Except Err Nat
  | 0, b => .ok b
  | fuel + 1, b =>
    if (b + 1) * blockSize ≤ s.len then do
      let buf ← readAt r (s.off + b * blockSize) blockSize
      if blockHash sha buf ≠ bs.block b then return b
      matching r s bs fuel (b + 1)
    else .ok b

/-- The receiver's section of a name; a manifest with another identity has none. -/
def baseSec (l : Layout) (base : Option Manifest) (name : Name) : Option SectionManifest :=
  match base with
  | none => none
  | some m =>
    if m.model = l.model ∧ m.config = l.config then
      lastWith SectionManifest.name name m.sections
    else none

def keepOf (r : Bytes) (l : Layout) (base : Option Manifest) (s : Section) : Except Err Nat :=
  match baseSec l base s.name with
  | none => .ok 0
  | some bs => do
      let b ← matching sha r s bs bs.count 0
      return b * blockSize

/-- The framing between two positions. -/
def framing (pos off : Nat) : List Item := if pos < off then [⟨[], pos, off - pos, 0⟩] else []

def planItems (size : Nat) : Nat → List Section → List Nat → List Item
  | pos, s :: ss, keep :: keeps =>
    framing pos s.off ++ ⟨s.name, s.off, s.len, keep⟩ ::
      planItems size (s.off + s.len) ss keeps
  | pos, _, _ => framing pos size

/-- Plans a new session file against the receiver's manifest. -/
def diff (stale : Nat → Bytes) (r : Bytes) (l : Layout) (base : Option Manifest) :
    Except Err Plan := do
  let keeps ← l.sections.mapM (keepOf sha r l base)
  let items := planItems l.size 0 l.sections keeps
  return { items, size := l.size, data := (items.map fun it => it.len - it.keep).sum,
           digest := fileDigest sha stale r l.size, model := l.model, config := l.config }

/-! ### The stream -/

def deltaMagic : Bytes := ascii "KVDELTA2"

/-- An item's name, length and keep. -/
def itemHead (it : Item) : Bytes :=
  leBytes 2 it.section_.length ++ it.section_ ++ (leBytes 8 it.len ++ leBytes 8 it.keep)

def encodeItem (r : Bytes) (it : Item) : Bytes :=
  itemHead it ++ slice r (it.off + it.keep) (it.len - it.keep)

/-- The plan with the new file's bytes past each item's keep. -/
def writeDelta (r : Bytes) (p : Plan) : Bytes :=
  deltaMagic ++ leBytes 8 p.size ++ p.digest ++ leBytes 8 p.model.toNat ++
    leBytes 8 p.config.toNat ++ leBytes 8 p.items.length ++ p.items.flatMap (encodeItem r)

structure DeltaHeader where
  size : Nat
  digest : Bytes
  model : UInt64
  config : UInt64
  items : Nat
  deriving Repr, DecidableEq

structure DeltaReader where
  br : Stream
  header : DeltaHeader
  left : Nat
  built : Nat
  deriving Repr, DecidableEq

def newDeltaReader (s : Stream) : Except Err DeltaReader :=
  match s.readFull 72 with
  | .error e => .error (.deltaHeader e)
  | .ok (hdr, br) => do
      failIf (slice hdr 0 8 ≠ deltaMagic) .notDelta
      let size := int64 (leAt hdr 8 8)
      let items := leAt hdr 64 8
      failIf (size < 0 ∨ 2 ^ 20 < items) (.deltaSize size items)
      return { br, left := items, built := 0,
               header := { size := size.toNat, digest := slice hdr 16 32,
                           model := .ofNat (leAt hdr 48 8), config := .ofNat (leAt hdr 56 8),
                           items } }

/-- The next item; its `len - keep` new bytes are the next of the stream. After the last
item the error is `io.EOF`, as it is when the stream ends before a field of an item. -/
def DeltaReader.next (d : DeltaReader) : Except Err (Item × DeltaReader) :=
  if d.left = 0 then
    if d.built ≠ d.header.size then .error (.built d.built d.header.size) else .error .eof
  else do
    let (nl, br) ← d.br.readFull 2
    let (name, br) ← br.readFull (leNat nl)
    let (lk, br) ← br.readFull 16
    let len := int64 (leAt lk 0 8)
    let keep := int64 (leAt lk 8 8)
    failIf (len < 0 ∨ keep < 0 ∨ len < keep ∨ (d.header.size : Int) - d.built < len ∨
      (name = [] ∧ keep ≠ 0)) (.item name len keep d.built d.header.size)
    return (⟨name, d.built, len.toNat, keep.toNat⟩,
      { d with br, left := d.left - 1, built := d.built + len.toNat })

end Viiwork.Kvshare
