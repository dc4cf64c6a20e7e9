import Viiwork.Kvshare.Delta
import Viiwork.Kvshare.Sesshash

/-!
# Viiwork.Kvshare.Replica

A replica as a receiver keeps it (`store.go`): one directory with a state, the framing
bytes, and a file for each section. This module is what is *read* from it: the block and
chunk hashes of its sections, and the session file assembled from it, with the digest
checked or the trailer computed.

`state.json` holds a state or does not decode; a nil map of chunk hashes is `none`.
-/

namespace Viiwork.Kvshare

open Viiwork.Lib
open Sesshash (Hash)

/-! ### The files of a replica -/

structure ReplicaItem where
  /-- Empty for framing. -/
  section_ : Name
  len : Nat
  /-- The offset in `frames.bin`, for framing. -/
  frame : Nat
  deriving Repr, DecidableEq

abbrev Chunks := Name → Option (List UInt64)

structure ReplicaState where
  model : UInt64
  config : UInt64
  size : Nat
  /-- `fileDigest` of the file, empty when it is not known. -/
  digest : Bytes
  complete : Bool
  items : List ReplicaItem
  updated : Int
  tokens : Nat
  saveID : String
  /-- The hashes of each K/V section's chunks. -/
  chunks : Option Chunks
  /-- The trailer is computed on assembly. -/
  trailer : Bool

inductive StateFile where
  | undecodable
  | holds (st : ReplicaState)

structure Dir where
  state : Option StateFile
  stateTmp : Option StateFile
  frames : Option Bytes
  framesTmp : Option Bytes
  sections : Name → Option Bytes

def Dir.empty : Dir := ⟨none, none, none, none, fun _ => none⟩

/-- The file of a section; its name is validated like a key. -/
def sectionFile (name : Name) : Except Err Name :=
  if validKey name then .ok name else .error (.invalidSection name)

/-- `os.Open` of a file of the directory. -/
def opened (file : Option Bytes) : Except Err Bytes :=
  match file with
  | some b => .ok b
  | none => .error .notExist

def Dir.open_ (d : Dir) (name : Name) : Except Err Bytes := do
  let name ← sectionFile name
  opened (d.sections name)

/-! ### Hashes of the sections -/

variable (sha : Sha256)

/-- The block hashes of a section of `n` bytes, with `prev`'s for the whole blocks below
`keep`. -/
def hashSection (d : Dir) (name : Name) (keep n : Nat) (prev : Bytes) : Except Err Bytes := do
  let f ← d.open_ name
  let reuse := min (keep / blockSize) (prev.length / 16)
  let tail ← hashBlocks sha f (reuse * blockSize) (n - reuse * blockSize)
  return prev.take (reuse * 16) ++ tail

@[irreducible] def chunkSize : Nat := 256 * 2 ^ 10

def isKVSection (name : Name) : Bool := (ascii "kv").isPrefixOf name

/-- One chunk read into the buffer and hashed; a read that ends early leaves the rest of
the buffer as it was. -/
def hashChunk (f : Bytes) (n : Nat) (acc : List UInt64 × Bytes) (i : Nat) : List UInt64 × Bytes :=
  let c := min chunkSize (n - i * chunkSize)
  let read := readInto acc.2 f (i * chunkSize) c
  (acc.1 ++ [Sesshash.sum read 0], read ++ acc.2.drop c)

/-- The chunk hashes of `n` bytes of `f`, with `prev`'s for the whole chunks below
`keep`. -/
def chunkHashes (f : Bytes) (keep n : Nat) (prev : List UInt64) : List UInt64 :=
  let reuse := min (keep / chunkSize) prev.length
  ((List.range' reuse ((n + chunkSize - 1) / chunkSize - reuse)).foldl (hashChunk f n)
    (prev.take reuse, List.replicate chunkSize 0)).1

/-! ### Assembling the file -/

/-- `io.Copy` of `len` bytes to the assembled file. -/
def copyOut (src : Bytes) (len : Nat) : Except Err Bytes := do
  failIf ((src.take len).length ≠ len) .unexpectedEOF
  return src.take len

def pieceOf (d : Dir) (frames : Bytes) (it : ReplicaItem) : Except Err Bytes :=
  if it.section_ = [] then copyOut (frames.drop it.frame) it.len
  else do
    let src ← d.open_ it.section_
    copyOut src it.len

/-- The items of the replica one after the other. -/
def assemble (d : Dir) (items : List ReplicaItem) : Except Err Bytes := do
  let frames ← opened d.frames
  let pieces ← items.mapM (pieceOf d frames)
  return pieces.flatten

/-! ### The trailer -/

def sessEnd : Bytes := ascii "STRSEND" ++ [1]

@[irreducible] def sealBuffer : Nat := 4 * 2 ^ 20

/-- The `n` bytes at `off`, in the pieces in which they are read and hashed. -/
def sealRead (f : Bytes) (off n : Nat) : Except Err (List Bytes) :=
  (List.range ((n + sealBuffer - 1) / sealBuffer)).mapM fun i =>
    readAt f (off + i * sealBuffer) (min sealBuffer (n - i * sealBuffer))

/-- The chunks of a section from the `c`-th on, `n` bytes at `off`: each is hashed into
the payload's hash, and by itself to be checked. -/
def sealChunks (f : Bytes) (name : Name) : List UInt64 → Nat → Nat → Nat → Hash → Except Err Hash
  | [], _, _, _, h => .ok h
  | want :: wants, c, n, off, h => do
      let k := min n chunkSize
      let pieces ← sealRead f off k
      failIf ((pieces.foldl Hash.write (Hash.new 0)).sum64 ≠ want) (.chunkDamaged name c)
      sealChunks f name wants (c + 1) (n - k) (off + k) (pieces.foldl Hash.write h)

/-- One item of the payload, `n` bytes at `off`. -/
def sealItem (f : Bytes) (chunks : Option Chunks) (it : ReplicaItem) (n off : Nat) (h : Hash) :
    Except Err Hash :=
  match (if it.section_ = [] then none else chunks.bind fun c => c it.section_) with
  | none => do
      let pieces ← sealRead f off n
      return pieces.foldl Hash.write h
  | some wants => do
      failIf (wants.length ≠ (n + chunkSize - 1) / chunkSize)
        (.chunkCount it.section_ wants.length n)
      sealChunks f it.section_ wants 0 n off h

/-- The items from one on, which is the first when `skip` is the header's length. -/
def sealItems (f : Bytes) (chunks : Option Chunks) :
    List ReplicaItem → Nat → Nat → Hash → Except Err (Nat × Hash)
  | [], _, off, h => .ok (off, h)
  | it :: items, skip, off, h => do
      -- the header frame comes first and is not payload
      let n := it.len - skip
      let h ← sealItem f chunks it n off h
      sealItems f chunks items 0 (off + n) h

def writeAt (f : Bytes) (off : Nat) (b : Bytes) : Bytes :=
  f.take off ++ List.replicate (off - f.length) 0 ++ b ++ f.drop (off + b.length)

/-- Checks the chunks of the assembled file and writes its trailer. -/
def sealTrailer (f : Bytes) (st : ReplicaState) : Except Err Bytes := do
  let (off, h) ← sealItems f st.chunks st.items sessHeader sessHeader (Hash.new 0)
  failIf (off + sessTrailer ≠ st.size) (.assembledSize (off + sessTrailer) st.size)
  return writeAt f off (leBytes 8 h.sum64.toNat ++ sessEnd)

/-- The file that a complete replica makes. -/
def Dir.file (stale : Nat → Bytes) (d : Dir) (st : ReplicaState) : Except Err Bytes := do
  let f ← assemble d st.items
  if st.trailer then sealTrailer f st
  else if fileDigest sha stale f st.size ≠ st.digest then .error .digestMismatch
  else .ok f

end Viiwork.Kvshare
