import Viiwork.Kvshare.Format

/-!
# Viiwork.Kvshare.Stream

What the package reads from: a file, at an offset (`ReadAt`), and a **stream**, from its
front (`io.ReadFull`, `io.Copy` of a limited reader). A stream is the bytes it will
deliver and how it ends, cleanly or with an error of its own.

The two kinds of read differ at a clean end. `io.ReadFull` answers `io.EOF` when nothing
was left and `io.ErrUnexpectedEOF` when something was; `io.Copy` just copies less.
-/

namespace Viiwork.Kvshare

open Viiwork.Lib

/-- The package's errors, and those of its readers and files. -/
inductive Err where
  | eof
  | unexpectedEOF
  /-- The stream's own error. -/
  | broken
  /-- `fs.ErrNotExist`. -/
  | notExist
  /-- `EINVAL`. -/
  | invalidArgument
  /-- A `state.json` that does not decode. -/
  | undecodable
  /-- "too short for a session file" -/
  | tooShort
  /-- "not a Strata session file" -/
  | notSession
  /-- "session file version %d, want 1" -/
  | sessionVersion (v : Nat)
  /-- "header size %d, want 64" -/
  | headerSize (hs : Nat)
  /-- "payload %d does not fit a %d-byte file" -/
  | payloadFit (payload : Int) (size : Nat)
  /-- "a field of %d bytes at %d runs past the payload" -/
  | fieldPastPayload (n p : Nat)
  /-- "a count at %d runs past the payload" -/
  | countPastPayload (p : Nat)
  /-- "%s: %d elements run past the payload" -/
  | elementsPastPayload (name : Name) (n : Nat)
  /-- "payload walk ended at %d, payload ends at %d" -/
  | walkEnded (p stop : Nat)
  /-- "delta header: %w" -/
  | deltaHeader (e : Err)
  /-- "not a delta stream" -/
  | notDelta
  /-- "delta of %d bytes in %d items" -/
  | deltaSize (size : Int) (items : Nat)
  /-- "delta built %d of %d bytes" -/
  | built (built size : Int)
  /-- "delta item %q len %d keep %d at %d of %d" -/
  | item (name : Name) (len keep built size : Int)
  /-- "invalid key %q" -/
  | invalidKey (key : Name)
  /-- "invalid section name %q" -/
  | invalidSection (name : Name)
  /-- "the delta builds another file than the request declared" -/
  | otherFile
  /-- "%s: keep %d of a %d-byte copy", "%s: keep %d of a %d-byte base" -/
  | keepPast (name : Name) (keep : Int) (held : Nat)
  /-- "no complete replica of %q" -/
  | noReplica (key : Name)
  /-- "assembled file does not match the sender's digest" -/
  | digestMismatch
  /-- "engine delta header: %w" -/
  | engineHeader (e : Err)
  /-- "not an engine delta" -/
  | notEngineDelta
  /-- "engine delta version %d, header %d" -/
  | engineVersion (v hs : Nat)
  /-- "engine delta header checksum mismatch" -/
  | headerChecksum
  /-- "the delta builds another save than the request declared" -/
  | otherSave
  /-- 409 "no replica to apply a delta to" -/
  | noBase
  /-- 409 "the delta is for another model or configuration" -/
  | otherModel
  /-- 409 "the replica holds save %s, the delta is against %s" -/
  | otherBase (held base : String)
  /-- "%s: %d elements in a %d-byte file" -/
  | elementsPastFile (name : Name) (n limit : Nat)
  /-- "%s: keep %d of %d" -/
  | kvKeep (name : Name) (keep size : Nat)
  /-- "%s: keep %d past the base's %d chunks" -/
  | keepPastChunks (name : Name) (keep chunks : Nat)
  /-- "%s: %d chunk hashes for %d bytes" -/
  | chunkCount (name : Name) (n size : Nat)
  /-- "%s: chunk %d differs from the base's" -/
  | chunkDiffers (name : Name) (i : Nat)
  /-- "%s: chunk %d does not match the engine's hash" -/
  | chunkMismatch (name : Name) (i : Nat)
  /-- "%d checkpoints" -/
  | checkpoints (n : Nat)
  /-- "%d K/V layers" -/
  | layers (n : Nat)
  /-- "delta payload is %d bytes, the header says %d" -/
  | payloadLength (n payload : Nat)
  /-- "delta trailer: %w" -/
  | deltaTrailer (e : Err)
  /-- "delta payload checksum mismatch" -/
  | payloadChecksum
  /-- "the rebuilt file is %d bytes, the delta says %d" -/
  | rebuiltSize (size fileSize : Nat)
  /-- "%s: chunk %d is damaged" -/
  | chunkDamaged (name : Name) (i : Nat)
  /-- "assembled %d bytes, the replica is %d" -/
  | assembledSize (n size : Nat)
  deriving Repr, DecidableEq

/-! ### Files -/

/-- The `n` bytes at `off`. -/
def slice (b : Bytes) (off n : Nat) : Bytes := (b.drop off).take n

variable {off n : Nat}

theorem length_slice {b : Bytes} (h : off + n ≤ b.length) : (slice b off n).length = n := by
  simp only [slice, List.length_take, List.length_drop]
  omega

theorem slice_add (b : Bytes) (off m n : Nat) :
    slice b off (m + n) = slice b off m ++ slice b (off + m) n := by
  rw [slice, List.take_add, List.drop_drop]
  rfl

theorem take_slice (b : Bytes) (off n k : Nat) : (slice b off n).take k = slice b off (min k n) := by
  rw [slice, List.take_take]
  rfl

/-- `ReadAt` of `n` bytes; fewer at the end of the file are an `io.EOF`. -/
def readAt (f : Bytes) (off n : Nat) : Except Err Bytes :=
  if off + n ≤ f.length then .ok (slice f off n) else .error .eof

theorem readAt_ok {f : Bytes} (h : off + n ≤ f.length) : readAt f off n = .ok (slice f off n) := if_pos h

theorem readAt_eq_ok {f b : Bytes} (h : readAt f off n = .ok b) :
    off + n ≤ f.length ∧ b = slice f off n := by
  unfold readAt at h
  split at h
  · rename_i hle
    cases h
    exact ⟨hle, rfl⟩
  · cases h

/-! ### Streams -/

/-- How a stream ends. -/
inductive StreamEnd where
  | eof
  | broken
  deriving Repr, DecidableEq

structure Stream where
  data : Bytes
  fin : StreamEnd
  deriving Repr, DecidableEq

namespace Stream

/-- `io.ReadFull` of `n` bytes. -/
def readFull (s : Stream) (n : Nat) : Except Err (Bytes × Stream) :=
  if n ≤ s.data.length then .ok (s.data.take n, { s with data := s.data.drop n })
  else .error (match s.fin with
    | .broken => .broken
    | .eof => if s.data = [] then .eof else .unexpectedEOF)

/-- `io.Copy` of the next `n` bytes: what was copied, and whether the stream failed
before. -/
def copyN (s : Stream) (n : Nat) : Bytes × Stream × Option Err :=
  (s.data.take n, { s with data := s.data.drop n },
    if s.data.length < n ∧ s.fin = .broken then some .broken else none)

theorem readFull_append (b rest : Bytes) (fin : StreamEnd) :
    readFull ⟨b ++ rest, fin⟩ b.length = .ok (b, ⟨rest, fin⟩) := by
  simp [readFull]

theorem copyN_append (b rest : Bytes) (fin : StreamEnd) :
    copyN ⟨b ++ rest, fin⟩ b.length = (b, ⟨rest, fin⟩, none) := by
  simp [copyN]

/-- A full read takes its bytes off the front. -/
theorem readFull_eq_ok {s s' : Stream} {n : Nat} {b : Bytes} (h : s.readFull n = .ok (b, s')) :
    s = ⟨b ++ s'.data, s'.fin⟩ ∧ b.length = n := by
  unfold readFull at h
  split at h
  · rename_i hle
    cases h
    exact ⟨by simp, by simpa using hle⟩
  · cases h

end Stream

end Viiwork.Kvshare
