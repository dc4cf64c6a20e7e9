import Viiwork.Kvshare.Sessfile

/-!
# Viiwork.Kvshare.Sesshash

Strata's `session_hash64` (`sesshash.go`): four lanes over 32-byte blocks, a tail, a
final mix. `write` keeps the bytes of an unfinished block pending.

`Hash.of seed b` is the state that one write of `b` leaves. Writing `p` to it gives
`Hash.of seed (b ++ p)`, so a digest does not depend on how the bytes were cut.
-/

namespace Viiwork.Kvshare

open Viiwork.Lib List

namespace Sesshash

def sp1 : UInt64 := 0x9E3779B185EBCA87
def sp2 : UInt64 := 0xC2B2AE3D27D4EB4F
def sp3 : UInt64 := 0x165667B19E3779F9
def sp4 : UInt64 := 0x85EBCA77C2B2AE63
def sp5 : UInt64 := 0x27D4EB2F165667C5

/-- `bits.RotateLeft64`, for `0 < k < 64`. -/
def rotateLeft (x : UInt64) (k : UInt64) : UInt64 := (x <<< k) ||| (x >>> (64 - k))

def sround (acc w : UInt64) : UInt64 := rotateLeft (acc + w * sp2) 31 * sp1

/-- The little-endian word at `off`. -/
def word (p : Bytes) (off : Nat) : UInt64 := .ofNat (leAt p off 8)

structure Lanes where
  a : UInt64
  b : UInt64
  c : UInt64
  d : UInt64
  deriving Repr, DecidableEq

def Lanes.block (l : Lanes) (p : Bytes) : Lanes where
  a := sround l.a (word p 0)
  b := sround l.b (word p 8)
  c := sround l.c (word p 16)
  d := sround l.d (word p 24)

/-- `pending` holds the `np` pending bytes. -/
structure Hash where
  lane : Lanes
  pending : Bytes
  total : UInt64
  deriving Repr, DecidableEq

namespace Hash

/-- A new hash with a seed. -/
def new (seed : UInt64) : Hash where
  lane := ⟨seed + sp1 + sp2, seed + sp2, seed, seed - sp1⟩
  pending := []
  total := 0

/-- The loop over `n` whole blocks: the lanes, and the bytes left. -/
def blocks : Nat → Lanes → Bytes → Lanes × Bytes
  | 0, l, p => (l, p)
  | n + 1, l, p => blocks n (l.block (p.take 32)) (p.drop 32)

def write (h : Hash) (p : Bytes) : Hash :=
  let total := h.total + .ofNat p.length
  let take := min (32 - h.pending.length) p.length
  let filled := h.pending ++ p.take take
  if h.pending ≠ [] ∧ filled.length < 32 then { h with pending := filled, total }
  else
    let (lane, p) := if h.pending ≠ [] then (h.lane.block filled, p.drop take) else (h.lane, p)
    let (lane, pending) := blocks (p.length / 32) lane p
    { lane, pending, total }

/-- The tail's words, then its last bytes. -/
def tail (np : Bytes) (d : UInt64) : UInt64 :=
  let d := (List.range (np.length / 8)).foldl
    (fun d i => rotateLeft (d ^^^ sround 0 (word np (8 * i))) 27 * sp1 + sp4) d
  (np.drop (8 * (np.length / 8))).foldl
    (fun d b => rotateLeft (d ^^^ (b.toUInt64 * sp5)) 11 * sp1) d

def sum64 (h : Hash) : UInt64 :=
  let l := h.lane
  let d := rotateLeft l.a 1 + rotateLeft l.b 7 + rotateLeft l.c 12 + rotateLeft l.d 18
  let d := [l.a, l.b, l.c, l.d].foldl (fun d v => (d ^^^ sround 0 v) * sp1 + sp4) d
  let d := tail h.pending (d + h.total)
  let d := (d ^^^ (d >>> 33)) * sp2
  let d := (d ^^^ (d >>> 29)) * sp3
  d ^^^ (d >>> 32)

end Hash

/-- `Sum`, the one-shot form. -/
def sum (p : Bytes) (seed : UInt64) : UInt64 := ((Hash.new seed).write p).sum64

/-! ### A digest does not depend on the cuts -/

namespace Hash

/-- A write hashes the whole blocks of the pending bytes and the new ones together. -/
theorem write_eq {h : Hash} (hlt : h.pending.length < 32) (p : Bytes) :
    h.write p =
      { lane := (blocks ((h.pending ++ p).length / 32) h.lane (h.pending ++ p)).1
        pending := (blocks ((h.pending ++ p).length / 32) h.lane (h.pending ++ p)).2
        total := h.total + .ofNat p.length } := by
  unfold write
  dsimp only
  by_cases hnp : h.pending = []
  · simp [hnp]
  · by_cases hfill : 32 - h.pending.length ≤ p.length
    · -- the pending block is completed, and the rest hashed after it
      have hlen : (h.pending ++ p.take (32 - h.pending.length)).length = 32 := by
        rw [length_append, length_take]
        omega
      rw [min_eq_left hfill, if_neg (by omega), if_pos hnp]
      have hsplit : h.pending ++ p =
          (h.pending ++ p.take (32 - h.pending.length)) ++ p.drop (32 - h.pending.length) := by
        rw [append_assoc, take_append_drop]
      have hcount : (h.pending ++ p).length / 32 =
          (p.drop (32 - h.pending.length)).length / 32 + 1 := by
        rw [length_append, length_drop]
        omega
      rw [hcount, blocks, hsplit, take_left' hlen, drop_left' hlen]
    · have hlen : (h.pending ++ p).length < 32 := by
        rw [length_append]
        omega
      rw [min_eq_right (by omega), take_length, if_pos ⟨hnp, hlen⟩,
        Nat.div_eq_of_lt hlen, blocks]

/-- The bytes left are those past the blocks. -/
theorem blocks_snd (n : Nat) (l : Lanes) (p : Bytes) : (blocks n l p).2 = p.drop (32 * n) := by
  induction n generalizing l p with
  | zero => simp [blocks]
  | succ n ih =>
    rw [blocks, ih, drop_drop]
    congr 1
    ring

/-- Blocks of a front of whole blocks, then those of the rest. -/
theorem blocks_append {n : Nat} {front : Bytes} (hfront : front.length = 32 * n) (m : Nat)
    (l : Lanes) (p : Bytes) :
    blocks (n + m) l (front ++ p) = blocks m (blocks n l front).1 p := by
  induction n generalizing l front with
  | zero =>
    have hnil : front = [] := length_eq_zero_iff.1 (by simpa using hfront)
    subst hnil
    simp [blocks]
  | succ n ih =>
    have hle : 32 ≤ front.length := by omega
    rw [Nat.succ_add, blocks, blocks, take_append_of_le_length hle,
      drop_append_of_le_length hle]
    exact ih (by rw [length_drop]; omega) _

/-- The blocks of `b ++ p`: those of `b`, then those of what `b` leaves and `p`. -/
theorem blocks_pending (l : Lanes) (b p : Bytes) :
    blocks ((b ++ p).length / 32) l (b ++ p) =
      blocks ((b.drop (32 * (b.length / 32)) ++ p).length / 32) (blocks (b.length / 32) l b).1
        (b.drop (32 * (b.length / 32)) ++ p) := by
  have hfront : (b.take (32 * (b.length / 32))).length = 32 * (b.length / 32) := by
    rw [length_take]
    omega
  have hsplit : ∀ q : Bytes, b ++ q =
      b.take (32 * (b.length / 32)) ++ (b.drop (32 * (b.length / 32)) ++ q) := by
    intro q
    rw [← append_assoc, take_append_drop]
  have hcount : (b ++ p).length / 32 =
      b.length / 32 + (b.drop (32 * (b.length / 32)) ++ p).length / 32 := by
    simp only [length_append, length_drop]
    omega
  have hlanes : (blocks (b.length / 32) l b).1 =
      (blocks (b.length / 32) l (b.take (32 * (b.length / 32)))).1 := by
    have := blocks_append hfront 0 l (b.drop (32 * (b.length / 32)))
    rw [Nat.add_zero, take_append_drop] at this
    rw [this]
    rfl
  rw [hcount, hlanes]
  conv_lhs => rw [hsplit p]
  exact blocks_append hfront _ _ _

/-- The state after the bytes `b` in one write. -/
def of (seed : UInt64) (b : Bytes) : Hash := (new seed).write b

variable (seed : UInt64)

theorem of_eq (b : Bytes) :
    of seed b =
      { lane := (blocks (b.length / 32) (new seed).lane b).1
        pending := (blocks (b.length / 32) (new seed).lane b).2
        total := .ofNat b.length } := by
  rw [of, write_eq (by simp [new])]
  simp [new]

/-- **Writes add up.** -/
theorem write_of (b p : Bytes) : (of seed b).write p = of seed (b ++ p) := by
  have hlane : (of seed b).lane = (blocks (b.length / 32) (new seed).lane b).1 := by rw [of_eq]
  have hpending : (of seed b).pending = b.drop (32 * (b.length / 32)) := by rw [of_eq, blocks_snd]
  have htotal : (of seed b).total = .ofNat b.length := by rw [of_eq]
  have hlt : (of seed b).pending.length < 32 := by
    rw [hpending, length_drop]
    omega
  have hsum : UInt64.ofNat (b ++ p).length = .ofNat b.length + .ofNat p.length := by
    rw [length_append, UInt64.ofNat_add]
  rw [write_eq hlt, hlane, hpending, htotal, of_eq seed (b ++ p), hsum,
    blocks_pending (new seed).lane b p]

@[simp] theorem of_nil : of seed [] = new seed := by
  rw [of_eq]
  rfl

@[simp] theorem sum64_of (b : Bytes) : (of seed b).sum64 = sum b seed := rfl

/-- A call on a hash. -/
inductive Call where
  | write (p : Bytes)
  | sum64

/-- The hash after a call, and the digest if one was asked for. -/
def call (h : Hash) : Call → Hash × List UInt64
  | .write p => (h.write p, [])
  | .sum64 => (h, [h.sum64])

/-- The digests that a sequence of calls returns. -/
def digests (h : Hash) : List Call → List UInt64
  | [] => []
  | c :: cs => (h.call c).2 ++ digests (h.call c).1 cs

/-- The one-shot digests of what was written before each question, after the bytes `b`. -/
def oneShots (seed : UInt64) (b : Bytes) : List Call → List UInt64
  | [] => []
  | .write p :: cs => oneShots seed (b ++ p) cs
  | .sum64 :: cs => sum b seed :: oneShots seed b cs

/-- **Run lemma.** -/
theorem digests_of (b : Bytes) (cs : List Call) : (of seed b).digests cs = oneShots seed b cs := by
  induction cs generalizing b with
  | nil => rfl
  | cons c cs ih =>
    cases c with
    | write p => simp [digests, call, oneShots, write_of, ih]
    | sum64 => simp [digests, call, oneShots, ih]

/-- **The hash is split-invariant**: whatever the cuts and wherever a digest is asked for, each
digest is the one-shot digest of the bytes written before it. -/
theorem digests_eq_oneShots (seed : UInt64) (cs : List Call) :
    (new seed).digests cs = oneShots seed [] cs ∧
      ∀ ps : List Bytes, (ps.foldl write (new seed)).sum64 = sum ps.flatten seed := by
  constructor
  · rw [← of_nil, digests_of]
  · have hfold : ∀ (ps : List Bytes) (b : Bytes),
        ps.foldl write (of seed b) = of seed (b ++ ps.flatten) := by
      intro ps
      induction ps with
      | nil => simp
      | cons p ps ih => simp [write_of, ih]
    intro ps
    rw [← of_nil, hfold, nil_append, sum64_of]

end Hash

end Sesshash

end Viiwork.Kvshare
