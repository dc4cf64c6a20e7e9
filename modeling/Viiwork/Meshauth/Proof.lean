import Viiwork.Lib.Bytes
import Viiwork.Lib.Prog
import Viiwork.Update.Version

/-!
# Viiwork.Meshauth.Proof

The membership proof of a request (`meshauth.go`) and the memory of the nonces that were used
(`nonce.go`).

A clock counts nanoseconds. The timestamp of a proof and what it is compared with are whole
seconds; the age of a nonce is not. HMAC and SHA-256 are parameters.
-/

namespace Viiwork.Meshauth

open Viiwork.Lib Viiwork.Update

/-- A second, in the nanoseconds of the clock. -/
def second : Int := 10 ^ 9

/-- What the clock says, in whole seconds. -/
def unix (now : Int) : Int := now / second

def skewWindow : Int := 120 * second

def nonceBytes : Nat := 16

/-! ### Requests -/

/-- The headers of a proof. -/
structure Proof where
  node : String
  ts : String
  nonce : String
  auth : String
  deriving Repr, DecidableEq

/-- What the checks read of a request. -/
structure Request where
  method : String
  requestURI : String
  body : Bytes
  proof : Proof
  /-- The node that the request claims to be forwarded from. -/
  forwarded : String := ""
  deriving Repr, DecidableEq

structure Crypto where
  hmac : Bytes → String → String
  sha256 : Bytes → String

inductive ProofErr
  /-- The caller did not try. -/
  | noProof
  | badProof
  deriving Repr, DecidableEq

variable (cr : Crypto)

def bodyDigest (body : Bytes) : String := if body = [] then "" else cr.sha256 body

/-- What a caller signs. -/
def canonicalRequest (method pathQuery ts nonce nodeID bodyHex : String) : String :=
  "\n".intercalate ["v1", "req", method, pathQuery, ts, nonce, nodeID, bodyHex]

structure Signer where
  secret : Bytes
  nodeID : String
  deriving Repr, DecidableEq

def Signer.mac (s : Signer) (canonical : String) : String := "v1=" ++ cr.hmac s.secret canonical

/-! ### The checks -/

/-- The timestamp is within the window around the clock, in whole seconds. -/
def checkSkew (now : Int) (ts : String) : Except ProofErr Unit :=
  match atoi ts.toList with
  | none => .error .badProof
  | some secs =>
    failIf (secs < unix now - skewWindow / second ∨ unix now + skewWindow / second < secs)
      .badProof

def isURLBase64 (c : Char) : Bool := c.isAlphanum || c == '-' || c == '_'

/-- Sixteen bytes in unpadded base64; the decoder skips line breaks. -/
def checkNonce (nonce : String) : Except ProofErr Unit :=
  let cs := nonce.toList.filter fun c => c ≠ '\r' ∧ c ≠ '\n'
  failIf (¬(cs.all isURLBase64 ∧ cs.length = (8 * nonceBytes + 5) / 6)) .badProof

/-- The nonce and the signer of a proof that verifies. -/
def Signer.verifyRequest (s : Signer) (now : Int) (r : Request) :
    Except ProofErr (String × String) := do
  let p := r.proof
  failIf (p.auth = "" ∧ p.nonce = "" ∧ p.ts = "" ∧ p.node = "") ProofErr.noProof
  checkSkew now p.ts
  checkNonce p.nonce
  failIf (p.node = "") ProofErr.badProof
  let want := s.mac cr
    (canonicalRequest r.method r.requestURI p.ts p.nonce p.node (bodyDigest cr r.body))
  failIf (p.auth ≠ want) ProofErr.badProof
  return (p.nonce, p.node)

variable {cr}

theorem verifyRequest_eq_ok {s : Signer} {now : Int} {r : Request} {nonce node : String}
    (h : s.verifyRequest cr now r = .ok (nonce, node)) :
    nonce = r.proof.nonce ∧ node = r.proof.node ∧ checkSkew now r.proof.ts = .ok () := by
  obtain ⟨_, -, h₁⟩ := bind_eq_ok.1 h
  obtain ⟨_, hskew, h₂⟩ := bind_eq_ok.1 h₁
  obtain ⟨_, -, h₃⟩ := bind_eq_ok.1 h₂
  obtain ⟨_, -, h₄⟩ := bind_eq_ok.1 h₃
  obtain ⟨_, -, h₅⟩ := bind_eq_ok.1 h₄
  cases h₅
  exact ⟨rfl, rfl, hskew⟩

/-! ### The nonces -/

/-- The nonces that were used, with the time of their use. -/
structure NonceCache where
  seen : List (String × Int) := []
  deriving Repr, DecidableEq

namespace NonceCache

/-- The nonces that are not too old. -/
def sweep (c : NonceCache) (ttl now : Int) : NonceCache :=
  ⟨c.seen.filter fun e => now - e.2 ≤ ttl⟩

/-- Records a nonce and says whether it was fresh. -/
def use (c : NonceCache) (ttl now : Int) (nonce : String) : Bool × NonceCache :=
  if nonce ∈ (c.sweep ttl now).seen.map Prod.fst then (false, c.sweep ttl now)
  else (true, ⟨(nonce, now) :: (c.sweep ttl now).seen⟩)

variable {c c' : NonceCache} {ttl now : Int} {nonce : String} {fresh : Bool}

theorem mem_sweep {e : String × Int} :
    e ∈ (c.sweep ttl now).seen ↔ e ∈ c.seen ∧ now - e.2 ≤ ttl := by
  rw [sweep, List.mem_filter, decide_eq_true_eq]

/-- What is not too old stays. -/
theorem mem_use (h : c.use ttl now nonce = (fresh, c')) {e : String × Int} (he : e ∈ c.seen)
    (hage : now - e.2 ≤ ttl) : e ∈ c'.seen := by
  unfold use at h
  split_ifs at h
  · cases h
    exact mem_sweep.2 ⟨he, hage⟩
  · cases h
    exact List.mem_cons_of_mem _ (mem_sweep.2 ⟨he, hage⟩)

/-- A nonce that was used and is not too old is not fresh. -/
theorem use_eq_false (h : c.use ttl now nonce = (fresh, c')) {t : Int} (he : (nonce, t) ∈ c.seen)
    (hage : now - t ≤ ttl) : fresh = false := by
  unfold use at h
  split_ifs at h with hmem
  · cases h
    rfl
  · exact absurd (List.mem_map.2 ⟨_, mem_sweep.2 ⟨he, hage⟩, rfl⟩) hmem

theorem mem_of_use_eq_true (h : c.use ttl now nonce = (true, c')) : (nonce, now) ∈ c'.seen := by
  unfold use at h
  split_ifs at h
  · cases h
  · cases h
    exact List.mem_cons_self

end NonceCache

end Viiwork.Meshauth
