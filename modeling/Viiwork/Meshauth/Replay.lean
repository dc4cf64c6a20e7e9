import Viiwork.Lib.Run
import Viiwork.Meshauth.Proof

/-!
# Viiwork.Meshauth.Replay

Replays against the two callers that remember nonces: the forwards of `forwardauth.go` and the
alias writes of `api.go`, in a secured mesh.

Both verify the proof, by one clock reading for each secret that is tried, and then look the nonce
up by another. Calls run side by side, so these are separate steps, and any others may come in
between; the clock does not go back.

A proof passes the check of its timestamp for 241 seconds, from the beginning of the first second
of the window to the end of the last, and its nonce is remembered for 240. Within these it is
accepted once (`accepted_once`), and in the last second it may be accepted again (`accepted_twice`).
-/

namespace Viiwork.Meshauth

open Viiwork.Lib List

variable (cr : Crypto)

/-! ### The two callers -/

/-- A proof by the current secret or by the previous one. -/
def verifyEither (primary : Signer) (previous : Option Signer) (now now' : Int) (r : Request) :
    Except ProofErr (String × String) :=
  match primary.verifyRequest cr now r, previous with
  | .error .badProof, some previous => previous.verifyRequest cr now' r
  | out, _ => out

/-- Why a call is refused. -/
inductive Refusal
  | notForwarded
  | proof (err : ProofErr)
  | signedBy (node : String)
  deriving Repr, DecidableEq

structure ForwardAuth where
  primary : Signer
  previous : Option Signer
  deriving Repr, DecidableEq

/-- What `Verify` does before it looks the nonce up: the signer must be the claimed origin. -/
def ForwardAuth.check (a : ForwardAuth) (now now' : Int) (r : Request) :
    Except Refusal String := do
  failIf (r.forwarded = "") Refusal.notForwarded
  let (nonce, signer) ← (verifyEither cr a.primary a.previous now now' r).mapError .proof
  failIf (signer ≠ r.forwarded) (Refusal.signedBy signer)
  return nonce

structure Authorizer where
  primary : Signer
  previous : Option Signer
  deriving Repr, DecidableEq

/-- What `Authorize` does before it looks the nonce up. -/
def Authorizer.check (a : Authorizer) (now now' : Int) (r : Request) : Except Refusal String := do
  let (nonce, _) ← (verifyEither cr a.primary a.previous now now' r).mapError .proof
  return nonce

/-- How long a nonce is remembered. -/
def ttl : Int := 2 * skewWindow

theorem verifyEither_eq_ok {cr : Crypto} {primary : Signer} {previous : Option Signer}
    {now now' : Int} {r : Request} {nonce signer : String}
    (h : verifyEither cr primary previous now now' r = .ok (nonce, signer)) :
    nonce = r.proof.nonce := by
  unfold verifyEither at h
  split at h
  · exact (verifyRequest_eq_ok h).1
  · exact (verifyRequest_eq_ok h).1

/-- The check lets a request pass with its own nonce. -/
def Honest (check : Int → Int → Request → Except Refusal String) : Prop :=
  ∀ {now now' r nonce}, check now now' r = .ok nonce → nonce = r.proof.nonce

theorem ForwardAuth.honest (a : ForwardAuth) : Honest (a.check cr) := by
  intro now now' r nonce h
  obtain ⟨_, -, h₁⟩ := bind_eq_ok.1 h
  obtain ⟨⟨nonce', signer⟩, hverify, h₂⟩ := bind_eq_ok.1 h₁
  obtain ⟨_, -, h₃⟩ := bind_eq_ok.1 h₂
  cases h₃
  exact verifyEither_eq_ok (mapError_eq_ok.1 hverify)

theorem Authorizer.honest (a : Authorizer) : Honest (a.check cr) := by
  intro now now' r nonce h
  obtain ⟨⟨nonce', signer⟩, hverify, h₁⟩ := bind_eq_ok.1 h
  cases h₁
  exact verifyEither_eq_ok (mapError_eq_ok.1 hverify)

/-! ### Calls side by side -/

structure Gate where
  clock : Int
  /-- The requests that have passed, with the nonce that is yet to be looked up. -/
  passed : List (Request × String) := []
  nonces : NonceCache := {}
  /-- The proofs that were accepted, and when. -/
  accepted : List (Proof × Int) := []
  deriving Repr, DecidableEq

inductive Call
  /-- A request is checked; the clock is read for each secret that is tried. -/
  | check (now now' : Int) (r : Request)
  /-- The nonce of a request that has passed is looked up. -/
  | use (now : Int) (r : Request) (nonce : String)
  deriving Repr, DecidableEq

section Gate

variable (check : Int → Int → Request → Except Refusal String)

def Gate.step (g : Gate) : Call → Option Gate
  | .check now now' r =>
    if g.clock ≤ now ∧ now ≤ now' then
      match check now now' r with
      | .ok nonce => some { g with clock := now', passed := (r, nonce) :: g.passed }
      | .error _ => some { g with clock := now' }
    else none
  | .use now r nonce =>
    if g.clock ≤ now ∧ (r, nonce) ∈ g.passed then
      let (fresh, nonces) := g.nonces.use ttl now nonce
      some { clock := now, passed := g.passed.erase (r, nonce), nonces,
             accepted := if fresh then (r.proof, now) :: g.accepted else g.accepted }
    else none

/-- A proof that was accepted is looked up again only while its nonce is remembered. -/
def Timely (g : Gate) : Call → Prop
  | .check _ _ _ => True
  | .use now r _ => ∀ e ∈ g.accepted, e.1 = r.proof → now - e.2 ≤ ttl

instance (g : Gate) (c : Call) : Decidable (Timely g c) :=
  match c with
  | .check _ _ _ => isTrue trivial
  | .use now r _ => inferInstanceAs (Decidable (∀ e ∈ g.accepted, e.1 = r.proof → now - e.2 ≤ ttl))

/-! ### The invariant -/

/-- The nonces of the accepted proofs are remembered for their time, and no proof is twice among
them. -/
structure Gate.Guards (g : Gate) : Prop where
  passed : ∀ e ∈ g.passed, e.2 = e.1.proof.nonce
  known : ∀ e ∈ g.accepted, g.clock - e.2 ≤ ttl → (e.1.nonce, e.2) ∈ g.nonces.seen
  once : (g.accepted.map Prod.fst).Nodup

variable {check} {g g' : Gate}

/-- **Step lemma.** -/
theorem Gate.Guards.step (hhonest : Honest check) (h : g.Guards) {c : Call} (htimely : Timely g c)
    (hstep : g.step check c = some g') : g'.Guards := by
  cases c with
  | check now now' r =>
    rw [Gate.step] at hstep
    split_ifs at hstep with hclock
    have hknown : ∀ e ∈ g.accepted, now' - e.2 ≤ ttl → (e.1.nonce, e.2) ∈ g.nonces.seen :=
      fun e he hage => h.known e he (by omega)
    split at hstep
    · rename_i nonce hnonce
      cases hstep
      refine ⟨?_, hknown, h.once⟩
      rintro e he
      rcases mem_cons.1 he with rfl | he
      · exact hhonest hnonce
      · exact h.passed e he
    · cases hstep
      exact ⟨h.passed, hknown, h.once⟩
  | use now r nonce =>
    rw [Gate.step] at hstep
    split_ifs at hstep with hcall
    obtain ⟨hclock, hpassed⟩ := hcall
    cases huse : g.nonces.use ttl now nonce with
    | mk fresh nonces =>
      rw [huse] at hstep
      cases hstep
      have hnonce : nonce = r.proof.nonce := h.passed _ hpassed
      have hknown : ∀ e ∈ g.accepted, now - e.2 ≤ ttl → (e.1.nonce, e.2) ∈ nonces.seen :=
        fun e he hage => NonceCache.mem_use huse (h.known e he (by omega)) hage
      refine ⟨fun e he => h.passed e (mem_of_mem_erase he), ?_, ?_⟩
      · intro e he hage
        dsimp only at he
        split_ifs at he with hfresh
        · rcases mem_cons.1 he with rfl | he
          · rw [hfresh] at huse
            exact hnonce ▸ NonceCache.mem_of_use_eq_true huse
          · exact hknown e he hage
        · exact hknown e he hage
      · dsimp only
        split_ifs with hfresh
        · refine nodup_cons.2 ⟨fun hmem => ?_, h.once⟩
          -- accepted before, and so recently that its nonce is still known
          obtain ⟨e, he, heq⟩ := mem_map.1 hmem
          have hage := htimely e he heq
          have hseen := h.known e he (by omega)
          rw [heq, ← hnonce] at hseen
          rw [NonceCache.use_eq_false huse hseen hage] at hfresh
          cases hfresh
        · exact h.once

theorem Gate.guards_new (clock : Int) : Gate.Guards { clock } := ⟨nofun, nofun, nodup_nil⟩

/-- **Run lemma.** -/
theorem Gate.guards_of_run (hhonest : Honest check) {clock : Int} {calls : List Call}
    (htimely : RunMeets (Gate.step check) Timely { clock } calls)
    (hrun : run (Gate.step check) { clock } calls = some g) : g.Guards :=
  run_invariant (Gate.step check) (fun _ _ _ h hcall hstep => h.step hhonest hcall hstep)
    (Gate.guards_new clock) htimely hrun

end Gate

/-- **A proof is accepted at most once**, by the forwards and by the alias writes, in every run of
calls side by side in which a proof that was accepted is looked up again only within two skew
windows. -/
theorem accepted_once :
    (∀ (a : ForwardAuth) (clock : Int) (calls : List Call) (g : Gate),
      RunMeets (Gate.step (a.check cr)) Timely { clock } calls →
      run (Gate.step (a.check cr)) { clock } calls = some g → (g.accepted.map Prod.fst).Nodup) ∧
    (∀ (a : Authorizer) (clock : Int) (calls : List Call) (g : Gate),
      RunMeets (Gate.step (a.check cr)) Timely { clock } calls →
      run (Gate.step (a.check cr)) { clock } calls = some g → (g.accepted.map Prod.fst).Nodup) :=
  ⟨fun a _ _ _ htimely hrun => (Gate.guards_of_run (a.honest cr) htimely hrun).once,
    fun a _ _ _ htimely hrun => (Gate.guards_of_run (a.honest cr) htimely hrun).once⟩

/-! ### The last second -/

/-- A proof whose timestamp is 120 seconds ahead of the clock that it meets first. -/
def early (cr : Crypto) (s : Signer) : Request where
  method := "POST"
  requestURI := "/v1/chat/completions"
  body := []
  forwarded := "ember"
  proof := {
    node := "ember"
    ts := "1000"
    nonce := "AAAAAAAAAAAAAAAAAAAAAA"
    auth := s.mac cr (canonicalRequest "POST" "/v1/chat/completions" "1000"
      "AAAAAAAAAAAAAAAAAAAAAA" "ember" "") }

/-- The request, checked and looked up at once. -/
def present (r : Request) (now : Int) : List Call :=
  [.check now now r, .use now r r.proof.nonce]

/-- Stands for HMAC in runs. -/
def echo : Crypto where
  hmac := fun _ canonical => canonical
  sha256 := fun _ => "0"

def signer : Signer := ⟨[], "flint"⟩

/-- Within two windows the second presentation is refused. -/
theorem accepted_once_early :
    let step := Gate.step (ForwardAuth.check echo ⟨signer, none⟩)
    let calls := present (early echo signer) (880 * second) ++
      present (early echo signer) (1120 * second)
    ∃ g, run step { clock := 0 } calls = some g ∧ (g.accepted.map Prod.fst).Nodup := by
  intro step calls
  have hsome : (run step { clock := 0 } calls).isSome := by decide +kernel
  obtain ⟨g, hrun⟩ := Option.isSome_iff_exists.1 hsome
  refine ⟨g, hrun, (accepted_once echo).1 ⟨signer, none⟩ 0 calls g ?_ hrun⟩
  show RunMeets step Timely { clock := 0 } calls
  decide +kernel

/-- **In the last second a proof is accepted again.** It is presented when its timestamp is 120
whole seconds ahead, and again 240.5 seconds later, when it is 120 whole seconds behind: the
timestamp passes both times, and the nonce is forgotten. -/
theorem accepted_twice :
    let r := early echo signer
    let calls := present r (880 * second) ++ present r (1120 * second + second / 2)
    let twice := some [(r.proof, 1120 * second + second / 2), (r.proof, 880 * second)]
    (run (Gate.step (ForwardAuth.check echo ⟨signer, none⟩)) { clock := 0 } calls).map
        Gate.accepted = twice ∧
      (run (Gate.step (Authorizer.check echo ⟨signer, none⟩)) { clock := 0 } calls).map
        Gate.accepted = twice := by
  decide +kernel

end Viiwork.Meshauth
