import Viiwork.Kvshare.Delta
import Viiwork.Lib.Prog
import Viiwork.Lib.Text
import Viiwork.Update.Version

/-!
# Viiwork.Release.Sums

The signed part of a release (`release.go`): `SHA256SUMS`, which lists a digest for the archive
of each target, and the signature of it. What is signed is a fixed context, the version and the
file, so a signature for one version never holds for another (`message_inj`).

SHA-256 and the verification of ed25519 are parameters.
-/

namespace Viiwork.Release

open Viiwork.Lib Viiwork.Kvshare Viiwork.Update List

/-! ### Names -/

structure Target where
  os : String
  arch : String
  deriving Repr, DecidableEq

/-- Every platform a release ships for. -/
def targets : List Target := [⟨"linux", "amd64"⟩, ⟨"linux", "arm64"⟩, ⟨"darwin", "arm64"⟩]

def archiveName (version : String) (t : Target) : Bytes :=
  Kvshare.ascii ("viiwork_" ++ version ++ "_" ++ t.os ++ "_" ++ t.arch ++ ".tar.gz")

/-! ### SHA256SUMS -/

/-- What is wrong with the signed files of a release. -/
inductive SumsErr
  | empty
  | noNewline
  | badLine (i : Nat) (line : Bytes)
  | listedTwice (i : Nat) (name : Bytes)
  | notListed (name : Bytes)
  | mismatch (name : Bytes)
  | notVersion (version : String)
  | notOfVersion (name : Bytes)
  | missing (name : Bytes)
  | noKeys
  | notSignature
  | badSignature
  deriving Repr, DecidableEq

/-- The digest of each asset. -/
abbrev Sums := List (Bytes × Bytes)

/-- `<64 lowercase hex>  <name>`. -/
def parseLine (line : Bytes) : Option (Bytes × Bytes) :=
  let digest := line.take 64
  let name := line.drop 66
  if digest.length = 64 ∧ digest.all isHexDigit ∧ (line.drop 64).take 2 = [32, 32] ∧ name ≠ [] ∧
      name.all keyByte ∧ name.head? ≠ some 46 then
    some (name, unhex digest)
  else none

/-- The lines from the `i`-th on, after those in `s`. -/
def parseLines (i : Nat) (s : Sums) : List Bytes → Except SumsErr Sums
  | [] => .ok s
  | line :: lines =>
    match parseLine line with
    | none => .error (.badLine i line)
    | some (name, digest) =>
      if name ∈ s.map Prod.fst then .error (.listedTwice i name)
      else parseLines (i + 1) (s ++ [(name, digest)]) lines

def parseSums (b : Bytes) : Except SumsErr Sums := do
  failIf (b = []) SumsErr.empty
  failIf (b.getLast? ≠ some 10) SumsErr.noNewline
  parseLines 1 [] (b.dropLast.splitOn 10)

/-- The content has the digest that is listed for the name. -/
def Sums.check (sha : Sha256) (s : Sums) (name content : Bytes) : Except SumsErr Unit :=
  match s.lookup name with
  | none => .error (.notListed name)
  | some digest => failIf (sha.sum content ≠ digest) (.mismatch name)

theorem check_eq_ok {sha : Sha256} {s : Sums} {name content : Bytes} {u : Unit}
    (h : s.check sha name content = .ok u) : s.lookup name = some (sha.sum content) := by
  unfold Sums.check at h
  split at h
  · cases h
  · rename_i digest hdigest
    rw [hdigest, not_not.1 (failIf_eq_ok.1 h)]

/-- Exactly the archives of the version are listed. -/
def checkSumsFor (version : String) (s : Sums) : Except SumsErr Unit := do
  failIf (validVersion version = false) (SumsErr.notVersion version)
  let want := targets.map (archiveName version)
  if let some (name, _) := s.find? fun e => e.1 ∉ want then
    throw (.notOfVersion name)
  if let some name := want.find? fun name => name ∉ s.map Prod.fst then
    throw (.missing name)

/-! ### The signature -/

def sigContext : String := "viiwork release SHA256SUMS v1\n"

/-- What is signed. -/
def message (version : String) (sums : Bytes) : Bytes :=
  Kvshare.ascii (sigContext ++ version ++ "\n") ++ sums

/-- Two release names with the same bytes are the same. -/
theorem ascii_valid_inj {v w : String} (hv : validVersion v = true) (hw : validVersion w = true)
    (h : Kvshare.ascii v = Kvshare.ascii w) : v = w := by
  have hback : ∀ u, validVersion u = true →
      (Kvshare.ascii u).map (fun b => Char.ofNat b.toNat) = u.toList := by
    intro u hu
    rw [Kvshare.ascii, map_map, map_congr_left (g := id), map_id]
    intro c hc
    have hlt := (toNat_of_valid hu hc).1
    simp [Nat.mod_eq_of_lt hlt]
  rw [← String.toList_inj, ← hback v hv, ← hback w hw, h]

/-- The bytes of a release name are one line. -/
theorem notMem_ascii_valid {v : String} (hv : validVersion v = true) :
    (10 : UInt8) ∉ Kvshare.ascii v := by
  rw [Kvshare.ascii, mem_map]
  rintro ⟨c, hc, heq⟩
  obtain ⟨hlt, hne⟩ := toNat_of_valid hv hc
  have hnat := congrArg UInt8.toNat heq
  rw [UInt8.toNat_ofNat', Nat.mod_eq_of_lt hlt] at hnat
  exact hne hnat

/-- **A message belongs to one version.** -/
theorem message_inj {v w : String} {a b : Bytes} (hv : validVersion v = true)
    (hw : validVersion w = true) (h : message v a = message w b) : v = w ∧ a = b := by
  have hsplit : ∀ u c,
      message u c = Kvshare.ascii sigContext ++ (Kvshare.ascii u ++ 10 :: c) := by
    intro u c
    simp [message, Kvshare.ascii]
  rw [hsplit, hsplit] at h
  obtain ⟨hbytes, hrest⟩ := append_sep_inj (notMem_ascii_valid hv) (notMem_ascii_valid hw)
    (append_cancel_left h)
  exact ⟨ascii_valid_inj hv hw hbytes, hrest⟩

structure Ed25519 where
  verify : (key message sig : Bytes) → Bool

def verify (ed : Ed25519) (keys : List Bytes) (version : String) (sums sig : Bytes) :
    Except SumsErr Unit := do
  failIf (keys = []) SumsErr.noKeys
  match base64Decode (trimSpace sig) with
  | none => throw .notSignature
  | some raw =>
    failIf (raw.length ≠ 64) SumsErr.notSignature
    failIf (keys.any (fun k => ed.verify k (message version sums) raw) = false)
      SumsErr.badSignature

end Viiwork.Release
