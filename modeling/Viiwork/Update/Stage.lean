import Viiwork.Lib.Wp
import Viiwork.Release.Archive
import Viiwork.Release.Sums
import Viiwork.Update.Releases

/-!
# Viiwork.Update.Stage

Staging a release (`stage.go`): the signed files and the archive are fetched, checked and
unpacked, and a directory with the binary is renamed into place.

What a stage meets is a `World`: the answers of the source, the files of the local mirror, the
cancellations, what the new binary prints, what the checks of engines say and which file
operations fail. All of it is arbitrary. A stage asks for each file at most once, so an answer
for each file is an answer for each request.

An error of a fetch is the chain of the errors it wraps, outermost first, since `unreachable`
decides by what is found in that chain.
-/

namespace Viiwork.Update

open Viiwork.Lib Prog Viiwork.Kvshare Viiwork.Release

/-! ### Fetching from the source -/

/-- An error in a chain of wrapped errors. -/
inductive Link
  /-- An answer other than 200. -/
  | status (code : Nat)
  | url
  | net
  | deadlineExceeded
  | unexpectedEOF
  | eof
  | connReset
  | other (text : String)
  deriving Repr, DecidableEq

abbrev FetchErr := List Link

def Link.code : Link → Option Nat
  | status code => some code
  | _ => none

/-- A `*url.Error` is a `net.Error` too. -/
def Link.noAnswer : Link → Bool
  | url | net | deadlineExceeded | unexpectedEOF | eof | connReset => true
  | status _ | other _ => false

/-- The source could not answer. The wrapper of the first URL error is looked past. -/
def unreachable (err : FetchErr) : Bool :=
  match err.findSome? Link.code with
  | some code => 500 ≤ code || code == 429
  | none =>
    match err.dropWhile (· ≠ .url) with
    | [] => err.any Link.noAnswer
    | _ :: inner => inner.any Link.noAnswer

/-- What comes back for a request. -/
inductive Answer
  | fails (err : FetchErr)
  /-- An HTTP answer; reading its body may break off after the bytes. -/
  | answers (code : Nat) (body : Bytes) (broken : Option FetchErr := none)
  deriving Repr, DecidableEq

/-- The body of an answer, of at most `max` bytes. -/
def Answer.get (max : Nat) : Answer → Except FetchErr Bytes
  | fails err => .error err
  | answers code body broken => do
      failIf (code ≠ 200) [Link.status code]
      if body.length ≤ max then
        match broken with
        | some err => throw (.other "reading the body" :: err)
        | none => return body
      else throw [.other "larger than the limit"]

/-! ### The world of a stage -/

/-- The local mirror: whether it has a directory, and the files in it. -/
structure Mirror where
  dir : Except String Unit
  file : Bytes → Except String Bytes

def Mirror.read (m : Mirror) (asset : Bytes) (max : Nat) : Except String Bytes := do
  m.dir
  let b ← m.file asset
  failIf (max < b.length) "larger than the limit"
  return b

/-- Where a stage looks whether it was cancelled. -/
inductive Point
  | signedFiles
  | mirrorFiles
  | mirrorArchive
  deriving Repr, DecidableEq

/-- The operations on files that may fail. -/
inductive FileOp
  | mkdirAll
  | mkdirTemp
  | writeBin
  | writeAccept
  | writeSum
  | stat
  | moveAside
  | place
  | restore
  deriving Repr, DecidableEq

structure BuildInfo where
  version : String
  llamaCpp : String := ""
  llamaCppMacSHA256 : String := ""
  deriving Repr, DecidableEq

abbrev Requirements := List (String × String)

abbrev EngineCheck := Requirements → Except String Unit

structure World where
  source : Bytes → Answer
  /-- `none` when there is no `Local`. -/
  mirror : Option Mirror := none
  cancelled : Point → Option String := fun _ => none
  /-- What the new binary prints for `--version`. -/
  printed : Except String Bytes
  /-- What it says for `--build-info`, if it knows that. -/
  buildInfo : Option BuildInfo := none
  /-- What it says for `--engine-requirements`. -/
  requirements : Except String Requirements := .ok []
  engines : Option EngineCheck := none
  prepareLlama : Option (BuildInfo → Except String (Option EngineCheck)) := none
  prepareImage : Option (String → EngineCheck) := none
  file : FileOp → Except String Unit := fun _ => .ok ()

structure Stager where
  target : Target
  keys : List Bytes
  /-- Not positive for the default. -/
  maxArchive : Int := 0
  deriving Repr, DecidableEq

def Stager.max (st : Stager) : Nat :=
  if st.maxArchive ≤ 0 then 512 * 2 ^ 20 else st.maxArchive.toNat

inductive StageErr
  | notVersion (version : String)
  | noTarget (t : Target)
  | cancelled (text : String)
  | source (err : FetchErr)
  | mirror (text : String)
  | mirrorSums (err : SumsErr)
  | sums (err : SumsErr)
  | archive (err : ArchiveErr)
  | noBinary
  | file (text : String)
  | cannotRun (text : String)
  | wrongVersion (out : Bytes)
  | llama (text : String)
  | requirements (text : String)
  | engines (text : String)
  /-- The new directory could not be renamed into place, nor the old one back. -/
  | restoring (text restoreText : String)
  deriving Repr, DecidableEq

/-! ### Verified files -/

def sumsFile : Bytes := Kvshare.ascii "SHA256SUMS"

def sigFile : Bytes := Kvshare.ascii "SHA256SUMS.sig"

/-- The signed files, from the source. -/
def signedFiles (w : World) : Except FetchErr (Bytes × Bytes) := do
  let sums ← (w.source sumsFile).get (64 * 2 ^ 10)
  let sig ← (w.source sigFile).get (4 * 2 ^ 10)
  return (sums, sig)

/-- The signed files, from the mirror. -/
def Mirror.signedFiles (m : Mirror) : Except String (Bytes × Bytes) := do
  let sums ← m.read sumsFile (64 * 2 ^ 10)
  let sig ← m.read sigFile (4 * 2 ^ 10)
  return (sums, sig)

/-- The error of a cancellation, if there was one. -/
def World.checkCancelled (w : World) (p : Point) : Except StageErr Unit :=
  match w.cancelled p with
  | some text => .error (.cancelled text)
  | none => .ok ()

/-- The signed files and whether they are the source's: the mirror's only while the source
cannot answer. -/
def fetchSigned (w : World) : Except StageErr (Bytes × Bytes × Bool) :=
  match signedFiles w with
  | .ok (sums, sig) => .ok (sums, sig, true)
  | .error err => do
      w.checkCancelled .signedFiles
      match w.mirror with
      | none => throw (.source err)
      | some m =>
        failIf (unreachable err = false) (StageErr.source err)
        match m.signedFiles with
        | .ok (sums, sig) => return (sums, sig, false)
        | .error text => do
            w.checkCancelled .mirrorFiles
            throw (.mirror text)

variable (sha : Sha256) (ed : Ed25519) (tar : Tar)

def verifySums (version : String) (keys : List Bytes) (sums sig : Bytes) : Except SumsErr Sums := do
  let parsed ← parseSums sums
  checkSumsFor version parsed
  verify ed keys version sums sig
  return parsed

/-- The archive from the source. -/
def downloadArchive (w : World) (parsed : Sums) (name : Bytes) (max : Nat) :
    Except StageErr Bytes := do
  let a ← ((w.source name).get max).mapError .source
  (parsed.check sha name a).mapError .sums
  return a

/-- The archive from the mirror. -/
def Mirror.archive (m : Mirror) (parsed : Sums) (name : Bytes) (max : Nat) :
    Except StageErr Bytes := do
  let a ← (m.read name max).mapError .mirror
  (parsed.check sha name a).mapError .mirrorSums
  return a

/-- The archive: the mirror's when it matches the signed sums, else the source's. -/
def fetchArchive (w : World) (parsed : Sums) (name : Bytes) (max : Nat) (fromSource : Bool) :
    Except StageErr Bytes :=
  match w.mirror with
  | none => downloadArchive sha w parsed name max
  | some m => do
      w.checkCancelled .mirrorArchive
      match m.archive sha parsed name max with
      | .ok a => return a
      | .error err => if fromSource then downloadArchive sha w parsed name max else throw err

/-- The top directory of an archive: its name without `.tar.gz`. -/
def topOf (version : String) (t : Target) : Bytes :=
  Kvshare.ascii ("viiwork_" ++ version ++ "_" ++ t.os ++ "_" ++ t.arch)

/-- The files of a verified archive. -/
def Stager.fetch (st : Stager) (w : World) (version : String) : Except StageErr Files := do
  failIf (validVersion version = false) (StageErr.notVersion version)
  failIf (st.target ∉ targets) (StageErr.noTarget st.target)
  let (sums, sig, fromSource) ← fetchSigned w
  let parsed ← (verifySums ed version st.keys sums sig).mapError .sums
  let archive ← fetchArchive sha w parsed (archiveName version st.target) st.max fromSource
  (readArchive tar archive (topOf version st.target) st.max).mapError .archive

/-! ### Staging -/

def checkEngines (w : World) (version : String) (engines : Option EngineCheck) :
    Except StageErr Unit :=
  match w.prepareImage, engines with
  | none, none => .ok ()
  | some prepare, _ => do
      let req ← w.requirements.mapError .requirements
      (prepare version req).mapError .engines
  | none, some check => do
      let req ← w.requirements.mapError .requirements
      (check req).mapError .engines

/-- The temporary directory is written and the binary in it is tried. -/
def tryOut (w : World) (version : String) (files : Files) : Except StageErr Unit := do
  (w.file .mkdirAll).mapError .file
  (w.file .mkdirTemp).mapError .file
  (w.file .writeBin).mapError .file
  if (files.lookup (Kvshare.ascii "viiwork-accept")).isSome then
    (w.file .writeAccept).mapError .file
  (w.file .writeSum).mapError .file
  let out ← w.printed.mapError .cannotRun
  failIf (trimSpace out ≠ Kvshare.ascii version) (StageErr.wrongVersion out)
  let engines ← match w.prepareLlama with
    | none => pure w.engines
    | some prepare => do
        let check ← (prepare (w.buildInfo.getD { version })).mapError .llama
        pure (check <|> w.engines)
  checkEngines w version engines

/-- The binary is staged already, and intact. -/
def holds (r : Releases) (version : String) (bin : Bytes) : Bool :=
  (binary sha r version).isOk &&
    ((r.lookup version).bind StagedDir.bin).any fun b => hex (sha.sum b) == hex (sha.sum bin)

/-- The renames: an earlier directory aside, the new one into place. -/
def replace (w : World) (version : String) (new : StagedDir) : Prog Releases StageErr Unit := do
  let r ← get
  match r.lookup version, w.file .stat with
  | some old, .ok _ => do
      ofExcept ((w.file .moveAside).mapError .file)
      act fun r => r.remove version
      match w.file .place, w.file .restore with
      | .ok _, _ => act fun r => r.put version new
      | .error text, .ok _ => do
          act fun r => r.put version old
          fail (.file text)
      | .error text, .error restoreText => fail (.restoring text restoreText)
  | some _, .error text => fail (.file text)
  | none, _ => do
      ofExcept ((w.file .place).mapError .file)
      act fun r => r.put version new

/-- The directory that a stage makes of a binary. -/
def newDir (bin : Bytes) : StagedDir := ⟨some bin, some (hex (sha.sum bin) ++ [10])⟩

/-- Everything before the renames: the directory to put into place, or `none` when the release is
staged already. -/
def Stager.prepare (st : Stager) (w : World) (version : String) (r : Releases) :
    Except StageErr (Option StagedDir) := do
  let files ← st.fetch sha ed tar w version
  match files.lookup binName with
  | none => throw .noBinary
  | some bin =>
    if holds sha r version bin then
      -- nothing to replace, but the image may never have been prepared
      if w.prepareImage.isSome then
        checkEngines w version w.engines
      return none
    else
      tryOut w version files
      return some (newDir sha bin)

def Stager.stage (st : Stager) (w : World) (version : String) : Prog Releases StageErr Unit := do
  let r ← get
  let new ← ofExcept (st.prepare sha ed tar w version r)
  match new with
  | none => return
  | some new => replace w version new

/-! ### What is staged -/

/-- The binary is the `viiwork` of an archive that is listed for the target in sums signed for
the version and for no other. The mirror's sums count only while the source could not answer. -/
inductive Signed (st : Stager) (w : World) (version : String) (bin : Bytes) : Prop
  | of {sums sig archive : Bytes} {parsed : Sums}
      (hfetched : signedFiles w = .ok (sums, sig) ∨ ∃ err m, signedFiles w = .error err ∧
        unreachable err = true ∧ w.mirror = some m ∧ m.signedFiles = .ok (sums, sig))
      (hverified : verify ed st.keys version sums sig = .ok ())
      (honly : ∀ v b, validVersion v = true → message v b = message version sums → v = version)
      (hparsed : parseSums sums = .ok parsed)
      (hlisted : parsed.lookup (archiveName version st.target) = some (sha.sum archive))
      (hentry : IsEntry tar archive (topOf version st.target) binName bin)

section Fetch

variable {sha ed tar} {st : Stager} {w : World} {version : String}

theorem fetchSigned_eq_ok {sums sig : Bytes} {fromSource : Bool}
    (h : fetchSigned w = .ok (sums, sig, fromSource)) :
    signedFiles w = .ok (sums, sig) ∨ ∃ err m, signedFiles w = .error err ∧
      unreachable err = true ∧ w.mirror = some m ∧ m.signedFiles = .ok (sums, sig) := by
  unfold fetchSigned at h
  split at h
  · rename_i heq
    cases h
    exact .inl heq
  · rename_i err heq
    obtain ⟨_, -, h⟩ := bind_eq_ok.1 h
    split at h
    · cases h
    · rename_i m hm
      obtain ⟨_, hreach, h⟩ := bind_eq_ok.1 h
      have hreach := Bool.not_eq_false _ ▸ failIf_eq_ok.1 hreach
      split at h
      · rename_i hfiles
        cases h
        exact .inr ⟨err, m, heq, hreach, hm, hfiles⟩
      · obtain ⟨_, -, h⟩ := bind_eq_ok.1 h
        cases h

/-- Wherever the archive came from, it has the listed digest. -/
theorem fetchArchive_eq_ok {parsed : Sums} {name archive : Bytes} {max : Nat} {fromSource : Bool}
    (h : fetchArchive sha w parsed name max fromSource = .ok archive) :
    parsed.lookup name = some (sha.sum archive) := by
  have hdownload : downloadArchive sha w parsed name max = .ok archive →
      parsed.lookup name = some (sha.sum archive) := by
    intro h
    obtain ⟨a, -, h⟩ := bind_eq_ok.1 h
    obtain ⟨u, hcheck, h⟩ := bind_eq_ok.1 h
    cases h
    exact check_eq_ok (mapError_eq_ok.1 hcheck)
  unfold fetchArchive at h
  split at h
  · exact hdownload h
  · rename_i m _
    obtain ⟨_, -, h⟩ := bind_eq_ok.1 h
    split at h
    · rename_i a ha
      cases h
      obtain ⟨b, -, ha⟩ := bind_eq_ok.1 ha
      obtain ⟨u, hcheck, ha⟩ := bind_eq_ok.1 ha
      cases ha
      exact check_eq_ok (mapError_eq_ok.1 hcheck)
    · split_ifs at h with hfrom
      exact hdownload h

/-- **What a stage has fetched is signed.** -/
theorem fetch_eq_ok {files : Files} (h : st.fetch sha ed tar w version = .ok files) {bin : Bytes}
    (hbin : files.lookup binName = some bin) : Signed sha ed tar st w version bin := by
  obtain ⟨_, hvalid, h⟩ := bind_eq_ok.1 h
  have hvalid := Bool.not_eq_false _ ▸ failIf_eq_ok.1 hvalid
  obtain ⟨_, -, h⟩ := bind_eq_ok.1 h
  obtain ⟨⟨sums, sig, fromSource⟩, hsigned, h⟩ := bind_eq_ok.1 h
  obtain ⟨parsed, hverify, h⟩ := bind_eq_ok.1 h
  obtain ⟨archive, harchive, h⟩ := bind_eq_ok.1 h
  obtain ⟨parsed', hparsed, hverify⟩ := bind_eq_ok.1 (mapError_eq_ok.1 hverify)
  obtain ⟨_, -, hverify⟩ := bind_eq_ok.1 hverify
  obtain ⟨_, hverified, hverify⟩ := bind_eq_ok.1 hverify
  cases hverify
  exact .of (fetchSigned_eq_ok hsigned) hverified
    (fun v b hv heq => (message_inj hv hvalid heq).1) hparsed (fetchArchive_eq_ok harchive)
    (isEntry_of_readArchive (mapError_eq_ok.1 h) hbin)

/-- A final answer of the source ends the stage. -/
theorem fetch_eq_error {err : FetchErr} (h : signedFiles w = .error err)
    (hfinal : unreachable err = false) : ∃ e, st.fetch sha ed tar w version = .error e := by
  cases hfetch : st.fetch sha ed tar w version with
  | error e => exact ⟨e, rfl⟩
  | ok files =>
    obtain ⟨_, -, hfetch⟩ := bind_eq_ok.1 hfetch
    obtain ⟨_, -, hfetch⟩ := bind_eq_ok.1 hfetch
    obtain ⟨⟨sums, sig, fromSource⟩, hsigned, -⟩ := bind_eq_ok.1 hfetch
    rcases fetchSigned_eq_ok hsigned with heq | ⟨err', m, heq, hreach, -⟩
    · cases h.symm.trans heq
    · cases h.symm.trans heq
      cases hfinal.symm.trans hreach

end Fetch

section Stage

variable {sha ed tar} {st : Stager} {w : World} {version : String} {r : Releases}

/-- Neither the new directory could be renamed into place nor the old one back. -/
def World.StuckAside (w : World) : Prop :=
  (w.file .place).isOk = false ∧ (w.file .restore).isOk = false

/-- **The renames** put the new directory into place, or leave the one that was there. -/
theorem wp_replace (new : StagedDir) :
    (replace w version new).Wp (fun _ _ => True)
      (fun _ r' => r'.lookup version = r.lookup version ∨ w.StuckAside)
      (fun _ r' => r'.lookup version = some new) r := by
  rw [replace, wp_bind, wp_get]
  split
  · rename_i old _ hold _
    rw [wp_bind, wp_ofExcept]
    refine ⟨fun _ _ => ?_, fun _ _ => .inl rfl⟩
    rw [wp_bind, wp_act]
    refine ⟨trivial, ?_⟩
    split
    · rw [wp_act]
      exact ⟨trivial, Releases.lookup_put_self _ _ _⟩
    · rw [wp_bind, wp_act, wp_fail]
      exact ⟨trivial, .inl (by rw [Releases.lookup_put_self, hold])⟩
    · rename_i hplace hrestore
      exact .inr ⟨by rw [hplace]; rfl, by rw [hrestore]; rfl⟩
  · exact .inl rfl
  · rw [wp_bind, wp_ofExcept]
    refine ⟨fun _ _ => ?_, fun _ _ => .inl rfl⟩
    rw [wp_act]
    exact ⟨trivial, Releases.lookup_put_self _ _ _⟩

/-- A copy that is held has the bytes of the binary, unless they collide with it. -/
theorem holds_eq_true {bin : Bytes} (h : holds sha r version bin = true) :
    ∃ d b, r.lookup version = some d ∧ d.bin = some b ∧ sha.sum b = sha.sum bin := by
  obtain ⟨-, h⟩ := Bool.and_eq_true_iff.1 h
  obtain ⟨b, hb, hsum⟩ := (Option.any_eq_true _ _).1 h
  obtain ⟨d, hd, hb⟩ := Option.bind_eq_some_iff.1 hb
  exact ⟨d, b, hd, hb, hex_injective (beq_iff_eq.1 hsum)⟩

/-- An intact copy that is not held has other bytes. -/
theorem ne_of_holds_eq_false {bin : Bytes} {path : String} {d : StagedDir}
    (hpath : binary sha r version = .ok path) (hd : r.lookup version = some d)
    (h : holds sha r version bin = false) : d.bin ≠ some bin := by
  intro hbin
  rw [holds, hpath, hd, Option.bind_some, hbin] at h
  simp [Except.isOk, Except.toBool] at h

/-- What is prepared is signed, and not staged yet. -/
theorem prepare_eq_ok {new : Option StagedDir}
    (h : st.prepare sha ed tar w version r = .ok new) :
    ∃ bin, Signed sha ed tar st w version bin ∧
      (new = none ∧ holds sha r version bin = true ∨
        new = some (newDir sha bin) ∧ holds sha r version bin = false) := by
  obtain ⟨files, hfiles, h⟩ := bind_eq_ok.1 h
  split at h
  · cases h
  · rename_i bin hbin
    refine ⟨bin, fetch_eq_ok hfiles hbin, ?_⟩
    cases hholds : holds sha r version bin with
    | true =>
      rw [hholds, if_pos rfl] at h
      dsimp only at h
      split_ifs at h
      · obtain ⟨_, -, h⟩ := bind_eq_ok.1 h
        cases h
        exact .inl ⟨rfl, rfl⟩
      · cases h
        exact .inl ⟨rfl, rfl⟩
    | false =>
      rw [hholds, if_neg Bool.false_ne_true] at h
      obtain ⟨_, -, h⟩ := bind_eq_ok.1 h
      cases h
      exact .inr ⟨rfl, rfl⟩

theorem wp_stage (hsha : Set.InjOn sha.sum {b | (∃ d, r.lookup version = some d ∧ d.bin = some b) ∨
      Signed sha ed tar st w version b}) :
    (st.stage sha ed tar w version).Wp (fun _ _ => True)
      (fun _ r' => r'.lookup version = r.lookup version ∨ w.StuckAside ∧
        ∃ bin, Signed sha ed tar st w version bin ∧ holds sha r version bin = false)
      (fun _ r' => ∃ d bin, r'.lookup version = some d ∧ d.bin = some bin ∧
        Signed sha ed tar st w version bin) r := by
  rw [Stager.stage, wp_bind, wp_get, wp_bind, wp_ofExcept]
  refine ⟨fun new hnew => ?_, fun _ _ => .inl rfl⟩
  obtain ⟨bin, hsigned, ⟨rfl, hholds⟩ | ⟨rfl, hholds⟩⟩ := prepare_eq_ok hnew
  · obtain ⟨d, b, hd, hb, hsum⟩ := holds_eq_true hholds
    have hsame : b = bin := hsha (.inl ⟨d, hd, hb⟩) (.inr hsigned) hsum
    exact ⟨d, bin, hd, hsame ▸ hb, hsigned⟩
  · refine (wp_replace (newDir sha bin)).mono (fun _ _ h => h) (fun _ r' hr' => ?_)
      fun _ r' hr' => ⟨_, bin, hr', rfl, hsigned⟩
    exact hr'.imp_right fun hstuck => ⟨hstuck, bin, hsigned, hholds⟩

/-- **Only signed bytes are staged.** The source's answer is final unless it is one that counts
as none, and a failed stage leaves an intact copy alone unless it had other signed bytes for the
version and could rename neither directory back into place. -/
theorem stage_signed (st : Stager) (w : World) (version : String) (r : Releases)
    (hsha : Set.InjOn sha.sum {b | (∃ d, r.lookup version = some d ∧ d.bin = some b) ∨
      Signed sha ed tar st w version b}) :
    ((run (st.stage sha ed tar w version) r).1 = .ok () →
        ∃ d bin, (run (st.stage sha ed tar w version) r).2.lookup version = some d ∧
          d.bin = some bin ∧ Signed sha ed tar st w version bin) ∧
      (∀ code, signedFiles w = .error [.status code] → code < 500 → code ≠ 429 →
        ∃ e, (run (st.stage sha ed tar w version) r).1 = .error e) ∧
      ∀ e d path, (run (st.stage sha ed tar w version) r).1 = .error e →
        r.lookup version = some d → binary sha r version = .ok path →
        (run (st.stage sha ed tar w version) r).2.lookup version = some d ∨
          w.StuckAside ∧ ∃ bin, Signed sha ed tar st w version bin ∧ d.bin ≠ some bin := by
  have hwp := wp_stage hsha
  refine ⟨fun hok => hwp.run_ok (Prod.ext hok rfl), fun code hcode hlt hne => ?_,
    fun e d path herr hd hpath => ?_⟩
  · have hfinal : unreachable [.status code] = false := by
      simp [unreachable, Link.code, hlt, hne]
    obtain ⟨e, he⟩ : ∃ e, st.fetch sha ed tar w version = .error e := fetch_eq_error hcode hfinal
    have hprepare : st.prepare sha ed tar w version r = .error e := by
      rw [Stager.prepare, he]
      rfl
    refine ⟨e, ?_⟩
    rw [Stager.stage, run_bind, run_get]
    dsimp only
    rw [hprepare]
    rfl
  · rcases hwp.run_error (Prod.ext herr rfl) with hsame | ⟨hstuck, bin, hsigned, hholds⟩
    · exact .inl (hsame.trans hd)
    · exact .inr ⟨hstuck, bin, hsigned, ne_of_holds_eq_false hpath hd hholds⟩

/-! A release in little, with a digest that tells short strings apart. -/

def padSha : Sha256 := ⟨fun b => b.takeD 32 0, fun b => List.takeD_length 32 b 0⟩

def tinyStager : Stager := ⟨⟨"linux", "amd64"⟩, [[]], 0⟩

def tinyTar : Tar :=
  ⟨fun _ => some ⟨[⟨topOf "v1.2.3" ⟨"linux", "amd64"⟩ ++ Kvshare.ascii "/viiwork", 0o755,
    typeReg, [1, 2, 3], false⟩], false⟩⟩

/-- The signed files of v1.2.3, whose archives are empty. -/
def tinyFile (name : Bytes) : Bytes :=
  if name = sumsFile then targets.flatMap fun t =>
    hex (List.replicate 32 0) ++ [32, 32] ++ archiveName "v1.2.3" t ++ [10]
  else if name = sigFile then List.replicate 86 65 ++ [61, 61, 10]
  else []

def tinyWorld : World :=
  { source := fun name => .answers 200 (tinyFile name), printed := .ok (Kvshare.ascii "v1.2.3\n") }

/-- The source is overloaded, and a mirror has the files. -/
def busyWorld : World :=
  { tinyWorld with
    source := fun _ => .answers 503 []
    mirror := some ⟨.ok (), fun name => .ok (tinyFile name)⟩ }

/-- No directory can be renamed to v1.2.3. -/
def stuckWorld : World :=
  { tinyWorld with
    file := fun op => if op = .place ∨ op = .restore then .error "no space" else .ok () }

theorem stage_signed_tiny :
    (run (tinyStager.stage padSha ⟨fun _ _ _ => true⟩ tinyTar tinyWorld "v1.2.3") []).1 =
        .ok () ∧
      ∃ d bin, (run (tinyStager.stage padSha ⟨fun _ _ _ => true⟩ tinyTar tinyWorld "v1.2.3")
          []).2.lookup "v1.2.3" = some d ∧ d.bin = some bin ∧
        Signed padSha ⟨fun _ _ _ => true⟩ tinyTar tinyStager tinyWorld "v1.2.3" bin := by
  have hok : (run (tinyStager.stage padSha ⟨fun _ _ _ => true⟩ tinyTar tinyWorld "v1.2.3")
      []).1 = .ok () := by
    decide +kernel
  refine ⟨hok, (stage_signed tinyStager tinyWorld "v1.2.3" [] ?_).1 hok⟩
  refine Set.Subsingleton.injOn (fun a ha b hb => ?_) _
  -- the archive has one file
  have hone : ∀ b, b ∈ {b | (∃ d, ([] : Releases).lookup "v1.2.3" = some d ∧ d.bin = some b) ∨
      Signed padSha ⟨fun _ _ _ => true⟩ tinyTar tinyStager tinyWorld "v1.2.3" b} → b = [1, 2, 3] := by
    rintro b (⟨d, hd, -⟩ | ⟨-, -, -, -, -, u, e, hu, he, -, -, -, hcontent, -⟩)
    · cases hd
    · cases hu
      rw [List.mem_singleton.1 he] at hcontent
      exact hcontent.symm
  rw [hone a ha, hone b hb]

/-- An HTTP answer of the source that is not final, and an intact copy that a failed stage
moved away. -/
theorem stage_not_final :
    (signedFiles busyWorld = .error [.status 503] ∧
      (run (tinyStager.stage padSha ⟨fun _ _ _ => true⟩ tinyTar busyWorld "v1.2.3") []).1 =
        .ok ()) ∧
    (binary padSha [("v1.2.3", newDir padSha [9])] "v1.2.3" = .ok "v1.2.3/viiwork" ∧
      (run (tinyStager.stage padSha ⟨fun _ _ _ => true⟩ tinyTar stuckWorld "v1.2.3")
        [("v1.2.3", newDir padSha [9])]).1 = .error (.restoring "no space" "no space") ∧
      (run (tinyStager.stage padSha ⟨fun _ _ _ => true⟩ tinyTar stuckWorld "v1.2.3")
        [("v1.2.3", newDir padSha [9])]).2 = []) := by
  decide +kernel

end Stage

end Viiwork.Update
