import Viiwork.Kvshare.Format
import Viiwork.Lib.Prog

/-!
# Viiwork.Release.Archive

Reading a release archive (`archive.go`): a gzip'd tar with one top directory. What a release
never has is refused: another top directory, a path that escapes, anything but a regular file
below it, a name that comes twice, mode bits beyond `rwx`, too much content.

The decoders of gzip and tar are a parameter: what they make of an archive is a list of
entries, which ends at the end of the archive or with an error.
-/

namespace Viiwork.Release

open Viiwork.Lib Viiwork.Kvshare List

/-! ### Paths -/

/-- One element of a path, onto the cleaned ones before it, last first. -/
def cleanElem (rooted : Bool) (done : List Bytes) (elem : Bytes) : List Bytes :=
  if elem = [] ∨ elem = Kvshare.ascii "." then done
  else if elem = Kvshare.ascii ".." then
    match done with
    | top :: rest => if top = Kvshare.ascii ".." then elem :: done else rest
    | [] => if rooted then [] else [elem]
  else elem :: done

/-- `path.Clean`. -/
def clean (p : Bytes) : Bytes :=
  let rooted := p.head? == some 47
  let elems := ((p.splitOn 47).foldl (cleanElem rooted) []).reverse
  let body := [(47 : UInt8)].intercalate elems
  if rooted then 47 :: body else if body = [] then Kvshare.ascii "." else body

/-- Without a slash at the end. -/
def trimSlash (name : Bytes) : Bytes := if name.getLast? = some 47 then name.dropLast else name

/-- The part before the first slash and the part after it. -/
def cut (name : Bytes) : Bytes × Bytes := (name.takeWhile (· ≠ 47), (name.dropWhile (· ≠ 47)).tail)

/-! ### Archives -/

structure TarEntry where
  name : Bytes
  mode : Int
  typeflag : UInt8
  content : Bytes
  /-- Reading breaks off after the content. -/
  broken : Bool := false
  deriving Repr, DecidableEq

def typeReg : UInt8 := 48

def typeDir : UInt8 := 53

structure Unpacked where
  entries : List TarEntry
  /-- They end with an error. -/
  broken : Bool := false
  deriving Repr, DecidableEq

/-- The decoders; `none` is for what is no gzip stream. -/
structure Tar where
  unpack : Bytes → Option Unpacked

inductive ArchiveErr
  | notGzip
  | broken
  | unsafePath (name : Bytes)
  | outsideTop (name : Bytes)
  | mode (name : Bytes)
  | directory (name : Bytes)
  | topLevelFile (name : Bytes)
  | twice (name : Bytes)
  | tooLarge
  | notRegular (name : Bytes)
  deriving Repr, DecidableEq

/-- The name of an entry below the top directory. -/
def TarEntry.rest (e : TarEntry) : Bytes := (cut (trimSlash e.name)).2

def UnsafePath (name : Bytes) : Prop :=
  name.head? = some 47 ∨ (name ≠ clean name ∧ name ≠ clean name ++ [47]) ∨
    Kvshare.ascii ".." <:+: name

instance (name : Bytes) : Decidable (UnsafePath name) :=
  inferInstanceAs (Decidable (_ ∨ (_ ∧ _) ∨ _))

/-- The files of an archive by name. -/
abbrev Files := List (Bytes × Bytes)

/-- One entry, after the files with `total` bytes in all. -/
def readEntry (top : Bytes) (maxBytes : Nat) (files : Files) (total : Nat) (e : TarEntry) :
    Except ArchiveErr (Files × Nat) := do
  failIf (UnsafePath e.name) (ArchiveErr.unsafePath e.name)
  failIf ((cut (trimSlash e.name)).1 ≠ top) (ArchiveErr.outsideTop e.name)
  failIf (¬ (0 ≤ e.mode ∧ e.mode < 0o1000)) (ArchiveErr.mode e.name)
  if e.typeflag = typeDir then
    failIf (e.rest ≠ []) (ArchiveErr.directory e.name)
    return (files, total)
  else if e.typeflag = typeReg then
    failIf (e.rest = []) (ArchiveErr.topLevelFile e.name)
    failIf (e.rest ∈ files.map Prod.fst) (ArchiveErr.twice e.rest)
    -- one byte past the limit is read, to see that there is one
    let content := e.content.take (maxBytes - total + 1)
    failIf (e.broken = true ∧ e.content.length < maxBytes - total + 1) ArchiveErr.broken
    failIf (maxBytes < total + content.length) ArchiveErr.tooLarge
    return (files ++ [(e.rest, content)], total + content.length)
  else throw (.notRegular e.rest)

def readEntries (top : Bytes) (maxBytes : Nat) (files : Files) (total : Nat) :
    List TarEntry → Except ArchiveErr Files
  | [] => .ok files
  | e :: es => do
      let (files, total) ← readEntry top maxBytes files total e
      readEntries top maxBytes files total es

def readArchive (tar : Tar) (archive top : Bytes) (maxBytes : Nat) : Except ArchiveErr Files :=
  match tar.unpack archive with
  | none => .error .notGzip
  | some u => do
      let files ← readEntries top maxBytes [] 0 u.entries
      failIf (u.broken = true) ArchiveErr.broken
      return files

/-! ### What is read -/

variable {top : Bytes} {maxBytes : Nat} {files : Files}

/-- **One entry** is the top directory, or a regular file that is taken whole. -/
theorem readEntry_eq_ok {files' : Files} {total total' : Nat} {e : TarEntry}
    (hle : total ≤ maxBytes) (h : readEntry top maxBytes files total e = .ok (files', total')) :
    (cut (trimSlash e.name)).1 = top ∧ total' ≤ maxBytes ∧
      (e.typeflag ≠ typeReg ∧ files' = files ∨
        e.typeflag = typeReg ∧ e.rest ∉ files.map Prod.fst ∧
          files' = files ++ [(e.rest, e.content)]) := by
  obtain ⟨_, -, h⟩ := bind_eq_ok.1 h
  obtain ⟨_, htop, h⟩ := bind_eq_ok.1 h
  obtain ⟨_, -, h⟩ := bind_eq_ok.1 h
  refine ⟨not_not.1 (failIf_eq_ok.1 htop), ?_⟩
  by_cases hdir : e.typeflag = typeDir
  · rw [if_pos hdir] at h
    obtain ⟨_, -, h⟩ := bind_eq_ok.1 h
    cases h
    refine ⟨hle, .inl ⟨?_, rfl⟩⟩
    rw [hdir]
    decide
  · rw [if_neg hdir] at h
    by_cases hreg : e.typeflag = typeReg
    · rw [if_pos hreg] at h
      obtain ⟨_, -, h⟩ := bind_eq_ok.1 h
      obtain ⟨_, hnew, h⟩ := bind_eq_ok.1 h
      obtain ⟨_, -, h⟩ := bind_eq_ok.1 h
      obtain ⟨_, hfits, h⟩ := bind_eq_ok.1 h
      cases h
      have hfits := not_lt.1 (failIf_eq_ok.1 hfits)
      have hwhole : e.content.take (maxBytes - total + 1) = e.content := by
        rw [length_take] at hfits
        exact take_of_length_le (by omega)
      rw [hwhole] at hfits ⊢
      exact ⟨hfits, .inr ⟨hreg, failIf_eq_ok.1 hnew, rfl⟩⟩
    · rw [if_neg hreg] at h
      cases h

/-- The files are the regular entries, each name once. -/
theorem readEntries_eq_ok {es : List TarEntry} :
    ∀ {files files' : Files} {total : Nat}, total ≤ maxBytes → (files.map Prod.fst).Nodup →
      readEntries top maxBytes files total es = .ok files' →
      (∀ e ∈ es, (cut (trimSlash e.name)).1 = top) ∧ (files'.map Prod.fst).Nodup ∧
        files' = files ++
          (es.filter fun e => e.typeflag = typeReg).map fun e => (e.rest, e.content) := by
  induction es with
  | nil =>
    intro files files' total _ hnodup h
    cases h
    exact ⟨by simp, hnodup, by simp⟩
  | cons e es ih =>
    intro files files' total hle hnodup h
    obtain ⟨⟨files₁, total₁⟩, hentry, hes⟩ := bind_eq_ok.1 h
    obtain ⟨htop, hle₁, hcase⟩ := readEntry_eq_ok hle hentry
    rcases hcase with ⟨hreg, rfl⟩ | ⟨hreg, hnew, rfl⟩
    · obtain ⟨htops, hnodup', hfiles⟩ := ih hle₁ hnodup hes
      refine ⟨forall_mem_cons.2 ⟨htop, htops⟩, hnodup', ?_⟩
      rw [hfiles, filter_cons_of_neg (by simpa using hreg)]
    · have hnodup₁ : ((files ++ [(e.rest, e.content)]).map Prod.fst).Nodup := by
        rw [map_append, nodup_append]
        refine ⟨hnodup, by simp, fun a ha b hb => ?_⟩
        rw [map_singleton, mem_singleton] at hb
        rintro rfl
        exact hnew (by rwa [hb] at ha)
      obtain ⟨htops, hnodup', hfiles⟩ := ih hle₁ hnodup₁ hes
      refine ⟨forall_mem_cons.2 ⟨htop, htops⟩, hnodup', ?_⟩
      rw [hfiles, filter_cons_of_pos (by simpa using hreg), map_cons,
        append_assoc, singleton_append]

/-- The archive has one regular file of the name below its top directory, with the content. -/
def IsEntry (tar : Tar) (archive top rest content : Bytes) : Prop :=
  ∃ u e, tar.unpack archive = some u ∧ e ∈ u.entries ∧ e.typeflag = typeReg ∧
    (cut (trimSlash e.name)).1 = top ∧ e.rest = rest ∧ e.content = content ∧
    ∀ e' ∈ u.entries, e'.typeflag = typeReg → e'.rest = rest → e'.content = content

/-- **What is read of an archive is in it.** -/
theorem isEntry_of_readArchive {tar : Tar} {archive : Bytes}
    (h : readArchive tar archive top maxBytes = .ok files) {rest content : Bytes}
    (hfile : files.lookup rest = some content) : IsEntry tar archive top rest content := by
  unfold readArchive at h
  split at h
  · cases h
  · rename_i u hu
    obtain ⟨files', hread, h⟩ := bind_eq_ok.1 h
    obtain ⟨_, -, h⟩ := bind_eq_ok.1 h
    cases h
    obtain ⟨htop, hnodup, hfiles⟩ :=
      readEntries_eq_ok (Nat.zero_le _) (by simp) hread
    rw [nil_append] at hfiles
    have hmem : ∀ e ∈ u.entries, e.typeflag = typeReg → (e.rest, e.content) ∈ files := by
      intro e he hreg
      rw [hfiles]
      exact mem_map_of_mem (mem_filter.2 ⟨he, by simpa using hreg⟩)
    obtain ⟨pre, post, hsplit, -⟩ := lookup_eq_some_iff.1 hfile
    have hthis : (rest, content) ∈ files := hsplit ▸ mem_append_right _ mem_cons_self
    have hunique : ∀ c, (rest, c) ∈ files → c = content := fun c hc =>
      (Prod.mk.inj (inj_on_of_nodup_map hnodup hc hthis rfl)).2
    rw [hfiles] at hthis
    obtain ⟨e, he, heq⟩ := mem_map.1 hthis
    obtain ⟨he, hreg⟩ := mem_filter.1 he
    obtain ⟨hrest, hcontent⟩ := Prod.mk.inj heq
    refine ⟨u, e, hu, he, by simpa using hreg, htop e he, hrest, hcontent, fun e' he' hreg' h => ?_⟩
    exact hunique _ (h ▸ hmem e' he' hreg')

end Viiwork.Release
