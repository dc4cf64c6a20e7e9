import Viiwork.Kvshare.Receive

/-!
# Viiwork.Kvshare.Deliver

A put in terms of pieces. An item received **delivers** a piece: framing as it is, a
section as what is kept of the old copy with the new bytes behind it. If no section comes
twice and no framing is short, the put leaves a replica that holds the pieces
(`Accepted.holds`), and the `finish` behind it records their hashes (`Holds.run_finish`).
-/

namespace Viiwork.Kvshare

open Viiwork.Lib Store List Prog

/-- The piece an item makes, out of the section files there are. -/
def delivered (files : Name → Option Bytes) (ib : Item × Bytes) : Piece :=
  (ib.1.section_, if ib.1.section_ = [] then ib.2
    else truncate ib.1.keep ((files ib.1.section_).getD []) ++ ib.2)

/-- The sections among the items. -/
def sectionNames (its : List (Item × Bytes)) : List Name :=
  (its.map fun ib => ib.1.section_).filter (· != [])

variable {its : List (Item × Bytes)} {files : Name → Option Bytes} {name : Name}

theorem mem_sectionNames :
    name ∈ sectionNames its ↔ name ≠ [] ∧ ∃ ib ∈ its, ib.1.section_ = name := by
  simp [sectionNames, and_comm]

theorem sectionNames_append (its jts : List (Item × Bytes)) :
    sectionNames (its ++ jts) = sectionNames its ++ sectionNames jts := by
  simp [sectionNames]

variable {ib : Item × Bytes}

/-- The last item's section is none of those before. -/
theorem section_ne_of_nodup {jb : Item × Bytes} (hnodup : (sectionNames (its ++ [jb])).Nodup)
    (hib : ib ∈ its) (hname : ib.1.section_ ≠ []) : jb.1.section_ ≠ ib.1.section_ := by
  rw [sectionNames_append] at hnodup
  obtain ⟨-, -, hdisjoint⟩ := nodup_append.1 hnodup
  intro heq
  refine hdisjoint _ (mem_sectionNames.2 ⟨hname, ib, hib, rfl⟩) jb.1.section_ ?_ heq.symm
  exact mem_sectionNames.2 ⟨heq ▸ hname, jb, mem_singleton_self jb, rfl⟩

theorem nodup_of_append {jts : List (Item × Bytes)} (h : (sectionNames (its ++ jts)).Nodup) :
    (sectionNames its).Nodup := by
  rw [sectionNames_append] at h
  exact (nodup_append.1 h).1

theorem map_fst_sectionsOf_delivered :
    (sectionsOf (its.map (delivered files))).map Prod.fst = sectionNames its := by
  rw [sectionsOf, sectionNames, filter_map, filter_map, map_map]
  rfl

/-! ### The section files -/

theorem addFile_of_ne (h : ib.1.section_ ≠ name) : addFile files ib name = files name := by
  unfold addFile
  split
  · rfl
  · exact Function.update_of_ne (Ne.symm h) _ _

theorem addFile_self (h : ib.1.section_ ≠ []) :
    addFile files ib ib.1.section_ = some (delivered files ib).2 := by
  rw [addFile, if_neg h, Function.update_self, delivered, if_neg h]

/-- A section that no item has is left alone. -/
theorem foldl_addFile_of_notMem (h : ∀ ib ∈ its, ib.1.section_ ≠ name) :
    its.foldl addFile files name = files name := by
  induction its generalizing files with
  | nil => rfl
  | cons ib its ih =>
    rw [foldl_cons, ih fun jb hjb => h jb (mem_cons_of_mem ib hjb),
      addFile_of_ne (h ib mem_cons_self)]

/-- **A section that comes once becomes its piece.** -/
theorem foldl_addFile_of_mem (hnodup : (sectionNames its).Nodup) (hib : ib ∈ its)
    (hname : ib.1.section_ ≠ []) :
    its.foldl addFile files ib.1.section_ = some (delivered files ib).2 := by
  induction its using List.reverseRecOn with
  | nil => cases hib
  | append_singleton its jb ih =>
    rw [foldl_append, foldl_cons, foldl_nil]
    rcases mem_append.1 hib with hmem | hmem
    · rw [addFile_of_ne (section_ne_of_nodup hnodup hmem hname)]
      exact ih (nodup_of_append hnodup) hmem
    · obtain rfl := mem_singleton.1 hmem
      -- what came before left this section's file alone
      have hbefore : its.foldl addFile files ib.1.section_ = files ib.1.section_ := by
        refine foldl_addFile_of_notMem fun jb hjb heq => ?_
        exact section_ne_of_nodup hnodup hjb (heq ▸ hname) heq.symm
      rw [addFile_self hname, delivered, delivered, hbefore]

/-! ### What the loop gathers -/

variable {acc : PutAcc}

theorem add_held (ib : Item × Bytes) (hname : name ≠ []) :
    (acc.add ib).held name = if ib.1.section_ = name then none else acc.held name := by
  unfold PutAcc.add
  split
  · rename_i hframing
    rw [hframing, if_neg (Ne.symm hname)]
    rfl
  · simp only [PutAcc.addSection, Function.update_apply, eq_comm]

theorem foldl_add_held (hname : name ≠ []) :
    (its.foldl PutAcc.add acc).held name =
      if name ∈ sectionNames its then none else acc.held name := by
  induction its using List.reverseRecOn with
  | nil => rfl
  | append_singleton its ib ih =>
    rw [foldl_append, foldl_cons, foldl_nil, add_held ib hname, ih]
    by_cases hib : ib.1.section_ = name
    · rw [if_pos hib, if_pos (mem_sectionNames.2 ⟨hname, ib, by simp, hib⟩)]
    · have hiff : name ∈ sectionNames (its ++ [ib]) ↔ name ∈ sectionNames its := by
        simp [mem_sectionNames, hib]
      rw [if_neg hib]
      simp only [hiff]

theorem add_keeps (ib : Item × Bytes) (hname : name ≠ []) :
    (acc.add ib).keeps name = if ib.1.section_ = name then ib.1.keep else acc.keeps name := by
  unfold PutAcc.add
  split
  · rename_i hframing
    rw [hframing, if_neg (Ne.symm hname)]
    rfl
  · simp only [PutAcc.addSection, Function.update_apply, eq_comm]

theorem foldl_add_keeps (hnodup : (sectionNames its).Nodup) (hib : ib ∈ its)
    (hname : ib.1.section_ ≠ []) : (its.foldl PutAcc.add acc).keeps ib.1.section_ = ib.1.keep := by
  induction its using List.reverseRecOn with
  | nil => cases hib
  | append_singleton its jb ih =>
    rw [foldl_append, foldl_cons, foldl_nil, add_keeps jb hname]
    rcases mem_append.1 hib with hmem | hmem
    · rw [if_neg (section_ne_of_nodup hnodup hmem hname)]
      exact ih (nodup_of_append hnodup) hmem
    · obtain rfl := mem_singleton.1 hmem
      rw [if_pos rfl]

variable {d : Dir}

/-- The items gathered are the pieces delivered, if no framing is short. -/
theorem foldl_add_items (acc : PutAcc) (hlen : ∀ ib ∈ its, ib.1.len = (delivered files ib).2.length)
    (hfile : ∀ ib ∈ its, ib.1.section_ ≠ [] →
      validKey ib.1.section_ = true ∧ d.sections ib.1.section_ = some (delivered files ib).2) :
    ∃ items more, (its.foldl PutAcc.add acc).items = acc.items ++ items ∧
      (its.foldl PutAcc.add acc).frames = acc.frames ++ more ∧
      List.Forall₂ (ItemHolds d (acc.frames ++ more)) items (its.map (delivered files)) := by
  induction its generalizing acc with
  | nil => exact ⟨[], [], by simp, by simp, .nil⟩
  | cons ib its ih =>
    obtain ⟨items, more, hitems, hframes, hholds⟩ := ih (acc.add ib)
      (fun jb hjb => hlen jb (mem_cons_of_mem ib hjb))
      fun jb hjb => hfile jb (mem_cons_of_mem ib hjb)
    have hib := hlen ib mem_cons_self
    rw [foldl_cons]
    by_cases hname : ib.1.section_ = []
    · have hadd : acc.add ib = acc.addFrame ib.1.len ib.2 := if_pos hname
      simp only [hadd, PutAcc.addFrame, append_assoc] at hitems hframes hholds ⊢
      refine ⟨⟨[], ib.1.len, acc.frames.length⟩ :: items, ib.2 ++ more, hitems, hframes,
        .cons ?_ hholds⟩
      have hpiece : delivered files ib = ([], ib.2) := by rw [delivered, if_pos hname, hname]
      rw [hpiece] at hib ⊢
      exact
        { name := rfl
          len := hib
          framing := fun _ => by simp [slice, hib]
          file := fun hne => absurd rfl hne }
    · have hadd : acc.add ib = acc.addSection ib.1 := if_neg hname
      simp only [hadd, PutAcc.addSection, append_assoc] at hitems hframes hholds ⊢
      refine ⟨⟨ib.1.section_, ib.1.len, 0⟩ :: items, more, hitems, hframes, .cons ?_ hholds⟩
      exact
        { name := rfl
          len := hib
          framing := fun hnil => absurd hnil hname
          file := hfile ib mem_cons_self }

/-! ### The replica that a put leaves -/

/-- The delta is whole: no section twice, every piece of the length its item says. -/
structure Accepted.Whole (a : Accepted) (dir : Option Dir) : Prop where
  nodup : (sectionNames a.items).Nodup
  valid : ∀ ib ∈ a.items, ib.1.section_ ≠ [] → validKey ib.1.section_ = true
  len : ∀ ib ∈ a.items, ib.1.len = (delivered (a.base dir) ib).2.length

/-- The pieces that a put delivers. -/
def Accepted.pieces (a : Accepted) (dir : Option Dir) : List Piece :=
  a.items.map (delivered (a.base dir))

variable {a : Accepted} {dir : Option Dir}

theorem files_eq (h : a.Whole dir) (hib : ib ∈ a.items) (hname : ib.1.section_ ≠ []) :
    a.files dir ib.1.section_ = some (delivered (a.base dir) ib).2 := by
  -- a section that the new file has is not removed
  have hmet : a.gathered.held ib.1.section_ = none := by
    rw [Accepted.gathered, foldl_add_held hname, if_pos (mem_sectionNames.2 ⟨hname, ib, hib, rfl⟩)]
  rw [Accepted.files, removeFiles, if_neg (notMem_goneNames hmet),
    foldl_addFile_of_mem h.nodup hib hname]

/-- **A put of a whole delta** leaves a replica that holds the pieces. -/
theorem Accepted.holds (h : a.Whole dir) (next : ReplicaState) :
    Holds (a.dir next dir) a.gathered.items (a.pieces dir) := by
  obtain ⟨items, more, hitems, hframes, hholds⟩ :=
    foldl_add_items (d := a.dir next dir) ⟨[], [], fun _ => 0, heldLens a.keptItems, 0⟩ h.len
      fun ib hib hname => ⟨h.valid ib hib hname, files_eq h hib hname⟩
  rw [nil_append] at hitems hframes hholds
  refine ⟨⟨a.gathered.frames, rfl, ?_⟩, ?_⟩
  · rw [Accepted.gathered, hitems, hframes]
    exact hholds
  · rw [Accepted.pieces, map_fst_sectionsOf_delivered]
    exact h.nodup

/-! ### Behind the put -/

variable (sha : Sha256) {key : Name} {s : Store} {ps : List Piece}

/-- The state with the chunk hashes of the pieces, if it has none. -/
def ReplicaState.hashed (st : ReplicaState) (ps : List Piece) : ReplicaState :=
  { st with chunks := some (st.chunks.getD (chunksFor ps)) }

/-- **Behind a put** the manifest of the pieces is cached and their chunk hashes are in the
state. -/
theorem Holds.run_finish {next : ReplicaState} (h : Holds d next.items ps)
    (hstate : d.state = some (.holds next)) (htmp : d.stateTmp = none) {keeps : Name → Nat}
    {prevMan : Option Manifest}
    (hprev : ∀ p ∈ sectionsOf ps, Reusable sha p.2 (keeps p.1) (prevBlocks prevMan p.1)) :
    run (finish sha key next keeps prevMan) (s.setDir key d) =
      (.ok (), (s.setDir key { d with state := some (.holds (next.hashed ps)) }).setManifest key
        (some (manifestFor sha next ps))) := by
  have hchunks : run (addChunks key d next) (s.setDir key d) =
      (.ok (), s.setDir key { d with state := some (.holds (next.hashed ps)) }) := by
    unfold addChunks ReplicaState.hashed
    cases hc : next.chunks with
    | some c =>
      have hsame : { next with chunks := some c } = next := by rw [← hc]
      have hdir : { d with state := some (.holds next) } = d := by rw [← hstate]
      rw [Option.getD_some, hsame, hdir]
      rfl
    | none =>
      dsimp only
      rw [h.chunksOf, run_ofExcept_bind_ok, run_writeState, Option.getD_none, htmp]
  rw [finish, run_attempt, run_get_bind, setDir_dirs, Option.getD_some]
  dsimp only
  rw [h.manifestOf sha hprev, run_ofExcept_bind_ok, run_bind_ok hchunks, run_act]

/-! ### Keys that hold a replica -/

/-- The store holds the pieces under the key, as a complete replica with their chunk
hashes; the manifest it has cached, if any, is theirs. -/
structure Store.Has (s : Store) (key : Name) (st : ReplicaState) (ps : List Piece) : Prop where
  dir : ∃ d, s.dirs key = some d ∧ d.state = some (.holds st) ∧ Holds d st.items ps
  complete : st.complete = true
  chunks : ∀ p ∈ sectionsOf ps, st.chunks.bind (fun c => c p.1) =
    if isKVSection p.1 then some (trueChunks p.2) else none
  man : s.man key = none ∨ s.man key = some (manifestFor sha st ps)

variable {sha} {st : ReplicaState}

theorem Store.Has.stateOf (h : s.Has sha key st ps) : stateOf (s.dirs key) = .ok (some st) := by
  obtain ⟨d, hd, hstate, -⟩ := h.dir
  rw [hd, Kvshare.stateOf, Option.bind_some, hstate]

/-- The manifest a store returns is that of the pieces. -/
theorem Store.Has.run_manifest (h : s.Has sha key st ps) (hkey : validKey key = true) :
    run (manifest sha key) s =
      (.ok (some (manifestFor sha st ps)), s.setManifest key (some (manifestFor sha st ps))) := by
  rw [manifest, run_failIf_bind_neg (by simp [hkey]), run_get_bind]
  rcases h.man with hman | hman
  · obtain ⟨d, hd, hstate, hholds⟩ := h.dir
    have hread : run (readState key) s = _ := run_readState s
    rw [h.stateOf] at hread
    rw [hman]
    dsimp only
    rw [run_bind_ok hread, hd]
    dsimp only
    rw [if_pos h.complete, hholds.manifestOf sha fun p _ => reusable_zero sha p.2 []]
    rfl
  · rw [hman]
    have hsame : s.setManifest key (some (manifestFor sha st ps)) = s := by
      rw [setManifest, ← hman, Function.update_eq_self]
    rw [hsame]
    rfl

/-- What is materialized is the pieces, if their digest is the recorded one. -/
theorem Store.Has.materialize (h : s.Has sha key st ps) (hkey : validKey key = true)
    {stale : Nat → Bytes} (htrailer : st.trailer = false)
    (hdigest : fileDigest sha stale (content ps) st.size = st.digest) :
    materialize sha stale s key = .ok (content ps) := by
  obtain ⟨d, hd, hstate, hholds⟩ := h.dir
  rw [Kvshare.materialize, failIf_neg (by simp [hkey]), ok_bind, h.stateOf, ok_bind, hd]
  dsimp only
  rw [failIf_neg (by simp [h.complete]), ok_bind, Dir.file, hholds.assemble, ok_bind,
    if_neg (by simp [htrailer]), if_neg (not_not.2 hdigest)]

/-- **A put of a whole delta** succeeds, and the key then has the pieces. The hashes that
`finish` reuses must be those of the blocks kept. -/
theorem run_put_whole {delta : Stream} {want : Option FileMeta} (hkey : validKey key = true)
    (haccepted : accepted delta want (s.dirs key) = .ok a) (hwhole : a.Whole (s.dirs key))
    (hreuse : ∀ ib ∈ a.items, ib.1.section_ ≠ [] →
      Reusable sha (delivered (a.base (s.dirs key)) ib).2 ib.1.keep
        (prevBlocks (if a.afresh then none else s.man key) ib.1.section_)) (now : Int) :
    ∃ s', run (put sha key now delta want) s = (.ok ⟨a.header.size⟩, s') ∧
      s'.Has sha key ((nextState a.header want now a.gathered).hashed (a.pieces (s.dirs key)))
        (a.pieces (s.dirs key)) := by
  have hprev : ∀ p ∈ sectionsOf (a.pieces (s.dirs key)), Reusable sha p.2 (a.gathered.keeps p.1)
      (prevBlocks (if a.afresh then none else s.man key) p.1) := by
    intro p hp
    obtain ⟨hp, hname⟩ := mem_sectionsOf.1 hp
    obtain ⟨ib, hib, rfl⟩ := mem_map.1 hp
    change Reusable sha _ (a.gathered.keeps ib.1.section_) _
    rw [Accepted.gathered, foldl_add_keeps hwhole.nodup hib hname]
    exact hreuse ib hib hname
  have hholds := Accepted.holds hwhole (nextState a.header want now a.gathered)
  refine ⟨_, run_put_accepted sha hkey haccepted now, ?_⟩
  rw [Accepted.store, Holds.run_finish sha hholds rfl rfl hprev]
  exact
    { dir := ⟨_, setDir_dirs, rfl, Accepted.holds hwhole _⟩
      complete := rfl
      chunks := fun p hp => chunksFor_of_mem hholds.nodup hp
      man := .inr (Function.update_self _ _ _) }

end Viiwork.Kvshare
