import Viiwork.Kvshare.Rebuild
import Viiwork.Kvshare.RoundTrip

/-!
# Viiwork.Kvshare.Cached

The manifest that a store has cached for a key is the one it would compute from the
section files (`Cached`), although it was built with hashes of the manifest before.

Those are reused below `keep`, where the new file still is the old one. `Tracked` says so
of a put under way: a section that no item has met is as it was, and one that was met
begins with what was kept of the old copy. A section that comes twice keeps nothing the
second time, so nothing of it is reused.
-/

namespace Viiwork.Kvshare

open Viiwork.Lib Store Prog List Function

variable (sha : Sha256)

/-- The manifest computed from the section files alone. -/
def scratch (d : Dir) (st : ReplicaState) : Except Err Manifest :=
  manifestOf sha d st (fun _ => 0) fun _ => []

/-! ### Reused hashes -/

/-- The old copy's hashes, as far as there are any. -/
def HashesOf (base : Name → Option Bytes) (prev : Name → Bytes) : Prop :=
  ∀ name, prev name = [] ∨ ∃ f m, base name = some f ∧ m * blockSize ≤ f.length ∧
    prev name = blockHashes sha f 0 m

variable {d : Dir} {m : Manifest} {st : ReplicaState} {keeps : Name → Nat} {prev : Name → Bytes}
variable {dir : Option Dir}

/-- A manifest has a part for each section, with its hashes. -/
theorem manifestOf_eq_ok (h : manifestOf sha d st keeps prev = .ok m) :
    (m.model = st.model ∧ m.config = st.config ∧ m.size = st.size ∧ m.saveID = st.saveID) ∧
      List.Forall₂ (fun it sm => sm.name = it.section_ ∧ sm.len = it.len ∧
        hashSection sha d it.section_ (keeps it.section_) it.len (prev it.section_) =
          .ok sm.blocks) (sectionItems st.items) m.sections := by
  obtain ⟨sections, hsections, h⟩ := bind_eq_ok.1 h
  cases h
  refine ⟨⟨rfl, rfl, rfl, rfl⟩, (mapM_eq_ok_iff.1 hsections).imp fun it sm hsm => ?_⟩
  obtain ⟨blocks, hblocks, hsm⟩ := bind_eq_ok.1 hsm
  cases hsm
  exact ⟨rfl, rfl, hblocks⟩

/-- The blocks of a manifest computed from the files are those of the files. -/
theorem hashesOf_scratch (h : scratch sha d st = .ok m) :
    HashesOf sha d.sections (prevBlocks (some m)) := by
  intro name
  obtain ⟨-, hsections⟩ := manifestOf_eq_ok sha h
  unfold prevBlocks
  rw [Option.bind_some]
  cases hlast : lastWith SectionManifest.name name m.sections with
  | none => exact .inl rfl
  | some sm =>
    obtain ⟨hmem, hname⟩ := mem_of_lastWith hlast
    obtain ⟨i, hi, hsm⟩ := getElem_of_mem hmem
    have hlen := hsections.length_eq
    obtain ⟨hsection, -, hblocks⟩ := (forall₂_iff_get.1 hsections).2 i (hlen ▸ hi) hi
    simp only [get_eq_getElem, hsm] at hsection hblocks
    obtain ⟨f, hf, hle, hout⟩ := (hashSection_zero_eq_ok sha).1 hblocks
    rw [← hsection, hname] at hf
    refine .inr ⟨f, _, open_eq_ok hf, ?_, hout⟩
    rcases Nat.eq_zero_or_pos ((sectionItems st.items)[i].len / blockSize) with hzero | hpos
    · rw [hzero, Nat.zero_mul]
      exact Nat.zero_le _
    · have := hle _ (Nat.pred_lt hpos.ne')
      rwa [Nat.pred_eq_sub_one, Nat.sub_add_cancel hpos] at this

/-- What a section kept of the old copy has the old copy's hashes. -/
theorem reusable_kept {base : Name → Option Bytes} (hprev : HashesOf sha base prev) (name : Name)
    (keep : Nat) (b : Bytes) :
    Reusable sha (truncate keep ((base name).getD []) ++ b) keep (prev name) := by
  rcases hprev name with hnil | ⟨f, m, hf, hle, heq⟩
  · rw [hnil]
    simp [Reusable]
  · rw [heq, hf, Option.getD_some]
    refine reusable_of_blocks sha (by simp [length_truncate]) fun i hi hm => ?_
    have hi' : (i + 1) * blockSize ≤ keep :=
      (Nat.le_div_iff_mul_le blockSize_pos).1 (Nat.succ_le_of_lt hi)
    have hf' : (i + 1) * blockSize ≤ f.length := (Nat.mul_le_mul_right _ hm).trans hle
    exact block_eq_of_take (take_truncate_append hi' hf').symm (Nat.lt_succ_self i)

/-! ### Sections under way -/

/-- Of the sections of `base`, those not yet met are as they were; one that was met begins
with what it keeps. -/
structure Tracked (base : Name → Option Bytes) (items : List ReplicaItem)
    (held : Name → Option Nat) (keeps : Name → Nat) (files : Name → Option Bytes) : Prop where
  untouched : ∀ name, (held name).isSome → files name = base name
  kept : ∀ name, keeps name = 0 ∨
    ∃ b, files name = some (truncate (keeps name) ((base name).getD []) ++ b)
  item : ∀ it ∈ sectionItems items, held it.section_ = none ∧ keeps it.section_ ≤ it.len

section Tracked

variable {sha} {base files : Name → Option Bytes} {items : List ReplicaItem}
  {held : Name → Option Nat} {keeps : Name → Nat}

theorem tracked_start (base : Name → Option Bytes) (held : Name → Option Nat)
    (hitems : sectionItems items = []) : Tracked base items held (fun _ => 0) base where
  untouched _ _ := rfl
  kept _ := .inl rfl
  item it hit := by rw [hitems] at hit; cases hit

theorem Tracked.framing {items' : List ReplicaItem} (h : Tracked base items held keeps files)
    (hitems : sectionItems items' = sectionItems items) : Tracked base items' held keeps files where
  untouched := h.untouched
  kept := h.kept
  item := hitems ▸ h.item

/-- The next section keeps only of a copy that nothing before has touched. -/
theorem Tracked.addSection (h : Tracked base items held keeps files) {name : Name} {keep len : Nat}
    (hkeep : keep ≤ (held name).getD 0) (hlen : keep ≤ len) (b : Bytes) :
    Tracked base (items ++ [⟨name, len, 0⟩]) (update held name none)
      (update keeps name keep)
      (update files name (some (truncate keep ((files name).getD []) ++ b))) := by
  refine ⟨fun name' hheld => ?_, fun name' => ?_, fun it hit => ?_⟩
  · by_cases hname : name' = name
    · subst hname
      rw [update_self] at hheld
      cases hheld
    · rw [update_of_ne hname] at hheld ⊢
      exact h.untouched name' hheld
  · by_cases hname : name' = name
    · subst hname
      rw [update_self, update_self]
      cases hheld : held name' with
      | none =>
        rw [hheld] at hkeep
        exact .inl (Nat.le_zero.1 hkeep)
      | some n => exact .inr ⟨b, by rw [h.untouched name' (by rw [hheld]; rfl)]⟩
    · rw [update_of_ne hname, update_of_ne hname]
      exact h.kept name'
  · rw [sectionItems, filter_append] at hit
    by_cases hname : it.section_ = name
    · rw [hname, update_self, update_self]
      refine ⟨rfl, ?_⟩
      rcases mem_append.1 hit with hit | hit
      · have hheld := (h.item it hit).1
        rw [hname] at hheld
        rw [hheld] at hkeep
        exact hkeep.trans (Nat.zero_le _)
      · obtain rfl := mem_singleton.1 (mem_of_mem_filter hit)
        exact hlen
    · rw [update_of_ne hname, update_of_ne hname]
      rcases mem_append.1 hit with hit | hit
      · exact h.item it hit
      · obtain rfl := mem_singleton.1 (mem_of_mem_filter hit)
        exact absurd rfl hname

theorem Tracked.foldl_add {acc : PutAcc} {its : List (Item × Bytes)} (htaken : Taken acc.held its)
    (h : Tracked base acc.items acc.held acc.keeps files) :
    Tracked base (its.foldl PutAcc.add acc).items (its.foldl PutAcc.add acc).held
      (its.foldl PutAcc.add acc).keeps (its.foldl addFile files) := by
  induction its generalizing acc files with
  | nil => exact h
  | cons ib its ih =>
    rw [foldl_cons, foldl_cons]
    cases htaken with
    | framing hname hrest =>
      rw [PutAcc.add, if_pos hname, addFile, if_pos hname]
      exact ih hrest (h.framing (by simp [PutAcc.addFrame, sectionItems]))
    | section_ hname _ hkeep hlen hrest =>
      rw [PutAcc.add, if_neg hname, addFile, if_neg hname]
      exact ih hrest (h.addSection hkeep (Nat.le.intro hlen) _)

theorem sectionItems_growFraming (items : List ReplicaItem) (n frame : Nat) :
    sectionItems (growFraming items n frame) = sectionItems items := by
  unfold growFraming
  split
  · rename_i it hlast
    split
    · rename_i hname
      obtain ⟨front, rfl⟩ := List.getLast?_eq_some_iff.1 hlast
      rw [dropLast_concat]
      simp [sectionItems, hname]
    · simp [sectionItems]
  · rename_i hlast
    rw [List.getLast?_eq_none_iff.1 hlast]
    rfl

theorem Tracked.foldl_write {b : Rebuild} {ws : List Wrote} (hchain : b.Chain ws)
    (h : Tracked base b.items b.held b.keeps d.sections) :
    Tracked base (ws.foldl Rebuild.add b).items (ws.foldl Rebuild.add b).held
      (ws.foldl Rebuild.add b).keeps (ws.foldl Dir.write d).sections := by
  induction ws generalizing b d with
  | nil => exact h
  | cons w ws ih =>
    obtain ⟨htakes, hrest⟩ := hchain
    refine ih hrest ?_
    by_cases hname : w.name = []
    · rw [Rebuild.add, if_pos hname, Dir.write, if_pos hname]
      exact h.framing (sectionItems_growFraming _ _ _)
    · rw [Rebuild.add_section b hname, Dir.write_section d hname]
      exact h.addSection htakes.keep (Nat.le_add_right _ _) _

/-- **What is built with reused hashes is the manifest of the files.** -/
theorem Tracked.scratch (h : Tracked base items held keeps files) {prev : Name → Bytes}
    (hprev : HashesOf sha base prev) {next : ReplicaState} (hitems : next.items = items)
    (hfiles : ∀ name, held name = none → d.sections name = files name)
    (hm : manifestOf sha d next keeps prev = .ok m) : scratch sha d next = .ok m := by
  obtain ⟨sections, hsections, hm⟩ := bind_eq_ok.1 hm
  refine bind_eq_ok.2 ⟨sections, ?_, hm⟩
  rw [mapM_eq_ok_iff, forall₂_iff_zip] at hsections ⊢
  refine ⟨hsections.1, fun {it sm} hmem => ?_⟩
  obtain ⟨blocks, hblocks, hsm⟩ := bind_eq_ok.1 (hsections.2 hmem)
  refine bind_eq_ok.2 ⟨blocks, ?_, hsm⟩
  obtain ⟨hheld, hlen⟩ := h.item it (hitems ▸ (of_mem_zip hmem).1)
  obtain ⟨f, hf, -⟩ := bind_eq_ok.1 hblocks
  refine hashSection_scratch sha hf ?_ hlen hblocks
  rcases h.kept it.section_ with hzero | ⟨b, hb⟩
  · rw [hzero]
    exact reusable_zero sha _ _
  · rw [← hfiles _ hheld, open_eq_ok hf] at hb
    rw [Option.some.inj hb]
    exact reusable_kept sha hprev _ _ _

end Tracked

/-! ### The cache -/

/-- The manifest that is cached, if any, is that of the complete replica there is. -/
def Cached (v : Option Dir × Option Manifest) : Prop :=
  ∀ m, v.2 = some m → ∃ d st, v.1 = some d ∧ d.state = some (.holds st) ∧ st.complete = true ∧
    scratch sha d st = .ok m

variable {sha}

theorem cached_none (dir : Option Dir) : Cached sha (dir, none) := fun _ h => nomatch h

theorem cached_some (hdir : dir = some d) (hstate : d.state = some (.holds st))
    (hcomplete : st.complete = true) (hm : scratch sha d st = .ok m) :
    Cached sha (dir, some m) := by
  intro m' heq
  cases heq
  exact ⟨d, st, hdir, hstate, hcomplete, hm⟩

/-- The hashes that the next put reuses are those of the files. -/
theorem Cached.hashesOf {man : Option Manifest} (h : Cached sha (dir, man)) :
    HashesOf sha (dir.getD .empty).sections (prevBlocks man) := by
  cases man with
  | none => exact fun _ => .inl rfl
  | some m =>
    obtain ⟨d, st, rfl, -, -, hm⟩ := h m rfl
    exact hashesOf_scratch sha hm

theorem wp_inDir {key : Name} {f : Dir → Dir} {C : Store → Store → Prop} {F : Err → Store → Prop}
    {Q : Unit → Store → Prop} {s : Store} :
    (inDir key f).Wp C F Q (s.setDir key d) ↔
      C (s.setDir key d) (s.setDir key (f d)) ∧ Q () (s.setDir key (f d)) := by
  have hmodify : modifyDir key f (s.setDir key d) = s.setDir key (f d) := by
    simp [modifyDir, setDir]
  rw [inDir, wp_bind, wp_get, wp_bind, wp_failIf, setDir_dirs, wp_act, hmodify]
  simp

/-- **Behind a put** the manifest that is cached is that of the files. -/
theorem wp_finish_cached {key : Name} {next : ReplicaState} {prevMan : Option Manifest} {s : Store}
    (hstate : d.state = some (.holds next)) (hcomplete : next.complete = true)
    (hman : s.man key = none) (h : ∀ m, manifestOf sha d next keeps (prevBlocks prevMan) = .ok m →
      scratch sha d next = .ok m) :
    (finish sha key next keeps prevMan).Wp (fun _ _ => True) (fun _ s => Cached sha (s.at key))
      (fun _ s => Cached sha (s.at key)) (s.setDir key d) := by
  have hbefore : Cached sha ((s.setDir key d).at key) := by
    rw [at_setDir, hman]
    exact cached_none _
  rw [finish, wp_attempt, wp_bind, wp_get, setDir_dirs, Option.getD_some, wp_bind, wp_ofExcept]
  refine ⟨fun m hm => ?_, fun _ _ => hbefore⟩
  rw [wp_bind, addChunks]
  cases hchunks : next.chunks with
  | some c =>
    refine ⟨trivial, ?_⟩
    show Cached sha (Store.at (setManifest key (some m) _) key)
    rw [at_setManifest]
    exact cached_some setDir_dirs hstate hcomplete (h m hm)
  | none =>
    dsimp only
    rw [wp_bind, wp_ofExcept]
    refine ⟨fun chunks _ => ?_, fun _ _ => hbefore⟩
    rw [writeState, wp_bind, wp_inDir]
    refine ⟨trivial, ?_⟩
    rw [wp_inDir]
    refine ⟨trivial, trivial, ?_⟩
    show Cached sha (Store.at (setManifest key (some m) _) key)
    rw [at_setManifest]
    exact cached_some setDir_dirs rfl hcomplete (h m hm)

/-! ### The calls -/

variable {key : Name} {s : Store}

theorem cached_put (h : Cached sha (s.at key)) (now : Int) (delta : Stream)
    (want : Option FileMeta) :
    Cached sha ((Prog.run (put sha key now delta want) s).2.at key) := by
  by_cases hkey : validKey key = true
  · cases hacc : accepted delta want (s.dirs key) with
    | error e =>
      obtain ⟨s', hrun⟩ := run_put_refused sha hkey hacc now
      rw [hrun, Store.drop, at_setManifest]
      exact cached_none _
    | ok a =>
      rw [run_put_accepted sha hkey hacc now, Accepted.store]
      refine (wp_finish_cached rfl rfl (by simp [setManifest]) fun m hm => ?_).run_ok
        (run_finish sha _ _ _ _)
      obtain ⟨-, htaken⟩ := accepted_eq_ok hacc
      have htracked : Tracked (a.base (s.dirs key)) a.gathered.items a.gathered.held
          a.gathered.keeps (a.items.foldl addFile (a.base (s.dirs key))) :=
        Tracked.foldl_add htaken (tracked_start _ _ rfl)
      have hprev : HashesOf sha (a.base (s.dirs key))
          (prevBlocks (if a.afresh then none else s.man key)) := by
        unfold Accepted.base
        split
        · exact fun _ => .inl rfl
        · exact h.hashesOf
      exact htracked.scratch hprev rfl (fun name hheld => if_neg (notMem_goneNames hheld)) hm
  · rw [put, run_failIf_bind_pos (by simpa using hkey)]
    exact h

theorem readEngineDeltaHeader_eq_ok {delta br : Stream} {h : EngineDeltaHeader}
    (hh : readEngineDeltaHeader delta = .ok (h, br)) : h.fileSize < 2 ^ 64 := by
  unfold readEngineDeltaHeader at hh
  split at hh
  · cases hh
  · obtain ⟨_, -, hh⟩ := bind_eq_ok.1 hh
    obtain ⟨_, -, hh⟩ := bind_eq_ok.1 hh
    obtain ⟨_, -, hh⟩ := bind_eq_ok.1 hh
    cases hh
    exact leAt_lt _ _ _

variable (sha) in
/-- A rebuild that returns leaves a complete replica, built with what was kept. -/
theorem returns_engineBody (hsize : h.fileSize < 2 ^ 64) :
    (engineBody key now h old br).Returns (fun out s' => ∃ d', s' = s.setDir key d' ∧
      d'.state = some (.holds out.1) ∧ out.1.complete = true ∧
      ∀ prev, HashesOf sha d.sections prev → ∀ m, manifestOf sha d' out.1 out.2 prev = .ok m →
        scratch sha d' out.1 = .ok m) (s.setDir key d) := by
  rw [returns_iff]
  intro out s' hrun
  rw [engineBody, run_bind_ok (run_writeState _)] at hrun
  obtain ⟨⟨b, r⟩, s₁, hpayload, hrun⟩ := run_bind_eq_ok.1 hrun
  obtain ⟨ws, hchain, hb, rfl⟩ := (payload_writes hsize s _ _ _).run_ok hpayload
  dsimp only at hb hrun
  cases htrailer : engineTrailer h b r with
  | error e =>
    rw [htrailer] at hrun
    cases hrun
  | ok u =>
    rw [htrailer, run_ofExcept_bind_ok, run_bind_ok (run_removeGone _ _),
      run_bind_ok (run_writeFrames _), run_bind_ok (run_writeState _)] at hrun
    cases hrun
    refine ⟨_, rfl, rfl, rfl, fun prev hprev m hm => ?_⟩
    have htracked := Tracked.foldl_write (d := { d with
      state := some (.holds { old with complete := false }), stateTmp := none }) hchain
      (tracked_start d.sections _ rfl)
    rw [← hb] at htracked
    exact htracked.scratch hprev rfl (fun name hheld => if_neg (notMem_goneNames hheld)) hm

theorem cached_putEngineDelta (h : Cached sha (s.at key)) (now : Int) (delta : Stream)
    (want : FileMeta) :
    Cached sha ((Prog.run (putEngineDelta sha key now delta want) s).2.at key) := by
  refine Wp.run (P := fun s : Store => Cached sha (s.at key)) (C := fun _ _ => True) ?_
  rw [putEngineDelta, wp_bind, wp_failIf]
  refine ⟨fun _ => ?_, fun _ => h⟩
  rw [wp_bind, wp_ofExcept]
  refine ⟨?_, fun _ _ => h⟩
  rintro ⟨hd, br⟩ hheader
  rw [wp_bind, wp_failIf]
  refine ⟨fun _ => ?_, fun _ => h⟩
  rw [readState, wp_bind, wp_bind, wp_get, wp_ofExcept]
  refine ⟨fun old hold => ?_, fun _ _ => h⟩
  rw [wp_bind, wp_ofExcept]
  refine ⟨fun o ho => ?_, fun _ _ => h⟩
  rw [wp_bind, wp_get, wp_bind, wp_act]
  refine ⟨trivial, ?_⟩
  rw [wp_bind, wp_onFail]
  -- a replica that a delta is against has a directory
  obtain ⟨d, hdir⟩ : ∃ d, s.dirs key = some d := by
    obtain ⟨d, hdir, -⟩ := stateOf_eq_ok_some (engineBase_eq_ok ho ▸ hold)
    exact ⟨d, hdir⟩
  rw [← setDir_of_eq (s := s.setManifest key none) hdir]
  refine (returns_engineBody sha (readEngineDeltaHeader_eq_ok hheader)).mono
    (fun _ _ _ => trivial) (fun e s' _ => ⟨trivial, ?_⟩) ?_
  · rw [Store.drop, at_setManifest]
    exact cached_none _
  · rintro ⟨next, keeps⟩ s' ⟨d', rfl, hstate, hcomplete, hm⟩
    rw [wp_bind]
    refine wp_finish_cached hstate hcomplete (by simp [setManifest]) fun m hm' => ?_
    refine hm _ ?_ m hm'
    rw [Store.at, hdir] at h
    exact h.hashesOf

theorem cached_manifest (h : Cached sha (s.at key)) :
    Cached sha ((Prog.run (manifest sha key) s).2.at key) := by
  refine Wp.run (P := fun s : Store => Cached sha (s.at key)) (C := fun _ _ => True) ?_
  rw [manifest, wp_bind, wp_failIf]
  refine ⟨fun _ => ?_, fun _ => h⟩
  rw [wp_bind, wp_get]
  split
  · exact h
  · rw [readState, wp_bind, wp_bind, wp_get, wp_ofExcept]
    refine ⟨fun st hst => ?_, fun _ _ => h⟩
    split
    · rename_i st' d' _ hdir
      split
      · rename_i hcomplete
        rw [wp_bind, wp_ofExcept]
        refine ⟨fun m hm => ?_, fun _ _ => h⟩
        refine ⟨trivial, ?_⟩
        show Cached sha (Store.at (setManifest key (some m) s) key)
        rw [at_setManifest]
        obtain ⟨d, hd, hstate⟩ := stateOf_eq_ok_some hst
        cases hdir.symm.trans hd
        exact cached_some hd hstate hcomplete hm
      · exact h
    · exact h

/-- **A call keeps the cache true.** -/
theorem Call.cached (c : Call) (h : ∀ key, Cached sha (s.at key)) (key : Name) :
    Cached sha ((c.after sha s).at key) := by
  by_cases hkey : key = c.key
  · subst hkey
    cases c with
    | put key now delta want =>
      rw [Call.after, Call.prog, run_bind_pure_snd]
      exact cached_put (h key) now delta want
    | putEngineDelta key now delta want =>
      rw [Call.after, Call.prog, run_bind_pure_snd]
      exact cached_putEngineDelta (h key) now delta want
    | manifest key =>
      rw [Call.after, Call.prog, run_bind_pure_snd]
      exact cached_manifest (h key)
    | survey clean key =>
      rw [after_survey]
      split
      · rename_i hremove
        -- only a replica that is not complete goes, and no manifest is cached for that
        intro m hm
        obtain ⟨d, st, hd, hstate, hcomplete, -⟩ := h key m hm
        have hd' : s.dirs key = some d := hd
        simp [isComplete, stateIn, stateOf, hd', hstate, hcomplete] at hremove
      · exact h key
    | removeReplica key =>
      show Cached sha (Store.at (setManifest key none (removeAll key s)) key)
      rw [at_setManifest]
      exact cached_none _
  · rw [c.after_of_ne sha hkey]
    exact h key

/-! ### Runs -/

variable (sha) in
/-- The store after the calls, one after another. -/
def Store.calls (s : Store) (cs : List Call) : Store := cs.foldl (fun s c => c.after sha s) s

theorem cached_calls (h : ∀ key, Cached sha (s.at key)) (cs : List Call) (key : Name) :
    Cached sha ((s.calls sha cs).at key) := by
  induction cs generalizing s with
  | nil => exact h key
  | cons c cs ih => exact ih fun key => c.cached h key

/-- The manifest that a request answers with is cached, or computed from the files. -/
theorem manifest_returns (h : Cached sha (s.at key)) :
    (manifest sha key).Returns (fun r _ => Cached sha (s.dirs key, r)) s := by
  show Wp _ _ _ _ _
  rw [manifest, wp_bind, wp_failIf]
  refine ⟨fun _ => ?_, fun _ => trivial⟩
  rw [wp_bind, wp_get]
  split
  · rename_i m' hman
    rintro _ ⟨⟩
    exact h m' hman
  · rw [readState, wp_bind, wp_bind, wp_get, wp_ofExcept]
    refine ⟨fun st hst => ?_, fun _ _ => trivial⟩
    split
    · rename_i st' d' _ hdir
      split
      · rename_i hcomplete
        rw [wp_bind, wp_ofExcept]
        refine ⟨fun m' hm' => ⟨trivial, ?_⟩, fun _ _ => trivial⟩
        rintro _ ⟨⟩
        obtain ⟨d, hd, hstate⟩ := stateOf_eq_ok_some hst
        cases hdir.symm.trans hd
        exact ⟨_, _, hd, hstate, hcomplete, hm'⟩
      · rintro _ ⟨⟩
    · rintro _ ⟨⟩

/-- **A manifest is the one of the files.** In a store opened on any directory, after any
calls. -/
theorem manifest_calls (dirs : Name → Option Dir) (cs : List Call) {key : Name} {m : Manifest}
    (h : (Prog.run (manifest sha key) (Store.calls sha ⟨dirs, fun _ => none⟩ cs)).1 =
      .ok (some m)) :
    ∃ d st, (Store.calls sha ⟨dirs, fun _ => none⟩ cs).dirs key = some d ∧
      d.state = some (.holds st) ∧ st.complete = true ∧ scratch sha d st = .ok m :=
  returns_iff.1 (manifest_returns (cached_calls (fun _ => cached_none _) cs key)) _ _ (Prod.ext h rfl)
    m rfl

/-- The delta of a tiny session against nothing. -/
def tinyDelta (ids : Bytes) : Except Err Bytes := do
  let f := tinySession ids
  let l ← parseLayout f f.length
  let p ← diff zeroSha (fun _ => []) f l none
  return writeDelta f p

/-- The call that puts a tiny session. -/
def tinyPut (ids : Bytes) : Call :=
  .put (ascii "a") 0 ⟨(tinyDelta ids).toOption.getD [], .eof⟩ none

/-- A manifest is answered, by evaluation. -/
def answers : Except Err (Option Manifest) → Bool
  | .ok (some _) => true
  | _ => false

theorem exists_manifest {r : Except Err (Option Manifest)} (h : answers r = true) :
    ∃ m, r = .ok (some m) := by
  unfold answers at h
  split at h
  · exact ⟨_, rfl⟩
  · cases h

theorem manifest_calls_tiny :
    ∃ m, (Prog.run (manifest zeroSha (ascii "a"))
        (Store.calls zeroSha ⟨fun _ => none, fun _ => none⟩ [tinyPut [1, 2, 3, 4]])).1 =
      .ok (some m) ∧
    ∃ d st, (Store.calls zeroSha ⟨fun _ => none, fun _ => none⟩ [tinyPut [1, 2, 3, 4]]).dirs
        (ascii "a") = some d ∧ d.state = some (.holds st) ∧ st.complete = true ∧
      scratch zeroSha d st = .ok m := by
  obtain ⟨m, hm⟩ := exists_manifest (r := (Prog.run (manifest zeroSha (ascii "a"))
    (Store.calls zeroSha ⟨fun _ => none, fun _ => none⟩ [tinyPut [1, 2, 3, 4]])).1)
    (by decide +kernel)
  exact ⟨m, hm, manifest_calls (fun _ => none) _ hm⟩

end Viiwork.Kvshare
