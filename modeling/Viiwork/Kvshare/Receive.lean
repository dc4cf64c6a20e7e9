import Viiwork.Kvshare.Pieces

/-!
# Viiwork.Kvshare.Receive

A put is two things done together: it reads items off a stream and refuses some, and it
writes those it accepts. `receive` is the first alone, a function of the stream and of
the lengths the old replica has. What a put does to the store is then a fold over the
items received (`run_putItems`, `run_putBody`), and a put that fails changes no other key.
-/

namespace Viiwork.Kvshare

open Viiwork.Lib Prog Store List

/-! ### Operations on one directory -/

/-- The key's directory is `d`. -/
def Store.setDir (key : Name) (d : Dir) (s : Store) : Store :=
  { s with dirs := Function.update s.dirs key (some d) }

variable {key : Name} {s : Store} {d : Dir}

@[simp] theorem setDir_dirs : (s.setDir key d).dirs key = some d := by simp [setDir]

@[simp] theorem setDir_man : (s.setDir key d).man = s.man := rfl

theorem setDir_of_eq (h : s.dirs key = some d) : s.setDir key d = s := by
  rw [setDir, ← h, Function.update_eq_self]

@[simp] theorem run_inDir (f : Dir → Dir) :
    run (inDir key f) (s.setDir key d) = (.ok (), s.setDir key (f d)) := by
  rw [inDir, run_get_bind, run_failIf_bind_neg (by simp), run_act, modifyDir,
    setDir_dirs]
  simp [setDir]

@[simp] theorem run_inDir_bind {α : Type} (f : Dir → Dir) (k : Unit → StoreM α) :
    run (inDir key f >>= k) (s.setDir key d) = run (k ()) (s.setDir key (f d)) :=
  run_bind_ok (run_inDir f)

@[simp] theorem run_writeState (st : ReplicaState) :
    run (writeState key st) (s.setDir key d) =
      (.ok (), s.setDir key { d with state := some (.holds st), stateTmp := none }) := by
  rw [writeState, run_inDir_bind, run_inDir]

@[simp] theorem run_writeFrames (b : Bytes) :
    run (writeFrames key b) (s.setDir key d) =
      (.ok (), s.setDir key { d with frames := some b, framesTmp := none }) := by
  rw [writeFrames, run_inDir_bind, run_inDir]

theorem run_readState (s : Store) :
    run (readState key) s = (stateOf (s.dirs key), s) := by
  rw [readState, run_get_bind]
  cases stateOf (s.dirs key) <;> rfl

/-! ### Patching a section -/

/-- `io.Copy` of `n` bytes, all of them. -/
def Stream.copyFull (s : Stream) (n : Int) : Except Err (Bytes × Stream) :=
  match s.copyN n.toNat with
  | (_, _, some e) => .error e
  | (b, rest, none) => do
      failIf ((b.length : Int) ≠ n) .unexpectedEOF
      return (b, rest)

theorem Stream.copyFull_append (b rest : Bytes) (fin : StreamEnd) :
    Stream.copyFull ⟨b ++ rest, fin⟩ b.length = .ok (b, ⟨rest, fin⟩) := by
  rw [copyFull, Int.toNat_natCast, copyN_append]
  dsimp only
  rw [failIf_neg (by simp)]
  rfl

theorem Stream.copyFull_eq_ok {data rest : Stream} {n : Int} {b : Bytes}
    (h : data.copyFull n = .ok (b, rest)) :
    data = ⟨b ++ rest.data, rest.fin⟩ ∧ (b.length : Int) = n := by
  unfold copyFull at h
  split at h
  · cases h
  · rename_i hcopy
    obtain ⟨u, hlen, h⟩ := bind_eq_ok.1 h
    rw [failIf_eq_ok, not_not] at hlen
    cases h
    refine ⟨?_, hlen⟩
    simp only [copyN, Prod.mk.injEq] at hcopy
    obtain ⟨rfl, rfl, -⟩ := hcopy
    simp

theorem take_truncate_append {f b : Bytes} {n keep : Nat} (hkeep : n ≤ keep)
    (hf : n ≤ f.length) : (truncate keep f ++ b).take n = f.take n := by
  rw [truncate, append_assoc, take_append_of_le_length (by simp; omega),
    take_take, min_eq_left hkeep]

theorem length_truncate (n : Nat) (b : Bytes) : (truncate n b).length = n := by
  simp only [truncate, length_append, length_take, length_replicate]
  omega

/-- The section cut to `keep` bytes, and `b` behind them. -/
def Dir.patch (d : Dir) (name : Name) (keep : Nat) (b : Bytes) : Dir :=
  onSection name (fun f => some (truncate keep (f.getD []) ++ b)) d

theorem onSection_onSection (name : Name) (f g : Option Bytes → Option Bytes) :
    onSection name g (onSection name f d) = onSection name (g ∘ f) d := by
  simp [onSection]

variable {name : Name} {held : Name → Option Nat} {a : Accepted}

/-- A patch reads what it can and writes it, also when that is too little. -/
theorem run_patchSection (hname : validKey name = true) (keep : Nat) (len : Int) (data : Stream) :
    run (patchSection key name keep len data) (s.setDir key d) =
      ((data.copyFull (len - keep)).map Prod.snd,
        s.setDir key (d.patch name keep (data.data.take (len - keep).toNat))) := by
  have hpatch : onSection name (Option.map (· ++ data.data.take (len - keep).toNat))
      (onSection name (Option.map (truncate keep)) (onSection name (fun f => some (f.getD [])) d)) =
      d.patch name keep (data.data.take (len - keep).toNat) := by
    simp only [onSection_onSection]
    rfl
  rw [patchSection, sectionFile, if_pos hname, run_ofExcept_bind_ok, run_inDir_bind,
    run_failIf_bind_neg (by omega), run_inDir_bind, Int.toNat_natCast]
  unfold Stream.copyFull Stream.copyN
  dsimp only
  rw [run_inDir_bind, hpatch]
  by_cases hbroken : data.data.length < (len - keep).toNat ∧ data.fin = .broken
  · rw [if_pos hbroken]
    rfl
  · rw [if_neg hbroken]
    dsimp only
    by_cases hshort : ((data.data.take (len - keep).toNat).length : Int) ≠ len - keep
    · rw [run_failIf_bind_pos hshort, failIf_pos hshort]
      rfl
    · rw [run_failIf_bind_neg hshort, failIf_neg hshort]
      rfl

theorem run_patchSection_invalid (hname : validKey name = false) (keep len : Int) (data : Stream)
    (s : Store) :
    run (patchSection key name keep len data) s = (.error (.invalidSection name), s) := by
  rw [patchSection, sectionFile, if_neg (by simp [hname])]
  rfl

/-! ### Reading the items -/

/-- The items that the loop of a put accepts, with the bytes each got; `held` has the
lengths of the old replica's sections not yet met. -/
def receive : Nat → DeltaReader → (Name → Option Nat) → Except Err (List (Item × Bytes))
  | 0, _, _ => .error .eof
  | fuel + 1, d, held =>
    match d.next with
    | .error e => if e = .eof then .ok [] else .error e
    | .ok (it, d) =>
      if it.section_ = [] then
        match d.br.copyN (it.len - it.keep) with
        | (_, _, some e) => .error e
        | (b, br, none) => do
            let its ← receive fuel { d with br } held
            return (it, b) :: its
      else do
        failIf ((held it.section_).getD 0 < it.keep)
          (.keepPast it.section_ it.keep ((held it.section_).getD 0))
        failIf (validKey it.section_ = false) (.invalidSection it.section_)
        let (b, br) ← d.br.copyFull (it.len - it.keep)
        let its ← receive fuel { d with br } (Function.update held it.section_ none)
        return (it, b) :: its

/-- An item received, in what the loop gathers. -/
def PutAcc.add (acc : PutAcc) (ib : Item × Bytes) : PutAcc :=
  if ib.1.section_ = [] then acc.addFrame ib.1.len ib.2 else acc.addSection ib.1

/-- An item received, in the section files. -/
def addFile (files : Name → Option Bytes) (ib : Item × Bytes) : Name → Option Bytes :=
  if ib.1.section_ = [] then files
  else Function.update files ib.1.section_
    (some (truncate ib.1.keep ((files ib.1.section_).getD []) ++ ib.2))

def Dir.add (d : Dir) (ib : Item × Bytes) : Dir := { d with sections := addFile d.sections ib }

theorem foldl_add (its : List (Item × Bytes)) (d : Dir) :
    its.foldl Dir.add d = { d with sections := its.foldl addFile d.sections } := by
  induction its generalizing d with
  | nil => rfl
  | cons ib its ih => exact ih (d.add ib)

variable (key) in
/-- **The loop of a put** writes what it receives. -/
theorem run_putItems (fuel : Nat) (r : DeltaReader) (acc : PutAcc) :
    ∃ d', run (putItems key fuel r acc) (s.setDir key d) =
        ((receive fuel r acc.held).map (List.foldl PutAcc.add acc), s.setDir key d') ∧
      ∀ its, receive fuel r acc.held = .ok its → d' = its.foldl Dir.add d := by
  induction fuel generalizing r acc d with
  | zero => exact ⟨d, rfl, fun its h => nomatch h⟩
  | succ fuel ih =>
    rw [putItems, receive]
    cases hnext : r.next with
    | error e =>
      by_cases he : e = .eof
      · simp only [if_pos he]
        exact ⟨d, rfl, fun its h => by cases h; rfl⟩
      · simp only [if_neg he]
        exact ⟨d, rfl, fun its h => nomatch h⟩
    | ok next =>
      obtain ⟨it, r'⟩ := next
      dsimp only
      -- what the rest of the loop does once the item has been written
      have hrest : ∀ (r'' : DeltaReader) (b : Bytes), ∃ d',
          run (putItems key fuel r'' (acc.add (it, b))) (s.setDir key (d.add (it, b))) =
            (((receive fuel r'' (acc.add (it, b)).held).bind fun its =>
              .ok ((it, b) :: its)).map (List.foldl PutAcc.add acc), s.setDir key d') ∧
          ∀ its, ((receive fuel r'' (acc.add (it, b)).held).bind fun its =>
            .ok ((it, b) :: its)) = .ok its → d' = its.foldl Dir.add d := by
        intro r'' b
        obtain ⟨d', hrun, hd'⟩ := ih (d := d.add (it, b)) r'' (acc.add (it, b))
        refine ⟨d', ?_, fun its h => ?_⟩
        · rw [hrun]
          cases receive fuel r'' (acc.add (it, b)).held <;> rfl
        · obtain ⟨rest, hrest, h⟩ := bind_eq_ok.1 h
          cases h
          exact hd' rest hrest
      by_cases hname : it.section_ = []
      · simp only [PutAcc.add, Dir.add, addFile, if_pos hname] at hrest
        rw [if_pos hname, if_pos hname]
        rcases r'.br.copyN (it.len - it.keep) with ⟨b, br, err⟩
        cases err with
        | some e => exact ⟨d, rfl, fun its h => nomatch h⟩
        | none => exact hrest { r' with br } b
      · simp only [PutAcc.add, Dir.add, addFile, if_neg hname] at hrest
        rw [if_neg hname, if_neg hname]
        by_cases hkeep : (acc.held it.section_).getD 0 < it.keep
        · rw [run_failIf_bind_pos hkeep, failIf_pos hkeep]
          exact ⟨d, rfl, fun its h => nomatch h⟩
        rw [run_failIf_bind_neg hkeep, failIf_neg hkeep]
        by_cases hvalid : validKey it.section_ = false
        · rw [run_bind_error (run_patchSection_invalid hvalid _ _ _ _), failIf_pos hvalid]
          exact ⟨d, rfl, fun its h => nomatch h⟩
        rw [failIf_neg hvalid]
        have hpatch : run (patchSection key it.section_ it.keep it.len r'.br)
            (s.setDir key d) = _ :=
          run_patchSection (Bool.not_eq_false _ ▸ hvalid) it.keep it.len r'.br
        cases hcopy : r'.br.copyFull (it.len - it.keep) with
        | error e =>
          rw [hcopy] at hpatch
          rw [run_bind_error hpatch]
          exact ⟨_, rfl, fun its h => nomatch h⟩
        | ok out =>
          obtain ⟨b, br⟩ := out
          have htake : r'.br.data.take ((it.len : Int) - it.keep).toNat = b := by
            obtain ⟨hdata, hlen⟩ := Stream.copyFull_eq_ok hcopy
            rw [hdata, ← hlen, Int.toNat_natCast, take_left]
          rw [hcopy, htake] at hpatch
          rw [run_bind_ok hpatch]
          exact hrest { r' with br } b

/-! ### What is received -/

/-- An item's lengths fit the file and each other. -/
theorem next_eq_ok {d d' : DeltaReader} {it : Item} (h : d.next = .ok (it, d')) :
    it.keep ≤ it.len ∧ d.built + it.len ≤ d.header.size ∧ (it.section_ = [] → it.keep = 0) ∧
      d'.header = d.header ∧ d'.built = d.built + it.len := by
  unfold DeltaReader.next at h
  split at h
  · split at h <;> cases h
  obtain ⟨⟨nl, br⟩, -, h⟩ := bind_eq_ok.1 h
  obtain ⟨⟨name, br⟩, -, h⟩ := bind_eq_ok.1 h
  obtain ⟨⟨lk, br⟩, -, h⟩ := bind_eq_ok.1 h
  obtain ⟨u, hfits, h⟩ := bind_eq_ok.1 h
  rw [failIf_eq_ok] at hfits
  cases h
  dsimp only at hfits ⊢
  simp only [not_or, not_lt, not_and, not_not] at hfits
  obtain ⟨hlen, hkeep, hle, hsize, hframing⟩ := hfits
  refine ⟨by omega, by omega, fun hname => ?_, rfl, rfl⟩
  rw [hframing hname]
  rfl

/-- The items can be received one after the other: a section keeps no more than the copy
that no item before it has met. -/
inductive Taken : (Name → Option Nat) → List (Item × Bytes) → Prop
  | nil {held : Name → Option Nat} : Taken held []
  | framing {held : Name → Option Nat} {it : Item} {b : Bytes} {its : List (Item × Bytes)}
      (name : it.section_ = []) (rest : Taken held its) : Taken held ((it, b) :: its)
  | section_ {held : Name → Option Nat} {it : Item} {b : Bytes} {its : List (Item × Bytes)}
      (name : it.section_ ≠ []) (valid : validKey it.section_ = true)
      (keep : it.keep ≤ (held it.section_).getD 0) (len : it.keep + b.length = it.len)
      (rest : Taken (Function.update held it.section_ none) its) : Taken held ((it, b) :: its)

theorem receive_taken {fuel : Nat} {r : DeltaReader} {its : List (Item × Bytes)}
    (h : receive fuel r held = .ok its) : Taken held its := by
  induction fuel generalizing r held its with
  | zero => cases h
  | succ fuel ih =>
    rw [receive] at h
    cases hnext : r.next with
    | error e =>
      rw [hnext] at h
      dsimp only at h
      split at h
      · cases h
        exact .nil
      · cases h
    | ok next =>
      obtain ⟨it, r'⟩ := next
      rw [hnext] at h
      dsimp only at h
      by_cases hname : it.section_ = []
      · rw [if_pos hname] at h
        split at h
        · cases h
        · obtain ⟨rest, hrest, h⟩ := bind_eq_ok.1 h
          cases h
          exact .framing hname (ih hrest)
      · rw [if_neg hname] at h
        obtain ⟨_, hkeep, h⟩ := bind_eq_ok.1 h
        obtain ⟨_, hvalid, h⟩ := bind_eq_ok.1 h
        obtain ⟨⟨b, br⟩, hcopy, h⟩ := bind_eq_ok.1 h
        obtain ⟨rest, hrest, h⟩ := bind_eq_ok.1 h
        cases h
        rw [failIf_eq_ok] at hkeep hvalid
        have hlen : (b.length : Int) = it.len - it.keep := (Stream.copyFull_eq_ok hcopy).2
        have hle := (next_eq_ok hnext).1
        exact .section_ hname (by simpa using hvalid) (by omega) (by dsimp only; omega) (ih hrest)

/-! ### Removing what is gone -/

/-- The old replica's sections that no item had, if they can have a file. -/
def goneNames (old : List ReplicaItem) (held : Name → Option Nat) : List Name :=
  ((old.filter fun it => it.section_ != [] && (held it.section_).isSome).map
    ReplicaItem.section_).filter validKey

theorem notMem_goneNames {old : List ReplicaItem} (h : held name = none) :
    name ∉ goneNames old held := by
  intro hmem
  obtain ⟨it, hit, heq⟩ := mem_map.1 (mem_filter.1 hmem).1
  simp [heq, h] at hit

def removeFiles (names : List Name) (files : Name → Option Bytes) : Name → Option Bytes :=
  fun name => if name ∈ names then none else files name

theorem run_removeGone (old : List ReplicaItem) (held : Name → Option Nat) :
    run (removeGone key old held) (s.setDir key d) =
      (.ok (), s.setDir key { d with sections := removeFiles (goneNames old held) d.sections }) := by
  rw [removeGone, goneNames]
  generalize old.filter (fun it => it.section_ != [] && (held it.section_).isSome) = gone
  induction gone generalizing d with
  | nil =>
    have hnone : removeFiles [] d.sections = d.sections := funext fun _ => if_neg not_mem_nil
    rw [map_nil, filter_nil, hnone]
    rfl
  | cons it gone ih =>
    change run (removeSection key it.section_ >>= fun _ =>
      gone.forM fun it => removeSection key it.section_) _ = _
    rw [map_cons, removeSection, sectionFile]
    by_cases hvalid : validKey it.section_ = true
    · rw [if_pos hvalid, filter_cons_of_pos hvalid, run_inDir_bind, ih]
      congr 2
      simp only [onSection, Dir.mk.injEq, true_and]
      funext name
      by_cases hname : name = it.section_
      · simp [removeFiles, hname]
      · simp [removeFiles, hname]
    · rw [if_neg hvalid, filter_cons_of_neg hvalid]
      exact ih

/-! ### A whole put -/

/-- A delta that a put takes: its header, the state before, its items with their bytes. -/
structure Accepted where
  header : DeltaHeader
  old : Option ReplicaState
  items : List (Item × Bytes)

namespace Accepted

/-- The replica that sections can be kept from. -/
def kept (a : Accepted) : Option ReplicaState := usable a.header a.old

def keptItems (a : Accepted) : List ReplicaItem := (a.kept.map ReplicaState.items).getD []

/-- What the loop gathers. -/
def gathered (a : Accepted) : PutAcc :=
  a.items.foldl PutAcc.add ⟨[], [], fun _ => 0, heldLens a.keptItems, 0⟩

/-- The old replica is of no use and removed. -/
def afresh (a : Accepted) : Bool := a.old.isSome && a.kept.isNone

/-- The section files that the items are applied to. -/
def base (a : Accepted) (dir : Option Dir) : Name → Option Bytes :=
  if a.afresh then fun _ => none else (dir.getD .empty).sections

/-- The section files that a put leaves. -/
def files (a : Accepted) (dir : Option Dir) : Name → Option Bytes :=
  removeFiles (goneNames a.keptItems a.gathered.held) (a.items.foldl addFile (a.base dir))

def dir (a : Accepted) (next : ReplicaState) (dir : Option Dir) : Dir :=
  ⟨some (.holds next), none, some a.gathered.frames, none, a.files dir⟩

end Accepted

/-- What a put reads, from its stream and from the state before. -/
def accepted (delta : Stream) (want : Option FileMeta) (dir : Option Dir) : Except Err Accepted := do
  let r ← newDeltaReader delta
  failIf (want.any (otherFile r.header)) .otherFile
  let old ← stateOf dir
  let its ← receive (r.left + 1) r (heldLens (Accepted.mk r.header old []).keptItems)
  return ⟨r.header, old, its⟩

variable {delta : Stream} {want : Option FileMeta}

theorem accepted_eq_ok {dir : Option Dir} (h : accepted delta want dir = .ok a) :
    stateOf dir = .ok a.old ∧ Taken (heldLens a.keptItems) a.items := by
  obtain ⟨r, -, h⟩ := bind_eq_ok.1 h
  obtain ⟨_, -, h⟩ := bind_eq_ok.1 h
  obtain ⟨old, hold, h⟩ := bind_eq_ok.1 h
  obtain ⟨its, hits, h⟩ := bind_eq_ok.1 h
  cases h
  exact ⟨hold, receive_taken hits⟩

theorem run_removeUnusable (old kept : Option ReplicaState) (s : Store) :
    run (removeUnusable key old kept) s =
      (.ok (), if old.isSome && kept.isNone then s.removeAll key else s) := by
  unfold removeUnusable
  split <;> rfl

theorem mkdirAll_removed (c : Bool) (s : Store) :
    mkdirAll key (if c then s.removeAll key else s) =
      s.setDir key (if c then .empty else (s.dirs key).getD .empty) := by
  cases c with
  | false => rfl
  | true => simp [mkdirAll, Store.removeAll, setDir]

/-- The directory with the old state marked. -/
def Dir.marked (d : Dir) (kept : Option ReplicaState) : Dir :=
  match kept with
  | some o => { d with state := some (.holds { o with complete := false }), stateTmp := none }
  | none => d

@[simp] theorem marked_sections (d : Dir) (kept : Option ReplicaState) :
    (d.marked kept).sections = d.sections := by
  cases kept <;> rfl

theorem run_markIncomplete (kept : Option ReplicaState) :
    run (markIncomplete key kept) (s.setDir key d) = (.ok (), s.setDir key (d.marked kept)) := by
  cases kept with
  | none => rfl
  | some o => exact run_writeState _

variable (key delta want) in
/-- **A put up to its result** writes what it accepts. -/
theorem run_putBody (now : Int) (s : Store) :
    ∃ s', run (putBody key now delta want) s =
        ((accepted delta want (s.dirs key)).map fun a =>
          (nextState a.header want now a.gathered, a.gathered.keeps,
            if a.afresh then none else s.man key), s') ∧
      ∀ a, accepted delta want (s.dirs key) = .ok a →
        s' = (s.setManifest key none).setDir key
          (a.dir (nextState a.header want now a.gathered) (s.dirs key)) := by
  unfold putBody accepted
  cases hreader : newDeltaReader delta with
  | error e => exact ⟨s, rfl, fun a h => nomatch h⟩
  | ok r =>
    rw [run_ofExcept_bind_ok, ok_bind]
    by_cases hother : want.any (otherFile r.header) = true
    · rw [run_failIf_bind_pos hother, failIf_pos hother]
      exact ⟨s, rfl, fun a h => nomatch h⟩
    rw [run_failIf_bind_neg hother, failIf_neg hother, ok_bind]
    have hread : run (readState key) s = _ := run_readState s
    cases hold : stateOf (s.dirs key) with
    | error e =>
      rw [hold] at hread
      rw [run_bind_error hread]
      exact ⟨s, rfl, fun a h => nomatch h⟩
    | ok old =>
      rw [hold] at hread
      rw [run_bind_ok hread, run_get_bind, run_act_bind, ok_bind]
      dsimp only
      rw [run_bind_ok (run_removeUnusable _ _ _), run_act_bind, mkdirAll_removed,
        run_bind_ok (run_markIncomplete _)]
      generalize hd : Dir.marked _ _ = d
      have hfiles : d.sections = (Accepted.mk r.header old []).base (s.dirs key) := by
        rw [← hd, marked_sections, Accepted.base, Accepted.afresh, Accepted.kept]
        split <;> rfl
      obtain ⟨d', hrun, hd'⟩ := run_putItems key (s := s.setManifest key none) (d := d)
        (r.left + 1) r ⟨[], [], fun _ => 0, heldLens (Accepted.mk r.header old []).keptItems, 0⟩
      dsimp only at hrun hd'
      cases hreceive : receive (r.left + 1) r
          (heldLens (Accepted.mk r.header old []).keptItems) with
      | error e =>
        rw [hreceive] at hrun
        exact ⟨_, run_bind_error hrun, fun a h => nomatch h⟩
      | ok its =>
        rw [hreceive] at hrun
        rw [hd' its hreceive, foldl_add, hfiles] at hrun
        refine ⟨_, ?_, fun a h => by cases h; rfl⟩
        refine (run_bind_ok hrun).trans ?_
        rw [run_bind_ok (run_removeGone _ _), run_bind_ok (run_writeFrames _),
          run_bind_ok (run_writeState _)]
        rfl

variable (sha : Sha256)

/-- Building the manifest never fails the put. -/
theorem run_finish (next : ReplicaState) (keeps : Name → Nat) (prevMan : Option Manifest)
    (s : Store) :
    run (finish sha key next keeps prevMan) s =
      (.ok (), (run (finish sha key next keeps prevMan) s).2) := by
  rw [finish, run_attempt]

/-- The store when a put has accepted the delta, before `finish`. -/
def Accepted.store (a : Accepted) (key : Name) (want : Option FileMeta) (now : Int) (s : Store) :
    Store :=
  (s.setManifest key none).setDir key
    (a.dir (nextState a.header want now a.gathered) (s.dirs key))

/-- A put that accepts its delta succeeds. -/
theorem run_put_accepted (hkey : validKey key = true) (h : accepted delta want (s.dirs key) = .ok a)
    (now : Int) :
    run (put sha key now delta want) s =
      (.ok ⟨a.header.size⟩, (run (finish sha key (nextState a.header want now a.gathered)
        a.gathered.keeps (if a.afresh then none else s.man key)) (a.store key want now s)).2) := by
  obtain ⟨s', hrun, hs'⟩ := run_putBody key delta want now s
  rw [hs' a h, h] at hrun
  have hbody := run_onFail (Store.drop key) (putBody key now delta want) s
  rw [hrun] at hbody
  rw [put, run_failIf_bind_neg (by simp [hkey]), run_bind_ok hbody]
  dsimp only
  rw [run_bind_ok (run_finish sha _ _ _ _)]
  rfl

/-- A put that refuses its delta drops the replica. -/
theorem run_put_refused (hkey : validKey key = true) {e : Err}
    (h : accepted delta want (s.dirs key) = .error e) (now : Int) :
    ∃ s' : Store, run (put sha key now delta want) s = (.error e, s'.drop key) := by
  obtain ⟨s', hrun, -⟩ := run_putBody key delta want now s
  rw [h] at hrun
  have hbody := run_onFail (Store.drop key) (putBody key now delta want) s
  rw [hrun] at hbody
  refine ⟨s', ?_⟩
  rw [put, run_failIf_bind_neg (by simp [hkey]), run_bind_error hbody]

end Viiwork.Kvshare
