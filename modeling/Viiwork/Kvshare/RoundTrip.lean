import Viiwork.Kvshare.Wire

/-!
# Viiwork.Kvshare.RoundTrip

Whole files pushed to one key, each as the diff against the manifest that the store
returns at that moment. Whatever was there before, a push leaves a replica that holds the
pieces of the file: what it keeps of a section is the section's own beginning, because
blocks with one hash are one block. So every push succeeds, and what is materialized
after it is the file pushed (`materialize_pushed`).

The invariant between two pushes is `Store.Has` with the pieces of the last file.
-/

namespace Viiwork.Kvshare

open Viiwork.Lib Store List Prog

variable (sha : Sha256)

/-- `PushSave` to a store: the file `f` as a delta against `m`. Without a save id the file's
size and digest are not declared either. -/
def pushSave (stale : Nat → Bytes) (key : Name) (now : Int) (f : Bytes) (m : Option Manifest)
    (saveID : Option String) : StoreM PutResult := do
  let l ← ofExcept (parseLayout f f.length)
  let p ← ofExcept (diff sha stale f l m)
  put sha key now ⟨writeDelta f p, .eof⟩ (saveID.map fun id => ⟨p.size, p.digest, id⟩)

/-! ### What a section keeps -/

/-- `k` bytes of the section can be kept, of a copy of length `held` in `file` whose first
blocks have the hashes `prev`. -/
structure Kept (r : Bytes) (s : Section) (held : Option Nat) (file : Option Bytes) (prev : Bytes)
    (k : Nat) : Prop where
  le : k ≤ s.len
  held : k ≤ held.getD 0
  same : truncate k (file.getD []) = (slice r s.off s.len).take k
  reusable : Reusable sha (slice r s.off s.len) k prev

theorem kept_zero (r : Bytes) (s : Section) (held : Option Nat) (file : Option Bytes)
    (prev : Bytes) : Kept sha r s held file prev 0 where
  le := Nat.zero_le _
  held := Nat.zero_le _
  same := by simp [truncate]
  reusable := reusable_zero sha _ prev

theorem truncate_of_le {n : Nat} {b : Bytes} (h : n ≤ b.length) : truncate n b = b.take n := by
  rw [truncate, Nat.sub_eq_zero_of_le h, replicate_zero, append_nil]

variable {k : Nat}

/-- A common prefix of whole blocks can be kept. -/
theorem kept_of_take {r f : Bytes} {s : Section} (hs : s.off + s.len ≤ r.length) (hle : k ≤ s.len)
    (hf : k ≤ f.length) (h : f.take k = (slice r s.off s.len).take k) :
    Kept sha r s (some f.length) (some f) (trueBlocks sha f) k where
  le := hle
  held := hf
  same := by rw [Option.getD_some, truncate_of_le hf, h]
  reusable := reusable_of_take sha (by rwa [length_slice hs]) h

/-- What is kept and what travels make up the section. -/
theorem Kept.append {sha : Sha256} {r : Bytes} {s : Section} {held : Option Nat}
    {file : Option Bytes} {prev : Bytes} (h : Kept sha r s held file prev k) :
    truncate k (file.getD []) ++ dataOf r ⟨s.name, s.off, s.len, k⟩ = slice r s.off s.len := by
  obtain ⟨n, hn⟩ := Nat.exists_eq_add_of_le h.le
  rw [h.same, take_slice, min_eq_left h.le, dataOf, hn, Nat.add_sub_cancel_left, slice_add]

/-! ### One push -/

/-- The store holds the pieces of the file `f` with the layout `l`, pushed whole. -/
structure Store.HasFile (s : Store) (key : Name) (f : Bytes) (l : Layout) (st : ReplicaState)
    (ps : List Piece) : Prop extends s.Has sha key st ps where
  content : content ps = f
  sections : sectionsOf ps = l.sections.map fun t => (t.name, slice f t.off t.len)
  model : st.model = l.model
  config : st.config = l.config
  size : st.size = f.length
  digest : ∀ stale, st.digest = fileDigest sha stale f f.length
  trailer : st.trailer = false

variable {sha} {key : Name} {s : Store} {f : Bytes} {l : Layout} {nckpt nkv : Nat}
  {vs : List Bytes}
variable {ps : List Piece} {st : ReplicaState} {old : Option ReplicaState} {files : Bytes → Prop}

theorem Store.HasFile.materialize (h : s.HasFile sha key f l st ps) (hkey : validKey key = true)
    (stale : Nat → Bytes) : materialize sha stale s key = .ok f := by
  rw [h.toHas.materialize hkey h.trailer, h.content]
  rw [h.content, h.size, h.digest stale]

/-- What a put of the plan finds, by its header alone. -/
def before (l : Layout) (old : Option ReplicaState) : Accepted :=
  ⟨⟨l.size, [], l.model, l.config, 0⟩, old, []⟩

/-- The items of the plan of a file against nothing. -/
def itemCount (l : Layout) : Nat :=
  (planItems l.size 0 l.sections (l.sections.map fun _ => 0)).length

/-- The plan of a file that keeps `keep t` of the section `t`. -/
def planWith (sha : Sha256) (stale : Nat → Bytes) (f : Bytes) (l : Layout) (keep : Section → Nat) :
    Plan :=
  let items := planItems l.size 0 l.sections (l.sections.map keep)
  { items, size := l.size, data := (items.map fun it => it.len - it.keep).sum,
    digest := fileDigest sha stale f l.size, model := l.model, config := l.config }

section planWith

variable {keep : Section → Nat} {stale : Nat → Bytes}

theorem diff_eq {m : Option Manifest} (h : ∀ t ∈ l.sections, keepOf sha f l m t = .ok (keep t)) :
    diff sha stale f l m = .ok (planWith sha stale f l keep) := by
  rw [diff, mapM_eq_ok h]
  rfl

theorem length_planWith : (planWith sha stale f l keep).items.length = itemCount l :=
  length_planItems (by simp) 0

theorem planWith_consecutive (hparsed : Parsed f l nckpt nkv vs) :
    Consecutive 0 (planWith sha stale f l keep).items l.size :=
  planItems_consecutive (by simp) hparsed.ordered

variable {it : Item}

theorem mem_planWith (h : it ∈ (planWith sha stale f l keep).items) :
    (it.section_ = [] ∧ it.keep = 0) ∨
      ∃ t ∈ l.sections, it = ⟨t.name, t.off, t.len, keep t⟩ := by
  refine (mem_planItems h).imp_right ?_
  rintro ⟨t, k, hmem, rfl⟩
  rw [← map_prod_left_eq_zip] at hmem
  obtain ⟨t', ht', heq⟩ := mem_map.1 hmem
  cases heq
  exact ⟨t, ht', rfl⟩

theorem name_ne_nil (hparsed : Parsed f l nckpt nkv vs) : ∀ t ∈ l.sections, t.name ≠ [] := by
  intro t ht hnil
  have := hparsed.valid ht
  rw [hnil] at this
  cases this

theorem planWith_sendable (hparsed : Parsed f l nckpt nkv vs)
    (hle : ∀ t ∈ l.sections, keep t ≤ t.len) (hit : it ∈ (planWith sha stale f l keep).items) :
    it.Sendable := by
  have hlen : it.len < 2 ^ 63 := by
    have hin := (planWith_consecutive hparsed).inside.2 it hit
    have hsmall := hparsed.small
    rw [hparsed.size] at hin
    omega
  rcases mem_planWith hit with ⟨hnil, hzero⟩ | ⟨t, ht, rfl⟩
  · exact ⟨by simp [hnil], hlen, by omega, fun _ => hzero⟩
  · have hvalid := hparsed.valid ht
    refine ⟨?_, hlen, hle t ht, fun hnil => absurd hnil (name_ne_nil hparsed t ht)⟩
    simp only [validKey, Bool.and_eq_true, decide_eq_true_eq] at hvalid
    have := hvalid.1.1.2
    dsimp only
    omega

/-- What a store accepts of the plan's delta. -/
def planned (sha : Sha256) (stale : Nat → Bytes) (f : Bytes) (l : Layout) (keep : Section → Nat)
    (old : Option ReplicaState) : Accepted :=
  let p := planWith sha stale f l keep
  ⟨⟨p.size, p.digest, p.model, p.config, p.items.length⟩, old, p.items.map fun it => (it, dataOf f it)⟩

variable {dir : Option Dir}

section

variable (hparsed : Parsed f l nckpt nkv vs)
include hparsed

theorem accepted_planned (hcount : itemCount l ≤ 2 ^ 20) (hold : stateOf dir = .ok old)
    (hle : ∀ t ∈ l.sections, keep t ≤ t.len)
    (hheld : ∀ t ∈ l.sections, keep t ≤ (heldLens (before l old).keptItems t.name).getD 0)
    (saveID : Option String) :
    accepted ⟨writeDelta f (planWith sha stale f l keep), .eof⟩
      (saveID.map fun id => ⟨(planWith sha stale f l keep).size,
        (planWith sha stale f l keep).digest, id⟩) dir =
      .ok (planned sha stale f l keep old) := by
  set p := planWith sha stale f l keep with hp
  set q := planned sha stale f l keep old with hq
  have hsize : p.size < 2 ^ 63 := by
    have := hparsed.small
    rwa [← hparsed.size] at this
  have hreader := newDeltaReader_writeDelta f p .eof (sha.length_sum _) hsize (length_planWith.trans_le hcount)
  have hreceive : receive (p.items.length + 1)
      ⟨⟨p.items.flatMap (encodeItem f), .eof⟩, q.header, p.items.length, 0⟩
      (heldLens (before l old).keptItems) = .ok q.items := by
    refine receive_encode f .eof (fun it hit => planWith_sendable hparsed hle hit) ?_ ?_ rfl rfl
      (planWith_consecutive hparsed) (le_of_eq hparsed.size) ?_
    · intro it hit hname
      obtain ⟨t, ht, rfl⟩ := (mem_planWith hit).resolve_left fun hnil => hname hnil.1
      exact hparsed.valid ht
    · rw [planWith, names_planItems (by rw [length_map]) (name_ne_nil hparsed) 0]
      exact hparsed.nodup
    · intro it hit hname
      obtain ⟨t, ht, rfl⟩ := (mem_planWith hit).resolve_left fun hnil => hname hnil.1
      exact hheld t ht
  have hdeclared : ¬(saveID.map fun id => FileMeta.mk p.size p.digest id).any
      (otherFile q.header) = true := by
    cases saveID <;> simp [otherFile, hq, planned, hp]
  -- the header of the reader is the plan's
  have hread : newDeltaReader ⟨writeDelta f p, .eof⟩ =
      .ok ⟨⟨p.items.flatMap (encodeItem f), .eof⟩, q.header, p.items.length, 0⟩ := hreader
  rw [accepted, hread, ok_bind]
  dsimp only
  rw [failIf_neg hdeclared, ok_bind, hold, ok_bind]
  have hkept : (Accepted.mk q.header old []).keptItems = (before l old).keptItems := rfl
  rw [hkept, hreceive]
  rfl

/-- The items deliver the pieces of the file. -/
theorem delivered_planned {files : Name → Option Bytes}
    (hparts : ∀ t ∈ l.sections, truncate (keep t) ((files t.name).getD []) ++
      dataOf f ⟨t.name, t.off, t.len, keep t⟩ = slice f t.off t.len)
    (hit : it ∈ (planWith sha stale f l keep).items) :
    delivered files (it, dataOf f it) = planPiece f it := by
  rcases mem_planWith hit with ⟨hnil, hzero⟩ | ⟨t, ht, rfl⟩
  · rw [delivered, planPiece, if_pos hnil, dataOf, hzero, Nat.add_zero, Nat.sub_zero]
  · rw [delivered, planPiece, if_neg (name_ne_nil hparsed t ht), hparts t ht]

theorem planned_whole (hpiece : ∀ it ∈ (planWith sha stale f l keep).items,
      delivered ((planned sha stale f l keep old).base dir) (it, dataOf f it) = planPiece f it) :
    (planned sha stale f l keep old).Whole dir where
  nodup := by
    have hnames : sectionNames (planned sha stale f l keep old).items = l.sections.map Section.name := by
      rw [sectionNames, planned, map_map]
      exact names_planItems (by rw [length_map]) (name_ne_nil hparsed) 0
    rw [hnames]
    exact hparsed.nodup
  valid := by
    rintro ib hib hname
    obtain ⟨it, hit, rfl⟩ := mem_map.1 hib
    obtain ⟨t, ht, rfl⟩ := (mem_planWith hit).resolve_left fun hnil => hname hnil.1
    exact hparsed.valid ht
  len := by
    rintro ib hib
    obtain ⟨it, hit, rfl⟩ := mem_map.1 hib
    have hin := (planWith_consecutive hparsed).inside.2 it hit
    rw [hparsed.size] at hin
    rw [hpiece it hit]
    exact (length_slice hin).symm

theorem content_planned : content ((planWith sha stale f l keep).items.map (planPiece f)) = f := by
  rw [content, map_map]
  refine (flatten_consecutive f (planWith_consecutive hparsed)).trans ?_
  rw [Nat.sub_zero, hparsed.size, slice_all rfl]

end

end planWith

/-- The receiver's section in the manifest of its pieces. -/
theorem baseSec_manifestFor (name : Name) :
    baseSec l (some (manifestFor sha st ps)) name =
      if st.model = l.model ∧ st.config = l.config then
        (lastWith Prod.fst name (sectionsOf ps)).map
          fun p => ⟨p.1, p.2.length, trueBlocks sha p.2⟩
      else none := by
  unfold baseSec
  dsimp only [manifestFor]
  rw [lastWith_map]
  rfl

section

variable (hkey : validKey key = true) (hlayout : parseLayout f f.length = .ok l) (hcount : itemCount l ≤ 2 ^ 20)
include hkey hlayout hcount

/-- **A push** leaves the pieces of the file, if what it keeps of each section can be
kept. -/
theorem run_pushSave (hold : stateOf (s.dirs key) = .ok old) {m : Option Manifest}
    (hkept : ∀ t ∈ l.sections, ∃ k, keepOf sha f l m t = .ok k ∧
      Kept sha f t (heldLens (before l old).keptItems t.name)
        ((before l old).base (s.dirs key) t.name)
        (prevBlocks (if (before l old).afresh then none else s.man key) t.name) k)
    (stale : Nat → Bytes) (now : Int) (saveID : Option String) :
    ∃ s' st ps, run (pushSave sha stale key now f m saveID) s = (.ok ⟨f.length⟩, s') ∧
      s'.HasFile sha key f l st ps := by
  obtain ⟨nckpt, nkv, vs, hparsed, -⟩ := parseLayout_ok hlayout
  choose! keep hkeep hkept using hkept
  set p := planWith sha stale f l keep with hp
  set q := planned sha stale f l keep old with hq
  have hpiece : ∀ it ∈ p.items,
      delivered (q.base (s.dirs key)) (it, dataOf f it) = planPiece f it :=
    fun it hit => delivered_planned hparsed (fun t ht => (hkept t ht).append) hit
  have haccepted : accepted ⟨writeDelta f p, .eof⟩ _ (s.dirs key) = _ :=
    accepted_planned hparsed hcount hold (fun t ht => (hkept t ht).le)
      (fun t ht => (hkept t ht).held) saveID
  have hpieces : q.pieces (s.dirs key) = p.items.map (planPiece f) := by
    rw [Accepted.pieces, hq, planned, map_map]
    exact map_congr_left hpiece
  have hreuse : ∀ ib ∈ q.items, ib.1.section_ ≠ [] →
      Reusable sha (delivered (q.base (s.dirs key)) ib).2 ib.1.keep
        (prevBlocks (if q.afresh then none else s.man key) ib.1.section_) := by
    intro ib hib hname
    obtain ⟨it, hit, rfl⟩ := mem_map.1 hib
    rw [hpiece it hit]
    obtain ⟨t, ht, rfl⟩ := (mem_planWith hit).resolve_left fun hnil => hname hnil.1
    exact (hkept t ht).reusable
  obtain ⟨s', hrun, hhas⟩ :=
    run_put_whole hkey haccepted (planned_whole hparsed hpiece) hreuse now
  rw [hpieces] at hhas
  have hpush : run (pushSave sha stale key now f m saveID) s = (.ok ⟨f.length⟩, s') := by
    rw [pushSave, hlayout, run_ofExcept_bind_ok, diff_eq hkeep, run_ofExcept_bind_ok, hrun,
      ← hparsed.size]
    rfl
  refine ⟨s', _, _, hpush,
    { toHas := hhas
      content := content_planned hparsed
      sections := sectionsOf_planItems f (by rw [length_map]) (name_ne_nil hparsed) 0
      model := rfl
      config := rfl
      size := hparsed.size
      digest := fun stale' => ?_
      trailer := rfl }⟩
  change fileDigest sha stale f l.size = _
  rw [hparsed.size]
  exact fileDigest_stale sha stale stale' f

/-- **A push against the manifest of the pieces held** succeeds, if blocks of them and of the
file with one hash are one block. -/
theorem run_pushSave_diff (h : s.Has sha key st ps)
    (hman : s.man key = some (manifestFor sha st ps))
    (hinj : ∀ t ∈ l.sections, ∀ p ∈ sectionsOf ps, ∀ j, (j + 1) * blockSize ≤ t.len →
      (j + 1) * blockSize ≤ p.2.length →
      blockHash sha (slice f (t.off + j * blockSize) blockSize) =
        blockHash sha (block blockSize j p.2) →
      slice f (t.off + j * blockSize) blockSize = block blockSize j p.2) (stale : Nat → Bytes)
    (now : Int) (saveID : Option String) :
    ∃ s' st' ps', run (pushSave sha stale key now f (some (manifestFor sha st ps)) saveID) s =
        (.ok ⟨f.length⟩, s') ∧ s'.HasFile sha key f l st' ps' := by
  obtain ⟨nckpt, nkv, vs, hparsed, -⟩ := parseLayout_ok hlayout
  obtain ⟨d, hd, -, hholds⟩ := h.dir
  refine run_pushSave hkey hlayout hcount h.stateOf (fun t ht => ?_) stale now saveID
  have hbase : baseSec l (some (manifestFor sha st ps)) t.name = _ := baseSec_manifestFor t.name
  by_cases hident : st.model = l.model ∧ st.config = l.config
  · rw [if_pos hident] at hbase
    cases hlast : lastWith Prod.fst t.name (sectionsOf ps) with
    | none =>
      rw [hlast] at hbase
      refine ⟨0, ?_, kept_zero sha f t _ _ _⟩
      rw [keepOf, hbase]
      rfl
    | some p =>
      rw [hlast] at hbase
      obtain ⟨hp, hname⟩ := mem_of_lastWith hlast
      have hin := (hparsed.ordered.inside.2 t ht).2
      rw [hparsed.size] at hin
      obtain ⟨k, hkeep, hle, hlen, htake⟩ := keepOf_spec sha hin hbase rfl (hinj t ht p hp)
      refine ⟨k, hkeep, ?_⟩
      have hkept : (before l (some st)).kept = some st := by
        simp [before, Accepted.kept, usable, h.complete, hident]
      have hafresh : (before l (some st)).afresh = false := by
        simp [Accepted.afresh, hkept]
      have hfile : (before l (some st)).base (s.dirs key) t.name = some p.2 := by
        rw [Accepted.base, hafresh, hd, ← hname]
        exact (hholds.file hp).2
      have hheld : heldLens (before l (some st)).keptItems t.name = some p.2.length := by
        rw [Accepted.keptItems, hkept]
        exact (hholds.heldLens_eq t.name).trans (by rw [hlast, Option.map_some])
      have hprev : prevBlocks (s.man key) t.name = trueBlocks sha p.2 := by
        rw [hman, prevBlocks_manifestFor, hlast]
      rw [hafresh, if_neg Bool.false_ne_true, hfile, hheld, hprev]
      exact kept_of_take sha hin hle hlen htake
  · rw [if_neg hident] at hbase
    refine ⟨0, ?_, kept_zero sha f t _ _ _⟩
    rw [keepOf, hbase]

end

/-! ### Pushes in turn -/

/-- A file to push: with a save id its size and digest are declared, without one they are
not. -/
structure Push where
  file : Bytes
  saveID : Option String
  now : Int
  /-- The sender's buffers. -/
  stale : Nat → Bytes

variable (sha key) in
/-- The file against the manifest that the store returns. -/
def push (q : Push) : StoreM PutResult := do
  let m ← manifest sha key
  pushSave sha q.stale key q.now q.file m q.saveID

variable (sha key) in
/-- The store after the files, pushed in turn. -/
def pushed (s : Store) (qs : List Push) : Store :=
  qs.foldl (fun s q => (run (push sha key q) s).2) s

/-- A whole block of a section of the file. -/
def IsBlock (f b : Bytes) : Prop :=
  ∃ l, parseLayout f f.length = .ok l ∧ ∃ t ∈ l.sections, ∃ j, (j + 1) * blockSize ≤ t.len ∧
    b = slice f (t.off + j * blockSize) blockSize

/-- What pushes rest on: the key has no replica, or one of the files. -/
inductive Store.Ready (sha : Sha256) (key : Name) (files : Bytes → Prop) (s : Store) : Prop
  | none (old : Option ReplicaState) (hold : stateOf (s.dirs key) = .ok old)
      (hincomplete : old.filter ReplicaState.complete = none) (hman : s.man key = none)
  | file (f : Bytes) (hf : files f) (l : Layout) (hlayout : parseLayout f f.length = .ok l)
      (st : ReplicaState) (ps : List Piece) (h : s.HasFile sha key f l st ps)

theorem ready_of_info (hinfo : info s key = .ok none) (hman : s.man key = none) :
    s.Ready sha key files := by
  obtain ⟨_, -, h⟩ := bind_eq_ok.1 hinfo
  obtain ⟨old, hold, h⟩ := bind_eq_ok.1 h
  exact .none old hold (Except.ok.inj h) hman

theorem run_manifest_none (hkey : validKey key = true) (hold : stateOf (s.dirs key) = .ok old)
    (hincomplete : old.filter ReplicaState.complete = none) (hman : s.man key = none) :
    run (manifest sha key) s = (.ok none, s) := by
  have hread : run (readState key) s = _ := run_readState s
  rw [hold] at hread
  rw [manifest, run_failIf_bind_neg (by simp [hkey]), run_get_bind, hman]
  dsimp only
  rw [run_bind_ok hread]
  cases old with
  | none => rfl
  | some st =>
    have hst : ¬st.complete = true := by simpa using hincomplete
    cases s.dirs key with
    | none => rfl
    | some d =>
      dsimp only
      rw [if_neg hst]
      rfl

theorem Store.Has.setManifest (h : s.Has sha key st ps) :
    (s.setManifest key (some (manifestFor sha st ps))).Has sha key st ps where
  dir := h.dir
  complete := h.complete
  chunks := h.chunks
  man := .inr (Function.update_self _ _ _)

/-- **Each push succeeds** and leaves its file. -/
theorem Store.Ready.push (h : s.Ready sha key files) (hkey : validKey key = true)
    (hinj : Set.InjOn (blockHash sha) {b | ∃ f, files f ∧ IsBlock f b}) (q : Push)
    (hq : files q.file) (hlayout : parseLayout q.file q.file.length = .ok l)
    (hcount : itemCount l ≤ 2 ^ 20) :
    ∃ s' st ps, run (push sha key q) s = (.ok ⟨q.file.length⟩, s') ∧
      s'.HasFile sha key q.file l st ps := by
  cases h with
  | none old hold hincomplete hman =>
    obtain ⟨s', st, ps, hrun, hfile⟩ := run_pushSave (m := Option.none) hkey hlayout hcount hold
      (fun t _ => ⟨0, rfl, kept_zero sha q.file t _ _ _⟩) q.stale q.now q.saveID
    refine ⟨s', st, ps, ?_, hfile⟩
    rw [Kvshare.push, run_bind_ok (run_manifest_none hkey hold hincomplete hman), hrun]
  | file f hf l₀ hl₀ st ps h =>
    -- a block of the replica is a block of the file that was pushed before
    have hsame : ∀ t ∈ l.sections, ∀ p ∈ sectionsOf ps, ∀ j, (j + 1) * blockSize ≤ t.len →
        (j + 1) * blockSize ≤ p.2.length →
        blockHash sha (slice q.file (t.off + j * blockSize) blockSize) =
          blockHash sha (block blockSize j p.2) →
        slice q.file (t.off + j * blockSize) blockSize = block blockSize j p.2 := by
      intro t ht p hp j hjt hjp hhash
      rw [h.sections] at hp
      obtain ⟨t₀, ht₀, rfl⟩ := mem_map.1 hp
      have hj : (j + 1) * blockSize ≤ t₀.len := hjp.trans (length_take_le _ _)
      rw [block_slice hj] at hhash ⊢
      exact hinj ⟨q.file, hq, l, hlayout, t, ht, j, hjt, rfl⟩
        ⟨f, hf, l₀, hl₀, t₀, ht₀, j, hj, rfl⟩ hhash
    obtain ⟨s', st', ps', hrun, hfile⟩ := run_pushSave_diff hkey hlayout hcount
      h.toHas.setManifest (Function.update_self _ _ _) hsame q.stale q.now q.saveID
    refine ⟨s', st', ps', ?_, hfile⟩
    rw [Kvshare.push, run_bind_ok (h.toHas.run_manifest hkey), hrun]

/-- The store stays ready along the pushes. -/
theorem Store.Ready.pushed (h : s.Ready sha key files) (hkey : validKey key = true)
    (hinj : Set.InjOn (blockHash sha) {b | ∃ f, files f ∧ IsBlock f b}) (qs : List Push)
    (hqs : ∀ q ∈ qs, files q.file ∧
      ∃ l, parseLayout q.file q.file.length = .ok l ∧ itemCount l ≤ 2 ^ 20) :
    (pushed sha key s qs).Ready sha key files := by
  induction qs generalizing s with
  | nil => exact h
  | cons q qs ih =>
    obtain ⟨hq, l, hlayout, hcount⟩ := hqs q mem_cons_self
    obtain ⟨s', st, ps, hrun, hfile⟩ := h.push hkey hinj q hq hlayout hcount
    rw [Kvshare.pushed, foldl_cons, hrun]
    exact ih (.file q.file hq l hlayout st ps hfile) fun r hr => hqs r (mem_cons_of_mem q hr)

/-- **Round trip.** Files pushed in turn to a key without a replica, each as the diff against
the manifest that the store returns: every put succeeds, and what is materialized after it
is the file. -/
theorem materialize_pushed (sha : Sha256) {key : Name} (hkey : validKey key = true) {s : Store}
    (hnone : info s key = .ok none) (hman : s.man key = none) {qs : List Push}
    (hqs : ∀ q ∈ qs, ∃ l, parseLayout q.file q.file.length = .ok l ∧ itemCount l ≤ 2 ^ 20)
    (hinj : Set.InjOn (blockHash sha) {b | ∃ q ∈ qs, IsBlock q.file b}) {pre post : List Push}
    {q : Push} (hsplit : qs = pre ++ q :: post) :
    (run (push sha key q) (pushed sha key s pre)).1 = .ok ⟨q.file.length⟩ ∧
      ∀ stale, materialize sha stale (pushed sha key s (pre ++ [q])) key = .ok q.file := by
  have hfiles : ∀ r ∈ qs, ∃ r' ∈ qs, r'.file = r.file := fun r hr => ⟨r, hr, rfl⟩
  have hinj' : Set.InjOn (blockHash sha)
      {b | ∃ f, (∃ r ∈ qs, r.file = f) ∧ IsBlock f b} := by
    refine hinj.mono ?_
    rintro b ⟨f, ⟨r, hr, rfl⟩, hb⟩
    exact ⟨r, hr, hb⟩
  have hpre : (pushed sha key s pre).Ready sha key fun f => ∃ r ∈ qs, r.file = f := by
    refine (ready_of_info hnone hman).pushed hkey hinj' pre fun r hr => ?_
    have hmem : r ∈ qs := hsplit ▸ mem_append_left _ hr
    exact ⟨hfiles r hmem, hqs r hmem⟩
  have hq : q ∈ qs := hsplit ▸ mem_append_right _ mem_cons_self
  obtain ⟨l, hlayout, hcount⟩ := hqs q hq
  obtain ⟨s', st, ps, hrun, hfile⟩ := hpre.push hkey hinj' q (hfiles q hq) hlayout hcount
  refine ⟨by rw [hrun], fun stale => ?_⟩
  rw [Kvshare.pushed, foldl_append, foldl_cons, foldl_nil]
  change materialize sha stale (run (push sha key q) (pushed sha key s pre)).2 key = _
  rw [hrun]
  exact hfile.materialize hkey stale

/-- A session file without cells, with the token ids. -/
def tinySession (ids : Bytes) : Bytes :=
  let payload := List.replicate 168 0 ++ leBytes 8 (ids.length / 4) ++ ids ++ List.replicate 72 0
  sessMagic ++ leBytes 4 sessVersion ++ leBytes 4 sessHeader ++ leBytes 8 7 ++ leBytes 8 9 ++
    leBytes 8 payload.length ++ List.replicate 24 0 ++ payload ++ List.replicate 16 0

def zeroSha : Sha256 := ⟨fun _ => List.replicate 32 0, fun _ => List.length_replicate⟩

def tinyPush (ids : Bytes) (saveID : Option String) : Push := ⟨tinySession ids, saveID, 0, fun _ => []⟩

/-- A file is pushable, by evaluation. -/
def pushable (f : Bytes) : Bool :=
  match parseLayout f f.length with
  | .ok l => itemCount l ≤ 2 ^ 20
  | .error _ => false

theorem exists_layout (h : pushable f = true) :
    ∃ l, parseLayout f f.length = .ok l ∧ itemCount l ≤ 2 ^ 20 := by
  unfold pushable at h
  split at h
  · rename_i l hl
    exact ⟨l, hl, by simpa using h⟩
  · cases h

/-- A file with a whole block is not tiny. -/
theorem length_of_isBlock {b : Bytes} (h : IsBlock f b) : blockSize ≤ f.length := by
  obtain ⟨l, hl, t, ht, j, hj, -⟩ := h
  obtain ⟨nckpt, nkv, vs, hparsed, -⟩ := parseLayout_ok hl
  have hin := (hparsed.ordered.inside.2 t ht).2
  rw [hparsed.size] at hin
  rw [Nat.add_mul, Nat.one_mul] at hj
  omega

theorem materialize_pushed_two :
    (run (push zeroSha (ascii "a") (tinyPush [1, 2, 3, 4] none))
        (pushed zeroSha (ascii "a") Store.new [tinyPush [] (some "0")])).1 =
      .ok ⟨(tinySession [1, 2, 3, 4]).length⟩ ∧
    ∀ stale, materialize zeroSha stale (pushed zeroSha (ascii "a") Store.new
        ([tinyPush [] (some "0")] ++ [tinyPush [1, 2, 3, 4] none])) (ascii "a") =
      .ok (tinySession [1, 2, 3, 4]) := by
  have hsplit : [tinyPush [] (some "0"), tinyPush [1, 2, 3, 4] none] =
      [tinyPush [] (some "0")] ++ tinyPush [1, 2, 3, 4] none :: [] := rfl
  refine materialize_pushed zeroSha (by decide) rfl rfl ?_ ?_ hsplit
  · intro q hq
    rcases mem_pair.1 hq with rfl | rfl
    · exact exists_layout (by decide +kernel)
    · exact exists_layout (by decide +kernel)
  · rintro b ⟨q, hq, hb⟩
    have hlong := length_of_isBlock hb
    have hshort : q.file.length < blockSize := by
      unfold blockSize
      rcases mem_pair.1 hq with rfl | rfl
      · decide +kernel
      · decide +kernel
    omega

end Viiwork.Kvshare
