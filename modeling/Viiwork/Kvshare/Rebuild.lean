import Viiwork.Kvshare.Calls

/-!
# Viiwork.Kvshare.Rebuild

What a rebuild from an engine delta does, as a list of **writes**: framing, and sections
with what they keep and what follows. A K/V section is written with its chunk hashes,
which fit: the kept ones are the base's, the others those of the new bytes.

If the payload is read to its end, the rebuild and the section files are those that the
writes make, and each write was one the rebuild takes (`payload_writes`).
-/

namespace Viiwork.Kvshare

open Viiwork.Lib Store Prog List Rebuild
open Sesshash (Hash)

/-! ### Writes -/

structure Wrote where
  /-- Empty for framing. -/
  name : Name
  keep : Nat
  data : Bytes
  hashes : Option (List UInt64)

namespace Wrote

def framing (p : Bytes) : Wrote := ⟨[], 0, p, none⟩

/-- The length of the section. -/
def len (w : Wrote) : Nat := w.keep + w.data.length

end Wrote

/-- Adds the write to what has been rebuilt. -/
def Rebuild.add (b : Rebuild) (w : Wrote) : Rebuild :=
  if w.name = [] then b.frame w.data
  else
    { b.addSection w.name w.keep w.len with
      tokens := if w.name = ascii "live.ids" then w.len / 4 else b.tokens
      chunks := match w.hashes with
        | some hs => Function.update b.chunks w.name (some hs)
        | none => b.chunks }

def Dir.write (d : Dir) (w : Wrote) : Dir :=
  if w.name = [] then d else d.patch w.name w.keep w.data

theorem Rebuild.add_framing (b : Rebuild) (p : Bytes) : b.add (.framing p) = b.frame p := rfl

variable {w : Wrote} {step : RebuildStep} {v keep : Nat} {base : List UInt64}

theorem Rebuild.add_section (b : Rebuild) (h : w.name ≠ []) :
    b.add w = { b.addSection w.name w.keep w.len with
      tokens := if w.name = ascii "live.ids" then w.len / 4 else b.tokens
      chunks := match w.hashes with
        | some hs => Function.update b.chunks w.name (some hs)
        | none => b.chunks } := if_neg h

theorem Dir.write_framing (d : Dir) (p : Bytes) : d.write (.framing p) = d := rfl

theorem Dir.write_section (d : Dir) (h : w.name ≠ []) : d.write w = d.patch w.name w.keep w.data := if_neg h

/-- The chunk hashes of a section of which `keep` bytes are kept and `data` is new. -/
structure ChunksFit (base hashes : List UInt64) (keep : Nat) (data : Bytes) : Prop where
  whole : keep % chunkSize = 0
  kept : keep / chunkSize ≤ base.length
  base : hashes.take (keep / chunkSize) = base.take (keep / chunkSize)
  tail : hashes.drop (keep / chunkSize) = trueChunks data

/-- The rebuild can take the write. -/
structure Rebuild.Takes (b : Rebuild) (w : Wrote) : Prop where
  valid : w.name ≠ [] → validKey w.name = true
  keep : w.keep ≤ (b.held w.name).getD 0
  whole : w.hashes = none → w.keep = 0
  hashes : ∀ hs, w.hashes = some hs → ChunksFit ((b.chunks w.name).getD []) hs w.keep w.data

/-- It can take one after the other. -/
def Rebuild.Chain : Rebuild → List Wrote → Prop
  | _, [] => True
  | b, w :: ws => b.Takes w ∧ (b.add w).Chain ws

variable {b : Rebuild} {name : Name} {r r' : EngineReader} {hs : List UInt64}

theorem chain_append {ws us : List Wrote} :
    b.Chain (ws ++ us) ↔ b.Chain ws ∧ (ws.foldl Rebuild.add b).Chain us := by
  induction ws generalizing b with
  | nil => simp [Rebuild.Chain]
  | cons w ws ih => simp only [cons_append, Rebuild.Chain, ih, foldl_cons, and_assoc]

theorem takes_framing (b : Rebuild) (p : Bytes) : b.Takes (.framing p) where
  valid h := absurd rfl h
  keep := Nat.zero_le _
  whole _ := rfl
  hashes _ h := nomatch h

/-! ### Steps that write -/

abbrev RebuildStep := Rebuild → EngineReader → StoreM (Rebuild × EngineReader)

/-- What the step has done when it returns is a list of writes that the rebuild takes. -/
def Writes (key : Name) (step : RebuildStep) : Prop :=
  ∀ (s : Store) (d : Dir) (b : Rebuild) (r : EngineReader),
    (step b r).Returns (fun out s' => ∃ ws, b.Chain ws ∧ out.1 = ws.foldl Rebuild.add b ∧
      s' = s.setDir key (ws.foldl Dir.write d)) (s.setDir key d)

variable {key : Name}

theorem Writes.bind {next : Rebuild × EngineReader → StoreM (Rebuild × EngineReader)}
    (h : Writes key step) (h' : Writes key fun b r => next (b, r)) :
    Writes key fun b r => step b r >>= next := by
  intro s d b r
  show (step b r >>= next).Returns _ _
  rw [Returns, wp_bind]
  refine (h s d b r).mono (fun _ _ _ => trivial) (fun _ _ _ => trivial) ?_
  rintro ⟨b₁, r₁⟩ s₁ ⟨ws, hchain, rfl, rfl⟩
  refine (h' s _ _ r₁).mono (fun _ _ _ => trivial) (fun _ _ _ => trivial) ?_
  rintro ⟨b₂, r₂⟩ s₂ ⟨us, hchain', rfl, rfl⟩
  exact ⟨ws ++ us, chain_append.2 ⟨hchain, hchain'⟩, by rw [foldl_append],
    by rw [foldl_append]⟩

theorem writes_seq {ι : Type} {step : ι → RebuildStep} {is : List ι}
    (h : ∀ i ∈ is, Writes key (step i)) : Writes key (Rebuild.seq step is) := by
  induction is with
  | nil => exact fun s d b r => ⟨[], trivial, rfl, rfl⟩
  | cons i is ih =>
    exact (h i mem_cons_self).bind (ih fun j hj => h j (mem_cons_of_mem i hj))

/-! ### One section -/

variable {s : Store} {d : Dir}

/-- A section is patched with as many bytes as it should be. -/
theorem returns_patchSection {keep len : Int} {data : Stream} {Q : Stream → Store → Prop}
    (h : ∀ b rest, validKey name = true → 0 ≤ keep → (b.length : Int) = len - keep →
      data = ⟨b ++ rest.data, rest.fin⟩ → Q rest (s.setDir key (d.patch name keep.toNat b))) :
    (patchSection key name keep len data).Returns Q (s.setDir key d) := by
  rw [returns_iff]
  intro rest s' hrun
  by_cases hname : validKey name = true
  · by_cases hkeep : 0 ≤ keep
    · obtain ⟨k, rfl⟩ := Int.eq_ofNat_of_zero_le hkeep
      rw [run_patchSection hname] at hrun
      cases hcopy : data.copyFull (len - k) with
      | error e =>
        rw [hcopy] at hrun
        cases hrun
      | ok out =>
        obtain ⟨b, rest'⟩ := out
        obtain ⟨hdata, hlen⟩ := Stream.copyFull_eq_ok hcopy
        rw [hcopy, ← hlen, Int.toNat_natCast, hdata, take_left] at hrun
        cases hrun
        exact h b rest' hname hkeep hlen hdata
    · -- a negative offset is refused once the file is there
      rw [patchSection, sectionFile, if_pos hname, run_ofExcept_bind_ok, run_inDir_bind,
        run_failIf_bind_pos (by omega)] at hrun
      cases hrun
  · rw [run_patchSection_invalid (by simpa using hname)] at hrun
    cases hrun

theorem returns_section {keep size : Int} {Q : Rebuild × EngineReader → Store → Prop}
    (h : ∀ data rest, validKey name = true → 0 ≤ keep → keep ≤ ((b.held name).getD 0 : Nat) →
      (data.length : Int) = size - keep → r.r = ⟨data ++ rest.data, rest.fin⟩ →
      Q (b.addSection name keep.toNat size.toNat, r.took data rest)
        (s.setDir key (d.patch name keep.toNat data))) :
    (b.section_ key name keep size r).Returns Q (s.setDir key d) := by
  rw [section_, Returns, wp_bind, wp_failIf]
  refine ⟨fun hheld => ?_, fun _ => trivial⟩
  rw [wp_bind]
  refine returns_patchSection fun data rest hname hkeep hlen hdata => ?_
  have htake : r.r.data.take (size - keep).toNat = data := by
    rw [hdata, ← hlen, Int.toNat_natCast, take_left]
  rw [wp_pure, htake]
  exact h data rest hname hkeep (not_lt.1 hheld) hlen hdata

/-! ### The fields -/

variable {limit : Nat}

theorem writes_skip (key : Name) (n : Nat) : Writes key fun b r => ofExcept (b.skip n r) := by
  intro s d b r
  rw [Returns, wp_ofExcept]
  refine ⟨fun out hout => ?_, fun _ _ => trivial⟩
  obtain ⟨⟨p, r'⟩, -, h⟩ := bind_eq_ok.1 hout
  cases h
  exact ⟨[.framing p], ⟨takes_framing b p, trivial⟩, rfl, rfl⟩

theorem u64_eq_ok (h : r.u64 = .ok (v, r')) : v < 2 ^ 64 := by
  obtain ⟨⟨p, r₁⟩, hp, h⟩ := bind_eq_ok.1 h
  obtain ⟨⟨q, rest⟩, hq, hp⟩ := bind_eq_ok.1 hp
  cases hp
  cases h
  have hlt := leNat_lt p
  rw [(Stream.readFull_eq_ok hq).2] at hlt
  exact hlt

theorem u64Frame_eq_ok {b' : Rebuild} (h : b.u64Frame r = .ok (v, b', r')) :
    b' = b.add (.framing (leBytes 8 v)) := by
  obtain ⟨⟨w, r₁⟩, -, h⟩ := bind_eq_ok.1 h
  cases h
  rfl

/-- A count that the rest goes by. -/
theorem writes_count {next : Nat × Rebuild × EngineReader → StoreM (Rebuild × EngineReader)}
    (h : ∀ n, Writes key fun b r => next (n, b, r)) :
    Writes key fun b r => ofExcept (b.u64Frame r) >>= next := by
  intro s d b r
  show (ofExcept (b.u64Frame r) >>= next).Returns _ _
  rw [Returns, wp_bind, wp_ofExcept]
  refine ⟨?_, fun _ _ => trivial⟩
  rintro ⟨n, b₁, r₁⟩ hcount
  obtain rfl := u64Frame_eq_ok hcount
  refine (h n s d _ r₁).mono (fun _ _ _ => trivial) (fun _ _ _ => trivial) ?_
  rintro out s' ⟨ws, hchain, hout, hs'⟩
  exact ⟨.framing (leBytes 8 n) :: ws, ⟨takes_framing b _, hchain⟩, hout, hs'⟩

theorem writes_failIf {c : Prop} [Decidable c] {e : Err} (h : Writes key step) :
    Writes key fun b r => Prog.failIf c e >>= fun _ => step b r := by
  intro s d b r
  show (Prog.failIf c e >>= fun _ => step b r).Returns _ _
  rw [Returns, wp_bind, wp_failIf]
  exact ⟨fun _ => h s d b r, fun _ => trivial⟩

theorem writes_vec (hlimit : limit < 2 ^ 64) {elem : Nat} (helem : elem ≠ 0)
    (hids : name = ascii "live.ids" → elem = 4) :
    Writes key fun b r => b.vec key limit name elem r := by
  intro s d b r
  show (b.vec key limit name elem r).Returns _ _
  rw [vec, Returns, wp_bind, wp_ofExcept]
  refine ⟨?_, fun _ _ => trivial⟩
  rintro ⟨n, b₁, r₁⟩ hcount
  obtain rfl := u64Frame_eq_ok hcount
  rw [wp_bind, wp_failIf]
  refine ⟨fun hfits => ?_, fun _ => trivial⟩
  refine returns_section fun data rest hname _ _ hlen _ => ?_
  -- the product does not wrap
  have hle : n * elem < 2 ^ 64 := by
    have hdiv : n ≤ limit / elem := by
      by_contra hlt
      exact hfits ⟨helem, not_le.1 hlt⟩
    exact ((Nat.mul_le_mul_right elem hdiv).trans (Nat.div_mul_le_self _ _)).trans_lt hlimit
  have hsize : data.length = n * elem := by
    have := (int64_eq hle (by omega)).1
    omega
  have hne : name ≠ [] := by
    rintro rfl
    cases hname
  refine ⟨[.framing (leBytes 8 n), ⟨name, 0, data, none⟩], ⟨takes_framing b _, ?_, trivial⟩, ?_, ?_⟩
  · exact ⟨fun _ => hname, Nat.zero_le _, fun _ => rfl, fun _ h => nomatch h⟩
  · have hlen' : (int64 (n * elem)).toNat = data.length := by omega
    rw [foldl_cons, foldl_cons, foldl_nil, add_framing,
      add_section _ (by exact hne), hlen']
    by_cases hlive : name = ascii "live.ids"
    · have htokens : data.length / 4 = n := by
        rw [hsize, hids hlive, Nat.mul_div_cancel _ (by norm_num)]
      simp only [if_pos hlive, addSection, Wrote.len, Nat.zero_add, htokens]
      rfl
    · simp only [if_neg hlive, addSection, Wrote.len, Nat.zero_add]
      rfl
  · rw [foldl_cons, foldl_cons, foldl_nil, Dir.write_framing,
      Dir.write_section _ (by exact hne)]
    rfl

/-! ### K/V sections -/

theorem eq_take_of_firstDiff {i : Nat} {xs ys : List UInt64}
    (h : Rebuild.firstDiff i xs ys = none) (hlen : xs.length ≤ ys.length) :
    xs = ys.take xs.length := by
  rw [firstDiff, Option.map_eq_none_iff, List.findIdx?_eq_none_iff] at h
  induction xs generalizing ys with
  | nil => rfl
  | cons x xs ih =>
    cases ys with
    | nil => cases hlen
    | cons y ys =>
      have hxy : x = y := by simpa using h (x, y) mem_cons_self
      rw [length_cons, take_succ_cons, ← hxy,
        ← ih (fun p hp => h p (mem_cons_of_mem _ hp)) (Nat.le_of_succ_le_succ hlen)]

theorem block_append_right {front : Bytes} {n k : Nat} (h : front.length = k * n) (data : Bytes)
    (i : Nat) : block n (k + i) (front ++ data) = block n i data := by
  rw [block, block, Nat.add_mul, ← h, ← drop_drop, drop_left]

theorem length_trueChunks (b : Bytes) :
    (trueChunks b).length = (b.length + chunkSize - 1) / chunkSize := by
  simp [trueChunks]

theorem chunkCount_add (kept n : Nat) :
    (kept * chunkSize + n + chunkSize - 1) / chunkSize =
      kept + (n + chunkSize - 1) / chunkSize := by
  have := chunkSize_pos
  rw [show kept * chunkSize + n + chunkSize - 1 = n + chunkSize - 1 + kept * chunkSize by omega,
    Nat.add_mul_div_right _ _ chunkSize_pos, Nat.add_comm]

/-- Behind the chunks that are kept, the hashes are those of the new bytes. -/
theorem drop_chunkHashes (old data : Bytes) {kept : Nat} (hlen : hs.length = kept) :
    (chunkHashes (truncate (kept * chunkSize) old ++ data) (kept * chunkSize)
      (kept * chunkSize + data.length) hs).drop kept = trueChunks data := by
  have hfront := length_truncate (kept * chunkSize) old
  have htotal : kept * chunkSize + data.length =
      (truncate (kept * chunkSize) old ++ data).length := by
    rw [length_append, hfront]
  rw [chunkHashes, Nat.mul_div_cancel _ chunkSize_pos, hlen, min_self, chunkCount_add,
    Nat.add_sub_cancel_left, htotal, foldl_hashChunk _ _ _ _ (by rw [← htotal, chunkCount_add]),
    drop_left' (by simp [hlen]), trueChunks, List.range'_eq_map_range, map_map]
  refine map_congr_left fun i _ => ?_
  rw [Function.comp_apply, block_append_right hfront]

theorem checkChunks_eq_ok {f : Bytes} {size : Nat}
    (h : Rebuild.checkChunks name f keep size base hs = .ok ()) :
    Rebuild.firstDiff 0 (hs.take (keep / chunkSize)) base = none ∧
      Rebuild.firstDiff (keep / chunkSize)
        ((chunkHashes f keep size (hs.take (keep / chunkSize))).drop (keep / chunkSize))
        (hs.drop (keep / chunkSize)) = none := by
  simp only [checkChunks] at h
  split at h
  · cases h
  · rename_i hbase
    split at h
    · cases h
    · rename_i htail
      exact ⟨hbase, htail⟩

theorem checkChunks_fit {old data : Bytes} (hwhole : keep % chunkSize = 0)
    (hkept : keep / chunkSize ≤ base.length)
    (hcount : hs.length = (keep + data.length + chunkSize - 1) / chunkSize)
    (h : Rebuild.checkChunks name (truncate keep old ++ data) keep (keep + data.length) base hs =
      .ok ()) : ChunksFit base hs keep data := by
  obtain ⟨kept, rfl⟩ : ∃ kept, keep = kept * chunkSize :=
    ⟨keep / chunkSize, (Nat.div_mul_cancel (Nat.dvd_of_mod_eq_zero hwhole)).symm⟩
  rw [Nat.mul_div_cancel _ chunkSize_pos] at hkept
  have hle : kept ≤ hs.length := by
    rw [hcount, chunkCount_add]
    exact Nat.le_add_right _ _
  have htake : (hs.take kept).length = kept := length_take_of_le hle
  obtain ⟨hbase, htail⟩ := checkChunks_eq_ok h
  rw [Nat.mul_div_cancel _ chunkSize_pos] at hbase htail
  rw [drop_chunkHashes old data htake] at htail
  have hdrop : (hs.drop kept).length = (trueChunks data).length := by
    rw [length_drop, hcount, chunkCount_add, Nat.add_sub_cancel_left, length_trueChunks]
  refine ⟨hwhole, ?_, ?_, ?_⟩
  · rwa [Nat.mul_div_cancel _ chunkSize_pos]
  · rw [Nat.mul_div_cancel _ chunkSize_pos]
    have := eq_take_of_firstDiff hbase (by rwa [htake])
    rwa [htake] at this
  · rw [Nat.mul_div_cancel _ chunkSize_pos]
    have := eq_take_of_firstDiff htail hdrop.ge
    rw [this, ← hdrop, take_length]

theorem length_readHashes {n : Nat} (h : Rebuild.readHashes n r = .ok (hs, r')) :
    hs.length = n := by
  obtain ⟨⟨raw, r₁⟩, -, h⟩ := bind_eq_ok.1 h
  cases h
  simp

variable (hlimit : limit < 2 ^ 64)
include hlimit

theorem writes_kv (hids : name ≠ ascii "live.ids") :
    Writes key fun b r => b.kv key limit name r := by
  intro s d b r
  show (b.kv key limit name r).Returns _ _
  rw [kv, Returns, wp_bind, wp_ofExcept]
  refine ⟨?_, fun _ _ => trivial⟩
  rintro ⟨size, r₁⟩ -
  rw [wp_bind, wp_ofExcept]
  refine ⟨?_, fun _ _ => trivial⟩
  rintro ⟨keep, r₂⟩ hkeep
  rw [wp_bind, wp_failIf]
  refine ⟨fun hfits => ?_, fun _ => trivial⟩
  rw [wp_bind, wp_failIf]
  refine ⟨fun hkept => ?_, fun _ => trivial⟩
  rw [wp_bind]
  refine returns_section fun data rest hname hkeep₀ hheld hlen _ => ?_
  simp only [not_or, not_lt, not_not] at hfits hkept
  obtain ⟨hsize, hle, hwhole⟩ := hfits
  -- neither length wraps, since the section has the bytes
  have hkeep' := (int64_eq (u64_eq_ok hkeep) hkeep₀).1
  have hsize' := (int64_eq (hsize.trans_lt hlimit) (by omega)).1
  have hlen' : size = keep + data.length := by omega
  have hne : name ≠ [] := by
    rintro rfl
    cases hname
  rw [hkeep', hsize', Int.toNat_natCast, Int.toNat_natCast]
  dsimp only
  rw [wp_bind, wp_ofExcept]
  refine ⟨?_, fun _ _ => trivial⟩
  rintro ⟨n, r₃⟩ -
  rw [wp_bind, wp_failIf]
  refine ⟨fun hcount => ?_, fun _ => trivial⟩
  rw [wp_bind, wp_ofExcept]
  refine ⟨?_, fun _ _ => trivial⟩
  rintro ⟨hs, r₄⟩ hhashes
  rw [wp_bind, wp_get, setDir_dirs, Option.getD_some, wp_bind, wp_ofExcept]
  refine ⟨fun f hf => ?_, fun _ _ => trivial⟩
  rw [wp_bind, wp_ofExcept]
  refine ⟨fun u hcheck => ?_, fun _ _ => trivial⟩
  rw [wp_pure]
  have hfile : f = truncate keep ((d.sections name).getD []) ++ data := by
    have := open_eq_ok hf
    simpa [Dir.patch, onSection] using this.symm
  rw [hfile, hlen'] at hcheck
  have hfit := checkChunks_fit hwhole hkept
    (by rw [length_readHashes hhashes, not_not.1 hcount, hlen']) hcheck
  refine ⟨[.framing (leBytes 8 size), ⟨name, keep, data, some hs⟩], ⟨takes_framing b _, ?_, trivial⟩,
    ?_, ?_⟩
  · have hheld' : keep ≤ ((b.frame (leBytes 8 size)).held name).getD 0 := by omega
    exact ⟨fun _ => hname, hheld', fun h => (by cases h), fun _ h => by cases h; exact hfit⟩
  · rw [foldl_cons, foldl_cons, foldl_nil, add_framing,
      add_section _ (by exact hne)]
    simp only [if_neg hids, addSection, Wrote.len, ← hlen']
  · rw [foldl_cons, foldl_cons, foldl_nil, Dir.write_framing,
      Dir.write_section _ (by exact hne)]

/-! ### The payload -/

theorem writes_checkpoint {tag : Bytes} (htag : 46 ∉ tag) :
    Writes key fun b r => b.checkpoint key limit tag r := by
  have hlive : (46 : UInt8) ∉ ascii "live" := by decide
  have hnames : ∀ part ∈ "imgs" :: stateParts, named tag part = ascii "live.ids" → False := by
    intro part hpart heq
    have hids : ascii "live.ids" = named (ascii "live") "ids" := by decide
    have hne : ∀ part ∈ "imgs" :: stateParts, ascii part ≠ ascii "ids" := by decide
    exact hne part hpart (named_inj htag hlive (heq.trans hids)).2
  unfold checkpoint
  refine (writes_vec hlimit (by norm_num) fun _ => rfl).bind ?_
  refine (writes_vec hlimit (by norm_num) fun h => ?_).bind ?_
  · exact (hnames _ mem_cons_self h).elim
  refine (writes_seq fun part hpart => ?_).bind (writes_skip key 8)
  exact writes_vec hlimit one_ne_zero fun h => (hnames _ (mem_cons_of_mem _ hpart) h).elim

theorem writes_layer (i : Nat) : Writes key fun b r => b.layer key limit i r := by
  unfold layer
  refine (writes_skip key (7 * 8)).bind (writes_seq fun part _ => writes_kv hlimit fun h => ?_)
  have hhead := congrArg List.head? h
  rw [named, append_assoc, List.head?_append, head?_kvTag,
    show (ascii "live.ids").head? = some 108 by decide] at hhead
  cases hhead

/-- **A payload that is read to its end is a list of writes.** -/
theorem payload_writes : Writes key fun b r => b.payload key limit r := by
  have hckpt : ∀ i, 46 ∉ ckptTag i := fun i => @dot_notMem_tag (i + 1) 0 _
    (mem_append_left _ (mem_cons_of_mem _ (mem_map_of_mem (by simp))))
  unfold payload
  refine (writes_skip key _).bind ((writes_checkpoint hlimit (by decide)).bind ?_)
  -- the count is framing, and says how many checkpoints follow
  refine writes_count fun nckpt => writes_failIf ?_
  refine (writes_seq fun i _ => writes_checkpoint hlimit (hckpt i)).bind ?_
  refine writes_count fun nkv => writes_failIf ?_
  exact writes_seq fun i _ => writes_layer hlimit i

end Viiwork.Kvshare
