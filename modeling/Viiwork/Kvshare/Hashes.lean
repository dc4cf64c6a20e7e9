import Viiwork.Kvshare.Store

/-!
# Viiwork.Kvshare.Hashes

What the hashes of a section are when its file is whole: one for each whole block
(`trueBlocks`) and one for each chunk, the last one short (`trueChunks`). The functions
that reuse hashes of an earlier copy give the same, if the copies agree below `keep`.
-/

namespace Viiwork.Kvshare

open Viiwork.Lib List

variable (sha : Sha256)

/-! ### Blocks -/

def trueBlocks (b : Bytes) : Bytes :=
  (List.range (b.length / blockSize)).flatMap fun i => blockHash sha (block blockSize i b)

@[simp] theorem length_blockHash (b : Bytes) : (blockHash sha b).length = 16 := by
  simp [blockHash, sha.length_sum]

theorem length_trueBlocks (b : Bytes) : (trueBlocks sha b).length = b.length / blockSize * 16 := by
  simp [trueBlocks]

theorem blockSize_pos : 0 < blockSize := by
  unfold blockSize
  norm_num

theorem chunkSize_pos : 0 < chunkSize := by
  unfold chunkSize
  norm_num

/-- The hashes of `m` blocks from the `k`-th on. -/
def blockHashes (f : Bytes) (k m : Nat) : Bytes :=
  (List.range m).flatMap fun i => blockHash sha (block blockSize (k + i) f)

theorem blockHashes_add (f : Bytes) (k m n : Nat) :
    blockHashes sha f k (m + n) = blockHashes sha f k m ++ blockHashes sha f (k + m) n := by
  rw [blockHashes, range_add, flatMap_append, flatMap_map]
  simp only [blockHashes, Nat.add_assoc]

theorem length_blockHashes (f : Bytes) (k m : Nat) :
    (blockHashes sha f k m).length = m * 16 := by
  simp [blockHashes]

variable {k n keep m : Nat} {f out prev old : Bytes} {d : Dir} {name : Name}

theorem take_blockHashes (f : Bytes) (h : n ≤ m) :
    (blockHashes sha f k m).take (n * 16) = blockHashes sha f k n :=
  take_flatMap_range (fun _ => length_blockHash sha _) h

theorem trueBlocks_eq (f : Bytes) :
    trueBlocks sha f = blockHashes sha f 0 (f.length / blockSize) := by
  simp [trueBlocks, blockHashes]

theorem readBlock_eq_ok {h : Bytes} {i : Nat} :
    (do let buf ← readAt f (k * blockSize + i * blockSize) blockSize; return blockHash sha buf) =
        (.ok h : Except Err Bytes) ↔
      (k + i + 1) * blockSize ≤ f.length ∧ h = blockHash sha (block blockSize (k + i) f) := by
  have hoff : k * blockSize + i * blockSize = (k + i) * blockSize := (Nat.add_mul _ _ _).symm
  rw [hoff, readAt, ← Nat.succ_mul]
  by_cases hle : (k + i).succ * blockSize ≤ f.length
  · rw [if_pos hle]
    exact ⟨fun heq => ⟨hle, (Except.ok.inj heq).symm⟩, fun heq => by rw [heq.2]; rfl⟩
  · rw [if_neg hle]
    exact ⟨fun heq => (nomatch heq), fun heq => absurd heq.1 hle⟩

/-- The blocks can be hashed exactly when the file has them. -/
theorem hashBlocks_eq_ok :
    hashBlocks sha f (k * blockSize) n = .ok out ↔
      (∀ i < n / blockSize, (k + i + 1) * blockSize ≤ f.length) ∧
        out = blockHashes sha f k (n / blockSize) := by
  have hread : ∀ i, (k + i + 1) * blockSize ≤ f.length →
      (do let buf ← readAt f (k * blockSize + i * blockSize) blockSize; return blockHash sha buf) =
        (.ok (blockHash sha (block blockSize (k + i) f)) : Except Err Bytes) :=
    fun i hle => (readBlock_eq_ok sha).2 ⟨hle, rfl⟩
  rw [hashBlocks, bind_eq_ok]
  constructor
  · rintro ⟨hashes, hmap, hout⟩
    obtain ⟨-, hall⟩ := forall₂_iff_get.1 (mapM_eq_ok_iff.1 hmap)
    have hle : ∀ i < n / blockSize, (k + i + 1) * blockSize ≤ f.length := by
      intro i hi
      have hget := hall i (by simpa using hi) (by
        simpa [← (mapM_eq_ok_iff.1 hmap).length_eq] using hi)
      rw [get_eq_getElem, getElem_range] at hget
      exact ((readBlock_eq_ok sha).1 hget).1
    rw [mapM_eq_ok fun i hi => hread i (hle i (mem_range.1 hi))] at hmap
    cases hmap
    exact ⟨hle, (Except.ok.inj hout).symm⟩
  · rintro ⟨hle, rfl⟩
    exact ⟨_, mapM_eq_ok fun i hi => hread i (hle i (mem_range.1 hi)), rfl⟩

/-- `prev` has the hashes of the first blocks of `f`, as many as `hashSection` reuses. -/
def Reusable (f : Bytes) (keep : Nat) (prev : Bytes) : Prop :=
  let reuse := min (keep / blockSize) (prev.length / 16)
  reuse * blockSize ≤ f.length ∧
    prev.take (reuse * 16) = (trueBlocks sha f).take (reuse * 16)

theorem open_eq (hname : validKey name = true) (hf : d.sections name = some f) :
    d.open_ name = .ok f := by
  simp [Dir.open_, sectionFile, hname, hf, opened, bind, Except.bind]

theorem open_eq_ok (h : d.open_ name = .ok f) : d.sections name = some f := by
  obtain ⟨name', hname, h⟩ := bind_eq_ok.1 h
  unfold sectionFile at hname
  split at hname
  · cases hname
    unfold opened at h
    split at h
    · rename_i hf
      cases h
      exact hf
    · cases h
  · cases hname

theorem hashSection_eq (hname : validKey name = true) (hf : d.sections name = some f)
    (hprev : Reusable sha f keep prev) :
    hashSection sha d name keep f.length prev = .ok (trueBlocks sha f) := by
  obtain ⟨hle, htake⟩ := hprev
  unfold hashSection
  generalize min (keep / blockSize) (prev.length / 16) = reuse at hle htake ⊢
  obtain ⟨rest, hrest⟩ := Nat.exists_eq_add_of_le hle
  have hcount : f.length / blockSize = reuse + rest / blockSize := by
    rw [hrest, Nat.add_comm, Nat.add_mul_div_right _ _ blockSize_pos, Nat.add_comm]
  have hblocks : hashBlocks sha f (reuse * blockSize) rest =
      .ok (blockHashes sha f reuse (rest / blockSize)) := by
    refine (hashBlocks_eq_ok sha).2 ⟨fun i hi => ?_, rfl⟩
    have : (i + 1) * blockSize ≤ rest :=
      (Nat.le_div_iff_mul_le blockSize_pos).1 (Nat.succ_le_of_lt hi)
    rw [Nat.add_assoc, Nat.add_mul]
    omega
  rw [open_eq hname hf]
  dsimp only [bind, Except.bind]
  rw [show f.length - reuse * blockSize = rest by omega, hblocks, htake, trueBlocks_eq, hcount,
    take_blockHashes sha f (Nat.le_add_right _ _), blockHashes_add, Nat.zero_add]
  rfl

/-- Nothing is reused. -/
theorem reusable_zero (f prev : Bytes) : Reusable sha f 0 prev := by
  simp [Reusable]

/-- The hashes of an earlier copy can be reused where the blocks are the same. -/
theorem reusable_of_blocks (hf : keep ≤ f.length)
    (h : ∀ i < keep / blockSize, i < m → block blockSize i old = block blockSize i f) :
    Reusable sha f keep (blockHashes sha old 0 m) := by
  rw [Reusable, length_blockHashes, Nat.mul_div_cancel _ (by norm_num)]
  have hle : min (keep / blockSize) m * blockSize ≤ f.length :=
    (Nat.mul_le_mul_right _ (min_le_left _ _)).trans ((Nat.div_mul_le_self _ _).trans hf)
  refine ⟨hle, ?_⟩
  rw [take_blockHashes sha old (min_le_right _ _), trueBlocks_eq,
    take_blockHashes sha f ((Nat.le_div_iff_mul_le blockSize_pos).2 hle)]
  refine flatMap_congr fun i hi => ?_
  obtain ⟨hkeep, hm⟩ := lt_min_iff.1 (mem_range.1 hi)
  rw [Nat.zero_add, h i hkeep hm]

theorem reusable_of_take (hf : keep ≤ f.length) (h : old.take keep = f.take keep) :
    Reusable sha f keep (trueBlocks sha old) := by
  rw [trueBlocks_eq]
  have hblocks : old.take (keep / blockSize * blockSize) = f.take (keep / blockSize * blockSize) := by
    have := congrArg (List.take (keep / blockSize * blockSize)) h
    rwa [take_take, take_take, min_eq_left (Nat.div_mul_le_self _ _)] at this
  exact reusable_of_blocks sha hf fun i hi _ => block_eq_of_take hblocks hi

/-- The hashes of a section computed from nothing. -/
theorem hashSection_zero_eq_ok :
    hashSection sha d name 0 n [] = .ok out ↔
      ∃ f, d.open_ name = .ok f ∧ (∀ i < n / blockSize, (i + 1) * blockSize ≤ f.length) ∧
        out = blockHashes sha f 0 (n / blockSize) := by
  have hblocks : ∀ f : Bytes, hashBlocks sha f 0 n = .ok out ↔ _ := fun f =>
    Nat.zero_mul blockSize ▸ hashBlocks_eq_ok sha (k := 0)
  simp only [Nat.zero_add] at hblocks
  simp only [hashSection, bind_eq_ok, Nat.zero_div, Nat.zero_min, Nat.zero_mul, Nat.sub_zero]
  refine exists_congr fun f => and_congr_right fun _ => ?_
  rw [← hblocks f]
  exact ⟨fun ⟨tail, htail, heq⟩ => (Except.ok.inj heq) ▸ htail, fun h => ⟨out, h, rfl⟩⟩

/-- **Reused hashes are the true ones**: what is hashed with those of an earlier copy is
hashed from nothing. -/
theorem hashSection_scratch (hf : d.open_ name = .ok f) (hprev : Reusable sha f keep prev)
    (hkeep : keep ≤ n) (h : hashSection sha d name keep n prev = .ok out) :
    hashSection sha d name 0 n [] = .ok out := by
  obtain ⟨hle, htake⟩ := hprev
  have hreuse : min (keep / blockSize) (prev.length / 16) * blockSize ≤ n :=
    (Nat.mul_le_mul_right _ (min_le_left _ _)).trans ((Nat.div_mul_le_self _ _).trans hkeep)
  rw [hashSection, hf, ok_bind] at h
  generalize min (keep / blockSize) (prev.length / 16) = reuse at h hle htake hreuse
  obtain ⟨rest, rfl⟩ := Nat.exists_eq_add_of_le hreuse
  have hcount : (reuse * blockSize + rest) / blockSize = reuse + rest / blockSize := by
    rw [Nat.add_comm, Nat.add_mul_div_right _ _ blockSize_pos, Nat.add_comm]
  obtain ⟨tail, htail, h⟩ := bind_eq_ok.1 h
  rw [Nat.add_sub_cancel_left] at htail
  obtain ⟨hrest, rfl⟩ := (hashBlocks_eq_ok sha).1 htail
  have hfront : prev.take (reuse * 16) = blockHashes sha f 0 reuse := by
    rw [htake, trueBlocks_eq, take_blockHashes sha f ((Nat.le_div_iff_mul_le blockSize_pos).2 hle)]
  rw [hashSection_zero_eq_ok, hcount]
  refine ⟨f, hf, fun i hi => ?_, ?_⟩
  · rcases Nat.lt_or_ge i reuse with hlt | hge
    · exact (Nat.mul_le_mul_right _ hlt).trans hle
    · have := hrest (i - reuse) (by omega)
      rwa [Nat.add_sub_cancel' hge] at this
  · rw [blockHashes_add, Nat.zero_add, ← hfront]
    exact (Except.ok.inj h).symm
/-! ### Chunks -/

def trueChunks (b : Bytes) : List UInt64 :=
  (List.range ((b.length + chunkSize - 1) / chunkSize)).map fun i =>
    Sesshash.sum (block chunkSize i b) 0

/-- A read that is not cut short leaves nothing of the buffer. -/
theorem readInto_eq {stale r : Bytes} {off c : Nat} (h : off + c ≤ r.length) :
    readInto stale r off c = slice r off c := by
  rw [readInto, length_slice h, drop_eq_nil_of_le (length_take_le _ _), append_nil]

/-- The digest of a whole file does not depend on the buffers. -/
theorem fileDigest_stale (stale stale' : Nat → Bytes) (f : Bytes) :
    fileDigest sha stale f f.length = fileDigest sha stale' f f.length := by
  unfold fileDigest
  congr 1
  refine flatMap_congr fun i hi => ?_
  have hpos : 0 < digestChunk := by
    unfold digestChunk
    norm_num
  have hlt : i * digestChunk ≤ f.length := by
    have := (Nat.le_div_iff_mul_le hpos).1 (Nat.succ_le_of_lt (mem_range.1 hi))
    rw [Nat.succ_mul] at this
    omega
  rw [readInto_eq (by omega), readInto_eq (by omega)]

theorem slice_min_eq_block (f : Bytes) (n i : Nat) :
    slice f (i * n) (min n (f.length - i * n)) = block n i f := by
  rw [slice, block]
  rcases le_total n (f.length - i * n) with hle | hle
  · rw [min_eq_left hle]
  · rw [min_eq_right hle, take_of_length_le (by simp), take_of_length_le (by simpa using hle)]

theorem foldl_hashChunk (i m : Nat) (out : List UInt64) (buf : Bytes)
    (h : i + m ≤ (f.length + chunkSize - 1) / chunkSize) :
    ((List.range' i m).foldl (hashChunk f f.length) (out, buf)).1 =
      out ++ (List.range' i m).map fun j => Sesshash.sum (block chunkSize j f) 0 := by
  induction m generalizing i out buf with
  | zero => simp
  | succ m ih =>
    have hi : i * chunkSize ≤ f.length := by
      have hlt : i < (f.length + chunkSize - 1) / chunkSize := by omega
      have := (Nat.le_div_iff_mul_le chunkSize_pos).1 (Nat.succ_le_of_lt hlt)
      rw [Nat.succ_mul] at this
      omega
    have hread : readInto buf f (i * chunkSize) (min chunkSize (f.length - i * chunkSize)) =
        block chunkSize i f := by
      rw [readInto_eq (by omega), slice_min_eq_block]
    rw [List.range'_succ, foldl_cons, map_cons]
    simp only [hashChunk, hread]
    rw [ih (i + 1) _ _ (by omega)]
    simp

theorem chunkHashes_eq {prev : List UInt64}
    (hprev : prev.take (min (keep / chunkSize) prev.length) =
      (trueChunks f).take (min (keep / chunkSize) prev.length))
    (hle : min (keep / chunkSize) prev.length ≤ (f.length + chunkSize - 1) / chunkSize) :
    chunkHashes f keep f.length prev = trueChunks f := by
  -- rewritten, not generalized: the buffer of zeros is not to be looked through
  obtain ⟨reuse, hreuse⟩ : ∃ reuse, min (keep / chunkSize) prev.length = reuse := ⟨_, rfl⟩
  rw [hreuse] at hprev hle
  rw [chunkHashes, hreuse, foldl_hashChunk _ _ _ _ (Nat.add_sub_cancel' hle).le, hprev, trueChunks]
  generalize (f.length + chunkSize - 1) / chunkSize = count at hle ⊢
  obtain ⟨rest, rfl⟩ := Nat.exists_eq_add_of_le hle
  rw [Nat.add_sub_cancel_left, range_eq_range', ← List.range'_append_1, Nat.zero_add, map_append,
    take_left' (by simp)]

end Viiwork.Kvshare
