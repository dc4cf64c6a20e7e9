import Viiwork.Kvshare.Deliver

/-!
# Viiwork.Kvshare.Plan

The plan of a session file. The sections of a layout lie in order (`Ordered`), so the
items of a plan follow one another from the first byte to the last (`Consecutive`) and
the pieces of the file they are make it up. What a plan keeps of a section is a prefix of
whole blocks whose hashes the receiver's manifest has.
-/

namespace Viiwork.Kvshare

open Viiwork.Lib List

/-! ### The sections lie in order -/

/-- The sections lie between `pos` and `stop` one after the other. -/
def Ordered : Nat → List Section → Nat → Prop
  | pos, [], stop => pos ≤ stop
  | pos, s :: ss, stop => pos ≤ s.off ∧ Ordered (s.off + s.len) ss stop

variable {pos stop off size : Nat} {ss : List Section} {s : Section} {its : List Item}
  {keeps : List Nat}

theorem Ordered.mono {pos' : Nat} (hpos : pos ≤ pos') (h : Ordered pos' ss stop) :
    Ordered pos ss stop := by
  cases ss with
  | nil => exact hpos.trans h
  | cons s ss => exact ⟨hpos.trans h.1, h.2⟩

theorem Ordered.le {stop' : Nat} (hstop : stop ≤ stop') :
    ∀ {pos : Nat}, Ordered pos ss stop → Ordered pos ss stop' := by
  induction ss with
  | nil => exact fun h => h.trans hstop
  | cons s ss ih => exact fun h => ⟨h.1, ih h.2⟩

theorem Ordered.inside :
    ∀ {pos : Nat}, Ordered pos ss stop → pos ≤ stop ∧ ∀ s ∈ ss, pos ≤ s.off ∧ s.off + s.len ≤ stop := by
  induction ss with
  | nil => exact fun h => ⟨h, fun s hs => nomatch hs⟩
  | cons s ss ih =>
    intro pos h
    obtain ⟨hle, hrest⟩ := ih h.2
    have hpos := h.1
    refine ⟨by omega, fun t ht => ?_⟩
    rcases mem_cons.1 ht with rfl | ht
    · exact ⟨hpos, hle⟩
    · have := hrest t ht
      omega

variable {fs : List Field} {it : Item} {f : Bytes}

theorem sectionsAt_ordered {vs : List Bytes} (h : List.Forall₂ Field.Fits fs vs) (p : Nat) :
    Ordered p (sectionsAt p fs vs) (p + (encodeAll fs vs).length) := by
  induction h generalizing p with
  | nil => exact Nat.le_add_right p 0
  | @cons f v fs vs _ _ ih =>
    cases f with
    | skip | count =>
      refine ((ih (p + v.length)).mono (Nat.le_add_right p _)).le (le_of_eq ?_)
      simp [Field.encode, Nat.add_assoc]
    | vec name elem =>
      refine ⟨Nat.le_add_right p 8, (ih (p + 8 + v.length)).le (le_of_eq ?_)⟩
      simp [Field.encode, Nat.add_assoc]

theorem map_name_sectionsAt {vs : List Bytes} (h : fs.length = vs.length) (p : Nat) :
    (sectionsAt p fs vs).map Section.name = names fs := by
  induction fs generalizing vs p with
  | nil => rfl
  | cons f fs ih =>
    cases vs with
    | nil => cases h
    | cons v vs =>
      have hlen : fs.length = vs.length := Nat.succ.inj h
      cases f with
      | skip | count => exact ih hlen _
      | vec name elem => exact congrArg (name :: ·) (ih hlen _)

variable {r : Bytes} {l : Layout} {nckpt nkv : Nat} {vs : List Bytes}

section

variable (h : Parsed r l nckpt nkv vs)
include h

theorem Parsed.ordered : Ordered 0 l.sections l.size := by
  rw [h.sections, h.size]
  refine ((sectionsAt_ordered h.fits sessHeader).mono (Nat.zero_le _)).le ?_
  rw [h.length]
  exact Nat.le_add_right _ _

theorem Parsed.names : l.sections.map Section.name = names (schema nckpt nkv) := by
  rw [h.sections, map_name_sectionsAt h.fits.length_eq]

theorem Parsed.nodup : (l.sections.map Section.name).Nodup := by
  rw [h.names]
  exact nodup_names nckpt nkv

theorem Parsed.valid (hs : s ∈ l.sections) : validKey s.name = true := by
  refine validKey_of_mem_names h.nckpt_lt h.nkv_lt ?_
  rw [← h.names]
  exact mem_map_of_mem hs

end

/-! ### The items follow one another -/

def Consecutive : Nat → List Item → Nat → Prop
  | pos, [], stop => pos = stop
  | pos, it :: its, stop => it.off = pos ∧ Consecutive (pos + it.len) its stop

theorem Consecutive.inside :
    ∀ {pos : Nat}, Consecutive pos its stop →
      pos ≤ stop ∧ ∀ it ∈ its, it.off + it.len ≤ stop := by
  induction its with
  | nil => exact fun h => ⟨le_of_eq h, fun it hit => nomatch hit⟩
  | cons it its ih =>
    rintro pos ⟨rfl, h⟩
    obtain ⟨hle, hrest⟩ := ih h
    refine ⟨by omega, fun jt hjt => ?_⟩
    rcases mem_cons.1 hjt with rfl | hjt
    · exact hle
    · exact hrest jt hjt

theorem Consecutive.append {mid : Nat} {jts : List Item} (h : Consecutive mid jts stop) :
    ∀ {pos : Nat}, Consecutive pos its mid → Consecutive pos (its ++ jts) stop := by
  induction its with
  | nil => exact fun hpos => hpos ▸ h
  | cons it its ih => exact fun hpos => ⟨hpos.1, ih hpos.2⟩

theorem framing_consecutive (h : pos ≤ off) : Consecutive pos (framing pos off) off := by
  unfold framing
  split
  · exact ⟨rfl, Nat.add_sub_cancel' h⟩
  · exact Nat.le_antisymm h (by omega)

theorem planItems_consecutive (hlen : ss.length = keeps.length) :
    ∀ {pos : Nat}, Ordered pos ss size → Consecutive pos (planItems size pos ss keeps) size := by
  induction ss generalizing keeps with
  | nil => exact fun h => framing_consecutive h
  | cons s ss ih =>
    intro pos h
    cases keeps with
    | nil => cases hlen
    | cons keep keeps =>
      have hrest : Consecutive s.off (⟨s.name, s.off, s.len, keep⟩ ::
          planItems size (s.off + s.len) ss keeps) size := ⟨rfl, ih (Nat.succ.inj hlen) h.2⟩
      rw [planItems]
      exact hrest.append (framing_consecutive h.1)

/-- **The pieces of consecutive items make up the file.** -/
theorem flatten_consecutive (r : Bytes) :
    ∀ {pos : Nat}, Consecutive pos its stop →
      (its.map fun it => slice r it.off it.len).flatten = slice r pos (stop - pos) := by
  induction its with
  | nil =>
    rintro pos rfl
    simp [slice]
  | cons it its ih =>
    rintro pos ⟨rfl, h⟩
    have hle := h.inside.1
    have hsum : stop - it.off = it.len + (stop - (it.off + it.len)) := by omega
    rw [map_cons, flatten_cons, ih h, hsum, slice_add]

theorem mem_framing (h : it ∈ framing pos off) : it.section_ = [] ∧ it.keep = 0 := by
  unfold framing at h
  split at h
  · rw [mem_singleton.1 h]
    exact ⟨rfl, rfl⟩
  · cases h

/-- An item is framing or a section with what is kept of it. -/
theorem mem_planItems :
    ∀ {pos : Nat}, it ∈ planItems size pos ss keeps →
      (it.section_ = [] ∧ it.keep = 0) ∨
        ∃ s keep, (s, keep) ∈ ss.zip keeps ∧ it = ⟨s.name, s.off, s.len, keep⟩ := by
  induction ss generalizing keeps with
  | nil => exact fun h => .inl (mem_framing h)
  | cons s ss ih =>
    intro pos h
    cases keeps with
    | nil => exact .inl (mem_framing h)
    | cons keep keeps =>
      rw [planItems, mem_append, mem_cons] at h
      rcases h with h | rfl | h
      · exact .inl (mem_framing h)
      · exact .inr ⟨s, keep, mem_cons_self, rfl⟩
      · refine (ih h).imp_right ?_
        rintro ⟨t, k, hmem, hit⟩
        exact ⟨t, k, mem_cons_of_mem _ hmem, hit⟩

/-- The piece of the file that an item is. -/
def planPiece (r : Bytes) (it : Item) : Piece := (it.section_, slice r it.off it.len)

theorem sectionsOf_framing (r : Bytes) (pos off : Nat) :
    sectionsOf ((framing pos off).map (planPiece r)) = [] := by
  unfold framing
  split <;> simp [sectionsOf, planPiece]

/-- The sections among the pieces are those of the layout. -/
theorem sectionsOf_planItems (r : Bytes) (hlen : ss.length = keeps.length)
    (hnames : ∀ s ∈ ss, s.name ≠ []) (pos : Nat) :
    sectionsOf ((planItems size pos ss keeps).map (planPiece r)) =
      ss.map fun s => (s.name, slice r s.off s.len) := by
  induction ss generalizing keeps pos with
  | nil => exact sectionsOf_framing r pos size
  | cons s ss ih =>
    cases keeps with
    | nil => cases hlen
    | cons keep keeps =>
      have hs : planPiece r ⟨s.name, s.off, s.len, keep⟩ = (s.name, slice r s.off s.len) := rfl
      have hrest := ih (Nat.succ.inj hlen)
        (fun t ht => hnames t (mem_cons_of_mem s ht)) (s.off + s.len)
      have hframing := sectionsOf_framing r pos s.off
      rw [sectionsOf] at hrest hframing ⊢
      rw [planItems, map_append, filter_append, hframing, nil_append, map_cons,
        filter_cons_of_pos (by simpa [hs] using hnames s mem_cons_self), hrest, hs,
        map_cons]

theorem names_planItems (hlen : ss.length = keeps.length) (hnames : ∀ s ∈ ss, s.name ≠ [])
    (pos : Nat) :
    ((planItems size pos ss keeps).map Item.section_).filter (· != []) = ss.map Section.name := by
  have h : (sectionsOf ((planItems size pos ss keeps).map (planPiece []))).map Prod.fst = _ :=
    congrArg (List.map Prod.fst) (sectionsOf_planItems [] hlen hnames pos)
  rw [sectionsOf, filter_map, map_map, map_map] at h
  rw [filter_map]
  exact h

/-- How many items a plan has does not depend on what it keeps. -/
theorem length_planItems {keeps' : List Nat} (hlen : keeps.length = keeps'.length) (pos : Nat) :
    (planItems size pos ss keeps).length = (planItems size pos ss keeps').length := by
  induction ss generalizing keeps keeps' pos with
  | nil => rfl
  | cons s ss ih =>
    cases keeps with
    | nil =>
      cases keeps' with
      | nil => rfl
      | cons keep' keeps' => cases hlen
    | cons keep keeps =>
      cases keeps' with
      | nil => cases hlen
      | cons keep' keeps' =>
        simp only [planItems, length_append, length_cons, ih (Nat.succ.inj hlen)]

/-! ### What is kept -/

variable (sha : Sha256)

/-- The blocks counted match the receiver's, and the section has them. -/
theorem matching_spec (bs : SectionManifest) (hs : s.off + s.len ≤ r.length) (fuel b : Nat)
    (hb : b * blockSize ≤ s.len) :
    ∃ n, matching sha r s bs fuel b = .ok n ∧ n ≤ b + fuel ∧ n * blockSize ≤ s.len ∧
      ∀ j, b ≤ j → j < n →
        blockHash sha (slice r (s.off + j * blockSize) blockSize) = bs.block j := by
  induction fuel generalizing b with
  | zero => exact ⟨b, rfl, le_rfl, hb, fun j hj hn => absurd hn (by omega)⟩
  | succ fuel ih =>
    rw [matching]
    by_cases hfits : (b + 1) * blockSize ≤ s.len
    · have hroom : s.off + b * blockSize + blockSize ≤ r.length := by
        rw [Nat.add_mul, Nat.one_mul] at hfits
        omega
      rw [if_pos hfits, readAt_ok hroom, ok_bind]
      by_cases hhash : blockHash sha (slice r (s.off + b * blockSize) blockSize) ≠ bs.block b
      · rw [if_pos hhash]
        exact ⟨b, rfl, by omega, hb, fun j hj hn => absurd hn (by omega)⟩
      · rw [if_neg hhash]
        obtain ⟨n, hn, hle, hlen, hblocks⟩ := ih (b + 1) hfits
        refine ⟨n, hn, by omega, hlen, fun j hj hjn => ?_⟩
        rcases Nat.eq_or_lt_of_le hj with rfl | hlt
        · exact not_not.1 hhash
        · exact hblocks j hlt hjn
    · rw [if_neg hfits]
      exact ⟨b, rfl, by omega, hb, fun j hj hn => absurd hn (by omega)⟩

theorem block_trueBlocks {name : Name} {len j : Nat} (hj : j < f.length / blockSize) :
    SectionManifest.block ⟨name, len, trueBlocks sha f⟩ j = blockHash sha (block blockSize j f) :=
  block_flatMap_range (fun i => length_blockHash sha (block blockSize i f)) hj

theorem block_slice {len j n : Nat} (hj : (j + 1) * n ≤ len) :
    block n j (slice r off len) = slice r (off + j * n) n := by
  rw [Nat.add_mul, Nat.one_mul] at hj
  rw [block, slice, slice, drop_take, take_take, drop_drop, min_eq_left (by omega)]

/-- **What is kept is a common prefix** of the new section and of the receiver's copy, if
blocks of the two with one hash are one block. -/
theorem keepOf_spec {base : Option Manifest} {bs : SectionManifest} (hs : s.off + s.len ≤ r.length)
    (hbase : baseSec l base s.name = some bs) (hblocks : bs.blocks = trueBlocks sha f)
    (hinj : ∀ j, (j + 1) * blockSize ≤ s.len → (j + 1) * blockSize ≤ f.length →
      blockHash sha (slice r (s.off + j * blockSize) blockSize) = blockHash sha (block blockSize j f) →
      slice r (s.off + j * blockSize) blockSize = block blockSize j f) :
    ∃ k, keepOf sha r l base s = .ok k ∧ k ≤ s.len ∧ k ≤ f.length ∧
      f.take k = (slice r s.off s.len).take k := by
  obtain ⟨name, len, blocks⟩ := bs
  obtain rfl : blocks = trueBlocks sha f := hblocks
  have hcount : SectionManifest.count ⟨name, len, trueBlocks sha f⟩ = f.length / blockSize := by
    rw [SectionManifest.count, length_trueBlocks, Nat.mul_div_cancel _ (by norm_num)]
  obtain ⟨n, hn, hle, hlen, hhashes⟩ :=
    matching_spec sha ⟨name, len, trueBlocks sha f⟩ hs (f.length / blockSize) 0 (by simp)
  rw [Nat.zero_add] at hle
  have hheld : n * blockSize ≤ f.length :=
    (Nat.mul_le_mul_right _ hle).trans (Nat.div_mul_le_self _ _)
  refine ⟨n * blockSize, ?_, hlen, hheld, ?_⟩
  · rw [keepOf, hbase]
    dsimp only
    rw [hcount, hn]
    rfl
  · refine take_eq_of_blocks fun j hj => ?_
    have hblock : ∀ m, n * blockSize ≤ m → (j + 1) * blockSize ≤ m :=
      fun m hm => (Nat.mul_le_mul_right _ (Nat.succ_le_of_lt hj)).trans hm
    have hhash := hhashes j (Nat.zero_le j) hj
    rw [block_trueBlocks sha (by omega)] at hhash
    rw [block_slice (hblock _ hlen)]
    exact (hinj j (hblock _ hlen) (hblock _ hheld) hhash).symm

end Viiwork.Kvshare
