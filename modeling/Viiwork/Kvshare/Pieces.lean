import Viiwork.Kvshare.Hashes

/-!
# Viiwork.Kvshare.Pieces

What a replica is for: a session file cut into **pieces**, framing and sections.
`Holds d items ps` says that a directory with these items holds the pieces `ps`; its
assembled file is then their concatenation, its manifest has the hashes of their blocks,
and the lengths a put or an engine delta reads off the items are theirs.
-/

namespace Viiwork.Kvshare

open Viiwork.Lib List

/-- Framing, with an empty name, or a section. -/
abbrev Piece := Name × Bytes

/-- The file that the pieces make. -/
def content (ps : List Piece) : Bytes := (ps.map Prod.snd).flatten

/-- The pieces that are sections. -/
def sectionsOf (ps : List Piece) : List Piece := ps.filter fun p => p.1 != []

/-- The item is the piece. -/
structure ItemHolds (d : Dir) (frames : Bytes) (it : ReplicaItem) (p : Piece) : Prop where
  name : it.section_ = p.1
  len : it.len = p.2.length
  framing : p.1 = [] → slice frames it.frame it.len = p.2
  file : p.1 ≠ [] → validKey p.1 = true ∧ d.sections p.1 = some p.2

/-- The directory holds the pieces, and no section twice. -/
structure Holds (d : Dir) (items : List ReplicaItem) (ps : List Piece) : Prop where
  frames : ∃ frames, d.frames = some frames ∧ List.Forall₂ (ItemHolds d frames) items ps
  nodup : ((sectionsOf ps).map Prod.fst).Nodup

variable {frames : Bytes} {p : Piece}

theorem pieceOf_eq {d : Dir} {it : ReplicaItem} (h : ItemHolds d frames it p) :
    pieceOf d frames it = .ok p.2 := by
  have hcopy : ∀ src : Bytes, src.take it.len = p.2 → copyOut src it.len = .ok p.2 := by
    intro src hsrc
    have hlen : ¬(src.take it.len).length ≠ it.len := by rw [hsrc, h.len]; exact fun h => h rfl
    rw [copyOut, failIf_neg hlen, ← hsrc]
    rfl
  unfold pieceOf
  by_cases hname : p.1 = []
  · rw [if_pos (h.name.trans hname)]
    exact hcopy _ (h.framing hname)
  · obtain ⟨hvalid, hfile⟩ := h.file hname
    rw [if_neg (h.name ▸ hname), h.name, open_eq hvalid hfile]
    exact hcopy _ (by rw [h.len, take_length])

/-- **The assembled file is the pieces.** -/
theorem Holds.assemble {d : Dir} {items : List ReplicaItem} {ps : List Piece}
    (h : Holds d items ps) : assemble d items = .ok (content ps) := by
  obtain ⟨frames, hframes, hitems⟩ := h.frames
  have hpieces : items.mapM (pieceOf d frames) = .ok (ps.map Prod.snd) :=
    mapM_eq_ok_iff.2 (forall₂_map_right_iff.2 (hitems.imp fun _ _ h => pieceOf_eq h))
  unfold Kvshare.assemble
  rw [hframes]
  dsimp only [opened, bind, Except.bind]
  rw [hpieces]
  rfl

/-! ### The sections -/

variable {d : Dir} {items : List ReplicaItem} {ps : List Piece}

theorem sectionItems_forall₂ (h : List.Forall₂ (ItemHolds d frames) items ps) :
    List.Forall₂ (ItemHolds d frames) (sectionItems items) (sectionsOf ps) := by
  induction h with
  | nil => exact .nil
  | @cons it p items ps hit _ ih =>
    by_cases hname : p.1 = []
    · rw [sectionItems, sectionsOf, filter_cons_of_neg (by simp [hit.name, hname]),
        filter_cons_of_neg (by simp [hname])]
      exact ih
    · rw [sectionItems, sectionsOf, filter_cons_of_pos (by simp [hit.name, hname]),
        filter_cons_of_pos (by simp [hname])]
      exact .cons hit ih

theorem mem_sectionsOf : p ∈ sectionsOf ps ↔ p ∈ ps ∧ p.1 ≠ [] := by
  simp [sectionsOf]

/-- The names and lengths of the section items. -/
theorem Holds.sectionItems_eq (h : Holds d items ps) :
    (sectionItems items).map (fun it => (it.section_, it.len)) =
      (sectionsOf ps).map fun p => (p.1, p.2.length) := by
  obtain ⟨frames, -, hitems⟩ := h.frames
  have hsections := sectionItems_forall₂ hitems
  refine forall₂_eq_eq_eq ▸ ?_
  rw [forall₂_map_left_iff, forall₂_map_right_iff]
  exact hsections.imp fun it p hit => Prod.ext hit.name hit.len

/-- A section of the replica is one of the pieces, whole. -/
theorem Holds.file (h : Holds d items ps) (hp : p ∈ sectionsOf ps) :
    validKey p.1 = true ∧ d.sections p.1 = some p.2 := by
  obtain ⟨frames, -, hitems⟩ := h.frames
  have hsections := sectionItems_forall₂ hitems
  obtain ⟨i, hi, rfl⟩ := getElem_of_mem hp
  have hit := (forall₂_iff_get.1 hsections).2 i (by rw [hsections.length_eq]; exact hi) hi
  exact hit.file (mem_sectionsOf.1 hp).2

/-- The lengths read off the items. -/
theorem Holds.heldLens_eq (h : Holds d items ps) (name : Name) :
    heldLens items name =
      (lastWith Prod.fst name (sectionsOf ps)).map fun p => p.2.length := by
  have hpairs := congrArg (fun l => (lastWith Prod.fst name l).map Prod.snd) h.sectionItems_eq
  simpa [lastWith_map, heldLens, Function.comp_def] using hpairs

/-! ### The manifest -/

variable (sha : Sha256)

/-- The manifest of a replica that holds the pieces. -/
def manifestFor (st : ReplicaState) (ps : List Piece) : Manifest where
  model := st.model
  config := st.config
  size := st.size
  sections := (sectionsOf ps).map fun p => ⟨p.1, p.2.length, trueBlocks sha p.2⟩
  saveID := st.saveID

/-- **The manifest is the one of the pieces**, whatever hashes were reused. -/
theorem Holds.manifestOf {st : ReplicaState} (h : Holds d st.items ps) {keeps : Name → Nat}
    {prev : Name → Bytes}
    (hprev : ∀ p ∈ sectionsOf ps, Reusable sha p.2 (keeps p.1) (prev p.1)) :
    manifestOf sha d st keeps prev = .ok (manifestFor sha st ps) := by
  obtain ⟨frames, -, hitems⟩ := h.frames
  obtain ⟨hlength, hzip⟩ := forall₂_iff_zip.1 (sectionItems_forall₂ hitems)
  have hsections : (sectionItems st.items).mapM (fun it => do
      let blocks ← hashSection sha d it.section_ (keeps it.section_) it.len (prev it.section_)
      return SectionManifest.mk it.section_ it.len blocks) =
      .ok ((sectionsOf ps).map fun p => ⟨p.1, p.2.length, trueBlocks sha p.2⟩) := by
    rw [mapM_eq_ok_iff, forall₂_map_right_iff, forall₂_iff_zip]
    refine ⟨hlength, fun {it p} hmem => ?_⟩
    have hp := (of_mem_zip hmem).2
    have hit := hzip hmem
    obtain ⟨hvalid, hfile⟩ := h.file hp
    rw [hit.name, hit.len, hashSection_eq sha hvalid hfile (hprev p hp)]
    rfl
  unfold Kvshare.manifestOf
  rw [hsections]
  rfl

theorem prevBlocks_manifestFor (st : ReplicaState) (ps : List Piece) (name : Name) :
    prevBlocks (some (manifestFor sha st ps)) name =
      match lastWith Prod.fst name (sectionsOf ps) with
      | some p => trueBlocks sha p.2
      | none => [] := by
  unfold prevBlocks manifestFor
  rw [Option.bind_some, lastWith_map]
  simp only [Function.comp_def]
  cases lastWith Prod.fst name (sectionsOf ps) <;> rfl

/-! ### The chunks -/

/-- The chunk hashes of the pieces that are K/V sections. -/
def chunksFor (ps : List Piece) : Chunks := fun name =>
  (lastWith Prod.fst name ((sectionsOf ps).filter fun p => isKVSection p.1)).map
    fun p => trueChunks p.2

/-- Among distinct sections, a K/V section has its own chunk hashes and no other has any. -/
theorem chunksFor_of_mem (hnodup : ((sectionsOf ps).map Prod.fst).Nodup) (hp : p ∈ sectionsOf ps) :
    chunksFor ps p.1 = if isKVSection p.1 then some (trueChunks p.2) else none := by
  unfold chunksFor
  by_cases hkv : isKVSection p.1 = true
  · have hsub := (filter_sublist (p := fun p : Piece => isKVSection p.1)
      (l := sectionsOf ps)).map Prod.fst
    rw [lastWith_of_mem (hnodup.sublist hsub) (mem_filter.2 ⟨hp, hkv⟩), if_pos hkv,
      Option.map_some]
  · have hnone : lastWith Prod.fst p.1 ((sectionsOf ps).filter fun p => isKVSection p.1) = none := by
      refine lastWith_eq_none_iff.2 fun q hq heq => hkv ?_
      exact heq ▸ (mem_filter.1 hq).2
    rw [hnone, if_neg hkv, Option.map_none]

theorem chunksOf_step {it : ReplicaItem} (hit : ItemHolds d frames it p) (hp : p.1 ≠ []) :
    d.open_ it.section_ = .ok p.2 ∧ chunkHashes p.2 0 it.len [] = trueChunks p.2 := by
  obtain ⟨hvalid, hfile⟩ := hit.file hp
  refine ⟨hit.name ▸ open_eq hvalid hfile, ?_⟩
  rw [hit.len]
  exact chunkHashes_eq (by simp) (by simp)

/-- **The chunk hashes are those of the pieces.** -/
theorem Holds.chunksOf (h : Holds d items ps) : chunksOf d items = .ok (chunksFor ps) := by
  obtain ⟨frames, -, hitems⟩ := h.frames
  have hnames : ∀ p ∈ sectionsOf ps, p.1 ≠ [] := fun p hp => (mem_sectionsOf.1 hp).2
  have hfold : chunksFor ps =
      ((sectionsOf ps).filter fun p => isKVSection p.1).foldl
        (fun (m : Chunks) p => Function.update m p.1 (some (trueChunks p.2))) fun _ => none := by
    funext name
    rw [foldl_update_apply, Option.or_none]
    rfl
  rw [hfold, Kvshare.chunksOf]
  -- one item after the other, from any chunks gathered before
  generalize (fun _ : Name => (none : Option (List UInt64))) = chunks
  have hsections := sectionItems_forall₂ hitems
  generalize sectionItems items = its at hsections
  generalize sectionsOf ps = qs at hsections hnames
  induction hsections generalizing chunks with
  | nil => rfl
  | @cons it p its qs hit _ ih =>
    obtain ⟨hopen, hhashes⟩ := chunksOf_step hit (hnames p mem_cons_self)
    rw [foldlM_cons, hit.name]
    by_cases hkv : isKVSection p.1 = true
    · rw [if_pos hkv, filter_cons_of_pos (p := fun p : Piece => isKVSection p.1) hkv,
        foldl_cons, ← hit.name, hopen]
      dsimp only [bind, Except.bind, pure, Except.pure]
      rw [hhashes]
      exact ih _ fun q hq => hnames q (mem_cons_of_mem p hq)
    · rw [if_neg hkv, filter_cons_of_neg (p := fun p : Piece => isKVSection p.1) hkv]
      exact ih _ fun q hq => hnames q (mem_cons_of_mem p hq)

end Viiwork.Kvshare
