import Viiwork.Kvshare.Plan

/-!
# Viiwork.Kvshare.Wire

A delta that `writeDelta` wrote is received as it was planned: the header is the plan's,
and each item comes with the bytes of the file behind what it keeps (`accepted_writeDelta`).
-/

namespace Viiwork.Kvshare

open Viiwork.Lib List

/-! ### The header -/

variable {a : Bytes} {n : Nat} {d : DeltaReader}

theorem slice_left (b : Bytes) (h : a.length = n) : slice (a ++ b) 0 n = a := by
  rw [slice, drop_zero, take_left' h]

theorem slice_right (b : Bytes) {k : Nat} (h : a.length = k) (off n : Nat) :
    slice (a ++ b) (k + off) n = slice b off n := by
  rw [slice, slice, ← drop_drop, drop_left' h]

theorem slice_all (h : a.length = n) : slice a 0 n = a := by
  rw [slice, drop_zero, take_of_length_le (le_of_eq h)]

/-- The header of a delta. -/
def deltaHead (p : Plan) : Bytes :=
  deltaMagic ++ (leBytes 8 p.size ++ (p.digest ++ (leBytes 8 p.model.toNat ++
    (leBytes 8 p.config.toNat ++ leBytes 8 p.items.length))))

theorem writeDelta_eq (r : Bytes) (p : Plan) :
    writeDelta r p = deltaHead p ++ p.items.flatMap (encodeItem r) := by
  simp only [writeDelta, deltaHead, append_assoc]

theorem length_deltaMagic : deltaMagic.length = 8 := by decide

theorem ofNat_leNat_leBytes (x : UInt64) : UInt64.ofNat (leNat (leBytes 8 x.toNat)) = x := by
  rw [leNat_leBytes x.toNat_lt, UInt64.ofNat_toNat]

/-- **The header that was written is read.** -/
theorem newDeltaReader_writeDelta (r : Bytes) (p : Plan) (fin : StreamEnd)
    (hdigest : p.digest.length = 32) (hsize : p.size < 2 ^ 63) (hitems : p.items.length ≤ 2 ^ 20) :
    newDeltaReader ⟨writeDelta r p, fin⟩ =
      .ok { br := ⟨p.items.flatMap (encodeItem r), fin⟩, left := p.items.length, built := 0,
            header := ⟨p.size, p.digest, p.model, p.config, p.items.length⟩ } := by
  have hlength : (deltaHead p).length = 72 := by
    simp [deltaHead, length_deltaMagic, hdigest]
  have hread := Stream.readFull_append (deltaHead p) (p.items.flatMap (encodeItem r)) fin
  rw [hlength] at hread
  -- the fields of the header, each behind those before it
  have hmagic : slice (deltaHead p) 0 8 = deltaMagic := slice_left _ length_deltaMagic
  have hfield : ∀ off n, slice (deltaHead p) (8 + off) n = _ :=
    fun off n => slice_right _ length_deltaMagic off n
  have hsz : slice (deltaHead p) 8 8 = leBytes 8 p.size := by
    rw [hfield 0 8, slice_left _ (length_leBytes 8 _)]
  have hdg : slice (deltaHead p) 16 32 = p.digest := by
    rw [hfield 8 32, slice_right _ (length_leBytes 8 _) 0 32, slice_left _ hdigest]
  have hmodel : slice (deltaHead p) 48 8 = leBytes 8 p.model.toNat := by
    rw [hfield 40 8, slice_right _ (length_leBytes 8 _) 32 8, slice_right _ hdigest 0 8,
      slice_left _ (length_leBytes 8 _)]
  have hconfig : slice (deltaHead p) 56 8 = leBytes 8 p.config.toNat := by
    rw [hfield 48 8, slice_right _ (length_leBytes 8 _) 40 8, slice_right _ hdigest 8 8,
      slice_right _ (length_leBytes 8 _) 0 8, slice_left _ (length_leBytes 8 _)]
  have hcount : slice (deltaHead p) 64 8 = leBytes 8 p.items.length := by
    rw [hfield 56 8, slice_right _ (length_leBytes 8 _) 48 8, slice_right _ hdigest 16 8,
      slice_right _ (length_leBytes 8 _) 8 8, slice_right _ (length_leBytes 8 _) 0 8,
      slice_all (length_leBytes 8 _)]
  rw [newDeltaReader, writeDelta_eq, hread]
  dsimp only [leAt]
  rw [hmagic, hsz, hdg, hmodel, hconfig, hcount, leNat_leBytes (by omega), leNat_leBytes (by omega),
    int64_of_lt hsize, ofNat_leNat_leBytes, ofNat_leNat_leBytes, failIf_neg (not_not.2 rfl), ok_bind,
    failIf_neg (by omega), ok_bind]
  rfl

/-! ### The items -/

/-- An item whose fields fit the stream's. -/
structure Item.Sendable (it : Item) : Prop where
  name : it.section_.length < 2 ^ 16
  len : it.len < 2 ^ 63
  keep : it.keep ≤ it.len
  framing : it.section_ = [] → it.keep = 0

theorem next_itemHead {it : Item} {rest : Bytes} {fin : StreamEnd} (hsend : it.Sendable)
    (hbr : d.br = ⟨itemHead it ++ rest, fin⟩) (hleft : d.left ≠ 0) (hoff : it.off = d.built)
    (hfits : d.built + it.len ≤ d.header.size) :
    d.next = .ok (it, { d with br := ⟨rest, fin⟩, left := d.left - 1, built := d.built + it.len }) := by
  have hname : d.br.readFull 2 = .ok (leBytes 2 it.section_.length,
      ⟨it.section_ ++ (leBytes 8 it.len ++ leBytes 8 it.keep ++ rest), fin⟩) := by
    have h := Stream.readFull_append (leBytes 2 it.section_.length)
      (it.section_ ++ (leBytes 8 it.len ++ leBytes 8 it.keep ++ rest)) fin
    rw [length_leBytes] at h
    rw [hbr, itemHead, ← h]
    simp only [append_assoc]
  have hfields : Stream.readFull ⟨leBytes 8 it.len ++ leBytes 8 it.keep ++ rest, fin⟩ 16 =
      .ok (leBytes 8 it.len ++ leBytes 8 it.keep, ⟨rest, fin⟩) := by
    have h := Stream.readFull_append (leBytes 8 it.len ++ leBytes 8 it.keep) rest fin
    rwa [length_append, length_leBytes, length_leBytes] at h
  have hlen : int64 (leAt (leBytes 8 it.len ++ leBytes 8 it.keep) 0 8) = it.len := by
    have := hsend.len
    rw [leAt, slice_left _ (length_leBytes 8 _), leNat_leBytes (by omega), int64_of_lt hsend.len]
  have hkeep : int64 (leAt (leBytes 8 it.len ++ leBytes 8 it.keep) 8 8) = it.keep := by
    have hlt := hsend.keep.trans_lt hsend.len
    rw [leAt, slice_right _ (length_leBytes 8 _) 0 8, slice_all (length_leBytes 8 _),
      leNat_leBytes (by omega), int64_of_lt hlt]
  have hok : ¬((it.len : Int) < 0 ∨ (it.keep : Int) < 0 ∨ (it.len : Int) < it.keep ∨
      (d.header.size : Int) - d.built < it.len ∨ (it.section_ = [] ∧ (it.keep : Int) ≠ 0)) := by
    have hk := hsend.keep
    rintro (h | h | h | h | ⟨hnil, hne⟩)
    · omega
    · omega
    · omega
    · omega
    · exact hne (by exact_mod_cast hsend.framing hnil)
  rw [DeltaReader.next, if_neg hleft, hname, ok_bind]
  dsimp only
  rw [leNat_leBytes hsend.name, Stream.readFull_append, ok_bind]
  dsimp only
  rw [hfields, ok_bind]
  dsimp only
  rw [hlen, hkeep, failIf_neg hok, ok_bind, ← hoff]
  rfl

/-- The new bytes of an item. -/
def dataOf (r : Bytes) (it : Item) : Bytes := slice r (it.off + it.keep) (it.len - it.keep)

theorem encodeItem_eq (r : Bytes) (it : Item) : encodeItem r it = itemHead it ++ dataOf r it := rfl

/-- **The items that were written are received**, each with its bytes, if the receiver
holds what they keep. -/
theorem receive_encode (r : Bytes) (fin : StreamEnd) {its : List Item}
    (hsend : ∀ it ∈ its, it.Sendable)
    (hvalid : ∀ it ∈ its, it.section_ ≠ [] → validKey it.section_ = true)
    (hnodup : ((its.map Item.section_).filter (· != [])).Nodup) {held : Name → Option Nat}
    (hbr : d.br = ⟨its.flatMap (encodeItem r), fin⟩) (hleft : d.left = its.length)
    (hcons : Consecutive d.built its d.header.size) (hsize : d.header.size ≤ r.length)
    (hkeep : ∀ it ∈ its, it.section_ ≠ [] → it.keep ≤ (held it.section_).getD 0) :
    receive (its.length + 1) d held = .ok (its.map fun it => (it, dataOf r it)) := by
  induction its generalizing d held with
  | nil =>
    have hdone : d.built = d.header.size := hcons
    rw [receive, DeltaReader.next, if_pos (show d.left = 0 from hleft), if_neg (not_not.2 hdone)]
    rfl
  | cons it its ih =>
    have hit := hsend it mem_cons_self
    have hend := hcons.2.inside.1
    rw [flatMap_cons, encodeItem_eq, append_assoc] at hbr
    have hnext := next_itemHead hit hbr (by rw [hleft]; exact Nat.succ_ne_zero _) hcons.1 hend
    have hdata : (dataOf r it).length = it.len - it.keep := by
      have := hit.keep
      have := hcons.1
      exact length_slice (by omega)
    have hrest : ∀ held', (∀ jt ∈ its, jt.section_ ≠ [] → jt.keep ≤ (held' jt.section_).getD 0) →
        ((its.map Item.section_).filter (· != [])).Nodup →
        receive (its.length + 1) ⟨⟨its.flatMap (encodeItem r), fin⟩, d.header, d.left - 1,
          d.built + it.len⟩ held' = .ok (its.map fun jt => (jt, dataOf r jt)) := by
      intro held' hheld hnodup'
      exact ih (fun jt hjt => hsend jt (mem_cons_of_mem it hjt))
        (fun jt hjt => hvalid jt (mem_cons_of_mem it hjt)) hnodup' rfl
        (by rw [hleft]; rfl) hcons.2 hsize hheld
    have hothers : ∀ jt ∈ its, jt.section_ ≠ [] → jt.keep ≤ (held jt.section_).getD 0 :=
      fun jt hjt => hkeep jt (mem_cons_of_mem it hjt)
    rw [length_cons, receive, hnext]
    dsimp only
    by_cases hname : it.section_ = []
    · have hcopy := Stream.copyN_append (dataOf r it) (its.flatMap (encodeItem r)) fin
      rw [hdata] at hcopy
      rw [map_cons, filter_cons_of_neg (by simp [hname])] at hnodup
      rw [if_pos hname, hcopy]
      dsimp only
      rw [hrest held hothers hnodup]
      rfl
    · rw [map_cons, filter_cons_of_pos (by simpa using hname), nodup_cons] at hnodup
      obtain ⟨hnew, hnodup⟩ := hnodup
      have hcopy := Stream.copyFull_append (dataOf r it) (its.flatMap (encodeItem r)) fin
      rw [hdata, Nat.cast_sub hit.keep] at hcopy
      have hheld := hkeep it mem_cons_self hname
      -- no other item is of this section
      have hupdate : ∀ jt ∈ its, jt.section_ ≠ [] →
          jt.keep ≤ (Function.update held it.section_ none jt.section_).getD 0 := by
        intro jt hjt hjname
        rw [Function.update_of_ne]
        · exact hothers jt hjt hjname
        · rintro heq
          refine hnew (mem_filter.2 ⟨mem_map.2 ⟨jt, hjt, heq⟩, ?_⟩)
          simpa using hname
      rw [if_neg hname, failIf_neg (by omega), ok_bind,
        failIf_neg (by simp [hvalid it mem_cons_self hname]), ok_bind, hcopy, ok_bind]
      dsimp only
      rw [hrest _ hupdate hnodup]
      rfl

end Viiwork.Kvshare
