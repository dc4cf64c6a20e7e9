import Viiwork.Kvshare.RoundTrip

/-!
# Viiwork.Kvshare.Tiling

What `ParseLayout` and `Diff` promise about any file and any manifest: the sections of a layout are
apart, their number is bounded by the payload and not by the counts in it, and the items of a plan
tile the file. Neither the bytes nor the manifest have to be honest.
-/

namespace Viiwork.Kvshare

open Viiwork.Lib List

/-! ### The size of a payload -/

/-- The bytes that a field takes at the least. -/
def Field.least : Field → Nat
  | .skip n => n
  | .count _ => 8
  | .vec _ _ => 8

theorem least_le {fs : List Field} {vs : List Bytes} (h : List.Forall₂ Field.Fits fs vs) :
    (fs.map Field.least).sum ≤ (encodeAll fs vs).length := by
  induction h with
  | nil => exact le_rfl
  | @cons f v fs vs hfits _ ih =>
    rw [map_cons, sum_cons, encodeAll_cons, length_append]
    refine Nat.add_le_add ?_ ih
    cases f with
    | skip n => exact (show v.length = n from hfits).ge
    | count n =>
      obtain ⟨rfl, -⟩ := hfits
      simp [Field.least, Field.encode]
    | vec name elem => simp [Field.least, Field.encode]

theorem least_flatMap {fields : Nat → List Field} {k : Nat}
    (h : ∀ i, ((fields i).map Field.least).sum = k) (n : Nat) :
    (((List.range n).flatMap fields).map Field.least).sum = n * k := by
  induction n with
  | zero => simp
  | succ n ih => simp [range_succ, ih, h, Nat.add_mul]

/-- A checkpoint takes 64 bytes and a layer 96, whatever is in them. -/
theorem least_schema (nckpt nkv : Nat) :
    ((schema nckpt nkv).map Field.least).sum = 248 + nckpt * 64 + nkv * 96 := by
  have hckpt : ∀ tag, ((checkpointFields tag).map Field.least).sum = 64 := fun _ => rfl
  have hlayer : ∀ i, ((layerFields i).map Field.least).sum = 96 := fun _ => rfl
  simp only [schema, map_append, map_cons, sum_append, sum_cons, Field.least,
    hckpt, least_flatMap fun i => hckpt (ckptTag i), least_flatMap hlayer]
  omega

/-! ### What a plan keeps -/

theorem keepOf_blocks (sha : Sha256) {r : Bytes} {l : Layout} (base : Option Manifest) {s : Section}
    (hs : s.off + s.len ≤ r.length) :
    ∃ k, keepOf sha r l base s = .ok k ∧ k ≤ s.len ∧ blockSize ∣ k := by
  unfold keepOf
  cases baseSec l base s.name with
  | none => exact ⟨0, rfl, Nat.zero_le _, dvd_zero _⟩
  | some bs =>
    obtain ⟨n, hn, -, hlen, -⟩ := matching_spec sha bs hs bs.count 0 (by simp)
    exact ⟨n * blockSize, by simp [hn], hlen, Nat.dvd_mul_left _ _⟩

/-- **Layouts and plans**, of any file that is accepted and against any manifest. The walk over the
payload makes a step for each checkpoint and each layer. -/
theorem diff_tiles (sha : Sha256) (stale : Nat → Bytes) {f : Bytes} {l : Layout}
    (h : parseLayout f f.length = .ok l) (base : Option Manifest) :
    (l.sections.map Section.name).Nodup ∧
      Ordered sessHeader l.sections (sessHeader + l.payload) ∧
      (∃ nckpt nkv, l.sections.map Section.name = names (schema nckpt nkv) ∧
        1 + nckpt + nkv ≤ l.payload / 64) ∧
      ∃ p, diff sha stale f l base = .ok p ∧ Consecutive 0 p.items l.size ∧
        (∀ it ∈ p.items, it.keep ≤ it.len ∧ blockSize ∣ it.keep ∧
          (it.section_ = [] → it.keep = 0)) ∧
        p.data = (p.items.map fun it => (encodeItem f it).length - (itemHead it).length).sum := by
  obtain ⟨nckpt, nkv, vs, hparsed, hpayload⟩ := parseLayout_ok h
  have hordered := sectionsAt_ordered hparsed.fits sessHeader
  rw [← hparsed.sections, ← hpayload] at hordered
  have hsteps := least_le hparsed.fits
  rw [← hpayload, least_schema] at hsteps
  refine ⟨hparsed.nodup, hordered, ⟨nckpt, nkv, hparsed.names, by omega⟩, ?_⟩
  have hinside := hparsed.ordered.inside.2
  rw [hparsed.size] at hinside
  have hkeep := fun s hs => keepOf_blocks sha (l := l) base (hinside s hs).2
  choose! keep hkeep hle hdvd using hkeep
  have hplan : Consecutive 0 (planWith sha stale f l keep).items l.size :=
    planWith_consecutive hparsed
  have hitems : ∀ it ∈ (planWith sha stale f l keep).items, it.keep ≤ it.len ∧
      blockSize ∣ it.keep ∧ (it.section_ = [] → it.keep = 0) := by
    intro it hit
    rcases mem_planWith hit with ⟨hframing, hzero⟩ | ⟨t, ht, rfl⟩
    · exact ⟨by omega, hzero ▸ dvd_zero _, fun _ => hzero⟩
    · exact ⟨hle t ht, hdvd t ht, fun hname => absurd hname (name_ne_nil hparsed t ht)⟩
  refine ⟨_, diff_eq hkeep, hplan, hitems, congrArg List.sum (map_congr_left fun it hit => ?_)⟩
  have hin := hplan.inside.2 it hit
  rw [hparsed.size] at hin
  have hdata : (dataOf f it).length = it.len - it.keep := by
    have hkept := (hitems it hit).1
    exact length_slice (by omega)
  rw [encodeItem_eq, length_append, hdata, Nat.add_sub_cancel_left]

theorem diff_tiles_tiny : ∃ l, parseLayout (tinySession []) (tinySession []).length = .ok l ∧
    (l.sections.map Section.name).Nodup := by
  obtain ⟨l, hl, -⟩ := exists_layout (by decide +kernel : pushable (tinySession []) = true)
  exact ⟨l, hl, (diff_tiles zeroSha (fun _ => []) hl none).1⟩

end Viiwork.Kvshare
