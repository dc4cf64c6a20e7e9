import Viiwork.Kvshare.Stream
import Viiwork.Lib.Prog

/-!
# Viiwork.Kvshare.Sessfile

The layout of a Strata session file (`sessfile.go`): a 64-byte header, the payload, a
16-byte trailer. `parseLayout` walks the payload without reading the sections' bytes.

`Walked` says what a walk went over: fields of the format with their values, and the
sections recorded on the way. A file that `parseLayout` accepts is thus a header, the
encoding of some payload, and a trailer (`parseLayout_ok`).
-/

namespace Viiwork.Kvshare

open Viiwork.Lib List

def sessMagic : Bytes := ascii "STRSESS" ++ [1]
def sessVersion : Nat := 1
def sessHeader : Nat := 64
/-- The payload's hash and the end marker. -/
def sessTrailer : Nat := 16

/-- One named byte range of a session file. -/
structure Section where
  name : Name
  off : Nat
  len : Nat
  deriving Repr, DecidableEq

structure Layout where
  size : Nat
  model : UInt64
  config : UInt64
  payload : Nat
  sections : List Section
  deriving Repr, DecidableEq

/-- The little-endian number in the `w` bytes at `off`. -/
def leAt (b : Bytes) (off w : Nat) : Nat := leNat (slice b off w)

theorem leAt_lt (b : Bytes) (off w : Nat) : leAt b off w < 256 ^ w :=
  (leNat_lt _).trans_le (Nat.pow_le_pow_right (by norm_num) (length_take_le _ _))

/-! ### The walker -/

/-- Its `err` field is the error of the `Except` it runs in; `stop` is its `end`. -/
structure Walker where
  p : Nat
  stop : Nat
  out : List Section

namespace Walker

def skip (n : Nat) (w : Walker) : Except Err Walker :=
  if w.stop - w.p < n then .error (.fieldPastPayload n w.p) else .ok { w with p := w.p + n }

def u64 (r : Bytes) (w : Walker) : Except Err (Nat × Walker) := do
  failIf (w.stop - w.p < 8) (.countPastPayload w.p)
  let b ← readAt r w.p 8
  return (leNat b, { w with p := w.p + 8 })

/-- A count followed by `count * elem` bytes, recorded as a section. -/
def vec (r : Bytes) (name : Name) (elem : Nat) (w : Walker) : Except Err Walker := do
  let (n, w) ← w.u64 r
  failIf (elem ≠ 0 ∧ (w.stop - w.p) / elem < n) (.elementsPastPayload name n)
  return { w with out := w.out ++ [⟨name, w.p, n * elem⟩], p := w.p + n * elem }

def checkpoint (r : Bytes) (tag : Bytes) (w : Walker) : Except Err Walker := do
  let w ← w.vec r (named tag "ids") 4
  -- (start i64, hash u64) pairs
  let w ← w.vec r (named tag "imgs") 16
  let w ← stateParts.foldlM (fun w part => w.vec r (named tag part) 1) w
  w.skip 8

/-- `n` checkpoints from the `i`-th on. -/
def checkpoints (r : Bytes) : Nat → Nat → Walker → Except Err Walker
  | 0, _, w => .ok w
  | n + 1, i, w => do
      let w ← w.checkpoint r (ckptTag i)
      checkpoints r n (i + 1) w

def layer (r : Bytes) (i : Nat) (w : Walker) : Except Err Walker := do
  let w ← w.skip (7 * 8)
  kvParts.foldlM (fun w part => w.vec r (named (kvTag i) part) 1) w

def layers (r : Bytes) : Nat → Nat → Walker → Except Err Walker
  | 0, _, w => .ok w
  | n + 1, i, w => do
      let w ← w.layer r i
      layers r n (i + 1) w

/-- The whole payload. -/
def payload (r : Bytes) (w : Walker) : Except Err Walker := do
  let w ← w.skip (18 * 8 + 3 * 8)
  let w ← w.checkpoint r (ascii "live")
  let (n, w) ← w.u64 r
  let w ← w.checkpoints r n 0
  let (nkv, w) ← w.u64 r
  w.layers r nkv 0

end Walker

def parseLayout (r : Bytes) (size : Nat) : Except Err Layout := do
  failIf (size < sessHeader + sessTrailer) .tooShort
  let h ← readAt r 0 sessHeader
  failIf (slice h 0 8 ≠ sessMagic) .notSession
  failIf (leAt h 8 4 ≠ sessVersion) (.sessionVersion (leAt h 8 4))
  failIf (leAt h 12 4 ≠ sessHeader) (.headerSize (leAt h 12 4))
  let payload := leAt h 32 8
  -- the sum is an int64 and may wrap
  failIf (int64 payload < 0 ∨ int64 (sessHeader + payload + sessTrailer) ≠ size)
    (.payloadFit (int64 payload) size)
  let w ← Walker.payload r ⟨sessHeader, sessHeader + payload, []⟩
  failIf (w.p ≠ w.stop) (.walkEnded w.p w.stop)
  return { size, model := .ofNat (leAt h 16 8), config := .ofNat (leAt h 24 8), payload,
           sections := w.out }

/-! ### What a walk goes over -/

/-- The sections among the fields' values when the first field is at `p`. -/
def sectionsAt : Nat → List Field → List Bytes → List Section
  | p, .vec name _ :: fs, v :: vs => ⟨name, p + 8, v.length⟩ :: sectionsAt (p + 8 + v.length) fs vs
  | p, .skip _ :: fs, v :: vs => sectionsAt (p + v.length) fs vs
  | p, .count _ :: fs, v :: vs => sectionsAt (p + v.length) fs vs
  | _, _, _ => []

/-- The walk from `w` to `w'` went over the values `vs` of the fields `fs`. -/
structure Walked (r : Bytes) (fs : List Field) (vs : List Bytes) (w w' : Walker) : Prop where
  fits : List.Forall₂ Field.Fits fs vs
  bytes : slice r w.p (encodeAll fs vs).length = encodeAll fs vs
  p : w'.p = w.p + (encodeAll fs vs).length
  stop : w'.stop = w.stop
  out : w'.out = w.out ++ sectionsAt w.p fs vs

theorem sectionsAt_append {fs gs : List Field} {vs us : List Bytes} {p : Nat}
    (h : List.Forall₂ Field.Fits fs vs) :
    sectionsAt p (fs ++ gs) (vs ++ us) =
      sectionsAt p fs vs ++ sectionsAt (p + (encodeAll fs vs).length) gs us := by
  induction h generalizing p with
  | nil => rfl
  | @cons f v fs vs _ _ ih =>
    cases f with
    | skip | count =>
      simp only [cons_append, sectionsAt, ih, encodeAll_cons, Field.encode,
        length_append, Nat.add_assoc]
    | vec name elem =>
      simp only [cons_append, sectionsAt, ih, encodeAll_cons, Field.encode,
        length_append, length_leBytes, Nat.add_assoc]

namespace Walked

variable {r : Bytes} {fs gs : List Field} {vs us : List Bytes} {w w' w'' : Walker}

theorem refl (r : Bytes) (w : Walker) : Walked r [] [] w w where
  fits := .nil
  bytes := by simp [slice]
  p := by simp
  stop := rfl
  out := by simp [sectionsAt]

theorem trans (h : Walked r fs vs w w') (h' : Walked r gs us w' w'') :
    Walked r (fs ++ gs) (vs ++ us) w w'' where
  fits := rel_append h.fits h'.fits
  bytes := by
    rw [encodeAll_append h.fits.length_eq, length_append, slice_add, h.bytes, ← h.p, h'.bytes]
  p := by rw [encodeAll_append h.fits.length_eq, length_append, h'.p, h.p, Nat.add_assoc]
  stop := h'.stop.trans h.stop
  out := by rw [h'.out, h.out, sectionsAt_append h.fits, h.p, append_assoc]

end Walked

/-- A walk that keeps inside its payload, which is inside the file. -/
def Walker.Inside (r : Bytes) (w : Walker) : Prop := w.p ≤ w.stop ∧ w.stop ≤ r.length

variable {r tag : Bytes} {n i : Nat} {w w' : Walker}

section

variable (hin : w.Inside r)
include hin

theorem skip_walked (h : w.skip n = .ok w') : w'.Inside r ∧ ∃ v, Walked r [.skip n] [v] w w' := by
  unfold Walker.skip at h
  split at h
  · cases h
  rename_i hle
  cases h
  obtain ⟨hp, hstop⟩ := hin
  have hlen : (slice r w.p n).length = n := length_slice (by omega)
  refine ⟨⟨by dsimp only; omega, hstop⟩, slice r w.p n, ?_⟩
  exact
    { fits := .cons hlen .nil
      bytes := by simp [Field.encode, hlen]
      p := by simp [Field.encode, hlen]
      stop := rfl
      out := by simp [sectionsAt] }

theorem u64_walked (h : w.u64 r = .ok (n, w')) :
    w'.Inside r ∧ n < 2 ^ 64 ∧ Walked r [.count n] [leBytes 8 n] w w' := by
  obtain ⟨hp, hstop⟩ := hin
  obtain ⟨u, hroom, h⟩ := bind_eq_ok.1 h
  rw [failIf_eq_ok] at hroom
  obtain ⟨b, hb, h⟩ := bind_eq_ok.1 h
  obtain ⟨hle, rfl⟩ := readAt_eq_ok hb
  cases h
  have hlen : (slice r w.p 8).length = 8 := length_slice hle
  have hlt : leNat (slice r w.p 8) < 2 ^ 64 := by
    have := leNat_lt (slice r w.p 8)
    rw [hlen] at this
    exact this
  have hbytes : leBytes 8 (leNat (slice r w.p 8)) = slice r w.p 8 := by
    have := leBytes_leNat (slice r w.p 8)
    rwa [hlen] at this
  refine ⟨⟨by dsimp only; omega, hstop⟩, hlt, ?_⟩
  exact
    { fits := .cons ⟨rfl, hlt⟩ .nil
      bytes := by simp [Field.encode, hbytes, hlen]
      p := by simp [Field.encode]
      stop := rfl
      out := by simp [sectionsAt] }

theorem vec_walked {name : Name} {elem : Nat} (helem : 0 < elem) (h : w.vec r name elem = .ok w') :
    w'.Inside r ∧ ∃ v, Walked r [.vec name elem] [v] w w' := by
  obtain ⟨⟨n, w₁⟩, hn, h⟩ := bind_eq_ok.1 h
  obtain ⟨⟨hp, hstop⟩, -, hcount⟩ := u64_walked hin hn
  obtain ⟨u, hfits, h⟩ := bind_eq_ok.1 h
  rw [failIf_eq_ok] at hfits
  cases h
  have hle : n * elem ≤ w₁.stop - w₁.p := by
    have hdiv : n ≤ (w₁.stop - w₁.p) / elem := by
      by_contra hlt
      exact hfits ⟨helem.ne', by omega⟩
    exact (Nat.mul_le_mul_right elem hdiv).trans (Nat.div_mul_le_self _ _)
  have hlen : (slice r w₁.p (n * elem)).length = n * elem := length_slice (by omega)
  have hp₁ : w₁.p = w.p + 8 := by simpa [Field.encode] using hcount.p
  have hbytes : slice r w.p 8 = leBytes 8 n := by simpa [Field.encode] using hcount.bytes
  refine ⟨⟨by dsimp only; omega, hstop⟩, slice r w₁.p (n * elem), ?_⟩
  have hencode : encodeAll [.vec name elem] [slice r w₁.p (n * elem)] =
      leBytes 8 n ++ slice r w₁.p (n * elem) := by
    simp [Field.encode, hlen, Nat.mul_div_cancel _ helem]
  have hlength : (encodeAll [.vec name elem] [slice r w₁.p (n * elem)]).length = 8 + n * elem := by
    rw [hencode, length_append, length_leBytes, hlen]
  exact
    { fits := .cons (show elem ∣ _ from hlen.symm ▸ Nat.dvd_mul_left elem n) .nil
      bytes := by rw [hlength, hencode, slice_add, hbytes, ← hp₁]
      p := by
        rw [hlength]
        dsimp only
        omega
      stop := hcount.stop
      out := by
        have hout : w₁.out = w.out := by simpa [sectionsAt] using hcount.out
        rw [hp₁] at hlen
        simp [sectionsAt, hlen, hout, hp₁] }

/-- A walk over the same kind of section for each of some parts. -/
theorem parts_walked {parts : List String}
    (h : parts.foldlM (fun w part => w.vec r (named tag part) 1) w = .ok w') :
    w'.Inside r ∧ ∃ vs, Walked r (parts.map fun part => .vec (named tag part) 1) vs w w' := by
  induction parts generalizing w with
  | nil =>
    cases h
    exact ⟨hin, [], .refl r _⟩
  | cons part parts ih =>
    rw [foldlM_cons] at h
    obtain ⟨w₁, h₁, h⟩ := bind_eq_ok.1 h
    obtain ⟨hin₁, v, hv⟩ := vec_walked hin one_pos h₁
    obtain ⟨hin', vs, hvs⟩ := ih hin₁ h
    exact ⟨hin', v :: vs, hv.trans hvs⟩

theorem checkpoint_walked (h : w.checkpoint r tag = .ok w') :
    w'.Inside r ∧ ∃ vs, Walked r (checkpointFields tag) vs w w' := by
  obtain ⟨w₁, h₁, h⟩ := bind_eq_ok.1 h
  obtain ⟨hin₁, ids, hids⟩ := vec_walked hin (by norm_num) h₁
  obtain ⟨w₂, h₂, h⟩ := bind_eq_ok.1 h
  obtain ⟨hin₂, imgs, himgs⟩ := vec_walked hin₁ (by norm_num) h₂
  obtain ⟨w₃, h₃, h⟩ := bind_eq_ok.1 h
  obtain ⟨hin₃, vs, hvs⟩ := parts_walked hin₂ h₃
  obtain ⟨hin', used, hused⟩ := skip_walked hin₃ h
  exact ⟨hin', _, ((hids.trans himgs).trans hvs).trans hused⟩

theorem checkpoints_walked (h : w.checkpoints r n i = .ok w') :
    w'.Inside r ∧
      ∃ vs, Walked r ((List.range' i n).flatMap fun j => checkpointFields (ckptTag j)) vs w w' := by
  induction n generalizing i w with
  | zero =>
    cases h
    exact ⟨hin, [], .refl r _⟩
  | succ n ih =>
    obtain ⟨w₁, h₁, h⟩ := bind_eq_ok.1 h
    obtain ⟨hin₁, vs, hvs⟩ := checkpoint_walked hin h₁
    obtain ⟨hin', us, hus⟩ := ih hin₁ h
    refine ⟨hin', vs ++ us, ?_⟩
    rw [List.range'_succ, flatMap_cons]
    exact hvs.trans hus

theorem layer_walked (h : w.layer r i = .ok w') :
    w'.Inside r ∧ ∃ vs, Walked r (layerFields i) vs w w' := by
  obtain ⟨w₁, h₁, h⟩ := bind_eq_ok.1 h
  obtain ⟨hin₁, head, hhead⟩ := skip_walked hin h₁
  obtain ⟨hin', vs, hvs⟩ := parts_walked hin₁ h
  exact ⟨hin', head :: vs, hhead.trans hvs⟩

theorem layers_walked (h : w.layers r n i = .ok w') :
    w'.Inside r ∧ ∃ vs, Walked r ((List.range' i n).flatMap layerFields) vs w w' := by
  induction n generalizing i w with
  | zero =>
    cases h
    exact ⟨hin, [], .refl r _⟩
  | succ n ih =>
    obtain ⟨w₁, h₁, h⟩ := bind_eq_ok.1 h
    obtain ⟨hin₁, vs, hvs⟩ := layer_walked hin h₁
    obtain ⟨hin', us, hus⟩ := ih hin₁ h
    refine ⟨hin', vs ++ us, ?_⟩
    rw [List.range'_succ, flatMap_cons]
    exact hvs.trans hus

theorem payload_walked (h : w.payload r = .ok w') :
    w'.Inside r ∧ ∃ nckpt nkv vs, nckpt < 2 ^ 64 ∧ nkv < 2 ^ 64 ∧
      Walked r (schema nckpt nkv) vs w w' := by
  obtain ⟨w₁, h₁, h⟩ := bind_eq_ok.1 h
  obtain ⟨hin₁, geometry, hgeometry⟩ := skip_walked hin h₁
  obtain ⟨w₂, h₂, h⟩ := bind_eq_ok.1 h
  obtain ⟨hin₂, live, hlive⟩ := checkpoint_walked hin₁ h₂
  obtain ⟨⟨nckpt, w₃⟩, h₃, h⟩ := bind_eq_ok.1 h
  obtain ⟨hin₃, hnckpt, hcount⟩ := u64_walked hin₂ h₃
  obtain ⟨w₄, h₄, h⟩ := bind_eq_ok.1 h
  obtain ⟨hin₄, ckpts, hckpts⟩ := checkpoints_walked hin₃ h₄
  obtain ⟨⟨nkv, w₅⟩, h₅, h⟩ := bind_eq_ok.1 h
  obtain ⟨hin₅, hnkv, hkvs⟩ := u64_walked hin₄ h₅
  obtain ⟨hin', layers, hlayers⟩ := layers_walked hin₅ h
  rw [← range_eq_range'] at hckpts hlayers
  exact ⟨hin', nckpt, nkv, _, hnckpt, hnkv,
    ((hgeometry.trans hlive).trans (hcount.trans hckpts)).trans (hkvs.trans hlayers)⟩

end

/-- The file `r` with the layout `l` is a header, the values `vs` of a payload's fields,
and a trailer. -/
structure Parsed (r : Bytes) (l : Layout) (nckpt nkv : Nat) (vs : List Bytes) : Prop where
  nckpt_lt : nckpt < 2 ^ 64
  nkv_lt : nkv < 2 ^ 64
  fits : List.Forall₂ Field.Fits (schema nckpt nkv) vs
  length : r.length = sessHeader + (encodeAll (schema nckpt nkv) vs).length + sessTrailer
  small : r.length < 2 ^ 63
  payload : slice r sessHeader (encodeAll (schema nckpt nkv) vs).length =
    encodeAll (schema nckpt nkv) vs
  size : l.size = r.length
  model : l.model = .ofNat (leAt (slice r 0 sessHeader) 16 8)
  config : l.config = .ofNat (leAt (slice r 0 sessHeader) 24 8)
  sections : l.sections = sectionsAt sessHeader (schema nckpt nkv) vs

/-- **What is accepted is well formed.** -/
theorem parseLayout_ok {l : Layout} (h : parseLayout r r.length = .ok l) :
    ∃ nckpt nkv vs, Parsed r l nckpt nkv vs ∧
      l.payload = (encodeAll (schema nckpt nkv) vs).length := by
  obtain ⟨_, hshort, h⟩ := bind_eq_ok.1 h
  obtain ⟨hd, hhd, h⟩ := bind_eq_ok.1 h
  obtain ⟨-, rfl⟩ := readAt_eq_ok hhd
  obtain ⟨_, -, h⟩ := bind_eq_ok.1 h
  obtain ⟨_, -, h⟩ := bind_eq_ok.1 h
  obtain ⟨_, -, h⟩ := bind_eq_ok.1 h
  obtain ⟨_, hpayload, h⟩ := bind_eq_ok.1 h
  obtain ⟨w, hw, h⟩ := bind_eq_ok.1 h
  obtain ⟨_, hend, h⟩ := bind_eq_ok.1 h
  rw [failIf_eq_ok] at hshort hpayload hend
  cases h
  generalize hn : leAt (slice r 0 sessHeader) 32 8 = n at hw hpayload ⊢
  -- the declared payload is the rest of the file: neither conversion wraps
  have hlt : n < 2 ^ 64 := hn ▸ leAt_lt (slice r 0 sessHeader) 32 8
  rw [not_or, not_lt, not_not] at hpayload
  obtain ⟨-, hn63⟩ := int64_eq hlt hpayload.1
  have hsum64 : sessHeader + n + sessTrailer < 2 ^ 64 := by
    simp only [sessHeader, sessTrailer]
    omega
  obtain ⟨hsum, hsum63⟩ := int64_eq hsum64 (by rw [hpayload.2]; exact Int.natCast_nonneg _)
  have hlength : r.length = sessHeader + n + sessTrailer := by
    have := hpayload.2.symm.trans hsum
    exact_mod_cast this
  obtain ⟨-, nckpt, nkv, vs, hnckpt, hnkv, hwalk⟩ :=
    payload_walked ⟨by dsimp only; omega, by dsimp only; omega⟩ hw
  have hencoded : (encodeAll (schema nckpt nkv) vs).length = n := by
    have hp := hwalk.p
    have hstop := hwalk.stop
    dsimp only at hp hstop
    omega
  exact ⟨nckpt, nkv, vs,
    { nckpt_lt := hnckpt
      nkv_lt := hnkv
      fits := hwalk.fits
      length := by rw [hencoded, hlength]
      small := hlength ▸ hsum63
      payload := hwalk.bytes
      size := rfl
      model := rfl
      config := rfl
      sections := by simpa using hwalk.out }, hencoded.symm⟩

end Viiwork.Kvshare
