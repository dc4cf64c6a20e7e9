import Viiwork.Lib.Bytes

/-!
# Viiwork.Kvshare.Format

The payload of a Strata session file as a list of **fields**: bytes of a fixed length,
counts, and arrays with their element count in front. An array is a *section*; every
other byte is framing. Two counts, of checkpoints and of K/V layers, decide the whole
list (`schema`), so a payload is a value for each field of it.

Names are byte strings, as Go strings are. A section's name is a tag and a part around a
dot, which makes the names of a payload distinct and valid as file names.
-/

namespace Viiwork.Kvshare

open Viiwork.Lib List

/-! ### Names -/

abbrev Name := Bytes

def ascii (s : String) : Bytes := s.toList.map fun c => UInt8.ofNat c.toNat

/-- `%d`. -/
def decimal (n : Nat) : Bytes := ascii (toString n)

/-- Letters, digits, `.`, `_` and `-`. -/
def keyByte (b : UInt8) : Bool :=
  (97 ≤ b && b ≤ 122) || (65 ≤ b && b ≤ 90) || (48 ≤ b && b ≤ 57) || b == 46 || b == 95 || b == 45

/-- The name may be a file's. A byte past ASCII is no rune of the list either. -/
def validKey (key : Name) : Bool :=
  key != [] && key.length ≤ 128 && key.head? != some 46 && key.all keyByte

def named (tag : Bytes) (part : String) : Name := tag ++ ascii "." ++ ascii part

def ckptTag (i : Nat) : Bytes := ascii "ckpt" ++ decimal i

def kvTag (i : Nat) : Bytes := ascii "kv" ++ decimal i

/-! ### Fields -/

inductive Field where
  /-- `n` bytes of framing. -/
  | skip (n : Nat)
  /-- A count, framing with the value `n`. -/
  | count (n : Nat)
  /-- A section: its element count, then elements of `elem` bytes. -/
  | vec (name : Name) (elem : Nat)
  deriving Repr, DecidableEq

/-- The byte-wise parts of a checkpoint. -/
def stateParts : List String := ["gdn", "ple", "tails", "dead", "block_pos"]

def kvParts : List String := ["k", "v", "k_scale", "v_scale", "pooled"]

def checkpointFields (tag : Bytes) : List Field :=
  [.vec (named tag "ids") 4, .vec (named tag "imgs") 16] ++
    stateParts.map (fun part => .vec (named tag part) 1) ++ [.skip 8]

def layerFields (i : Nat) : List Field :=
  .skip (7 * 8) :: kvParts.map fun part => .vec (named (kvTag i) part) 1

/-- The fields of a payload with `nckpt` checkpoints and `nkv` K/V layers. -/
def schema (nckpt nkv : Nat) : List Field :=
  .skip (18 * 8 + 3 * 8) :: checkpointFields (ascii "live") ++
    .count nckpt :: (List.range nckpt).flatMap (fun i => checkpointFields (ckptTag i)) ++
    .count nkv :: (List.range nkv).flatMap layerFields

/-! ### Values -/

namespace Field

def name? : Field → Option Name
  | vec name _ => some name
  | _ => none

/-- `b` can be the field's value. -/
def Fits : Field → Bytes → Prop
  | skip n, b => b.length = n
  | count n, b => b = leBytes 8 n ∧ n < 2 ^ 64
  | vec _ elem, b => elem ∣ b.length

/-- The field as it stands in the file. -/
def encode : Field → Bytes → Bytes
  | vec _ elem, b => leBytes 8 (b.length / elem) ++ b
  | _, b => b

end Field

/-- A payload: the fields' values one after the other. -/
def encodeAll (fs : List Field) (vs : List Bytes) : Bytes :=
  (List.zipWith Field.encode fs vs).flatten

@[simp] theorem encodeAll_nil : encodeAll [] [] = [] := rfl

@[simp] theorem encodeAll_cons (f : Field) (fs : List Field) (v : Bytes) (vs : List Bytes) :
    encodeAll (f :: fs) (v :: vs) = f.encode v ++ encodeAll fs vs := rfl

theorem encodeAll_append {fs gs : List Field} {vs us : List Bytes} (h : fs.length = vs.length) :
    encodeAll (fs ++ gs) (vs ++ us) = encodeAll fs vs ++ encodeAll gs us := by
  rw [encodeAll, zipWith_append h, flatten_append]
  rfl

/-! ### The names are distinct -/

def names (fs : List Field) : List Name := fs.filterMap Field.name?

@[simp] theorem names_append (fs gs : List Field) : names (fs ++ gs) = names fs ++ names gs :=
  filterMap_append

@[simp] theorem names_skip (n : Nat) (fs : List Field) : names (.skip n :: fs) = names fs := rfl

@[simp] theorem names_count (n : Nat) (fs : List Field) : names (.count n :: fs) = names fs := rfl

def ckptParts : List String := "ids" :: "imgs" :: stateParts

theorem names_checkpointFields (tag : Bytes) :
    names (checkpointFields tag) = ckptParts.map (named tag) := rfl

theorem names_layerFields (i : Nat) : names (layerFields i) = kvParts.map (named (kvTag i)) := rfl

theorem names_flatMap {ι : Type} (is : List ι) (fs : ι → List Field) :
    names (is.flatMap fs) = is.flatMap fun i => names (fs i) := by
  simp [names, filterMap_flatMap]

def ckptTags (nckpt : Nat) : List Bytes := ascii "live" :: (List.range nckpt).map ckptTag

def kvTags (nkv : Nat) : List Bytes := (List.range nkv).map kvTag

/-- The names of a payload, as pairs of a tag and a part. -/
def namePairs (nckpt nkv : Nat) : List (Bytes × String) :=
  ckptTags nckpt ×ˢ ckptParts ++ kvTags nkv ×ˢ kvParts

theorem names_schema (nckpt nkv : Nat) :
    names (schema nckpt nkv) = (namePairs nckpt nkv).map fun p => named p.1 p.2 := by
  have hprod : ∀ (tags : List Bytes) (parts : List String),
      (tags ×ˢ parts).map (fun p => named p.1 p.2) =
        tags.flatMap fun tag => parts.map (named tag) := by
    intro tags parts
    simp [SProd.sprod, List.product, map_flatMap, Function.comp_def]
  rw [namePairs, map_append, hprod, hprod]
  simp only [schema, ckptTags, kvTags, names_append, names_skip, names_count, cons_append,
    flatMap_cons, flatMap_map, ← names_checkpointFields, ← names_layerFields,
    ← names_flatMap]

variable {n nckpt nkv : Nat} {tag : Bytes}

theorem toNat_of_mem_repr {c : Char} (h : c ∈ n.repr.toList) : 48 ≤ c.toNat ∧ c.toNat ≤ 57 := by
  rw [Nat.toList_repr] at h
  have hdigit := Nat.isDigit_of_mem_toDigits (by norm_num) le_rfl h
  simp only [Char.isDigit, Bool.and_eq_true, decide_eq_true_eq] at hdigit
  exact ⟨UInt32.le_iff_toNat_le.1 hdigit.1, UInt32.le_iff_toNat_le.1 hdigit.2⟩

theorem mem_decimal {b : UInt8} (h : b ∈ decimal n) : 48 ≤ b ∧ b ≤ 57 := by
  obtain ⟨c, hc, rfl⟩ := mem_map.1 h
  obtain ⟨hlow, hhigh⟩ := toNat_of_mem_repr hc
  rw [UInt8.le_iff_toNat_le, UInt8.le_iff_toNat_le, UInt8.toNat_ofNat']
  have : c.toNat % 2 ^ 8 = c.toNat := Nat.mod_eq_of_lt (by omega)
  rw [this]
  exact ⟨hlow, hhigh⟩

theorem decimal_inj {m : Nat} (h : decimal m = decimal n) : m = n := by
  have hchars : ∀ n : Nat, (decimal n).map (fun b => Char.ofNat b.toNat) = n.repr.toList := by
    intro n
    rw [decimal, ascii, map_map, Nat.toString_eq_repr]
    conv_rhs => rw [← map_id n.repr.toList]
    refine map_congr_left fun c hc => ?_
    have hlt : c.toNat < 256 := by have := toNat_of_mem_repr hc; omega
    simp [Nat.mod_eq_of_lt hlt]
  have hrepr : m.repr.toList = n.repr.toList := by rw [← hchars, h, hchars]
  exact Nat.repr_inj.1 (String.toList_inj.1 hrepr)

/-- A tag holds no dot. -/
theorem dot_notMem_tag (h : tag ∈ ckptTags nckpt ++ kvTags nkv) : 46 ∉ tag := by
  have hdecimal : ∀ i, (46 : UInt8) ∉ decimal i :=
    fun i hmem => absurd (mem_decimal hmem).1 (by decide)
  simp only [ckptTags, kvTags, cons_append, mem_cons, mem_append, mem_map,
    mem_range] at h
  rcases h with rfl | ⟨i, -, rfl⟩ | ⟨i, -, rfl⟩
  · decide
  · rw [ckptTag, mem_append, not_or]
    exact ⟨by decide, hdecimal i⟩
  · rw [kvTag, mem_append, not_or]
    exact ⟨by decide, hdecimal i⟩

theorem named_inj {tag' : Bytes} {part part' : String} (htag : 46 ∉ tag) (htag' : 46 ∉ tag')
    (h : named tag part = named tag' part') : tag = tag' ∧ ascii part = ascii part' := by
  have hbefore : ∀ (t : Bytes) (p : String), 46 ∉ t →
      (named t p).takeWhile (· != 46) = t := by
    intro t p ht
    rw [named, append_assoc, takeWhile_append_of_pos]
    · rw [show ascii "." = [46] by decide]
      simp
    · intro b hb
      simpa using fun heq : b = 46 => ht (heq ▸ hb)
  have heq : tag = tag' := by rw [← hbefore tag part htag, h, hbefore tag' part' htag']
  subst heq
  exact ⟨rfl, append_cancel_left h⟩

theorem head?_ckptTag (i : Nat) : (ckptTag i).head? = some 99 := rfl

theorem head?_kvTag (i : Nat) : (kvTag i).head? = some 107 := rfl

theorem head?_live : (ascii "live").head? = some 108 := by decide

theorem nodup_ckptTags (nckpt : Nat) : (ckptTags nckpt).Nodup := by
  rw [ckptTags, nodup_cons]
  refine ⟨fun hmem => ?_, nodup_range.map fun i j h => decimal_inj (append_cancel_left h)⟩
  obtain ⟨i, -, hi⟩ := mem_map.1 hmem
  have hhead := congrArg List.head? hi
  simp [head?_ckptTag, head?_live] at hhead

theorem nodup_kvTags (nkv : Nat) : (kvTags nkv).Nodup :=
  nodup_range.map fun _ _ h => decimal_inj (append_cancel_left h)

theorem nodup_namePairs (nckpt nkv : Nat) : (namePairs nckpt nkv).Nodup := by
  refine List.Nodup.append ((nodup_ckptTags nckpt).product (by decide))
    ((nodup_kvTags nkv).product (by decide)) ?_
  rintro ⟨tag, part⟩ hckpt hkv
  -- the two kinds of tag begin with different letters
  obtain ⟨i, -, rfl⟩ := mem_map.1 (mem_product.1 hkv).1
  rcases mem_cons.1 (mem_product.1 hckpt).1 with h | h
  · have hhead := congrArg List.head? h
    simp [head?_kvTag, head?_live] at hhead
  · obtain ⟨j, -, hj⟩ := mem_map.1 h
    have hhead := congrArg List.head? hj
    simp [head?_ckptTag, head?_kvTag] at hhead

theorem mem_namePairs {p : Bytes × String} (h : p ∈ namePairs nckpt nkv) :
    p.1 ∈ ckptTags nckpt ++ kvTags nkv ∧ p.2 ∈ ckptParts ++ kvParts := by
  rcases mem_append.1 h with h | h
  · obtain ⟨htag, hpart⟩ := mem_product.1 h
    exact ⟨mem_append_left _ htag, mem_append_left _ hpart⟩
  · obtain ⟨htag, hpart⟩ := mem_product.1 h
    exact ⟨mem_append_right _ htag, mem_append_right _ hpart⟩

/-- **The sections of a payload have distinct names.** -/
theorem nodup_names (nckpt nkv : Nat) : (names (schema nckpt nkv)).Nodup := by
  rw [names_schema]
  refine (nodup_namePairs nckpt nkv).map_on fun p hp q hq h => ?_
  have hascii : ∀ a ∈ ckptParts ++ kvParts, ∀ b ∈ ckptParts ++ kvParts,
      ascii a = ascii b → a = b := by decide
  obtain ⟨hptag, hppart⟩ := mem_namePairs hp
  obtain ⟨hqtag, hqpart⟩ := mem_namePairs hq
  obtain ⟨heq, hpart⟩ := named_inj (dot_notMem_tag hptag) (dot_notMem_tag hqtag) h
  exact Prod.ext heq (hascii _ hppart _ hqpart hpart)

/-! ### The names are valid -/

theorem keyByte_decimal (n : Nat) : (decimal n).all keyByte := by
  refine all_eq_true.2 fun b hb => ?_
  obtain ⟨hlow, hhigh⟩ := mem_decimal hb
  simp [keyByte, hlow, hhigh]

theorem length_decimal (h : n < 2 ^ 64) : (decimal n).length ≤ 20 := by
  rw [decimal, ascii, length_map, Nat.toString_eq_repr, Nat.toList_repr]
  exact Nat.toDigits_length 10 n 20 (by norm_num) (by omega)

theorem tag_valid (hckpt : nckpt < 2 ^ 64) (hkv : nkv < 2 ^ 64)
    (h : tag ∈ ckptTags nckpt ++ kvTags nkv) :
    tag.all keyByte = true ∧ tag.length ≤ 24 ∧ ∃ b, tag.head? = some b ∧ b ≠ 46 := by
  simp only [ckptTags, kvTags, cons_append, mem_cons, mem_append, mem_map,
    mem_range] at h
  rcases h with rfl | ⟨i, hi, rfl⟩ | ⟨i, hi, rfl⟩
  · decide
  · refine ⟨?_, ?_, 99, head?_ckptTag i, by decide⟩
    · rw [ckptTag, all_append, keyByte_decimal, Bool.and_true]
      decide
    · rw [ckptTag, length_append, show (ascii "ckpt").length = 4 by decide]
      have := length_decimal (hi.trans hckpt)
      omega
  · refine ⟨?_, ?_, 107, head?_kvTag i, by decide⟩
    · rw [kvTag, all_append, keyByte_decimal, Bool.and_true]
      decide
    · rw [kvTag, length_append, show (ascii "kv").length = 2 by decide]
      have := length_decimal (hi.trans hkv)
      omega

/-- **Every section can have a file.** -/
theorem validKey_of_mem_names (hckpt : nckpt < 2 ^ 64) (hkv : nkv < 2 ^ 64) {name : Name}
    (h : name ∈ names (schema nckpt nkv)) : validKey name = true := by
  rw [names_schema] at h
  obtain ⟨⟨tag, part⟩, hp, rfl⟩ := mem_map.1 h
  obtain ⟨htag, hpart⟩ := mem_namePairs hp
  dsimp only at htag hpart ⊢
  obtain ⟨hall, hlen, b, hhead, hb⟩ := tag_valid hckpt hkv htag
  have hparts : ∀ p ∈ ckptParts ++ kvParts,
      (ascii p).all keyByte = true ∧ (ascii p).length ≤ 9 := by decide
  obtain ⟨hpall, hplen⟩ := hparts part hpart
  have hnil : tag ≠ [] := by
    rintro rfl
    cases hhead
  have hlength : (named tag part).length ≤ 128 := by
    simp only [named, length_append, show (ascii ".").length = 1 by decide]
    omega
  have hkeys : (named tag part).all keyByte = true := by
    rw [named, all_append, all_append, hall, hpall]
    decide
  have hfirst : (named tag part).head? = some b := by
    rw [named, append_assoc, List.head?_append, hhead]
    rfl
  have hne : named tag part ≠ [] := by simp [named, hnil]
  simp [validKey, hne, hlength, hfirst, hb, -all_eq_true, hkeys]

end Viiwork.Kvshare
