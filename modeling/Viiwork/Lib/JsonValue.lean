import Viiwork.Lib.JsonEdit

/-!
# Viiwork.Lib.JsonValue

What a JSON text stands for: strings as UTF-8, numbers as whatever they are read as, objects as maps
in which the last of several members with one key counts. Two texts have the same value just when a
decoder that makes maps of objects cannot tell them apart.

A string that occurs once in a text is changed in its value where it stands: in the object that has
it for a key (`members_swap_key`), and in every object around that one (`members_swap`).
-/

namespace Viiwork.Lib

open List Option Function

/-- A decoded value. -/
inductive Value (F : Type)
  | null
  | bool (b : Bool)
  | num (x : F)
  | str (s : Bytes)
  | arr (vs : List (Value F))
  | obj (m : Bytes → Option (Value F))

namespace Json

variable {F : Type} (float : Bytes → F)

mutual

/-- The value that is spelled. -/
def value : Json → Value F
  | null => .null
  | bool b => .bool b
  | num raw => .num (float raw)
  | str raw => .str (unquote raw)
  | arr vs => .arr (values vs)
  | obj ms => .obj (members ms)

def values : List Json → List (Value F)
  | [] => []
  | v :: vs => value v :: values vs

/-- The map that the members make, one after the other. -/
def members : List (Bytes × Json) → Bytes → Option (Value F)
  | [], _ => none
  | (k, v) :: ms, key => (members ms key).or (if unquote k = key then some (value v) else none)

end

/-- The value of the last member with the key. -/
def lookup : List (Bytes × Json) → Bytes → Option Json
  | [], _ => none
  | (k, v) :: ms, key => (lookup ms key).or (if unquote k = key then some v else none)

theorem members_eq (ms : List (Bytes × Json)) (key : Bytes) :
    members float ms key = (lookup ms key).map (value float) := by
  induction ms with
  | nil => rfl
  | cons m ms ih =>
    rw [members, lookup, ih]
    cases lookup ms key with
    | some v => rfl
    | none =>
      rw [map_none, none_or, none_or]
      split <;> rfl

theorem lookup_append (ms ns : List (Bytes × Json)) (key : Bytes) :
    lookup (ms ++ ns) key = (lookup ns key).or (lookup ms key) := by
  induction ms with
  | nil => exact (Option.or_none).symm
  | cons m ms ih => rw [List.cons_append, lookup, ih, Option.or_assoc, lookup]

variable {key k : Bytes} {ms : List (Bytes × Json)} {v : Json}

/-- The member that counts is the last one with its key. -/
theorem lookup_eq_some (h : lookup ms key = some v) :
    ∃ pre k post, ms = pre ++ (k, v) :: post ∧ unquote k = key ∧ lookup post key = none := by
  induction ms with
  | nil => cases h
  | cons m ms ih =>
    rw [lookup] at h
    cases hms : lookup ms key with
    | some v' =>
      rw [hms, some_or] at h
      obtain ⟨pre, k, post, rfl, hk, hpost⟩ := ih (hms.trans h)
      exact ⟨m :: pre, k, post, rfl, hk, hpost⟩
    | none =>
      rw [hms, none_or] at h
      split at h
      · rename_i hk
        cases h
        exact ⟨[], m.1, ms, rfl, hk, hms⟩
      · cases h

theorem lookup_eq_none_iff : lookup ms key = none ↔ ∀ m ∈ ms, unquote m.1 ≠ key := by
  induction ms with
  | nil => simp [lookup]
  | cons m ms ih => simp [lookup, ih, and_comm]

/-! ### The strings of a value -/

mutual

/-- The strings and the keys, as they are spelled. -/
def strings : Json → List Bytes
  | str raw => [raw]
  | arr vs => stringsElems vs
  | obj ms => stringsMembers ms
  | _ => []

def stringsElems : List Json → List Bytes
  | [] => []
  | v :: vs => strings v ++ stringsElems vs

def stringsMembers : List (Bytes × Json) → List Bytes
  | [] => []
  | (k, v) :: ms => k :: (strings v ++ stringsMembers ms)

end

theorem stringsMembers_append (ms ns : List (Bytes × Json)) :
    stringsMembers (ms ++ ns) = stringsMembers ms ++ stringsMembers ns := by
  induction ms with
  | nil => rfl
  | cons m ms ih => simp [stringsMembers, ih]

theorem mem_stringsMembers {m : Bytes × Json} (h : m ∈ ms) : m.1 ∈ stringsMembers ms := by
  obtain ⟨pre, post, rfl⟩ := append_of_mem h
  rw [stringsMembers_append]
  exact mem_append_right _ mem_cons_self

mutual

/-- The tokens have the strings as often as the value. -/
theorem count_spell (k : Bytes) (v : Json) :
    (spell v).count (.str k) = (strings v).count k := by
  match v with
  | .null => rfl
  | .bool b => rfl
  | .num raw => rfl
  | .str raw => simp [spell, strings, count_singleton]
  | .arr [] => rfl
  | .arr (v :: vs) =>
    simp [spell, strings, stringsElems, count_spell k v, count_spellElems k vs]
  | .obj [] => rfl
  | .obj ((k', v) :: ms) =>
    simp [spell, strings, stringsMembers, count_cons, count_spell k v,
      count_spellMembers k ms]

theorem count_spellElems (k : Bytes) (vs : List Json) :
    (spellElems vs).count (.str k) = (stringsElems vs).count k := by
  match vs with
  | [] => rfl
  | v :: vs =>
    simp [spellElems, stringsElems, count_spell k v, count_spellElems k vs]

theorem count_spellMembers (k : Bytes) (ms : List (Bytes × Json)) :
    (spellMembers ms).count (.str k) = (stringsMembers ms).count k := by
  match ms with
  | [] => rfl
  | (k', v) :: ms =>
    simp [spellMembers, stringsMembers, count_cons, count_spell k v,
      count_spellMembers k ms]

end

/-- A value that an object has for a key brings its strings. -/
theorem count_le_of_lookup (h : lookup ms key = some v) (k : Bytes) :
    (strings v).count k ≤ (stringsMembers ms).count k := by
  obtain ⟨pre, kv, post, rfl, -, -⟩ := lookup_eq_some h
  rw [stringsMembers_append, stringsMembers, count_append, count_cons, count_append]
  omega

theorem mem_strings_of_lookup (h : lookup ms key = some v) (hk : k ∈ strings v) :
    k ∈ stringsMembers ms := by
  have hpos := count_pos_iff.2 hk
  exact count_pos_iff.1 (lt_of_lt_of_le hpos (count_le_of_lookup h k))

variable {s k' : Bytes}

/-- The strings of what a text spells are its tokens. -/
theorem mem_tokens_of_parse (h : parse s = some v) (hk : k ∈ strings v) :
    .str k ∈ (tokens s).1 := by
  rw [parse] at h
  split at h
  · rw [spell_of_read h, ← count_pos_iff, count_spell]
    exact count_pos_iff.2 hk
  · cases h

theorem count_strings_le (h : parse s = some v) (k : Bytes) :
    (strings v).count k ≤ count (Token.str k).bytes s := by
  rw [parse] at h
  split at h
  · rw [← count_spell, ← spell_of_read h]
    exact count_tokens_le
  · cases h

mutual

variable {k k' : Bytes}

theorem mapStr_of_not_mem (v : Json) (h : k ∉ strings v) : v.mapStr (swap k k') = v := by
  match v, h with
  | .null, _ => rfl
  | .bool b, _ => rfl
  | .num raw, _ => rfl
  | .str raw, h =>
    have hne : raw ≠ k := fun heq => h (mem_singleton.2 heq.symm)
    exact congrArg Json.str (if_neg hne)
  | .arr vs, h => exact congrArg Json.arr (mapElems_of_not_mem vs h)
  | .obj ms, h => exact congrArg Json.obj (mapMembers_of_not_mem ms h)

theorem mapElems_of_not_mem (vs : List Json) (h : k ∉ stringsElems vs) :
    mapElems (swap k k') vs = vs := by
  match vs, h with
  | [], _ => rfl
  | v :: vs, h =>
    rw [stringsElems, mem_append, not_or] at h
    rw [mapElems, mapStr_of_not_mem v h.1, mapElems_of_not_mem vs h.2]

theorem mapMembers_of_not_mem (ms : List (Bytes × Json)) (h : k ∉ stringsMembers ms) :
    mapMembers (swap k k') ms = ms := by
  match ms, h with
  | [], _ => rfl
  | (key, v) :: ms, h =>
    rw [stringsMembers, mem_cons, mem_append, not_or, not_or] at h
    rw [mapMembers, mapStr_of_not_mem v h.2.1, mapMembers_of_not_mem ms h.2.2, swap,
      if_neg (Ne.symm h.1)]

end

theorem mapMembers_append (g : Bytes → Bytes) (ms ns : List (Bytes × Json)) :
    mapMembers g (ms ++ ns) = mapMembers g ms ++ mapMembers g ns := by
  simp [mapMembers_eq]

/-! ### Another string in the value -/

/-- **Around the string.** Of an object only the member changes that the string is in. -/
theorem members_swap (hv : lookup ms key = some v) (hin : k ∈ strings v)
    (hone : (stringsMembers ms).count k ≤ 1) :
    members float (mapMembers (swap k k') ms) =
      update (members float ms) key (some (value float (v.mapStr (swap k k')))) := by
  obtain ⟨pre, kv, post, rfl, rfl, hpost⟩ := lookup_eq_some hv
  have hpos : 0 < (strings v).count k := count_pos_iff.2 hin
  rw [stringsMembers_append, stringsMembers, count_append, count_cons,
    count_append] at hone
  have hpre : k ∉ stringsMembers pre := count_eq_zero.1 (by omega)
  have hpost' : k ∉ stringsMembers post := count_eq_zero.1 (by omega)
  have hkv : kv ≠ k := by
    rintro rfl
    rw [beq_self_eq_true, if_pos rfl] at hone
    omega
  funext x
  rw [mapMembers_append, mapMembers, mapMembers_of_not_mem pre hpre,
    mapMembers_of_not_mem post hpost', swap, if_neg hkv, members_eq, lookup_append, lookup]
  by_cases hx : x = unquote kv
  · subst hx
    rw [update_self, hpost, if_pos rfl]
    rfl
  · rw [update_of_ne hx, members_eq, lookup_append, lookup, if_neg (Ne.symm hx),
      if_neg (Ne.symm hx)]

/-- **A key for another.** -/
theorem members_swap_key (hv : lookup ms (unquote k) = some v)
    (hspelled : ∀ m ∈ ms, unquote m.1 = unquote k → m.1 = k) (hno : lookup ms (unquote k') = none)
    (hne : unquote k ≠ unquote k') (hone : (stringsMembers ms).count k ≤ 1) :
    members float (mapMembers (swap k k') ms) =
      update (update (members float ms) (unquote k') (some (value float v)))
        (unquote k) none := by
  obtain ⟨pre, kv, post, rfl, hkv, hpost⟩ := lookup_eq_some hv
  have hkv' : kv = k := hspelled (kv, v) (mem_append_right pre mem_cons_self) hkv
  subst hkv'
  rw [stringsMembers_append, stringsMembers, count_append, count_cons_self,
    count_append] at hone
  have hpre : kv ∉ stringsMembers pre := count_eq_zero.1 (by omega)
  have hpost' : kv ∉ stringsMembers post := count_eq_zero.1 (by omega)
  have hv' : kv ∉ strings v := count_eq_zero.1 (by omega)
  have hfirst : lookup pre (unquote kv) = none := by
    refine lookup_eq_none_iff.2 fun m hm hkey => hpre ?_
    rw [← hspelled m (mem_append_left _ hm) hkey]
    exact mem_stringsMembers hm
  funext x
  rw [mapMembers_append, mapMembers, mapMembers_of_not_mem pre hpre,
    mapMembers_of_not_mem post hpost', mapStr_of_not_mem v hv', swap, if_pos rfl, members_eq,
    lookup_append, lookup]
  have hno' : lookup post (unquote k') = none := by
    rw [lookup_append, lookup, or_eq_none_iff, or_eq_none_iff] at hno
    exact hno.1.1
  by_cases hx : x = unquote kv
  · subst hx
    rw [update_self, hpost, hfirst, if_neg hne.symm]
    rfl
  rw [update_of_ne hx]
  by_cases hx' : x = unquote k'
  · subst hx'
    rw [update_self, if_pos rfl, hno']
    rfl
  · rw [update_of_ne hx', members_eq, lookup_append, lookup, if_neg (Ne.symm hx),
      if_neg (Ne.symm hx')]

end Json

end Viiwork.Lib
