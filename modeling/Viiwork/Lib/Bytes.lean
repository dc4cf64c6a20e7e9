import Mathlib

/-!
# Viiwork.Lib.Bytes

Byte strings as binary formats use them: fixed-width **little-endian** numbers, the
conversion of an unsigned to a signed 64-bit integer, and the **blocks** of a string.
Two strings agree up to a block boundary exactly when their blocks before it do.
-/

namespace Viiwork.Lib

open List

abbrev Bytes := List UInt8

instance : LawfulBEq Bytes := inferInstance

/-! ### Little-endian numbers -/

/-- The number with the given bytes, least significant first. -/
def leNat (b : Bytes) : Nat := Nat.ofDigits 256 (b.map UInt8.toNat)

/-- The `w` low bytes of `n`, least significant first. -/
def leBytes (w n : Nat) : Bytes := (List.range w).map fun i => UInt8.ofNat (n / 256 ^ i)

@[simp] theorem length_leBytes (w n : Nat) : (leBytes w n).length = w := by
  simp [leBytes]

theorem leNat_lt (b : Bytes) : leNat b < 256 ^ b.length := by
  have hlt : ∀ d ∈ b.map UInt8.toNat, d < 256 := by
    intro d hd
    obtain ⟨x, -, rfl⟩ := mem_map.1 hd
    exact x.toNat_lt
  simpa [leNat] using Nat.ofDigits_lt_base_pow_length (by norm_num) hlt

theorem leNat_leBytes_mod (w n : Nat) : leNat (leBytes w n) = n % 256 ^ w := by
  induction w with
  | zero => simp [leNat, leBytes, Nat.mod_one]
  | succ w ih =>
    have hsplit : leBytes (w + 1) n = leBytes w n ++ [UInt8.ofNat (n / 256 ^ w)] := by
      simp [leBytes, range_succ]
    rw [hsplit, leNat, map_append, Nat.ofDigits_append, ← leNat, ih, Nat.mod_pow_succ]
    simp

variable {n : Nat}

@[simp] theorem leNat_leBytes {w : Nat} (h : n < 256 ^ w) : leNat (leBytes w n) = n := by
  rw [leNat_leBytes_mod, Nat.mod_eq_of_lt h]

theorem leNat_inj {a b : Bytes} (hlen : a.length = b.length) (h : leNat a = leNat b) : a = b := by
  have hlt : ∀ c : Bytes, ∀ d ∈ c.map UInt8.toNat, d < 256 := by
    intro c d hd
    obtain ⟨x, -, rfl⟩ := mem_map.1 hd
    exact x.toNat_lt
  have hmap := Nat.ofDigits_inj_of_len_eq (by norm_num) (by simpa using hlen) (hlt a) (hlt b) h
  exact map_injective_iff.2 (fun _ _ => UInt8.toNat.inj) hmap

theorem leBytes_leNat (b : Bytes) : leBytes b.length (leNat b) = b :=
  leNat_inj (by simp) (leNat_leBytes (leNat_lt b))

/-! ### Signed conversion -/

/-- `int64(n)` of an unsigned 64-bit `n`. -/
def int64 (n : Nat) : Int := if n < 2 ^ 63 then n else n - 2 ^ 64

theorem int64_of_lt (h : n < 2 ^ 63) : int64 n = n := if_pos h

/-- A result that is not negative is the number itself. -/
theorem int64_eq (hn : n < 2 ^ 64) (h : 0 ≤ int64 n) : int64 n = n ∧ n < 2 ^ 63 := by
  unfold int64 at *
  split at h
  · rename_i hlt
    exact ⟨if_pos hlt, hlt⟩
  · omega

/-! ### Blocks -/

section Blocks

variable {α : Type*}

/-- The `i`-th block of `n` elements. -/
def block (n i : Nat) (xs : List α) : List α := (xs.drop (i * n)).take n

theorem take_add_block (n k : Nat) (xs : List α) :
    xs.take ((k + 1) * n) = xs.take (k * n) ++ block n k xs := by
  rw [Nat.succ_mul, take_add]
  rfl

variable {n : Nat} {f : Nat → List α}

/-- Equal blocks below `k` make equal prefixes. -/
theorem take_eq_of_blocks {k : Nat} {xs ys : List α} (h : ∀ i < k, block n i xs = block n i ys) :
    xs.take (k * n) = ys.take (k * n) := by
  induction k with
  | zero => simp
  | succ k ih =>
    rw [take_add_block, take_add_block, ih fun i hi => h i (by omega), h k (by omega)]

/-- Equal prefixes have equal blocks. -/
theorem block_eq_of_take {k i : Nat} {xs ys : List α} (h : xs.take (k * n) = ys.take (k * n))
    (hi : i < k) : block n i xs = block n i ys := by
  have hle : i * n + n ≤ k * n := by nlinarith
  have hdrop : ∀ zs : List α, block n i zs = ((zs.take (k * n)).drop (i * n)).take n := by
    intro zs
    rw [block, drop_take, take_take, min_eq_left (by omega)]
  rw [hdrop xs, hdrop ys, h]

/-- The blocks of a string made of pieces of one length are the pieces. -/
theorem take_flatMap_range (hf : ∀ i, (f i).length = n) {k m : Nat} (h : k ≤ m) :
    ((List.range m).flatMap f).take (k * n) = (List.range k).flatMap f := by
  have hlen : ((List.range k).flatMap f).length = k * n := by simp [hf]
  obtain ⟨j, rfl⟩ := Nat.exists_eq_add_of_le h
  rw [range_add, flatMap_append, take_left' hlen]

theorem block_flatMap_range (hf : ∀ i, (f i).length = n) {i m : Nat} (h : i < m) :
    block n i ((List.range m).flatMap f) = f i := by
  have htake := take_flatMap_range hf (Nat.succ_le_of_lt h)
  rw [take_add_block, take_flatMap_range hf h.le, range_succ, flatMap_append] at htake
  simpa using append_cancel_left htake

end Blocks

end Viiwork.Lib
