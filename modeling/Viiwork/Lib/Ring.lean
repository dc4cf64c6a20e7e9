import Mathlib

/-!
# Viiwork.Lib.Ring

Rings of slots: bucket `b` of a ring of `n` slots is in slot `b mod n`, and buckets less than a lap
apart are in different slots (`slotOf_inj`).

Buckets in a row take slots in a row, with at most one wrap (`turn_eq`). What a reader looks for in
a ring is found in these slots alone when every cell that it would keep stands in the slot of a
bucket of the row (`perm_filter_flatMap`).
-/

namespace Viiwork.Lib

open List

/-- The slot of a bucket. -/
def slotOf (n : Nat) (b : Int) : Nat := (b % (n : Int)).toNat

variable {n count : Nat}

theorem coe_slotOf (hn : 0 < n) (b : Int) : (slotOf n b : Int) = b % (n : Int) :=
  Int.toNat_of_nonneg (Int.emod_nonneg b (by omega))

theorem slotOf_lt (hn : 0 < n) (b : Int) : slotOf n b < n := by
  have hlt := Int.emod_lt_of_pos b (show (0 : Int) < n by omega)
  have heq := coe_slotOf hn b
  omega

theorem slotOf_eq_iff (hn : 0 < n) {a b : Int} : slotOf n a = slotOf n b ↔ (n : Int) ∣ b - a := by
  rw [← Int.ofNat_inj, coe_slotOf hn, coe_slotOf hn]
  exact Int.modEq_iff_dvd

/-- **Less than a lap apart** two buckets have slots of their own. -/
theorem slotOf_inj (hn : 0 < n) {a b : Int} (hlt : |b - a| < n) (h : slotOf n a = slotOf n b) :
    a = b := by
  have hzero := Int.eq_zero_of_abs_lt_dvd ((slotOf_eq_iff hn).1 h) hlt
  omega

/-- The slots of `count` buckets from `lo` on. -/
def turn (n : Nat) (lo : Int) (count : Nat) : List Nat :=
  (List.range count).map fun k : Nat => slotOf n (lo + k)

theorem mem_turn {lo : Int} {i : Nat} :
    i ∈ turn n lo count ↔ ∃ b, lo ≤ b ∧ b < lo + count ∧ slotOf n b = i := by
  rw [turn, mem_map]
  constructor
  · intro h
    obtain ⟨k, hk, hi⟩ := h
    exact ⟨lo + k, by omega, by simpa using hk, hi⟩
  · intro h
    obtain ⟨b, hlo, hhi, hi⟩ := h
    refine ⟨(b - lo).toNat, ?_, ?_⟩
    · rw [mem_range]
      omega
    · rw [show lo + ((b - lo).toNat : Int) = b by omega, hi]

theorem turn_nodup (hn : 0 < n) (lo : Int) (h : count ≤ n) : (turn n lo count).Nodup := by
  refine List.Nodup.map_on ?_ nodup_range
  intro j hj k hk heq
  rw [mem_range] at hj hk
  have hlt : |lo + (k : Int) - (lo + j)| < n := by
    rw [abs_lt]
    omega
  have := slotOf_inj hn hlt heq
  omega

/-- The slot `k` buckets on, with the wrap. -/
theorem slotOf_add (hn : 0 < n) (lo : Int) {k : Nat} (hk : k < n) :
    slotOf n (lo + k) =
      if slotOf n lo + k < n then slotOf n lo + k else slotOf n lo + k - n := by
  have hstart := slotOf_lt hn lo
  have hmod : (slotOf n (lo + k) : Int) = (slotOf n lo + k : Int) % n := by
    rw [coe_slotOf hn, coe_slotOf hn, Int.emod_add_emod]
  by_cases hlt : slotOf n lo + k < n
  · rw [Int.emod_eq_of_lt (by omega) (by omega)] at hmod
    rw [if_pos hlt]
    omega
  · rw [← Int.sub_emod_right, Int.emod_eq_of_lt (by omega) (by omega)] at hmod
    rw [if_neg hlt]
    omega

/-- **Slots in a row**, with one wrap at most. -/
theorem turn_eq (hn : 0 < n) (lo : Int) (h : count ≤ n) :
    turn n lo count = List.range' (slotOf n lo) (min count (n - slotOf n lo)) ++
      List.range' 0 (count - min count (n - slotOf n lo)) := by
  have hstart := slotOf_lt hn lo
  refine ext_getElem ?_ ?_
  · simp only [turn, length_map, length_range, length_append, length_range']
    omega
  · intro k hk _
    have hk' : k < count := by simpa [turn] using hk
    have hslot := slotOf_add hn lo (show k < n by omega)
    simp only [turn, getElem_map, getElem_range, hslot]
    by_cases hlt : slotOf n lo + k < n
    · rw [getElem_append_left (by rw [length_range']; omega), if_pos hlt,
        getElem_range']
      omega
    · rw [getElem_append_right (by rw [length_range']; omega), if_neg hlt,
        getElem_range', length_range']
      omega

/-- **A part of the slots is enough** when the others hold nothing that is looked for. -/
theorem perm_filter_flatMap {α : Type*} {slots : List Nat} (hnodup : slots.Nodup)
    (hlt : ∀ i ∈ slots, i < n) (f : Nat → List α) (p : α → Bool)
    (hout : ∀ i < n, i ∉ slots → (f i).filter p = []) :
    ((slots.flatMap f).filter p).Perm (((List.range n).flatMap f).filter p) := by
  rw [filter_flatMap, filter_flatMap]
  have hin : slots.Perm ((List.range n).filter (· ∈ slots)) := by
    rw [perm_ext_iff_of_nodup hnodup (nodup_range.filter _)]
    intro i
    simp only [mem_filter, mem_range, decide_eq_true_eq]
    exact ⟨fun hi => ⟨hlt i hi, hi⟩, fun hi => hi.2⟩
  have hrest : ((List.range n).filter fun i => !decide (i ∈ slots)).flatMap
      (fun i => (f i).filter p) = [] := by
    rw [flatMap_eq_nil_iff]
    intro i hi
    simp only [mem_filter, mem_range, Bool.not_eq_true', decide_eq_false_iff_not] at hi
    exact hout i hi.1 hi.2
  have hall := (filter_append_perm (fun i => decide (i ∈ slots)) (List.range n)).flatMap_right
    fun i => (f i).filter p
  rw [flatMap_append, hrest, append_nil] at hall
  exact (hin.flatMap_right _).trans hall

/-- Sorted lists of the same elements are the same, if the order tells them apart. -/
theorem insertionSort_eq_of_perm {α : Type*} (r : α → α → Prop) [DecidableRel r] [Std.Total r]
    [IsTrans α r] {xs ys : List α} (h : xs.Perm ys)
    (hanti : ∀ x ∈ ys, ∀ y ∈ ys, r x y → r y x → x = y) :
    xs.insertionSort r = ys.insertionSort r := by
  refine List.Perm.eq_of_pairwise ?_ (pairwise_insertionSort r xs)
    (pairwise_insertionSort r ys) ?_
  · intro x y hx hy hxy hyx
    rw [mem_insertionSort] at hx hy
    exact hanti x (h.mem_iff.1 hx) y hy hxy hyx
  · exact (perm_insertionSort r xs).trans (h.trans (perm_insertionSort r ys).symm)

end Viiwork.Lib
