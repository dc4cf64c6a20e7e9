import Viiwork.Lib.KeyedList
import Viiwork.Lib.Ring

/-!
# Viiwork.Energy.Ring

The ring file of the energy store (`energy/ring.go`): `slots` slots of `lanes` records each, and the
record of a bucket in slot `bucket mod slots`. A cell that was never written reads as the zero
record.

`window` reads the slots that can hold a record with a time stamp in `[lo, hi)`: one or two runs of
slots, or the whole ring. It misses nothing of a ring whose records stand in the slots of their own
time stamps (`Placed`, `readRange_perm`).
-/

namespace Viiwork.Energy

open Viiwork.Lib List

/-! ### The file -/

/-- What is fixed of a ring file: its slots, and the length of a bucket in seconds, which is not
positive when it is not known. -/
structure Geometry where
  slots : Nat
  period : Int
  slots_pos : 0 < slots

/-- A ring file with so many records in a slot. The lane of a record is an index, so none is out of
range. -/
structure Ring (R : Type) (g : Geometry) (lanes : Nat) where
  cells : Nat → Fin lanes → R

/-- Go's `%` takes the sign of the dividend; this one stays in `[0, b)`. -/
def mod (a b : Int) : Int :=
  let m := a.tmod b
  if m < 0 then m + b else m

theorem mod_eq_emod {a b : Int} (hb : 0 < b) : mod a b = a % b := by
  have hnonneg := Int.emod_nonneg a (show b ≠ 0 by omega)
  have hlt := Int.emod_lt_of_pos a hb
  simp only [mod]
  rw [Int.tmod_eq_emod]
  split_ifs <;> omega

variable {R : Type} {g : Geometry} {lanes : Nat}

namespace Ring

/-- A new file: every cell reads as the zero record. -/
def new [Inhabited R] : Ring R g lanes := ⟨fun _ _ => default⟩

/-- `openRing` on the file that is there, if one is: a file of another geometry is discarded. -/
def openRing [Inhabited R] :
    Option ((old : Geometry) × (n : Nat) × Ring R old n) → Ring R g lanes
  | none => new
  | some ⟨old, n, r⟩ =>
    if h : old.slots = g.slots ∧ n = lanes then ⟨fun i l => r.cells i (l.cast h.2.symm)⟩
    else new

/-- `put`: one record of one bucket. -/
def put (r : Ring R g lanes) (bucket : Int) (lane : Fin lanes) (rec : R) : Ring R g lanes :=
  ⟨fun i l => if i = (mod bucket g.slots).toNat ∧ l = lane then rec else r.cells i l⟩

/-- The records of `count` slots from `start` on. -/
def readAt (r : Ring R g lanes) (start count : Nat) : List R :=
  (List.range' start count).flatMap fun i => (List.finRange lanes).map (r.cells i)

/-- `all`: every slot. -/
def all (r : Ring R g lanes) : List R := r.readAt 0 g.slots

/-- `span`: the slots that can hold the buckets `lo..hi`, the last one included. -/
def span (r : Ring R g lanes) (lo hi : Int) : List R :=
  if hi < lo then []
  else if hi - lo + 1 ≥ g.slots then r.all
  else
    let count := (hi - lo + 1).toNat
    let start := (mod lo g.slots).toNat
    let first := min count (g.slots - start)
    r.readAt start first ++ if first < count then r.readAt 0 (count - first) else []

/-- `window`: the slots that can hold a record with a time stamp in `[lo, hi)`. -/
def window (r : Ring R g lanes) (lo hi : Int) : List R :=
  if hi ≤ lo then []
  else if g.period ≤ 0 then r.all
  else r.span (lo.tdiv g.period) ((hi - 1).tdiv g.period)

/-! ### Puts -/

/-- Opening a file of the same geometry changes nothing. -/
theorem openRing_self [Inhabited R] (r : Ring R g lanes) : openRing (some ⟨g, lanes, r⟩) = r := by
  simp [openRing]

theorem mod_slots (g : Geometry) (bucket : Int) :
    (mod bucket g.slots).toNat = slotOf g.slots bucket := by
  have hpos := g.slots_pos
  rw [mod_eq_emod (by omega), slotOf]

/-- The cell a put writes holds the record, and every other one what it held. -/
theorem put_cells (r : Ring R g lanes) (bucket : Int) (lane : Fin lanes) (rec : R) (i : Nat)
    (l : Fin lanes) :
    (r.put bucket lane rec).cells i l =
      if i = slotOf g.slots bucket ∧ l = lane then rec else r.cells i l := by
  simp only [put, mod_slots]

/-! ### Reads -/

variable {r : Ring R g lanes} {rec : R} {hi lo : Int} {ts : R → Int} {le : R → R → Prop}
  {l : Fin lanes}

theorem mem_all : rec ∈ r.all ↔ ∃ i, i < g.slots ∧ ∃ l, r.cells i l = rec := by
  simp [all, readAt, mem_range'_1]

theorem span_eq_turn (hle : lo ≤ hi) (hlap : hi - lo + 1 < g.slots) :
    r.span lo hi = (turn g.slots lo (hi - lo + 1).toNat).flatMap
      fun i => (List.finRange lanes).map (r.cells i) := by
  have hcount : (hi - lo + 1).toNat ≤ g.slots := by omega
  rw [turn_eq g.slots_pos lo hcount, flatMap_append, span, if_neg (by omega),
    if_neg (by omega)]
  simp only [mod_slots, readAt]
  split
  · rfl
  · rename_i hfirst
    rw [show (hi - lo + 1).toNat - min (hi - lo + 1).toNat (g.slots - slotOf g.slots lo) = 0 by
      omega]
    rfl

/-- A written record stands in the slot of its own time stamp. -/
def Placed (ts : R → Int) (r : Ring R g lanes) : Prop :=
  ∀ i < g.slots, ∀ l, ts (r.cells i l) ≠ 0 → slotOf g.slots ((ts (r.cells i l)).tdiv g.period) = i

/-- A put keeps the records placed if its own record belongs to the bucket. -/
theorem Placed.put (h : Placed ts r) {bucket : Int} {lane : Fin lanes}
    (hrec : ts rec ≠ 0 → (ts rec).tdiv g.period = bucket) : Placed ts (r.put bucket lane rec) := by
  intro i hi l
  rw [put_cells]
  split
  · rename_i heq
    intro hne
    rw [hrec hne, heq.1]
  · exact h i hi l

/-- Whether a time stamp is in `[lo, hi)`. -/
def within (ts : R → Int) (lo hi : Int) (rec : R) : Bool := lo ≤ ts rec && ts rec < hi

theorem within_eq_true : within ts lo hi rec = true ↔ lo ≤ ts rec ∧ ts rec < hi := by
  simp [within]

/-- **A window misses nothing.** What a reader keeps of the window is what it would keep of the
whole ring. -/
theorem window_perm (h : Placed ts r) (hlo : 0 < lo) :
    ((r.window lo hi).filter (within ts lo hi)).Perm (r.all.filter (within ts lo hi)) := by
  unfold window
  split
  · -- an empty range keeps no record of the ring
    rename_i hempty
    rw [filter_nil, filter_eq_nil_iff.2]
    intro rec _ hin
    rw [within_eq_true] at hin
    omega
  split
  · exact List.Perm.refl _
  rename_i hrange hperiod
  have hmono : lo.tdiv g.period ≤ (hi - 1).tdiv g.period :=
    Int.tdiv_le_tdiv (by omega) (by omega)
  by_cases hlap : (hi - 1).tdiv g.period - lo.tdiv g.period + 1 ≥ g.slots
  · rw [span, if_neg (by omega), if_pos hlap]
  rw [span_eq_turn hmono (by omega), all, readAt, ← range_eq_range']
  refine perm_filter_flatMap (turn_nodup g.slots_pos _ (by omega)) ?_ _ _ ?_
  · intro i hi'
    obtain ⟨b, -, -, rfl⟩ := mem_turn.1 hi'
    exact slotOf_lt g.slots_pos b
  · -- a kept record stands in a slot of the turn, since its bucket is one of the range
    intro i hi' hout
    rw [filter_eq_nil_iff]
    intro rec hrec hin
    obtain ⟨l, -, rfl⟩ := mem_map.1 hrec
    rw [within_eq_true] at hin
    refine hout (mem_turn.2 ⟨(ts (r.cells i l)).tdiv g.period, ?_, ?_, h i hi' l (by omega)⟩)
    · exact Int.tdiv_le_tdiv (by omega) hin.1
    · have := Int.tdiv_le_tdiv (c := g.period) (by omega) (show ts (r.cells i l) ≤ hi - 1 by omega)
      omega

/-- The records of a range in the reader's order: the window's, filtered and sorted. -/
def readRange (ts : R → Int) (le : R → R → Prop) [DecidableRel le] (r : Ring R g lanes)
    (lo hi : Int) : List R :=
  ((r.window lo hi).filter (within ts lo hi)).insertionSort le

/-- The records of a range by a scan of every slot. -/
def scan (ts : R → Int) (le : R → R → Prop) [DecidableRel le] (r : Ring R g lanes)
    (lo hi : Int) : List R :=
  (r.all.filter (within ts lo hi)).insertionSort le

theorem readRange_perm [DecidableRel le] (h : Placed ts r) (hlo : 0 < lo) :
    (r.readRange ts le lo hi).Perm (r.all.filter (within ts lo hi)) :=
  (perm_insertionSort le _).trans (window_perm h hlo)

/-- **Reads are exact**: a range read gives what the scan gives, if the order tells the records of
the range apart. -/
theorem readRange_eq_scan [DecidableRel le] [Std.Total le] [IsTrans R le] (h : Placed ts r)
    (hlo : 0 < lo)
    (hanti : ∀ x ∈ r.all, ∀ y ∈ r.all, ts x ≠ 0 → ts y ≠ 0 → le x y → le y x → x = y) :
    r.readRange ts le lo hi = r.scan ts le lo hi := by
  refine insertionSort_eq_of_perm le (window_perm h hlo) ?_
  intro x hx y hy hxy hyx
  rw [mem_filter, within_eq_true] at hx hy
  exact hanti x hx.1 y hy.1 (by omega) (by omega) hxy hyx

/-! ### One lane -/

/-- The records of a lane, slot by slot. -/
def lane (r : Ring R g lanes) (l : Fin lanes) : List R :=
  (List.range g.slots).map fun i => r.cells i l

theorem mem_lane : rec ∈ r.lane l ↔ ∃ i, i < g.slots ∧ r.cells i l = rec := by
  simp [lane]

/-- The records of a lane with a time stamp in `[lo, hi)`, in the reader's order. -/
def laneScan (ts : R → Int) (le : R → R → Prop) [DecidableRel le] (r : Ring R g lanes)
    (l : Fin lanes) (lo hi : Int) : List R :=
  ((r.lane l).filter (within ts lo hi)).insertionSort le

theorem mem_laneScan [DecidableRel le] :
    rec ∈ r.laneScan ts le l lo hi ↔
      (∃ i, i < g.slots ∧ r.cells i l = rec) ∧ lo ≤ ts rec ∧ ts rec < hi := by
  rw [laneScan, mem_insertionSort, mem_filter, mem_lane, within_eq_true]

/-- What tells a lane's records of the range from those of the other lanes keeps one record of a
slot at most. -/
theorem filter_slot (hlo : 0 < lo) {q : R → Bool}
    (hq : ∀ i k, ts (r.cells i k) ≠ 0 → (q (r.cells i k) = true ↔ k = l)) (i : Nat) :
    (((List.finRange lanes).map (r.cells i)).filter fun rec => within ts lo hi rec && q rec) =
      [r.cells i l].filter (within ts lo hi) := by
  have hkeep : ∀ k, (within ts lo hi (r.cells i k) && q (r.cells i k)) =
      (decide (k = l) && within ts lo hi (r.cells i l)) := by
    intro k
    cases hw : within ts lo hi (r.cells i k) with
    | false =>
      by_cases hk : k = l
      · simp [← hk, hw]
      · simp [hk]
    | true =>
      have hin := within_eq_true.1 hw
      have hqk := hq i k (by omega)
      by_cases hk : k = l
      · rw [hqk.2 hk, ← hk, hw]
        simp
      · have hqf : q (r.cells i k) = false := by
          rw [← Bool.not_eq_true, hqk]
          exact hk
        simp [hk, hqf]
  rw [filter_map]
  simp only [Function.comp_def, hkeep]
  cases hw : within ts lo hi (r.cells i l) with
  | false => simp [hw]
  | true =>
    have hone : (List.finRange lanes).filter (fun k => decide (k = l)) = [l] := by
      rw [filter_eq, count_eq_one_of_mem (nodup_finRange _) (mem_finRange l)]
      rfl
    simp [hone, hw]

/-- **A lane of a range read** is the scan of the lane. -/
theorem filter_readRange [DecidableRel le] [Std.Total le] [IsTrans R le] (h : Placed ts r)
    (hlo : 0 < lo) {q : R → Bool}
    (hq : ∀ i k, ts (r.cells i k) ≠ 0 → (q (r.cells i k) = true ↔ k = l))
    (hle : ∀ x y, le x y → le y x → ts x = ts y) :
    (r.readRange ts le lo hi).filter q = r.laneScan ts le l lo hi := by
  have hread : (r.readRange ts le lo hi).Perm (r.all.filter (within ts lo hi)) :=
    readRange_perm h hlo
  have hlane : (r.all.filter (within ts lo hi)).filter q = (r.lane l).filter (within ts lo hi) := by
    rw [filter_filter, all, readAt, ← range_eq_range', filter_flatMap, lane,
      map_eq_flatMap, filter_flatMap]
    simp only [Bool.and_comm (q _), filter_slot hlo hq]
  refine List.Perm.eq_of_pairwise ?_
    ((pairwise_insertionSort le _).sublist filter_sublist)
    (pairwise_insertionSort le _) ?_
  · -- a time stamp has one slot
    intro x y hx hy hxy hyx
    obtain ⟨⟨i, hi, rfl⟩, hxin⟩ := mem_laneScan.1
      ((mem_insertionSort le).2 (hlane ▸ (hread.filter q).mem_iff.1 hx))
    obtain ⟨⟨j, hj, rfl⟩, hyin⟩ := mem_laneScan.1 hy
    have hts := hle _ _ hxy hyx
    have hslot : i = j := by
      rw [← h i hi l (by omega), ← h j hj l (by omega), hts]
    rw [hslot]
  · rw [laneScan, ← hlane]
    exact (hread.filter q).trans (perm_insertionSort le _).symm

end Ring

end Viiwork.Energy
