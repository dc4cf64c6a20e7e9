import Viiwork.Energy.Store

/-!
# Viiwork.Energy.Days

The slots of local days.

The bucket of a day is the UTC day its local midnight falls in, so it is the number of the day less
the days that the offset from UTC amounts to (`Location.ahead`, `midnight_tdiv`). Two days less than
a lap apart share a slot exactly when this amount makes up for their distance: on consecutive days
when it grows by one, and where the lap is closed when it shrinks (`slot_eq_iff`).
-/

namespace Viiwork.Energy

open Viiwork.Lib

/-! ### Zones -/

namespace Location

variable {loc : Location}

/-- A time zone: local midnights are 23, 24 or 25 hours apart. -/
def Zone (loc : Location) : Prop :=
  ∀ d, loc.midnight (d + 1) - loc.midnight d = 82800 ∨
    loc.midnight (d + 1) - loc.midnight d = 86400 ∨ loc.midnight (d + 1) - loc.midnight d = 90000

/-- The offset from UTC in force at a day's midnight, in seconds to the east. -/
def offset (loc : Location) (d : Int) : Int := 86400 * d - loc.midnight d

/-- The offset in days, a part of a day counted as a day from the epoch on and not at all before. -/
def ahead (loc : Location) (d : Int) : Int :=
  if 0 ≤ loc.midnight d then -(-loc.offset d / 86400) else loc.offset d / 86400

/-- **The bucket of a day** is its number less the days its midnight is ahead of UTC. -/
theorem midnight_tdiv (loc : Location) (d : Int) :
    (loc.midnight d).tdiv 86400 = d - loc.ahead d := by
  unfold ahead offset
  split
  · rename_i hnonneg
    rw [Int.tdiv_eq_ediv_of_nonneg hnonneg]
    omega
  · rename_i hneg
    have hquot : (loc.midnight d).tdiv 86400 = -((-loc.midnight d) / 86400) := by
      rw [← Int.tdiv_eq_ediv_of_nonneg (by omega), Int.neg_tdiv, Int.neg_neg]
    rw [hquot]
    omega

/-- Local midnights of so many days are 23 to 25 hours apart for each day. -/
theorem Zone.midnight_bounds (h : loc.Zone) (d : Int) (k : Nat) :
    82800 * (k : Int) ≤ loc.midnight (d + k) - loc.midnight d ∧
      loc.midnight (d + k) - loc.midnight d ≤ 90000 * (k : Int) := by
  induction k with
  | zero => simp
  | succ k ih =>
    have hstep := h (d + k)
    rw [show d + ((k + 1 : Nat) : Int) = d + k + 1 by push_cast; ring]
    push_cast
    omega

end Location

/-! ### Slots -/

variable {cfg : Config} {loc : Location} {d d' : Int} {n : Nat}

/-- Truncation moves an instant by less than a day. -/
theorem tdiv_bounds (ts : Int) :
    ts - 86400 < 86400 * ts.tdiv 86400 ∧ 86400 * ts.tdiv 86400 < ts + 86400 := by
  have hsplit := Int.mul_tdiv_add_tmod ts 86400
  have hlt := Int.tmod_lt_of_pos ts (show (0 : Int) < 86400 by decide)
  have hgt := Int.lt_tmod_of_pos ts (show (0 : Int) < 86400 by decide)
  omega

/-- The buckets of days less than a lap apart are less than two laps apart, in order. -/
theorem bucket_bounds (h : loc.Zone) (hlt : d < d') (hnear : d' < d + n) :
    0 ≤ (loc.midnight d').tdiv 86400 - (loc.midnight d).tdiv 86400 ∧
      (loc.midnight d').tdiv 86400 - (loc.midnight d).tdiv 86400 < 2 * (n : Int) := by
  have hdist := h.midnight_bounds d (d' - d).toNat
  rw [show d + ((d' - d).toNat : Int) = d' by omega] at hdist
  constructor
  · have hmono : (loc.midnight d).tdiv 86400 ≤ (loc.midnight d').tdiv 86400 :=
      Int.tdiv_le_tdiv (by decide) (by omega)
    omega
  · have hlow := tdiv_bounds (loc.midnight d)
    have hhigh := tdiv_bounds (loc.midnight d')
    omega

/-- **When two days share a slot.** -/
theorem slot_eq_iff (h : loc.Zone) (hlt : d < d') (hnear : d' < d + n) :
    slotOf n ((loc.midnight d).tdiv 86400) = slotOf n ((loc.midnight d').tdiv 86400) ↔
      d' - d = loc.ahead d' - loc.ahead d ∨ d' - d = n + (loc.ahead d' - loc.ahead d) := by
  have hpos : 0 < n := by omega
  have hbounds := bucket_bounds h hlt hnear
  rw [slotOf_eq_iff hpos]
  rw [loc.midnight_tdiv, loc.midnight_tdiv] at hbounds ⊢
  constructor
  · intro hdvd
    obtain ⟨laps, hlaps⟩ := hdvd
    -- between none and two laps there is one
    have hlow : 0 ≤ laps := by
      by_contra hneg
      have := Int.mul_le_mul_of_nonneg_left (show laps ≤ -1 by omega) (show 0 ≤ (n : Int) by omega)
      omega
    have hhigh : laps < 2 := by
      by_contra hge
      have := Int.mul_le_mul_of_nonneg_left (show 2 ≤ laps by omega) (show 0 ≤ (n : Int) by omega)
      omega
    obtain rfl | rfl : laps = 0 ∨ laps = 1 := by omega
    · left
      omega
    · right
      omega
  · intro heq
    obtain heq | heq := heq
    · exact ⟨0, by omega⟩
    · exact ⟨1, by omega⟩

/-- From the epoch on only consecutive days share a bucket. -/
theorem consecutive_of_ahead (h : loc.Zone) (hlt : d < d') (hepoch : 0 ≤ loc.midnight d)
    (heq : d' - d = loc.ahead d' - loc.ahead d) : d' = d + 1 := by
  have hdist := h.midnight_bounds d (d' - d).toNat
  rw [show d + ((d' - d).toNat : Int) = d' by omega] at hdist
  have hbucket : (loc.midnight d).tdiv 86400 = (loc.midnight d').tdiv 86400 := by
    rw [loc.midnight_tdiv, loc.midnight_tdiv]
    omega
  rw [Int.tdiv_eq_ediv_of_nonneg hepoch, Int.tdiv_eq_ediv_of_nonneg (by omega)] at hbucket
  omega

/-- The slot of the day of an instant. -/
def daySlot (cfg : Config) (ts : Int) : Nat :=
  slotOf (cfg.slots .day) (dayBucket cfg.location ts).1

/-- A minute writes no day but its own slot's. -/
theorem writeMinute_day_of_ne (s : Store cfg) (m : Minute) {i : Nat}
    (hi : i ≠ daySlot cfg m.node.ts) :
    (s.writeMinute m).nodeDay.cells i 0 = s.nodeDay.cells i 0 ∧
      ∀ l, (s.writeMinute m).gpuDay.cells i l = s.gpuDay.cells i l := by
  constructor
  · rw [writeMinute_nodeDay]
    exact if_neg hi
  · intro l
    rw [writeMinute_gpuDay s m l i]
    exact if_neg fun hnew => hi hnew.1

/-- **Every local day keeps its own slot** but where the days that local midnight is ahead of UTC
change: two days less than a lap apart share a slot exactly when this change makes up for their
distance or for what it lacks of the lap. From the epoch on the first is possible of consecutive
days only. A minute leaves the records of a day in another slot as they are. -/
theorem daySlot_eq_iff (h : cfg.location.Zone) {ts ts' : Int}
    (hlt : cfg.location.day ts < cfg.location.day ts')
    (hnear : cfg.location.day ts' < cfg.location.day ts + cfg.slots .day) :
    let change := cfg.location.ahead (cfg.location.day ts') -
      cfg.location.ahead (cfg.location.day ts)
    let apart := cfg.location.day ts' - cfg.location.day ts
    (daySlot cfg ts = daySlot cfg ts' ↔ apart = change ∨ apart = cfg.slots .day + change) ∧
      (0 ≤ cfg.location.midnight (cfg.location.day ts) → apart = change → apart = 1) ∧
      (daySlot cfg ts ≠ daySlot cfg ts' → ∀ (s : Store cfg) (m : Minute),
        (m.node.ts = ts → (s.writeMinute m).nodeDay.cells (daySlot cfg ts') 0 =
            s.nodeDay.cells (daySlot cfg ts') 0 ∧
          ∀ l, (s.writeMinute m).gpuDay.cells (daySlot cfg ts') l =
            s.gpuDay.cells (daySlot cfg ts') l) ∧
        (m.node.ts = ts' → (s.writeMinute m).nodeDay.cells (daySlot cfg ts) 0 =
            s.nodeDay.cells (daySlot cfg ts) 0 ∧
          ∀ l, (s.writeMinute m).gpuDay.cells (daySlot cfg ts) l =
            s.gpuDay.cells (daySlot cfg ts) l)) := by
  intro change apart
  refine ⟨slot_eq_iff h hlt hnear, ?_, ?_⟩
  · intro hepoch heq
    have := consecutive_of_ahead h hlt hepoch heq
    omega
  · intro hne s m
    constructor
    · intro hm
      exact writeMinute_day_of_ne s m (by rw [hm]; exact hne.symm)
    · intro hm
      exact writeMinute_day_of_ne s m (by rw [hm]; exact hne)

/-! ### A zone that changes from UTC to an hour ahead -/

/-- London in 2026: an hour ahead of UTC from 29 March, 01:00 UTC, to 25 October, 01:00 UTC. -/
def london : Location where
  day ts := if 1774746000 ≤ ts ∧ ts < 1792890000 then (ts + 3600) / 86400 else ts / 86400
  midnight d := if 20542 ≤ d ∧ d ≤ 20751 then 86400 * d - 3600 else 86400 * d

theorem london_zone : london.Zone := by
  intro d
  simp only [london]
  split_ifs <;> omega

/-- A node with one GPU in London, with a year of days. -/
def londoner : Config where
  gpuIDs := [0]
  slots := fun _ => 365
  location := london
  gpuIDs_ne := oneID_ne
  slots_pos := fun _ => by decide

/-- Noon of 28 and of 29 March are days with slots of their own. -/
theorem daySlot_eq_iff_london : daySlot londoner 1774699200 ≠ daySlot londoner 1774785600 := by
  intro heq
  have h := (@daySlot_eq_iff londoner london_zone 1774699200 1774785600 (by decide)
    (by decide)).1.1 heq
  revert h
  decide

/-- Noon of 29 and of 30 March are in one slot: both midnights fall in the same UTC day. A minute of
the 30th destroys the record of the 29th. -/
theorem daySlot_london :
    let s := (Store.new londoner).writeMinute ⟨⟨1774785600, 100, 60⟩, []⟩
    let s' := s.writeMinute ⟨⟨1774868400, 200, 60⟩, []⟩
    london.Zone ∧ london.day 1774785600 = 20541 ∧ london.day 1774868400 = 20542 ∧
      daySlot londoner 1774785600 = daySlot londoner 1774868400 ∧
      s.readNode .day 1774742400 1774828800 = [⟨1774742400, 100, 60⟩] ∧
      s'.readNode .day 1774742400 1774828800 = [⟨1774825200, 200, 60⟩] := by
  refine ⟨london_zone, ?_⟩
  decide +kernel

end Viiwork.Energy
